import GajaeCode.Text.Utf8

/-! Hashline anchors (`hashline/hash.ts`). The 32-bit hash of the runtime is a
parameter: only its being a function of the bytes is used. -/
namespace GajaeCode.Hashline
open Text

def bigramRow (first : Char) (seconds : String) : List (Char × Char) :=
  seconds.toList.map fun second => (first, second)

/-- `bigrams.json`, in file order. -/
def bigrams : List (Char × Char) :=
  bigramRow 'a' "abcdefghijklmnopqrstuvwxyz" ++
  bigramRow 'b' "abcdefghijklmnoprstuvwxyz" ++
  bigramRow 'c' "abcdefghijklmnopqrstuvwxyz" ++
  bigramRow 'd' "abcdefghijklmnopqrstuvwxyz" ++
  bigramRow 'e' "abcdefghijklmnopqrstuvwxyz" ++
  bigramRow 'f' "abcdefghijklmnopqrstuvwxyz" ++
  bigramRow 'g' "abcdefghijlmnoprstuvwxyz" ++
  bigramRow 'h' "abcdefghijklmnopqrstuvwxyz" ++
  bigramRow 'i' "abcdefghijklmnopqrstuvwxyz" ++
  bigramRow 'j' "abcdefghijklmnopqrstuwxy" ++
  bigramRow 'k' "abcdefghijklmnoprstuvwxy" ++
  bigramRow 'l' "abcdefghijklmnoprstuvwxyz" ++
  bigramRow 'm' "abcdefghijklmnopqrstuvwxyz" ++
  bigramRow 'n' "abcdefghijklmnoprstuvwxyz" ++
  bigramRow 'o' "abcdefghijklmnopqrstuvwxyz" ++
  bigramRow 'p' "abcdefghijklmnopqrstuvwxyz" ++
  bigramRow 'q' "abcdehilmnopqrstuwxy" ++
  bigramRow 'r' "abcdefghiklmnopqrstuvwxyz" ++
  bigramRow 's' "abcdefghijklmnopqrstuvwxyz" ++
  bigramRow 't' "abcdefghijklmnoprstuvwxyz" ++
  bigramRow 'u' "abcdefghijklmnopqrstuvwxyz" ++
  bigramRow 'v' "abcdefghijklmnopqrstuvwxyz" ++
  bigramRow 'w' "abcdefghijklmnoprstuvwxy" ++
  bigramRow 'x' "abcdefhilmnoprstuxyz" ++
  bigramRow 'y' "abcdefghijklmnoprstuvwxyz" ++
  bigramRow 'z' "abcdefghiklmnoprstuwxyz"

def hlBigrams : List JsStr :=
  bigrams.map fun e => [UInt16.ofNat e.1.toNat, UInt16.ofNat e.2.toNat]

theorem bigrams_length : bigrams.length = 647 := by decide +kernel

theorem hlBigrams_length : hlBigrams.length = 647 := by
  rw [hlBigrams, List.length_map, bigrams_length]

section
variable (xxHash32 : List UInt8 → UInt32)

/-- The line number is accepted and ignored, as in the source. -/
def computeLineHash (_idx : Nat) (line : JsStr) : JsStr :=
  let line := trimEnd (line.filter (· != CR))
  hlBigrams.getD ((xxHash32 (encodeUtf8 line)).toNat % hlBigrams.length) []

def formatHashLine (lineNumber : Nat) (line : JsStr) : JsStr :=
  decimal lineNumber ++ computeLineHash xxHash32 lineNumber line ++ lit "|" ++ line

/-- The loop of `formatHashLines`, taken when the native formatter is unavailable. -/
def formatHashLines (text : JsStr) (startLine : Nat) : JsStr :=
  joinLines ((splitLines text).mapIdx fun i line => formatHashLine xxHash32 (startLine + i) line)

end

end GajaeCode.Hashline
