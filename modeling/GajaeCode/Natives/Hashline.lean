import GajaeCode.Hashline.Hash

/-! The native hashline formatter (`crates/pi-natives/src/hashline.rs`). -/
namespace GajaeCode.Natives.Hashline
open Text
open GajaeCode.Hashline (bigramRow bigrams)

def hlBigrams : List (Char × Char) :=
  bigramRow 'a' "abcdefghijklmnopqrstuvwxyz" ++
  bigramRow 'b' "abcdefghijklmnoprstuvwxyz" ++
  bigramRow 'c' "abcdefghijklmnopqrstuvwxyz" ++
  bigramRow 'd' "abcdefghijklmnopqrstuvwxyz" ++
  bigramRow 'e' "abcdefghijklmnopqrstuvwxyz" ++
  bigramRow 'f' "abcdefghijklmnopqrstuvwxyz" ++
  bigramRow 'g' "abcdefghijlmnoprstuvwxyz" ++
  bigramRow 'h' "abcdefghijklmnopqrstuvwxyz" ++
  bigramRow 'i' "abcdefghijklmnopqrstuvwxyz" ++
  bigramRow 'j' "abcdefghijklmnopqrstuwxy" ++
  bigramRow 'k' "abcdefghijklmnoprstuvwxy" ++
  bigramRow 'l' "abcdefghijklmnoprstuvwxyz" ++
  bigramRow 'm' "abcdefghijklmnopqrstuvwxyz" ++
  bigramRow 'n' "abcdefghijklmnoprstuvwxyz" ++
  bigramRow 'o' "abcdefghijklmnopqrstuvwxyz" ++
  bigramRow 'p' "abcdefghijklmnopqrstuvwxyz" ++
  bigramRow 'q' "abcdehilmnopqrstuwxy" ++
  bigramRow 'r' "abcdefghiklmnopqrstuvwxyz" ++
  bigramRow 's' "abcdefghijklmnopqrstuvwxyz" ++
  bigramRow 't' "abcdefghijklmnoprstuvwxyz" ++
  bigramRow 'u' "abcdefghijklmnopqrstuvwxyz" ++
  bigramRow 'v' "abcdefghijklmnopqrstuvwxyz" ++
  bigramRow 'w' "abcdefghijklmnoprstuvwxy" ++
  bigramRow 'x' "abcdefhilmnoprstuxyz" ++
  bigramRow 'y' "abcdefghijklmnoprstuvwxyz" ++
  bigramRow 'z' "abcdefghiklmnoprstuwxyz"

def isJsTrimEndWhitespace (unit : UInt16) : Bool :=
  unit == 0x0009 || unit == 0x000a || unit == 0x000b || unit == 0x000c || unit == 0x000d ||
    unit == 0x0020 || unit == 0x00a0 || unit == 0x1680 || (0x2000 ≤ unit && unit ≤ 0x200a) ||
    unit == 0x2028 || unit == 0x2029 || unit == 0x202f || unit == 0x205f || unit == 0x3000 ||
    unit == 0xfeff

def pushUtf8CodeUnit (unit : UInt16) : List UInt8 :=
  let hi : UInt16 := unit >>> 12
  let mid : UInt16 := unit >>> 6
  if unit < 0x80 then [unit.toUInt8]
  else if unit < 0x800 then [(0xc0 ||| mid).toUInt8, (0x80 ||| (unit &&& 0x3f)).toUInt8]
  else [(0xe0 ||| hi).toUInt8, (0x80 ||| (mid &&& 0x3f)).toUInt8, (0x80 ||| (unit &&& 0x3f)).toUInt8]

def pairScalarValue (unit next : UInt16) : UInt32 :=
  let top : UInt32 := (unit - 0xd800).toUInt32 <<< 10
  0x10000 + (top ||| (next - 0xdc00).toUInt32)

def pushScalar (scalar : UInt32) : List UInt8 :=
  let b3 : UInt32 := scalar >>> 18
  let b2 : UInt32 := scalar >>> 12
  let b1 : UInt32 := scalar >>> 6
  [(0xf0 ||| b3).toUInt8, (0x80 ||| (b2 &&& 0x3f)).toUInt8, (0x80 ||| (b1 &&& 0x3f)).toUInt8,
    (0x80 ||| (scalar &&& 0x3f)).toUInt8]

/-- The bytes pushed for a unit that opens no pair. -/
def loneBytes (unit : UInt16) : List UInt8 :=
  if 0xd800 ≤ unit && unit ≤ 0xdfff then [0xef, 0xbf, 0xbd] else pushUtf8CodeUnit unit

def pushJsUtf8WithoutCr : JsStr → List UInt8
  | [] => []
  | [unit] => if unit = CR then [] else loneBytes unit
  | unit :: next :: rest =>
    if unit = CR then pushJsUtf8WithoutCr (next :: rest)
    else if (0xd800 ≤ unit && unit ≤ 0xdbff) && (0xdc00 ≤ next && next ≤ 0xdfff) then
      pushScalar (pairScalarValue unit next) ++ pushJsUtf8WithoutCr rest
    else loneBytes unit ++ pushJsUtf8WithoutCr (next :: rest)

/-- Digits of `value`, least significant first; `room` is what is left of the ten-digit buffer. -/
def decimalLoop : Nat → UInt32 → List UInt16
  | 0, _ => []
  | room + 1, value =>
    (0x30 + (value % 10).toUInt16) ::
      if value / 10 = 0 then [] else decimalLoop room (value / 10)

def pushDecimal (value : UInt32) : List UInt16 := (decimalLoop 10 value).reverse

def saturatingSucc (n : UInt32) : UInt32 := if n = 0xffffffff then n else n + 1

/-- What `into_utf16` exposes: the units of the string and one synthetic terminator. -/
def intoUtf16 (text : JsStr) : List UInt16 := text ++ [0]

def stripTerminator (buffer : List UInt16) : List UInt16 :=
  if buffer.getLast? = some 0 then buffer.dropLast else buffer

section
variable (xxHash32 : List UInt8 → UInt32)

def hashLine (line : JsStr) : Char × Char :=
  let bytes := pushJsUtf8WithoutCr (line.rdropWhile isJsTrimEndWhitespace)
  hlBigrams.getD ((xxHash32 bytes).toNat % hlBigrams.length) default

def pushHashline (lineNumber : UInt32) (line : JsStr) : List UInt16 :=
  let hash := hashLine xxHash32 line
  pushDecimal lineNumber ++ [UInt16.ofNat hash.1.toNat, UInt16.ofNat hash.2.toNat, 0x7c] ++ line

/-- The scan over the units: `line` is the slice since the last line feed. -/
def formatLoop : JsStr → UInt32 → JsStr → List UInt16 → List UInt16
  | [], lineNumber, line, out => out ++ pushHashline xxHash32 lineNumber line
  | unit :: rest, lineNumber, line, out =>
    if unit = LF then
      formatLoop rest (saturatingSucc lineNumber) [] (out ++ pushHashline xxHash32 lineNumber line ++ [LF])
    else formatLoop rest lineNumber (line ++ [unit]) out

def h06FormatHashLines (text : JsStr) (startLine : Option UInt32) : List UInt16 :=
  formatLoop xxHash32 (stripTerminator (intoUtf16 text)) (startLine.getD 1) [] []

end

end GajaeCode.Natives.Hashline
