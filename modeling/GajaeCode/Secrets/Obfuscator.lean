import GajaeCode.Secrets.Placeholder
import GajaeCode.Data.InsertionMap
import GajaeCode.Text.Regex

/-! The secret obfuscator (`packages/coding-agent/src/secrets/obfuscator.ts`). The crypto library, the
hash of the runtime and the regular expressions of the user are parameters. -/
namespace GajaeCode.Secrets
open Text Data

/-- A compiled expression with the global flag: `exec text lastIndex` is the position and the text of
the next match. With the flag `u` a search from inside a surrogate pair starts at the pair. -/
structure SecretRegex where
  exec : JsStr → Nat → Option (Nat × JsStr)
  index_at : ∀ {text lastIndex index value}, exec text lastIndex = some (index, value) →
    lastIndex ≤ index ∨ lastIndex = index + 1 ∧ value.length ≠ 1
  value_at : ∀ {text lastIndex index value},
    exec text lastIndex = some (index, value) → index ≤ text.length ∧ value <+: text.drop index

def searchFrom (r : Regex UInt16) : Nat → JsStr → Option (Nat × JsStr)
  | index, [] => (r.matchStart []).map fun _ => (index, [])
  | index, u :: s =>
    match r.matchStart (u :: s) with
    | some (rest, _) => some (index, (u :: s).take (s.length + 1 - rest.length))
    | none => searchFrom r (index + 1) s

theorem searchFrom_eq_some {r index s found value} (h : searchFrom r index s = some (found, value)) :
    ∃ k ≤ s.length, found = index + k ∧ value <+: s.drop k := by
  induction s generalizing index with
  | nil =>
    obtain ⟨_, -, heq⟩ := Option.map_eq_some_iff.mp h
    cases heq
    exact ⟨0, le_rfl, rfl, List.nil_prefix⟩
  | cons u s ih =>
    rw [searchFrom] at h
    split at h
    · cases h
      exact ⟨0, Nat.zero_le _, rfl, List.take_prefix _ _⟩
    · obtain ⟨k, hk, rfl, hvalue⟩ := ih h
      exact ⟨k + 1, Nat.succ_le_succ hk, by omega, hvalue⟩

/-- An expression without the flag `u`. -/
def SecretRegex.ofRegex (r : Regex UInt16) : SecretRegex where
  exec text lastIndex := if lastIndex ≤ text.length then searchFrom r lastIndex (text.drop lastIndex) else none
  index_at h := by
    split_ifs at h
    obtain ⟨k, -, rfl, -⟩ := searchFrom_eq_some h
    exact .inl (Nat.le_add_right _ _)
  value_at h := by
    split_ifs at h with hle
    obtain ⟨k, hk, rfl, hvalue⟩ := searchFrom_eq_some h
    rw [List.length_drop] at hk
    rw [List.drop_drop] at hvalue
    exact ⟨by omega, hvalue⟩

structure Runtime where
  hmac : Hmac
  bunHash : JsStr → Nat
  /-- `none` is an invalid pattern. -/
  compileSecretRegex : JsStr → Option JsStr → Option SecretRegex

structure Key where
  bytes : List UInt8
  length_bytes : bytes.length = 32

inductive EntryType where
  | plain
  | regex
deriving DecidableEq

inductive Mode where
  | obfuscate
  | replace
deriving DecidableEq

structure SecretEntry where
  type : EntryType
  content : JsStr
  mode : Option Mode
  replacement : Option JsStr
  flags : Option JsStr

def replacementChars : JsStr :=
  lit "ABCDEFGHIJKLMNOPQRSTUVWXYZabcdefghijklmnopqrstuvwxyz0123456789"

/-- The hash is mixed with each position in turn; it never gets negative. -/
def mixedUnits (h : Nat) : List Nat → JsStr
  | [] => []
  | i :: is =>
    let h := h ^^^ ((i + 1) * 0x9e3779b97f4a7c15)
    replacementChars.getD (h % replacementChars.length) 0x41 :: mixedUnits h is

def generateDeterministicReplacement (rt : Runtime) (secret : JsStr) : JsStr :=
  mixedUnits (rt.bunHash secret) (List.range secret.length)

def replaceAll (text search replacement : JsStr) : JsStr :=
  if search.length = 0 || !includes text search then text
  else replacement.intercalate (splitString text search)

structure RegexEntry where
  regex : SecretRegex
  mode : Mode
  replacement : Option JsStr

structure ObfuscateMapping where
  secret : JsStr
  index : Nat
  placeholder : JsStr

structure PlainMapping where
  secret : JsStr
  replacement : JsStr

structure SecretObfuscator where
  placeholderKey : Key
  plainMappings : List (JsStr × Nat)
  regexEntries : List RegexEntry
  obfuscateMappings : List (Nat × JsStr × JsStr)
  replaceMappings : List (JsStr × JsStr)
  sortedReplaceMappings : List PlainMapping
  sortedObfuscateMappings : List ObfuscateMapping
  obfuscateIndexBySecret : List (JsStr × Nat)
  deobfuscateMap : List (JsStr × JsStr)
  /-- The alternatives of the combined expression. -/
  combinedPlainRegex : Option (List JsStr)
  combinedPlainReplacementBySecret : List (JsStr × JsStr)
  combinedPlainRegexDirty : Bool
  useSequentialPlainReplacement : Bool
  nextIndex : Nat
  hasAny : Bool

namespace SecretObfuscator

def placeholderOf (rt : Runtime) (o : SecretObfuscator) (secret : JsStr) : JsStr :=
  buildPlaceholder rt.hmac secret o.placeholderKey.bytes

/-- The body of the constructor's loop. -/
def addEntry (rt : Runtime) (o : SecretObfuscator) (entry : SecretEntry) : SecretObfuscator :=
  let mode := entry.mode.getD .obfuscate
  match entry.type, mode with
  | .plain, .obfuscate =>
    let placeholder := o.placeholderOf rt entry.content
    { o with
      plainMappings := assocSet entry.content o.nextIndex o.plainMappings
      obfuscateMappings := assocSet o.nextIndex (entry.content, placeholder) o.obfuscateMappings
      deobfuscateMap := assocSet placeholder entry.content o.deobfuscateMap
      obfuscateIndexBySecret := assocSet entry.content o.nextIndex o.obfuscateIndexBySecret
      nextIndex := o.nextIndex + 1 }
  | .plain, .replace =>
    let replacement := entry.replacement.getD (generateDeterministicReplacement rt entry.content)
    { o with replaceMappings := assocSet entry.content replacement o.replaceMappings }
  | .regex, mode =>
    match rt.compileSecretRegex entry.content entry.flags with
    | some regex =>
      { o with regexEntries := o.regexEntries ++ [⟨regex, mode, entry.replacement⟩] }
    | none => o

def empty (key : Key) : SecretObfuscator :=
  { placeholderKey := key
    plainMappings := []
    regexEntries := []
    obfuscateMappings := []
    replaceMappings := []
    sortedReplaceMappings := []
    sortedObfuscateMappings := []
    obfuscateIndexBySecret := []
    deobfuscateMap := []
    combinedPlainRegex := none
    combinedPlainReplacementBySecret := []
    combinedPlainRegexDirty := true
    useSequentialPlainReplacement := false
    nextIndex := 0
    hasAny := false }

/-- The stable sort by `b[0].length - a[0].length`. -/
def longestFirst {ν : Type} (mappings : List (JsStr × ν)) : List (JsStr × ν) :=
  mappings.insertionSort fun a b => b.1.length ≤ a.1.length

/-- The placeholder recorded under an index; every index in use has one. -/
def placeholderAtIndex (o : SecretObfuscator) (index : Nat) : JsStr :=
  ((o.obfuscateMappings.lookup index).map Prod.snd).getD []

def construct (rt : Runtime) (entries : List SecretEntry) (key : Key) : SecretObfuscator :=
  let o := entries.foldl (addEntry rt) (empty key)
  { o with
    sortedReplaceMappings := (longestFirst o.replaceMappings).map fun (secret, replacement) => ⟨secret, replacement⟩
    sortedObfuscateMappings :=
      (longestFirst o.plainMappings).map fun (secret, index) =>
        ⟨secret, index, o.placeholderAtIndex index⟩
    hasAny := entries.length > 0 }

/-- The binary search of `insertSortedObfuscateMapping`. -/
def insertPosition (sorted : List ObfuscateMapping) (secret : JsStr) (lo hi : Nat) : Nat :=
  if lo < hi then
    let mid := (lo + hi) / 2
    if (sorted[mid]?.map (·.secret.length)).getD 0 < secret.length then insertPosition sorted secret lo mid
    else insertPosition sorted secret (mid + 1) hi
  else lo
termination_by hi - lo

def insertSortedObfuscateMapping (sorted : List ObfuscateMapping) (mapping : ObfuscateMapping) :
    List ObfuscateMapping :=
  sorted.insertIdx (insertPosition sorted mapping.secret 0 sorted.length) mapping

def plainMappingList (o : SecretObfuscator) : List PlainMapping :=
  o.sortedReplaceMappings ++ o.sortedObfuscateMappings.map fun mapping => ⟨mapping.secret, mapping.placeholder⟩

/-- Whether one secret contains another or a replacement contains a secret. -/
def needsSequential (mappings : List PlainMapping) : Bool :=
  mappings.zipIdx.any fun (mapping, index) =>
    mappings.zipIdx.any fun (other, otherIndex) =>
      decide (other.secret.length > 0) &&
        (includes mapping.replacement other.secret ||
          (decide (index ≠ otherIndex) &&
            (includes mapping.secret other.secret || includes other.secret mapping.secret)))

/-- The first mapping of a secret wins. -/
def replacementBySecret (mappings : List PlainMapping) : List (JsStr × JsStr) :=
  mappings.foldl (fun map mapping =>
    if (map.lookup mapping.secret).isSome then map
    else assocSet mapping.secret mapping.replacement map) []

/-- The escaped secrets, joined by `|`, match the first secret that the text starts with. -/
def ensureCombinedPlainRegex (o : SecretObfuscator) : SecretObfuscator :=
  if !o.combinedPlainRegexDirty then o
  else
    let mappings := o.plainMappingList
    { o with
      combinedPlainRegexDirty := false
      useSequentialPlainReplacement := needsSequential mappings
      combinedPlainReplacementBySecret := replacementBySecret mappings
      combinedPlainRegex :=
        if mappings.length > 0 then some (mappings.map PlainMapping.secret) else none }

def obfuscatePlainMappingsSequential (o : SecretObfuscator) (text : JsStr) : JsStr :=
  let result := o.sortedReplaceMappings.foldl
    (fun result mapping => replaceAll result mapping.secret mapping.replacement) text
  o.sortedObfuscateMappings.foldl
    (fun result mapping => replaceAll result mapping.secret mapping.placeholder) result

def obfuscatePlainMappings (o : SecretObfuscator) (text : JsStr) : JsStr × SecretObfuscator :=
  let o := o.ensureCombinedPlainRegex
  if o.useSequentialPlainReplacement then (o.obfuscatePlainMappingsSequential text, o)
  else
    match o.combinedPlainRegex with
    | none => (text, o)
    | some secrets =>
      (render (fun found => (o.combinedPlainReplacementBySecret.lookup found).getD found)
        (scan (alternatives secrets) text), o)

/-- The matches of an entry that are not empty, from `lastIndex` on; `none` after as many rounds. -/
def matchesFrom (regex : SecretRegex) (text : JsStr) : Nat → Nat → Option (List JsStr)
  | 0, _ => none
  | rounds + 1, lastIndex =>
    match regex.exec text lastIndex with
    | none => some []
    | some (index, value) =>
      if value.length = 0 then matchesFrom regex text rounds (index + 1)
      else (matchesFrom regex text rounds (index + value.length)).map (value :: ·)

def recordSecret (rt : Runtime) (o : SecretObfuscator) (secret : JsStr) : SecretObfuscator :=
  let index := o.nextIndex
  let placeholder := o.placeholderOf rt secret
  { o with
    nextIndex := o.nextIndex + 1
    obfuscateMappings := assocSet index (secret, placeholder) o.obfuscateMappings
    deobfuscateMap := assocSet placeholder secret o.deobfuscateMap
    obfuscateIndexBySecret := assocSet secret index o.obfuscateIndexBySecret
    sortedObfuscateMappings := insertSortedObfuscateMapping o.sortedObfuscateMappings ⟨secret, index, placeholder⟩
    combinedPlainRegexDirty := true }

def replaceMatch (rt : Runtime) (entry : RegexEntry) (state : JsStr × SecretObfuscator)
    (matchValue : JsStr) : JsStr × SecretObfuscator :=
  let (result, o) := state
  match entry.mode with
  | .replace =>
    (replaceAll result matchValue (entry.replacement.getD (generateDeterministicReplacement rt matchValue)), o)
  | .obfuscate =>
    match o.obfuscateIndexBySecret.lookup matchValue with
    | some index => (replaceAll result matchValue (o.placeholderAtIndex index), o)
    | none =>
      let index := o.nextIndex
      let o := o.recordSecret rt matchValue
      (replaceAll result matchValue (o.placeholderAtIndex index), o)

/-- A search that moves on needs no more rounds; one that does not goes on for ever. -/
def processEntry (rt : Runtime) (state : JsStr × SecretObfuscator) (entry : RegexEntry) :
    Option (JsStr × SecretObfuscator) :=
  (matchesFrom entry.regex state.1 (state.1.length + 2) 0).map fun found =>
    found.eraseDups.foldl (replaceMatch rt entry) state

/-- `none` if the call does not return. -/
def obfuscate (rt : Runtime) (o : SecretObfuscator) (text : JsStr) : Option (JsStr × SecretObfuscator) :=
  if !o.hasAny then some (text, o)
  else o.regexEntries.foldlM (processEntry rt) (o.obfuscatePlainMappings text)

end SecretObfuscator

section

variable {τ β μ : Type}

/-- A content block; `rest` and `block` are what the walk leaves alone. -/
inductive Block (τ β : Type) where
  | text (text : JsStr) (rest : τ)
  | other (block : β)

inductive Content (τ β : Type) where
  | string (text : JsStr)
  | blocks (blocks : List (Block τ β))

/-- A message of any role, with its other fields in `rest`. -/
structure Message (τ β μ : Type) where
  content : Content τ β
  rest : μ

/-- A block whose text does not change stays the same block. -/
def obfuscateBlock (rt : Runtime) (o : SecretObfuscator) (block : Block τ β) :
    Option (Block τ β × SecretObfuscator) :=
  match block with
  | .text text rest =>
    (o.obfuscate rt text).map fun (obfuscated, o) => (if obfuscated ≠ text then .text obfuscated rest else block, o)
  | .other _ => some (block, o)

def obfuscateBlocks (rt : Runtime) :
    SecretObfuscator → List (Block τ β) → Option (List (Block τ β) × SecretObfuscator)
  | o, [] => some ([], o)
  | o, block :: blocks => do
    let (block, o) ← obfuscateBlock rt o block
    let (blocks, o) ← obfuscateBlocks rt o blocks
    some (block :: blocks, o)

def obfuscateMessage (rt : Runtime) (o : SecretObfuscator) (msg : Message τ β μ) :
    Option (Message τ β μ × SecretObfuscator) :=
  match msg.content with
  | .string _ => some (msg, o)
  | .blocks blocks =>
    (obfuscateBlocks rt o blocks).map fun (content, o) => ({ msg with content := .blocks content }, o)

def obfuscateMessages (rt : Runtime) :
    SecretObfuscator → List (Message τ β μ) → Option (List (Message τ β μ) × SecretObfuscator)
  | o, [] => some ([], o)
  | o, msg :: messages => do
    let (msg, o) ← obfuscateMessage rt o msg
    let (messages, o) ← obfuscateMessages rt o messages
    some (msg :: messages, o)

end

end GajaeCode.Secrets
