import GajaeCode.Text.JsString

/-! Line normalisation and edit distance of the native fuzzy matcher
(`crates/pi-natives/src/edit_fuzzy.rs`). -/
namespace GajaeCode.Natives.EditFuzzy
open Text

def isJsTrimWhitespace (unit : UInt16) : Bool :=
  unit == 0x0009 || unit == 0x000a || unit == 0x000b || unit == 0x000c || unit == 0x000d ||
    unit == 0x0020 || unit == 0x00a0 || unit == 0x1680 || (0x2000 ≤ unit && unit ≤ 0x200a) ||
    unit == 0x2028 || unit == 0x2029 || unit == 0x202f || unit == 0x205f || unit == 0x3000 ||
    unit == 0xfeff

/-- The slice between the bounds that `trimmed_bounds` computes. -/
def trimmedUnits (units : JsStr) : JsStr :=
  (units.dropWhile isJsTrimWhitespace).rdropWhile isJsTrimWhitespace

def mappedUnit (unit : UInt16) : UInt16 :=
  if [0x201e, 0x201f, 0x00ab, 0x00bb].contains unit then 0x22
  else if [0x201a, 0x201b, 0x0060, 0x00b4].contains unit then 0x27
  else if [0x2010, 0x2011, 0x2012, 0x2013, 0x2014, 0x2212].contains unit then 0x2d
  else unit

def depthText (depth : Int) : JsStr :=
  if depth < 0 then 0x2d :: decimal depth.natAbs else decimal depth.natAbs

def pushDepthPrefix (depth : Int) (includeDepth : Bool) : JsStr :=
  (if includeDepth then depthText depth else []) ++ [0x7c]

/-- The loop over the trimmed units with its pending-space flag. -/
def normalizeUnits : JsStr → List UInt16 → Bool → List UInt16
  | [], out, _ => out
  | unit :: rest, out, pendingSpace =>
    if unit == 0x20 || unit == 0x09 then normalizeUnits rest out true
    else
      let spaced :=
        if pendingSpace && !out.isEmpty && out.getLast? != some 0x7c then out ++ [0x20] else out
      normalizeUnits rest (spaced ++ [mappedUnit unit]) false

def normalizeLine (units : JsStr) (prefixDepth : Option Int) : List UInt16 :=
  let out := match prefixDepth with
    | some depth => pushDepthPrefix depth true
    | none => []
  normalizeUnits (trimmedUnits units) out false

/-- The inner loop of `levenshtein_dp` from `prev[j - 1]` on; `left` is `curr[j - 1]`. -/
def dpCells (aCode : UInt16) : List UInt16 → List Nat → Nat → List Nat
  | bCode :: b, diag :: up :: prev, left =>
    let cost := if aCode != bCode then 1 else 0
    let deletion := up + 1
    let insertion := left + 1
    let substitution := diag + cost
    let cell := min (min deletion insertion) substitution
    cell :: dpCells aCode b (up :: prev) cell
  | _, _, _ => []

def dpRows (b : List UInt16) : List UInt16 → Nat → List Nat → List Nat
  | [], _, prev => prev
  | aCode :: a, i, prev => dpRows b a (i + 1) (i :: dpCells aCode b prev i)

def levenshteinDp (a b : List UInt16) : Nat :=
  if a = b then 0
  else if a.length = 0 then b.length
  else if b.length = 0 then a.length
  else (dpRows b a 1 (List.range (b.length + 1))).getD b.length 0

abbrev U128 := BitVec 128

structure MyersPattern where
  units : List UInt16
  masks : UInt16 → Option U128
  highBit : U128
  activeBits : U128

/-- `*masks.entry(unit).or_insert(0) |= 1u128 << idx`, for each unit in turn. -/
def insertMasks : List UInt16 → Nat → (UInt16 → Option U128) → UInt16 → Option U128
  | [], _, masks => masks
  | unit :: units, idx, masks =>
    insertMasks units (idx + 1) fun key =>
      if key = unit then some ((masks unit).getD 0 ||| (1#128 <<< idx)) else masks key

def MyersPattern.new (units : List UInt16) : MyersPattern :=
  let masks := insertMasks units 0 fun _ => none
  let len := units.length
  if len = 0 then { units := [], masks, highBit := 0, activeBits := 0 }
  else
    let activeBits : U128 := if len = 128 then BitVec.allOnes 128 else (1#128 <<< len) - 1
    { units, masks, highBit := 1#128 <<< (len - 1), activeBits }

structure MyersState where
  score : Nat
  pv : U128
  mv : U128

/-- The loop body of `distance`; `none` where `score -= 1` would underflow. -/
def MyersPattern.advance (pattern : MyersPattern) (state : MyersState) (unit : UInt16) : Option MyersState :=
  let pv := state.pv
  let mv := state.mv
  let eq := (pattern.masks unit).getD 0
  let xv := eq ||| mv
  let xh := (((eq &&& pv) + pv) ^^^ pv) ||| eq
  let ph := mv ||| ~~~(xh ||| pv)
  let mh := pv &&& xh
  let score :=
    if ph &&& pattern.highBit ≠ 0 then some (state.score + 1)
    else if mh &&& pattern.highBit ≠ 0 then
      if state.score = 0 then none else some (state.score - 1)
    else some state.score
  let ph := ((ph <<< 1) ||| 1) &&& pattern.activeBits
  let mh := (mh <<< 1) &&& pattern.activeBits
  score.map fun score =>
    { score
      pv := (mh ||| ~~~(xv ||| ph)) &&& pattern.activeBits
      mv := (ph &&& xv) &&& pattern.activeBits }

def MyersPattern.distance (pattern : MyersPattern) (text : List UInt16) : Option Nat :=
  if pattern.units = text then some 0
  else
    let patternLen := pattern.units.length
    if patternLen = 0 then some text.length
    else if text.isEmpty then some patternLen
    else if patternLen > 128 then some (levenshteinDp pattern.units text)
    else
      (text.foldlM pattern.advance { score := patternLen, pv := pattern.activeBits, mv := 0 }).map MyersState.score

end GajaeCode.Natives.EditFuzzy
