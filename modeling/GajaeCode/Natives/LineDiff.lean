import Mathlib

/-! The line differ (`crates/pi-natives/src/linediff.rs`). Strings are their bytes. `none` is a
panic: an index out of range, a slice out of range or a failed `expect`. -/
namespace GajaeCode.Natives.LineDiff

abbrev Token := List UInt8

structure LineDiffPart where
  added : Bool
  removed : Bool
  value : List UInt8
deriving DecidableEq, Repr

/-- The alternating content and separator segments; `content` is the segment being read. -/
def splitSegments : List UInt8 → List UInt8 → List Token
  | [], content => [content]
  | 0x0a :: rest, content => content :: [0x0a] :: splitSegments rest []
  | 0x0d :: 0x0a :: rest, content => content :: [0x0d, 0x0a] :: splitSegments rest []
  | byte :: rest, content => splitSegments rest (content ++ [byte])

/-- Merges each separator (odd index) into the preceding content. -/
def mergeSeparators : List Token → List Token
  | content :: separator :: rest => (content ++ separator) :: mergeSeparators rest
  | segments => segments

def tokenizeRanges (value : List UInt8) : List Token :=
  let split := splitSegments value []
  let split := if split.getLast? = some [] then split.dropLast else split
  (mergeSeparators split).filter (· ≠ [])

structure PathNode where
  oldPos : Int
  last : Option Nat
deriving DecidableEq, Repr

structure Comp where
  count : Nat
  added : Bool
  removed : Bool
  prev : Option Nat
deriving DecidableEq, Repr

def nextComp (comps : List Comp) (last : Option Nat) (added removed : Bool) : Option Comp :=
  match last with
  | some li => do
      let comp ← comps[li]?
      if comp.added = added ∧ comp.removed = removed then
        return { count := comp.count + 1, added, removed, prev := comp.prev }
      else return { count := 1, added, removed, prev := last }
  | none => some { count := 1, added, removed, prev := none }

def addToPath (comps : List Comp) (path : PathNode) (added removed : Bool) (oldPosInc : Int) :
    Option (List Comp × PathNode) := do
  let comp ← nextComp comps path.last added removed
  return (comps ++ [comp], { oldPos := path.oldPos + oldPosInc, last := some comps.length })

def commonRun : List Token → List Token → Nat
  | oldTok :: oldToks, newTok :: newToks =>
    if oldTok = newTok then commonRun oldToks newToks + 1 else 0
  | _, _ => 0

/-- The path after the common tokens that follow it, and the new position; a negative position of
the next token would be an index out of range. -/
def extractCommon (comps : List Comp) (path : PathNode) (newToks oldToks : List Token)
    (diagonal : Int) : Option (List Comp × PathNode × Int) :=
  let oldPos := path.oldPos
  let newPos := oldPos - diagonal
  if oldPos + 1 < 0 ∨ newPos + 1 < 0 then none
  else
    let common := commonRun (oldToks.drop (oldPos + 1).toNat) (newToks.drop (newPos + 1).toNat)
    let oldPos := oldPos + common
    let newPos := newPos + common
    if common > 0 then
      some (comps ++ [{ count := common, added := false, removed := false, prev := path.last }],
        { oldPos, last := some comps.length }, newPos)
    else some (comps, { path with oldPos }, newPos)

def componentOrder (comps : List Comp) : Nat → Option Nat → Option (List Comp)
  | _, none => some []
  | 0, some _ => none
  | fuel + 1, some ci => do
      let comp ← comps[ci]?
      return comp :: (← componentOrder comps fuel comp.prev)

def slice (toks : List Token) (start count : Nat) : Option (List Token) :=
  if start + count ≤ toks.length then some ((toks.drop start).take count) else none

structure BuildState where
  parts : List LineDiffPart
  newPos : Nat
  oldPos : Nat

def buildPart (oldToks newToks : List Token) (state : BuildState) (c : Comp) : Option BuildState :=
  if c.removed then do
    let value := (← slice oldToks state.oldPos c.count).flatten
    return { parts := state.parts ++ [{ added := c.added, removed := c.removed, value }]
             newPos := state.newPos
             oldPos := state.oldPos + c.count }
  else do
    let value := (← slice newToks state.newPos c.count).flatten
    return { parts := state.parts ++ [{ added := c.added, removed := c.removed, value }]
             newPos := state.newPos + c.count
             oldPos := if c.added then state.oldPos else state.oldPos + c.count }

/-- Following `prev` ends within as many steps as there are components. -/
def buildValues (last : Option Nat) (comps : List Comp) (oldToks newToks : List Token) :
    Option (List LineDiffPart) := do
  let order ← componentOrder comps comps.length last
  let state ← order.reverse.foldlM (buildPart oldToks newToks)
    { parts := [], newPos := 0, oldPos := 0 }
  return state.parts

/-- `best`, indexed by diagonals from `-off` on. -/
def slotIndex (off : Nat) (diag : Int) : Option Nat :=
  if diag + off < 0 then none else some (diag + off).toNat

def readSlot (best : List (Option PathNode)) (off : Nat) (diag : Int) : Option (Option PathNode) := do
  best[← slotIndex off diag]?

def writeSlot (best : List (Option PathNode)) (off : Nat) (diag : Int) (path : Option PathNode) :
    Option (List (Option PathNode)) := do
  let index ← slotIndex off diag
  if index < best.length then return best.set index path else none

/-- `none` in `minDiag` and `maxDiag` is `isize::MIN` and `isize::MAX`, beyond every diagonal. -/
structure DiffState where
  comps : List Comp
  best : List (Option PathNode)
  minDiag : Option Int
  maxDiag : Option Int

inductive DiffStep where
  | searching (state : DiffState)
  | built (parts : List LineDiffPart)

def canAdd (newToks : List Token) (diag : Int) : Option PathNode → Bool
  | some addPath => 0 ≤ addPath.oldPos - diag && addPath.oldPos - diag < newToks.length
  | none => false

def canRemove (oldToks : List Token) : Option PathNode → Bool
  | some removePath => removePath.oldPos + 1 < oldToks.length
  | none => false

def takesFromAdd (oldToks newToks : List Token) (diag : Int) (removePath addPath : Option PathNode) :
    Bool :=
  !canRemove oldToks removePath || (canAdd newToks diag addPath &&
    match removePath, addPath with
    | some rp, some ap => rp.oldPos < ap.oldPos
    | _, _ => false)

def extendPath (comps : List Comp) (oldToks newToks : List Token) (diag : Int)
    (removePath addPath : Option PathNode) : Option (List Comp × PathNode) :=
  if takesFromAdd oldToks newToks diag removePath addPath then do
    addToPath comps (← addPath) true false 0
  else do
    addToPath comps (← removePath) false true 1

def lowerMaxDiag (maxDiag : Option Int) (diag : Int) : Option Int :=
  some (maxDiag.elim (diag - 1) fun d => min d (diag - 1))

def raiseMinDiag (minDiag : Option Int) (diag : Int) : Option Int :=
  some (minDiag.elim (diag + 1) fun d => max d (diag + 1))

def visitDiagonal (oldToks newToks : List Token) (off : Nat) (state : DiffState) (diag : Int) :
    Option DiffStep := do
  let removePath ← readSlot state.best off (diag - 1)
  let best ← writeSlot state.best off (diag - 1) none
  let addPath ← readSlot best off (diag + 1)
  if !canAdd newToks diag addPath && !canRemove oldToks removePath then
    return .searching { state with best := ← writeSlot best off diag none }
  else
    let (comps, basePath) ← extendPath state.comps oldToks newToks diag removePath addPath
    let (comps, basePath, newPos) ← extractCommon comps basePath newToks oldToks diag
    if basePath.oldPos + 1 ≥ oldToks.length ∧ newPos + 1 ≥ newToks.length then
      return .built (← buildValues basePath.last comps oldToks newToks)
    else
      return .searching
        { comps
          best := ← writeSlot best off diag (some basePath)
          maxDiag := if basePath.oldPos + 1 ≥ oldToks.length then lowerMaxDiag state.maxDiag diag
            else state.maxDiag
          minDiag := if newPos + 1 ≥ newToks.length then raiseMinDiag state.minDiag diag
            else state.minDiag }

def diagonals (lo hi : Int) : List Int :=
  (List.range ((hi - lo) / 2 + 1).toNat).map fun (i : Nat) => lo + 2 * (i : Int)

def visitDiagonals (oldToks newToks : List Token) (off : Nat) : List Int → DiffState → Option DiffStep
  | [], state => some (.searching state)
  | diag :: diags, state => do
      match ← visitDiagonal oldToks newToks off state diag with
      | .searching state => visitDiagonals oldToks newToks off diags state
      | .built parts => return .built parts

inductive DiffOutcome where
  | built (parts : List LineDiffPart)
  /-- The empty result after the loop. -/
  | fellThrough

def DiffState.lo (state : DiffState) (editLength : Nat) : Int :=
  state.minDiag.elim (-editLength) fun d => max d (-editLength)

def DiffState.hi (state : DiffState) (editLength : Nat) : Int :=
  state.maxDiag.elim editLength fun d => min d editLength

def searchRounds (oldToks newToks : List Token) (off : Nat) : List Nat → DiffState → Option DiffOutcome
  | [], _ => some .fellThrough
  | editLength :: editLengths, state => do
      match ← visitDiagonals oldToks newToks off
          (diagonals (state.lo editLength) (state.hi editLength)) state with
      | .searching state => searchRounds oldToks newToks off editLengths state
      | .built parts => return .built parts

def diffTokens (oldToks newToks : List Token) : Option DiffOutcome := do
  let maxEdit := newToks.length + oldToks.length
  let off := maxEdit + 2
  let (comps, seed, newPos) ← extractCommon [] { oldPos := -1, last := none } newToks oldToks 0
  if seed.oldPos + 1 ≥ oldToks.length ∧ newPos + 1 ≥ newToks.length then
    return .built (← buildValues seed.last comps oldToks newToks)
  else
    let best ← writeSlot (List.replicate (2 * off + 1) none) off 0 (some seed)
    searchRounds oldToks newToks off (List.range' 1 maxEdit)
      { comps, best, minDiag := none, maxDiag := none }

def diffLines (oldStr newStr : List UInt8) : Option DiffOutcome :=
  diffTokens (tokenizeRanges oldStr) (tokenizeRanges newStr)

end GajaeCode.Natives.LineDiff
