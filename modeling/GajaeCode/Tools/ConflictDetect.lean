import GajaeCode.Data.InsertionMap
import GajaeCode.Text.JsString

/-! Merge conflicts in files (`tools/conflict-detect.ts`, and their resolution in
`tools/write.ts`): the scan for marker blocks, the history that gives them ids, and the
splice of a replacement. -/
namespace GajaeCode.Tools.Conflict
open Text Data

def oursMarker : JsStr := lit "<<<<<<<"
def baseMarker : JsStr := lit "|||||||"
def separator : JsStr := lit "======="
def theirsMarker : JsStr := lit ">>>>>>>"

structure ConflictBlock where
  startLine : Nat
  separatorLine : Nat
  endLine : Nat
  baseLine : Option Nat
  oursLabel : Option JsStr
  baseLabel : Option JsStr
  theirsLabel : Option JsStr
  oursLines : List JsStr
  baseLines : Option (List JsStr)
  theirsLines : List JsStr
  deriving DecidableEq

/-- The label after a marker: the marker alone, or one space and the label. -/
def matchMarker (line marker : JsStr) : Option JsStr :=
  if startsWith line marker = false then none
  else if line.length = marker.length then some []
  else if (line.drop marker.length).head? ≠ some 0x20 then none
  else some (line.drop (marker.length + 1))

/-- `label || undefined`. -/
def orUndefined (label : JsStr) : Option JsStr := if label = [] then none else some label

inductive LineKind where
  | ours (label : JsStr)
  | base (label : JsStr)
  | separator
  | theirs (label : JsStr)
  | text
  deriving DecidableEq

def lineKind (line : JsStr) : LineKind :=
  match matchMarker line oursMarker with
  | some label => .ours label
  | none =>
    match matchMarker line baseMarker with
    | some label => .base label
    | none =>
      if line = separator then .separator
      else match matchMarker line theirsMarker with
        | some label => .theirs label
        | none => .text

/-- The part of a block up to its base or separator. -/
structure OpenBlock where
  startLine : Nat
  oursLabel : Option JsStr
  oursLines : List JsStr

structure BasePart where
  baseLine : Nat
  baseLabel : Option JsStr
  baseLines : List JsStr

/-- The phase of the scan with the block read so far. -/
inductive ScanState where
  | idle
  | ours (opened : OpenBlock)
  | base (opened : OpenBlock) (part : BasePart)
  | theirs (opened : OpenBlock) (part : Option BasePart) (separatorLine : Nat) (theirsLines : List JsStr)

def closeBlock (opened : OpenBlock) (part : Option BasePart) (separatorLine : Nat)
    (theirsLines : List JsStr) (endLine : Nat) (label : JsStr) : ConflictBlock :=
  { startLine := opened.startLine
    separatorLine
    endLine
    baseLine := part.map (·.baseLine)
    oursLabel := opened.oursLabel
    baseLabel := part.bind (·.baseLabel)
    theirsLabel := orUndefined label
    oursLines := opened.oursLines
    baseLines := part.map (·.baseLines)
    theirsLines }

/-- One line; an opening marker restarts the block, a marker out of place drops it. -/
def scanLine (ln : Nat) (line : JsStr) (state : ScanState) : ScanState × Option ConflictBlock :=
  match lineKind line, state with
  | .ours label, _ => (.ours ⟨ln, orUndefined label, []⟩, none)
  | _, .idle => (.idle, none)
  | .base label, .ours opened => (.base opened ⟨ln, orUndefined label, []⟩, none)
  | .base _, _ => (.idle, none)
  | .separator, .ours opened => (.theirs opened none ln [], none)
  | .separator, .base opened part => (.theirs opened (some part) ln [], none)
  | .separator, .theirs .. => (.idle, none)
  | .theirs label, .theirs opened part separatorLine lines =>
    (.idle, some (closeBlock opened part separatorLine lines ln label))
  | .theirs _, _ => (.idle, none)
  | .text, .ours opened => (.ours { opened with oursLines := opened.oursLines ++ [line] }, none)
  | .text, .base opened part =>
    (.base opened { part with baseLines := part.baseLines ++ [line] }, none)
  | .text, .theirs opened part separatorLine lines =>
    (.theirs opened part separatorLine (lines ++ [line]), none)

def scanFrom : Nat → ScanState → List JsStr → List ConflictBlock
  | _, _, [] => []
  | ln, state, line :: rest =>
    (scanLine ln line state).2.toList ++ scanFrom (ln + 1) (scanLine ln line state).1 rest

def scanConflictLines (lines : List JsStr) (firstLineNumber : Nat) : List ConflictBlock :=
  scanFrom firstLineNumber .idle lines

structure ConflictEntry extends ConflictBlock where
  id : Nat
  absolutePath : JsStr
  displayPath : JsStr
  deriving DecidableEq

structure ConflictHistory where
  nextId : Nat := 1
  entries : List (Nat × ConflictEntry) := []

/-- The entry of a block: that of its path and start line if there is one, or a new one. -/
def ConflictHistory.register (history : ConflictHistory) (block : ConflictBlock)
    (absolutePath displayPath : JsStr) : ConflictHistory × ConflictEntry :=
  match history.entries.find? fun entry =>
      entry.2.absolutePath == absolutePath && entry.2.startLine == block.startLine with
  | some existing =>
    let merged := { block with id := existing.2.id, absolutePath, displayPath }
    ({ history with entries := assocSet existing.2.id merged history.entries }, merged)
  | none =>
    let entry := { block with id := history.nextId, absolutePath, displayPath }
    ({ nextId := history.nextId + 1, entries := assocSet history.nextId entry history.entries }, entry)

def ConflictHistory.get (history : ConflictHistory) (id : Nat) : Option ConflictEntry :=
  history.entries.lookup id

def ConflictHistory.invalidate (history : ConflictHistory) (id : Nat) : ConflictHistory :=
  { history with entries := history.entries.filter fun entry => entry.1 != id }

def markerLine (marker : JsStr) : Option JsStr → JsStr
  | none => marker
  | some label => if label = [] then marker else marker ++ 0x20 :: label

def buildRecordedRegion (block : ConflictBlock) : List JsStr :=
  markerLine oursMarker block.oursLabel :: (block.oursLines ++
    ((match block.baseLines with
      | none => []
      | some baseLines => markerLine baseMarker block.baseLabel :: baseLines) ++
    separator :: (block.theirsLines ++ [markerLine theirsMarker block.theirsLabel])))

def matchesAt (lines : List JsStr) (startIdx : Nat) (expected : List JsStr) : Bool :=
  decide (startIdx + expected.length ≤ lines.length) && expected.isPrefixOf (lines.drop startIdx)

def distance (i preferredIdx : Nat) : Nat := (i - preferredIdx) + (preferredIdx - i)

def closestMatch (lines expected : List JsStr) (preferredIdx limit : Nat) : Option Nat :=
  (List.range limit).foldl (fun best i =>
    if matchesAt lines i expected then
      match best with
      | none => some i
      | some j => if distance i preferredIdx < distance j preferredIdx then some i else best
    else best) none

/-- The recorded position first, then the closest match. -/
def locateRegion (lines expected : List JsStr) (preferredIdx : Nat) : Option (Nat × Nat) :=
  if expected.length = 0 ∨ lines.length < expected.length then none
  else if matchesAt lines preferredIdx expected then
    some (preferredIdx, preferredIdx + expected.length - 1)
  else
    (closestMatch lines expected preferredIdx (lines.length - expected.length + 1)).map
      fun best => (best, best + expected.length - 1)

def normalizeTrailingNewline (replacement : JsStr) : JsStr :=
  if replacement.drop (replacement.length - 2) = [CR, LF] then replacement.take (replacement.length - 2)
  else if replacement.getLast? = some LF then replacement.dropLast
  else replacement

def notPresentError (entry : ConflictEntry) : JsStr :=
  lit "Conflict #" ++ decimal entry.id ++ lit " no longer present in '" ++ entry.displayPath ++
    lit "': the recorded marker block can't be located. The file changed since the conflict was registered — re-read it to re-register conflicts."

def spliceConflict (originalText : JsStr) (entry : ConflictEntry) (replacement : JsStr) :
    Except JsStr JsStr :=
  let lines := splitLines originalText
  match locateRegion lines (buildRecordedRegion entry.toConflictBlock) (entry.startLine - 1) with
  | none => .error (notPresentError entry)
  | some (startIdx, endIdx) =>
    let replacementLines := splitLines (normalizeTrailingNewline replacement)
    .ok (joinLines (lines.take startIdx ++ replacementLines ++ lines.drop (endIdx + 1)))

def noBaseError (entry : ConflictEntry) : JsStr :=
  lit "Conflict #" ++ decimal entry.id ++
    lit " has no base section (2-way merge). \x60@base\x60 is only valid for diff3 conflicts."

/-- The lines that a line of a replacement stands for. -/
def expandLine (entry : ConflictEntry) (rawLine : JsStr) : Except JsStr (List JsStr) :=
  let line := dropCr rawLine
  if line = lit "@ours" then .ok entry.oursLines
  else if line = lit "@theirs" then .ok entry.theirsLines
  else if line = lit "@base" then
    match entry.baseLines with
    | none => .error (noBaseError entry)
    | some baseLines => .ok baseLines
  else if line = lit "@both" then .ok (entry.oursLines ++ entry.theirsLines)
  else .ok [rawLine]

def expandContentTokens (content : JsStr) (entry : ConflictEntry) : Except JsStr JsStr := do
  let parts ← (splitLines content).mapM (expandLine entry)
  return joinLines parts.flatten

def notFoundError (id : Nat) : JsStr :=
  lit "Conflict #" ++ decimal id ++
    lit " not found. Conflict ids are registered when \x60read\x60 surfaces a marker block; re-read the file to get a current id."

structure Workspace where
  text : JsStr
  history : ConflictHistory := {}

def registerAll (absolutePath displayPath : JsStr) :
    ConflictHistory → List ConflictBlock → ConflictHistory × List ConflictEntry
  | history, [] => (history, [])
  | history, block :: rest =>
    let (history, entry) := history.register block absolutePath displayPath
    let (history, entries) := registerAll absolutePath displayPath history rest
    (history, entry :: entries)

def Workspace.read (absolutePath displayPath : JsStr) (w : Workspace) : Workspace × List ConflictEntry :=
  let (history, entries) := registerAll absolutePath displayPath w.history (scanConflictLines (splitLines w.text) 1)
  ({ w with history }, entries)

/-- The resolution of one conflict by its id; the id is dropped when it succeeds. -/
def Workspace.resolve (w : Workspace) (id : Nat) (content : JsStr) : Except JsStr Workspace :=
  match w.history.get id with
  | none => .error (notFoundError id)
  | some entry => do
      let expanded ← expandContentTokens content entry
      let text ← spliceConflict w.text entry expanded
      return { text, history := w.history.invalidate entry.id }

end GajaeCode.Tools.Conflict
