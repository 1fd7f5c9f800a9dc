import GajaeCode.Hashline.Hash
import GajaeCode.Hashline.Types
import GajaeCode.Text.Splice

/-! Applying a batch of hashline edits (`hashline/apply.ts`). -/
namespace GajaeCode.Hashline
open Text

def HashlineCursor.anchors : HashlineCursor → List Anchor
  | .beforeAnchor anchor => [anchor]
  | .afterAnchor anchor => [anchor]
  | .bof => []
  | .eof => []

def getHashlineEditAnchors : HashlineEdit → List Anchor
  | .delete anchor _ _ => [anchor]
  | .insert cursor _ _ _ => cursor.anchors

inductive HashlineApplyError where
  /-- `Line ${line} does not exist (file has ${count} lines)`. -/
  | lineDoesNotExist (line count : Nat)
  /-- `HashlineMismatchError`, which carries the mismatches and the file. -/
  | mismatch (mismatches : List HashMismatch) (fileLines : List JsStr)
deriving DecidableEq

section
variable (xxHash32 : List UInt8 → UInt32)

/-- The checks on one anchor: out of range throws, a wrong hash is a mismatch. -/
def validateAnchor (fileLines : List JsStr) (anchor : Anchor) :
    Except HashlineApplyError (List HashMismatch) :=
  if anchor.line < 1 ∨ fileLines.length < anchor.line then
    .error (.lineDoesNotExist anchor.line fileLines.length)
  else if anchor.hash = rangeInteriorHash then .ok []
  else
    let actualHash := computeLineHash xxHash32 anchor.line (fileLines.getD (anchor.line - 1) [])
    if actualHash = anchor.hash then .ok []
    else .ok [{ line := anchor.line, expected := anchor.hash, actual := actualHash }]

def validateHashlineAnchors (edits : List HashlineEdit) (fileLines : List JsStr) :
    Except HashlineApplyError (List HashMismatch) :=
  (edits.flatMap getHashlineEditAnchors).foldlM (fun mismatches anchor =>
    return mismatches ++ (← validateAnchor xxHash32 fileLines anchor)) []

end

def insertAtStart (fileLines lines : List JsStr) : List JsStr :=
  if lines.length = 0 then fileLines
  else if fileLines.length = 1 ∧ fileLines.head? = some [] then lines
  else lines ++ fileLines

/-- The file after the insertion and the first inserted line number. -/
def insertAtEnd (fileLines lines : List JsStr) : List JsStr × Option Nat :=
  if lines.length = 0 then (fileLines, none)
  else if fileLines.length = 1 ∧ fileLines.head? = some [] then (lines, some 1)
  else
    let hasTrailingNewline := fileLines.length > 0 ∧ fileLines.getLast? = some []
    let insertIndex := if hasTrailingNewline then fileLines.length - 1 else fileLines.length
    (splice fileLines insertIndex 0 lines, some (insertIndex + 1))

def getAnchorTargetLine (edit : HashlineEdit) : Option Nat :=
  match edit with
  | .delete anchor _ _ => some anchor.line
  | .insert (.beforeAnchor anchor) _ _ _ => some anchor.line
  | .insert (.afterAnchor anchor) _ _ _ => some anchor.line
  | .insert .bof _ _ _ => none
  | .insert .eof _ _ _ => none

def collectAnchorTargetLines (edits : List HashlineEdit) : List Nat :=
  edits.filterMap getAnchorTargetLine

structure HashlineReplacementGroup where
  /-- The edits from `startIndex` to `endIndex`. -/
  members : List HashlineEdit
  sourceLineNum : Nat
  replacement : List JsStr
  deletes : List Anchor
deriving DecidableEq

/-- The text of an insert before an anchor that stems from line `lineNum` of the input. -/
def replacementText? (lineNum : Nat) : HashlineEdit → Option JsStr
  | .insert (.beforeAnchor _) text n _ => if n = lineNum then some text else none
  | _ => none

/-- The anchor of a delete that stems from line `lineNum` of the input. -/
def deleteAnchor? (lineNum : Nat) : HashlineEdit → Option Anchor
  | .delete anchor n _ => if n = lineNum then some anchor else none
  | _ => none

def consecutiveFrom (startLine : Nat) : List Anchor → Bool
  | [] => true
  | anchor :: anchors => anchor.line == startLine && consecutiveFrom (startLine + 1) anchors

def findReplacementGroup (edits : List HashlineEdit) : Option HashlineReplacementGroup :=
  match edits with
  | .insert (.beforeAnchor cursorAnchor) _ sourceLineNum _ :: _ =>
    let inserts := edits.takeWhile fun edit => (replacementText? sourceLineNum edit).isSome
    let rest := edits.drop inserts.length
    let deletes := rest.takeWhile fun edit => (deleteAnchor? sourceLineNum edit).isSome
    let anchors := deletes.filterMap (deleteAnchor? sourceLineNum)
    match anchors with
    | [] => none
    | first :: _ =>
      if !consecutiveFrom first.line anchors then none
      else if cursorAnchor.line ≠ first.line then none
      else
        some
          { members := inserts ++ deletes
            sourceLineNum
            replacement := inserts.filterMap (replacementText? sourceLineNum)
            deletes := anchors }
  | _ => none

/-- The loops `for (let count = max; count >= 2; count--)`: the largest accepted count. -/
def largestBlock (accepts : Nat → Bool) : Nat → Nat
  | 0 => 0
  | 1 => 0
  | count + 2 => if accepts (count + 2) then count + 2 else largestBlock accepts (count + 1)

/-- Whether `count` lines of the file from 0-based `fileIndex` on are those of the payload from
`payloadIndex` on. -/
def blockMatches (fileLines : List JsStr) (fileIndex : Nat) (payload : List JsStr)
    (payloadIndex count : Nat) : Bool :=
  (List.range count).all fun offset =>
    fileLines[fileIndex + offset]? == payload[payloadIndex + offset]?

def countMatchingPrefixBlock (fileLines : List JsStr) (startLine : Nat)
    (replacement : List JsStr) : Nat :=
  largestBlock (fun count => blockMatches fileLines (startLine - count - 1) replacement 0 count)
    (min replacement.length (startLine - 1))

def countMatchingSuffixBlock (fileLines : List JsStr) (endLine : Nat)
    (replacement : List JsStr) : Nat :=
  largestBlock
    (fun count => blockMatches fileLines endLine replacement (replacement.length - count) count)
    (min replacement.length (fileLines.length - endLine))

def isClosingDelimiter (u : UInt16) : Bool := u == 0x5d || u == 0x29 || u == 0x7d

/-- `/^\s*[\])}]+[;,]?\s*$/`; the three classes are disjoint, so greedy matching never has to
give a unit back. -/
def isStructuralClosingBoundaryLine (line : JsStr) : Bool :=
  let rest := trimStart line
  let tail := rest.dropWhile isClosingDelimiter
  let tail := match tail with
    | u :: us => if u == 0x3b || u == 0x2c then us else tail
    | [] => []
  (rest.head?.any isClosingDelimiter) && tail.all isJsWhitespace

structure DelimiterBalance where
  paren : Int
  bracket : Int
  brace : Int
deriving DecidableEq

def zeroDelimiterBalance : DelimiterBalance := { paren := 0, bracket := 0, brace := 0 }

def DelimiterBalance.count (balance : DelimiterBalance) (u : UInt16) : DelimiterBalance :=
  if u = 0x28 then { balance with paren := balance.paren + 1 }
  else if u = 0x29 then { balance with paren := balance.paren - 1 }
  else if u = 0x5b then { balance with bracket := balance.bracket + 1 }
  else if u = 0x5d then { balance with bracket := balance.bracket - 1 }
  else if u = 0x7b then { balance with brace := balance.brace + 1 }
  else if u = 0x7d then { balance with brace := balance.brace - 1 }
  else balance

def computeDelimiterBalance (lines : List JsStr) : DelimiterBalance :=
  lines.foldl (fun balance line => line.foldl DelimiterBalance.count balance) zeroDelimiterBalance

def shouldDropSingleStructuralBoundary (fullPayload keptPayload : List JsStr)
    (expectedBalance : DelimiterBalance) : Bool :=
  computeDelimiterBalance keptPayload = expectedBalance && !(computeDelimiterBalance fullPayload = expectedBalance)

def countMatchingSingleStructuralPrefixBoundary (fileLines : List JsStr) (startLine : Nat)
    (replacement : List JsStr) (expectedBalance : DelimiterBalance) : Nat :=
  match replacement with
  | [] => 0
  | line :: kept =>
    if startLine ≤ 1 then 0
    else if !isStructuralClosingBoundaryLine line then 0
    else if fileLines[startLine - 2]? ≠ some line then 0
    else if shouldDropSingleStructuralBoundary replacement kept expectedBalance then 1 else 0

def countMatchingSingleStructuralSuffixBoundary (fileLines : List JsStr) (endLine : Nat)
    (replacement : List JsStr) (expectedBalance : DelimiterBalance) : Nat :=
  match replacement.getLast? with
  | none => 0
  | some line =>
    if fileLines.length ≤ endLine then 0
    else if !isStructuralClosingBoundaryLine line then 0
    else if fileLines[endLine]? ≠ some line then 0
    else if shouldDropSingleStructuralBoundary replacement replacement.dropLast expectedBalance
      then 1 else 0

def hasExternalTargets (lines externalTargetLines : List Nat) : Bool :=
  lines.any externalTargetLines.contains

def contiguousRange (start count : Nat) : List Nat := List.range' start count

structure HashlinePureInsertGroup where
  /-- The edits from `startIndex` to `endIndex`. -/
  members : List HashlineEdit
  sourceLineNum : Nat
  cursor : HashlineCursor
  payload : List JsStr
deriving DecidableEq

/-- The text of an insert at `cursor` that stems from line `lineNum` of the input; cursors match
when their kinds, lines and hashes do. -/
def pureInsertText? (lineNum : Nat) (cursor : HashlineCursor) : HashlineEdit → Option JsStr
  | .insert c text n _ => if n = lineNum ∧ c = cursor then some text else none
  | .delete _ _ _ => none

/-- The run at the head of the remaining edits, unless a delete of the same input line follows. -/
def findPureInsertGroup (edits : List HashlineEdit) : Option HashlinePureInsertGroup :=
  match edits with
  | .insert cursor _ sourceLineNum _ :: _ =>
    let members := edits.takeWhile fun edit => (pureInsertText? sourceLineNum cursor edit).isSome
    let next := (edits.drop members.length).head?
    if next.any fun edit => (deleteAnchor? sourceLineNum edit).isSome then none
    else
      some
        { members
          sourceLineNum
          cursor
          payload := members.filterMap (pureInsertText? sourceLineNum cursor) }
  | _ => none

/-- The number of file lines strictly above the insertion point, which is `aboveEndIdx + 1` and
also `belowStartIdx`. -/
def pureInsertNeighborhood (cursor : HashlineCursor) (fileLines : List JsStr) : Nat :=
  match cursor with
  | .bof => 0
  | .eof => fileLines.length
  | .beforeAnchor anchor => anchor.line - 1
  | .afterAnchor anchor => anchor.line

structure PureInsertAbsorbResult where
  keptPayload : List JsStr
  absorbedLeading : Nat
  absorbedTrailing : Nat
  /-- 1-based inclusive ranges of the matching file lines. -/
  leadingFileRange : Option (Nat × Nat)
  trailingFileRange : Option (Nat × Nat)
deriving DecidableEq

def HashlineCursor.isAfterAnchor : HashlineCursor → Bool
  | .afterAnchor _ => true
  | _ => false

def HashlineCursor.isBeforeAnchor : HashlineCursor → Bool
  | .beforeAnchor _ => true
  | _ => false

def absorbedLeading (group : HashlinePureInsertGroup) (fileLines : List JsStr)
    (allowGenericBoundaryAbsorb : Bool) : Nat :=
  let above := pureInsertNeighborhood group.cursor fileLines
  let block :=
    if allowGenericBoundaryAbsorb then
      largestBlock (fun count => blockMatches fileLines (above - count) group.payload 0 count)
        (min group.payload.length above)
    else 0
  match group.payload with
  | [] => 0
  | first :: kept =>
    let echo := above > 0 ∧ fileLines[above - 1]? = some first
    if block > 0 then block
    else if allowGenericBoundaryAbsorb ∧ group.cursor.isAfterAnchor ∧ echo ∧
        !isStructuralClosingBoundaryLine first then 1
    else if echo ∧ isStructuralClosingBoundaryLine first ∧
        shouldDropSingleStructuralBoundary group.payload kept zeroDelimiterBalance then 1
    else 0

def absorbedTrailing (group : HashlinePureInsertGroup) (fileLines : List JsStr)
    (allowGenericBoundaryAbsorb : Bool) (remainingPayload : List JsStr) : Nat :=
  let below := pureInsertNeighborhood group.cursor fileLines
  let block :=
    if allowGenericBoundaryAbsorb then
      largestBlock
        (fun count =>
          blockMatches fileLines below group.payload (group.payload.length - count) count)
        (min remainingPayload.length (fileLines.length - below))
    else 0
  match remainingPayload.getLast? with
  | none => 0
  | some last =>
    let echo := below < fileLines.length ∧ fileLines[below]? = some last
    if block > 0 then block
    else if group.cursor.isBeforeAnchor ∧ allowGenericBoundaryAbsorb ∧ echo ∧
        !isStructuralClosingBoundaryLine last then 1
    else if echo ∧ isStructuralClosingBoundaryLine last ∧
        shouldDropSingleStructuralBoundary remainingPayload remainingPayload.dropLast zeroDelimiterBalance then 1
    else 0

def tryAbsorbPureInsertGroup (group : HashlinePureInsertGroup) (fileLines : List JsStr)
    (allowGenericBoundaryAbsorb : Bool) : PureInsertAbsorbResult :=
  let leading := absorbedLeading group fileLines allowGenericBoundaryAbsorb
  let trailing := absorbedTrailing group fileLines allowGenericBoundaryAbsorb (group.payload.drop leading)
  let point := pureInsertNeighborhood group.cursor fileLines
  { keptPayload := (group.payload.take (group.payload.length - trailing)).drop leading
    absorbedLeading := leading
    absorbedTrailing := trailing
    leadingFileRange := if leading > 0 then some (point - leading + 1, point) else none
    trailingFileRange := if trailing > 0 then some (point + 1, point + trailing) else none }

inductive EditGroup where
  | replacement (group : HashlineReplacementGroup)
  | pureInsert (group : HashlinePureInsertGroup)
  | single (edit : HashlineEdit)
deriving DecidableEq

def EditGroup.members : EditGroup → List HashlineEdit
  | .replacement group => group.members
  | .pureInsert group => group.members
  | .single edit => [edit]

def findGroup (edit : HashlineEdit) (rest : List HashlineEdit) : EditGroup :=
  match findReplacementGroup (edit :: rest) with
  | some group => .replacement group
  | none =>
    match findPureInsertGroup (edit :: rest) with
    | some group => .pureInsert group
    | none => .single edit

/-- The groups in the order of the loop; `skip` counts the edits up to the last `endIndex`. -/
def editGroups : List HashlineEdit → Nat → List EditGroup
  | [], _ => []
  | _ :: rest, skip + 1 => editGroups rest skip
  | edit :: rest, 0 =>
    let group := findGroup edit rest
    group :: editGroups rest (group.members.length - 1)

inductive AbsorbKind where
  | pureInsertLeading
  | pureInsertTrailing
  | prefixBlock
  | suffixBlock
deriving DecidableEq

/-- `${kind}:${start}..${end}`. -/
structure AbsorbKey where
  kind : AbsorbKind
  start : Nat
  stop : Nat
deriving DecidableEq

structure AbsorbState where
  nextSyntheticIndex : Nat
  absorbed : List HashlineEdit
  emittedAbsorbKeys : List AbsorbKey
  warnings : List JsStr

def AbsorbState.warn (state : AbsorbState) (key : AbsorbKey) (warning : JsStr) : AbsorbState :=
  if key ∈ state.emittedAbsorbKeys then state
  else
    { state with
      emittedAbsorbKeys := state.emittedAbsorbKeys ++ [key]
      warnings := state.warnings ++ [warning] }

def AbsorbState.warnRange (state : AbsorbState) (kind : AbsorbKind) (range : Option (Nat × Nat))
    (warning : Nat → Nat → JsStr) : AbsorbState :=
  match range with
  | some (start, stop) => state.warn { kind, start, stop } (warning start stop)
  | none => state

def AbsorbState.push (state : AbsorbState) (edits : List HashlineEdit) : AbsorbState :=
  { state with absorbed := state.absorbed ++ edits }

def AbsorbState.pushSynthetic (state : AbsorbState) (edits : List (Nat → HashlineEdit)) :
    AbsorbState :=
  { state with
    nextSyntheticIndex := state.nextSyntheticIndex + edits.length
    absorbed := state.absorbed ++ edits.mapIdx fun i edit => edit (state.nextSyntheticIndex + i) }

def pureInsertWarning (count : Nat) (place : JsStr) (lineNum start stop : Nat)
    (side : JsStr) : JsStr :=
  lit "Auto-dropped " ++ decimal count ++ lit " duplicate line(s) at the " ++ place ++
    lit " of insert at line " ++ decimal lineNum ++ lit " (file lines " ++ decimal start ++
    lit ".." ++ decimal stop ++ lit " already match the payload's " ++ side ++ lit " lines)."

def replacementWarning (count : Nat) (place : JsStr) (lineNum start stop : Nat)
    (side : JsStr) : JsStr :=
  lit "Auto-absorbed " ++ decimal count ++ lit " duplicate line(s) " ++ place ++
    lit " replacement at line " ++ decimal lineNum ++ lit " (file lines " ++ decimal start ++
    lit ".." ++ decimal stop ++ lit " matched the payload's " ++ side ++
    lit " lines; widened the deletion to absorb them)."

def HashlineReplacementGroup.startLine (group : HashlineReplacementGroup) : Nat :=
  (group.deletes.head?.map Anchor.line).getD 0

def HashlineReplacementGroup.endLine (group : HashlineReplacementGroup) : Nat :=
  (group.deletes.getLast?.map Anchor.line).getD 0

def deletedBalance (fileLines : List JsStr) (group : HashlineReplacementGroup) :
    DelimiterBalance :=
  computeDelimiterBalance (group.deletes.map fun anchor => fileLines.getD (anchor.line - 1) [])

def prefixCount (fileLines : List JsStr) (group : HashlineReplacementGroup) : Nat :=
  let block := countMatchingPrefixBlock fileLines group.startLine group.replacement
  if block ≠ 0 then block
  else countMatchingSingleStructuralPrefixBoundary fileLines group.startLine group.replacement
    (deletedBalance fileLines group)

def suffixCount (fileLines : List JsStr) (group : HashlineReplacementGroup) : Nat :=
  let block := countMatchingSuffixBlock fileLines group.endLine group.replacement
  if block ≠ 0 then block
  else countMatchingSingleStructuralSuffixBoundary fileLines group.endLine group.replacement
    (deletedBalance fileLines group)

def safePrefixCount (fileLines : List JsStr) (allTargetLines : List Nat)
    (group : HashlineReplacementGroup) : Nat :=
  let count := prefixCount fileLines group
  if hasExternalTargets (contiguousRange (group.startLine - count) count) allTargetLines then 0
  else count

def safeSuffixCount (fileLines : List JsStr) (allTargetLines : List Nat)
    (group : HashlineReplacementGroup) : Nat :=
  let count := suffixCount fileLines group
  if hasExternalTargets (contiguousRange (group.endLine + 1) count) allTargetLines then 0
  else count

section
variable (xxHash32 : List UInt8 → UInt32)

def deleteEditForAutoAbsorbedLine (line sourceLineNum : Nat) (fileLines : List JsStr)
    (index : Nat) : HashlineEdit :=
  .delete
    { line, hash := computeLineHash xxHash32 line (fileLines.getD (line - 1) []) }
    sourceLineNum index

def absorbReplacement (fileLines : List JsStr) (allTargetLines : List Nat)
    (state : AbsorbState) (group : HashlineReplacementGroup) : AbsorbState :=
  let startLine := group.startLine
  let endLine := group.endLine
  let above := safePrefixCount fileLines allTargetLines group
  let below := safeSuffixCount fileLines allTargetLines group
  let state :=
    if above > 0 then
      state.warn { kind := .prefixBlock, start := startLine - above, stop := startLine - 1 }
        (replacementWarning above (lit "above") group.sourceLineNum (startLine - above)
          (startLine - 1) (lit "leading"))
    else state
  let state :=
    if below > 0 then
      state.warn { kind := .suffixBlock, start := endLine + 1, stop := endLine + below }
        (replacementWarning below (lit "below") group.sourceLineNum (endLine + 1)
          (endLine + below) (lit "trailing"))
    else state
  let state := state.pushSynthetic ((contiguousRange (startLine - above) above).map fun line =>
    deleteEditForAutoAbsorbedLine xxHash32 line group.sourceLineNum fileLines)
  let state := state.push group.members
  state.pushSynthetic ((contiguousRange (endLine + 1) below).map fun line =>
    deleteEditForAutoAbsorbedLine xxHash32 line group.sourceLineNum fileLines)

def absorbPureInsert (fileLines : List JsStr) (options : HashlineApplyOptions)
    (state : AbsorbState) (group : HashlinePureInsertGroup) : AbsorbState :=
  let result := tryAbsorbPureInsertGroup group fileLines options.autoDropPureInsertDuplicates
  if result.absorbedLeading > 0 ∨ result.absorbedTrailing > 0 then
    let state := state.warnRange .pureInsertLeading result.leadingFileRange fun start stop =>
      pureInsertWarning result.absorbedLeading (lit "start") group.sourceLineNum start stop (lit "leading")
    let state := state.warnRange .pureInsertTrailing result.trailingFileRange fun start stop =>
      pureInsertWarning result.absorbedTrailing (lit "end") group.sourceLineNum start stop (lit "trailing")
    state.pushSynthetic (result.keptPayload.map fun text index =>
      .insert group.cursor text group.sourceLineNum index)
  else state.push group.members

def absorbGroup (fileLines : List JsStr) (allTargetLines : List Nat)
    (options : HashlineApplyOptions) (state : AbsorbState) : EditGroup → AbsorbState
  | .replacement group => absorbReplacement xxHash32 fileLines allTargetLines state group
  | .pureInsert group => absorbPureInsert fileLines options state group
  | .single edit => state.push [edit]

def absorbReplacementBoundaryDuplicates (edits : List HashlineEdit) (fileLines : List JsStr)
    (options : HashlineApplyOptions) : List HashlineEdit × List JsStr :=
  let state := (editGroups edits 0).foldl
    (absorbGroup xxHash32 fileLines (collectAnchorTargetLines edits) options)
    { nextSyntheticIndex := edits.length, absorbed := [], emittedAbsorbKeys := [], warnings := [] }
  (state.absorbed, state.warnings)

def normalizeAfterAnchor (fileLines : List JsStr) : HashlineEdit → HashlineEdit
  | .insert (.afterAnchor anchor) text lineNum index =>
    if anchor.line ≥ fileLines.length then .insert .eof text lineNum index
    else
      let nextLineNum := anchor.line + 1
      let nextContent := fileLines.getD (nextLineNum - 1) []
      .insert
        (.beforeAnchor
          { line := nextLineNum, hash := computeLineHash xxHash32 nextLineNum nextContent })
        text lineNum index
  | edit => edit

end

structure IndexedEdit where
  edit : HashlineEdit
  idx : Nat

def bofText? : HashlineEdit → Option JsStr
  | .insert .bof text _ _ => some text
  | _ => none

def eofText? : HashlineEdit → Option JsStr
  | .insert .eof text _ _ => some text
  | _ => none

def isAnchorEdit (edit : HashlineEdit) : Bool :=
  (bofText? edit).isNone && (eofText? edit).isNone

/-- The bucket of an edit; 0 is never reached once cursors are normalised. -/
def bucketLine : HashlineEdit → Nat
  | .delete anchor _ _ => anchor.line
  | .insert (.beforeAnchor anchor) _ _ _ => anchor.line
  | .insert _ _ _ _ => 0

/-- `byLine.get(line)?.push(entry) ?? byLine.set(line, [entry])` on an insertion-ordered map. -/
def pushBucket (entry : IndexedEdit) : List (Nat × List IndexedEdit) → List (Nat × List IndexedEdit)
  | [] => [(bucketLine entry.edit, [entry])]
  | (line, bucket) :: rest =>
    if line = bucketLine entry.edit then (line, bucket ++ [entry]) :: rest
    else (line, bucket) :: pushBucket entry rest

def bucketAnchorEditsByLine (edits : List IndexedEdit) : List (Nat × List IndexedEdit) :=
  edits.foldl (fun byLine entry => pushBucket entry byLine) []

def insertText? : HashlineEdit → Option JsStr
  | .insert _ text _ _ => some text
  | .delete _ _ _ => none

def HashlineEdit.isDelete : HashlineEdit → Bool
  | .delete _ _ _ => true
  | .insert _ _ _ _ => false

structure ApplyState where
  fileLines : List JsStr
  firstChangedLine : Option Nat

def ApplyState.trackFirstChanged (state : ApplyState) (line : Nat) : ApplyState :=
  if state.firstChangedLine.all (line < ·) then { state with firstChangedLine := some line }
  else state

/-- One iteration of the bottom-up loop: the splice of a line's bucket. -/
def applyBucket (state : ApplyState) (line : Nat) (bucket : List IndexedEdit) : ApplyState :=
  let bucket := bucket.insertionSort fun a b => a.idx ≤ b.idx
  let idx := line - 1
  let currentLine := state.fileLines.getD idx []
  let beforeLines := bucket.filterMap fun entry => insertText? entry.edit
  let deleteLine := bucket.any fun entry => entry.edit.isDelete
  if beforeLines.length = 0 ∧ !deleteLine then state
  else
    let replacement := if deleteLine then beforeLines else beforeLines ++ [currentLine]
    { state with fileLines := splice state.fileLines idx 1 replacement }.trackFirstChanged line

structure HashlineApplyResult where
  lines : JsStr
  firstChangedLine : Option Nat
  warnings : List JsStr
deriving DecidableEq

/-- The part of `applyHashlineEdits` after absorption. -/
def applyNormalized (fileLines : List JsStr) (normalizedEdits : List HashlineEdit) :
    ApplyState :=
  let bofLines := normalizedEdits.filterMap bofText?
  let eofLines := normalizedEdits.filterMap eofText?
  let indexed := normalizedEdits.mapIdx fun idx edit => ({ edit, idx } : IndexedEdit)
  let byLine := bucketAnchorEditsByLine (indexed.filter fun entry => isAnchorEdit entry.edit)
  let state := ((byLine.map Prod.fst).insertionSort (· ≥ ·)).foldl
    (fun state line => (byLine.lookup line).elim state (applyBucket state line))
    { fileLines, firstChangedLine := none }
  let state :=
    if bofLines.length > 0 then
      { state with fileLines := insertAtStart state.fileLines bofLines }.trackFirstChanged 1
    else state
  let (fileLines, eofChangedLine) := insertAtEnd state.fileLines eofLines
  let state := { state with fileLines }
  eofChangedLine.elim state state.trackFirstChanged

def applyHashlineEdits (xxHash32 : List UInt8 → UInt32) (text : JsStr)
    (edits : List HashlineEdit) (options : HashlineApplyOptions) :
    Except HashlineApplyError HashlineApplyResult :=
  if edits.length = 0 then .ok { lines := text, firstChangedLine := none, warnings := [] }
  else do
    let fileLines := splitLines text
    let mismatches ← validateHashlineAnchors xxHash32 edits fileLines
    if mismatches.length > 0 then throw (.mismatch mismatches fileLines)
    let (absorbed, warnings) := absorbReplacementBoundaryDuplicates xxHash32 edits fileLines options
    let state := applyNormalized fileLines (absorbed.map (normalizeAfterAnchor xxHash32 fileLines))
    return {
      lines := joinLines state.fileLines
      firstChangedLine := state.firstChangedLine
      warnings }

end GajaeCode.Hashline
