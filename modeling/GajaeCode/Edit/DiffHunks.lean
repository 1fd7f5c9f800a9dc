import GajaeCode.Text.Pattern

/-! Patch hunks (`packages/coding-agent/src/edit/diff.ts`): the normalization of a diff and the
parser of its hunks. Line numbers are exact integers. -/
namespace GajaeCode.Edit
open Text

structure DiffHunk where
  changeContext : Option JsStr
  oldStartLine : Option Nat
  newStartLine : Option Nat
  hasContextLines : Bool
  oldLines : List JsStr
  newLines : List JsStr
  isEndOfFile : Bool
deriving DecidableEq

inductive DiffError where
  | parseError (message : JsStr) (lineNumber : Nat)
  | applyPatchError (message : JsStr)
deriving DecidableEq

def eofMarker := lit "*** End of File"
def changeContextMarker := lit "@@ "
def emptyChangeContextMarker := lit "@@"

def multiFileMarkers : List JsStr :=
  [lit "*** Update File:", lit "*** Add File:", lit "*** Delete File:", lit "diff --git "]

def diffMetadataPrefixes : List JsStr :=
  [lit "*** Update File:", lit "*** Add File:", lit "*** Delete File:", lit "diff --git ",
    lit "index ", lit "--- ", lit "+++ ", lit "new file mode ", lit "deleted file mode ",
    lit "rename from ", lit "rename to ", lit "similarity index ", lit "dissimilarity index ",
    lit "old mode ", lit "new mode "]

def patchWrapperPrefixes : List JsStr := [lit "*** Begin Patch", lit "*** End Patch"]

/-- `/^@@\s*-(\d+)(?:,(\d+))?\s+\+(\d+)(?:,(\d+))?\s*@@(?:\s*(.*))?$/`. -/
def unifiedHunkHeaderRegex : Regex UInt16 :=
  .seqs [chars "@@", space, chars "-", .group 1 (.plus isDigit),
    .opt (.seqs [chars ",", .group 2 (.plus isDigit)]), space1, chars "+",
    .group 3 (.plus isDigit), .opt (.seqs [chars ",", .group 4 (.plus isDigit)]), space,
    chars "@@", .opt (.seqs [space, .group 5 (.star isDot)])]

/-- `/^lines?\s+(\d+)(?:\s*-\s*(\d+))?(?:\s*@@)?$/i`. -/
def lineHintRegex : Regex UInt16 :=
  .seqs [word "line", .opt (word "s"), space1, .group 1 (.plus isDigit),
    .opt (.seqs [space, chars "-", space, .group 2 (.plus isDigit)]), .opt (.seqs [space, chars "@@"])]

/-- `/^(top|start|beginning)\s+of\s+file$/i`. -/
def topOfFileRegex : Regex UInt16 :=
  .seqs [.group 1 (.alt (word "top") (.alt (word "start") (word "beginning"))), space1, word "of",
    space1, word "file"]

/-- `/^@@\s*@@$/`. -/
def emptyContextMarkerRegex : Regex UInt16 := .seqs [chars "@@", space, chars "@@"]

/-- `/^@@\s*/u`. -/
def nestedMarkerRegex : Regex UInt16 := .seqs [chars "@@", space]

/-- `/^\s*(\d{1,6})\s+(.+)$/u`. -/
def numberedLineRegex : Regex UInt16 :=
  .seqs [space, .group 1 (.rep isDigit 1 (some 6)), space1, .group 2 (.plus isDot)]

/-- `/^\s*\d{1,6}\s+(.+)$/u`. -/
def numberPrefixRegex : Regex UInt16 :=
  .seqs [space, .rep isDigit 1 (some 6), space1, .group 1 (.plus isDot)]

def isDiffContentLine (line : JsStr) : Bool :=
  match line.head? with
  | some firstChar =>
    if isUnit ' ' firstChar then true
    else if isUnit '+' firstChar then !startsWith line (lit "+++ ")
    else if isUnit '-' firstChar then !startsWith line (lit "--- ")
    else false
  | none => false

def matchesTrimmedPrefix (line : JsStr) (starts : List JsStr) : Bool :=
  starts.any (startsWith line)

def isPatchWrapperLine (line : JsStr) : Bool :=
  line = lit "***" || matchesTrimmedPrefix line patchWrapperPrefixes

/-- Blank lines at the end of a diff, a blank context line apart. -/
def isTrailingBlank (line : JsStr) : Bool :=
  line = [] || (trim line = [] && !isDiffContentLine line)

def keepsLine (line : JsStr) : Bool :=
  isDiffContentLine line || !matchesTrimmedPrefix (trim line) diffMetadataPrefixes

def normalizedLines (lines : List JsStr) : List JsStr :=
  let lines := lines.rdropWhile isTrailingBlank
  let lines :=
    if lines.head?.any fun first => first ≠ [] && isPatchWrapperLine (trim first) then lines.tail
    else lines
  let lines :=
    if lines.getLast?.any fun last => isPatchWrapperLine (trim last) then lines.dropLast else lines
  lines.filter keepsLine

def normalizeDiff (diff : JsStr) : JsStr := joinLines (normalizedLines (splitLines diff))

structure UnifiedHunkHeader where
  oldStartLine : Nat
  oldLineCount : Nat
  newStartLine : Nat
  newLineCount : Nat
  changeContext : Option JsStr

def parseUnifiedHunkHeader (line : JsStr) : Option UnifiedHunkHeader := do
  let found ← unifiedHunkHeaderRegex.matchWhole line
  let changeContext := (found.lookup 5).map trim
  return {
    oldStartLine := digitsValue ((found.lookup 1).getD [])
    oldLineCount := ((found.lookup 2).map digitsValue).getD 1
    newStartLine := digitsValue ((found.lookup 3).getD [])
    newLineCount := ((found.lookup 4).map digitsValue).getD 1
    changeContext := changeContext.filter fun context => context ≠ [] }

def isUnifiedDiffMetadataLine (line : JsStr) : Bool :=
  matchesTrimmedPrefix line (diffMetadataPrefixes.filter fun start => !startsWith start (lit "*** "))

/-- What the header of a hunk gives: the contexts, the start line (old and new) and how many lines
it takes. -/
structure HunkHeader where
  changeContexts : List JsStr
  oldStartLine : Option Nat
  newStartLine : Option Nat
  startIndex : Nat

def parseContextHeader (headerTrimmed : JsStr) (lineNumber : Nat) : Except DiffError HunkHeader :=
  let contextValue := headerTrimmed.drop changeContextMarker.length
  let trimmedContextValue := trim contextValue
  let normalizedContextValue :=
    ((nestedMarkerRegex.matchStart trimmedContextValue).map Prod.fst).getD trimmedContextValue
  match lineHintRegex.matchWhole normalizedContextValue with
  | some found =>
    let line := digitsValue ((found.lookup 1).getD [])
    if line < 1 then .error (.parseError (lit "Line hint must be >= 1") lineNumber)
    else .ok ⟨[], some line, some line, 1⟩
  | none =>
    if (topOfFileRegex.matchWhole normalizedContextValue).isSome then .ok ⟨[], some 1, some 1, 1⟩
    else if trimmedContextValue.length > 0 then .ok ⟨[contextValue], none, none, 1⟩
    else .ok ⟨[], none, none, 1⟩

def parseHunkHeader (headerLine : JsStr) (lineNumber : Nat) (allowMissingContext : Bool) :
    Except DiffError HunkHeader :=
  let headerTrimmed := trimEnd headerLine
  let isHeaderLine := startsWith headerLine (lit "@@")
  let unifiedHeader := if isHeaderLine then parseUnifiedHunkHeader headerTrimmed else none
  let isEmptyContextMarker := (emptyContextMarkerRegex.matchWhole headerTrimmed).isSome
  if isHeaderLine && (headerTrimmed = emptyChangeContextMarker || isEmptyContextMarker) then
    .ok ⟨[], none, none, 1⟩
  else
    match unifiedHeader with
    | some header =>
      if header.oldStartLine < 1 || header.newStartLine < 1 then
        .error (.parseError (lit "Line numbers in @@ header must be >= 1") lineNumber)
      else
        .ok ⟨header.changeContext.toList, some header.oldStartLine, some header.newStartLine, 1⟩
    | none =>
      if isHeaderLine && startsWith headerTrimmed changeContextMarker then
        parseContextHeader headerTrimmed lineNumber
      else if isHeaderLine then
        let contextValue := trim (headerTrimmed.drop 2)
        .ok ⟨if contextValue.length > 0 then [contextValue] else [], none, none, 1⟩
      else if !allowMissingContext then
        .error (.parseError
          (lit "Expected hunk to start with @@ context marker, got: '" ++ headerLine ++ lit "'")
          lineNumber)
      else .ok ⟨[], none, none, 0⟩

/-- The `@@` lines that follow a header: the contexts they add and how many they are. -/
def nestedContexts : List JsStr → List JsStr × Nat
  | [] => ([], 0)
  | nextLine :: rest =>
    if !startsWith nextLine (lit "@@") then ([], 0)
    else
      let trimmed := trimEnd nextLine
      if startsWith trimmed changeContextMarker then
        let nestedContext := trimmed.drop changeContextMarker.length
        let (contexts, count) := nestedContexts rest
        (if (trim nestedContext).length > 0 then nestedContext :: contexts else contexts, count + 1)
      else if trimmed = emptyChangeContextMarker then
        let (contexts, count) := nestedContexts rest
        (contexts, count + 1)
      else ([], 0)

def isElision (trimmed : JsStr) : Bool := trimmed = lit "..." || trimmed = lit "…"

def DiffHunk.pushContext (hunk : DiffHunk) (text : JsStr) : DiffHunk :=
  { hunk with
    hasContextLines := true
    oldLines := hunk.oldLines ++ [text]
    newLines := hunk.newLines ++ [text] }

def DiffHunk.pushNew (hunk : DiffHunk) (text : JsStr) : DiffHunk :=
  { hunk with newLines := hunk.newLines ++ [text] }

def DiffHunk.pushOld (hunk : DiffHunk) (text : JsStr) : DiffHunk :=
  { hunk with oldLines := hunk.oldLines ++ [text] }

/-- The loop over the lines of a hunk, with the lines parsed so far. -/
def parseHunkLines (lineNumber : Nat) : List JsStr → DiffHunk → Nat → Except DiffError (DiffHunk × Nat)
  | [], hunk, parsedLines => .ok (hunk, parsedLines)
  | line :: rest, hunk, parsedLines =>
    let trimmed := trim line
    if line = [] && parsedLines > 0 &&
        rest.head?.any fun nextLine => startsWith (trimStart nextLine) (lit "@@") then
      .ok (hunk, parsedLines)
    else if !isDiffContentLine line && trimEnd line = eofMarker && startsWith line eofMarker then
      if parsedLines = 0 then
        .error (.parseError (lit "Hunk does not contain any lines") (lineNumber + 1))
      else .ok ({ hunk with isEndOfFile := true }, parsedLines + 1)
    else if isElision trimmed then
      parseHunkLines lineNumber rest { hunk with hasContextLines := true } (parsedLines + 1)
    else
      match line with
      | [] => parseHunkLines lineNumber rest (hunk.pushContext []) (parsedLines + 1)
      | firstChar :: text =>
        if isUnit ' ' firstChar then
          parseHunkLines lineNumber rest (hunk.pushContext text) (parsedLines + 1)
        else if isUnit '+' firstChar then
          parseHunkLines lineNumber rest (hunk.pushNew text) (parsedLines + 1)
        else if isUnit '-' firstChar then
          parseHunkLines lineNumber rest (hunk.pushOld text) (parsedLines + 1)
        else if !startsWith line (lit "@@") then
          parseHunkLines lineNumber rest (hunk.pushContext line) (parsedLines + 1)
        else if parsedLines = 0 then
          .error (.parseError (lit "Unexpected line in hunk: '" ++ line ++
            lit "'. Lines must start with ' ' (context), '+' (add), or '-' (remove)")
            (lineNumber + 1))
        else .ok (hunk, parsedLines)

/-- Whether `stripLineNumberPrefixes` takes its lines for numbered ones. `Math.ceil(n * 0.6)` is
exact for every array length. -/
def hasLineNumberPrefixes (oldLines newLines : List JsStr) : Bool :=
  let allLines := (oldLines ++ newLines).filter fun line => (trim line).length > 0
  let numberMatches := allLines.filterMap numberedLineRegex.matchWhole
  let numbers := numberMatches.map fun found => digitsValue ((found.lookup 1).getD [])
  let sequential := (numbers.zip numbers.tail).countP fun (a, b) => b == a + 1
  !(allLines.length < 2) &&
    !(numberMatches.length < max 2 ((3 * allLines.length + 4) / 5)) &&
    !(numbers.length ≥ 3 && sequential < max 1 (numbers.length - 2))

def stripLineNumber (line : JsStr) : JsStr :=
  ((numberPrefixRegex.matchWhole line).bind (·.lookup 1)).getD line

def stripLineNumberPrefixes (hunk : DiffHunk) : DiffHunk :=
  if hasLineNumberPrefixes hunk.oldLines hunk.newLines then
    { hunk with
      oldLines := hunk.oldLines.map stripLineNumber
      newLines := hunk.newLines.map stripLineNumber }
  else hunk

def parseOneHunk (lines : List JsStr) (lineNumber : Nat) (allowMissingContext : Bool) :
    Except DiffError (DiffHunk × Nat) := do
  match lines with
  | [] => .error (.parseError (lit "Diff does not contain any lines") lineNumber)
  | headerLine :: _ =>
    let header ← parseHunkHeader headerLine lineNumber allowMissingContext
    let (nested, count) := nestedContexts (lines.drop header.startIndex)
    let changeContexts := header.changeContexts ++ nested
    let startIndex := header.startIndex + count
    if startIndex ≥ lines.length then
      .error (.parseError (lit "Hunk does not contain any lines") (lineNumber + 1))
    else
      let hunk : DiffHunk :=
        { changeContext := if changeContexts.length > 0 then some (joinLines changeContexts) else none
          oldStartLine := header.oldStartLine
          newStartLine := header.newStartLine
          hasContextLines := false
          oldLines := []
          newLines := []
          isEndOfFile := false }
      let (hunk, parsedLines) ← parseHunkLines lineNumber (lines.drop startIndex) hunk 0
      if parsedLines = 0 then
        .error (.parseError (lit "Hunk does not contain any lines") (lineNumber + startIndex))
      else .ok (stripLineNumberPrefixes hunk, parsedLines + startIndex)

/-- `line.split(/\s+/)`, with the part being read and whether a separator was just read. -/
def splitSpaces : JsStr → JsStr → Bool → List JsStr
  | [], part, _ => [part]
  | u :: rest, part, inSpace =>
    if isJsWhitespace u then
      if inSpace then splitSpaces rest part true else part :: splitSpaces rest [] true
    else splitSpaces rest (part ++ [u]) false

def extractMarkerPath (line : JsStr) : Option JsStr :=
  if startsWith line (lit "diff --git ") then
    let parts := splitSpaces line [] false
    match parts[3]?.or parts[2]? with
    | some candidate =>
      if candidate = [] then none
      else if startsWith candidate (lit "a/") || startsWith candidate (lit "b/") then
        some (candidate.drop 2)
      else some candidate
    | none => none
  else if startsWith line (lit "*** Update File:") then
    some (trim (line.drop (lit "*** Update File:").length))
  else if startsWith line (lit "*** Add File:") then
    some (trim (line.drop (lit "*** Add File:").length))
  else if startsWith line (lit "*** Delete File:") then
    some (trim (line.drop (lit "*** Delete File:").length))
  else none

def fileMarkers (diff : JsStr) : List (JsStr × Option JsStr) :=
  (splitLines diff).filterMap fun line =>
    if isDiffContentLine line then none
    else (multiFileMarkers.find? (startsWith (trim line))).map fun marker =>
      (marker, extractMarkerPath (trim line))

def countMultiFileMarkers (diff : JsStr) : Nat :=
  let found := fileMarkers diff
  let paths := ((found.filterMap Prod.snd).filter fun path => path ≠ []).dedup
  if paths.length > 0 then paths.length
  else (multiFileMarkers.map fun marker => found.countP fun entry => entry.1 = marker).foldl max 0

/-- The loop of `parseDiffHunks` from line `i` on; `skip` lines of the last hunk are still ahead. A
hunk takes at least one line. -/
def parseHunksFrom : Nat → Nat → List JsStr → Except DiffError (List DiffHunk)
  | _, _, [] => .ok []
  | i, skip + 1, _ :: rest => parseHunksFrom (i + 1) skip rest
  | i, 0, line :: rest =>
    let trimmed := trim line
    let isDiffContent := line.head?.any fun c => isUnit ' ' c || isUnit '+' c || isUnit '-' c
    if trimmed = [] then parseHunksFrom (i + 1) 0 rest
    else if !isDiffContent && isUnifiedDiffMetadataLine trimmed then parseHunksFrom (i + 1) 0 rest
    else if startsWith trimmed (lit "@@") && rest.all fun next => trim next = [] then .ok []
    else do
      let (hunk, linesConsumed) ← parseOneHunk (line :: rest) (i + 1) true
      let hunks ← parseHunksFrom (i + 1) (linesConsumed - 1) rest
      return hunk :: hunks

def parseDiffHunks (diff : JsStr) : Except DiffError (List DiffHunk) :=
  let multiFileCount := countMultiFileMarkers diff
  if multiFileCount > 1 then
    .error (.applyPatchError (lit "Diff contains " ++ decimal multiFileCount ++
      lit " file markers. Single-file patches cannot contain multi-file markers."))
  else parseHunksFrom 0 0 (splitLines (normalizeDiff diff))

end GajaeCode.Edit
