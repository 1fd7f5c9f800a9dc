import GajaeCode.Session.ByteTruncation

/-! Truncation of text by lines and bytes (`session/streaming-output.ts`): the head, the
tail, and both with the middle elided. -/
namespace GajaeCode.Session
open Text

def defaultMaxLines : Nat := 3000
def defaultMaxBytes : Nat := 50 * 1024

inductive TruncatedBy where
  | lines
  | bytes
  | middle
  deriving DecidableEq

/-- An absent flag reads as `false`. -/
structure TruncationResult where
  content : JsStr
  truncated : Bool := false
  truncatedBy : Option TruncatedBy := none
  totalLines : Nat
  totalBytes : Nat
  outputLines : Option Nat := none
  outputBytes : Option Nat := none
  elidedBytes : Option Nat := none
  elidedLines : Option Nat := none
  lastLinePartial : Bool := false
  firstLineExceedsLimit : Bool := false
  lastLineExceedsLimit : Bool := false

structure TruncationOptions where
  maxLines : Option Nat := none
  maxBytes : Option Nat := none
  maxHeadBytes : Option Nat := none
  maxHeadLines : Option Nat := none

def countNewlines (text : JsStr) : Nat := text.count LF

def noTruncResult (content : JsStr) (totalLines totalBytes : Nat) : TruncationResult :=
  { content, totalLines, totalBytes }

structure LineScan where
  includedLines : Nat
  bytesUsed : Nat
  index : Nat
  truncatedBy : TruncatedBy

def sepBytes (includedLines : Nat) : Nat := if 0 < includedLines then 1 else 0

def LineScan.reason (scan : LineScan) (maxLines maxBytes : Nat) : TruncatedBy :=
  if maxLines ≤ scan.includedLines ∧ scan.bytesUsed ≤ maxBytes then .lines else scan.truncatedBy

/-- The loop of `truncateHead` over the lines from `cursor` on; nothing when the first
line exceeds the limit. -/
def headScan (maxLines maxBytes : Nat) : List JsStr → Nat → Nat → Nat → Nat → Option LineScan
  | [], includedLines, bytesUsed, cutIndex, _ => some ⟨includedLines, bytesUsed, cutIndex, .lines⟩
  | line :: rest, includedLines, bytesUsed, cutIndex, cursor =>
    if includedLines < maxLines then
      if maxBytes < bytesUsed + sepBytes includedLines then
        some ⟨includedLines, bytesUsed, cutIndex, .bytes⟩
      else
        let remaining := maxBytes - bytesUsed - sepBytes includedLines
        if remaining < line.length ∨ remaining < byteLength line then
          if includedLines = 0 then none else some ⟨includedLines, bytesUsed, cutIndex, .bytes⟩
        else
          headScan maxLines maxBytes rest (includedLines + 1)
            (bytesUsed + (sepBytes includedLines + byteLength line))
            (cursor + line.length) (cursor + line.length + 1)
    else some ⟨includedLines, bytesUsed, cutIndex, .lines⟩

/-- Truncate content from the head: the first lines that fit, none of them in part. -/
def truncateHead (content : JsStr) (options : TruncationOptions) : TruncationResult :=
  let maxLines := options.maxLines.getD defaultMaxLines
  let maxBytes := options.maxBytes.getD defaultMaxBytes
  let totalBytes := byteLength content
  let totalLines := countNewlines content + 1
  if totalLines ≤ maxLines ∧ totalBytes ≤ maxBytes then noTruncResult content totalLines totalBytes
  else match headScan maxLines maxBytes (splitLines content) 0 0 0 0 with
    | none =>
      { content := [], truncated := true, truncatedBy := some .bytes, totalLines, totalBytes,
        outputLines := some 0, outputBytes := some 0, firstLineExceedsLimit := true }
    | some scan =>
      { content := content.take scan.index, truncated := true,
        truncatedBy := some (scan.reason maxLines maxBytes), totalLines, totalBytes,
        outputLines := some scan.includedLines, outputBytes := some scan.bytesUsed }

/-- The end of the loop of `truncateTail`: whole lines, or a part of the last one. -/
inductive TailScan where
  | lines (scan : LineScan)
  | lastLine (tail : ByteTruncationResult)

/-- `text.lastIndexOf(NL, position)`. -/
def lastNewline (text : JsStr) : Nat → Option Nat
  | 0 => if text[0]? = some LF then some 0 else none
  | position + 1 => if text[position + 1]? = some LF then some (position + 1) else lastNewline text position

/-- The loop of `truncateTail` while there is `room` for lines; the next one ends at `stop`. -/
def tailScan (content : JsStr) (maxBytes : Nat) : Nat → Nat → Nat → Nat → Nat → TailScan
  | 0, includedLines, bytesUsed, startIndex, _ => .lines ⟨includedLines, bytesUsed, startIndex, .lines⟩
  | room + 1, includedLines, bytesUsed, startIndex, stop =>
    -- at the start of the text `stop - 1` is -1, which `lastIndexOf` takes for 0
    let nl := lastNewline content (stop - 1)
    let lineStart := (nl.map (· + 1)).getD 0
    if maxBytes < bytesUsed + sepBytes includedLines then
      .lines ⟨includedLines, bytesUsed, startIndex, .bytes⟩
    else
      let remaining := maxBytes - bytesUsed - sepBytes includedLines
      let lineText := (content.take stop).drop lineStart
      if remaining < stop - lineStart then
        if includedLines = 0 then
          .lastLine (truncateTailBytes ((content.take stop).drop (max lineStart (stop - maxBytes))) maxBytes)
        else .lines ⟨includedLines, bytesUsed, startIndex, .bytes⟩
      else if remaining < byteLength lineText then
        if includedLines = 0 then .lastLine (truncateTailBytes lineText maxBytes)
        else .lines ⟨includedLines, bytesUsed, startIndex, .bytes⟩
      else
        let bytesUsed := bytesUsed + (sepBytes includedLines + byteLength lineText)
        match nl with
        | none => .lines ⟨includedLines + 1, bytesUsed, lineStart, .lines⟩
        | some nl => tailScan content maxBytes room (includedLines + 1) bytesUsed lineStart nl

/-- Truncate content from the tail; the last line comes back in part when it exceeds
the limit. -/
def truncateTail (content : JsStr) (options : TruncationOptions) : TruncationResult :=
  let maxLines := options.maxLines.getD defaultMaxLines
  let maxBytes := options.maxBytes.getD defaultMaxBytes
  let totalBytes := byteLength content
  let totalLines := countNewlines content + 1
  if totalLines ≤ maxLines ∧ totalBytes ≤ maxBytes then noTruncResult content totalLines totalBytes
  else match tailScan content maxBytes maxLines 0 0 content.length content.length with
    | .lastLine tail =>
      { content := tail.text, truncated := true, truncatedBy := some .bytes, totalLines, totalBytes,
        outputLines := some 1, outputBytes := some tail.bytes, lastLinePartial := true,
        lastLineExceedsLimit := true }
    | .lines scan =>
      { content := content.drop scan.index, truncated := true,
        truncatedBy := some (scan.reason maxLines maxBytes), totalLines, totalBytes,
        outputLines := some scan.includedLines, outputBytes := some scan.bytesUsed }

/-- One decimal, below the next unit where there is one. -/
def formatByteUnit (bytes unit : Nat) (clampToNextUnit : Bool) : JsStr :=
  let tenths := (bytes * 20 + unit) / (2 * unit)
  let shown := if clampToNextUnit then min tenths (1024 * 10 - 1) else tenths
  decimal (shown / 10) ++ lit "." ++ decimal (shown % 10)

def formatBytes (bytes : Nat) : JsStr :=
  if bytes < 1024 then decimal bytes ++ lit "B"
  else if bytes < 1024 * 1024 then formatByteUnit bytes 1024 true ++ lit "KB"
  else if bytes < 1024 * 1024 * 1024 then formatByteUnit bytes (1024 * 1024) true ++ lit "MB"
  else formatByteUnit bytes (1024 * 1024 * 1024) false ++ lit "GB"

/-- The marker in the place of the elided middle; `toLocaleString` writes a count. -/
def formatMiddleElisionMarker (toLocaleString : Nat → JsStr) (elidedLines elidedBytes : Nat) :
    JsStr :=
  lit "[… " ++ toLocaleString elidedLines ++ lit " line" ++ (if elidedLines = 1 then [] else lit "s") ++
    lit " elided (" ++ formatBytes elidedBytes ++ lit ") …]"

/-- A retained segment of the source, whole lines or a part of one. -/
inductive ReadSegment where
  | lines (content : JsStr) (lines bytes startLine endLine : Nat)
  | partialLine (content : JsStr) (bytes startLine endLine sourceLineBytes : Nat)

def ReadSegment.content : ReadSegment → JsStr
  | lines content .. => content
  | partialLine content .. => content

def ReadSegment.lineCount : ReadSegment → Nat
  | lines _ count .. => count
  | partialLine .. => 1

def ReadSegment.bytes : ReadSegment → Nat
  | lines _ _ bytes .. => bytes
  | partialLine _ bytes .. => bytes

def ReadSegment.lastLinePartial : ReadSegment → Bool
  | lines .. => false
  | partialLine .. => true

inductive WindowKind where
  | full
  | headOnly
  | tailOnly
  | middle
  deriving DecidableEq

inductive Overlap where
  | disjoint
  | adjacent
  | overlapping
  deriving DecidableEq

structure ReadWindow where
  kind : WindowKind
  head : Option ReadSegment := none
  tail : Option ReadSegment := none
  overlap : Overlap
  elidedLines : Nat
  elidedBytes : Nat
  totalLines : Nat
  totalBytes : Nat
  truncatedBy : Option TruncatedBy := none

def outputLineCount (result : TruncationResult) : Nat :=
  result.outputLines.getD (if result.content.length = 0 then 0 else countNewlines result.content + 1)

def outputByteCount (result : TruncationResult) : Nat :=
  result.outputBytes.getD (byteLength result.content)

def lastSourceLineBytes (content : JsStr) : Nat :=
  byteLength ((splitLines content).getLastD [])

def makeReadSegment (result : TruncationResult) (startLine totalLines : Nat) (sourceContent : JsStr) :
    Option ReadSegment :=
  let lines := outputLineCount result
  if lines = 0 then none
  else
    let bytes := outputByteCount result
    let endLine := min totalLines (startLine + lines - 1)
    if result.lastLinePartial then
      some (.partialLine result.content bytes endLine endLine (lastSourceLineBytes sourceContent))
    else some (.lines result.content lines bytes startLine endLine)

def fullReadWindow (content : JsStr) (totalLines totalBytes : Nat) (overlap : Overlap) : ReadWindow :=
  { kind := .full, head := some (.lines content totalLines totalBytes 1 totalLines), overlap,
    elidedLines := 0, elidedBytes := 0, totalLines, totalBytes }

def oneSided (content : JsStr) (totalLines totalBytes : Nat) (kind : WindowKind)
    (result : TruncationResult) (startLine : Nat) : ReadWindow :=
  let segment := makeReadSegment result startLine totalLines content
  { kind, head := if kind = .headOnly then segment else none,
    tail := if kind = .headOnly then none else segment, overlap := .disjoint,
    elidedLines := totalLines - outputLineCount result,
    elidedBytes := totalBytes - outputByteCount result, totalLines, totalBytes,
    truncatedBy := some (if result.truncatedBy = some .lines then .lines else .bytes) }

structure MiddleBudget where
  maxBytes : Nat
  maxLines : Nat
  headBytes : Nat
  tailBytes : Nat
  headLines : Nat
  tailLines : Nat

def TruncationOptions.budget (options : TruncationOptions) : MiddleBudget :=
  let maxBytes := options.maxBytes.getD defaultMaxBytes
  let maxLines := options.maxLines.getD defaultMaxLines
  let headBytes := options.maxHeadBytes.getD (maxBytes / 2)
  let headLines := options.maxHeadLines.getD (max 1 (maxLines / 2))
  { maxBytes, maxLines, headBytes, tailBytes := maxBytes - headBytes, headLines, tailLines := maxLines - headLines }

/-- `a || b` on numbers. -/
def orElse (a b : Nat) : Nat := if a = 0 then b else a

def MiddleBudget.head (budget : MiddleBudget) : TruncationOptions :=
  { maxBytes := some budget.headBytes, maxLines := some budget.headLines }

def MiddleBudget.tail (budget : MiddleBudget) : TruncationOptions :=
  { maxBytes := some budget.tailBytes, maxLines := some budget.tailLines }

def MiddleBudget.tailOnly (budget : MiddleBudget) : TruncationOptions :=
  { maxBytes := some (orElse budget.tailBytes budget.maxBytes),
    maxLines := some (orElse budget.tailLines budget.maxLines) }

def combineWindows (content : JsStr) (totalLines totalBytes : Nat) (head tail : TruncationResult) :
    ReadWindow :=
  let headLinesKept := outputLineCount head
  let tailLinesKept := outputLineCount tail
  if headLinesKept = 0 ∨ head.firstLineExceedsLimit = true then
    oneSided content totalLines totalBytes .tailOnly tail (totalLines - tailLinesKept + 1)
  else if tailLinesKept = 0 then oneSided content totalLines totalBytes .headOnly head 1
  else
    let headEnd := headLinesKept
    let tailStart := totalLines - tailLinesKept + 1
    let overlap := if headEnd + 1 < tailStart then Overlap.disjoint
      else if headEnd + 1 = tailStart then .adjacent else .overlapping
    let tailPartial := tail.lastLinePartial
    if totalLines ≤ headLinesKept + tailLinesKept ∧ tailPartial = false then
      fullReadWindow content totalLines totalBytes overlap
    else match makeReadSegment head 1 totalLines content, makeReadSegment tail tailStart totalLines content with
      | some headWindow, some tailWindow =>
        let partialSourceBytes := match tailWindow with
          | .partialLine _ _ _ _ sourceLineBytes => sourceLineBytes
          | .lines _ _ bytes _ _ => bytes
        { kind := .middle, head := some headWindow, tail := some tailWindow, overlap,
          elidedLines := if tailPartial then tailStart - headEnd - 1
            else totalLines - headLinesKept - tailLinesKept,
          elidedBytes := if tailPartial then totalBytes - outputByteCount head - partialSourceBytes
            else totalBytes - outputByteCount head - outputByteCount tail,
          totalLines, totalBytes, truncatedBy := some .middle }
      | _, _ => fullReadWindow content totalLines totalBytes overlap

def truncateMiddleWindows (content : JsStr) (options : TruncationOptions) : ReadWindow :=
  let budget := options.budget
  let totalBytes := byteLength content
  let totalLines := countNewlines content + 1
  if totalBytes ≤ budget.maxBytes ∧ totalLines ≤ budget.maxLines then
    fullReadWindow content totalLines totalBytes .disjoint
  else if budget.headBytes = 0 ∨ budget.headLines = 0 then
    let tail := truncateTail content budget.tailOnly
    oneSided content totalLines totalBytes .tailOnly tail (totalLines - outputLineCount tail + 1)
  else if budget.tailBytes = 0 ∨ budget.tailLines = 0 then
    oneSided content totalLines totalBytes .headOnly (truncateHead content budget.head) 1
  else
    combineWindows content totalLines totalBytes (truncateHead content budget.head)
      (truncateTail content budget.tail)

def legacyElidedBytes (windows : ReadWindow) (head : ReadSegment) : ReadSegment → Nat
  | .partialLine _ bytes _ _ _ => windows.totalBytes - head.bytes - bytes
  | .lines .. => windows.elidedBytes

def spliceWindows (toLocaleString : Nat → JsStr) (windows : ReadWindow) (head tail : ReadSegment) :
    TruncationResult :=
  let elidedLines := windows.totalLines - head.lineCount - tail.lineCount
  let elidedBytes := legacyElidedBytes windows head tail
  let marker := formatMiddleElisionMarker toLocaleString elidedLines elidedBytes
  { content := head.content ++ LF :: (marker ++ LF :: tail.content), truncated := true,
    truncatedBy := some .middle, totalLines := windows.totalLines, totalBytes := windows.totalBytes,
    outputLines := some (head.lineCount + tail.lineCount + 1),
    outputBytes := some (head.bytes + tail.bytes + byteLength marker + 2),
    elidedLines := some elidedLines, elidedBytes := some elidedBytes,
    lastLinePartial := tail.lastLinePartial, lastLineExceedsLimit := tail.lastLinePartial }

def truncateMiddle (toLocaleString : Nat → JsStr) (content : JsStr) (options : TruncationOptions) :
    TruncationResult :=
  let budget := options.budget
  let windows := truncateMiddleWindows content options
  match windows.kind with
  | .full => noTruncResult content windows.totalLines windows.totalBytes
  | .tailOnly => truncateTail content budget.tailOnly
  | .headOnly => truncateHead content budget.head
  | .middle =>
    match windows.head, windows.tail with
    | some head, some tail =>
      if windows.totalLines ≤ head.lineCount + tail.lineCount then
        noTruncResult content windows.totalLines windows.totalBytes
      else spliceWindows toLocaleString windows head tail
    | _, _ => noTruncResult content windows.totalLines windows.totalBytes

end GajaeCode.Session
