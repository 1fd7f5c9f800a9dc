import GajaeCode.Session.Truncation

/-! The output sink (`session/streaming-output.ts`): pushed chunks fill a head window and
a rolling tail window, and a capped raw copy is kept for a terminal publisher. A sink
that writes its artifact to a path is not modelled, nor are the live callbacks. -/
namespace GajaeCode.Session
open Text

def coalesceFlushChars : Nat := 64 * 1024
def defaultArtifactMaxBytes : Nat := 10 * 1024 * 1024
def maxPending : Nat := 10
def artifactWriterDiagnosticMaxBytes : Nat := 256

structure ArtifactInfo where
  totalBytes : Nat
  omittedBytes : Nat
  deriving DecidableEq

inductive PublishResult where
  | published (artifactId : JsStr) (omittedBytes : Option Int)
  | unavailable
  | failed (diagnostic : JsStr)

structure OutputSinkOptions where
  spillThreshold : Nat := defaultMaxBytes
  headBytes : Nat := 0
  maxColumns : Nat := 0
  artifactMaxBytes : Nat := defaultArtifactMaxBytes
  artifactPublisher : Option (JsStr → ArtifactInfo → PublishResult) := none
  coalesceSanitize : Bool := false

structure Retention where
  buffer : JsStr := []
  bufferBytes : Nat := 0
  head : JsStr := []
  headBytes : Nat := 0
  headRetentionDisabled : Bool := false
  processedBytes : Nat := 0
  processedLines : Nat := 0
  truncated : Bool := false

structure ColumnState where
  currentLineBytes : Nat := 0
  columnEllipsisAdded : Bool := false
  columnDroppedBytes : Nat := 0
  columnTruncatedLines : Nat := 0

structure TerminalArtifact where
  artifactBytes : Nat := 0
  artifactTruncatedBytes : Nat := 0
  pendingArtifactContent : Option (List JsStr) := none
  artifactPublishAttempted : Bool := false
  artifactFinalizationFailed : Bool := false
  finalized : Bool := false
  publishedArtifactId : Option JsStr := none
  artifactFailureDiagnostic : Option JsStr := none

structure OutputSink where
  retention : Retention := {}
  columns : ColumnState := {}
  artifact : TerminalArtifact := {}
  totalLines : Nat := 0
  totalBytes : Nat := 0
  sawData : Bool := false
  coalesceBuf : JsStr := []

namespace Retention

def setTail (r : Retention) (text : JsStr) (bytes : Nat) : Retention :=
  { r with buffer := text, bufferBytes := bytes }

def appendTail (r : Retention) (text : JsStr) (bytes : Nat) : Retention :=
  { r with buffer := r.buffer ++ text, bufferBytes := r.bufferBytes + bytes }

def appendHead (r : Retention) (text : JsStr) (bytes : Nat) : Retention :=
  { r with head := r.head ++ text, headBytes := r.headBytes + bytes }

def trimTailTo (r : Retention) (maxBytes : Nat) : Retention :=
  if r.bufferBytes ≤ maxBytes then r
  else
    let cut := truncateTailBytes r.buffer maxBytes
    { r with buffer := cut.text, bufferBytes := cut.bytes }

def pushTail (r : Retention) (threshold : Nat) (chunk : JsStr) (dataBytes : Nat) : Retention :=
  if dataBytes = 0 then r
  else if r.bufferBytes + dataBytes ≤ threshold then r.appendTail chunk dataBytes
  else
    let r := { r with truncated := true }
    if threshold ≤ dataBytes then
      let cut := truncateTailBytes chunk threshold
      r.setTail cut.text cut.bytes
    else (r.appendTail chunk dataBytes).trimTailTo threshold

/-- The retention part of `#ingest`, on the visible chunk. -/
def retain (r : Retention) (headLimit threshold : Nat) (visibleChunk : JsStr) : Retention :=
  let visibleBytes := byteLength visibleChunk
  let r := { r with
    processedBytes := r.processedBytes + visibleBytes
    processedLines := r.processedLines + countNewlines visibleChunk }
  if visibleBytes = 0 then r
  else if 0 < headLimit ∧ r.headRetentionDisabled = false ∧ r.headBytes < headLimit then
    let room := headLimit - r.headBytes
    if visibleBytes ≤ room then r.appendHead visibleChunk visibleBytes
    else
      let headSlice := truncateHeadBytes visibleChunk room
      if 0 < headSlice.bytes then
        (r.appendHead headSlice.text headSlice.bytes).pushTail threshold
          (visibleChunk.drop headSlice.text.length) (visibleBytes - headSlice.bytes)
      else r.pushTail threshold visibleChunk visibleBytes
  else r.pushTail threshold visibleChunk visibleBytes

end Retention

namespace ColumnState

def capSegment (state : ColumnState) (maxColumns : Nat) (segment : JsStr) : ColumnState × JsStr :=
  if segment = [] then (state, [])
  else
    let segBytes := byteLength segment
    if state.columnEllipsisAdded then
      ({ state with columnDroppedBytes := state.columnDroppedBytes + segBytes }, [])
    else
      let remaining := maxColumns - state.currentLineBytes
      if segBytes ≤ remaining then
        ({ state with currentLineBytes := state.currentLineBytes + segBytes }, segment)
      else
        let sliced := truncateHeadBytes segment (remaining - 3)
        ({ currentLineBytes := state.currentLineBytes + (sliced.bytes + 3)
           columnEllipsisAdded := true
           columnDroppedBytes := state.columnDroppedBytes + (segBytes - sliced.bytes)
           columnTruncatedLines := state.columnTruncatedLines + 1 }, sliced.text ++ lit "…")

/-- The segments of a chunk; every line feed opens a new line. -/
def capSegments (maxColumns : Nat) : ColumnState → List JsStr → ColumnState × JsStr
  | state, [] => (state, [])
  | state, [segment] => state.capSegment maxColumns segment
  | state, segment :: rest =>
    let (state, text) := state.capSegment maxColumns segment
    let (state, more) := capSegments maxColumns
      { state with currentLineBytes := 0, columnEllipsisAdded := false } rest
    (state, text ++ LF :: more)

def applyColumnCap (state : ColumnState) (maxColumns : Nat) (chunk : JsStr) : ColumnState × JsStr :=
  capSegments maxColumns state (splitLines chunk)

end ColumnState

namespace TerminalArtifact

/-- What of a chunk stays under the cap, and the bytes omitted. -/
def capArtifactChunk (a : TerminalArtifact) (maxBytes : Nat) (chunk : JsStr) (bytes : Nat) :
    TerminalArtifact × Option ByteTruncationResult :=
  if bytes = 0 then (a, none)
  else if maxBytes ≤ a.artifactBytes then
    ({ a with artifactTruncatedBytes := a.artifactTruncatedBytes + bytes }, none)
  else
    let room := maxBytes - a.artifactBytes
    if bytes ≤ room then (a, some ⟨chunk, bytes⟩)
    else
      let kept := truncateHeadBytes chunk room
      ({ a with artifactTruncatedBytes := a.artifactTruncatedBytes + (bytes - kept.bytes) },
        if 0 < kept.bytes then some kept else none)

def compactPending (pending : List JsStr) : List JsStr :=
  if maxPending < pending.length then [pending.flatten] else pending

def enqueueTerminalArtifactChunk (a : TerminalArtifact) (maxBytes : Nat) (chunk : JsStr) (bytes : Nat) :
    TerminalArtifact :=
  if a.artifactFinalizationFailed || a.finalized then a
  else match a.capArtifactChunk maxBytes chunk bytes with
    | (a, none) => a
    | (a, some capped) =>
      { a with
        artifactBytes := a.artifactBytes + capped.bytes
        pendingArtifactContent := some (compactPending (a.pendingArtifactContent.getD [] ++ [capped.text])) }

end TerminalArtifact

section

variable (options : OutputSinkOptions) (sanitizeOutputChunk : JsStr → JsStr)

def OutputSink.mirror (sink : OutputSink) (rawChunk : JsStr) (rawBytes : Nat) : OutputSink :=
  if options.artifactPublisher.isSome then
    { sink with artifact := sink.artifact.enqueueTerminalArtifactChunk options.artifactMaxBytes rawChunk rawBytes }
  else sink

def OutputSink.ingest (sink : OutputSink) (rawChunk : JsStr) : OutputSink :=
  let sanitizedChunk := sanitizeOutputChunk rawChunk
  let rawBytes := byteLength rawChunk
  let sink := { sink with
    totalBytes := sink.totalBytes + rawBytes
    sawData := sink.sawData || !rawChunk.isEmpty
    totalLines := sink.totalLines + countNewlines rawChunk }
  let sink := if options.maxColumns = 0 then sink.mirror options rawChunk rawBytes else sink
  if rawBytes = 0 then sink
  else
    let (columns, visibleChunk) :=
      if 0 < options.maxColumns then sink.columns.applyColumnCap options.maxColumns sanitizedChunk
      else (sink.columns, sanitizedChunk)
    let sink := { sink with columns }
    let sink := if 0 < options.maxColumns then sink.mirror options rawChunk rawBytes else sink
    { sink with retention := sink.retention.retain options.headBytes options.spillThreshold visibleChunk }

def OutputSink.flushCoalesced (sink : OutputSink) : OutputSink :=
  if sink.coalesceBuf = [] then sink
  else { sink with coalesceBuf := [] }.ingest options sanitizeOutputChunk sink.coalesceBuf

def OutputSink.push (sink : OutputSink) (chunk : JsStr) : OutputSink :=
  if options.coalesceSanitize = false then sink.ingest options sanitizeOutputChunk chunk
  else
    let sink := { sink with coalesceBuf := sink.coalesceBuf ++ chunk }
    if coalesceFlushChars ≤ sink.coalesceBuf.length then sink.flushCoalesced options sanitizeOutputChunk
    else sink

def OutputSink.pushAll (sink : OutputSink) (chunks : List JsStr) : OutputSink :=
  chunks.foldl (fun sink chunk => sink.push options sanitizeOutputChunk chunk) sink

end

def collapseSpaces : JsStr → JsStr
  | [] => []
  | u :: rest =>
    if isJsWhitespace u then
      if (rest.head?.map isJsWhitespace).getD false then collapseSpaces rest
      else 0x20 :: collapseSpaces rest
    else u :: collapseSpaces rest

/-- The first diagnostic stays. -/
def TerminalArtifact.recordDiagnostic (a : TerminalArtifact) (kind : JsStr) (message : Option JsStr) :
    TerminalArtifact :=
  match a.artifactFailureDiagnostic with
  | some _ => a
  | none =>
    let text := match message with
      | none => lit "terminal artifact publisher unavailable"
      | some message =>
        if trim (collapseSpaces message) = [] then lit "unknown publication error"
        else trim (collapseSpaces message)
    let cut := truncateHeadBytes (kind ++ lit ": " ++ text) artifactWriterDiagnosticMaxBytes
    { a with artifactFailureDiagnostic := some cut.text }

def OutputSink.shouldPublishTerminalArtifact (options : OutputSinkOptions) (sink : OutputSink) : Bool :=
  options.artifactPublisher.isSome && (sink.retention.truncated ||
    decide (0 < sink.columns.columnDroppedBytes) || decide (0 < sink.artifact.artifactTruncatedBytes))

def OutputSink.publication (options : OutputSinkOptions) (sink : OutputSink) :
    Option (JsStr × ArtifactInfo) :=
  if sink.artifact.finalized || sink.artifact.artifactFinalizationFailed ||
      !sink.shouldPublishTerminalArtifact options || sink.artifact.artifactPublishAttempted then none
  else some ((sink.artifact.pendingArtifactContent.getD []).flatten,
    { totalBytes := sink.totalBytes, omittedBytes := sink.artifact.artifactTruncatedBytes })

def TerminalArtifact.settle (a : TerminalArtifact) : PublishResult → TerminalArtifact
  | .unavailable =>
    { (a.recordDiagnostic (lit "unavailable") none) with artifactFinalizationFailed := true }
  | .failed diagnostic =>
    { (a.recordDiagnostic (lit "failed") (some diagnostic)) with artifactFinalizationFailed := true }
  | .published artifactId omittedBytes =>
    if artifactId = [] then
      { (a.recordDiagnostic (lit "failed") (some (lit "storage returned no artifact id"))) with
        artifactFinalizationFailed := true }
    else if (omittedBytes.getD 0) < 0 then
      { (a.recordDiagnostic (lit "failed")
          (some (lit "publisher returned invalid omitted-byte accounting"))) with
        artifactFinalizationFailed := true }
    else
      { a with
        artifactTruncatedBytes := a.artifactTruncatedBytes + (omittedBytes.getD 0).toNat
        publishedArtifactId := some artifactId
        finalized := true }

def OutputSink.publishTerminalArtifact (options : OutputSinkOptions) (sink : OutputSink) : OutputSink :=
  match options.artifactPublisher, sink.publication options with
  | some publish, some (content, info) =>
    let settled := { sink.artifact with artifactPublishAttempted := true }.settle (publish content info)
    { sink with artifact := { settled with pendingArtifactContent := none } }
  | _, _ => sink

structure OutputSummary where
  output : JsStr
  truncated : Bool
  totalLines : Nat
  totalBytes : Nat
  outputLines : Nat
  outputBytes : Nat
  elidedBytes : Option Nat
  elidedLines : Option Nat
  columnDroppedBytes : Option Nat
  columnTruncatedLines : Option Nat
  artifactTruncatedBytes : Option Nat
  artifactFailureDiagnostic : Option JsStr
  artifactId : Option JsStr

def endsWithNewline (text : JsStr) : Bool := text.getLast? == some LF
def startsWithNewline (text : JsStr) : Bool := text.head? == some LF

/-- The line feed between a window and the marker. -/
def headSep (head : JsStr) : JsStr := if endsWithNewline head then [] else [LF]
def tailSep (tail : JsStr) : JsStr := if startsWithNewline tail then [] else [LF]

structure DumpBody where
  body : JsStr
  outputBytes : Nat
  outputLines : Nat
  elidedBytes : Option Nat := none
  elidedLines : Option Nat := none

def positive (n : Nat) : Option Nat := if 0 < n then some n else none

/-- The lines of the head window, the last of them perhaps in part. -/
def headLineCount (head : JsStr) : Nat :=
  countNewlines head + (if 0 < byteLength head ∧ endsWithNewline head = false then 1 else 0)

def tailLineCount (tail : JsStr) : Nat := if tail = [] then 0 else countNewlines tail + 1

section

variable (toLocaleString : Nat → JsStr)

def composeBody (r : Retention) (sawData : Bool) : DumpBody :=
  let processedTotalLines := if sawData then r.processedLines + 1 else 0
  let headBytes := byteLength r.head
  let headLines := headLineCount r.head
  let tailBytes := byteLength r.buffer
  let tailLines := tailLineCount r.buffer
  if 0 < headBytes ∧ headBytes + tailBytes < r.processedBytes then
    let elidedBytes := r.processedBytes - headBytes - tailBytes
    let elidedLines := processedTotalLines - headLines - tailLines
    let marker := formatMiddleElisionMarker toLocaleString elidedLines elidedBytes
    { body := r.head ++ headSep r.head ++ marker ++ tailSep r.buffer ++ r.buffer
      outputBytes := headBytes + byteLength marker + tailBytes + (headSep r.head).length + (tailSep r.buffer).length
      outputLines := headLines + 1 + tailLines
      elidedBytes := some elidedBytes
      elidedLines := some elidedLines }
  else if 0 < headBytes then
    { body := r.head ++ r.buffer
      outputBytes := headBytes + tailBytes
      outputLines := if r.head ++ r.buffer = [] then 0 else countNewlines (r.head ++ r.buffer) + 1 }
  else { body := r.buffer, outputBytes := tailBytes, outputLines := tailLines }

def noticeLine : Option JsStr → JsStr
  | none => []
  | some notice => if notice = [] then [] else lit "[" ++ notice ++ lit "]\n"

def OutputSink.dump (options : OutputSinkOptions) (sanitizeOutputChunk : JsStr → JsStr)
    (sink : OutputSink) (notice : Option JsStr) : OutputSink × OutputSummary :=
  let sink := sink.flushCoalesced options sanitizeOutputChunk
  let sink := sink.publishTerminalArtifact options
  let composed := composeBody toLocaleString sink.retention sink.sawData
  let truncated := sink.retention.truncated || composed.elidedBytes.isSome ||
    decide (0 < sink.columns.columnDroppedBytes)
  let sink := { sink with retention := { sink.retention with truncated } }
  (sink,
    { output := noticeLine notice ++ composed.body
      truncated
      totalLines := if sink.sawData then sink.totalLines + 1 else 0
      totalBytes := sink.totalBytes
      outputLines := composed.outputLines
      outputBytes := composed.outputBytes
      elidedBytes := composed.elidedBytes
      elidedLines := composed.elidedLines
      columnDroppedBytes := positive sink.columns.columnDroppedBytes
      columnTruncatedLines := positive sink.columns.columnTruncatedLines
      artifactTruncatedBytes := positive sink.artifact.artifactTruncatedBytes
      artifactFailureDiagnostic := sink.artifact.artifactFailureDiagnostic
      artifactId := sink.artifact.publishedArtifactId })

end

end GajaeCode.Session
