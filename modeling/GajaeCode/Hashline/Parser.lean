import GajaeCode.Hashline.Hash
import GajaeCode.Hashline.Types
import GajaeCode.Text.Pattern
import GajaeCode.Text.Scan

/-! The parser of one hashline section (`hashline/parser.ts`, with the sigils of `hash.ts` and the
markers of `constants.ts`). Line numbers are exact integers. -/
namespace GajaeCode.Hashline
open Text

def beginPatchMarker := lit "*** Begin Patch"
def endPatchMarker := lit "*** End Patch"
def abortMarker := lit "*** Abort"

def abortWarning := lit
  "Tool stream truncated mid-call due to detected output corruption. Applied ops above are valid. Re-issue any remaining edits."

def hlOpInsertBefore : UInt16 := 0xab
def hlOpInsertAfter : UInt16 := 0xbb
def hlOpReplace : UInt16 := 0x2254
def hlOpChars : JsStr := [hlOpInsertBefore, hlOpInsertAfter, hlOpReplace]
def hlFilePrefix : UInt16 := 0xa7

def hlHashExamples : List JsStr := [lit "sr", lit "ab", lit "th"]

def describeAnchorExamples (lineStart : JsStr) : JsStr :=
  (lit ", ").intercalate (hlHashExamples.map fun e => lit "\"" ++ lineStart ++ e ++ lit "\"")

def isDecoration (u : UInt16) : Bool := isUnit '>' u || isUnit '+' u || isUnit '-' u || isUnit '*' u
def isLowerLetter (u : UInt16) : Bool := 0x61 ≤ u && u ≤ 0x7a

/-- `/^\s*[>+\-*]*\s*([1-9]\d*)([a-z]{2})(?:\|.*)?\s*$/`. -/
def lidCaptureRegex : Regex UInt16 :=
  .seqs [space, .star isDecoration, space,
    .group 1 (.seq (.cls fun u => isDigit u && !isUnit '0' u) (.star isDigit)),
    .group 2 (.rep isLowerLetter 2 (some 2)), .opt (.seqs [chars "|", .star isDot]), space]

/-- `/^SIGIL\s*([^|\s]+)(?:\|(.*))?\s*$/`. -/
def insertOpRegex (sigil : UInt16) : Regex UInt16 :=
  .seqs [.cls (· == sigil), space, .group 1 (.plus fun u => !(isUnit '|' u || isJsWhitespace u)),
    .opt (.seqs [chars "|", .group 2 (.star isDot)]), space]

/-- `/^≔\s*([^\s+<\-=]\S*)\s*$/`. -/
def replaceOpRegex : Regex UInt16 :=
  .seqs [.cls (· == hlOpReplace), space,
    .group 1 (.seq
      (.cls fun u =>
        !(isJsWhitespace u || isUnit '+' u || isUnit '<' u || isUnit '-' u || isUnit '=' u))
      (.star fun u => !isJsWhitespace u)), space]

def atLine (lineNum : Nat) (message : JsStr) : JsStr :=
  lit "line " ++ decimal lineNum ++ lit ": " ++ message

def parseLid (raw : JsStr) (lineNum : Nat) : Except JsStr Anchor :=
  match lidCaptureRegex.matchWhole raw with
  | some found => .ok ⟨digitsValue ((found.lookup 1).getD []), (found.lookup 2).getD []⟩
  | none => .error (atLine lineNum (lit "expected a full anchor such as " ++
      describeAnchorExamples (lit "119") ++ lit "; got " ++ jsonStringify raw ++ lit "."))

structure ParsedRange where
  start : Anchor
  stop : Anchor

def parseRange (raw : JsStr) (lineNum : Nat) : Except JsStr ParsedRange :=
  if !includes raw (lit "..") then do
    let start ← parseLid raw lineNum
    return ⟨start, start⟩
  else
    match splitString raw (lit "..") with
    | [u :: startRaw, v :: endRaw] => do
        let startRaw := u :: startRaw
        let endRaw := v :: endRaw
        let range := startRaw ++ lit ".." ++ endRaw
        let start ← parseLid startRaw lineNum
        let stop ← parseLid endRaw lineNum
        if stop.line < start.line then
          .error (atLine lineNum (lit "range " ++ range ++ lit " ends before it starts."))
        else if stop.line = start.line ∧ stop.hash ≠ start.hash then
          .error (atLine lineNum (lit "range " ++ range ++ lit " uses two different hashes for the same line."))
        else return ⟨start, stop⟩
    | _ => .error (atLine lineNum (lit "range must include exactly two full anchors separated by \"..\". For a one-line edit, repeat the same anchor on both sides."))

def expandRange (range : ParsedRange) : List Anchor :=
  (List.range' range.start.line (range.stop.line + 1 - range.start.line)).map fun line =>
    ⟨line,
      if line = range.start.line then range.start.hash
      else if line = range.stop.line then range.stop.hash
      else rangeInteriorHash⟩

inductive InsertKind where
  | before
  | after

def parseInsertTarget (raw : JsStr) (lineNum : Nat) (kind : InsertKind) : Except JsStr HashlineCursor :=
  if raw = lit "BOF" then .ok .bof
  else if raw = lit "EOF" then .ok .eof
  else do
    let anchor ← parseLid raw lineNum
    return match kind with
      | .before => .beforeAnchor anchor
      | .after => .afterAnchor anchor

section

variable (xxHash32 : List UInt8 → UInt32)

/-- A body that is the anchored line itself is no payload. -/
def resolveInlineInsertBody (cursor : HashlineCursor) (body : Option JsStr) : Option JsStr :=
  match cursor with
  | .bof | .eof => body
  | .beforeAnchor anchor | .afterAnchor anchor =>
    body.filter fun text => computeLineHash xxHash32 anchor.line text ≠ anchor.hash

def isEnvelopeOrAbortMarkerLine (line : JsStr) : Bool :=
  trimEnd line = beginPatchMarker || trimEnd line = endPatchMarker || trimEnd line = abortMarker

def isPayloadTerminatorLine (line : JsStr) : Bool :=
  line.head? = some hlFilePrefix || line.head?.any (hlOpChars.contains ·) || isEnvelopeOrAbortMarkerLine line

inductive Op where
  | insert (cursor : HashlineCursor) (inlineBody : Option JsStr)
  | replace (range : ParsedRange)

def Op.requirePayload : Op → Bool
  | .insert _ inlineBody => inlineBody.isNone
  | .replace _ => false

def pushInserts (cursor : HashlineCursor) (lineNum index : Nat) (texts : List JsStr) : List HashlineEdit :=
  texts.mapIdx fun i text => .insert cursor text lineNum (index + i)

def Op.edits (op : Op) (payload : List JsStr) (lineNum index : Nat) : List HashlineEdit :=
  match op with
  | .insert cursor inlineBody => pushInserts cursor lineNum index (inlineBody.toList ++ payload)
  | .replace range =>
    pushInserts (.beforeAnchor range.start) lineNum index payload ++
      (expandRange range).mapIdx fun i anchor => .delete anchor lineNum (index + payload.length + i)

def parseInsertOp (found : Captures UInt16) (lineNum : Nat) (kind : InsertKind) : Except JsStr Op := do
  let cursor ← parseInsertTarget ((found.lookup 1).getD []) lineNum kind
  return .insert cursor (resolveInlineInsertBody xxHash32 cursor (found.lookup 2))

def parseOp (line : JsStr) (lineNum : Nat) : Except JsStr Op :=
  match (insertOpRegex hlOpInsertBefore).matchWhole line with
  | some found => parseInsertOp xxHash32 found lineNum .before
  | none =>
    match (insertOpRegex hlOpInsertAfter).matchWhole line with
    | some found => parseInsertOp xxHash32 found lineNum .after
    | none =>
      match replaceOpRegex.matchWhole line with
      | some found => do
          let range ← parseRange ((found.lookup 1).getD []) lineNum
          return .replace range
      | none =>
        if isPayloadTerminatorLine line ||
            line.head?.any fun u => isUnit '-' u || isUnit '@' u || isUnit '¶' u then
          .error (atLine lineNum (lit "unrecognized op. Use «ANCHOR (insert before), »ANCHOR (insert after), or ≔A..B (replace/delete). Got " ++
            jsonStringify line ++ lit "."))
        else
          .error (atLine lineNum (lit "payload line has no preceding «, », or ≔ operation. Got " ++
            jsonStringify line ++ lit "."))

/-- The payload of an operation: the lines before the next terminator. -/
def collectPayload (lines : List JsStr) (opLineNum : Nat) (requirePayload : Bool) :
    Except JsStr (List JsStr) :=
  let payload := lines.takeWhile fun line => !isPayloadTerminatorLine line
  if payload.length = 0 && requirePayload then
    .error (atLine opLineNum (lit "« and » operations require at least one verbatim payload line."))
  else .ok payload

structure ParsedHashline where
  edits : List HashlineEdit
  warnings : List JsStr

/-- The loop over the lines; `skip` lines of the last payload are still ahead. -/
def parseLines : Nat → Nat → Nat → List JsStr → Except JsStr ParsedHashline
  | _, _, _, [] => .ok ⟨[], []⟩
  | lineNum, editIndex, skip + 1, _ :: lines => parseLines (lineNum + 1) editIndex skip lines
  | lineNum, editIndex, 0, line :: lines =>
    if trim line = [] then parseLines (lineNum + 1) editIndex 0 lines
    else if line = endPatchMarker then .ok ⟨[], []⟩
    else if line = abortMarker then .ok ⟨[], [abortWarning]⟩
    else if line = beginPatchMarker then parseLines (lineNum + 1) editIndex 0 lines
    else do
      let op ← parseOp xxHash32 line lineNum
      let payload ← collectPayload lines lineNum op.requirePayload
      let edits := op.edits payload lineNum editIndex
      let rest ← parseLines (lineNum + 1) (editIndex + edits.length) payload.length lines
      return ⟨edits ++ rest.edits, rest.warnings⟩

/-- The lines that the loop runs over: a newline at the end opens no line. -/
def diffLines (diff : JsStr) : List JsStr :=
  let lines := splitCrLf diff
  if diff.getLast? = some LF && lines.getLast? = some [] then lines.dropLast else lines

def parseHashlineWithWarnings (diff : JsStr) : Except JsStr ParsedHashline :=
  parseLines xxHash32 1 0 0 (diffLines diff)

def parseHashline (diff : JsStr) : Except JsStr (List HashlineEdit) :=
  (parseHashlineWithWarnings xxHash32 diff).map ParsedHashline.edits

end

end GajaeCode.Hashline
