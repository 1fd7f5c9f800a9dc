import GajaeCode.Edit.ReplaceText
import GajaeCode.Text.Utf8Window

/-! Bracketed pastes of a terminal, whose markers may be cut between the chunks of the input. -/
namespace GajaeCode.Tui

open Edit (indexOf)
open Text List

def pasteStart : JsStr := lit "\x1b[200~"
def pasteEnd : JsStr := lit "\x1b[201~"
def escape : JsStr := lit "\x1b"

def bracketedPasteFrameTimeoutMs : Int := 1000
def bracketedPasteFrameMaxBytes : Nat := 1024 * 1024

/-- The content of a paste. Whether its frame was closed by an end marker the result of the source does not say. -/
structure PasteFrame where
  content : JsStr
  closed : Bool

inductive PasteResult where
  | unhandled
  | handled (leading : JsStr) (paste : Option PasteFrame) (remaining : JsStr)

def partialStartSuffixLength (value : JsStr) : Nat :=
  let maxLength := min value.length (pasteStart.length - 1)
  ((List.range' 1 maxLength).reverse.find? fun length => (pasteStart.take length).isSuffixOf value).getD 0

structure BracketedPasteHandler where
  buffer : JsStr := []
  leading : JsStr := []
  active : Bool := false
  pendingSince : Option Int := none

namespace BracketedPasteHandler

variable (handler : BracketedPasteHandler) (data : JsStr) (now : Int)

def hasPendingFrame : Bool := handler.active || 0 < handler.buffer.length || 0 < handler.leading.length

/-- The text that is held back, with the start marker of an open frame. -/
def buffered : JsStr :=
  if handler.active then handler.leading ++ pasteStart ++ handler.buffer else handler.leading ++ handler.buffer

def flushActive (remaining : JsStr) : BracketedPasteHandler × PasteResult :=
  ({}, .handled handler.leading (some ⟨handler.buffer, false⟩) remaining)

/-- What a timeout or an escape does with a pending frame. -/
def abort : BracketedPasteHandler × PasteResult :=
  if handler.active then handler.flushActive data else ({}, .handled (handler.buffered ++ data) none [])

/-- An open frame is searched for its end marker. -/
def scanFrame : BracketedPasteHandler × PasteResult :=
  match indexOf handler.buffer pasteEnd with
  | none =>
    if bracketedPasteFrameMaxBytes < byteLength handler.leading + byteLength pasteStart + byteLength handler.buffer then
      handler.flushActive []
    else (handler, .handled [] none [])
  | some endIndex =>
    ({}, .handled handler.leading (some ⟨handler.buffer.take endIndex, true⟩)
      (handler.buffer.drop (endIndex + pasteEnd.length)))

/-- Input without a start marker: what may be the beginning of one at its end is held back. -/
def holdPartial (combined : JsStr) : BracketedPasteHandler × PasteResult :=
  let partialLength := partialStartSuffixLength combined
  if 0 < partialLength then
    let nextLeading := handler.leading ++ combined.take (combined.length - partialLength)
    let nextBuffer := combined.drop (combined.length - partialLength)
    if bracketedPasteFrameMaxBytes < byteLength nextLeading + byteLength nextBuffer then
      ({}, .handled (nextLeading ++ nextBuffer) none [])
    else
      ({ handler with leading := nextLeading, buffer := nextBuffer, pendingSince := handler.pendingSince.getD now },
        .handled [] none [])
  else if handler.hasPendingFrame then ({}, .handled (handler.leading ++ combined) none [])
  else ({ handler with buffer := [] }, .unhandled)

def process : BracketedPasteHandler × PasteResult :=
  let stale := handler.pendingSince.any fun since => bracketedPasteFrameTimeoutMs ≤ now - since
  if handler.hasPendingFrame ∧ (stale ∨ data = escape) then handler.abort data
  else if handler.active then scanFrame { handler with buffer := handler.buffer ++ data }
  else
    let combined := handler.buffer ++ data
    match indexOf combined pasteStart with
    | none => handler.holdPartial now combined
    | some startIndex =>
      scanFrame
        { leading := handler.leading ++ combined.take startIndex
          buffer := combined.drop (startIndex + pasteStart.length)
          active := true
          pendingSince := handler.pendingSince.getD now }

end BracketedPasteHandler

def PasteFrame.text (frame : PasteFrame) : JsStr :=
  pasteStart ++ frame.content ++ if frame.closed then pasteEnd else []

/-- The input that a result hands out; an unhandled chunk goes on as it is. -/
def PasteResult.handedOut (data : JsStr) : PasteResult → JsStr
  | .unhandled => data
  | .handled leading paste remaining => leading ++ paste.elim [] PasteFrame.text ++ remaining

open BracketedPasteHandler PasteResult

/-- Everything handed out for the chunks, each with the time it came at, and the handler after them. -/
def processChunks : BracketedPasteHandler → List (JsStr × Int) → JsStr × BracketedPasteHandler
  | handler, [] => ([], handler)
  | handler, (data, now) :: chunks =>
    let (handler', result) := handler.process data now
    let (output, last) := processChunks handler' chunks
    (result.handedOut data ++ output, last)

theorem eq_of_indexOf {text target i} (h : indexOf text target = some i) :
    text.take i ++ target ++ text.drop (i + target.length) = text := by
  have hfound := find?_some h
  have hoccurs : target <+: text.drop i := isPrefixOf_iff_prefix.mp hfound
  rw [← drop_drop, append_assoc, prefix_iff_eq_append.mp hoccurs, take_append_drop]

theorem buffered_of_not_pending {handler : BracketedPasteHandler} (h : handler.hasPendingFrame = false) :
    handler.buffered = [] := by
  simp [hasPendingFrame] at h
  simp [buffered, h]

section

variable (handler : BracketedPasteHandler) (data : JsStr)

/-- No unit of the text is lost or made up. -/
def Conserves (text : JsStr) (outcome : BracketedPasteHandler × PasteResult) : Prop :=
  outcome.2.handedOut data ++ outcome.1.buffered = text

theorem abort_conserves : Conserves data (handler.buffered ++ data) (handler.abort data) := by
  unfold Conserves abort
  split
  · next hactive => simp [flushActive, handedOut, PasteFrame.text, buffered, hactive]
  · simp [handedOut, buffered]

theorem scanFrame_conserves (hactive : handler.active) : Conserves data handler.buffered handler.scanFrame := by
  unfold Conserves scanFrame
  split
  · split
    · simp [flushActive, handedOut, PasteFrame.text, buffered, hactive]
    · simp [handedOut]
  · next endIndex hend =>
    have htext := eq_of_indexOf hend
    simp only [append_assoc] at htext
    simp [handedOut, PasteFrame.text, buffered, hactive, htext]

theorem holdPartial_conserves (now : Int) (hactive : handler.active = false) :
    Conserves data (handler.buffered ++ data) (handler.holdPartial now (handler.buffer ++ data)) := by
  unfold Conserves holdPartial
  dsimp only
  split_ifs with hpartial hlarge hpending
  · simp [handedOut, buffered, hactive]
  · simp [handedOut, buffered, hactive]
  · simp [handedOut, buffered, hactive]
  · rw [Bool.not_eq_true] at hpending
    have hnone := buffered_of_not_pending hpending
    simp only [buffered, hactive, Bool.false_eq_true, if_false, append_eq_nil_iff] at hnone
    simp [handedOut, buffered, hactive, hnone]

theorem process_conserves (now : Int) : Conserves data (handler.buffered ++ data) (handler.process data now) := by
  unfold process
  dsimp only
  split
  · exact abort_conserves handler data
  · split
    · next hactive =>
      have hscan := scanFrame_conserves { handler with buffer := handler.buffer ++ data } data hactive
      simpa [buffered, hactive] using hscan
    · next hactive =>
      rw [Bool.not_eq_true] at hactive
      split
      · exact holdPartial_conserves handler data now hactive
      · next startIndex hstart =>
        have htext := eq_of_indexOf hstart
        have hbuffered : handler.buffered ++ data = handler.leading ++ (handler.buffer ++ data) := by
          simp [buffered, hactive]
        rw [← htext, ← append_assoc, ← append_assoc] at hbuffered
        rw [hbuffered]
        exact scanFrame_conserves ⟨_, _, true, _⟩ data rfl

end

theorem processChunks_from (handler : BracketedPasteHandler) (chunks : List (JsStr × Int)) :
    (processChunks handler chunks).1 ++ (processChunks handler chunks).2.buffered =
      handler.buffered ++ (chunks.map Prod.fst).flatten := by
  induction chunks generalizing handler with
  | nil => simp [processChunks]
  | cons chunk chunks ih =>
    have hstep := process_conserves handler chunk.1 chunk.2
    rw [processChunks, append_assoc, ih, ← append_assoc, hstep, append_assoc, map_cons, flatten_cons]

/-- Over every sequence of chunks, whenever they come: what was handed out, then what is held back, is the input. -/
theorem processChunks_conserves (chunks : List (JsStr × Int)) :
    (processChunks {} chunks).1 ++ (processChunks {} chunks).2.buffered = (chunks.map Prod.fst).flatten :=
  processChunks_from {} chunks

end GajaeCode.Tui
