import GajaeCode.Data.Run
import GajaeCode.Session.OutputSink

/-! The tail buffer (`session/streaming-output.ts`): chunks are joined and cut lazily, and what
is read is always the tail of the whole stream. -/
namespace GajaeCode.Session
open Data Text List

/-- Pieces not yet joined, with the byte count of the tail they hold. -/
structure TailBuffer where
  pending : List JsStr := []
  pos : Nat := 0
  deriving DecidableEq

namespace TailBuffer

def compact (b : TailBuffer) : TailBuffer := { b with pending := [b.pending.flatten] }

def flush (b : TailBuffer) : TailBuffer × JsStr :=
  if b.pending.length = 0 then (b, [])
  else
    let b := if 1 < b.pending.length then b.compact else b
    (b, b.pending.headD [])

def trimTo (b : TailBuffer) (max : Nat) : TailBuffer :=
  if max = 0 then {}
  else if b.pos ≤ max then b
  else
    let tail := truncateTailBytes b.flush.2 max
    ⟨[tail.text], tail.bytes⟩

variable (maxBytes : Nat)

def append (b : TailBuffer) (text : JsStr) : TailBuffer :=
  if text = [] then b
  else if maxBytes = 0 then {}
  else
    let n := byteLength text
    if maxBytes ≤ n then
      let tail := truncateTailBytes text maxBytes
      ⟨[tail.text], tail.bytes⟩
    else
      let b := { b with pos := b.pos + n }
      let b := if b.pending.length = 0 then { b with pending := [text] }
        else
          let b := { b with pending := b.pending ++ [text] }
          if maxPending < b.pending.length then b.compact else b
      -- the cut waits for twice the budget
      if maxBytes * 2 < b.pos then b.trimTo maxBytes else b

def text (b : TailBuffer) : TailBuffer × JsStr := (b.trimTo maxBytes).flush

def bytes (b : TailBuffer) : TailBuffer × Nat := (b.trimTo maxBytes, (b.trimTo maxBytes).pos)

inductive Call where
  | append (chunk : JsStr)
  | text
  | bytes

def Call.chunk : Call → JsStr
  | .append chunk => chunk
  | .text | .bytes => []

def step (b : TailBuffer) : Call → TailBuffer
  | .append chunk => b.append maxBytes chunk
  | .text => (b.text maxBytes).1
  | .bytes => (b.bytes maxBytes).1

variable {maxBytes} {b : TailBuffer} {S q : List Char}

/-- The buffer has the characters `q` of the stream `S`: no later cut reaches further back. -/
structure Holds (maxBytes : Nat) (S q : List Char) (b : TailBuffer) : Prop where
  pending : b.pending.flatten = encodeUtf16 q
  pos : b.pos = utf8Sum q
  tail : ∀ d, fittingEnd maxBytes (q ++ d) = fittingEnd maxBytes (S ++ d)

theorem flush_eq (b : TailBuffer) : b.flush.2 = b.pending.flatten ∧
    b.flush.1.pending.flatten = b.pending.flatten ∧ b.flush.1.pos = b.pos := by
  obtain ⟨pending, pos⟩ := b
  match pending with
  | [] => exact ⟨rfl, rfl, rfl⟩
  | [piece] => simp [flush]
  | piece :: next :: rest => simp [flush, compact]

theorem fittingEnd_fittingEnd_append (q d : List Char) :
    fittingEnd maxBytes (fittingEnd maxBytes q ++ d) = fittingEnd maxBytes (q ++ d) := by
  obtain ⟨rest, hrest, hnext⟩ := exists_append_fittingEnd maxBytes q
  conv_rhs => rw [hrest, append_assoc]
  refine (fittingEnd_append ?_).symm
  intro c hc
  have hlt := hnext c hc
  rw [utf8Sum_append]
  omega

theorem holds_cut {text} (h : text = encodeUtf16 q)
    (htail : ∀ d, fittingEnd maxBytes (q ++ d) = fittingEnd maxBytes (S ++ d)) :
    let tail := truncateTailBytes text maxBytes
    Holds maxBytes S (fittingEnd maxBytes q) ⟨[tail.text], tail.bytes⟩ := by
  rw [h, truncateTailBytes_encodeUtf16]
  exact ⟨by simp, rfl, fun d => (fittingEnd_fittingEnd_append q d).trans (htail d)⟩

theorem holds_empty (h : maxBytes = 0) : Holds maxBytes S [] {} := by
  refine ⟨rfl, rfl, fun d => ?_⟩
  have hnil : ∀ cs, fittingEnd maxBytes cs = [] := by
    intro cs
    have hle := utf8Sum_fittingEnd_le maxBytes cs
    exact utf8Sum_eq_zero.mp (by omega)
  rw [hnil, hnil]

theorem Holds.trimTo (h : Holds maxBytes S q b) : Holds maxBytes S (fittingEnd maxBytes S) (b.trimTo maxBytes) := by
  have hkept : fittingEnd maxBytes q = fittingEnd maxBytes S := by simpa using h.tail []
  unfold TailBuffer.trimTo
  split
  next hzero =>
    have hle := utf8Sum_fittingEnd_le maxBytes S
    rw [utf8Sum_eq_zero.mp (show utf8Sum (fittingEnd maxBytes S) = 0 by omega)]
    exact holds_empty hzero
  split
  next hle =>
    rwa [← hkept, fittingEnd_eq_self (h.pos ▸ hle)]
  next =>
    rw [← hkept]
    exact holds_cut ((flush_eq b).1.trans h.pending) h.tail

theorem Holds.append (h : Holds maxBytes S q b) (d : List Char) :
    ∃ q', Holds maxBytes (S ++ d) q' (b.append maxBytes (encodeUtf16 d)) := by
  unfold TailBuffer.append
  split
  next hnil =>
    obtain rfl : d = [] := by simpa [decodeUtf16] using congrArg decodeUtf16 hnil
    exact ⟨q, by simpa using h⟩
  split
  next hzero => exact ⟨[], holds_empty hzero⟩
  simp only [byteLength_encodeUtf16]
  split
  next hwide =>
    refine ⟨_, holds_cut rfl fun e => ?_⟩
    rw [append_assoc]
    refine (fittingEnd_append ?_).symm
    intro c _
    have hpos := c.utf8Size_pos
    rw [utf8Sum_append]
    omega
  next =>
    generalize hjoined : (if b.pending.length = 0 then _ else _ : TailBuffer) = joined
    have hpending : joined.pending.flatten = b.pending.flatten ++ encodeUtf16 d ∧
        joined.pos = b.pos + utf8Sum d := by
      rw [← hjoined]
      split_ifs with hnone
      · simp [length_eq_zero_iff.mp hnone]
      · simp [compact]
      · simp
    have hnext : Holds maxBytes (S ++ d) (q ++ d) joined := by
      refine ⟨by rw [hpending.1, h.pending, encodeUtf16_append], ?_, fun e => ?_⟩
      · rw [hpending.2, h.pos, utf8Sum_append]
      · rw [append_assoc, append_assoc]
        exact h.tail (d ++ e)
    split
    next => exact ⟨_, hnext.trimTo⟩
    next => exact ⟨_, hnext⟩

theorem Holds.step (h : Holds maxBytes S q b) {call : Call} (hwell : WellFormed call.chunk) :
    ∃ q', Holds maxBytes (S ++ decodeUtf16 call.chunk) q' (b.step maxBytes call) := by
  cases call with
  | append chunk =>
    have happend := h.append (decodeUtf16 chunk)
    rwa [show encodeUtf16 (decodeUtf16 chunk) = chunk from hwell] at happend
  | text =>
    obtain ⟨hpending, hpos, htail⟩ := h.trimTo
    obtain ⟨-, hflush, hflushPos⟩ := flush_eq (b.trimTo maxBytes)
    rw [Call.chunk, decodeUtf16, append_nil]
    exact ⟨_, hflush.trans hpending, hflushPos.trans hpos, htail⟩
  | bytes =>
    rw [Call.chunk, decodeUtf16, append_nil]
    exact ⟨_, h.trimTo⟩

theorem Holds.run (h : Holds maxBytes S q b) {calls} (hwell : ∀ call ∈ calls, WellFormed call.chunk) :
    ∃ q', Holds maxBytes (S ++ decodeUtf16 (calls.map Call.chunk).flatten) q'
      (run (TailBuffer.step maxBytes) b calls) := by
  induction calls generalizing S q b with
  | nil => exact ⟨q, by simpa [decodeUtf16] using h⟩
  | cons call rest ih =>
    have hcall := hwell call mem_cons_self
    have hsplit := decodeUtf16_encodeUtf16_append (decodeUtf16 call.chunk) (rest.map Call.chunk).flatten
    rw [show encodeUtf16 (decodeUtf16 call.chunk) = call.chunk from hcall] at hsplit
    obtain ⟨q', hstep⟩ := h.step hcall
    rw [map_cons, flatten_cons, hsplit, ← append_assoc, run_cons]
    exact ih hstep (forall_mem_cons.mp hwell).2

/-- What is read after any calls is the longest tail of all that was appended. -/
theorem text_bytes_longest {calls} (hwell : ∀ call ∈ calls, WellFormed call.chunk) (maxBytes : Nat) :
    let b := run (step maxBytes) {} calls
    let stream := decodeUtf16 (calls.map Call.chunk).flatten
    ∃ kept, IsLongestEnd maxBytes stream kept ∧ (b.text maxBytes).2 = encodeUtf16 kept ∧
      (b.bytes maxBytes).2 = byteLength (b.text maxBytes).2 := by
  intro b stream
  have hstart : Holds maxBytes [] [] {} := ⟨rfl, rfl, fun _ => rfl⟩
  obtain ⟨q, hholds⟩ := hstart.run hwell
  rw [nil_append] at hholds
  obtain ⟨hpending, hpos, -⟩ := hholds.trimTo
  have htext : (b.text maxBytes).2 = encodeUtf16 (fittingEnd maxBytes stream) :=
    (flush_eq (b.trimTo maxBytes)).1.trans hpending
  refine ⟨_, isLongestEnd_fittingEnd maxBytes stream, htext, ?_⟩
  rw [htext, byteLength_encodeUtf16]
  exact hpos

theorem text_bytes_longest_wide : ∃ kept, IsLongestEnd 2 ['a', 'é', 'b'] kept ∧
      ((run (step 2) {} [.append (lit "a"), .text, .append (lit "éb")]).text 2).2 = encodeUtf16 kept ∧
      ((run (step 2) {} [.append (lit "a"), .text, .append (lit "éb")]).bytes 2).2 =
        byteLength ((run (step 2) {} [.append (lit "a"), .text, .append (lit "éb")]).text 2).2 :=
  @text_bytes_longest [.append (lit "a"), .text, .append (lit "éb")] (by decide) 2

end TailBuffer

end GajaeCode.Session
