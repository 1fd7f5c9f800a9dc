import GajaeCode.Text.Utf8Window

/-! Truncation of text to a number of bytes (`session/streaming-output.ts`): the text is
encoded in a window of as many units as bytes are kept, and cut at a character. -/
namespace GajaeCode.Session
open Text List

structure ByteTruncationResult where
  text : JsStr
  bytes : Nat
  deriving DecidableEq

/-- Advance past continuation bytes to a leading byte. -/
def findUtf8BoundaryForward (buf : List UInt8) (pos : Nat) : Nat :=
  pos + ((buf.drop pos).takeWhile isContinuation).length

/-- Retreat past continuation bytes to a leading byte. -/
def retreat (buf : List UInt8) : Nat → Nat
  | 0 => 0
  | i + 1 => if isContinuation (buf.getD (i + 1) 0) then retreat buf i else i + 1

def findUtf8BoundaryBackward (buf : List UInt8) (cut : Nat) : Nat :=
  if buf.length ≤ cut then buf.length else retreat buf cut

inductive WindowMode where
  | head
  | tail

def truncateBytesWindowed (data : JsStr) (maxBytes : Nat) (mode : WindowMode) :
    ByteTruncationResult :=
  if maxBytes = 0 then ⟨[], 0⟩
  else if data.length ≤ maxBytes ∧ byteLength data ≤ maxBytes then ⟨data, byteLength data⟩
  else match mode with
    | .head =>
      let buf := encodeUtf8 (data.take (min data.length maxBytes))
      let stop := findUtf8BoundaryBackward buf maxBytes
      if stop = 0 then ⟨[], 0⟩ else ⟨decodeUtf8 (buf.take stop), (buf.take stop).length⟩
    | .tail =>
      let buf := encodeUtf8 (data.drop (data.length - maxBytes))
      let start := findUtf8BoundaryForward buf (buf.length - maxBytes)
      ⟨decodeUtf8 (buf.drop start), (buf.drop start).length⟩

def truncateTailBytes (data : JsStr) (maxBytes : Nat) : ByteTruncationResult :=
  truncateBytesWindowed data maxBytes .tail

def truncateHeadBytes (data : JsStr) (maxBytes : Nat) : ByteTruncationResult :=
  truncateBytesWindowed data maxBytes .head

theorem drop_findUtf8BoundaryForward (buf : List UInt8) (pos : Nat) :
    buf.drop (findUtf8BoundaryForward buf pos) = (buf.drop pos).dropWhile isContinuation := by
  rw [findUtf8BoundaryForward, ← drop_drop]
  generalize buf.drop pos = rest
  induction rest with
  | nil => rfl
  | cons b rest ih =>
    cases hb : isContinuation b with
    | true => simpa [hb] using ih
    | false => simp [hb]

theorem retreat_eq {buf i} (hi : i = 0 ∨ isContinuation (buf.getD i 0) = false) {cut} (hle : i ≤ cut)
    (h : ∀ j, i < j → j ≤ cut → isContinuation (buf.getD j 0) = true) : retreat buf cut = i := by
  induction cut with
  | zero => exact (Nat.le_zero.mp hle).symm
  | succ cut ih =>
    rw [retreat]
    rcases Nat.eq_or_lt_of_le hle with rfl | hlt
    · rw [if_neg (by simpa using hi)]
    · rw [if_pos (h _ hlt le_rfl), ih (by omega) fun j hj hjc => h j hj (by omega)]

variable (cs : List Char)

/-- The cut falls back to the end of the last character that fits. -/
theorem retreat_utf8Bytes {cs cut} (h : cut < utf8Sum cs) : retreat (utf8Bytes cs) cut = utf8Sum (fitting cut cs) := by
  obtain ⟨rest, heq, hnext⟩ := exists_fitting_append cut cs
  have hle := utf8Sum_fitting_le cut cs
  generalize fitting cut cs = kept at *
  subst heq
  cases rest with
  | nil =>
    rw [append_nil] at h
    omega
  | cons c rest =>
    obtain ⟨lead, tail, hc, hlead, htail⟩ := utf8EncodeChar_eq c
    have hlt := hnext c rfl
    have hsize : c.utf8Size = tail.length + 1 := by rw [← String.length_utf8EncodeChar, hc, length_cons]
    have hget : ∀ j, (utf8Bytes (kept ++ c :: rest)).getD (utf8Sum kept + j) 0 =
        (lead :: (tail ++ utf8Bytes rest)).getD j 0 := by
      intro j
      rw [← length_utf8Bytes, utf8Bytes_append, utf8Bytes_cons, hc,
        getD_append_right _ _ _ _ (Nat.le_add_right _ j), Nat.add_sub_cancel_left, cons_append]
    refine retreat_eq (.inr ?_) hle ?_
    · exact (congrArg isContinuation (hget 0)).trans hlead
    · intro j hj hjc
      obtain ⟨m, rfl⟩ := Nat.exists_eq_add_of_lt hj
      rw [Nat.add_assoc, hget, getD_cons_succ, getD_append _ _ _ _ (by omega), getD_eq_getElem _ _ (by omega)]
      exact htail _ (getElem_mem _)

theorem take_utf8Bytes_fitting (room : Nat) (cs : List Char) :
    (utf8Bytes cs).take (utf8Sum (fitting room cs)) = utf8Bytes (fitting room cs) := by
  obtain ⟨rest, heq, -⟩ := exists_fitting_append room cs
  have hsplit : utf8Bytes cs = utf8Bytes (fitting room cs) ++ utf8Bytes rest := by
    rw [← utf8Bytes_append, ← heq]
  rw [hsplit, ← length_utf8Bytes, take_left]

theorem fitting_window {cs m n} (hn : n = min (encodeUtf16 cs).length m) :
    fitting m (decodeUtf16 ((encodeUtf16 cs).take n)) = fitting m cs := by
  obtain ⟨a, b, rfl, hcut⟩ := cut_encodeUtf16 cs n
  have hlen : ((encodeUtf16 (a ++ b)).take n).length = n := by
    rw [length_take]
    omega
  have hunits := length_encodeUtf16_le a
  rcases hcut with ⟨heq, -⟩ | ⟨c, rest, rfl, hsize, heq, hdrop⟩
  · rw [heq] at hlen
    rw [heq, decodeUtf16_encodeUtf16]
    refine (fitting_append ?_).symm
    intro d hd
    have hpos := d.utf8Size_pos
    have hmore : 0 < (encodeUtf16 b).length := by
      cases b with
      | nil => simp at hd
      | cons e b =>
        rcases encodeChar16_cases e with ⟨u, hu⟩ | ⟨hu, -⟩ <;> simp [hu]
    rw [encodeUtf16_append, length_append] at hn
    omega
  · rw [heq, length_append, length_singleton] at hlen
    have hmore := congrArg List.length hdrop
    rw [length_drop, length_cons] at hmore
    have hsur := surrogate_of_high (isHighSurrogate_highUnit c)
    have hdecode : decodeUtf16 (encodeUtf16 a ++ [highUnit c]) = a ++ [replacementCharacter] := by
      rw [decodeUtf16_encodeUtf16_append]
      simp [decodeUtf16, unitScalar_surrogate hsur]
    have hthree := utf8Size_replacementCharacter
    rw [heq, hdecode, fitting_append, fitting_append]
    · intro d hd
      obtain rfl : c = d := by simpa using hd
      omega
    · intro d hd
      obtain rfl : replacementCharacter = d := by simpa using hd
      omega

theorem findUtf8BoundaryBackward_utf8Bytes (cut : Nat) :
    findUtf8BoundaryBackward (utf8Bytes cs) cut = utf8Sum (fitting cut cs) := by
  unfold findUtf8BoundaryBackward
  rw [length_utf8Bytes]
  split
  next h => rw [fitting_eq_self h]
  next h => exact retreat_utf8Bytes (by omega)

/-- Head truncation of well-formed text keeps the characters that fit. -/
theorem truncateHeadBytes_encodeUtf16 (maxBytes : Nat) : truncateHeadBytes (encodeUtf16 cs) maxBytes =
      ⟨encodeUtf16 (fitting maxBytes cs), utf8Sum (fitting maxBytes cs)⟩ := by
  simp only [truncateHeadBytes, truncateBytesWindowed]
  split
  next hzero =>
    rw [hzero, fitting_zero, encodeUtf16_nil, utf8Sum_nil]
  split
  next hfits =>
    rw [byteLength_encodeUtf16] at hfits
    rw [fitting_eq_self hfits.2, byteLength_encodeUtf16]
  next =>
    have hwindow := @fitting_window cs maxBytes _ rfl
    generalize (encodeUtf16 cs).take (min (encodeUtf16 cs).length maxBytes) = window at hwindow
    have hbuf : encodeUtf8 window = utf8Bytes (decodeUtf16 window) := rfl
    have htake : (utf8Bytes (decodeUtf16 window)).take (utf8Sum (fitting maxBytes cs)) =
        utf8Bytes (fitting maxBytes cs) := by
      rw [← hwindow]
      exact take_utf8Bytes_fitting maxBytes (decodeUtf16 window)
    simp only [hbuf, findUtf8BoundaryBackward_utf8Bytes, hwindow, htake, decodeUtf8_utf8Bytes, length_utf8Bytes]
    split
    next hzero =>
      rw [utf8Sum_eq_zero.mp hzero, encodeUtf16_nil, utf8Sum_nil]
    next => rfl

/-- The window on the last units of a text holds the characters that fit, and half a pair
at its front is too wide to stay. -/
theorem fittingEnd_window (m : Nat) :
    let window := (encodeUtf16 cs).drop ((encodeUtf16 cs).length - m)
    fittingEnd m (decodeUtf16 window) = fittingEnd m cs ∧ (byteLength window ≤ m → WellFormed window) := by
  intro window
  obtain ⟨a, b, rfl, hcut⟩ := cut_encodeUtf16 cs ((encodeUtf16 cs).length - m)
  have hlen : window.length = min (encodeUtf16 (a ++ b)).length m := by
    rw [length_drop]
    omega
  rcases hcut with ⟨-, heq⟩ | ⟨c, rest, rfl, hsize, htake, heq⟩
  · have hwindow : window = encodeUtf16 b := heq
    have hunits := length_encodeUtf16_le b
    rw [hwindow] at hlen
    rw [hwindow, decodeUtf16_encodeUtf16]
    refine ⟨(fittingEnd_append ?_).symm, fun _ => (wellFormed_iff _).mpr ⟨b, rfl⟩⟩
    intro d hd
    have hpos := d.utf8Size_pos
    have hmore : 0 < (encodeUtf16 a).length := by
      cases a with
      | nil => simp at hd
      | cons e a =>
        rcases encodeChar16_cases e with ⟨u, hu⟩ | ⟨hu, -⟩ <;> simp [hu]
    rw [encodeUtf16_append, length_append] at hlen
    omega
  · have hwindow : window = lowUnit c :: encodeUtf16 rest := heq
    have hunits := length_encodeUtf16_le rest
    have hless := congrArg List.length htake
    rw [length_take, length_append, length_singleton] at hless
    have hdecode : decodeUtf16 window = replacementCharacter :: rest := by
      rw [hwindow, decodeUtf16_single (not_high_of_low (isLowSurrogate_lowUnit c)),
        decodeUtf16_encodeUtf16, unitScalar_surrogate (surrogate_of_low (isLowSurrogate_lowUnit c))]
    have hthree := utf8Size_replacementCharacter
    rw [hwindow, length_cons] at hlen
    constructor
    · rw [hdecode, append_cons a, fittingEnd_append, ← singleton_append, fittingEnd_append]
      · intro d hd
        obtain rfl : replacementCharacter = d := by simpa using hd
        omega
      · intro d hd
        obtain rfl : c = d := by simpa using hd
        omega
    · rw [byteLength_eq, hdecode, utf8Sum_cons]
      omega

theorem truncateTailBytes_eq (data : JsStr) (maxBytes : Nat) :
    let kept := fittingEnd maxBytes (decodeUtf16 (data.drop (data.length - maxBytes)))
    truncateTailBytes data maxBytes =
      if data.length ≤ maxBytes ∧ byteLength data ≤ maxBytes then ⟨data, byteLength data⟩
      else ⟨encodeUtf16 kept, utf8Sum kept⟩ := by
  intro kept
  simp only [truncateTailBytes, truncateBytesWindowed]
  split
  next hzero =>
    have hle : utf8Sum kept ≤ maxBytes := utf8Sum_fittingEnd_le maxBytes _
    have hnil : kept = [] := utf8Sum_eq_zero.mp (by omega)
    split
    next hfits =>
      obtain rfl : data = [] := length_eq_zero_iff.mp (by omega)
      rfl
    next => rw [hnil, encodeUtf16_nil, utf8Sum_nil]
  next =>
    have hbuf : ∀ window, encodeUtf8 window = utf8Bytes (decodeUtf16 window) := fun _ => rfl
    simp only [hbuf, length_utf8Bytes, drop_findUtf8BoundaryForward, dropWhile_drop_utf8Bytes,
      decodeUtf8_utf8Bytes, kept]

theorem truncateTailBytes_le (data : JsStr) (maxBytes : Nat) :
    byteLength (truncateTailBytes data maxBytes).text = (truncateTailBytes data maxBytes).bytes ∧
      (truncateTailBytes data maxBytes).bytes ≤ maxBytes := by
  rw [truncateTailBytes_eq]
  split
  next hfits => exact ⟨rfl, hfits.2⟩
  next => exact ⟨byteLength_encodeUtf16 _, utf8Sum_fittingEnd_le maxBytes _⟩

/-- Tail truncation keeps the characters that fit, of the text or of its last units. -/
theorem truncateTailBytes_drop {n maxBytes} (h : n ≤ (encodeUtf16 cs).length - maxBytes) :
    truncateTailBytes ((encodeUtf16 cs).drop n) maxBytes =
      ⟨encodeUtf16 (fittingEnd maxBytes cs), utf8Sum (fittingEnd maxBytes cs)⟩ := by
  obtain ⟨hkept, hwhole⟩ := fittingEnd_window cs maxBytes
  have hwindow : ((encodeUtf16 cs).drop n).drop (((encodeUtf16 cs).drop n).length - maxBytes) =
      (encodeUtf16 cs).drop ((encodeUtf16 cs).length - maxBytes) := by
    rw [drop_drop, length_drop]
    congr 1
    omega
  rw [truncateTailBytes_eq, hwindow, hkept]
  split
  next hfits =>
    rw [Nat.sub_eq_zero_of_le hfits.1, drop_zero] at hwindow
    rw [hwindow] at hfits ⊢
    rw [← hkept, fittingEnd_eq_self (byteLength_eq _ ▸ hfits.2), hwhole hfits.2, byteLength_eq]
  next => rfl

theorem truncateTailBytes_encodeUtf16 (maxBytes : Nat) : truncateTailBytes (encodeUtf16 cs) maxBytes =
    ⟨encodeUtf16 (fittingEnd maxBytes cs), utf8Sum (fittingEnd maxBytes cs)⟩ :=
  truncateTailBytes_drop cs (Nat.zero_le _)

end GajaeCode.Session
