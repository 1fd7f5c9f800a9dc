import GajaeCode.Data.Fallible
import GajaeCode.Lsp.Edits
import GajaeCode.Text.RangeEdits

/-! Text edits of the lines of a text as edits of its offsets. -/
namespace GajaeCode.Lsp
open Text Data List

structure Position.Inside (p : Position) (lines : List JsStr) : Prop where
  line : p.line < lines.length
  character : p.character ≤ (lines.getD p.line []).length

def offset (lines : List JsStr) (p : Position) : Nat :=
  ((lines.take p.line).map fun line => line.length + 1).sum + p.character

def rangeEdit (lines : List JsStr) (edit : TextEdit) : RangeEdit UInt16 :=
  ⟨offset lines edit.range.start, offset lines edit.range.stop, edit.newText⟩

structure Range.Inside (range : Range) (lines : List JsStr) : Prop where
  start : range.start.Inside lines
  stop : range.stop.Inside lines
  ordered : comparePosition range.start range.stop ≤ 0

section
variable {a b c : Position}

theorem comparePosition_le_zero_iff :
    comparePosition a b ≤ 0 ↔ a.line < b.line ∨ (a.line = b.line ∧ a.character ≤ b.character) := by
  unfold comparePosition
  split <;> omega

theorem comparePosition_lt_zero_iff : comparePosition a b < 0 ↔ ¬comparePosition b a ≤ 0 := by
  unfold comparePosition
  split <;> omega

theorem comparePosition_trans (hab : comparePosition a b ≤ 0) (hbc : comparePosition b c ≤ 0) :
    comparePosition a c ≤ 0 := by
  rw [comparePosition_le_zero_iff] at *
  omega

theorem comparePosition_antisymm (hab : comparePosition a b ≤ 0) (hba : comparePosition b a ≤ 0) : a = b := by
  rw [comparePosition_le_zero_iff] at *
  cases a
  cases b
  simp only [Position.mk.injEq] at *
  omega

theorem comparePosition_self (a : Position) : comparePosition a a = 0 := by
  simp [comparePosition]

theorem compareEdits_eq (a b : TextEdit) : compareEdits a b = comparePosition b.range.start a.range.start := by
  unfold compareEdits comparePosition
  split_ifs <;> omega

end

theorem joinLines_append_cons (before : List JsStr) (x r : JsStr) (rest : List JsStr) :
    joinLines (before ++ (x ++ r) :: rest) = joinLines (before ++ [x]) ++ joinLines (r :: rest) := by
  induction before with
  | nil =>
    cases rest with
    | nil => simp [joinLines]
    | cons next rest =>
      simp [joinLines]
  | cons line before ih =>
    rw [cons_append, cons_append, joinLines_cons (by simp), joinLines_cons (by simp), ih]
    simp

theorem length_joinLines_concat (before : List JsStr) (x : JsStr) :
    (joinLines (before ++ [x])).length = (before.map fun line => line.length + 1).sum + x.length := by
  induction before with
  | nil => simp [joinLines]
  | cons line before ih =>
    rw [cons_append, joinLines_cons (by simp), length_append, length_cons, map_cons, sum_cons]
    omega

theorem joinLines_splitLines_append (x : JsStr) (rest : List JsStr) :
    joinLines (splitLines x ++ rest) = joinLines (x :: rest) := by
  by_cases hrest : rest = []
  · subst hrest
    rw [append_nil, joinLines_splitLines]
    simp [joinLines]
  · rw [joinLines_append (splitLines_ne_nil x) hrest, joinLines_splitLines, joinLines_cons hrest]

/-- Text without separators in front of a text stays in its first line. -/
theorem splitLines_append {x} (hx : LF ∉ x) (y : JsStr) :
    ∃ head rest, splitLines y = head :: rest ∧ splitLines (x ++ y) = (x ++ head) :: rest := by
  induction x with
  | nil =>
    obtain ⟨head, rest, h⟩ := exists_cons_of_ne_nil (splitLines_ne_nil y)
    exact ⟨head, rest, h, h⟩
  | cons u x ih =>
    rw [mem_cons, not_or] at hx
    obtain ⟨head, rest, hy, hxy⟩ := ih hx.2
    refine ⟨head, rest, hy, ?_⟩
    rw [cons_append, splitLines_cons (Ne.symm hx.1), hxy]
    rfl

section
variable {lines : List JsStr} {p q : Position}

theorem Position.Inside.split (h : p.Inside lines) : ∃ before line after,
    lines = before ++ line :: after ∧ before.length = p.line ∧ p.character ≤ line.length := by
  have hline := h.line
  refine ⟨lines.take p.line, lines[p.line], lines.drop (p.line + 1), ?_, ?_, ?_⟩
  · rw [← drop_eq_getElem_cons hline, take_append_drop]
  · rw [length_take]
    omega
  · simpa [getElem?_eq_getElem hline] using h.character

theorem Position.Inside.of_line_lt {before after} (h : p.Inside (before ++ after)) (hlt : p.line < before.length) :
    p.Inside before := by
  have hcharacter := h.character
  rw [getD_append _ _ _ _ hlt] at hcharacter
  exact ⟨hlt, hcharacter⟩

theorem offset_append {before after line} (h : before.length = p.line) :
    offset (before ++ line :: after) p = (before.map fun line => line.length + 1).sum + p.character := by
  rw [offset, ← h, take_left]

theorem take_offset {before after line} (hlen : before.length = p.line) (hchar : p.character ≤ line.length) :
    (joinLines (before ++ line :: after)).take (offset (before ++ line :: after) p) =
      joinLines (before ++ [line.take p.character]) := by
  have hlength : (joinLines (before ++ [line.take p.character])).length = offset (before ++ line :: after) p := by
    rw [offset_append hlen, length_joinLines_concat, length_take, min_eq_left hchar]
  have htext := joinLines_append_cons before (line.take p.character) (line.drop p.character) after
  rw [take_append_drop] at htext
  rw [← hlength, htext, take_left]

theorem Position.Inside.offset_le (h : p.Inside lines) : offset lines p ≤ (joinLines lines).length := by
  obtain ⟨before, line, after, rfl, hlen, hchar⟩ := h.split
  have htake := congrArg List.length (@take_offset p before after line hlen hchar)
  have hlength : (line.take p.character).length = p.character := by
    rw [length_take, min_eq_left hchar]
  rw [length_joinLines_concat, hlength, ← @offset_append p before after line hlen, length_take] at htake
  omega

theorem offset_lt_of_line_lt (hq : q.Inside lines) (h : q.line < p.line) : offset lines q < offset lines p := by
  obtain ⟨before, line, after, rfl, hlen, hchar⟩ := hq.split
  have htake : (before ++ line :: after).take p.line = before ++ line :: after.take (p.line - before.length - 1) := by
    rw [take_append, take_of_length_le (by omega),
      show p.line - before.length = (p.line - before.length - 1) + 1 by omega]
    simp
  rw [offset_append hlen, offset, htake, map_append, sum_append, map_cons, sum_cons]
  omega

theorem offset_le_iff (hq : q.Inside lines) (hp : p.Inside lines) :
    offset lines q ≤ offset lines p ↔ comparePosition q p ≤ 0 := by
  rw [comparePosition_le_zero_iff]
  rcases Nat.lt_trichotomy q.line p.line with h | h | h
  · have := offset_lt_of_line_lt (p := p) hq h
    omega
  · simp only [offset, h, lt_irrefl, true_and, false_or, Nat.add_le_add_iff_left]
  · have := offset_lt_of_line_lt (p := q) hp h
    omega

theorem offset_eq_iff (hq : q.Inside lines) (hp : p.Inside lines) : offset lines q = offset lines p ↔ q = p := by
  constructor
  · intro h
    exact comparePosition_antisymm ((offset_le_iff hq hp).mp h.le) ((offset_le_iff hp hq).mp h.ge)
  · intro h
    rw [h]

end

/-- The lines up to `p` are still those of the text, and `tail` is what follows. -/
def Reached (lines current : List JsStr) (p : Position) (tail : JsStr) : Prop :=
  ∃ before line after r rest, lines = before ++ line :: after ∧ before.length = p.line ∧
    p.character ≤ line.length ∧ current = before ++ (line.take p.character ++ r) :: rest ∧
    tail = joinLines (r :: rest)

namespace Reached
variable {lines current : List JsStr} {p q : Position} {tail : JsStr}

theorem joinLines_eq (h : Reached lines current p tail) :
    joinLines current = (joinLines lines).take (offset lines p) ++ tail := by
  obtain ⟨before, line, after, r, rest, rfl, hlen, hchar, rfl, rfl⟩ := h
  rw [take_offset hlen hchar, joinLines_append_cons]

theorem self (h : p.Inside lines) : Reached lines lines p ((joinLines lines).drop (offset lines p)) := by
  obtain ⟨before, line, after, rfl, hlen, hchar⟩ := h.split
  have hreached : Reached (before ++ line :: after) (before ++ line :: after) p
      (joinLines (line.drop p.character :: after)) :=
    ⟨before, line, after, line.drop p.character, after, rfl, hlen, hchar, by simp, rfl⟩
  have hjoin := hreached.joinLines_eq
  have hsplit := (joinLines (before ++ line :: after)).take_append_drop (offset (before ++ line :: after) p)
  rw [append_cancel_left (hsplit.trans hjoin)]
  exact hreached

theorem lower (h : Reached lines current p tail) (hp : p.Inside lines) (hq : q.Inside lines)
    (hle : comparePosition q p ≤ 0) :
    Reached lines current q (((joinLines lines).take (offset lines p)).drop (offset lines q) ++ tail) := by
  have hexists : ∃ tail', Reached lines current q tail' := by
    obtain ⟨before, line, after, r, rest, rfl, hlen, hchar, rfl, rfl⟩ := h
    rcases comparePosition_le_zero_iff.mp hle with hline | ⟨hline, hcharle⟩
    · obtain ⟨first, lineq, middle, rfl, hfirst, hcharq⟩ := (hq.of_line_lt (by omega)).split
      exact ⟨_, first, lineq, middle ++ line :: after, lineq.drop q.character,
        middle ++ (line.take p.character ++ r) :: rest, by simp, hfirst, hcharq, by simp, rfl⟩
    · refine ⟨_, before, line, after, (line.take p.character).drop q.character ++ r, rest, rfl, by omega,
        by omega, ?_, rfl⟩
      have htake : line.take q.character = (line.take p.character).take q.character := by
        rw [take_take, min_eq_left hcharle]
      rw [htake, ← append_assoc, take_append_drop]
  obtain ⟨tail', hreached⟩ := hexists
  have hoffset := (offset_le_iff hq hp).mpr hle
  have hsplit := ((joinLines lines).take (offset lines p)).take_append_drop (offset lines q)
  have hjoin := hreached.joinLines_eq.symm.trans h.joinLines_eq
  rw [← hsplit, take_take, min_eq_left hoffset, append_assoc] at hjoin
  rw [← append_cancel_left hjoin]
  exact hreached

theorem applyEdit {edit} (h : Reached lines current edit.range.stop tail)
    (hfree : ∀ line ∈ lines, LF ∉ line) (hedit : edit.range.Inside lines) :
    Reached lines (Lsp.applyEdit current edit) edit.range.start (edit.newText ++ tail) := by
  obtain ⟨before, line, after, r, rest, rfl, hlen, hchar, rfl, rfl⟩ := h
  have hget : (before ++ (line.take edit.range.stop.character ++ r) :: rest).getD edit.range.stop.line [] =
      line.take edit.range.stop.character ++ r := by
    simp [getD_eq_getElem?_getD, ← hlen]
  have hdrop : (line.take edit.range.stop.character ++ r).drop edit.range.stop.character = r := by
    rw [drop_left']
    rw [length_take, min_eq_left hchar]
  have htail := joinLines_append_cons [] edit.newText r rest
  rcases comparePosition_le_zero_iff.mp hedit.ordered with hline | ⟨hline, hcharle⟩
  · obtain ⟨first, startLine, middle, rfl, hfirst, hstartChar⟩ := (hedit.start.of_line_lt (by omega)).split
    have hstartFree : LF ∉ startLine.take edit.range.start.character := by
      intro hmem
      exact hfree startLine (by simp) (mem_of_mem_take hmem)
    obtain ⟨head, more, hsplit, hsplit'⟩ := splitLines_append hstartFree (edit.newText ++ r)
    have hgetStart : (first ++ startLine :: middle ++ (line.take edit.range.stop.character ++ r) :: rest).getD
        edit.range.start.line [] = startLine := by
      simp [getD_eq_getElem?_getD, ← hfirst]
    refine ⟨first, startLine, middle ++ line :: after, head, more ++ rest, by simp, hfirst, hstartChar, ?_, ?_⟩
    · have hlength : (first ++ startLine :: middle ++ [line.take edit.range.stop.character ++ r]).length =
          edit.range.start.line + (edit.range.stop.line + 1 - edit.range.start.line) := by
        rw [length_append, hlen, length_singleton]
        omega
      have hafter : (first ++ startLine :: middle ++ (line.take edit.range.stop.character ++ r) :: rest).drop
          (edit.range.start.line + (edit.range.stop.line + 1 - edit.range.start.line)) = rest := by
        rw [append_cons _ _ rest, drop_left' hlength]
      unfold Lsp.applyEdit
      simp only [hget, hgetStart, hdrop]
      rw [if_neg (by omega), append_assoc (startLine.take _) edit.newText r, hsplit', splice, hafter,
        append_assoc first, take_left' hfirst]
      simp
    · rw [← cons_append, ← hsplit, joinLines_splitLines_append]
      simpa [joinLines] using htail.symm
  · refine ⟨before, line, after, edit.newText ++ r, rest, rfl, by omega, by omega, ?_, ?_⟩
    · have htake : (line.take edit.range.stop.character ++ r).take edit.range.start.character =
          line.take edit.range.start.character := by
        rw [take_append_of_le_length (by rw [length_take]; omega), take_take, min_eq_left hcharle]
      unfold Lsp.applyEdit
      simp only [hline, hget, hdrop, if_true, htake]
      rw [setLine, ← hlen]
      simp
    · simpa [joinLines] using htail.symm

theorem foldl_applyEdit {edits : List TextEdit} (h : Reached lines current p tail)
    (hfree : ∀ line ∈ lines, LF ∉ line) (hp : p.Inside lines) (hedits : ∀ edit ∈ edits, edit.range.Inside lines)
    (hbelow : ∀ edit ∈ edits, comparePosition edit.range.stop p ≤ 0)
    (hpair : edits.Pairwise fun later earlier => comparePosition earlier.range.stop later.range.start ≤ 0) :
    joinLines (edits.foldl Lsp.applyEdit current) =
      replaceDown (joinLines lines) (offset lines p) tail (edits.map (rangeEdit lines)) := by
  induction edits generalizing current p tail with
  | nil => exact h.joinLines_eq
  | cons edit rest ih =>
    have hinside := hedits edit mem_cons_self
    obtain ⟨hfirst, hrest⟩ := pairwise_cons.mp hpair
    have hlower := h.lower hp hinside.stop (hbelow edit mem_cons_self)
    exact ih (hlower.applyEdit hfree hinside) hinside.start (forall_mem_cons.mp hedits).2 hfirst hrest

end Reached

section
variable {edits : List TextEdit}

instance : IsTrans TextEdit fun a b => compareEdits a b ≤ 0 where
  trans a b c hab hbc := by
    rw [compareEdits_eq] at *
    exact comparePosition_trans hbc hab

instance : Std.Total fun a b : TextEdit => compareEdits a b ≤ 0 where
  total a b := by
    simp only [compareEdits_eq, comparePosition_le_zero_iff]
    omega

theorem pairwise_sortEdits (edits : List TextEdit) :
    (sortEdits edits).Pairwise fun later earlier => comparePosition earlier.range.start later.range.start ≤ 0 := by
  refine (pairwise_insertionSort (fun a b => compareEdits a b ≤ 0) edits).imp ?_
  intro a b hab
  rwa [compareEdits_eq] at hab

theorem mem_sortEdits {edit} : edit ∈ sortEdits edits ↔ edit ∈ edits :=
  mem_insertionSort _

/-- The check compares neighbours only, which is enough in the sorted order. -/
theorem checkOverlaps_eq_ok_iff
    (hsorted : edits.Pairwise fun later earlier => comparePosition earlier.range.start later.range.start ≤ 0) :
    checkOverlaps edits = .ok () ↔
      edits.Pairwise fun later earlier => comparePosition earlier.range.stop later.range.start ≤ 0 := by
  induction edits with
  | nil => simp [checkOverlaps]
  | cons later edits ih =>
    obtain ⟨hfirst, hrest⟩ := pairwise_cons.mp hsorted
    cases edits with
    | nil => simp [checkOverlaps]
    | cons earlier edits =>
      rw [checkOverlaps]
      split
      next hover =>
        refine iff_of_false (by simp) ?_
        intro hpair
        have hle := (pairwise_cons.mp hpair).1 earlier mem_cons_self
        omega
      next hover =>
        rw [ih hrest]
        constructor
        · intro hpair
          refine pairwise_cons.mpr ⟨forall_mem_cons.mpr ⟨not_lt.mp hover, fun edit hedit => ?_⟩, hpair⟩
          exact comparePosition_trans ((pairwise_cons.mp hpair).1 edit hedit) (hfirst earlier mem_cons_self)
        · intro hpair
          exact (pairwise_cons.mp hpair).2

theorem rangesOverlap_iff (a b : Range) :
    rangesOverlap a b = true ↔ ¬comparePosition b.stop a.start ≤ 0 ∧ ¬comparePosition a.stop b.start ≤ 0 := by
  simp [rangesOverlap, comparePosition_lt_zero_iff]

theorem rangesOverlap_comm (a b : Range) : rangesOverlap a b = rangesOverlap b a :=
  Bool.and_comm _ _

theorem pairwise_not_overlap_sortEdits :
    ((sortEdits edits).Pairwise fun a b => rangesOverlap a.range b.range = false) ↔
      edits.Pairwise fun a b => rangesOverlap a.range b.range = false := by
  apply (perm_insertionSort _ edits).pairwise_iff
  intro a b hab
  rwa [rangesOverlap_comm]

theorem pairwise_not_overlap_of_checkOverlaps (h : checkOverlaps (sortEdits edits) = .ok ()) :
    edits.Pairwise fun a b => rangesOverlap a.range b.range = false := by
  rw [← pairwise_not_overlap_sortEdits]
  refine ((checkOverlaps_eq_ok_iff (pairwise_sortEdits edits)).mp h).imp ?_
  intro a b hab
  rw [Bool.eq_false_iff]
  intro hover
  exact ((rangesOverlap_iff a.range b.range).mp hover).1 hab

end

section
variable {text : JsStr} {edits : List TextEdit}

theorem insertedAt_map_rangeEdit (lines : List JsStr) (edits : List TextEdit) (i : Nat) :
    insertedAt (edits.map (rangeEdit lines)) i =
      (edits.filter fun e => offset lines e.range.start = i).flatMap TextEdit.newText := by
  rw [insertedAt, filter_map, flatMap_map]
  rfl

/-- The sort keeps the order of edits with one start. -/
theorem filter_sortEdits {p : TextEdit → Bool}
    (hp : ∀ a ∈ edits, ∀ b ∈ edits, p a = true → p b = true → a.range.start = b.range.start) :
    (sortEdits edits).filter p = edits.filter p := by
  apply filter_insertionSort
  intro a ha b hb hpa hpb
  rw [compareEdits_eq, hp a ha b hb hpa hpb, comparePosition_self]

theorem insertedAt_sortEdits_reverse {lines} (hinside : ∀ e ∈ edits, e.range.Inside lines)
    (i : Nat) : insertedAt ((sortEdits edits).map (rangeEdit lines)).reverse i =
      insertedAt (edits.map (rangeEdit lines)).reverse i := by
  have hstable : (sortEdits edits).filter (fun e => offset lines e.range.start = i) =
      edits.filter fun e => offset lines e.range.start = i := by
    apply filter_sortEdits
    intro a ha b hb hai hbi
    apply (offset_eq_iff (hinside a ha).start (hinside b hb).start).mp
    rw [of_decide_eq_true hai, of_decide_eq_true hbi]
  simp only [← map_reverse, insertedAt_map_rangeEdit, filter_reverse, hstable]

/-- Edits that pass the check are made at once, in the reverse of the list's order. -/
theorem applyTextEditsToString_of_check (hinside : ∀ e ∈ edits, e.range.Inside (splitLines text))
    (hcheck : checkOverlaps (sortEdits edits) = .ok ()) : applyTextEditsToString text edits =
      .ok (simultaneous (edits.map (rangeEdit (splitLines text))).reverse text) := by
  have hpair := (checkOverlaps_eq_ok_iff (pairwise_sortEdits edits)).mp hcheck
  have hsorted : ∀ e ∈ sortEdits edits, e.range.Inside (splitLines text) := fun e he =>
    hinside e (mem_sortEdits.mp he)
  have hfree : ∀ line ∈ splitLines text, LF ∉ line := fun line hline => LF_notMem_of_mem_splitLines hline
  have hdown : joinLines ((sortEdits edits).foldl applyEdit (splitLines text)) =
      replaceDown text text.length [] ((sortEdits edits).map (rangeEdit (splitLines text))) := by
    cases hedits : sortEdits edits with
    | nil => simp [replaceDown, joinLines_splitLines]
    | cons edit rest =>
      rw [hedits] at hpair hsorted
      obtain ⟨hfirst, hrest⟩ := pairwise_cons.mp hpair
      have hedit := hsorted edit mem_cons_self
      have hreached := (Reached.self hedit.stop).applyEdit hfree hedit
      have hfold := hreached.foldl_applyEdit hfree hedit.start (forall_mem_cons.mp hsorted).2 hfirst hrest
      rw [foldl_cons, hfold, joinLines_splitLines]
      simp [replaceDown, rangeEdit]
  have hoffsets : ((sortEdits edits).map (rangeEdit (splitLines text))).Pairwise fun a b => b.stop ≤ a.start := by
    rw [pairwise_map]
    refine List.Pairwise.imp_of_mem ?_ hpair
    intro a b ha hb hab
    exact (offset_le_iff (hsorted b hb).stop (hsorted a ha).start).mpr hab
  have hbounds : ∀ e ∈ (sortEdits edits).map (rangeEdit (splitLines text)),
      e.start ≤ e.stop ∧ e.stop ≤ text.length := by
    intro e he
    obtain ⟨edit, hedit, rfl⟩ := mem_map.mp he
    have hrange := hsorted edit hedit
    have hlength := hrange.stop.offset_le
    rw [joinLines_splitLines] at hlength
    exact ⟨(offset_le_iff hrange.start hrange.stop).mpr hrange.ordered, hlength⟩
  have hresult := @replaceDown_eq_simultaneous _ _ text [] text.length hoffsets hbounds le_rfl
  have hsame := simultaneousFrom_congr (fun i => by simp [Covered, mem_sortEdits])
    (insertedAt_sortEdits_reverse hinside) 0 text
  rw [take_length, append_nil] at hresult
  rw [applyTextEditsToString, hcheck, hdown, hresult, simultaneous, hsame]
  rfl

/-- Edits that a server may send: ranges of the text that at most touch, and insertions at the start of
a replacement before it. -/
structure Admissible (lines : List JsStr) (edits : List TextEdit) : Prop where
  inside : ∀ edit ∈ edits, edit.range.Inside lines
  apart : edits.Pairwise fun a b => rangesOverlap a.range b.range = false
  insertions : edits.Pairwise fun a b => a.range.start = b.range.start → a.range.start = a.range.stop

def SharedByInsertions (edits : List TextEdit) : Prop :=
  ∀ a ∈ edits, ∀ b ∈ edits, a.range.start = b.range.start →
    (a.range.start = a.range.stop ↔ b.range.start = b.range.stop)

/-- Two edits that touch at most, and that are insertions if they start at one position. -/
def Compatible (a b : TextEdit) : Prop :=
  rangesOverlap a.range b.range = false ∧
    (a.range.start = b.range.start → a.range.start = a.range.stop ∧ b.range.start = b.range.stop)

theorem pairwise_compatible_sortEdits : (sortEdits edits).Pairwise Compatible ↔ edits.Pairwise Compatible := by
  apply (perm_insertionSort _ edits).pairwise_iff
  intro a b ⟨hover, hsame⟩
  refine ⟨by rwa [rangesOverlap_comm], ?_⟩
  intro hstart
  exact (hsame hstart.symm).symm

theorem checkOverlaps_eq_ok_iff_shared {lines} (h : Admissible lines edits) :
    checkOverlaps (sortEdits edits) = .ok () ↔ SharedByInsertions edits := by
  rw [checkOverlaps_eq_ok_iff (pairwise_sortEdits edits)]
  constructor
  · intro hpair a ha b hb hstart
    -- among the edits of one start the order of the list is that of the sort
    have hlater : (edits.filter fun e => e.range.start = a.range.start).Pairwise fun _ e =>
        e.range.start = e.range.stop := by
      rw [← filter_sortEdits fun e _ f _ he hf => (of_decide_eq_true he).trans (of_decide_eq_true hf).symm]
      refine List.Pairwise.imp_of_mem ?_ (hpair.sublist filter_sublist)
      intro later earlier hl he hle
      have hlstart := of_decide_eq_true (mem_filter.mp hl).2
      have hestart := of_decide_eq_true (mem_filter.mp he).2
      rw [hlstart, ← hestart] at hle
      have hinside := h.inside earlier (mem_sortEdits.mp (mem_of_mem_filter he))
      exact comparePosition_antisymm hinside.ordered hle
    have hearlier : (edits.filter fun e => e.range.start = a.range.start).Pairwise fun e _ =>
        e.range.start = e.range.stop := by
      refine List.Pairwise.imp_of_mem ?_ (h.insertions.sublist filter_sublist)
      intro e f he hf hsame
      apply hsame
      rw [of_decide_eq_true (mem_filter.mp he).2, of_decide_eq_true (mem_filter.mp hf).2]
    by_cases hab : a = b
    · rw [hab]
    · have : Std.Symm fun e f : TextEdit => e.range.start = e.range.stop ∧ f.range.start = f.range.stop :=
        ⟨fun _ _ hef => hef.symm⟩
      have hboth := (hearlier.and hlater).forall (mem_filter.mpr ⟨ha, by simp⟩)
        (mem_filter.mpr ⟨hb, by simp [hstart]⟩) hab
      exact iff_of_true hboth.1 hboth.2
  · intro hshared
    have hcompatible : edits.Pairwise Compatible := by
      refine List.Pairwise.imp_of_mem ?_ (h.apart.and h.insertions)
      intro a b ha hb ⟨hover, hinsertion⟩
      refine ⟨hover, ?_⟩
      intro hstart
      exact ⟨hinsertion hstart, (hshared a ha b hb hstart).mp (hinsertion hstart)⟩
    refine List.Pairwise.imp_of_mem ?_ ((pairwise_compatible_sortEdits.mpr hcompatible).and (pairwise_sortEdits edits))
    intro a b ha hb ⟨⟨hover, hsame⟩, hle⟩
    by_cases hstart : a.range.start = b.range.start
    · rw [← (hsame hstart).2, ← hstart, comparePosition_self]
    · by_contra hafter
      have ha' := (h.inside a (mem_sortEdits.mp ha)).ordered
      have hbefore : ¬comparePosition a.range.stop b.range.start ≤ 0 := fun hstop =>
        hstart (comparePosition_antisymm (comparePosition_trans ha' hstop) hle)
      have htrue := (rangesOverlap_iff a.range b.range).mpr ⟨hafter, hbefore⟩
      rw [hover] at htrue
      cases htrue

/-- The texts inserted at each start read the same in both orders. -/
def OrderFree (edits : List TextEdit) : Prop :=
  ∀ p, ((edits.filter fun e => e.range.start = p).reverse).flatMap TextEdit.newText =
    (edits.filter fun e => e.range.start = p).flatMap TextEdit.newText

theorem filter_offset_eq {lines} (hinside : ∀ e ∈ edits, e.range.Inside lines) {p} (hp : p.Inside lines) :
    edits.filter (fun e => offset lines e.range.start = offset lines p) =
      edits.filter fun e => e.range.start = p := by
  apply filter_congr
  intro e he
  rw [decide_eq_decide]
  exact offset_eq_iff (hinside e he).start hp

theorem simultaneous_reverse_eq_iff (hinside : ∀ e ∈ edits, e.range.Inside (splitLines text)) :
    simultaneous (edits.map (rangeEdit (splitLines text))).reverse text =
      simultaneous (edits.map (rangeEdit (splitLines text))) text ↔ OrderFree edits := by
  constructor
  · intro h p
    by_cases hnone : edits.filter (fun e => e.range.start = p) = []
    · rw [hnone]
      rfl
    · obtain ⟨e, hmem⟩ := exists_mem_of_ne_nil _ hnone
      obtain ⟨he, hstart⟩ := mem_filter.mp hmem
      obtain rfl := of_decide_eq_true hstart
      have hlength := (hinside e he).start.offset_le
      rw [joinLines_splitLines] at hlength
      have hpiece := insertedAt_eq_of_simultaneousFrom_eq covered_reverse length_insertedAt_reverse h
        (Nat.zero_le _) (by simpa using hlength)
      rw [← map_reverse, insertedAt_map_rangeEdit, insertedAt_map_rangeEdit, filter_reverse,
        filter_offset_eq hinside (hinside e he).start] at hpiece
      exact hpiece
  · intro h
    refine simultaneousFrom_congr covered_reverse ?_ 0 text
    intro i
    rw [← map_reverse, insertedAt_map_rangeEdit, insertedAt_map_rangeEdit, filter_reverse]
    by_cases hnone : edits.filter (fun e => offset (splitLines text) e.range.start = i) = []
    · rw [hnone]
      rfl
    · obtain ⟨e, hmem⟩ := exists_mem_of_ne_nil _ hnone
      obtain ⟨he, hstart⟩ := mem_filter.mp hmem
      obtain rfl := of_decide_eq_true hstart
      rw [filter_offset_eq hinside (hinside e he).start]
      exact h e.range.start

/-- Admissible edits are made simultaneously exactly when a start is shared by insertions only and the
texts inserted there read the same in both orders; overlapping ranges are always refused. -/
theorem applyTextEditsToString_simultaneous_iff (text : JsStr) (edits : List TextEdit) :
    (Admissible (splitLines text) edits →
      (applyTextEditsToString text edits = .ok (simultaneous (edits.map (rangeEdit (splitLines text))) text) ↔
        SharedByInsertions edits ∧ OrderFree edits)) ∧
      ((¬edits.Pairwise fun a b => rangesOverlap a.range b.range = false) →
        ∃ message, applyTextEditsToString text edits = .error message) := by
  constructor
  · intro h
    constructor
    · intro hok
      obtain ⟨_, hcheck, _⟩ := bind_eq_ok.mp hok
      rw [applyTextEditsToString_of_check h.inside hcheck, Except.ok.injEq,
        simultaneous_reverse_eq_iff h.inside] at hok
      exact ⟨(checkOverlaps_eq_ok_iff_shared h).mp hcheck, hok⟩
    · rintro ⟨hshared, horder⟩
      rw [applyTextEditsToString_of_check h.inside ((checkOverlaps_eq_ok_iff_shared h).mpr hshared),
        (simultaneous_reverse_eq_iff h.inside).mpr horder]
  · intro hover
    cases hcheck : checkOverlaps (sortEdits edits) with
    | ok _ => exact absurd (pairwise_not_overlap_of_checkOverlaps hcheck) hover
    | error message =>
      refine ⟨message, ?_⟩
      rw [applyTextEditsToString, hcheck]
      rfl

theorem applyTextEditsToString_two_edits :
    applyTextEditsToString (lit "ab\ncd") [⟨⟨⟨0, 1⟩, ⟨1, 1⟩⟩, lit "z\n"⟩, ⟨⟨⟨0, 0⟩, ⟨0, 0⟩⟩, lit "y"⟩] =
        .ok (lit "yaz\nd") ∧ ∃ message, applyTextEditsToString (lit "ab\ncd")
        [⟨⟨⟨0, 1⟩, ⟨1, 1⟩⟩, lit "z"⟩, ⟨⟨⟨0, 0⟩, ⟨0, 2⟩⟩, lit "y"⟩] = .error message := by
  constructor
  · have hadmissible : Admissible (splitLines (lit "ab\ncd"))
        [⟨⟨⟨0, 1⟩, ⟨1, 1⟩⟩, lit "z\n"⟩, ⟨⟨⟨0, 0⟩, ⟨0, 0⟩⟩, lit "y"⟩] := by
      refine ⟨?_, by decide +kernel, by decide +kernel⟩
      intro edit hedit
      simp only [mem_cons, not_mem_nil, or_false] at hedit
      rcases hedit with rfl | rfl <;>
        exact ⟨⟨by decide +kernel, by decide +kernel⟩, ⟨by decide +kernel, by decide +kernel⟩, by decide⟩
    have horder : OrderFree [⟨⟨⟨0, 1⟩, ⟨1, 1⟩⟩, lit "z\n"⟩, ⟨⟨⟨0, 0⟩, ⟨0, 0⟩⟩, lit "y"⟩] := by
      intro p
      by_cases hp : p = ⟨0, 1⟩
      · subst hp
        decide +kernel
      · by_cases hp' : p = ⟨0, 0⟩
        · subst hp'
          decide +kernel
        · simp [Ne.symm hp, Ne.symm hp']
    rw [((applyTextEditsToString_simultaneous_iff _ _).1 hadmissible).mpr
      ⟨by unfold SharedByInsertions; decide +kernel, horder⟩]
    decide +kernel
  · exact (applyTextEditsToString_simultaneous_iff _ _).2 (by decide +kernel)

/-- Two insertions at one position come out in reverse order, and an insertion at the start of a
replacement is refused. -/
theorem applyTextEditsToString_reverses_insertions :
    applyTextEditsToString (lit "x") [⟨⟨⟨0, 0⟩, ⟨0, 0⟩⟩, lit "a"⟩, ⟨⟨⟨0, 0⟩, ⟨0, 0⟩⟩, lit "b"⟩] = .ok (lit "bax") ∧
      simultaneous ([⟨⟨⟨0, 0⟩, ⟨0, 0⟩⟩, lit "a"⟩, ⟨⟨⟨0, 0⟩, ⟨0, 0⟩⟩, lit "b"⟩].map
        (rangeEdit (splitLines (lit "x")))) (lit "x") = lit "abx" ∧
      applyTextEditsToString (lit "x") [⟨⟨⟨0, 0⟩, ⟨0, 0⟩⟩, lit "a"⟩, ⟨⟨⟨0, 0⟩, ⟨0, 1⟩⟩, lit "b"⟩] =
        .error (overlapError ⟨⟨0, 0⟩, ⟨0, 1⟩⟩ ⟨⟨0, 0⟩, ⟨0, 0⟩⟩) := by
  decide +kernel

end

end GajaeCode.Lsp
