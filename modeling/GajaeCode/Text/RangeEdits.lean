import Mathlib

/-! Edits of a list by ranges of the original: all at once, and one after the other from the
last range to the first. -/
namespace GajaeCode.Text
open List

variable {α β : Type*}

structure RangeEdit (α : Type*) where
  start : Nat
  stop : Nat
  items : List α

/-- What is put in front of element `i`, in the order of the edits. -/
def insertedAt (edits : List (RangeEdit α)) (i : Nat) : List α :=
  (edits.filter fun e => e.start = i).flatMap RangeEdit.items

def Covered (edits : List (RangeEdit α)) (i : Nat) : Prop := ∃ e ∈ edits, e.start ≤ i ∧ i < e.stop

instance (edits : List (RangeEdit α)) (i : Nat) : Decidable (Covered edits i) :=
  inferInstanceAs (Decidable (∃ e ∈ edits, e.start ≤ i ∧ i < e.stop))

/-- All ranges replaced at once, the first element being number `i`. -/
def simultaneousFrom (edits : List (RangeEdit α)) : Nat → List α → List α
  | i, [] => insertedAt edits i
  | i, x :: xs =>
    insertedAt edits i ++ ((if Covered edits i then [] else [x]) ++ simultaneousFrom edits (i + 1) xs)

def simultaneous (edits : List (RangeEdit α)) (xs : List α) : List α := simultaneousFrom edits 0 xs

/-- The ranges replaced in turn: `tail` is what the elements from `p` on have become. -/
def replaceDown (xs : List α) : Nat → List α → List (RangeEdit α) → List α
  | p, tail, [] => xs.take p ++ tail
  | p, tail, e :: rest => replaceDown xs e.start (e.items ++ ((xs.take p).drop e.stop ++ tail)) rest

theorem insertedAt_append (edits edits' : List (RangeEdit α)) (i : Nat) :
    insertedAt (edits ++ edits') i = insertedAt edits i ++ insertedAt edits' i := by
  simp [insertedAt]

variable {edits : List (RangeEdit α)} {i : Nat}

theorem insertedAt_eq_nil (h : ∀ e ∈ edits, e.start ≠ i) : insertedAt edits i = [] := by
  have hnone : edits.filter (fun e => e.start = i) = [] := by
    rw [filter_eq_nil_iff]
    intro e he
    simpa using h e he
  rw [insertedAt, hnone, flatMap_nil]

theorem insertedAt_singleton (e : RangeEdit α) : insertedAt [e] e.start = e.items := by
  simp [insertedAt]

theorem covered_concat (e : RangeEdit α) : Covered (edits ++ [e]) i ↔ Covered edits i ∨ e.start ≤ i ∧ i < e.stop := by
  simp [Covered, or_and_right, exists_or]

theorem simultaneousFrom_of_start_le {stop} (xs : List α) (hstart : ∀ e ∈ edits, e.start ≤ i)
    (hcovered : ∀ j, i ≤ j → (Covered edits j ↔ j < stop)) :
    simultaneousFrom edits i xs = insertedAt edits i ++ xs.drop (stop - i) := by
  induction xs generalizing i with
  | nil => simp [simultaneousFrom]
  | cons x xs ih =>
    have hnext : insertedAt edits (i + 1) = [] := by
      apply insertedAt_eq_nil
      intro e he heq
      have := hstart e he
      omega
    have hrest := ih (fun e he => (hstart e he).trans (Nat.le_succ i)) fun j hj => hcovered j (by omega)
    rw [simultaneousFrom, hrest, hnext, nil_append]
    by_cases hi : i < stop
    · rw [if_pos ((hcovered i le_rfl).mpr hi), nil_append,
        show stop - i = (stop - (i + 1)) + 1 by omega, drop_succ_cons]
    · rw [if_neg (fun h => hi ((hcovered i le_rfl).mp h)), show stop - i = 0 by omega,
        show stop - (i + 1) = 0 by omega]
      simp

theorem simultaneousFrom_concat {e} (xs : List α)
    (hle : ∀ f ∈ edits, f.start ≤ f.stop ∧ f.stop ≤ e.start) (he : e.start ≤ e.stop)
    (hi : i ≤ e.start) (hlen : e.stop ≤ i + xs.length) : simultaneousFrom (edits ++ [e]) i xs =
      simultaneousFrom edits i (xs.take (e.start - i)) ++ (e.items ++ xs.drop (e.stop - i)) := by
  have hcovered : ∀ j, e.start ≤ j → (Covered (edits ++ [e]) j ↔ j < e.stop) := by
    intro j hj
    rw [covered_concat, and_iff_right hj, or_iff_right]
    rintro ⟨f, hf, -, hjf⟩
    have := (hle f hf).2
    omega
  have hstart : ∀ f ∈ edits ++ [e], f.start ≤ e.start := by
    exact forall_mem_append.mpr ⟨fun f hf => (hle f hf).1.trans (hle f hf).2, forall_mem_singleton.mpr le_rfl⟩
  induction xs generalizing i with
  | nil =>
    obtain rfl : i = e.start := by
      simp only [length_nil] at hlen
      omega
    simp [simultaneousFrom, insertedAt_append, insertedAt_singleton]
  | cons x xs ih =>
    by_cases hlt : i < e.start
    · have hsame : insertedAt (edits ++ [e]) i = insertedAt edits i := by
        rw [insertedAt_append, insertedAt_eq_nil (forall_mem_singleton.mpr hlt.ne'), append_nil]
      have hcov : Covered (edits ++ [e]) i ↔ Covered edits i := by
        rw [covered_concat, or_iff_left (by omega)]
      have hrest := ih (i := i + 1) hlt (by simp only [length_cons] at hlen; omega)
      rw [simultaneousFrom, hrest, hsame, show e.start - i = (e.start - (i + 1)) + 1 by omega,
        show e.stop - i = (e.stop - (i + 1)) + 1 by omega, take_succ_cons, drop_succ_cons, simultaneousFrom]
      simp only [hcov, append_assoc]
    · obtain rfl : i = e.start := by omega
      rw [simultaneousFrom_of_start_le _ hstart hcovered, insertedAt_append, insertedAt_singleton,
        Nat.sub_self, take_zero, simultaneousFrom, append_assoc]

/-- Ranges replaced from the last to the first are replaced all at once, in the order from the first to
the last. -/
theorem replaceDown_eq_simultaneous {xs tail p} (hpair : edits.Pairwise fun a b => b.stop ≤ a.start)
    (hle : ∀ e ∈ edits, e.start ≤ e.stop ∧ e.stop ≤ p) (hp : p ≤ xs.length) :
    replaceDown xs p tail edits = simultaneous edits.reverse (xs.take p) ++ tail := by
  induction edits generalizing p tail with
  | nil =>
    have hnone : ∀ j, 0 ≤ j → (Covered ([] : List (RangeEdit α)) j ↔ j < 0) := by simp [Covered]
    rw [replaceDown, simultaneous, reverse_nil, simultaneousFrom_of_start_le _ (by simp) hnone]
    simp [insertedAt]
  | cons e rest ih =>
    obtain ⟨hfirst, hrest⟩ := pairwise_cons.mp hpair
    obtain ⟨hee, hep⟩ := hle e mem_cons_self
    have hbelow : ∀ f ∈ rest, f.start ≤ f.stop ∧ f.stop ≤ e.start := fun f hf =>
      ⟨(hle f (mem_cons_of_mem _ hf)).1, hfirst f hf⟩
    have hlen : e.stop ≤ 0 + (xs.take p).length := by
      rw [length_take]
      omega
    have hconcat := @simultaneousFrom_concat _ rest.reverse 0 e (xs.take p)
      (fun f hf => hbelow f (mem_reverse.mp hf)) hee (Nat.zero_le _) hlen
    rw [replaceDown, ih hrest hbelow (by omega), reverse_cons]
    simp only [simultaneous, hconcat, Nat.sub_zero, take_take, append_assoc]
    rw [min_eq_left (by omega)]

section
variable {edits edits' : List (RangeEdit α)}

theorem simultaneousFrom_congr (hcovered : ∀ j, Covered edits j ↔ Covered edits' j)
    (h : ∀ j, insertedAt edits j = insertedAt edits' j) (i : Nat) (xs : List α) :
    simultaneousFrom edits i xs = simultaneousFrom edits' i xs := by
  induction xs generalizing i with
  | nil => exact h i
  | cons x xs ih => simp only [simultaneousFrom, h, hcovered, ih]

theorem insertedAt_eq_of_simultaneousFrom_eq (hcovered : ∀ j, Covered edits j ↔ Covered edits' j)
    (hlen : ∀ j, (insertedAt edits j).length = (insertedAt edits' j).length) {i xs}
    (h : simultaneousFrom edits i xs = simultaneousFrom edits' i xs) {j} (hij : i ≤ j)
    (hj : j ≤ i + xs.length) : insertedAt edits j = insertedAt edits' j := by
  induction xs generalizing i with
  | nil =>
    obtain rfl : j = i := by
      simp only [length_nil] at hj
      omega
    exact h
  | cons x xs ih =>
    simp only [simultaneousFrom, hcovered] at h
    obtain ⟨hfirst, hrest⟩ := append_inj h (hlen i)
    rcases hij.eq_or_lt with rfl | hlt
    · exact hfirst
    · apply ih (append_cancel_left hrest) hlt
      simp only [length_cons] at hj
      omega

theorem covered_reverse (i : Nat) : Covered edits.reverse i ↔ Covered edits i := by
  simp [Covered]

theorem length_insertedAt_reverse (i : Nat) : (insertedAt edits.reverse i).length = (insertedAt edits i).length := by
  rw [insertedAt, filter_reverse, insertedAt, length_flatMap, length_flatMap, map_reverse, sum_reverse]

end

section
variable {r : β → β → Prop} [DecidableRel r] {keep : β → Bool}

/-- Insertion sort keeps the order of elements that it does not tell apart. -/
theorem filter_insertionSort (xs : List β) (h : ∀ a ∈ xs, ∀ b ∈ xs, keep a = true → keep b = true → r a b) :
    (xs.insertionSort r).filter keep = xs.filter keep := by
  have hpair : (xs.filter keep).Pairwise r := by
    apply pairwise_of_forall_mem_list
    intro a ha b hb
    rw [mem_filter] at ha hb
    exact h a ha.1 b hb.1 ha.2 hb.2
  have hsub := (sublist_insertionSort hpair filter_sublist).filter keep
  rw [filter_filter, filter_congr fun a _ => Bool.and_self (keep a)] at hsub
  exact (hsub.eq_of_length ((perm_insertionSort r xs).filter keep).length_eq.symm).symm

end

end GajaeCode.Text
