import Mathlib

/-! Edit distance with insertions, deletions and substitutions, and the bounds on
neighbouring cells of its table. -/
namespace GajaeCode.Text

variable {α : Type*} [DecidableEq α]

def levenshtein : List α → List α → Nat
  | [], ys => ys.length
  | xs, [] => xs.length
  | x :: xs, y :: ys =>
    min (min (levenshtein xs (y :: ys) + 1) (levenshtein (x :: xs) ys + 1))
      (levenshtein xs ys + if x = y then 0 else 1)
termination_by xs ys => xs.length + ys.length

@[simp] theorem levenshtein_nil_left (ys : List α) : levenshtein [] ys = ys.length := by
  rw [levenshtein]

variable (xs : List α)

@[simp] theorem levenshtein_nil_right : levenshtein xs [] = xs.length := by
  cases xs with
  | nil => rw [levenshtein]
  | cons x xs => rw [levenshtein]; simp

variable (x y : α)

section

variable (xs ys : List α)

theorem levenshtein_cons_cons : levenshtein (x :: xs) (y :: ys) =
      min (min (levenshtein xs (y :: ys) + 1) (levenshtein (x :: xs) ys + 1))
        (levenshtein xs ys + if x = y then 0 else 1) := by
  rw [levenshtein]

theorem levenshtein_comm (ys : List α) : levenshtein xs ys = levenshtein ys xs := by
  induction xs generalizing ys with
  | nil => simp
  | cons x xs ih =>
    induction ys with
    | nil => simp
    | cons y ys ih' =>
      have hsym : (x = y) = (y = x) := propext eq_comm
      simp only [levenshtein_cons_cons, ih, ih', hsym]
      rw [min_comm (levenshtein (y :: ys) xs + 1)]

@[simp] theorem levenshtein_self : levenshtein xs xs = 0 := by
  induction xs with
  | nil => simp
  | cons x xs ih => simp [levenshtein_cons_cons, ih]

theorem levenshtein_cons_left_le : levenshtein (x :: xs) ys ≤ levenshtein xs ys + 1 := by
  cases ys with
  | nil => simp
  | cons y ys => rw [levenshtein_cons_cons]; omega

theorem levenshtein_cons_right_le : levenshtein xs (y :: ys) ≤ levenshtein xs ys + 1 := by
  rw [levenshtein_comm, levenshtein_comm xs]
  exact levenshtein_cons_left_le y ys xs

theorem levenshtein_le_cons_left : levenshtein xs ys ≤ levenshtein (x :: xs) ys + 1 := by
  induction ys with
  | nil => simp; omega
  | cons y ys ih =>
    have hright := levenshtein_cons_right_le y xs ys
    rw [levenshtein_cons_cons]
    omega

theorem levenshtein_le_cons_right : levenshtein xs ys ≤ levenshtein xs (y :: ys) + 1 := by
  rw [levenshtein_comm, levenshtein_comm xs]
  exact levenshtein_le_cons_left y ys xs

/-- One cell of the table in terms of the signs of its neighbours' differences: `left` is the
cell of the previous column, `up` that of the previous row, `diag` the one of both. -/
structure Cell (diag left up : Nat) (agree : Bool) (here : Nat) : Prop where
  left_le : left ≤ diag + 1
  le_left : diag ≤ left + 1
  up_le : up ≤ diag + 1
  le_up : diag ≤ up + 1
  here_eq : here = min (min (up + 1) (left + 1)) (diag + if agree then 0 else 1)

theorem levenshtein_cell : Cell (levenshtein xs ys) (levenshtein (x :: xs) ys) (levenshtein xs (y :: ys))
      (decide (x = y)) (levenshtein (x :: xs) (y :: ys)) where
  left_le := levenshtein_cons_left_le x xs ys
  le_left := levenshtein_le_cons_left x xs ys
  up_le := levenshtein_cons_right_le y xs ys
  le_up := levenshtein_le_cons_right y xs ys
  here_eq := by simp [levenshtein_cons_cons]

end

section

variable {diag left up here : Nat} {agree : Bool} (h : Cell diag left up agree here)
include h

theorem Cell.right_rises : decide (here = left + 1) = (decide (left + 1 = diag) ||
        !((agree || decide (up + 1 = diag)) || decide (left = diag + 1))) := by
  obtain ⟨_, _, _, _, rfl⟩ := h
  cases agree <;> simp <;> grind

theorem Cell.right_falls :
    decide (here + 1 = left) = (decide (left = diag + 1) && (agree || decide (up + 1 = diag))) := by
  obtain ⟨_, _, _, _, rfl⟩ := h
  cases agree <;> simp <;> grind

theorem Cell.below_rises : decide (here = up + 1) = (decide (up + 1 = diag) ||
        !((agree || decide (left + 1 = diag)) || decide (up = diag + 1))) := by
  obtain ⟨_, _, _, _, rfl⟩ := h
  cases agree <;> simp <;> grind

theorem Cell.below_falls :
    decide (here + 1 = up) = (decide (up = diag + 1) && (agree || decide (left + 1 = diag))) := by
  obtain ⟨_, _, _, _, rfl⟩ := h
  cases agree <;> simp <;> grind

end

end GajaeCode.Text
