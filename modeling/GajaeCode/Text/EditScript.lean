import Mathlib

/-! Edit scripts of insertions and deletions, and the least cost of a script between two lists. -/
namespace GajaeCode.Text
open List

variable {α : Type*}

inductive EditOp (α : Type*) where
  | keep (x : α)
  | remove (x : α)
  | add (x : α)

def EditOp.source : EditOp α → List α
  | .keep x => [x]
  | .remove x => [x]
  | .add _ => []

def EditOp.target : EditOp α → List α
  | .keep x => [x]
  | .remove _ => []
  | .add x => [x]

def EditOp.cost : EditOp α → Nat
  | .keep _ => 0
  | .remove _ => 1
  | .add _ => 1

open EditOp

structure Rewrites (script : List (EditOp α)) (old new : List α) : Prop where
  source : script.flatMap source = old
  target : script.flatMap target = new

def scriptCost (script : List (EditOp α)) : Nat := (script.map cost).sum

theorem Rewrites.append {script script'} {old new old' new' : List α}
    (h : Rewrites script old new) (h' : Rewrites script' old' new') :
    Rewrites (script ++ script') (old ++ old') (new ++ new') :=
  ⟨by rw [flatMap_append, h.source, h'.source], by rw [flatMap_append, h.target, h'.target]⟩

theorem scriptCost_append (script script' : List (EditOp α)) :
    scriptCost (script ++ script') = scriptCost script + scriptCost script' := by
  simp [scriptCost]

variable [DecidableEq α]

/-- The least cost of a script between two lists. -/
def editDistance : List α → List α → Nat
  | [], ys => ys.length
  | xs, [] => xs.length
  | x :: xs, y :: ys =>
    if x = y then editDistance xs ys
    else min (editDistance xs (y :: ys)) (editDistance (x :: xs) ys) + 1
termination_by xs ys => xs.length + ys.length

variable (xs ys : List α)

@[simp] theorem editDistance_nil_left : editDistance [] ys = ys.length := by
  rw [editDistance]

@[simp] theorem editDistance_nil_right : editDistance xs [] = xs.length := by
  cases xs with
  | nil => rw [editDistance]
  | cons x xs => rw [editDistance]; simp

variable (x : α)

theorem editDistance_cons_self (xs ys : List α) : editDistance (x :: xs) (x :: ys) = editDistance xs ys := by
  rw [editDistance, if_pos rfl]

theorem editDistance_cons_cons {x y} (h : x ≠ y) (xs ys : List α) : editDistance (x :: xs) (y :: ys) =
      min (editDistance xs (y :: ys)) (editDistance (x :: xs) ys) + 1 := by
  rw [editDistance, if_neg h]

theorem editDistance_neighbours (n : Nat) : ∀ (x : α) (xs ys : List α), xs.length + ys.length = n →
    (editDistance (x :: xs) ys ≤ editDistance xs ys + 1 ∧ editDistance xs ys ≤ editDistance (x :: xs) ys + 1) ∧
    (editDistance ys (x :: xs) ≤ editDistance ys xs + 1 ∧ editDistance ys xs ≤ editDistance ys (x :: xs) + 1) := by
  induction n with
  | zero =>
    intro x xs ys hlen
    obtain ⟨hxs, hys⟩ : xs = [] ∧ ys = [] := by
      constructor <;> apply length_eq_zero_iff.mp <;> omega
    simp [hxs, hys]
  | succ n ih =>
    intro x xs ys hlen
    cases ys with
    | nil => simp; omega
    | cons y ys =>
      simp only [length_cons] at hlen
      -- the cell left of `(x :: xs, y :: ys)` is compared through the one on the diagonal
      have hy := ih y ys xs (by omega)
      have hx := ih x xs ys (by omega)
      by_cases hxy : x = y
      · subst hxy
        rw [editDistance_cons_self, editDistance_cons_self]
        omega
      · rw [editDistance_cons_cons hxy, editDistance_cons_cons (Ne.symm hxy)]
        omega

/-- Further along a diagonal less remains to be edited. -/
theorem editDistance_tails_le (y : α) (xs ys : List α) : editDistance xs ys ≤ editDistance (x :: xs) (y :: ys) := by
  by_cases hxy : x = y
  · rw [hxy, editDistance_cons_self]
  · have hx := (editDistance_neighbours _ x xs ys rfl).1.2
    have hy := (editDistance_neighbours _ y ys xs rfl).2.2
    rw [editDistance_cons_cons hxy]
    omega

theorem editDistance_drop_le (n : Nat) {xs ys : List α} (hxs : n ≤ xs.length)
    (hys : n ≤ ys.length) : editDistance (xs.drop n) (ys.drop n) ≤ editDistance xs ys := by
  induction n generalizing xs ys with
  | zero => simp
  | succ n ih =>
    cases xs with
    | nil => simp at hxs
    | cons x xs =>
      cases ys with
      | nil => simp at hys
      | cons y ys =>
        simp only [length_cons, Nat.add_le_add_iff_right] at hxs hys
        exact (ih hxs hys).trans (editDistance_tails_le x y xs ys)

theorem editDistance_le : editDistance xs ys ≤ xs.length + ys.length := by
  induction xs with
  | nil => simp
  | cons x xs ih =>
    have := (editDistance_neighbours _ x xs ys rfl).1.1
    simp only [length_cons]
    omega

theorem length_sub_le_editDistance :
    xs.length ≤ editDistance xs ys + ys.length ∧ ys.length ≤ editDistance xs ys + xs.length := by
  induction xs generalizing ys with
  | nil => simp
  | cons x xs ih =>
    induction ys with
    | nil => simp
    | cons y ys ih' =>
      by_cases hxy : x = y
      · have := ih ys
        rw [hxy, editDistance_cons_self]
        simp only [length_cons]
        omega
      · have := ih (y :: ys)
        rw [editDistance_cons_cons hxy]
        simp only [length_cons] at *
        omega

theorem editDistance_le_scriptCost {script} {old new : List α}
    (h : Rewrites script old new) : editDistance old new ≤ scriptCost script := by
  obtain ⟨rfl, rfl⟩ := h
  induction script with
  | nil => simp
  | cons op script ih =>
    simp only [flatMap_cons, scriptCost, map_cons, sum_cons] at ih ⊢
    cases op with
    | keep x =>
      simp only [source, target, cost, singleton_append, editDistance_cons_self]
      omega
    | remove x =>
      have := (editDistance_neighbours _ x (script.flatMap source) (script.flatMap target) rfl).1.1
      simp only [source, target, cost, singleton_append, nil_append]
      omega
    | add x =>
      have := (editDistance_neighbours _ x (script.flatMap target) (script.flatMap source) rfl).2.1
      simp only [source, target, cost, singleton_append, nil_append]
      omega

end GajaeCode.Text
