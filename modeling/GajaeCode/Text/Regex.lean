import Mathlib

/-! Backtracking regular expressions with greedy repetitions of a class, ordered alternatives and
capture groups. -/
namespace GajaeCode.Text

variable {α : Type*} {β γ : Type*}

inductive Regex (α : Type*) where
  | empty
  | cls (p : α → Bool)
  /-- A class repeated at least `lo` and at most `hi` times. -/
  | rep (p : α → Bool) (lo : Nat) (hi : Option Nat)
  | seq (r s : Regex α)
  | alt (r s : Regex α)
  | group (n : Nat) (r : Regex α)

/-- What the groups have captured, the latest first. -/
abbrev Captures (α : Type*) := List (Nat × List α)

namespace Regex

def star (p : α → Bool) : Regex α := .rep p 0 none
def plus (p : α → Bool) : Regex α := .rep p 1 none
def opt (r : Regex α) : Regex α := .alt r .empty

def seqs : List (Regex α) → Regex α
  | [] => .empty
  | r :: rs => .seq r (seqs rs)

/-- The longest repetition is tried first. -/
def runRep (p : α → Bool) : Nat → Option Nat → List α → (List α → Option β) → Option β
  | lo, _, [], k => if lo = 0 then k [] else none
  | lo, hi, u :: s, k =>
    let here := if lo = 0 then k (u :: s) else none
    if p u && hi != some 0 then (runRep p (lo - 1) (hi.map (· - 1)) s k).or here else here

/-- Matches `r` at the start of `s` and goes on with the rest in `k`. -/
def run : Regex α → List α → Captures α → (List α → Captures α → Option β) → Option β
  | .empty, s, c, k => k s c
  | .cls p, s, c, k =>
    match s with
    | [] => none
    | u :: s => if p u then k s c else none
  | .rep p lo hi, s, c, k => runRep p lo hi s fun rest => k rest c
  | .seq r t, s, c, k => r.run s c fun rest c => t.run rest c k
  | .alt r t, s, c, k => (r.run s c k).or (t.run s c k)
  | .group n r, s, c, k => r.run s c fun rest c => k rest ((n, s.take (s.length - rest.length)) :: c)

/-- `^r$`. -/
def matchWhole (r : Regex α) (s : List α) : Option (Captures α) :=
  r.run s [] fun rest c => if rest.isEmpty then some c else none

/-- `^r`, with what follows the match. -/
def matchStart (r : Regex α) (s : List α) : Option (List α × Captures α) :=
  r.run s [] fun rest c => some (rest, c)

theorem run_seqs_cons (r : Regex α) (rs : List (Regex α)) (s : List α) (c : Captures α)
    (k : List α → Captures α → Option β) :
    (seqs (r :: rs)).run s c k = r.run s c fun rest c => (seqs rs).run rest c k := rfl

theorem runRep_eq_some {p lo hi s} {k : List α → Option β} {b} (h : runRep p lo hi s k = some b) :
    ∃ taken rest, s = taken ++ rest ∧ lo ≤ taken.length ∧ k rest = some b := by
  induction s generalizing lo hi with
  | nil =>
    simp only [runRep] at h
    split at h
    · next hlo => exact ⟨[], [], rfl, by simp [hlo], h⟩
    · cases h
  | cons u s ih =>
    have hhere : (if lo = 0 then k (u :: s) else none) = some b →
        ∃ taken rest, u :: s = taken ++ rest ∧ lo ≤ taken.length ∧ k rest = some b := by
      intro hk
      split at hk
      · next hlo => exact ⟨[], u :: s, rfl, by simp [hlo], hk⟩
      · cases hk
    simp only [runRep] at h
    split at h
    · rcases Option.or_eq_some_iff.mp h with h | ⟨-, h⟩
      · obtain ⟨taken, rest, rfl, hlen, hk⟩ := ih h
        exact ⟨u :: taken, rest, rfl, by simp only [List.length_cons]; omega, hk⟩
      · exact hhere h
    · exact hhere h

/-- Whether a repetition succeeds depends on the continuation only by where it succeeds. -/
theorem isSome_runRep_congr {p lo hi s}
    {k : List α → Option β} {k' : List α → Option γ} (hk : ∀ rest, (k rest).isSome = (k' rest).isSome) :
    (runRep p lo hi s k).isSome = (runRep p lo hi s k').isSome := by
  induction s generalizing lo hi with
  | nil =>
    simp only [runRep]
    split
    · exact hk []
    · rfl
  | cons u s ih =>
    have hhere : (if lo = 0 then k (u :: s) else none).isSome =
        (if lo = 0 then k' (u :: s) else none).isSome := by
      split
      · exact hk (u :: s)
      · rfl
    simp only [runRep]
    split
    · rw [Option.isSome_or, Option.isSome_or, ih, hhere]
    · exact hhere

section

variable {p : α → Bool} {w : α} {k k' : List α → Option β}

/-- A last unit that the class refuses, or after which the continuation fails, is left over. -/
theorem runRep_concat (hw : p w = false ∨ k' [] = none) (hk : ∀ rest, k' (rest ++ [w]) = k rest)
    (lo : Nat) (hi : Option Nat) (s : List α) : runRep p lo hi (s ++ [w]) k' = runRep p lo hi s k := by
  induction s generalizing lo hi with
  | nil =>
    have hend : k' [w] = k [] := hk []
    rcases hw with hw | hw <;> simp [runRep, hw, hend]
  | cons u s ih =>
    have hhere : k' (u :: (s ++ [w])) = k (u :: s) := hk (u :: s)
    simp only [List.cons_append, runRep, ih, hhere]

theorem runRep_star_end (b : β) (s : List α) : runRep p 0 none s (fun rest => if rest.isEmpty then some b else none) =
      if s.all p then some b else none := by
  induction s with
  | nil => simp [runRep]
  | cons u s ih =>
    simp only [runRep, Option.map_none, Nat.zero_sub, ih]
    by_cases hu : p u = true <;> simp [hu]

/-- No class of the expression accepts `w`. -/
def avoids (w : α) : Regex α → Bool
  | .empty => true
  | .cls p => !p w
  | .rep p _ _ => !p w
  | .seq r t => r.avoids w && t.avoids w
  | .alt r t => r.avoids w && t.avoids w
  | .group _ r => r.avoids w

theorem run_concat {r : Regex α} (hr : r.avoids w = true) {c s}
    {k k' : List α → Captures α → Option β} (hk : ∀ rest c, k' (rest ++ [w]) c = k rest c) :
    r.run (s ++ [w]) c k' = r.run s c k := by
  induction r generalizing s c k k' with
  | empty => exact hk s c
  | cls p =>
    cases s with
    | nil =>
      have hw : p w = false := by simpa [avoids] using hr
      simp [run, hw]
    | cons u s => simp only [List.cons_append, run, hk]
  | rep p lo hi =>
    have hw : p w = false := by simpa [avoids] using hr
    exact runRep_concat (.inl hw) (fun rest => hk rest c) lo hi s
  | seq r t ihr iht =>
    obtain ⟨hr, ht⟩ := Bool.and_eq_true_iff.mp hr
    exact ihr hr fun rest c => iht ht hk
  | alt r t ihr iht =>
    obtain ⟨hr, ht⟩ := Bool.and_eq_true_iff.mp hr
    simp only [run, ihr hr hk, iht ht hk]
  | group n r ih =>
    refine ih hr fun rest c => ?_
    have hlen : (s ++ [w]).length - (rest ++ [w]).length = s.length - rest.length := by simp
    rw [hk, hlen, List.take_append_of_le_length (Nat.sub_le _ _)]

end

end Regex

end GajaeCode.Text
