import Mathlib

/-! Computations that may fail. -/
namespace GajaeCode.Data
open List

universe u v

variable {ε : Type u} {α β : Type v}

theorem bind_eq_ok {x} {f : α → Except ε β} {b} : x >>= f = .ok b ↔ ∃ a, x = .ok a ∧ f a = .ok b := by
  cases x with
  | error e => simp [bind, Except.bind]
  | ok a => simp [bind, Except.bind]

theorem pure_eq_ok {a b} : (pure a : Except ε α) = .ok b ↔ a = b := by
  simp [pure, Except.pure]

variable {γ : Type*} {ys : List β} {f : γ → Except ε β}

theorem mapM_eq_ok {xs : List γ} : xs.mapM f = .ok ys ↔ List.Forall₂ (fun x y => f x = .ok y) xs ys := by
  induction xs generalizing ys with
  | nil =>
    rw [mapM_nil, pure_eq_ok, List.forall₂_nil_left_iff, eq_comm]
  | cons x xs ih =>
    rw [mapM_cons, bind_eq_ok, List.forall₂_cons_left_iff]
    constructor
    · rintro ⟨y, hy, h⟩
      obtain ⟨ys, hys, h⟩ := bind_eq_ok.mp h
      exact ⟨y, ys, hy, ih.mp hys, (pure_eq_ok.mp h).symm⟩
    · rintro ⟨y, ys, hy, hys, rfl⟩
      exact ⟨y, hy, bind_eq_ok.mpr ⟨ys, ih.mpr hys, rfl⟩⟩

theorem mapM_of_forall_ok {xs : List γ} (h : ∀ x ∈ xs, ∃ y, f x = .ok y) (d : β) :
    xs.mapM f = .ok (xs.map fun x => (f x).toOption.getD d) := by
  rw [mapM_eq_ok]
  induction xs with
  | nil => exact .nil
  | cons x xs ih =>
    obtain ⟨y, hy⟩ := h x mem_cons_self
    refine .cons ?_ (ih (forall_mem_cons.mp h).2)
    dsimp only
    rw [hy]
    rfl

theorem exists_of_mem_mapM {xs : List γ} (h : xs.mapM f = .ok ys) {y} (hy : y ∈ ys) : ∃ x ∈ xs, f x = .ok y := by
  have hall := mapM_eq_ok.mp h
  clear h
  induction hall with
  | nil => cases hy
  | cons hfirst _ ih =>
    rcases mem_cons.mp hy with rfl | hy
    · exact ⟨_, mem_cons_self, hfirst⟩
    · obtain ⟨x, hx, hf⟩ := ih hy
      exact ⟨x, mem_cons_of_mem _ hx, hf⟩

theorem mapM_eq_some_iff {f} {xs : List γ} : xs.mapM f = some ys ↔ List.Forall₂ (fun x y => f x = some y) xs ys := by
  induction xs generalizing ys with
  | nil =>
    rw [mapM_nil, List.forall₂_nil_left_iff, eq_comm]
    exact Option.some_inj
  | cons x xs ih =>
    rw [mapM_cons, List.forall₂_cons_left_iff]
    constructor
    · intro h
      obtain ⟨y, hy, h⟩ := Option.bind_eq_some_iff.mp h
      obtain ⟨rest, hrest, h⟩ := Option.bind_eq_some_iff.mp h
      exact ⟨y, rest, hy, ih.mp hrest, (Option.some_inj.mp h).symm⟩
    · rintro ⟨y, rest, hy, hrest, rfl⟩
      rw [hy, ih.mpr hrest]
      rfl

end GajaeCode.Data
