import Mathlib

/-! Properly nested brackets: an opening bracket carries a value, a closing one the key of the value it
closes. -/
namespace GajaeCode.Text
open List

inductive Bracket (τ κ : Type*) where
  | opening (t : τ)
  | closing (k : κ)

variable {τ κ : Type*} [DecidableEq κ] (key : τ → κ)

/-- The open brackets after a sequence, the innermost first; `none` if one closes what is not the
innermost. -/
def nest : List τ → List (Bracket τ κ) → Option (List τ)
  | stack, [] => some stack
  | stack, .opening t :: rest => nest (t :: stack) rest
  | [], .closing _ :: _ => none
  | t :: stack, .closing k :: rest => if key t = k then nest stack rest else none

def Nested (brackets : List (Bracket τ κ)) : Prop := nest key [] brackets = some []

instance [DecidableEq τ] (brackets : List (Bracket τ κ)) : Decidable (Nested key brackets) :=
  inferInstanceAs (Decidable (nest key [] brackets = some []))

variable {key}

theorem nest_append (stack : List τ) (first last : List (Bracket τ κ)) :
    nest key stack (first ++ last) = (nest key stack first).bind fun stack => nest key stack last := by
  induction first generalizing stack with
  | nil => rfl
  | cons bracket rest ih =>
    cases bracket with
    | opening t => exact ih (t :: stack)
    | closing k =>
      cases stack with
      | nil => rfl
      | cons t stack =>
        simp only [cons_append, nest]
        split_ifs
        · exact ih stack
        · rfl

variable {stack after : List τ} {brackets body : List (Bracket τ κ)} {t : τ}

/-- Brackets below the open ones do not matter. -/
theorem nest_frame (h : nest key stack brackets = some after) (below : List τ) :
    nest key (stack ++ below) brackets = some (after ++ below) := by
  induction brackets generalizing stack with
  | nil =>
    cases h
    rfl
  | cons bracket rest ih =>
    cases bracket with
    | opening t => exact ih h
    | closing k =>
      cases stack with
      | nil => cases h
      | cons t stack =>
        simp only [cons_append, nest] at h ⊢
        split_ifs at h ⊢
        exact ih h

theorem mem_of_nest (h : nest key stack brackets = some after) (ht : t ∈ after) :
    t ∈ stack ∨ .opening t ∈ brackets := by
  induction brackets generalizing stack with
  | nil =>
    cases h
    exact .inl ht
  | cons bracket rest ih =>
    cases bracket with
    | opening u =>
      rcases ih h with hmem | hmem
      · rcases mem_cons.mp hmem with rfl | hmem
        · exact .inr mem_cons_self
        · exact .inl hmem
      · exact .inr (mem_cons_of_mem _ hmem)
    | closing k =>
      cases stack with
      | nil => cases h
      | cons u stack =>
        rw [nest] at h
        split_ifs at h
        exact (ih h).imp (mem_cons_of_mem _) (mem_cons_of_mem _)

theorem nest_openings (stack opened : List τ) :
    nest key stack (opened.map .opening) = some (opened.reverse ++ stack) := by
  induction opened generalizing stack with
  | nil => rfl
  | cons t rest ih =>
    rw [map_cons, nest, ih, reverse_cons, append_assoc]
    rfl

theorem nest_closings (closed stack : List τ) :
    nest key (closed ++ stack) (closed.map fun t => .closing (key t)) = some stack := by
  induction closed with
  | nil => rfl
  | cons t rest ih =>
    rw [map_cons, cons_append, nest, if_pos rfl]
    exact ih

theorem Nested.append {first last} (hfirst : Nested key first)
    (hlast : Nested key last) : Nested key (first ++ last) := by
  rw [Nested, nest_append, hfirst, Option.bind_some]
  exact hlast

/-- What is nested may stand anywhere. -/
theorem Nested.nest (h : Nested key brackets) (stack : List τ) : GajaeCode.Text.nest key stack brackets = some stack :=
  nest_frame h stack

theorem Nested.wrap (h : Nested key brackets) (t : τ) : Nested key (.opening t :: brackets ++ [.closing (key t)]) := by
  rw [Nested, cons_append, GajaeCode.Text.nest, nest_append, h.nest, Option.bind_some, GajaeCode.Text.nest, if_pos rfl]
  rfl

/-- Wrapping what is nested changes nothing around it. -/
theorem nest_wrap_nested (h : Nested key body) (t : τ) (stack : List τ) (first last : List (Bracket τ κ)) :
    GajaeCode.Text.nest key stack (first ++ (.opening t :: body ++ [.closing (key t)]) ++ last) =
      GajaeCode.Text.nest key stack (first ++ body ++ last) := by
  have hwrap := (h.wrap t).nest
  generalize Bracket.opening t :: body ++ [.closing (key t)] = wrapped at hwrap
  simp only [nest_append, hwrap, h.nest]

/-- Brackets that never close `t` leave it and what is below it alone. -/
theorem nest_above (hclosing : ∀ k, .closing k ∈ body → k ≠ key t) {above}
    (h : nest key (above ++ t :: stack) body = some after) :
    ∃ opened, after = opened ++ t :: stack ∧ nest key above body = some opened := by
  induction body generalizing above with
  | nil =>
    cases h
    exact ⟨above, rfl, rfl⟩
  | cons bracket rest ih =>
    have hrest : ∀ k, .closing k ∈ rest → k ≠ key t := fun k hk => hclosing k (mem_cons_of_mem _ hk)
    cases bracket with
    | opening u => exact @ih hrest (u :: above) h
    | closing k =>
      cases above with
      | nil =>
        rw [nil_append, nest] at h
        split_ifs at h with hkey
        exact absurd hkey.symm (hclosing k mem_cons_self)
      | cons u above =>
        rw [cons_append, nest] at h
        split_ifs at h with hkey
        obtain ⟨opened, hafter, hnest⟩ := ih hrest h
        refine ⟨opened, hafter, ?_⟩
        rw [nest, if_pos hkey]
        exact hnest

/-- Wrapping what is not nested breaks the nesting, unless it holds brackets of the same key. -/
theorem nest_wrap_crossed (h : ¬ Nested key body) (hclosing : ∀ k, .closing k ∈ body → k ≠ key t)
    (hopening : ∀ u, .opening u ∈ body → key u ≠ key t) (stack : List τ) (first last : List (Bracket τ κ)) :
    GajaeCode.Text.nest key stack (first ++ (.opening t :: body ++ [.closing (key t)]) ++ last) = none := by
  have hwrap : ∀ below, GajaeCode.Text.nest key below (.opening t :: body ++ [.closing (key t)]) = none := by
    intro below
    rw [cons_append, GajaeCode.Text.nest, nest_append]
    cases hbody : GajaeCode.Text.nest key (t :: below) body with
    | none => rfl
    | some after =>
      obtain ⟨opened, rfl, hopened⟩ := @nest_above _ _ _ _ below after body t hclosing [] hbody
      cases opened with
      | nil => exact absurd hopened h
      | cons u opened =>
        have hu : .opening u ∈ body := (mem_of_nest hopened mem_cons_self).resolve_left not_mem_nil
        rw [Option.bind_some, cons_append, GajaeCode.Text.nest, if_neg (hopening u hu)]
  generalize Bracket.opening t :: body ++ [.closing (key t)] = wrapped at hwrap
  simp only [nest_append, hwrap, Option.bind_none, Option.bind_fun_none]

end GajaeCode.Text
