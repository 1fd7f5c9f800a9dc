import Mathlib

/-! Leftmost scanning: a text cut into the parts that a pattern matches and the units between them. -/
namespace GajaeCode.Text
open List

variable {α : Type*}

inductive Piece (α : Type*) where
  | unit (u : α)
  | hit (s : List α)
deriving DecidableEq

def Piece.render (f : List α → List α) : Piece α → List α
  | .unit u => [u]
  | .hit s => f s

/-- The text of pieces with `f s` in place of each matched part `s`. -/
def render (f : List α → List α) (ps : List (Piece α)) : List α := ps.flatMap (Piece.render f)

variable (f : List α → List α)

@[simp] theorem render_nil : render f [] = [] := rfl

@[simp] theorem render_unit (u : α) (ps : List (Piece α)) : render f (.unit u :: ps) = u :: render f ps := rfl

@[simp] theorem render_hit (s : List α) (ps : List (Piece α)) : render f (.hit s :: ps) = f s ++ render f ps := rfl

theorem render_append (ps qs : List (Piece α)) : render f (ps ++ qs) = render f ps ++ render f qs :=
  flatMap_append

theorem render_flatten (texts : List (List (Piece α))) : render f texts.flatten = (texts.map (render f)).flatten := by
  rw [render, flatMap_def, map_flatten, flatten_flatten, map_map]
  rfl

theorem render_map_unit (s : List α) : render f (s.map .unit) = s := by
  rw [render, flatMap_map]
  exact flatMap_singleton' s

section

variable (m : List α → Option Nat)

/-- `m t` is the length of the match at the start of `t`. After an empty match the scan goes on behind
the next unit; `skip` units of the last match are still ahead. -/
def scanFrom : Nat → List α → List (Piece α)
  | _, [] => if (m []).isSome then [.hit []] else []
  | 0, u :: t =>
    match m (u :: t) with
    | none => .unit u :: scanFrom 0 t
    | some 0 => .hit [] :: .unit u :: scanFrom 0 t
    | some (n + 1) => .hit ((u :: t).take (n + 1)) :: scanFrom n t
  | skip + 1, _ :: t => scanFrom skip t

def scan (t : List α) : List (Piece α) := scanFrom m 0 t

variable {m}

theorem scanFrom_eq (skip : Nat) (t : List α) : scanFrom m skip t = scan m (t.drop skip) := by
  induction t generalizing skip with
  | nil =>
    cases skip <;> rfl
  | cons u t ih =>
    cases skip with
    | zero => rfl
    | succ skip => rw [scanFrom, ih, drop_succ_cons]

theorem scan_nil (h : m [] = none) : scan m [] = [] := by
  simp [scan, scanFrom, h]

variable {n : Nat} {u : α} {t : List α}

theorem scan_nil_some (h : m [] = some n) : scan m [] = [.hit []] := by
  simp [scan, scanFrom, h]

theorem scan_unit (h : m (u :: t) = none) : scan m (u :: t) = .unit u :: scan m t := by
  simp [scan, scanFrom, h]

theorem scan_empty (h : m (u :: t) = some 0) : scan m (u :: t) = .hit [] :: .unit u :: scan m t := by
  simp [scan, scanFrom, h]

theorem scan_hit (h : m (u :: t) = some (n + 1)) :
    scan m (u :: t) = .hit ((u :: t).take (n + 1)) :: scan m ((u :: t).drop (n + 1)) := by
  rw [scan, scanFrom, h]
  exact congrArg _ (scanFrom_eq n t)

theorem scan_some (ht : t ≠ []) (h : m t = some (n + 1)) :
    scan m t = .hit (t.take (n + 1)) :: scan m (t.drop (n + 1)) := by
  obtain ⟨u, t, rfl⟩ := exists_cons_of_ne_nil ht
  exact scan_hit h

theorem scan_induction {motive : List α → List (Piece α) → Prop} (hnil : m [] = none → motive [] [])
    (hend : ∀ n, m [] = some n → motive [] [.hit []])
    (hunit : ∀ u t, m (u :: t) = none → motive t (scan m t) → motive (u :: t) (.unit u :: scan m t))
    (hempty : ∀ u t, m (u :: t) = some 0 → motive t (scan m t) → motive (u :: t) (.hit [] :: .unit u :: scan m t))
    (hhit : ∀ u t n, m (u :: t) = some (n + 1) → motive ((u :: t).drop (n + 1)) (scan m ((u :: t).drop (n + 1))) →
      motive (u :: t) (.hit ((u :: t).take (n + 1)) :: scan m ((u :: t).drop (n + 1))))
    (t : List α) : motive t (scan m t) := by
  induction hlen : t.length using Nat.strong_induction_on generalizing t with
  | _ len ih =>
    cases t with
    | nil =>
      cases h : m [] with
      | none => rw [scan_nil h]; exact hnil h
      | some n => rw [scan_nil_some h]; exact hend n h
    | cons u t =>
      have htail : t.length < len := by rw [← hlen, length_cons]; omega
      cases h : m (u :: t) with
      | none => rw [scan_unit h]; exact hunit u t h (ih _ htail t rfl)
      | some n =>
        cases n with
        | zero => rw [scan_empty h]; exact hempty u t h (ih _ htail t rfl)
        | succ n =>
          have hdrop : ((u :: t).drop (n + 1)).length < len := by
            rw [length_drop]
            omega
          rw [scan_hit h]
          exact hhit u t n h (ih _ hdrop _ rfl)

theorem render_id_scan (t : List α) : render id (scan m t) = t := by
  induction t using scan_induction (m := m) with
  | hnil h => rfl
  | hend n h => rfl
  | hunit u t h ih => rw [render_unit, ih]
  | hempty u t h ih => rw [render_hit, render_unit, ih]; rfl
  | hhit u t n h ih => rw [render_hit, ih]; exact take_append_drop (n + 1) (u :: t)

/-- Where no match starts the scan copies the text. -/
theorem scan_append {a b} (h : ∀ n < a.length, m ((a ++ b).drop n) = none) :
    scan m (a ++ b) = a.map .unit ++ scan m b := by
  induction a with
  | nil => rfl
  | cons u a ih =>
    have hrest : ∀ n < a.length, m ((a ++ b).drop n) = none := by
      intro n hn
      exact h (n + 1) (by rw [length_cons]; omega)
    have hfirst : m (u :: (a ++ b)) = none := h 0 (by simp)
    rw [cons_append, scan_unit hfirst, ih hrest, map_cons, cons_append]

/-- Without empty matches the pieces from any point on are the scan of what they spell. -/
theorem eq_scan_of_suffix (hm : ∀ t, m t ≠ some 0) (hend : m [] = none) {ps}
    (h : ps <:+ scan m t) : ps = scan m (render id ps) := by
  induction t using scan_induction (m := m) with
  | hnil _ =>
    rw [suffix_nil.mp h, render_nil, scan_nil hend]
  | hend n hn => exact absurd (hend.symm.trans hn) (by simp)
  | hunit u t hu ih =>
    rcases suffix_cons_iff.mp h with rfl | h
    · rw [← scan_unit hu, render_id_scan]
    · exact ih h
  | hempty u t hu ih => exact absurd hu (hm _)
  | hhit u t n hu ih =>
    rcases suffix_cons_iff.mp h with rfl | h
    · rw [← scan_hit hu, render_id_scan]
    · exact ih h

theorem eq_none_of_unit_suffix (hm : ∀ t, m t ≠ some 0) (hend : m [] = none) {ps}
    (h : .unit u :: ps <:+ scan m t) : m (u :: render id ps) = none := by
  have hscan := eq_scan_of_suffix hm hend h
  rw [render_unit] at hscan
  cases hu : m (u :: render id ps) with
  | none => rfl
  | some n =>
    cases n with
    | zero => exact absurd hu (hm _)
    | succ n =>
      rw [scan_hit hu] at hscan
      cases hscan

end

def splitHits : List (Piece α) → List (List α)
  | [] => [[]]
  | .unit u :: ps => (splitHits ps).modifyHead (List.cons u)
  | .hit _ :: ps => [] :: splitHits ps

theorem splitHits_ne_nil (ps : List (Piece α)) : splitHits ps ≠ [] := by
  induction ps with
  | nil => simp [splitHits]
  | cons p ps ih => cases p <;> simp [splitHits, ih]

/-- Joining the parts with `r` puts `r` in place of every hit. -/
theorem intercalate_splitHits (r : List α) (ps : List (Piece α)) :
    r.intercalate (splitHits ps) = render (fun _ => r) ps := by
  induction ps with
  | nil => simp [splitHits]
  | cons p ps ih =>
    obtain ⟨first, rest, hsplit⟩ := exists_cons_of_ne_nil (splitHits_ne_nil ps)
    cases p with
    | unit u =>
      rw [splitHits, render_unit, ← ih, hsplit]
      cases rest <;> simp [intercalate_cons_cons]
    | hit s =>
      rw [splitHits, render_hit, ← ih, hsplit]
      simp [intercalate_cons_cons]

section

variable [DecidableEq α]

/-- The first of the literals that the text starts with, by its length. -/
def alternatives (literals : List (List α)) (t : List α) : Option Nat :=
  (literals.find? fun s => s.isPrefixOf t).map List.length

/-- `text.includes(search)`. -/
def includes (text search : List α) : Bool := decide (search <:+: text)

/-- `text.split(search)` for a search text that is not empty. -/
def splitString (text search : List α) : List (List α) :=
  splitHits (scan (alternatives [search]) text)

variable {literals : List (List α)}
  {t : List α}

theorem alternatives_eq_none : alternatives literals t = none ↔ ∀ s ∈ literals, ¬ s <+: t := by
  simp [alternatives]

theorem alternatives_eq_some {n} (h : alternatives literals t = some n) :
    ∃ s ∈ literals, s <+: t ∧ t.take n = s ∧ s.length = n := by
  simp only [alternatives, Option.map_eq_some_iff] at h
  obtain ⟨s, hfind, rfl⟩ := h
  have hfound := find?_some hfind
  have hstart : s <+: t := isPrefixOf_iff_prefix.mp hfound
  exact ⟨s, mem_of_find?_eq_some hfind, hstart, (prefix_iff_eq_take.mp hstart).symm, rfl⟩

theorem alternatives_ne_zero (h : ∀ s ∈ literals, s ≠ []) (t : List α) : alternatives literals t ≠ some 0 := by
  intro hzero
  obtain ⟨s, hs, -, -, hlen⟩ := alternatives_eq_some hzero
  exact h s hs (length_eq_zero_iff.mp hlen)

theorem alternatives_nil (h : ∀ s ∈ literals, s ≠ []) : alternatives literals [] = none := by
  rw [alternatives_eq_none]
  intro s hs hstart
  exact h s hs (prefix_nil.mp hstart)

theorem scan_literal_append {s} (hs : s ≠ []) (t : List α) :
    scan (alternatives [s]) (s ++ t) = .hit s :: scan (alternatives [s]) t := by
  obtain ⟨u, s, rfl⟩ := exists_cons_of_ne_nil hs
  have hmatch : alternatives [u :: s] (u :: (s ++ t)) = some (s.length + 1) := by
    simp [alternatives]
  have hlength : (u :: s).length = s.length + 1 := rfl
  rw [cons_append, scan_hit hmatch, ← cons_append, take_left' hlength, drop_left' hlength]

theorem mem_of_hit_mem_scan {s} (h : .hit s ∈ scan (alternatives literals) t) : s ∈ literals := by
  induction t using scan_induction (m := alternatives literals) with
  | hnil _ => cases h
  | hend n hn =>
    obtain ⟨s', hs', hstart, -, -⟩ := alternatives_eq_some hn
    obtain rfl : s = [] := by simpa using h
    rwa [prefix_nil.mp hstart] at hs'
  | hunit u t hu ih => exact ih (by simpa using h)
  | hempty u t hu ih =>
    obtain ⟨s', hs', -, -, hlen⟩ := alternatives_eq_some hu
    rcases mem_cons.mp h with heq | h
    · obtain rfl : s = [] := by simpa using heq
      rwa [length_eq_zero_iff.mp hlen] at hs'
    · exact ih (by simpa using h)
  | hhit u t n hu ih =>
    obtain ⟨s', hs', -, htake, -⟩ := alternatives_eq_some hu
    rcases mem_cons.mp h with heq | h
    · obtain rfl : s = (u :: t).take (n + 1) := by simpa using heq
      rwa [htake]
    · exact ih h

end

section

/-- Neither text holds the other, and no end of one is a start of the other. -/
structure Clear (v w : List α) : Prop where
  outside : ¬ v <:+: w
  around : ¬ w <:+: v
  behind : ∀ x ≠ [], x <:+ v → ¬ x <+: w
  before : ∀ x ≠ [], x <+: v → ¬ x <:+ w

variable {f : List α → List α} {v w : List α} {ps : List (Piece α)}

theorem Clear.ne_nil (h : Clear v w) : v ≠ [] := by
  rintro rfl
  exact h.outside nil_infix

end

section

/-- `f` writes every hit between two separators. -/
def Fenced (sep : α) (f : List α → List α) (ps : List (Piece α)) : Prop :=
  ∀ s, .hit s ∈ ps → [sep] <+: f s ∧ [sep] <:+ f s

variable {sep : α} {f : List α → List α} {ps : List (Piece α)} {s : List α}

theorem Fenced.tail {p} (h : Fenced sep f (p :: ps)) : Fenced sep f ps :=
  fun s hs => h s (mem_cons_of_mem _ hs)

theorem units_of_prefix_render (hfence : Fenced sep f ps) (hsep : sep ∉ s) (h : s <+: render f ps) :
    ∃ rest, ps = s.map .unit ++ rest := by
  induction s generalizing ps with
  | nil => exact ⟨ps, rfl⟩
  | cons u s ih =>
    rw [mem_cons, not_or] at hsep
    cases ps with
    | nil => exact absurd (prefix_nil.mp h) (by simp)
    | cons p ps =>
      cases p with
      | unit v =>
        obtain ⟨rfl, htail⟩ := cons_prefix_cons.mp h
        obtain ⟨rest, rfl⟩ := ih hfence.tail hsep.2 htail
        exact ⟨rest, rfl⟩
      | hit t =>
        obtain ⟨body, hbody⟩ := (hfence t mem_cons_self).1
        rw [render_hit, ← hbody] at h
        exact absurd (cons_prefix_cons.mp h).1.symm hsep.1

/-- Text without the separator and not inside what is written for a hit is a run of units. -/
theorem units_of_infix_render (hne : s ≠ []) (hfence : Fenced sep f ps) (hsep : sep ∉ s)
    (hout : ∀ t, .hit t ∈ ps → ¬ s <:+: f t) (h : s <:+: render f ps) :
    ∃ before after, ps = before ++ s.map .unit ++ after := by
  induction ps with
  | nil => exact absurd (infix_nil.mp h) hne
  | cons p ps ih =>
    have htail : s <:+: render f ps → ∃ before after, p :: ps = before ++ s.map .unit ++ after := by
      intro hs
      obtain ⟨before, after, rfl⟩ := ih hfence.tail (fun t ht => hout t (mem_cons_of_mem _ ht)) hs
      exact ⟨p :: before, after, rfl⟩
    cases p with
    | unit u =>
      rcases infix_cons_iff.mp h with h | h
      · have hstart : s <+: render f (.unit u :: ps) := h
        obtain ⟨rest, hrest⟩ := units_of_prefix_render hfence hsep hstart
        exact ⟨[], rest, hrest⟩
      · exact htail h
    | hit t =>
      rw [render_hit] at h
      rcases infix_append_iff.mp h with h | h | ⟨left, right, rfl, hleft, hright⟩
      · exact absurd h (hout t mem_cons_self)
      · exact htail h
      · -- an occurrence that leaves the hit has its last separator, unless it starts behind it
        obtain ⟨body, hbody⟩ := (hfence t mem_cons_self).2
        rw [← hbody] at hleft
        rcases suffix_concat_iff.mp hleft with rfl | ⟨left, rfl, -⟩
        · exact htail hright.isInfix
        · simp at hsep

/-- Writing fenced text for hits does not make an absent text. -/
theorem absent_render_scan {m t} (hne : s ≠ []) (hfence : Fenced sep f (scan m t)) (hsep : sep ∉ s)
    (hout : ∀ t', .hit t' ∈ scan m t → ¬ s <:+: f t') (h : ¬ s <:+: t) : ¬ s <:+: render f (scan m t) := by
  intro hin
  obtain ⟨before, after, heq⟩ := units_of_infix_render hne hfence hsep hout hin
  have hsource := render_id_scan (m := m) t
  rw [heq, render_append, render_append, render_map_unit] at hsource
  exact h (hsource ▸ ⟨_, _, rfl⟩)

theorem literal_absent_render_scan [DecidableEq α] {literals t} (hne : ∀ s ∈ literals, s ≠ []) (hs : s ∈ literals)
    (hfence : Fenced sep f (scan (alternatives literals) t)) (hsep : sep ∉ s)
    (hout : ∀ t', .hit t' ∈ scan (alternatives literals) t → ¬ s <:+: f t') :
    ¬ s <:+: render f (scan (alternatives literals) t) := by
  intro hin
  obtain ⟨before, after, heq⟩ := units_of_infix_render (hne s hs) hfence hsep hout hin
  obtain ⟨u, s, rfl⟩ := exists_cons_of_ne_nil (hne s hs)
  rw [append_assoc] at heq
  have hsuffix : .unit u :: (s.map .unit ++ after) <:+ scan (alternatives literals) t := heq ▸ suffix_append _ _
  have hnone := eq_none_of_unit_suffix (alternatives_ne_zero hne) (alternatives_nil hne) hsuffix
  rw [render_append, render_map_unit] at hnone
  exact alternatives_eq_none.mp hnone _ hs (prefix_append (u :: s) _)

end

end GajaeCode.Text
