import GajaeCode.Text.Scan

/-! Replacing the matches of a pattern one by one, and the pattern of a text between delimiters. -/
namespace GajaeCode.Text
open List

variable {α : Type*}

/-- A pattern that matches no empty text, and only what is there. -/
structure IsMatcher (m : List α → Option Nat) : Prop where
  pos : ∀ t, m t ≠ some 0
  le : ∀ t n, m t = some n → n ≤ t.length

variable {m : List α → Option Nat} {t : List α}

theorem IsMatcher.nil (hm : IsMatcher m) : m [] = none := by
  cases h : m [] with
  | none => rfl
  | some n => exact absurd (Nat.le_zero.mp (hm.le [] n h) ▸ h) (hm.pos [])

theorem IsMatcher.split (hm : IsMatcher m) {n} (h : m t = some n) :
    m (t.take n ++ t.drop n) = some (t.take n).length := by
  rw [take_append_drop, length_take, Nat.min_eq_left (hm.le t n h), h]

def hits (ps : List (Piece α)) : List (List α) :=
  ps.filterMap fun
    | .unit _ => none
    | .hit s => some s

@[simp] theorem hits_nil : hits ([] : List (Piece α)) = [] := rfl

@[simp] theorem hits_unit (u : α) (ps : List (Piece α)) : hits (.unit u :: ps) = hits ps := rfl

@[simp] theorem hits_hit (s : List α) (ps : List (Piece α)) : hits (.hit s :: ps) = s :: hits ps := rfl

theorem exists_split_of_hit (hm : IsMatcher m) {s} (h : s ∈ hits (scan m t)) :
    ∃ pre post, t = pre ++ s ++ post ∧ m (s ++ post) = some s.length := by
  induction t using scan_induction (m := m) with
  | hnil _ => cases h
  | hend n hn => exact absurd (hm.nil.symm.trans hn) nofun
  | hunit u t hu ih =>
    obtain ⟨pre, post, ht, hmatch⟩ := ih h
    exact ⟨u :: pre, post, congrArg (u :: ·) ht, hmatch⟩
  | hempty u t hu ih => exact absurd hu (hm.pos _)
  | hhit u t n hu ih =>
    rcases mem_cons.mp h with rfl | h
    · exact ⟨[], _, (take_append_drop (n + 1) (u :: t)).symm, hm.split hu⟩
    · obtain ⟨pre, post, ht, hmatch⟩ := ih h
      refine ⟨(u :: t).take (n + 1) ++ pre, post, ?_, hmatch⟩
      rw [append_assoc, append_assoc, ← append_assoc pre, ← ht, take_append_drop]

theorem render_scan_invariant (hm : IsMatcher m) {f} {P : List α → Prop}
    (step : ∀ pre s post, s ∈ hits (scan m t) → m (s ++ post) = some s.length →
      P (pre ++ s ++ post) → P (pre ++ f s ++ post)) (pre : List α) (h : P (pre ++ t)) : P (pre ++ render f (scan m t)) := by
  induction t using scan_induction (m := m) generalizing pre with
  | hnil _ => exact h
  | hend n hn => exact absurd (hm.nil.symm.trans hn) nofun
  | hunit u t hu ih =>
    have hrest := ih step (pre ++ [u])
    rw [append_assoc, append_assoc] at hrest
    exact hrest h
  | hempty u t hu ih => exact absurd hu (hm.pos _)
  | hhit u t n hu ih =>
    rw [render_hit, ← append_assoc]
    apply ih fun pre s post hs => step pre s post (mem_cons_of_mem _ hs)
    apply step pre _ _ mem_cons_self (hm.split hu)
    rwa [append_assoc, take_append_drop]

/-- A relation between texts that holds of equal ones and is kept by replacing the first match holds
between a text and what replacing all matches gives. -/
theorem render_scan_rel (hm : IsMatcher m) {f} {R : List α → List α → Prop}
    (refl : ∀ t, R t t) (step : ∀ pre s post result, m (s ++ post) = some s.length → R post result →
      R (pre ++ s ++ post) (pre ++ f s ++ result)) (pre t : List α) : R (pre ++ t) (pre ++ render f (scan m t)) := by
  induction t using scan_induction (m := m) generalizing pre with
  | hnil _ => exact refl _
  | hend n hn => exact absurd (hm.nil.symm.trans hn) nofun
  | hunit u t hu ih =>
    have hrest := ih (pre ++ [u])
    rw [append_assoc, append_assoc] at hrest
    exact hrest
  | hempty u t hu ih => exact absurd hu (hm.pos _)
  | hhit u t n hu ih =>
    have hrest := step pre _ _ _ (hm.split hu) (ih [])
    rw [append_assoc, take_append_drop, append_assoc] at hrest
    exact hrest

theorem replicate_append_comm (u : α) (k : Nat) (rest : List α) :
    replicate (k + 1) u ++ rest = replicate k u ++ u :: rest := by
  rw [replicate_succ', append_assoc, singleton_append]

theorem delimiters_around (u : α) (k : Nat) (pre body post : List α) :
    pre ++ (replicate (k + 1) u ++ body ++ replicate (k + 1) u) ++ post =
      (pre ++ replicate k u) ++ u :: (body ++ u :: (replicate k u ++ post)) := by
  simp only [append_assoc]
  rw [replicate_append_comm, replicate_succ, cons_append]

section

variable [DecidableEq α] (d : α) (k : Nat) (inside : α → Bool)

/-- The expression `d{k}[inside]+d{k}` for a class without `d`. -/
def delimited (t : List α) : Option Nat :=
  let body := (t.drop k).takeWhile inside
  if t.take k = replicate k d ∧ body ≠ [] ∧
      (t.drop (k + body.length)).take k = replicate k d then some (k + body.length + k)
  else none

/-- What the group of the expression holds. -/
def delimitedBody (s : List α) : List α := (s.drop k).take (s.length - 2 * k)

variable {d k inside}

omit [DecidableEq α] in
theorem delimitedBody_eq (body : List α) : delimitedBody k (replicate k d ++ body ++ replicate k d) = body := by
  have hlength : (replicate k d ++ body ++ replicate k d).length - 2 * k = body.length := by
    simp only [length_append, length_replicate]
    omega
  rw [delimitedBody, hlength, append_assoc, drop_left' (length_replicate ..), take_left]

theorem delimited_eq_some {t n} (h : delimited d k inside t = some n) :
    ∃ body post, t = replicate k d ++ body ++ replicate k d ++ post ∧ body ≠ [] ∧
      (∀ u ∈ body, inside u = true) ∧ n = k + body.length + k := by
  simp only [delimited] at h
  generalize hbody : (t.drop k).takeWhile inside = body at h
  split_ifs at h with hc
  injection h with h
  obtain ⟨hopen, hne, hclose⟩ := hc
  refine ⟨body, (t.drop (k + body.length)).drop k, ?_, hne, ?_, h.symm⟩
  · have hmiddle : t.drop k = body ++ t.drop (k + body.length) := by
      obtain ⟨rest, hrest⟩ := hbody ▸ takeWhile_prefix (l := t.drop k) inside
      rw [← drop_drop, ← hrest, drop_left]
    calc t = t.take k ++ t.drop k := (take_append_drop k t).symm
      _ = replicate k d ++ (body ++ t.drop (k + body.length)) := by rw [hopen, hmiddle]
      _ = replicate k d ++ (body ++ (replicate k d ++ (t.drop (k + body.length)).drop k)) := by
          conv_lhs => rw [← take_append_drop k (t.drop (k + body.length)), hclose]
      _ = _ := by simp only [append_assoc]
  · intro u hu
    rw [← hbody] at hu
    exact mem_takeWhile_imp hu

theorem isMatcher_delimited : IsMatcher (delimited d k inside) where
  pos := by
    intro t h
    obtain ⟨body, post, -, hne, -, hn⟩ := delimited_eq_some h
    have := length_pos_of_ne_nil hne
    omega
  le := by
    intro t n h
    obtain ⟨body, post, rfl, -, -, rfl⟩ := delimited_eq_some h
    simp only [length_append, length_replicate]
    omega

theorem delimited_match {s post} (h : delimited d k inside (s ++ post) = some s.length) :
    s = replicate k d ++ delimitedBody k s ++ replicate k d ∧ delimitedBody k s ≠ [] ∧
      ∀ u ∈ delimitedBody k s, inside u = true := by
  obtain ⟨body, after, ht, hne, hinside, hn⟩ := delimited_eq_some h
  have hs : s = replicate k d ++ body ++ replicate k d := by
    refine (append_inj ht ?_).1
    simp only [length_append, length_replicate]
    omega
  have hbody : delimitedBody k s = body := by rw [hs, delimitedBody_eq]
  rw [hbody]
  exact ⟨hs, hne, hinside⟩

end

end GajaeCode.Text
