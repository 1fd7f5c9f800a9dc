import GajaeCode.Telegram.Markup

/-! Which placeholders a text holds, through the stages of the conversion, and when all of them are
restored. -/
namespace GajaeCode.Telegram

open Text List

/-! ### Text with placeholders -/

/-- A unit of the text or a whole placeholder. -/
inductive Atom where
  | unit (u : UInt16) (plain : u ≠ nulUnit)
  | holder (n : Nat)

namespace Atom

def render : Atom → JsStr
  | unit u _ => [u]
  | holder n => placeholder n

def number : Atom → Option Nat
  | unit _ _ => none
  | holder n => some n

end Atom

/-- Text in which NUL stands only in placeholders, with their numbers. -/
def Marked (text : JsStr) (numbers : List Nat) : Prop :=
  ∃ atoms : List Atom, text = atoms.flatMap Atom.render ∧ numbers = atoms.filterMap Atom.number

section

variable {a b text : JsStr} {m n numbers : List Nat}

theorem Marked.append (ha : Marked a m) (hb : Marked b n) : Marked (a ++ b) (m ++ n) := by
  obtain ⟨first, rfl, rfl⟩ := ha
  obtain ⟨last, rfl, rfl⟩ := hb
  exact ⟨first ++ last, flatMap_append.symm, filterMap_append.symm⟩

theorem marked_of_notMem (h : nulUnit ∉ text) : Marked text [] := by
  induction text with
  | nil => exact ⟨[], rfl, rfl⟩
  | cons u text ih =>
    obtain ⟨atoms, rfl, hnumbers⟩ := ih fun hmem => h (mem_cons_of_mem _ hmem)
    exact ⟨.unit u (fun hu => h (hu ▸ mem_cons_self)) :: atoms, rfl, hnumbers⟩

theorem marked_placeholder (k : Nat) : Marked (placeholder k) [k] :=
  ⟨[.holder k], (append_nil _).symm, rfl⟩

theorem Marked.surround (h : Marked text numbers) (ha : nulUnit ∉ a) (hb : nulUnit ∉ b) :
    Marked (a ++ text ++ b) numbers := by
  have hall := ((marked_of_notMem ha).append h).append (marked_of_notMem hb)
  rwa [append_nil] at hall

/-- A unit that no placeholder holds. -/
def IsBreak (u : UInt16) : Prop := u ≠ nulUnit ∧ u ∉ lit "ph" ∧ isDigit u = false

instance (u : UInt16) : Decidable (IsBreak u) := inferInstanceAs (Decidable (_ ∧ _))

theorem IsBreak.notMem_placeholder {u} (h : IsBreak u) (k : Nat) : u ∉ placeholder k := by
  intro hmem
  rcases mem_append.mp hmem with hmem | hmem
  · rcases mem_append.mp hmem with hmem | hmem
    · rcases mem_cons.mp hmem with hu | hmem
      · exact h.1 hu
      · exact h.2.1 hmem
    · exact Bool.noConfusion ((isDigit_of_mem_decimal hmem).symm.trans h.2.2)
  · exact h.1 (mem_singleton.mp hmem)

theorem Marked.cut {u} (hu : IsBreak u) (h : Marked (a ++ u :: b) numbers) :
    ∃ m n, numbers = m ++ n ∧ Marked a m ∧ Marked b n := by
  obtain ⟨atoms, htext, rfl⟩ := h
  have hatom : ∀ atom ∈ atoms, u ∈ atom.render → atom.render = [u] := by
    intro atom _ hmem
    cases atom with
    | unit v plain =>
      rw [Atom.render] at hmem ⊢
      rw [mem_singleton.mp hmem]
    | holder k => exact absurd hmem (hu.notMem_placeholder k)
  obtain ⟨first, atom, last, rfl, ha, hrender, hb⟩ := flatMap_eq_append_cons hatom htext.symm
  refine ⟨_, _, ?_, ⟨first, ha, rfl⟩, ⟨last, hb, rfl⟩⟩
  cases atom with
  | unit v plain => rw [filterMap_append]; rfl
  | holder k =>
    have hmem : u ∈ (Atom.holder k).render := hrender ▸ mem_singleton_self u
    exact absurd hmem (hu.notMem_placeholder k)

theorem Marked.eq_nil (h : Marked text numbers) (hnul : nulUnit ∉ text) : numbers = [] := by
  obtain ⟨atoms, rfl, rfl⟩ := h
  rw [filterMap_eq_nil_iff]
  intro atom hatom
  cases atom with
  | unit u plain => rfl
  | holder k => exact absurd (mem_flatMap.mpr ⟨_, hatom, mem_cons_self⟩) hnul

theorem Marked.of_append (ha : nulUnit ∉ a) (h : Marked (a ++ b) numbers) : Marked b numbers := by
  induction a with
  | nil => exact h
  | cons u a ih =>
    apply ih fun hmem => ha (mem_cons_of_mem _ hmem)
    obtain ⟨atoms, htext, hnumbers⟩ := h
    cases atoms with
    | nil => cases htext
    | cons atom atoms =>
      cases atom with
      | unit v plain => exact ⟨atoms, (List.cons.inj htext).2, hnumbers⟩
      | holder k => exact absurd (mem_cons.mpr (.inl (List.cons.inj htext).1.symm)) ha

end

/-! ### Restoring -/

variable {u : UInt16} {placeholders : List JsStr} {post s : JsStr}

theorem placeholderMatch_unit (hu : u ≠ nulUnit) (rest : JsStr) : placeholderMatch (u :: rest) = none := by
  have hstart : startsWith (u :: rest) (nulUnit :: lit "ph") = false := by
    change ((nulUnit == u) && _) = false
    rw [beq_eq_false_iff_ne.mpr hu.symm, Bool.false_and]
  simp only [placeholderMatch, hstart, Bool.false_eq_true, false_and, if_false]

theorem takeWhile_placeholder (k : Nat) (rest : JsStr) :
    ((placeholder k ++ rest).drop 3).takeWhile isDigit = decimal k := by
  have hdrop : (placeholder k ++ rest).drop 3 = decimal k ++ nulUnit :: rest := by
    change (decimal k ++ [nulUnit]) ++ rest = _
    rw [append_assoc]
    rfl
  rw [hdrop, takeWhile_append_of_pos fun u hu => isDigit_of_mem_decimal hu,
    takeWhile_cons_of_neg (by decide), append_nil]

theorem placeholderMatch_placeholder (k : Nat) (rest : JsStr) :
    placeholderMatch (placeholder k ++ rest) = some (placeholder k).length := by
  have hend : (placeholder k ++ rest)[3 + (decimal k).length]? = some nulUnit := by
    rw [← getElem?_drop]
    change ((decimal k ++ [nulUnit]) ++ rest)[(decimal k).length]? = _
    rw [append_assoc, getElem?_append_right (Nat.le_refl _), Nat.sub_self]
    rfl
  have hstart : startsWith (placeholder k ++ rest) (nulUnit :: lit "ph") = true := rfl
  simp only [placeholderMatch, takeWhile_placeholder, hstart, hend, decimal_ne_nil, ne_eq, not_false_eq_true, and_self,
    if_true]
  rw [placeholder, length_append, length_append]
  rfl

theorem restore_atoms (placeholders : List JsStr) (atoms : List Atom) :
    restore placeholders (atoms.flatMap Atom.render) = atoms.flatMap fun atom => match atom with
      | .unit u _ => [u]
      | .holder n => placeholders[n]?.getD [] := by
  induction atoms with
  | nil => rfl
  | cons atom atoms ih =>
    rw [flatMap_cons]
    cases atom with
    | unit u plain =>
      rw [restore, Atom.render, singleton_append, scan_unit (placeholderMatch_unit plain _)]
      exact congrArg (u :: ·) ih
    | holder k =>
      obtain ⟨length, hlength⟩ : ∃ length, (placeholder k).length = length + 1 := ⟨_, rfl⟩
      have hmatch := placeholderMatch_placeholder k (atoms.flatMap Atom.render)
      rw [hlength] at hmatch
      have hne : placeholder k ++ atoms.flatMap Atom.render ≠ [] := cons_ne_nil _ _
      rw [restore, Atom.render, scan_some hne hmatch, ← hlength, take_left, drop_left, Text.render_hit]
      refine congrArg₂ (· ++ ·) ?_ ih
      have hdigits := takeWhile_placeholder k []
      rw [append_nil] at hdigits
      rw [fragmentAt, hdigits, digitsValue_decimal]

/-- NUL remains just when a fragment that the text refers to holds it. -/
theorem nul_mem_restore_iff {text numbers} (h : Marked text numbers) :
    nulUnit ∈ restore placeholders text ↔ ∃ n ∈ numbers, ∃ fragment, placeholders[n]? = some fragment ∧ nulUnit ∈ fragment := by
  obtain ⟨atoms, rfl, rfl⟩ := h
  rw [restore_atoms, mem_flatMap]
  constructor
  · rintro ⟨atom, hatom, hmem⟩
    cases atom with
    | unit u plain => exact absurd (mem_singleton.mp hmem).symm plain
    | holder k =>
      refine ⟨k, mem_filterMap.mpr ⟨_, hatom, rfl⟩, ?_⟩
      cases hget : placeholders[k]? with
      | none => simp [hget] at hmem
      | some fragment => exact ⟨fragment, rfl, by simpa [hget] using hmem⟩
  · rintro ⟨n, hn, fragment, hget, hmem⟩
    obtain ⟨atom, hatom, hnumber⟩ := mem_filterMap.mp hn
    cases atom with
    | unit u plain => cases hnumber
    | holder k =>
      cases hnumber
      exact ⟨_, hatom, by simpa [hget] using hmem⟩

/-! ### Stashing -/

def HasNul (placeholders : List JsStr) : Prop := ∃ fragment ∈ placeholders, nulUnit ∈ fragment

/-- If a fragment holds NUL, the text refers to such a one. -/
def Tracked (placeholders : List JsStr) (text : JsStr) : Prop :=
  ∃ numbers, Marked text numbers ∧ (HasNul placeholders →
    ∃ n ∈ numbers, ∃ fragment, placeholders[n]? = some fragment ∧ nulUnit ∈ fragment)

theorem Tracked.nul_mem_restore_iff {text} (h : Tracked placeholders text) :
    nulUnit ∈ restore placeholders text ↔ HasNul placeholders := by
  obtain ⟨numbers, hmarked, hlive⟩ := h
  rw [Telegram.nul_mem_restore_iff hmarked]
  constructor
  · rintro ⟨n, -, fragment, hget, hmem⟩
    exact ⟨fragment, mem_of_getElem? hget, hmem⟩
  · exact hlive

theorem Tracked.stash {pre mid fragment : JsStr} {v} (hu : IsBreak u) (hv : IsBreak v)
    (hfragment : nulUnit ∈ mid → nulUnit ∈ fragment) (h : Tracked placeholders (pre ++ (u :: mid ++ [v]) ++ post)) :
    Tracked (placeholders ++ [fragment]) (pre ++ placeholder placeholders.length ++ post) := by
  obtain ⟨numbers, hmarked, hlive⟩ := h
  have hparts : pre ++ (u :: mid ++ [v]) ++ post = pre ++ u :: (mid ++ v :: post) := by
    simp only [append_assoc, cons_append, nil_append]
  rw [hparts] at hmarked
  obtain ⟨first, rest, rfl, hpre, hrest⟩ := hmarked.cut hu
  obtain ⟨middle, last, rfl, hmid, hpost⟩ := hrest.cut hv
  refine ⟨_, (hpre.append (marked_placeholder placeholders.length)).append hpost, ?_⟩
  by_cases hnul : nulUnit ∈ fragment
  · intro _
    refine ⟨placeholders.length, by simp, fragment, ?_, hnul⟩
    rw [getElem?_append_right (Nat.le_refl _), Nat.sub_self]
    rfl
  · rintro ⟨other, hother, hmem⟩
    have hold : HasNul placeholders := by
      rcases mem_append.mp hother with hother | hother
      · exact ⟨other, hother, hmem⟩
      · exact absurd (mem_singleton.mp hother ▸ hmem) hnul
    obtain ⟨n, hn, found, hget, hfound⟩ := hlive hold
    rw [hmid.eq_nil fun hmid => hnul (hfragment hmid)] at hn
    refine ⟨n, ?_, found, ?_, hfound⟩
    · rw [append_assoc]
      exact mem_append.mpr ((mem_append.mp hn).imp_right (mem_cons_of_mem _))
    · rw [getElem?_append_left (List.getElem?_eq_some_iff.mp hget).1, hget]

theorem stashHits_invariant {m : JsStr → Option Nat} (hm : IsMatcher m) {html}
    {P : List JsStr → JsStr → Prop} {text : JsStr}
    (step : ∀ placeholders pre s post fragment, s ∈ hits (scan m text) → m (s ++ post) = some s.length →
      html s = some fragment → P placeholders (pre ++ s ++ post) →
      P (placeholders ++ [fragment]) (pre ++ placeholder placeholders.length ++ post))
    (placeholders : List JsStr) (pre : JsStr) (h : P placeholders (pre ++ text)) :
    P (stashHits html placeholders (scan m text)).placeholders
      (pre ++ (stashHits html placeholders (scan m text)).text) := by
  induction text using scan_induction (m := m) generalizing placeholders pre with
  | hnil _ => exact h
  | hend n hn => exact absurd (hm.nil.symm.trans hn) nofun
  | hunit u t hu ih =>
    have hrest := ih step placeholders (pre ++ [u])
    rw [append_assoc, append_assoc] at hrest
    exact hrest h
  | hempty u t hu ih => exact absurd hu (hm.pos _)
  | hhit u t n hu ih =>
    have htail := ih fun placeholders pre s post fragment hs => step placeholders pre s post fragment (mem_cons_of_mem _ hs)
    have hmatch := hm.split hu
    have hsplit : P placeholders (pre ++ (u :: t).take (n + 1) ++ (u :: t).drop (n + 1)) := by
      rwa [append_assoc, take_append_drop]
    rw [stashHits]
    cases hhtml : html ((u :: t).take (n + 1)) with
    | none =>
      have hrest := htail placeholders _ hsplit
      rw [append_assoc] at hrest
      exact hrest
    | some fragment =>
      have hrest := htail _ _ (step placeholders pre _ _ fragment mem_cons_self hmatch hhtml hsplit)
      rw [append_assoc] at hrest
      exact hrest

/-! ### Matched constructs -/

def tickUnit : UInt16 := ascii '\x60'

theorem exists_mid {v} (hlength : 2 ≤ s.length) (hfirst : s.head? = some u)
    (hlast : s.getLast? = some v) : ∃ mid, s = u :: mid ++ [v] := by
  obtain ⟨rest, rfl⟩ := head?_eq_some_iff.mp hfirst
  have hne : rest ≠ [] := by
    rintro rfl
    simp at hlength
  rw [getLast?_cons_of_ne_nil hne] at hlast
  obtain ⟨mid, rfl⟩ := getLast?_eq_some_iff.mp hlast
  exact ⟨mid, rfl⟩

theorem fencedMatch_eq_some {text n} (h : fencedMatch text = some n) :
    ∃ j, n = j + 3 ∧ 3 ≤ j ∧ fence <+: text ∧ fence <+: text.drop j := by
  simp only [fencedMatch] at h
  split_ifs at h with hstart
  have hfence := isPrefixOf_iff_prefix.mp hstart
  generalize hline : (text.drop 3).takeWhile (fun u => decide (u ≠ LF)) = line at h
  cases hindex : indexOf fence (text.drop (3 + line.length + 1)) with
  | some i =>
    rw [hindex] at h
    injection h with h
    refine ⟨3 + line.length + 1 + i, h.symm, by omega, hfence, ?_⟩
    rw [← drop_drop]
    have hfound := find?_some hindex
    exact isPrefixOf_iff_prefix.mp hfound
  | none =>
    rw [hindex] at h
    obtain ⟨i, hlast, hn⟩ := Option.map_eq_some_iff.mp h
    refine ⟨3 + i, hn.symm, by omega, hfence, ?_⟩
    rw [← drop_drop]
    have hfound := find?_some hlast
    refine (List.isPrefixOf_iff_prefix.mp hfound).trans ?_
    rw [← hline]
    exact (List.takeWhile_prefix _).drop i

theorem isMatcher_fencedMatch : IsMatcher fencedMatch where
  pos := by
    intro t h
    obtain ⟨j, hn, hj, -, -⟩ := fencedMatch_eq_some h
    omega
  le := by
    intro t n h
    obtain ⟨j, hn, hj, -, hend⟩ := fencedMatch_eq_some h
    have hlength := hend.length_le
    rw [length_drop, show fence.length = 3 from rfl] at hlength
    omega

theorem fencedMatch_split (h : fencedMatch (s ++ post) = some s.length) : ∃ mid, s = tickUnit :: mid ++ [tickUnit] := by
  obtain ⟨j, hn, hj, ⟨rest, hstart⟩, ⟨after, hend⟩⟩ := fencedMatch_eq_some h
  apply exists_mid (by omega)
  · have hne : s ≠ [] := by
      rintro rfl
      simp at hn
    rw [← head?_append_of_ne_nil s hne, ← hstart]
    rfl
  · have hget : (s ++ post)[j + 2]? = some tickUnit := by
      rw [← getElem?_drop, ← hend]
      rfl
    rw [getElem?_append_left (by omega)] at hget
    rw [getLast?_eq_getElem?, ← hget]
    congr 1
    omega

theorem inlineCode_split (h : inlineCode (s ++ post) = some s.length) :
    s = tickUnit :: delimitedBody 1 s ++ [tickUnit] :=
  (delimited_match h).1

theorem linkMatch_eq_some {text n} (h : linkMatch text = some n) :
    ∃ label url post, text = ascii '[' :: label ++ lit "](" ++ url ++ [ascii ')'] ++ post ∧
      (∀ u ∈ label, otherThan (ascii ']') u = true) ∧ (∀ u ∈ url, isUrlUnit u = true) ∧
      n = 1 + label.length + 2 + url.length + 1 := by
  simp only [linkMatch] at h
  split_ifs at h with hc
  injection h with h
  obtain ⟨hopen, -, hmiddle, -, hend⟩ := hc
  obtain ⟨rest, rfl⟩ := head?_eq_some_iff.mp hopen
  obtain ⟨tail, htail⟩ : linkLabel (ascii '[' :: rest) <+: rest := takeWhile_prefix _
  have hlabel : ∀ u ∈ linkLabel (ascii '[' :: rest), otherThan (ascii ']') u = true := fun u hu => mem_takeWhile_imp hu
  have hurl : ∀ u ∈ linkUrl (ascii '[' :: rest), isUrlUnit u = true := fun u hu => mem_takeWhile_imp hu
  have hurl' : linkUrl (ascii '[' :: rest) <+: (ascii '[' :: rest).drop (1 + (linkLabel (ascii '[' :: rest)).length + 2) :=
    takeWhile_prefix _
  generalize linkUrl (ascii '[' :: rest) = url at *
  generalize linkLabel (ascii '[' :: rest) = label at *
  subst htail
  have hdrop : ∀ k, (ascii '[' :: (label ++ tail)).drop (1 + label.length + k) = tail.drop k := by
    intro k
    rw [← drop_drop, ← cons_append, drop_left' (by rw [length_cons, Nat.add_comm])]
  rw [hdrop] at hurl'
  have hmiddle' : tail = lit "](" ++ tail.drop 2 := by
    rw [← hmiddle]
    have hzero := hdrop 0
    rw [Nat.add_zero, drop_zero] at hzero
    rw [hzero, take_append_drop]
  obtain ⟨after, hafter⟩ := hurl'
  have hclose : after.head? = some (ascii ')') := by
    rw [Nat.add_assoc, ← getElem?_drop, ← Nat.add_zero (1 + label.length), hdrop, drop_zero,
      ← getElem?_drop, ← hafter, getElem?_append_right (Nat.le_refl _), Nat.sub_self] at hend
    rwa [head?_eq_getElem?]
  obtain ⟨post, rfl⟩ := head?_eq_some_iff.mp hclose
  refine ⟨label, url, post, ?_, hlabel, hurl, h.symm⟩
  rw [hmiddle', ← hafter]
  simp only [cons_append, append_assoc, nil_append]

theorem isMatcher_linkMatch : IsMatcher linkMatch where
  pos := by
    intro t h
    obtain ⟨label, url, post, -, -, -, hn⟩ := linkMatch_eq_some h
    omega
  le := by
    intro t n h
    obtain ⟨label, url, post, rfl, -, -, rfl⟩ := linkMatch_eq_some h
    have hlength : (lit "](").length = 2 := rfl
    simp only [length_append, length_cons, length_nil, hlength]
    omega

theorem linkMatch_split (h : linkMatch (s ++ post) = some s.length) :
    s = ascii '[' :: (linkLabel s ++ lit "](" ++ linkUrl s) ++ [ascii ')'] := by
  obtain ⟨label, url, after, ht, hlabel, hurl, hn⟩ := linkMatch_eq_some h
  have hs : s = ascii '[' :: label ++ lit "](" ++ url ++ [ascii ')'] := by
    refine (append_inj ht ?_).1
    have hlength : (lit "](").length = 2 := rfl
    simp only [hn, length_append, length_cons, length_nil, hlength]
    omega
  have hlabel' : linkLabel s = label := by
    rw [hs, linkLabel, append_assoc, append_assoc, cons_append, drop_one, tail_cons, takeWhile_append_of_pos hlabel]
    exact append_nil _
  have hurl' : linkUrl s = url := by
    have hdrop : s.drop (1 + label.length + 2) = url ++ [ascii ')'] := by
      rw [hs, append_assoc]
      refine drop_left' ?_
      have hlength : (lit "](").length = 2 := rfl
      simp only [length_append, length_cons, hlength]
      omega
    rw [linkUrl, hlabel', hdrop, takeWhile_append_of_pos hurl]
    exact append_nil _
  rw [hlabel', hurl', hs]
  simp only [cons_append, append_assoc]

end GajaeCode.Telegram
