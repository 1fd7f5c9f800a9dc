import GajaeCode.Text.Pattern

/-! The regular expressions of JavaScript as `test` runs them: classes of units as ranges, greedy
repetitions, anchors, word boundaries and looks ahead. -/
namespace GajaeCode.Text
open List

structure UnitClass where
  ranges : List (UInt16 × UInt16)
  negated : Bool
deriving DecidableEq

namespace UnitClass

def has (c : UnitClass) (u : UInt16) : Bool :=
  (c.ranges.any fun r => decide (r.1 ≤ u ∧ u ≤ r.2)) != c.negated

def of (units : String) : UnitClass := ⟨(lit units).map fun u => (u, u), false⟩

/-- Both written without a `^`. -/
def union (c d : UnitClass) : UnitClass := ⟨c.ranges ++ d.ranges, false⟩

def complement (c : UnitClass) : UnitClass := { c with negated := !c.negated }

/-- Every range of `c` lies in a range of `d`. -/
def within (c d : UnitClass) : Bool :=
  !c.negated && !d.negated && c.ranges.all fun r => d.ranges.any fun r' => r'.1 ≤ r.1 && r.2 ≤ r'.2

/-- No range of `c` meets a range of `d`. -/
def apart (c d : UnitClass) : Bool :=
  !c.negated && !d.negated && c.ranges.all fun r => d.ranges.all fun r' => r.2 < r'.1 || r'.2 < r.1

variable {c d : UnitClass} {u : UInt16}

theorem has_iff (hc : c.negated = false) : c.has u = true ↔ ∃ r ∈ c.ranges, r.1 ≤ u ∧ u ≤ r.2 := by
  simp [has, hc]

theorem has_union (hc : c.negated = false) (hd : d.negated = false) :
    (c.union d).has u = true ↔ c.has u = true ∨ d.has u = true := by
  rw [has_iff hc, has_iff hd, has_iff rfl, union]
  simp only [mem_append, or_and_right, exists_or]

theorem within_has (h : c.within d = true) (hu : c.has u = true) : d.has u = true := by
  simp only [within, Bool.and_eq_true, Bool.not_eq_true', all_eq_true, any_eq_true, decide_eq_true_eq] at h
  obtain ⟨⟨hc, hd⟩, hall⟩ := h
  obtain ⟨r, hr, hlo, hhi⟩ := (has_iff hc).mp hu
  obtain ⟨r', hr', hlo', hhi'⟩ := hall r hr
  exact (has_iff hd).mpr ⟨r', hr', UInt16.le_trans hlo' hlo, UInt16.le_trans hhi hhi'⟩

theorem apart_has (h : c.apart d = true) (hu : c.has u = true) : d.has u = false := by
  simp only [apart, Bool.and_eq_true, Bool.not_eq_true', all_eq_true, Bool.or_eq_true, decide_eq_true_eq] at h
  obtain ⟨⟨hc, hd⟩, hall⟩ := h
  obtain ⟨r, hr, hlo, hhi⟩ := (has_iff hc).mp hu
  refine Bool.eq_false_iff.mpr fun hdu => ?_
  obtain ⟨r', hr', hlo', hhi'⟩ := (has_iff hd).mp hdu
  rcases hall r hr r' hr' with hlt | hlt
  · exact UInt16.lt_irrefl _ (UInt16.lt_of_lt_of_le hlt (UInt16.le_trans hlo' hhi))
  · exact UInt16.lt_irrefl _ (UInt16.lt_of_lt_of_le hlt (UInt16.le_trans hlo hhi'))

end UnitClass

/-- `\s`. -/
def spaceClass : UnitClass :=
  ⟨[(0x09, 0x0d), (0x20, 0x20), (0xa0, 0xa0), (0x1680, 0x1680), (0x2000, 0x200a), (0x2028, 0x2029),
    (0x202f, 0x202f), (0x205f, 0x205f), (0x3000, 0x3000), (0xfeff, 0xfeff)], false⟩

/-- `\d`. -/
def digitClass : UnitClass := ⟨[(0x30, 0x39)], false⟩

/-- `\w`. -/
def wordClass : UnitClass := ⟨[(0x41, 0x5a), (0x61, 0x7a), (0x30, 0x39), (0x5f, 0x5f)], false⟩

/-- `.` without the flag `s`. -/
def dotClass : UnitClass := ⟨[(0x0a, 0x0a), (0x0d, 0x0d), (0x2028, 0x2029)], true⟩

/-- `.` with the flag `s`. -/
def anyClass : UnitClass := ⟨[], true⟩

theorem has_spaceClass (u : UInt16) : spaceClass.has u = isJsWhitespace u := by
  rw [Bool.eq_iff_iff, UnitClass.has_iff rfl]
  simp only [spaceClass, isJsWhitespace, mem_cons, not_mem_nil, Bool.or_eq_true, beq_iff_eq,
    Bool.and_eq_true, decide_eq_true_eq, UInt16.le_iff_toNat_le, ← UInt16.toNat_inj, exists_eq_or_imp,
    or_false, exists_eq_left]
  simp only [UInt16.reduceToNat]
  omega

inductive RegExp where
  | empty
  | cls (c : UnitClass)
  /-- A class repeated at least `lo` times. -/
  | rep (c : UnitClass) (lo : Nat)
  | seq (r t : RegExp)
  | alt (r t : RegExp)
  | star (r : RegExp)
  /-- `^` without the flag `m`. -/
  | start
  /-- `^` with the flag `m`. -/
  | lineStart
  | stop
  | boundary
  | ahead (r : RegExp)
  | notAhead (r : RegExp)

namespace RegExp

def opt (r : RegExp) : RegExp := .alt r .empty

def seqs : List RegExp → RegExp
  | [] => .empty
  | [r] => r
  | r :: rs => .seq r (seqs rs)

/-- `first` is what nothing else precedes. -/
def alts (first : RegExp) : List RegExp → RegExp
  | [] => first
  | r :: rs => .alt first (alts r rs)

def literal (w : String) : RegExp := seqs ((lit w).map fun u => .cls ⟨[(u, u)], false⟩)

/-- Under the flag `i`. -/
def literalCase (w : String) : RegExp :=
  seqs (w.toList.map fun c => .cls (.of (String.ofList [c.toLower, c.toUpper])))

/-- `^r$`. -/
def whole (r : RegExp) : RegExp := .seq .start (.seq r .stop)

/-- What has been read, the last unit first, and what is left. -/
abbrev Continue := JsStr → JsStr → Bool

def runRep (c : UnitClass) : Nat → JsStr → JsStr → Continue → Bool
  | lo, before, [], k => lo == 0 && k before []
  | lo, before, u :: s, k => (c.has u && runRep c (lo - 1) (u :: before) s k) || (lo == 0 && k before (u :: s))

/-- An iteration that takes nothing is not one. -/
def runStar (body : JsStr → JsStr → Continue → Bool) : Nat → JsStr → JsStr → Continue → Bool
  | 0, before, s, k => k before s
  | n + 1, before, s, k =>
    (body before s fun before rest => decide (rest.length < s.length) && runStar body n before rest k) || k before s

def wordAt (s : JsStr) : Bool :=
  match s with
  | [] => false
  | u :: _ => wordClass.has u

def run : RegExp → JsStr → JsStr → Continue → Bool
  | .empty, before, s, k => k before s
  | .cls c, before, s, k =>
    match s with
    | [] => false
    | u :: s => c.has u && k (u :: before) s
  | .rep c lo, before, s, k => runRep c lo before s k
  | .seq r t, before, s, k => r.run before s fun before rest => t.run before rest k
  | .alt r t, before, s, k => r.run before s k || t.run before s k
  | .star r, before, s, k => runStar r.run s.length before s k
  | .start, before, s, k => before.isEmpty && k before s
  | .lineStart, before, s, k =>
    (match before with
      | [] => true
      | u :: _ => !dotClass.has u) && k before s
  | .stop, before, s, k => s.isEmpty && k before s
  | .boundary, before, s, k => (wordAt before != wordAt s) && k before s
  | .ahead r, before, s, k => (r.run before s fun _ _ => true) && k before s
  | .notAhead r, before, s, k => !(r.run before s fun _ _ => true) && k before s

def testFrom (r : RegExp) : JsStr → JsStr → Bool
  | before, [] => r.run before [] fun _ _ => true
  | before, u :: s => (r.run before (u :: s) fun _ _ => true) || testFrom r (u :: before) s

/-- `r.test(s)`. -/
def test (r : RegExp) (s : JsStr) : Bool := testFrom r [] s

/-- Nothing of the expression looks around. -/
def plain : RegExp → Bool
  | .empty | .cls _ | .rep _ _ => true
  | .seq r t | .alt r t => r.plain && t.plain
  | .star r => r.plain
  | .start | .lineStart | .stop | .boundary | .ahead _ | .notAhead _ => false

/-- The texts of a plain expression. -/
inductive Matches : RegExp → JsStr → Prop where
  | empty : Matches .empty []
  | cls {c : UnitClass} {u : UInt16} (hu : c.has u = true) : Matches (.cls c) [u]
  | rep {c : UnitClass} {lo : Nat} {s : JsStr} (hall : ∀ u ∈ s, c.has u = true) (hlen : lo ≤ s.length) :
      Matches (.rep c lo) s
  | seq {r t : RegExp} {s s' : JsStr} (hr : Matches r s) (ht : Matches t s') : Matches (.seq r t) (s ++ s')
  | left {r t : RegExp} {s : JsStr} (hr : Matches r s) : Matches (.alt r t) s
  | right {r t : RegExp} {s : JsStr} (ht : Matches t s) : Matches (.alt r t) s
  | done {r : RegExp} : Matches (.star r) []
  | more {r : RegExp} {s s' : JsStr} (hne : s ≠ []) (hr : Matches r s) (hrest : Matches (.star r) s') :
      Matches (.star r) (s ++ s')

/-- What `run` does with an expression that has the texts `L`. -/
def Runs (body : JsStr → JsStr → Continue → Bool) (L : JsStr → Prop) : Prop :=
  ∀ before s k, body before s k = true ↔
    ∃ taken rest, s = taken ++ rest ∧ L taken ∧ k (taken.reverse ++ before) rest = true

theorem runRep_iff (c : UnitClass) (lo : Nat) (before s : JsStr) (k : Continue) :
    runRep c lo before s k = true ↔ ∃ taken rest, s = taken ++ rest ∧
      ((∀ u ∈ taken, c.has u = true) ∧ lo ≤ taken.length) ∧ k (taken.reverse ++ before) rest = true := by
  induction s generalizing lo before with
  | nil =>
    simp only [runRep, Bool.and_eq_true, beq_iff_eq]
    constructor
    · rintro ⟨rfl, hk⟩
      exact ⟨[], [], rfl, ⟨nofun, Nat.le_refl 0⟩, hk⟩
    · rintro ⟨taken, rest, hs, ⟨-, hlen⟩, hk⟩
      obtain ⟨rfl, rfl⟩ := append_eq_nil_iff.mp hs.symm
      exact ⟨Nat.le_zero.mp hlen, hk⟩
  | cons u s ih =>
    simp only [runRep, Bool.or_eq_true, Bool.and_eq_true, beq_iff_eq, ih]
    constructor
    · rintro (⟨hu, taken, rest, rfl, ⟨hall, hlen⟩, hk⟩ | ⟨rfl, hk⟩)
      · refine ⟨u :: taken, rest, rfl, ⟨forall_mem_cons.mpr ⟨hu, hall⟩, ?_⟩, ?_⟩
        · rw [length_cons]
          omega
        · simpa using hk
      · exact ⟨[], u :: s, rfl, ⟨nofun, Nat.zero_le _⟩, hk⟩
    · rintro ⟨taken, rest, hs, ⟨hall, hlen⟩, hk⟩
      cases taken with
      | nil =>
        obtain rfl : u :: s = rest := hs
        exact .inr ⟨Nat.le_zero.mp hlen, hk⟩
      | cons v taken =>
        obtain ⟨rfl, rfl⟩ : u = v ∧ s = taken ++ rest := by simpa using hs
        refine .inl ⟨hall u (mem_cons_self ..), taken, rest, rfl, ⟨(forall_mem_cons.mp hall).2, ?_⟩, ?_⟩
        · rw [length_cons] at hlen
          omega
        · simpa using hk

theorem runStar_iff {r} (hr : Runs r.run (Matches r)) {n before s k}
    (hn : s.length ≤ n) : runStar r.run n before s k = true ↔
      ∃ taken rest, s = taken ++ rest ∧ Matches (.star r) taken ∧ k (taken.reverse ++ before) rest = true := by
  induction n generalizing before s with
  | zero =>
    obtain rfl := length_eq_zero_iff.mp (Nat.le_zero.mp hn)
    constructor
    · intro hk
      exact ⟨[], [], rfl, .done, hk⟩
    · rintro ⟨taken, rest, hs, -, hk⟩
      obtain ⟨rfl, rfl⟩ := append_eq_nil_iff.mp hs.symm
      exact hk
  | succ n ih =>
    rw [runStar, Bool.or_eq_true, hr]
    constructor
    · rintro (⟨taken, rest, rfl, hmatch, hmore⟩ | hk)
      · obtain ⟨hlt, hmore⟩ := Bool.and_eq_true_iff.mp hmore
        have hlt : rest.length < (taken ++ rest).length := of_decide_eq_true hlt
        obtain ⟨taken', rest', rfl, hstar, hk⟩ := (ih (by omega)).mp hmore
        refine ⟨taken ++ taken', rest', (append_assoc ..).symm, .more ?_ hmatch hstar, ?_⟩
        · rintro rfl
          exact Nat.lt_irrefl _ hlt
        · simpa using hk
      · exact ⟨[], s, rfl, .done, hk⟩
    · rintro ⟨taken, rest, rfl, hstar, hk⟩
      cases hstar with
      | done => exact .inr hk
      | @more _ one others hne hone hothers =>
        have hpos : 0 < one.length := length_pos_iff.mpr hne
        rw [append_assoc, length_append] at hn
        refine .inl ⟨one, others ++ rest, by rw [append_assoc], hone, ?_⟩
        refine Bool.and_eq_true_iff.mpr ⟨decide_eq_true ?_, ?_⟩
        · rw [append_assoc, @length_append _ one]
          omega
        · exact (ih (by omega)).mpr ⟨others, rest, rfl, hothers, by simpa using hk⟩

theorem run_iff {r} (hplain : r.plain = true) : Runs r.run (Matches r) := by
  induction r with
  | empty =>
    intro before s k
    constructor
    · intro hk
      exact ⟨[], s, rfl, .empty, hk⟩
    · rintro ⟨taken, rest, rfl, hmatch, hk⟩
      cases hmatch
      exact hk
  | cls c =>
    intro before s k
    cases s with
    | nil =>
      refine ⟨nofun, ?_⟩
      rintro ⟨taken, rest, hs, hmatch, -⟩
      cases hmatch
      cases hs
    | cons u s =>
      rw [run, Bool.and_eq_true]
      constructor
      · rintro ⟨hu, hk⟩
        exact ⟨[u], s, rfl, .cls hu, hk⟩
      · rintro ⟨taken, rest, hs, hmatch, hk⟩
        cases hmatch with
        | cls hu =>
          cases hs
          exact ⟨hu, hk⟩
  | rep c lo =>
    intro before s k
    rw [run, runRep_iff]
    constructor
    · rintro ⟨taken, rest, hs, ⟨hall, hlen⟩, hk⟩
      exact ⟨taken, rest, hs, .rep hall hlen, hk⟩
    · rintro ⟨taken, rest, hs, hmatch, hk⟩
      cases hmatch with
      | rep hall hlen => exact ⟨taken, rest, hs, ⟨hall, hlen⟩, hk⟩
  | seq r t ihr iht =>
    intro before s k
    obtain ⟨hr, ht⟩ := Bool.and_eq_true_iff.mp hplain
    rw [run, ihr hr]
    constructor
    · rintro ⟨taken, rest, rfl, hone, hrun⟩
      obtain ⟨taken', rest', rfl, htwo, hk⟩ := (iht ht _ _ _).mp hrun
      exact ⟨taken ++ taken', rest', (append_assoc ..).symm, .seq hone htwo, by simpa using hk⟩
    · rintro ⟨taken, rest, rfl, hmatch, hk⟩
      cases hmatch with
      | @seq _ _ one two hone htwo =>
        refine ⟨one, two ++ rest, append_assoc .., hone, (iht ht _ _ _).mpr ?_⟩
        exact ⟨two, rest, rfl, htwo, by simpa using hk⟩
  | alt r t ihr iht =>
    intro before s k
    obtain ⟨hr, ht⟩ := Bool.and_eq_true_iff.mp hplain
    rw [run, Bool.or_eq_true, ihr hr, iht ht]
    constructor
    · rintro (⟨taken, rest, hs, hmatch, hk⟩ | ⟨taken, rest, hs, hmatch, hk⟩)
      · exact ⟨taken, rest, hs, .left hmatch, hk⟩
      · exact ⟨taken, rest, hs, .right hmatch, hk⟩
    · rintro ⟨taken, rest, hs, hmatch, hk⟩
      cases hmatch with
      | left hr => exact .inl ⟨taken, rest, hs, hr, hk⟩
      | right ht => exact .inr ⟨taken, rest, hs, ht, hk⟩
  | star r ih =>
    intro before s k
    exact runStar_iff (ih hplain) (Nat.le_refl _)
  | start | lineStart | stop | boundary => cases hplain
  | ahead r ih | notAhead r ih => cases hplain

theorem run_whole (r : RegExp) (before s : JsStr) (k : Continue) (hbefore : before ≠ []) :
    (whole r).run before s k = false := by
  cases before with
  | nil => exact absurd rfl hbefore
  | cons u before => rfl

theorem testFrom_whole (r : RegExp) (before s : JsStr) (hbefore : before ≠ []) :
    testFrom (whole r) before s = false := by
  induction s generalizing before with
  | nil => exact run_whole r before [] _ hbefore
  | cons u s ih => rw [testFrom, run_whole r before _ _ hbefore, ih _ (cons_ne_nil u _), Bool.or_false]

theorem test_whole {r} (hplain : r.plain = true) (s : JsStr) : (whole r).test s = true ↔ Matches r s := by
  have hfirst : (whole r).test s = (whole r).run [] s fun _ _ => true := by
    cases s with
    | nil => rfl
    | cons u s => rw [test, testFrom, testFrom_whole r _ _ (cons_ne_nil u _), Bool.or_false]
  rw [hfirst, whole, run, run, isEmpty_nil, Bool.true_and, run, run_iff hplain]
  constructor
  · rintro ⟨taken, rest, rfl, hmatch, hstop⟩
    obtain rfl : rest = [] := by simpa [run] using hstop
    rwa [append_nil]
  · intro hmatch
    exact ⟨s, [], (append_nil s).symm, hmatch, rfl⟩

end RegExp

end GajaeCode.Text
