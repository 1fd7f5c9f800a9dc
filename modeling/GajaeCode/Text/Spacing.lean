import GajaeCode.Text.RegExp

/-! Runs of separators in a text, and expressions that do not depend on their length. -/
namespace GajaeCode.Text
open List UnitClass

/-- Replaces every run of `p` by one space; `inside` is whether a run has begun. -/
def squeezeFrom (p : UInt16 → Bool) (inside : Bool) : JsStr → JsStr
  | [] => []
  | u :: s =>
    if p u then
      if inside then squeezeFrom p true s else ascii ' ' :: squeezeFrom p true s
    else u :: squeezeFrom p false s

def squeeze (p : UInt16 → Bool) (s : JsStr) : JsStr := squeezeFrom p false s

theorem mem_squeezeFrom {p u} (hu : p u = false) {s} (h : u ∈ s) (inside : Bool) : u ∈ squeezeFrom p inside s := by
  induction s generalizing inside with
  | nil => cases h
  | cons v s ih =>
    rw [squeezeFrom]
    rcases mem_cons.mp h with rfl | h
    · rw [if_neg (by simp [hu])]
      exact mem_cons_self
    · split_ifs
      · exact ih h true
      · exact mem_cons_of_mem _ (ih h true)
      · exact mem_cons_of_mem _ (ih h false)

/-- Every unit of `p` is replaced by one or more of them. -/
inductive Stretch (p : UInt16 → Bool) : JsStr → JsStr → Prop where
  | nil : Stretch p [] []
  | unit {u : UInt16} {s t : JsStr} (hu : p u = false) (h : Stretch p s t) : Stretch p (u :: s) (u :: t)
  | gap {u : UInt16} {g s t : JsStr} (hu : p u = true) (hne : g ≠ []) (hg : ∀ v ∈ g, p v = true)
      (h : Stretch p s t) : Stretch p (u :: s) (g ++ t)

namespace Stretch

variable {p : UInt16 → Bool} {s t : JsStr}

theorem split {a b} (h : Stretch p (a ++ b) t) : ∃ a' b', t = a' ++ b' ∧ Stretch p a a' ∧ Stretch p b b' := by
  induction a generalizing t with
  | nil => exact ⟨[], t, rfl, .nil, h⟩
  | cons u a ih =>
    cases h with
    | unit hu h =>
      obtain ⟨a', b', rfl, ha, hb⟩ := ih h
      exact ⟨u :: a', b', rfl, .unit hu ha, hb⟩
    | gap hu hne hg h =>
      obtain ⟨a', b', rfl, ha, hb⟩ := ih h
      exact ⟨_ ++ a', b', (append_assoc ..).symm, .gap hu hne hg ha, hb⟩

theorem length_le (h : Stretch p s t) : s.length ≤ t.length := by
  induction h with
  | nil => exact Nat.le_refl 0
  | unit hu h ih => exact Nat.succ_le_succ ih
  | gap hu hne hg h ih =>
    have hpos := length_pos_iff.mpr hne
    rw [length_cons, length_append]
    omega

theorem mem (h : Stretch p s t) {u} (hu : u ∈ t) : u ∈ s ∧ p u = false ∨ p u = true := by
  induction h with
  | nil => cases hu
  | unit hv h ih =>
    rcases mem_cons.mp hu with rfl | hu
    · exact .inl ⟨mem_cons_self, hv⟩
    · exact (ih hu).imp_left fun hs => ⟨mem_cons_of_mem _ hs.1, hs.2⟩
  | gap hv hne hg h ih =>
    rcases mem_append.mp hu with hu | hu
    · exact .inr (hg u hu)
    · exact (ih hu).imp_left fun hs => ⟨mem_cons_of_mem _ hs.1, hs.2⟩

theorem eq_self_of_forall (hs : ∀ u ∈ s, p u = false) (h : Stretch p s t) : t = s := by
  induction h with
  | nil => rfl
  | unit hu h ih => rw [ih (forall_mem_cons.mp hs).2]
  | gap hu hne hg h ih => exact absurd hu (by simp [hs _ mem_cons_self])

theorem of_squeeze {q} (hspace : p (ascii ' ') = true) (hq : ∀ u, q u = true → p u = true) (s : JsStr) :
    Stretch p (squeeze p s) (squeeze q s) ∧ ∀ g inside, g ≠ [] → (∀ v ∈ g, p v = true) →
      Stretch p (ascii ' ' :: squeezeFrom p true s) (g ++ squeezeFrom q inside s) := by
  induction s with
  | nil => exact ⟨.nil, fun g _ hne hg => .gap hspace hne hg .nil⟩
  | cons u s ih =>
    obtain ⟨hout, hin⟩ := ih
    have hone : ∀ v ∈ [ascii ' '], p v = true := forall_mem_singleton.mpr hspace
    cases hu : p u with
    | false =>
      have hqu : q u = false := Bool.eq_false_iff.mpr fun h => by simp [hq u h] at hu
      simp only [squeeze, squeezeFrom, hu, hqu]
      exact ⟨.unit hu hout, fun g inside hne hg => .gap hspace hne hg (.unit hu hout)⟩
    | true =>
      have hstart : Stretch p (ascii ' ' :: squeezeFrom p true s) (squeezeFrom q false (u :: s)) := by
        rw [squeezeFrom, if_neg Bool.false_ne_true]
        split_ifs
        · exact hin [ascii ' '] true (cons_ne_nil _ _) hone
        · exact hin [u] false (cons_ne_nil _ _) (forall_mem_singleton.mpr hu)
      refine ⟨by simpa [squeeze, squeezeFrom, hu] using hstart, ?_⟩
      intro g inside hne hg
      have hleft : squeezeFrom p true (u :: s) = squeezeFrom p true s := by simp [squeezeFrom, hu]
      rw [hleft, squeezeFrom]
      have happend {v : UInt16} (hv : p v = true) (inside : Bool) :
          Stretch p (ascii ' ' :: squeezeFrom p true s) (g ++ v :: squeezeFrom q inside s) := by
        have h := hin (g ++ [v]) inside (by simp) fun w hw =>
          (mem_append.mp hw).elim (hg w) fun hw => mem_singleton.mp hw ▸ hv
        rwa [append_assoc] at h
      split_ifs
      · exact hin g true hne hg
      · exact happend hspace true
      · exact happend hu false

end Stretch

namespace RegExp

variable {d : UnitClass} {r : RegExp} {s t : JsStr}

/-- Every class lies in `d`. -/
def writtenIn (d : UnitClass) : RegExp → Bool
  | .cls c | .rep c _ => c.within d
  | .seq r t | .alt r t => r.writtenIn d && t.writtenIn d
  | .star r => r.writtenIn d
  | .empty | .start | .lineStart | .stop | .boundary | .ahead _ | .notAhead _ => true

theorem Matches.writtenIn (h : Matches r s) (hr : r.writtenIn d = true) : ∀ u ∈ s, d.has u = true := by
  induction h with
  | empty | done => exact nofun
  | cls hu => exact forall_mem_singleton.mpr (within_has hr hu)
  | rep hall hlen => exact fun u hu => within_has hr (hall u hu)
  | seq _ _ ihr iht =>
    obtain ⟨hr, ht⟩ := Bool.and_eq_true_iff.mp hr
    exact fun u hu => (mem_append.mp hu).elim (ihr hr u) (iht ht u)
  | left _ ih => exact ih (Bool.and_eq_true_iff.mp hr).1
  | right _ ih => exact ih (Bool.and_eq_true_iff.mp hr).2
  | more _ _ _ ihr ihrest => exact fun u hu => (mem_append.mp hu).elim (ihr hr u) (ihrest hr u)

def nullable : RegExp → Bool
  | .cls _ => false
  | .rep _ lo => lo == 0
  | .seq r t => r.nullable && t.nullable
  | .alt r t => r.nullable || t.nullable
  | .empty | .star _ | .start | .lineStart | .stop | .boundary | .ahead _ | .notAhead _ => true

theorem Matches.nullable (h : Matches r s) (hs : s = []) : r.nullable = true := by
  induction h with
  | empty | done => rfl
  | cls hu => cases hs
  | rep hall hlen =>
    subst hs
    exact beq_iff_eq.mpr (Nat.le_zero.mp hlen)
  | seq _ _ ihr iht =>
    obtain ⟨hr, ht⟩ := append_eq_nil_iff.mp hs
    exact Bool.and_eq_true_iff.mpr ⟨ihr hr, iht ht⟩
  | left _ ih => exact Bool.or_eq_true_iff.mpr (.inl (ih hs))
  | right _ ih => exact Bool.or_eq_true_iff.mpr (.inr (ih hs))
  | more => rfl

/-- No text begins in `d`. -/
def opensOutside (d : UnitClass) : RegExp → Bool
  | .cls c | .rep c _ => c.apart d
  | .seq r t => r.opensOutside d && (!r.nullable || t.opensOutside d)
  | .alt r t => r.opensOutside d && t.opensOutside d
  | .star r => r.opensOutside d
  | .empty | .start | .lineStart | .stop | .boundary | .ahead _ | .notAhead _ => true

theorem Matches.head_outside (h : Matches r s) (hr : r.opensOutside d = true) {u}
    (hu : s.head? = some u) : d.has u = false := by
  induction h with
  | empty | done => cases hu
  | cls hc =>
    cases hu
    exact apart_has hr hc
  | rep hall hlen => exact apart_has hr (hall u (mem_of_head? hu))
  | @seq r t s s' hmr _ ihr iht =>
    obtain ⟨hr, ht⟩ := Bool.and_eq_true_iff.mp hr
    cases s with
    | nil =>
      rw [hmr.nullable rfl] at ht
      exact iht ht hu
    | cons v s => exact ihr hr hu
  | left _ ih => exact ih (Bool.and_eq_true_iff.mp hr).1 hu
  | right _ ih => exact ih (Bool.and_eq_true_iff.mp hr).2 hu
  | @more r s s' hne _ _ ihr _ =>
    cases s with
    | nil => exact absurd rfl hne
    | cons v s => exact ihr hr hu

/-- No text ends in `d`. -/
def closesOutside (d : UnitClass) : RegExp → Bool
  | .cls c | .rep c _ => c.apart d
  | .seq r t => t.closesOutside d && (!t.nullable || r.closesOutside d)
  | .alt r t => r.closesOutside d && t.closesOutside d
  | .star r => r.closesOutside d
  | .empty | .start | .lineStart | .stop | .boundary | .ahead _ | .notAhead _ => true

theorem Matches.last_outside (h : Matches r s) (hr : r.closesOutside d = true) {u}
    (hu : s.getLast? = some u) : d.has u = false := by
  induction h with
  | empty | done => cases hu
  | cls hc =>
    cases hu
    exact apart_has hr hc
  | rep hall hlen => exact apart_has hr (hall u (mem_of_getLast? hu))
  | @seq r t s s' _ hmt ihr iht =>
    obtain ⟨ht, hr⟩ := Bool.and_eq_true_iff.mp hr
    cases s' with
    | nil =>
      rw [hmt.nullable rfl] at hr
      exact ihr hr (by rwa [append_nil] at hu)
    | cons v s' => exact iht ht (by rwa [getLast?_append_of_ne_nil _ (cons_ne_nil v s')] at hu)
  | left _ ih => exact ih (Bool.and_eq_true_iff.mp hr).1 hu
  | right _ ih => exact ih (Bool.and_eq_true_iff.mp hr).2 hu
  | @more r s s' _ _ _ ihr ihrest =>
    cases s' with
    | nil => exact ihr hr (by rwa [append_nil] at hu)
    | cons v s' => exact ihrest hr (by rwa [getLast?_append_of_ne_nil _ (cons_ne_nil v s')] at hu)

/-- Units of `d` are taken only by repetitions of a class that has all of them. -/
def elastic (d : UnitClass) : RegExp → Bool
  | .cls c => c.apart d
  | .rep c _ => c.apart d || d.within c
  | .seq r t | .alt r t => r.elastic d && t.elastic d
  | .star r => r.elastic d
  | .empty | .start | .lineStart | .stop | .boundary | .ahead _ | .notAhead _ => true

/-- An elastic expression also matches the text with longer runs. -/
theorem Matches.stretch (h : Matches r s) (hr : r.elastic d = true) (hst : Stretch d.has s t) : Matches r t := by
  induction h generalizing t with
  | empty =>
    cases hst
    exact .empty
  | done =>
    cases hst
    exact .done
  | @cls c u hu =>
    have hout := apart_has hr hu
    rw [hst.eq_self_of_forall (forall_mem_singleton.mpr hout)]
    exact .cls hu
  | @rep c lo s hall hlen =>
    refine .rep (fun u hu => ?_) (hlen.trans hst.length_le)
    rcases Bool.or_eq_true_iff.mp hr with hr | hr
    · have hsame := hst.eq_self_of_forall fun v hv => apart_has hr (hall v hv)
      exact hall u (hsame ▸ hu)
    · rcases hst.mem hu with ⟨hs, -⟩ | hd
      · exact hall u hs
      · exact within_has hr hd
  | seq _ _ ihr iht =>
    obtain ⟨hr, ht⟩ := Bool.and_eq_true_iff.mp hr
    obtain ⟨a, b, rfl, ha, hb⟩ := hst.split
    exact .seq (ihr hr ha) (iht ht hb)
  | left _ ih => exact .left (ih (Bool.and_eq_true_iff.mp hr).1 hst)
  | right _ ih => exact .right (ih (Bool.and_eq_true_iff.mp hr).2 hst)
  | more hne _ _ ihr ihrest =>
    obtain ⟨a, b, rfl, ha, hb⟩ := hst.split
    refine .more ?_ (ihr hr ha) (ihrest hr hb)
    intro ha'
    have hlen := ha.length_le
    rw [ha'] at hlen
    exact hne (length_eq_zero_iff.mp (Nat.le_zero.mp hlen))

end RegExp

end GajaeCode.Text
