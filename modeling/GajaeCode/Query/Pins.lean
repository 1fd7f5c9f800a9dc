import GajaeCode.Query.CursorRegistry

/-! What the operations of the revision store keep: the numbers of the revisions of a resource increase, and a
pinned revision stays with its snapshot. -/
namespace GajaeCode.Query

open Text Data List

namespace RevisionStore

variable {α δ κ ν : Type}

def numbers (key : JsStr) (store : RevisionStore α κ) : List Nat :=
  (store.resources key).map Revision.number

def Ordered (store : RevisionStore α κ) : Prop := ∀ key, (store.numbers key).Pairwise (· < ·)

/-- Every revision with a property is still there, with the property, its number and its snapshot. -/
def Keeps (P : Revision α κ → Prop) (store after : RevisionStore α κ) : Prop :=
  ∀ key, ∀ r ∈ store.resources key, P r →
    ∃ s ∈ after.resources key, s.number = r.number ∧ s.payload = r.payload ∧ P s

theorem Keeps.refl (P : Revision α κ → Prop) (store : RevisionStore α κ) : Keeps P store store :=
  fun _ r hr hP => ⟨r, hr, rfl, rfl, hP⟩

variable {store : RevisionStore α κ} {key : JsStr} {r : Revision α κ}

theorem Keeps.congr {P after after'}
    (h : Keeps P store after) (heq : after'.resources = after.resources) : Keeps P store after' := by
  intro key
  rw [heq]
  exact h key

theorem Ordered.congr {after : RevisionStore α κ} (h : store.Ordered)
    (heq : after.resources = store.resources) : after.Ordered := by
  intro key
  rw [numbers, heq]
  exact h key

theorem eq_of_number (h : store.Ordered) {s} (hr : r ∈ store.resources key)
    (hs : s ∈ store.resources key) (hnumber : r.number = s.number) : r = s := by
  have hnodup := (h key).imp Nat.ne_of_lt
  exact inj_on_of_nodup_map hnodup hr hs hnumber

theorem find_of_mem (h : store.Ordered) (hr : r ∈ store.resources key) : store.find key r.id = some r := by
  cases hfind : store.find key r.id with
  | none =>
    have hnone := find?_eq_none.mp hfind r hr
    simp at hnone
  | some s =>
    have hid : s.id = r.id := by simpa using find?_some hfind
    exact congrArg some (eq_of_number h (mem_of_find?_eq_some hfind) hr (Revision.id_inj hid))

theorem mem_of_find {id} (h : store.find key id = some r) : r ∈ store.resources key ∧ r.id = id :=
  ⟨mem_of_find?_eq_some h, by simpa using find?_some h⟩

section

variable (f : Revision α κ → Revision α κ)

theorem numbers_modify (hf : ∀ r, (f r).number = r.number) (key : JsStr) (number : Nat)
    (store : RevisionStore α κ) (key' : JsStr) : (store.modify key number f).numbers key' = store.numbers key' := by
  by_cases hkey : key' = key
  · subst hkey
    simp only [numbers, modify, Function.update_self, map_map]
    apply map_congr_left
    intro r _
    simp only [Function.comp_apply]
    split
    · exact hf r
    · rfl
  · simp only [numbers, modify, Function.update_of_ne hkey]

theorem ordered_modify (hf : ∀ r, (f r).number = r.number) {store : RevisionStore α κ} (h : store.Ordered)
    (key : JsStr) (number : Nat) : (store.modify key number f).Ordered := by
  intro key'
  rw [numbers_modify f hf]
  exact h key'

variable {f} in
theorem mem_modify {store : RevisionStore α κ} {key key' : JsStr} {number : Nat} {r : Revision α κ}
    (hr : r ∈ store.resources key') : r ∈ (store.modify key number f).resources key' ∨
      key' = key ∧ r.number = number ∧ f r ∈ (store.modify key number f).resources key' := by
  by_cases hkey : key' = key
  · subst hkey
    simp only [modify, Function.update_self]
    by_cases hnumber : r.number = number
    · exact .inr ⟨trivial, hnumber, mem_map.mpr ⟨r, hr, if_pos hnumber⟩⟩
    · exact .inl (mem_map.mpr ⟨r, hr, if_neg hnumber⟩)
  · left
    simpa only [modify, Function.update_of_ne hkey] using hr

theorem keeps_modify {P} (hf : ∀ r, (f r).number = r.number)
    (hpayload : ∀ r, (f r).payload = r.payload) (hP : ∀ r, P r → P (f r)) (key : JsStr) (number : Nat)
    (store : RevisionStore α κ) : Keeps P store (store.modify key number f) := by
  intro key' r hr hPr
  rcases mem_modify hr with hmem | ⟨-, -, hmem⟩
  · exact ⟨r, hmem, rfl, rfl, hPr⟩
  · exact ⟨f r, hmem, hf r, hpayload r, hP r hPr⟩

end

section

theorem evictUnpinned_sublist (fuel : Nat) (revisions : List (Revision α κ)) :
    (evictUnpinned fuel revisions).Sublist revisions := by
  induction fuel generalizing revisions with
  | zero => exact Sublist.refl _
  | succ fuel ih =>
    rw [evictUnpinned]
    split_ifs
    · exact Sublist.refl _
    · exact (ih _).trans eraseP_sublist
    · exact Sublist.refl _

theorem mem_evictUnpinned {fuel revisions} {r : Revision α κ} (hr : r ∈ revisions)
    (hpins : r.pins ≠ []) : r ∈ evictUnpinned fuel revisions := by
  induction fuel generalizing revisions with
  | zero => exact hr
  | succ fuel ih =>
    rw [evictUnpinned]
    split_ifs
    · exact hr
    · exact ih ((mem_eraseP_of_neg (by simpa using hpins)).mpr hr)
    · exact hr

/-- The loop ends with few enough revisions or none that it may drop. -/
theorem evictUnpinned_done {fuel} {revisions : List (Revision α κ)} (h : revisions.length ≤ fuel) :
    (evictUnpinned fuel revisions).length ≤ maxRevisionsPerResource ∨
      ∀ r ∈ evictUnpinned fuel revisions, r.pins ≠ [] := by
  induction fuel generalizing revisions with
  | zero =>
    rw [evictUnpinned]
    omega
  | succ fuel ih =>
    rw [evictUnpinned]
    split_ifs with hlength hany
    · exact .inl hlength
    · apply ih
      obtain ⟨r, hr, hpins⟩ := any_eq_true.mp hany
      have herase : (revisions.eraseP fun revision => revision.pins.isEmpty).length =
          revisions.length - 1 := length_eraseP_of_mem hr hpins
      omega
    · right
      simpa using hany

theorem resources_pushRevision (key : JsStr) (number : Nat) (payload : Snapshot α) (now : Int)
    (store : RevisionStore α κ) : ((store.pushRevision key number payload now).resources key).Sublist
      (store.resources key ++ [{ number, payload, pins := [], lastAccessed := now }]) := by
  simp only [pushRevision, Function.update_self]
  exact evictUnpinned_sublist _ _

/-- Only unpinned revisions make way for a new one, until few enough are left or all of them are pinned. -/
theorem pushRevision_evicts (key : JsStr) (number : Nat) (payload : Snapshot α) (now : Int)
    (store : RevisionStore α κ) :
    let after := (store.pushRevision key number payload now).resources key
    (∀ r ∈ store.resources key, r.pins ≠ [] → r ∈ after) ∧
      (after.length ≤ maxRevisionsPerResource ∨ ∀ r ∈ after, r.pins ≠ []) := by
  simp only [pushRevision, Function.update_self]
  exact ⟨fun r hr => mem_evictUnpinned (mem_append_left _ hr), evictUnpinned_done le_rfl⟩

variable {store : RevisionStore α κ} {key : JsStr}

theorem ordered_pushRevision (h : store.Ordered) {number}
    (hlt : ∀ r ∈ store.resources key, r.number < number) (payload : Snapshot α) (now : Int) :
    (store.pushRevision key number payload now).Ordered := by
  intro key'
  by_cases hkey : key' = key
  · subst hkey
    refine List.Pairwise.sublist ((resources_pushRevision key' number payload now store).map _) ?_
    rw [map_append, pairwise_append]
    refine ⟨h key', pairwise_singleton _ _, ?_⟩
    intro n hn m hm
    obtain ⟨r, hr, rfl⟩ := mem_map.mp hn
    rw [map_singleton, mem_singleton] at hm
    exact hm ▸ hlt r hr
  · simpa only [numbers, pushRevision, Function.update_of_ne hkey] using h key'

theorem keeps_pushRevision {P} (hP : ∀ r, P r → r.pins ≠ []) (key : JsStr)
    (number : Nat) (payload : Snapshot α) (now : Int) (store : RevisionStore α κ) :
    Keeps P store (store.pushRevision key number payload now) := by
  intro key' r hr hPr
  refine ⟨r, ?_, rfl, rfl, hPr⟩
  by_cases hkey : key' = key
  · subst hkey
    simp only [pushRevision, Function.update_self]
    exact mem_evictUnpinned (mem_append_left _ hr) (hP r hPr)
  · simpa only [pushRevision, Function.update_of_ne hkey] using hr

theorem lt_of_getLast (h : store.Ordered) {last} (hlast : (store.resources key).getLast? = some last) :
    ∀ r ∈ store.resources key, r.number < last.number + 1 := by
  intro r hr
  obtain ⟨front, hfront⟩ := getLast?_eq_some_iff.mp hlast
  have hordered := h key
  rw [numbers, hfront, map_append, pairwise_append] at hordered
  rw [hfront] at hr
  rcases mem_append.mp hr with hr | hr
  · have := hordered.2.2 _ (mem_map_of_mem hr) last.number (by simp)
    omega
  · rw [mem_singleton.mp hr]
    exact Nat.lt_succ_self _

variable [DecidableEq δ] (codec : SnapshotCodec α δ ν)

theorem createRevision_cases (h : store.Ordered) (key : JsStr) (payload : Snapshot α) (now : Int) :
    (∃ r ∈ store.resources key, codec.hash r.payload = codec.hash payload ∧
        store.createRevision codec key payload now = (r.id, store)) ∨
      ∃ number, (∀ r ∈ store.resources key, r.number < number) ∧
        (∀ newest ∈ (store.resources key).getLast?, codec.hash newest.payload ≠ codec.hash payload) ∧
        store.createRevision codec key payload now = (decimal number, store.pushRevision key number payload now) := by
  rw [createRevision]
  split
  · next hnone =>
    refine .inr ⟨1, ?_, by simp [hnone], rfl⟩
    rw [getLast?_eq_none_iff.mp hnone]
    intro r hr
    cases hr
  · next previous hlast =>
    split_ifs with hhash
    · exact .inl ⟨previous, mem_of_getLast? hlast, hhash, rfl⟩
    · exact .inr ⟨previous.number + 1, lt_of_getLast h hlast, by simpa [hlast] using hhash, rfl⟩

theorem pinIndex_createRevision (key : JsStr) (payload : Snapshot α) (now : Int) (store : RevisionStore α κ) :
    (store.createRevision codec key payload now).2.pinIndex = store.pinIndex := by
  rw [createRevision]
  split
  · rfl
  · split_ifs <;> rfl

theorem ordered_createRevision (h : store.Ordered) (key : JsStr) (payload : Snapshot α)
    (now : Int) : (store.createRevision codec key payload now).2.Ordered := by
  rcases createRevision_cases codec h key payload now with ⟨r, -, -, heq⟩ | ⟨number, hlt, -, heq⟩
  · rw [heq]
    exact h
  · rw [heq]
    exact ordered_pushRevision h hlt payload now

theorem keeps_createRevision {P} (hP : ∀ r, P r → r.pins ≠ [])
    (h : store.Ordered) (key : JsStr) (payload : Snapshot α) (now : Int) :
    Keeps P store (store.createRevision codec key payload now).2 := by
  rcases createRevision_cases codec h key payload now with ⟨r, -, -, heq⟩ | ⟨number, -, -, heq⟩
  · rw [heq]
    exact Keeps.refl P store
  · rw [heq]
    exact keeps_pushRevision hP key number payload now store

/-- `hhash` asks that the digest tells the snapshot from those of the revisions that are there. -/
theorem payload_of_find_createRevision (h : store.Ordered) {id payload now after r}
    (hhash : ∀ s ∈ store.resources key, codec.hash s.payload = codec.hash payload → s.payload = payload)
    (hcreate : store.createRevision codec key payload now = (id, after))
    (hfind : after.find key id = some r) : r.payload = payload := by
  obtain ⟨hmem, hid⟩ := mem_of_find hfind
  rcases createRevision_cases codec h key payload now with ⟨s, hs, hsame, heq⟩ | ⟨number, hlt, -, heq⟩
  · rw [heq] at hcreate
    obtain ⟨rfl, rfl⟩ := hcreate
    rw [eq_of_number h hmem hs (Revision.id_inj hid)]
    exact hhash s hs hsame
  · rw [heq] at hcreate
    obtain ⟨rfl, rfl⟩ := hcreate
    have hnumber : r.number = number := decimal_inj hid
    rcases mem_append.mp ((resources_pushRevision key number payload now store).subset hmem) with hr | hr
    · exact absurd (hlt r hr) (by omega)
    · rw [mem_singleton.mp hr]

end

theorem access_snd (key id : JsStr) (now : Int) (store : RevisionStore α κ) :
    (store.access key id now).2 = store ∨ ∃ number,
      (store.access key id now).2 = store.modify key number fun r => { r with lastAccessed := now } := by
  rw [access]
  split
  · exact .inl rfl
  · exact .inr ⟨_, rfl⟩

theorem pinIndex_access (key id : JsStr) (now : Int) (store : RevisionStore α κ) :
    (store.access key id now).2.pinIndex = store.pinIndex := by
  rcases access_snd key id now store with heq | ⟨number, heq⟩
  · rw [heq]
  · rw [heq]
    rfl

theorem ordered_access {store : RevisionStore α κ} (h : store.Ordered) (key id : JsStr) (now : Int) :
    (store.access key id now).2.Ordered := by
  rcases access_snd key id now store with heq | ⟨number, heq⟩
  · rw [heq]
    exact h
  · rw [heq]
    exact ordered_modify _ (by intro _; rfl) h key number

theorem keeps_access {P now} (hP : ∀ r, P r → P { r with lastAccessed := now })
    (key id : JsStr) (store : RevisionStore α κ) : Keeps P store (store.access key id now).2 := by
  rcases access_snd key id now store with heq | ⟨number, heq⟩
  · rw [heq]
    exact Keeps.refl P store
  · rw [heq]
    exact keeps_modify _ (by intro _; rfl) (by intro _; rfl) hP key number store

theorem ordered_sweep (h : store.Ordered) (now : Int) : (store.sweep now).Ordered :=
  fun key => (h key).sublist (filter_sublist.map _)

theorem keeps_sweep {P now}
    (hP : ∀ r, P r → r.pins ≠ [] ∨ now - snapshotTtlMs ≤ r.lastAccessed) (store : RevisionStore α κ) :
    Keeps P store (store.sweep now) := by
  intro key r hr hPr
  refine ⟨r, mem_filter.mpr ⟨hr, ?_⟩, rfl, rfl, hPr⟩
  rw [Bool.not_eq_true', Bool.and_eq_false_iff]
  rcases hP r hPr with hpins | hrecent
  · exact .inl (by simpa using hpins)
  · exact .inr (by simpa using hrecent)

section

variable [DecidableEq κ]
  {store after : RevisionStore α κ} {cursor : κ} {key id : JsStr}

theorem pin_cases (h : store.pin cursor key id = some after) :
    (store.pinIndex.lookup cursor).isSome = true ∧ after = store ∨
      store.pinIndex.lookup cursor = none ∧ store.pinIndex.length < maxPinnedRevisions ∧
        ∃ r ∈ store.resources key, r.id = id ∧
          after.resources = (store.modify key r.number fun r => { r with pins := r.pins ++ [cursor] }).resources ∧
          after.pinIndex = store.pinIndex ++ [(cursor, key, r.number)] := by
  rw [pin] at h
  split_ifs at h with hpinned hroom
  · exact .inl ⟨hpinned, (Option.some.inj h).symm⟩
  · rw [Option.map_eq_some_iff] at h
    obtain ⟨r, hfind, rfl⟩ := h
    obtain ⟨hmem, hid⟩ := mem_of_find hfind
    refine .inr ⟨?_, not_le.mp hroom, r, hmem, hid, rfl, rfl⟩
    exact Option.not_isSome_iff_eq_none.mp hpinned

theorem ordered_pin (h : store.Ordered) (hpin : store.pin cursor key id = some after) : after.Ordered := by
  rcases pin_cases hpin with ⟨-, rfl⟩ | ⟨-, -, r, -, -, hresources, -⟩
  · exact h
  · exact (ordered_modify _ (by intro _; rfl) h key r.number).congr hresources

theorem keeps_pin {P} (hP : ∀ r, P r → P { r with pins := r.pins ++ [cursor] })
    (hpin : store.pin cursor key id = some after) : Keeps P store after := by
  rcases pin_cases hpin with ⟨-, rfl⟩ | ⟨-, -, r, -, -, hresources, -⟩
  · exact Keeps.refl P after
  · exact (keeps_modify _ (by intro _; rfl) (by intro _; rfl) hP key r.number store).congr hresources

theorem pinIndex_unpin (cursor : κ) (store : RevisionStore α κ) :
    (store.unpin cursor).pinIndex = store.pinIndex.filter fun entry => entry.1 ≠ cursor := by
  rw [unpin]
  split
  · next hnone =>
    symm
    rw [filter_eq_self]
    intro entry hentry
    have hne := lookup_eq_none_iff.mp hnone entry hentry
    exact decide_eq_true (bne_iff_ne.mp hne).symm
  · rfl

theorem resources_unpin (cursor : κ) (store : RevisionStore α κ) :
    (store.unpin cursor).resources = store.resources ∨ ∃ key number, (store.unpin cursor).resources =
      (store.modify key number fun r => { r with pins := r.pins.filter fun pin => pin ≠ cursor }).resources := by
  rw [unpin]
  split
  · exact .inl rfl
  · exact .inr ⟨_, _, rfl⟩

theorem ordered_unpin (h : store.Ordered) (cursor : κ) : (store.unpin cursor).Ordered := by
  rcases resources_unpin cursor store with heq | ⟨key, number, heq⟩
  · exact h.congr heq
  · exact (ordered_modify _ (by intro _; rfl) h key number).congr heq

theorem keeps_unpin {P} (hP : ∀ r, P r → P { r with pins := r.pins.filter fun pin => pin ≠ cursor })
    (store : RevisionStore α κ) : Keeps P store (store.unpin cursor) := by
  rcases resources_unpin cursor store with heq | ⟨key, number, heq⟩
  · exact (Keeps.refl P store).congr heq
  · exact (keeps_modify _ (by intro _; rfl) (by intro _; rfl) hP key number store).congr heq

end

end RevisionStore

end GajaeCode.Query
