import GajaeCode.Data.Run
import GajaeCode.Query.Pins

/-! Which contents a revision id names over time. Ids count on from the latest revision that is still there. -/
namespace GajaeCode.Query

open Text Data List

variable {α β δ κ ν : Type}

inductive StoreCall (α κ : Type) where
  | create (key : JsStr) (payload : Snapshot α) (now : Int)
  | pin (cursor : κ) (key id : JsStr)
  | unpin (cursor : κ)
  | read (key id : JsStr) (now : Int)
  | sweep (now : Int)

namespace RevisionStore

def call [DecidableEq δ] [DecidableEq κ] (codec : SnapshotCodec α δ ν) (store : RevisionStore α κ) : StoreCall α κ → RevisionStore α κ
  | .create key payload now => (store.createRevision codec key payload now).2
  | .pin cursor key id => (store.pin cursor key id).getD store
  | .unpin cursor => store.unpin cursor
  | .read key id now => (store.access key id now).2
  | .sweep now => store.sweep now

/-- The call does not drop the newest revision of the resource: a sweep finds it pinned or used recently, and a new
one, of another content, is not made while all places are taken by pinned ones. -/
def Retains (codec : SnapshotCodec α δ ν) (key : JsStr) (store : RevisionStore α κ) : StoreCall α κ → Prop
  | .create key' payload _ =>
    key' = key → (∀ newest ∈ (store.resources key).getLast?, codec.hash newest.payload ≠ codec.hash payload) →
      (store.resources key).countP (fun r => !r.pins.isEmpty) < maxRevisionsPerResource
  | .sweep now =>
    ∀ newest ∈ (store.resources key).getLast?, newest.pins ≠ [] ∨ now - snapshotTtlMs ≤ newest.lastAccessed
  | .pin _ _ _ => True
  | .unpin _ => True
  | .read _ _ _ => True

theorem getLast_evictUnpinned (fuel : Nat) {front} {newest : Revision α κ}
    (h : front.countP (fun r => !r.pins.isEmpty) < maxRevisionsPerResource) :
    (evictUnpinned fuel (front ++ [newest])).getLast? = some newest := by
  induction fuel generalizing front with
  | zero => simp [evictUnpinned]
  | succ fuel ih =>
    rw [evictUnpinned]
    split_ifs with hlength hany
    · simp
    · by_cases hfront : front.any (fun r => r.pins.isEmpty) = true
      · obtain ⟨r, hr, hpins⟩ := any_eq_true.mp hfront
        have herase : (front ++ [newest]).eraseP (fun r => r.pins.isEmpty) =
            front.eraseP (fun r => r.pins.isEmpty) ++ [newest] := by
          rw [eraseP_append, if_pos (any_eq_true.mpr ⟨r, hr, hpins⟩)]
        rw [herase]
        apply ih
        exact eraseP_sublist.countP_le.trans_lt h
      · -- all the others are pinned, and then there are too few of them for the loop to go on
        have hall : ∀ r ∈ front, (!r.pins.isEmpty) = true := by simpa using hfront
        rw [countP_eq_length.mpr hall] at h
        rw [length_append, length_singleton] at hlength
        omega
    · simp

/-- The id is known to name one content: what comes later has a larger number, what still has this number has this
content. -/
structure Named (codec : SnapshotCodec α δ ν) (key : JsStr) (number : Nat) (payload : Snapshot α)
    (store : RevisionStore α κ) : Prop where
  newest : ∃ last, (store.resources key).getLast? = some last ∧ number ≤ last.number
  content : ∀ r ∈ store.resources key, r.number = number → codec.hash r.payload = codec.hash payload

section

variable {codec : SnapshotCodec α δ ν} {key : JsStr} {number : Nat} {payload : Snapshot α}
  {store after : RevisionStore α κ}

theorem Named.map (h : store.Named codec key number payload) {f}
    (hnumber : ∀ r, (f r).number = r.number) (hpayload : ∀ r, (f r).payload = r.payload)
    (hresources : after.resources key = (store.resources key).map f) : after.Named codec key number payload := by
  obtain ⟨last, hlast, hle⟩ := h.newest
  refine ⟨⟨f last, ?_, ?_⟩, ?_⟩
  · rw [hresources, getLast?_map, hlast]
    rfl
  · rw [hnumber]
    exact hle
  · rw [hresources]
    intro r hr hr'
    obtain ⟨s, hs, rfl⟩ := mem_map.mp hr
    rw [hpayload]
    exact h.content s hs ((hnumber s).symm.trans hr')

theorem Named.modify (h : store.Named codec key number payload) {f}
    (hnumber : ∀ r, (f r).number = r.number) (hpayload : ∀ r, (f r).payload = r.payload) {key' number'}
    (hresources : after.resources = (store.modify key' number' f).resources) :
    after.Named codec key number payload := by
  by_cases hkey : key = key'
  · subst hkey
    refine h.map (f := fun r => if r.number = number' then f r else r) ?_ ?_ ?_
    · intro r
      split_ifs
      · exact hnumber r
      · rfl
    · intro r
      split_ifs
      · exact hpayload r
      · rfl
    · rw [hresources]
      simp only [RevisionStore.modify, Function.update_self]
  · refine h.map (f := id) (fun _ => rfl) (fun _ => rfl) ?_
    rw [hresources, map_id]
    simp only [RevisionStore.modify, Function.update_of_ne hkey]

variable {now : Int} {payload' : Snapshot α}

theorem Named.sweep (h : store.Named codec key number payload)
    (hretains : store.Retains codec key (.sweep now)) : (store.sweep now).Named codec key number payload := by
  obtain ⟨last, hlast, hle⟩ := h.newest
  have hkept := hretains last hlast
  obtain ⟨front, hfront⟩ := getLast?_eq_some_iff.mp hlast
  refine ⟨⟨last, ?_, hle⟩, fun r hr => h.content r (mem_of_mem_filter hr)⟩
  simp only [RevisionStore.sweep, hfront, filter_append]
  rw [filter_cons_of_pos, getLast?_append_cons]
  · rfl
  · rw [Bool.not_eq_true', Bool.and_eq_false_iff]
    exact hkept.imp (fun hpins => by simpa using hpins) fun hrecent => by simpa using hrecent

theorem getLast_pushRevision (hretains : store.Retains codec key (.create key payload' now))
    (hnew : ∀ newest ∈ (store.resources key).getLast?, codec.hash newest.payload ≠ codec.hash payload') :
    ((store.pushRevision key number payload' now).resources key).getLast? =
      some { number, payload := payload', pins := [], lastAccessed := now } := by
  simp only [pushRevision, Function.update_self]
  exact getLast_evictUnpinned _ (hretains rfl hnew)

variable [DecidableEq δ]

theorem Named.create (h : store.Named codec key number payload) (hordered : store.Ordered)
    {key'} (hretains : store.Retains codec key (.create key' payload' now)) :
    (store.createRevision codec key' payload' now).2.Named codec key number payload := by
  rcases createRevision_cases codec hordered key' payload' now with ⟨r, -, -, heq⟩ | ⟨next, hlt, hnew, heq⟩
  · rw [heq]
    exact h
  · rw [heq]
    by_cases hkey : key = key'
    · subst hkey
      obtain ⟨last, hlast, hle⟩ := h.newest
      have hnext := hlt last (mem_of_getLast? hlast)
      refine ⟨⟨_, getLast_pushRevision hretains hnew, ?_⟩, ?_⟩
      · dsimp only
        omega
      · intro r hr hnumber
        rcases mem_append.mp ((resources_pushRevision key next payload' now store).subset hr) with hr | hr
        · exact h.content r hr hnumber
        · rw [mem_singleton.mp hr] at hnumber
          dsimp only at hnumber
          omega
    · refine h.map (f := id) (fun _ => rfl) (fun _ => rfl) ?_
      rw [map_id]
      simp only [pushRevision, Function.update_of_ne hkey]

theorem named_createRevision (hordered : store.Ordered)
    (hretains : store.Retains codec key (.create key payload now)) :
    ∃ number, (store.createRevision codec key payload now).1 = decimal number ∧
      (store.createRevision codec key payload now).2.Named codec key number payload := by
  rcases createRevision_cases codec hordered key payload now with ⟨r, hr, hhash, heq⟩ | ⟨number, hlt, hnew, heq⟩
  · rw [heq]
    refine ⟨r.number, rfl, ?_, ?_⟩
    · cases hlast : (store.resources key).getLast? with
      | none =>
        rw [getLast?_eq_none_iff.mp hlast] at hr
        cases hr
      | some last => exact ⟨last, rfl, Nat.lt_succ_iff.mp (lt_of_getLast hordered hlast r hr)⟩
    · intro s hs hnumber
      rw [eq_of_number hordered hs hr hnumber]
      exact hhash
  · rw [heq]
    refine ⟨number, rfl, ⟨_, getLast_pushRevision hretains hnew, le_rfl⟩, ?_⟩
    intro r hr hnumber
    rcases mem_append.mp ((resources_pushRevision key number payload now store).subset hr) with hr | hr
    · exact absurd (hlt r hr) (by omega)
    · rw [mem_singleton.mp hr]

theorem Named.hash_eq (h : store.Named codec key number payload) (hordered : store.Ordered)
    (hid : (store.createRevision codec key payload' now).1 = decimal number) :
    codec.hash payload = codec.hash payload' := by
  rcases createRevision_cases codec hordered key payload' now with ⟨r, hr, hhash, heq⟩ | ⟨next, hlt, -, heq⟩
  · rw [heq] at hid
    have hnumber : r.number = number := decimal_inj hid
    rw [← h.content r hr hnumber, hhash]
  · rw [heq] at hid
    obtain ⟨last, hlast, hle⟩ := h.newest
    have hnext := hlt last (mem_of_getLast? hlast)
    have hnumber : next = number := decimal_inj hid
    omega

variable [DecidableEq κ]

theorem Named.call (h : store.Named codec key number payload) (hordered : store.Ordered) {call}
    (hretains : store.Retains codec key call) : (store.call codec call).Named codec key number payload := by
  cases call with
  | create key' payload' now => exact h.create hordered hretains
  | pin cursor key' id =>
    rw [RevisionStore.call]
    cases hpin : store.pin cursor key' id with
    | none => exact h
    | some after =>
      rcases pin_cases hpin with ⟨-, rfl⟩ | ⟨-, -, r, -, -, hresources, -⟩
      · exact h
      · exact h.modify (by intro _; rfl) (by intro _; rfl) hresources
  | unpin cursor =>
    rcases resources_unpin cursor store with hresources | ⟨key', number', hresources⟩
    · refine h.map (f := id) (fun _ => rfl) (fun _ => rfl) ?_
      rw [map_id, RevisionStore.call, hresources]
    · exact h.modify (by intro _; rfl) (by intro _; rfl) hresources
  | read key' id now =>
    rcases access_snd key' id now store with heq | ⟨number', heq⟩
    · rw [RevisionStore.call, heq]
      exact h
    · exact h.modify (by intro _; rfl) (by intro _; rfl) (congrArg RevisionStore.resources heq)
  | sweep now => exact h.sweep hretains

theorem ordered_call (h : store.Ordered) (call : StoreCall α κ) : (store.call codec call).Ordered := by
  cases call with
  | create key payload now => exact ordered_createRevision codec h key payload now
  | pin cursor key id =>
    rw [call]
    cases hpin : store.pin cursor key id with
    | none => exact h
    | some after => exact ordered_pin h hpin
  | unpin cursor => exact ordered_unpin h cursor
  | read key id now => exact ordered_access h key id now
  | sweep now => exact ordered_sweep h now

variable (codec) in
/-- An id is given for one content only, as long as the newest revision of the resource is never dropped. -/
theorem createRevision_id_names_content (serialise : Snapshot α → β) (before between : List (StoreCall α κ))
    (key : JsStr) (p q : Snapshot α) (now later : Int)
    (hdigest : codec.hash p = codec.hash q → serialise p = serialise q)
    (hretains : Along (call codec) (Retains codec key) (run (call codec) empty before) (.create key p now :: between))
    (hid : ((run (call codec) empty before).createRevision codec key p now).1 =
      ((run (call codec) empty (before ++ .create key p now :: between)).createRevision codec key q
        later).1) : serialise p = serialise q := by
  have hempty : (empty : RevisionStore α κ).Ordered := fun _ => List.Pairwise.nil
  have hordered : (run (call codec) empty before).Ordered :=
    run_invariant (I := Ordered) (fun _ call h => ordered_call h call) hempty before
  obtain ⟨number, hnumber, hnamed⟩ := @named_createRevision _ _ _ _ codec key p _ now _ hordered hretains.1
  rw [run_append, run_cons] at hid
  have hrun : (run (call codec)
      (call codec (run (call codec) empty before) (.create key p now)) between).Ordered ∧
      (run (call codec)
        (call codec (run (call codec) empty before) (.create key p now))
        between).Named codec key number p := by
    refine run_induction (I := fun store => store.Ordered ∧ store.Named codec key number p) ?_
      ⟨ordered_call hordered _, hnamed⟩ hretains.2
    exact fun store call h hcall => ⟨ordered_call h.1 call, h.2.call h.1 hcall⟩
  exact hdigest (hrun.2.hash_eq hrun.1 (hid.symm.trans hnumber))

end

/-- Numbers with a sign: JSON writes `-0` as `0`. -/
def canonical : Snapshot (Bool × Nat) → List Int
  | .array items => items.map fun (negative, n) => if negative then -n else n
  | .document (negative, n) => [if negative then -n else n]

def signedCodec : SnapshotCodec (Bool × Nat) (List Int) Nat where
  itemBytes := Prod.snd
  rootBytes := fun _ => 0
  hash := canonical
  entryId := fun _ => none
  stringFields := fun _ => []
  rootRange := fun _ _ => none
  stringRange := fun _ _ _ => none
  indexedStringRange := fun _ _ _ _ => none

theorem createRevision_id_names_content_again : canonical (.array [(true, 0)]) = canonical (.array [(false, 0)]) :=
  createRevision_id_names_content (κ := Nat) signedCodec canonical [] [.create (lit "r") (.array [(false, 0)]) 3, .sweep 5]
    (lit "r") (.array [(true, 0)]) (.array [(false, 0)]) 0 7 id
    ⟨fun _ _ => by decide, fun _ h => absurd rfl (h _ rfl), fun _ h => by cases h; exact .inr (by decide), trivial⟩ rfl

/-- A resource that no one uses for a quarter of an hour is forgotten, and its ids start again. -/
theorem createRevision_reuses_id :
    ((empty : RevisionStore (Bool × Nat) Nat).createRevision signedCodec (lit "r") (.array [(false, 1)]) 0).1 =
      ((run (call signedCodec) (empty : RevisionStore (Bool × Nat) Nat)
        [.create (lit "r") (.array [(false, 1)]) 0, .sweep (snapshotTtlMs + 1)]).createRevision signedCodec (lit "r")
        (.array [(false, 2)]) (snapshotTtlMs + 2)).1 ∧ signedCodec.hash (.array [(false, 1)]) ≠ signedCodec.hash (.array [(false, 2)]) :=
  ⟨rfl, by decide⟩

end RevisionStore

end GajaeCode.Query
