import GajaeCode.Query.HostSteps

/-! The host after any requests: every cursor in use pins a revision and the budgets are kept. A cursor stays with
its connection while no request presents it and none of another connection is granted it. -/
namespace GajaeCode.Query

open Text Data List RevisionStore

variable {α δ κ ν : Type}

/-- An entry of the pin index belongs to a signed envelope and to a revision that is there. -/
def PinnedBy (signer : CursorSigner κ ν) (store : RevisionStore α κ) (entry : κ × JsStr × Nat) : Prop :=
  (∃ envelope, signer.sign envelope = entry.1 ∧ envelope.revision = decimal entry.2.2 ∧
      envelope.PointsTo entry.2.1) ∧ ∃ r ∈ store.resources entry.2.1, r.number = entry.2.2 ∧ entry.1 ∈ r.pins

theorem PinnedBy.keep {signer : CursorSigner κ ν} {store after : RevisionStore α κ}
    {entry} (h : PinnedBy signer store entry)
    (hkeeps : RevisionStore.Keeps (fun r => entry.1 ∈ r.pins) store after) : PinnedBy signer after entry := by
  obtain ⟨hsigned, r, hr, hnumber, hpin⟩ := h
  obtain ⟨s, hs, hnumber', -, hpin'⟩ := hkeeps _ r hr hpin
  exact ⟨hsigned, s, hs, hnumber'.trans hnumber, hpin'⟩

namespace Host

structure Valid (signer : CursorSigner κ ν) (host : Host α κ) : Prop where
  keys : host.revisions.pinIndex.map Prod.fst = host.active.map Prod.fst
  nodup : (host.active.map Prod.fst).Nodup
  session : host.active.length ≤ maxCursorsPerSession
  connection : ∀ connectionId, host.cursorsOf connectionId ≤ maxCursorsPerConnection
  ordered : host.revisions.Ordered
  pins : ∀ entry ∈ host.revisions.pinIndex, PinnedBy signer host.revisions entry

theorem valid_empty (signer : CursorSigner κ ν) : (empty : Host α κ).Valid signer where
  keys := rfl
  nodup := nodup_nil
  session := Nat.zero_le _
  connection := fun _ => Nat.zero_le _
  ordered := fun _ => List.Pairwise.nil
  pins := fun _ h => by cases h

variable {signer : CursorSigner κ ν} {host : Host α κ}

theorem Valid.of_revisions (h : host.Valid signer) {revisions}
    (hindex : revisions.pinIndex = host.revisions.pinIndex) (hordered : revisions.Ordered)
    (hkeeps : ∀ cursor, RevisionStore.Keeps (fun r => cursor ∈ r.pins) host.revisions revisions) :
    Valid signer { host with revisions } where
  keys := by
    rw [hindex]
    exact h.keys
  nodup := h.nodup
  session := h.session
  connection := h.connection
  ordered := hordered
  pins := by
    intro entry hentry
    rw [hindex] at hentry
    exact (h.pins entry hentry).keep (hkeeps entry.1)

variable [DecidableEq κ]

theorem map_fst_filter_ne {β : Type} (cursor : κ) (entries : List (κ × β)) :
    (entries.filter fun entry => entry.1 ≠ cursor).map Prod.fst =
      (entries.map Prod.fst).filter fun key => key ≠ cursor := by
  rw [filter_map]
  rfl

theorem Valid.release (h : host.Valid signer) (cursor : κ) : (host.release cursor).Valid signer where
  keys := by
    rw [Host.release, pinIndex_unpin, map_fst_filter_ne, map_fst_filter_ne, h.keys]
  nodup := by
    rw [Host.release, map_fst_filter_ne]
    exact h.nodup.filter _
  session := (length_filter_le _ _).trans h.session
  connection := fun connectionId =>
    (Sublist.countP_le filter_sublist).trans (h.connection connectionId)
  ordered := ordered_unpin h.ordered cursor
  pins := by
    intro entry hentry
    rw [Host.release, pinIndex_unpin, mem_filter] at hentry
    apply (h.pins entry hentry.1).keep
    apply keeps_unpin
    intro r hr
    exact mem_filter.mpr ⟨hr, hentry.2⟩

theorem sweep_induction {P : Host α κ → Prop} {now} (h : P host)
    (hrelease : ∀ cursor ∈ host.expired now, ∀ after, P after → P (after.release cursor))
    (hsweep : ∀ after, P after → P { after with revisions := after.revisions.sweep now }) :
    P (host.sweep now) :=
  hsweep _ (foldlRecOn _ _ h fun after hafter cursor hcursor => hrelease cursor hcursor after hafter)

theorem sweep_active_sublist (host : Host α κ) (now : Int) : (host.sweep now).active.Sublist host.active := by
  apply sweep_induction (P := fun after => after.active.Sublist host.active) (Sublist.refl _)
  · intro cursor _ after hafter
    exact filter_sublist.trans hafter
  · intro after hafter
    exact hafter

theorem Valid.sweep (h : host.Valid signer) (now : Int) : (host.sweep now).Valid signer := by
  apply sweep_induction h
  · intro cursor _ after hafter
    exact hafter.release cursor
  · intro after hafter
    have hordered := ordered_sweep hafter.ordered now
    refine Valid.of_revisions hafter rfl hordered fun cursor => ?_
    exact keeps_sweep (fun _ hr => .inl (ne_nil_of_mem hr)) after.revisions

theorem Valid.issue (h : host.Valid signer) {envelope key} (hpoints : envelope.PointsTo key) {active}
    (hsession : host.active.length < maxCursorsPerSession)
    (hconnection : host.cursorsOf active.connectionId < maxCursorsPerConnection) {revisions}
    (hpin : host.revisions.pin (signer.sign envelope) key envelope.revision = some revisions) :
    Valid signer ⟨revisions, assocSet (signer.sign envelope) active host.active⟩ where
  keys := by
    rcases pin_cases hpin with ⟨hpinned, rfl⟩ | ⟨hfresh, -, r, -, -, -, hindex⟩
    · rw [h.keys, map_fst_assocSet_of_mem]
      rw [← h.keys]
      exact isSome_lookup_iff.mp hpinned
    · have hnone : host.active.lookup (signer.sign envelope) = none := by
        rw [← Option.not_isSome_iff_eq_none, isSome_lookup_iff, ← h.keys, ← isSome_lookup_iff, hfresh]
        exact Bool.false_ne_true
      rw [hindex, assocSet_of_lookup_none hnone, map_append, map_append, h.keys]
      rfl
  nodup := nodup_keys_assocSet _ _ h.nodup
  session := (length_assocSet_le _ _ _).trans hsession
  connection := by
    intro connectionId
    refine (countP_assocSet_le _ _ _ _).trans ?_
    split
    · next heq =>
      rw [← of_decide_eq_true heq]
      exact hconnection
    · exact h.connection connectionId
  ordered := ordered_pin h.ordered hpin
  pins := by
    have hold : ∀ entry ∈ host.revisions.pinIndex, PinnedBy signer revisions entry := by
      intro entry hentry
      apply (h.pins entry hentry).keep
      exact keeps_pin (fun r hr => mem_append_left _ hr) hpin
    rcases pin_cases hpin with ⟨-, rfl⟩ | ⟨-, -, r, hr, hid, hresources, hindex⟩
    · exact h.pins
    · intro entry hentry
      rw [hindex, mem_append, mem_singleton] at hentry
      rcases hentry with hentry | rfl
      · exact hold entry hentry
      · refine ⟨⟨envelope, rfl, hid.symm, hpoints⟩, ?_⟩
        rw [hresources]
        refine ⟨{ r with pins := r.pins ++ [signer.sign envelope] }, ?_, rfl, mem_append_right _ ?_⟩
        · simp only [RevisionStore.modify, Function.update_self]
          exact mem_map.mpr ⟨r, hr, if_pos rfl⟩
        · exact mem_singleton.mpr rfl

/-- A cursor is in use by a connection, at least until a time, and pins a revision with this snapshot. -/
structure Held (cursor : κ) (connectionId : JsStr) (expiry : Int) (key : JsStr) (number : Nat)
    (payload : Snapshot α) (host : Host α κ) : Prop where
  active : ∃ active, host.active.lookup cursor = some active ∧ active.connectionId = connectionId ∧
    expiry ≤ active.expiresAt
  revision : ∃ r ∈ host.revisions.resources key, r.number = number ∧ r.payload = payload ∧ cursor ∈ r.pins

section

variable {cursor : κ} {connectionId : JsStr} {expiry : Int} {key : JsStr} {number : Nat}
  {payload : Snapshot α} {host : Host α κ} (h : host.Held cursor connectionId expiry key number payload)
include h

theorem Held.of_revisions {revisions}
    (hkeeps : RevisionStore.Keeps (fun r => cursor ∈ r.pins) host.revisions revisions) :
    Held cursor connectionId expiry key number payload { host with revisions } := by
  obtain ⟨r, hr, hnumber, hpayload, hpin⟩ := h.revision
  obtain ⟨s, hs, hnumber', hpayload', hpin'⟩ := hkeeps key r hr hpin
  exact ⟨h.active, s, hs, hnumber'.trans hnumber, hpayload'.trans hpayload, hpin'⟩

theorem Held.release {other}
    (hne : other ≠ cursor) : (host.release other).Held cursor connectionId expiry key number payload := by
  have hkeeps : RevisionStore.Keeps (fun r => cursor ∈ r.pins) host.revisions
      (host.revisions.unpin other) := by
    apply keeps_unpin
    intro r hr
    exact mem_filter.mpr ⟨hr, decide_eq_true hne.symm⟩
  refine ⟨?_, (h.of_revisions hkeeps).revision⟩
  obtain ⟨active, hlookup, hactive⟩ := h.active
  refine ⟨active, ?_, hactive⟩
  have hfilter := lookup_filter_keys (fun key => decide (key ≠ other)) cursor host.active
  rw [if_pos (decide_eq_true hne.symm), hlookup] at hfilter
  exact hfilter

theorem Held.notMem_expired (hnodup : (host.active.map Prod.fst).Nodup) {now} (hnow : now < expiry) :
    cursor ∉ host.expired now := by
  intro hmem
  obtain ⟨entry, hentry, rfl⟩ := mem_map.mp hmem
  obtain ⟨hactive, hexpired⟩ := mem_filter.mp hentry
  obtain ⟨active, hlookup, -, hexpiry⟩ := h.active
  rw [lookup_of_mem hnodup hactive, Option.some.injEq] at hlookup
  have hle : entry.2.expiresAt ≤ now := of_decide_eq_true hexpired
  rw [hlookup] at hle
  omega

theorem Held.sweep (hnodup : (host.active.map Prod.fst).Nodup) {now} (hnow : now < expiry) :
    (host.sweep now).Held cursor connectionId expiry key number payload := by
  have hnot := h.notMem_expired hnodup hnow
  apply sweep_induction h
  · intro other hother after hafter
    apply hafter.release
    rintro rfl
    exact hnot hother
  · intro after hafter
    exact hafter.of_revisions (keeps_sweep (fun _ hr => .inl (ne_nil_of_mem hr)) after.revisions)

theorem Held.issue {issued key' id active revisions} (hpin : host.revisions.pin issued key' id = some revisions)
    (hsame : issued = cursor → active.connectionId = connectionId ∧ expiry ≤ active.expiresAt) :
    Held cursor connectionId expiry key number payload ⟨revisions, assocSet issued active host.active⟩ := by
  have hrevisions := h.of_revisions (keeps_pin (fun r hr => mem_append_left _ hr) hpin)
  refine ⟨?_, hrevisions.revision⟩
  by_cases heq : cursor = issued
  · refine ⟨active, ?_, hsame heq.symm⟩
    rw [lookup_assocSet, if_pos heq]
  · obtain ⟨held, hlookup, hheld⟩ := h.active
    refine ⟨held, ?_, hheld⟩
    rw [lookup_assocSet, if_neg heq, hlookup]

end

end Host

section

variable [DecidableEq δ] [DecidableEq κ] {session : Session α δ κ ν} {event : Event α κ ν} {issued : Option κ}
  {host : Host α κ}

theorem HostStep.valid {after} (hstep : HostStep session event issued host after)
    (h : host.Valid session.signer) : after.Valid session.signer := by
  cases hstep with
  | access key id =>
    refine h.of_revisions (pinIndex_access key id event.now host.revisions)
      (ordered_access h.ordered key id event.now) fun cursor => ?_
    exact keeps_access (fun _ hr => hr) key id host.revisions
  | create key payload =>
    refine h.of_revisions (pinIndex_createRevision session.codec key payload event.now host.revisions)
      (ordered_createRevision session.codec h.ordered key payload event.now) fun cursor => ?_
    exact keeps_createRevision session.codec (fun _ hr => ne_nil_of_mem hr) h.ordered key payload event.now
  | release cursor _ => exact h.release cursor
  | sweep => exact h.sweep event.now
  | issue envelope kind resourceId revisions _ hpoints hsession hconnection hpin =>
    exact h.issue hpoints hsession hconnection hpin

theorem HostSteps.valid {after} (hsteps : HostSteps session event issued host after)
    (h : host.Valid session.signer) : after.Valid session.signer := by
  induction hsteps with
  | refl => exact h
  | tail _ hstep ih => exact hstep.valid ih

variable {cursor : κ} {connectionId : JsStr} {expiry : Int} {key : JsStr} {number : Nat}
  {payload : Snapshot α}

/-- A request leaves a held cursor alone. -/
structure Spares (event : Event α κ ν) (issued : Option κ) (cursor : κ) (connectionId : JsStr)
    (expiry : Int) : Prop where
  alive : event.now < expiry
  notPresented : event.request.cursor ≠ some cursor
  notIssued : issued = some cursor → event.request.connectionId = connectionId ∧ expiry ≤ event.now + cursorTtlMs

variable (hvalid : host.Valid session.signer) (hspares : Spares event issued cursor connectionId expiry)
  (h : host.Held cursor connectionId expiry key number payload)
include hvalid hspares h

theorem HostStep.held {after} (hstep : HostStep session event issued host after) :
    after.Held cursor connectionId expiry key number payload := by
  cases hstep with
  | access key id => exact h.of_revisions (keeps_access (fun _ hr => hr) key id host.revisions)
  | create key payload =>
    exact h.of_revisions (keeps_createRevision session.codec (fun _ hr => ne_nil_of_mem hr)
      hvalid.ordered key payload event.now)
  | release other hother =>
    apply h.release
    rintro rfl
    exact hspares.notPresented hother
  | sweep => exact h.sweep hvalid.nodup hspares.alive
  | issue envelope kind resourceId revisions hissued _ _ _ hpin =>
    apply h.issue hpin
    rintro rfl
    exact hspares.notIssued hissued

theorem HostSteps.held {after} (hsteps : HostSteps session event issued host after) :
    after.Held cursor connectionId expiry key number payload := by
  induction hsteps with
  | refl => exact h
  | tail hbefore hstep ih => exact hstep.held (HostSteps.valid hbefore hvalid) hspares ih

end

end GajaeCode.Query
