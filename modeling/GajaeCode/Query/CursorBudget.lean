import GajaeCode.Data.Run
import GajaeCode.Query.HostInvariant

/-! Calls of the cursor registry that overlap. A grant checks the budgets and pins in one go, waits for the pin, and
enters its cursor in the table when it goes on; the other calls do not wait. -/
namespace GajaeCode.Query

open Text Data List

variable {α κ ν : Type} [DecidableEq κ]

/-- A grant between its pin and its entry in the table. -/
structure PendingGrant (κ : Type) where
  connectionId : JsStr
  cursor : κ
  resourceId : JsStr

namespace Host

/-- The part of `grant` before it waits; without a pending grant it is refused. -/
def beginGrant (signer : CursorSigner κ ν) (connectionId : JsStr) (envelope : CursorEnvelope ν)
    (resourceKind resourceId : JsStr) (now : Int) (host : Host α κ) : Host α κ × Option (PendingGrant κ) :=
  let host := host.sweep now
  if maxCursorsPerSession ≤ host.active.length ∨ maxCursorsPerConnection ≤ host.cursorsOf connectionId then
    (host, none)
  else
    match host.revisions.pin (signer.sign envelope) (resourceKey resourceKind resourceId) envelope.revision with
    | none => (host, none)
    | some revisions =>
      ({ host with revisions }, some { connectionId, cursor := signer.sign envelope, resourceId })

def enter (grant : PendingGrant κ) (now : Int) (host : Host α κ) : Host α κ :=
  { host with
    active := assocSet grant.cursor
      { connectionId := grant.connectionId, resourceId := grant.resourceId, expiresAt := now + cursorTtlMs }
      host.active }

end Host

structure Registry (α κ : Type) where
  host : Host α κ
  pending : List (PendingGrant κ)

/-- One stretch of a call without waiting. `store` is whatever else happens to the revisions. -/
inductive RegistryStep (α κ ν : Type) where
  | grant (connectionId : JsStr) (envelope : CursorEnvelope ν) (resourceKind resourceId : JsStr) (now : Int)
  | enter (index : Nat) (now : Int)
  | consume (cursor : κ) (connectionId : JsStr) (expected : CursorQueryContext) (now : Int)
  | release (cursor : κ)
  | sweep (now : Int)
  | store (resources : JsStr → List (Revision α κ))

namespace Registry

def step (signer : CursorSigner κ ν) (registry : Registry α κ) : RegistryStep α κ ν → Registry α κ
  | .grant connectionId envelope resourceKind resourceId now =>
    match registry.host.beginGrant signer connectionId envelope resourceKind resourceId now with
    | (host, none) => { registry with host }
    | (host, some grant) => { host, pending := registry.pending ++ [grant] }
  | .enter index now =>
    match registry.pending[index]? with
    | none => registry
    | some grant => { host := registry.host.enter grant now, pending := registry.pending.eraseIdx index }
  | .consume cursor connectionId expected now =>
    { registry with host := (registry.host.consume signer cursor connectionId expected now).1 }
  | .release cursor => { registry with host := registry.host.release cursor }
  | .sweep now => { registry with host := registry.host.sweep now }
  | .store resources =>
    { registry with host := { registry.host with revisions := { registry.host.revisions with resources } } }

def fresh (resources : JsStr → List (Revision α κ)) : Registry α κ := ⟨⟨⟨resources, []⟩, []⟩, []⟩

structure WithinBudget (registry : Registry α κ) : Prop where
  session : registry.host.active.length ≤ maxCursorsPerSession
  connection : ∀ connectionId, registry.host.cursorsOf connectionId ≤ maxCursorsPerConnection

def released (registry : Registry α κ) : RegistryStep α κ ν → List κ
  | .grant _ _ _ _ now => registry.host.expired now
  | .enter _ _ => []
  | .consume cursor _ _ _ => [cursor]
  | .release cursor => [cursor]
  | .sweep now => registry.host.expired now
  | .store _ => []

/-- No grant begins while another one waits. -/
def Alone (registry : Registry α κ) : RegistryStep α κ ν → Prop
  | .grant _ _ _ _ _ => registry.pending = []
  | _ => True

def granted : RegistryStep α κ ν → Option JsStr
  | .grant connectionId _ _ _ _ => some connectionId
  | _ => none

/-- No grant begins while another one of the connection waits, and no cursor that is waited for is released. -/
def Apart (registry : Registry α κ) (step : RegistryStep α κ ν) : Prop :=
  (∀ grant ∈ registry.pending, granted step ≠ some grant.connectionId) ∧
    ∀ grant ∈ registry.pending, grant.cursor ∉ registry.released step

theorem consume_cases (signer : CursorSigner κ ν) (cursor : κ) (connectionId : JsStr)
    (expected : CursorQueryContext) (now : Int) (host : Host α κ) :
    (host.consume signer cursor connectionId expected now).1 = host ∨
      (host.consume signer cursor connectionId expected now).1 = host.release cursor := by
  rw [Host.consume]
  split
  · exact .inl rfl
  · split
    · exact .inr rfl
    · split_ifs
      · exact .inr rfl
      · exact .inl rfl
      · exact .inr rfl

variable {signer : CursorSigner κ ν} {now : Int} {host : Host α κ} {registry : Registry α κ}

theorem beginGrant_cases {connectionId envelope kind resourceId after grant}
    (h : host.beginGrant signer connectionId envelope kind resourceId now = (after, grant)) :
    grant = none ∧ after = host.sweep now ∨ grant = some ⟨connectionId, signer.sign envelope, resourceId⟩ ∧
        (host.sweep now).active.length < maxCursorsPerSession ∧
        (host.sweep now).cursorsOf connectionId < maxCursorsPerConnection ∧
        ∃ revisions, (host.sweep now).revisions.pin (signer.sign envelope) (resourceKey kind resourceId)
          envelope.revision = some revisions ∧ after = ⟨revisions, (host.sweep now).active⟩ := by
  simp only [Host.beginGrant] at h
  split_ifs at h with hroom
  · obtain ⟨rfl, rfl⟩ := Prod.mk.inj h
    exact .inl ⟨rfl, rfl⟩
  · rw [not_or, not_le, not_le] at hroom
    split at h
    · obtain ⟨rfl, rfl⟩ := Prod.mk.inj h
      exact .inl ⟨rfl, rfl⟩
    · next revisions hpin =>
      obtain ⟨rfl, rfl⟩ := Prod.mk.inj h
      exact .inr ⟨rfl, hroom.1, hroom.2, revisions, hpin, rfl⟩

omit [DecidableEq κ] in
theorem WithinBudget.mono (h : registry.WithinBudget)
    (hactive : host.active.Sublist registry.host.active) (pending : List (PendingGrant κ)) :
    WithinBudget ⟨host, pending⟩ :=
  ⟨hactive.length_le.trans h.session, fun connectionId => hactive.countP_le.trans (h.connection connectionId)⟩

theorem WithinBudget.enter (h : registry.WithinBudget) {grant}
    (hsession : (registry.host.enter grant now).active.length ≤ maxCursorsPerSession)
    (hconnection : registry.host.cursorsOf grant.connectionId < maxCursorsPerConnection)
    (pending : List (PendingGrant κ)) : WithinBudget ⟨registry.host.enter grant now, pending⟩ := by
  refine ⟨hsession, fun connectionId => (countP_assocSet_le _ _ _ _).trans ?_⟩
  split
  · next heq =>
    rw [← of_decide_eq_true heq]
    exact hconnection
  · exact h.connection connectionId

/-- The invariant while grants do not overlap: the one that waits still finds room. -/
structure Single (registry : Registry α κ) : Prop where
  budget : registry.WithinBudget
  pending : registry.pending.length ≤ 1
  room : ∀ grant ∈ registry.pending, registry.host.active.length < maxCursorsPerSession ∧
    registry.host.cursorsOf grant.connectionId < maxCursorsPerConnection

omit [DecidableEq κ] in
theorem Single.mono (h : registry.Single) (hactive : host.active.Sublist registry.host.active) :
    Single ⟨host, registry.pending⟩ where
  budget := h.budget.mono hactive registry.pending
  pending := h.pending
  room := fun grant hgrant =>
    ⟨hactive.length_le.trans_lt (h.room grant hgrant).1, hactive.countP_le.trans_lt (h.room grant hgrant).2⟩

theorem Single.step (h : registry.Single) {step} (halone : registry.Alone step) :
    (registry.step signer step).Single := by
  cases step with
  | grant connectionId envelope kind resourceId now =>
    have hswept := h.mono (Host.sweep_active_sublist registry.host now)
    rw [Registry.step]
    cases hbegin : registry.host.beginGrant signer connectionId envelope kind resourceId now with
    | mk after grant =>
      rcases beginGrant_cases hbegin with ⟨rfl, rfl⟩ | ⟨rfl, hsession, hconnection, revisions, -, rfl⟩
      · exact hswept
      · have hnil : registry.pending = [] := halone
        rw [hnil]
        refine ⟨⟨hswept.budget.session, hswept.budget.connection⟩, le_rfl, ?_⟩
        exact forall_mem_singleton.mpr ⟨hsession, hconnection⟩
  | enter index now =>
    rw [Registry.step]
    cases hget : registry.pending[index]? with
    | none => exact h
    | some grant =>
      have hroom := h.room grant (mem_of_getElem? hget)
      have hempty : registry.pending.eraseIdx index = [] := by
        obtain ⟨hlt, -⟩ := List.getElem?_eq_some_iff.mp hget
        have hlength := length_eraseIdx_of_lt hlt
        have hone := h.pending
        exact eq_nil_of_length_eq_zero (by omega)
      rw [hempty]
      exact ⟨h.budget.enter ((length_assocSet_le _ _ _).trans hroom.1) hroom.2 _, Nat.zero_le 1, nofun⟩
  | consume cursor connectionId expected now =>
    apply h.mono
    rcases consume_cases signer cursor connectionId expected now registry.host with heq | heq
    · rw [heq]
    · rw [heq]
      exact filter_sublist
  | release cursor => exact h.mono filter_sublist
  | sweep now => exact h.mono (Host.sweep_active_sublist registry.host now)
  | store resources => exact h.mono (Sublist.refl _)

/-- The invariant while no cursor that is waited for is released: the pins bound the cursors of the session, and a
connection waits for one grant at most. -/
structure Pinned (registry : Registry α κ) : Prop where
  budget : registry.WithinBudget
  nodup : (registry.host.active.map Prod.fst).Nodup
  pins : registry.host.revisions.pinIndex.length ≤ maxPinnedRevisions
  active : ∀ cursor ∈ registry.host.active.map Prod.fst, cursor ∈ registry.host.revisions.pinIndex.map Prod.fst
  pending : ∀ grant ∈ registry.pending, grant.cursor ∈ registry.host.revisions.pinIndex.map Prod.fst
  apart : (registry.pending.map PendingGrant.connectionId).Nodup
  room : ∀ grant ∈ registry.pending, registry.host.cursorsOf grant.connectionId < maxCursorsPerConnection

theorem Pinned.release (h : registry.Pinned) {cursor} (hcursor : ∀ grant ∈ registry.pending, grant.cursor ≠ cursor) :
    Pinned ⟨registry.host.release cursor, registry.pending⟩ where
  budget := h.budget.mono filter_sublist registry.pending
  nodup := (filter_sublist.map _).nodup h.nodup
  pins := by
    rw [Host.release, RevisionStore.pinIndex_unpin]
    exact (length_filter_le _ _).trans h.pins
  active := by
    intro key hkey
    rw [Host.release, Host.map_fst_filter_ne, mem_filter] at hkey
    rw [Host.release, RevisionStore.pinIndex_unpin, Host.map_fst_filter_ne, mem_filter]
    exact ⟨h.active key hkey.1, hkey.2⟩
  pending := by
    intro grant hgrant
    rw [Host.release, RevisionStore.pinIndex_unpin, Host.map_fst_filter_ne, mem_filter]
    exact ⟨h.pending grant hgrant, decide_eq_true (hcursor grant hgrant)⟩
  apart := h.apart
  room := fun grant hgrant => (filter_sublist.countP_le).trans_lt (h.room grant hgrant)

omit [DecidableEq κ] in
theorem Pinned.of_revisions (h : registry.Pinned) {revisions : RevisionStore α κ}
    (hindex : revisions.pinIndex = registry.host.revisions.pinIndex) :
    Pinned ⟨{ registry.host with revisions }, registry.pending⟩ := by
  refine ⟨⟨h.budget.session, h.budget.connection⟩, h.nodup, ?_, ?_, ?_, h.apart, h.room⟩ <;> rw [hindex]
  · exact h.pins
  · exact h.active
  · exact h.pending

theorem Pinned.sweep (h : registry.Pinned)
    (hcursor : ∀ grant ∈ registry.pending, grant.cursor ∉ registry.host.expired now) :
    Pinned ⟨registry.host.sweep now, registry.pending⟩ := by
  apply Host.sweep_induction (P := fun host => Pinned ⟨host, registry.pending⟩) h
  · intro cursor hexpired after hafter
    apply Pinned.release hafter
    rintro grant hgrant rfl
    exact hcursor grant hgrant hexpired
  · intro after hafter
    exact hafter.of_revisions rfl

theorem Pinned.grant (h : registry.Pinned) {grant key id revisions}
    (hpin : registry.host.revisions.pin grant.cursor key id = some revisions)
    (hconnection : registry.host.cursorsOf grant.connectionId < maxCursorsPerConnection)
    (hapart : ∀ other ∈ registry.pending, some grant.connectionId ≠ some other.connectionId) :
    Pinned ⟨⟨revisions, registry.host.active⟩, registry.pending ++ [grant]⟩ := by
  obtain ⟨hmono, hnew, hpins⟩ : registry.host.revisions.pinIndex.map Prod.fst ⊆ revisions.pinIndex.map Prod.fst ∧
      grant.cursor ∈ revisions.pinIndex.map Prod.fst ∧ revisions.pinIndex.length ≤ maxPinnedRevisions := by
    rcases RevisionStore.pin_cases hpin with ⟨hpinned, rfl⟩ | ⟨-, hlt, r, -, -, -, hindex⟩
    · exact ⟨Subset.refl _, isSome_lookup_iff.mp hpinned, h.pins⟩
    · rw [hindex, map_append, length_append]
      exact ⟨subset_append_left _ _, mem_append_right _ (mem_singleton.mpr rfl), hlt⟩
  refine ⟨⟨h.budget.session, h.budget.connection⟩, h.nodup, hpins, ?_, ?_, ?_, ?_⟩
  · exact fun cursor hcursor => hmono (h.active cursor hcursor)
  · exact forall_mem_append.mpr ⟨fun _ hother => hmono (h.pending _ hother), forall_mem_singleton.mpr hnew⟩
  · rw [map_append]
    refine Nodup.append h.apart (nodup_singleton _) ?_
    intro connectionId hold hnew
    obtain ⟨other, hother, rfl⟩ := mem_map.mp hold
    exact hapart other hother (congrArg some (mem_singleton.mp hnew).symm)
  · exact forall_mem_append.mpr ⟨h.room, forall_mem_singleton.mpr hconnection⟩

theorem Pinned.enter (h : registry.Pinned) {index grant} (hget : registry.pending[index]? = some grant) (now : Int) :
    Pinned ⟨registry.host.enter grant now, registry.pending.eraseIdx index⟩ := by
  have hmem := mem_of_getElem? hget
  have hactive : ∀ cursor ∈ (registry.host.enter grant now).active.map Prod.fst,
      cursor ∈ registry.host.revisions.pinIndex.map Prod.fst := by
    intro cursor hcursor
    rcases (mem_keys_assocSet _ _ _ _).mp hcursor with rfl | hcursor
    · exact h.pending grant hmem
    · exact h.active cursor hcursor
  have hnodup : ((registry.host.enter grant now).active.map Prod.fst).Nodup := nodup_keys_assocSet _ _ h.nodup
  have hsession : (registry.host.enter grant now).active.length ≤ maxCursorsPerSession := by
    have hlength := (subperm_of_subset hnodup hactive).length_le
    rw [length_map, length_map] at hlength
    exact hlength.trans h.pins
  refine ⟨h.budget.enter hsession (h.room grant hmem) _, hnodup, h.pins, hactive, ?_, ?_, ?_⟩
  · exact fun other hother => h.pending other (mem_of_mem_eraseIdx hother)
  · exact ((eraseIdx_sublist _ _).map _).nodup h.apart
  · intro other hother
    have hne : grant.connectionId ≠ other.connectionId := by
      intro heq
      obtain ⟨j, hj, hother⟩ := mem_eraseIdx_iff_getElem?.mp hother
      have hlt := (List.getElem?_eq_some_iff.mp hother).1
      refine hj ((getElem?_inj ?_ h.apart).mp ?_)
      · rw [length_map]
        exact hlt
      · rw [getElem?_map, getElem?_map, hother, hget, Option.map_some, Option.map_some, heq]
    refine lt_of_le_of_lt ((countP_assocSet_le _ _ _ _).trans ?_) (h.room other (mem_of_mem_eraseIdx hother))
    rw [if_neg (by simpa using hne)]
    exact le_rfl

theorem Pinned.step (h : registry.Pinned) {step} (hapart : registry.Apart step) :
    (registry.step signer step).Pinned := by
  obtain ⟨hconnection, hreleased⟩ := hapart
  cases step with
  | grant connectionId envelope kind resourceId now =>
    have hswept := h.sweep hreleased
    rw [Registry.step]
    cases hbegin : registry.host.beginGrant signer connectionId envelope kind resourceId now with
    | mk after grant =>
      rcases beginGrant_cases hbegin with ⟨rfl, rfl⟩ | ⟨rfl, -, hroom, revisions, hpin, rfl⟩
      · exact hswept
      · exact Pinned.grant hswept hpin hroom hconnection
  | enter index now =>
    rw [Registry.step]
    cases hget : registry.pending[index]? with
    | none => exact h
    | some grant => exact h.enter hget now
  | consume cursor connectionId expected now =>
    have hne : ∀ grant ∈ registry.pending, grant.cursor ≠ cursor :=
      fun grant hgrant heq => hreleased grant hgrant (mem_singleton.mpr heq)
    rw [Registry.step]
    rcases consume_cases signer cursor connectionId expected now registry.host with heq | heq
    · rw [heq]
      exact h
    · rw [heq]
      exact h.release hne
  | release cursor =>
    exact h.release fun grant hgrant heq => hreleased grant hgrant (mem_singleton.mpr heq)
  | sweep now => exact h.sweep hreleased
  | store resources => exact h.of_revisions rfl

/-- The budgets hold at every moment of a run in which no grant begins while another one waits, and of one in which
none begins while another of its connection waits and no cursor that is waited for is released. -/
theorem withinBudget_of_ordered_grants (signer : CursorSigner κ ν) (resources : JsStr → List (Revision α κ))
    (steps : List (RegistryStep α κ ν))
    (h : Along (step signer) Alone (fresh resources) steps ∨ Along (step signer) Apart (fresh resources) steps) :
    (run (step signer) (fresh resources) steps).WithinBudget := by
  have hbudget : (fresh resources).WithinBudget := ⟨Nat.zero_le _, fun _ => Nat.zero_le _⟩
  rcases h with h | h
  · have hfresh : (fresh resources).Single := ⟨hbudget, Nat.zero_le 1, by simp [fresh]⟩
    exact (run_induction (fun _ _ hsingle halone => hsingle.step halone) hfresh h).budget
  · have hfresh : (fresh resources).Pinned :=
      ⟨hbudget, nodup_nil, Nat.zero_le _, by simp [fresh], by simp [fresh], nodup_nil, by simp [fresh]⟩
    exact (run_induction (fun _ _ hpinned hapart => hpinned.step hapart) hfresh h).budget

def grantAt (connectionId : JsStr) (offset : Nat) : RegistryStep Nat (CursorEnvelope Nat) Nat :=
  .grant connectionId
    { sessionId := lit "s", resource := lit "r", revision := lit "1",
      position := { offset := some offset, byteOffset := none, selector := none }, direction := lit "forward",
      targetBytes := targetPageBytes, extra := {} }
    (lit "r") (lit "d") 0

def oneRevision : JsStr → List (Revision Nat (CursorEnvelope Nat)) :=
  fun _ => [{ number := 1, payload := .array [], pins := [], lastAccessed := 0 }]

/-- The grants of two connections overlap. -/
theorem withinBudget_of_ordered_grants_two : (run (step ⟨id, some⟩) (fresh oneRevision)
      [grantAt (lit "c") 0, grantAt (lit "d") 1, .enter 0 0, .enter 0 0]).WithinBudget := by
  refine withinBudget_of_ordered_grants ⟨id, some⟩ oneRevision _ (.inr ⟨?_, ?_, ?_, ?_, trivial⟩) <;>
    unfold Apart <;> decide +kernel

/-- Thirty-three grants that all wait for their pins are all entered. -/
theorem overlapping_grants_exceed_budget : maxCursorsPerConnection < (run (step ⟨id, some⟩) (fresh oneRevision)
      ((List.range 33).map (grantAt (lit "c")) ++ replicate 33 (.enter 0 0))).host.cursorsOf (lit "c") := by
  decide +kernel

end Registry

end GajaeCode.Query
