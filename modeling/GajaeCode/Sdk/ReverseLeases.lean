import GajaeCode.Data.InsertionMap
import GajaeCode.Data.Run
import GajaeCode.Text.JsString

/-! The reverse leases of `reverse-leases.ts`: which connection provides a capability, the requests sent to
providers, and who may answer them. The hooks that install and remove definitions are seen only through
`installs`, and a request that is rejected before it is recorded changes nothing. -/
namespace GajaeCode.ReverseLeases
open Data Text List

def reverseReclaimGraceMs : Nat := 15000
def maxReverseOutstanding : Nat := 64
def maxReversePayloadBytes : Nat := 256 * 1024

inductive ReverseLeaseError where
  | leaseUnavailable | leaseExpired | providerLeaseConflict | providerRequired | notLeaseOwner | payloadTooLarge
  | tooManyOutstanding | unknownRequest | idempotencyConflict | installFailed
deriving DecidableEq

/-- `object` tells lease objects apart, which a replayed registration compares by identity. -/
structure ProviderLease (δ : Type) where
  leaseId : Nat
  connectionId : JsStr
  definitions : δ
  expiresAt : Nat
  graceUntil : Option Nat
  active : Bool
  object : Nat
deriving DecidableEq

structure Outstanding where
  connectionId : JsStr
  capability : JsStr
  leaseId : Nat
deriving DecidableEq

/-- `drawn` counts the ids drawn so far: `randomUUID` returns none twice. -/
structure ReverseLeaseRuntime (δ φ : Type) where
  leases : List (JsStr × ProviderLease δ)
  idempotency : List (JsStr × φ × Nat)
  outstanding : List (Nat × Outstanding)
  drawn : Nat
  now : Nat

/-- An absent key is the empty one, as for the source. -/
structure Registration (δ : Type) where
  connectionId : JsStr
  capability : JsStr
  definitions : δ
  expectedLeaseId : Option Nat
  idempotencyKey : JsStr
  installs : Bool

variable {δ φ : Type}

def Registration.key (call : Registration δ) : JsStr := call.connectionId ++ 0 :: call.idempotencyKey

/-- The lease id that a registration carries on, if any. -/
def keptLeaseId (call : Registration δ) (now : Nat) :
    Option (ProviderLease δ) → Except ReverseLeaseError (Option Nat)
  | none => .ok none
  | some existing =>
    if existing.active = false ∧ now < existing.expiresAt then
      -- a handoff that waits for its new provider
      if existing.connectionId ≠ call.connectionId ∨ call.expectedLeaseId ≠ some existing.leaseId then
        .error .providerLeaseConflict
      else .ok (some existing.leaseId)
    else if call.expectedLeaseId = some existing.leaseId ∧ existing.graceUntil.any (now ≤ ·) then
      .ok (some existing.leaseId)
    else if existing.active ∧ existing.connectionId = call.connectionId ∧ now < existing.expiresAt then
      .ok (some existing.leaseId)
    else if existing.connectionId ≠ call.connectionId ∧ now < existing.expiresAt then
      .error .providerLeaseConflict
    else .ok none

abbrev Answer (δ φ β : Type) := Except ReverseLeaseError (ReverseLeaseRuntime δ φ × β)

namespace ReverseLeaseRuntime

variable (leaseTtlMs : Nat) (registrationFingerprint : JsStr → δ → Option Nat → φ)
  (runtime : ReverseLeaseRuntime δ φ) (call : Registration δ) (connectionId : JsStr) (leaseId : Nat)

def replay : Option (φ × Nat) :=
  if call.idempotencyKey = [] then none else runtime.idempotency.lookup call.key

def remember (fingerprint : φ) : List (JsStr × φ × Nat) :=
  if call.idempotencyKey = [] then runtime.idempotency
  else assocSet call.key (fingerprint, runtime.drawn) runtime.idempotency

def registerProvider [DecidableEq φ] : Answer δ φ (ProviderLease δ) :=
  let fingerprint := registrationFingerprint call.capability call.definitions call.expectedLeaseId
  let existing := runtime.leases.lookup call.capability
  if (runtime.replay call).any (·.1 ≠ fingerprint) then .error .idempotencyConflict
  else
    match existing.filter fun current =>
      (runtime.replay call).any (·.2 = current.object) ∧ current.active ∧ runtime.now < current.expiresAt with
    | some current => .ok (runtime, current)
    | none =>
      match keptLeaseId call runtime.now existing with
      | .error error => .error error
      | .ok kept =>
        let lease : ProviderLease δ := ⟨kept.getD runtime.drawn, call.connectionId, call.definitions,
          runtime.now + leaseTtlMs, none, true, runtime.drawn⟩
        if call.installs = false then .error .installFailed
        else .ok (⟨assocSet call.capability lease runtime.leases, runtime.remember call fingerprint,
          runtime.outstanding, runtime.drawn + 1, runtime.now⟩, lease)

def owner : Except ReverseLeaseError (JsStr × ProviderLease δ) :=
  match runtime.leases.find? (·.2.leaseId = leaseId) with
  | none => .error .notLeaseOwner
  | some entry =>
    if entry.2.active ∧ entry.2.connectionId = connectionId then .ok entry else .error .notLeaseOwner

def heartbeat : Answer δ φ (ProviderLease δ) :=
  match runtime.owner connectionId leaseId with
  | .error error => .error error
  | .ok (capability, lease) =>
    let renewed := { lease with expiresAt := runtime.now + leaseTtlMs, graceUntil := none }
    if lease.expiresAt ≤ runtime.now then .error .leaseExpired
    else .ok ({ runtime with leases := assocSet capability renewed runtime.leases }, renewed)

def cancelForConnection : ReverseLeaseRuntime δ φ :=
  { runtime with outstanding := runtime.outstanding.filter (·.2.connectionId ≠ connectionId) }

def release (handoffTo : JsStr) : Answer δ φ (ProviderLease δ) :=
  match runtime.owner connectionId leaseId with
  | .error error => .error error
  | .ok (capability, lease) =>
    let cancelled := runtime.cancelForConnection connectionId
    let handed : ProviderLease δ := { lease with
      connectionId := handoffTo
      expiresAt := runtime.now + reverseReclaimGraceMs
      graceUntil := none
      active := false }
    if handoffTo ≠ [] then .ok ({ cancelled with leases := assocSet capability handed runtime.leases }, handed)
    else .ok ({ cancelled with leases := runtime.leases.filter (·.1 ≠ capability) }, lease)

def disconnect : ReverseLeaseRuntime δ φ :=
  { runtime.cancelForConnection connectionId with
    leases := runtime.leases.map fun entry =>
      if entry.2.connectionId = connectionId then
        (entry.1, { entry.2 with
          expiresAt := runtime.now
          graceUntil := some (runtime.now + reverseReclaimGraceMs) })
      else entry }

def liveLease (capability : JsStr) : Option (ProviderLease δ) :=
  (runtime.leases.lookup capability).filter fun lease => lease.active ∧ runtime.now < lease.expiresAt

/-- `delivered` is false when the frame cannot be sent. -/
def request (capability : JsStr) (payloadBytes : Nat) (delivered : Bool) : Answer δ φ Nat :=
  if maxReversePayloadBytes < payloadBytes then .error .payloadTooLarge
  else
    match runtime.liveLease capability with
    | none =>
      if (runtime.leases.lookup capability).any fun lease => lease.active = false ∧ runtime.now < lease.expiresAt then
        .error .leaseUnavailable
      else .error .providerRequired
    | some lease =>
      if maxReverseOutstanding ≤ runtime.outstanding.length then .error .tooManyOutstanding
      else .ok ({ runtime with
        drawn := runtime.drawn + 1
        outstanding := if delivered then
            runtime.outstanding ++ [(runtime.drawn, ⟨lease.connectionId, capability, lease.leaseId⟩)]
          else runtime.outstanding }, runtime.drawn)

def takeOutstanding (id : Nat) : ReverseLeaseRuntime δ φ :=
  { runtime with outstanding := runtime.outstanding.filter (·.1 ≠ id) }

def respond (id leaseId payloadBytes : Nat) : Answer δ φ Outstanding :=
  if maxReversePayloadBytes < payloadBytes then .error .payloadTooLarge
  else
    match runtime.outstanding.lookup id with
    | none => .error .unknownRequest
    | some request =>
      if request.connectionId ≠ connectionId ∨ request.leaseId ≠ leaseId then .error .notLeaseOwner
      else .ok (runtime.takeOutstanding id, request)

end ReverseLeaseRuntime

/-- `abandon` is an aborted request, or one whose frame turned out not to be delivered. -/
inductive Event (δ : Type) where
  | registerProvider (call : Registration δ)
  | heartbeat (connectionId : JsStr) (leaseId : Nat)
  | release (connectionId : JsStr) (leaseId : Nat) (handoffTo : JsStr)
  | disconnect (connectionId : JsStr)
  | request (capability : JsStr) (payloadBytes : Nat) (delivered : Bool)
  | respond (connectionId : JsStr) (id leaseId payloadBytes : Nat)
  | abandon (id : Nat)
  | dispose
  | advance (ms : Nat)

namespace ReverseLeaseRuntime

def start (now : Nat) : ReverseLeaseRuntime δ φ := ⟨[], [], [], 0, now⟩

/-- A call that throws leaves the runtime as it was. -/
def settled {β : Type} (runtime : ReverseLeaseRuntime δ φ) : Answer δ φ β → ReverseLeaseRuntime δ φ
  | .ok (after, _) => after
  | .error _ => runtime

section

variable [DecidableEq φ] (leaseTtlMs : Nat) (registrationFingerprint : JsStr → δ → Option Nat → φ)

def step (runtime : ReverseLeaseRuntime δ φ) : Event δ → ReverseLeaseRuntime δ φ
  | .registerProvider call =>
    runtime.settled (runtime.registerProvider leaseTtlMs registrationFingerprint call)
  | .heartbeat connectionId leaseId => runtime.settled (runtime.heartbeat leaseTtlMs connectionId leaseId)
  | .release connectionId leaseId handoffTo => runtime.settled (runtime.release connectionId leaseId handoffTo)
  | .disconnect connectionId => runtime.disconnect connectionId
  | .request capability payloadBytes delivered =>
    runtime.settled (runtime.request capability payloadBytes delivered)
  | .respond connectionId id leaseId payloadBytes =>
    runtime.settled (runtime.respond connectionId id leaseId payloadBytes)
  | .abandon id => runtime.takeOutstanding id
  | .dispose => { runtime with leases := [], idempotency := [], outstanding := [] }
  | .advance ms => { runtime with now := runtime.now + ms }

def after (now : Nat) (events : List (Event δ)) : ReverseLeaseRuntime δ φ :=
  run (step leaseTtlMs registrationFingerprint) (start now) events

end

/-- The id of a lease has been drawn, an active lease ends in time, and one in its grace period has expired. -/
def Fits (leaseTtlMs drawn now : Nat) (lease : ProviderLease δ) : Prop :=
  lease.leaseId < drawn ∧ (lease.active = true → lease.expiresAt ≤ now + leaseTtlMs) ∧
    (lease.graceUntil ≠ none → lease.expiresAt ≤ now)

/-- Lease ids are not shared, what was sent under a lease of the table was sent to its provider, and the leases of
the watched requests are live. -/
structure Sound (leaseTtlMs : Nat) (watched : Nat → Prop) (runtime : ReverseLeaseRuntime δ φ) : Prop where
  keys : (runtime.leases.map Prod.fst).Nodup
  unshared : ∀ p ∈ runtime.leases, ∀ q ∈ runtime.leases, p.2.leaseId = q.2.leaseId → p = q
  fits : ∀ p ∈ runtime.leases, Fits leaseTtlMs runtime.drawn runtime.now p.2
  sent : ∀ r ∈ runtime.outstanding, r.2.leaseId < runtime.drawn
  provider : ∀ r ∈ runtime.outstanding, ∀ p ∈ runtime.leases, p.2.leaseId = r.2.leaseId →
    p.1 = r.2.capability ∧ p.2.connectionId = r.2.connectionId ∧ p.2.active = true ∧ p.2.graceUntil = none
  live : ∀ r ∈ runtime.outstanding, watched r.1 → ∃ lease, (r.2.capability, lease) ∈ runtime.leases ∧
    lease.leaseId = r.2.leaseId ∧ runtime.now < lease.expiresAt

variable {leaseTtlMs drawn now : Nat} {registrationFingerprint : JsStr → δ → Option Nat → φ}
  {watched : Nat → Prop} {runtime result : ReverseLeaseRuntime δ φ} {connectionId capability handoffTo : JsStr}
  {leaseId : Nat} {lease : ProviderLease δ} {call : Registration δ}

theorem owner_eq_ok (h : runtime.owner connectionId leaseId = .ok (capability, lease)) :
    (capability, lease) ∈ runtime.leases ∧ lease.leaseId = leaseId ∧ lease.active = true ∧
      lease.connectionId = connectionId := by
  unfold owner at h
  split at h
  · cases h
  · next entry hfind =>
    split_ifs at h with howns
    cases h
    exact ⟨mem_of_find?_eq_some hfind, by simpa using find?_some hfind, howns⟩

theorem keptLeaseId_eq_ok {kept} (h : keptLeaseId call now (some lease) = .ok kept) : (kept = some lease.leaseId ∧
      (lease.active = true → lease.graceUntil = none → lease.connectionId = call.connectionId)) ∨
      kept = none ∧ lease.expiresAt ≤ now := by
  simp only [keptLeaseId] at h
  split_ifs at h with hpending _ hreclaim hrefresh hconflict <;> cases h
  · exact .inl ⟨rfl, fun hactive => absurd (hpending.1.symm.trans hactive) Bool.false_ne_true⟩
  · refine .inl ⟨rfl, fun _ hnone => ?_⟩
    rw [hnone] at hreclaim
    exact absurd hreclaim.2 Bool.false_ne_true
  · exact .inl ⟨rfl, fun _ _ => hrefresh.2.1⟩
  · refine .inr ⟨rfl, not_lt.mp fun hlive => ?_⟩
    have hconnection := not_not.mp fun hne => hconflict ⟨hne, hlive⟩
    cases hactive : lease.active with
    | false => exact hpending ⟨hactive, hlive⟩
    | true => exact hrefresh ⟨hactive, hconnection, hlive⟩

theorem Sound.start : Sound leaseTtlMs watched (start now : ReverseLeaseRuntime δ φ) := by
  constructor <;> simp [ReverseLeaseRuntime.start]

section

variable (h : Sound leaseTtlMs watched runtime) (idempotency : List (JsStr × φ × Nat))
include h

theorem Sound.eq_of_mem {p q} (hp : p ∈ runtime.leases) (hq : q ∈ runtime.leases)
    (hkey : p.1 = q.1) : p = q := inj_on_of_nodup_map h.keys hp hq hkey

theorem Sound.restrict {leases outstanding}
    (hleases : leases.Sublist runtime.leases) (houtstanding : outstanding ⊆ runtime.outstanding)
    (hkept : ∀ r ∈ outstanding, ∀ p ∈ runtime.leases, p.2.leaseId = r.2.leaseId → p ∈ leases) :
    Sound leaseTtlMs watched ⟨leases, idempotency, outstanding, runtime.drawn, runtime.now⟩ where
  keys := h.keys.sublist (hleases.map _)
  unshared p hp q hq := h.unshared p (hleases.subset hp) q (hleases.subset hq)
  fits p hp := h.fits p (hleases.subset hp)
  sent r hr := h.sent r (houtstanding hr)
  provider r hr p hp := h.provider r (houtstanding hr) p (hleases.subset hp)
  live r hr hwatched := by
    obtain ⟨lease, hmem, hid, hlive⟩ := h.live r (houtstanding hr) hwatched
    exact ⟨lease, hkept r hr _ hmem hid, hid, hlive⟩

theorem Sound.put (hdrawn : runtime.drawn ≤ drawn) (hfits : Fits leaseTtlMs drawn runtime.now lease)
    (hexpires : lease.active = true → lease.expiresAt = runtime.now + leaseTtlMs) (hgrace : lease.graceUntil = none)
    (hwas : lease.leaseId = runtime.drawn ∨ ∃ was, (capability, was) ∈ runtime.leases ∧ was.leaseId = lease.leaseId)
    (hserves : ∀ r ∈ runtime.outstanding, r.2.leaseId = lease.leaseId →
      lease.connectionId = r.2.connectionId ∧ lease.active = true)
    (hplace : ∀ r ∈ runtime.outstanding, watched r.1 → ∀ was, (capability, was) ∈ runtime.leases →
      was.leaseId = r.2.leaseId → runtime.now < was.expiresAt → was.leaseId = lease.leaseId) :
    Sound leaseTtlMs watched
      ⟨assocSet capability lease runtime.leases, idempotency, runtime.outstanding, drawn, runtime.now⟩ := by
  have hother : ∀ p ∈ runtime.leases, p.1 ≠ capability → p.2.leaseId ≠ lease.leaseId := by
    intro p hp hne heq
    obtain hfresh | ⟨was, hmem, hsame⟩ := hwas
    · exact absurd (h.fits p hp).1 (by omega)
    · exact hne (congrArg Prod.fst (h.unshared p hp _ hmem (heq.trans hsame.symm)))
  have hcases : ∀ p ∈ assocSet capability lease runtime.leases,
      p = (capability, lease) ∨ p ∈ runtime.leases ∧ p.1 ≠ capability :=
    fun p hp => mem_assocSet_of_nodup h.keys hp
  refine ⟨nodup_keys_assocSet capability lease h.keys, ?_, ?_, fun r hr => (h.sent r hr).trans_le hdrawn, ?_, ?_⟩
  · intro p hp q hq hsame
    obtain rfl | ⟨hp, hpne⟩ := hcases p hp <;> obtain rfl | ⟨hq, hqne⟩ := hcases q hq
    · rfl
    · exact absurd hsame.symm (hother q hq hqne)
    · exact absurd hsame (hother p hp hpne)
    · exact h.unshared p hp q hq hsame
  · intro p hp
    obtain rfl | ⟨hp, -⟩ := hcases p hp
    · exact hfits
    · exact ⟨(h.fits p hp).1.trans_le hdrawn, (h.fits p hp).2⟩
  · intro r hr p hp hsame
    obtain rfl | ⟨hp, -⟩ := hcases p hp
    · refine ⟨?_, (hserves r hr hsame.symm).1, (hserves r hr hsame.symm).2, hgrace⟩
      obtain hfresh | ⟨was, hmem, hid⟩ := hwas
      · exact absurd (h.sent r hr) (by simp_all)
      · exact (h.provider r hr _ hmem (hid.trans hsame)).1
    · exact h.provider r hr p hp hsame
  · intro r hr hwatched
    obtain ⟨was, hmem, hid, hlive⟩ := h.live r hr hwatched
    by_cases hcap : r.2.capability = capability
    · subst hcap
      have hsame := hplace r hr hwatched was hmem hid hlive
      have hends := hexpires (hserves r hr (hid.symm.trans hsame)).2
      have hbound := (h.fits _ hmem).2.1 (h.provider r hr _ hmem hid).2.2.1
      refine ⟨lease, mem_of_lookup (by rw [lookup_assocSet, if_pos rfl]), hsame.symm.trans hid, ?_⟩
      dsimp only at hbound ⊢
      omega
    · refine ⟨was, mem_of_lookup ?_, hid, hlive⟩
      rw [lookup_assocSet, if_neg hcap]
      exact lookup_of_mem h.keys hmem

theorem Sound.registerProvider [DecidableEq φ] : Sound leaseTtlMs watched
    (runtime.settled (runtime.registerProvider leaseTtlMs registrationFingerprint call)) := by
  unfold ReverseLeaseRuntime.registerProvider
  dsimp only
  split
  · exact h
  split
  · exact h
  split
  · exact h
  next kept hkept =>
  split
  · exact h
  -- what the registration carries on, if anything
  have hkept' : ∀ was, (call.capability, was) ∈ runtime.leases →
      keptLeaseId call runtime.now (some was) = .ok kept := by
    intro was hwas
    rwa [lookup_of_mem h.keys hwas] at hkept
  have hfits : ∀ id < runtime.drawn + 1, Fits leaseTtlMs (runtime.drawn + 1) runtime.now
      ⟨id, call.connectionId, call.definitions, runtime.now + leaseTtlMs, none, true, runtime.drawn⟩ :=
    fun id hid => ⟨hid, fun _ => le_rfl, fun hgrace => absurd rfl hgrace⟩
  cases kept with
  | none =>
    refine h.put _ (Nat.le_succ _) (hfits _ (Nat.lt_succ_self _)) (fun _ => rfl) rfl (.inl rfl) ?_ ?_
    · exact fun r hr hid => absurd (h.sent r hr) (by simp [hid])
    · intro r hr _ was hwas hid hlive
      obtain ⟨hne, -⟩ | ⟨-, hle⟩ := keptLeaseId_eq_ok (hkept' was hwas)
      · cases hne
      · exact absurd hle (not_le.mpr hlive)
  | some id =>
    cases hlookup : runtime.leases.lookup call.capability with
    | none =>
      rw [hlookup] at hkept
      cases hkept
    | some was =>
      have hwas := mem_of_lookup hlookup
      obtain ⟨hid, hconnection⟩ | ⟨hne, -⟩ := keptLeaseId_eq_ok (hkept' was hwas)
      · cases hid
        refine h.put _ (Nat.le_succ _) (hfits _ (Nat.lt_succ_of_lt (h.fits _ hwas).1)) (fun _ => rfl) rfl
          (.inr ⟨was, hwas, rfl⟩) ?_ ?_
        · intro r hr hid
          obtain ⟨-, hprovider, hactive, hgrace⟩ := h.provider r hr _ hwas hid.symm
          exact ⟨(hconnection hactive hgrace).symm.trans hprovider, rfl⟩
        · intro r hr _ was' hwas' _ _
          rw [(Prod.mk.inj (h.eq_of_mem hwas' hwas rfl)).2]
          rfl
      · cases hne

theorem Sound.heartbeat :
    Sound leaseTtlMs watched (runtime.settled (runtime.heartbeat leaseTtlMs connectionId leaseId)) := by
  unfold ReverseLeaseRuntime.heartbeat
  split
  · exact h
  next capability lease howner =>
  obtain ⟨hmem, -, hactive, -⟩ := owner_eq_ok howner
  split_ifs
  · exact h
  · refine h.put _ le_rfl ⟨(h.fits _ hmem).1, fun _ => le_rfl, fun hgrace => absurd rfl hgrace⟩ (fun _ => rfl) rfl
      (.inr ⟨lease, hmem, rfl⟩) ?_ ?_
    · exact fun r hr hid => ⟨(h.provider r hr _ hmem hid.symm).2.1, hactive⟩
    · intro r hr _ was hwas _ _
      rw [(Prod.mk.inj (h.eq_of_mem hwas hmem rfl)).2]

theorem Sound.cancelForConnection (connectionId : JsStr) :
    Sound leaseTtlMs watched (runtime.cancelForConnection connectionId) :=
  h.restrict _ (Sublist.refl _) (filter_subset_self _) (fun _ _ _ hp _ => hp)

theorem Sound.takeOutstanding (id : Nat) : Sound leaseTtlMs watched (runtime.takeOutstanding id) :=
  h.restrict _ (Sublist.refl _) (filter_subset_self _) (fun _ _ _ hp _ => hp)

omit h in
theorem ne_of_mem_cancelForConnection {r : Nat × Outstanding}
    (hr : r ∈ (runtime.cancelForConnection connectionId).outstanding) : r.2.connectionId ≠ connectionId := by
  rw [ReverseLeaseRuntime.cancelForConnection, mem_filter, decide_eq_true_eq] at hr
  exact hr.2

theorem Sound.release :
    Sound leaseTtlMs watched (runtime.settled (runtime.release connectionId leaseId handoffTo)) := by
  unfold ReverseLeaseRuntime.release
  split
  · exact h
  next capability lease howner =>
  obtain ⟨hmem, -, -, rfl⟩ := owner_eq_ok howner
  have hcancelled := h.cancelForConnection lease.connectionId
  -- nothing that is left was sent under the released lease
  have hleft : ∀ r ∈ (runtime.cancelForConnection lease.connectionId).outstanding, r.2.leaseId ≠ lease.leaseId :=
    fun r hr hid => ne_of_mem_cancelForConnection hr (hcancelled.provider r hr _ hmem hid.symm).2.1.symm
  split_ifs
  · refine hcancelled.put _ le_rfl ⟨(h.fits _ hmem).1, nofun, fun hgrace => absurd rfl hgrace⟩ nofun rfl
      (.inr ⟨lease, hmem, rfl⟩) ?_ ?_
    · exact fun r hr hid => absurd hid (hleft r hr)
    · intro r hr _ was hwas _ _
      rw [(Prod.mk.inj (h.eq_of_mem hwas hmem rfl)).2]
  · apply hcancelled.restrict _ filter_sublist (List.Subset.refl _)
    intro r hr p hp hid
    refine mem_filter.mpr ⟨hp, decide_eq_true fun hcap => hleft r hr ?_⟩
    rw [← hid, h.eq_of_mem hp hmem hcap]

theorem Sound.disconnect : Sound leaseTtlMs watched (runtime.disconnect connectionId) := by
  have hcancelled := h.cancelForConnection connectionId
  -- a lease of the table after the call, and the one it was
  have hwas : ∀ p ∈ (runtime.disconnect connectionId).leases, ∃ q ∈ runtime.leases, p.1 = q.1 ∧
      p.2.leaseId = q.2.leaseId ∧ (p = q ∨ q.2.connectionId = connectionId ∧ p.2.expiresAt = runtime.now) := by
    intro p hp
    obtain ⟨q, hq, rfl⟩ := mem_map.mp hp
    refine ⟨q, hq, ?_⟩
    split_ifs with hconnection
    · exact ⟨rfl, rfl, .inr ⟨hconnection, rfl⟩⟩
    · exact ⟨rfl, rfl, .inl rfl⟩
  have hfst : (runtime.disconnect connectionId).leases.map Prod.fst = runtime.leases.map Prod.fst := by
    rw [ReverseLeaseRuntime.disconnect, map_map]
    refine map_congr_left fun q _ => ?_
    dsimp only [Function.comp]
    split_ifs <;> rfl
  have hkeys := hfst ▸ h.keys
  refine ⟨hkeys, ?_, ?_, hcancelled.sent, ?_, ?_⟩
  · intro p hp q hq hid
    obtain ⟨p', hp', hpkey, hpid, -⟩ := hwas p hp
    obtain ⟨q', hq', hqkey, hqid, -⟩ := hwas q hq
    have hsame := h.unshared p' hp' q' hq' (hpid.symm.trans (hid.trans hqid))
    exact inj_on_of_nodup_map hkeys hp hq (hpkey.trans (hsame ▸ hqkey.symm))
  · intro p hp
    obtain ⟨q, hq, -, hid, rfl | ⟨-, hends⟩⟩ := hwas p hp
    · exact h.fits p hq
    · exact ⟨hid ▸ (h.fits q hq).1, fun _ => hends.trans_le (Nat.le_add_right _ _), fun _ => hends.le⟩
  · intro r hr p hp hid
    obtain ⟨q, hq, -, hqid, rfl | ⟨hconnection, -⟩⟩ := hwas p hp
    · exact hcancelled.provider r hr p hq hid
    · have hsent := (hcancelled.provider r hr q hq (hqid.symm.trans hid)).2.1
      exact absurd (hsent.symm.trans hconnection) (ne_of_mem_cancelForConnection hr)
  · intro r hr hwatched
    obtain ⟨lease, hmem, hid, hlive⟩ := hcancelled.live r hr hwatched
    have hsent := (hcancelled.provider r hr _ hmem hid).2.1
    refine ⟨lease, mem_map.mpr ⟨_, hmem, if_neg ?_⟩, hid, hlive⟩
    exact fun hconnection => ne_of_mem_cancelForConnection hr (hsent.symm.trans hconnection)

omit h in
theorem liveLease_eq_some (hlive : runtime.liveLease capability = some lease) :
    (capability, lease) ∈ runtime.leases ∧ lease.active = true ∧ runtime.now < lease.expiresAt := by
  rw [liveLease, Option.filter_eq_some_iff, decide_eq_true_eq] at hlive
  exact ⟨mem_of_lookup hlive.1, hlive.2⟩

theorem Sound.request (payloadBytes : Nat) (delivered : Bool) :
    Sound leaseTtlMs watched (runtime.settled (runtime.request capability payloadBytes delivered)) := by
  unfold ReverseLeaseRuntime.request
  split
  · exact h
  split
  · split <;> exact h
  next lease hlive =>
  obtain ⟨hmem, hactive, hnow⟩ := liveLease_eq_some hlive
  have hgrace : lease.graceUntil = none := not_not.mp fun hne => absurd ((h.fits _ hmem).2.2 hne) (not_le.mpr hnow)
  split
  · exact h
  have hfits : ∀ p ∈ runtime.leases, Fits leaseTtlMs (runtime.drawn + 1) runtime.now p.2 :=
    fun p hp => ⟨Nat.lt_succ_of_lt (h.fits p hp).1, (h.fits p hp).2⟩
  have hsent : ∀ r ∈ runtime.outstanding, r.2.leaseId < runtime.drawn + 1 := fun r hr => Nat.lt_succ_of_lt (h.sent r hr)
  cases delivered with
  | false => exact ⟨h.keys, h.unshared, hfits, hsent, h.provider, h.live⟩
  | true =>
    refine ⟨h.keys, h.unshared, hfits, ?_, ?_, ?_⟩
    · exact forall_mem_append.mpr ⟨hsent, forall_mem_singleton.mpr (hfits _ hmem).1⟩
    · refine forall_mem_append.mpr ⟨h.provider, forall_mem_singleton.mpr fun p hp hid => ?_⟩
      rw [h.unshared p hp _ hmem hid]
      exact ⟨rfl, rfl, hactive, hgrace⟩
    · exact forall_mem_append.mpr ⟨h.live, forall_mem_singleton.mpr fun _ => ⟨lease, hmem, rfl, hnow⟩⟩

omit h in
theorem respond_eq_ok {id payloadBytes : Nat} {request : Outstanding}
    (hrespond : runtime.respond connectionId id leaseId payloadBytes = .ok (result, request)) :
    result = runtime.takeOutstanding id ∧ (id, request) ∈ runtime.outstanding ∧
      request.connectionId = connectionId ∧ request.leaseId = leaseId := by
  unfold respond at hrespond
  split_ifs at hrespond
  split at hrespond
  · cases hrespond
  next hlookup =>
  split_ifs at hrespond with howns
  cases hrespond
  rw [not_or, not_not, not_not] at howns
  exact ⟨rfl, mem_of_lookup hlookup, howns⟩

/-- Whenever the clock advances, the leases of the capabilities that watched requests were sent to stay live. -/
def Unlapsed (watched : Nat → Prop) (runtime : ReverseLeaseRuntime δ φ) : Event δ → Prop
  | .advance ms => ∀ r ∈ runtime.outstanding, watched r.1 → ∀ p ∈ runtime.leases, p.1 = r.2.capability →
    runtime.now + ms < p.2.expiresAt
  | _ => True

theorem Sound.step [DecidableEq φ] (event : Event δ) (hunlapsed : Unlapsed watched runtime event) :
    Sound leaseTtlMs watched (runtime.step leaseTtlMs registrationFingerprint event) := by
  cases event with
  | registerProvider call => exact h.registerProvider
  | heartbeat connectionId leaseId => exact h.heartbeat
  | release connectionId leaseId handoffTo => exact h.release
  | disconnect connectionId => exact h.disconnect
  | request capability payloadBytes delivered => exact h.request payloadBytes delivered
  | respond connectionId id leaseId payloadBytes =>
    rw [ReverseLeaseRuntime.step]
    cases hrespond : runtime.respond connectionId id leaseId payloadBytes with
    | error error => exact h
    | ok answer =>
      rw [settled, (respond_eq_ok hrespond).1]
      exact h.takeOutstanding id
  | abandon id => exact h.takeOutstanding id
  | dispose => exact h.restrict [] (nil_sublist _) (nil_subset _) nofun
  | advance ms =>
    refine ⟨h.keys, h.unshared, fun p hp => ⟨(h.fits p hp).1, ?_, ?_⟩, h.sent, h.provider, ?_⟩
    · exact fun hactive => ((h.fits p hp).2.1 hactive).trans (by simp [ReverseLeaseRuntime.step])
    · exact fun hgrace => ((h.fits p hp).2.2 hgrace).trans (Nat.le_add_right _ _)
    · intro r hr hwatched
      obtain ⟨lease, hmem, hid, -⟩ := h.live r hr hwatched
      exact ⟨lease, hmem, hid, hunlapsed r hr hwatched _ hmem rfl⟩

end

theorem outstanding_release (h : runtime.release connectionId leaseId handoffTo = .ok (result, lease)) :
    (∃ p ∈ runtime.leases, p.2.leaseId = leaseId ∧ p.2.connectionId = connectionId) ∧
      result.outstanding = runtime.outstanding.filter (·.2.connectionId ≠ connectionId) := by
  unfold release at h
  split at h
  · cases h
  next howner =>
  obtain ⟨hmem, hid, -, hconnection⟩ := owner_eq_ok howner
  refine ⟨⟨_, hmem, hid, hconnection⟩, ?_⟩
  split_ifs at h <;> cases h <;> rfl

variable [DecidableEq φ]

theorem sound_after {events}
    (h : Along (step leaseTtlMs registrationFingerprint) (Unlapsed watched) (start now) events) :
    Sound leaseTtlMs watched (after leaseTtlMs registrationFingerprint now events) :=
  run_induction (I := Sound leaseTtlMs watched) (fun _ event h => h.step event) Sound.start h

theorem unlapsed_of_unwatched (events : List (Event δ)) (runtime : ReverseLeaseRuntime δ φ) :
    Along (step leaseTtlMs registrationFingerprint) (Unlapsed fun _ => False) runtime events := by
  induction events generalizing runtime with
  | nil => trivial
  | cons event rest ih =>
    refine ⟨?_, ih _⟩
    cases event <;> first | trivial | exact fun _ _ hwatched => hwatched.elim

/-- A lease does not change hands while a request sent under it waits. -/
theorem lease_keeps_provider (events : List (Event δ)) :
    let runtime := after leaseTtlMs registrationFingerprint now events
    (∀ p ∈ runtime.leases, ∀ q ∈ runtime.leases, p.2.leaseId = q.2.leaseId → p = q) ∧
      ∀ r ∈ runtime.outstanding, ∀ p ∈ runtime.leases, p.2.leaseId = r.2.leaseId →
        p.1 = r.2.capability ∧ p.2.connectionId = r.2.connectionId ∧ p.2.active = true ∧ p.2.graceUntil = none := by
  have hsound : Sound leaseTtlMs (fun _ => False) (after leaseTtlMs registrationFingerprint now events) :=
    sound_after (unlapsed_of_unwatched events _)
  exact ⟨hsound.unshared, hsound.provider⟩

/-- A release leaves exactly the requests sent under other leases when its connection has none of them. -/
theorem outstanding_release_iff (leaseTtlMs now : Nat) (registrationFingerprint : JsStr → δ → Option Nat → φ)
    (events : List (Event δ)) {connectionId : JsStr} {leaseId : Nat} {handoffTo : JsStr}
    {result : ReverseLeaseRuntime δ φ} {lease : ProviderLease δ}
    (h : (after leaseTtlMs registrationFingerprint now events).release connectionId leaseId handoffTo =
      .ok (result, lease)) : result.outstanding =
        (after leaseTtlMs registrationFingerprint now events).outstanding.filter (·.2.leaseId ≠ leaseId) ↔
      ∀ r ∈ (after leaseTtlMs registrationFingerprint now events).outstanding,
        r.2.connectionId = connectionId → r.2.leaseId = leaseId := by
  have hsound : Sound leaseTtlMs (fun _ => False) (after leaseTtlMs registrationFingerprint now events) :=
    sound_after (unlapsed_of_unwatched events _)
  generalize after leaseTtlMs registrationFingerprint now events = runtime at h hsound ⊢
  obtain ⟨⟨p, hp, rfl, rfl⟩, hafter⟩ := outstanding_release h
  rw [hafter]
  constructor
  · intro heq r hr hconnection
    by_contra hid
    have hmem : r ∈ runtime.outstanding.filter (·.2.leaseId ≠ p.2.leaseId) :=
      mem_filter.mpr ⟨hr, decide_eq_true hid⟩
    rw [← heq, mem_filter, decide_eq_true_eq] at hmem
    exact hmem.2 hconnection
  · intro hown
    refine filter_congr fun r hr => decide_eq_decide.mpr (not_congr ⟨hown r hr, fun hid => ?_⟩)
    exact (hsound.provider r hr p hp hid.symm).2.1.symm

def twoProvided : List (Event Unit) :=
  [.registerProvider ⟨lit "c", lit "ui", (), none, [], true⟩, .registerProvider ⟨lit "c", lit "fs", (), none, [], true⟩,
    .request (lit "ui") 2 true, .request (lit "fs") 2 true]

def plainRuntime (events : List (Event Unit)) : ReverseLeaseRuntime Unit Unit :=
  after 30 (fun _ _ _ => ()) 0 events

theorem outstanding_release_iff_one : ∃ result lease, (plainRuntime (twoProvided.take 3)).release
    (lit "c") 0 [] = .ok (result, lease) ∧ result.outstanding =
      (plainRuntime (twoProvided.take 3)).outstanding.filter (·.2.leaseId ≠ 0) := by
  obtain ⟨⟨result, lease⟩, h⟩ : ∃ answer, (plainRuntime (twoProvided.take 3)).release (lit "c") 0 [] = .ok answer :=
    ⟨_, rfl⟩
  exact ⟨result, lease, h, (outstanding_release_iff 30 0 _ (twoProvided.take 3) h).mpr (by decide +kernel)⟩

/-- The second lease of the connection is not released, yet its request is cancelled. -/
theorem release_cancels_other_lease : ((plainRuntime twoProvided).release (lit "c") 0 []).toOption.map
    (fun result => result.1.outstanding) = some [] ∧
      (plainRuntime twoProvided).outstanding.filter (·.2.leaseId ≠ 0) = [(3, ⟨lit "c", lit "fs", 1⟩)] := by
  decide +kernel

/-- A response settles a request only for the connection that holds the live lease it was sent under, as long as
that lease does not lapse while the request is outstanding. -/
theorem respond_holds_live_lease (leaseTtlMs now : Nat) (registrationFingerprint : JsStr → δ → Option Nat → φ)
    (events : List (Event δ)) {connectionId : JsStr} {id leaseId payloadBytes : Nat}
    {result : ReverseLeaseRuntime δ φ} {request : Outstanding}
    (hunlapsed : Along (step leaseTtlMs registrationFingerprint) (Unlapsed (· = id)) (start now) events)
    (h : (after leaseTtlMs registrationFingerprint now events).respond connectionId id leaseId payloadBytes =
      .ok (result, request)) :
    ∃ lease, (after leaseTtlMs registrationFingerprint now events).liveLease request.capability = some lease ∧
      lease.leaseId = leaseId ∧ lease.connectionId = connectionId := by
  have hsound := sound_after hunlapsed
  generalize after leaseTtlMs registrationFingerprint now events = runtime at h hsound ⊢
  obtain ⟨-, hmem, rfl, rfl⟩ := respond_eq_ok h
  obtain ⟨lease, hlease, hid, hnow⟩ := hsound.live _ hmem rfl
  obtain ⟨-, hconnection, hactive, -⟩ := hsound.provider _ hmem _ hlease hid
  refine ⟨lease, ?_, hid, hconnection⟩
  rw [liveLease, lookup_of_mem hsound.keys hlease, Option.filter_eq_some_iff]
  exact ⟨rfl, decide_eq_true ⟨hactive, hnow⟩⟩

theorem respond_holds_live_lease_in_time : ∃ lease,
    (plainRuntime (twoProvided ++ [.advance 29])).liveLease (lit "ui") = some lease ∧ lease.leaseId = 0 ∧
      lease.connectionId = lit "c" := by
  have hunlapsed : Along (step 30 fun _ _ _ => ()) (Unlapsed (· = 2)) (start 0 : ReverseLeaseRuntime Unit Unit)
      (twoProvided ++ [.advance 29]) := by
    refine ⟨trivial, trivial, trivial, trivial, ?_, trivial⟩
    unfold Unlapsed
    decide +kernel
  exact respond_holds_live_lease 30 0 _ _ hunlapsed
    (rfl : (plainRuntime (twoProvided ++ [.advance 29])).respond (lit "c") 2 0 2 = .ok (_, ⟨lit "c", lit "ui", 0⟩))

/-- A provider whose lease has lapsed still answers. -/
theorem respond_after_lapse :
    ((plainRuntime (twoProvided ++ [.advance 30])).respond (lit "c") 2 0 2).toOption.isSome = true ∧
      (plainRuntime (twoProvided ++ [.advance 30])).liveLease (lit "ui") = none := by
  decide +kernel

end ReverseLeaseRuntime
end GajaeCode.ReverseLeases
