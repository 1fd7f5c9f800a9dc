import GajaeCode.Data.Run
import GajaeCode.Json.Value

/-! The append-only log of an agent, kept by counts and hashes, and the messages it mirrors. Messages are JSON values,
of which a clone is the same. -/
namespace GajaeCode.Agent

open Text Data List

variable {ν κ : Type}

structure LogManager (ν κ : Type) where
  log : List (Json ν) := []
  lastSyncCount : Nat := 0
  syncedHashes : List κ := []
  seededPrefixCount : Nat := 0

inductive LogCall (ν : Type) where
  | syncMessages (normalizedMessages : List (Json ν))
  | seedNormalizedMessages (messages : List (Json ν)) (reset : Bool)
  | resetSyncCursor
  | invalidateForModelChange

namespace LogManager

section

variable (stringify : Json ν → JsStr) (hashSource : JsStr → κ)

def hashRange (messages : List (Json ν)) : List κ := messages.map fun m => hashSource (stringify m)

def rebaseToBaseline (messages : List (Json ν)) (seededPrefixCount : Nat) : LogManager ν κ :=
  ⟨messages, messages.length, hashRange stringify hashSource messages, seededPrefixCount⟩

def cleared (manager : LogManager ν κ) : LogManager ν κ := ⟨[], 0, [], manager.seededPrefixCount⟩

def appendNew (manager : LogManager ν κ) (messages : List (Json ν)) : LogManager ν κ :=
  ⟨manager.log ++ messages.drop manager.lastSyncCount, messages.length, hashRange stringify hashSource messages,
    manager.seededPrefixCount⟩

variable [DecidableEq κ]

def rangeHashesEqual (a b : List (Json ν)) (count : Nat) : Bool :=
  hashRange stringify hashSource (a.take count) = hashRange stringify hashSource (b.take count)

def prefixChanged (manager : LogManager ν κ) (messages : List (Json ν)) (count : Nat) : Bool :=
  count ≤ manager.syncedHashes.length ∧
    hashRange stringify hashSource (messages.take count) ≠ manager.syncedHashes.take count

def messagesToSync (manager : LogManager ν κ) (messages : List (Json ν)) : List (Json ν) :=
  let seededPrefixLength := manager.seededPrefixCount
  let includesSeedPrefix := 0 < seededPrefixLength ∧ seededPrefixLength ≤ messages.length ∧
    rangeHashesEqual stringify hashSource messages manager.log seededPrefixLength
  if 0 < seededPrefixLength ∧ ¬ includesSeedPrefix then manager.log.take seededPrefixLength ++ messages else messages

def syncMessages (manager : LogManager ν κ) (normalizedMessages : List (Json ν)) : LogManager ν κ :=
  let messages := messagesToSync stringify hashSource manager normalizedMessages
  let rewritten := 0 < manager.lastSyncCount ∧ manager.lastSyncCount ≤ messages.length ∧
    prefixChanged stringify hashSource manager messages manager.lastSyncCount
  if rewritten ∧ 0 < manager.seededPrefixCount then
    rebaseToBaseline stringify hashSource messages manager.seededPrefixCount
  else
    let current := if rewritten then manager.cleared else manager
    if messages.length < current.lastSyncCount then
      if 0 < current.seededPrefixCount then
        rebaseToBaseline stringify hashSource messages manager.seededPrefixCount
      else appendNew stringify hashSource current.cleared messages
    else appendNew stringify hashSource current messages

/-- A seed for a log that is not empty is refused with an error unless a reset is asked for. -/
def step (manager : LogManager ν κ) : LogCall ν → LogManager ν κ
  | .syncMessages messages => syncMessages stringify hashSource manager messages
  | .seedNormalizedMessages messages reset =>
    if 0 < manager.log.length ∧ reset = false then manager
    else rebaseToBaseline stringify hashSource messages messages.length
  | .resetSyncCursor | .invalidateForModelChange => {}

end

end LogManager

/-! ### What the log mirrors -/

/-- The contents of the active seed and of the log. -/
structure Mirrored where
  seed : List JsStr := []
  log : List JsStr := []

def synced (seed messages : List JsStr) : List JsStr :=
  if seed ≠ [] ∧ ¬ seed <+: messages then seed ++ messages else messages

def Mirrored.step (stringify : Json ν → JsStr) (mirrored : Mirrored) : LogCall ν → Mirrored
  | .syncMessages messages => { mirrored with log := synced mirrored.seed (messages.map stringify) }
  | .seedNormalizedMessages messages reset =>
    if mirrored.log ≠ [] ∧ reset = false then mirrored
    else ⟨messages.map stringify, messages.map stringify⟩
  | .resetSyncCursor | .invalidateForModelChange => {}

/-- The manager stands for what is mirrored: its counts and hashes are those of its log. -/
structure Mirrors (stringify : Json ν → JsStr) (hashSource : JsStr → κ) (manager : LogManager ν κ)
    (mirrored : Mirrored) : Prop where
  log : manager.log.map stringify = mirrored.log
  count : manager.lastSyncCount = manager.log.length
  hashes : manager.syncedHashes = LogManager.hashRange stringify hashSource manager.log
  seeded : manager.seededPrefixCount = mirrored.seed.length
  seed : mirrored.seed <+: mirrored.log

namespace LogManager

variable {stringify : Json ν → JsStr} {hashSource : JsStr → κ} {manager : LogManager ν κ}
  {mirrored : Mirrored} {messages : List (Json ν)}

theorem hashRange_congr {a b} (h : a.map stringify = b.map stringify) :
    hashRange stringify hashSource a = hashRange stringify hashSource b := by
  have hmap := congrArg (map hashSource) h
  rwa [map_map, map_map] at hmap

theorem seed_isPrefix_synced (seed contents : List JsStr) : seed <+: synced seed contents := by
  rw [synced]
  split_ifs with h
  · exact prefix_append _ _
  · rcases eq_or_ne seed [] with rfl | hne
    · exact nil_prefix
    · exact not_not.mp fun hnot => h ⟨hne, hnot⟩

/-- A log that has the content of the first messages has that of all of them with the rest. -/
theorem mirrors_appendNew {seed} (hseeded : manager.seededPrefixCount = seed.length)
    (hlog : manager.log.map stringify = (messages.take manager.lastSyncCount).map stringify)
    (hseed : seed <+: messages.map stringify) :
    Mirrors stringify hashSource (appendNew stringify hashSource manager messages)
      ⟨seed, messages.map stringify⟩ := by
  have hall : (appendNew stringify hashSource manager messages).log.map stringify = messages.map stringify := by
    rw [appendNew, map_append, hlog, ← map_append, take_append_drop]
  refine ⟨hall, ?_, hashRange_congr hall.symm, hseeded, hseed⟩
  rw [← length_map stringify, hall, length_map]
  rfl

theorem mirrors_rebaseToBaseline {seed n} (hseeded : n = seed.length) (hseed : seed <+: messages.map stringify) :
    Mirrors stringify hashSource (rebaseToBaseline stringify hashSource messages n) ⟨seed, messages.map stringify⟩ :=
  @mirrors_appendNew ν κ stringify hashSource ⟨[], 0, [], n⟩ messages seed hseeded rfl hseed

-- the hash tells contents apart
variable (hinj : ∀ m n, hashSource (stringify m) = hashSource (stringify n) → stringify m = stringify n)

include hinj

theorem map_eq_of_hashRange {a b} (h : hashRange stringify hashSource a = hashRange stringify hashSource b) :
    a.map stringify = b.map stringify := by
  induction a generalizing b with
  | nil => rw [eq_nil_of_map_eq_nil h.symm]
  | cons m a ih =>
    obtain ⟨n, rest, rfl, hn, hrest⟩ := map_eq_cons_iff.mp h.symm
    rw [map_cons, map_cons, hinj n m hn, ih hrest.symm]

variable [DecidableEq κ]

section

variable (h : Mirrors stringify hashSource manager mirrored)
include h

theorem Mirrors.messagesToSync_eq : (messagesToSync stringify hashSource manager messages).map stringify =
      synced mirrored.seed (messages.map stringify) := by
  have htake : (manager.log.take manager.seededPrefixCount).map stringify = mirrored.seed := by
    rw [map_take, h.log, h.seeded]
    exact (prefix_iff_eq_take.mp h.seed).symm
  have hincludes : manager.seededPrefixCount ≤ messages.length ∧
      rangeHashesEqual stringify hashSource messages manager.log manager.seededPrefixCount = true ↔
      mirrored.seed <+: messages.map stringify := by
    rw [prefix_iff_eq_take, ← h.seeded, ← map_take, rangeHashesEqual, decide_eq_true_iff]
    constructor
    · rintro ⟨-, hhashes⟩
      rw [map_eq_of_hashRange hinj hhashes, htake]
    · intro hseed
      refine ⟨?_, hashRange_congr (hseed.symm.trans htake.symm)⟩
      have hlength := congrArg length hseed
      rw [← h.seeded, length_map, length_take] at hlength
      omega
  have hpos : 0 < manager.seededPrefixCount ↔ mirrored.seed ≠ [] := by
    rw [h.seeded, length_pos_iff]
  simp only [messagesToSync, synced, hpos, hincludes]
  split_ifs <;> simp_all

theorem Mirrors.syncMessages : Mirrors stringify hashSource (syncMessages stringify hashSource manager messages)
      ⟨mirrored.seed, synced mirrored.seed (messages.map stringify)⟩ := by
  have hmessages := @Mirrors.messagesToSync_eq ν κ stringify hashSource manager mirrored messages hinj _ h
  have hseed := seed_isPrefix_synced mirrored.seed (messages.map stringify)
  rw [← hmessages] at hseed ⊢
  simp only [LogManager.syncMessages]
  generalize messagesToSync stringify hashSource manager messages = all at hseed ⊢
  have hrebased := @mirrors_rebaseToBaseline ν κ stringify hashSource all _ _ h.seeded hseed
  have hcleared := @mirrors_appendNew ν κ stringify hashSource manager.cleared all _ h.seeded rfl hseed
  by_cases hrewritten : 0 < manager.lastSyncCount ∧ manager.lastSyncCount ≤ all.length ∧
      prefixChanged stringify hashSource manager all manager.lastSyncCount = true
  · rw [if_pos hrewritten]
    split_ifs
    · exact hrebased
    · exact hcleared
    · exact hcleared
    · exact hcleared
  · rw [if_neg (fun hboth => hrewritten hboth.1), if_neg hrewritten]
    split_ifs with hshrunk
    · exact hrebased
    · exact hcleared
    · apply mirrors_appendNew h.seeded _ hseed
      apply map_eq_of_hashRange hinj
      rw [← h.hashes]
      have hlength : manager.syncedHashes.length = manager.lastSyncCount := by
        rw [h.hashes, hashRange, length_map, h.count]
      by_contra hchanged
      refine hrewritten ⟨Nat.pos_of_ne_zero fun hzero => hchanged ?_, not_lt.mp hshrunk, ?_⟩
      · rw [hzero] at hlength ⊢
        exact length_eq_zero_iff.mp hlength
      · rw [prefixChanged, decide_eq_true_iff, ← hlength, take_length, hlength]
        exact ⟨le_rfl, Ne.symm hchanged⟩

theorem Mirrors.step (call : LogCall ν) :
    Mirrors stringify hashSource (step stringify hashSource manager call) (mirrored.step stringify call) := by
  cases call with
  | syncMessages messages => exact Mirrors.syncMessages hinj h
  | seedNormalizedMessages messages reset =>
    have hempty : 0 < manager.log.length ↔ mirrored.log ≠ [] := by
      rw [← h.log, ← length_pos_iff, length_map]
    simp only [LogManager.step, Mirrored.step, hempty]
    split_ifs
    · exact h
    · exact mirrors_rebaseToBaseline (length_map _).symm prefix_rfl
  | resetSyncCursor | invalidateForModelChange => exact ⟨rfl, rfl, rfl, rfl, nil_prefix⟩

end

end LogManager

end GajaeCode.Agent
