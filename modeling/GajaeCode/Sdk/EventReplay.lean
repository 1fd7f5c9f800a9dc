import GajaeCode.Data.Run

/-! The event stream of a session: a bounded ring of the last events of the current generation, and what a client that
comes back is replayed. -/
namespace GajaeCode.Sdk

open Data List

variable {φ : Type}

/-- An emitted frame: the fields of the frame it was emitted from, with the number of its generation and its own. -/
structure EventFrame (φ : Type) where
  frame : φ
  generation : Int
  seq : Nat
  deriving DecidableEq

inductive EventReplayGap where
  | generationReset (fromGeneration toGeneration : Int) (resyncQueries : List String)
  | sequenceGap (fromSeq toSeq : Int) (resyncQueries : List String)
  deriving DecidableEq

structure EventReplay (φ : Type) where
  events : List (EventFrame φ)
  gap : Option EventReplayGap := none

structure SessionEventStream (φ : Type) where
  generation : Int := 0
  ringSize : Nat := 256
  resyncQueries : List String := ["Q01", "Q02", "Q03"]
  seq : Nat := 0
  frames : List (EventFrame φ) := []

inductive StreamCall (φ : Type) where
  | emit (frame : φ)
  | restart

namespace SessionEventStream

variable {stream : SessionEventStream φ}

def restart (stream : SessionEventStream φ) : SessionEventStream φ :=
  { stream with generation := stream.generation + 1, seq := 0, frames := [] }

def emit (stream : SessionEventStream φ) (frame : φ) : SessionEventStream φ :=
  let seq := stream.seq + 1
  let frames := stream.frames ++ [⟨frame, stream.generation, seq⟩]
  { stream with seq, frames := if stream.ringSize < frames.length then frames.tail else frames }

def call (stream : SessionEventStream φ) : StreamCall φ → SessionEventStream φ
  | .emit frame => stream.emit frame
  | .restart => stream.restart

def oldest (stream : SessionEventStream φ) : Nat := (stream.frames.head?.map EventFrame.seq).getD (stream.seq + 1)

/-- A client that names no generation is one of the current generation. -/
def replay (stream : SessionEventStream φ) (lastSeq : Int) (generation : Option Int) : EventReplay φ :=
  let generation := generation.getD stream.generation
  if generation ≠ stream.generation then
    ⟨stream.frames, some (.generationReset generation stream.generation stream.resyncQueries)⟩
  else if lastSeq + 1 < stream.oldest then
    ⟨stream.frames.filter fun event => stream.oldest ≤ event.seq,
      some (.sequenceGap (lastSeq + 1) (stream.oldest - 1) stream.resyncQueries)⟩
  else ⟨stream.frames.filter fun event => lastSeq < event.seq, none⟩

/-- The ring holds the events of one number and every later one. -/
def RetainsFrom (stream : SessionEventStream φ) (first : Nat) : Prop :=
  first ≤ stream.seq + 1 ∧ stream.frames.map EventFrame.seq = range' first (stream.seq + 1 - first)

theorem RetainsFrom.oldest {first} (h : stream.RetainsFrom first) : stream.oldest = first := by
  unfold SessionEventStream.oldest
  rw [← head?_map, h.2, head?_range']
  split
  · have hle := h.1
    simp only [Option.getD_none]
    omega
  · rfl

theorem RetainsFrom.emit {first} (h : stream.RetainsFrom first) (frame : φ) :
    ∃ first', (stream.emit frame).RetainsFrom first' := by
  obtain ⟨hle, hseqs⟩ := h
  have hpushed : (stream.frames ++ [EventFrame.mk frame stream.generation (stream.seq + 1)]).map EventFrame.seq =
      range' first (stream.seq + 1 - first + 1) := by
    rw [map_append, hseqs, range'_concat, map_cons, map_nil]
    congr 2
    dsimp only
    omega
  unfold SessionEventStream.emit
  dsimp only
  split
  · refine ⟨first + 1, Nat.succ_le_succ hle, ?_⟩
    change List.map _ (List.tail _) = range' _ _
    rw [map_tail, hpushed, range'_succ, tail_cons]
    congr 1
    dsimp only
    omega
  · refine ⟨first, Nat.le_succ_of_le hle, hpushed.trans ?_⟩
    congr 1
    dsimp only
    omega

theorem call_retains (hstream : ∃ first, stream.RetainsFrom first) (c : StreamCall φ) :
    ∃ first, (stream.call c).RetainsFrom first := by
  cases c with
  | emit frame => exact hstream.elim fun _ h => h.emit frame
  | restart => exact ⟨1, Nat.le_refl 1, rfl⟩

/-- Of a ring of consecutive events, those from a number on are consecutive too. -/
theorem RetainsFrom.map_seq_filter {first start} (h : stream.RetainsFrom first) (hfirst : first ≤ start)
    (hstart : start ≤ stream.seq + 1) {p : EventFrame φ → Bool} (hp : ∀ event, p event ↔ start ≤ event.seq) :
    (stream.frames.filter p).map EventFrame.seq = range' start (stream.seq + 1 - start) := by
  have hcut : stream.seq + 1 - first = (start - first) + (stream.seq + 1 - start) := by omega
  have hpred : p = (fun seq => decide (start ≤ seq)) ∘ EventFrame.seq := by
    funext event
    exact Bool.eq_iff_iff.mpr ((hp event).trans decide_eq_true_iff.symm)
  rw [hpred, ← filter_map, h.2, hcut, ← range'_append_1, filter_append, Nat.add_sub_cancel' hfirst]
  rw [filter_eq_nil_iff.mpr, filter_eq_self.mpr, nil_append]
  · intro seq hseq
    exact decide_eq_true (mem_range'_1.mp hseq).1
  · intro seq hseq
    have hlt := (mem_range'_1.mp hseq).2
    rw [decide_eq_true_iff]
    omega

/-- Whatever was emitted and restarted, the events replayed to a client of the current generation are consecutive up to
the current number, and what lies between the client's position and the first of them is the reported gap; a client of
another generation is told so. -/
theorem replay_accounts (generation : Int) (ringSize : Nat) (resyncQueries : List String) (calls : List (StreamCall φ))
    (lastSeq : Int) (client : Option Int) :
    let stream := run call { generation, ringSize, resyncQueries } calls
    let current := client.getD stream.generation = stream.generation
    (current → lastSeq ≤ stream.seq → ∃ first : Nat, lastSeq + 1 ≤ first ∧ first ≤ stream.seq + 1 ∧
      (stream.replay lastSeq client).events.map EventFrame.seq = range' first (stream.seq + 1 - first) ∧
      (stream.replay lastSeq client).gap = if lastSeq + 1 = first then none else
        some (.sequenceGap (lastSeq + 1) (first - 1) stream.resyncQueries)) ∧
    (¬ current → (stream.replay lastSeq client).gap =
      some (.generationReset (client.getD stream.generation) stream.generation stream.resyncQueries)) := by
  intro stream current
  obtain ⟨first, hretains⟩ : ∃ first, stream.RetainsFrom first :=
    run_invariant (I := fun stream => ∃ first, RetainsFrom stream first) (fun _ c h => call_retains h c)
      ⟨1, Nat.le_refl 1, rfl⟩ calls
  constructor
  · intro hcurrent hlast
    unfold replay
    rw [if_neg (not_not_intro hcurrent), hretains.oldest]
    split
    · next hgap =>
      refine ⟨first, hgap.le, hretains.1, ?_, (if_neg hgap.ne).symm⟩
      exact hretains.map_seq_filter (Nat.le_refl first) hretains.1 fun _ => decide_eq_true_iff
    · next hgap =>
      have hfirst : ((lastSeq + 1).toNat : Int) = lastSeq + 1 := Int.toNat_of_nonneg (by omega)
      refine ⟨(lastSeq + 1).toNat, hfirst.ge, by omega, ?_, (if_pos hfirst.symm).symm⟩
      apply hretains.map_seq_filter (by omega) (by omega)
      intro event
      rw [decide_eq_true_iff]
      omega
  · intro hother
    unfold replay
    rw [if_pos hother]

example : (run call { ringSize := 2 } [.emit 'a', .emit 'b', .emit 'c']).replay 0 none =
    ⟨[⟨'b', 0, 2⟩, ⟨'c', 0, 3⟩], some (.sequenceGap 1 1 ["Q01", "Q02", "Q03"])⟩ := rfl

end SessionEventStream

end GajaeCode.Sdk
