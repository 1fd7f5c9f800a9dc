import GajaeCode.Natives.LineDiffSearch

/-! Every round of `diff_tokens` keeps a path that some shortest script follows, although the window
of diagonals narrows, so the search ends with a shortest script. -/
namespace GajaeCode.Natives.LineDiff
open Text List DiffState

def Reads (state : DiffState) (c : Nat) (k : Int) : Prop :=
  state.lo (c + 1) - 1 ≤ k ∧ k ≤ state.hi (c + 1) + 1 ∧ (k - c) % 2 = 0

/-- The window of diagonals before the round with `c + 1` changes: it is narrowed only below a path
that has written every new token and above one that has read every old token. -/
structure Window (old new : List Token) (state : DiffState) (c : Nat) (f : Int → Option PathNode) : Prop where
  far : ∀ k : Int, (c : Int) < |k| → f k = none
  minDiag : ∀ m ∈ state.minDiag, (m - c) % 2 = 1 ∧ m ≤ old.length - new.length ∧
    slotAt (f (m - 1)) (new.length + m - 1)
  maxDiag : ∀ m ∈ state.maxDiag, (m - c) % 2 = 1 ∧ old.length - new.length ≤ m ∧ slotAt (f (m + 1)) old.length

structure Frontier (old new : List Token) (off : Nat) (state : DiffState) (c : Nat)
    (f : Int → Option PathNode) : Prop extends Window old new state c f where
  slots : Slots off state.best f
  node : ∀ k, Reads state c k → ∀ p ∈ f k, Node old new state.comps k c p
  -- some shortest script follows a path that the round reads
  shortest : ∃ (k : Int) (x y : Nat), Reads state c k ∧ slotAt (f k) x ∧ (x : Int) - y = k ∧
    remaining old new x y + c ≤ editDistance old new

theorem slotAt_iff {slot x} : slotAt slot x = true ↔ ∃ p ∈ slot, p.oldPos + 1 = x := by
  simp [slotAt, Option.any_eq_true]

variable {old new : List Token} {off : Nat} {state state' : DiffState} {c : Nat}
  {f g : Int → Option PathNode}

theorem abs_le_of_slotAt {n k x} (hfar : ∀ k : Int, n < |k| → f k = none) (h : slotAt (f k) x) : |k| ≤ n := by
  by_contra hk
  rw [hfar k (by omega)] at h
  simp [slotAt] at h

theorem Window.lo_eq (h : Window old new state c f) {m} (hm : m ∈ state.minDiag) : state.lo (c + 1) = m := by
  have hk := abs_le.mp (abs_le_of_slotAt h.far (h.minDiag m hm).2.2)
  rw [lo, Option.mem_def.mp hm, Option.elim_some]
  omega

theorem Window.hi_eq (h : Window old new state c f) {m} (hm : m ∈ state.maxDiag) : state.hi (c + 1) = m := by
  have hk := abs_le.mp (abs_le_of_slotAt h.far (h.maxDiag m hm).2.2)
  rw [hi, Option.mem_def.mp hm, Option.elim_some]
  omega

theorem Window.bounds (h : Window old new state c f) :
    (state.lo (c + 1) - c) % 2 = 1 ∧ (state.hi (c + 1) - c) % 2 = 1 ∧
      -(c + 1 : Int) ≤ state.lo (c + 1) ∧ state.hi (c + 1) ≤ c + 1 ∧ state.lo (c + 1) ≤ state.hi (c + 1) := by
  cases hmn : state.minDiag with
  | none =>
    have hlo : state.lo (c + 1) = -(c + 1 : Int) := by simp [lo, hmn]
    cases hmx : state.maxDiag with
    | none =>
      have hhi : state.hi (c + 1) = (c + 1 : Int) := by simp [hi, hmx]
      omega
    | some m =>
      have hhi := h.hi_eq hmx
      have hm := h.maxDiag m hmx
      have hk := abs_le.mp (abs_le_of_slotAt h.far hm.2.2)
      omega
  | some m =>
    have hlo := h.lo_eq hmn
    have hm := h.minDiag m hmn
    have hk := abs_le.mp (abs_le_of_slotAt h.far hm.2.2)
    cases hmx : state.maxDiag with
    | none =>
      have hhi : state.hi (c + 1) = (c + 1 : Int) := by simp [hi, hmx]
      omega
    | some m' =>
      have hhi := h.hi_eq hmx
      have hm' := h.maxDiag m' hmx
      have hk' := abs_le.mp (abs_le_of_slotAt h.far hm'.2.2)
      omega

theorem Frontier.midway (h : Frontier old new off state c f) :
    Midway old new off state f (state.lo (c + 1)) (state.lo (c + 1)) c state f where
  comps := ⟨[], by simp⟩
  slots := h.slots
  ahead := fun _ _ => rfl
  far := fun k hk => h.far k (by omega)
  behind := fun k hk => absurd hk (by unfold Behind; omega)
  minDiag := ⟨fun _ => .inl, fun k hk => absurd hk.1 (by unfold Behind; omega)⟩
  maxDiag := ⟨fun _ => .inl, fun k hk => absurd hk.1 (by unfold Behind; omega)⟩

section

variable (h : Frontier old new off state c f)
  (hround : Midway old new off state f (state.lo (c + 1)) (state.hi (c + 1) + 2) c state' g)
include h hround

/-- The lowest diagonal again ends at the last new token, so `minDiag` rises in every round. -/
theorem minDiag_rises {m} (hm : m ∈ state.minDiag) : ∃ m' ∈ state'.minDiag, m + 1 ≤ m' := by
  obtain ⟨hparity, hle, hslot⟩ := h.minDiag m hm
  have hlo := h.lo_eq hm
  have hwindow := h.bounds
  have hbehind : Behind (state.lo (c + 1)) (state.hi (c + 1) + 2) m := by unfold Behind; omega
  refine hround.minDiag.reach m ⟨hbehind, ?_⟩
  obtain ⟨p, hp, hpos⟩ := slotAt_iff.mp hslot
  have hadvanced := hround.behind m hbehind
  obtain ⟨q, hq, hpq⟩ := hadvanced.removes p hp (canRemove_some.mpr (by omega))
  obtain ⟨x, y, hat, hdiag, -, -⟩ := hadvanced.node q hq
  have hx := hat.pos
  have hy := hat.le
  exact slotAt_iff.mpr ⟨q, hq, by omega⟩

theorem maxDiag_falls {m} (hm : m ∈ state.maxDiag) : ∃ m' ∈ state'.maxDiag, m' ≤ m - 1 := by
  obtain ⟨hparity, hle, hslot⟩ := h.maxDiag m hm
  have hhi := h.hi_eq hm
  have hwindow := h.bounds
  have hbehind : Behind (state.lo (c + 1)) (state.hi (c + 1) + 2) m := by unfold Behind; omega
  refine hround.maxDiag.reach m ⟨hbehind, ?_⟩
  obtain ⟨p, hp, hpos⟩ := slotAt_iff.mp hslot
  obtain ⟨x₀, y₀, hat₀, hdiag₀, -, hend₀⟩ := h.node (m + 1) (by unfold Reads; omega) p hp
  have hx₀ := hat₀.pos
  have hadvanced := hround.behind m hbehind
  obtain ⟨q, hq, hpq⟩ := hadvanced.adds p hp (canAdd_some.mpr (by omega))
  obtain ⟨x, y, hat, hdiag, -, -⟩ := hadvanced.node q hq
  have hx := hat.pos
  have hy := hat.le
  exact slotAt_iff.mpr ⟨q, hq, by omega⟩

theorem behind_of_reads {k x} (hk : Reads state' (c + 1) k) (hslot : slotAt (g k) x) :
    Behind (state.lo (c + 1)) (state.hi (c + 1) + 2) k := by
  have hwindow := h.bounds
  have habs := abs_le.mp (abs_le_of_slotAt hround.far hslot)
  obtain ⟨hlow, hhigh, hparity⟩ := hk
  have hlo : state.lo (c + 1) ≤ k := by
    cases hmn : state.minDiag with
    | none => simp [lo, hmn]; omega
    | some m =>
      obtain ⟨m', hm', hle⟩ := minDiag_rises h hround hmn
      rw [lo, Option.mem_def.mp hm', Option.elim_some] at hlow
      have := h.lo_eq hmn
      omega
  have hhi : k ≤ state.hi (c + 1) := by
    cases hmx : state.maxDiag with
    | none => simp [hi, hmx]; omega
    | some m =>
      obtain ⟨m', hm', hle⟩ := maxDiag_falls h hround hmx
      rw [hi, Option.mem_def.mp hm', Option.elim_some] at hhigh
      have := h.hi_eq hmx
      omega
  unfold Behind
  omega

theorem minDiag_next {m} (hm : m ∈ state'.minDiag) : (m - (c + 1 : Nat)) % 2 = 1 ∧
    m ≤ old.length - new.length ∧ slotAt (g (m - 1)) (new.length + m - 1) := by
  rcases hround.minDiag.origin m hm with hstart | ⟨hbehind, hslot⟩
  · obtain ⟨m', hm', hlt⟩ := minDiag_rises h hround hstart
    cases Option.mem_unique hm hm'
    omega
  · obtain ⟨p, hp, hpos⟩ := slotAt_iff.mp hslot
    obtain ⟨x, y, hat, hdiag, -, hend⟩ := (hround.behind _ hbehind).node p hp
    have hx := hat.pos
    have hy := hat.le
    have hwindow := h.bounds
    unfold Behind at hbehind
    refine ⟨by omega, by omega, ?_⟩
    rwa [← add_sub_assoc] at hslot

theorem maxDiag_next {m} (hm : m ∈ state'.maxDiag) : (m - (c + 1 : Nat)) % 2 = 1 ∧
    old.length - new.length ≤ m ∧ slotAt (g (m + 1)) old.length := by
  rcases hround.maxDiag.origin m hm with hstart | ⟨hbehind, hslot⟩
  · obtain ⟨m', hm', hlt⟩ := maxDiag_falls h hround hstart
    cases Option.mem_unique hm hm'
    omega
  · obtain ⟨p, hp, hpos⟩ := slotAt_iff.mp hslot
    obtain ⟨x, y, hat, hdiag, -, hend⟩ := (hround.behind _ hbehind).node p hp
    have hx := hat.pos
    have hy := hat.le
    have hwindow := h.bounds
    unfold Behind at hbehind
    exact ⟨by omega, by omega, hslot⟩

theorem shortest_visited : ∃ (k : Int) (x y : Nat),
    Behind (state.lo (c + 1)) (state.hi (c + 1) + 2) k ∧ slotAt (g k) x ∧ (x : Int) - y = k ∧
      (x ≤ old.length ∧ y ≤ new.length) ∧ remaining old new x y + (c + 1) ≤ editDistance old new := by
  obtain ⟨k, x, y, hreads, hslot, hdiag, hle⟩ := h.shortest
  obtain ⟨p, hp, hpos⟩ := slotAt_iff.mp hslot
  obtain ⟨x', y', hat, hdiag', hslid, hend⟩ := h.node k hreads p hp
  have hx := hat.pos
  have hbounds := hat.le
  obtain ⟨rfl, rfl⟩ : x' = x ∧ y' = y := by omega
  have habs := abs_le.mp (abs_le_of_slotAt h.far hslot)
  have hwindow := h.bounds
  obtain ⟨hlow, hhigh, hparity⟩ := hreads
  rcases exists_move hbounds.1 hbounds.2 hslid hend with ⟨hroom, hmove⟩ | ⟨hroom, hmove⟩
  · -- above the window only `maxDiag + 1` is read, where no old token is left
    have hhi : k ≠ state.hi (c + 1) + 1 := by
      intro hk
      cases hmx : state.maxDiag with
      | none => simp [hi, hmx] at hk; omega
      | some m =>
        have hm := (h.maxDiag m hmx).2.2
        rw [← h.hi_eq hmx, ← hk] at hm
        obtain ⟨q, hq, hqpos⟩ := slotAt_iff.mp hm
        cases Option.mem_unique hp hq
        omega
    have hvisited : Behind (state.lo (c + 1)) (state.hi (c + 1) + 2) (k + 1) := by
      unfold Behind
      omega
    have hadvanced := hround.behind _ hvisited
    obtain ⟨q, hq, hpq⟩ := hadvanced.removes p (by simpa using hp) (canRemove_some.mpr (by omega))
    obtain ⟨x₁, y₁, hat₁, hdiag₁, -, -⟩ := hadvanced.node q hq
    have hx₁ := hat₁.pos
    have hbounds₁ := hat₁.le
    have hnear : remaining old new x₁ y₁ ≤ remaining old new (x' + 1) y' :=
      remaining_along (by omega) (by omega) hbounds₁.1 hbounds₁.2
    exact ⟨k + 1, x₁, y₁, hvisited, slotAt_iff.mpr ⟨q, hq, hx₁⟩, hdiag₁, hbounds₁, by omega⟩
  · have hlo : k ≠ state.lo (c + 1) - 1 := by
      intro hk
      cases hmn : state.minDiag with
      | none => simp [lo, hmn] at hk; omega
      | some m =>
        have hm := (h.minDiag m hmn).2.2
        rw [← h.lo_eq hmn, ← hk] at hm
        obtain ⟨q, hq, hqpos⟩ := slotAt_iff.mp hm
        cases Option.mem_unique hp hq
        omega
    have hvisited : Behind (state.lo (c + 1)) (state.hi (c + 1) + 2) (k - 1) := by
      unfold Behind
      omega
    have hadvanced := hround.behind _ hvisited
    obtain ⟨q, hq, hpq⟩ := hadvanced.adds p (by simpa using hp) (canAdd_some.mpr (by omega))
    obtain ⟨x₁, y₁, hat₁, hdiag₁, -, -⟩ := hadvanced.node q hq
    have hx₁ := hat₁.pos
    have hbounds₁ := hat₁.le
    have hnear : remaining old new x₁ y₁ ≤ remaining old new x' (y' + 1) :=
      remaining_along (by omega) (by omega) hbounds₁.1 hbounds₁.2
    exact ⟨k - 1, x₁, y₁, hvisited, slotAt_iff.mpr ⟨q, hq, hx₁⟩, hdiag₁, hbounds₁, by omega⟩

theorem window_next : Window old new state' (c + 1) g where
  far := by exact_mod_cast hround.far
  minDiag := fun _ => minDiag_next h hround
  maxDiag := fun _ => maxDiag_next h hround

theorem shortest_next : ∃ (k : Int) (x y : Nat), Reads state' (c + 1) k ∧ slotAt (g k) x ∧
    (x : Int) - y = k ∧ remaining old new x y + (c + 1) ≤ editDistance old new := by
  obtain ⟨k, x, y, hbehind, hslot, hdiag, hbounds, hle⟩ := shortest_visited h hround
  have habs := abs_le.mp (abs_le_of_slotAt hround.far hslot)
  have hremaining := length_sub_le_editDistance (old.drop x) (new.drop y)
  rw [length_drop, length_drop] at hremaining
  have hwindow := h.bounds
  have hnext := window_next h hround
  have hwindow' := hnext.bounds
  have hparity : (k - (c + 1 : Nat)) % 2 = 0 := by
    unfold Behind at hbehind
    omega
  by_cases hhi : k ≤ state'.hi (c + 1 + 1) + 1
  · by_cases hlo : state'.lo (c + 1 + 1) - 1 ≤ k
    · exact ⟨k, x, y, ⟨hlo, hhi, hparity⟩, hslot, hdiag, hle⟩
    · cases hmn : state'.minDiag with
      | none => simp [lo, hmn] at hlo; omega
      | some m =>
        obtain ⟨hodd, hend, hslot'⟩ := hnext.minDiag m hmn
        have hm := hnext.lo_eq hmn
        obtain ⟨x', hx'⟩ : ∃ x' : Nat, (x' : Int) = new.length + m - 1 := ⟨(new.length + m - 1).toNat, by omega⟩
        refine ⟨m - 1, x', new.length, ⟨by omega, by omega, by omega⟩, by rwa [hx'], by omega, ?_⟩
        simp only [remaining, drop_length, editDistance_nil_right, length_drop] at hle ⊢
        omega
  · cases hmx : state'.maxDiag with
    | none => simp [hi, hmx] at hhi; omega
    | some m =>
      obtain ⟨hodd, hend, hslot'⟩ := hnext.maxDiag m hmx
      have hm := hnext.hi_eq hmx
      obtain ⟨y', hy'⟩ : ∃ y' : Nat, (y' : Int) = old.length - m - 1 := ⟨(old.length - m - 1).toNat, by omega⟩
      refine ⟨m + 1, old.length, y', ⟨by omega, by omega, by omega⟩, hslot', by omega, ?_⟩
      simp only [remaining, drop_length, editDistance_nil_left, length_drop] at hle ⊢
      omega

theorem frontier_next : Frontier old new off state' (c + 1) g where
  toWindow := window_next h hround
  slots := hround.slots
  node := by
    intro k hk p hp
    have hslot : slotAt (g k) (p.oldPos + 1) := slotAt_iff.mpr ⟨p, hp, rfl⟩
    exact (hround.behind k (behind_of_reads h hround hk hslot)).node p hp
  shortest := shortest_next h hround

end

/-- One round either builds the parts or leaves the state of the next round. -/
theorem round_spec (h : Frontier old new off state c f) (hoff : c + 1 < off) :
    (∃ changes, visitDiagonals old new off (diagonals (state.lo (c + 1)) (state.hi (c + 1))) state =
        some (.built (changes.map Change.part)) ∧ Built old new changes (c + 1)) ∨
      ∃ state' g, visitDiagonals old new off (diagonals (state.lo (c + 1)) (state.hi (c + 1))) state =
        some (.searching state') ∧ Frontier old new off state' (c + 1) g := by
  have hwindow := h.bounds
  obtain ⟨n, hn⟩ : ∃ n : Nat, state.hi (c + 1) + 2 = state.lo (c + 1) + 2 * n :=
    ⟨((state.hi (c + 1) - state.lo (c + 1)) / 2 + 1).toNat, by omega⟩
  have hnodes : ∀ k, state.lo (c + 1) - 1 ≤ k → k ≤ state.hi (c + 1) + 1 →
      (k - state.lo (c + 1)) % 2 = 1 → ∀ p ∈ f k, Node old new state.comps k c p := by
    intro k hlo hhi hodd
    exact h.node k ⟨hlo, hhi, by omega⟩
  rcases visitDiagonals_spec n hn h.midway le_rfl (by simp) hwindow.2.2.1 hwindow.2.2.2.1 hoff
      hnodes with hbuilt | ⟨state', g, hvisit, hround⟩
  · exact .inl hbuilt
  · exact .inr ⟨state', g, hvisit, frontier_next h hround⟩

theorem Frontier.lt_editDistance (h : Frontier old new off state c f) : c < editDistance old new := by
  obtain ⟨k, x, y, hreads, hslot, hdiag, hle⟩ := h.shortest
  obtain ⟨p, hp, hpos⟩ := slotAt_iff.mp hslot
  obtain ⟨x', y', hat, hdiag', hslid, hend⟩ := h.node k hreads p hp
  have hx := hat.pos
  have hbounds := hat.le
  obtain ⟨rfl, rfl⟩ : x' = x ∧ y' = y := by omega
  have := exists_move hbounds.1 hbounds.2 hslid hend
  omega

theorem Built.least {changes e} (h : Built old new changes e)
    (hle : e ≤ editDistance old new) : Built old new changes (editDistance old new) := by
  obtain ⟨script, hscript, hcost⟩ := h.script
  have hmin := editDistance_le_scriptCost hscript
  obtain rfl : e = editDistance old new := by omega
  exact h

/-- The rounds end with parts that change as few tokens as possible. -/
theorem searchRounds_spec (n : Nat) (hn : c + n = new.length + old.length)
    (hoff : new.length + old.length < off) (h : Frontier old new off state c f) :
    ∃ changes, searchRounds old new off (List.range' (c + 1) n) state =
        some (.built (changes.map Change.part)) ∧ Built old new changes (editDistance old new) := by
  have hlt := h.lt_editDistance
  induction n generalizing c state f with
  | zero =>
    have := editDistance_le old new
    omega
  | succ n ih =>
    rw [List.range'_succ, searchRounds]
    rcases round_spec h (by omega) with ⟨changes, hvisit, hbuilt⟩ | ⟨state', g, hvisit, hnext⟩
    · exact ⟨changes, by simp [hvisit], hbuilt.least hlt⟩
    · simp only [hvisit, Option.bind_eq_bind, Option.bind_some]
      exact ih (by omega) hnext hnext.lt_editDistance

theorem seed_spec (old new : List Token) : ∃ (n : Nat) (comps : List Comp) (seed : PathNode),
    extractCommon [] { oldPos := -1, last := none } new old 0 = some (comps, seed, ((n : Nat) : Int) - 1) ∧
    At old new comps seed n n 0 ∧ commonRun (old.drop n) (new.drop n) = 0 ∧
    remaining old new n n ≤ editDistance old new := by
  have hat : At old new [] { oldPos := -1, last := none } 0 0 0 := ⟨by simp, [], .nil, .nil⟩
  obtain ⟨n, comps, seed, hcommon, hat', hslid⟩ := extractCommon_spec hat (by simp [Fresh])
  simp only [Nat.zero_add, nil_append] at hcommon hat' hslid
  have hle : remaining old new n n ≤ remaining old new 0 0 :=
    remaining_along (Nat.zero_le n) (by simp) hat'.le.1 hat'.le.2
  exact ⟨n, comps, seed, hcommon, hat', hslid, hle⟩

theorem frontier_seed {comps seed best n}
    (hslots : Slots off best (Function.update (fun _ => none) 0 (some seed)))
    (hat : At old new comps seed n n 0) (hslid : commonRun (old.drop n) (new.drop n) = 0)
    (hend : ¬ (n = old.length ∧ n = new.length)) (hle : remaining old new n n ≤ editDistance old new) :
    Frontier old new off { comps, best, minDiag := none, maxDiag := none } 0
      (Function.update (fun _ => none) 0 (some seed)) where
  far := by
    intro k hk
    have hne : k ≠ 0 := by simpa using hk
    rw [Function.update_of_ne hne]
  minDiag := by simp
  maxDiag := by simp
  slots := hslots
  node := by
    intro k _ p hp
    by_cases hk : k = 0
    · rw [hk] at hp
      cases hp
      exact ⟨n, n, hat, by omega, hslid, hend⟩
    · rw [Function.update_of_ne hk] at hp
      cases hp
  shortest := by
    refine ⟨0, n, n, by simp [Reads, lo, hi], ?_, by simp, by simpa using hle⟩
    rw [slotAt_iff]
    exact ⟨seed, rfl, hat.pos⟩

theorem diffTokens_built (old new : List Token) :
    ∃ changes, diffTokens old new = some (.built (changes.map Change.part)) ∧
      Built old new changes (editDistance old new) := by
  obtain ⟨n, comps, seed, hcommon, hat, hslid, hle⟩ := seed_spec old new
  have hpos := hat.pos
  have hbounds := hat.le
  have hold : seed.oldPos + 1 ≥ old.length ↔ n = old.length := by omega
  have hnew : (n : Int) - 1 + 1 ≥ new.length ↔ n = new.length := by omega
  simp only [diffTokens, hcommon, Option.bind_eq_bind, Option.bind_some, hold, hnew]
  by_cases hend : n = old.length ∧ n = new.length
  · have hat' : At old new comps seed old.length new.length 0 := by
      rw [← hend.1, ← hend.2]
      exact hat
    obtain ⟨changes, hbuild, hbuilt⟩ := buildValues_spec hat'
    exact ⟨changes, by simp only [if_pos hend, hbuild]; rfl, hbuilt.least (Nat.zero_le _)⟩
  · obtain ⟨best, hwrite, hslots⟩ := Slots.writeSlot (k := 0)
      (@slots_replicate (new.length + old.length + 2)) (by omega) (by omega) (some seed)
    simp only [if_neg hend, hwrite, Option.bind_some]
    exact searchRounds_spec (new.length + old.length) (by omega) (by omega) (frontier_seed hslots hat hslid hend hle)

theorem flatMap_value_parts (changes : List Change) (keep : LineDiffPart → Bool) :
    ((changes.map Change.part).filter keep).flatMap LineDiffPart.value =
      ((changes.filter (keep ∘ Change.part)).flatMap Change.tokens).flatten := by
  rw [filter_map, flatMap_map, flatten_eq_flatMap, flatMap_assoc]
  simp only [Change.part, flatMap_id]

/-- For all token lists the parts spell out both texts, neighbours differ in kind, and no script
removes and adds fewer tokens. -/
theorem diffTokens_minimal (old new : List Token) : ∃ changes : List Change,
      diffTokens old new = some (.built (changes.map Change.part)) ∧
      oldTokens changes = old ∧ newTokens changes = new ∧
      ((changes.map Change.part).filter fun p => !p.added).flatMap LineDiffPart.value = old.flatten ∧
      ((changes.map Change.part).filter fun p => !p.removed).flatMap LineDiffPart.value = new.flatten ∧
      ((changes.map Change.part).map LineDiffPart.kind).IsChain (· ≠ ·) ∧
      IsLeast {n | ∃ script, Rewrites script old new ∧ scriptCost script = n} (changedTokens changes) := by
  obtain ⟨changes, hdiff, hbuilt⟩ := diffTokens_built old new
  refine ⟨changes, hdiff, hbuilt.source, hbuilt.target, ?_, ?_, hbuilt.kinds, ?_⟩
  · rw [flatMap_value_parts]
    exact congrArg List.flatten hbuilt.source
  · rw [flatMap_value_parts]
    exact congrArg List.flatten hbuilt.target
  · rw [hbuilt.cost]
    refine ⟨hbuilt.script, ?_⟩
    rintro n ⟨script, hscript, rfl⟩
    exact editDistance_le_scriptCost hscript

theorem flatten_splitSegments (value content : List UInt8) :
    (splitSegments value content).flatten = content ++ value := by
  fun_induction splitSegments value content with
  | case1 content => simp
  | case2 rest content ih | case3 rest content ih | case4 byte rest content _ _ ih => simp [ih]

theorem flatten_mergeSeparators (segments : List Token) : (mergeSeparators segments).flatten = segments.flatten := by
  fun_induction mergeSeparators segments with
  | case1 content separator rest ih => simp [ih]
  | case2 => rfl

theorem flatten_dropLast_of_empty {segments : List Token} (h : segments.getLast? = some []) :
    segments.dropLast.flatten = segments.flatten := by
  have hlast := dropLast_append_getLast? [] h
  conv_rhs => rw [← hlast]
  simp

theorem flatten_tokenizeRanges (value : List UInt8) : (tokenizeRanges value).flatten = value := by
  have hsplit := flatten_splitSegments value []
  rw [nil_append] at hsplit
  have hfilter : ∀ segments : List Token, (segments.filter (· ≠ [])).flatten = segments.flatten := by
    intro segments
    induction segments with
    | nil => rfl
    | cons segment segments ih => by_cases hs : segment = [] <;> simp_all
  rw [tokenizeRanges, hfilter, flatten_mergeSeparators]
  split
  · next h => rw [flatten_dropLast_of_empty h, hsplit]
  · exact hsplit

/-- The parts of `diff_lines` spell out both texts. -/
theorem diffLines_texts (oldStr newStr : List UInt8) : ∃ parts, diffLines oldStr newStr = some (.built parts) ∧
      (parts.filter fun p => !p.added).flatMap LineDiffPart.value = oldStr ∧
      (parts.filter fun p => !p.removed).flatMap LineDiffPart.value = newStr := by
  obtain ⟨changes, hdiff, hbuilt⟩ := diffTokens_built (tokenizeRanges oldStr) (tokenizeRanges newStr)
  refine ⟨changes.map Change.part, hdiff, ?_, ?_⟩
  · rw [flatMap_value_parts, ← flatten_tokenizeRanges oldStr]
    exact congrArg List.flatten hbuilt.source
  · rw [flatMap_value_parts, ← flatten_tokenizeRanges newStr]
    exact congrArg List.flatten hbuilt.target

end GajaeCode.Natives.LineDiff
