import GajaeCode.Natives.LineDiffTrace

/-! The search of `diff_tokens`: what one diagonal, one round and all rounds do. -/
namespace GajaeCode.Natives.LineDiff
open Text List

section

/-- `best` holds `f k` on every diagonal `k` that it has a slot for. -/
structure Slots (off : Nat) (best : List (Option PathNode)) (f : Int → Option PathNode) : Prop where
  length : best.length = 2 * off + 1
  get : ∀ k : Int, -off ≤ k → k ≤ off → best[(k + off).toNat]? = some (f k)

variable {off : Nat} {best : List (Option PathNode)} {f : Int → Option PathNode}

theorem slots_replicate : Slots off (replicate (2 * off + 1) none) fun _ => none where
  length := length_replicate
  get := by
    intro k hlo hhi
    rw [getElem?_replicate, if_pos (by omega)]

theorem Slots.readSlot (h : Slots off best f) {k : Int} (hlo : -off ≤ k) (hhi : k ≤ off) :
    readSlot best off k = some (f k) := by
  have hindex : ¬ k + off < 0 := by omega
  simp [LineDiff.readSlot, slotIndex, if_neg hindex, h.get k hlo hhi]

theorem Slots.writeSlot (h : Slots off best f) {k : Int} (hlo : -off ≤ k) (hhi : k ≤ off) (path : Option PathNode) :
    ∃ best', writeSlot best off k path = some best' ∧ Slots off best' (Function.update f k path) := by
  have hindex : ¬ k + off < 0 := by omega
  have hlt : (k + off).toNat < best.length := by rw [h.length]; omega
  refine ⟨best.set (k + off).toNat path, ?_, ?_, ?_⟩
  · simp [LineDiff.writeSlot, slotIndex, if_neg hindex, if_pos hlt]
  · rw [length_set, h.length]
  · intro j hj hj'
    by_cases hjk : j = k
    · rw [hjk, Function.update_self, getElem?_set_self hlt]
    · rw [Function.update_of_ne hjk, getElem?_set_ne (by omega), h.get j hj hj']

end

variable {old new : List Token}

def remaining (old new : List Token) (x y : Nat) : Nat :=
  editDistance (old.drop x) (new.drop y)

theorem exists_move {x y} (hx : x ≤ old.length) (hy : y ≤ new.length)
    (hslid : commonRun (old.drop x) (new.drop y) = 0) (hend : ¬ (x = old.length ∧ y = new.length)) :
    (x < old.length ∧ remaining old new (x + 1) y + 1 = remaining old new x y) ∨
      (y < new.length ∧ remaining old new x (y + 1) + 1 = remaining old new x y) := by
  unfold remaining
  rcases hx.lt_or_eq with hx | rfl
  · rcases hy.lt_or_eq with hy | rfl
    · rw [drop_eq_getElem_cons hx, drop_eq_getElem_cons hy] at hslid ⊢
      have hne : old[x] ≠ new[y] := by
        intro heq
        simp [commonRun, heq] at hslid
      rw [editDistance_cons_cons hne]
      omega
    · simp
      omega
  · simp
    omega

theorem remaining_along {x y x' y' : Nat} (hx : x ≤ x') (hdiag : (x' : Int) - y' = x - y)
    (hx' : x' ≤ old.length) (hy' : y' ≤ new.length) : remaining old new x' y' ≤ remaining old new x y := by
  obtain ⟨n, rfl⟩ := Nat.exists_eq_add_of_le hx
  obtain rfl : y' = y + n := by omega
  have hdrop : editDistance ((old.drop x).drop n) ((new.drop y).drop n) ≤
      editDistance (old.drop x) (new.drop y) :=
    editDistance_drop_le n (by simp; omega) (by simp; omega)
  simpa [remaining] using hdrop

/-- A path stored for the diagonal `k` after `c` changes. -/
def Node (old new : List Token) (comps : List Comp) (k : Int) (c : Nat) (path : PathNode) : Prop :=
  ∃ x y : Nat, At old new comps path x y c ∧ (x : Int) - y = k ∧
    commonRun (old.drop x) (new.drop y) = 0 ∧ ¬ (x = old.length ∧ y = new.length)

variable {comps : List Comp} {c : Nat} {d : Int}

theorem Node.append {k path} (h : Node old new comps k c path) (more : List Comp) :
    Node old new (comps ++ more) k c path := by
  obtain ⟨x, y, hat, hrest⟩ := h
  exact ⟨x, y, hat.append more, hrest⟩

theorem canRemove_some {p} : canRemove old (some p) = true ↔ p.oldPos + 1 < old.length := by
  simp [canRemove]

theorem canAdd_some {p} : canAdd new d (some p) = true ↔ 0 ≤ p.oldPos - d ∧ p.oldPos - d < new.length := by
  simp [canAdd]

theorem extendPath_spec {rp ap} (hrp : ∀ p ∈ rp, Node old new comps (d - 1) c p)
    (hap : ∀ p ∈ ap, Node old new comps (d + 1) c p)
    (hcan : canAdd new d ap = true ∨ canRemove old rp = true) : ∃ (x y : Nat) (comp : Comp) (path : PathNode),
      extendPath comps old new d rp ap = some (comps ++ [comp], path) ∧
      At old new (comps ++ [comp]) path x y (c + 1) ∧ Fresh (comps ++ [comp]) path ∧
      (x : Int) - y = d ∧ (∀ p ∈ rp, canRemove old rp → p.oldPos + 2 ≤ x) ∧
      (∀ p ∈ ap, canAdd new d ap → p.oldPos + 1 ≤ x) := by
  by_cases htake : takesFromAdd old new d rp ap = true
  · have hadd : canAdd new d ap = true := by
      simp only [takesFromAdd, Bool.or_eq_true, Bool.not_eq_true', Bool.and_eq_true] at htake
      rcases htake with hremove | hadd
      · simpa [hremove] using hcan
      · exact hadd.1
    cases ap with
    | none => simp [canAdd] at hadd
    | some a =>
      obtain ⟨x, y, hat, hdiag, -, -⟩ := hap a rfl
      have hpos := hat.pos
      have hroom := canAdd_some.mp hadd
      obtain ⟨comp, path, hext, hat', hfresh⟩ := addToPath_spec hat true (by simp; omega)
      refine ⟨x, y + 1, comp, path, ?_, hat', hfresh, by omega, ?_, ?_⟩
      · simpa [extendPath, htake] using hext
      · intro r hr hremove
        cases hr
        have : r.oldPos < a.oldPos := by simpa [takesFromAdd, hremove, hadd] using htake
        omega
      · intro a' ha' _
        cases ha'
        omega
  · have hremove : canRemove old rp = true := by
      simp only [takesFromAdd, Bool.or_eq_true, Bool.not_eq_true', not_or, Bool.not_eq_false] at htake
      exact htake.1
    cases rp with
    | none => simp [canRemove] at hremove
    | some r =>
      obtain ⟨x, y, hat, hdiag, -, -⟩ := hrp r rfl
      have hpos := hat.pos
      have hroom := canRemove_some.mp hremove
      obtain ⟨comp, path, hext, hat', hfresh⟩ := addToPath_spec hat false (by simp; omega)
      refine ⟨x + 1, y, comp, path, ?_, hat', hfresh, by omega, ?_, ?_⟩
      · simpa [extendPath, htake] using hext
      · intro r' hr' _
        cases hr'
        omega
      · intro a ha hadd
        cases ha
        have : a.oldPos ≤ r.oldPos := by simpa [takesFromAdd, hremove, hadd] using htake
        omega

def slotAt (slot : Option PathNode) (x : Int) : Bool := slot.any fun p => p.oldPos + 1 = x

/-- What a visit of the diagonal `d` leaves in its slot, given the slots `f` before it. -/
structure Advanced (old new : List Token) (f : Int → Option PathNode) (comps : List Comp) (d : Int)
    (c : Nat) (slot : Option PathNode) : Prop where
  node : ∀ p ∈ slot, Node old new comps d c p
  removes : ∀ p ∈ f (d - 1), canRemove old (some p) → ∃ q ∈ slot, p.oldPos + 1 ≤ q.oldPos
  adds : ∀ p ∈ f (d + 1), canAdd new d (some p) → ∃ q ∈ slot, p.oldPos ≤ q.oldPos

structure Visited (old new : List Token) (off : Nat) (f : Int → Option PathNode)
    (state state' : DiffState) (d : Int) (c : Nat) (slot : Option PathNode) : Prop where
  comps : ∃ more, state'.comps = state.comps ++ more
  slots : Slots off state'.best (Function.update (Function.update f (d - 1) none) d slot)
  advanced : Advanced old new f state'.comps d c slot
  minDiag : state'.minDiag = if slotAt slot (new.length + d) then raiseMinDiag state.minDiag d
    else state.minDiag
  maxDiag : state'.maxDiag = if slotAt slot old.length then lowerMaxDiag state.maxDiag d
    else state.maxDiag

theorem visitDiagonal_spec {off f state} (hslots : Slots off state.best f) (hlo : -off < d) (hhi : d < off)
    (hrp : ∀ p ∈ f (d - 1), Node old new state.comps (d - 1) c p)
    (hap : ∀ p ∈ f (d + 1), Node old new state.comps (d + 1) c p) :
    (∃ changes, visitDiagonal old new off state d = some (.built (changes.map Change.part)) ∧
      Built old new changes (c + 1)) ∨ ∃ state' slot, visitDiagonal old new off state d = some (.searching state') ∧
      Visited old new off f state state' d (c + 1) slot := by
  obtain ⟨best, hwrite, hslots'⟩ := hslots.writeSlot (k := d - 1) (by omega) (by omega) none
  have hread' : readSlot best off (d + 1) = some (f (d + 1)) := by
    rw [hslots'.readSlot (by omega) (by omega), Function.update_of_ne (by omega)]
  simp only [visitDiagonal, hslots.readSlot (k := d - 1) (by omega) (by omega), hwrite, hread',
    Option.bind_eq_bind, Option.bind_some]
  by_cases hcan : canAdd new d (f (d + 1)) = true ∨ canRemove old (f (d - 1)) = true
  · obtain ⟨x, y, comp, path, hext, hat, hfresh, rfl, hremoves, hadds⟩ := extendPath_spec hrp hap hcan
    obtain ⟨n, more, path', hcommon, hat', hslid⟩ := extractCommon_spec hat hfresh
    have hpos := hat'.pos
    have hle := hat'.le
    have hcan' : (!canAdd new (x - y) (f (x - y + 1)) && !canRemove old (f (x - y - 1))) = false := by
      simpa [or_iff_not_imp_left] using hcan
    have hold : path'.oldPos + 1 ≥ old.length ↔ x + n = old.length := by omega
    have hnew : ((y + n : Nat) : Int) - 1 + 1 ≥ new.length ↔ y + n = new.length := by omega
    simp only [hcan', hext, hcommon, Option.bind_some, hold, hnew]
    by_cases hend : x + n = old.length ∧ y + n = new.length
    · left
      rw [hend.1, hend.2] at hat'
      obtain ⟨changes, hbuild, hbuilt⟩ := buildValues_spec hat'
      exact ⟨changes, by simp only [if_pos hend, hbuild]; rfl, hbuilt⟩
    · right
      obtain ⟨best', hwrite', hslots''⟩ := hslots'.writeSlot (k := x - y) (by omega) (by omega) (some path')
      refine ⟨_, some path', by simp only [if_neg hend, hwrite']; rfl, ⟨_, append_assoc ..⟩,
        hslots'', ⟨?_, ?_, ?_⟩, ?_, ?_⟩
      · intro p hp
        cases hp
        exact ⟨x + n, y + n, hat', by omega, hslid, hend⟩
      · intro p hp hremove
        rw [Option.mem_def.mp hp] at hremoves
        have := hremoves p rfl hremove
        exact ⟨path', rfl, by omega⟩
      · intro p hp hadd
        rw [Option.mem_def.mp hp] at hadds
        have := hadds p rfl hadd
        exact ⟨path', rfl, by omega⟩
      · have : slotAt (some path') (new.length + (x - y)) = decide (y + n = new.length) := by
          rw [slotAt, Option.any_some, decide_eq_decide]
          omega
        simp [this]
      · have : slotAt (some path') old.length = decide (x + n = old.length) := by
          rw [slotAt, Option.any_some, decide_eq_decide]
          omega
        simp [this]
  · obtain ⟨best', hwrite', hslots''⟩ := hslots'.writeSlot (k := d) (by omega) (by omega) none
    have hcan' : (!canAdd new d (f (d + 1)) && !canRemove old (f (d - 1))) = true := by
      simpa using hcan
    rw [not_or] at hcan
    right
    refine ⟨{ state with best := best' }, none, by simp [hcan', hwrite'], ⟨[], by simp⟩, hslots'',
      ⟨by simp, ?_, ?_⟩, by simp [slotAt], by simp [slotAt]⟩
    · intro p hp hremove
      rw [Option.mem_def.mp hp] at hcan
      exact absurd hremove hcan.2
    · intro p hp hadd
      rw [Option.mem_def.mp hp] at hcan
      exact absurd hadd hcan.1

/-- `now` is `start` raised above every diagonal with `P`. -/
structure Raised (start now : Option Int) (P : Int → Prop) : Prop where
  origin : ∀ m ∈ now, m ∈ start ∨ P (m - 1)
  reach : ∀ k, P k → ∃ m ∈ now, k + 1 ≤ m

/-- `now` is `start` lowered below every diagonal with `P`. -/
structure Lowered (start now : Option Int) (P : Int → Prop) : Prop where
  origin : ∀ m ∈ now, m ∈ start ∨ P (m + 1)
  reach : ∀ k, P k → ∃ m ∈ now, m ≤ k - 1

theorem mem_raiseMinDiag (mn : Option Int) (d : Int) :
    (∀ m ∈ raiseMinDiag mn d, m ∈ mn ∨ m = d + 1) ∧ (∃ m ∈ raiseMinDiag mn d, d + 1 ≤ m) ∧
      ∀ m ∈ mn, ∃ m' ∈ raiseMinDiag mn d, m ≤ m' := by
  cases mn with
  | none => simp [raiseMinDiag]
  | some m => simp [raiseMinDiag]; omega

theorem mem_lowerMaxDiag (mx : Option Int) (d : Int) :
    (∀ m ∈ lowerMaxDiag mx d, m ∈ mx ∨ m = d - 1) ∧ (∃ m ∈ lowerMaxDiag mx d, m ≤ d - 1) ∧
      ∀ m ∈ mx, ∃ m' ∈ lowerMaxDiag mx d, m' ≤ m := by
  cases mx with
  | none => simp [lowerMaxDiag]
  | some m => simp [lowerMaxDiag]; omega

section

variable {start now : Option Int} {P P' : Int → Prop} {d : Int} {b : Bool}

theorem Raised.step (h : Raised start now P) (hP : ∀ k, P' k ↔ P k ∨ (k = d ∧ b = true)) :
    Raised start (if b then raiseMinDiag now d else now) P' := by
  obtain ⟨hmem, hnew, hkeep⟩ := mem_raiseMinDiag now d
  cases b with
  | false =>
    simp only [Bool.false_eq_true, and_false, or_false] at hP
    exact ⟨fun m hm => (h.origin m hm).imp_right (hP _).mpr, fun k hk => h.reach k ((hP k).mp hk)⟩
  | true =>
    refine ⟨fun m hm => ?_, fun k hk => ?_⟩
    · rcases hmem m hm with hm | rfl
      · exact (h.origin m hm).imp_right fun hp => (hP _).mpr (.inl hp)
      · exact .inr ((hP _).mpr (.inr ⟨by omega, rfl⟩))
    · rcases (hP k).mp hk with hk | ⟨rfl, -⟩
      · obtain ⟨m, hm, hle⟩ := h.reach k hk
        obtain ⟨m', hm', hle'⟩ := hkeep m hm
        exact ⟨m', hm', hle.trans hle'⟩
      · exact hnew

theorem Lowered.step (h : Lowered start now P) (hP : ∀ k, P' k ↔ P k ∨ (k = d ∧ b = true)) :
    Lowered start (if b then lowerMaxDiag now d else now) P' := by
  obtain ⟨hmem, hnew, hkeep⟩ := mem_lowerMaxDiag now d
  cases b with
  | false =>
    simp only [Bool.false_eq_true, and_false, or_false] at hP
    exact ⟨fun m hm => (h.origin m hm).imp_right (hP _).mpr, fun k hk => h.reach k ((hP k).mp hk)⟩
  | true =>
    refine ⟨fun m hm => ?_, fun k hk => ?_⟩
    · rcases hmem m hm with hm | rfl
      · exact (h.origin m hm).imp_right fun hp => (hP _).mpr (.inl hp)
      · exact .inr ((hP _).mpr (.inr ⟨by omega, rfl⟩))
    · rcases (hP k).mp hk with hk | ⟨rfl, -⟩
      · obtain ⟨m, hm, hle⟩ := h.reach k hk
        obtain ⟨m', hm', hle'⟩ := hkeep m hm
        exact ⟨m', hm', hle'.trans hle⟩
      · exact hnew

end

/-- The diagonals `lo`, `lo + 2`, ... below `d`. -/
def Behind (lo d k : Int) : Prop := lo ≤ k ∧ k < d ∧ (k - lo) % 2 = 0

/-- A round that started with the slots `f` and visits the diagonal `d` next. -/
structure Midway (old new : List Token) (off : Nat) (start : DiffState) (f : Int → Option PathNode)
    (lo d : Int) (c : Nat) (state : DiffState) (g : Int → Option PathNode) : Prop where
  comps : ∃ more, state.comps = start.comps ++ more
  slots : Slots off state.best g
  ahead : ∀ k, d - 1 ≤ k → g k = f k
  far : ∀ k : Int, (c + 1 : Int) < |k| → g k = none
  behind : ∀ k, Behind lo d k → Advanced old new f state.comps k (c + 1) (g k)
  minDiag : Raised start.minDiag state.minDiag fun k =>
    Behind lo d k ∧ slotAt (g k) (new.length + k) = true
  maxDiag : Lowered start.maxDiag state.maxDiag fun k =>
    Behind lo d k ∧ slotAt (g k) old.length = true

theorem Advanced.append {f slot} (h : Advanced old new f comps d c slot) (more : List Comp) :
    Advanced old new f (comps ++ more) d c slot :=
  { h with node := fun p hp => (h.node p hp).append more }

section

variable {off : Nat} {start state state' : DiffState} {f g : Int → Option PathNode} {lo hi d : Int}
  {c : Nat} {slot : Option PathNode}

theorem behind_add_two (hlo : lo ≤ d) (hparity : (d - lo) % 2 = 0) (k : Int) :
    Behind lo (d + 2) k ↔ Behind lo d k ∨ k = d := by
  unfold Behind
  omega

theorem Midway.visit (h : Midway old new off start f lo d c state g) (hlo : lo ≤ d)
    (hparity : (d - lo) % 2 = 0) (hd : |d| ≤ c + 1) (hv : Visited old new off g state state' d (c + 1) slot) :
    Midway old new off start f lo (d + 2) c state' (Function.update (Function.update g (d - 1) none) d slot) := by
  have hat : Function.update (Function.update g (d - 1) none) d slot d = slot := Function.update_self ..
  have hbehind : ∀ k, Behind lo d k → Function.update (Function.update g (d - 1) none) d slot k = g k := by
    intro k hk
    unfold Behind at hk
    rw [Function.update_of_ne (by omega), Function.update_of_ne (by omega)]
  have hreached : ∀ (x : Int → Int) (k : Int), (Behind lo (d + 2) k ∧
      slotAt (Function.update (Function.update g (d - 1) none) d slot k) (x k) = true) ↔
      (Behind lo d k ∧ slotAt (g k) (x k) = true) ∨ (k = d ∧ slotAt slot (x d) = true) := by
    intro x k
    rw [behind_add_two hlo hparity, or_and_right]
    refine or_congr (and_congr_right fun hk => by rw [hbehind k hk]) (and_congr_right ?_)
    rintro rfl
    rw [hat]
  obtain ⟨more, hmore⟩ := hv.comps
  refine ⟨?_, hv.slots, ?_, ?_, ?_, ?_, ?_⟩
  · obtain ⟨more', hmore'⟩ := h.comps
    exact ⟨more' ++ more, by rw [hmore, hmore', append_assoc]⟩
  · intro k hk
    rw [Function.update_of_ne (by omega), Function.update_of_ne (by omega), h.ahead k (by omega)]
  · intro k hk
    by_cases hkd : k = d - 1
    · rw [hkd, Function.update_of_ne (by omega), Function.update_self]
    · have hne : k ≠ d := by
        rintro rfl
        omega
      rw [Function.update_of_ne hne, Function.update_of_ne hkd, h.far k hk]
  · intro k hk
    rcases (behind_add_two hlo hparity k).mp hk with hk | rfl
    · rw [hbehind k hk, hmore]
      exact (h.behind k hk).append more
    · rw [hat]
      have hadvanced := hv.advanced
      refine ⟨hadvanced.node, ?_, ?_⟩
      · rw [← h.ahead _ (by omega)]
        exact hadvanced.removes
      · rw [← h.ahead _ (by omega)]
        exact hadvanced.adds
  · rw [hv.minDiag]
    exact h.minDiag.step (hreached fun k => new.length + k)
  · rw [hv.maxDiag]
    exact h.maxDiag.step (hreached fun _ => old.length)

theorem diagonals_cons (h : d ≤ hi) : diagonals d hi = d :: diagonals (d + 2) hi := by
  have hlen : ((hi - d) / 2 + 1).toNat = ((hi - (d + 2)) / 2 + 1).toNat + 1 := by omega
  rw [diagonals, diagonals, hlen, range_succ_eq_map]
  simp only [map_cons, map_map, Function.comp_def]
  congr 1
  · simp
  · apply map_congr_left
    intro i _
    push_cast
    ring

theorem diagonals_nil (h : hi < d) : diagonals d hi = [] := by
  have hlen : ((hi - d) / 2 + 1).toNat = 0 := by omega
  rw [diagonals, hlen, range_zero, map_nil]

/-- A round from the diagonal `d` on either builds the parts or visits all its diagonals. -/
theorem visitDiagonals_spec (n : Nat) (hn : hi + 2 = d + 2 * n)
    (h : Midway old new off start f lo d c state g) (hlo : lo ≤ d) (hparity : (d - lo) % 2 = 0)
    (hlow : -(c + 1 : Int) ≤ lo) (hhigh : hi ≤ c + 1) (hoff : c + 1 < off)
    (hnodes : ∀ k, lo - 1 ≤ k → k ≤ hi + 1 → (k - lo) % 2 = 1 → ∀ p ∈ f k, Node old new start.comps k c p) :
    (∃ changes, visitDiagonals old new off (diagonals d hi) state =
        some (.built (changes.map Change.part)) ∧ Built old new changes (c + 1)) ∨
      ∃ state' g', visitDiagonals old new off (diagonals d hi) state = some (.searching state') ∧
        Midway old new off start f lo (hi + 2) c state' g' := by
  induction n generalizing d state g with
  | zero =>
    obtain rfl : d = hi + 2 := by omega
    rw [diagonals_nil (by omega)]
    exact .inr ⟨state, g, rfl, h⟩
  | succ n ih =>
    rw [diagonals_cons (by omega), visitDiagonals]
    obtain ⟨more, hmore⟩ := h.comps
    have hnode : ∀ k, d - 1 ≤ k → k ≤ d + 1 → (k - lo) % 2 = 1 →
        ∀ p ∈ g k, Node old new state.comps k c p := by
      intro k hk hk' hodd p hp
      rw [h.ahead k hk] at hp
      rw [hmore]
      exact (hnodes k (by omega) (by omega) hodd p hp).append more
    rcases visitDiagonal_spec h.slots (d := d) (by omega) (by omega)
        (hnode _ (by omega) (by omega) (by omega)) (hnode _ (by omega) (by omega) (by omega)) with
      ⟨changes, hvisit, hbuilt⟩ | ⟨state', slot, hvisit, hvisited⟩
    · exact .inl ⟨changes, by simp [hvisit], hbuilt⟩
    · have hd : |d| ≤ c + 1 := abs_le.mpr ⟨by omega, by omega⟩
      simp only [hvisit, Option.bind_eq_bind, Option.bind_some]
      exact ih (by omega) (h.visit hlo hparity hd hvisited) (by omega) (by omega)

end

end GajaeCode.Natives.LineDiff
