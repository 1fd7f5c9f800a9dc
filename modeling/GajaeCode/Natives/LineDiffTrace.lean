import GajaeCode.Natives.LineDiff
import GajaeCode.Text.EditScript

/-! What the components behind a path stand for: a script from a prefix of the old tokens to a
prefix of the new ones, which `build_values` renders. -/
namespace GajaeCode.Natives.LineDiff
open Text List

/-- The components reached from `last` by following `prev`, the last one first. -/
inductive Chain (comps : List Comp) : Option Nat → List Comp → Prop
  | nil : Chain comps none []
  | cons {i : Nat} {c : Comp} {cs : List Comp} (hget : comps[i]? = some c)
      (hprev : ∀ j ∈ c.prev, j < i) (h : Chain comps c.prev cs) : Chain comps (some i) (c :: cs)

variable {comps cs : List Comp}
  {last : Option Nat}

theorem Chain.append (h : Chain comps last cs) (more : List Comp) : Chain (comps ++ more) last cs := by
  induction h with
  | nil => exact .nil
  | @cons i c cs hget hprev _ ih =>
    refine .cons ?_ hprev ih
    rw [getElem?_append_left (List.getElem?_eq_some_iff.mp hget).1, hget]

theorem Chain.last_lt (h : Chain comps last cs) : ∀ i ∈ last, i < comps.length := by
  intro i hi
  cases h with
  | nil => cases hi
  | cons hget _ _ =>
    cases hi
    exact (List.getElem?_eq_some_iff.mp hget).1

theorem Chain.push {c} (h : Chain comps c.prev cs) : Chain (comps ++ [c]) (some comps.length) (c :: cs) :=
  .cons (by simp) h.last_lt (h.append [c])

theorem Chain.componentOrder (h : Chain comps last cs) {fuel} (hfuel : ∀ i ∈ last, i < fuel) :
    componentOrder comps fuel last = some cs := by
  induction h generalizing fuel with
  | nil => cases fuel <;> rfl
  | @cons i c cs hget hprev _ ih =>
    have hlt := hfuel i rfl
    obtain ⟨fuel, rfl⟩ : ∃ n, fuel = n + 1 := ⟨fuel - 1, by omega⟩
    have hrest : LineDiff.componentOrder comps fuel c.prev = some cs := by
      apply ih
      intro j hj
      have := hprev j hj
      omega
    simp [LineDiff.componentOrder, hget, hrest]

section

variable (old new : List Token)

def Comp.kind (c : Comp) : Bool × Bool := (c.added, c.removed)

/-- `Trace cs x y e`: the components `cs`, last one first, read the first `x` old tokens and write
the first `y` new ones with `e` tokens removed or added. -/
inductive Trace : List Comp → Nat → Nat → Nat → Prop
  | nil : Trace [] 0 0 0
  | common {cs : List Comp} {x y e : Nat} (c : Comp) (hadded : c.added = false)
      (hremoved : c.removed = false) (hne : ∀ d ∈ cs.head?, d.kind ≠ c.kind) (hpos : 0 < c.count)
      (heq : (old.drop x).take c.count = (new.drop y).take c.count)
      (hold : x + c.count ≤ old.length) (hnew : y + c.count ≤ new.length) (h : Trace cs x y e) :
      Trace (c :: cs) (x + c.count) (y + c.count) e
  | removed {cs : List Comp} {x y e : Nat} (c : Comp) (hadded : c.added = false)
      (hremoved : c.removed = true) (hne : ∀ d ∈ cs.head?, d.kind ≠ c.kind) (hpos : 0 < c.count)
      (hold : x + c.count ≤ old.length) (h : Trace cs x y e) : Trace (c :: cs) (x + c.count) y (e + c.count)
  | added {cs : List Comp} {x y e : Nat} (c : Comp) (hadded : c.added = true)
      (hremoved : c.removed = false) (hne : ∀ d ∈ cs.head?, d.kind ≠ c.kind) (hpos : 0 < c.count)
      (hnew : y + c.count ≤ new.length) (h : Trace cs x y e) : Trace (c :: cs) x (y + c.count) (e + c.count)

variable {old new}
  {cs comps : List Comp} {y e : Nat} {path : PathNode}
  {x : Nat}

theorem Trace.le (h : Trace old new cs x y e) : x ≤ old.length ∧ y ≤ new.length := by
  induction h with
  | nil => simp
  | common c _ _ _ _ _ hold hnew _ _ => exact ⟨hold, hnew⟩
  | removed c _ _ _ _ hold _ ih => exact ⟨hold, ih.2⟩
  | added c _ _ _ _ hnew _ ih => exact ⟨ih.1, hnew⟩

/-- Where a path stands: `x` old tokens read and `y` new tokens written at a cost of `e`. -/
structure At (old new : List Token) (comps : List Comp) (path : PathNode) (x y e : Nat) : Prop where
  pos : path.oldPos + 1 = x
  trace : ∃ cs, Chain comps path.last cs ∧ Trace old new cs x y e

theorem At.le (h : At old new comps path x y e) : x ≤ old.length ∧ y ≤ new.length := by
  obtain ⟨-, cs, -, htrace⟩ := h
  exact htrace.le

theorem At.append (h : At old new comps path x y e) (more : List Comp) : At old new (comps ++ more) path x y e := by
  obtain ⟨hpos, cs, hchain, htrace⟩ := h
  exact ⟨hpos, cs, hchain.append more, htrace⟩

def Fresh (comps : List Comp) (path : PathNode) : Prop :=
  ∀ i ∈ path.last, ∀ c ∈ comps[i]?, c.added = true ∨ c.removed = true

theorem Fresh.head (hfresh : Fresh comps path) (hchain : Chain comps path.last cs) :
    ∀ d ∈ cs.head?, d.added = true ∨ d.removed = true := by
  unfold Fresh at hfresh
  generalize path.last = last at hfresh hchain
  intro d hd
  cases hchain with
  | nil => cases hd
  | cons hget _ _ =>
    cases hd
    exact hfresh _ rfl d hget

theorem Trace.grow {c} (h : Trace old new (c :: cs) x y e) {added}
    (hadded : c.added = added) (hremoved : c.removed = !added)
    (hroom : if added then y < new.length else x < old.length) :
    Trace old new ({ c with count := c.count + 1 } :: cs) (if added then x else x + 1)
      (if added then y + 1 else y) (e + 1) := by
  cases h with
  | common _ hadded' hremoved' _ _ _ _ _ _ => simp_all
  | removed _ hadded' hremoved' hne hpos hold h =>
    obtain rfl : false = added := hadded' ▸ hadded
    exact .removed { c with count := c.count + 1 } hadded' hremoved' hne (by simp) hroom h
  | added _ hadded' hremoved' hne hpos hnew h =>
    obtain rfl : true = added := hadded' ▸ hadded
    exact .added { c with count := c.count + 1 } hadded' hremoved' hne (by simp) hroom h

theorem Trace.single {c} (h : Trace old new cs x y e) {added}
    (hadded : c.added = added) (hremoved : c.removed = !added) (hcount : c.count = 1)
    (hne : ∀ d ∈ cs.head?, d.kind ≠ c.kind) (hroom : if added then y < new.length else x < old.length) :
    Trace old new (c :: cs) (if added then x else x + 1) (if added then y + 1 else y) (e + 1) := by
  rw [← hcount]
  cases added with
  | false => exact .removed c hadded hremoved hne (by omega) (by rw [hcount]; exact hroom) h
  | true => exact .added c hadded hremoved hne (by omega) (by rw [hcount]; exact hroom) h

theorem nextComp_spec (h : At old new comps path x y e) (added : Bool)
    (hroom : if added then y < new.length else x < old.length) :
    ∃ c, nextComp comps path.last added (!added) = some c ∧ c.added = added ∧
      c.removed = (!added) ∧ ∃ cs, Chain comps c.prev cs ∧
        Trace old new (c :: cs) (if added then x else x + 1) (if added then y + 1 else y) (e + 1) := by
  obtain ⟨-, cs, hchain, htrace⟩ := h
  generalize path.last = last at hchain
  cases hchain with
  | nil =>
    exact ⟨_, rfl, rfl, rfl, [], .nil, htrace.single rfl rfl rfl (by simp) hroom⟩
  | @cons i d ds hget hprev hrest =>
    by_cases hkind : d.added = added ∧ d.removed = !added
    · refine ⟨{ d with count := d.count + 1 }, ?_, hkind.1, hkind.2, ds, hrest,
        htrace.grow hkind.1 hkind.2 hroom⟩
      obtain ⟨rfl, hremoved⟩ := hkind
      simp [nextComp, hget, ← hremoved]
    · refine ⟨⟨1, added, !added, some i⟩, ?_, rfl, rfl, d :: ds, .cons hget hprev hrest,
        htrace.single rfl rfl rfl ?_ hroom⟩
      · simp only [nextComp, hget, Option.bind_eq_bind, Option.bind_some, if_neg hkind, Option.pure_def]
      · intro d' hd'
        cases hd'
        simpa [Comp.kind] using hkind

theorem addToPath_spec (h : At old new comps path x y e) (added : Bool)
    (hroom : if added then y < new.length else x < old.length) :
    ∃ c path', addToPath comps path added (!added) (if added then 0 else 1) = some (comps ++ [c], path') ∧
      At old new (comps ++ [c]) path' (if added then x else x + 1) (if added then y + 1 else y)
        (e + 1) ∧ Fresh (comps ++ [c]) path' := by
  obtain ⟨c, hcomp, hadded, hremoved, cs, hchain, htrace⟩ := nextComp_spec h added hroom
  refine ⟨c, { oldPos := path.oldPos + (if added then 0 else 1), last := some comps.length },
    ?_, ⟨?_, c :: cs, hchain.push, htrace⟩, ?_⟩
  · simp [addToPath, hcomp]
  · have := h.pos
    cases added <;> simp <;> omega
  · intro i hi d hd
    cases hi
    obtain rfl : c = d := by simpa using hd
    rw [hadded, hremoved]
    cases added <;> simp

variable (xs ys : List Token)

theorem commonRun_le : commonRun xs ys ≤ xs.length ∧ commonRun xs ys ≤ ys.length := by
  fun_induction commonRun xs ys with
  | case1 x xs ys ih => simp only [length_cons]; omega
  | case2 => simp
  | case3 => simp

theorem take_commonRun : xs.take (commonRun xs ys) = ys.take (commonRun xs ys) := by
  fun_induction commonRun xs ys with
  | case1 x xs ys ih => rw [take_succ_cons, take_succ_cons, ih]
  | case2 => simp
  | case3 => simp

theorem commonRun_drop : commonRun (xs.drop (commonRun xs ys)) (ys.drop (commonRun xs ys)) = 0 := by
  fun_induction commonRun xs ys with
  | case1 x xs ys ih => simpa using ih
  | case2 x xs y ys hne => simp [commonRun, hne]
  | case3 xs ys h =>
    rw [drop_zero, drop_zero]
    unfold commonRun
    split
    · next x xs y ys => exact absurd rfl (h x xs y ys rfl)
    · rfl

theorem extractCommon_spec (h : At old new comps path x y e) (hfresh : Fresh comps path) :
    ∃ (n : Nat) (more : List Comp) (path' : PathNode), extractCommon comps path new old ((x : Int) - y) =
        some (comps ++ more, path', ((y + n : Nat) : Int) - 1) ∧ At old new (comps ++ more) path' (x + n) (y + n) e ∧
      commonRun (old.drop (x + n)) (new.drop (y + n)) = 0 := by
  obtain ⟨hpos, cs, hchain, htrace⟩ := h
  have hx : (path.oldPos + 1).toNat = x := by omega
  have hy : (path.oldPos - ((x : Int) - y) + 1).toNat = y := by omega
  have hle := commonRun_le (old.drop x) (new.drop y)
  have heq := take_commonRun (old.drop x) (new.drop y)
  have hstop := commonRun_drop (old.drop x) (new.drop y)
  have hguard : ¬ (path.oldPos + 1 < 0 ∨ path.oldPos - ((x : Int) - y) + 1 < 0) := by omega
  simp only [length_drop, drop_drop] at hle hstop
  simp only [extractCommon, if_neg hguard, hx, hy]
  generalize commonRun (old.drop x) (new.drop y) = n at hle heq hstop
  by_cases hn : n > 0
  · rw [if_pos hn]
    refine ⟨n, [⟨n, false, false, path.last⟩], ⟨path.oldPos + n, some comps.length⟩, ?_,
      ⟨by push_cast; omega, ⟨n, false, false, path.last⟩ :: cs, hchain.push, ?_⟩, hstop⟩
    · congr 3
      omega
    · refine .common ⟨n, false, false, path.last⟩ rfl rfl ?_ hn heq (by simp only; omega) (by simp only; omega) htrace
      intro d hd hkind
      have := hfresh.head hchain d hd
      simp_all [Comp.kind]
  · obtain rfl : n = 0 := by omega
    rw [if_neg hn]
    refine ⟨0, [], path, ?_, ⟨by simpa using hpos, cs, by simpa using hchain, htrace⟩, hstop⟩
    simp only [append_nil, Option.some.injEq, Prod.mk.injEq, true_and]
    refine ⟨by simp, ?_⟩
    omega

end

section

structure Change where
  added : Bool
  removed : Bool
  tokens : List Token

def Change.part (c : Change) : LineDiffPart :=
  { added := c.added, removed := c.removed, value := c.tokens.flatten }

def LineDiffPart.kind (p : LineDiffPart) : Bool × Bool := (p.added, p.removed)

def changedTokens (changes : List Change) : Nat :=
  ((changes.filter fun c => c.added || c.removed).map (·.tokens.length)).sum

def oldTokens (changes : List Change) : List Token :=
  (changes.filter fun c => !c.added).flatMap Change.tokens

def newTokens (changes : List Change) : List Token :=
  (changes.filter fun c => !c.removed).flatMap Change.tokens

def Change.script (c : Change) : List (EditOp Token) :=
  c.tokens.map (if c.removed then .remove else if c.added then .add else .keep)

theorem oldTokens_append (cs ds : List Change) : oldTokens (cs ++ ds) = oldTokens cs ++ oldTokens ds := by
  simp [oldTokens]

theorem newTokens_append (cs ds : List Change) : newTokens (cs ++ ds) = newTokens cs ++ newTokens ds := by
  simp [newTokens]

theorem changedTokens_append (cs ds : List Change) :
    changedTokens (cs ++ ds) = changedTokens cs + changedTokens ds := by
  simp [changedTokens]

theorem Change.rewrites_script (c : Change) (h : ¬ (c.added = true ∧ c.removed = true)) :
    Rewrites c.script (oldTokens [c]) (newTokens [c]) ∧ scriptCost c.script = changedTokens [c] := by
  obtain ⟨added, removed, tokens⟩ := c
  cases added <;> cases removed <;> first | exact absurd ⟨rfl, rfl⟩ h | skip
  all_goals
    refine ⟨⟨?_, ?_⟩, ?_⟩ <;>
      simp [Change.script, oldTokens, newTokens, changedTokens, scriptCost, flatMap_map,
        Function.comp_def, EditOp.source, EditOp.target, EditOp.cost]

theorem rewrites_scripts {changes} (h : ∀ c ∈ changes, ¬ (c.added = true ∧ c.removed = true)) :
    Rewrites (changes.flatMap Change.script) (oldTokens changes) (newTokens changes) ∧
      scriptCost (changes.flatMap Change.script) = changedTokens changes := by
  induction changes with
  | nil => exact ⟨⟨rfl, rfl⟩, rfl⟩
  | cons c changes ih =>
    obtain ⟨hc, hcostc⟩ := c.rewrites_script (h c mem_cons_self)
    obtain ⟨hcs, hcost⟩ := ih (forall_mem_cons.mp h).2
    rw [← singleton_append, flatMap_append, flatMap_singleton, oldTokens_append,
      newTokens_append, changedTokens_append, ← hcostc, ← hcost]
    exact ⟨hc.append hcs, scriptCost_append _ _⟩

structure Renders (old new : List Token) (cs : List Comp) (changes : List Change) (x y e : Nat) : Prop where
  kinds : (changes.map Change.part).map LineDiffPart.kind = cs.reverse.map Comp.kind
  exclusive : ∀ c ∈ changes, ¬ (c.added = true ∧ c.removed = true)
  source : oldTokens changes = old.take x
  target : newTokens changes = new.take y
  cost : changedTokens changes = e
  build : cs.reverse.foldlM (buildPart old new) { parts := [], newPos := 0, oldPos := 0 } =
    some { parts := changes.map Change.part, newPos := y, oldPos := x }

variable {old new : List Token}
  {cs : List Comp} {y e : Nat}
  {x : Nat}

theorem Renders.snoc {changes x' y' n} (h : Renders old new cs changes x y e)
    {c} (change : Change) (hkind : change.part.kind = c.kind)
    (hexclusive : ¬ (change.added = true ∧ change.removed = true))
    (hsource : old.take x' = old.take x ++ oldTokens [change])
    (htarget : new.take y' = new.take y ++ newTokens [change]) (hcost : changedTokens [change] = n)
    (hbuild : ∀ parts, buildPart old new { parts, newPos := y, oldPos := x } c =
      some { parts := parts ++ [change.part], newPos := y', oldPos := x' }) :
    Renders old new (c :: cs) (changes ++ [change]) x' y' (e + n) where
  kinds := by simp only [map_append, h.kinds, reverse_cons, map_cons, hkind, map_nil]
  exclusive := forall_mem_append.mpr ⟨h.exclusive, forall_mem_singleton.mpr hexclusive⟩
  source := by rw [oldTokens_append, h.source, hsource]
  target := by rw [newTokens_append, h.target, htarget]
  cost := by rw [changedTokens_append, h.cost, hcost]
  build := by
    simp only [reverse_cons, foldlM_append, h.build, Option.bind_eq_bind,
      Option.bind_some, foldlM_cons, foldlM_nil, hbuild, map_append, map_cons, map_nil, Option.pure_def]

theorem slice_eq {toks start count} (h : start + count ≤ toks.length) :
    slice toks start count = some ((toks.drop start).take count) :=
  if_pos h

theorem Trace.renders (h : Trace old new cs x y e) : ∃ changes, Renders old new cs changes x y e := by
  induction h with
  | nil => exact ⟨[], rfl, by simp, rfl, rfl, rfl, rfl⟩
  | @common cs x y e c hadded hremoved _ _ heq hold hnew _ ih =>
    obtain ⟨changes, hchanges⟩ := ih
    refine ⟨_, hchanges.snoc ⟨false, false, (new.drop y).take c.count⟩ ?_ (by simp) ?_ ?_ (rfl : _ = 0) ?_⟩
    · simp [LineDiffPart.kind, Change.part, Comp.kind, hadded, hremoved]
    · simp [oldTokens, take_add, heq]
    · simp [newTokens, take_add]
    · simp [buildPart, hadded, hremoved, slice_eq hnew, Change.part]
  | @removed cs x y e c hadded hremoved _ _ hold _ ih =>
    obtain ⟨changes, hchanges⟩ := ih
    refine ⟨_, hchanges.snoc ⟨false, true, (old.drop x).take c.count⟩ ?_ (by simp) ?_ ?_ ?_ ?_⟩
    · simp [LineDiffPart.kind, Change.part, Comp.kind, hadded, hremoved]
    · simp [oldTokens, take_add]
    · simp [newTokens]
    · simp [changedTokens]
      omega
    · simp [buildPart, hadded, hremoved, slice_eq hold, Change.part]
  | @added cs x y e c hadded hremoved _ _ hnew _ ih =>
    obtain ⟨changes, hchanges⟩ := ih
    refine ⟨_, hchanges.snoc ⟨true, false, (new.drop y).take c.count⟩ ?_ (by simp) ?_ ?_ ?_ ?_⟩
    · simp [LineDiffPart.kind, Change.part, Comp.kind, hadded, hremoved]
    · simp [oldTokens]
    · simp [newTokens, take_add]
    · simp [changedTokens]
      omega
    · simp [buildPart, hadded, hremoved, slice_eq hnew, Change.part]

theorem Trace.kinds_isChain (h : Trace old new cs x y e) : (cs.reverse.map Comp.kind).IsChain (· ≠ ·) := by
  rw [isChain_map, isChain_reverse]
  induction h with
  | nil => exact .nil
  | common c _ _ hne _ _ _ _ _ ih | removed c _ _ hne _ _ _ ih | added c _ _ hne _ _ _ ih => exact isChain_cons.mpr ⟨hne, ih⟩

structure Built (old new : List Token) (changes : List Change) (e : Nat) : Prop where
  source : oldTokens changes = old
  target : newTokens changes = new
  kinds : ((changes.map Change.part).map LineDiffPart.kind).IsChain (· ≠ ·)
  cost : changedTokens changes = e
  script : ∃ script, Rewrites script old new ∧ scriptCost script = e

theorem buildValues_spec {comps path} (h : At old new comps path old.length new.length e) :
    ∃ changes, buildValues path.last comps old new = some (changes.map Change.part) ∧ Built old new changes e := by
  obtain ⟨-, cs, hchain, htrace⟩ := h
  obtain ⟨changes, hchanges⟩ := htrace.renders
  have hsource : oldTokens changes = old := by rw [hchanges.source, take_length]
  have htarget : newTokens changes = new := by rw [hchanges.target, take_length]
  obtain ⟨hscript, hcost⟩ := rewrites_scripts hchanges.exclusive
  rw [hsource, htarget] at hscript
  refine ⟨changes, ?_, hsource, htarget, ?_, hchanges.cost, _, hscript, hcost.trans hchanges.cost⟩
  · simp only [buildValues, hchain.componentOrder hchain.last_lt, Option.bind_eq_bind,
      Option.bind_some, hchanges.build, Option.pure_def]
  · rw [hchanges.kinds]
    exact htrace.kinds_isChain

end

end GajaeCode.Natives.LineDiff
