import GajaeCode.Session.Context

/-! What a branch summary covers: the entries of the path that is left which are not on the path of the
target. -/
namespace GajaeCode.Session

open Text List

variable {ν : Type}

def entryOf (find : JsStr → Option (SessionEntry ν)) (id : Option JsStr) : Option (SessionEntry ν) :=
  id.bind fun id => if id = [] then none else find id

def getBranch (entries : List (SessionEntry ν)) (fromId : Option JsStr) : List (SessionEntry ν) :=
  branchOf entries (entryOf (byId entries) fromId)

structure CollectEntriesResult (ν : Type) where
  entries : List (SessionEntry ν)
  commonAncestorId : Option JsStr

/-- The walk from `current` back to the ancestor; `none` is a walk that is not over within the fuel. -/
def collectBack (getEntry : JsStr → Option (SessionEntry ν)) (commonAncestorId : Option JsStr) :
    Nat → Option JsStr → Option (List (SessionEntry ν))
  | 0, _ => none
  | fuel + 1, current =>
    if current = some [] ∨ current = commonAncestorId then some []
    else match current.bind getEntry with
    | none => some []
    | some entry => (collectBack getEntry commonAncestorId fuel entry.parentId).map (entry :: ·)

/-- `null` is no old leaf, as is the empty text. -/
def collectEntriesForBranchSummary (entries : List (SessionEntry ν)) (oldLeafId : Option JsStr)
    (targetId : JsStr) : Option (CollectEntriesResult ν) :=
  if oldLeafId.getD [] = [] then some ⟨[], none⟩
  else
    let oldPath := (getBranch entries oldLeafId).map SessionEntry.id
    let commonAncestorId := ((getBranch entries (some targetId)).reverse.find? (·.id ∈ oldPath)).map SessionEntry.id
    (collectBack (byId entries) commonAncestorId (entries.length + 1) oldLeafId).map fun collected =>
      ⟨collected.reverse, commonAncestorId⟩

/-- The parent of every entry is less deep than the entry, so that no path comes back to an entry. -/
def IsTree (entries : List (SessionEntry ν)) : Prop :=
  ∃ depth : JsStr → Nat, ∀ entry ∈ entries, ∀ parent, parentEntry (byId entries) entry = some parent →
    depth parent.id < depth entry.id

/-- The old path is what it shares with the target's path and then the entries of the result, of which
none is on the target's path; the common ancestor is the last entry shared. -/
structure CoversAbandoned (oldPath targetPath : List (SessionEntry ν)) (result : CollectEntriesResult ν) :
    Prop where
  split : ∃ shared, oldPath = shared ++ result.entries ∧ shared <+: targetPath ∧
    result.commonAncestorId = shared.getLast?.map SessionEntry.id
  abandoned : ∀ entry ∈ result.entries, entry.id ∉ targetPath.map SessionEntry.id
  nodup : (result.entries.map SessionEntry.id).Nodup

/-! ### Paths to the root -/

/-- The entries from `current` on, each followed by its parent, to one without a parent. -/
inductive ToRoot (find : JsStr → Option (SessionEntry ν)) :
    Option (SessionEntry ν) → List (SessionEntry ν) → Prop where
  | nil : ToRoot find none []
  | cons {entry : SessionEntry ν} {path : List (SessionEntry ν)} :
      ToRoot find (parentEntry find entry) path → ToRoot find (some entry) (entry :: path)

section

variable {find : JsStr → Option (SessionEntry ν)} {current : Option (SessionEntry ν)}
  {path : List (SessionEntry ν)} (h : ToRoot find current path)
include h

theorem ToRoot.unique {other} (hother : ToRoot find current other) : other = path := by
  induction h generalizing other with
  | nil =>
    cases hother
    rfl
  | cons _ ih =>
    cases hother with
    | cons hother => rw [ih hother]

theorem ToRoot.of_append {front back entry} (hpath : path = front ++ entry :: back) :
    ToRoot find (some entry) (entry :: back) := by
  induction h generalizing front with
  | nil => simp at hpath
  | cons h ih =>
    cases front with
    | nil =>
      cases hpath
      exact .cons h
    | cons _ front =>
      injection hpath with _ hback
      exact ih hback

theorem walkToRoot_eq {fuel visited} (hfuel : path.length ≤ fuel) (hnodup : (path.map SessionEntry.id).Nodup)
    (hfresh : ∀ entry ∈ path, entry.id ∉ visited) : walkToRoot find fuel visited current = path := by
  induction h generalizing fuel visited with
  | nil => cases fuel <;> rfl
  | @cons entry path h ih =>
    obtain ⟨fuel, rfl⟩ : ∃ n, fuel = n + 1 := ⟨fuel - 1, by simp at hfuel; omega⟩
    rw [map_cons, nodup_cons] at hnodup
    rw [walkToRoot, if_neg (hfresh entry mem_cons_self)]
    congr 1
    apply ih (by simpa using hfuel) hnodup.2
    intro e he hmem
    rcases mem_cons.mp hmem with hid | hmem
    · exact hnodup.1 (hid ▸ mem_map_of_mem he)
    · exact hfresh e (mem_cons_of_mem _ he) hmem

end

variable {entries path : List (SessionEntry ν)}

theorem entryOf_spec {id entry} (h : entryOf (byId entries) id = some entry) :
    id = some entry.id ∧ entry.id ≠ [] ∧ byId entries entry.id = some entry := by
  obtain ⟨id, rfl, hfind⟩ := Option.bind_eq_some_iff.mp h
  split_ifs at hfind with hempty
  obtain ⟨-, hid⟩ := byId_mem hfind
  rw [hid]
  exact ⟨rfl, hempty, hfind⟩

/-- The path of an entry of a tree: less deep with every step, it meets no entry twice. -/
theorem exists_toRoot {depth : JsStr → Nat}
    (hdepth : ∀ entry ∈ entries, ∀ parent, parentEntry (byId entries) entry = some parent →
      depth parent.id < depth entry.id) (n : Nat) {entry} (hn : depth entry.id < n)
    (hentry : byId entries entry.id = some entry) : ∃ path, ToRoot (byId entries) (some entry) (entry :: path) ∧
      (∀ e ∈ entry :: path, byId entries e.id = some e) ∧
      ((entry :: path).map SessionEntry.id).Nodup ∧ ∀ e ∈ path, depth e.id < depth entry.id := by
  induction n generalizing entry with
  | zero => omega
  | succ n ih =>
    cases hparent : parentEntry (byId entries) entry with
    | none => exact ⟨[], .cons (hparent ▸ .nil), by simpa using hentry, by simp, by simp⟩
    | some parent =>
      have hlt := hdepth entry (byId_mem hentry).1 parent hparent
      obtain ⟨path, hroot, hfound, hnodup, hbelow⟩ := ih (by omega) (entryOf_spec hparent).2.2
      have hall : ∀ e ∈ parent :: path, depth e.id < depth entry.id := by
        exact forall_mem_cons.mpr ⟨hlt, fun e he => (hbelow e he).trans hlt⟩
      refine ⟨parent :: path, .cons (hparent ▸ hroot), forall_mem_cons.mpr ⟨hentry, hfound⟩, ?_, hall⟩
      rw [map_cons, nodup_cons]
      refine ⟨fun hmem => ?_, hnodup⟩
      obtain ⟨e, he, hid⟩ := mem_map.mp hmem
      exact absurd (hall e he) (by rw [hid]; exact lt_irrefl _)

theorem length_le_of_nodup (hfound : ∀ e ∈ path, byId entries e.id = some e)
    (hnodup : (path.map SessionEntry.id).Nodup) : path.length ≤ entries.length := by
  have hsub : path.map SessionEntry.id ⊆ entries.map SessionEntry.id := by
    intro id hid
    obtain ⟨e, he, rfl⟩ := mem_map.mp hid
    exact mem_map_of_mem (byId_mem (hfound e he)).1
  simpa using (subperm_of_subset hnodup hsub).length_le

theorem IsTree.getBranch_eq (htree : IsTree entries) (id : Option JsStr) :
    ∃ path, ToRoot (byId entries) (entryOf (byId entries) id) path ∧ getBranch entries id = path.reverse ∧
      (∀ e ∈ path, byId entries e.id = some e) ∧ (path.map SessionEntry.id).Nodup := by
  obtain ⟨depth, hdepth⟩ := htree
  rw [getBranch, branchOf]
  cases hid : entryOf (byId entries) id with
  | none =>
    refine ⟨[], .nil, ?_, by simp, by simp⟩
    rw [walkToRoot_eq .nil (Nat.zero_le _) nodup_nil (by simp)]
  | some entry =>
    obtain ⟨path, hroot, hfound, hnodup, -⟩ :=
      exists_toRoot hdepth (depth entry.id + 1) (Nat.lt_succ_self _) (entryOf_spec hid).2.2
    refine ⟨entry :: path, hroot, ?_, hfound, hnodup⟩
    rw [walkToRoot_eq hroot (length_le_of_nodup hfound hnodup) hnodup (by simp)]

theorem collectBack_eq {ancestor id current fuel}
    (h : ToRoot (byId entries) current path) (hid : entryOf (byId entries) id = current)
    (hfuel : path.length < fuel) :
    collectBack (byId entries) ancestor fuel id = some (path.takeWhile (some ·.id ≠ ancestor)) := by
  induction h generalizing fuel id with
  | nil =>
    obtain ⟨fuel, rfl⟩ : ∃ n, fuel = n + 1 := ⟨fuel - 1, by omega⟩
    rw [collectBack]
    split_ifs with hend
    · rfl
    · have hnone : id.bind (byId entries) = none := by
        rw [← hid]
        cases id with
        | none => rfl
        | some id => exact (if_neg fun hempty => hend (.inl (congrArg some hempty))).symm
      rw [hnone]
      rfl
  | @cons entry path _ ih =>
    obtain ⟨fuel, rfl⟩ : ∃ n, fuel = n + 1 := ⟨fuel - 1, by omega⟩
    obtain ⟨rfl, hne, hfound⟩ := entryOf_spec hid
    rw [collectBack, takeWhile_cons]
    by_cases hancestor : some entry.id = ancestor
    · simp [hancestor]
    · rw [if_neg (by simp [hne, hancestor]), Option.bind_some, hfound]
      simp only [ih rfl (by simpa using hfuel), Option.map_some, hancestor, ne_eq, not_false_eq_true,
        decide_true, if_true]

/-- From an entry that two paths share on they are the same. -/
theorem ToRoot.append_eq {find a b front back other} {entry : SessionEntry ν}
    (h : ToRoot find a (front ++ entry :: back)) (hother : ToRoot find b other) (hmem : entry ∈ other) :
    ∃ first, other = first ++ entry :: back := by
  obtain ⟨first, rest, rfl⟩ := append_of_mem hmem
  have htail := (h.of_append rfl).unique (hother.of_append rfl)
  exact ⟨first, by rw [htail]⟩

theorem takeWhile_ne_of_nodup {front back} {entry : SessionEntry ν}
    (hnodup : ((front ++ entry :: back).map SessionEntry.id).Nodup) :
    (front ++ entry :: back).takeWhile (some ·.id ≠ some entry.id) = front := by
  rw [takeWhile_append_of_pos, takeWhile_cons_of_neg (by simp), append_nil]
  intro e he
  simpa using id_ne_of_nodup hnodup he

theorem coversAbandoned_of_toRoot {a b oldPath targetPath}
    (hold : ToRoot (byId entries) a oldPath) (holdFound : ∀ e ∈ oldPath, byId entries e.id = some e)
    (hnodup : (oldPath.map SessionEntry.id).Nodup) (htarget : ToRoot (byId entries) b targetPath)
    (htargetFound : ∀ e ∈ targetPath, byId entries e.id = some e) {ancestor}
    (hancestor : (targetPath.find? (·.id ∈ oldPath.reverse.map SessionEntry.id)).map SessionEntry.id =
      ancestor) : CoversAbandoned oldPath.reverse targetPath.reverse
      ⟨(oldPath.takeWhile (some ·.id ≠ ancestor)).reverse, ancestor⟩ := by
  subst hancestor
  cases hfind : targetPath.find? (·.id ∈ oldPath.reverse.map SessionEntry.id) with
  | none =>
    have hall : oldPath.takeWhile (fun e => some e.id ≠ none) = oldPath := by
      simp [takeWhile_eq_self_iff]
    rw [Option.map_none, hall]
    refine ⟨⟨[], rfl, nil_prefix, rfl⟩, ?_, ?_⟩
    · intro e he hmem
      obtain ⟨x, hx, hid⟩ := mem_map.mp hmem
      have hnot := find?_eq_none.mp hfind x (mem_reverse.mp hx)
      exact hnot (decide_eq_true (hid ▸ mem_map_of_mem he))
    · rw [map_reverse, nodup_reverse]
      exact hnodup
  | some shared =>
    obtain ⟨hshared, front, back, rfl, hfront⟩ := find?_eq_some_iff_append.mp hfind
    obtain ⟨other, hother, hid⟩ := mem_map.mp (of_decide_eq_true hshared)
    -- the two paths find one entry for the id
    have hfound := holdFound other (mem_reverse.mp hother)
    rw [hid, htargetFound shared (by simp)] at hfound
    obtain rfl := Option.some_injective _ hfound
    obtain ⟨first, rfl⟩ := htarget.append_eq hold (mem_reverse.mp hother)
    rw [Option.map_some, takeWhile_ne_of_nodup hnodup]
    refine ⟨⟨(shared :: back).reverse, by simp, ?_, by simp⟩, ?_, ?_⟩
    · rw [reverse_append]
      exact prefix_append _ _
    · intro e he hmem
      obtain ⟨x, hx, hxe⟩ := mem_map.mp hmem
      rcases mem_append.mp (mem_reverse.mp hx) with hx | hx
      · have hnot : x.id ∉ (first ++ shared :: back).reverse.map SessionEntry.id := by
          simpa using hfront x hx
        rw [hxe] at hnot
        exact hnot (mem_map_of_mem (by simp [mem_reverse.mp he]))
      · rw [map_append, nodup_append] at hnodup
        exact hnodup.2.2 _ (mem_map_of_mem (mem_reverse.mp he)) _ (mem_map_of_mem hx) hxe.symm
    · rw [map_reverse, nodup_reverse]
      rw [map_append] at hnodup
      exact hnodup.of_append_left

theorem collectEntriesForBranchSummary_covers (htree : IsTree entries) (oldLeafId : Option JsStr) (targetId : JsStr) :
    ∃ result, collectEntriesForBranchSummary entries oldLeafId targetId = some result ∧
      CoversAbandoned (getBranch entries oldLeafId) (getBranch entries (some targetId)) result := by
  obtain ⟨oldPath, hold, holdEq, holdFound, hnodup⟩ := htree.getBranch_eq oldLeafId
  obtain ⟨targetPath, htarget, htargetEq, htargetFound, -⟩ := htree.getBranch_eq (some targetId)
  rw [collectEntriesForBranchSummary, holdEq, htargetEq, reverse_reverse]
  by_cases hnull : oldLeafId.getD [] = []
  · have hnone : entryOf (byId entries) oldLeafId = none := by
      cases oldLeafId with
      | none => rfl
      | some id => exact if_pos hnull
    obtain rfl : oldPath = [] := ToRoot.nil.unique (hnone ▸ hold)
    rw [if_pos hnull]
    exact ⟨_, rfl, ⟨[], rfl, nil_prefix, rfl⟩, by simp, nodup_nil⟩
  · have hfuel := Nat.lt_succ_of_le (length_le_of_nodup holdFound hnodup)
    simp only [if_neg hnull, collectBack_eq hold rfl hfuel, Option.map_some]
    exact ⟨_, rfl, coversAbandoned_of_toRoot hold holdFound hnodup htarget htargetFound rfl⟩

def forked : List (SessionEntry Nat) :=
  [⟨lit "1", none, [], .sessionInit⟩, ⟨lit "2", some (lit "1"), [], .modeChange⟩,
    ⟨lit "3", some (lit "1"), [], .modeChange⟩]

theorem collectEntriesForBranchSummary_covers_forked :
    IsTree forked ∧ ∃ result, collectEntriesForBranchSummary forked (some (lit "2")) (lit "3") = some result ∧
      CoversAbandoned (getBranch forked (some (lit "2"))) (getBranch forked (some (lit "3"))) result := by
  have htree : IsTree forked := by
    refine ⟨fun id => if id = lit "1" then 0 else 1, ?_⟩
    intro entry hentry parent hparent
    have hlink := (parentEntry_spec hparent).2.1
    simp only [forked, mem_cons, not_mem_nil, or_false] at hentry
    rcases hentry with rfl | rfl | rfl
    · cases hlink
    all_goals
      obtain h := Option.some_injective _ hlink
      rw [← h]
      decide
  exact ⟨htree, collectEntriesForBranchSummary_covers htree _ _⟩

end GajaeCode.Session
