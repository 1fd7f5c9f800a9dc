import GajaeCode.Session.Entries

/-! The messages of a session: the path from an entry to the root by the parent links, and what is
emitted of it after its last compaction. -/
namespace GajaeCode.Session

open Text List

variable {ν : Type}

/-- The map from ids to entries: of two entries with one id the later is found. -/
def byId (entries : List (SessionEntry ν)) (id : JsStr) : Option (SessionEntry ν) :=
  entries.reverse.find? (·.id == id)

def parentEntry (find : JsStr → Option (SessionEntry ν)) (entry : SessionEntry ν) :
    Option (SessionEntry ν) :=
  entry.parentId.bind fun parentId => if parentId = [] then none else find parentId

/-- The entries from `current` to the root. An entry met before ends the walk; `fuel` bounds it. -/
def walkToRoot (find : JsStr → Option (SessionEntry ν)) :
    Nat → List JsStr → Option (SessionEntry ν) → List (SessionEntry ν)
  | 0, _, _ => []
  | _ + 1, _, none => []
  | fuel + 1, visited, some entry =>
    if entry.id ∈ visited then []
    else entry :: walkToRoot find fuel (entry.id :: visited) (parentEntry find entry)

def branchOf (entries : List (SessionEntry ν)) (leaf : Option (SessionEntry ν)) : List (SessionEntry ν) :=
  (walkToRoot (byId entries) entries.length [] leaf).reverse

/-- The leaf a context is built for: `none` is no id, for which the last entry stands. -/
def leafEntry (entries : List (SessionEntry ν)) (leafId : Option JsStr) : Option (SessionEntry ν) :=
  match leafId with
  | none => entries.getLast?
  | some id => ((if id = [] then none else byId entries id).orElse fun _ => entries.getLast?)

def latestCompaction (path : List (SessionEntry ν)) : Option (SessionEntry ν × Compaction ν) :=
  path.reverse.findSome? fun entry => entry.asCompaction.map (Prod.mk entry)

def providerPayload (compaction : Compaction ν) : Option (ProviderPayload ν) := do
  let remote ← compaction.preserveData.bind (Json.field (lit "openaiRemoteCompaction"))
  let provider ← (remote.field (lit "provider")).bind Json.asStr
  if provider = [] then none
  else
    let items ← (remote.field (lit "replacementHistory")).bind Json.asItems
    some ⟨provider, items⟩

section

variable (getTime : JsStr → ν)

def createCompactionSummaryMessage (entry : SessionEntry ν) (compaction : Compaction ν) : AgentMessage ν :=
  .compactionSummary compaction.summary compaction.shortSummary compaction.tokensBefore
    (providerPayload compaction) (getTime entry.timestamp)

def emit (entries : List (SessionEntry ν)) : List (AgentMessage ν) :=
  entries.flatMap (appendMessage getTime)

def keptEntries (before : List (SessionEntry ν)) (compaction : Compaction ν) : List (SessionEntry ν) :=
  before.dropWhile fun entry => entry.id != compaction.firstKeptEntryId

def pathMessages (path : List (SessionEntry ν)) : List (AgentMessage ν) :=
  match latestCompaction path with
  | none => emit getTime path
  | some (entry, compaction) =>
    let compactionIdx := path.findIdx fun e => e.isCompaction && e.id == entry.id
    createCompactionSummaryMessage getTime entry compaction ::
      ((if (providerPayload compaction).isSome then []
        else emit getTime (keptEntries (path.take compactionIdx) compaction)) ++
        emit getTime (path.drop (compactionIdx + 1)))

/-- The `messages` of `buildSessionContext`. `leafId` is `none` for `null`; without an id in it the
last entry is the leaf. -/
def contextMessages (entries : List (SessionEntry ν)) (leafId : Option (Option JsStr)) :
    List (AgentMessage ν) :=
  match leafId with
  | none => []
  | some leafId => pathMessages getTime (branchOf entries (leafEntry entries leafId))

end

/-! ### Paths -/

/-- Entries of distinct ids, each the child of the one before. -/
structure IsPath (path : List (SessionEntry ν)) : Prop where
  nodup : (path.map SessionEntry.id).Nodup
  linked : path.IsChain fun parent child => child.parentId = some parent.id ∧ parent.id ≠ []

variable {entries path : List (SessionEntry ν)}

theorem byId_mem {id entry} (h : byId entries id = some entry) : entry ∈ entries ∧ entry.id = id := by
  have hmem := mem_of_find?_eq_some h
  have hid := find?_some h
  exact ⟨by simpa using hmem, by simpa using hid⟩

theorem byId_of_mem (hnodup : (entries.map SessionEntry.id).Nodup) {entry}
    (h : entry ∈ entries) : byId entries entry.id = some entry := by
  cases hfind : byId entries entry.id with
  | none =>
    simp only [byId, find?_eq_none, mem_reverse, beq_iff_eq] at hfind
    exact absurd rfl (hfind entry h)
  | some other =>
    obtain ⟨hother, hid⟩ := byId_mem hfind
    rw [inj_on_of_nodup_map hnodup hother h hid]

theorem parentEntry_spec {child parent} (h : parentEntry (byId entries) child = some parent) :
    parent ∈ entries ∧ child.parentId = some parent.id ∧ parent.id ≠ [] := by
  obtain ⟨parentId, hparent, hfind⟩ := Option.bind_eq_some_iff.mp h
  split_ifs at hfind with hempty
  obtain ⟨hmem, hid⟩ := byId_mem hfind
  rw [hid]
  exact ⟨hmem, hparent, hempty⟩

theorem walkToRoot_spec (fuel : Nat) (visited : List JsStr) (current : Option (SessionEntry ν)) :
    ((walkToRoot (byId entries) fuel visited current).map SessionEntry.id).Nodup ∧
    (∀ entry ∈ walkToRoot (byId entries) fuel visited current, entry.id ∉ visited) ∧
    (walkToRoot (byId entries) fuel visited current).IsChain
      (fun child parent => child.parentId = some parent.id ∧ parent.id ≠ []) ∧
    ∀ entry, (walkToRoot (byId entries) fuel visited current).head? = some entry → current = some entry := by
  induction fuel generalizing visited current with
  | zero => simp [walkToRoot]
  | succ fuel ih =>
    cases current with
    | none => simp [walkToRoot]
    | some entry =>
      rw [walkToRoot]
      split_ifs with hvisited
      · simp
      · obtain ⟨hnodup, hfresh, hchain, hhead⟩ := ih (entry.id :: visited) (parentEntry (byId entries) entry)
        refine ⟨?_, ?_, ?_, ?_⟩
        · rw [map_cons, nodup_cons]
          refine ⟨?_, hnodup⟩
          intro hmem
          obtain ⟨e, he, hid⟩ := mem_map.mp hmem
          exact hfresh e he (by rw [hid]; exact mem_cons_self)
        · exact forall_mem_cons.mpr ⟨hvisited, fun e he h => hfresh e he (mem_cons_of_mem _ h)⟩
        · rw [isChain_cons]
          exact ⟨fun parent hparent => (parentEntry_spec (hhead parent hparent)).2, hchain⟩
        · simp

theorem isPath_branchOf (entries : List (SessionEntry ν)) (leaf : Option (SessionEntry ν)) :
    IsPath (branchOf entries leaf) := by
  obtain ⟨hnodup, -, hchain, -⟩ := @walkToRoot_spec ν entries entries.length [] leaf
  refine ⟨?_, ?_⟩
  · rw [branchOf, map_reverse, nodup_reverse]
    exact hnodup
  · rw [branchOf, isChain_reverse]
    exact hchain

theorem IsPath.of_append {front rest : List (SessionEntry ν)} (h : IsPath (front ++ rest)) : IsPath front := by
  have hids := h.nodup
  rw [map_append, nodup_append] at hids
  exact ⟨hids.1, (isChain_append.mp h.linked).1⟩

/-- The walk from the end of a part of a path whose rest has been visited, where the parent link of
the first entry leads nowhere new. -/
theorem walkToRoot_of_linked {find} (path : List (SessionEntry ν))
    (fuel : Nat) (visited : List JsStr) (hfuel : path.length ≤ fuel)
    (hpath : IsPath path) (hfind : ∀ entry ∈ path, find entry.id = some entry)
    (hfresh : ∀ entry ∈ path, entry.id ∉ visited) (hroot : ∀ root ∈ path.head?, ∀ entry ∈ parentEntry find root,
      entry.id ∈ visited ∨ entry.id ∈ path.map SessionEntry.id) :
    walkToRoot find fuel visited path.getLast? = path.reverse := by
  induction path using List.reverseRecOn generalizing fuel visited with
  | nil => cases fuel <;> simp [walkToRoot]
  | append_singleton front entry ih =>
    obtain ⟨fuel, rfl⟩ : ∃ n, fuel = n + 1 := ⟨fuel - 1, by simp at hfuel; omega⟩
    have hentry : entry.id ∉ visited := hfresh entry (by simp)
    rw [getLast?_append, getLast?_singleton, Option.some_or, walkToRoot, if_neg hentry, reverse_append]
    congr 1
    have hnodup := hpath.nodup
    rw [map_append, nodup_append] at hnodup
    cases hfront : front.getLast? with
    | none =>
      obtain rfl : front = [] := by simpa using hfront
      cases hparent : parentEntry find entry with
      | none => cases fuel <;> simp [walkToRoot]
      | some parent =>
        have hseen : parent.id ∈ entry.id :: visited := by
          rcases hroot entry (by simp) parent hparent with h | h
          · exact mem_cons_of_mem _ h
          · simp only [nil_append, map_cons, map_nil, mem_singleton] at h
            rw [h]
            exact mem_cons_self
        cases fuel with
        | zero => simp [walkToRoot]
        | succ fuel => simp [walkToRoot, hseen]
    | some parent =>
      have hmem : parent ∈ front := mem_of_getLast? hfront
      have hlink := (isChain_append.mp hpath.linked).2.2 parent hfront entry (by simp)
      rw [parentEntry, hlink.1, Option.bind_some, if_neg hlink.2, hfind parent (by simp [hmem]), ← hfront]
      apply ih
      · simp at hfuel
        omega
      · exact hpath.of_append
      · exact fun e he => hfind e (by simp [he])
      · intro e he hvisited
        rcases mem_cons.mp hvisited with h | h
        · exact hnodup.2.2 _ (mem_map_of_mem he) _ (mem_singleton_self _) h
        · exact hfresh e (by simp [he]) h
      · intro root hhead e he
        have hroot' : (front ++ [entry]).head? = some root := by
          rw [head?_append, Option.mem_def.mp hhead, Option.some_or]
        rcases hroot root hroot' e he with h | h
        · exact .inl (mem_cons_of_mem _ h)
        · rw [map_append, mem_append] at h
          rcases h with h | h
          · exact .inr h
          · exact .inl (by simp at h; simp [h])

theorem branchOf_of_isPath (hpath : IsPath path) : branchOf path path.getLast? = path := by
  rw [branchOf, walkToRoot_of_linked path path.length [] le_rfl hpath
    (fun entry h => byId_of_mem hpath.nodup h) (by simp), reverse_reverse]
  intro root _ entry hparent
  exact .inr (mem_map_of_mem (parentEntry_spec hparent).1)

theorem contextMessages_of_isPath {getTime} (hpath : IsPath path) :
    contextMessages getTime path (some none) = pathMessages getTime path := by
  rw [contextMessages, leafEntry, branchOf_of_isPath hpath]

theorem IsPath.of_links {other : List (SessionEntry ν)} (hpath : IsPath path)
    (hlinks : other.map (fun e => (e.id, e.parentId)) = path.map fun e => (e.id, e.parentId)) : IsPath other := by
  have hids : other.map SessionEntry.id = path.map SessionEntry.id := by
    have h := congrArg (List.map Prod.fst) hlinks
    simpa only [map_map, Function.comp_def] using h
  refine ⟨hids ▸ hpath.nodup, ?_⟩
  have hchain : (path.map fun e => (e.id, e.parentId)).IsChain
      (fun parent child => child.2 = some parent.1 ∧ parent.1 ≠ []) := by
    rw [isChain_map]
    exact hpath.linked
  rw [← hlinks, isChain_map] at hchain
  exact hchain

theorem contextMessages_of_leaf {getTime} (hpath : IsPath path) {leafId}
    (hleaf : ∀ entry ∈ path.getLast?, entry.id = leafId) :
    contextMessages getTime path (some (some leafId)) = pathMessages getTime path := by
  have hlast : leafEntry path (some leafId) = path.getLast? := by
    rw [leafEntry]
    split_ifs
    · rfl
    · cases hend : path.getLast? with
      | none =>
        rw [getLast?_eq_none_iff] at hend
        subst hend
        rfl
      | some entry =>
        rw [← hleaf entry hend, byId_of_mem hpath.nodup (mem_of_getLast? hend), Option.orElse_some]
  rw [contextMessages, hlast, branchOf_of_isPath hpath]

section

variable {f : SessionEntry ν → SessionEntry ν} (hid : ∀ entry, (f entry).id = entry.id)
  (hparent : ∀ entry, (f entry).parentId = entry.parentId)

include hid in
theorem byId_map (entries : List (SessionEntry ν)) (id : JsStr) :
    byId (entries.map f) id = (byId entries id).map f := by
  rw [byId, ← map_reverse, find?_map]
  simp only [Function.comp_def, hid]
  rfl

include hid hparent in
theorem parentEntry_map (entries : List (SessionEntry ν)) (entry : SessionEntry ν) :
    parentEntry (byId (entries.map f)) (f entry) = (parentEntry (byId entries) entry).map f := by
  simp only [parentEntry, hparent]
  cases entry.parentId with
  | none => rfl
  | some parentId =>
    simp only [Option.bind_some]
    split_ifs
    · rfl
    · exact byId_map hid entries parentId

include hid hparent in
theorem walkToRoot_map (entries : List (SessionEntry ν)) (fuel : Nat) (visited : List JsStr)
    (current : Option (SessionEntry ν)) : walkToRoot (byId (entries.map f)) fuel visited (current.map f) =
      (walkToRoot (byId entries) fuel visited current).map f := by
  induction fuel generalizing visited current with
  | zero => rfl
  | succ fuel ih =>
    cases current with
    | none => rfl
    | some entry =>
      simp only [Option.map_some, walkToRoot, hid]
      split_ifs
      · rfl
      · rw [map_cons, parentEntry_map hid hparent, ih]

include hid hparent in
theorem branchOf_map (entries : List (SessionEntry ν)) (leaf : Option (SessionEntry ν)) :
    branchOf (entries.map f) (leaf.map f) = (branchOf entries leaf).map f := by
  rw [branchOf, length_map, walkToRoot_map hid hparent, ← map_reverse, branchOf]

end

/-! ### The last compaction of a path -/

theorem latestCompaction_eq_none : latestCompaction path = none ↔ ∀ entry ∈ path, entry.isCompaction = false := by
  simp [latestCompaction, SessionEntry.isCompaction]

theorem latestCompaction_eq_some {entry compaction} (h : latestCompaction path = some (entry, compaction)) :
    entry.asCompaction = some compaction ∧
    ∃ before after, path = before ++ entry :: after ∧ ∀ e ∈ after, e.isCompaction = false := by
  obtain ⟨after, e, before, hsplit, he, hafter⟩ := findSome?_eq_some_iff.mp h
  obtain ⟨c, hc, heq⟩ := Option.map_eq_some_iff.mp he
  cases heq
  refine ⟨hc, before.reverse, after.reverse, ?_, ?_⟩
  · rw [← reverse_reverse path, hsplit]
    simp
  · intro x hx
    have hnone := hafter x (by simpa using hx)
    rw [Option.map_eq_none_iff] at hnone
    simp [SessionEntry.isCompaction, hnone]

theorem latestCompaction_append {before after entry}
    {compaction : Compaction ν} (hentry : entry.asCompaction = some compaction)
    (hafter : ∀ e ∈ after, e.isCompaction = false) :
    latestCompaction (before ++ entry :: after) = some (entry, compaction) := by
  have hnone : after.reverse.findSome? (fun e => e.asCompaction.map (Prod.mk e)) = none := by
    rw [findSome?_eq_none_iff]
    intro e he
    simpa [SessionEntry.isCompaction] using hafter e (by simpa using he)
  rw [latestCompaction, reverse_append, reverse_cons, append_assoc, findSome?_append, hnone]
  simp [hentry]

section

variable {getTime : JsStr → ν}

theorem pathMessages_of_none {path}
    (h : ∀ entry ∈ path, entry.isCompaction = false) : pathMessages getTime path = emit getTime path := by
  rw [pathMessages, latestCompaction_eq_none.mpr h]

def keptMessages (getTime : JsStr → ν) (before : List (SessionEntry ν)) (compaction : Compaction ν) :
    List (AgentMessage ν) :=
  if (providerPayload compaction).isSome then [] else emit getTime (keptEntries before compaction)

theorem id_ne_of_nodup {before after} {entry e : SessionEntry ν}
    (h : ((before ++ entry :: after).map SessionEntry.id).Nodup) (he : e ∈ before) : e.id ≠ entry.id := by
  rw [map_append, nodup_append] at h
  exact h.2.2 _ (mem_map_of_mem he) _ mem_cons_self

theorem findIdx_of_nodup {before after} {entry : SessionEntry ν} {p}
    (hpath : ((before ++ entry :: after).map SessionEntry.id).Nodup) (hp : ∀ e, p e = true → e.id = entry.id)
    (hentry : p entry = true) : (before ++ entry :: after).findIdx p = before.length := by
  have hbefore : before.findIdx p = before.length :=
    findIdx_eq_length.mpr fun e he => Bool.eq_false_iff.mpr fun h => id_ne_of_nodup hpath he (hp e h)
  simp [findIdx_append, hbefore, findIdx_cons, hentry]

theorem findIdx_compaction {before after entry}
    {compaction : Compaction ν} (hpath : ((before ++ entry :: after).map SessionEntry.id).Nodup)
    (hentry : entry.asCompaction = some compaction) :
    (before ++ entry :: after).findIdx (fun e => e.isCompaction && e.id == entry.id) = before.length :=
  findIdx_of_nodup hpath (by simp) (by simp [SessionEntry.isCompaction, hentry])

/-- The messages of a path with a compaction: its summary, what it keeps, and what follows it. -/
theorem pathMessages_of_compaction {before after entry compaction}
    (hpath : ((before ++ entry :: after).map SessionEntry.id).Nodup)
    (hentry : entry.asCompaction = some compaction) (hafter : ∀ e ∈ after, e.isCompaction = false) :
    pathMessages getTime (before ++ entry :: after) = createCompactionSummaryMessage getTime entry compaction ::
        (keptMessages getTime before compaction ++ emit getTime after) := by
  have hdrop : (before ++ entry :: after).drop (before.length + 1) = after := by
    rw [← drop_drop, drop_left, drop_one, tail_cons]
  rw [pathMessages, latestCompaction_append hentry hafter]
  simp only [findIdx_compaction hpath hentry, take_left, hdrop, keptMessages]

theorem emit_append (first last : List (SessionEntry ν)) :
    emit getTime (first ++ last) = emit getTime first ++ emit getTime last :=
  flatMap_append

end

end GajaeCode.Session
