import GajaeCode.Session.Resident

/-! A branch as a session of its own: its path without the labels, and the labels again at the end.
The entries keep their parent links, so the walk in the new session stops at a label left out. -/
namespace GajaeCode.Session

open Text List

variable {ν : Type}

section

-- an id outside the given ones, the time, and the labels in force with their targets
variable (newId : List JsStr → JsStr) (now : JsStr)

/-- The labels of a new session, each the child of the one before. -/
def labelEntries : List (JsStr × JsStr) → List JsStr → Option JsStr → List (SessionEntry ν)
  | [], _, _ => []
  | (targetId, label) :: rest, ids, parentId =>
    ⟨newId ids, parentId, now, .label targetId label⟩ :: labelEntries rest (newId ids :: ids) (some (newId ids))

/-- The entries of the session for the branch of an entry, `none` if the entry is not found. -/
def createBranchedSession (resolve : ResidentBlobKind → JsStr → JsStr)
    (labelsById : List (JsStr × JsStr)) (entries : List (SessionEntry ν)) (leafId : JsStr) :
    Option (List (SessionEntry ν)) :=
  let branchPath := branchOf entries (if leafId = [] then none else byId entries leafId)
  if branchPath.isEmpty then none
  else
    let pathWithoutLabels := branchPath.filter fun entry => !entry.isLabel
    let pathEntryIds := pathWithoutLabels.map SessionEntry.id
    let labelsToWrite := labelsById.filter fun label => pathEntryIds.contains label.1
    let lastEntryId := pathWithoutLabels.getLast?.bind fun entry => if entry.id = [] then none else some entry.id
    some (pathWithoutLabels.map (materializeResidentEntryForRead resolve) ++
      labelEntries newId now labelsToWrite pathEntryIds lastEntryId)

end

/-- The part of a path after the last label that another entry follows, and the part before it. -/
def reachedPart (path : List (SessionEntry ν)) : List (SessionEntry ν) :=
  (path.rdropWhile SessionEntry.isLabel).rtakeWhile fun entry => !entry.isLabel

def lostPart (path : List (SessionEntry ν)) : List (SessionEntry ν) :=
  (path.rdropWhile SessionEntry.isLabel).rdropWhile fun entry => !entry.isLabel

theorem lostPart_append (path : List (SessionEntry ν)) :
    path = lostPart path ++ reachedPart path ++ path.rtakeWhile SessionEntry.isLabel := by
  rw [lostPart, reachedPart, rdropWhile_append_rtakeWhile, rdropWhile_append_rtakeWhile]

variable {path : List (SessionEntry ν)}
  {entry : SessionEntry ν}

theorem mem_of_mem_reachedPart (h : entry ∈ reachedPart path) : entry ∈ path := by
  rw [lostPart_append path]
  exact mem_append_left _ (mem_append_right _ h)

theorem mem_of_mem_lostPart (h : entry ∈ lostPart path) : entry ∈ path := by
  rw [lostPart_append path]
  exact mem_append_left _ (mem_append_left _ h)

theorem isLabel_getLast_lostPart (h : (lostPart path).getLast? = some entry) : entry.isLabel = true := by
  have hne : lostPart path ≠ [] := by
    intro hnil
    rw [hnil] at h
    cases h
  have hlast := rdropWhile_last_not _ _ hne
  rw [getLast?_eq_some_getLast hne, Option.some.injEq] at h
  rw [← h]
  simpa [lostPart] using hlast

theorem isLabel_of_reachedPart_eq_nil (h : reachedPart path = []) : ∀ entry ∈ path, entry.isLabel = true := by
  apply rdropWhile_eq_nil_iff.mp
  by_contra hne
  have hlast := rdropWhile_last_not SessionEntry.isLabel path hne
  have hstop := rtakeWhile_eq_nil_iff.mp h hne
  simp at hstop hlast
  rw [hlast] at hstop
  cases hstop

theorem filter_isLabel (path : List (SessionEntry ν)) : path.filter (fun entry => !entry.isLabel) =
      (lostPart path).filter (fun entry => !entry.isLabel) ++ reachedPart path := by
  conv_lhs => rw [lostPart_append path]
  rw [filter_append, filter_append]
  have hreached : (reachedPart path).filter (fun entry => !entry.isLabel) = reachedPart path :=
    filter_eq_self.mpr fun entry h => by simpa using mem_rtakeWhile_imp h
  have hlabels : (path.rtakeWhile SessionEntry.isLabel).filter (fun entry => !entry.isLabel) = [] :=
    filter_eq_nil_iff.mpr fun entry h => by simp [mem_rtakeWhile_imp h]
  rw [hreached, hlabels, append_nil]

/-! ### The labels written again -/

section

variable {newId : List JsStr → JsStr} {now : JsStr}

theorem isLabel_labelEntries {labels ids parentId} {entry : SessionEntry ν}
    (h : entry ∈ labelEntries newId now labels ids parentId) : entry.isLabel = true := by
  induction labels generalizing ids parentId with
  | nil => cases h
  | cons label rest ih =>
    rcases mem_cons.mp h with rfl | h
    · rfl
    · exact ih h

theorem labelEntries_spec (hfresh : ∀ ids, newId ids ∉ ids) (labels : List (JsStr × JsStr))
    (ids : List JsStr) (parentId : Option JsStr) :
    (∀ entry ∈ (labelEntries newId now labels ids parentId : List (SessionEntry ν)),
      entry.id ∉ ids ∧ ∃ used, entry.id = newId used) ∧
    ((labelEntries newId now labels ids parentId : List (SessionEntry ν)).map SessionEntry.id).Nodup := by
  induction labels generalizing ids parentId with
  | nil => simp [labelEntries]
  | cons label rest ih =>
    obtain ⟨hall, hnodup⟩ := ih (newId ids :: ids) (some (newId ids))
    rw [labelEntries]
    constructor
    · refine forall_mem_cons.mpr ⟨⟨hfresh ids, ids, rfl⟩, fun entry hentry => ?_⟩
      obtain ⟨hids, hused⟩ := hall entry hentry
      exact ⟨fun h => hids (mem_cons_of_mem _ h), hused⟩
    · rw [map_cons, nodup_cons]
      refine ⟨?_, hnodup⟩
      intro hmem
      obtain ⟨entry, hentry, hid⟩ := mem_map.mp hmem
      exact (hall entry hentry).1 (by rw [hid]; exact mem_cons_self)

theorem isChain_labelEntries (hne : ∀ ids, newId ids ≠ []) (labels : List (JsStr × JsStr))
    (ids : List JsStr) (parent : SessionEntry ν) (hparent : parent.id ≠ []) :
    (parent :: labelEntries newId now labels ids (some parent.id)).IsChain
      fun parent child => child.parentId = some parent.id ∧ parent.id ≠ [] := by
  induction labels generalizing ids parent with
  | nil => simp [labelEntries]
  | cons label rest ih =>
    rw [labelEntries, isChain_cons_cons]
    exact ⟨⟨rfl, hparent⟩, ih _ _ (hne ids)⟩

end

/-! ### The messages of a part of a path -/

section

variable {getTime : JsStr → ν}

theorem emit_of_isLabel {entries} (h : ∀ entry ∈ entries, entry.isLabel = true) : emit getTime entries = [] := by
  rw [emit, flatMap_eq_nil_iff]
  intro entry hentry
  have hlabel := h entry hentry
  obtain ⟨_, _, _, record⟩ := entry
  cases record <;> simp_all [SessionEntry.isLabel, appendMessage]

theorem isCompaction_of_isLabel {entry : SessionEntry ν} (h : entry.isLabel = true) : entry.isCompaction = false := by
  obtain ⟨_, _, _, record⟩ := entry
  cases record <;> simp_all [SessionEntry.isLabel, SessionEntry.isCompaction, SessionEntry.asCompaction]

theorem pathMessages_append_labels {path labels} (hnodup : ((path ++ labels).map SessionEntry.id).Nodup)
    (hlabels : ∀ entry ∈ labels, entry.isLabel = true) :
    pathMessages getTime (path ++ labels) = pathMessages getTime path := by
  have hnone : ∀ entry ∈ labels, entry.isCompaction = false := fun e he =>
    isCompaction_of_isLabel (hlabels e he)
  cases hlatest : latestCompaction path with
  | none =>
    have hpath := latestCompaction_eq_none.mp hlatest
    rw [pathMessages_of_none hpath, pathMessages_of_none (forall_mem_append.mpr ⟨hpath, hnone⟩),
      emit_append, emit_of_isLabel hlabels, append_nil]
  | some latest =>
    obtain ⟨entry, compaction⟩ := latest
    obtain ⟨hentry, before, after, rfl, hafter⟩ := latestCompaction_eq_some hlatest
    have hnodup' := hnodup.sublist ((sublist_append_left _ _).map _)
    rw [append_assoc, cons_append] at hnodup ⊢
    rw [pathMessages_of_compaction hnodup' hentry hafter, pathMessages_of_compaction hnodup hentry
      (forall_mem_append.mpr ⟨hafter, hnone⟩), emit_append, emit_of_isLabel hlabels, append_nil]

def keptOf (getTime : JsStr → ν) (path : List (SessionEntry ν)) : List (AgentMessage ν) :=
  match latestCompaction path with
  | none => []
  | some (entry, compaction) =>
    keptMessages getTime (path.take (path.findIdx fun e => e.isCompaction && e.id == entry.id)) compaction

/-- The context of a path takes nothing from its first part: without a compaction in the rest, the
first part has no compaction and no message; with one, that compaction does not go back to the first
part, or what it goes back to holds no message. -/
def ContextAvoids (getTime : JsStr → ν) (first rest : List (SessionEntry ν)) : Prop :=
  match latestCompaction rest with
  | none => latestCompaction first = none ∧ emit getTime first = []
  | some (_, compaction) =>
    compaction.firstKeptEntryId ∉ first.map SessionEntry.id ∨ keptOf getTime (first ++ rest) = []

theorem keptOf_of_compaction {before after entry compaction}
    (hpath : ((before ++ entry :: after).map SessionEntry.id).Nodup)
    (hentry : entry.asCompaction = some compaction) (hafter : ∀ e ∈ after, e.isCompaction = false) :
    keptOf getTime (before ++ entry :: after) = keptMessages getTime before compaction := by
  rw [keptOf, latestCompaction_append hentry hafter]
  simp only [findIdx_compaction hpath hentry, take_left]

theorem keptMessages_append {first before compaction} (hnodup : ((first ++ before).map SessionEntry.id).Nodup) :
    keptMessages getTime before compaction = keptMessages getTime (first ++ before) compaction ↔
      compaction.firstKeptEntryId ∉ first.map SessionEntry.id ∨
        keptMessages getTime (first ++ before) compaction = [] := by
  rw [map_append, nodup_append] at hnodup
  by_cases hfirst : compaction.firstKeptEntryId ∈ first.map SessionEntry.id
  · have hbefore : keptEntries before compaction = [] := by
      rw [keptEntries, dropWhile_eq_nil_iff]
      intro entry hentry
      have hne := hnodup.2.2 _ hfirst _ (mem_map_of_mem hentry)
      simpa using hne.symm
    have hempty : keptMessages getTime before compaction = [] := by
      rw [keptMessages, hbefore]
      simp [emit]
    rw [hempty]
    constructor
    · exact fun h => .inr h.symm
    · rintro (h | h)
      · exact absurd hfirst h
      · exact h.symm
  · have hsame : keptEntries (first ++ before) compaction = keptEntries before compaction := by
      rw [keptEntries, dropWhile_append_of_pos]
      · rfl
      · intro entry hentry
        have hne : entry.id ≠ compaction.firstKeptEntryId := fun h =>
          hfirst (h ▸ mem_map_of_mem hentry)
        simpa using hne
    rw [keptMessages, keptMessages, hsame]
    exact ⟨fun _ => .inl hfirst, fun _ => rfl⟩

/-- The messages of the rest of a path are those of the path exactly when the context takes nothing
from the first part. -/
theorem pathMessages_append_iff {first rest} (hnodup : ((first ++ rest).map SessionEntry.id).Nodup) :
    pathMessages getTime rest = pathMessages getTime (first ++ rest) ↔ ContextAvoids getTime first rest := by
  rw [ContextAvoids]
  cases hrest : latestCompaction rest with
  | none =>
    have hnone := latestCompaction_eq_none.mp hrest
    rw [pathMessages_of_none hnone]
    cases hfirst : latestCompaction first with
    | none =>
      rw [pathMessages_of_none (forall_mem_append.mpr ⟨latestCompaction_eq_none.mp hfirst, hnone⟩), emit_append]
      simp
    | some latest =>
      obtain ⟨hentry, before, after, rfl, hafter⟩ := latestCompaction_eq_some hfirst
      rw [append_assoc, cons_append] at hnodup ⊢
      rw [pathMessages_of_compaction hnodup hentry (forall_mem_append.mpr ⟨hafter, hnone⟩), emit_append]
      refine iff_of_false ?_ (by simp)
      intro h
      -- the summary of the first part is missing in the rest
      have hlength := congrArg List.length h
      simp only [length_cons, length_append] at hlength
      omega
  | some latest =>
    obtain ⟨entry, compaction⟩ := latest
    obtain ⟨hentry, before, after, rfl, hafter⟩ := latestCompaction_eq_some hrest
    have hrestNodup := hnodup.sublist ((sublist_append_right _ _).map _)
    rw [← append_assoc] at hnodup ⊢
    have hbefore := hnodup.sublist ((sublist_append_left _ _).map _)
    rw [pathMessages_of_compaction hrestNodup hentry hafter,
      pathMessages_of_compaction hnodup hentry hafter, keptOf_of_compaction hnodup hentry hafter,
      List.cons.injEq, append_left_inj, keptMessages_append hbefore]
    exact ⟨fun h => h.2, fun h => ⟨rfl, h⟩⟩

end

/-! ### The new session -/

section

variable {getTime : JsStr → ν} {newId : List JsStr → JsStr} {now : JsStr}
  {resolve : ResidentBlobKind → JsStr → JsStr} {labelsById : List (JsStr × JsStr)}
  {entries newEntries : List (SessionEntry ν)} {leafId : JsStr}

structure NewIds (newId : List JsStr → JsStr) (entries : List (SessionEntry ν)) : Prop where
  fresh : ∀ ids, newId ids ∉ ids
  ne_nil : ∀ ids, newId ids ≠ []
  unused : ∀ ids, ∀ entry ∈ entries, entry.id ≠ newId ids ∧ entry.parentId ≠ some (newId ids)

variable {entry : SessionEntry ν}

theorem mem_of_mem_branchOf {leaf}
    (hleaf : ∀ entry ∈ leaf, entry ∈ entries) (h : entry ∈ branchOf entries leaf) : entry ∈ entries := by
  rw [branchOf, mem_reverse] at h
  generalize entries.length = fuel at h
  generalize [] = visited at h
  induction fuel generalizing visited leaf with
  | zero => cases h
  | succ fuel ih =>
    cases leaf with
    | none => cases h
    | some current =>
      rw [walkToRoot] at h
      split_ifs at h
      · cases h
      · rcases mem_cons.mp h with rfl | h
        · exact hleaf _ rfl
        · exact ih (fun parent hparent => (parentEntry_spec hparent).1) _ h

variable {path : List (SessionEntry ν)}

theorem IsPath.id_ne_nil (hpath : IsPath path) (hlast : ∀ entry ∈ path.getLast?, entry.id ≠ [])
    (h : entry ∈ path) : entry.id ≠ [] := by
  obtain ⟨before, after, rfl⟩ := append_of_mem h
  cases after with
  | nil => exact hlast entry (by simp)
  | cons child after =>
    have hlinked := (isChain_append.mp hpath.linked).2.1
    exact (isChain_cons_cons.mp hlinked).1.2

def withoutLabels (path : List (SessionEntry ν)) : List (SessionEntry ν) :=
  path.filter fun entry => !entry.isLabel

def writtenLabels (newId : List JsStr → JsStr) (now : JsStr) (labels : List (JsStr × JsStr))
    (path : List (SessionEntry ν)) : List (SessionEntry ν) :=
  labelEntries newId now labels ((withoutLabels path).map SessionEntry.id)
    ((withoutLabels path).getLast?.bind fun entry => if entry.id = [] then none else some entry.id)

theorem nodup_newEntries (hpath : IsPath path) (hfresh : ∀ ids, newId ids ∉ ids) (labels : List (JsStr × JsStr)) :
    ((withoutLabels path ++ writtenLabels newId now labels path).map SessionEntry.id).Nodup := by
  obtain ⟨hlabel, hlabelNodup⟩ := @labelEntries_spec ν newId now hfresh labels
    ((withoutLabels path).map SessionEntry.id)
    ((withoutLabels path).getLast?.bind fun entry => if entry.id = [] then none else some entry.id)
  rw [map_append, nodup_append]
  refine ⟨hpath.nodup.sublist (filter_sublist.map _), hlabelNodup, ?_⟩
  rintro a ha b hb rfl
  obtain ⟨entry, hentry, rfl⟩ := mem_map.mp hb
  exact (hlabel entry hentry).1 ha

theorem isChain_newEntries (hpath : IsPath path) (hids : ∀ entry ∈ path, entry.id ≠ [])
    (hne : ∀ ids, newId ids ≠ []) (hreached : reachedPart path ≠ []) (labels : List (JsStr × JsStr)) :
    (reachedPart path ++ writtenLabels newId now labels path).IsChain
      fun parent child => child.parentId = some parent.id ∧ parent.id ≠ [] := by
  have hchain : (reachedPart path).IsChain
      fun parent child => child.parentId = some parent.id ∧ parent.id ≠ [] := by
    have h := hpath.linked
    rw [lostPart_append path, append_assoc] at h
    exact (isChain_append.mp (isChain_append.mp h).2.1).1
  have hlast := getLast?_eq_some_getLast hreached
  have hparent := hids _ (mem_of_mem_reachedPart (getLast_mem hreached))
  have hlabels := @isChain_labelEntries ν newId now hne labels ((withoutLabels path).map SessionEntry.id)
    ((reachedPart path).getLast hreached) hparent
  have heq : writtenLabels newId now labels path = labelEntries newId now labels
      ((withoutLabels path).map SessionEntry.id) (some ((reachedPart path).getLast hreached).id) := by
    have hfilter : (withoutLabels path).getLast? = some ((reachedPart path).getLast hreached) := by
      rw [withoutLabels, filter_isLabel, getLast?_append, hlast, Option.some_or]
    rw [writtenLabels, hfilter, Option.bind_some, if_neg hparent]
  rw [heq, isChain_append]
  rw [isChain_cons] at hlabels
  refine ⟨hchain, hlabels.2, ?_⟩
  intro parent hp child hchild
  rw [hlast, Option.mem_some_iff] at hp
  rw [← hp]
  exact hlabels.1 child hchild

/-- The walk in the new session reaches the part of the path after the last label left out. -/
theorem branchOf_newEntries (hpath : IsPath path) (hids : ∀ entry ∈ path, entry.id ≠ [])
    (hnew : NewIds newId path) (hreached : reachedPart path ≠ []) (labels : List (JsStr × JsStr)) :
    branchOf (withoutLabels path ++ writtenLabels newId now labels path)
        (withoutLabels path ++ writtenLabels newId now labels path).getLast? =
      reachedPart path ++ writtenLabels newId now labels path := by
  have hnodup := @nodup_newEntries ν newId now path hpath hnew.fresh labels
  have hsplit : withoutLabels path ++ writtenLabels newId now labels path =
      (lostPart path).filter (fun entry => !entry.isLabel) ++
        (reachedPart path ++ writtenLabels newId now labels path) := by
    rw [withoutLabels, filter_isLabel, append_assoc]
  have hne : reachedPart path ++ writtenLabels newId now labels path ≠ [] := by simp [hreached]
  have hlast : (withoutLabels path ++ writtenLabels newId now labels path).getLast? =
      (reachedPart path ++ writtenLabels newId now labels path).getLast? := by
    rw [hsplit, getLast?_append, getLast?_eq_some_getLast hne, Option.some_or]
  rw [branchOf, hlast, walkToRoot_of_linked, reverse_reverse]
  · rw [hsplit]
    simp
  · refine ⟨?_, isChain_newEntries hpath hids hnew.ne_nil hreached labels⟩
    rw [hsplit] at hnodup
    exact hnodup.sublist ((sublist_append_right _ _).map _)
  · intro entry hentry
    exact byId_of_mem hnodup (by rw [hsplit]; exact mem_append_right _ hentry)
  · exact fun _ _ => not_mem_nil
  · intro root hroot parent hparent
    obtain ⟨hmem, hlink, -⟩ := parentEntry_spec hparent
    obtain ⟨root', rest, hcons⟩ := exists_cons_of_ne_nil hreached
    obtain rfl : root' = root := by
      rw [hcons] at hroot
      simpa using hroot
    have hrootPath : root' ∈ path := mem_of_mem_reachedPart (by simp [hcons])
    -- the parent is no new label, so it is an entry of the path
    have hparentPath : parent ∈ withoutLabels path := by
      rcases mem_append.mp hmem with h | h
      · exact h
      · obtain ⟨used, hused⟩ := ((labelEntries_spec hnew.fresh _ _ _).1 parent h).2
        exact absurd (by rw [hlink, hused]) (hnew.unused used root' hrootPath).2
    right
    cases hlost : (lostPart path).getLast? with
    | none =>
      rw [getLast?_eq_none_iff] at hlost
      rw [withoutLabels, filter_isLabel, hlost] at hparentPath
      exact mem_map_of_mem (mem_append_left _ hparentPath)
    | some label =>
      -- the root of the reached part hangs on a label that is left out
      have hlinked := hpath.linked
      rw [lostPart_append path, append_assoc, hcons] at hlinked
      have hlabelLink := ((isChain_append.mp hlinked).2.2 label hlost root' (by simp)).1
      rw [hlink, Option.some.injEq] at hlabelLink
      have hlabelPath : label ∈ path := mem_of_mem_lostPart (mem_of_getLast? hlost)
      obtain ⟨hparentMem, hkind⟩ := mem_filter.mp hparentPath
      obtain rfl := inj_on_of_nodup_map hpath.nodup hparentMem hlabelPath hlabelLink
      simp [isLabel_getLast_lostPart hlost] at hkind

theorem materialize_of_isLabel (h : entry.isLabel = true) : materializeResidentEntryForRead resolve entry = entry := by
  obtain ⟨_, _, _, record⟩ := entry
  cases record <;> first | rfl | cases h

theorem isLabel_materialize (entry : SessionEntry ν) :
    (materializeResidentEntryForRead resolve entry).isLabel = entry.isLabel := by
  obtain ⟨_, _, _, record⟩ := entry
  cases record <;> rfl

theorem map_id_materialize (path : List (SessionEntry ν)) :
    (path.map (materializeResidentEntryForRead resolve)).map SessionEntry.id = path.map SessionEntry.id := by
  rw [map_map]
  rfl

theorem createBranchedSession_eq_some
    (h : createBranchedSession newId now resolve labelsById entries leafId = some newEntries) :
    leafId ≠ [] ∧ branchOf entries (byId entries leafId) ≠ [] ∧
    newEntries = (withoutLabels (branchOf entries (byId entries leafId)) ++ writtenLabels newId now
      (labelsById.filter fun label =>
        ((withoutLabels (branchOf entries (byId entries leafId))).map SessionEntry.id).contains label.1)
      (branchOf entries (byId entries leafId))).map (materializeResidentEntryForRead resolve) := by
  simp only [createBranchedSession] at h
  by_cases hid : leafId = []
  · rw [if_pos hid] at h
    simp only [branchOf] at h
    cases hlength : entries.length <;> simp [hlength, walkToRoot] at h
  · split_ifs at h with hempty
    injection h with h
    refine ⟨hid, by simpa using hempty, ?_⟩
    rw [← h, map_append]
    congr 1
    rw [map_congr_left (g := id), map_id]
    · rfl
    · exact fun entry hentry => materialize_of_isLabel (isLabel_labelEntries hentry)

theorem id_ne_nil_of_mem_branch (hleaf : leafId ≠ [])
    (h : entry ∈ branchOf entries (byId entries leafId)) : entry.id ≠ [] := by
  refine (isPath_branchOf entries _).id_ne_nil ?_ h
  intro last hlast
  have hhead := (@walkToRoot_spec ν entries entries.length [] (byId entries leafId)).2.2.2 last
    (by rwa [branchOf, getLast?_reverse] at hlast)
  rw [(byId_mem hhead).2]
  exact hleaf

theorem contextMessages_newEntries (hpath : IsPath path) (hids : ∀ entry ∈ path, entry.id ≠ [])
    (hnew : NewIds newId path) : contextMessages getTime ((withoutLabels path ++ writtenLabels newId now
      (labelsById.filter fun label => ((withoutLabels path).map SessionEntry.id).contains label.1) path).map
        (materializeResidentEntryForRead resolve)) (some none) =
      pathMessages getTime ((reachedPart path).map (materializeResidentEntryForRead resolve)) := by
  rw [contextMessages, leafEntry, getLast?_map,
    branchOf_map (fun entry => id_materialize entry) (fun entry => parentId_materialize entry)]
  by_cases hreached : reachedPart path = []
  · -- only labels: nothing is written
    have hnone : withoutLabels path = [] := by
      rw [withoutLabels, filter_eq_nil_iff]
      intro entry hentry
      simp [isLabel_of_reachedPart_eq_nil hreached entry hentry]
    have hlabels : labelsById.filter (fun label =>
        ((withoutLabels path).map SessionEntry.id).contains label.1) = [] := by
      simp [hnone]
    rw [hlabels, hnone, hreached]
    rfl
  · generalize labelsById.filter (fun label =>
      ((withoutLabels path).map SessionEntry.id).contains label.1) = labels
    rw [branchOf_newEntries hpath hids hnew hreached, map_append, pathMessages_append_labels]
    · rw [← map_append, map_id_materialize]
      have hnodup := @nodup_newEntries ν newId now path hpath hnew.fresh labels
      rw [withoutLabels, filter_isLabel, append_assoc] at hnodup
      exact hnodup.sublist ((sublist_append_right _ _).map _)
    · intro entry hentry
      obtain ⟨label, hlabel, rfl⟩ := mem_map.mp hentry
      rw [isLabel_materialize]
      exact isLabel_labelEntries hlabel

/-- A branched session has the messages of its leaf exactly when the context of the leaf takes nothing
from before the last label on the path that another entry follows. -/
theorem createBranchedSession_messages_iff (hnew : NewIds newId entries)
    (hcreated : createBranchedSession newId now resolve labelsById entries leafId = some newEntries) :
    contextMessages getTime newEntries (some none) =
      contextMessages getTime (entries.map (materializeResidentEntryForRead resolve)) (some (some leafId)) ↔
      ContextAvoids getTime
        ((lostPart (branchOf entries (byId entries leafId))).map (materializeResidentEntryForRead resolve))
        ((reachedPart (branchOf entries (byId entries leafId))).map (materializeResidentEntryForRead resolve)) := by
  obtain ⟨hleaf, hne, hentries⟩ := createBranchedSession_eq_some hcreated
  have hfound : ∃ leaf, byId entries leafId = some leaf := by
    rw [← Option.isSome_iff_exists, Option.isSome_iff_ne_none]
    intro hnone
    apply hne
    rw [hnone, branchOf]
    cases entries.length <;> rfl
  obtain ⟨leaf, hfound⟩ := hfound
  have hpath := isPath_branchOf entries (byId entries leafId)
  have hmem : ∀ entry ∈ branchOf entries (byId entries leafId), entry ∈ entries := fun entry h =>
    mem_of_mem_branchOf (fun _ hbyId => (byId_mem hbyId).1) h
  have hids : ∀ entry ∈ branchOf entries (byId entries leafId), entry.id ≠ [] := fun entry h =>
    id_ne_nil_of_mem_branch hleaf h
  have hold : contextMessages getTime (entries.map (materializeResidentEntryForRead resolve))
      (some (some leafId)) =
      pathMessages getTime ((branchOf entries (byId entries leafId)).map
        (materializeResidentEntryForRead resolve)) := by
    rw [contextMessages, leafEntry, if_neg hleaf, byId_map (fun entry => id_materialize entry), hfound,
      Option.map_some, Option.orElse_some, ← Option.map_some,
      branchOf_map (fun entry => id_materialize entry) (fun entry => parentId_materialize entry)]
  rw [hold, hentries, contextMessages_newEntries hpath hids
    ⟨hnew.fresh, hnew.ne_nil, fun used entry h => hnew.unused used entry (hmem entry h)⟩]
  generalize branchOf entries (byId entries leafId) = path at hpath
  have hnodup : (((lostPart path ++ reachedPart path).map (materializeResidentEntryForRead resolve) ++
      (path.rtakeWhile SessionEntry.isLabel).map (materializeResidentEntryForRead resolve)).map
        SessionEntry.id).Nodup := by
    rw [← map_append, map_id_materialize, ← lostPart_append]
    exact hpath.nodup
  have hlabels : ∀ entry ∈ (path.rtakeWhile SessionEntry.isLabel).map (materializeResidentEntryForRead resolve),
      entry.isLabel = true := by
    intro entry hentry
    obtain ⟨label, hlabel, rfl⟩ := mem_map.mp hentry
    rw [isLabel_materialize]
    exact mem_rtakeWhile_imp hlabel
  have hwhole : pathMessages getTime (path.map (materializeResidentEntryForRead resolve)) =
      pathMessages getTime ((lostPart path).map (materializeResidentEntryForRead resolve) ++
        (reachedPart path).map (materializeResidentEntryForRead resolve)) := by
    conv_lhs => rw [lostPart_append path]
    rw [map_append, pathMessages_append_labels hnodup hlabels, map_append]
  rw [hwhole]
  apply pathMessages_append_iff
  rw [map_append, nodup_append, map_append] at hnodup
  exact hnodup.1

end

def longId (ids : List JsStr) : JsStr := replicate ((ids.map List.length).sum + 2) 48

theorem newIds_longId {entries : List (SessionEntry ν)} (hid : ∀ entry ∈ entries, entry.id.length < 2)
    (hparent : ∀ entry ∈ entries, ∀ parentId ∈ entry.parentId, parentId.length < 2) : NewIds longId entries where
  fresh := by
    intro ids hmem
    have hle := single_le_sum (fun _ _ => Nat.zero_le _) _ (mem_map_of_mem (f := List.length) hmem)
    rw [longId, length_replicate] at hle
    omega
  ne_nil := by
    simp [longId]
  unused := by
    intro ids entry hentry
    constructor
    · intro h
      have hlt := hid entry hentry
      rw [h, longId, length_replicate] at hlt
      omega
    · intro h
      have hlt := hparent entry hentry _ h
      rw [longId, length_replicate] at hlt
      omega

/-- A label in front of all messages. -/
def labelledStart : List (SessionEntry Nat) :=
  [⟨lit "1", none, [], .label (lit "1") (lit "start")⟩, userEntry "2" (some "1"), userEntry "3" (some "2")]

theorem createBranchedSession_messages_two :
    ∃ newEntries, createBranchedSession longId [] (fun _ _ => []) [(lit "2", lit "start")] labelledStart (lit "3") =
        some newEntries ∧ contextMessages (fun _ => 0) newEntries (some none) = contextMessages (fun _ => 0)
          (labelledStart.map (materializeResidentEntryForRead fun _ _ => [])) (some (some (lit "3"))) :=
  ⟨_, rfl, (createBranchedSession_messages_iff (newIds_longId (by decide) (by decide)) rfl).mpr ⟨rfl, rfl⟩⟩

def labelledTurn : List (SessionEntry Nat) :=
  [userEntry "1" none, ⟨lit "2", some (lit "1"), [], .label (lit "1") (lit "start")⟩, userEntry "3" (some "2")]

/-- The session of the branch has lost the message before the label. -/
theorem createBranchedSession_loses : NewIds longId labelledTurn ∧
    ∃ newEntries, createBranchedSession longId [] (fun _ _ => []) [(lit "1", lit "start")] labelledTurn
        (lit "3") = some newEntries ∧ (contextMessages (fun _ => 0) newEntries (some none)).length = 1 ∧
      (contextMessages (fun _ => 0) (labelledTurn.map (materializeResidentEntryForRead fun _ _ => []))
        (some (some (lit "3")))).length = 2 :=
  ⟨newIds_longId (by decide) (by decide), _, rfl, by decide, by decide⟩

end GajaeCode.Session
