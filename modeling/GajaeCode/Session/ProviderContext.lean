import GajaeCode.Session.ColdSpill

/-! The context for the provider: entries that a compaction covers stay as they are held, all others
are materialized and rehydrated. -/
namespace GajaeCode.Session

open Text Data List

variable {ν : Type}

/-- Whether a compaction counts as replaced by native history when entries are read for the provider. -/
def hasRemoteReplacement (compaction : Compaction ν) : Bool :=
  match compaction.preserveData.bind (Json.field (lit "openaiRemoteCompaction")) with
  | some (.obj remote) => ((remote.lookup (lit "replacementHistory")).bind Json.asItems).isSome
  | _ => false

/-- The path of the leaf; `leafId` is `none` for `null`. -/
def activePath (entries : List (SessionEntry ν)) (leafId : Option JsStr) : List (SessionEntry ν) :=
  match leafId with
  | none => []
  | some id => branchOf entries (byId entries id)

section

variable (resolve : ResidentBlobKind → JsStr → JsStr) (stores : ColdSpillStores ν)

def visiblePreserveData (preserveData : Json ν) : Json ν :=
  match preserveData with
  | .obj fields =>
    match fields.lookup (lit "openaiRemoteCompaction") with
    | some (.obj remote) =>
      match remote.lookup (lit "replacementHistory") with
      | some history =>
        .obj (assocSet (lit "openaiRemoteCompaction") (.obj (assocSet (lit "replacementHistory")
          (materializeResidentValue resolve history) remote)) fields)
      | none => preserveData
    | _ => preserveData
  | _ => preserveData

def Compaction.visible (compaction : Compaction ν) : Compaction ν :=
  { compaction with
    summary := compaction.summary.materialize resolve
    shortSummary := compaction.shortSummary.map (HeldText.materialize resolve)
    preserveData := compaction.preserveData.map (visiblePreserveData resolve) }

def materializeProviderVisibleEntry (entry : SessionEntry ν) : SessionEntry ν :=
  match entry.record with
  | .compaction c => { entry with record := .compaction (c.visible resolve) }
  | .branchSummary summary fromId =>
    { entry with record := .branchSummary (summary.materialize resolve) fromId }
  | _ => entry

def readEntry (entry : SessionEntry ν) : SessionEntry ν :=
  rehydrateColdSpillEntry stores (materializeResidentEntryForRead resolve entry)

def entryForProviderContext (covered : Bool) (entry : SessionEntry ν) : SessionEntry ν :=
  match entry.record with
  | .message _ _ | .customMessage _ _ => if covered then entry else readEntry resolve stores entry
  | _ => materializeProviderVisibleEntry resolve entry

def isCovered (path : List (SessionEntry ν)) (index : Nat) : Bool :=
  match latestCompaction path with
  | none => false
  | some (entry, compaction) =>
    index < path.findIdx (fun e => e.id == entry.id) &&
      (hasRemoteReplacement compaction ||
        (path.findIdx? fun e => e.id == compaction.firstKeptEntryId).any (index < ·))

/-- The path of the leaf as it is read for the provider. -/
def activePathEntriesForProviderContext (entries : List (SessionEntry ν)) (leafId : Option JsStr) :
    List (SessionEntry ν) :=
  (activePath entries leafId).mapIdx fun index entry =>
    entryForProviderContext resolve stores (isCovered (activePath entries leafId) index) entry

end

section

variable {resolve : ResidentBlobKind → JsStr → JsStr} {stores : ColdSpillStores ν}

@[simp] theorem id_readEntry (entry : SessionEntry ν) : (readEntry resolve stores entry).id = entry.id := by
  obtain ⟨_, _, _, record⟩ := entry
  cases record <;> rfl

@[simp] theorem parentId_readEntry (entry : SessionEntry ν) :
    (readEntry resolve stores entry).parentId = entry.parentId := by
  obtain ⟨_, _, _, record⟩ := entry
  cases record <;> rfl

variable (covered : Bool)

section

variable (entry : SessionEntry ν)

@[simp] theorem id_entryForProviderContext : (entryForProviderContext resolve stores covered entry).id = entry.id := by
  obtain ⟨_, _, _, record⟩ := entry
  cases covered <;> cases record <;> rfl

@[simp] theorem parentId_entryForProviderContext :
    (entryForProviderContext resolve stores covered entry).parentId = entry.parentId := by
  obtain ⟨_, _, _, record⟩ := entry
  cases covered <;> cases record <;> rfl

theorem asCompaction_readEntry :
    (readEntry resolve stores entry).asCompaction = entry.asCompaction.map (Compaction.materialize resolve) := by
  obtain ⟨_, _, _, record⟩ := entry
  cases record <;> rfl

theorem asCompaction_entryForProviderContext : (entryForProviderContext resolve stores covered entry).asCompaction =
      entry.asCompaction.map (Compaction.visible resolve) := by
  obtain ⟨_, _, _, record⟩ := entry
  cases covered <;> cases record <;> rfl

end

theorem mapIdx_entryForProviderContext {path : List (SessionEntry ν)} {f : Nat → Bool} (h : ∀ i < path.length, f i = covered) :
    path.mapIdx (fun i e => entryForProviderContext resolve stores (f i) e) =
      path.map (entryForProviderContext resolve stores covered) := by
  apply ext_getElem
  · simp
  · intro i h1 h2
    rw [getElem_mapIdx, getElem_map, h i (by simpa using h1)]

theorem isCompaction_map {f : SessionEntry ν → SessionEntry ν} {g} {entries : List (SessionEntry ν)}
    (hf : ∀ e, (f e).asCompaction = e.asCompaction.map g) (h : ∀ e ∈ entries, e.isCompaction = false) :
    ∀ e ∈ entries.map f, e.isCompaction = false := by
  intro e he
  obtain ⟨other, hother, rfl⟩ := mem_map.mp he
  simpa [SessionEntry.isCompaction, hf] using h other hother

variable {getTime : JsStr → ν}

def keptEntriesOf (path : List (SessionEntry ν)) : List (SessionEntry ν) :=
  match latestCompaction path with
  | none => []
  | some (entry, compaction) =>
    keptEntries (path.take (path.findIdx fun e => e.isCompaction && e.id == entry.id)) compaction

/-- Where a compaction is read as replaced by native history, the context takes that history and not
the entries the compaction keeps, or reading these entries changes nothing. -/
def CoversWhatIsReplaced (getTime : JsStr → ν) (resolve : ResidentBlobKind → JsStr → JsStr)
    (stores : ColdSpillStores ν) (path : List (SessionEntry ν)) : Prop :=
  ∀ latest ∈ latestCompaction path,
    providerPayload (latest.2.visible resolve) = providerPayload (latest.2.materialize resolve) ∧
    (providerPayload (latest.2.materialize resolve) = none → hasRemoteReplacement latest.2 = true →
      ∀ entry ∈ keptEntriesOf path,
        appendMessage getTime (entryForProviderContext resolve stores true entry) =
          appendMessage getTime (readEntry resolve stores entry))

variable {before after : List (SessionEntry ν)} {entry : SessionEntry ν} {compaction : Compaction ν}

section

variable (hpath : ((before ++ entry :: after).map SessionEntry.id).Nodup)
  (hentry : entry.asCompaction = some compaction) (hafter : ∀ e ∈ after, e.isCompaction = false)
include hpath hentry hafter

theorem keptEntriesOf_of_compaction : keptEntriesOf (before ++ entry :: after) = keptEntries before compaction := by
  rw [keptEntriesOf, latestCompaction_append hentry hafter]
  simp only [findIdx_compaction hpath hentry, take_left]

/-- Covered are, before the compaction, all entries if it is read as replaced by native history, and
those before the first kept one otherwise. -/
theorem isCovered_append (index : Nat) : isCovered (before ++ entry :: after) index =
      (index < before.length && (hasRemoteReplacement compaction ||
        ((before ++ entry :: after).findIdx? fun e => e.id == compaction.firstKeptEntryId).any (index < ·))) := by
  have hidx : (before ++ entry :: after).findIdx (fun e => e.id == entry.id) = before.length :=
    findIdx_of_nodup hpath (by simp) (by simp)
  rw [isCovered, latestCompaction_append hentry hafter]
  simp only [hidx]

theorem keptEntries_mapIdx {other} (hother : other.firstKeptEntryId = compaction.firstKeptEntryId) :
    keptEntries (before.mapIdx fun index e =>
        entryForProviderContext resolve stores (isCovered (before ++ entry :: after) index) e) other =
      (keptEntries before compaction).map
        (entryForProviderContext resolve stores (hasRemoteReplacement compaction)) := by
  obtain ⟨pre, post, rfl, hpre, hpost⟩ : ∃ pre post, before = pre ++ post ∧
      (∀ e ∈ pre, e.id ≠ compaction.firstKeptEntryId) ∧ ∀ e ∈ post.head?, e.id = compaction.firstKeptEntryId := by
    refine ⟨_, _, (@takeWhile_append_dropWhile _ (fun e => e.id != compaction.firstKeptEntryId) before).symm, ?_, ?_⟩
    · exact fun e he => by simpa using mem_takeWhile_imp he
    · intro e he
      have hnot := head?_dropWhile_not (fun e : SessionEntry ν => e.id != compaction.firstKeptEntryId) before
      rw [Option.mem_def.mp he] at hnot
      simpa using hnot
  rw [mapIdx_append, keptEntries, keptEntries, hother, dropWhile_append_of_pos, dropWhile_append_of_pos]
  · cases post with
    | nil => rfl
    | cons first post =>
      have hfirst := hpost first rfl
      have hidx : (pre ++ first :: post ++ entry :: after).findIdx?
          (fun e => e.id == compaction.firstKeptEntryId) = some pre.length := by
        rw [append_assoc, cons_append, findIdx?_append,
          findIdx?_eq_none_iff.mpr fun e he => by simpa using hpre e he, findIdx?_cons]
        simp [hfirst]
      rw [mapIdx_entryForProviderContext, map_cons, dropWhile_cons_of_neg (by simp [hfirst]),
        dropWhile_cons_of_neg (by simp [hfirst]), map_cons]
      intro i hi
      rw [isCovered_append hpath hentry hafter, hidx]
      simp at hi ⊢
      omega
  · exact fun e he => by simpa using hpre e he
  · intro e he
    obtain ⟨i, hi, rfl⟩ := mem_mapIdx.mp he
    simpa using hpre _ (getElem_mem hi)

end

variable (entries : List (SessionEntry ν))

theorem emit_entryForProviderContext : emit getTime (entries.map (entryForProviderContext resolve stores false)) =
      emit getTime (entries.map (readEntry resolve stores)) := by
  rw [emit, emit, flatMap_map, flatMap_map]
  apply flatMap_congr
  rintro ⟨_, _, _, record⟩ _
  cases record <;> rfl

/-- Entries that give as many messages give the same ones exactly when each of them does. -/
theorem emit_map_eq_iff {entries : List (SessionEntry ν)} {f g}
    (hlength : ∀ entry, (appendMessage getTime (f entry)).length = (appendMessage getTime (g entry)).length) :
    emit getTime (entries.map f) = emit getTime (entries.map g) ↔
      ∀ entry ∈ entries, appendMessage getTime (f entry) = appendMessage getTime (g entry) := by
  induction entries with
  | nil => simp
  | cons entry rest ih =>
    have hcons : ∀ h : SessionEntry ν → SessionEntry ν, emit getTime ((entry :: rest).map h) =
        appendMessage getTime (h entry) ++ emit getTime (rest.map h) := fun _ => rfl
    rw [hcons, hcons, forall_mem_cons, ← ih]
    constructor
    · exact fun h => append_inj h (hlength entry)
    · rintro ⟨hentry, hrest⟩
      rw [hentry, hrest]

theorem keptMessages_eq_iff {covered} {payload : Option (ProviderPayload ν)} : (if payload.isSome then [] else
        emit getTime ((keptEntries before compaction).map (entryForProviderContext resolve stores covered))) =
      (if payload.isSome then [] else emit getTime ((keptEntries before compaction).map (readEntry resolve stores))) ↔
    (payload = none → covered = true → ∀ entry ∈ keptEntries before compaction,
      appendMessage getTime (entryForProviderContext resolve stores true entry) =
        appendMessage getTime (readEntry resolve stores entry)) := by
  cases payload with
  | some payload => simp
  | none =>
    cases covered with
    | false => simp [emit_entryForProviderContext]
    | true =>
      simp only [Option.isSome_none, Bool.false_eq_true, if_false, true_implies]
      apply emit_map_eq_iff
      rintro ⟨_, _, _, record⟩
      cases record <;> rfl

theorem isPath_activePath (leafId : Option JsStr) : IsPath (activePath entries leafId) := by
  cases leafId with
  | none => exact ⟨nodup_nil, List.IsChain.nil⟩
  | some id => exact isPath_branchOf entries _

theorem contextMessages_of_activePath {entries other : List (SessionEntry ν)} {leafId}
    (hlinks : other.map (fun e => (e.id, e.parentId)) = (activePath entries leafId).map fun e => (e.id, e.parentId)) :
    contextMessages getTime other (leafId.map some) = pathMessages getTime other := by
  have hpath := (isPath_activePath entries leafId).of_links hlinks
  cases leafId with
  | none =>
    have hnil : other = [] := by simpa [activePath] using hlinks
    rw [hnil]
    rfl
  | some id =>
    apply contextMessages_of_leaf hpath
    intro entry hentry
    have hlast := congrArg List.getLast? hlinks
    rw [getLast?_map, Option.mem_def.mp hentry, getLast?_map] at hlast
    obtain ⟨leaf, hleaf, heq⟩ := Option.map_eq_some_iff.mp hlast.symm
    have hhead := (@walkToRoot_spec ν entries entries.length [] (byId entries id)).2.2.2 leaf
      (by rwa [activePath, branchOf, getLast?_reverse] at hleaf)
    injection heq with hid
    rw [← hid]
    exact (byId_mem hhead).2

theorem pathMessages_map_readEntry
    (hids : (((before ++ entry :: after).map (readEntry resolve stores)).map SessionEntry.id).Nodup)
    (hentry : entry.asCompaction = some compaction) (hafter : ∀ e ∈ after, e.isCompaction = false) :
    pathMessages getTime ((before ++ entry :: after).map (readEntry resolve stores)) =
      createCompactionSummaryMessage getTime entry (compaction.materialize resolve) ::
        ((if (providerPayload (compaction.materialize resolve)).isSome then []
          else emit getTime ((keptEntries before compaction).map (readEntry resolve stores))) ++
          emit getTime (after.map (readEntry resolve stores))) := by
  have hkept : keptEntries (before.map (readEntry resolve stores)) (compaction.materialize resolve) =
      (keptEntries before compaction).map (readEntry resolve stores) := by
    rw [keptEntries, dropWhile_map]
    simp only [Function.comp_def, id_readEntry]
    rfl
  have htime : (readEntry resolve stores entry).timestamp = entry.timestamp := by
    obtain ⟨_, _, _, record⟩ := entry
    cases record <;> rfl
  rw [map_append, map_cons] at hids ⊢
  rw [pathMessages_of_compaction hids (by rw [asCompaction_readEntry, hentry]; rfl)
    (isCompaction_map asCompaction_readEntry hafter), keptMessages, hkept, createCompactionSummaryMessage, htime]
  rfl

theorem pathMessages_mapIdx (hids : ((before ++ entry :: after).map SessionEntry.id).Nodup)
    (hidsProvider : (((before ++ entry :: after).mapIdx fun index e => entryForProviderContext resolve stores
      (isCovered (before ++ entry :: after) index) e).map SessionEntry.id).Nodup)
    (hentry : entry.asCompaction = some compaction) (hafter : ∀ e ∈ after, e.isCompaction = false) :
    pathMessages getTime ((before ++ entry :: after).mapIdx fun index e =>
        entryForProviderContext resolve stores (isCovered (before ++ entry :: after) index) e) =
      createCompactionSummaryMessage getTime entry (compaction.visible resolve) ::
        ((if (providerPayload (compaction.visible resolve)).isSome then []
          else emit getTime ((keptEntries before compaction).map
            (entryForProviderContext resolve stores (hasRemoteReplacement compaction)))) ++
          emit getTime (after.map (readEntry resolve stores))) := by
  have hcovered : ∀ index, before.length ≤ index → isCovered (before ++ entry :: after) index = false := by
    intro index hle
    rw [isCovered_append hids hentry hafter]
    simp
    omega
  have hsplit : (before ++ entry :: after).mapIdx (fun index e =>
      entryForProviderContext resolve stores (isCovered (before ++ entry :: after) index) e) =
      before.mapIdx (fun index e =>
        entryForProviderContext resolve stores (isCovered (before ++ entry :: after) index) e) ++
      entryForProviderContext resolve stores false entry ::
        after.map (entryForProviderContext resolve stores false) := by
    rw [mapIdx_append, mapIdx_cons, hcovered _ (by omega),
      mapIdx_entryForProviderContext _ fun i _ => hcovered (i + 1 + before.length) (by omega)]
  have htime : (entryForProviderContext resolve stores false entry).timestamp = entry.timestamp := by
    obtain ⟨_, _, _, record⟩ := entry
    cases record <;> rfl
  rw [hsplit] at hidsProvider ⊢
  rw [pathMessages_of_compaction hidsProvider (by rw [asCompaction_entryForProviderContext, hentry]; rfl)
    (isCompaction_map (asCompaction_entryForProviderContext false) hafter), keptMessages,
    keptEntries_mapIdx hids hentry hafter (by rfl), emit_entryForProviderContext, createCompactionSummaryMessage, htime]
  rfl

/-- The provider gets the messages of the path read in full exactly when a compaction that is read as
replaced by native history is one whose native history the context takes. -/
theorem providerContext_messages_iff (getTime : JsStr → ν)
    (resolve : ResidentBlobKind → JsStr → JsStr) (stores : ColdSpillStores ν)
    (entries : List (SessionEntry ν)) (leafId : Option JsStr) :
    contextMessages getTime (activePathEntriesForProviderContext resolve stores entries leafId) (leafId.map some) =
      contextMessages getTime ((activePath entries leafId).map (readEntry resolve stores)) (leafId.map some) ↔
      CoversWhatIsReplaced getTime resolve stores (activePath entries leafId) := by
  have hprovider : (activePathEntriesForProviderContext resolve stores entries leafId).map
      (fun e => (e.id, e.parentId)) = (activePath entries leafId).map fun e => (e.id, e.parentId) := by
    apply ext_getElem
    · simp [activePathEntriesForProviderContext]
    · intro i h1 h2
      simp [activePathEntriesForProviderContext]
  have hread : ((activePath entries leafId).map (readEntry resolve stores)).map
      (fun e => (e.id, e.parentId)) = (activePath entries leafId).map fun e => (e.id, e.parentId) := by
    simp
  rw [contextMessages_of_activePath hprovider, contextMessages_of_activePath hread,
    activePathEntriesForProviderContext]
  have hids := (isPath_activePath entries leafId).nodup
  have hidsRead := ((isPath_activePath entries leafId).of_links hread).nodup
  have hidsProvider := ((isPath_activePath entries leafId).of_links hprovider).nodup
  rw [activePathEntriesForProviderContext] at hidsProvider
  generalize activePath entries leafId = path at hids hidsRead hidsProvider
  cases hlatest : latestCompaction path with
  | none =>
    have hnone := latestCompaction_eq_none.mp hlatest
    rw [mapIdx_entryForProviderContext false fun i _ => by simp [isCovered, hlatest],
      pathMessages_of_none (isCompaction_map (asCompaction_entryForProviderContext false) hnone),
      pathMessages_of_none (isCompaction_map asCompaction_readEntry hnone), emit_entryForProviderContext]
    refine iff_of_true rfl ?_
    intro latest h
    rw [hlatest] at h
    cases h
  | some latest =>
    obtain ⟨entry, compaction⟩ := latest
    obtain ⟨hentry, before, after, rfl, hafter⟩ := latestCompaction_eq_some hlatest
    have hsummary : createCompactionSummaryMessage getTime entry (compaction.visible resolve) =
        createCompactionSummaryMessage getTime entry (compaction.materialize resolve) ↔
        providerPayload (compaction.visible resolve) = providerPayload (compaction.materialize resolve) := by
      simp [createCompactionSummaryMessage, Compaction.visible, Compaction.materialize]
    have hcovers : CoversWhatIsReplaced getTime resolve stores (before ++ entry :: after) ↔
        providerPayload (compaction.visible resolve) = providerPayload (compaction.materialize resolve) ∧
        (providerPayload (compaction.materialize resolve) = none → hasRemoteReplacement compaction = true →
          ∀ e ∈ keptEntries before compaction,
            appendMessage getTime (entryForProviderContext resolve stores true e) =
              appendMessage getTime (readEntry resolve stores e)) := by
      rw [CoversWhatIsReplaced, hlatest, keptEntriesOf_of_compaction hids hentry hafter]
      simp
    rw [pathMessages_mapIdx hids hidsProvider hentry hafter, pathMessages_map_readEntry hidsRead hentry hafter,
      hcovers, List.cons.injEq, append_left_inj, hsummary]
    constructor
    · rintro ⟨hpayload, hkept⟩
      rw [hpayload] at hkept
      exact ⟨hpayload, keptMessages_eq_iff.mp hkept⟩
    · rintro ⟨hpayload, hkept⟩
      rw [hpayload]
      exact ⟨rfl, keptMessages_eq_iff.mpr hkept⟩

end

/-- A message whose content is held as a blob, and a compaction that keeps it and has a replacement
history without a provider. -/
def unnamedHistory : List (SessionEntry Nat) :=
  [⟨lit "1", none, [], .message (.obj [(lit "role", .str (lit "user")), (lit "content", .obj
      [(lit "__gjcResidentBlob", .bool true), (lit "kind", .str (lit "text")),
        (lit "ref", .str (lit "blob:sha256:00"))])]) none⟩,
    ⟨lit "2", some (lit "1"), [], .compaction ⟨.text (lit "summary"), none, lit "1", 0,
      some (.obj [(lit "openaiRemoteCompaction", .obj [(lit "replacementHistory", .arr [])])])⟩⟩]

def noStores : ColdSpillStores Nat := ⟨fun _ => none, fun _ => none, some⟩

/-- The kept message reaches the provider with the blob reference in the place of its text. -/
theorem providerContext_leaks : contextMessages (fun _ => 0)
        (activePathEntriesForProviderContext (fun _ _ => lit "text") noStores unnamedHistory (some (lit "2")))
        (some (some (lit "2"))) = [.compactionSummary (.text (lit "summary")) none 0 none 0,
        .stored (.obj [(lit "role", .str (lit "user")), (lit "content", .obj
          [(lit "__gjcResidentBlob", .bool true), (lit "kind", .str (lit "text")),
            (lit "ref", .str (lit "blob:sha256:00"))])])] ∧ contextMessages (fun _ => 0)
        (activePathEntriesForProviderContext (fun _ _ => lit "text") noStores unnamedHistory (some (lit "2")))
        (some (some (lit "2"))) ≠ contextMessages (fun _ => 0)
        ((activePath unnamedHistory (some (lit "2"))).map (readEntry (fun _ _ => lit "text") noStores))
        (some (some (lit "2"))) := by
  refine ⟨rfl, fun h => ?_⟩
  have hread : contextMessages (fun _ => 0)
      ((activePath unnamedHistory (some (lit "2"))).map (readEntry (fun _ _ => lit "text") noStores))
      (some (some (lit "2"))) = [.compactionSummary (.text (lit "summary")) none 0 none 0,
        .stored (.obj [(lit "role", .str (lit "user")), (lit "content", .str (lit "text"))])] := rfl
  rw [hread] at h
  cases h

end GajaeCode.Session
