import GajaeCode.Session.Context
import GajaeCode.Session.CutPoint

/-! What a compaction summarises and what it keeps, and when a message that was in the context is
in neither. -/
namespace GajaeCode.Session

open Text List SessionEntry

variable {ν : Type}

/-- The index after the last compaction, the start of what is compacted next. -/
def boundaryStart (pathEntries : List (SessionEntry ν)) : Nat :=
  match pathEntries.reverse.findIdx? isCompaction with
  | none => 0
  | some i => pathEntries.length - i

structure CompactionPreparation (ν : Type) where
  firstKeptEntryId : JsStr
  messagesToSummarize : List (AgentMessage ν)
  turnPrefixMessages : List (AgentMessage ν)
  recentMessages : List (AgentMessage ν)
  isSplitTurn : Bool
  previousSummary : Option HeldText
  previousPreserveData : Option (Json ν)

section

-- the corrected keep budget as a function of the tokens after the boundary, fixed by the settings
variable (getTime : JsStr → ν) (countTokens : AgentMessage ν → Nat) (keepBudget : Nat → ℕ∞)

def messagesBetween (pathEntries : List (SessionEntry ν)) (i j : Nat) : List (AgentMessage ν) :=
  ((pathEntries.take j).drop i).filterMap (getMessageFromEntry getTime)

def prepareCompaction (pathEntries : List (SessionEntry ν)) : Option (CompactionPreparation ν) :=
  if pathEntries.getLast?.any isCompaction then none
  else
    let start := boundaryStart pathEntries
    let boundaryEnd := pathEntries.length
    let historyTokens := tokensBetween getTime countTokens pathEntries start boundaryEnd
    let cutPoint := findCutPoint getTime countTokens pathEntries start boundaryEnd (keepBudget historyTokens)
    match pathEntries[cutPoint.firstKeptEntryIndex]? with
    | none => none
    | some firstKeptEntry =>
      -- a session without ids has to be migrated first
      if firstKeptEntry.id = [] then none
      else
        let turnStart := cutPoint.turnStartIndex.getD cutPoint.firstKeptEntryIndex
        let historyEnd := if cutPoint.isSplitTurn then turnStart else cutPoint.firstKeptEntryIndex
        let messagesToSummarize := messagesBetween getTime pathEntries start historyEnd
        let turnPrefixMessages :=
          if cutPoint.isSplitTurn then
            messagesBetween getTime pathEntries turnStart cutPoint.firstKeptEntryIndex
          else []
        if messagesToSummarize.isEmpty && turnPrefixMessages.isEmpty then none
        else
          let previous := (latestCompaction pathEntries).map Prod.snd
          some {
            firstKeptEntryId := firstKeptEntry.id
            messagesToSummarize
            turnPrefixMessages
            recentMessages := messagesBetween getTime pathEntries cutPoint.firstKeptEntryIndex boundaryEnd
            isSplitTurn := cutPoint.isSplitTurn
            previousSummary := previous.map Compaction.summary
            previousPreserveData := previous.bind Compaction.preserveData }

end

/-! ### The cut lies in the range -/

variable {entries : List (SessionEntry ν)} {startIndex : Nat}

theorem le_includeSettings {cutIndex} (h : startIndex ≤ cutIndex) :
    startIndex ≤ includeSettings entries startIndex cutIndex := by
  induction cutIndex with
  | zero => exact h
  | succ cutIndex ih =>
    rw [includeSettings]
    split_ifs with hstep
    · exact ih (Nat.le_of_lt_succ hstep.1)
    · exact h

theorem findCutPoint_range {getTime countTokens endIndex budget} :
    startIndex ≤ (findCutPoint getTime countTokens entries startIndex endIndex budget).firstKeptEntryIndex ∧
    ∀ t, (findCutPoint getTime countTokens entries startIndex endIndex budget).turnStartIndex = some t →
      startIndex ≤ t ∧
        t ≤ (findCutPoint getTime countTokens entries startIndex endIndex budget).firstKeptEntryIndex := by
  by_cases hne : findValidCutPoints entries startIndex endIndex = []
  · simp [findCutPoint, hne]
  · have hcut := cutPointFor_mem hne startIndex
      (budgetIndex getTime countTokens entries startIndex budget (endIndex - startIndex) 0)
    have hrange := (mem_range'_1.mp (mem_filter.mp hcut).1).1
    refine ⟨?_, ?_⟩
    · rw [firstKeptEntryIndex_of_ne_nil hne, budgetCutPoint]
      exact le_includeSettings hrange
    · intro t ht
      rw [firstKeptEntryIndex_of_ne_nil hne, budgetCutPoint]
      have hempty : (findValidCutPoints entries startIndex endIndex).isEmpty = false := by simpa using hne
      simp only [findCutPoint, hempty, Bool.false_eq_true, if_false] at ht
      split_ifs at ht
      obtain ⟨hle, hturn, -⟩ := findTurnStartIndex_eq_some_iff.mp ht
      exact ⟨hle, hturn⟩

/-! ### What is summarised and what is kept -/

section

variable {getTime : JsStr → ν} {countTokens : AgentMessage ν → Nat} {keepBudget : Nat → ℕ∞}
  {path entries : List (SessionEntry ν)}

theorem boundaryStart_of_none (h : ∀ e ∈ path, e.isCompaction = false) : boundaryStart path = 0 := by
  have hnone : path.reverse.findIdx? isCompaction = none := by
    rw [findIdx?_eq_none_iff]
    exact fun e he => h e (by simpa using he)
  rw [boundaryStart, hnone]

variable {entry : SessionEntry ν} {compaction : Compaction ν} {m : AgentMessage ν} {c : Nat}

theorem boundaryStart_append {before after}
    (hentry : entry.isCompaction = true) (hafter : ∀ e ∈ after, e.isCompaction = false) :
    boundaryStart (before ++ entry :: after) = before.length + 1 := by
  have hfind : (before ++ entry :: after).reverse.findIdx? isCompaction = some after.length := by
    rw [reverse_append, reverse_cons, append_assoc, findIdx?_append,
      findIdx?_eq_none_iff.mpr fun e he => hafter e (by simpa using he)]
    simp [findIdx?_cons, hentry]
  rw [boundaryStart, hfind]
  simp
  omega

theorem drop_boundaryStart {before after}
    (hsplit : path = before ++ entry :: after) (hentry : entry.asCompaction = some compaction)
    (hafter : ∀ e ∈ after, e.isCompaction = false) : path.drop (boundaryStart path) = after := by
  rw [hsplit, boundaryStart_append (by simp [isCompaction, hentry]) hafter, ← drop_drop, drop_left, drop_one, tail_cons]

theorem mem_messagesBetween {i j} : m ∈ messagesBetween getTime path i j ↔
      ∃ e ∈ (path.take j).drop i, getMessageFromEntry getTime e = some m := by
  rw [messagesBetween, mem_filterMap]

theorem drop_eq_append {i j} (hij : i ≤ j) (path : List (SessionEntry ν)) :
    path.drop i = (path.take j).drop i ++ path.drop j := by
  rw [List.drop_take, ← Nat.add_sub_cancel' hij, ← drop_drop, Nat.add_sub_cancel_left, take_append_drop]

theorem mem_messagesBetween_split {i t j} (hit : i ≤ t) (htj : t ≤ j) : m ∈ messagesBetween getTime path i j ↔
      m ∈ messagesBetween getTime path i t ∨ m ∈ messagesBetween getTime path t j := by
  rw [messagesBetween, drop_eq_append hit, take_take, Nat.min_eq_left htj, filterMap_append, mem_append]
  rfl

/-- A preparation cuts the part after the boundary at an entry: the messages before it are
summarised, as history or as the start of a turn. -/
theorem prepareCompaction_spec {prep} (h : prepareCompaction getTime countTokens keepBudget path = some prep) :
    ∃ c firstKept, boundaryStart path ≤ c ∧ path[c]? = some firstKept ∧ prep.firstKeptEntryId = firstKept.id ∧
      ∀ m, (m ∈ prep.messagesToSummarize ∨ m ∈ prep.turnPrefixMessages) ↔
        m ∈ messagesBetween getTime path (boundaryStart path) c := by
  obtain ⟨hle, hturn⟩ := @findCutPoint_range ν path (boundaryStart path) getTime countTokens path.length
    (keepBudget (tokensBetween getTime countTokens path (boundaryStart path) path.length))
  simp only [prepareCompaction] at h
  generalize findCutPoint getTime countTokens path (boundaryStart path) path.length
    (keepBudget (tokensBetween getTime countTokens path (boundaryStart path) path.length)) = cut
    at h hle hturn
  split at h
  · cases h
  · split at h
    · cases h
    · rename_i firstKept hfirst
      split at h
      · cases h
      · by_cases hsplit : cut.isSplitTurn = true
        · simp only [if_pos hsplit] at h
          split at h
          · cases h
          · cases h
            refine ⟨cut.firstKeptEntryIndex, firstKept, hle, hfirst, rfl, fun m => ?_⟩
            cases ht : cut.turnStartIndex with
            | none => rw [Option.getD_none, ← mem_messagesBetween_split hle le_rfl]
            | some t =>
              obtain ⟨h1, h2⟩ := hturn t ht
              rw [Option.getD_some, ← mem_messagesBetween_split h1 h2]
        · simp only [if_neg hsplit] at h
          split at h
          · cases h
          · cases h
            refine ⟨cut.firstKeptEntryIndex, firstKept, hle, hfirst, rfl, fun m => ?_⟩
            simp only [not_mem_nil, or_false]

theorem keptEntries_of_getElem (hnodup : (path.map SessionEntry.id).Nodup)
    {firstKept} (hc : path[c]? = some firstKept)
    (hid : compaction.firstKeptEntryId = firstKept.id) : keptEntries path compaction = path.drop c := by
  obtain ⟨hlt, hget⟩ := List.getElem?_eq_some_iff.mp hc
  have hdrop : path.drop c = firstKept :: path.drop (c + 1) := by
    rw [drop_eq_getElem_cons hlt, hget]
  have hsplit : path = path.take c ++ firstKept :: path.drop (c + 1) := by
    rw [← hdrop, take_append_drop]
  rw [keptEntries, hid, hdrop]
  conv_lhs => rw [hsplit]
  rw [dropWhile_append_of_pos]
  · simp
  · intro e he
    rw [hsplit] at hnodup
    simpa using id_ne_of_nodup hnodup he

/-- What the last compaction of the path keeps of the entries before it is said again after it. -/
def KeptIsRepeated (getTime : JsStr → ν) (path : List (SessionEntry ν)) : Prop :=
  ∀ before entry compaction after, path = before ++ entry :: after →
    entry.asCompaction = some compaction → (∀ e ∈ after, e.isCompaction = false) →
    ∀ m ∈ keptMessages getTime before compaction, m ∈ emit getTime after

theorem mem_emit : m ∈ emit getTime entries ↔ ∃ e ∈ entries, m ∈ appendMessage getTime e :=
  mem_flatMap

theorem ne_summary_of_mem_emit (h : m ∈ emit getTime entries) (entry : SessionEntry ν)
    (compaction : Compaction ν) : m ≠ createCompactionSummaryMessage getTime entry compaction := by
  rintro rfl
  obtain ⟨e, -, he⟩ := mem_emit.mp h
  have hmessage := (mem_appendMessage_iff.mp he).1
  obtain ⟨_, _, _, record⟩ := e
  cases record <;> cases hmessage

theorem mem_emit_drop {s} (hsc : s ≤ c) (h : m ∈ emit getTime (path.drop s)) :
    m ∈ messagesBetween getTime path s c ∨ m ∈ emit getTime (path.drop c) := by
  obtain ⟨e, he, hm⟩ := mem_emit.mp h
  rw [drop_eq_append hsc, mem_append] at he
  rcases he with he | he
  · exact .inl (mem_messagesBetween.mpr ⟨e, he, (mem_appendMessage_iff.mp hm).1⟩)
  · exact .inr (mem_emit.mpr ⟨e, he, hm⟩)

theorem mem_emit_of_mem_messagesBetween {s} (hemit : m ∈ emit getTime entries)
    (h : m ∈ messagesBetween getTime path s c) : m ∈ emit getTime (path.drop s) := by
  obtain ⟨_, _, hm⟩ := mem_emit.mp hemit
  obtain ⟨e, he, hmessage⟩ := mem_messagesBetween.mp h
  have hmem : e ∈ path.drop s := by
    rw [List.drop_take] at he
    exact mem_of_mem_take he
  exact mem_emit.mpr ⟨e, hmem, mem_appendMessage_iff.mpr ⟨hmessage, (mem_appendMessage_iff.mp hm).2⟩⟩

/-- The context after a compaction is appended that keeps the entries from `c` on. -/
theorem contextMessages_append (happended : IsPath (path ++ [entry]))
    (hentry : entry.asCompaction = some compaction) (hremote : providerPayload compaction = none)
    {firstKept} (hc : path[c]? = some firstKept) (hid : compaction.firstKeptEntryId = firstKept.id) :
    contextMessages getTime (path ++ [entry]) (some none) =
      createCompactionSummaryMessage getTime entry compaction :: emit getTime (path.drop c) := by
  rw [contextMessages_of_isPath happended, pathMessages_of_compaction happended.nodup hentry (by simp),
    keptMessages, hremote, keptEntries_of_getElem happended.of_append.nodup hc hid]
  simp [emit]

/-- Appending the prepared compaction loses no message of the context exactly when what the previous
compaction kept is said again after it: the preparation starts after the previous compaction, while
the context goes back to the first entry it kept. -/
theorem prepareCompaction_keeps_iff {path : List (SessionEntry ν)} {prep : CompactionPreparation ν}
    (hprep : prepareCompaction getTime countTokens keepBudget path = some prep)
    {entry : SessionEntry ν} {compaction : Compaction ν} (happended : IsPath (path ++ [entry]))
    (hentry : entry.asCompaction = some compaction) (hkept : compaction.firstKeptEntryId = prep.firstKeptEntryId)
    (hremote : providerPayload compaction = none) : (∀ m ∈ contextMessages getTime path (some none),
      (∀ previous ∈ latestCompaction path, m ≠ createCompactionSummaryMessage getTime previous.1 previous.2) →
      m ∈ prep.messagesToSummarize ∨ m ∈ prep.turnPrefixMessages ∨
        m ∈ contextMessages getTime (path ++ [entry]) (some none)) ↔ KeptIsRepeated getTime path := by
  have hpath := happended.of_append
  obtain ⟨c, firstKept, hle, hc, hfirst, hsummarised⟩ := prepareCompaction_spec hprep
  have hafter := @contextMessages_append ν getTime path entry compaction c happended hentry hremote firstKept hc
    (by rw [hkept, hfirst])
  have hcovered : ∀ m, m ∈ emit getTime (path.drop (boundaryStart path)) →
      m ∈ prep.messagesToSummarize ∨ m ∈ prep.turnPrefixMessages ∨
        m ∈ contextMessages getTime (path ++ [entry]) (some none) := by
    intro m hm
    rw [← or_assoc, hsummarised, hafter]
    exact (mem_emit_drop hle hm).imp_right (mem_cons_of_mem _)
  rw [contextMessages_of_isPath hpath]
  constructor
  · intro hkeeps before previous old after hsplit hprevious hlast m hm
    have hemit : m ∈ emit getTime (keptEntries before old) := by
      rw [keptMessages] at hm
      split_ifs at hm
      · cases hm
      · exact hm
    have hstart := drop_boundaryStart hsplit hprevious hlast
    have hcontext : m ∈ pathMessages getTime path := by
      rw [hsplit, pathMessages_of_compaction (hsplit ▸ hpath.nodup) hprevious hlast]
      exact mem_cons_of_mem _ (mem_append_left _ hm)
    rw [← hstart]
    rcases or_assoc.mpr (hkeeps m hcontext fun _ _ => ne_summary_of_mem_emit hemit _ _) with h | h
    · exact mem_emit_of_mem_messagesBetween hemit ((hsummarised m).mp h)
    · rw [hafter] at h
      rcases mem_cons.mp h with h | h
      · exact absurd h (ne_summary_of_mem_emit hemit _ _)
      · obtain ⟨e, he, hme⟩ := mem_emit.mp h
        refine mem_emit.mpr ⟨e, ?_, hme⟩
        rw [drop_eq_append hle]
        exact mem_append_right _ he
  · intro hrepeated m hm hnotsummary
    cases hlatest : latestCompaction path with
    | none =>
      have hnone := latestCompaction_eq_none.mp hlatest
      rw [pathMessages_of_none hnone] at hm
      exact hcovered m (by rwa [boundaryStart_of_none hnone, drop_zero])
    | some previous =>
      obtain ⟨previous, old⟩ := previous
      obtain ⟨hprevious, before, after, hsplit, hlast⟩ := latestCompaction_eq_some hlatest
      have hstart := drop_boundaryStart hsplit hprevious hlast
      rw [hsplit, pathMessages_of_compaction (hsplit ▸ hpath.nodup) hprevious hlast] at hm
      apply hcovered
      rw [hstart]
      rcases mem_cons.mp hm with h | h
      · exact absurd h (hnotsummary (previous, old) hlatest)
      · rcases mem_append.mp h with h | h
        · exact hrepeated before previous old after hsplit hprevious hlast m h
        · exact h

end

def compactionEntry (id parentId firstKept : String) : SessionEntry Nat :=
  ⟨lit id, some (lit parentId), [], .compaction ⟨.text (lit "summary"), none, lit firstKept, 0, none⟩⟩

def twoMessages : List (SessionEntry Nat) := [userEntry "1" none, userEntry "2" (some "1")]

theorem prepareCompaction_keeps_two :
    ∃ prep, prepareCompaction (fun _ => 0) (fun _ => 1) (fun _ => 1) twoMessages = some prep ∧
      IsPath (twoMessages ++ [compactionEntry "3" "2" "2"]) ∧
      ((∀ m ∈ contextMessages (fun _ => 0) twoMessages (some none), (∀ previous ∈ latestCompaction twoMessages,
          m ≠ createCompactionSummaryMessage (fun _ => 0) previous.1 previous.2) →
        m ∈ prep.messagesToSummarize ∨ m ∈ prep.turnPrefixMessages ∨
          m ∈ contextMessages (fun _ => 0) (twoMessages ++ [compactionEntry "3" "2" "2"]) (some none)) ↔
        KeptIsRepeated (fun _ => 0) twoMessages) := by
  have hpath : IsPath (twoMessages ++ [compactionEntry "3" "2" "2"]) :=
    ⟨by decide, by simp [twoMessages, userEntry, compactionEntry]; decide⟩
  exact ⟨_, rfl, hpath,
    @prepareCompaction_keeps_iff Nat (fun _ => 0) (fun _ => 1) (fun _ => 1) _ _ rfl _ _ hpath rfl rfl rfl⟩

def compactedOnce : List (SessionEntry Nat) :=
  twoMessages ++ [compactionEntry "3" "2" "2", userEntry "4" (some "3"), userEntry "5" (some "4")]

/-- The next compaction loses the message that this one kept. -/
theorem prepareCompaction_loses :
    ∃ prep, prepareCompaction (fun _ => 0) (fun _ => 1) (fun _ => 1) compactedOnce = some prep ∧
      prep.firstKeptEntryId = lit "5" ∧ ∃ m ∈ contextMessages (fun _ => 0) compactedOnce (some none),
        m = .stored (.obj [(lit "role", .str (lit "user")), (lit "content", .str (lit "2"))]) ∧
        m ∉ prep.messagesToSummarize ∧ m ∉ prep.turnPrefixMessages ∧
        m ∉ contextMessages (fun _ => 0) (compactedOnce ++ [compactionEntry "6" "5" "5"]) (some none) := by
  refine ⟨_, rfl, rfl, _, .tail _ (.head _), rfl, ?_, not_mem_nil, ?_⟩
  · rintro (_ | ⟨_, ⟨⟩⟩)
  · rintro (_ | ⟨_, _ | ⟨_, ⟨⟩⟩⟩)

end GajaeCode.Session
