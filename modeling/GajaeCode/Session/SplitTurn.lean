import GajaeCode.Session.CutPoint

/-! When the cut of a compaction is reported to split a turn. -/
namespace GajaeCode.Session

open Text List

variable {ν : Type}

def IsMessageAt (getTime : JsStr → ν) (entries : List (SessionEntry ν)) (i : Nat) : Prop :=
  entries[i]?.any (fun entry => (getMessageFromEntry getTime entry).isSome) = true

/-- The first entry from `first` on that contributes a message. -/
structure FirstMessage (getTime : JsStr → ν) (entries : List (SessionEntry ν)) (first i : Nat) : Prop where
  le : first ≤ i
  message : IsMessageAt getTime entries i
  before : ∀ k, first ≤ k → k < i → ¬ IsMessageAt getTime entries k

/-- A cut splits a turn when the first message kept does not start one and a turn starts before it; the
start reported is then the nearest. -/
structure ExactSplit (getTime : JsStr → ν) (entries : List (SessionEntry ν)) (startIndex : Nat)
    (result : CutPointResult) : Prop where
  split : result.isSplitTurn = true ↔
    ∃ i, FirstMessage getTime entries result.firstKeptEntryIndex i ∧ ¬ StartsTurnAt entries i ∧
      ∃ t, startIndex ≤ t ∧ t < i ∧ StartsTurnAt entries t
  nearest : result.isSplitTurn = true → ∀ i, FirstMessage getTime entries result.firstKeptEntryIndex i →
      ∃ t, result.turnStartIndex = some t ∧ startIndex ≤ t ∧ t < i ∧ StartsTurnAt entries t ∧
        ∀ k, t < k → k < i → ¬ StartsTurnAt entries k

variable {getTime : JsStr → ν} {entries : List (SessionEntry ν)} {startIndex endIndex : Nat}

theorem any_imp {p q r} (h : ∀ entry, p entry = true → q entry = true → r entry = true)
    {i : Nat} (hp : entries[i]?.any p = true) (hq : entries[i]?.any q = true) : entries[i]?.any r = true := by
  cases hentry : entries[i]? with
  | none => simp [hentry] at hp
  | some entry =>
    rw [hentry] at hp hq
    exact h entry hp hq

theorem isMessageAt_of_startsTurnAt {i} (h : StartsTurnAt entries i) : IsMessageAt getTime entries i := by
  refine any_imp ?_ h h
  rintro ⟨_, _, _, record⟩ hstarts -
  cases record <;> first | rfl | exact absurd hstarts Bool.false_ne_true

theorem isMessageAt_of_isValidCutPoint {i} (h : entries[i]?.any isValidCutPoint = true) :
    IsMessageAt getTime entries i := by
  refine any_imp ?_ h h
  rintro ⟨_, _, _, record⟩ hvalid -
  cases record <;> first | rfl | exact absurd hvalid Bool.false_ne_true

theorem startsTurnAt_of_user {i} (h : entries[i]?.any (fun entry => entry.role = some (lit "user")) = true) :
    StartsTurnAt entries i := by
  refine any_imp ?_ h h
  rintro ⟨_, _, _, record⟩ hrole -
  cases record <;> simp_all [startsTurn, SessionEntry.role]

/-- What stands for a message among the settings is a summary or a custom message. -/
theorem startsTurnAt_of_isSettings {i} (hsettings : entries[i]?.any isSettings = true)
    (h : IsMessageAt getTime entries i) : StartsTurnAt entries i := by
  refine any_imp ?_ hsettings h
  rintro ⟨_, _, _, record⟩ hkind hmessage
  cases record <;> first | rfl | exact absurd hmessage Bool.false_ne_true | exact absurd hkind Bool.false_ne_true

theorem findTurnStartIndex_eq_none_iff {i} : findTurnStartIndex entries startIndex i = none ↔
      ∀ t, startIndex ≤ t → t ≤ i → ¬ StartsTurnAt entries t := by
  induction i with
  | zero =>
    simp only [findTurnStartIndex, StartsTurnAt]
    grind
  | succ i ih =>
    simp only [findTurnStartIndex, StartsTurnAt] at ih ⊢
    grind

theorem isSettings_of_includeSettings {c k} (hle : includeSettings entries startIndex c ≤ k)
    (hlt : k < c) : entries[k]?.any isSettings = true := by
  induction c with
  | zero => omega
  | succ c ih =>
    rw [includeSettings] at hle
    split_ifs at hle with h
    · rcases Nat.lt_succ_iff_lt_or_eq.mp hlt with hlt | rfl
      · exact ih hle hlt
      · exact h.2
    · omega

theorem includeSettings_le (c : Nat) : includeSettings entries startIndex c ≤ c := by
  induction c with
  | zero => rfl
  | succ c ih =>
    rw [includeSettings]
    split_ifs <;> omega

theorem FirstMessage.not_startsTurnAt {first i k} (h : FirstMessage getTime entries first i)
    (hle : first ≤ k) (hlt : k < i) : ¬ StartsTurnAt entries k :=
  fun hstarts => h.before k hle hlt (isMessageAt_of_startsTurnAt hstarts)

theorem FirstMessage.unique {first i j} (hi : FirstMessage getTime entries first i)
    (hj : FirstMessage getTime entries first j) : j = i := by
  apply Nat.le_antisymm
  · exact not_lt.mp fun hlt => hj.before i hi.le hlt hi.message
  · exact not_lt.mp fun hlt => hi.before j hj.le hlt hj.message

theorem exists_firstMessage {first c} (hle : first ≤ c) (h : IsMessageAt getTime entries c) :
    ∃ i, FirstMessage getTime entries first i ∧ i ≤ c := by
  classical
  have hex : ∃ i, first ≤ i ∧ IsMessageAt getTime entries i := ⟨c, hle, h⟩
  refine ⟨Nat.find hex, ⟨(Nat.find_spec hex).1, (Nat.find_spec hex).2, ?_⟩, Nat.find_min' hex ⟨hle, h⟩⟩
  intro k hk hlt hmessage
  exact Nat.find_min hex hlt ⟨hk, hmessage⟩

/-- The first message of a cut starts a turn exactly when some entry up to the cut point does: the
settings included before it are no messages or start turns themselves. -/
theorem FirstMessage.startsTurnAt_iff {c i}
    (h : FirstMessage getTime entries (includeSettings entries startIndex c) i) (hle : i ≤ c) :
    StartsTurnAt entries i ↔ ∃ k, includeSettings entries startIndex c ≤ k ∧ k ≤ c ∧ StartsTurnAt entries k := by
  constructor
  · intro hstarts
    exact ⟨i, h.le, hle, hstarts⟩
  · rintro ⟨k, hk, hkc, hstarts⟩
    rcases Nat.lt_or_eq_of_le hle with hlt | rfl
    · exact startsTurnAt_of_isSettings (isSettings_of_includeSettings h.le hlt) h.message
    · rcases Nat.lt_or_eq_of_le hkc with hki | rfl
      · exact absurd hstarts (h.not_startsTurnAt hk hki)
      · exact hstarts

/-- What is reported of a cut at `first` is exact unless the first message kept starts a turn, which only
a user's message at the cut itself is seen to do. -/
theorem FirstMessage.exactSplit_iff {first i} (h : FirstMessage getTime entries first i)
    {isUserMessage} (huser : isUserMessage = true → StartsTurnAt entries first) {turnStartIndex}
    (hturn : turnStartIndex = if isUserMessage then none else findTurnStartIndex entries startIndex first) :
    ExactSplit getTime entries startIndex ⟨first, turnStartIndex, !isUserMessage && turnStartIndex.isSome⟩ ↔
      ¬ (¬ isUserMessage = true ∧ StartsTurnAt entries i ∧
        ∃ t, startIndex ≤ t ∧ t ≤ first ∧ StartsTurnAt entries t) := by
  cases isUserMessage with
  | true =>
    refine iff_of_true ⟨⟨nofun, ?_⟩, nofun⟩ (fun hmissed => hmissed.1 rfl)
    rintro ⟨j, hj, hnot, -⟩
    rcases Nat.lt_or_eq_of_le hj.le with hlt | rfl
    · exact absurd (huser rfl) (hj.not_startsTurnAt le_rfl hlt)
    · exact absurd (huser rfl) hnot
  | false =>
    cases hstart : findTurnStartIndex entries startIndex first with
    | none =>
      rw [hstart] at hturn
      subst hturn
      rw [findTurnStartIndex_eq_none_iff] at hstart
      refine iff_of_true ⟨⟨nofun, ?_⟩, nofun⟩ ?_
      · rintro ⟨j, hj, -, t, hle, hlt, hstarts⟩
        rcases Nat.lt_or_ge first t with hpast | hpast
        · exact absurd hstarts (hj.not_startsTurnAt hpast.le hlt)
        · exact absurd hstarts (hstart t hle hpast)
      · rintro ⟨-, -, t, hle, hfirst, hstarts⟩
        exact hstart t hle hfirst hstarts
    | some t =>
      rw [hstart] at hturn
      subst hturn
      obtain ⟨hle, hfirst, hstarts, hnearest⟩ := findTurnStartIndex_eq_some_iff.mp hstart
      constructor
      · rintro hexact ⟨-, hi, -⟩
        obtain ⟨j, hj, hnot, -⟩ := hexact.split.mp rfl
        exact hnot (h.unique hj ▸ hi)
      · intro hmissed
        have hnot : ¬ StartsTurnAt entries i := fun hi =>
          hmissed ⟨Bool.false_ne_true, hi, t, hle, hfirst, hstarts⟩
        have hlt : t < i := by
          apply lt_of_le_of_ne (hfirst.trans h.le)
          rintro rfl
          exact hnot hstarts
        refine ⟨⟨fun _ => ⟨i, h, hnot, t, hle, hlt, hstarts⟩, fun _ => rfl⟩, fun _ j hj => ?_⟩
        obtain rfl := h.unique hj
        refine ⟨t, rfl, hle, hlt, hstarts, fun k htk hkj => ?_⟩
        rcases Nat.lt_or_ge first k with hpast | hpast
        · exact h.not_startsTurnAt hpast.le hkj
        · exact hnearest k htk hpast

/-- A turn starts between the cut and the cut point, another one at or before the cut, and the entry at
the cut is no user's message. -/
def MissedBoundary (entries : List (SessionEntry ν)) (startIndex cutPoint : Nat) : Prop :=
  let cutIndex := includeSettings entries startIndex cutPoint
  ¬ entries[cutIndex]?.any (fun entry => entry.role = some (lit "user")) = true ∧
    (∃ k, cutIndex ≤ k ∧ k ≤ cutPoint ∧ StartsTurnAt entries k) ∧
    ∃ t, startIndex ≤ t ∧ t ≤ cutIndex ∧ StartsTurnAt entries t

section

variable {countTokens : AgentMessage ν → Nat} {budget : ℕ∞}

theorem isMessageAt_budgetCutPoint (h : findValidCutPoints entries startIndex endIndex ≠ []) :
    IsMessageAt getTime entries (budgetCutPoint getTime countTokens entries startIndex endIndex budget) :=
  isMessageAt_of_isValidCutPoint (mem_filter.mp (cutPointFor_mem h startIndex _)).2

theorem exactSplit_of_nil (h : findValidCutPoints entries startIndex endIndex = []) :
    ExactSplit getTime entries startIndex (findCutPoint getTime countTokens entries startIndex endIndex budget) := by
  have hresult : findCutPoint getTime countTokens entries startIndex endIndex budget =
      ⟨startIndex, none, false⟩ := by
    simp [findCutPoint, h]
  rw [hresult]
  refine ⟨⟨fun h => absurd h Bool.false_ne_true, ?_⟩, fun h => absurd h Bool.false_ne_true⟩
  rintro ⟨i, hfirst, -, t, hle, hlt, hstarts⟩
  exact absurd hstarts (hfirst.not_startsTurnAt hle hlt)

variable (getTime countTokens entries startIndex endIndex budget) in
theorem findCutPoint_exactSplit_iff : ExactSplit getTime entries startIndex
        (findCutPoint getTime countTokens entries startIndex endIndex budget) ↔
      findValidCutPoints entries startIndex endIndex = [] ∨ ¬ MissedBoundary entries startIndex
          (budgetCutPoint getTime countTokens entries startIndex endIndex budget) := by
  by_cases hempty : findValidCutPoints entries startIndex endIndex = []
  · simp only [exactSplit_of_nil hempty, hempty, true_or]
  simp only [hempty, false_or, findCutPoint, List.isEmpty_iff, if_false, ← budgetCutPoint.eq_def, MissedBoundary]
  have hmessage := @isMessageAt_budgetCutPoint ν getTime entries startIndex endIndex countTokens budget hempty
  generalize budgetCutPoint getTime countTokens entries startIndex endIndex budget = c at hmessage ⊢
  obtain ⟨i, hfirst, hle⟩ := exists_firstMessage (@includeSettings_le ν entries startIndex c) hmessage
  rw [← hfirst.startsTurnAt_iff hle]
  exact hfirst.exactSplit_iff startsTurnAt_of_user rfl

end

def settingsBeforeTurn : List (SessionEntry Nat) :=
  [⟨lit "1", none, [], .message (.obj [(lit "role", .str (lit "user"))]) none⟩,
    ⟨lit "2", some (lit "1"), [], .message (.obj [(lit "role", .str (lit "assistant"))]) none⟩,
    ⟨lit "3", some (lit "2"), [], .modelChange⟩,
    ⟨lit "4", some (lit "3"), [], .message (.obj [(lit "role", .str (lit "user"))]) none⟩]

/-- A cut just before a user's message, with the change of the model before it, is reported to split the
turn that ends there. -/
theorem findCutPoint_splits_at_boundary :
    findCutPoint (fun _ => 0) (fun _ => 1) settingsBeforeTurn 0 4 1 = ⟨2, some 0, true⟩ ∧
      FirstMessage (fun _ => 0) settingsBeforeTurn 2 3 ∧ StartsTurnAt settingsBeforeTurn 3 ∧
      ¬ ExactSplit (fun _ => 0) settingsBeforeTurn 0
        (findCutPoint (fun _ => 0) (fun _ => 1) settingsBeforeTurn 0 4 1) := by
  have hresult : findCutPoint (fun _ => 0) (fun _ => 1) settingsBeforeTurn 0 4 1 = ⟨2, some 0, true⟩ := by
    decide
  have hfirst : FirstMessage (fun _ => 0) settingsBeforeTurn 2 3 := by
    refine ⟨by decide, by rfl, fun k hle hlt => ?_⟩
    obtain rfl : k = 2 := by omega
    exact Bool.false_ne_true
  have hstarts : StartsTurnAt settingsBeforeTurn 3 := by
    rw [StartsTurnAt]
    decide
  refine ⟨hresult, hfirst, hstarts, fun hexact => ?_⟩
  rw [hresult] at hexact
  obtain ⟨i, hi, hnot, -⟩ := hexact.split.mp rfl
  exact hnot (hfirst.unique hi ▸ hstarts)

end GajaeCode.Session
