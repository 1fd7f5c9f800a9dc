import GajaeCode.Session.Entries

/-! Where a compaction cuts a range of entries, and when no cut separates the result of a tool call
from the call. -/
namespace GajaeCode.Session

open Text List

variable {ν : Type}

/-- The roles of a message at which a compaction may cut; a tool result follows its call. -/
def cutRoles : List JsStr :=
  [lit "bashExecution", lit "hookMessage", lit "branchSummary", lit "compactionSummary", lit "user",
    lit "assistant"]

def isValidCutPoint (entry : SessionEntry ν) : Bool :=
  match entry.record with
  | .message _ _ => entry.role.any fun role => cutRoles.contains role
  | .branchSummary _ _ | .customMessage _ _ => true
  | _ => false

/-- The cut points from `startIndex` up to `endIndex`, which lies within the entries. -/
def findValidCutPoints (entries : List (SessionEntry ν)) (startIndex endIndex : Nat) : List Nat :=
  (List.range' startIndex (endIndex - startIndex)).filter fun i => entries[i]?.any isValidCutPoint

def startsTurn (entry : SessionEntry ν) : Bool :=
  match entry.record with
  | .branchSummary _ _ | .customMessage _ _ => true
  | .message _ _ => entry.role = some (lit "user") || entry.role = some (lit "bashExecution")
  | _ => false

/-- The start of the turn that holds an entry: the nearest entry at or before it that starts one. -/
def findTurnStartIndex (entries : List (SessionEntry ν)) (startIndex : Nat) : Nat → Option Nat
  | 0 => if startIndex ≤ 0 ∧ entries[0]?.any startsTurn then some 0 else none
  | i + 1 =>
    if i + 1 < startIndex then none
    else if entries[i + 1]?.any startsTurn then some (i + 1)
    else findTurnStartIndex entries startIndex i

structure CutPointResult where
  firstKeptEntryIndex : Nat
  turnStartIndex : Option Nat
  isSplitTurn : Bool
  deriving DecidableEq, Repr

section

-- the number of tokens of a message
variable (getTime : JsStr → ν) (countTokens : AgentMessage ν → Nat)

def estimateEntryTokens (entry : SessionEntry ν) : Nat :=
  match getMessageFromEntry getTime entry with
  | none => 0
  | some message => countTokens message

def tokensAt (entries : List (SessionEntry ν)) (i : Nat) : Nat :=
  (entries[i]?.map (estimateEntryTokens getTime countTokens)).getD 0

/-- The walk back over the last `n` entries from `startIndex` on: where the tokens reach the budget. -/
def budgetIndex (entries : List (SessionEntry ν)) (startIndex : Nat) (keepRecentTokens : ℕ∞) :
    Nat → Nat → Option Nat
  | 0, _ => none
  | n + 1, accumulatedTokens =>
    let accumulatedTokens := accumulatedTokens + tokensAt getTime countTokens entries (startIndex + n)
    if keepRecentTokens ≤ accumulatedTokens then some (startIndex + n)
    else budgetIndex entries startIndex keepRecentTokens n accumulatedTokens

/-- The cut point closest to the index where the budget is reached. -/
def cutPointFor (cutPoints : List Nat) (default : Nat) : Option Nat → Nat
  | none => cutPoints.headD default
  | some i => (cutPoints.find? (i ≤ ·)).getD (cutPoints.getLastD default)

def isSettings (entry : SessionEntry ν) : Bool := !entry.isCompaction && !entry.isMessage

/-- Includes the entries just before a cut that are neither messages nor compactions. -/
def includeSettings (entries : List (SessionEntry ν)) (startIndex : Nat) : Nat → Nat
  | 0 => 0
  | cutIndex + 1 =>
    if startIndex < cutIndex + 1 ∧ entries[cutIndex]?.any isSettings then
      includeSettings entries startIndex cutIndex
    else cutIndex + 1

/-- The cut that keeps about `keepRecentTokens` tokens. A budget that is no whole number stands for
the next one, a budget that is never reached for `⊤`. -/
def findCutPoint (entries : List (SessionEntry ν)) (startIndex endIndex : Nat) (keepRecentTokens : ℕ∞) :
    CutPointResult :=
  let cutPoints := findValidCutPoints entries startIndex endIndex
  if cutPoints.isEmpty then ⟨startIndex, none, false⟩
  else
    let reached := budgetIndex getTime countTokens entries startIndex keepRecentTokens (endIndex - startIndex) 0
    let cutIndex := includeSettings entries startIndex (cutPointFor cutPoints startIndex reached)
    let isUserMessage := entries[cutIndex]?.any fun entry => entry.role = some (lit "user")
    let turnStartIndex :=
      if isUserMessage then none else findTurnStartIndex entries startIndex cutIndex
    ⟨cutIndex, turnStartIndex, !isUserMessage && turnStartIndex.isSome⟩

end

variable {entries : List (SessionEntry ν)} {startIndex endIndex : Nat}

def StartsTurnAt (entries : List (SessionEntry ν)) (i : Nat) : Prop := entries[i]?.any startsTurn = true

theorem findTurnStartIndex_eq_some_iff {i t} : findTurnStartIndex entries startIndex i = some t ↔
      startIndex ≤ t ∧ t ≤ i ∧ StartsTurnAt entries t ∧ ∀ k, t < k → k ≤ i → ¬ StartsTurnAt entries k := by
  induction i with
  | zero =>
    simp only [findTurnStartIndex, StartsTurnAt]
    grind
  | succ i ih =>
    simp only [findTurnStartIndex, StartsTurnAt] at ih ⊢
    grind

theorem cutPointFor_mem {cutPoints} (hne : cutPoints ≠ []) (default : Nat) (reached : Option Nat) :
    cutPointFor cutPoints default reached ∈ cutPoints := by
  cases reached with
  | none =>
    obtain ⟨c, rest, rfl⟩ := exists_cons_of_ne_nil hne
    exact mem_cons_self
  | some i =>
    rw [cutPointFor]
    cases hfind : cutPoints.find? (i ≤ ·) with
    | some c => exact mem_of_find?_eq_some hfind
    | none =>
      rw [getLastD_eq_getLast?, getLast?_eq_some_getLast hne]
      exact getLast_mem hne

/-! ### Calls and results -/

def toolResultId (entry : SessionEntry ν) : Option JsStr :=
  match entry.record with
  | .message message _ =>
    if entry.role = some (lit "toolResult") then (message.field (lit "toolCallId")).bind Json.asStr
    else none
  | _ => none

def toolCallIds (entry : SessionEntry ν) : List JsStr :=
  match entry.record with
  | .message message _ =>
    if entry.role = some (lit "assistant") then
      (((message.field (lit "content")).bind Json.asItems).getD []).filterMap fun block =>
        if (block.field (lit "type")).bind Json.asStr = some (lit "toolCall") then
          (block.field (lit "id")).bind Json.asStr
        else none
    else []
  | _ => []

/-- Every tool result at or after `first` comes after its call, which is at or after `first` too. -/
def KeepsCalls (entries : List (SessionEntry ν)) (first : Nat) : Prop :=
  ∀ r result id, first ≤ r → entries[r]? = some result → toolResultId result = some id →
    ∃ a call, first ≤ a ∧ a < r ∧ entries[a]? = some call ∧ id ∈ toolCallIds call

theorem isMessage_of_toolResultId {entry : SessionEntry ν} {id}
    (h : toolResultId entry = some id) : entry.isMessage = true := by
  obtain ⟨_, _, _, record⟩ := entry
  cases record <;> simp_all [toolResultId, SessionEntry.isMessage]

theorem isMessage_of_toolCallIds {entry : SessionEntry ν} {id}
    (h : id ∈ toolCallIds entry) : entry.isMessage = true := by
  obtain ⟨_, _, _, record⟩ := entry
  cases record <;> simp_all [toolCallIds, SessionEntry.isMessage]

theorem keepsCalls_succ {entries : List (SessionEntry ν)} {first} (h : entries[first]?.any isSettings = true) :
    KeepsCalls entries (first + 1) ↔ KeepsCalls entries first := by
  obtain ⟨entry, hentry, hkind⟩ := (Option.any_eq_true _ _).mp h
  have hmessage : entry.isMessage = false := by
    simp only [isSettings, Bool.and_eq_true, Bool.not_eq_true'] at hkind
    exact hkind.2
  have hpast : ∀ i other, entries[i]? = some other → other.isMessage = true → first ≤ i → first + 1 ≤ i := by
    intro i other hi hother hle
    rcases Nat.lt_or_eq_of_le hle with hlt | rfl
    · exact hlt
    · rw [hentry] at hi
      injection hi with hi
      rw [hi, hother] at hmessage
      cases hmessage
  constructor
  · intro hkeeps r result id hle hresult hid
    have hr := hpast r result hresult (isMessage_of_toolResultId hid) hle
    obtain ⟨a, call, ha, hrest⟩ := hkeeps r result id hr hresult hid
    exact ⟨a, call, by omega, hrest⟩
  · intro hkeeps r result id hle hresult hid
    obtain ⟨a, call, ha, hlt, hcall, hmem⟩ := hkeeps r result id (by omega) hresult hid
    exact ⟨a, call, hpast a call hcall (isMessage_of_toolCallIds hmem) ha, hlt, hcall, hmem⟩

theorem keepsCalls_includeSettings {entries : List (SessionEntry ν)} {startIndex} (cutIndex : Nat) :
    KeepsCalls entries (includeSettings entries startIndex cutIndex) ↔ KeepsCalls entries cutIndex := by
  induction cutIndex with
  | zero => rfl
  | succ cutIndex ih =>
    rw [includeSettings]
    split_ifs with h
    · rw [ih, keepsCalls_succ h.2]
    · rfl

/-! ### The cut for a budget -/

section

variable {getTime : JsStr → ν} {countTokens : AgentMessage ν → Nat} {budget : ℕ∞}

def tokensBetween (getTime : JsStr → ν) (countTokens : AgentMessage ν → Nat)
    (entries : List (SessionEntry ν)) (i j : Nat) : Nat :=
  ∑ k ∈ Finset.Ico i j, tokensAt getTime countTokens entries k

/-- The entries from `i` on hold the tokens that the budget asks for. -/
def Reaches (getTime : JsStr → ν) (countTokens : AgentMessage ν → Nat) (entries : List (SessionEntry ν))
    (endIndex : Nat) (budget : ℕ∞) (i : Nat) : Prop :=
  budget ≤ (tokensBetween getTime countTokens entries i endIndex : ℕ)

theorem budgetIndex_bounds {n acc t} (h : budgetIndex getTime countTokens entries startIndex budget n acc = some t) :
    startIndex ≤ t ∧ t < startIndex + n := by
  induction n generalizing acc with
  | zero => cases h
  | succ n ih =>
    simp only [budgetIndex] at h
    split_ifs at h with hreached
    · injection h with h
      omega
    · have hrest := ih h
      omega

/-- The walk stops at the last index from which on the tokens reach the budget. -/
theorem le_budgetIndex_iff {n acc i} (hle : startIndex ≤ i) (hlt : i < startIndex + n) :
    (∃ t, budgetIndex getTime countTokens entries startIndex budget n acc = some t ∧ i ≤ t) ↔
      budget ≤ ((acc + tokensBetween getTime countTokens entries i (startIndex + n) : ℕ) : ℕ∞) := by
  induction n generalizing acc with
  | zero => omega
  | succ n ih =>
    have hsucc : acc + tokensBetween getTime countTokens entries i (startIndex + (n + 1)) =
        acc + tokensAt getTime countTokens entries (startIndex + n) +
          tokensBetween getTime countTokens entries i (startIndex + n) := by
      rw [tokensBetween, ← Nat.add_assoc startIndex n 1, Finset.sum_Ico_succ_top (by omega), ← tokensBetween]
      omega
    rw [hsucc]
    simp only [budgetIndex]
    split_ifs with hreached
    · refine iff_of_true ⟨_, rfl, by omega⟩ (hreached.trans ?_)
      exact_mod_cast Nat.le_add_right _ _
    · rcases Nat.lt_or_eq_of_le (show i ≤ startIndex + n by omega) with hbefore | rfl
      · exact ih hbefore
      · rw [show tokensBetween getTime countTokens entries (startIndex + n) (startIndex + n) = 0 by
          simp [tokensBetween]]
        refine iff_of_false ?_ hreached
        rintro ⟨t, ht, hpast⟩
        have hbounds := budgetIndex_bounds ht
        omega

theorem le_reached_iff {i} (hle : startIndex ≤ i) (hlt : i < endIndex) :
    (∃ t, budgetIndex getTime countTokens entries startIndex budget (endIndex - startIndex) 0 = some t ∧ i ≤ t) ↔
      Reaches getTime countTokens entries endIndex budget i := by
  rw [le_budgetIndex_iff hle (by omega), Nat.zero_add, Nat.add_sub_cancel' (by omega), Reaches]

/-- A cut point that a budget may choose: what follows it stays below the budget, or it is the last. -/
structure CutWithin (getTime : JsStr → ν) (countTokens : AgentMessage ν → Nat)
    (entries : List (SessionEntry ν)) (startIndex endIndex : Nat) (budget : ℕ∞) (c : Nat) : Prop where
  cut : c ∈ findValidCutPoints entries startIndex endIndex
  short : ¬ Reaches getTime countTokens entries endIndex budget (c + 1) ∨
    ∀ c' ∈ findValidCutPoints entries startIndex endIndex, c' ≤ c

/-- The cut point a budget leads to, before the settings are included. -/
def budgetCutPoint (getTime : JsStr → ν) (countTokens : AgentMessage ν → Nat)
    (entries : List (SessionEntry ν)) (startIndex endIndex : Nat) (budget : ℕ∞) : Nat :=
  cutPointFor (findValidCutPoints entries startIndex endIndex) startIndex
    (budgetIndex getTime countTokens entries startIndex budget (endIndex - startIndex) 0)

theorem cutPointFor_le {cutPoints : List Nat} {default c} {reached : Option Nat}
    (hsorted : cutPoints.Pairwise (· < ·)) (hc : c ∈ cutPoints)
    (h : (∀ t, reached = some t → t ≤ c) ∨ ∀ c' ∈ cutPoints, c' ≤ c) : cutPointFor cutPoints default reached ≤ c := by
  rcases h with hpast | hlast
  · cases reached with
    | none =>
      obtain ⟨first, rest, rfl⟩ := exists_cons_of_ne_nil (ne_nil_of_mem hc)
      rcases mem_cons.mp hc with rfl | hrest
      · exact le_rfl
      · exact (rel_of_pairwise_cons hsorted hrest).le
    | some t =>
      cases hfind : cutPoints.find? (t ≤ ·) with
      | none => exact absurd (hpast t rfl) (by simpa using find?_eq_none.mp hfind c hc)
      | some found =>
        obtain ⟨-, before, after, rfl, hbefore⟩ := find?_eq_some_iff_append.mp hfind
        rw [cutPointFor, hfind, Option.getD_some]
        rcases mem_append.mp hc with hc | hc
        · exact absurd (hpast t rfl) (by simpa using hbefore c hc)
        · rcases mem_cons.mp hc with rfl | hrest
          · exact le_rfl
          · exact (rel_of_pairwise_cons (pairwise_append.mp hsorted).2.1 hrest).le
  · exact hlast _ (cutPointFor_mem (ne_nil_of_mem hc) _ _)

theorem le_cutPointFor {cutPoints : List Nat} {default} (hsorted : cutPoints.Pairwise (· < ·)) (t : Nat) :
    t ≤ cutPointFor cutPoints default (some t) ∨ ∀ c ∈ cutPoints, c ≤ cutPointFor cutPoints default (some t) := by
  rw [cutPointFor]
  cases hfind : cutPoints.find? (t ≤ ·) with
  | some found => exact .inl (by simpa using find?_some hfind)
  | none =>
    refine .inr fun c hc => ?_
    have hne := ne_nil_of_mem hc
    rw [Option.getD_none, getLastD_eq_getLast?, getLast?_eq_some_getLast hne, Option.getD_some]
    rw [← dropLast_append_getLast hne] at hc hsorted
    rcases mem_append.mp hc with hc | hc
    · exact ((pairwise_append.mp hsorted).2.2 c hc _ (mem_singleton_self _)).le
    · exact (mem_singleton.mp hc).le

theorem pairwise_findValidCutPoints : (findValidCutPoints entries startIndex endIndex).Pairwise (· < ·) :=
  Pairwise.filter _ pairwise_lt_range'

theorem mem_findValidCutPoints {c} : c ∈ findValidCutPoints entries startIndex endIndex ↔
      startIndex ≤ c ∧ c < endIndex ∧ entries[c]?.any isValidCutPoint = true := by
  rw [findValidCutPoints, mem_filter, mem_range'_1]
  constructor
  · rintro ⟨⟨hle, hlt⟩, hvalid⟩
    exact ⟨hle, by omega, hvalid⟩
  · rintro ⟨hle, hlt, hvalid⟩
    exact ⟨⟨hle, by omega⟩, hvalid⟩

/-- The walk has to pass a cut point for the cut to come after it. -/
theorem budgetCutPoint_le {c} (h : CutWithin getTime countTokens entries startIndex endIndex budget c) :
    budgetCutPoint getTime countTokens entries startIndex endIndex budget ≤ c := by
  refine cutPointFor_le pairwise_findValidCutPoints h.cut (h.short.imp_left fun hshort t ht => ?_)
  by_contra hpast
  have hbounds := budgetIndex_bounds ht
  have hstart := (mem_findValidCutPoints.mp h.cut).1
  exact hshort ((le_reached_iff (by omega) (by omega)).mp ⟨t, ht, by omega⟩)

theorem lt_budgetCutPoint {a c} (hc : c ∈ findValidCutPoints entries startIndex endIndex) (hstart : startIndex ≤ a)
    (hac : a < c) (hreach : Reaches getTime countTokens entries endIndex budget (a + 1)) :
    a < budgetCutPoint getTime countTokens entries startIndex endIndex budget := by
  have hend := (mem_findValidCutPoints.mp hc).2.1
  obtain ⟨t, ht, hle⟩ := (le_reached_iff (Nat.le_succ_of_le hstart) (by omega)).mpr hreach
  rw [budgetCutPoint, ht]
  rcases le_cutPointFor pairwise_findValidCutPoints t with hpast | hlast
  · exact Nat.lt_of_lt_of_le hle hpast
  · exact Nat.lt_of_lt_of_le hac (hlast c hc)

theorem cutWithin_budgetCutPoint (h : findValidCutPoints entries startIndex endIndex ≠ []) :
    CutWithin getTime countTokens entries startIndex endIndex budget
      (budgetCutPoint getTime countTokens entries startIndex endIndex budget) := by
  have hcut : budgetCutPoint getTime countTokens entries startIndex endIndex budget ∈
      findValidCutPoints entries startIndex endIndex := cutPointFor_mem h _ _
  refine ⟨hcut, ?_⟩
  by_contra! hnot
  obtain ⟨hreach, c, hc, hlt⟩ := hnot
  exact lt_irrefl _ (lt_budgetCutPoint hc (mem_findValidCutPoints.mp hcut).1 hlt hreach)

theorem isValidCutPoint_of_toolCallIds {entry : SessionEntry ν} {id} (h : id ∈ toolCallIds entry) :
    isValidCutPoint entry = true := by
  obtain ⟨_, _, _, record⟩ := entry
  cases record with
  | message message _ =>
    simp only [toolCallIds] at h
    split_ifs at h with hrole
    · simp only [isValidCutPoint, hrole, Option.any_some]
      decide
    · cases h
  | _ => cases h

theorem firstKeptEntryIndex_of_ne_nil (h : findValidCutPoints entries startIndex endIndex ≠ []) (budget : ℕ∞) :
    (findCutPoint getTime countTokens entries startIndex endIndex budget).firstKeptEntryIndex =
      includeSettings entries startIndex (budgetCutPoint getTime countTokens entries startIndex endIndex budget) := by
  simp only [findCutPoint, List.isEmpty_iff, h, if_false, budgetCutPoint]

/-- The cut for a budget keeps the calls of the results it keeps exactly when every result at or after
a cut point within the budget has its call there too, or so near the end of the range that the tokens
after the call stay below the budget. -/
theorem findCutPoint_keepsCalls_iff (getTime : JsStr → ν) (countTokens : AgentMessage ν → Nat)
    (entries : List (SessionEntry ν)) (startIndex endIndex : Nat) (keepRecentTokens : ℕ∞) : KeepsCalls entries
        (findCutPoint getTime countTokens entries startIndex endIndex keepRecentTokens).firstKeptEntryIndex ↔
      (findValidCutPoints entries startIndex endIndex = [] → KeepsCalls entries startIndex) ∧
      ∀ c r result id, CutWithin getTime countTokens entries startIndex endIndex keepRecentTokens c →
        c ≤ r → entries[r]? = some result → toolResultId result = some id →
        ∃ a call, a < r ∧ entries[a]? = some call ∧ id ∈ toolCallIds call ∧ (c ≤ a ∨ startIndex ≤ a ∧
            ¬ Reaches getTime countTokens entries endIndex keepRecentTokens (a + 1)) := by
  by_cases hempty : findValidCutPoints entries startIndex endIndex = []
  · have hcut : (findCutPoint getTime countTokens entries startIndex endIndex keepRecentTokens).firstKeptEntryIndex =
        startIndex := by simp [findCutPoint, hempty]
    rw [hcut]
    refine ⟨fun hkeeps => ⟨fun _ => hkeeps, fun c _ _ _ hc => ?_⟩, fun h => h.1 hempty⟩
    have hmem := hc.cut
    rw [hempty] at hmem
    cases hmem
  · rw [firstKeptEntryIndex_of_ne_nil hempty, keepsCalls_includeSettings]
    have hwithin := @cutWithin_budgetCutPoint ν entries startIndex endIndex getTime countTokens
      keepRecentTokens hempty
    have hstart := (mem_findValidCutPoints.mp hwithin.cut).1
    have hend := (mem_findValidCutPoints.mp hwithin.cut).2.1
    constructor
    · refine fun hkeeps => ⟨fun h => absurd h hempty, fun c r result id hc hle hresult hid => ?_⟩
      obtain ⟨a, call, hcut, hlt, hcall, hmem⟩ := hkeeps r result id ((budgetCutPoint_le hc).trans hle) hresult hid
      refine ⟨a, call, hlt, hcall, hmem, ?_⟩
      by_contra! hfar
      -- a call that far from the end and before a later cut point is left behind
      exact absurd (lt_budgetCutPoint hc.cut (by omega) hfar.1 (hfar.2 (by omega))) (by omega)
    · intro hnear r result id hle hresult hid
      obtain ⟨a, call, hlt, hcall, hmem, hplace⟩ := hnear.2 _ r result id hwithin hle hresult hid
      refine ⟨a, call, ?_, hlt, hcall, hmem⟩
      rcases hplace with hcut | ⟨hafter, hshort⟩
      · exact hcut
      · by_contra! hbefore
        have hvalid : entries[a]?.any isValidCutPoint = true := by
          rw [hcall, Option.any_some, isValidCutPoint_of_toolCallIds hmem]
        have hcut := budgetCutPoint_le ⟨mem_findValidCutPoints.mpr ⟨hafter, by omega, hvalid⟩, .inl hshort⟩
        omega

end

def interruptedCall : List (SessionEntry Nat) :=
  [⟨lit "1", none, [], .message (.obj [(lit "role", .str (lit "assistant")), (lit "content",
      .arr [.obj [(lit "type", .str (lit "toolCall")), (lit "id", .str (lit "t"))]])]) none⟩,
    ⟨lit "2", some (lit "1"), [], .customMessage ⟨lit "note", .str (lit "hi"), none, true, none⟩ none⟩,
    ⟨lit "3", some (lit "2"), [], .message (.obj [(lit "role", .str (lit "toolResult")),
      (lit "toolCallId", .str (lit "t"))]) none⟩]

/-- The result follows its call, and is kept without it when two messages are to be kept. -/
theorem findCutPoint_separates : KeepsCalls interruptedCall 0 ∧ ¬ KeepsCalls interruptedCall
      (findCutPoint (fun _ => 0) (fun _ => 1) interruptedCall 0 3 2).firstKeptEntryIndex := by
  have hcall : interruptedCall[0]?.map toolCallIds = some [lit "t"] := by decide
  have hcut : (findCutPoint (fun _ => 0) (fun _ => 1) interruptedCall 0 3 2).firstKeptEntryIndex = 1 := by
    decide
  constructor
  · intro r result id _ hresult hid
    have hlast : r = 2 ∧ id = lit "t" := by
      match r with
      | 0 | 1 =>
        cases hresult
        cases hid
      | 2 =>
        cases hresult
        injection hid with hid
        exact ⟨rfl, hid.symm⟩
      | r + 3 => cases hresult
    obtain ⟨call, hat, hids⟩ := Option.map_eq_some_iff.mp hcall
    refine ⟨0, call, le_rfl, by omega, hat, ?_⟩
    rw [hids, hlast.2]
    exact mem_singleton_self _
  · rw [hcut]
    intro hkeeps
    obtain ⟨a, call, hle, hlt, hat, hmem⟩ := hkeeps 2 _ (lit "t") (by decide) rfl rfl
    obtain rfl : a = 1 := by omega
    cases hat
    cases hmem

end GajaeCode.Session
