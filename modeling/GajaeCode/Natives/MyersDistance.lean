import GajaeCode.Text.EditDistance
import GajaeCode.Natives.EditFuzzy

/-! The bit-parallel distance against the dynamic-programming one: both compute the last
cell of the `levenshtein` table over reversed prefixes. -/
namespace GajaeCode.Natives.EditFuzzy
open Text List BitVec MyersPattern

/-- Cells of the row of `a`, for `b` extended one unit at a time. -/
def tableRow (a b : List UInt16) : List UInt16 → List Nat
  | [] => [levenshtein a b]
  | unit :: rest => levenshtein a b :: tableRow a (unit :: b) rest

variable (a b rest : List UInt16)

theorem tableRow_ne_nil : ∃ tail, tableRow a b rest = levenshtein a b :: tail := by
  cases rest with
  | nil => exact ⟨[], rfl⟩
  | cons unit rest => exact ⟨_, rfl⟩

theorem tableRow_last : (tableRow a b rest)[rest.length]? = some (levenshtein a (rest.reverse ++ b)) := by
  induction rest generalizing b with
  | nil => simp [tableRow]
  | cons unit rest ih => simpa [tableRow] using ih (unit :: b)

theorem dpCells_tableRow (aCode : UInt16) (a b rest : List UInt16) : levenshtein (aCode :: a) b ::
        dpCells aCode rest (tableRow a b rest) (levenshtein (aCode :: a) b) = tableRow (aCode :: a) b rest := by
  induction rest generalizing b with
  | nil => rfl
  | cons unit rest ih =>
    obtain ⟨tail, htail⟩ := tableRow_ne_nil a (unit :: b) rest
    have hcell : min (min (levenshtein a (unit :: b) + 1) (levenshtein (aCode :: a) b + 1))
        (levenshtein a b + if aCode != unit then 1 else 0) = levenshtein (aCode :: a) (unit :: b) := by
      rw [levenshtein_cons_cons]
      simp
    rw [tableRow, tableRow, htail, dpCells, ← htail, hcell, ih]

theorem dpRows_tableRow (a : List UInt16) :
    dpRows b rest (a.length + 1) (tableRow a [] b) = tableRow (rest.reverse ++ a) [] b := by
  induction rest generalizing a with
  | nil => rfl
  | cons aCode rest ih =>
    have hrow := dpCells_tableRow aCode a [] b
    rw [levenshtein_nil_right, length_cons] at hrow
    rw [dpRows, hrow]
    simpa using ih (aCode :: a)

theorem tableRow_nil : tableRow [] b rest = List.range' b.length (rest.length + 1) := by
  induction rest generalizing b with
  | nil => simp [tableRow]
  | cons unit rest ih => simp [tableRow, ih, List.range'_succ]

theorem levenshteinDp_eq : levenshteinDp a b = levenshtein a.reverse b.reverse := by
  unfold levenshteinDp
  split
  · next h => simp [h]
  split
  · next h => simp [length_eq_zero_iff.mp h]
  split
  · next h => simp [length_eq_zero_iff.mp h]
  have hstart : List.range (b.length + 1) = tableRow [] [] b := by
    rw [tableRow_nil, List.range_eq_range', length_nil]
  have hrows := dpRows_tableRow b a []
  rw [length_nil] at hrows
  rw [hstart, hrows, getD_eq_getElem?_getD, tableRow_last]
  simp

theorem getLsbD_one_shiftLeft {i} (hi : i < 128) (idx : Nat) : (1#128 <<< idx).getLsbD i = decide (i = idx) := by
  rw [getLsbD_shiftLeft, getLsbD_one]
  grind

theorem getLsbD_insertMasks (units : List UInt16) (idx : Nat) (masks : UInt16 → Option U128)
    (unit : UInt16) {i} (hi : i < 128) : ((insertMasks units idx masks unit).getD 0).getLsbD i =
      (((masks unit).getD 0).getLsbD i || decide (idx ≤ i ∧ units[i - idx]? = some unit)) := by
  induction units generalizing idx masks with
  | nil => simp [insertMasks]
  | cons first units ih =>
    have hget : (idx ≤ i ∧ (first :: units)[i - idx]? = some unit) ↔
        (i = idx ∧ unit = first) ∨ (idx + 1 ≤ i ∧ units[i - (idx + 1)]? = some unit) := by
      rcases Nat.lt_trichotomy i idx with hlt | rfl | hgt
      · omega
      · simp [eq_comm]
      · obtain ⟨k, rfl⟩ := Nat.exists_eq_add_of_lt hgt
        simp [Nat.add_assoc, Nat.add_sub_add_left]
    have hdecide : decide (idx ≤ i ∧ (first :: units)[i - idx]? = some unit) =
        decide ((i = idx ∧ unit = first) ∨
          (idx + 1 ≤ i ∧ units[i - (idx + 1)]? = some unit)) := decide_eq_decide.mpr hget
    rw [insertMasks, ih, hdecide]
    by_cases hunit : unit = first
    · subst hunit
      simp [getLsbD_one_shiftLeft hi, Bool.or_assoc]
    · simp [hunit]

section

variable {pattern : List UInt16}

theorem new_eq (hpos : 0 < pattern.length) : new pattern =
      { units := pattern
        masks := insertMasks pattern 0 fun _ => none
        highBit := 1#128 <<< (pattern.length - 1)
        activeBits :=
          if pattern.length = 128 then allOnes 128 else (1#128 <<< pattern.length) - 1 } :=
  if_neg hpos.ne'

theorem getLsbD_activeBits (hlen : pattern.length ≤ 128) {i} (hi : i < pattern.length) :
    (new pattern).activeBits.getLsbD i = true := by
  rw [new_eq (Nat.zero_lt_of_lt hi)]
  split
  · rw [getLsbD_allOnes, decide_eq_true_eq]
    omega
  · next hne =>
    have hlt : pattern.length < 128 := by omega
    have hpow : 2 ^ pattern.length < 2 ^ 128 := Nat.pow_lt_pow_right (by decide) hlt
    have hone : 1 ≤ 2 ^ pattern.length := Nat.one_le_two_pow
    have hnat : ((1#128 <<< pattern.length) - 1).toNat = 2 ^ pattern.length - 1 := by
      simp [toNat_sub, Nat.shiftLeft_eq]
      omega
    rw [getLsbD, hnat, Nat.testBit_two_pow_sub_one, decide_eq_true_eq]
    exact hi

theorem and_highBit_ne_zero (hlen : pattern.length ≤ 128) (hpos : 0 < pattern.length) (x : U128) :
    x &&& (new pattern).highBit ≠ 0 ↔ x.getLsbD (pattern.length - 1) = true := by
  have hbit : pattern.length - 1 < 128 := by omega
  have hhigh : (new pattern).highBit = twoPow 128 (pattern.length - 1) := by
    rw [new_eq hpos, twoPow]
  have hne : twoPow 128 (pattern.length - 1) ≠ 0#128 := by
    intro hzero
    have hself := congrArg (fun y : U128 => y.getLsbD (pattern.length - 1)) hzero
    simp [hbit] at hself
  rw [hhigh, and_twoPow]
  cases x.getLsbD (pattern.length - 1) <;> simp [hne]

def cellAt (pattern : List UInt16) (i : Nat) (text : List UInt16) : Nat :=
  levenshtein (pattern.take i).reverse text

theorem cellAt_cell {i} (hi : i < pattern.length) (text : List UInt16) (unit : UInt16) :
    Cell (cellAt pattern i text) (cellAt pattern (i + 1) text) (cellAt pattern i (unit :: text))
      (decide (pattern[i]? = some unit)) (cellAt pattern (i + 1) (unit :: text)) := by
  have hcell := levenshtein_cell pattern[i] unit (pattern.take i).reverse text
  have htake : (pattern.take (i + 1)).reverse = pattern[i] :: (pattern.take i).reverse := by
    simp
  simpa [cellAt, htake, hi] using hcell

theorem cellAt_zero (text : List UInt16) : cellAt pattern 0 text = text.length := by
  simp [cellAt]

theorem cellAt_length (text : List UInt16) : cellAt pattern pattern.length text = levenshtein pattern.reverse text := by
  simp [cellAt]

/-- The vectors hold the signs of the vertical differences in the column of `text`, the score
its last cell. -/
structure Column (pattern text : List UInt16) (state : MyersState) : Prop where
  pv : ∀ i, i < pattern.length → state.pv.getLsbD i =
    decide (cellAt pattern (i + 1) text = cellAt pattern i text + 1)
  mv : ∀ i, i < pattern.length → state.mv.getLsbD i =
    decide (cellAt pattern (i + 1) text + 1 = cellAt pattern i text)
  score : state.score = cellAt pattern pattern.length text

section

variable {text : List UInt16} {state : MyersState} {eq : U128} {unit : UInt16}
  (hlen : pattern.length ≤ 128) (h : Column pattern text state)
include hlen h

section

variable (heq : ∀ i, i < 128 → eq.getLsbD i = decide (pattern[i]? = some unit))
include heq

theorem carry_eq {i} (hi : i ≤ pattern.length) : carry i (eq &&& state.pv) state.pv false =
      decide (cellAt pattern i (unit :: text) + 1 = cellAt pattern i text) := by
  induction i with
  | zero =>
    have hlt : text.length + 1 + 1 ≠ text.length := by omega
    simp [cellAt_zero, hlt]
  | succ i ih =>
    have hbit : i < 128 := by omega
    rw [(cellAt_cell hi text unit).right_falls, carry_succ, ih (by omega), getLsbD_and, heq i hbit, h.pv i hi]
    cases decide (pattern[i]? = some unit) <;>
      cases decide (cellAt pattern (i + 1) text = cellAt pattern i text + 1) <;>
      cases decide (cellAt pattern i (unit :: text) + 1 = cellAt pattern i text) <;> rfl

theorem getLsbD_xh {i} (hi : i < pattern.length) : ((((eq &&& state.pv) + state.pv) ^^^ state.pv) ||| eq).getLsbD i =
      (decide (pattern[i]? = some unit) || decide (cellAt pattern i (unit :: text) + 1 = cellAt pattern i text)) := by
  have hbit : i < 128 := by omega
  rw [getLsbD_or, getLsbD_xor, getLsbD_add hbit, carry_eq hlen h heq hi.le, getLsbD_and, heq i hbit]
  cases decide (pattern[i]? = some unit) <;> cases state.pv.getLsbD i <;>
    cases decide (cellAt pattern i (unit :: text) + 1 = cellAt pattern i text) <;> rfl

end

section

variable {xh : U128}
  (hxh : ∀ i, i < pattern.length → xh.getLsbD i = (decide (pattern[i]? = some unit) ||
    decide (cellAt pattern i (unit :: text) + 1 = cellAt pattern i text)))
include hxh

theorem getLsbD_ph {i} (hi : i < pattern.length) : (state.mv ||| ~~~(xh ||| state.pv)).getLsbD i =
      decide (cellAt pattern (i + 1) (unit :: text) = cellAt pattern (i + 1) text + 1) := by
  have hbit : i < 128 := by omega
  rw [(cellAt_cell hi text unit).right_rises, getLsbD_or, getLsbD_not,
    getLsbD_or, hxh i hi, h.pv i hi, h.mv i hi, decide_eq_true hbit, Bool.true_and]

omit hlen in
theorem getLsbD_mh {i} (hi : i < pattern.length) : (state.pv &&& xh).getLsbD i =
      decide (cellAt pattern (i + 1) (unit :: text) + 1 = cellAt pattern (i + 1) text) := by
  rw [(cellAt_cell hi text unit).right_falls, getLsbD_and, hxh i hi, h.pv i hi]

end

variable {ph mh : U128}
  (hph : ∀ i, i < pattern.length → ph.getLsbD i =
    decide (cellAt pattern (i + 1) (unit :: text) = cellAt pattern (i + 1) text + 1))
  (hmh : ∀ i, i < pattern.length → mh.getLsbD i =
    decide (cellAt pattern (i + 1) (unit :: text) + 1 = cellAt pattern (i + 1) text))
include hph

omit h in
/-- Row zero always rises to the right, which is the bit shifted in. -/
theorem getLsbD_ph_shifted {i} (hi : i < pattern.length) : (((ph <<< 1) ||| 1) &&& (new pattern).activeBits).getLsbD i =
      decide (cellAt pattern i (unit :: text) = cellAt pattern i text + 1) := by
  have hbit : i < 128 := by omega
  rw [getLsbD_and, getLsbD_activeBits hlen hi, getLsbD_or, getLsbD_shiftLeft]
  cases i with
  | zero => simp [cellAt_zero]
  | succ i => simp [hph i (by omega), hbit]

include hmh

omit h hph in
theorem getLsbD_mh_shifted {i} (hi : i < pattern.length) : ((mh <<< 1) &&& (new pattern).activeBits).getLsbD i =
      decide (cellAt pattern i (unit :: text) + 1 = cellAt pattern i text) := by
  have hbit : i < 128 := by omega
  rw [getLsbD_and, getLsbD_activeBits hlen hi, getLsbD_shiftLeft]
  cases i with
  | zero =>
    have hne : text.length + 1 + 1 ≠ text.length := by omega
    simp [cellAt_zero, hne]
  | succ i => simp [hmh i (by omega), hbit]

theorem score_step (hpos : 0 < pattern.length) : (if ph &&& (new pattern).highBit ≠ 0 then some (state.score + 1)
      else if mh &&& (new pattern).highBit ≠ 0 then if state.score = 0 then none else some (state.score - 1)
      else some state.score) = some (cellAt pattern pattern.length (unit :: text)) := by
  have hlast : pattern.length - 1 < pattern.length := by omega
  have hsucc : pattern.length - 1 + 1 = pattern.length := by omega
  have hle := levenshtein_cons_right_le unit pattern.reverse text
  have hge := levenshtein_le_cons_right unit pattern.reverse text
  simp only [and_highBit_ne_zero hlen hpos, hph _ hlast, hmh _ hlast, hsucc, decide_eq_true_eq, h.score, cellAt_length]
  split
  · next hrise => rw [hrise]
  split
  · next hfall =>
    rw [if_neg (by omega), ← hfall, Nat.add_sub_cancel]
  · next hrise hfall =>
    congr 1
    omega

omit hph hmh in
theorem advance_column (hpos : 0 < pattern.length) (unit : UInt16) :
    ∃ state', (new pattern).advance state unit = some state' ∧ Column pattern (unit :: text) state' := by
  have heq : ∀ i, i < 128 → (((new pattern).masks unit).getD 0).getLsbD i =
      decide (pattern[i]? = some unit) := by
    intro i hi
    rw [new_eq hpos, getLsbD_insertMasks _ _ _ _ hi]
    simp
  have hxh := fun i hi => getLsbD_xh hlen h heq (i := i) hi
  have hph := fun i hi => getLsbD_ph hlen h hxh (i := i) hi
  have hmh := fun i hi => getLsbD_mh h hxh (i := i) hi
  have hscore := score_step hlen h hph hmh hpos
  refine ⟨_, by rw [advance, hscore, Option.map_some], ?_, ?_, rfl⟩
  · intro i hi
    have hbit : i < 128 := by omega
    rw [(cellAt_cell hi text unit).below_rises, getLsbD_and, getLsbD_activeBits hlen hi,
      Bool.and_true, getLsbD_or, getLsbD_not, getLsbD_or, getLsbD_or,
      getLsbD_mh_shifted hlen hmh hi, getLsbD_ph_shifted hlen hph hi, heq i hbit, h.mv i hi,
      decide_eq_true hbit, Bool.true_and]
  · intro i hi
    have hbit : i < 128 := by omega
    rw [(cellAt_cell hi text unit).below_falls, getLsbD_and, getLsbD_activeBits hlen hi,
      Bool.and_true, getLsbD_and, getLsbD_or, getLsbD_ph_shifted hlen hph hi,
      heq i hbit, h.mv i hi]

end

theorem foldlM_advance (hlen : pattern.length ≤ 128) (hpos : 0 < pattern.length)
    (rest : List UInt16) {text state} (h : Column pattern text state) :
    ∃ state', rest.foldlM (new pattern).advance state = some state' ∧
      Column pattern (rest.reverse ++ text) state' := by
  induction rest generalizing text state with
  | nil => exact ⟨state, rfl, h⟩
  | cons unit rest ih =>
    obtain ⟨next, hnext, hcolumn⟩ := advance_column hlen h hpos unit
    obtain ⟨last, hlast, hend⟩ := ih hcolumn
    refine ⟨last, ?_, by simpa using hend⟩
    rw [foldlM_cons, hnext]
    exact hlast

theorem column_nil (hlen : pattern.length ≤ 128) : Column pattern []
      { score := pattern.length, pv := (new pattern).activeBits, mv := 0 } where
  pv i hi := by
    have hcells : cellAt pattern (i + 1) [] = cellAt pattern i [] + 1 := by
      simp only [cellAt, levenshtein_nil_right, length_reverse, length_take]
      omega
    simp [getLsbD_activeBits hlen hi, hcells]
  mv i hi := by
    have hcells : cellAt pattern (i + 1) [] + 1 ≠ cellAt pattern i [] := by
      simp only [cellAt, levenshtein_nil_right, length_reverse, length_take]
      omega
    simp [hcells]
  score := by simp [cellAt]

end

/-- The bit-parallel distance is the dynamic-programming one; in particular no decrement of the
score underflows. -/
theorem distance_eq_levenshteinDp (pattern text : List UInt16) (hpos : 1 ≤ pattern.length)
    (hlen : pattern.length ≤ 128) : (new pattern).distance text = some (levenshteinDp pattern text) := by
  have hunits : (new pattern).units = pattern := by rw [new_eq hpos]
  obtain ⟨last, hlast, hcolumn⟩ := foldlM_advance hlen hpos text (column_nil hlen)
  rw [distance, hunits]
  dsimp only
  rw [hlast, levenshteinDp_eq]
  split
  · next h => simp [h]
  rw [if_neg (by omega)]
  split
  · next h => simp [List.isEmpty_iff.mp h]
  rw [if_neg (by omega), Option.map_some, hcolumn.score, cellAt_length, append_nil]

theorem distance_eq_levenshteinDp_kitten : (1 ≤ (lit "kitten").length ∧ (lit "kitten").length ≤ 128) ∧
      (new (lit "kitten")).distance (lit "sitting") = some (levenshteinDp (lit "kitten") (lit "sitting")) :=
  ⟨by decide, distance_eq_levenshteinDp (lit "kitten") (lit "sitting") (by decide) (by decide)⟩

end GajaeCode.Natives.EditFuzzy
