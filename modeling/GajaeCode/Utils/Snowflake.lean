import GajaeCode.Text.JsString

/-! Snowflakes: sixteen hexadecimal digits for a time and a sequence number. -/
namespace GajaeCode.Utils

open Text List

/-! ### The numbers of JavaScript -/

def toInt32 (x : Int) : BitVec 32 := .ofInt 32 x

def shiftLeft (x : Int) (n : Nat) : Int := (toInt32 x <<< n).toInt

def bitOr (x y : Int) : Int := (toInt32 x ||| toInt32 y).toInt

def bitAnd (x y : Int) : Int := (toInt32 x &&& toInt32 y).toInt

/-- `>>>`. -/
def shiftRight (x : Int) (n : Nat) : Int := (toInt32 x >>> n).toNat

def hexUnit (digit : Nat) : UInt16 := UInt16.ofNat digit.digitChar.toNat

def hexValue (u : UInt16) : Option Nat :=
  if 48 ≤ u ∧ u ≤ 57 then some (u.toNat - 48)
  else if 97 ≤ u ∧ u ≤ 102 then some (u.toNat - 87)
  else if 65 ≤ u ∧ u ≤ 70 then some (u.toNat - 55)
  else none

def signed : JsStr → Int × JsStr
  | 45 :: text => (-1, text)
  | 43 :: text => (1, text)
  | text => (1, text)

def dropHexMark : JsStr → JsStr
  | 48 :: 120 :: text => text
  | 48 :: 88 :: text => text
  | text => text

/-- `Number.parseInt(text, 16)`; none is not a number. -/
def parseInt (text : JsStr) : Option Int :=
  let (sign, text) := signed (trimStart text)
  let values := ((dropHexMark text).takeWhile fun u => (hexValue u).isSome).filterMap hexValue
  if values = [] then none else some (sign * (values.foldl (fun value digit => 16 * value + digit) 0 : Nat))

/-! ### Snowflakes -/

def epoch : Int := 1420070400000

def maxSeq : Int := 0x3fffff

/-- `HEX4[i]`. -/
def hex4 (i : Int) : JsStr := ((Nat.toDigits 16 i.toNat).map fun c => UInt16.ofNat c.toNat).leftpad 4 48

def toBigInt (value : JsStr) : Option Int := do
  let hi ← parseInt (value.take 8)
  let lo ← parseInt ((value.drop 8).take 8)
  return Int.lor (hi * 2 ^ 32) lo

def formatParts (dt seq : Int) : JsStr :=
  let dtLo := dt.tmod 1024
  let hi := (dt - dtLo) / 1024
  let lo := shiftRight (bitOr (shiftLeft dtLo 22) seq) 0
  let hi1 := bitAnd (shiftRight hi 16) 0xffff
  let hi2 := bitAnd hi 0xffff
  let lo1 := bitAnd (shiftRight lo 16) 0xffff
  let lo2 := bitAnd lo 0xffff
  hex4 hi1 ++ hex4 hi2 ++ hex4 lo1 ++ hex4 lo2

def getSequence (value : JsStr) : Int := bitAnd ((parseInt ((value.drop 8).take 8)).getD 0) maxSeq

def getTimestamp (value : JsStr) : Option Int := (toBigInt value).map fun n => n / 2 ^ 22 + epoch

/-! ### Numbers of a fixed width -/

def fixedHex : Nat → Nat → JsStr
  | 0, _ => []
  | width + 1, n => fixedHex width (n / 16) ++ [hexUnit (n % 16)]

variable {width n m : Nat}

theorem length_fixedHex (width n : Nat) : (fixedHex width n).length = width := by
  induction width generalizing n with
  | zero => rfl
  | succ width ih => rw [fixedHex, length_append, ih, length_singleton]

theorem fixedHex_add (high low n : Nat) : fixedHex (high + low) n = fixedHex high (n / 16 ^ low) ++ fixedHex low n := by
  induction low generalizing n with
  | zero => simp [fixedHex]
  | succ low ih => rw [← Nat.add_assoc, fixedHex, ih, fixedHex, append_assoc, Nat.div_div_eq_div_mul, Nat.pow_succ']

theorem fixedHex_mod (width n : Nat) : fixedHex width (n % 16 ^ width) = fixedHex width n := by
  induction width generalizing n with
  | zero => rfl
  | succ width ih =>
    rw [fixedHex, fixedHex, ← ih (n / 16), Nat.pow_succ', Nat.mod_mul_right_div_self, Nat.mod_mul_right_mod]

theorem leftpad_toDigits (h : n < 16 ^ (width + 1)) :
    ((Nat.toDigits 16 n).map fun c => UInt16.ofNat c.toNat).leftpad (width + 1) 48 = fixedHex (width + 1) n := by
  have hsmall : ∀ {n}, n < 16 → (Nat.toDigits 16 n).map (fun c => UInt16.ofNat c.toNat) = [hexUnit (n % 16)] := by
    intro n hn
    rw [Nat.toDigits_of_lt_base hn, Nat.mod_eq_of_lt hn]
    rfl
  induction width generalizing n with
  | zero =>
    rw [hsmall (by omega)]
    rfl
  | succ width ih =>
    rw [fixedHex]
    by_cases hn : n < 16
    · rw [← ih (by rw [Nat.div_eq_of_lt hn]; positivity), Nat.div_eq_of_lt hn, hsmall hn, hsmall (by omega)]
      simp [leftpad, replicate_succ', hexUnit, Nat.digitChar]
    · rw [← ih (Nat.div_lt_of_lt_mul (by rwa [← Nat.pow_succ'])),
        Nat.toDigits_of_base_le (by decide) (by omega), map_append]
      simp [leftpad, hexUnit]

theorem hexUnit_spec : ∀ d < 16, hexValue (hexUnit d) = some d ∧ isJsWhitespace (hexUnit d) = false ∧
    hexUnit d ∉ [45, 43, 88, 120] ∧ ∀ e < 16, hexUnit d < hexUnit e ↔ d < e := by
  decide

theorem mem_fixedHex {u} (h : u ∈ fixedHex width n) : ∃ d < 16, u = hexUnit d := by
  induction width generalizing n with
  | zero => cases h
  | succ width ih =>
    rcases mem_append.mp h with h | h
    · exact ih h
    · exact ⟨n % 16, Nat.mod_lt _ (by decide), mem_singleton.mp h⟩

theorem foldl_fixedHex (width n : Nat) :
    ((fixedHex width n).filterMap hexValue).foldl (fun value digit => 16 * value + digit) 0 = n % 16 ^ width := by
  induction width generalizing n with
  | zero => simp [fixedHex, Nat.mod_one]
  | succ width ih =>
    rw [fixedHex, filterMap_append, foldl_append, ih, filterMap_cons_some (hexUnit_spec _ (Nat.mod_lt _ (by decide))).1,
      Nat.pow_succ', Nat.mod_mul, Nat.add_comm]
    rfl

theorem parseInt_fixedHex (width n : Nat) :
    parseInt (fixedHex (width + 1) n) = some ((n % 16 ^ (width + 1) : Nat) : Int) := by
  have hvalue := foldl_fixedHex (width + 1) n
  have hlength := length_fixedHex (width + 1) n
  have hunits : ∀ u ∈ fixedHex (width + 1) n, (hexValue u).isSome = true ∧ isJsWhitespace u = false ∧
      u ∉ [45, 43, 88, 120] := by
    intro u hu
    obtain ⟨d, hd, rfl⟩ := mem_fixedHex hu
    obtain ⟨hvalue, hblank, hmark, -⟩ := hexUnit_spec d hd
    exact ⟨by rw [hvalue]; rfl, hblank, hmark⟩
  generalize fixedHex (width + 1) n = text at *
  have htrim : trimStart text = text := by
    cases text with
    | nil => rfl
    | cons u rest => exact dropWhile_cons_of_neg (by simp [(hunits u mem_cons_self).2.1])
  have hsigned : signed text = (1, text) := by
    unfold signed
    split
    · exact absurd (hunits 45 mem_cons_self).2.2 (by decide)
    · exact absurd (hunits 43 mem_cons_self).2.2 (by decide)
    · rfl
  have hmark : dropHexMark text = text := by
    unfold dropHexMark
    split
    · exact absurd (hunits 120 (by simp)).2.2 (by decide)
    · exact absurd (hunits 88 (by simp)).2.2 (by decide)
    · rfl
  have htake : text.takeWhile (fun u => (hexValue u).isSome) = text :=
    takeWhile_eq_self_iff.mpr fun u hu => (hunits u hu).1
  have hne : text.filterMap hexValue ≠ [] := by
    cases text with
    | nil => cases hlength
    | cons u rest =>
      obtain ⟨value, hu⟩ := Option.isSome_iff_exists.mp (hunits u mem_cons_self).1
      simp [filterMap_cons_some hu]
  simp only [parseInt, htrim, hsigned, hmark, htake, if_neg hne, hvalue, one_mul]

theorem concat_lt_concat_iff {a b : JsStr} (h : a.length = b.length) (u v : UInt16) :
    a ++ [u] < b ++ [v] ↔ a < b ∨ a = b ∧ u < v := by
  induction a generalizing b with
  | nil =>
    obtain rfl := length_eq_zero_iff.mp h.symm
    simp [cons_lt_cons_iff]
  | cons x a ih =>
    cases b with
    | nil => cases h
    | cons y b =>
      simp only [cons_append, cons_lt_cons_iff, ih (Nat.succ.inj h), cons.injEq]
      tauto

theorem fixedHex_lt_iff (hm : m < 16 ^ width) (hn : n < 16 ^ width) : fixedHex width m < fixedHex width n ↔ m < n := by
  induction width generalizing m n with
  | zero => simp [fixedHex]; omega
  | succ width ih =>
    have hdiv : ∀ {k}, k < 16 ^ (width + 1) → k / 16 < 16 ^ width := fun hk =>
      Nat.div_lt_of_lt_mul (by rwa [← Nat.pow_succ'])
    have heq : fixedHex width (m / 16) = fixedHex width (n / 16) ↔ m / 16 = n / 16 := by
      constructor
      · intro h
        have hlt := (ih (hdiv hm) (hdiv hn)).not.mp (by simp [h])
        have hgt := (ih (hdiv hn) (hdiv hm)).not.mp (by simp [h])
        omega
      · intro h
        rw [h]
    rw [fixedHex, fixedHex, concat_lt_concat_iff (by rw [length_fixedHex, length_fixedHex]), ih (hdiv hm) (hdiv hn), heq,
      (hexUnit_spec _ (Nat.mod_lt m (by decide))).2.2.2 _ (Nat.mod_lt n (by decide))]
    omega

/-! ### The bits -/

theorem toNat_toInt32 (x : Nat) : (toInt32 x).toNat = x % 2 ^ 32 := by
  rw [toInt32, BitVec.ofInt_natCast, BitVec.toNat_ofNat]

theorem bitAnd_mask {k} (hk : k < 32) (x : Nat) : bitAnd x (2 ^ k - 1 : Nat) = (x % 2 ^ k : Nat) := by
  have hmask : 2 ^ k ≤ 2 ^ 31 := Nat.pow_le_pow_right (by decide) (by omega)
  have hdvd : 2 ^ k ∣ 2 ^ 32 := pow_dvd_pow 2 hk.le
  have hnat : (toInt32 x &&& toInt32 (2 ^ k - 1 : Nat)).toNat = x % 2 ^ k := by
    rw [BitVec.toNat_and, toNat_toInt32, toNat_toInt32, Nat.mod_eq_of_lt (by omega : 2 ^ k - 1 < 2 ^ 32),
      Nat.and_two_pow_sub_one_eq_mod, Nat.mod_mod_of_dvd _ hdvd]
  have hlt : x % 2 ^ k < 2 ^ k := Nat.mod_lt _ (by positivity)
  rw [bitAnd, BitVec.toInt_eq_toNat_of_lt (by rw [hnat]; omega), hnat]

theorem shiftRight_natCast {x : Nat} (hx : x < 2 ^ 32) (k : Nat) : shiftRight x k = (x / 2 ^ k : Nat) := by
  rw [shiftRight, BitVec.toNat_ushiftRight, toNat_toInt32, Nat.mod_eq_of_lt hx, Nat.shiftRight_eq_div_pow]

theorem hex4_natCast {i : Nat} (hi : i < 16 ^ 4) : hex4 i = fixedHex 4 i := leftpad_toDigits hi

variable {dt seq : Nat}

theorem low_word (hdt : dt < 2 ^ 10) (hseq : seq < 2 ^ 22) :
    shiftRight (bitOr (shiftLeft dt 22) seq) 0 = (dt * 2 ^ 22 + seq : Nat) := by
  have htoInt : ∀ b : BitVec 32, toInt32 b.toInt = b := fun b => BitVec.ofInt_toInt
  rw [shiftRight, bitOr, shiftLeft, htoInt, htoInt, BitVec.toNat_ushiftRight, Nat.shiftRight_zero, BitVec.toNat_or,
    BitVec.toNat_shiftLeft, toNat_toInt32, toNat_toInt32, Nat.mod_eq_of_lt (by omega : dt < 2 ^ 32),
    Nat.mod_eq_of_lt (by omega : seq < 2 ^ 32), Nat.mod_eq_of_lt (by rw [Nat.shiftLeft_eq]; omega),
    ← Nat.shiftLeft_add_eq_or_of_lt hseq, Nat.shiftLeft_eq]

section

variable (hdt : dt < 2 ^ 42) (hseq : seq < 2 ^ 22)
include hdt hseq

theorem formatParts_eq : formatParts dt seq = fixedHex 16 (dt * 2 ^ 22 + seq) := by
  have hdtLo : (dt : Int).tmod 1024 = (dt % 1024 : Nat) := by
    rw [Int.tmod_eq_emod_of_nonneg (by omega)]
    rfl
  have hhi : ((dt : Int) - (dt % 1024 : Nat)) / 1024 = (dt / 1024 : Nat) := by omega
  have hpow : 2 ^ 16 = 16 ^ 4 := rfl
  have hdigits : ∀ x : Nat, hex4 (bitAnd x 0xffff) = fixedHex 4 x := by
    intro x
    have hmask := bitAnd_mask (by decide : 16 < 32) x
    rw [hpow] at hmask
    exact (congrArg hex4 hmask).trans ((hex4_natCast (Nat.mod_lt _ (by decide))).trans (fixedHex_mod 4 x))
  have hhigh : dt / 1024 = (dt * 2 ^ 22 + seq) / 16 ^ 8 := by omega
  have hlow : dt % 1024 * 2 ^ 22 + seq = (dt * 2 ^ 22 + seq) % 16 ^ 8 := by omega
  simp only [formatParts, hdtLo, hhi]
  rw [low_word (by omega) hseq, shiftRight_natCast (by omega), shiftRight_natCast (by omega), hdigits, hdigits, hdigits,
    hdigits, hpow, ← fixedHex_add 4 4, append_assoc, ← fixedHex_add 4 4, hlow, fixedHex_mod, hhigh, ← fixedHex_add 8 8]

theorem parseInt_formatParts : parseInt ((formatParts dt seq).take 8) = some ((dt / 1024 : Nat) : Int) ∧
    parseInt (((formatParts dt seq).drop 8).take 8) = some (((dt * 2 ^ 22 + seq) % 2 ^ 32 : Nat) : Int) := by
  have hlength := length_fixedHex 8
  rw [formatParts_eq hdt hseq, fixedHex_add 8 8, take_left' (hlength _), drop_left' (hlength _),
    take_of_length_le (hlength _).le, parseInt_fixedHex, parseInt_fixedHex]
  constructor
  · congr 2
    omega
  · rfl

theorem getSequence_formatParts : getSequence (formatParts dt seq) = seq := by
  have hmask := bitAnd_mask (by decide : 22 < 32) ((dt * 2 ^ 22 + seq) % 2 ^ 32)
  rw [getSequence, (parseInt_formatParts hdt hseq).2]
  refine hmask.trans ?_
  omega

theorem getTimestamp_formatParts : getTimestamp (formatParts dt seq) = some (dt + epoch) := by
  obtain ⟨hhi, hlo⟩ := parseInt_formatParts hdt hseq
  have hor : Int.lor ((dt / 1024 : Nat) * 2 ^ 32) ((dt * 2 ^ 22 + seq) % 2 ^ 32 : Nat) = (dt * 2 ^ 22 + seq : Nat) := by
    show ((dt / 1024 * 2 ^ 32 ||| (dt * 2 ^ 22 + seq) % 2 ^ 32 : Nat) : Int) = _
    rw [← Nat.shiftLeft_eq, ← Nat.shiftLeft_add_eq_or_of_lt (Nat.mod_lt _ (by decide)), Nat.shiftLeft_eq]
    omega
  rw [getTimestamp, toBigInt, hhi, hlo]
  simp only [Option.bind_eq_bind, Option.bind_some, hor, Option.pure_def, Option.map_some, Option.some.injEq]
  omega

/-- A snowflake gives back its parts, and snowflakes are ordered as their parts are. -/
theorem formatParts_faithful : getTimestamp (formatParts dt seq) = some (dt + epoch) ∧
    getSequence (formatParts dt seq) = seq ∧ ∀ dt' seq' : Nat, dt' < 2 ^ 42 → seq' < 2 ^ 22 →
      (formatParts dt seq < formatParts dt' seq' ↔ dt < dt' ∨ dt = dt' ∧ seq < seq') := by
  refine ⟨getTimestamp_formatParts hdt hseq, getSequence_formatParts hdt hseq, ?_⟩
  intro dt' seq' hdt' hseq'
  rw [formatParts_eq hdt hseq, formatParts_eq hdt' hseq', fixedHex_lt_iff (by omega) (by omega)]
  omega

end

theorem formatParts_faithful_max :
    getTimestamp (formatParts (2 ^ 42 - 1 : Nat) (2 ^ 22 - 1 : Nat)) = some ((2 ^ 42 - 1 : Nat) + epoch) ∧
      formatParts (0 : Nat) (2 ^ 22 - 1 : Nat) < formatParts (1 : Nat) (0 : Nat) :=
  ⟨(formatParts_faithful (by decide) (by decide)).1,
    ((formatParts_faithful (by decide) (by decide)).2.2 1 0 (by decide) (by decide)).mpr (by decide)⟩

end GajaeCode.Utils
