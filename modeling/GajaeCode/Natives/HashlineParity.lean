import GajaeCode.Natives.Hashline
import GajaeCode.Text.Pattern
import GajaeCode.Text.XxHash32

/-! Parity of the native hashline formatter with the loop in `hash.ts`. The two differ in
when carriage returns are dropped: before decoding in the loop, during it in the scan. -/
namespace GajaeCode.Natives.Hashline
open Text List
open GajaeCode.Hashline (bigrams computeLineHash formatHashLine formatHashLines)

theorem hlBigrams_eq : hlBigrams = bigrams := rfl

theorem hlBigrams_length : hlBigrams.length = 647 := GajaeCode.Hashline.bigrams_length

theorem or_lead {lead n} (k : Nat) (hlead : 2 ^ k ∣ lead) (hn : n < 2 ^ k) : lead ||| n = n + lead := by
  obtain ⟨a, rfl⟩ := hlead
  rw [← Nat.two_pow_add_eq_or_of_lt hn, Nat.add_comm]

variable (xxHash32 : List UInt8 → UInt32) (n : Nat)

theorem or_tail : 128 ||| (n &&& 63) = n % 64 + 128 := by
  rw [show n &&& 63 = n % 64 from Nat.and_two_pow_sub_one_eq_mod n 6]
  exact or_lead 7 (by decide) (by omega)

variable {u v : UInt16} {line rest : JsStr}

theorem pushUtf8CodeUnit_eq (h : isSurrogate u = false) :
    pushUtf8CodeUnit u = String.utf8EncodeChar (Char.ofNat u.toNat) := by
  have hlt : u.toNat < 65536 := u.toNat_lt
  have hsur : ¬ (0xd800 ≤ u.toNat ∧ u.toNat ≤ 0xdfff) := by
    simpa [isSurrogate, UInt16.le_iff_toNat_le] using h
  have hv : (Char.ofNat u.toNat).val.toNat = u.toNat := by
    apply toNat_charOfNat
    omega
  have hhi : (u >>> 12).toNat = u.toNat / 4096 := by simp [Nat.shiftRight_eq_div_pow]
  have hmid : (u >>> 6).toNat = u.toNat / 64 := by simp [Nat.shiftRight_eq_div_pow]
  unfold pushUtf8CodeUnit String.utf8EncodeChar
  simp only [hv, ← UInt8.ofNat_uInt16ToNat, UInt16.toNat_or, UInt16.toNat_and, hhi, hmid,
    UInt16.lt_iff_toNat_lt, UInt16.reduceToNat, or_tail]
  by_cases h1 : u.toNat < 128
  · have h1' : u.toNat ≤ 127 := by omega
    rw [if_pos h1, if_pos h1']
  · have h1' : ¬ u.toNat ≤ 127 := by omega
    rw [if_neg h1, if_neg h1']
    by_cases h2 : u.toNat < 2048
    · have h2' : u.toNat ≤ 2047 := by omega
      have hlead : u.toNat / 64 < 32 := by omega
      rw [if_pos h2, if_pos h2', or_lead 6 (by decide) (by omega), Nat.mod_eq_of_lt hlead]
    · have h2' : ¬ u.toNat ≤ 2047 := by omega
      have h3' : u.toNat ≤ 65535 := by omega
      have hlead : u.toNat / 4096 < 16 := by omega
      rw [if_neg h2, if_neg h2', if_pos h3', or_lead 4 (by decide) hlead, Nat.mod_eq_of_lt hlead]

theorem loneBytes_eq (u : UInt16) : loneBytes u = String.utf8EncodeChar (unitScalar u) := by
  unfold loneBytes unitScalar
  change (if isSurrogate u = true then _ else _) = _
  by_cases h : isSurrogate u = true
  · simp only [h, if_true]
    decide
  · rw [if_neg h, if_neg h]
    exact pushUtf8CodeUnit_eq (by simpa using h)

theorem pushScalar_eq {s} (hlow : 0x10000 ≤ s.toNat) (hhigh : s.toNat < 0x110000) :
    pushScalar s = String.utf8EncodeChar (Char.ofNat s.toNat) := by
  have hv : (Char.ofNat s.toNat).val.toNat = s.toNat := by
    apply toNat_charOfNat
    omega
  have h3 : (s >>> 18).toNat = s.toNat / 262144 := by simp [Nat.shiftRight_eq_div_pow]
  have h2 : (s >>> 12).toNat = s.toNat / 4096 := by simp [Nat.shiftRight_eq_div_pow]
  have h1 : (s >>> 6).toNat = s.toNat / 64 := by simp [Nat.shiftRight_eq_div_pow]
  unfold pushScalar String.utf8EncodeChar
  simp only [hv, ← UInt8.ofNat_uInt32ToNat, UInt32.toNat_or, UInt32.toNat_and, h1, h2, h3, UInt32.reduceToNat, or_tail]
  have hlead : s.toNat / 262144 < 8 := by omega
  rw [if_neg (by omega), if_neg (by omega), if_neg (by omega), or_lead 4 (by decide) (by omega), Nat.mod_eq_of_lt hlead]

theorem toNat_pairScalarValue (hu : isHighSurrogate u = true) (hv : isLowSurrogate v = true) :
    (pairScalarValue u v).toNat = 0x10000 + (u.toNat - 0xd800) * 0x400 + (v.toNat - 0xdc00) := by
  simp only [isHighSurrogate, isLowSurrogate, Bool.and_eq_true, decide_eq_true_eq] at hu hv
  have hu' : u.toNat ≤ 0xdbff := hu.2
  have hv' : v.toNat ≤ 0xdfff := hv.2
  have hor : (u.toNat - 0xd800) * 0x400 ||| (v.toNat - 0xdc00) =
      (v.toNat - 0xdc00) + (u.toNat - 0xd800) * 0x400 :=
    or_lead 10 ⟨u.toNat - 0xd800, by ring⟩ (by omega)
  unfold pairScalarValue
  simp only [UInt32.toNat_add, UInt32.toNat_or, UInt32.toNat_shiftLeft, UInt16.toNat_toUInt32,
    UInt16.toNat_sub_of_le _ _ hu.1, UInt16.toNat_sub_of_le _ _ hv.1, UInt32.reduceToNat,
    UInt16.reduceToNat, Nat.shiftLeft_eq]
  rw [Nat.mod_eq_of_lt (a := (u.toNat - 55296) * 1024) (by omega)]
  omega

theorem pushScalar_pair (hu : isHighSurrogate u = true) (hv : isLowSurrogate v = true) :
    pushScalar (pairScalarValue u v) = String.utf8EncodeChar (pairScalar u v) := by
  have hs := toNat_pairScalarValue hu hv
  have hu' : u.toNat ≤ 0xdbff := by
    simp only [isHighSurrogate, Bool.and_eq_true, decide_eq_true_eq] at hu
    exact hu.2
  have hv' : v.toNat ≤ 0xdfff := by
    simp only [isLowSurrogate, Bool.and_eq_true, decide_eq_true_eq] at hv
    exact hv.2
  rw [pushScalar_eq (by omega) (by omega), hs]
  rfl

/-- A carriage return stands between the two halves of a surrogate pair. -/
def BreaksPair (line : JsStr) : Prop :=
  ∃ pre hi n lo post, isHighSurrogate hi = true ∧ isLowSurrogate lo = true ∧
    line = pre ++ hi :: (replicate (n + 1) CR ++ lo :: post)

def withoutCr (line : JsStr) : JsStr := line.filter (· != CR)

@[simp] theorem withoutCr_nil : withoutCr [] = [] := rfl

@[simp] theorem withoutCr_cr (line : JsStr) : withoutCr (CR :: line) = withoutCr line := by
  simp [withoutCr]

theorem withoutCr_cons (hu : u ≠ CR) (line : JsStr) : withoutCr (u :: line) = u :: withoutCr line := by
  simp [withoutCr, hu]

theorem head_withoutCr (h : withoutCr line = v :: rest) : ∃ n post, line = replicate n CR ++ v :: post := by
  induction line with
  | nil => simp at h
  | cons u line ih =>
    by_cases hu : u = CR
    · subst hu
      obtain ⟨n, post, rfl⟩ := ih h
      exact ⟨n + 1, post, by simp [replicate_succ]⟩
    · rw [withoutCr_cons hu] at h
      obtain ⟨rfl, -⟩ := List.cons.inj h
      exact ⟨0, line, by simp⟩

theorem high_ne_cr (h : isHighSurrogate u = true) : u ≠ CR := by
  rintro rfl
  exact absurd h (by decide)

theorem low_ne_cr (h : isLowSurrogate u = true) : u ≠ CR := by
  rintro rfl
  exact absurd h (by decide)

theorem breaksPair_cons_iff : BreaksPair (u :: line) ↔ BreaksPair line ∨ isHighSurrogate u = true ∧
      ∃ n lo post, isLowSurrogate lo = true ∧ line = replicate (n + 1) CR ++ lo :: post := by
  constructor
  · rintro ⟨pre, hi, n, lo, post, hhi, hlo, heq⟩
    cases pre with
    | nil =>
      obtain ⟨rfl, rfl⟩ := List.cons.inj heq
      exact .inr ⟨hhi, n, lo, post, hlo, rfl⟩
    | cons x pre =>
      obtain ⟨rfl, rfl⟩ := List.cons.inj heq
      exact .inl ⟨pre, hi, n, lo, post, hhi, hlo, rfl⟩
  · rintro (⟨pre, hi, n, lo, post, hhi, hlo, rfl⟩ | ⟨hu, n, lo, post, hlo, rfl⟩)
    · exact ⟨u :: pre, hi, n, lo, post, hhi, hlo, rfl⟩
    · exact ⟨[], u, n, lo, post, hu, hlo, rfl⟩

theorem pushJsUtf8WithoutCr_pair (hu : isHighSurrogate u = true) (hv : isLowSurrogate v = true)
    (rest : JsStr) : pushJsUtf8WithoutCr (u :: v :: rest) =
      String.utf8EncodeChar (pairScalar u v) ++ pushJsUtf8WithoutCr rest := by
  rw [pushJsUtf8WithoutCr, if_neg (high_ne_cr hu), ← pushScalar_pair hu hv]
  exact if_pos (by rw [Bool.and_eq_true]; exact ⟨hu, hv⟩)

theorem pushJsUtf8WithoutCr_cr (line : JsStr) : pushJsUtf8WithoutCr (CR :: line) = pushJsUtf8WithoutCr line := by
  cases line with
  | nil => simp [pushJsUtf8WithoutCr]
  | cons v line => simp [pushJsUtf8WithoutCr]

theorem pushJsUtf8WithoutCr_single (hu : u ≠ CR)
    (h : isHighSurrogate u = true → ∀ v ∈ line.head?, isLowSurrogate v = false) :
    pushJsUtf8WithoutCr (u :: line) = String.utf8EncodeChar (unitScalar u) ++ pushJsUtf8WithoutCr line := by
  cases line with
  | nil => simp [pushJsUtf8WithoutCr, hu, loneBytes_eq]
  | cons v line =>
    rw [pushJsUtf8WithoutCr, if_neg hu, ← loneBytes_eq]
    refine if_neg ?_
    change ¬ (isHighSurrogate u && isLowSurrogate v) = true
    rw [Bool.and_eq_true]
    rintro ⟨hhi, hlo⟩
    simp [h hhi v (by simp)] at hlo

/-- What the scan of a line owes to the encoding of the line without carriage returns: the
same bytes unless a pair is broken, and then strictly more. -/
structure ScanSpec (line : JsStr) : Prop where
  agree : ¬ BreaksPair line → pushJsUtf8WithoutCr line = encodeUtf8 (withoutCr line)
  le : (encodeUtf8 (withoutCr line)).length ≤ (pushJsUtf8WithoutCr line).length
  lt : BreaksPair line → (encodeUtf8 (withoutCr line)).length < (pushJsUtf8WithoutCr line).length

theorem ScanSpec.nil : ScanSpec [] := by
  refine ⟨fun _ => rfl, le_refl _, ?_⟩
  rintro ⟨pre, hi, n, lo, post, -, -, heq⟩
  simp at heq

theorem ScanSpec.extend (h : ScanSpec rest) (bytes : List UInt8)
    (hpush : pushJsUtf8WithoutCr line = bytes ++ pushJsUtf8WithoutCr rest)
    (hencode : encodeUtf8 (withoutCr line) = bytes ++ encodeUtf8 (withoutCr rest))
    (hbreak : BreaksPair line ↔ BreaksPair rest) : ScanSpec line := by
  constructor
  · intro hn
    rw [hpush, hencode, h.agree (fun hb => hn (hbreak.mpr hb))]
  · rw [hpush, hencode, length_append, length_append]
    exact Nat.add_le_add_left h.le _
  · intro hb
    rw [hpush, hencode, length_append, length_append]
    exact Nat.add_lt_add_left (h.lt (hbreak.mp hb)) _

theorem ScanSpec.cr (h : ScanSpec line) : ScanSpec (CR :: line) := by
  refine h.extend [] (pushJsUtf8WithoutCr_cr line) (by simp) ?_
  rw [breaksPair_cons_iff]
  exact or_iff_left (fun hb => high_ne_cr hb.1 rfl)

theorem ScanSpec.pair (hhi : isHighSurrogate u = true) (hlo : isLowSurrogate v = true)
    (h : ScanSpec rest) : ScanSpec (u :: v :: rest) := by
  refine h.extend _ (pushJsUtf8WithoutCr_pair hhi hlo rest) ?_ ?_
  · rw [withoutCr_cons (high_ne_cr hhi), withoutCr_cons (low_ne_cr hlo), encodeUtf8_pair hhi hlo]
  · rw [breaksPair_cons_iff, breaksPair_cons_iff]
    simp only [not_high_of_low hlo, Bool.false_eq_true, false_and, or_false]
    refine or_iff_left ?_
    rintro ⟨-, n, lo, post, -, heq⟩
    exact low_ne_cr hlo (List.cons.inj heq).1

theorem ScanSpec.single (hu : u ≠ CR) (hnext : isHighSurrogate u = true → ∀ v ∈ line.head?, isLowSurrogate v = false)
    (hkeep : isHighSurrogate u = true → ∀ v ∈ (withoutCr line).head?, isLowSurrogate v = false)
    (h : ScanSpec line) : ScanSpec (u :: line) := by
  refine h.extend _ (pushJsUtf8WithoutCr_single hu hnext) ?_ ?_
  · rw [withoutCr_cons hu, encodeUtf8_single hkeep]
  · rw [breaksPair_cons_iff]
    refine or_iff_left ?_
    rintro ⟨hhi, n, lo, post, hlo, rfl⟩
    have hlow := hkeep hhi lo (by simp [withoutCr, low_ne_cr hlo])
    simp [hlo] at hlow

theorem length_pair (hhi : isHighSurrogate u = true) (hlo : isLowSurrogate v = true) :
    (String.utf8EncodeChar (pairScalar u v)).length = 4 := by
  rw [← pushScalar_pair hhi hlo]
  rfl

theorem length_lone (h : isSurrogate u = true) : (String.utf8EncodeChar (unitScalar u)).length = 3 := by
  have hb : loneBytes u = [0xef, 0xbf, 0xbd] := if_pos h
  rw [← loneBytes_eq, hb]
  rfl

theorem ScanSpec.broken (hhi : isHighSurrogate u = true) (hlo : isLowSurrogate v = true)
    (hrest : withoutCr line = v :: rest)
    (hnext : isHighSurrogate u = true → ∀ v ∈ line.head?, isLowSurrogate v = false)
    (h : ScanSpec line) : ScanSpec (u :: line) := by
  have hbreak : BreaksPair (u :: line) := by
    obtain ⟨n, post, rfl⟩ := head_withoutCr hrest
    cases n with
    | zero => simp [hnext hhi v (by simp)] at hlo
    | succ n => exact breaksPair_cons_iff.mpr (.inr ⟨hhi, n, v, post, hlo, rfl⟩)
  have hsingle : encodeUtf8 (v :: rest) = String.utf8EncodeChar (unitScalar v) ++ encodeUtf8 rest :=
    encodeUtf8_single (fun hv => by simp [not_high_of_low hlo] at hv)
  have hle := h.le
  have hlt : (encodeUtf8 (withoutCr (u :: line))).length < (pushJsUtf8WithoutCr (u :: line)).length := by
    rw [hrest, hsingle, length_append, length_lone (surrogate_of_low hlo)] at hle
    rw [withoutCr_cons (high_ne_cr hhi), hrest, encodeUtf8_pair hhi hlo,
      pushJsUtf8WithoutCr_single (high_ne_cr hhi) hnext, length_append, length_append,
      length_pair hhi hlo, length_lone (surrogate_of_high hhi)]
    omega
  exact ⟨fun hn => absurd hbreak hn, le_of_lt hlt, fun _ => hlt⟩

theorem scanSpec (line : JsStr) : ScanSpec line := by
  induction hn : line.length using Nat.strongRecOn generalizing line with
  | ind n ih =>
    cases line with
    | nil => exact .nil
    | cons u line =>
      have hline : ScanSpec line := ih line.length (by simp [← hn]) line rfl
      by_cases hu : u = CR
      · rw [hu]
        exact hline.cr
      · by_cases hnext : isHighSurrogate u = true → ∀ v ∈ line.head?, isLowSurrogate v = false
        · by_cases hkeep : isHighSurrogate u = true → ∀ v ∈ (withoutCr line).head?, isLowSurrogate v = false
          · exact hline.single hu hnext hkeep
          · push Not at hkeep
            obtain ⟨hhi, v, hv, hlo⟩ := hkeep
            obtain ⟨rest, hrest⟩ := head?_eq_some_iff.mp hv
            exact hline.broken hhi (by simpa using hlo) hrest hnext
        · push Not at hnext
          obtain ⟨hhi, v, hv, hlo⟩ := hnext
          obtain ⟨rest, rfl⟩ := head?_eq_some_iff.mp hv
          exact .pair hhi (by simpa using hlo) (ih rest.length (by simp [← hn]) rest rfl)

theorem encodeUtf8_withoutCr_eq_iff (line : JsStr) :
    pushJsUtf8WithoutCr line = encodeUtf8 (withoutCr line) ↔ ¬ BreaksPair line := by
  refine ⟨?_, (scanSpec line).agree⟩
  intro heq hb
  have hlt := (scanSpec line).lt hb
  rw [heq] at hlt
  exact lt_irrefl _ hlt

/-! Trimming: a carriage return is white space, so it may go before or after. -/

theorem withoutCr_trimEnd (line : JsStr) : withoutCr (trimEnd line) = trimEnd (withoutCr line) := by
  induction line using List.reverseRecOn with
  | nil => rfl
  | append_singleton line u ih =>
    unfold trimEnd at ih ⊢
    by_cases hw : isJsWhitespace u = true
    · rw [rdropWhile_concat_pos _ _ _ hw, ih]
      by_cases hu : u = CR
      · simp [withoutCr, hu]
      · simp [withoutCr, hu, hw]
    · have hu : u ≠ CR := by
        rintro rfl
        exact hw rfl
      simp [withoutCr, hu, hw]

theorem not_whitespace_of_low (h : isLowSurrogate u = true) : isJsWhitespace u = false := by
  have hlow : 0xdc00 ≤ u.toNat ∧ u.toNat ≤ 0xdfff := by
    simpa [isLowSurrogate, UInt16.le_iff_toNat_le] using h
  simp only [isJsWhitespace, Bool.or_eq_false_iff, Bool.and_eq_false_iff, beq_eq_false_iff_ne,
    decide_eq_false_iff_not, ne_eq, ← UInt16.toNat_inj, UInt16.le_iff_toNat_le, UInt16.reduceToNat]
  omega

/-- A low surrogate is not white space, so trimming leaves every broken pair in place. -/
theorem breaksPair_trimEnd (line : JsStr) : BreaksPair (trimEnd line) ↔ BreaksPair line := by
  constructor
  · rintro ⟨pre, hi, n, lo, post, hhi, hlo, heq⟩
    obtain ⟨tail, htail⟩ : trimEnd line <+: line := rdropWhile_prefix _ line
    exact ⟨pre, hi, n, lo, post ++ tail, hhi, hlo, by rw [← htail, heq]; simp⟩
  · rintro ⟨pre, hi, n, lo, post, hhi, hlo, rfl⟩
    refine ⟨pre, hi, n, lo, trimEnd post, hhi, hlo, ?_⟩
    have htrim := trimEnd_append_cons (not_whitespace_of_low hlo) (pre ++ hi :: replicate (n + 1) CR) post
    simpa using htrim

def bigramUnits (e : Char × Char) : JsStr := [UInt16.ofNat e.1.toNat, UInt16.ofNat e.2.toNat]

theorem bigramUnits_getD (i : Nat) : bigramUnits (hlBigrams.getD (i % hlBigrams.length) default) =
      GajaeCode.Hashline.hlBigrams.getD (i % GajaeCode.Hashline.hlBigrams.length) [] := by
  have hi : i % 647 < 647 := Nat.mod_lt _ (by decide)
  rw [hlBigrams_length, GajaeCode.Hashline.hlBigrams_length,
    getD_eq_getElem _ _ (by rw [hlBigrams_length]; exact hi),
    getD_eq_getElem _ _ (by rw [GajaeCode.Hashline.hlBigrams_length]; exact hi)]
  simp [GajaeCode.Hashline.hlBigrams, bigramUnits, hlBigrams_eq]

def nativeBytes (line : JsStr) : List UInt8 :=
  pushJsUtf8WithoutCr (line.rdropWhile isJsTrimEndWhitespace)

def loopBytes (line : JsStr) : List UInt8 := encodeUtf8 (trimEnd (line.filter (· != CR)))

theorem nativeBytes_eq_iff (line : JsStr) : nativeBytes line = loopBytes line ↔ ¬ BreaksPair line := by
  change pushJsUtf8WithoutCr (trimEnd line) = encodeUtf8 (trimEnd (withoutCr line)) ↔ _
  rw [← withoutCr_trimEnd, encodeUtf8_withoutCr_eq_iff, breaksPair_trimEnd]

theorem digit_unit {d : UInt32} (hd : d.toNat < 10) :
    0x30 + d.toUInt16 = UInt16.ofNat (Nat.digitChar d.toNat).toNat := by
  have hd' : d = UInt32.ofNat d.toNat := UInt32.ofNat_toNat.symm
  generalize d.toNat = n at hd hd'
  subst hd'
  interval_cases n <;> rfl

theorem decimalLoop_reverse (room : Nat) (value : UInt32) (h : value.toNat < 10 ^ (room + 1)) :
    (decimalLoop (room + 1) value).reverse = decimal value.toNat := by
  have hdigit : 0x30 + (value % 10).toUInt16 = UInt16.ofNat (Nat.digitChar (value.toNat % 10)).toNat :=
    digit_unit (d := value % 10) (by exact Nat.mod_lt _ (by decide))
  have hdiv : (value / 10).toNat = value.toNat / 10 := UInt32.toNat_div ..
  by_cases hlast : value.toNat < 10
  · have hzero : value / 10 = 0 := by
      rw [← UInt32.toNat_inj, hdiv]
      exact Nat.div_eq_of_lt hlast
    rw [decimalLoop, if_pos hzero, hdigit, decimal_of_lt hlast, Nat.mod_eq_of_lt hlast]
    rfl
  · have hzero : ¬ value / 10 = 0 := by
      rw [← UInt32.toNat_inj]
      simp only [UInt32.reduceToNat]
      omega
    cases room with
    | zero => exact absurd (by simpa using h) hlast
    | succ room =>
      rw [decimalLoop, if_neg hzero, reverse_cons, hdigit, decimal_of_le (by omega),
        decimalLoop_reverse room (value / 10) (by omega), hdiv]

theorem pushDecimal_eq (value : UInt32) : pushDecimal value = decimal value.toNat :=
  decimalLoop_reverse 9 value (by have := value.toNat_lt; omega)

section
variable (xxHash32 : List UInt8 → UInt32)

theorem pushHashline_eq {line} (h : ¬ BreaksPair line) (lineNumber : UInt32) :
    pushHashline xxHash32 lineNumber line = formatHashLine xxHash32 lineNumber.toNat line := by
  have hbytes := (nativeBytes_eq_iff line).mpr h
  have hbig := bigramUnits_getD (xxHash32 (loopBytes line)).toNat
  have hhash : bigramUnits (hashLine xxHash32 line) = computeLineHash xxHash32 lineNumber.toNat line := by
    rw [← hbytes] at hbig
    exact hbig.trans (by rw [hbytes]; rfl)
  unfold pushHashline formatHashLine
  rw [← hhash, pushDecimal_eq]
  simp [bigramUnits, lit]

def numbered : UInt32 → List JsStr → List (List UInt16)
  | _, [] => []
  | n, line :: lines => pushHashline xxHash32 n line :: numbered (saturatingSucc n) lines

theorem formatLoop_eq (text : JsStr) (n : UInt32) (line : JsStr) (out : List UInt16) :
    formatLoop xxHash32 text n line out =
      out ++ joinLines (numbered xxHash32 n ((splitLines text).modifyHead (line ++ ·))) := by
  induction text generalizing n line out with
  | nil => simp [formatLoop, splitLines, numbered, joinLines]
  | cons u text ih =>
    obtain ⟨first, rest, hsplit⟩ := exists_cons_of_ne_nil (splitLines_ne_nil text)
    rw [formatLoop]
    by_cases hu : u = LF
    · rw [ih, hu, splitLines_cons_LF, hsplit]
      simp [numbered, joinLines]
    · rw [if_neg hu, ih, splitLines_cons hu, hsplit]
      simp

theorem toNat_saturatingSucc {n} (h : n.toNat + 1 < 2 ^ 32) : (saturatingSucc n).toNat = n.toNat + 1 := by
  have hne : n ≠ 0xffffffff := by
    rintro rfl
    exact absurd h (by decide)
  rw [saturatingSucc, if_neg hne]
  exact Nat.mod_eq_of_lt h

theorem numbered_eq (lines : List JsStr) (n : UInt32) (h : n.toNat + lines.length ≤ 2 ^ 32) :
    numbered xxHash32 n lines =
      lines.mapIdx fun i line => pushHashline xxHash32 (UInt32.ofNat (n.toNat + i)) line := by
  induction lines generalizing n with
  | nil => rfl
  | cons line lines ih =>
    rw [numbered, mapIdx_cons]
    rw [length_cons] at h
    cases lines with
    | nil => simp [numbered]
    | cons next lines =>
      rw [length_cons] at h
      have hsucc : (saturatingSucc n).toNat = n.toNat + 1 := toNat_saturatingSucc (by omega)
      rw [ih (saturatingSucc n) (by rw [length_cons]; omega), hsucc]
      simp only [Nat.add_zero, UInt32.ofNat_toNat, Nat.add_assoc, Nat.add_comm 1]

theorem h06FormatHashLines_eq (text : JsStr) (startLine : Option UInt32)
    (h : (startLine.getD 1).toNat + (splitLines text).length ≤ 2 ^ 32) : h06FormatHashLines xxHash32 text startLine =
      joinLines ((splitLines text).mapIdx fun i line =>
        pushHashline xxHash32 (UInt32.ofNat ((startLine.getD 1).toNat + i)) line) := by
  have hstrip : stripTerminator (intoUtf16 text) = text := by
    simp [stripTerminator, intoUtf16]
  rw [h06FormatHashLines, hstrip, formatLoop_eq, ← numbered_eq _ _ _ h]
  cases splitLines text <;> simp

end

theorem joinLines_injective : ∀ {as bs},
    as.map List.length = bs.map List.length → joinLines as = joinLines bs → as = bs
  | [], [], _, _ => rfl
  | [], _ :: _, hlen, _ => by simp at hlen
  | _ :: _, [], hlen, _ => by simp at hlen
  | [a], [b], _, h => by simpa [joinLines] using h
  | [_], _ :: _ :: _, hlen, _ => by simp at hlen
  | _ :: _ :: _, [_], hlen, _ => by simp at hlen
  | a :: a' :: as, b :: b' :: bs, hlen, h => by
    obtain ⟨hhead, htail⟩ := List.cons.inj hlen
    have hsplit : a ++ (LF :: joinLines (a' :: as)) = b ++ (LF :: joinLines (b' :: bs)) := by
      simpa [joinLines] using h
    obtain ⟨rfl, hrest⟩ := append_inj hsplit hhead
    rw [joinLines_injective htail (List.cons.inj hrest).2]

theorem length_pushHashline (n : UInt32) (line : JsStr) :
    (pushHashline xxHash32 n line).length = (decimal n.toNat).length + 3 + line.length := by
  simp only [pushHashline, pushDecimal_eq, length_append, length_cons, length_nil]

theorem length_computeLineHash (line : JsStr) : (computeLineHash xxHash32 n line).length = 2 := by
  have h := congrArg List.length (bigramUnits_getD (xxHash32 (loopBytes line)).toNat)
  exact h.symm

theorem length_formatHashLine (line : JsStr) :
    (formatHashLine xxHash32 n line).length = (decimal n).length + 3 + line.length := by
  simp only [formatHashLine, length_append, length_computeLineHash]
  rfl

theorem hash_separates (hnative : xxHash32 (nativeBytes line) = 0) (hloop : xxHash32 (loopBytes line) = 1)
    (n : UInt32) : pushHashline xxHash32 n line ≠ formatHashLine xxHash32 n.toNat line := by
  have hfirst : hashLine xxHash32 line = ('a', 'a') := by
    change hlBigrams.getD ((xxHash32 (nativeBytes line)).toNat % hlBigrams.length) default = _
    rw [hnative, hlBigrams_length]
    rfl
  have hsecond : computeLineHash xxHash32 n.toNat line = [0x61, 0x62] := by
    change GajaeCode.Hashline.hlBigrams.getD ((xxHash32 (loopBytes line)).toNat %
      GajaeCode.Hashline.hlBigrams.length) [] = _
    rw [hloop, GajaeCode.Hashline.hlBigrams_length]
    rfl
  intro heq
  rw [pushHashline, formatHashLine, hfirst, hsecond, pushDecimal_eq] at heq
  rw [append_assoc, append_assoc, append_assoc] at heq
  have htail := append_cancel_left heq
  exact absurd (List.cons.inj (List.cons.inj htail).2).1 (by decide)

/-- The formatters agree for every hash exactly when no line breaks a surrogate pair. -/
theorem formatHashLines_parity (text : JsStr) (startLine : Option UInt32)
    (hnumbers : (startLine.getD 1).toNat + (splitLines text).length ≤ 2 ^ 32) :
    (∀ xxHash32 : List UInt8 → UInt32, h06FormatHashLines xxHash32 text startLine =
        formatHashLines xxHash32 text (startLine.getD 1).toNat) ↔ ∀ line ∈ splitLines text, ¬ BreaksPair line := by
  have hnumber {i : Nat} (hi : i < (splitLines text).length) :
      (UInt32.ofNat ((startLine.getD 1).toNat + i)).toNat = (startLine.getD 1).toNat + i := by
    rw [UInt32.toNat_ofNat', Nat.mod_eq_of_lt (by omega)]
  constructor
  · intro hagree line hline hbreak
    obtain ⟨i, hi, hget⟩ := mem_iff_getElem.mp hline
    have heq := hagree fun bytes => if bytes = nativeBytes line then 0 else 1
    rw [h06FormatHashLines_eq _ _ _ hnumbers, formatHashLines] at heq
    have hlists := joinLines_injective ?_ heq
    · have hi' := congrArg (fun ls => ls[i]?) hlists
      simp only [getElem?_mapIdx, getElem?_eq_getElem hi, hget, Option.map_some, Option.some.injEq] at hi'
      rw [← hnumber hi, UInt32.ofNat_toNat] at hi'
      have hne : loopBytes line ≠ nativeBytes line := fun h => (nativeBytes_eq_iff line).mp h.symm hbreak
      exact hash_separates _ (if_pos rfl) (if_neg hne) _ hi'
    · apply ext_getElem (by simp)
      intro j hj _
      rw [length_map, length_mapIdx] at hj
      simp only [getElem_map, getElem_mapIdx, length_pushHashline, length_formatHashLine, hnumber hj]
  · intro hlines xxHash32
    rw [h06FormatHashLines_eq _ _ _ hnumbers, formatHashLines]
    congr 1
    apply ext_getElem (by simp)
    intro j hj _
    rw [length_mapIdx] at hj
    rw [getElem_mapIdx, getElem_mapIdx, pushHashline_eq _ (hlines _ (getElem_mem hj)), hnumber hj]

theorem formatHashLines_parity_single_line :
    (((none : Option UInt32).getD 1).toNat + (splitLines (lit "a\r")).length ≤ 2 ^ 32) ∧
      ((∀ xxHash32 : List UInt8 → UInt32, h06FormatHashLines xxHash32 (lit "a\r") none =
          formatHashLines xxHash32 (lit "a\r") ((none : Option UInt32).getD 1).toNat) ↔
        ∀ line ∈ splitLines (lit "a\r"), ¬ BreaksPair line) :=
  ⟨by decide, formatHashLines_parity (lit "a\r") none (by decide)⟩

/-- U+1F600 with a carriage return between its halves: `rc` in the loop, `nv` in the scan. -/
theorem formatHashLines_broken_pair : h06FormatHashLines xxh32 [0xd83d, 0x0d, 0xde00] (some 1) ≠
      formatHashLines xxh32 [0xd83d, 0x0d, 0xde00] 1 := by
  decide +kernel

end GajaeCode.Natives.Hashline
