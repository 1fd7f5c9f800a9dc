import Mathlib.Algebra.BigOperators.Group.List.Basic
import GajaeCode.Text.Utf8

/-! UTF-8 as a window on text: the sizes of characters, decoding, the characters that
fit a number of bytes, and the character boundaries of an encoded text. -/
namespace GajaeCode.Text
open List

/-- The surrogates of a character above U+FFFF. -/
def highUnit (c : Char) : UInt16 := UInt16.ofNat (0xd800 + (c.toNat - 0x10000) / 0x400)
def lowUnit (c : Char) : UInt16 := UInt16.ofNat (0xdc00 + (c.toNat - 0x10000) % 0x400)

def encodeChar16 (c : Char) : JsStr :=
  if c.toNat < 0x10000 then [UInt16.ofNat c.toNat] else [highUnit c, lowUnit c]

def encodeUtf16 (cs : List Char) : JsStr := cs.flatMap encodeChar16

/-- `Buffer.byteLength(s, "utf-8")`. -/
def byteLength (s : JsStr) : Nat := (encodeUtf8 s).length

def utf8Sum (cs : List Char) : Nat := (cs.map Char.utf8Size).sum

/-- Text without lone surrogates. -/
def WellFormed (s : JsStr) : Prop := encodeUtf16 (decodeUtf16 s) = s

instance (s : JsStr) : Decidable (WellFormed s) :=
  inferInstanceAs (Decidable (encodeUtf16 (decodeUtf16 s) = s))

def replacementCharacter : Char := Char.ofNat 0xfffd

/-- A character of which continuation bytes are still owed. -/
structure Pending where
  owed : Nat
  lower : Nat
  upper : Nat
  point : Nat

/-- A byte between two characters: what it writes and what it leaves pending. -/
def openCharacter (b : Nat) : List Char × Option Pending :=
  if b ≤ 0x7f then ([Char.ofNat b], none)
  else if 0xc2 ≤ b ∧ b ≤ 0xdf then ([], some ⟨1, 0x80, 0xbf, b - 0xc0⟩)
  else if 0xe0 ≤ b ∧ b ≤ 0xef then
    ([], some ⟨2, if b = 0xe0 then 0xa0 else 0x80, if b = 0xed then 0x9f else 0xbf, b - 0xe0⟩)
  else if 0xf0 ≤ b ∧ b ≤ 0xf4 then
    ([], some ⟨3, if b = 0xf0 then 0x90 else 0x80, if b = 0xf4 then 0x8f else 0xbf, b - 0xf0⟩)
  else ([replacementCharacter], none)

/-- A byte that cannot continue the pending character ends it and is read afresh. -/
def decodeByte : Option Pending → Nat → List Char × Option Pending
  | none, b => openCharacter b
  | some p, b =>
    if p.lower ≤ b ∧ b ≤ p.upper then
      if p.owed = 1 then ([Char.ofNat (p.point * 64 + (b - 0x80))], none)
      else ([], some ⟨p.owed - 1, 0x80, 0xbf, p.point * 64 + (b - 0x80)⟩)
    else (replacementCharacter :: (openCharacter b).1, (openCharacter b).2)

def decodeBytes : Option Pending → List UInt8 → List Char
  | none, [] => []
  | some _, [] => [replacementCharacter]
  | p, b :: rest => (decodeByte p b.toNat).1 ++ decodeBytes (decodeByte p b.toNat).2 rest

/-- `buf.toString("utf-8")`. -/
def decodeUtf8 (bytes : List UInt8) : JsStr := encodeUtf16 (decodeBytes none bytes)

def isContinuation (b : UInt8) : Bool := b &&& 0xc0 == 0x80

/-- The longest run of leading characters that takes at most `room` bytes. -/
def fitting : Nat → List Char → List Char
  | _, [] => []
  | room, c :: cs => if c.utf8Size ≤ room then c :: fitting (room - c.utf8Size) cs else []

/-- The longest run of characters at the end that takes at most `room` bytes. -/
def fittingEnd (room : Nat) (cs : List Char) : List Char := (fitting room cs.reverse).reverse

def utf8Bytes (cs : List Char) : List UInt8 := cs.flatMap String.utf8EncodeChar

variable (cs : List Char) (c : Char)

theorem scalar_range : c.toNat < 0x110000 ∧ (c.toNat < 0xd800 ∨ 0xdfff < c.toNat) := by
  have h := c.valid
  have heq : c.toNat = c.val.toNat := rfl
  omega

@[simp] theorem encodeUtf16_nil : encodeUtf16 [] = [] := rfl

@[simp] theorem encodeUtf16_cons (cs : List Char) : encodeUtf16 (c :: cs) = encodeChar16 c ++ encodeUtf16 cs := rfl

variable (s : JsStr) (ds : List Char)

@[simp] theorem encodeUtf16_append : encodeUtf16 (cs ++ ds) = encodeUtf16 cs ++ encodeUtf16 ds := flatMap_append

@[simp] theorem utf8Bytes_nil : utf8Bytes [] = [] := rfl

@[simp] theorem utf8Bytes_cons (cs : List Char) :
    utf8Bytes (c :: cs) = String.utf8EncodeChar c ++ utf8Bytes cs := rfl

@[simp] theorem utf8Bytes_append : utf8Bytes (cs ++ ds) = utf8Bytes cs ++ utf8Bytes ds := flatMap_append

@[simp] theorem utf8Sum_nil : utf8Sum [] = 0 := rfl

@[simp] theorem utf8Sum_cons (cs : List Char) : utf8Sum (c :: cs) = c.utf8Size + utf8Sum cs := rfl

@[simp] theorem utf8Sum_append : utf8Sum (cs ++ ds) = utf8Sum cs + utf8Sum ds := by
  simp [utf8Sum]

@[simp] theorem length_utf8Bytes : (utf8Bytes cs).length = utf8Sum cs := by
  induction cs with
  | nil => rfl
  | cons c cs ih => simp [ih]

theorem byteLength_eq : byteLength s = utf8Sum (decodeUtf16 s) :=
  length_utf8Bytes (decodeUtf16 s)

theorem toNat_highUnit : (highUnit c).toNat = 0xd800 + (c.toNat - 0x10000) / 0x400 := by
  have hrange := scalar_range c
  simp only [highUnit, UInt16.toNat_ofNat']
  omega

theorem toNat_lowUnit : (lowUnit c).toNat = 0xdc00 + (c.toNat - 0x10000) % 0x400 := by
  simp only [lowUnit, UInt16.toNat_ofNat']
  omega

theorem isHighSurrogate_highUnit : isHighSurrogate (highUnit c) = true := by
  have hrange := scalar_range c
  simp only [isHighSurrogate, UInt16.le_iff_toNat_le, toNat_highUnit, Bool.and_eq_true,
    decide_eq_true_eq, UInt16.reduceToNat]
  omega

theorem isLowSurrogate_lowUnit : isLowSurrogate (lowUnit c) = true := by
  simp only [isLowSurrogate, UInt16.le_iff_toNat_le, toNat_lowUnit, Bool.and_eq_true,
    decide_eq_true_eq, UInt16.reduceToNat]
  omega

theorem pairScalar_units {c} (h : ¬ c.toNat < 0x10000) : pairScalar (highUnit c) (lowUnit c) = c := by
  have hsum : 0x10000 + (0xd800 + (c.toNat - 0x10000) / 0x400 - 0xd800) * 0x400 +
      (0xdc00 + (c.toNat - 0x10000) % 0x400 - 0xdc00) = c.toNat := by
    omega
  rw [pairScalar, toNat_highUnit, toNat_lowUnit, hsum, Char.ofNat_toNat]

theorem isSurrogate_unit {c : Char} (h : c.toNat < 0x10000) : isSurrogate (UInt16.ofNat c.toNat) = false := by
  have hrange := scalar_range c
  have hnat : (UInt16.ofNat c.toNat).toNat = c.toNat := by
    simpa using Nat.mod_eq_of_lt h
  simp only [isSurrogate, UInt16.le_iff_toNat_le, hnat, Bool.and_eq_false_iff,
    decide_eq_false_iff_not, UInt16.reduceToNat]
  omega

theorem unitScalar_unit {c} (h : c.toNat < 0x10000) : unitScalar (UInt16.ofNat c.toNat) = c := by
  have hnat : (UInt16.ofNat c.toNat).toNat = c.toNat := by
    simpa using Nat.mod_eq_of_lt h
  simp [unitScalar, isSurrogate_unit h, hnat, Char.ofNat_toNat]

theorem decodeUtf16_single {u} (h : isHighSurrogate u = false) (rest : JsStr) :
    decodeUtf16 (u :: rest) = unitScalar u :: decodeUtf16 rest := by
  cases rest with
  | nil => rfl
  | cons v rest => simp [decodeUtf16, h]

theorem decodeUtf16_char (rest : JsStr) : decodeUtf16 (encodeChar16 c ++ rest) = c :: decodeUtf16 rest := by
  unfold encodeChar16
  split
  next hsmall =>
    have hhigh : isHighSurrogate (UInt16.ofNat c.toNat) = false := by
      cases hh : isHighSurrogate (UInt16.ofNat c.toNat) with
      | false => rfl
      | true => exact absurd (surrogate_of_high hh) (by simp [isSurrogate_unit hsmall])
    rw [singleton_append, decodeUtf16_single hhigh, unitScalar_unit hsmall]
  next hlarge =>
    simp [decodeUtf16, isHighSurrogate_highUnit, isLowSurrogate_lowUnit, pairScalar_units hlarge]

theorem decodeUtf16_encodeUtf16_append (rest : JsStr) :
    decodeUtf16 (encodeUtf16 cs ++ rest) = cs ++ decodeUtf16 rest := by
  induction cs with
  | nil => rfl
  | cons c cs ih => rw [encodeUtf16_cons, append_assoc, decodeUtf16_char, ih, cons_append]

@[simp] theorem decodeUtf16_encodeUtf16 : decodeUtf16 (encodeUtf16 cs) = cs := by
  simpa [decodeUtf16] using decodeUtf16_encodeUtf16_append cs []

theorem wellFormed_iff : WellFormed s ↔ ∃ cs, s = encodeUtf16 cs := by
  constructor
  · intro h
    exact ⟨decodeUtf16 s, h.symm⟩
  · rintro ⟨cs, rfl⟩
    simp [WellFormed]

theorem WellFormed.append {s t} (hs : WellFormed s) (ht : WellFormed t) : WellFormed (s ++ t) := by
  obtain ⟨cs, rfl⟩ := (wellFormed_iff s).mp hs
  obtain ⟨ds, rfl⟩ := (wellFormed_iff t).mp ht
  exact (wellFormed_iff _).mpr ⟨cs ++ ds, (encodeUtf16_append cs ds).symm⟩

theorem WellFormed.flatten {parts : List JsStr} (h : ∀ part ∈ parts, WellFormed part) : WellFormed parts.flatten := by
  induction parts with
  | nil => rfl
  | cons part parts ih =>
    exact (h part mem_cons_self).append (ih (forall_mem_cons.mp h).2)

@[simp] theorem encodeUtf8_encodeUtf16 : encodeUtf8 (encodeUtf16 cs) = utf8Bytes cs := by
  simp [encodeUtf8, utf8Bytes]

@[simp] theorem byteLength_encodeUtf16 : byteLength (encodeUtf16 cs) = utf8Sum cs := by
  simp [byteLength]

theorem utf8Size_eq : c.utf8Size =
    if c.toNat ≤ 0x7f then 1 else if c.toNat ≤ 0x7ff then 2 else if c.toNat ≤ 0xffff then 3 else 4 := by
  rw [← String.length_utf8EncodeChar]
  unfold String.utf8EncodeChar
  simp only [Char.toNat]
  split_ifs <;> rfl

theorem length_encodeChar16_le : (encodeChar16 c).length ≤ c.utf8Size := by
  have hsize := utf8Size_eq c
  unfold encodeChar16
  split_ifs at hsize ⊢ <;> simp only [length_cons, length_nil] <;> omega

theorem length_encodeUtf16_le : (encodeUtf16 cs).length ≤ utf8Sum cs := by
  induction cs with
  | nil => rfl
  | cons c cs ih =>
    have hc := length_encodeChar16_le c
    simp only [encodeUtf16_cons, length_append, utf8Sum_cons]
    omega

theorem decodeBytes_cons (p : Option Pending) (b : UInt8) (rest : List UInt8) : decodeBytes p (b :: rest) =
      (decodeByte p b.toNat).1 ++ decodeBytes (decodeByte p b.toNat).2 rest := by
  cases p <;> rfl

theorem openCharacter_three {n} (h : n < 0x10) : openCharacter (n + 0xe0) =
    ([], some ⟨2, if n = 0 then 0xa0 else 0x80, if n = 0xd then 0x9f else 0xbf, n⟩) := by
  rw [openCharacter, if_neg (by omega), if_neg (by omega), if_pos (by omega)]
  simp

theorem openCharacter_four {n} (h : n < 5) : openCharacter (n + 0xf0) =
    ([], some ⟨3, if n = 0 then 0x90 else 0x80, if n = 4 then 0x8f else 0xbf, n⟩) := by
  rw [openCharacter, if_neg (by omega), if_neg (by omega), if_neg (by omega), if_pos (by omega)]
  simp

theorem decodeByte_next {owed lower upper point n} (howed : owed ≠ 1) (h : lower ≤ n + 0x80) (h' : n + 0x80 ≤ upper) :
    decodeByte (some ⟨owed, lower, upper, point⟩) (n + 0x80) = ([], some ⟨owed - 1, 0x80, 0xbf, point * 64 + n⟩) := by
  simp [decodeByte, h, h', howed]

theorem decodeByte_last {lower upper point n} (h : lower ≤ n + 0x80) (h' : n + 0x80 ≤ upper) :
    decodeByte (some ⟨1, lower, upper, point⟩) (n + 0x80) = ([Char.ofNat (point * 64 + n)], none) := by
  simp [decodeByte, h, h']

theorem toNat_byte {n : Nat} (h : n < 0x100) : (UInt8.ofNat n).toNat = n := by
  simpa using Nat.mod_eq_of_lt h

theorem decodeBytes_char (rest : List UInt8) :
    decodeBytes none (String.utf8EncodeChar c ++ rest) = c :: decodeBytes none rest := by
  obtain ⟨hlt, hsur⟩ := scalar_range c
  have hval : c.val.toNat = c.toNat := rfl
  have hback : Char.ofNat c.toNat = c := Char.ofNat_toNat c
  unfold String.utf8EncodeChar
  simp only [hval]
  generalize c.toNat = v at *
  split_ifs with h1 h2 h3
  · rw [singleton_append, decodeBytes_cons, toNat_byte (by omega), decodeByte, openCharacter,
      if_pos h1, hback, singleton_append]
  · have hv : v / 64 % 0x20 * 64 + v % 0x40 = v := by omega
    simp only [cons_append, nil_append]
    rw [decodeBytes_cons, toNat_byte (by omega), decodeByte, openCharacter, if_neg (by omega),
      if_pos (by omega), Nat.add_sub_cancel, decodeBytes_cons, toNat_byte (by omega), decodeByte_last (by omega) (by omega), hv, hback]
    rfl
  · have hv : (v / 4096 % 0x10 * 64 + v / 64 % 0x40) * 64 + v % 0x40 = v := by omega
    have hlow : (if v / 4096 % 0x10 = 0 then 0xa0 else 0x80) ≤ v / 64 % 0x40 + 0x80 := by
      split_ifs <;> omega
    have hup : v / 64 % 0x40 + 0x80 ≤ if v / 4096 % 0x10 = 0xd then 0x9f else 0xbf := by
      split_ifs <;> omega
    simp only [cons_append, nil_append]
    rw [decodeBytes_cons, toNat_byte (by omega), decodeByte, openCharacter_three (by omega),
      decodeBytes_cons, toNat_byte (by omega), decodeByte_next (by decide) hlow hup,
      decodeBytes_cons, toNat_byte (by omega), decodeByte_last (by omega) (by omega), hv, hback]
    rfl
  · have hv : ((v / 262144 % 8 * 64 + v / 4096 % 0x40) * 64 + v / 64 % 0x40) * 64 + v % 0x40 = v := by
      omega
    have hlow : (if v / 262144 % 8 = 0 then 0x90 else 0x80) ≤ v / 4096 % 0x40 + 0x80 := by
      split_ifs <;> omega
    have hup : v / 4096 % 0x40 + 0x80 ≤ if v / 262144 % 8 = 4 then 0x8f else 0xbf := by
      split_ifs <;> omega
    simp only [cons_append, nil_append]
    rw [decodeBytes_cons, toNat_byte (by omega), decodeByte, openCharacter_four (by omega),
      decodeBytes_cons, toNat_byte (by omega), decodeByte_next (by decide) hlow hup,
      decodeBytes_cons, toNat_byte (by omega), decodeByte_next (by decide) (by omega) (by omega),
      decodeBytes_cons, toNat_byte (by omega), decodeByte_last (by omega) (by omega), hv, hback]
    rfl

theorem decodeBytes_utf8Bytes : decodeBytes none (utf8Bytes cs) = cs := by
  induction cs with
  | nil => rfl
  | cons c cs ih => rw [utf8Bytes_cons, decodeBytes_char, ih]

@[simp] theorem decodeUtf8_utf8Bytes : decodeUtf8 (utf8Bytes cs) = encodeUtf16 cs := by
  rw [decodeUtf8, decodeBytes_utf8Bytes]

theorem isContinuation_ofNat : ∀ n < 0x100,
    isContinuation (UInt8.ofNat n) = (decide (0x80 ≤ n) && decide (n < 0xc0)) := by
  decide +kernel

theorem utf8EncodeChar_eq : ∃ lead rest, String.utf8EncodeChar c = lead :: rest ∧
    isContinuation lead = false ∧ ∀ b ∈ rest, isContinuation b = true := by
  have hval : c.val.toNat = c.toNat := rfl
  have hcont : ∀ n < 0x40, isContinuation (UInt8.ofNat (n + 0x80)) = true := by
    intro n hn
    rw [isContinuation_ofNat _ (by omega)]
    simp
    omega
  have hlead : ∀ n < 0x100, (n < 0x80 ∨ 0xc0 ≤ n) → isContinuation (UInt8.ofNat n) = false := by
    intro n hn hout
    rw [isContinuation_ofNat n hn]
    simp
    omega
  unfold String.utf8EncodeChar
  simp only [hval]
  split_ifs with h1 h2 h3
  · exact ⟨_, _, rfl, hlead _ (by omega) (by omega), by simp⟩
  · refine ⟨_, _, rfl, hlead _ (by omega) (by omega), ?_⟩
    simp only [mem_cons, not_mem_nil, or_false, forall_eq]
    exact hcont _ (by omega)
  · refine ⟨_, _, rfl, hlead _ (by omega) (by omega), ?_⟩
    simp only [mem_cons, not_mem_nil, or_false, forall_eq_or_imp, forall_eq]
    exact ⟨hcont _ (by omega), hcont _ (by omega)⟩
  · refine ⟨_, _, rfl, hlead _ (by omega) (by omega), ?_⟩
    simp only [mem_cons, not_mem_nil, or_false, forall_eq_or_imp, forall_eq]
    exact ⟨hcont _ (by omega), hcont _ (by omega), hcont _ (by omega)⟩

theorem dropWhile_utf8Bytes : (utf8Bytes cs).dropWhile isContinuation = utf8Bytes cs := by
  cases cs with
  | nil => rfl
  | cons c cs =>
    obtain ⟨lead, rest, heq, hlead, -⟩ := utf8EncodeChar_eq c
    rw [utf8Bytes_cons, heq, cons_append, dropWhile_cons_of_neg (by simp [hlead])]

section

variable {a b cs : List Char} {room : Nat}

theorem utf8Sum_fitting_le (room : Nat) (cs : List Char) : utf8Sum (fitting room cs) ≤ room := by
  induction cs generalizing room with
  | nil => exact Nat.zero_le _
  | cons c cs ih =>
    unfold fitting
    split
    next hc =>
      have hle := ih (room - c.utf8Size)
      rw [utf8Sum_cons]
      omega
    next => exact Nat.zero_le _

theorem exists_fitting_append (room : Nat) (cs : List Char) : ∃ rest, cs = fitting room cs ++ rest ∧
    ∀ c ∈ rest.head?, room < utf8Sum (fitting room cs) + c.utf8Size := by
  induction cs generalizing room with
  | nil => exact ⟨[], rfl, by simp⟩
  | cons c cs ih =>
    unfold fitting
    split
    next hc =>
      obtain ⟨rest, heq, hnext⟩ := ih (room - c.utf8Size)
      refine ⟨rest, by rw [cons_append, ← heq], ?_⟩
      intro d hd
      have hlt := hnext d hd
      rw [utf8Sum_cons]
      omega
    next hc =>
      refine ⟨c :: cs, rfl, ?_⟩
      intro d hd
      obtain rfl : c = d := by simpa using hd
      simpa using hc

theorem fitting_append (h : ∀ c ∈ b.head?, room < utf8Sum a + c.utf8Size) : fitting room (a ++ b) = fitting room a := by
  induction a generalizing room with
  | nil =>
    cases b with
    | nil => rfl
    | cons c b =>
      have hc := h c (by simp)
      simp only [utf8Sum_nil, Nat.zero_add] at hc
      simp [fitting, hc]
  | cons d a ih =>
    simp only [cons_append, fitting]
    split
    next hd =>
      rw [ih]
      intro c hc
      have hlt := h c hc
      rw [utf8Sum_cons] at hlt
      omega
    next => rfl

theorem fitting_eq_self (h : utf8Sum cs ≤ room) : fitting room cs = cs := by
  induction cs generalizing room with
  | nil => rfl
  | cons c cs ih =>
    rw [utf8Sum_cons] at h
    rw [fitting, if_pos (by omega), ih (by omega)]

theorem fitting_eq_nil_iff : fitting room cs = [] ↔ ∀ c ∈ cs.head?, room < c.utf8Size := by
  cases cs with
  | nil => simp [fitting]
  | cons c cs =>
    by_cases hc : c.utf8Size ≤ room
    · simp [fitting, hc]
    · simp [fitting, hc, Nat.lt_of_not_le hc]

theorem fitting_zero (cs : List Char) : fitting 0 cs = [] := by
  apply fitting_eq_nil_iff.mpr
  intro c _
  exact c.utf8Size_pos

theorem utf8Sum_reverse (cs : List Char) : utf8Sum cs.reverse = utf8Sum cs := by
  rw [utf8Sum, map_reverse, sum_reverse, utf8Sum]

theorem utf8Sum_fittingEnd_le (room : Nat) (cs : List Char) : utf8Sum (fittingEnd room cs) ≤ room := by
  rw [fittingEnd, utf8Sum_reverse]
  exact utf8Sum_fitting_le room cs.reverse

theorem exists_append_fittingEnd (room : Nat) (cs : List Char) : ∃ rest, cs = rest ++ fittingEnd room cs ∧
    ∀ c ∈ rest.getLast?, room < utf8Sum (fittingEnd room cs) + c.utf8Size := by
  obtain ⟨rest, heq, hnext⟩ := exists_fitting_append room cs.reverse
  refine ⟨rest.reverse, ?_, ?_⟩
  · rw [fittingEnd, ← reverse_append, ← heq, reverse_reverse]
  · rwa [fittingEnd, utf8Sum_reverse, getLast?_reverse]

theorem fittingEnd_append (h : ∀ c ∈ a.getLast?, room < utf8Sum b + c.utf8Size) :
    fittingEnd room (a ++ b) = fittingEnd room b := by
  rw [fittingEnd, reverse_append, fitting_append, fittingEnd]
  rwa [utf8Sum_reverse, head?_reverse]

theorem fittingEnd_eq_self (h : utf8Sum cs ≤ room) : fittingEnd room cs = cs := by
  rw [fittingEnd, fitting_eq_self (by rwa [utf8Sum_reverse]), reverse_reverse]

theorem prefix_fitting {other} (h : other <+: cs) (hle : utf8Sum other ≤ room) : other <+: fitting room cs := by
  induction cs generalizing room other with
  | nil => simpa [fitting] using h
  | cons c cs ih =>
    cases other with
    | nil => exact nil_prefix
    | cons d other =>
      obtain ⟨rfl, hother⟩ := cons_prefix_cons.mp h
      rw [utf8Sum_cons] at hle
      rw [fitting, if_pos (by omega)]
      exact cons_prefix_cons.mpr ⟨rfl, ih hother (by omega)⟩

theorem suffix_fittingEnd {other} (h : other <:+ cs) (hle : utf8Sum other ≤ room) : other <:+ fittingEnd room cs := by
  rw [fittingEnd, ← reverse_prefix, reverse_reverse]
  exact prefix_fitting (List.reverse_prefix.mpr h) (by rwa [utf8Sum_reverse])

/-- `kept` is the longest run of characters at the end of at most `room` bytes. -/
structure IsLongestEnd (room : Nat) (cs kept : List Char) : Prop where
  isEnd : kept <:+ cs
  fits : utf8Sum kept ≤ room
  longest : ∀ other, other <:+ cs → utf8Sum other ≤ room → other <:+ kept

theorem isLongestEnd_fittingEnd (room : Nat) (cs : List Char) : IsLongestEnd room cs (fittingEnd room cs) := by
  obtain ⟨rest, heq, -⟩ := exists_append_fittingEnd room cs
  exact ⟨⟨rest, heq.symm⟩, utf8Sum_fittingEnd_le room cs, fun other h hle => suffix_fittingEnd h hle⟩

theorem utf8Sum_eq_zero : utf8Sum cs = 0 ↔ cs = [] := by
  cases cs with
  | nil => simp
  | cons c cs =>
    have hpos := c.utf8Size_pos
    simp only [utf8Sum_cons, reduceCtorEq, iff_false]
    omega

/-- Skipping continuation bytes from the last `room` bytes on leads to the characters
that fit. -/
theorem dropWhile_drop_utf8Bytes (room : Nat) (cs : List Char) :
    ((utf8Bytes cs).drop (utf8Sum cs - room)).dropWhile isContinuation = utf8Bytes (fittingEnd room cs) := by
  induction cs with
  | nil => simp [fittingEnd, fitting]
  | cons c cs ih =>
    rcases Nat.lt_or_ge room (utf8Sum (c :: cs)) with hover | hfits
    · have hlast : fittingEnd room (c :: cs) = fittingEnd room cs := by
        refine @fittingEnd_append [c] cs room ?_
        simpa [Nat.add_comm] using hover
      rw [utf8Sum_cons] at hover ⊢
      rw [hlast, ← ih, utf8Bytes_cons, drop_append, String.length_utf8EncodeChar]
      have hrest : c.utf8Size + utf8Sum cs - room - c.utf8Size = utf8Sum cs - room := by omega
      rw [hrest]
      apply dropWhile_append_of_pos
      intro b hb
      obtain ⟨lead, rest, heq, -, hall⟩ := utf8EncodeChar_eq c
      obtain ⟨q, hq⟩ := Nat.exists_eq_succ_of_ne_zero (show c.utf8Size + utf8Sum cs - room ≠ 0 by omega)
      rw [heq, hq] at hb
      exact hall b (mem_of_mem_drop hb)
    · rw [fittingEnd_eq_self hfits, Nat.sub_eq_zero_of_le hfits, drop_zero, dropWhile_utf8Bytes]

end

section

variable {cs : List Char} {n : Nat}

theorem encodeChar16_cases (c : Char) : (∃ u, encodeChar16 c = [u]) ∨
    (encodeChar16 c = [highUnit c, lowUnit c] ∧ c.utf8Size = 4) := by
  have hsize := utf8Size_eq c
  unfold encodeChar16
  split_ifs with h
  · exact .inl ⟨_, rfl⟩
  · exact .inr ⟨rfl, by split_ifs at hsize <;> omega⟩

/-- Both sides of a cut are whole characters, but for a pair that the cut parts. -/
theorem cut_encodeUtf16 (cs : List Char) (n : Nat) : ∃ a b, cs = a ++ b ∧
    (((encodeUtf16 cs).take n = encodeUtf16 a ∧ (encodeUtf16 cs).drop n = encodeUtf16 b) ∨
      ∃ c rest, b = c :: rest ∧ c.utf8Size = 4 ∧ (encodeUtf16 cs).take n = encodeUtf16 a ++ [highUnit c] ∧
        (encodeUtf16 cs).drop n = lowUnit c :: encodeUtf16 rest) := by
  induction cs generalizing n with
  | nil => exact ⟨[], [], rfl, .inl (by simp)⟩
  | cons c cs ih =>
    rcases Nat.lt_or_ge n (encodeChar16 c).length with hlt | hge
    · refine ⟨[], c :: cs, rfl, ?_⟩
      rcases Nat.eq_zero_or_pos n with rfl | hpos
      · exact .inl ⟨rfl, rfl⟩
      rcases encodeChar16_cases c with ⟨u, hu⟩ | ⟨hu, hsize⟩
      · simp [hu] at hlt
        omega
      · obtain rfl : n = 1 := by simp [hu] at hlt; omega
        exact .inr ⟨c, cs, rfl, hsize, by simp [hu], by simp [hu]⟩
    · obtain ⟨a, b, rfl, hcut⟩ := ih (n - (encodeChar16 c).length)
      refine ⟨c :: a, b, rfl, ?_⟩
      rw [encodeUtf16_cons, take_append, take_of_length_le hge, drop_append, drop_eq_nil_of_le hge, nil_append]
      rcases hcut with ⟨htake, hdrop⟩ | ⟨d, rest, rfl, hsize, htake, hdrop⟩
      · exact .inl ⟨by rw [htake, encodeUtf16_cons], hdrop⟩
      · exact .inr ⟨d, rest, rfl, hsize, by rw [htake, encodeUtf16_cons, append_assoc], hdrop⟩

theorem unitScalar_surrogate {u} (h : isSurrogate u = true) : unitScalar u = replacementCharacter := by
  rw [unitScalar, if_pos h, replacementCharacter]

theorem utf8Size_replacementCharacter : replacementCharacter.utf8Size = 3 := by decide

end

theorem toNat_pairScalar {u v} (hu : isHighSurrogate u = true) (hv : isLowSurrogate v = true) :
    (pairScalar u v).toNat = 0x10000 + (u.toNat - 0xd800) * 0x400 + (v.toNat - 0xdc00) := by
  simp only [isHighSurrogate, isLowSurrogate, Bool.and_eq_true, decide_eq_true_eq,
    UInt16.le_iff_toNat_le, UInt16.reduceToNat] at hu hv
  apply toNat_charOfNat
  omega

theorem utf8Size_pairScalar {u v} (hu : isHighSurrogate u = true)
    (hv : isLowSurrogate v = true) : (pairScalar u v).utf8Size = 4 := by
  have hnat := toNat_pairScalar hu hv
  rw [utf8Size_eq, if_neg (by omega), if_neg (by omega), if_neg (by omega)]

theorem length_le_byteLength : s.length ≤ byteLength s := by
  rw [byteLength_eq]
  induction s using decodeUtf16.induct with
  | case1 => exact Nat.zero_le _
  | case2 u =>
    have hpos := (unitScalar u).utf8Size_pos
    simp only [decodeUtf16, utf8Sum_cons, utf8Sum_nil, length_singleton]
    omega
  | case3 u v rest hpair ih =>
    rw [Bool.and_eq_true] at hpair
    have hsize := utf8Size_pairScalar hpair.1 hpair.2
    simp only [decodeUtf16, hpair, Bool.and_self, if_true, utf8Sum_cons, length_cons]
    omega
  | case4 u v rest hpair ih =>
    have hpos := (unitScalar u).utf8Size_pos
    simp only [decodeUtf16, hpair, Bool.false_eq_true, if_false, utf8Sum_cons, length_cons] at ih ⊢
    omega

theorem decodeUtf16_append_LF (t : JsStr) : decodeUtf16 (s ++ LF :: t) = decodeUtf16 s ++ '\n' :: decodeUtf16 t := by
  have hLF : ∀ rest, decodeUtf16 (LF :: rest) = '\n' :: decodeUtf16 rest := by
    intro rest
    rw [decodeUtf16_single (by decide), show unitScalar LF = '\n' from by decide]
  induction s using decodeUtf16.induct with
  | case1 => exact hLF t
  | case2 u =>
    have hlow : isLowSurrogate LF = false := by decide
    simp [decodeUtf16, hlow, hLF]
  | case3 u v rest hpair ih => simp only [cons_append, decodeUtf16, hpair, if_true, ih]
  | case4 u v rest hpair ih =>
    simp only [cons_append, decodeUtf16, hpair] at ih ⊢
    simp [ih]

theorem byteLength_append_LF (t : JsStr) : byteLength (s ++ LF :: t) = byteLength s + 1 + byteLength t := by
  simp only [byteLength_eq, decodeUtf16_append_LF, utf8Sum_append, utf8Sum_cons,
    show ('\n' : Char).utf8Size = 1 from by decide]
  omega

end GajaeCode.Text
