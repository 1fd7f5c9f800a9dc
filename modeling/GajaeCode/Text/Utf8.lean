import GajaeCode.Text.JsString

/-! The UTF-8 view of a JavaScript string: surrogate pairs are combined and every
lone surrogate is encoded as U+FFFD. -/
namespace GajaeCode.Text

def isHighSurrogate (u : UInt16) : Bool := 0xd800 ≤ u && u ≤ 0xdbff
def isLowSurrogate (u : UInt16) : Bool := 0xdc00 ≤ u && u ≤ 0xdfff
def isSurrogate (u : UInt16) : Bool := 0xd800 ≤ u && u ≤ 0xdfff

/-- The scalar value of a surrogate pair. -/
def pairScalar (hi lo : UInt16) : Char :=
  Char.ofNat (0x10000 + (hi.toNat - 0xd800) * 0x400 + (lo.toNat - 0xdc00))

/-- The scalar value of a unit outside every pair. -/
def unitScalar (u : UInt16) : Char :=
  if isSurrogate u then Char.ofNat 0xfffd else Char.ofNat u.toNat

def decodeUtf16 : JsStr → List Char
  | [] => []
  | [u] => [unitScalar u]
  | u :: v :: rest =>
    if isHighSurrogate u && isLowSurrogate v then pairScalar u v :: decodeUtf16 rest
    else unitScalar u :: decodeUtf16 (v :: rest)

def encodeUtf8 (s : JsStr) : List UInt8 := (decodeUtf16 s).flatMap String.utf8EncodeChar

@[simp] theorem encodeUtf8_nil : encodeUtf8 [] = [] := rfl

def hexUnit (n : Nat) : UInt16 := UInt16.ofNat (Nat.digitChar n).toNat

/-- `\uXXXX`. -/
def unicodeEscape (u : UInt16) : JsStr :=
  lit "\\u" ++ [hexUnit (u.toNat / 0x1000), hexUnit (u.toNat / 0x100 % 16),
    hexUnit (u.toNat / 16 % 16), hexUnit (u.toNat % 16)]

def quoteUnit (u : UInt16) : JsStr :=
  if u = 0x08 then lit "\\b"
  else if u = 0x09 then lit "\\t"
  else if u = 0x0a then lit "\\n"
  else if u = 0x0c then lit "\\f"
  else if u = 0x0d then lit "\\r"
  else if u = 0x22 then lit "\\\""
  else if u = 0x5c then lit "\\\\"
  else if u < 0x20 || isSurrogate u then unicodeEscape u
  else [u]

def quoteUnits : JsStr → JsStr
  | [] => []
  | [u] => quoteUnit u
  | u :: v :: rest =>
    if isHighSurrogate u && isLowSurrogate v then u :: v :: quoteUnits rest
    else quoteUnit u ++ quoteUnits (v :: rest)

/-- `JSON.stringify` of a string. -/
def jsonStringify (s : JsStr) : JsStr := lit "\"" ++ quoteUnits s ++ lit "\""

theorem toNat_charOfNat {n} (h : n.isValidChar) : (Char.ofNat n).val.toNat = n := by
  simp [Char.ofNat, h, Char.ofNatAux]

theorem surrogate_of_high {u} (h : isHighSurrogate u = true) : isSurrogate u = true := by
  simp only [isHighSurrogate, isSurrogate, Bool.and_eq_true, decide_eq_true_eq] at h ⊢
  exact ⟨h.1, UInt16.le_trans h.2 (by decide)⟩

theorem surrogate_of_low {u} (h : isLowSurrogate u = true) : isSurrogate u = true := by
  simp only [isLowSurrogate, isSurrogate, Bool.and_eq_true, decide_eq_true_eq] at h ⊢
  exact ⟨UInt16.le_trans (by decide) h.1, h.2⟩

theorem not_high_of_low {u} (h : isLowSurrogate u = true) : isHighSurrogate u = false := by
  simp only [isLowSurrogate, Bool.and_eq_true, decide_eq_true_eq] at h
  simp only [isHighSurrogate, Bool.and_eq_false_iff, decide_eq_false_iff_not]
  right
  intro hle
  exact absurd (UInt16.le_trans h.1 hle) (by decide)

theorem encodeUtf8_pair {u v} (hu : isHighSurrogate u = true) (hv : isLowSurrogate v = true) (rest : JsStr) :
    encodeUtf8 (u :: v :: rest) = String.utf8EncodeChar (pairScalar u v) ++ encodeUtf8 rest := by
  simp [encodeUtf8, decodeUtf16, hu, hv]

theorem encodeUtf8_single {u} {rest : JsStr}
    (h : isHighSurrogate u = true → ∀ v ∈ rest.head?, isLowSurrogate v = false) :
    encodeUtf8 (u :: rest) = String.utf8EncodeChar (unitScalar u) ++ encodeUtf8 rest := by
  cases rest with
  | nil => simp [encodeUtf8, decodeUtf16]
  | cons v rest =>
    have hpair : (isHighSurrogate u && isLowSurrogate v) = false := by
      cases hu : isHighSurrogate u with
      | false => rfl
      | true => simpa using h hu v (by simp)
    simp [encodeUtf8, decodeUtf16, hpair]

end GajaeCode.Text
