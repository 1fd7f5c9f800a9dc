import GajaeCode.Text.JsString
import GajaeCode.Text.Regex

/-! The classes and words that the expressions of the source are made of. -/
namespace GajaeCode.Text

def ascii (c : Char) : UInt16 := UInt16.ofNat c.toNat

/-- `toLowerCase` on an ASCII unit. -/
def asciiLower (u : UInt16) : UInt16 := if 0x41 ≤ u ∧ u ≤ 0x5a then u + 0x20 else u

def isUnit (c : Char) (u : UInt16) : Bool := u == UInt16.ofNat c.toNat

def isDigit (u : UInt16) : Bool := 0x30 ≤ u && u ≤ 0x39

/-- `\w`. -/
def isWord (u : UInt16) : Bool :=
  (0x41 ≤ u && u ≤ 0x5a) || (0x61 ≤ u && u ≤ 0x7a) || isDigit u || u == 0x5f

/-- `.` without the flag `s`. -/
def isDot (u : UInt16) : Bool := !(u == 0x0a || u == 0x0d || u == 0x2028 || u == 0x2029)

/-- A word of ASCII letters under the flag `i`. -/
def word (w : String) : Regex UInt16 :=
  .seqs (w.toList.map fun c => .cls fun u => isUnit c u || isUnit c.toUpper u)

def chars (w : String) : Regex UInt16 := .seqs (w.toList.map fun c => .cls (isUnit c))

def space : Regex UInt16 := .star isJsWhitespace
def space1 : Regex UInt16 := .plus isJsWhitespace

/-- `Number(digits)`. -/
def digitsValue (digits : JsStr) : Nat :=
  digits.foldl (fun n u => 10 * n + (u.toNat - 0x30)) 0

theorem decimal_of_lt {n} (h : n < 10) : decimal n = [UInt16.ofNat (Nat.digitChar n).toNat] := by
  simp [decimal, Nat.toDigits_of_lt_base h]

theorem decimal_of_le {n} (h : 10 ≤ n) :
    decimal n = decimal (n / 10) ++ [UInt16.ofNat (Nat.digitChar (n % 10)).toNat] := by
  simp [decimal, Nat.toDigits_of_base_le (by decide : 1 < 10) h]

theorem digit_of_lt {n} (h : n < 10) : isDigit (UInt16.ofNat (Nat.digitChar n).toNat) = true ∧
      (UInt16.ofNat (Nat.digitChar n).toNat).toNat - 0x30 = n := by
  interval_cases n <;> decide

theorem isDigit_of_mem_decimal {n u} (h : u ∈ decimal n) : isDigit u = true := by
  induction n using Nat.strong_induction_on with
  | _ n ih =>
    by_cases hn : n < 10
    · rw [decimal_of_lt hn] at h
      rw [List.mem_singleton.mp h]
      exact (digit_of_lt hn).1
    · rw [decimal_of_le (Nat.not_lt.mp hn)] at h
      rcases List.mem_append.mp h with h | h
      · exact ih (n / 10) (by omega) h
      · rw [List.mem_singleton.mp h]
        exact (digit_of_lt (Nat.mod_lt n (by decide))).1

theorem decimal_ne_nil (n : Nat) : decimal n ≠ [] := by
  by_cases hn : n < 10
  · rw [decimal_of_lt hn]
    exact List.cons_ne_nil _ _
  · rw [decimal_of_le (Nat.not_lt.mp hn)]
    exact List.append_ne_nil_of_right_ne_nil _ (List.cons_ne_nil _ _)

theorem digitsValue_decimal (n : Nat) : digitsValue (decimal n) = n := by
  induction n using Nat.strong_induction_on with
  | _ n ih =>
    by_cases hn : n < 10
    · rw [decimal_of_lt hn]
      simpa [digitsValue] using (digit_of_lt hn).2
    · rw [decimal_of_le (Nat.not_lt.mp hn), digitsValue, List.foldl_append]
      change 10 * digitsValue (decimal (n / 10)) + ((UInt16.ofNat (Nat.digitChar (n % 10)).toNat).toNat - 0x30) = n
      rw [ih (n / 10) (by omega), (digit_of_lt (Nat.mod_lt n (by decide))).2]
      omega

end GajaeCode.Text
