import Mathlib

/-! JavaScript strings as sequences of UTF-16 code units, with the parts of the
string library that the edit and secret components call. A unit is never decoded
here; the UTF-8 view of a string is in `Text.Utf8`. -/
namespace GajaeCode.Text
open List

/-- A string value is any sequence of code units, lone surrogates included. -/
abbrev JsStr := List UInt16

instance : LawfulBEq JsStr := inferInstance

/-- A source literal whose characters are single units. -/
def lit (s : String) : JsStr := s.toList.map fun c => UInt16.ofNat c.toNat

def LF : UInt16 := 0x0a
def CR : UInt16 := 0x0d

/-- `WhiteSpace` and `LineTerminator` of the language: what `trim`, `trimEnd` and the
class `\s` agree on. -/
def isJsWhitespace (u : UInt16) : Bool :=
  u == 0x09 || u == 0x0a || u == 0x0b || u == 0x0c || u == 0x0d || u == 0x20 || u == 0xa0 ||
    u == 0x1680 || (0x2000 ≤ u && u ≤ 0x200a) || u == 0x2028 || u == 0x2029 || u == 0x202f ||
    u == 0x205f || u == 0x3000 || u == 0xfeff

def trimStart (s : JsStr) : JsStr := s.dropWhile isJsWhitespace
def trimEnd (s : JsStr) : JsStr := s.rdropWhile isJsWhitespace
def trim (s : JsStr) : JsStr := trimEnd (trimStart s)

/-- `line.startsWith(start)`. -/
def startsWith (line start : JsStr) : Bool := start.isPrefixOf line

/-- `text.split("\n")`. -/
def splitLines (text : JsStr) : List JsStr := text.splitOn LF

def dropCr (line : JsStr) : JsStr := if line.getLast? = some CR then line.dropLast else line

/-- `text.split(/\r?\n/)`. -/
def splitCrLf (text : JsStr) : List JsStr :=
  let lines := splitLines text
  lines.dropLast.map dropCr ++ lines.getLast?.toList

/-- `lines.join("\n")`. -/
def joinLines (lines : List JsStr) : JsStr := [LF].intercalate lines

/-- The decimal text of a number in the exact-integer range. -/
def decimal (n : Nat) : JsStr := (Nat.toDigits 10 n).map fun c => UInt16.ofNat c.toNat

variable (text : JsStr)

theorem splitLines_ne_nil : splitLines text ≠ [] :=
  splitOn_ne_nil LF text

theorem joinLines_splitLines : joinLines (splitLines text) = text :=
  intercalate_splitOn LF

theorem splitLines_joinLines {lines} (hne : lines ≠ [])
    (h : ∀ l ∈ lines, LF ∉ l) : splitLines (joinLines lines) = lines :=
  splitOn_intercalate LF h hne

theorem splitLines_cons_LF : splitLines (LF :: text) = [] :: splitLines text := by
  simp [splitLines, splitOn_cons_eq_if_modifyHead]

variable {u : UInt16}

theorem splitLines_cons (hu : u ≠ LF) (text : JsStr) :
    splitLines (u :: text) = (splitLines text).modifyHead (List.cons u) := by
  simp [splitLines, splitOn_cons_eq_if_modifyHead, hu]

theorem LF_notMem_of_mem_splitLines {text l} (h : l ∈ splitLines text) : LF ∉ l := by
  induction text generalizing l with
  | nil =>
    have hl : l = [] := by simpa [splitLines] using h
    simp [hl]
  | cons u text ih =>
    by_cases hu : u = LF
    · subst hu
      rcases mem_cons.mp h with rfl | h
      · simp
      · exact ih h
    · rw [splitLines_cons hu] at h
      cases hs : splitLines text with
      | nil => exact absurd hs (splitLines_ne_nil text)
      | cons first rest =>
        rw [hs] at h
        rcases mem_cons.mp h with rfl | h
        · have hfirst := ih (l := first) (by simp [hs])
          simp [Ne.symm hu, hfirst]
        · exact ih (by simp [hs, h])

theorem splitLines_append_LF (a b : JsStr) : splitLines (a ++ LF :: b) = splitLines a ++ splitLines b := by
  induction a with
  | nil => exact splitLines_cons_LF b
  | cons u a ih =>
    by_cases hu : u = LF
    · subst hu
      rw [cons_append, splitLines_cons_LF, splitLines_cons_LF, ih, cons_append]
    · rw [cons_append, splitLines_cons hu, splitLines_cons hu, ih]
      cases hs : splitLines a with
      | nil => exact absurd hs (splitLines_ne_nil a)
      | cons first rest => simp

/-- Splitting a joined text splits each of the joined parts. -/
theorem splitLines_joinLines_flatMap {parts} (hne : parts ≠ []) :
    splitLines (joinLines parts) = parts.flatMap splitLines := by
  induction parts with
  | nil => exact absurd rfl hne
  | cons part parts ih =>
    cases parts with
    | nil => simp [joinLines]
    | cons next parts =>
      have hjoin : joinLines (part :: next :: parts) = part ++ LF :: joinLines (next :: parts) := by
        simp [joinLines, intercalate_cons_cons]
      rw [hjoin, splitLines_append_LF, ih (by simp)]
      rfl

theorem splitLines_of_LF_notMem {line} (h : LF ∉ line) : splitLines line = [line] := by
  have hjoin : splitLines (joinLines [line]) = [line] := splitLines_joinLines (by simp) (by simpa using h)
  simpa [joinLines] using hjoin

theorem trimEnd_append_cons (hu : isJsWhitespace u = false) (pre post : JsStr) :
    trimEnd (pre ++ u :: post) = pre ++ u :: trimEnd post := by
  unfold trimEnd
  induction post using List.reverseRecOn with
  | nil => simp [hu]
  | append_singleton post v ih =>
    by_cases hv : isJsWhitespace v = true
    · rw [rdropWhile_concat_pos _ _ _ hv, ← ih]
      simpa using rdropWhile_concat_pos _ (pre ++ u :: post) _ hv
    · rw [rdropWhile_concat_neg _ _ _ hv]
      simpa using rdropWhile_concat_neg _ (pre ++ u :: post) _ hv

theorem trimEnd_cons (hu : isJsWhitespace u = false) (s : JsStr) : trimEnd (u :: s) = u :: trimEnd s :=
  trimEnd_append_cons hu [] s

theorem trimEnd_cons_blank (hu : isJsWhitespace u = true) (s : JsStr) :
    trimEnd (u :: s) = if s.all isJsWhitespace then [] else u :: trimEnd s := by
  split
  · next hs =>
    refine rdropWhile_eq_nil_iff.mpr fun v hv => ?_
    rcases mem_cons.mp hv with rfl | hv
    · exact hu
    · exact all_eq_true.mp hs v hv
  · next hs =>
    obtain ⟨v, hv, hblank⟩ : ∃ v ∈ s, isJsWhitespace v = false := by simpa using hs
    obtain ⟨pre, post, rfl⟩ := append_of_mem hv
    rw [← cons_append, trimEnd_append_cons hblank, trimEnd_append_cons hblank, cons_append]

theorem trim_cons (hu : isJsWhitespace u = false) (s : JsStr) : trim (u :: s) = u :: trimEnd s := by
  rw [trim, trimStart, dropWhile_cons_of_neg (by simp [hu]), trimEnd_cons hu]

variable (line : JsStr)

theorem dropCr_eq_self_iff : dropCr line = line ↔ line.getLast? ≠ some CR := by
  rw [dropCr]
  split
  · next h =>
    obtain ⟨rest, rfl⟩ := getLast?_eq_some_iff.mp h
    simp
  · next h => simpa using h

theorem trimEnd_dropCr : trimEnd (dropCr line) = trimEnd line := by
  rw [dropCr]
  split
  · next h =>
    obtain ⟨rest, rfl⟩ := getLast?_eq_some_iff.mp h
    have hblank : isJsWhitespace CR = true := by decide
    rw [dropLast_concat, trimEnd, trimEnd, rdropWhile_concat_pos _ _ _ hblank]
  · rfl

theorem trim_cons_blank (hu : isJsWhitespace u = true) (s : JsStr) : trim (u :: s) = trim s := by
  rw [trim, trimStart, dropWhile_cons_of_pos hu, trim, trimStart]

theorem trim_eq_nil_iff (s : JsStr) : trim s = [] ↔ ∀ u ∈ s, isJsWhitespace u = true := by
  induction s with
  | nil => simp [trim, trimStart, trimEnd]
  | cons u s ih =>
    rw [forall_mem_cons]
    cases hu : isJsWhitespace u with
    | true => rw [trim_cons_blank hu, ih]; simp
    | false => rw [trim_cons hu]; simp

theorem exists_trim_append (s : JsStr) : ∃ pre post, s = pre ++ trim s ++ post ∧
    (∀ u ∈ pre, isJsWhitespace u = true) ∧ ∀ u ∈ post, isJsWhitespace u = true := by
  refine ⟨s.takeWhile isJsWhitespace, (trimStart s).rtakeWhile isJsWhitespace, ?_, ?_, ?_⟩
  · rw [append_assoc, trim, trimEnd, rdropWhile_append_rtakeWhile, trimStart, takeWhile_append_dropWhile]
  · exact fun u hu => mem_takeWhile_imp hu
  · exact fun u hu => mem_rtakeWhile_imp hu

theorem head_trim {s} (h : (trim s).head? = some u) : isJsWhitespace u = false := by
  induction s with
  | nil => cases h
  | cons v s ih =>
    cases hv : isJsWhitespace v with
    | true =>
      rw [trim_cons_blank hv] at h
      exact ih h
    | false =>
      rw [trim_cons hv] at h
      cases h
      exact hv

theorem getLast_trim {s} (h : (trim s).getLast? = some u) : isJsWhitespace u = false := by
  have hne : trim s ≠ [] := by
    intro hnil
    rw [hnil] at h
    cases h
  have hlast := rdropWhile_last_not isJsWhitespace (trimStart s) hne
  rw [getLast?_eq_some_getLast hne] at h
  rw [← Option.some.inj h]
  exact Bool.eq_false_iff.mpr hlast

theorem trim_dropCr : trim (dropCr line) = [] ↔ trim line = [] := by
  rw [trim_eq_nil_iff, trim_eq_nil_iff, dropCr]
  split
  · next h =>
    obtain ⟨rest, rfl⟩ := getLast?_eq_some_iff.mp h
    have hblank : isJsWhitespace CR = true := by decide
    rw [dropLast_concat]
    simp only [mem_append, mem_singleton, or_imp, forall_and, forall_eq, hblank, and_true]
  · rfl

section

variable {text : JsStr} {lines : List JsStr} {last : JsStr}

theorem exists_splitLines_concat (text : JsStr) : ∃ lines last, splitLines text = lines ++ [last] := by
  obtain h | ⟨lines, last, h⟩ := eq_nil_or_concat' (splitLines text)
  · exact absurd h (splitLines_ne_nil text)
  · exact ⟨lines, last, h⟩

theorem splitCrLf_of_splitLines (h : splitLines text = lines ++ [last]) :
    splitCrLf text = lines.map dropCr ++ [last] := by
  simp [splitCrLf, h]

theorem splitCrLf_append_LF (a b : JsStr) : splitCrLf (a ++ LF :: b) = (splitLines a).map dropCr ++ splitCrLf b := by
  obtain ⟨lines, last, h⟩ := exists_splitLines_concat b
  have hsplit : splitLines (a ++ LF :: b) = (splitLines a ++ lines) ++ [last] := by
    rw [splitLines_append_LF, h, append_assoc]
  rw [splitCrLf_of_splitLines hsplit, splitCrLf_of_splitLines h, map_append, append_assoc]

theorem mem_splitCrLf {line} (h : line ∈ splitCrLf text) : ∃ l ∈ splitLines text, line = l ∨ line = dropCr l := by
  obtain ⟨lines, last, hsplit⟩ := exists_splitLines_concat text
  rw [splitCrLf_of_splitLines hsplit] at h
  rcases mem_append.mp h with h | h
  · obtain ⟨l, hl, rfl⟩ := mem_map.mp h
    exact ⟨l, hsplit ▸ mem_append_left _ hl, .inr rfl⟩
  · rw [mem_singleton.mp h]
    exact ⟨last, hsplit ▸ mem_append_right _ mem_cons_self, .inl rfl⟩

theorem joinLines_cons {line} (h : lines ≠ []) : joinLines (line :: lines) = line ++ LF :: joinLines lines := by
  obtain ⟨next, rest, rfl⟩ := exists_cons_of_ne_nil h
  simp [joinLines, intercalate_cons_cons]

theorem joinLines_append {first last} (hfirst : first ≠ []) (hlast : last ≠ []) :
    joinLines (first ++ last) = joinLines first ++ LF :: joinLines last := by
  induction first with
  | nil => exact absurd rfl hfirst
  | cons line first ih =>
    by_cases hnil : first = []
    · subst hnil
      rw [cons_append, nil_append, joinLines_cons hlast]
      simp [joinLines]
    · rw [cons_append, joinLines_cons (by simp [hnil]), ih hnil, joinLines_cons hnil, append_assoc, cons_append]

theorem length_splitLines (text : JsStr) : (splitLines text).length = text.count LF + 1 := by
  induction text with
  | nil => simp [splitLines]
  | cons u text ih =>
    by_cases hu : u = LF
    · rw [hu, splitLines_cons_LF, length_cons, ih, count_cons_self]
    · rw [splitLines_cons hu, length_modifyHead, ih, count_cons_of_ne hu]

theorem getLast_of_splitLines (h : splitLines text = lines ++ [last]) :
    text.getLast? = if last = [] then (if lines = [] then none else some LF) else last.getLast? := by
  rw [← joinLines_splitLines text, h]
  clear h
  induction lines with
  | nil => by_cases hlast : last = [] <;> simp [joinLines, hlast]
  | cons line lines ih =>
    rw [cons_append, joinLines_cons (by simp), getLast?_append, getLast?_cons, ih]
    by_cases hlast : last = []
    · by_cases hlines : lines = [] <;> simp [hlast, hlines]
    · obtain ⟨u, hu⟩ := Option.ne_none_iff_exists'.mp (by simpa using hlast : last.getLast? ≠ none)
      simp [hlast, hu]

end

end GajaeCode.Text
