import GajaeCode.Text.JsString
import GajaeCode.Text.Scan

/-! The single replacement of `replaceText` (`edit/diff.ts`) with the exact search of `edit/modes/replace.ts`.
The fuzzy search and the indentation of a text that was found by it are parameters: an exact match needs
neither. -/
namespace GajaeCode.Edit
open Text List

/-- `text.replace(/\r\n?/g, "\n")`; the flag says that the last unit was a CR. -/
def toLF : Bool → JsStr → JsStr
  | _, [] => []
  | afterCr, u :: text =>
    if u = CR then LF :: toLF true text
    else if afterCr ∧ u = LF then toLF false text
    else u :: toLF false text

def normalizeToLF (text : JsStr) : JsStr := toLF false text

def OccursAt (text target : JsStr) (i : Nat) : Prop := target <+: text.drop i

/-- `text.indexOf(target)`. -/
def indexOf (text target : JsStr) : Option Nat :=
  (List.range (text.length + 1)).find? fun i => target.isPrefixOf (text.drop i)

structure FuzzyMatch where
  actualText : JsStr
  startIndex : Nat

inductive MatchOutcome where
  | notFound
  | found (hit : FuzzyMatch)
  | ambiguous (occurrences : Nat)

def findExactMatchOutcome (content target : JsStr) : Option MatchOutcome :=
  (indexOf content target).map fun exactIndex =>
    let occurrences := (splitString content target).length - 1
    if 1 < occurrences then .ambiguous occurrences else .found ⟨target, exactIndex⟩

inductive ReplaceError where
  | emptyOldText
  | occurrences (count : Nat)

section

variable (findFuzzyMatch : JsStr → JsStr → Option FuzzyMatch) (reindent : JsStr → JsStr → JsStr → JsStr)

def findMatch (content target : JsStr) : MatchOutcome :=
  if target.length = 0 then .notFound
  else (findExactMatchOutcome content target).getD ((findFuzzyMatch content target).elim .notFound .found)

def adjustIndentation (oldText actualText newText : JsStr) : JsStr :=
  if oldText = actualText then newText else reindent oldText actualText newText

def replaceText (content oldText newText : JsStr) : Except ReplaceError (JsStr × Nat) :=
  let content := normalizeToLF content
  if oldText.length = 0 then .error .emptyOldText
  else match findMatch findFuzzyMatch content (normalizeToLF oldText) with
    | .ambiguous occurrences => .error (.occurrences occurrences)
    | .notFound => .ok (content, 0)
    | .found hit =>
      .ok (content.take hit.startIndex ++
        adjustIndentation reindent (normalizeToLF oldText) hit.actualText (normalizeToLF newText) ++
        content.drop (hit.startIndex + hit.actualText.length), 1)

end

section

variable {text target : JsStr} {f : Nat}

theorem infix_iff_occursAt : target <:+: text ↔ ∃ i, OccursAt text target i := by
  constructor
  · rintro ⟨pre, post, rfl⟩
    refine ⟨pre.length, ?_⟩
    rw [OccursAt, append_assoc, drop_left]
    exact prefix_append _ _
  · rintro ⟨i, hi⟩
    exact hi.isInfix.trans (drop_suffix _ _).isInfix

theorem exists_indexOf (h : target <:+: text) :
    ∃ f, indexOf text target = some f ∧ OccursAt text target f ∧ ∀ i < f, ¬OccursAt text target i := by
  obtain ⟨i, hi⟩ := infix_iff_occursAt.mp h
  have hmem : min i text.length ∈ List.range (text.length + 1) := mem_range.mpr (by omega)
  have hoccurs : OccursAt text target (min i text.length) := by
    rcases Nat.le_total i text.length with hle | hle
    · rwa [Nat.min_eq_left hle]
    · rw [OccursAt, drop_of_length_le hle] at hi
      rwa [Nat.min_eq_right hle, OccursAt, drop_length]
  have hsome : (indexOf text target).isSome = true := find?_isSome.mpr ⟨_, hmem, isPrefixOf_iff_prefix.mpr hoccurs⟩
  obtain ⟨f, hf⟩ := Option.isSome_iff_exists.mp hsome
  obtain ⟨hhere, -, hbefore⟩ := find?_range_eq_some.mp hf
  refine ⟨f, hf, isPrefixOf_iff_prefix.mp hhere, fun j hj hoccurs => ?_⟩
  have hnot := hbefore j hj
  rw [List.isPrefixOf_iff_prefix.mpr hoccurs] at hnot
  cases hnot

theorem length_splitHits_units (units : JsStr) (ps : List (Piece UInt16)) :
    (splitHits (units.map .unit ++ ps)).length = (splitHits ps).length := by
  induction units with
  | nil => rfl
  | cons u units ih => rw [map_cons, cons_append, splitHits, length_modifyHead, ih]

/-- A split goes on behind the first occurrence. -/
theorem length_splitString (htarget : target ≠ []) (hoccurs : OccursAt text target f)
    (hfirst : ∀ i < f, ¬OccursAt text target i) :
    (splitString text target).length = (splitString (text.drop (f + target.length)) target).length + 1 := by
  have htext : text = text.take f ++ (target ++ text.drop (f + target.length)) := by
    rw [← drop_drop, prefix_iff_eq_append.mp hoccurs, take_append_drop]
  have hscan : scan (alternatives [target]) text =
      (text.take f).map .unit ++ .hit target :: scan (alternatives [target]) (text.drop (f + target.length)) := by
    rw [← scan_literal_append htarget]
    conv_lhs => rw [htext]
    refine scan_append fun n hn => ?_
    rw [← htext, alternatives_eq_none, forall_mem_singleton]
    exact hfirst n (by rw [length_take] at hn; omega)
  rw [splitString, hscan, length_splitHits_units]
  rfl

theorem length_splitString_of_none (h : ¬target <:+: text) : (splitString text target).length = 1 := by
  have hnone : ∀ n, alternatives [target] (text.drop n) = none := by
    intro n
    rw [alternatives_eq_none, forall_mem_singleton]
    exact fun hoccurs => h (infix_iff_occursAt.mpr ⟨n, hoccurs⟩)
  have hnil : alternatives [target] [] = none := by simpa using hnone text.length
  have hscan := scan_append (a := text) (b := []) (m := alternatives [target])
  rw [append_nil, scan_nil hnil] at hscan
  rw [splitString, hscan fun n _ => hnone n, length_splitHits_units]
  rfl

/-- A split counts a second occurrence only behind the end of the first one. -/
theorem one_lt_occurrences_iff (htarget : target ≠ []) (hoccurs : OccursAt text target f)
    (hfirst : ∀ i < f, ¬OccursAt text target i) :
    1 < (splitString text target).length - 1 ↔ ∃ j, OccursAt text target j ∧ f + target.length ≤ j := by
  have hrest : (∃ j, OccursAt text target j ∧ f + target.length ≤ j) ↔
      target <:+: text.drop (f + target.length) := by
    rw [infix_iff_occursAt]
    constructor
    · rintro ⟨j, hj, hle⟩
      refine ⟨j - (f + target.length), ?_⟩
      rwa [OccursAt, drop_drop, Nat.add_sub_cancel' hle]
    · rintro ⟨k, hk⟩
      rw [OccursAt, drop_drop] at hk
      exact ⟨_, hk, Nat.le_add_right _ _⟩
  rw [hrest, length_splitString htarget hoccurs hfirst]
  constructor
  · intro hlt
    by_contra hnone
    rw [length_splitString_of_none hnone] at hlt
    exact absurd hlt (lt_irrefl 1)
  · intro hmem
    obtain ⟨g, -, hg, hbefore⟩ := exists_indexOf hmem
    rw [length_splitString htarget hg hbefore]
    exact Nat.lt_add_of_pos_left (length_pos_iff.mpr (splitHits_ne_nil _))

end

section

variable {content oldText : JsStr}

theorem toLF_append_right (afterCr : Bool) (text post : JsStr) : toLF afterCr text <+: toLF afterCr
    (text ++ post) := by
  induction text generalizing afterCr with
  | nil => exact nil_prefix
  | cons u text ih =>
    rw [cons_append, toLF, toLF]
    split_ifs
    · exact cons_prefix_cons.mpr ⟨rfl, ih true⟩
    · exact ih false
    · exact cons_prefix_cons.mpr ⟨rfl, ih false⟩

/-- Behind a CR the text may begin with the LF that the CR became. -/
theorem toLF_afterCr (text : JsStr) : toLF false text <:+ LF :: toLF true text := by
  cases text with
  | nil => exact nil_suffix
  | cons u text =>
    by_cases hu : u = LF
    · rw [hu]
      exact suffix_rfl
    · have hsame : toLF true (u :: text) = toLF false (u :: text) := by simp [toLF, hu]
      rw [hsame]
      exact suffix_cons _ _

theorem toLF_append_left (afterCr : Bool) (pre text : JsStr) (h : afterCr = false ∨ pre ≠ []) :
    toLF false text <:+ toLF afterCr (pre ++ text) := by
  induction pre generalizing afterCr with
  | nil =>
    rw [h.resolve_right (not_not_intro rfl)]
    exact suffix_rfl
  | cons u pre ih =>
    rw [cons_append, toLF]
    split_ifs
    · rcases eq_or_ne pre [] with rfl | hpre
      · exact toLF_afterCr text
      · exact (ih true (.inr hpre)).trans (suffix_cons _ _)
    · exact ih false (.inl rfl)
    · exact (ih false (.inl rfl)).trans (suffix_cons _ _)

theorem normalizeToLF_occurs (h : oldText <:+: content) : normalizeToLF oldText <:+: normalizeToLF content := by
  obtain ⟨pre, post, rfl⟩ := h
  rw [append_assoc]
  exact (toLF_append_right false oldText post).isInfix.trans (toLF_append_left false pre _ (.inl rfl)).isInfix

theorem normalizeToLF_ne_nil (h : oldText ≠ []) : normalizeToLF oldText ≠ [] := by
  obtain ⟨u, text, rfl⟩ := exists_cons_of_ne_nil h
  rw [normalizeToLF, toLF]
  split_ifs with hcr hlf
  · exact cons_ne_nil _ _
  · exact absurd hlf.1 (by decide)
  · exact cons_ne_nil _ _

end

/-- A replacement is made when the target stands at one index, which is then the one replaced; otherwise the
call throws. -/
def Unambiguous (content target newText : JsStr) : Except ReplaceError (JsStr × Nat) → Prop
  | .ok result => ∃ i, (∀ j, OccursAt content target j ↔ j = i) ∧
    result.1 = content.take i ++ newText ++ content.drop (i + target.length)
  | .error _ => ¬∃ i, ∀ j, OccursAt content target j ↔ j = i

/-- A target that stands at two indices also stands at two that do not overlap. -/
def StandsApart (content target : JsStr) : Prop :=
  ∀ i j, OccursAt content target i → OccursAt content target j → i ≠ j →
    ∃ i j, OccursAt content target i ∧ OccursAt content target j ∧ i + target.length ≤ j

theorem replaceText_unambiguous_iff (findFuzzyMatch : JsStr → JsStr → Option FuzzyMatch)
    (reindent : JsStr → JsStr → JsStr → JsStr) {content oldText : JsStr} (newText : JsStr)
    (hold : oldText ≠ []) (h : oldText <:+: content) :
    Unambiguous (normalizeToLF content) (normalizeToLF oldText) (normalizeToLF newText)
        (replaceText findFuzzyMatch reindent content oldText newText) ↔
      StandsApart (normalizeToLF content) (normalizeToLF oldText) := by
  have htarget := normalizeToLF_ne_nil hold
  obtain ⟨f, hindex, hf, hfirst⟩ := exists_indexOf (normalizeToLF_occurs h)
  have hcount := one_lt_occurrences_iff htarget hf hfirst
  have hpos := length_pos_iff.mpr htarget
  unfold replaceText findMatch findExactMatchOutcome
  rw [if_neg (length_pos_iff.mpr hold).ne', if_neg hpos.ne', hindex, Option.map_some, Option.getD_some]
  generalize normalizeToLF content = text at *
  generalize normalizeToLF oldText = target at *
  by_cases hmany : 1 < (splitString text target).length - 1
  · obtain ⟨j, hj, hle⟩ := hcount.mp hmany
    simp only [if_pos hmany]
    refine iff_of_true (fun ⟨i, hi⟩ => ?_) fun _ _ _ _ _ => ⟨f, j, hf, hj, hle⟩
    have hsame := ((hi f).mp hf).trans ((hi j).mp hj).symm
    omega
  · simp only [if_neg hmany]
    constructor
    · rintro ⟨i, hi, -⟩ a b ha hb hab
      exact absurd (((hi a).mp ha).trans ((hi b).mp hb).symm) hab
    · intro hapart
      refine ⟨f, fun j => ⟨fun hj => ?_, fun hj => hj ▸ hf⟩, by simp [adjustIndentation]⟩
      by_contra hne
      obtain ⟨a, b, ha, hb, hle⟩ := hapart j f hj hf hne
      have hfa : f ≤ a := Nat.le_of_not_lt fun hlt => hfirst a hlt ha
      exact hmany (hcount.mpr ⟨b, hb, by omega⟩)

/-- `aa` stands apart in `aabaa`. -/
theorem replaceText_unambiguous_apart : Unambiguous (lit "aabaa") (lit "aa") (lit "c")
      (replaceText (fun _ _ => none) (fun _ _ text => text) (lit "aabaa") (lit "aa") (lit "c")) := by
  refine (@replaceText_unambiguous_iff _ _ (lit "aabaa") (lit "aa") (lit "c") (by decide) (by decide)).mpr ?_
  intro _ _ _ _ _
  refine ⟨0, 3, ?_, ?_, ?_⟩
  · exact isPrefixOf_iff_prefix.mp rfl
  · exact isPrefixOf_iff_prefix.mp rfl
  · decide

/-- `aa` stands in `aaa` twice, and a split finds it once. -/
theorem replaceText_overlapping :
    (replaceText (fun _ _ => none) (fun _ _ text => text) (lit "aaa") (lit "aa") (lit "b")).toOption =
        some (lit "ba", 1) ∧ OccursAt (lit "aaa") (lit "aa") 0 ∧ OccursAt (lit "aaa") (lit "aa") 1 := by
  refine ⟨by decide +kernel, ?_, ?_⟩ <;> exact isPrefixOf_iff_prefix.mp rfl

end GajaeCode.Edit
