import GajaeCode.Edit.Normalize
import GajaeCode.Natives.EditFuzzy

/-! Parity of the native line normaliser with `normalizeForFuzzy`: a single scan with a
pending-space flag against trimming and four regex rewrites. -/
namespace GajaeCode.Natives.EditFuzzy
open Text List
open Edit (isBlank replaceClass collapseBlanks normalizeForFuzzy)

def bar : UInt16 := 0x7c

/-- A bar is directly followed by a space or a tab. -/
def BarBlank (s : JsStr) : Prop :=
  ∃ pre b post, isBlank b = true ∧ s = pre ++ bar :: b :: post

variable {u prev : UInt16} {pending : Bool} {rest : JsStr}

theorem barBlank_cons_iff {s : JsStr} :
    BarBlank (u :: s) ↔ BarBlank s ∨ u = bar ∧ ∃ b ∈ s.head?, isBlank b = true := by
  constructor
  · rintro ⟨pre, b, post, hb, heq⟩
    cases pre with
    | nil =>
      obtain ⟨rfl, rfl⟩ := List.cons.inj heq
      exact .inr ⟨rfl, b, by simp, hb⟩
    | cons x pre =>
      obtain ⟨rfl, rfl⟩ := List.cons.inj heq
      exact .inl ⟨pre, b, post, hb, rfl⟩
  · rintro (⟨pre, b, post, hb, rfl⟩ | ⟨rfl, b, hmem, hb⟩)
    · exact ⟨u :: pre, b, post, hb, rfl⟩
    · obtain ⟨post, rfl⟩ := head?_eq_some_iff.mp hmem
      exact ⟨[], b, post, hb, rfl⟩

theorem not_barBlank_nil : ¬ BarBlank [] := by
  rintro ⟨pre, b, post, -, heq⟩
  simp at heq

theorem mappedUnit_eq (u : UInt16) : (if [0x2010, 0x2011, 0x2012, 0x2013, 0x2014, 0x2212].contains
        (if [0x27, 0x201a, 0x201b, 0x60, 0xb4].contains
          (if [0x22, 0x201e, 0x201f, 0xab, 0xbb].contains u then 0x22 else u) then 0x27
          else if [0x22, 0x201e, 0x201f, 0xab, 0xbb].contains u then 0x22 else u) then 0x2d
      else if [0x27, 0x201a, 0x201b, 0x60, 0xb4].contains
          (if [0x22, 0x201e, 0x201f, 0xab, 0xbb].contains u then 0x22 else u) then 0x27
        else if [0x22, 0x201e, 0x201f, 0xab, 0xbb].contains u then 0x22 else u) = mappedUnit u := by
  by_cases hdouble : u ∈ ([0x22, 0x201e, 0x201f, 0xab, 0xbb] : List UInt16)
  · fin_cases hdouble <;> rfl
  · by_cases hsingle : u ∈ ([0x27, 0x201a, 0x201b, 0x60, 0xb4] : List UInt16)
    · fin_cases hsingle <;> rfl
    · simp_all [mappedUnit]

theorem replaceClasses_eq (s : JsStr) : replaceClass [0x2010, 0x2011, 0x2012, 0x2013, 0x2014, 0x2212] 0x2d
        (replaceClass [0x27, 0x201a, 0x201b, 0x60, 0xb4] 0x27
          (replaceClass [0x22, 0x201e, 0x201f, 0xab, 0xbb] 0x22 s)) = s.map mappedUnit := by
  simp only [replaceClass, map_map]
  exact map_congr_left fun u _ => mappedUnit_eq u

theorem mappedUnit_eq_bar_iff (u : UInt16) : mappedUnit u = bar ↔ u = bar := by
  unfold mappedUnit
  split_ifs with h1 h2 h3
  · exact ⟨fun h => absurd h (by decide), by rintro rfl; exact absurd h1 (by decide)⟩
  · exact ⟨fun h => absurd h (by decide), by rintro rfl; exact absurd h2 (by decide)⟩
  · exact ⟨fun h => absurd h (by decide), by rintro rfl; exact absurd h3 (by decide)⟩
  · exact Iff.rfl

theorem isBlank_mappedUnit (u : UInt16) : isBlank (mappedUnit u) = isBlank u := by
  have hclass (cls : List UInt16) (hcls : cls.all (fun v => !isBlank v) = true)
      (h : cls.contains u = true) : isBlank u = false := by
    simpa using all_eq_true.mp hcls u (by simpa using h)
  unfold mappedUnit
  split_ifs with h1 h2 h3
  · rw [hclass _ (by decide) h1]
    rfl
  · rw [hclass _ (by decide) h2]
    rfl
  · rw [hclass _ (by decide) h3]
    rfl
  · rfl

/-- What the regex pipeline still has to emit after `prev` when a run of blanks is open or not:
it wrote the space at the start of the run, the scan writes it at the end. -/
def loopTail (pending : Bool) (rest : JsStr) : JsStr :=
  if pending then 0x20 :: collapseBlanks true (rest.map mappedUnit)
  else collapseBlanks false (rest.map mappedUnit)

def BrokenTail (prev : UInt16) (pending : Bool) (rest : JsStr) : Prop :=
  if pending then prev = bar ∨ BarBlank rest else BarBlank (prev :: rest)

/-- The scan after the unit `prev`: it agrees with the pipeline unless a bar is followed by a
blank, and then it is shorter. -/
structure ScanSpec (prev : UInt16) (pending : Bool) (rest : JsStr) : Prop where
  agree : ¬ BrokenTail prev pending rest → ∀ out, normalizeUnits rest (out ++ [mappedUnit prev]) pending =
      out ++ [mappedUnit prev] ++ loopTail pending rest
  le : ∀ out, (normalizeUnits rest (out ++ [mappedUnit prev]) pending).length ≤
    (out ++ [mappedUnit prev] ++ loopTail pending rest).length
  lt : BrokenTail prev pending rest → ∀ out, (normalizeUnits rest (out ++ [mappedUnit prev]) pending).length <
      (out ++ [mappedUnit prev] ++ loopTail pending rest).length

theorem ScanSpec.skip {pending' rest'} (h : ScanSpec prev pending' rest')
    (hscan : ∀ out, normalizeUnits rest out pending = normalizeUnits rest' out pending')
    (htail : loopTail pending rest = loopTail pending' rest')
    (hbroken : BrokenTail prev pending rest ↔ BrokenTail prev pending' rest') : ScanSpec prev pending rest := by
  refine ⟨?_, ?_, ?_⟩
  · intro hb out
    rw [hscan, htail, h.agree (fun hb' => hb (hbroken.mpr hb'))]
  · intro out
    rw [hscan, htail]
    exact h.le out
  · intro hb out
    rw [hscan, htail]
    exact h.lt (hbroken.mp hb) out

theorem ScanSpec.emit (h : ScanSpec u false rest) (lead : JsStr)
    (hscan : ∀ out, normalizeUnits (u :: rest) (out ++ [mappedUnit prev]) pending =
      normalizeUnits rest (out ++ [mappedUnit prev] ++ lead ++ [mappedUnit u]) false)
    (htail : loopTail pending (u :: rest) = lead ++ [mappedUnit u] ++ loopTail false rest)
    (hbroken : BrokenTail prev pending (u :: rest) ↔ BrokenTail u false rest) :
    ScanSpec prev pending (u :: rest) := by
  refine ⟨?_, ?_, ?_⟩
  · intro hb out
    rw [hscan, htail, h.agree (fun hb' => hb (hbroken.mpr hb'))]
    simp
  · intro out
    have hle := h.le (out ++ [mappedUnit prev] ++ lead)
    rw [hscan, htail]
    simpa using hle
  · intro hb out
    have hlt := h.lt (hbroken.mp hb) (out ++ [mappedUnit prev] ++ lead)
    rw [hscan, htail]
    simpa using hlt

theorem ScanSpec.nil (prev : UInt16) : ScanSpec prev false [] := by
  have hb : ¬ BrokenTail prev false [] := by
    simp [BrokenTail, barBlank_cons_iff, not_barBlank_nil]
  exact ⟨fun _ out => by simp [normalizeUnits, loopTail, collapseBlanks],
    fun out => by simp [normalizeUnits], fun h => absurd h hb⟩

theorem ScanSpec.blank (hu : isBlank u = true) (h : ScanSpec prev true rest) : ScanSpec prev pending (u :: rest) := by
  have hbar : u ≠ bar := by
    rintro rfl
    exact absurd hu (by decide)
  have hmapped : isBlank (mappedUnit u) = true := by rw [isBlank_mappedUnit, hu]
  refine h.skip ?_ ?_ ?_
  · intro out
    exact if_pos hu
  · cases pending <;> simp [loopTail, collapseBlanks, hmapped]
  · cases pending <;> simp [BrokenTail, barBlank_cons_iff, hbar, hu, or_comm]

theorem normalizeUnits_unit (hu : isBlank u = false) (rest : JsStr) (out : List UInt16) (pending : Bool) :
    normalizeUnits (u :: rest) out pending = normalizeUnits rest
      ((if pending && !out.isEmpty && out.getLast? != some 0x7c then out ++ [0x20] else out) ++
        [mappedUnit u]) false := by
  exact if_neg (by rw [← Bool.not_eq_false]; exact not_not_intro hu)

theorem ScanSpec.unit (hu : isBlank u = false) (h : ScanSpec u false rest) : ScanSpec prev false (u :: rest) := by
  refine h.emit [] ?_ ?_ ?_
  · simp [normalizeUnits_unit hu]
  · simp [loopTail, collapseBlanks, isBlank_mappedUnit, hu]
  · simp [BrokenTail, barBlank_cons_iff, hu]

theorem ScanSpec.spaced (hu : isBlank u = false) (hprev : prev ≠ bar) (h : ScanSpec u false rest) :
    ScanSpec prev true (u :: rest) := by
  have hlast : mappedUnit prev ≠ bar := fun hb => hprev ((mappedUnit_eq_bar_iff prev).mp hb)
  refine h.emit [0x20] ?_ ?_ ?_
  · have hlast' : ¬ mappedUnit prev = 0x7c := hlast
    simp [normalizeUnits_unit hu, hlast']
  · simp [loopTail, collapseBlanks, isBlank_mappedUnit, hu]
  · simp [BrokenTail, hprev]

theorem ScanSpec.afterBar (hu : isBlank u = false) (h : ScanSpec u false rest) : ScanSpec bar true (u :: rest) := by
  have hscan (out : List UInt16) : normalizeUnits (u :: rest) (out ++ [mappedUnit bar]) true =
      normalizeUnits rest (out ++ [mappedUnit bar] ++ [mappedUnit u]) false := by
    rw [normalizeUnits_unit hu]
    simp [show mappedUnit bar = 0x7c from rfl]
  have htail : loopTail true (u :: rest) = [0x20] ++ [mappedUnit u] ++ loopTail false rest := by
    simp [loopTail, collapseBlanks, isBlank_mappedUnit, hu]
  have hlt (out : List UInt16) : (normalizeUnits (u :: rest) (out ++ [mappedUnit bar]) true).length <
      (out ++ [mappedUnit bar] ++ loopTail true (u :: rest)).length := by
    have hle := h.le (out ++ [mappedUnit bar])
    rw [hscan, htail]
    simp at hle ⊢
    omega
  exact ⟨fun hb => absurd (.inl rfl) hb, fun out => le_of_lt (hlt out), fun _ => hlt⟩

theorem scanSpec (prev : UInt16) (pending : Bool) (rest : JsStr)
    (hlast : ∀ u ∈ rest.getLast?, isBlank u = false) (hnil : rest = [] → pending = false) :
    ScanSpec prev pending rest := by
  induction rest generalizing prev pending with
  | nil =>
    rw [hnil rfl]
    exact .nil prev
  | cons u rest ih =>
    have hrest : ∀ v ∈ rest.getLast?, isBlank v = false := by
      intro v hv
      refine hlast v ?_
      cases rest with
      | nil => simp at hv
      | cons w rest => simpa [getLast?_cons_cons] using hv
    cases hu : isBlank u with
    | true =>
      refine .blank hu (ih prev true hrest ?_)
      rintro rfl
      simp [hlast u (by simp)] at hu
    | false =>
      have hu' := ih u false hrest (fun _ => rfl)
      cases pending with
      | false => exact .unit hu hu'
      | true =>
        by_cases hprev : prev = bar
        · rw [hprev]
          exact .afterBar hu hu'
        · exact .spaced hu hprev hu'

theorem isBlank_whitespace (h : isBlank u = true) : isJsWhitespace u = true := by
  simp only [isBlank, Bool.or_eq_true, beq_iff_eq] at h
  rcases h with rfl | rfl <;> rfl

theorem trim_last {line} : ∀ u ∈ (trim line).getLast?, isBlank u = false := by
  intro u hu
  obtain ⟨init, hinit⟩ := getLast?_eq_some_iff.mp hu
  have hlast : ∀ h : trim line ≠ [], ¬ isJsWhitespace ((trim line).getLast h) = true :=
    rdropWhile_last_not isJsWhitespace (trimStart line)
  rw [hinit] at hlast
  cases hb : isBlank u with
  | false => rfl
  | true => exact absurd (isBlank_whitespace hb) (by simpa using hlast)

theorem trim_first {line} (h : trim line = u :: rest) : isBlank u = false := by
  obtain ⟨tail, htail⟩ : trim line <+: trimStart line := rdropWhile_prefix _ _
  have hhead : (trimStart line).head? = some u := by rw [← htail, h]; rfl
  have hfirst := head?_dropWhile_not isJsWhitespace line
  rw [show line.dropWhile isJsWhitespace = trimStart line from rfl, hhead] at hfirst
  cases hb : isBlank u with
  | false => rfl
  | true => simp [isBlank_whitespace hb] at hfirst

/-- The native line normaliser is the TypeScript one exactly on the lines in which, once
trimmed, no bar is followed by a space or tab. -/
theorem normalizeLine_eq_normalizeForFuzzy_iff (line : JsStr) :
    normalizeLine line none = normalizeForFuzzy line ↔ ¬ BarBlank (trim line) := by
  change normalizeUnits (trim line) [] false = _ ↔ _
  simp only [normalizeForFuzzy, replaceClasses_eq]
  cases htrim : trim line with
  | nil => simp [normalizeUnits, not_barBlank_nil]
  | cons u rest =>
    have hu : isBlank u = false := trim_first htrim
    have hlast : ∀ v ∈ rest.getLast?, isBlank v = false := by
      intro v hv
      refine @trim_last line v ?_
      rw [htrim]
      cases rest with
      | nil => simp at hv
      | cons w rest => simpa [getLast?_cons_cons] using hv
    have hspec := scanSpec u false rest hlast (fun _ => rfl)
    have hpipeline : collapseBlanks false ((u :: rest).map mappedUnit) =
        [] ++ [mappedUnit u] ++ loopTail false rest := by
      simp [loopTail, collapseBlanks, isBlank_mappedUnit, hu]
    have hscan : normalizeUnits (u :: rest) [] false = normalizeUnits rest ([] ++ [mappedUnit u]) false := by
      simp [normalizeUnits_unit hu]
    simp only [length_cons, Nat.succ_ne_zero, if_false, hpipeline, hscan]
    refine ⟨?_, fun hb => hspec.agree hb []⟩
    intro heq hb
    have hlt := hspec.lt hb []
    rw [heq] at hlt
    exact lt_irrefl _ hlt

/-- `a| b`: the pipeline keeps the space, the scan drops it. -/
theorem normalizeLine_after_bar : normalizeLine (lit "a| b") none ≠ normalizeForFuzzy (lit "a| b") := by
  decide

end GajaeCode.Natives.EditFuzzy
