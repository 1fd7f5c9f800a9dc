import GajaeCode.Hashline.Input
import GajaeCode.Data.Fallible

/-! What the sections of an input look like, and which warnings their parse gives. -/
namespace GajaeCode.Hashline
open Text Data List

/-- A line that the splitter leaves in a section: no header and no marker. -/
structure SectionLine (line : JsStr) : Prop where
  oneLine : LF ∉ line
  noHeader : line.head? ≠ some hlFilePrefix
  noMarker : isEnvelopeOrAbortMarkerLine line = false

structure IsSection (diff : JsStr) (lines : List JsStr) : Prop where
  diff_eq : diff = joinLines lines
  sectionLines : ∀ line ∈ lines, SectionLine line
  hasOps : ∃ line ∈ lines, trim line ≠ []

section

variable {paths : PathLib} {cwd : Option JsStr}

theorem head_ne_of_header_none {line}
    (h : parseHashlineHeaderLine paths line cwd = .ok none) : line.head? ≠ some hlFilePrefix := by
  intro hhead
  obtain ⟨rest, rfl⟩ := head?_eq_some_iff.mp hhead
  have htrim : trimEnd (hlFilePrefix :: rest) = hlFilePrefix :: trimEnd rest := trimEnd_cons (by decide) rest
  rw [parseHashlineHeaderLine, htrim] at h
  simp only [startsWith, List.isPrefixOf, beq_self_eq_true, Bool.and_self, Bool.not_true,
    Bool.false_eq_true, if_false] at h
  split at h
  · cases h
  · split at h <;> cases h

theorem isSection_flushSection {path lines} (hlines : ∀ line ∈ lines, SectionLine line) :
    ∀ part ∈ flushSection path lines, ∃ lines, IsSection part.diff lines := by
  intro part hpart
  rw [flushSection] at hpart
  split at hpart
  · cases hpart
  · split at hpart
    · next hops =>
      rw [mem_singleton.mp hpart]
      exact ⟨lines, rfl, hlines, by simpa using hops⟩
    · cases hpart

theorem isSection_splitSections {path current lines sections} (hcurrent : ∀ line ∈ current, SectionLine line)
    (hlines : ∀ line ∈ lines, LF ∉ line) (h : splitSections paths cwd path current lines = .ok sections) :
    ∀ part ∈ sections, ∃ lines, IsSection part.diff lines := by
  induction lines generalizing path current sections with
  | nil =>
    cases h
    exact isSection_flushSection hcurrent
  | cons line lines ih =>
    have hrest : ∀ line ∈ lines, LF ∉ line := (forall_mem_cons.mp hlines).2
    rw [splitSections] at h
    split at h
    · cases h
      exact isSection_flushSection hcurrent
    · next hend =>
      split at h
      · exact ih hcurrent hrest h
      · next henvelope =>
        obtain ⟨header, hheader, h⟩ := bind_eq_ok.mp h
        cases header with
        | some next =>
          obtain ⟨following, hnext, h⟩ := bind_eq_ok.mp h
          obtain rfl := pure_eq_ok.mp h
          exact forall_mem_append.mpr ⟨isSection_flushSection hcurrent, ih (by simp) hrest hnext⟩
        | none =>
          refine ih (fun l hl => ?_) hrest h
          rcases mem_append.mp hl with hl | hl
          · exact hcurrent l hl
          · rw [mem_singleton.mp hl]
            refine ⟨hlines line mem_cons_self, head_ne_of_header_none hheader, ?_⟩
            simp only [isPatchEnvelopeMarker, isEnvelopeOrAbortMarkerLine] at hend henvelope ⊢
            grind

theorem LF_notMem_of_mem_splitCrLf {text line} (h : line ∈ splitCrLf text) : LF ∉ line := by
  obtain ⟨l, hl, rfl | rfl⟩ := mem_splitCrLf h
  · exact LF_notMem_of_mem_splitLines hl
  · intro hmem
    refine LF_notMem_of_mem_splitLines hl ?_
    rw [dropCr] at hmem
    split at hmem
    · exact mem_of_mem_dropLast hmem
    · exact hmem

theorem isSection_splitHashlineInputs {input options sections}
    (h : splitHashlineInputs paths input options = .ok sections) :
    ∀ part ∈ sections, ∃ lines, IsSection part.diff lines := by
  obtain ⟨normalized, -, h⟩ := bind_eq_ok.mp h
  obtain ⟨header, -, h⟩ := bind_eq_ok.mp h
  split at h
  · obtain ⟨stop, hthrow, -⟩ := bind_eq_ok.mp h
    cases hthrow
  · exact isSection_splitSections (by simp) (fun line => LF_notMem_of_mem_splitCrLf) h

end

def diffsOf (sections : List HashlineInputSection) (path : JsStr) : List JsStr :=
  (sections.filter fun part => part.path = path).map HashlineInputSection.diff

/-- What the map of `mergeSamePathSections` holds after the sections `done`. -/
structure Grouped (done : List HashlineInputSection) (byPath : List (JsStr × List JsStr)) : Prop where
  nodup : (byPath.map Prod.fst).Nodup
  diffs : ∀ entry ∈ byPath, entry.2 = diffsOf done entry.1 ∧ entry.2 ≠ []
  absent : ∀ path, byPath.lookup path = none → diffsOf done path = []

theorem diffsOf_concat (done : List HashlineInputSection) (part : HashlineInputSection) (path : JsStr) :
    diffsOf (done ++ [part]) path = diffsOf done path ++ if part.path = path then [part.diff] else [] := by
  by_cases hpath : part.path = path <;> simp [diffsOf, hpath]

theorem Grouped.step {done byPath} (h : Grouped done byPath) (part : HashlineInputSection) :
    Grouped (done ++ [part]) (match byPath.lookup part.path with
      | some existing => assocSet part.path (existing ++ [part.diff]) byPath
      | none => assocSet part.path [part.diff] byPath) := by
  obtain ⟨existing, hexisting, hmap⟩ : ∃ existing, existing = diffsOf done part.path ∧
      (match byPath.lookup part.path with
        | some existing => assocSet part.path (existing ++ [part.diff]) byPath
        | none => assocSet part.path [part.diff] byPath) =
      assocSet part.path (existing ++ [part.diff]) byPath := by
    cases hlookup : byPath.lookup part.path with
    | some existing =>
      obtain ⟨before, after, hsplit, -⟩ := lookup_eq_some_iff.mp hlookup
      exact ⟨existing, (h.diffs (part.path, existing) (by simp [hsplit])).1, rfl⟩
    | none => exact ⟨[], (h.absent _ hlookup).symm, rfl⟩
  rw [hmap]
  refine ⟨nodup_keys_assocSet _ _ h.nodup, fun entry hentry => ?_, fun path hnone => ?_⟩
  · rcases mem_assocSet_of_nodup h.nodup hentry with rfl | ⟨hold, hne⟩
    · exact ⟨by rw [diffsOf_concat, if_pos rfl, hexisting], by simp⟩
    · rw [diffsOf_concat, if_neg (Ne.symm hne), append_nil]
      exact h.diffs entry hold
  · rw [lookup_assocSet] at hnone
    split at hnone
    · cases hnone
    · next hne =>
      rw [diffsOf_concat, if_neg (Ne.symm hne), append_nil]
      exact h.absent path hnone

theorem grouped_diffsByPath (sections : List HashlineInputSection) : Grouped sections (diffsByPath sections) := by
  induction sections using List.reverseRecOn with
  | nil =>
    refine ⟨by simp [diffsByPath], ?_, fun _ _ => rfl⟩
    intro entry hentry
    cases hentry
  | append_singleton sections part ih =>
    rw [diffsByPath, foldl_concat]
    exact ih.step part

theorem mem_mergeSamePathSections {sections merged} (h : merged ∈ mergeSamePathSections sections) :
    merged.diff = joinLines (diffsOf sections merged.path) ∧ diffsOf sections merged.path ≠ [] := by
  obtain ⟨entry, hentry, rfl⟩ := mem_map.mp h
  obtain ⟨heq, hne⟩ := (grouped_diffsByPath sections).diffs entry hentry
  exact ⟨by rw [← heq], heq ▸ hne⟩

section

variable {xxHash32 : List UInt8 → UInt32}

theorem warnings_parseLines {lines}
    (h : ∀ line ∈ lines, isEnvelopeOrAbortMarkerLine line = false) {lineNum editIndex skip parsed}
    (hparse : parseLines xxHash32 lineNum editIndex skip lines = .ok parsed) : parsed.warnings = [] := by
  induction lines generalizing lineNum editIndex skip parsed with
  | nil => cases skip <;> cases hparse <;> rfl
  | cons line lines ih =>
    have hrest : ∀ line ∈ lines, isEnvelopeOrAbortMarkerLine line = false := (forall_mem_cons.mp h).2
    cases skip with
    | succ skip => exact ih hrest hparse
    | zero =>
      rw [parseLines] at hparse
      split at hparse
      · exact ih hrest hparse
      split at hparse
      · cases hparse
        rfl
      split at hparse
      · next habort =>
        have hmarker := h line mem_cons_self
        rw [habort] at hmarker
        exact absurd hmarker (by decide)
      split at hparse
      · exact ih hrest hparse
      obtain ⟨op, -, hparse⟩ := bind_eq_ok.mp hparse
      obtain ⟨payload, -, hparse⟩ := bind_eq_ok.mp hparse
      obtain ⟨rest, hafter, hparse⟩ := bind_eq_ok.mp hparse
      obtain rfl := pure_eq_ok.mp hparse
      have hwarnings := ih hrest hafter
      exact hwarnings

theorem mem_diffLines {diff line} (h : line ∈ diffLines diff) : ∃ l ∈ splitLines diff, line = l ∨ line = dropCr l := by
  rw [diffLines] at h
  split at h
  · exact mem_splitCrLf (mem_of_mem_dropLast h)
  · exact mem_splitCrLf h

theorem noMarker_dropCr {line} (h : isEnvelopeOrAbortMarkerLine line = false) :
    isEnvelopeOrAbortMarkerLine (dropCr line) = false := by
  simpa only [isEnvelopeOrAbortMarkerLine, trimEnd_dropCr] using h

theorem IsSection.splitLines_eq {diff lines} (h : IsSection diff lines) : splitLines diff = lines := by
  obtain ⟨line, hline, -⟩ := h.hasOps
  rw [h.diff_eq]
  exact splitLines_joinLines (ne_nil_of_mem hline) fun l hl => (h.sectionLines l hl).oneLine

variable {paths : PathLib} {input : JsStr} {options : SplitHashlineOptions}
  {sections : List HashlineInputSection}

theorem isSection_of_mem_diffsOf (hsplit : splitHashlineInputs paths input options = .ok sections)
    {path diff} (h : diff ∈ diffsOf sections path) : ∃ lines, IsSection diff lines := by
  obtain ⟨part, hpart, rfl⟩ := mem_map.mp h
  exact isSection_splitHashlineInputs hsplit part (mem_of_mem_filter hpart)

/-- The splitter cuts the input before every marker, so no merged section has one. -/
theorem noMarker_of_mem_merged (hsplit : splitHashlineInputs paths input options = .ok sections)
    {merged} (hmerged : merged ∈ mergeSamePathSections sections) :
    ∀ line ∈ diffLines merged.diff, isEnvelopeOrAbortMarkerLine line = false := by
  intro line hline
  obtain ⟨hdiff, hne⟩ := mem_mergeSamePathSections hmerged
  obtain ⟨l, hl, hcases⟩ := mem_diffLines hline
  rw [hdiff, splitLines_joinLines_flatMap hne] at hl
  obtain ⟨diff, hmem, hl⟩ := mem_flatMap.mp hl
  obtain ⟨lines, hsection⟩ := isSection_of_mem_diffsOf hsplit hmem
  rw [hsection.splitLines_eq] at hl
  have hmarker := (hsection.sectionLines l hl).noMarker
  rcases hcases with rfl | rfl
  · exact hmarker
  · exact noMarker_dropCr hmarker

def samplePaths : PathLib := ⟨fun _ => false, id, fun _ path => path⟩

/-- Whatever the input holds, no parse warning is collected. -/
theorem collectParseWarnings_eq_nil {warnings : List JsStr}
    (h : collectParseWarnings xxHash32 paths input options = .ok warnings) : warnings = [] := by
  obtain ⟨sections, hsplit, h⟩ := bind_eq_ok.mp h
  obtain ⟨parsed, hparsed, h⟩ := bind_eq_ok.mp h
  obtain rfl := pure_eq_ok.mp h
  rw [flatMap_eq_nil_iff]
  intro p hp
  obtain ⟨merged, hmerged, hparse⟩ := exists_of_mem_mapM hparsed hp
  exact warnings_parseLines (noMarker_of_mem_merged hsplit hmerged) hparse

theorem exists_collectParseWarnings_abort : ∃ warnings,
      collectParseWarnings (fun _ => 0) samplePaths (lit "§a\n≔1ab\n*** Abort") ⟨none, none⟩ = .ok warnings ∧
        warnings = [] := by
  have hsome : (collectParseWarnings (fun _ => 0) samplePaths (lit "§a\n≔1ab\n*** Abort")
      ⟨none, none⟩).toOption.isSome = true := by decide +kernel
  cases h : collectParseWarnings (fun _ => 0) samplePaths (lit "§a\n≔1ab\n*** Abort") ⟨none, none⟩ with
  | error e =>
    rw [h] at hsome
    exact absurd hsome Bool.false_ne_true
  | ok warnings => exact ⟨warnings, rfl, collectParseWarnings_eq_nil h⟩

/-- The warning for a truncated stream is lost. -/
theorem collectParseWarnings_abort :
    (collectParseWarnings (fun _ => 0) samplePaths (lit "§a\n≔1ab\n*** Abort") ⟨none, none⟩).toOption = some [] := by
  decide +kernel

end

end GajaeCode.Hashline
