import GajaeCode.Edit.DiffHunks

/-! Hunks rendered line by line and parsed back. -/
namespace GajaeCode.Edit
open Text List

inductive LineKind where
  | context
  | removed
  | added
deriving DecidableEq

/-- A line of a hunk; its text has no line break. -/
structure BodyLine where
  kind : LineKind
  text : JsStr
  noBreak : LF ∉ text

def LineKind.mark : LineKind → UInt16
  | .context => 0x20
  | .removed => 0x2d
  | .added => 0x2b

def BodyLine.render (l : BodyLine) : JsStr := l.kind.mark :: l.text

def renderDiff (body : List BodyLine) : JsStr := joinLines (lit "@@" :: body.map BodyLine.render)

def oldTexts (body : List BodyLine) : List JsStr :=
  (body.filter fun l => l.kind ≠ .added).map BodyLine.text

def newTexts (body : List BodyLine) : List JsStr :=
  (body.filter fun l => l.kind ≠ .removed).map BodyLine.text

/-- The rest of a `--- path` line after its first unit `c`. -/
def isHeaderText (c : UInt16) (text : JsStr) : Bool :=
  startsWith text [c, c, 0x20] && !(text.drop 3).all isJsWhitespace

/-- Rendered, the line is `--- path` or `+++ path`. -/
def BodyLine.looksLikeFileHeader (l : BodyLine) : Bool :=
  l.kind ≠ .context && isHeaderText l.kind.mark l.text

def BodyLine.looksLikeElision (l : BodyLine) : Bool :=
  l.kind = .context && isElision (trim l.text)

def BodyLine.looksLikeWrapper (l : BodyLine) : Bool :=
  l.kind = .context && isPatchWrapperLine (trim l.text)

def BodyLine.isBlankContext (l : BodyLine) : Bool :=
  l.kind = .context && trim l.text = []

open BodyLine

section

variable (l : BodyLine)

theorem LF_notMem_render : LF ∉ l.render := by
  have hmark : LF ≠ l.kind.mark := by cases l.kind <;> decide
  simp [render, hmark, l.noBreak]

theorem trim_render : trim l.render = if l.kind = .context then trim l.text else l.kind.mark :: trimEnd l.text := by
  cases hkind : l.kind <;> simp only [render, hkind]
  · exact trim_cons_blank (by decide) l.text
  · exact trim_cons (by decide) l.text
  · exact trim_cons (by decide) l.text

theorem isDiffContentLine_render : isDiffContentLine l.render =
      (decide (l.kind = .context) || !startsWith l.text [l.kind.mark, l.kind.mark, 0x20]) := by
  cases hkind : l.kind <;> simp [render, hkind, isDiffContentLine, LineKind.mark, isUnit, startsWith, lit]

theorem startsWith_trimEnd {c} (hc : isJsWhitespace c = false) (text : JsStr) :
    startsWith (trimEnd text) [c, c, 0x20] = isHeaderText c text := by
  by_cases hstart : startsWith text [c, c, 0x20] = true
  · obtain ⟨rest, rfl⟩ := isPrefixOf_iff_prefix.mp hstart
    have hblank : isJsWhitespace 0x20 = true := by decide
    simp only [cons_append, nil_append, isHeaderText, trimEnd_cons hc, trimEnd_cons_blank hblank]
    by_cases hrest : rest.all isJsWhitespace = true <;> simp [startsWith, hrest]
  · have htrim : startsWith (trimEnd text) [c, c, 0x20] = false := by
      rw [Bool.eq_false_iff]
      intro h
      apply hstart
      rw [startsWith, isPrefixOf_iff_prefix] at h ⊢
      exact h.trans (List.rdropWhile_prefix _ text)
    rw [htrim, isHeaderText, Bool.eq_false_iff.mpr hstart, Bool.false_and]

theorem matchesTrimmedPrefix_marked (kind : LineKind) (hkind : kind ≠ .context) (text : JsStr) :
    matchesTrimmedPrefix (kind.mark :: text) diffMetadataPrefixes = startsWith text [kind.mark, kind.mark, 0x20] := by
  cases kind with
  | context => exact absurd rfl hkind
  | removed => simp [matchesTrimmedPrefix, diffMetadataPrefixes, startsWith, lit, LineKind.mark, isPrefixOf_cons_cons]
  | added => simp [matchesTrimmedPrefix, diffMetadataPrefixes, startsWith, lit, LineKind.mark, isPrefixOf_cons_cons]

theorem mark_not_whitespace {kind : LineKind} (hkind : kind ≠ .context) : isJsWhitespace kind.mark = false := by
  cases kind with
  | context => exact absurd rfl hkind
  | removed => decide
  | added => decide

/-- The metadata filter drops exactly the lines that look like file headers. -/
theorem keepsLine_render : keepsLine l.render = !l.looksLikeFileHeader := by
  rw [keepsLine, isDiffContentLine_render, trim_render, looksLikeFileHeader]
  by_cases hkind : l.kind = .context
  · simp [hkind]
  · rw [if_neg hkind, matchesTrimmedPrefix_marked _ hkind, startsWith_trimEnd (mark_not_whitespace hkind)]
    cases hstart : startsWith l.text [l.kind.mark, l.kind.mark, 0x20] <;> simp [hkind, isHeaderText, hstart]

theorem isTrailingBlank_render : isTrailingBlank l.render = false := by
  rw [isTrailingBlank, isDiffContentLine_render, trim_render]
  by_cases hkind : l.kind = .context <;> simp [hkind, render]

theorem isPatchWrapperLine_render : isPatchWrapperLine (trim l.render) = l.looksLikeWrapper := by
  rw [trim_render, looksLikeWrapper]
  cases hkind : l.kind <;>
    simp [isPatchWrapperLine, matchesTrimmedPrefix, patchWrapperPrefixes, startsWith, lit,
      LineKind.mark, isPrefixOf_cons_cons]

theorem isElision_render : isElision (trim l.render) = l.looksLikeElision := by
  rw [trim_render, looksLikeElision]
  cases hkind : l.kind <;> simp [isElision, lit, LineKind.mark]

theorem trim_render_eq_nil : decide (trim l.render = []) = l.isBlankContext := by
  rw [trim_render, isBlankContext]
  cases hkind : l.kind <;> simp

theorem find_multiFileMarker_render :
    isDiffContentLine l.render = true ∨ multiFileMarkers.find? (startsWith (trim l.render)) = none := by
  rw [isDiffContentLine_render, trim_render]
  cases hkind : l.kind <;> simp [multiFileMarkers, startsWith, lit, LineKind.mark, isPrefixOf_cons_cons]

end

/-- The lines that `normalizeDiff` leaves of a hunk. -/
def normalizedBody (body : List BodyLine) : List BodyLine :=
  (if body.getLast?.any looksLikeWrapper then body.dropLast else body).filter fun l => !l.looksLikeFileHeader

variable (body : List BodyLine)

theorem LF_notMem_lines : ∀ line ∈ lit "@@" :: body.map render, LF ∉ line := by
  exact forall_mem_cons.mpr ⟨by decide, forall_mem_map.mpr fun l _ => LF_notMem_render l⟩

theorem splitLines_renderDiff : splitLines (renderDiff body) = lit "@@" :: body.map render :=
  splitLines_joinLines (by simp) (LF_notMem_lines body)

theorem countMultiFileMarkers_renderDiff : countMultiFileMarkers (renderDiff body) = 0 := by
  have hmarkers : fileMarkers (renderDiff body) = [] := by
    rw [fileMarkers, splitLines_renderDiff, filterMap_eq_nil_iff]
    refine forall_mem_cons.mpr ⟨by decide, forall_mem_map.mpr fun l _ => ?_⟩
    rcases find_multiFileMarker_render l with hcontent | hfind
    · rw [if_pos hcontent]
    · simp [hfind]
  simp [countMultiFileMarkers, hmarkers, multiFileMarkers]

theorem normalizedLines_render : normalizedLines (lit "@@" :: body.map render) =
      lit "@@" :: (normalizedBody body).map render := by
  have hfilter : ∀ kept : List BodyLine, (lit "@@" :: kept.map render).filter keepsLine =
        lit "@@" :: (kept.filter fun l => !l.looksLikeFileHeader).map render := by
    intro kept
    have hkeeps : (keepsLine ∘ render) = fun l => !l.looksLikeFileHeader := funext keepsLine_render
    rw [filter_cons_of_pos (by decide), filter_map, hkeeps]
  have hhead : ∀ rest : List JsStr, ((lit "@@" :: rest).head?.any fun first =>
      first ≠ [] && isPatchWrapperLine (trim first)) = false := by
    intro rest
    rw [head?_cons]
    decide
  rcases eq_nil_or_concat' body with rfl | ⟨init, last, rfl⟩
  · decide
  · have hdrop : (lit "@@" :: (init ++ [last]).map render).rdropWhile isTrailingBlank =
        lit "@@" :: (init ++ [last]).map render := by
      rw [map_append, ← cons_append]
      exact rdropWhile_concat_neg _ _ _ (by simp [isTrailingBlank_render])
    have hlast : (lit "@@" :: (init ++ [last]).map render).getLast? = some last.render := by
      simp [getLast?_cons]
    simp only [normalizedLines, hdrop, hhead, hlast, Option.any_some, isPatchWrapperLine_render,
      normalizedBody, getLast?_concat, Bool.false_eq_true, if_false]
    cases last.looksLikeWrapper with
    | false => exact hfilter (init ++ [last])
    | true =>
      rw [map_append, ← cons_append, map_singleton, dropLast_concat, dropLast_concat]
      exact hfilter init

theorem splitLines_normalizeDiff :
    splitLines (normalizeDiff (renderDiff body)) = lit "@@" :: (normalizedBody body).map render := by
  rw [normalizeDiff, splitLines_renderDiff, normalizedLines_render, splitLines_joinLines (by simp) (LF_notMem_lines _)]

theorem parseHunkLines_render (lineNumber : Nat) (body : List BodyLine) (hunk : DiffHunk)
    (parsedLines : Nat) : ∃ hunk', parseHunkLines lineNumber (body.map render) hunk parsedLines =
        .ok (hunk', parsedLines + body.length) ∧
      hunk'.oldLines = hunk.oldLines ++ oldTexts (body.filter fun l => !l.looksLikeElision) ∧
      hunk'.newLines = hunk.newLines ++ newTexts (body.filter fun l => !l.looksLikeElision) := by
  induction body generalizing hunk parsedLines with
  | nil => exact ⟨hunk, rfl, by simp [oldTexts], by simp [newTexts]⟩
  | cons l body ih =>
    have hlines : parsedLines + (l :: body).length = parsedLines + 1 + body.length := by
      rw [length_cons]
      omega
    have heof : startsWith l.render eofMarker = false := by
      cases hkind : l.kind <;> simp [render, hkind, LineKind.mark, startsWith, eofMarker, lit, isPrefixOf_cons_cons]
    rw [map_cons, hlines]
    simp only [parseHunkLines, isElision_render, heof, Bool.and_false]
    cases helision : l.looksLikeElision with
    | true =>
      obtain ⟨hunk', hparse, hold, hnew⟩ := ih { hunk with hasContextLines := true } (parsedLines + 1)
      refine ⟨hunk', ?_, ?_, ?_⟩
      · simp [render, hparse]
      · simp [helision, hold]
      · simp [helision, hnew]
    | false =>
      cases hkind : l.kind with
      | context =>
        obtain ⟨hunk', hparse, hold, hnew⟩ := ih (hunk.pushContext l.text) (parsedLines + 1)
        refine ⟨hunk', ?_, ?_, ?_⟩
        · simp [render, hkind, LineKind.mark, isUnit, hparse]
        · simp [helision, hold, oldTexts, hkind, DiffHunk.pushContext]
        · simp [helision, hnew, newTexts, hkind, DiffHunk.pushContext]
      | removed =>
        obtain ⟨hunk', hparse, hold, hnew⟩ := ih (hunk.pushOld l.text) (parsedLines + 1)
        refine ⟨hunk', ?_, ?_, ?_⟩
        · simp [render, hkind, LineKind.mark, isUnit, hparse]
        · simp [helision, hold, oldTexts, hkind, DiffHunk.pushOld]
        · simp [helision, hnew, newTexts, hkind, DiffHunk.pushOld]
      | added =>
        obtain ⟨hunk', hparse, hold, hnew⟩ := ih (hunk.pushNew l.text) (parsedLines + 1)
        refine ⟨hunk', ?_, ?_, ?_⟩
        · simp [render, hkind, LineKind.mark, isUnit, hparse]
        · simp [helision, hold, oldTexts, hkind, DiffHunk.pushNew]
        · simp [helision, hnew, newTexts, hkind, DiffHunk.pushNew]

theorem parseHunksFrom_skip (lines : List JsStr) (i : Nat) : parseHunksFrom i lines.length lines = .ok [] := by
  induction lines generalizing i with
  | nil => rfl
  | cons line lines ih => exact ih (i + 1)

theorem nestedContexts_render : nestedContexts (body.map render) = ([], 0) := by
  cases body with
  | nil => rfl
  | cons l body =>
    have hstart : startsWith l.render (lit "@@") = false := by
      cases hkind : l.kind <;> simp [render, hkind, LineKind.mark, startsWith, lit, isPrefixOf_cons_cons]
    simp [nestedContexts, hstart]

theorem parseHunkHeader_marker (lineNumber : Nat) :
    parseHunkHeader (lit "@@") lineNumber true = .ok ⟨[], none, none, 1⟩ := by
  have htrim : trimEnd (lit "@@") = emptyChangeContextMarker := by decide
  have hstart : startsWith (lit "@@") (lit "@@") = true := by decide
  simp [parseHunkHeader, htrim, hstart]

theorem parseOneHunk_render {body} (hne : body ≠ []) : ∃ hunk, parseOneHunk (lit "@@" :: body.map render) 1 true =
        .ok (stripLineNumberPrefixes hunk, body.length + 1) ∧
      hunk.oldLines = oldTexts (body.filter fun l => !l.looksLikeElision) ∧
      hunk.newLines = newTexts (body.filter fun l => !l.looksLikeElision) := by
  have hlength : body.length ≠ 0 := by simpa using hne
  obtain ⟨hunk, hparse, hold, hnew⟩ := parseHunkLines_render 1 body
    { changeContext := none, oldStartLine := none, newStartLine := none, hasContextLines := false,
      oldLines := [], newLines := [], isEndOfFile := false } 0
  refine ⟨hunk, ?_, by simpa using hold, by simpa using hnew⟩
  simp [parseOneHunk, parseHunkHeader_marker, nestedContexts_render, hlength, hparse, bind, Except.bind]

theorem all_trim_render : ((body.map render).all fun next => trim next = []) = body.all isBlankContext := by
  rw [all_map]
  exact congrArg body.all (funext trim_render_eq_nil)

/-- Rendered lines give one hunk, or none when only blank context is left of them. -/
theorem parseDiffHunks_renderDiff : parseDiffHunks (renderDiff body) =
      if (normalizedBody body).all isBlankContext then .ok [] else do
        let (hunk, linesConsumed) ← parseOneHunk (lit "@@" :: (normalizedBody body).map render) 1 true
        let hunks ← parseHunksFrom 1 (linesConsumed - 1) ((normalizedBody body).map render) return hunk :: hunks := by
  have htrim : trim (lit "@@") = lit "@@" := by decide
  have hne : lit "@@" ≠ [] := by decide
  have hmetadata : isUnifiedDiffMetadataLine (lit "@@") = false := by decide
  have hstart : startsWith (lit "@@") (lit "@@") = true := by decide
  rw [parseDiffHunks, countMultiFileMarkers_renderDiff, splitLines_normalizeDiff]
  simp only [parseHunksFrom, htrim, hne, hmetadata, hstart, all_trim_render]
  simp

theorem parseDiffHunks_hunk {body} (h : (normalizedBody body).all isBlankContext = false) :
    ∃ hunk, parseDiffHunks (renderDiff body) = .ok [stripLineNumberPrefixes hunk] ∧
      hunk.oldLines = oldTexts ((normalizedBody body).filter fun l => !l.looksLikeElision) ∧
      hunk.newLines = newTexts ((normalizedBody body).filter fun l => !l.looksLikeElision) := by
  have hne : normalizedBody body ≠ [] := by
    intro hnil
    simp [hnil] at h
  obtain ⟨hunk, hparse, hold, hnew⟩ := parseOneHunk_render hne
  have hskip := parseHunksFrom_skip ((normalizedBody body).map render) 1
  rw [length_map] at hskip
  refine ⟨hunk, ?_, hold, hnew⟩
  rw [parseDiffHunks_renderDiff, h, hparse]
  simp only [bind, Except.bind, Nat.add_sub_cancel, hskip]
  rfl

theorem isSome_numberPrefixRegex (line : JsStr) :
    (numberPrefixRegex.matchWhole line).isSome = (numberedLineRegex.matchWhole line).isSome := by
  refine Regex.isSome_runRep_congr fun digits => Regex.isSome_runRep_congr fun spaces =>
    Regex.isSome_runRep_congr fun text => Regex.isSome_runRep_congr fun rest => ?_
  cases rest <;> rfl

theorem stripLineNumber_ne {line : JsStr} (h : (numberedLineRegex.matchWhole line).isSome = true) :
    stripLineNumber line ≠ line := by
  rw [← isSome_numberPrefixRegex, Option.isSome_iff_exists] at h
  obtain ⟨found, hfound⟩ := h
  obtain ⟨blank, digits, hline, -, hdigits⟩ := Regex.runRep_eq_some hfound
  obtain ⟨number, spaces, rfl, hnumber, hspaces⟩ := Regex.runRep_eq_some hdigits
  obtain ⟨blank', text, rfl, -, htext⟩ := Regex.runRep_eq_some hspaces
  obtain ⟨taken, rest, -, -, hrest⟩ := Regex.runRep_eq_some htext
  cases rest with
  | cons u rest => cases hrest
  | nil =>
    obtain rfl : [(1, text)] = found := by simpa [Regex.run, Regex.seqs] using hrest
    intro heq
    have hlen := congrArg List.length heq
    rw [stripLineNumber, hfound, hline] at hlen
    simp at hlen
    omega

theorem exists_numbered {oldLines newLines} (h : hasLineNumberPrefixes oldLines newLines = true) :
    ∃ line ∈ oldLines ++ newLines, (numberedLineRegex.matchWhole line).isSome = true := by
  simp only [hasLineNumberPrefixes, Bool.and_eq_true, Bool.not_eq_true', decide_eq_false_iff_not, Nat.not_lt] at h
  obtain ⟨⟨-, hmatches⟩, -⟩ := h
  have hpos := (le_max_left _ _).trans hmatches
  obtain ⟨found, hfound⟩ := exists_mem_of_length_pos (Nat.lt_of_lt_of_le Nat.two_pos hpos)
  obtain ⟨line, hline, hmatch⟩ := mem_filterMap.mp hfound
  exact ⟨line, mem_of_mem_filter hline, by rw [hmatch, Option.isSome_some]⟩

/-- The stripper leaves both sides alone only when it does not take the lines for numbered ones. -/
theorem stripLineNumberPrefixes_eq_iff (hunk : DiffHunk) : ((stripLineNumberPrefixes hunk).oldLines = hunk.oldLines ∧
      (stripLineNumberPrefixes hunk).newLines = hunk.newLines) ↔
    hasLineNumberPrefixes hunk.oldLines hunk.newLines = false := by
  rw [stripLineNumberPrefixes]
  constructor
  · intro h
    by_contra hnumbered
    rw [Bool.not_eq_false] at hnumbered
    rw [if_pos hnumbered] at h
    obtain ⟨line, hline, hmatch⟩ := exists_numbered hnumbered
    refine stripLineNumber_ne hmatch ?_
    rcases mem_append.mp hline with hline | hline
    · exact map_eq_map_iff.mp (h.1.trans (map_id _).symm) line hline
    · exact map_eq_map_iff.mp (h.2.trans (map_id _).symm) line hline
  · intro h
    rw [if_neg (by simp [h])]
    exact ⟨rfl, rfl⟩

section

variable {body : List BodyLine}

theorem oldTexts_sublist {kept} (h : kept.Sublist body) : (oldTexts kept).Sublist (oldTexts body) :=
  (h.filter _).map _

theorem newTexts_sublist {kept} (h : kept.Sublist body) : (newTexts kept).Sublist (newTexts body) :=
  (h.filter _).map _

/-- A line that is dropped is missing on one side at least. -/
theorem eq_of_sublist_of_texts {kept} (h : kept.Sublist body) (hold : (oldTexts kept).length = (oldTexts body).length)
    (hnew : (newTexts kept).length = (newTexts body).length) : kept = body := by
  induction h with
  | slnil => rfl
  | @cons kept body l h ih =>
    have hold' := (oldTexts_sublist h).length_le
    have hnew' := (newTexts_sublist h).length_le
    cases hkind : l.kind <;> simp [oldTexts, newTexts, hkind] at hold hnew hold' hnew' <;> omega
  | @cons_cons kept body l h ih =>
    rw [ih]
    · cases hkind : l.kind <;> simpa [oldTexts, hkind] using hold
    · cases hkind : l.kind <;> simpa [newTexts, hkind] using hnew

theorem normalizedBody_sublist (body : List BodyLine) : (normalizedBody body).Sublist body := by
  refine filter_sublist.trans ?_
  split
  · exact dropLast_sublist body
  · exact Sublist.refl body

theorem parsedBody_eq_iff (body : List BodyLine) :
    (normalizedBody body).filter (fun l => !l.looksLikeElision) = body ↔
      (∀ l ∈ body, l.looksLikeFileHeader = false ∧ l.looksLikeElision = false) ∧
        ∀ l ∈ body.getLast?, l.looksLikeWrapper = false := by
  constructor
  · intro h
    refine ⟨fun l hl => ?_, fun l hl => ?_⟩
    · rw [← h, normalizedBody] at hl
      simp only [mem_filter, Bool.not_eq_true'] at hl
      exact ⟨hl.1.2, hl.2⟩
    · by_contra hwrapper
      rw [Bool.not_eq_false] at hwrapper
      have hlen := congrArg List.length h
      have hle := length_filter_le (fun l : BodyLine => !l.looksLikeElision) (normalizedBody body)
      have hle' := length_filter_le (fun l : BodyLine => !l.looksLikeFileHeader) body.dropLast
      have hlast : body.getLast?.any looksLikeWrapper = true := by
        rw [Option.mem_def.mp hl, Option.any_some, hwrapper]
      have hpos := length_pos_of_mem (mem_of_getLast? (Option.mem_def.mp hl))
      rw [normalizedBody, if_pos hlast] at hlen hle
      rw [length_dropLast] at hle'
      omega
  · rintro ⟨hlines, hlast⟩
    have hwrapper : body.getLast?.any looksLikeWrapper = false := by
      cases hbody : body.getLast? with
      | none => rfl
      | some l => rw [Option.any_some, hlast l hbody]
    rw [normalizedBody, hwrapper, if_neg Bool.false_ne_true, filter_filter, filter_eq_self]
    intro l hl
    simp [hlines l hl]

theorem length_stripLineNumberPrefixes (hunk : DiffHunk) :
    (stripLineNumberPrefixes hunk).oldLines.length = hunk.oldLines.length ∧
      (stripLineNumberPrefixes hunk).newLines.length = hunk.newLines.length := by
  rw [stripLineNumberPrefixes]
  split <;> simp

/-- A rendered hunk is parsed back exactly unless a line looks like a file header, an elision or (at
the end) a patch wrapper, the lines look numbered, or there is nothing but blank context. -/
theorem parseDiffHunks_renderDiff_iff (body : List BodyLine) :
    (∃ hunk, parseDiffHunks (renderDiff body) = .ok [hunk] ∧ hunk.oldLines = oldTexts body ∧
      hunk.newLines = newTexts body) ↔ (∀ l ∈ body, l.looksLikeFileHeader = false ∧ l.looksLikeElision = false) ∧
      (∀ l ∈ body.getLast?, l.looksLikeWrapper = false) ∧ (∃ l ∈ body, l.isBlankContext = false) ∧
      hasLineNumberPrefixes (oldTexts body) (newTexts body) = false := by
  rw [← and_assoc, ← parsedBody_eq_iff]
  have hsub : ((normalizedBody body).filter fun l => !l.looksLikeElision).Sublist body :=
    filter_sublist.trans (normalizedBody_sublist body)
  constructor
  · rintro ⟨hunk, hparse, hold, hnew⟩
    cases hblank : (normalizedBody body).all isBlankContext with
    | true =>
      rw [parseDiffHunks_renderDiff, if_pos hblank] at hparse
      cases hparse
    | false =>
      obtain ⟨parsed, hparsed, hold', hnew'⟩ := parseDiffHunks_hunk hblank
      obtain rfl : stripLineNumberPrefixes parsed = hunk := by
        rw [hparsed] at hparse
        simpa using hparse
      have hlen := length_stripLineNumberPrefixes parsed
      have hbody := eq_of_sublist_of_texts hsub (by rw [← hold', ← hlen.1, hold]) (by rw [← hnew', ← hlen.2, hnew])
      rw [hbody] at hold' hnew'
      refine ⟨hbody, ?_, ?_⟩
      · obtain ⟨l, hl, hne⟩ := all_eq_false.mp hblank
        exact ⟨l, (normalizedBody_sublist body).subset hl, by simpa using hne⟩
      · rw [← hold', ← hnew']
        exact (stripLineNumberPrefixes_eq_iff parsed).mp ⟨hold.trans hold'.symm, hnew.trans hnew'.symm⟩
  · rintro ⟨hbody, ⟨l, hl, hne⟩, hnumbers⟩
    have hnormalized : normalizedBody body = body := by
      refine (normalizedBody_sublist body).eq_of_length_le ?_
      conv_lhs => rw [← hbody]
      exact length_filter_le _ _
    have hblank : (normalizedBody body).all isBlankContext = false := by
      rw [hnormalized, all_eq_false]
      exact ⟨l, hl, by simp [hne]⟩
    obtain ⟨parsed, hparsed, hold, hnew⟩ := parseDiffHunks_hunk hblank
    rw [hbody] at hold hnew
    rw [← hold, ← hnew] at hnumbers
    obtain ⟨hold', hnew'⟩ := (stripLineNumberPrefixes_eq_iff parsed).mpr hnumbers
    exact ⟨_, hparsed, hold'.trans hold, hnew'.trans hnew⟩

/-- A removed comment line `-- a` is taken for a file header. -/
theorem parseDiffHunks_removed_comment : ¬ ∃ hunk, parseDiffHunks (renderDiff
        [⟨.removed, lit "-- a", by decide⟩, ⟨.added, lit "b", by decide⟩]) = .ok [hunk] ∧
      hunk.oldLines = [lit "-- a"] ∧ hunk.newLines = [lit "b"] := by
  have hparse : parseDiffHunks (renderDiff
      [⟨.removed, lit "-- a", by decide⟩, ⟨.added, lit "b", by decide⟩]) =
      .ok [⟨none, none, none, false, [], [lit "b"], false⟩] := by
    decide +kernel
  rintro ⟨hunk, hhunk, hold, -⟩
  rw [hparse] at hhunk
  cases hhunk
  cases hold

end

end GajaeCode.Edit
