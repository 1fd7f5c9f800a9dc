import GajaeCode.Tools.ConflictDetect

/-! What the scan reports about the lines it has read, and when the region that is rebuilt
from a block is the one that stands in the file. -/
namespace GajaeCode.Tools.Conflict
open Text List

def spacedMarkers : List JsStr := [oursMarker ++ [0x20], baseMarker ++ [0x20], theirsMarker ++ [0x20]]

/-- The spelling that a rebuilt block has for a line. -/
def canonical (line : JsStr) : JsStr := if line ∈ spacedMarkers then line.dropLast else line

variable {line label : JsStr}

theorem matchMarker_eq_some {marker} (h : matchMarker line marker = some label) :
    (line = marker ∧ label = []) ∨ line = marker ++ 0x20 :: label := by
  unfold matchMarker at h
  split_ifs at h with hstart hlen hspace
  · cases h
    have hstarts : marker <+: line := by simpa [startsWith] using hstart
    exact .inl ⟨(hstarts.eq_of_length hlen.symm).symm, rfl⟩
  · cases h
    have hstarts : marker <+: line := by simpa [startsWith] using hstart
    obtain ⟨rest, rfl⟩ := hstarts
    obtain ⟨tail, rfl⟩ : ∃ tail, rest = 0x20 :: tail := by
      cases rest with
      | nil => simp at hspace
      | cons u tail =>
        obtain rfl : u = 0x20 := by simpa using hspace
        exact ⟨tail, rfl⟩
    simp [drop_append]

theorem lineKind_spec (line : JsStr) : match lineKind line with
    | .ours label => matchMarker line oursMarker = some label
    | .base label => matchMarker line baseMarker = some label
    | .separator => line = separator
    | .theirs label => matchMarker line theirsMarker = some label
    | .text => True := by
  unfold lineKind
  cases matchMarker line oursMarker with
  | some label => rfl
  | none =>
    cases matchMarker line baseMarker with
    | some label => rfl
    | none =>
      by_cases hline : line = separator
      · simp only [if_pos hline]
        exact hline
      · simp only [if_neg hline]
        cases matchMarker line theirsMarker <;> trivial

theorem lineKind_eq_ours (h : lineKind line = .ours label) : matchMarker line oursMarker = some label := by
  simpa only [h] using lineKind_spec line

theorem lineKind_eq_base (h : lineKind line = .base label) : matchMarker line baseMarker = some label := by
  simpa only [h] using lineKind_spec line

theorem lineKind_eq_separator (h : lineKind line = .separator) : line = separator := by
  simpa only [h] using lineKind_spec line

theorem lineKind_eq_theirs (h : lineKind line = .theirs label) : matchMarker line theirsMarker = some label := by
  simpa only [h] using lineKind_spec line

theorem lineKind_of_spaced (h : line ∈ spacedMarkers) : lineKind line ≠ .text := by
  have hall : ∀ line ∈ spacedMarkers, lineKind line ≠ .text := by decide
  exact hall line h

theorem canonical_text (h : lineKind line = .text) : canonical line = line := by
  rw [canonical, if_neg]
  intro hmem
  exact lineKind_of_spaced hmem h

theorem canonical_marker {marker : JsStr} (hmem : marker ++ [0x20] ∈ spacedMarkers)
    (hmarker : marker ∉ spacedMarkers) (hlen : marker.length = 7) (h : matchMarker line marker = some label) :
    canonical line = markerLine marker (orUndefined label) := by
  rcases matchMarker_eq_some h with ⟨rfl, rfl⟩ | rfl
  · rw [canonical, if_neg hmarker]
    rfl
  · by_cases hlabel : label = []
    · subst hlabel
      rw [canonical, if_pos hmem]
      simp [orUndefined, markerLine]
    · have hlong : ∀ line ∈ spacedMarkers, line.length = 8 := by decide
      have hnot : marker ++ 0x20 :: label ∉ spacedMarkers := by
        intro hspaced
        have height := hlong _ hspaced
        have hpos := length_pos_iff.mpr hlabel
        simp only [length_append, length_cons] at height
        omega
      rw [canonical, if_neg hnot, orUndefined, if_neg hlabel, markerLine, if_neg hlabel]

theorem canonical_not_spaced (line : JsStr) : canonical line ∉ spacedMarkers := by
  unfold canonical
  split
  next h =>
    have hall : ∀ line ∈ spacedMarkers, line.dropLast ∉ spacedMarkers := by decide
    exact hall line h
  next h => exact h

section

/-- The lines between ours and the separator. -/
def MiddleOf : Option BasePart → List JsStr → Prop
  | none, middle => middle = []
  | some part, middle => ∃ marker label, middle = marker :: part.baseLines ∧ lineKind marker = .base label ∧
      part.baseLabel = orUndefined label ∧ ∀ line ∈ part.baseLines, lineKind line = .text

/-- The opening marker after the lines `pre`, and ours after it. -/
structure OpensAt (first : Nat) (pre : List JsStr) (opener : JsStr) (opened : OpenBlock) : Prop where
  startLine : opened.startLine = first + pre.length
  label : ∃ label, lineKind opener = .ours label ∧ opened.oursLabel = orUndefined label
  text : ∀ line ∈ opened.oursLines, lineKind line = .text

/-- What a state of the scan says about the lines read. -/
def Reading (first : Nat) (before : List JsStr) : ScanState → Prop
  | .idle => True
  | .ours opened => ∃ pre opener, before = pre ++ opener :: opened.oursLines ∧ OpensAt first pre opener opened
  | .base opened part => ∃ pre opener middle, before = pre ++ opener :: (opened.oursLines ++ middle) ∧
      OpensAt first pre opener opened ∧ MiddleOf (some part) middle
  | .theirs opened part _ lines => ∃ pre opener middle,
      before = pre ++ opener :: (opened.oursLines ++ (middle ++ separator :: lines)) ∧
      OpensAt first pre opener opened ∧ MiddleOf part middle ∧ ∀ line ∈ lines, lineKind line = .text

/-- The block `b` ends at the last of the lines `upto`. -/
structure EndsAt (first : Nat) (upto : List JsStr) (b : ConflictBlock) (pre region : List JsStr) :
    Prop where
  split : upto = pre ++ region
  startLine : b.startLine = first + pre.length
  endLine : b.endLine + 1 = first + upto.length
  recorded : region.map canonical = buildRecordedRegion b

theorem map_canonical_text {lines : List JsStr} (h : ∀ line ∈ lines, lineKind line = .text) :
    lines.map canonical = lines := by
  conv_rhs => rw [← map_id lines]
  apply map_congr_left
  intro line hline
  exact canonical_text (h line hline)

theorem MiddleOf.map_canonical {part middle} (h : MiddleOf part middle) :
    middle.map canonical = match part.map (·.baseLines) with
      | none => []
      | some baseLines => markerLine baseMarker (part.bind (·.baseLabel)) :: baseLines := by
  cases part with
  | none =>
    rw [show middle = [] from h]
    rfl
  | some part =>
    obtain ⟨marker, label, rfl, hkind, hlabel, htext⟩ := h
    have hmarker := canonical_marker (by decide) (by decide) (by decide) (lineKind_eq_base hkind)
    simp only [map_cons, hmarker, map_canonical_text htext, Option.map_some, Option.bind_some, hlabel]

variable {first : Nat} {before : List JsStr} {line : JsStr} {state : ScanState}

theorem endsAt_closeBlock {opened part separatorLine lines closer label}
    (h : Reading first before (.theirs opened part separatorLine lines))
    (hcloser : lineKind closer = .theirs label) : ∃ pre region, EndsAt first (before ++ [closer])
      (closeBlock opened part separatorLine lines (first + before.length) label) pre region := by
  obtain ⟨pre, opener, middle, rfl, hopens, hmiddle, htext⟩ := h
  obtain ⟨oursLabel, hopener, holabel⟩ := hopens.label
  refine ⟨pre, opener :: (opened.oursLines ++ (middle ++ separator :: (lines ++ [closer]))), ?_, ?_, ?_, ?_⟩
  · simp
  · exact hopens.startLine
  · simp [closeBlock]
    omega
  · have hours := canonical_marker (by decide) (by decide) (by decide) (lineKind_eq_ours hopener)
    have htheirs := canonical_marker (by decide) (by decide) (by decide) (lineKind_eq_theirs hcloser)
    have hsep : canonical separator = separator := by decide
    cases part <;>
      simp [hours, htheirs, hsep, map_canonical_text hopens.text, map_canonical_text htext,
        hmiddle.map_canonical, buildRecordedRegion, closeBlock, holabel]

theorem OpensAt.append {pre opener opened} (h : OpensAt first pre opener opened) (hline : lineKind line = .text) :
    OpensAt first pre opener { opened with oursLines := opened.oursLines ++ [line] } := by
  refine ⟨h.startLine, h.label, ?_⟩
  exact forall_mem_append.mpr ⟨h.text, forall_mem_singleton.mpr hline⟩

theorem MiddleOf.append {part middle} (h : MiddleOf (some part) middle) (hline : lineKind line = .text) :
    MiddleOf (some { part with baseLines := part.baseLines ++ [line] }) (middle ++ [line]) := by
  obtain ⟨marker, label, rfl, hkind, hlabel, htext⟩ := h
  refine ⟨marker, label, rfl, hkind, hlabel, ?_⟩
  exact forall_mem_append.mpr ⟨htext, forall_mem_singleton.mpr hline⟩

theorem reading_scanLine (h : Reading first before state) (line : JsStr) :
    Reading first (before ++ [line]) (scanLine (first + before.length) line state).1 := by
  unfold scanLine
  cases hkind : lineKind line with
  | ours label => exact ⟨before, line, rfl, rfl, ⟨label, hkind, rfl⟩, by simp⟩
  | base label =>
    cases state with
    | ours opened =>
      obtain ⟨pre, opener, rfl, hopens⟩ := h
      exact ⟨pre, opener, [line], by simp, hopens, line, label, rfl, hkind, rfl, by simp⟩
    | idle | base | theirs => trivial
  | separator =>
    obtain rfl := lineKind_eq_separator hkind
    cases state with
    | ours opened =>
      obtain ⟨pre, opener, rfl, hopens⟩ := h
      exact ⟨pre, opener, [], by simp, hopens, rfl, by simp⟩
    | base opened part =>
      obtain ⟨pre, opener, middle, rfl, hopens, hmiddle⟩ := h
      exact ⟨pre, opener, middle, by simp, hopens, hmiddle, by simp⟩
    | idle | theirs => trivial
  | theirs label => cases state <;> trivial
  | text =>
    cases state with
    | idle => trivial
    | ours opened =>
      obtain ⟨pre, opener, rfl, hopens⟩ := h
      exact ⟨pre, opener, by simp, hopens.append hkind⟩
    | base opened part =>
      obtain ⟨pre, opener, middle, rfl, hopens, hmiddle⟩ := h
      exact ⟨pre, opener, middle ++ [line], by simp, hopens, hmiddle.append hkind⟩
    | theirs opened part separatorLine lines =>
      obtain ⟨pre, opener, middle, rfl, hopens, hmiddle, htext⟩ := h
      refine ⟨pre, opener, middle, by simp, hopens, hmiddle, ?_⟩
      exact forall_mem_append.mpr ⟨htext, forall_mem_singleton.mpr hkind⟩

/-- Only a closing marker after theirs completes a block. -/
theorem scanLine_block {ln b} (h : (scanLine ln line state).2 = some b) :
    ∃ opened part separatorLine lines label, state = .theirs opened part separatorLine lines ∧
      lineKind line = .theirs label ∧ b = closeBlock opened part separatorLine lines ln label := by
  unfold scanLine at h
  cases hkind : lineKind line <;> cases state <;> simp only [hkind] at h <;> cases h
  exact ⟨_, _, _, _, _, rfl, rfl, rfl⟩

theorem endsAt_of_mem_scanFrom {b rest}
    (h : Reading first before state) (hb : b ∈ scanFrom (first + before.length) state rest) :
    ∃ upto post pre region, before ++ rest = upto ++ post ∧ EndsAt first upto b pre region := by
  induction rest generalizing before state with
  | nil => cases hb
  | cons line rest ih =>
    rcases mem_append.mp hb with hb | hb
    · obtain ⟨opened, part, separatorLine, lines, label, rfl, hkind, rfl⟩ := scanLine_block (Option.mem_toList.mp hb)
      obtain ⟨pre, region, hends⟩ := endsAt_closeBlock h hkind
      exact ⟨before ++ [line], rest, pre, region, by simp, hends⟩
    · have hnext := reading_scanLine h line
      obtain ⟨upto, post, pre, region, heq, hends⟩ := ih hnext (by simpa [Nat.add_assoc] using hb)
      exact ⟨upto, post, pre, region, by simpa using heq, hends⟩

end

structure RegionOf (lines : List JsStr) (b : ConflictBlock) (pre region post : List JsStr) : Prop where
  split : lines = pre ++ (region ++ post)
  startLine : b.startLine = pre.length + 1
  endLine : b.endLine = pre.length + region.length
  recorded : region.map canonical = buildRecordedRegion b

theorem exists_regionOf {lines b} (hb : b ∈ scanConflictLines lines 1) :
    ∃ pre region post, RegionOf lines b pre region post := by
  obtain ⟨upto, post, pre, region, hlines, hends⟩ := @endsAt_of_mem_scanFrom 1 [] .idle b lines trivial hb
  have hend := hends.endLine
  rw [hends.split, length_append] at hend
  refine ⟨pre, region, post, ?_, ?_, ?_, hends.recorded⟩
  · simpa [hends.split] using hlines
  · rw [hends.startLine]
    omega
  · omega

section
variable {lines pre region post : List JsStr} {b : ConflictBlock} (h : RegionOf lines b pre region post)
include h

theorem RegionOf.startIdx : b.startLine - 1 = pre.length := by
  rw [h.startLine]
  omega

theorem RegionOf.take_startLine : lines.take (b.startLine - 1) = pre := by
  rw [h.startIdx, h.split, take_left]

theorem RegionOf.drop_endLine : lines.drop b.endLine = post := by
  rw [h.endLine, h.split, ← append_assoc, ← length_append, drop_left]

theorem RegionOf.drop_take : (lines.take b.endLine).drop (b.startLine - 1) = region := by
  rw [h.startIdx, h.endLine, h.split, ← append_assoc, ← length_append, take_left, drop_left]

theorem RegionOf.buildRecordedRegion_of_not_spaced
    (hspaced : ∀ line ∈ region, line ∉ spacedMarkers) : buildRecordedRegion b = region := by
  rw [← h.recorded]
  conv_rhs => rw [← map_id region]
  apply map_congr_left
  intro line hline
  rw [canonical, if_neg (hspaced line hline), id]

/-- A spaced marker never stands in the rebuilt region. -/
theorem RegionOf.not_spaced_of_mem {line} (hline : line ∈ buildRecordedRegion b) : line ∉ spacedMarkers := by
  rw [← h.recorded] at hline
  obtain ⟨l, _, rfl⟩ := mem_map.mp hline
  exact canonical_not_spaced l

end

section
variable {lines expected : List JsStr} {preferredIdx : Nat}

theorem matchesAt_iff {i} : matchesAt lines i expected = true ↔ (lines.drop i).take expected.length = expected ∧
      i + expected.length ≤ lines.length := by
  unfold matchesAt
  rw [Bool.and_eq_true, decide_eq_true_iff, isPrefixOf_iff_prefix, prefix_iff_eq_take, and_comm, eq_comm]

theorem matchesAt_of_closestMatch {limit i} (h : closestMatch lines expected preferredIdx limit = some i) :
    matchesAt lines i expected = true := by
  revert i
  refine foldlRecOn (motive := fun best => ∀ {i}, best = some i → matchesAt lines i expected = true) _ _ ?_ ?_
  · intro i hi
    cases hi
  · intro best hbest j _ i hi
    split at hi
    next hmatch =>
      split at hi
      next =>
        cases hi
        exact hmatch
      next =>
        split_ifs at hi
        · cases hi
          exact hmatch
        · exact hbest hi
    next => exact hbest hi

theorem locateRegion_eq_some {startIdx endIdx}
    (h : locateRegion lines expected preferredIdx = some (startIdx, endIdx)) :
    matchesAt lines startIdx expected = true ∧ endIdx + 1 = startIdx + expected.length := by
  unfold locateRegion at h
  split_ifs at h with hlen hmatch
  · cases h
    exact ⟨hmatch, by omega⟩
  · obtain ⟨best, hbest, heq⟩ := Option.map_eq_some_iff.mp h
    cases heq
    exact ⟨matchesAt_of_closestMatch hbest, by omega⟩

theorem locateRegion_of_matchesAt (hne : expected ≠ []) (h : matchesAt lines preferredIdx expected = true) :
    locateRegion lines expected preferredIdx = some (preferredIdx, preferredIdx + expected.length - 1) := by
  have hlen := (matchesAt_iff.mp h).2
  have hpos := length_pos_iff.mpr hne
  rw [locateRegion, if_neg (by omega), if_pos h]

end

theorem spliceConflict_eq_ok {text replacement result entry}
    (h : spliceConflict text entry replacement = .ok result) :
    ∃ before after, splitLines text = before ++ (buildRecordedRegion entry.toConflictBlock ++ after) ∧
      result = joinLines (before ++ splitLines (normalizeTrailingNewline replacement) ++ after) := by
  simp only [spliceConflict] at h
  split at h
  next => cases h
  next startIdx endIdx hlocate =>
    cases h
    obtain ⟨hmatch, hend⟩ := locateRegion_eq_some hlocate
    obtain ⟨htake, _⟩ := matchesAt_iff.mp hmatch
    refine ⟨(splitLines text).take startIdx, (splitLines text).drop (endIdx + 1), ?_, rfl⟩
    conv_lhs => rw [← take_append_drop startIdx (splitLines text),
      ← take_append_drop (buildRecordedRegion entry.toConflictBlock).length ((splitLines text).drop startIdx)]
    rw [htake, drop_drop, ← hend]

theorem splitLines_joinLines_spliced {text replacement before after}
    (hbefore : before ⊆ splitLines text) (hafter : after ⊆ splitLines text) :
    splitLines (joinLines (before ++ splitLines replacement ++ after)) =
      before ++ splitLines replacement ++ after := by
  apply splitLines_joinLines
  · simp [splitLines_ne_nil]
  · refine forall_mem_append.mpr ⟨forall_mem_append.mpr ⟨?_, ?_⟩, ?_⟩
    · exact fun l hl => LF_notMem_of_mem_splitLines (hbefore hl)
    · exact fun l hl => LF_notMem_of_mem_splitLines hl
    · exact fun l hl => LF_notMem_of_mem_splitLines (hafter hl)

/-- A detected block is replaced exactly when the scan's spelling of its markers is the file's:
no marker of the block is followed by a space alone. -/
theorem spliceConflict_exact_iff (text : JsStr) (b : ConflictBlock)
    (hb : b ∈ scanConflictLines (splitLines text) 1) (entry : ConflictEntry)
    (hentry : entry.toConflictBlock = b) (replacement : JsStr) : spliceConflict text entry replacement =
        .ok (joinLines ((splitLines text).take (b.startLine - 1) ++
          splitLines (normalizeTrailingNewline replacement) ++ (splitLines text).drop b.endLine)) ↔
      ∀ line ∈ ((splitLines text).take b.endLine).drop (b.startLine - 1), line ∉ spacedMarkers := by
  obtain ⟨pre, region, post, hregion⟩ := exists_regionOf hb
  rw [hregion.take_startLine, hregion.drop_take, hregion.drop_endLine]
  constructor
  · intro h line hline hspaced
    -- the rebuilt region has no such line, so the lines of the result have one too many
    obtain ⟨before, after, hlines, hresult⟩ := spliceConflict_eq_ok h
    have hsame : pre ++ splitLines (normalizeTrailingNewline replacement) ++ post =
        before ++ splitLines (normalizeTrailingNewline replacement) ++ after := by
      rw [← @splitLines_joinLines_spliced text _ pre post, hresult, @splitLines_joinLines_spliced text]
      · simp [hlines]
      · simp [hlines]
      · simp [hregion.split]
      · simp [hregion.split]
    have hnone : (buildRecordedRegion entry.toConflictBlock).count line = 0 := by
      rw [hentry, count_eq_zero]
      intro hmem
      exact hregion.not_spaced_of_mem hmem hspaced
    have hsome : 0 < region.count line := count_pos_iff.mpr hline
    have hcount := congrArg (List.count line) hsame
    have htotal := congrArg (List.count line) (hlines.symm.trans hregion.split)
    simp only [count_append] at hcount htotal
    omega
  · intro h
    have hrebuilt := hregion.buildRecordedRegion_of_not_spaced h
    have hne : region ≠ [] := by simp [← hrebuilt, buildRecordedRegion]
    have hmatch : matchesAt (splitLines text) pre.length region = true := by
      rw [matchesAt_iff, hregion.split]
      simp
    have hpos := length_pos_iff.mpr hne
    have hend : pre.length + region.length - 1 + 1 = b.endLine := by
      rw [hregion.endLine]
      omega
    have hbefore : (splitLines text).take pre.length = pre := by
      rw [← hregion.startIdx, hregion.take_startLine]
    simp only [spliceConflict, hentry, hrebuilt, hregion.startIdx, locateRegion_of_matchesAt hne hmatch, hend,
      hregion.drop_endLine, hbefore]

theorem spliceConflict_labelled_block : spliceConflict (lit "a\n<<<<<<< x\nb\n=======\n>>>>>>>\nc")
        ⟨⟨2, 4, 5, none, some (lit "x"), none, none, [lit "b"], none, []⟩, 1, [], []⟩ (lit "d\n") =
      .ok (lit "a\nd\nc") := by
  rw [show lit "a\nd\nc" = joinLines ((splitLines (lit "a\n<<<<<<< x\nb\n=======\n>>>>>>>\nc")).take (2 - 1) ++
    splitLines (normalizeTrailingNewline (lit "d\n")) ++
    (splitLines (lit "a\n<<<<<<< x\nb\n=======\n>>>>>>>\nc")).drop 5) by decide +kernel]
  exact (spliceConflict_exact_iff _ _ (by decide +kernel) _ rfl _).mpr (by decide +kernel)

/-- The scan reports the block, the rebuilt opening marker has no space, and the block is not found. -/
theorem spliceConflict_spaced_opener : scanConflictLines (splitLines (lit "<<<<<<< \n=======\n>>>>>>>")) 1 =
        [⟨1, 2, 3, none, none, none, none, [], none, []⟩] ∧ spliceConflict (lit "<<<<<<< \n=======\n>>>>>>>")
          ⟨⟨1, 2, 3, none, none, none, none, [], none, []⟩, 1, [], []⟩ (lit "a") =
        .error (notPresentError ⟨⟨1, 2, 3, none, none, none, none, [], none, []⟩, 1, [], []⟩) := by
  decide +kernel

end GajaeCode.Tools.Conflict
