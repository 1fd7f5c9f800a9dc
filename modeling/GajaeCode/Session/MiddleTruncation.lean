import GajaeCode.Session.LineTruncation

/-! When a text with its middle elided is within the budget. -/
namespace GajaeCode.Session
open Text List

/-- A text within the budget, or one with a marker that exceeds it by no more than the
marker and its two line feeds. -/
def WithinBudget (toLocaleString : Nat → JsStr) (maxBytes : Nat) (text : JsStr) : Prop :=
  byteLength text ≤ maxBytes + 1 ∨
    ∃ elidedLines elidedBytes, formatMiddleElisionMarker toLocaleString elidedLines elidedBytes <:+: text ∧
      byteLength text ≤ maxBytes + 2 + byteLength (formatMiddleElisionMarker toLocaleString elidedLines elidedBytes)

/-- Every line but the last fits the head window and the last one exceeds the tail window. -/
def LastLineOverflows (content : JsStr) (headLines headBytes tailBytes : Nat) : Prop :=
  ∃ init last, splitLines content = init ++ [last] ∧ init ≠ [] ∧ init.length ≤ headLines ∧
    byteLength (joinLines init) ≤ headBytes ∧ tailBytes < byteLength last

theorem makeReadSegment_eq {result} (h : outputLineCount result ≠ 0) (startLine totalLines : Nat) (source : JsStr) :
    ∃ segment, makeReadSegment result startLine totalLines source = some segment ∧
      segment.content = result.content ∧ segment.bytes = outputByteCount result ∧
      segment.lastLinePartial = result.lastLinePartial ∧
      segment.lineCount = if result.lastLinePartial then 1 else outputLineCount result := by
  unfold makeReadSegment
  rw [if_neg h]
  cases hpart : result.lastLinePartial with
  | true => exact ⟨_, rfl, rfl, rfl, rfl, rfl⟩
  | false => exact ⟨_, rfl, rfl, rfl, rfl, rfl⟩

section

variable {toLocaleString : Nat → JsStr} {content : JsStr} {options : TruncationOptions}
variable {maxBytes maxLines headBytes headLines : Nat}

def middleOptions (maxBytes maxLines headBytes headLines : Nat) : TruncationOptions :=
  { maxLines := some maxLines, maxBytes := some maxBytes, maxHeadBytes := some headBytes,
    maxHeadLines := some headLines }

theorem withinBudget_spliceWindows {windows head tail}
    (h : byteLength head.content + byteLength tail.content ≤ maxBytes) :
    WithinBudget toLocaleString maxBytes (spliceWindows toLocaleString windows head tail).content := by
  refine .inr ⟨windows.totalLines - head.lineCount - tail.lineCount, legacyElidedBytes windows head tail,
    ⟨head.content ++ [LF], LF :: tail.content, by simp [spliceWindows]⟩, ?_⟩
  simp only [spliceWindows]
  rw [byteLength_append_LF, byteLength_append_LF]
  omega

theorem content_of_full (hkind : (truncateMiddleWindows content options).kind = .full) :
    (truncateMiddle toLocaleString content options).content = content := by
  simp only [truncateMiddle, hkind]
  rfl

theorem combineWindows_eq {head tail totalLines totalBytes}
    (hhead : outputLineCount head ≠ 0) (hfirst : head.firstLineExceedsLimit = false)
    (htail : outputLineCount tail ≠ 0) :
    ((totalLines ≤ outputLineCount head + outputLineCount tail ∧ tail.lastLinePartial = false) ∧
      (combineWindows content totalLines totalBytes head tail).kind = .full) ∨
    (¬ (totalLines ≤ outputLineCount head + outputLineCount tail ∧ tail.lastLinePartial = false) ∧
      ∃ headWindow tailWindow startLine windows,
        combineWindows content totalLines totalBytes head tail = windows ∧ windows.kind = .middle ∧
        windows.totalLines = totalLines ∧ windows.head = some headWindow ∧ windows.tail = some tailWindow ∧
        makeReadSegment head 1 totalLines content = some headWindow ∧
        makeReadSegment tail startLine totalLines content = some tailWindow) := by
  obtain ⟨headWindow, hheadWindow, -⟩ := makeReadSegment_eq hhead 1 totalLines content
  obtain ⟨tailWindow, htailWindow, -⟩ :=
    makeReadSegment_eq htail (totalLines - outputLineCount tail + 1) totalLines content
  unfold combineWindows
  simp only [hhead, hfirst, htail, Bool.false_eq_true, or_false, if_false]
  split
  next hfull => exact .inl ⟨hfull, rfl⟩
  next hmiddle =>
    refine .inr ⟨hmiddle, headWindow, tailWindow, _, _, rfl, ?_, ?_, ?_, ?_, hheadWindow, htailWindow⟩ <;>
      simp only [hheadWindow, htailWindow]

theorem not_lastLineOverflows_of_head {tailBytes}
    (h : ∀ line ∈ (splitLines content).head?, headBytes < byteLength line) :
    ¬ LastLineOverflows content headLines headBytes tailBytes := by
  rintro ⟨init, last, hsplit, hne, -, hbytes, -⟩
  obtain ⟨line, init, rfl⟩ := exists_cons_of_ne_nil hne
  have hline := h line (by simp [hsplit])
  have hle := byteLength_joinLines_le_append [line] init
  rw [joinLines_singleton, singleton_append] at hle
  omega

theorem not_lastLineOverflows_of_last {init last tailBytes}
    (hsplit : splitLines content = init ++ [last]) (h : byteLength last ≤ tailBytes) :
    ¬ LastLineOverflows content headLines headBytes tailBytes := by
  rintro ⟨init', last', hsplit', -, -, -, hlast⟩
  rw [hsplit] at hsplit'
  have heq := (append_inj' hsplit' rfl).2
  rw [singleton_inj] at heq
  rw [heq] at h
  omega

theorem not_lastLineOverflows_of_keeps {tailBytes k}
    (hkeeps : Keeps headLines headBytes (splitLines content) k) (hlt : k + 1 < (splitLines content).length) :
    ¬ LastLineOverflows content headLines headBytes tailBytes := by
  rintro ⟨init, last, hsplit, -, hlines, hbytes, -⟩
  rw [hsplit] at hlt hkeeps
  rw [length_append, length_singleton] at hlt
  have hle := byteLength_joinLines_le_append (init.take (k + 1)) (init.drop (k + 1))
  rw [take_append_drop] at hle
  rcases hkeeps.stops (by simp; omega) with h | h
  · omega
  · rw [take_append_of_le_length (by omega)] at h
    omega

theorem lastLineOverflows_of_keeps {init last tailBytes k}
    (hsplit : splitLines content = init ++ [last]) (hpos : 0 < k)
    (hkeeps : Keeps headLines headBytes (splitLines content) k)
    (heq : k + 1 = (splitLines content).length) (h : tailBytes < byteLength last) :
    LastLineOverflows content headLines headBytes tailBytes := by
  rw [hsplit] at hkeeps heq
  have hk : k = init.length := by simpa using heq
  have hbytes := hkeeps.le_bytes
  rw [hk, take_left] at hbytes
  refine ⟨init, last, hsplit, ?_, hk ▸ hkeeps.le_lines, hbytes, h⟩
  rw [← length_pos_iff]
  omega

section

variable {head tail : TruncationResult} {last : JsStr} {k tailBytes : Nat}

/-- Two windows of whole lines that meet cover a text within the budget. -/
theorem withinBudget_of_cover (hhead : HeadKept content headLines headBytes k head)
    (htail : TailKept content last tailBytes tail) (hwhole : tail.lastLinePartial = false)
    (hcover : (splitLines content).length ≤ outputLineCount head + outputLineCount tail) :
    WithinBudget toLocaleString (headBytes + tailBytes) content := by
  rcases htail.lines with ⟨-, -, hpart⟩ | ⟨-, -, j, hj, hjle, hcount, hcontent⟩
  · exact absurd hpart (by simp [hwhole])
  · have hle := byteLength_joinLines_le (splitLines content) hhead.pos hhead.lt_length
      (show (splitLines content).length - j ≤ k by rw [hhead.lineCount] at hcover; omega)
    have hheadBytes := hhead.keeps.le_bytes
    have htailBytes := htail.le_bytes
    rw [joinLines_splitLines, ← hcontent] at hle
    left
    omega

/-- The windows that do not meet are spliced; with a part of the last line the source
comes back whole where the head window reaches that line. -/
theorem cases_of_windows (hhead : HeadKept content headLines headBytes k head)
    {init} (hsplit : splitLines content = init ++ [last]) (htail : TailKept content last tailBytes tail)
    (hmiddle : ¬ ((splitLines content).length ≤ outputLineCount head + outputLineCount tail ∧
      tail.lastLinePartial = false)) {headWindow tailWindow startHead startTail totalLines source}
    (hheadWindow : makeReadSegment head startHead totalLines source = some headWindow)
    (htailWindow : makeReadSegment tail startTail totalLines source = some tailWindow)
    (windows : ReadWindow) :
    let text := if (splitLines content).length ≤ headWindow.lineCount + tailWindow.lineCount then content
      else (spliceWindows toLocaleString windows headWindow tailWindow).content
    (text = content ∧ LastLineOverflows content headLines headBytes tailBytes) ∨
    (WithinBudget toLocaleString (headBytes + tailBytes) text ∧
      ¬ LastLineOverflows content headLines headBytes tailBytes) := by
  intro text
  obtain ⟨segment, hsegment, hheadContent, -, -, hheadLines⟩ := makeReadSegment_eq
    (hhead.lineCount ▸ hhead.pos.ne' : outputLineCount head ≠ 0) startHead totalLines source
  obtain rfl : segment = headWindow := Option.some.inj (hsegment.symm.trans hheadWindow)
  obtain ⟨segment', hsegment', htailContent, -, -, htailLines⟩ :=
    makeReadSegment_eq htail.lineCount_ne_zero startTail totalLines source
  obtain rfl : segment' = tailWindow := Option.some.inj (hsegment'.symm.trans htailWindow)
  have hsplice : WithinBudget toLocaleString (headBytes + tailBytes)
      (spliceWindows toLocaleString windows segment segment').content := by
    have hheadBytes := hhead.keeps.le_bytes
    have htailBytes := htail.le_bytes
    apply withinBudget_spliceWindows
    rw [hheadContent, htailContent, hhead.content_eq]
    omega
  rw [hhead.whole.2, hhead.lineCount] at hheadLines
  have hlt := hhead.lt_length
  rcases htail.lines with ⟨hlast, -, hpart⟩ | ⟨hlast, hpart, j, hj, hjle, hcount, hcontent⟩
  · rw [hpart] at htailLines
    by_cases hreach : (splitLines content).length ≤ k + 1
    · left
      have htext : text = content := if_pos (by rw [hheadLines, htailLines]; exact hreach)
      exact ⟨htext, lastLineOverflows_of_keeps hsplit hhead.pos hhead.keeps (by omega) hlast⟩
    · right
      have htext : text = (spliceWindows toLocaleString windows segment segment').content :=
        if_neg (by rw [hheadLines, htailLines]; exact hreach)
      exact ⟨htext ▸ hsplice, not_lastLineOverflows_of_keeps hhead.keeps (by omega)⟩
  · right
    rw [hpart] at htailLines
    have hapart : ¬ (splitLines content).length ≤ outputLineCount head + outputLineCount tail := by
      intro hle
      exact hmiddle ⟨hle, hpart⟩
    have htext : text = (spliceWindows toLocaleString windows segment segment').content :=
      if_neg (by rw [hheadLines, htailLines, ← hhead.lineCount]; exact hapart)
    exact ⟨htext ▸ hsplice, not_lastLineOverflows_of_last hsplit hlast⟩

end

/-- The text of a truncation is the source, where the last line may overflow, or one
within the budget. -/
theorem truncateMiddle_cases (hheadBytes : 0 < headBytes) (hbytes : headBytes < maxBytes)
    (hheadLines : 0 < headLines) (hlines : headLines < maxLines) :
    let text := (truncateMiddle toLocaleString content (middleOptions maxBytes maxLines headBytes headLines)).content
    (text = content ∧ (LastLineOverflows content headLines headBytes (maxBytes - headBytes) ∨
      WithinBudget toLocaleString maxBytes content)) ∨
    (WithinBudget toLocaleString maxBytes text ∧
      ¬ LastLineOverflows content headLines headBytes (maxBytes - headBytes)) := by
  intro text
  have htotal : (splitLines content).length = countNewlines content + 1 := length_splitLines content
  obtain ⟨init, last, hsplit⟩ := exists_splitLines_concat content
  have hbudget : (middleOptions maxBytes maxLines headBytes headLines).budget =
      ⟨maxBytes, maxLines, headBytes, maxBytes - headBytes, headLines, maxLines - headLines⟩ := rfl
  by_cases hfits : byteLength content ≤ maxBytes ∧ countNewlines content + 1 ≤ maxLines
  · left
    refine ⟨content_of_full ?_, .inr (.inl (by omega))⟩
    unfold truncateMiddleWindows
    rw [hbudget, if_pos hfits]
    rfl
  have hwindows : truncateMiddleWindows content (middleOptions maxBytes maxLines headBytes headLines) =
      combineWindows content (countNewlines content + 1) (byteLength content)
        (truncateHead content { maxLines := some headLines, maxBytes := some headBytes })
        (truncateTail content
          { maxLines := some (maxLines - headLines), maxBytes := some (maxBytes - headBytes) }) := by
    unfold truncateMiddleWindows
    rw [hbudget, if_neg hfits, if_neg (by simp only; omega), if_neg (by simp only; omega)]
    rfl
  have htail := @truncateTail_kept content (maxLines - headLines) (maxBytes - headBytes) (by omega)
    (by omega) init last hsplit
  have hcases := @truncateHead_cases content headLines headBytes hheadLines (by omega)
  rw [← htotal] at hwindows
  have hsum : headBytes + (maxBytes - headBytes) = maxBytes := by omega
  generalize htailEq : truncateTail content
    { maxLines := some (maxLines - headLines), maxBytes := some (maxBytes - headBytes) } = tail
    at htail hwindows
  generalize truncateHead content { maxLines := some headLines, maxBytes := some headBytes } = head
    at hcases hwindows
  rcases hcases with ⟨hnone, hfirst⟩ | ⟨k, hhead⟩
  · right
    have hkind : (truncateMiddleWindows content
        (middleOptions maxBytes maxLines headBytes headLines)).kind = .tailOnly := by
      rw [hwindows]
      unfold combineWindows
      rw [if_pos (.inl hnone)]
      rfl
    have htext : text = tail.content := by
      simp only [text, truncateMiddle, hkind, MiddleBudget.tailOnly, hbudget, orElse]
      rw [if_neg (by omega), if_neg (by omega), htailEq]
    have hle := htail.le_bytes
    refine ⟨.inl ?_, not_lastLineOverflows_of_head hfirst⟩
    rw [htext]
    omega
  · rcases @combineWindows_eq content head tail (splitLines content).length (byteLength content)
      (hhead.lineCount ▸ hhead.pos.ne') hhead.whole.1 htail.lineCount_ne_zero with
        ⟨⟨hcover, hwhole⟩, hkind⟩ | ⟨hmiddle, headWindow, tailWindow, startLine, windows, hcombine, hkind,
          hwindowLines, hwh, hwt, hheadWindow, htailWindow⟩
    · left
      refine ⟨content_of_full (hwindows ▸ hkind), .inr ?_⟩
      exact hsum ▸ withinBudget_of_cover hhead htail hwhole hcover
    · have htext : text = if windows.totalLines ≤ headWindow.lineCount + tailWindow.lineCount then content
          else (spliceWindows toLocaleString windows headWindow tailWindow).content := by
        simp only [text, truncateMiddle, hwindows.trans hcombine, hkind, hwh, hwt]
        split <;> rfl
      have hresult := @cases_of_windows toLocaleString content headBytes headLines head tail last k
        (maxBytes - headBytes) hhead init hsplit htail hmiddle headWindow tailWindow 1 startLine _ _
        hheadWindow htailWindow windows
      rw [hwindowLines] at htext
      simp only [hsum] at hresult
      rw [← htext] at hresult
      exact hresult.imp_left (And.imp_right .inl)

/-- Middle truncation respects its budget but where the last line overflows: there the
source comes back whole. -/
theorem truncateMiddle_within_budget_iff (toLocaleString : Nat → JsStr) (content : JsStr)
    {maxBytes maxLines headBytes headLines : Nat} (hheadBytes : 0 < headBytes)
    (hbytes : headBytes < maxBytes) (hheadLines : 0 < headLines) (hlines : headLines < maxLines) :
    WithinBudget toLocaleString maxBytes (truncateMiddle toLocaleString content
      (middleOptions maxBytes maxLines headBytes headLines)).content ↔
    ¬ LastLineOverflows content headLines headBytes (maxBytes - headBytes) ∨
      WithinBudget toLocaleString maxBytes content := by
  rcases @truncateMiddle_cases toLocaleString content maxBytes maxLines headBytes headLines hheadBytes
    hbytes hheadLines hlines with ⟨htext, hcases⟩ | ⟨hwithin, hnot⟩
  · rw [htext]
    exact ⟨.inr, fun h => h.elim hcases.resolve_left id⟩
  · exact iff_of_true hwithin (.inl hnot)

theorem truncateMiddle_two_of_four_lines :
    WithinBudget decimal 7 (truncateMiddle decimal (lit "aa\nbb\ncc\ndd") (middleOptions 7 4 3 2)).content := by
  apply (truncateMiddle_within_budget_iff decimal (lit "aa\nbb\ncc\ndd") (by decide) (by decide)
    (by decide) (by decide)).mpr
  left
  exact @not_lastLineOverflows_of_last _ _ _ [lit "aa", lit "bb", lit "cc"] (lit "dd") _ (by decide +kernel)
    (by decide)

/-- A short line before a wide one: ten bytes come back on a budget of four. -/
theorem truncateMiddle_wide_last_line :
    ¬ WithinBudget decimal 4 (truncateMiddle decimal (lit "a\nbbbbbbbb") (middleOptions 4 4 2 2)).content := by
  have htext : (truncateMiddle decimal (lit "a\nbbbbbbbb") (middleOptions 4 4 2 2)).content =
      lit "a\nbbbbbbbb" := by
    decide +kernel
  rw [htext]
  rintro (hle | ⟨elidedLines, elidedBytes, hinfix, -⟩)
  · exact absurd hle (by decide)
  · have hlen := hinfix.length_le
    simp only [formatMiddleElisionMarker, length_append] at hlen
    have hopen : (lit "[… ").length = 3 := by decide
    have hmiddle : (lit " elided (").length = 9 := by decide
    have hall : (lit "a\nbbbbbbbb").length = 10 := by decide
    omega

end

end GajaeCode.Session
