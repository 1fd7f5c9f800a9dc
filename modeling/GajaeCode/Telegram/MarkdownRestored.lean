import GajaeCode.Telegram.Placeholders

/-! When the placeholders of a conversion are all restored. Restoring is one pass, so a construct that holds
another one leaves its placeholder behind. -/
namespace GajaeCode.Telegram

open Text List

/-! ### Fragments with NUL -/

theorem nul_mem_escapeHtml_iff {value} : nulUnit ∈ escapeHtml value ↔ nulUnit ∈ value := by
  rw [escapeHtml, mem_replaceUnit_iff (by decide) (by decide), mem_replaceUnit_iff (by decide) (by decide),
    mem_replaceUnit_iff (by decide) (by decide)]

theorem nul_mem_escapeAttr_iff {value} : nulUnit ∈ escapeAttr value ↔ nulUnit ∈ value := by
  rw [escapeAttr, mem_replaceUnit_iff (by decide) (by decide), nul_mem_escapeHtml_iff]

theorem mem_intercalate_iff {u} {sep : JsStr} (hu : u ∉ sep) {parts : List JsStr} :
    u ∈ sep.intercalate parts ↔ ∃ part ∈ parts, u ∈ part := by
  induction parts with
  | nil => simp
  | cons part parts ih =>
    cases parts with
    | nil => simp
    | cons next parts =>
      rw [intercalate_cons_cons, mem_append, mem_append, or_iff_left hu, ih]
      simp

namespace Table

variable (table : Table) (stringWidth : JsStr → Nat)

/-- The cells that a rendered table shows: all of a grid, of wide rows those below the header. -/
def shownCells : List JsStr :=
  if table.Compact stringWidth then table.rows.flatten
  else table.header ++ table.body.flatMap fun row => (List.range table.header.length).map (cellAt row)

variable {table stringWidth}

theorem mem_padCell_iff {u} (hu : u ≠ ascii ' ') {value c} : u ∈ table.padCell value c ↔ u ∈ value := by
  have hspaces : ∀ n, u ∉ spaces n := fun n hmem => hu (eq_of_mem_replicate hmem)
  unfold padCell
  cases table.aligns[c]?.getD .left <;> simp [hspaces]

theorem le_foldl_max {ns : List Nat} {init n} (h : n ≤ init ∨ n ∈ ns) : n ≤ ns.foldl max init := by
  induction ns generalizing init with
  | nil => exact h.resolve_right not_mem_nil
  | cons m ns ih =>
    apply ih
    rcases h with h | h
    · exact .inl (h.trans (Nat.le_max_left _ _))
    · rcases mem_cons.mp h with rfl | h
      · exact .inl (Nat.le_max_right _ _)
      · exact .inr h

variable {row : List JsStr}

theorem length_le_cols (h : row ∈ table.rows) : row.length ≤ table.cols := by
  apply le_foldl_max
  rcases mem_cons.mp h with rfl | h
  · exact .inl (Nat.le_refl _)
  · exact .inr (mem_map.mpr ⟨row, h, rfl⟩)

theorem mem_cellAt {u c} (h : u ∈ cellAt row c) : ∃ cell ∈ row, u ∈ cell := by
  unfold cellAt at h
  cases hget : row[c]? with
  | none => simp [hget] at h
  | some cell => exact ⟨cell, mem_of_getElem? hget, by simpa [hget] using h⟩

theorem nul_mem_renderRow_iff (h : row ∈ table.rows) :
    nulUnit ∈ table.renderRow row ↔ ∃ cell ∈ row, nulUnit ∈ cell := by
  rw [renderRow, mem_intercalate_iff (by decide)]
  constructor
  · rintro ⟨part, hpart, hmem⟩
    obtain ⟨c, -, rfl⟩ := mem_map.mp hpart
    exact mem_cellAt ((mem_padCell_iff (by decide)).mp hmem)
  · rintro ⟨cell, hcell, hmem⟩
    obtain ⟨c, hc, rfl⟩ := getElem_of_mem hcell
    refine ⟨_, mem_map.mpr ⟨c, mem_range.mpr (hc.trans_le (length_le_cols h)), rfl⟩, ?_⟩
    rw [mem_padCell_iff (by decide), cellAt, getElem?_eq_getElem hc]
    exact hmem

theorem nul_notMem_divider : nulUnit ∉ table.divider := by
  rw [divider, mem_intercalate_iff (by decide)]
  rintro ⟨part, hpart, hmem⟩
  obtain ⟨c, -, rfl⟩ := mem_map.mp hpart
  exact absurd (eq_of_mem_replicate hmem) (by decide)

theorem nul_mem_renderTableText_iff :
    nulUnit ∈ table.renderTableText ↔ ∃ cell ∈ table.rows.flatten, nulUnit ∈ cell := by
  rw [renderTableText, joinLines, mem_intercalate_iff (by decide)]
  constructor
  · rintro ⟨line, hline, hmem⟩
    have hrow : ∃ row ∈ table.rows, line = table.renderRow row := by
      rcases mem_cons.mp hline with rfl | hline
      · exact ⟨_, mem_cons_self, rfl⟩
      · rcases mem_cons.mp hline with rfl | hline
        · exact absurd hmem nul_notMem_divider
        · obtain ⟨row, hrow, rfl⟩ := mem_map.mp hline
          exact ⟨row, mem_cons_of_mem _ hrow, rfl⟩
    obtain ⟨row, hrow, rfl⟩ := hrow
    obtain ⟨cell, hcell, hnul⟩ := (nul_mem_renderRow_iff hrow).mp hmem
    exact ⟨cell, mem_flatten.mpr ⟨row, hrow, hcell⟩, hnul⟩
  · rintro ⟨cell, hcell, hnul⟩
    obtain ⟨row, hrow, hcell⟩ := mem_flatten.mp hcell
    refine ⟨table.renderRow row, ?_, (nul_mem_renderRow_iff hrow).mpr ⟨cell, hcell, hnul⟩⟩
    rcases mem_cons.mp hrow with rfl | hrow
    · exact mem_cons_self
    · exact mem_cons_of_mem _ (mem_cons_of_mem _ (mem_map.mpr ⟨row, hrow, rfl⟩))

theorem nul_mem_renderRecord_iff : nulUnit ∈ table.renderRecord row ↔
      (∃ label ∈ table.header, nulUnit ∈ label) ∨ ∃ c < table.header.length, nulUnit ∈ cellAt row c := by
  rw [renderRecord, joinLines, mem_intercalate_iff (by decide)]
  have hline : ∀ (column : Nat) (label : JsStr),
      nulUnit ∈ tag (lit "b") (escapeHtml (if label = [] then lit "Column " ++ decimal (column + 1) else label)) ++ lit ": " ++
        escapeHtml (cellAt row column) ↔ nulUnit ∈ label ∨ nulUnit ∈ cellAt row column := by
    intro column label
    have hlabel : nulUnit ∈ (if label = [] then lit "Column " ++ decimal (column + 1) else label) ↔ nulUnit ∈ label := by
      split_ifs with hempty
      · subst hempty
        refine iff_of_false ?_ not_mem_nil
        rw [mem_append, not_or]
        exact ⟨by decide, fun hmem => absurd (isDigit_of_mem_decimal hmem) (by decide)⟩
      · rfl
    have hcolon : nulUnit ∉ lit ": " := by decide
    rw [mem_append, mem_append, or_iff_left hcolon, mem_tag_iff isCut_nulUnit (by decide),
      nul_mem_escapeHtml_iff, nul_mem_escapeHtml_iff, hlabel]
  constructor
  · rintro ⟨line, hmem, hnul⟩
    obtain ⟨c, hc, rfl⟩ := mem_mapIdx.mp hmem
    rcases (hline _ _).mp hnul with hnul | hnul
    · exact .inl ⟨_, getElem_mem hc, hnul⟩
    · exact .inr ⟨c, hc, hnul⟩
  · rintro (⟨label, hlabel, hnul⟩ | ⟨c, hc, hnul⟩)
    · obtain ⟨c, hc, rfl⟩ := getElem_of_mem hlabel
      exact ⟨_, mem_mapIdx.mpr ⟨c, hc, rfl⟩, (hline _ _).mpr (.inl hnul)⟩
    · exact ⟨_, mem_mapIdx.mpr ⟨c, hc, rfl⟩, (hline _ _).mpr (.inr hnul)⟩

theorem nul_mem_renderTelegramTable_iff :
    nulUnit ∈ table.renderTelegramTable stringWidth ↔ ∃ cell ∈ table.shownCells stringWidth, nulUnit ∈ cell := by
  unfold renderTelegramTable shownCells
  split_ifs with hcompact
  · rw [pre, mem_tag_iff isCut_nulUnit (by decide), nul_mem_escapeHtml_iff, nul_mem_renderTableText_iff]
  · have hbody : table.body ≠ [] := fun hbody => hcompact (.inl hbody)
    obtain ⟨first, rest, hfirst⟩ := exists_cons_of_ne_nil hbody
    rw [mem_intercalate_iff (by decide)]
    constructor
    · rintro ⟨record, hrecord, hnul⟩
      obtain ⟨row, hrow, rfl⟩ := mem_map.mp hrecord
      rcases nul_mem_renderRecord_iff.mp hnul with ⟨label, hlabel, hnul⟩ | ⟨c, hc, hnul⟩
      · exact ⟨label, mem_append_left _ hlabel, hnul⟩
      · refine ⟨cellAt row c, mem_append_right _ (mem_flatMap.mpr ⟨row, hrow, ?_⟩), hnul⟩
        exact mem_map.mpr ⟨c, mem_range.mpr hc, rfl⟩
    · rintro ⟨cell, hcell, hnul⟩
      rcases mem_append.mp hcell with hcell | hcell
      · refine ⟨_, mem_map.mpr ⟨first, hfirst ▸ mem_cons_self, rfl⟩, ?_⟩
        exact nul_mem_renderRecord_iff.mpr (.inl ⟨cell, hcell, hnul⟩)
      · obtain ⟨row, hrow, hcell⟩ := mem_flatMap.mp hcell
        obtain ⟨c, hc, rfl⟩ := mem_map.mp hcell
        refine ⟨_, mem_map.mpr ⟨row, hrow, rfl⟩, ?_⟩
        exact nul_mem_renderRecord_iff.mpr (.inr ⟨c, mem_range.mp hc, hnul⟩)

end Table

/-! ### What is stashed where -/

section

variable (stringWidth : JsStr → Nat) (markdown : JsStr)

def tablesAfterFences : List Table := tablesOf (tableBlocks 0 (splitLines (protectFences markdown).text))

def codeAfterTables : List JsStr :=
  hits (scan inlineCode (convertMarkdownTables stringWidth (protectFences markdown)).text)

def linksAfterCode : List JsStr :=
  hits (scan linkMatch (protectCode (convertMarkdownTables stringWidth (protectFences markdown))).text)

/-- No cell that is shown, no inline code and no link that is converted holds a stashed construct. -/
structure NothingNested : Prop where
  tables : ∀ table ∈ tablesAfterFences markdown, ∀ cell ∈ table.shownCells stringWidth, nulUnit ∉ cell
  code : ∀ s ∈ codeAfterTables stringWidth markdown, nulUnit ∉ s
  links : ∀ s ∈ linksAfterCode stringWidth markdown, isSafeUrl (linkUrl s) = true → nulUnit ∉ s

end

theorem isMatcher_inlineCode : IsMatcher inlineCode := isMatcher_delimited

variable {s markdown : JsStr}

theorem nul_mem_code_iff {post} (h : inlineCode (s ++ post) = some s.length) :
    nulUnit ∈ code (delimitedBody 1 s) ↔ nulUnit ∈ s := by
  have htick : nulUnit ∉ [tickUnit] := by decide
  rw [code, mem_tag_iff isCut_nulUnit (by decide), nul_mem_escapeHtml_iff]
  conv_rhs => rw [inlineCode_split h, ← singleton_append, append_assoc, mem_append, or_iff_right htick,
    mem_append, or_iff_left htick]

theorem nul_mem_linkHtml_iff {post fragment} (h : linkMatch (s ++ post) = some s.length)
    (hfragment : linkHtml s = some fragment) : nulUnit ∈ fragment ↔ nulUnit ∈ s := by
  unfold linkHtml at hfragment
  split_ifs at hfragment
  cases hfragment
  have hs : nulUnit ∈ s ↔ nulUnit ∈ linkLabel s ∨ nulUnit ∈ linkUrl s := by
    have hopen : nulUnit ∉ [ascii '['] := by decide
    have hmiddle : nulUnit ∉ lit "](" := by decide
    have hclose : nulUnit ∉ [ascii ')'] := by decide
    conv_lhs => rw [linkMatch_split h, ← singleton_append, append_assoc, mem_append, or_iff_right hopen,
      mem_append, or_iff_left hclose, mem_append, mem_append, or_iff_left hmiddle]
  have hopen : nulUnit ∉ lit "<a href=\"" := by decide
  have hmiddle : nulUnit ∉ lit "\">" := by decide
  have hclose : nulUnit ∉ lit "</a>" := by decide
  rw [hs, mem_append, or_iff_left hclose, mem_append, mem_append, or_iff_left hmiddle, mem_append,
    or_iff_right hopen, nul_mem_escapeAttr_iff, nul_mem_escapeHtml_iff, or_comm]

theorem mem_of_mem_fencedBody {u} (h : u ∈ fencedBody s) : u ∈ s := by
  have htail := mem_of_mem_take h
  exact mem_of_mem_drop ((dropWhile_suffix _).subset (mem_of_mem_drop htail))

theorem nul_notMem_fence (hmarkdown : nulUnit ∉ markdown)
    (hs : s ∈ hits (scan fencedMatch markdown)) : nulUnit ∉ s := by
  obtain ⟨pre, post, rfl, -⟩ := exists_split_of_hit isMatcher_fencedMatch hs
  exact fun hmem => hmarkdown (mem_append_left _ (mem_append_right _ hmem))

/-- Some fragment holds NUL just when something stashed holds something stashed before. -/
theorem hasNul_placeholders_iff {stringWidth} (hmarkdown : nulUnit ∉ markdown) :
    HasNul (protectedMarkdown stringWidth markdown).placeholders ↔ ¬ NothingNested stringWidth markdown := by
  have hfragments : (protectedMarkdown stringWidth markdown).placeholders =
      ((hits (scan fencedMatch markdown)).map (fun s => pre (fencedBody s)) ++
        (tablesAfterFences markdown).map (fun table => table.renderTelegramTable stringWidth) ++
        (codeAfterTables stringWidth markdown).map (fun s => code (delimitedBody 1 s))) ++
        (linksAfterCode stringWidth markdown).filterMap linkHtml := by
    simp only [protectedMarkdown, protectLinks, protectCode, convertMarkdownTables, protectFences,
      placeholders_stashHits, placeholders_stashTables, nil_append, filterMap_eq_map', tablesAfterFences,
      codeAfterTables, linksAfterCode]
  rw [hfragments]
  constructor
  · rintro ⟨fragment, hmem, hnul⟩ hnothing
    simp only [mem_append, mem_map, mem_filterMap] at hmem
    rcases hmem with ((⟨s, hs, rfl⟩ | ⟨table, htable, rfl⟩) | ⟨s, hs, rfl⟩) | ⟨s, hs, hlink⟩
    · rw [pre, mem_tag_iff isCut_nulUnit (by decide), nul_mem_escapeHtml_iff] at hnul
      exact nul_notMem_fence hmarkdown hs (mem_of_mem_fencedBody hnul)
    · obtain ⟨cell, hcell, hnul⟩ := Table.nul_mem_renderTelegramTable_iff.mp hnul
      exact hnothing.tables table htable cell hcell hnul
    · obtain ⟨_, _, -, hmatch⟩ := exists_split_of_hit isMatcher_inlineCode hs
      exact hnothing.code s hs ((nul_mem_code_iff hmatch).mp hnul)
    · obtain ⟨_, _, -, hmatch⟩ := exists_split_of_hit isMatcher_linkMatch hs
      have hsafe : isSafeUrl (linkUrl s) = true := by
        by_contra hunsafe
        rw [linkHtml, if_neg hunsafe] at hlink
        cases hlink
      exact hnothing.links s hs hsafe ((nul_mem_linkHtml_iff hmatch hlink).mp hnul)
  · intro hnested
    by_contra hno
    apply hnested
    have hfree : ∀ {fragment}, fragment ∈ _ → nulUnit ∉ fragment := fun hmem hnul => hno ⟨_, hmem, hnul⟩
    refine ⟨?_, ?_, ?_⟩
    · intro table htable cell hcell hnul
      refine hfree ?_ (Table.nul_mem_renderTelegramTable_iff.mpr ⟨cell, hcell, hnul⟩)
      exact mem_append_left _ (mem_append_left _ (mem_append_right _ (mem_map.mpr ⟨table, htable, rfl⟩)))
    · intro s hs hnul
      obtain ⟨_, _, -, hmatch⟩ := exists_split_of_hit isMatcher_inlineCode hs
      refine hfree ?_ ((nul_mem_code_iff hmatch).mpr hnul)
      exact mem_append_left _ (mem_append_right _ (mem_map.mpr ⟨s, hs, rfl⟩))
    · intro s hs hsafe hnul
      obtain ⟨_, _, -, hmatch⟩ := exists_split_of_hit isMatcher_linkMatch hs
      obtain ⟨fragment, hlink⟩ : ∃ fragment, linkHtml s = some fragment := ⟨_, if_pos hsafe⟩
      refine hfree ?_ ((nul_mem_linkHtml_iff hmatch hlink).mpr hnul)
      exact mem_append_right _ (mem_filterMap.mpr ⟨s, hs, hlink⟩)

/-! ### The stages -/

theorem isBreak_tickUnit : IsBreak tickUnit := by decide

theorem tracked_protectFences (hmarkdown : nulUnit ∉ markdown) :
    Tracked (protectFences markdown).placeholders (protectFences markdown).text := by
  refine @stashHits_invariant _ isMatcher_fencedMatch _ Tracked markdown ?_ [] []
    ⟨[], marked_of_notMem hmarkdown, fun ⟨_, hmem, _⟩ => nomatch hmem⟩
  intro placeholders pre s post fragment hs hmatch _ h
  have hnul := nul_notMem_fence hmarkdown hs
  obtain ⟨mid, rfl⟩ := fencedMatch_split hmatch
  refine h.stash isBreak_tickUnit isBreak_tickUnit fun hmid => absurd ?_ hnul
  exact mem_append_left _ (mem_cons_of_mem _ hmid)

theorem not_hasNul_protectFences (hmarkdown : nulUnit ∉ markdown) : ¬ HasNul (protectFences markdown).placeholders := by
  rintro ⟨fragment, hmem, hnul⟩
  rw [protectFences, placeholders_stashHits] at hmem
  obtain ⟨s, hs, hfragment⟩ := mem_filterMap.mp hmem
  injection hfragment with hfragment
  rw [← hfragment, pre, mem_tag_iff isCut_nulUnit (by decide), nul_mem_escapeHtml_iff] at hnul
  exact nul_notMem_fence hmarkdown hs (mem_of_mem_fencedBody hnul)

theorem Tracked.protectCode {p} (h : Tracked p.placeholders p.text) :
    Tracked (protectCode p).placeholders (protectCode p).text := by
  refine @stashHits_invariant _ isMatcher_inlineCode _ Tracked p.text ?_ p.placeholders [] h
  intro placeholders pre s post fragment _ hmatch hfragment hold
  injection hfragment with hfragment
  have hmid : nulUnit ∈ delimitedBody 1 s → nulUnit ∈ fragment := by
    intro hmem
    rw [← hfragment, nul_mem_code_iff hmatch, inlineCode_split hmatch]
    exact mem_append_left _ (mem_cons_of_mem _ hmem)
  rw [inlineCode_split hmatch] at hold
  exact hold.stash isBreak_tickUnit isBreak_tickUnit hmid

theorem Tracked.protectLinks {p} (h : Tracked p.placeholders p.text) :
    Tracked (protectLinks p).placeholders (protectLinks p).text := by
  refine @stashHits_invariant _ isMatcher_linkMatch _ Tracked p.text ?_ p.placeholders [] h
  intro placeholders pre s post fragment _ hmatch hfragment hold
  have hmid : nulUnit ∈ linkLabel s ++ lit "](" ++ linkUrl s → nulUnit ∈ fragment := by
    intro hmem
    rw [nul_mem_linkHtml_iff hmatch hfragment, linkMatch_split hmatch]
    exact mem_append_left _ (mem_cons_of_mem _ hmem)
  rw [linkMatch_split hmatch] at hold
  exact hold.stash (by decide) (by decide) hmid

/-! ### Lines -/

/-- Lines with the numbers of the placeholders in each. -/
abbrev MarkedLines (lines : List JsStr) (numbers : List (List Nat)) : Prop := List.Forall₂ Marked lines numbers

theorem MarkedLines.joinLines {lines numbers} (h : MarkedLines lines numbers) :
    Marked (joinLines lines) numbers.flatten := by
  induction h with
  | nil => exact marked_of_notMem not_mem_nil
  | @cons line ns lines numbers hline hrest ih =>
    cases lines with
    | nil =>
      cases hrest
      simpa [Text.joinLines] using hline
    | cons next lines =>
      have hLF : Marked [LF] [] := marked_of_notMem (by decide)
      exact hline.append (hLF.append ih)

theorem Marked.lines {lines} (hne : lines ≠ []) {numbers} (h : Marked (joinLines lines) numbers) :
    ∃ each, MarkedLines lines each ∧ each.flatten = numbers := by
  induction lines generalizing numbers with
  | nil => exact absurd rfl hne
  | cons line lines ih =>
    cases lines with
    | nil => exact ⟨[numbers], .cons (by simpa [joinLines] using h) .nil, append_nil _⟩
    | cons next lines =>
      obtain ⟨first, rest, rfl, hline, hrest⟩ := h.cut (by decide)
      obtain ⟨each, heach, rfl⟩ := ih (cons_ne_nil next lines) hrest
      exact ⟨first :: each, .cons hline heach, rfl⟩

theorem mem_of_mem_tableBlocks {skip lines line} (h : .line line ∈ tableBlocks skip lines) : line ∈ lines := by
  induction lines generalizing skip with
  | nil => cases skip <;> cases h
  | cons headerLine rest ih =>
    cases skip with
    | succ skip => exact mem_cons_of_mem _ (ih h)
    | zero =>
      cases rest with
      | nil =>
        simp only [tableBlocks, mem_singleton, Block.line.injEq] at h
        exact mem_singleton.mpr h
      | cons separatorLine after =>
        rw [tableBlocks] at h
        split_ifs at h
        · rcases mem_cons.mp h with heq | h
          · cases heq
          · exact mem_cons_of_mem _ (ih h)
        · rcases mem_cons.mp h with heq | h
          · injection heq with heq
            exact heq ▸ mem_cons_self
          · exact mem_cons_of_mem _ (ih h)

variable (stringWidth : JsStr → Nat)

theorem marked_stashTables {placeholders blocks} (h : ∀ line, .line line ∈ blocks → ∃ numbers, Marked line numbers) :
    ∃ each, MarkedLines (stashTables stringWidth placeholders blocks).2 each ∧
      ∀ n, placeholders.length ≤ n → n < (stashTables stringWidth placeholders blocks).1.length → n ∈ each.flatten := by
  induction blocks generalizing placeholders with
  | nil => exact ⟨[], .nil, fun n hle hlt => absurd hlt (Nat.not_lt.mpr hle)⟩
  | cons block blocks ih =>
    have hrest := fun line hline => h line (mem_cons_of_mem block hline)
    cases block with
    | line line =>
      obtain ⟨numbers, hline⟩ := h line mem_cons_self
      obtain ⟨each, heach, hnew⟩ := ih hrest
      exact ⟨numbers :: each, .cons hline heach, fun n hle hlt => mem_append_right _ (hnew n hle hlt)⟩
    | table table =>
      obtain ⟨each, heach, hnew⟩ := @ih (placeholders ++ [table.renderTelegramTable stringWidth]) hrest
      refine ⟨[placeholders.length] :: each, .cons (marked_placeholder _) heach, ?_⟩
      intro n hle hlt
      rcases Nat.eq_or_lt_of_le hle with rfl | hle
      · exact mem_cons_self
      · exact mem_cons_of_mem _ (hnew n (by simpa using hle) hlt)

theorem tracked_convertMarkdownTables {p numbers} (h : Marked p.text numbers) (hnul : ¬ HasNul p.placeholders) :
    Tracked (convertMarkdownTables stringWidth p).placeholders (convertMarkdownTables stringWidth p).text := by
  have hlines : ∀ line ∈ splitLines p.text, ∃ ns, Marked line ns := by
    rw [← joinLines_splitLines p.text] at h
    obtain ⟨each, heach, -⟩ := h.lines (splitLines_ne_nil _)
    intro line hline
    obtain ⟨i, hi, rfl⟩ := getElem_of_mem hline
    exact ⟨_, heach.get hi (heach.length_eq ▸ hi)⟩
  obtain ⟨each, heach, hnew⟩ := @marked_stashTables stringWidth p.placeholders (tableBlocks 0 (splitLines p.text))
    fun line hline => hlines line (mem_of_mem_tableBlocks hline)
  refine ⟨_, heach.joinLines, ?_⟩
  rintro ⟨fragment, hmem, hfragment⟩
  obtain ⟨n, hn, hget⟩ := getElem_of_mem hmem
  refine ⟨n, hnew n ?_ hn, fragment, List.getElem?_eq_some_iff.mpr ⟨hn, hget⟩, hfragment⟩
  by_contra hlt
  apply hnul
  refine ⟨fragment, ?_, hfragment⟩
  have hold : (stashTables stringWidth p.placeholders (tableBlocks 0 (splitLines p.text))).1[n]? = some fragment :=
    List.getElem?_eq_some_iff.mpr ⟨hn, hget⟩
  rw [placeholders_stashTables, getElem?_append_left (Nat.not_le.mp hlt)] at hold
  exact mem_of_getElem? hold

/-! ### Tagging -/

section

variable {text : JsStr} {numbers : List Nat}

theorem escapeHtml_placeholder (k : Nat) : escapeHtml (placeholder k) = placeholder k := by
  have hfree : ∀ u, IsBreak u → u ∉ placeholder k := fun u hu => hu.notMem_placeholder k
  rw [escapeHtml, replaceUnit_of_notMem (hfree ampUnit (by decide)), replaceUnit_of_notMem (hfree ltUnit (by decide)),
    replaceUnit_of_notMem (hfree gtUnit (by decide))]

theorem Marked.escapeHtml (h : Marked text numbers) : Marked (escapeHtml text) numbers := by
  obtain ⟨atoms, rfl, rfl⟩ := h
  induction atoms with
  | nil => exact marked_of_notMem not_mem_nil
  | cons atom atoms ih =>
    rw [flatMap_cons, escapeHtml_append]
    cases atom with
    | unit u plain =>
      have hu : nulUnit ∉ Telegram.escapeHtml [u] := by
        rw [nul_mem_escapeHtml_iff, mem_singleton]
        exact plain.symm
      exact (marked_of_notMem hu).append ih
    | holder k =>
      rw [Atom.render, escapeHtml_placeholder]
      exact (marked_placeholder k).append ih

theorem Marked.tag {name} (h : Marked text numbers) (hname : name ∈ allowedTags) : Marked (tag name text) numbers := by
  obtain ⟨hopen, hclose⟩ := notMem_tag_marks isCut_nulUnit hname
  exact h.surround hopen hclose

theorem Marked.quoteBody {line body} (h : Marked line numbers) (hbody : quoteBody line = some body) :
    Marked body numbers := by
  obtain ⟨gap, rfl, hgap⟩ := quoteBody_eq_some hbody
  exact Marked.of_append (fun hmem => absurd (hgap _ hmem) (by decide)) (h.of_append (by decide))

theorem Marked.headerBody {line body} (h : Marked line numbers) (hbody : headerBody line = some body) :
    Marked body numbers := by
  obtain ⟨marks, rfl, hmarks⟩ := headerBody_eq_some hbody
  exact h.of_append fun hmem => absurd (hmarks _ hmem) (by decide)

theorem marked_flushQuote {quoteBuffer quoted} (h : MarkedLines (quoteBuffer.getD []) quoted) :
    ∃ each, MarkedLines (flushQuote quoteBuffer) each ∧ each.flatten = quoted.flatten := by
  cases quoteBuffer with
  | none =>
    cases h
    exact ⟨[], .nil, rfl⟩
  | some lines => exact ⟨[quoted.flatten], .cons (h.joinLines.tag (by decide)) .nil, append_nil _⟩

theorem marked_formatLines {quoteBuffer lines quoted each}
    (hquote : MarkedLines (quoteBuffer.getD []) quoted) (hlines : MarkedLines lines each) :
    ∃ all, MarkedLines (formatLines quoteBuffer lines) all ∧ all.flatten = quoted.flatten ++ each.flatten := by
  induction hlines generalizing quoteBuffer quoted with
  | nil =>
    obtain ⟨all, hall, hflatten⟩ := marked_flushQuote hquote
    exact ⟨all, hall, hflatten.trans (append_nil _).symm⟩
  | @cons line numbers lines each hline hrest ih =>
    rw [formatLines]
    cases hbody : quoteBody line with
    | some body =>
      have hbuffer : MarkedLines ((some (quoteBuffer.getD [] ++ [body])).getD []) (quoted ++ [numbers]) :=
        rel_append hquote (.cons (hline.quoteBody hbody) .nil)
      obtain ⟨all, hall, hflatten⟩ := ih hbuffer
      refine ⟨all, hall, ?_⟩
      rw [hflatten]
      simp
    | none =>
      obtain ⟨first, hfirst, hquoted⟩ := marked_flushQuote hquote
      obtain ⟨all, hall, hflatten⟩ := @ih none [] .nil
      refine ⟨first ++ numbers :: all, rel_append hfirst (.cons ?_ hall), ?_⟩
      · cases hheader : headerBody line with
        | some body => exact (hline.headerBody hheader).tag (by decide)
        | none => exact hline
      · rw [flatten_append, hquoted, flatten_cons, hflatten]
        rfl

theorem Marked.emphasis {marker} (hmarker : IsBreak marker) {k name}
    (hname : name ∈ allowedTags) (h : Marked text numbers) : Marked (emphasis marker (k + 1) name text) numbers := by
  refine @render_scan_invariant _ _ text isMatcher_delimited _ (Marked · numbers) ?_ [] h
  intro pre s post _ hmatch hold
  obtain ⟨hs, -, -⟩ := delimited_match hmatch
  generalize delimitedBody (k + 1) s = body at hs ⊢
  subst hs
  have hfree : nulUnit ∉ replicate k marker := fun hmem => hmarker.1 (eq_of_mem_replicate hmem).symm
  rw [delimiters_around] at hold
  obtain ⟨first, rest, rfl, hpre, hrest⟩ := hold.cut hmarker
  obtain ⟨middle, last, rfl, hbody, hpost⟩ := hrest.cut hmarker
  have hpre' : Marked pre first := by
    cases k with
    | zero => simpa using hpre
    | succ k =>
      obtain ⟨m, n, rfl, hm, hn⟩ := hpre.cut hmarker
      rw [hn.eq_nil fun hmem => hfree (mem_cons_of_mem _ hmem), append_nil]
      exact hm
  rw [← append_assoc]
  exact (hpre'.append (hbody.tag hname)).append (hpost.of_append hfree)

end

/-- The text before restoring refers to the fragments that the stashed text refers to. -/
theorem Marked.tagged {stringWidth numbers} (h : Marked (protectedMarkdown stringWidth markdown).text numbers) :
    Marked (strikeText (italicText (boldText (formattedText stringWidth markdown)))) numbers := by
  have hescaped := h.escapeHtml
  rw [← joinLines_splitLines (Telegram.escapeHtml _)] at hescaped
  obtain ⟨each, heach, rfl⟩ := hescaped.lines (splitLines_ne_nil _)
  obtain ⟨all, hall, hflatten⟩ := @marked_formatLines none _ [] each .nil heach
  have hformatted := hall.joinLines
  rw [hflatten] at hformatted
  exact ((Marked.emphasis (by decide) (by decide) hformatted).emphasis (by decide) (by decide)).emphasis (by decide)
    (by decide)

/-- From markdown without NUL, no placeholder is left just when nothing that is stashed holds something
stashed. -/
theorem nul_notMem_markdownToTelegramHtml_iff {stringWidth : JsStr → Nat} {markdown : JsStr}
    (hmarkdown : nulUnit ∉ markdown) :
    nulUnit ∉ markdownToTelegramHtml stringWidth markdown ↔ NothingNested stringWidth markdown := by
  obtain ⟨_, hfences, -⟩ := tracked_protectFences hmarkdown
  have htables := tracked_convertMarkdownTables stringWidth hfences (not_hasNul_protectFences hmarkdown)
  obtain ⟨numbers, hmarked, hlive⟩ := htables.protectCode.protectLinks
  have htracked : Tracked (protectedMarkdown stringWidth markdown).placeholders
      (strikeText (italicText (boldText (formattedText stringWidth markdown)))) :=
    ⟨numbers, hmarked.tagged, hlive⟩
  rw [markdownToTelegramHtml, htracked.nul_mem_restore_iff, hasNul_placeholders_iff hmarkdown, not_not]

theorem nul_notMem_markdownToTelegramHtml_code : nulUnit ∉ lit "\x60c\x60 [a](http://x)" ∧
      (nulUnit ∉ markdownToTelegramHtml (fun _ => 0) (lit "\x60c\x60 [a](http://x)") ↔
        NothingNested (fun _ => 0) (lit "\x60c\x60 [a](http://x)")) :=
  ⟨by decide, nul_notMem_markdownToTelegramHtml_iff (by decide)⟩

/-- Inline code as the label of a link. -/
theorem markdownToTelegramHtml_leaves_placeholder : nulUnit ∉ lit "[\x60c\x60](http://x)" ∧
      markdownToTelegramHtml (fun _ => 0) (lit "[\x60c\x60](http://x)") =
        lit "<a href=\"http://x\">" ++ placeholder 0 ++ lit "</a>" ∧
      nulUnit ∈ markdownToTelegramHtml (fun _ => 0) (lit "[\x60c\x60](http://x)") := by
  have houtput : markdownToTelegramHtml (fun _ => 0) (lit "[\x60c\x60](http://x)") =
      lit "<a href=\"http://x\">" ++ placeholder 0 ++ lit "</a>" := rfl
  refine ⟨by decide, houtput, ?_⟩
  rw [houtput]
  exact mem_append_left _ (mem_append_right _ mem_cons_self)

end GajaeCode.Telegram
