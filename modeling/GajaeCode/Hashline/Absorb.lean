import GajaeCode.Hashline.OnePass

/-! What absorption does to a batch: the groups it finds tile the edits, a replacement group
deletes consecutive lines, and the edits that take the place of a group keep what it inserts. -/
namespace GajaeCode.Hashline
open Text List EditGroup

section

structure ReplacementShape (edits : List HashlineEdit) (group : HashlineReplacementGroup)
    (inserts deletes : List HashlineEdit) : Prop where
  members : group.members = inserts ++ deletes
  members_initial : group.members <+: edits
  inserts_ne : inserts ≠ []
  inserted : ∀ edit ∈ inserts, (replacementText? group.sourceLineNum edit).isSome
  deleted : ∀ edit ∈ deletes, (deleteAnchor? group.sourceLineNum edit).isSome
  anchors : group.deletes = deletes.filterMap (deleteAnchor? group.sourceLineNum)
  anchors_ne : group.deletes ≠ []
  consecutive : consecutiveFrom group.startLine group.deletes = true

theorem takeWhile_append_takeWhile_isPrefix {α} (p q : α → Bool) (xs : List α) :
    xs.takeWhile p ++ (xs.drop (xs.takeWhile p).length).takeWhile q <+: xs := by
  obtain ⟨rest, hrest⟩ := takeWhile_prefix (l := xs) p
  have hdrop : (xs.takeWhile p ++ rest).drop (xs.takeWhile p).length = rest := drop_left
  rw [hrest] at hdrop
  rw [hdrop]
  conv_rhs => rw [← hrest]
  exact (prefix_append_right_inj _).mpr (List.takeWhile_prefix q)

variable {edits : List HashlineEdit}

theorem findReplacementGroup_shape {group} (h : findReplacementGroup edits = some group) :
    ∃ inserts deletes, ReplacementShape edits group inserts deletes := by
  unfold findReplacementGroup at h
  split at h
  · next cursorAnchor text sourceLineNum index rest =>
    dsimp only at h
    split at h
    · cases h
    · next first others hanchors =>
      split at h
      · cases h
      · next hconsecutive =>
        split at h
        · cases h
        · cases h
          refine ⟨_, _, rfl, takeWhile_append_takeWhile_isPrefix _ _ _, ?_, ?_, ?_, rfl, ?_, ?_⟩
          · simp [replacementText?]
          · intro edit hedit
            have hinsert := mem_takeWhile_imp hedit
            exact hinsert
          · intro edit hedit
            have hdelete := mem_takeWhile_imp hedit
            exact hdelete
          · rw [hanchors]
            simp
          · rw [HashlineReplacementGroup.startLine]
            simpa [hanchors] using hconsecutive
  · cases h

theorem findReplacementGroup_members {group} (h : findReplacementGroup edits = some group) :
    group.members <+: edits ∧ group.members ≠ [] := by
  obtain ⟨inserts, deletes, hshape⟩ := findReplacementGroup_shape h
  refine ⟨hshape.members_initial, ?_⟩
  rw [hshape.members]
  simp [hshape.inserts_ne]

/-- A pure insert group is a run of inserts at its cursor. -/
structure PureInsertShape (edits : List HashlineEdit) (group : HashlinePureInsertGroup) : Prop where
  members_initial : group.members <+: edits
  members_ne : group.members ≠ []
  inserted : ∀ edit ∈ group.members, ∃ text lineNum index, edit = .insert group.cursor text lineNum index

theorem findPureInsertGroup_shape {group}
    (h : findPureInsertGroup edits = some group) : PureInsertShape edits group := by
  unfold findPureInsertGroup at h
  split at h
  · next cursor text sourceLineNum index rest =>
    dsimp only at h
    split at h
    · cases h
    · cases h
      refine ⟨List.takeWhile_prefix _, by simp [pureInsertText?], fun edit hedit => ?_⟩
      have hsome := mem_takeWhile_imp hedit
      cases edit with
      | delete anchor lineNum index => simp [pureInsertText?] at hsome
      | insert other text lineNum index =>
        simp only [pureInsertText?, Option.isSome_ite] at hsome
        exact ⟨text, lineNum, index, by rw [hsome.2]⟩
  · cases h

theorem findGroup_members (edit : HashlineEdit) (rest : List HashlineEdit) :
    (findGroup edit rest).members <+: edit :: rest ∧ (findGroup edit rest).members ≠ [] := by
  unfold findGroup
  split
  · next group hgroup => exact findReplacementGroup_members hgroup
  · split
    · next group hgroup =>
      have hshape := findPureInsertGroup_shape hgroup
      exact ⟨hshape.members_initial, hshape.members_ne⟩
    · exact ⟨⟨rest, rfl⟩, by simp [members]⟩

theorem editGroups_members (edits : List HashlineEdit) (skip : Nat) :
    (editGroups edits skip).flatMap members = edits.drop skip := by
  induction edits generalizing skip with
  | nil => simp [editGroups]
  | cons edit rest ih =>
    cases skip with
    | succ skip => simp [editGroups, ih]
    | zero =>
      obtain ⟨hinitial, hne⟩ := findGroup_members edit rest
      have hpos := length_pos_iff.mpr hne
      obtain ⟨tail, htail⟩ := hinitial
      have hdrop : rest.drop ((findGroup edit rest).members.length - 1) = tail := by
        have hall : ((findGroup edit rest).members ++ tail).drop
            (findGroup edit rest).members.length = tail := drop_left
        rw [htail] at hall
        rwa [← Nat.sub_add_cancel hpos] at hall
      rw [editGroups, flatMap_cons, ih, hdrop, htail, drop_zero]

theorem mem_of_mem_editGroups {group} (hgroup : group ∈ editGroups edits 0)
    {edit} (hedit : edit ∈ group.members) : edit ∈ edits := by
  have hmem := mem_flatMap.mpr ⟨group, hgroup, hedit⟩
  rwa [editGroups_members] at hmem

theorem findGroup_of_mem {skip group} (h : group ∈ editGroups edits skip) :
    ∃ edit rest, group = findGroup edit rest := by
  induction edits generalizing skip with
  | nil => simp [editGroups] at h
  | cons edit rest ih =>
    cases skip with
    | succ skip => exact ih h
    | zero =>
      rcases mem_cons.mp h with rfl | h
      · exact ⟨edit, rest, rfl⟩
      · exact ih h

theorem consecutiveFrom_getElem {startLine anchors}
    (h : consecutiveFrom startLine anchors = true) {i} (hi : i < anchors.length) :
    anchors[i].line = startLine + i := by
  induction anchors generalizing startLine i with
  | nil => simp at hi
  | cons anchor anchors ih =>
    simp only [consecutiveFrom, Bool.and_eq_true, beq_iff_eq] at h
    cases i with
    | zero => exact h.1
    | succ i =>
      rw [getElem_cons_succ, ih h.2 (by simpa using hi)]
      omega

end

section

variable {edits : List HashlineEdit}

def EditGroup.replacement? : EditGroup → Option HashlineReplacementGroup
  | .replacement group => some group
  | _ => none

def replacementGroups (edits : List HashlineEdit) : List HashlineReplacementGroup :=
  (editGroups edits 0).filterMap replacement?

variable {group : HashlineReplacementGroup}

theorem mem_replacementGroups : group ∈ replacementGroups edits ↔ replacement group ∈ editGroups edits 0 := by
  rw [replacementGroups, mem_filterMap]
  constructor
  · rintro ⟨found, hfound, heq⟩
    cases found <;> simp [replacement?] at heq
    exact heq ▸ hfound
  · intro h
    exact ⟨_, h, rfl⟩

theorem shape_of_mem_replacementGroups (h : group ∈ replacementGroups edits) :
    ∃ suffix inserts deletes, ReplacementShape suffix group inserts deletes := by
  obtain ⟨edit, rest, heq⟩ := findGroup_of_mem (mem_replacementGroups.mp h)
  unfold findGroup at heq
  split at heq
  · next found hfound =>
    cases heq
    exact ⟨_, findReplacementGroup_shape hfound⟩
  · split at heq <;> cases heq

structure DeletedRange (edits : List HashlineEdit) (group : HashlineReplacementGroup) : Prop where
  start_le_end : group.startLine ≤ group.endLine
  deleted : ∀ k, group.startLine ≤ k → k ≤ group.endLine → edits.any (deletesLine k) = true

theorem ReplacementShape.endLine_eq {suffix inserts deletes}
    (hshape : ReplacementShape suffix group inserts deletes) :
    group.endLine = group.startLine + (group.deletes.length - 1) := by
  have hpos : 0 < group.deletes.length := length_pos_iff.mpr hshape.anchors_ne
  rw [HashlineReplacementGroup.endLine, getLast?_eq_getElem?,
    getElem?_eq_getElem (by omega), Option.map_some, Option.getD_some,
    consecutiveFrom_getElem hshape.consecutive]

theorem deletedRange_of_mem (h : group ∈ replacementGroups edits) : DeletedRange edits group := by
  obtain ⟨suffix, inserts, deletes, hshape⟩ := shape_of_mem_replacementGroups h
  have hpos : 0 < group.deletes.length := length_pos_iff.mpr hshape.anchors_ne
  have hend := hshape.endLine_eq
  refine ⟨by omega, ?_⟩
  intro k hstart hk
  obtain ⟨anchor, hanchor, hline⟩ : ∃ anchor ∈ group.deletes, anchor.line = k := by
    have hi : k - group.startLine < group.deletes.length := by omega
    refine ⟨group.deletes[k - group.startLine], getElem_mem hi, ?_⟩
    rw [consecutiveFrom_getElem hshape.consecutive hi]
    omega
  rw [hshape.anchors, mem_filterMap] at hanchor
  obtain ⟨edit, hedit, heq⟩ := hanchor
  rw [any_eq_true]
  refine ⟨edit, mem_of_mem_editGroups (mem_replacementGroups.mp h) ?_, ?_⟩
  · rw [members, hshape.members]
    exact mem_append_right _ hedit
  · cases edit with
    | insert cursor text lineNum index => simp [deleteAnchor?] at heq
    | delete anchor lineNum index =>
      simp only [deleteAnchor?, Option.ite_none_right_eq_some, Option.some.injEq] at heq
      rw [deletesLine, beq_iff_eq, heq.2, hline]

end

section

theorem largestBlock_le (accepts : Nat → Bool) (max : Nat) : largestBlock accepts max ≤ max := by
  fun_induction largestBlock accepts max with
  | case1 | case2 => exact Nat.zero_le _
  | case3 count haccepts => exact le_rfl
  | case4 count haccepts ih => exact ih.trans (Nat.le_succ _)

variable (fileLines : List JsStr) (group : HashlineReplacementGroup)

theorem prefixCount_le : prefixCount fileLines group ≤ group.startLine - 1 := by
  unfold prefixCount countMatchingPrefixBlock
  dsimp only
  split
  · exact (largestBlock_le _ _).trans (min_le_right _ _)
  · unfold countMatchingSingleStructuralPrefixBoundary
    split
    · exact Nat.zero_le _
    · split_ifs <;> omega

theorem suffixCount_le : suffixCount fileLines group ≤ fileLines.length - group.endLine := by
  unfold suffixCount countMatchingSuffixBlock
  dsimp only
  split
  · exact (largestBlock_le _ _).trans (min_le_right _ _)
  · unfold countMatchingSingleStructuralSuffixBoundary
    split
    · exact Nat.zero_le _
    · split_ifs <;> omega

variable (edits : List HashlineEdit)

def absorbedAbove : Nat :=
  safePrefixCount fileLines (collectAnchorTargetLines edits) group

def absorbedBelow : Nat :=
  safeSuffixCount fileLines (collectAnchorTargetLines edits) group

theorem absorbedAbove_le : absorbedAbove fileLines group edits ≤ group.startLine - 1 := by
  unfold absorbedAbove safePrefixCount
  dsimp only
  split
  · exact Nat.zero_le _
  · exact prefixCount_le fileLines group

theorem absorbedBelow_le : absorbedBelow fileLines group edits ≤ fileLines.length - group.endLine := by
  unfold absorbedBelow safeSuffixCount
  dsimp only
  split
  · exact Nat.zero_le _
  · exact suffixCount_le fileLines group

end

section

variable (xxHash32 : List UInt8 → UInt32) (fileLines : List JsStr) (edits : List HashlineEdit)
  (options : HashlineApplyOptions)

/-- Lines that a replacement group takes from the file beyond those it deletes. -/
def Absorbs (group : HashlineReplacementGroup) (k : Nat) : Prop :=
  (group.startLine - absorbedAbove fileLines group edits ≤ k ∧ k < group.startLine) ∨
    (group.endLine < k ∧ k ≤ group.endLine + absorbedBelow fileLines group edits)

instance (group : HashlineReplacementGroup) (k : Nat) : Decidable (Absorbs fileLines edits group k) :=
  inferInstanceAs (Decidable (_ ∨ _))

/-- What is read off the inserts of a batch. -/
def OfInserts (f : HashlineEdit → Option JsStr) : Prop :=
  ∀ anchor lineNum index, f (.delete anchor lineNum index) = none

/-- What the edits that take the place of a group do. -/
structure Emits (group : EditGroup) (emitted : List HashlineEdit) : Prop where
  texts : ∀ r ∈ group.replacement?, ∀ f, OfInserts f → emitted.filterMap f = r.members.filterMap f
  deletes : ∀ k, emitted.any (deletesLine k) = true ↔ group.members.any (deletesLine k) = true ∨
      ∃ r ∈ group.replacement?, Absorbs fileLines edits r k
  anchors : ∀ edit ∈ emitted, ∀ anchor ∈ getHashlineEditAnchors edit,
    (∃ member ∈ group.members, ∃ a ∈ getHashlineEditAnchors member, anchor.line = a.line) ∨
      ∃ r ∈ group.replacement?, Absorbs fileLines edits r anchor.line

variable (state : AbsorbState)

theorem absorbed_warn (key : AbsorbKey) (warning : JsStr) : (state.warn key warning).absorbed = state.absorbed := by
  unfold AbsorbState.warn
  split <;> rfl

theorem absorbed_warn_if {c} [Decidable c] (key : AbsorbKey) (warning : JsStr) :
    (if c then state.warn key warning else state).absorbed = state.absorbed := by
  split
  · exact absorbed_warn state key warning
  · rfl

theorem absorbed_warnRange (kind : AbsorbKind) (range : Option (Nat × Nat)) (warning : Nat → Nat → JsStr) :
    (state.warnRange kind range warning).absorbed = state.absorbed := by
  unfold AbsorbState.warnRange
  split
  · exact absorbed_warn state _ _
  · rfl

/-- The synthetic deletes of a block of lines, numbered from `next` on. -/
def syntheticDeletes (lines : List Nat) (lineNum next : Nat) : List HashlineEdit :=
  (lines.map fun line => deleteEditForAutoAbsorbedLine xxHash32 line lineNum fileLines).mapIdx
    fun i edit => edit (next + i)

theorem mem_syntheticDeletes {lines lineNum next edit}
    (h : edit ∈ syntheticDeletes xxHash32 fileLines lines lineNum next) : ∃ line ∈ lines, ∃ index,
      edit = deleteEditForAutoAbsorbedLine xxHash32 line lineNum fileLines index := by
  obtain ⟨i, hi, rfl⟩ := mem_mapIdx.mp h
  rw [length_map] at hi
  exact ⟨lines[i], getElem_mem hi, next + i, by simp⟩

theorem filterMap_syntheticDeletes {f} (hf : OfInserts f) (lines : List Nat) (lineNum next : Nat) :
    (syntheticDeletes xxHash32 fileLines lines lineNum next).filterMap f = [] := by
  rw [filterMap_eq_nil_iff]
  intro edit hedit
  obtain ⟨line, -, index, rfl⟩ := mem_syntheticDeletes xxHash32 fileLines hedit
  exact hf _ _ _

theorem any_syntheticDeletes (lines : List Nat) (lineNum next k : Nat) :
    (syntheticDeletes xxHash32 fileLines lines lineNum next).any (deletesLine k) = true ↔ k ∈ lines := by
  rw [any_eq_true]
  constructor
  · rintro ⟨edit, hedit, hk⟩
    obtain ⟨line, hline, index, rfl⟩ := mem_syntheticDeletes xxHash32 fileLines hedit
    rw [deleteEditForAutoAbsorbedLine, deletesLine, beq_iff_eq] at hk
    exact hk ▸ hline
  · intro hk
    obtain ⟨i, hi, rfl⟩ := mem_iff_getElem.mp hk
    refine ⟨_, mem_mapIdx.mpr ⟨i, by simpa using hi, rfl⟩, ?_⟩
    simp [deleteEditForAutoAbsorbedLine, deletesLine]

variable (group : HashlineReplacementGroup)

theorem absorbed_absorbReplacement :
    ∃ next next', (absorbReplacement xxHash32 fileLines (collectAnchorTargetLines edits) state
        group).absorbed = state.absorbed ++ (syntheticDeletes xxHash32 fileLines
          (contiguousRange (group.startLine - absorbedAbove fileLines group edits)
            (absorbedAbove fileLines group edits)) group.sourceLineNum next ++
        (group.members ++ syntheticDeletes xxHash32 fileLines
            (contiguousRange (group.endLine + 1) (absorbedBelow fileLines group edits))
            group.sourceLineNum next')) := by
  refine ⟨?next, ?next', ?eq⟩
  case eq =>
    unfold absorbReplacement
    dsimp only [AbsorbState.pushSynthetic, AbsorbState.push]
    rw [absorbed_warn_if, absorbed_warn_if, append_assoc, append_assoc]
    rfl

theorem emits_replacement : ∃ emitted, (absorbReplacement xxHash32 fileLines (collectAnchorTargetLines edits) state
        group).absorbed = state.absorbed ++ emitted ∧ Emits fileLines edits (.replacement group) emitted := by
  obtain ⟨next, next', habsorbed⟩ := absorbed_absorbReplacement xxHash32 fileLines edits state group
  have habove := absorbedAbove_le fileLines group edits
  have hrange (k : Nat) :
      (k ∈ contiguousRange (group.startLine - absorbedAbove fileLines group edits)
          (absorbedAbove fileLines group edits) ∨
        k ∈ contiguousRange (group.endLine + 1) (absorbedBelow fileLines group edits)) ↔
      Absorbs fileLines edits group k := by
    simp only [contiguousRange, mem_range'_1, Absorbs]
    omega
  refine ⟨_, habsorbed, ?_, ?_, ?_⟩
  · rintro r hr f hf
    obtain rfl : group = r := by simpa [replacement?] using hr
    simp [filterMap_syntheticDeletes _ _ hf]
  · intro k
    simp only [any_append, Bool.or_eq_true, any_syntheticDeletes, members,
      replacement?, Option.mem_some_iff, exists_eq_left', ← hrange]
    exact or_left_comm
  · intro edit hedit anchor hanchor
    have hsynthetic {lines : List Nat} {next : Nat}
        (hmem : edit ∈ syntheticDeletes xxHash32 fileLines lines group.sourceLineNum next) :
        anchor.line ∈ lines := by
      obtain ⟨line, hline, index, rfl⟩ := mem_syntheticDeletes xxHash32 fileLines hmem
      simp only [deleteEditForAutoAbsorbedLine, getHashlineEditAnchors, mem_singleton] at hanchor
      rwa [hanchor]
    rcases mem_append.mp hedit with hedit | hedit
    · exact .inr ⟨group, rfl, (hrange _).mp (.inl (hsynthetic hedit))⟩
    · rcases mem_append.mp hedit with hedit | hedit
      · exact .inl ⟨edit, hedit, anchor, hanchor, rfl⟩
      · exact .inr ⟨group, rfl, (hrange _).mp (.inr (hsynthetic hedit))⟩

theorem emits_of_inserts {group} (hgroup : group.replacement? = none) {cursor emitted} (hne : group.members ≠ [])
    (hmembers : ∀ edit ∈ group.members, ∃ text lineNum index, edit = .insert cursor text lineNum index)
    (hemitted : ∀ edit ∈ emitted, ∃ text lineNum index, edit = .insert cursor text lineNum index) :
    Emits fileLines edits group emitted := by
  have hnone {es : List HashlineEdit} (hes : ∀ edit ∈ es, ∃ text lineNum index,
      edit = .insert cursor text lineNum index) (k : Nat) : es.any (deletesLine k) = false := by
    rw [any_eq_false]
    intro edit hedit
    obtain ⟨text, lineNum, index, rfl⟩ := hes edit hedit
    simp [deletesLine]
  refine ⟨by simp [hgroup], fun k => ?_, fun edit hedit anchor hanchor => ?_⟩
  · simp [hnone hmembers, hnone hemitted, hgroup]
  · obtain ⟨member, hmember⟩ := exists_mem_of_ne_nil _ hne
    obtain ⟨text, lineNum, index, rfl⟩ := hemitted edit hedit
    obtain ⟨text', lineNum', index', rfl⟩ := hmembers member hmember
    exact .inl ⟨_, hmember, anchor, hanchor, rfl⟩

theorem emits_pureInsert {group suffix} (hshape : PureInsertShape suffix group) :
    ∃ emitted, (absorbPureInsert fileLines options state group).absorbed =
        state.absorbed ++ emitted ∧ Emits fileLines edits (.pureInsert group) emitted := by
  have hsame (emitted : List HashlineEdit) (hemitted : ∀ edit ∈ emitted, ∃ text lineNum index,
      edit = .insert group.cursor text lineNum index) : Emits fileLines edits (.pureInsert group) emitted :=
    emits_of_inserts fileLines edits rfl hshape.members_ne hshape.inserted hemitted
  unfold absorbPureInsert
  dsimp only
  split
  · rw [AbsorbState.pushSynthetic, absorbed_warnRange, absorbed_warnRange]
    refine ⟨_, rfl, hsame _ fun edit hedit => ?_⟩
    obtain ⟨i, hi, rfl⟩ := mem_mapIdx.mp hedit
    rw [getElem_map]
    exact ⟨_, _, _, rfl⟩
  · exact ⟨_, rfl, hsame _ hshape.inserted⟩

variable (edit : HashlineEdit)

theorem emits_single : ∃ emitted, (state.push [edit]).absorbed = state.absorbed ++ emitted ∧
      Emits fileLines edits (.single edit) emitted := by
  refine ⟨[edit], rfl, by simp [replacement?], by simp [replacement?, members], ?_⟩
  intro e he anchor hanchor
  exact .inl ⟨e, he, anchor, hanchor, rfl⟩

theorem emits_absorbGroup (rest : List HashlineEdit) :
    ∃ emitted, (absorbGroup xxHash32 fileLines (collectAnchorTargetLines edits) options state
        (findGroup edit rest)).absorbed = state.absorbed ++ emitted ∧
      Emits fileLines edits (findGroup edit rest) emitted := by
  unfold findGroup
  split
  · exact emits_replacement xxHash32 fileLines edits state _
  · split
    · next group hgroup =>
      exact emits_pureInsert fileLines edits options state (findPureInsertGroup_shape hgroup)
    · exact emits_single fileLines edits state edit

theorem emits_foldl (groups : List EditGroup)
    (hgroups : ∀ group ∈ groups, ∃ edit rest, group = findGroup edit rest) (state : AbsorbState) :
    ∃ emitted, (groups.foldl (absorbGroup xxHash32 fileLines (collectAnchorTargetLines edits)
        options) state).absorbed = state.absorbed ++ emitted.flatten ∧
      List.Forall₂ (Emits fileLines edits) groups emitted := by
  induction groups generalizing state with
  | nil => exact ⟨[], by simp, .nil⟩
  | cons group groups ih =>
    obtain ⟨edit, rest, rfl⟩ := hgroups group (by simp)
    obtain ⟨first, hfirst, hemits⟩ := emits_absorbGroup xxHash32 fileLines edits options state edit rest
    obtain ⟨others, hothers, hall⟩ := ih (fun g hg => hgroups g (by simp [hg]))
      (absorbGroup xxHash32 fileLines (collectAnchorTargetLines edits) options state (findGroup edit rest))
    refine ⟨first :: others, ?_, .cons hemits hall⟩
    rw [foldl_cons, hothers, hfirst, flatten_cons, append_assoc]

variable {fileLines edits}
  {groups : List EditGroup} {emitted : List (List HashlineEdit)}

section

variable (hall : List.Forall₂ (Emits fileLines edits) groups emitted)
include hall

theorem texts_of_emits {f} (hf : OfInserts f) :
    ((groups.filterMap replacement?).flatMap fun r => r.members.filterMap f).Sublist (emitted.flatten.filterMap f) ∧
      ((∀ group ∈ groups, group.replacement?.isSome = true) →
        emitted.flatten.filterMap f = (groups.filterMap replacement?).flatMap fun r => r.members.filterMap f) := by
  induction hall with
  | nil => simp
  | @cons group _ _ _ hemits _ ih =>
    rw [flatten_cons, filterMap_append, filterMap_cons]
    split
    · next hnone =>
      refine ⟨ih.1.trans (sublist_append_right _ _), fun hsome => ?_⟩
      have hgroup := hsome group mem_cons_self
      rw [hnone] at hgroup
      cases hgroup
    · next r hr =>
      rw [flatMap_cons, ← hemits.texts r hr f hf]
      exact ⟨(Sublist.refl _).append ih.1, fun hsome => by rw [ih.2 (forall_mem_cons.mp hsome).2]⟩

theorem deletes_of_emits (k : Nat) : emitted.flatten.any (deletesLine k) = true ↔
      (groups.flatMap members).any (deletesLine k) = true ∨
        ∃ r ∈ groups.filterMap replacement?, Absorbs fileLines edits r k := by
  induction hall with
  | nil => simp
  | @cons group first groups others hemits _ ih =>
    have hgroup : (∃ r ∈ (group :: groups).filterMap replacement?, Absorbs fileLines edits r k) ↔
        (∃ r ∈ group.replacement?, Absorbs fileLines edits r k) ∨
          ∃ r ∈ groups.filterMap replacement?, Absorbs fileLines edits r k := by
      rw [filterMap_cons]
      cases group.replacement? with
      | none => simp
      | some r => simp
    rw [flatten_cons, any_append, Bool.or_eq_true, hemits.deletes, flatMap_cons, any_append, Bool.or_eq_true, hgroup]
    exact (or_congr_right ih).trans or_or_or_comm

theorem anchors_of_emits {edit} (hedit : edit ∈ emitted.flatten) {anchor}
    (hanchor : anchor ∈ getHashlineEditAnchors edit) :
    (∃ member ∈ groups.flatMap members, ∃ a ∈ getHashlineEditAnchors member, anchor.line = a.line) ∨
      ∃ r ∈ groups.filterMap replacement?, Absorbs fileLines edits r anchor.line := by
  obtain ⟨found, hfound, hedit⟩ := mem_flatten.mp hedit
  obtain ⟨i, hi, rfl⟩ := mem_iff_getElem.mp hfound
  have hi' : i < groups.length := hall.length_eq ▸ hi
  have hmem : groups[i] ∈ groups := getElem_mem hi'
  rcases (hall.get hi' hi).anchors edit hedit anchor hanchor with
    ⟨member, hmember, h⟩ | ⟨r, hr, h⟩
  · exact .inl ⟨member, mem_flatMap.mpr ⟨_, hmem, hmember⟩, h⟩
  · exact .inr ⟨r, mem_filterMap.mpr ⟨_, hmem, hr⟩, h⟩

end

variable (fileLines edits)

def absorbedEdits : List HashlineEdit :=
  (absorbReplacementBoundaryDuplicates xxHash32 edits fileLines options).1

theorem absorbedEdits_emits : ∃ emitted, absorbedEdits xxHash32 fileLines edits options = emitted.flatten ∧
      List.Forall₂ (Emits fileLines edits) (editGroups edits 0) emitted := by
  obtain ⟨emitted, heq, hall⟩ := emits_foldl xxHash32 fileLines edits options (editGroups edits 0)
    (fun _ hgroup => findGroup_of_mem hgroup)
    { nextSyntheticIndex := edits.length, absorbed := [], emittedAbsorbKeys := [], warnings := [] }
  exact ⟨emitted, heq, hall⟩

/-- Absorption keeps what the replacements insert, and there is nothing else if there are only
replacements. -/
theorem filterMap_absorbedEdits {f} (hf : OfInserts f) :
    ((replacementGroups edits).flatMap fun r => r.members.filterMap f).Sublist
        ((absorbedEdits xxHash32 fileLines edits options).filterMap f) ∧
      ((∀ group ∈ editGroups edits 0, group.replacement?.isSome = true) →
        (absorbedEdits xxHash32 fileLines edits options).filterMap f =
          (replacementGroups edits).flatMap fun r => r.members.filterMap f) := by
  obtain ⟨emitted, heq, hall⟩ := absorbedEdits_emits xxHash32 fileLines edits options
  rw [heq]
  exact texts_of_emits hall hf

theorem deletesLine_absorbedEdits (k : Nat) :
    (absorbedEdits xxHash32 fileLines edits options).any (deletesLine k) = true ↔
      edits.any (deletesLine k) = true ∨ ∃ r ∈ replacementGroups edits, Absorbs fileLines edits r k := by
  obtain ⟨emitted, heq, hall⟩ := absorbedEdits_emits xxHash32 fileLines edits options
  have hdeletes := deletes_of_emits hall k
  rwa [← heq, editGroups_members] at hdeletes

theorem startLine_mem {group} (h : group ∈ replacementGroups edits) (hvalid : ValidAnchors fileLines edits) :
    1 ≤ group.startLine ∧ group.endLine ≤ fileLines.length := by
  have hrange := deletedRange_of_mem h
  have hline {k : Nat} (hk : edits.any (deletesLine k) = true) : 1 ≤ k ∧ k ≤ fileLines.length := by
    obtain ⟨edit, hedit, hdelete⟩ := any_eq_true.mp hk
    cases edit with
    | insert cursor text lineNum index => simp [deletesLine] at hdelete
    | delete anchor lineNum index =>
      rw [deletesLine, beq_iff_eq] at hdelete
      exact hdelete ▸ hvalid _ hedit anchor (by simp [getHashlineEditAnchors])
  exact ⟨(hline (hrange.deleted _ le_rfl hrange.start_le_end)).1,
    (hline (hrange.deleted _ hrange.start_le_end le_rfl)).2⟩

theorem validAnchors_absorbedEdits (hvalid : ValidAnchors fileLines edits) :
    ValidAnchors fileLines (absorbedEdits xxHash32 fileLines edits options) := by
  obtain ⟨emitted, heq, hall⟩ := absorbedEdits_emits xxHash32 fileLines edits options
  intro edit hedit anchor hanchor
  rw [heq] at hedit
  rcases anchors_of_emits hall hedit hanchor with ⟨member, hmember, a, ha, hline⟩ | ⟨r, hr, h⟩
  · rw [editGroups_members] at hmember
    exact hline ▸ hvalid member hmember a ha
  · have hrange := startLine_mem fileLines edits hr hvalid
    have hle := (deletedRange_of_mem hr).start_le_end
    have habove := absorbedAbove_le fileLines r edits
    have hbelow := absorbedBelow_le fileLines r edits
    unfold Absorbs at h
    omega

end

end GajaeCode.Hashline
