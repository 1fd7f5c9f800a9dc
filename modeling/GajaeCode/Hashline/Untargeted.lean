import GajaeCode.Hashline.Absorb

/-! When untargeted content survives a batch. Absorption deletes file lines that a replacement's
payload repeats; they survive when the payload that stands among the dropped lines repeats them in
file order. -/
namespace GajaeCode.Hashline
open Text List EditGroup

def lineAt (fileLines : List JsStr) (k : Nat) : JsStr := fileLines.getD (k - 1) []

/-- The non-empty lines, of `n` from line `s` on, that no delete of the batch targets. -/
def untargetedFrom (fileLines : List JsStr) (edits : List HashlineEdit) (s n : Nat) : List JsStr :=
  ((List.range' s n).filter fun k => !edits.any (deletesLine k) && decide (lineAt fileLines k ≠ [])).map
    (lineAt fileLines)

def untargetedContent (fileLines : List JsStr) (edits : List HashlineEdit) : List JsStr :=
  untargetedFrom fileLines edits 1 fileLines.length

/-- The lines that are deleted, or absorbed by a replacement. -/
def dropped (fileLines : List JsStr) (edits : List HashlineEdit) (k : Nat) : Bool :=
  edits.any (deletesLine k) || (replacementGroups edits).any fun group => decide (Absorbs fileLines edits group k)

/-- The lines that the replacements put before line `k`; a text may hold several. -/
def payloadBefore (edits : List HashlineEdit) (k : Nat) : List JsStr :=
  ((replacementGroups edits).flatMap fun group => group.members.filterMap (textBefore? k)).flatMap splitLines

/-- `n` lines from `s` on that are dropped, between lines that are not. -/
def Stretch (fileLines : List JsStr) (edits : List HashlineEdit) (s n : Nat) : Prop :=
  (∀ k ∈ List.range' s n, dropped fileLines edits k = true) ∧
    dropped fileLines edits (s - 1) = false ∧ dropped fileLines edits (s + n) = false

/-- The payload in each stretch of dropped lines repeats, in order, those that no edit targets. -/
def PayloadsResupply (fileLines : List JsStr) (edits : List HashlineEdit) : Prop :=
  ∀ s ≤ fileLines.length, ∀ n ≤ fileLines.length, Stretch fileLines edits s n →
    (untargetedFrom fileLines edits s n).Sublist ((List.range' s n).flatMap (payloadBefore edits))

/-- A batch of replacements that drops one stretch of lines and has all its anchors there, such as a
single replacement whose inserts stand in the range that it deletes. -/
structure OneStretch (fileLines : List JsStr) (edits : List HashlineEdit) (s n : Nat) : Prop where
  replacements : ∀ group ∈ editGroups edits 0, group.replacement?.isSome = true
  stretch : (List.range' 1 fileLines.length).filter (dropped fileLines edits) = List.range' s n
  inside : ∀ k ∈ collectAnchorTargetLines edits, s ≤ k ∧ k < s + n

/-! ### The content of a result -/

/-- The non-empty lines that texts hold. -/
def contentLines (texts : List JsStr) : List JsStr := (texts.flatMap splitLines).filter (· ≠ [])

@[simp] theorem contentLines_nil : contentLines [] = [] := rfl

@[simp] theorem contentLines_append (xs ys : List JsStr) :
    contentLines (xs ++ ys) = contentLines xs ++ contentLines ys := by
  rw [contentLines, flatMap_append, filter_append, ← contentLines, ← contentLines]

theorem contentLines_flatMap {α : Type} (f : α → List JsStr) (xs : List α) :
    contentLines (xs.flatMap f) = xs.flatMap fun x => contentLines (f x) := by
  induction xs with
  | nil => rfl
  | cons x xs ih => rw [flatMap_cons, contentLines_append, ih, flatMap_cons]

theorem contentLines_empty : contentLines [[]] = [] := rfl

theorem filter_splitLines_joinLines (lines : List JsStr) :
    (splitLines (joinLines lines)).filter (· ≠ []) = contentLines lines := by
  cases lines with
  | nil => rfl
  | cons line lines => rw [splitLines_joinLines_flatMap (by simp), contentLines]

theorem contentLines_placeAtStart (texts body : List JsStr) :
    contentLines (placeAtStart texts body) = contentLines texts ++ contentLines body := by
  unfold placeAtStart
  split_ifs with h
  · rw [h.2, contentLines_empty, append_nil]
  · exact contentLines_append texts body

theorem contentLines_placeAtEnd (texts body : List JsStr) :
    contentLines (placeAtEnd texts body) = contentLines body ++ contentLines texts := by
  unfold placeAtEnd
  split_ifs with htexts hbody hlast
  · rw [htexts, contentLines_nil, append_nil]
  · rw [hbody, contentLines_empty, nil_append]
  · have hsplit := congrArg contentLines (dropLast_append_getLast? [] hlast)
    rw [contentLines_append, contentLines_empty, append_nil] at hsplit
    rw [contentLines_append, contentLines_append, contentLines_empty, append_nil, hsplit]
  · exact contentLines_append body texts

theorem sublist_filter_iff {xs ys : List JsStr} (hne : ∀ x ∈ xs, x ≠ []) :
    xs.Sublist (ys.filter (· ≠ [])) ↔ xs.Sublist ys := by
  refine ⟨fun h => h.trans filter_sublist, fun h => ?_⟩
  have hfilter := h.filter (· ≠ [])
  rwa [filter_eq_self.mpr (by simpa using hne)] at hfilter

section

variable (xxHash32 : List UInt8 → UInt32) {text : JsStr} {edits : List HashlineEdit}
  (options : HashlineApplyOptions) {k s n : Nat}

theorem contentLines_lineAt (text : JsStr) (k : Nat) : contentLines [lineAt (splitLines text) k] =
      if lineAt (splitLines text) k ≠ [] then [lineAt (splitLines text) k] else [] := by
  have hfree : LF ∉ lineAt (splitLines text) k := by
    rw [lineAt, getD_eq_getElem?_getD]
    cases hline : (splitLines text)[k - 1]? with
    | none => simp
    | some line => exact LF_notMem_of_mem_splitLines (mem_of_getElem? hline)
  rw [contentLines, flatMap_singleton, splitLines_of_LF_notMem hfree]
  simp [filter_cons]

theorem untargetedFrom_eq (text : JsStr) (edits : List HashlineEdit) (s n : Nat) :
    untargetedFrom (splitLines text) edits s n = (List.range' s n).flatMap fun k =>
      if edits.any (deletesLine k) then [] else contentLines [lineAt (splitLines text) k] := by
  unfold untargetedFrom
  induction List.range' s n with
  | nil => rfl
  | cons k ks ih =>
    rw [flatMap_cons, ← ih, contentLines_lineAt, filter_cons]
    cases edits.any (deletesLine k) <;> by_cases hline : lineAt (splitLines text) k = [] <;> simp [hline]

theorem ne_nil_of_mem_untargetedFrom {fileLines line} (h : line ∈ untargetedFrom fileLines edits s n) : line ≠ [] := by
  obtain ⟨k, hk, rfl⟩ := mem_map.mp h
  have hline := (mem_filter.mp hk).2
  simp only [Bool.and_eq_true, decide_eq_true_eq] at hline
  exact hline.2

/-- What stands in the result for line `k`, empty lines apart. -/
def chunkContent (text : JsStr) (edits : List HashlineEdit) (k : Nat) : List JsStr :=
  contentLines ((absorbedEdits xxHash32 (splitLines text) edits options).filterMap (textBefore? k)) ++
    if dropped (splitLines text) edits k then [] else contentLines [lineAt (splitLines text) k]

theorem contentLines_editedBody (text : JsStr) (edits : List HashlineEdit) :
    contentLines (editedBody (splitLines text) (absorbedEdits xxHash32 (splitLines text) edits options)) =
      (List.range' 1 (splitLines text).length).flatMap (chunkContent xxHash32 options text edits) := by
  rw [editedBody, onePass_eq_flatMap _ [], contentLines_flatMap]
  apply flatMap_congr
  intro k _
  have hdropped : (absorbedEdits xxHash32 (splitLines text) edits options).any (deletesLine k) =
      dropped (splitLines text) edits k := by
    rw [Bool.eq_iff_iff, deletesLine_absorbedEdits]
    simp [dropped]
  rw [lineChunk, contentLines_append, hdropped, chunkContent, lineAt]
  split <;> rfl

theorem ofInserts_textBefore (k : Nat) : OfInserts (textBefore? k) := fun _ _ _ => rfl

theorem payloadBefore_sublist (text : JsStr) (edits : List HashlineEdit) (k : Nat) :
    ((payloadBefore edits k).filter (· ≠ [])).Sublist (chunkContent xxHash32 options text edits k) :=
  (((filterMap_absorbedEdits xxHash32 (splitLines text) edits options (ofInserts_textBefore k)).1.flatMap
    splitLines).filter _).trans (sublist_append_left _ _)

theorem dropped_eq_false {fileLines} (hvalid : ValidAnchors fileLines edits)
    (hk : k = 0 ∨ fileLines.length < k) : dropped fileLines edits k = false := by
  refine Bool.eq_false_iff.mpr fun hdropped => ?_
  rcases Bool.or_eq_true_iff.mp hdropped with hdelete | habsorbs
  · obtain ⟨edit, hedit, hdelete⟩ := any_eq_true.mp hdelete
    cases edit with
    | insert cursor text lineNum index => cases hdelete
    | delete anchor lineNum index =>
      have hrange := hvalid _ hedit anchor (mem_singleton_self anchor)
      have hline : anchor.line = k := beq_iff_eq.mp hdelete
      omega
  · obtain ⟨group, hgroup, habsorbs⟩ := any_eq_true.mp habsorbs
    have hrange := startLine_mem fileLines edits hgroup hvalid
    have hle := (deletedRange_of_mem hgroup).start_le_end
    have habove := absorbedAbove_le fileLines group edits
    have hbelow := absorbedBelow_le fileLines group edits
    rw [decide_eq_true_eq, Absorbs] at habsorbs
    omega

/-- Untargeted content survives a batch whose payloads resupply what is absorbed. -/
theorem untargetedContent_sublist (hresupply : PayloadsResupply (splitLines text) edits)
    (hvalid : ValidAnchors (splitLines text) edits) : (untargetedContent (splitLines text) edits).Sublist
      (contentLines (editedBody (splitLines text) (absorbedEdits xxHash32 (splitLines text) edits options))) := by
  rw [untargetedContent, untargetedFrom_eq, contentLines_editedBody]
  refine flatMap_sublist_of_stretches (p := dropped (splitLines text) edits) ?_ ?_
    (dropped_eq_false hvalid (.inl rfl)) (dropped_eq_false hvalid (.inr (by omega)))
  · intro k hkept
    have hdeleted : edits.any (deletesLine k) = false := (Bool.or_eq_false_iff.mp hkept).1
    rw [chunkContent, hkept, hdeleted]
    exact sublist_append_right _ _
  · intro t m ht hm hall hbefore hbehind
    cases m with
    | zero => exact nil_sublist _
    | succ m =>
      have hgiven := hresupply t (by omega) (m + 1) (by omega) ⟨hall, hbefore, hbehind⟩
      rw [← sublist_filter_iff fun _ => ne_nil_of_mem_untargetedFrom, untargetedFrom_eq, filter_flatMap] at hgiven
      exact hgiven.trans (Sublist.flatMap_right _ fun k _ => payloadBefore_sublist xxHash32 options text edits k)

/-! ### One stretch -/

theorem member_cases {group} (hgroup : group ∈ replacementGroups edits) {edit} (hedit : edit ∈ group.members) :
    (∃ anchor text lineNum index, edit = .insert (.beforeAnchor anchor) text lineNum index) ∨
      ∃ anchor lineNum index, edit = .delete anchor lineNum index := by
  obtain ⟨suffix, inserts, deletes, hshape⟩ := shape_of_mem_replacementGroups hgroup
  rw [hshape.members, mem_append] at hedit
  rcases hedit with hedit | hedit
  · have hsome := hshape.inserted edit hedit
    match edit, hsome with
    | .insert (.beforeAnchor anchor) text lineNum index, _ => exact .inl ⟨anchor, text, lineNum, index, rfl⟩
  · have hsome := hshape.deleted edit hedit
    match edit, hsome with
    | .delete anchor lineNum index, _ => exact .inr ⟨anchor, lineNum, index, rfl⟩

variable (hone : OneStretch (splitLines text) edits s n)
include hone

/-- Replacements insert only before an anchor. -/
theorem OneStretch.filterMap_eq_nil {f} (hf : OfInserts f)
    (hinsert : ∀ anchor text lineNum index, s ≤ anchor.line ∧ anchor.line < s + n →
      f (.insert (.beforeAnchor anchor) text lineNum index) = none) :
    (absorbedEdits xxHash32 (splitLines text) edits options).filterMap f = [] := by
  rw [(filterMap_absorbedEdits xxHash32 (splitLines text) edits options hf).2 hone.replacements, flatMap_eq_nil_iff]
  intro group hgroup
  rw [filterMap_eq_nil_iff]
  intro edit hedit
  rcases member_cases hgroup hedit with ⟨anchor, text, lineNum, index, rfl⟩ | ⟨anchor, lineNum, index, rfl⟩
  · have hmem := mem_of_mem_editGroups (mem_replacementGroups.mp hgroup) hedit
    exact hinsert _ _ _ _ (hone.inside anchor.line (mem_filterMap.mpr ⟨_, hmem, rfl⟩))
  · exact hf _ _ _

theorem OneStretch.batchLines_eq : batchLines (splitLines text) (absorbedEdits xxHash32 (splitLines text) edits options) =
      editedBody (splitLines text) (absorbedEdits xxHash32 (splitLines text) edits options) := by
  rw [batchLines, hone.filterMap_eq_nil xxHash32 options (f := bofText?) (fun _ _ _ => rfl) fun _ _ _ _ _ => rfl,
    hone.filterMap_eq_nil xxHash32 options (f := textAtEnd? _) (fun _ _ _ => rfl) fun _ _ _ _ _ => rfl]
  simp [placeAtStart, placeAtEnd]

theorem OneStretch.dropped_iff (hvalid : ValidAnchors (splitLines text) edits) :
    dropped (splitLines text) edits k = true ↔ s ≤ k ∧ k < s + n := by
  rw [← mem_range'_1, ← hone.stretch, mem_filter, mem_range'_1]
  refine ⟨fun h => ⟨?_, h⟩, And.right⟩
  by_contra hout
  rw [dropped_eq_false hvalid (by omega)] at h
  cases h

/-- Outside the stretch the result holds the lines of the file. -/
theorem OneStretch.chunkContent_eq (hvalid : ValidAnchors (splitLines text) edits) (hk : ¬(s ≤ k ∧ k < s + n)) :
    chunkContent xxHash32 options text edits k =
      if edits.any (deletesLine k) then [] else contentLines [lineAt (splitLines text) k] := by
  have hkept := Bool.eq_false_iff.mpr (mt (hone.dropped_iff hvalid).mp hk)
  have htexts := hone.filterMap_eq_nil xxHash32 options (ofInserts_textBefore k) fun anchor _ _ _ hanchor => by
    rw [textBefore?, if_neg]
    rintro rfl
    exact hk hanchor
  rw [chunkContent, htexts, hkept, (Bool.or_eq_false_iff.mp hkept).1]
  rfl

theorem OneStretch.chunkContent_of_mem (hvalid : ValidAnchors (splitLines text) edits) (hk : s ≤ k ∧ k < s + n) :
    chunkContent xxHash32 options text edits k = (payloadBefore edits k).filter (· ≠ []) := by
  rw [chunkContent, (hone.dropped_iff hvalid).mpr hk, if_pos rfl, append_nil, payloadBefore, contentLines,
    (filterMap_absorbedEdits xxHash32 (splitLines text) edits options (ofInserts_textBefore k)).2 hone.replacements]

theorem OneStretch.payloadsResupply (hvalid : ValidAnchors (splitLines text) edits)
    (hsub : (untargetedContent (splitLines text) edits).Sublist (contentLines (editedBody (splitLines text)
      (absorbedEdits xxHash32 (splitLines text) edits options)))) : PayloadsResupply (splitLines text) edits := by
  rintro t - m - ⟨hall, hbefore, hbehind⟩
  cases m with
  | zero => exact nil_sublist _
  | succ m =>
    -- the stretch is the one of the batch
    have hin : ∀ k, t ≤ k → k < t + (m + 1) → s ≤ k ∧ k < s + n := fun k hle hlt =>
      (hone.dropped_iff hvalid).mp (hall k (mem_range'_1.mpr ⟨hle, hlt⟩))
    have hfirst := hin t le_rfl (by omega)
    have hlast := hin (t + m) (by omega) (by omega)
    have hpre := mt (hone.dropped_iff (k := t - 1) hvalid).mpr (Bool.eq_false_iff.mp hbefore)
    have hpost := mt (hone.dropped_iff (k := t + (m + 1)) hvalid).mpr (Bool.eq_false_iff.mp hbehind)
    have hrange : ∀ k ∈ List.range' s n, 1 ≤ k ∧ k < 1 + (splitLines text).length := fun k hk => by
      rw [← hone.stretch] at hk
      exact mem_range'_1.mp (mem_filter.mp hk).1
    have hs := hrange s (mem_range'_1.mpr (by omega))
    have hsn := hrange (s + n - 1) (mem_range'_1.mpr (by omega))
    obtain ⟨rfl, rfl⟩ : t = s ∧ n = m + 1 := by omega
    have hsplit : List.range' 1 (splitLines text).length = List.range' 1 (t - 1) ++ (List.range' t (m + 1) ++
        List.range' (t + (m + 1)) ((splitLines text).length + 1 - (t + (m + 1)))) := by
      have hbegin := @List.range'_append_1 1 (t - 1) ((splitLines text).length + 1 - t)
      rw [Nat.add_sub_cancel' hs.1] at hbegin
      rw [List.range'_append_1, show m + 1 + ((splitLines text).length + 1 - (t + (m + 1))) =
        (splitLines text).length + 1 - t by omega, hbegin]
      congr 1
      omega
    have houter {l : List Nat} (hl : ∀ k ∈ l, ¬(t ≤ k ∧ k < t + (m + 1))) :
        l.flatMap (chunkContent xxHash32 options text edits) = l.flatMap fun k =>
          if edits.any (deletesLine k) then [] else contentLines [lineAt (splitLines text) k] :=
      flatMap_congr fun k hk => hone.chunkContent_eq xxHash32 options hvalid (hl k hk)
    rw [untargetedContent, untargetedFrom_eq, contentLines_editedBody, hsplit] at hsub
    simp only [flatMap_append] at hsub
    rw [houter fun k hk => by have := mem_range'_1.mp hk; omega,
      houter (l := List.range' (t + (m + 1)) _) fun k hk => by have := mem_range'_1.mp hk; omega,
      append_sublist_append_left, append_sublist_append_right] at hsub
    rw [← sublist_filter_iff fun _ => ne_nil_of_mem_untargetedFrom, untargetedFrom_eq, filter_flatMap,
      ← flatMap_congr fun k hk => hone.chunkContent_of_mem xxHash32 options hvalid (mem_range'_1.mp hk)]
    exact hsub

end

/-- Accepted batches whose payloads resupply what is absorbed keep all untargeted content, and a
batch of replacements around one stretch of lines keeps it only then. -/
theorem applyHashlineEdits_untargetedContent (xxHash32 : List UInt8 → UInt32) (text : JsStr)
    (edits : List HashlineEdit) (options : HashlineApplyOptions)
    (hvalid : validateHashlineAnchors xxHash32 edits (splitLines text) = .ok []) :
    ∃ result, applyHashlineEdits xxHash32 text edits options = .ok result ∧
      (PayloadsResupply (splitLines text) edits →
        (untargetedContent (splitLines text) edits).Sublist (splitLines result.lines)) ∧
      ∀ s n, OneStretch (splitLines text) edits s n →
        ((untargetedContent (splitLines text) edits).Sublist (splitLines result.lines) ↔
          PayloadsResupply (splitLines text) edits) := by
  have hranges := validAnchors_of_validate hvalid
  obtain ⟨result, hresult, hlines⟩ := applyHashlineEdits_ok options hvalid
    (validAnchors_absorbedEdits xxHash32 (splitLines text) edits options hranges)
  have hcontent : (untargetedContent (splitLines text) edits).Sublist (splitLines result.lines) ↔
      (untargetedContent (splitLines text) edits).Sublist (contentLines (batchLines (splitLines text)
        (absorbedEdits xxHash32 (splitLines text) edits options))) := by
    rw [hlines, ← filter_splitLines_joinLines]
    exact (sublist_filter_iff fun _ => ne_nil_of_mem_untargetedFrom).symm
  have hsurvives : PayloadsResupply (splitLines text) edits →
      (untargetedContent (splitLines text) edits).Sublist (splitLines result.lines) := by
    intro hresupply
    rw [hcontent, batchLines, contentLines_placeAtEnd, contentLines_placeAtStart]
    exact (untargetedContent_sublist xxHash32 options hresupply hranges).trans
      ((sublist_append_right _ _).trans (sublist_append_left _ _))
  refine ⟨result, hresult, hsurvives, fun s n hone => ⟨fun hsub => ?_, hsurvives⟩⟩
  rw [hcontent, hone.batchLines_eq] at hsub
  exact hone.payloadsResupply xxHash32 options hranges hsub

/-- The payload `a`, `b` before the lines 3 and 4, which are deleted. -/
def replaceThirdAndFourth : List HashlineEdit :=
  let third : Anchor := ⟨3, computeLineHash xxh32 3 (lit "X")⟩
  let fourth : Anchor := ⟨4, computeLineHash xxh32 4 (lit "Y")⟩
  [.insert (.beforeAnchor third) (lit "a") 1 0, .insert (.beforeAnchor fourth) (lit "b") 1 1,
    .delete third 1 2, .delete fourth 1 3]

theorem applyHashlineEdits_untargetedContent_above :
    validateHashlineAnchors xxh32 replaceThirdAndFourth (splitLines (lit "a\nb\nX\nY")) = .ok [] ∧
      OneStretch (splitLines (lit "a\nb\nX\nY")) replaceThirdAndFourth 1 4 ∧
      PayloadsResupply (splitLines (lit "a\nb\nX\nY")) replaceThirdAndFourth ∧
      ∃ result, applyHashlineEdits xxh32 (lit "a\nb\nX\nY") replaceThirdAndFourth {} = .ok result ∧
        (untargetedContent (splitLines (lit "a\nb\nX\nY")) replaceThirdAndFourth).Sublist
          (splitLines result.lines) := by
  have hvalid : validateHashlineAnchors xxh32 replaceThirdAndFourth (splitLines (lit "a\nb\nX\nY")) =
      .ok [] := by decide +kernel
  have hresupply : PayloadsResupply (splitLines (lit "a\nb\nX\nY")) replaceThirdAndFourth := by
    unfold PayloadsResupply Stretch
    decide +kernel
  obtain ⟨result, hresult, -, hexact⟩ :=
    applyHashlineEdits_untargetedContent xxh32 (lit "a\nb\nX\nY") replaceThirdAndFourth {} hvalid
  have hone : OneStretch (splitLines (lit "a\nb\nX\nY")) replaceThirdAndFourth 1 4 :=
    ⟨by decide +kernel, by decide +kernel, by decide +kernel⟩
  exact ⟨hvalid, hone, hresupply, result, hresult, (hexact 1 4 hone).mpr hresupply⟩

/-- `= 3X` with payload `a`, `b`, as the parser emits it. -/
def replaceThird : List HashlineEdit :=
  let anchor : Anchor := ⟨3, computeLineHash xxh32 3 (lit "X")⟩
  [.insert (.beforeAnchor anchor) (lit "a") 1 0, .insert (.beforeAnchor anchor) (lit "b") 1 1, .delete anchor 1 2]

/-- With equal blocks on both sides, one payload is counted for both and two lines are lost. -/
theorem applyHashlineEdits_absorbs_both_sides :
    validateHashlineAnchors xxh32 replaceThird (splitLines (lit "a\nb\nX\na\nb")) = .ok [] ∧
      (applyHashlineEdits xxh32 (lit "a\nb\nX\na\nb") replaceThird {}).toOption.map
          HashlineApplyResult.lines = some (lit "a\nb") ∧
      ¬ (untargetedContent (splitLines (lit "a\nb\nX\na\nb")) replaceThird).Sublist (splitLines (lit "a\nb")) :=
  ⟨by decide +kernel, by decide +kernel, by decide +kernel⟩

end GajaeCode.Hashline
