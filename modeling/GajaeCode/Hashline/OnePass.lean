import GajaeCode.Hashline.Apply
import GajaeCode.Text.XxHash32

/-! The one-pass meaning of a batch, and that the bottom-up splices of `applyHashlineEdits`
compute it. -/
namespace GajaeCode.Hashline
open Text List

/-- The text an edit places in front of line `k`. -/
def textBefore? (k : Nat) : HashlineEdit → Option JsStr
  | .insert (.beforeAnchor anchor) text _ _ => if anchor.line = k then some text else none
  | .insert (.afterAnchor anchor) text _ _ => if anchor.line + 1 = k then some text else none
  | _ => none

def deletesLine (k : Nat) : HashlineEdit → Bool
  | .delete anchor _ _ => anchor.line == k
  | _ => false

/-- The text an edit places at the end of a file of `count` lines. -/
def textAtEnd? (count : Nat) : HashlineEdit → Option JsStr
  | .insert .eof text _ _ => some text
  | .insert (.afterAnchor anchor) text _ _ => if count ≤ anchor.line then some text else none
  | _ => none

/-- What stands in the result for line `k`. -/
def lineChunk (edits : List HashlineEdit) (k : Nat) (line : JsStr) : List JsStr :=
  edits.filterMap (textBefore? k) ++ if edits.any (deletesLine k) then [] else [line]

def editedBody (fileLines : List JsStr) (edits : List HashlineEdit) : List JsStr :=
  onePass (lineChunk edits) 1 fileLines

def ValidAnchors (fileLines : List JsStr) (edits : List HashlineEdit) : Prop :=
  ∀ edit ∈ edits, ∀ anchor ∈ getHashlineEditAnchors edit, 1 ≤ anchor.line ∧ anchor.line ≤ fileLines.length

section

variable (edits : List IndexedEdit)

def bucketOf (k : Nat) : List IndexedEdit := edits.filter fun entry => bucketLine entry.edit = k

/-- What the map of buckets holds: each line once, with all its entries. -/
structure BucketMap (byLine : List (Nat × List IndexedEdit)) : Prop where
  nodup : (byLine.map Prod.fst).Nodup
  bucket : ∀ p ∈ byLine, p.2 = bucketOf edits p.1
  mem : ∀ k, k ∈ byLine.map Prod.fst ↔ bucketOf edits k ≠ []

theorem bucketOf_append (entry : IndexedEdit) (k : Nat) : bucketOf (edits ++ [entry]) k =
      bucketOf edits k ++ if bucketLine entry.edit = k then [entry] else [] := by
  rw [bucketOf, bucketOf]
  by_cases h : bucketLine entry.edit = k <;> simp [h]

theorem map_fst_pushBucket (entry : IndexedEdit) (byLine : List (Nat × List IndexedEdit)) :
    (pushBucket entry byLine).map Prod.fst = if bucketLine entry.edit ∈ byLine.map Prod.fst then byLine.map Prod.fst
      else byLine.map Prod.fst ++ [bucketLine entry.edit] := by
  induction byLine with
  | nil => simp [pushBucket]
  | cons p byLine ih =>
    obtain ⟨line, bucket⟩ := p
    rw [pushBucket]
    by_cases hline : line = bucketLine entry.edit
    · simp [hline]
    · rw [if_neg hline, map_cons, ih]
      by_cases hmem : bucketLine entry.edit ∈ byLine.map Prod.fst
      · simp [hmem]
      · simp [hmem, Ne.symm hline]

variable {byLine : List (Nat × List IndexedEdit)}

theorem mem_pushBucket {entry p} (hp : p ∈ pushBucket entry byLine) (hnodup : (byLine.map Prod.fst).Nodup) :
    (p ∈ byLine ∧ p.1 ≠ bucketLine entry.edit) ∨
      (p.1 = bucketLine entry.edit ∧ ∃ bucket, (p.1, bucket) ∈ byLine ∧ p.2 = bucket ++ [entry]) ∨
      (p = (bucketLine entry.edit, [entry]) ∧ bucketLine entry.edit ∉ byLine.map Prod.fst) := by
  induction byLine with
  | nil => simpa [pushBucket] using hp
  | cons q byLine ih =>
    obtain ⟨line, bucket⟩ := q
    rw [map_cons, nodup_cons] at hnodup
    rw [pushBucket] at hp
    by_cases hline : line = bucketLine entry.edit
    · rw [if_pos hline] at hp
      rcases mem_cons.mp hp with rfl | hp
      · exact .inr (.inl ⟨hline, bucket, by simp, rfl⟩)
      · refine .inl ⟨mem_cons_of_mem _ hp, ?_⟩
        intro heq
        have hmem : p.1 ∈ byLine.map Prod.fst := mem_map_of_mem hp
        rw [heq, ← hline] at hmem
        exact hnodup.1 hmem
    · rw [if_neg hline] at hp
      rcases mem_cons.mp hp with rfl | hp
      · exact .inl ⟨by simp, hline⟩
      · rcases ih hp hnodup.2 with h | ⟨h, b, hb, hp⟩ | ⟨h, hnot⟩
        · exact .inl ⟨mem_cons_of_mem _ h.1, h.2⟩
        · exact .inr (.inl ⟨h, b, mem_cons_of_mem _ hb, hp⟩)
        · refine .inr (.inr ⟨h, ?_⟩)
          simp only [map_cons, mem_cons, not_or]
          exact ⟨Ne.symm hline, hnot⟩

theorem BucketMap.push (h : BucketMap edits byLine) (entry : IndexedEdit) :
    BucketMap (edits ++ [entry]) (pushBucket entry byLine) where
  nodup := by
    rw [map_fst_pushBucket]
    split
    · exact h.nodup
    · next hnot => exact nodup_append.mpr ⟨h.nodup, by simp, by
        intro a ha b hb
        rw [mem_singleton.mp hb]
        rintro rfl
        exact hnot ha⟩
  bucket p hp := by
    rw [bucketOf_append]
    rcases mem_pushBucket hp h.nodup with ⟨hmem, hne⟩ | ⟨hline, bucket, hmem, heq⟩ | ⟨rfl, hnot⟩
    · rw [if_neg (Ne.symm hne), append_nil, h.bucket p hmem]
    · rw [if_pos hline.symm, heq, ← h.bucket _ hmem]
    · rw [if_pos rfl, not_not.mp (mt (h.mem _).mpr hnot), nil_append]
  mem k := by
    rw [map_fst_pushBucket, bucketOf_append]
    have hmem := h.mem k
    by_cases hk : bucketLine entry.edit = k
    · rw [if_pos hk]
      split
      · next hold => simpa [← hk] using hold
      · simp [hk]
    · rw [if_neg hk, append_nil, ← hmem]
      split
      · rfl
      · simp [Ne.symm hk]

theorem bucketMap_bucketAnchorEditsByLine : BucketMap edits (bucketAnchorEditsByLine edits) := by
  induction edits using List.reverseRecOn with
  | nil => exact ⟨by simp [bucketAnchorEditsByLine], by simp [bucketAnchorEditsByLine],
      by simp [bucketAnchorEditsByLine, bucketOf]⟩
  | append_singleton edits entry ih =>
    rw [bucketAnchorEditsByLine, foldl_append]
    exact ih.push edits entry

theorem BucketMap.lookup (h : BucketMap edits byLine) {k} (hk : k ∈ byLine.map Prod.fst) :
    byLine.lookup k = some (bucketOf edits k) := by
  cases hlook : byLine.lookup k with
  | none =>
    obtain ⟨p, hp, rfl⟩ := mem_map.mp hk
    simpa using lookup_eq_none_iff.mp hlook p hp
  | some bucket =>
    obtain ⟨before, after, heq, _⟩ := lookup_eq_some_iff.mp hlook
    exact congrArg some (h.bucket (k, bucket) (by simp [heq]))

end

def bucketChunk (bucket : List IndexedEdit) (line : JsStr) : List JsStr :=
  (bucket.filterMap fun entry => insertText? entry.edit) ++
    if bucket.any fun entry => entry.edit.isDelete then [] else [line]

theorem fileLines_trackFirstChanged (state : ApplyState) (line : Nat) :
    (state.trackFirstChanged line).fileLines = state.fileLines := by
  unfold ApplyState.trackFirstChanged
  split <;> rfl

theorem fileLines_applyBucket (state : ApplyState) (line : Nat) {bucket}
    (hsorted : bucket.Pairwise fun a b => a.idx ≤ b.idx) (hne : bucket ≠ []) :
    (applyBucket state line bucket).fileLines = splice state.fileLines (line - 1) 1
        (bucketChunk bucket (state.fileLines.getD (line - 1) [])) := by
  unfold applyBucket bucketChunk
  rw [hsorted.insertionSort_eq]
  rw [if_neg, fileLines_trackFirstChanged]
  · cases bucket.any fun entry => entry.edit.isDelete <;> simp
  · rintro ⟨hbefore, hdelete⟩
    obtain ⟨⟨edit, idx⟩, rest, rfl⟩ := exists_cons_of_ne_nil hne
    cases edit <;> simp [insertText?, HashlineEdit.isDelete] at hbefore hdelete

section

variable (xxHash32 : List UInt8 → UInt32) {fileLines : List JsStr} {edits : List HashlineEdit}

/-- The entries that are bucketed once cursors are normalised. -/
def anchorEntries (normalizedEdits : List HashlineEdit) : List IndexedEdit :=
  (normalizedEdits.mapIdx fun idx edit => ({ edit, idx } : IndexedEdit)).filter fun entry => isAnchorEdit entry.edit

variable (normalizedEdits : List HashlineEdit)

theorem anchorEntries_sorted : (anchorEntries normalizedEdits).Pairwise fun a b => a.idx ≤ b.idx := by
  apply List.Pairwise.filter
  rw [pairwise_iff_getElem]
  intro i j hi hj hlt
  simp only [getElem_mapIdx]
  exact hlt.le

theorem map_edit_bucketOf (k : Nat) : (bucketOf (anchorEntries normalizedEdits) k).map IndexedEdit.edit =
      normalizedEdits.filter fun edit => isAnchorEdit edit = true ∧ bucketLine edit = k := by
  have hedits : (normalizedEdits.mapIdx fun idx edit => ({ edit, idx } : IndexedEdit)).map
      IndexedEdit.edit = normalizedEdits := by
    apply ext_getElem (by simp)
    simp
  conv_rhs => rw [← hedits]
  rw [bucketOf, anchorEntries, filter_filter, filter_map]
  simp only [Function.comp_def, Bool.and_comm, Bool.decide_and, Bool.decide_eq_true]

variable {k : Nat}

theorem normalized_textBefore {edit} (hlen : k ≤ fileLines.length) :
    (if isAnchorEdit (normalizeAfterAnchor xxHash32 fileLines edit) = true ∧
        bucketLine (normalizeAfterAnchor xxHash32 fileLines edit) = k then
      insertText? (normalizeAfterAnchor xxHash32 fileLines edit) else none) = textBefore? k edit := by
  cases edit with
  | delete anchor lineNum index => exact ite_self none
  | insert cursor text lineNum index =>
    cases cursor with
    | bof => simp [normalizeAfterAnchor, isAnchorEdit, bofText?, textBefore?]
    | eof => simp [normalizeAfterAnchor, isAnchorEdit, bofText?, eofText?, textBefore?]
    | beforeAnchor anchor =>
      simp [normalizeAfterAnchor, isAnchorEdit, bofText?, eofText?, textBefore?, bucketLine, insertText?]
    | afterAnchor anchor =>
      rw [normalizeAfterAnchor]
      split
      · next hlast =>
        have hne : anchor.line + 1 ≠ k := by omega
        simp [isAnchorEdit, bofText?, eofText?, textBefore?, hne]
      · simp [isAnchorEdit, bofText?, eofText?, textBefore?, bucketLine, insertText?]

theorem normalized_deletesLine (fileLines : List JsStr) (edit : HashlineEdit) (k : Nat) :
    (isAnchorEdit (normalizeAfterAnchor xxHash32 fileLines edit) &&
        decide (bucketLine (normalizeAfterAnchor xxHash32 fileLines edit) = k) &&
        (normalizeAfterAnchor xxHash32 fileLines edit).isDelete) = deletesLine k edit := by
  cases edit with
  | delete anchor lineNum index =>
    change (true && decide (anchor.line = k) && true) = (anchor.line == k)
    rw [Bool.true_and, Bool.and_true, Bool.beq_eq_decide_eq]
  | insert cursor text lineNum index =>
    cases cursor with
    | bof | eof | beforeAnchor anchor => simp [normalizeAfterAnchor, HashlineEdit.isDelete, deletesLine]
    | afterAnchor anchor =>
      rw [normalizeAfterAnchor]
      split <;> simp [HashlineEdit.isDelete, deletesLine]

theorem bucketChunk_eq_lineChunk (edits : List HashlineEdit) (hlen : k ≤ fileLines.length) (line : JsStr) :
    bucketChunk (bucketOf (anchorEntries (edits.map (normalizeAfterAnchor xxHash32 fileLines))) k) line =
      lineChunk edits k line := by
  have hbucket := map_edit_bucketOf (edits.map (normalizeAfterAnchor xxHash32 fileLines)) k
  have htexts : (bucketOf (anchorEntries (edits.map (normalizeAfterAnchor xxHash32 fileLines)))
      k).filterMap (fun entry => insertText? entry.edit) = edits.filterMap (textBefore? k) := by
    have hmap := congrArg (List.filterMap insertText?) hbucket
    rw [filterMap_map, filterMap_filter, filterMap_map] at hmap
    rw [show (fun entry : IndexedEdit => insertText? entry.edit) = insertText? ∘ IndexedEdit.edit from rfl, hmap]
    congr 1
    funext edit
    simpa using normalized_textBefore xxHash32 hlen
  have hdelete : (bucketOf (anchorEntries (edits.map (normalizeAfterAnchor xxHash32 fileLines)))
      k).any (fun entry => entry.edit.isDelete) = edits.any (deletesLine k) := by
    have hany := congrArg (List.any · HashlineEdit.isDelete) hbucket
    simp only [any_map, any_filter] at hany
    rw [Function.comp_def] at hany
    rw [hany]
    congr 1
    funext edit
    rw [← normalized_deletesLine xxHash32 fileLines edit k]
    simp
  rw [bucketChunk, lineChunk, htexts, hdelete]

theorem textAtEnd_normalized (edits : List HashlineEdit) :
    (edits.map (normalizeAfterAnchor xxHash32 fileLines)).filterMap eofText? =
      edits.filterMap (textAtEnd? fileLines.length) := by
  rw [filterMap_map]
  congr 1
  funext edit
  cases edit with
  | delete anchor lineNum index => rfl
  | insert cursor text lineNum index =>
    cases cursor with
    | bof | eof | beforeAnchor anchor => rfl
    | afterAnchor anchor =>
      rw [Function.comp_apply, normalizeAfterAnchor, textAtEnd?]
      split <;> rfl

theorem bofText_normalized (edits : List HashlineEdit) :
    (edits.map (normalizeAfterAnchor xxHash32 fileLines)).filterMap bofText? = edits.filterMap bofText? := by
  rw [filterMap_map]
  congr 1
  funext edit
  cases edit with
  | delete anchor lineNum index => rfl
  | insert cursor text lineNum index =>
    cases cursor with
    | bof | eof | beforeAnchor anchor => rfl
    | afterAnchor anchor =>
      rw [Function.comp_apply, normalizeAfterAnchor]
      split <;> rfl

theorem bucketLine_mem_range (hvalid : ValidAnchors fileLines edits)
    (hk : bucketOf (anchorEntries (edits.map (normalizeAfterAnchor xxHash32 fileLines))) k ≠ []) :
    1 ≤ k ∧ k ≤ fileLines.length := by
  obtain ⟨entry, hentry⟩ := exists_mem_of_ne_nil _ hk
  have hmem := mem_map_of_mem (f := IndexedEdit.edit) hentry
  rw [map_edit_bucketOf, mem_filter, decide_eq_true_eq, mem_map] at hmem
  obtain ⟨⟨edit, hedit, heq⟩, hanchor, rfl⟩ := hmem
  rw [← heq] at hanchor ⊢
  have hrange := hvalid edit hedit
  cases edit with
  | delete anchor lineNum index => exact hrange anchor (by simp [getHashlineEditAnchors])
  | insert cursor text lineNum index =>
    cases cursor with
    | bof => simp [normalizeAfterAnchor, isAnchorEdit, bofText?] at hanchor
    | eof => simp [normalizeAfterAnchor, isAnchorEdit, eofText?] at hanchor
    | beforeAnchor anchor =>
      exact hrange anchor (by simp [getHashlineEditAnchors, HashlineCursor.anchors])
    | afterAnchor anchor =>
      rw [normalizeAfterAnchor] at hanchor ⊢
      split at hanchor
      · simp [isAnchorEdit, eofText?] at hanchor
      · next hlast =>
        rw [if_neg hlast, bucketLine]
        dsimp only
        omega

theorem foldl_applyBucket (hvalid : ValidAnchors fileLines edits) {byLine}
    (hmap : BucketMap (anchorEntries (edits.map (normalizeAfterAnchor xxHash32 fileLines))) byLine) :
    (((byLine.map Prod.fst).insertionSort (· ≥ ·)).foldl
        (fun state line => (byLine.lookup line).elim state (applyBucket state line))
        { fileLines, firstChangedLine := none }).fileLines = editedBody fileLines edits := by
  let entries := anchorEntries (edits.map (normalizeAfterAnchor xxHash32 fileLines))
  have hproject : ∀ (keys : List Nat) (state : ApplyState), (∀ k ∈ keys, k ∈ byLine.map Prod.fst) →
      (keys.foldl (fun state line => (byLine.lookup line).elim state (applyBucket state line)) state).fileLines =
      keys.foldl (fun acc k =>
        splice acc (k - 1) 1 (bucketChunk (bucketOf entries k) (acc.getD (k - 1) [])))
        state.fileLines := by
    intro keys
    induction keys with
    | nil => intro state _; rfl
    | cons k keys ih =>
      intro state hkeys
      have hk := hkeys k (by simp)
      have hsorted : (bucketOf entries k).Pairwise fun a b => a.idx ≤ b.idx := (anchorEntries_sorted _).filter _
      rw [foldl_cons, foldl_cons, ih _ fun j hj => hkeys j (by simp [hj]), hmap.lookup _ hk, Option.elim_some,
        fileLines_applyBucket state k hsorted ((hmap.mem k).mp hk)]
  have hmem (k : Nat) : k ∈ (byLine.map Prod.fst).insertionSort (· ≥ ·) ↔ bucketOf entries k ≠ [] := by
    rw [mem_insertionSort, hmap.mem]
  have hsorted : ((byLine.map Prod.fst).insertionSort (· ≥ ·)).Pairwise (· > ·) := by
    have hnodup : ((byLine.map Prod.fst).insertionSort (· ≥ ·)).Nodup :=
      (perm_insertionSort _ _).nodup_iff.mpr hmap.nodup
    refine ((pairwise_insertionSort (· ≥ ·) _).and hnodup).imp ?_
    rintro a b ⟨hge, hne⟩
    exact lt_of_le_of_ne hge (Ne.symm hne)
  rw [hproject _ _ fun k hk => by simpa using hk]
  rw [foldl_splice_eq_onePass (fun k => bucketChunk (bucketOf entries k)) [] _ _ hsorted
    (fun k hk => bucketLine_mem_range xxHash32 hvalid ((hmem k).mp hk))]
  · apply onePass_congr
    intro k line _ hlen
    exact bucketChunk_eq_lineChunk xxHash32 edits (by omega) line
  · intro k line hk
    rw [not_not.mp (mt (hmem k).mpr hk)]
    simp [bucketChunk]

variable (state : ApplyState)

theorem fileLines_insertAtStart (lines : List JsStr) :
    (if lines.length > 0 then
        { state with fileLines := insertAtStart state.fileLines lines }.trackFirstChanged 1
      else state).fileLines = insertAtStart state.fileLines lines := by
  split
  · rw [fileLines_trackFirstChanged]
  · next h => rw [insertAtStart, if_pos (by omega)]

theorem fileLines_insertAtEnd (changed : Option Nat) :
    (changed.elim state state.trackFirstChanged).fileLines = state.fileLines := by
  cases changed with
  | none => rfl
  | some line => exact fileLines_trackFirstChanged state line

theorem fileLines_applyNormalized (hvalid : ValidAnchors fileLines edits) :
    (applyNormalized fileLines (edits.map (normalizeAfterAnchor xxHash32 fileLines))).fileLines =
      (insertAtEnd (insertAtStart (editedBody fileLines edits) (edits.filterMap bofText?))
        (edits.filterMap (textAtEnd? fileLines.length))).1 := by
  have hbody := foldl_applyBucket xxHash32 hvalid (bucketMap_bucketAnchorEditsByLine _)
  rw [anchorEntries] at hbody
  unfold applyNormalized
  rw [fileLines_insertAtEnd, fileLines_insertAtStart, bofText_normalized, textAtEnd_normalized, hbody]

end

section

variable {xxHash32 : List UInt8 → UInt32} {fileLines : List JsStr} {edits : List HashlineEdit}

theorem validAnchors_of_foldlM (anchors : List Anchor) (acc mismatches : List HashMismatch)
    (h : anchors.foldlM (fun mismatches anchor => do
      return mismatches ++ (← validateAnchor xxHash32 fileLines anchor)) acc = .ok mismatches) :
    ∀ anchor ∈ anchors, 1 ≤ anchor.line ∧ anchor.line ≤ fileLines.length := by
  induction anchors generalizing acc with
  | nil => simp
  | cons first anchors ih =>
    rw [foldlM_cons] at h
    cases hfirst : validateAnchor xxHash32 fileLines first with
    | error e =>
      rw [hfirst] at h
      cases h
    | ok found =>
      rw [hfirst] at h
      intro anchor hanchor
      rcases mem_cons.mp hanchor with rfl | hanchor
      · rw [validateAnchor] at hfirst
        split at hfirst
        · cases hfirst
        · omega
      · exact ih _ h anchor hanchor

theorem validAnchors_of_validate {mismatches}
    (h : validateHashlineAnchors xxHash32 edits fileLines = .ok mismatches) : ValidAnchors fileLines edits := by
  intro edit hedit anchor hanchor
  exact validAnchors_of_foldlM _ _ _ h anchor (mem_flatMap.mpr ⟨edit, hedit, hanchor⟩)

end

/-- Texts in front of a file; a file that is one empty line gives way to them. -/
def placeAtStart (texts body : List JsStr) : List JsStr :=
  if texts ≠ [] ∧ body = [[]] then texts else texts ++ body

/-- Texts at the end of a file, before the empty line that a final newline leaves; a file that is
one empty line gives way to them. -/
def placeAtEnd (texts body : List JsStr) : List JsStr :=
  if texts = [] then body
  else if body = [[]] then texts
  else if body.getLast? = some [] then body.dropLast ++ texts ++ [[]]
  else body ++ texts

/-- The lines a batch denotes: the ends of the file are those of the edited body. -/
def batchLines (fileLines : List JsStr) (edits : List HashlineEdit) : List JsStr :=
  placeAtEnd (edits.filterMap (textAtEnd? fileLines.length))
    (placeAtStart (edits.filterMap bofText?) (editedBody fileLines edits))

theorem eq_singleton_nil_iff (lines : List JsStr) : (lines.length = 1 ∧ lines.head? = some []) ↔ lines = [[]] := by
  match lines with
  | [] => simp
  | [line] => simp
  | _ :: _ :: _ => simp

theorem insertAtStart_eq (texts body : List JsStr) : insertAtStart body texts = placeAtStart texts body := by
  simp only [insertAtStart, placeAtStart, eq_singleton_nil_iff]
  cases texts <;> simp

theorem insertAtEnd_eq (texts body : List JsStr) : (insertAtEnd body texts).1 = placeAtEnd texts body := by
  simp only [insertAtEnd, placeAtEnd, eq_singleton_nil_iff]
  by_cases htexts : texts = []
  · simp [htexts]
  by_cases hbody : body = [[]]
  · simp [htexts, hbody]
  rw [if_neg (by simpa using htexts), if_neg hbody, if_neg htexts, if_neg hbody]
  by_cases hlast : body.getLast? = some []
  · have hne : body ≠ [] := by
      rintro rfl
      simp at hlast
    have hlen : 0 < body.length := length_pos_iff.mpr hne
    have hdrop : body.drop (body.length - 1) = [[]] := by
      rw [drop_length_sub_one hne]
      rw [getLast?_eq_getLast_of_ne_nil hne] at hlast
      rw [Option.some.inj hlast]
    simp [hlast, hlen, splice, hdrop, dropLast_eq_take]
  · simp [hlast, splice]

theorem batchLines_nil (fileLines : List JsStr) : batchLines fileLines [] = fileLines := by
  have hchunk : lineChunk [] = fun _ line => [line] := by
    funext k line
    simp [lineChunk]
  simp [batchLines, placeAtEnd, placeAtStart, editedBody, hchunk, onePass_singleton]

theorem absorbReplacementBoundaryDuplicates_nil (xxHash32 : List UInt8 → UInt32)
    (fileLines : List JsStr) (options : HashlineApplyOptions) :
    absorbReplacementBoundaryDuplicates xxHash32 [] fileLines options = ([], []) := rfl

theorem applyHashlineEdits_ok {xxHash32 text edits} (options : HashlineApplyOptions)
    (hvalid : validateHashlineAnchors xxHash32 edits (splitLines text) = .ok [])
    (habsorbed : ValidAnchors (splitLines text)
      (absorbReplacementBoundaryDuplicates xxHash32 edits (splitLines text) options).1) :
    ∃ result, applyHashlineEdits xxHash32 text edits options = .ok result ∧
      result.lines = joinLines (batchLines (splitLines text)
        (absorbReplacementBoundaryDuplicates xxHash32 edits (splitLines text) options).1) := by
  rw [applyHashlineEdits]
  split
  · next hempty =>
    rw [length_eq_zero_iff.mp hempty]
    exact ⟨_, rfl, by
      simp [absorbReplacementBoundaryDuplicates_nil, batchLines_nil, joinLines_splitLines]⟩
  · dsimp only
    rw [hvalid]
    refine ⟨_, rfl, ?_⟩
    rw [fileLines_applyNormalized xxHash32 habsorbed, insertAtEnd_eq, insertAtStart_eq]
    rfl

/-- A batch that absorption leaves alone has its one-pass meaning. -/
theorem applyHashlineEdits_eq_batchLines (xxHash32 : List UInt8 → UInt32) (text : JsStr)
    (edits : List HashlineEdit) (options : HashlineApplyOptions)
    (hvalid : validateHashlineAnchors xxHash32 edits (splitLines text) = .ok [])
    (hunchanged : (absorbReplacementBoundaryDuplicates xxHash32 edits (splitLines text) options).1 = edits) :
    ∃ result, applyHashlineEdits xxHash32 text edits options = .ok result ∧
      result.lines = joinLines (batchLines (splitLines text) edits) := by
  have hranges := validAnchors_of_validate hvalid
  have hok := applyHashlineEdits_ok options hvalid (by rw [hunchanged]; exact hranges)
  rwa [hunchanged] at hok

def deleteFirstAppend : List HashlineEdit :=
  [.delete ⟨1, rangeInteriorHash⟩ 1 0, .insert (.afterAnchor ⟨2, rangeInteriorHash⟩) (lit "x") 2 1]

theorem applyHashlineEdits_eq_batchLines_deleteFirstAppend :
    (validateHashlineAnchors xxh32 deleteFirstAppend (splitLines (lit "a\nb")) = .ok [] ∧
        (absorbReplacementBoundaryDuplicates xxh32 deleteFirstAppend (splitLines (lit "a\nb"))
          {}).1 = deleteFirstAppend) ∧
      ∃ result, applyHashlineEdits xxh32 (lit "a\nb") deleteFirstAppend {} = .ok result ∧
        result.lines = joinLines (batchLines (splitLines (lit "a\nb")) deleteFirstAppend) :=
  ⟨⟨rfl, by decide⟩, applyHashlineEdits_eq_batchLines xxh32 (lit "a\nb") deleteFirstAppend {} rfl (by decide)⟩

/-- The reading in which the end of the file is that of the original text: texts at the end come
before its final empty line, and an empty original gives way to what is inserted. -/
def originalEndLines (fileLines : List JsStr) (edits : List HashlineEdit) : List JsStr :=
  let bof := edits.filterMap bofText?
  let eof := edits.filterMap (textAtEnd? fileLines.length)
  let last := fileLines.length
  if fileLines = [[]] then
    if bof ++ eof = [] then editedBody fileLines edits else bof ++ eof
  else if fileLines.getLast? = some [] then
    bof ++ onePass (lineChunk edits) 1 fileLines.dropLast ++ edits.filterMap (textBefore? last) ++
      eof ++ if edits.any (deletesLine last) then [] else [[]]
  else bof ++ editedBody fileLines edits ++ eof

def deleteFirstAtEnd : List HashlineEdit :=
  [.delete ⟨1, rangeInteriorHash⟩ 1 0, .insert .eof (lit "x") 2 1]

/-- On `a⏎` the final newline is lost: once line 1 is gone the edited array is one empty line. -/
theorem applyHashlineEdits_end_of_edited :
    validateHashlineAnchors xxh32 deleteFirstAtEnd (splitLines (lit "a\n")) = .ok [] ∧
      (absorbReplacementBoundaryDuplicates xxh32 deleteFirstAtEnd (splitLines (lit "a\n"))
        {}).1 = deleteFirstAtEnd ∧ (applyHashlineEdits xxh32 (lit "a\n") deleteFirstAtEnd {}).toOption.map
          HashlineApplyResult.lines = some (lit "x") ∧
      joinLines (originalEndLines (splitLines (lit "a\n")) deleteFirstAtEnd) = lit "x\n" :=
  ⟨rfl, by decide, by decide, by decide⟩

end GajaeCode.Hashline
