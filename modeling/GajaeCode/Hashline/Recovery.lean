import GajaeCode.Data.Fallible
import GajaeCode.Data.InsertionMap
import GajaeCode.Hashline.Apply
import GajaeCode.Hashline.Parser
import GajaeCode.Text.XxHash32

/-! Recovery from stale anchors with the lines that the session has read before (`hashline/recovery.ts`,
`edit/file-read-cache.ts`). The patch library and the first changed line of a diff are parameters. -/
namespace GajaeCode.Hashline
open Data Text List

/-- The lines as `read` and `search` showed them, by their numbers. -/
structure FileReadSnapshot where
  lines : List (Nat × JsStr)
  single : ∀ entry ∈ lines, LF ∉ entry.2

def collectEditAnchors (edits : List HashlineEdit) : List Anchor := edits.flatMap getHashlineEditAnchors

structure HashlineRecoveryResult where
  lines : JsStr
  firstChangedLine : Option Nat
  warnings : List JsStr

def hashlineRecoveryWarning := lit
  "Recovered from stale anchors using a previous read snapshot (file changed externally between read and edit)."

namespace FileReadSnapshot

/-- The current lines, as many as the snapshot needs, with the cached ones in their places. -/
def overlay (snapshot : FileReadSnapshot) (currentText : JsStr) : List JsStr :=
  let current := splitLines currentText
  let maxCachedLine := (snapshot.lines.map Prod.fst).foldl max 0
  (current ++ replicate (maxCachedLine - current.length) []).mapIdx fun i line =>
    (snapshot.lines.lookup (i + 1)).getD line

variable (xxHash32 : List UInt8 → UInt32)

/-- The precondition of the recovery: every anchored line is cached, with the hash that the model gave. -/
def vouches (snapshot : FileReadSnapshot) (edits : List HashlineEdit) : Bool :=
  (collectEditAnchors edits).all fun anchor => (snapshot.lines.lookup anchor.line).any fun cachedLine =>
    computeLineHash xxHash32 anchor.line cachedLine = anchor.hash

/-- `applyPatch previous applied current` replays the change of the first two on the third. -/
def tryRecoverHashlineWithCache (applyPatch : JsStr → JsStr → JsStr → Option JsStr)
    (firstChangedLine : JsStr → JsStr → Option Nat) (snapshot : Option FileReadSnapshot)
    (currentText : JsStr) (edits : List HashlineEdit) (options : HashlineApplyOptions) :
    Except HashlineApplyError (Option HashlineRecoveryResult) :=
  match snapshot with
  | none => .ok none
  | some snapshot =>
    let previousText := joinLines (snapshot.overlay currentText)
    if snapshot.lines.isEmpty || !snapshot.vouches xxHash32 edits || previousText = currentText then .ok none
    else match applyHashlineEdits xxHash32 previousText edits options with
      | .error (.mismatch _ _) => .ok none
      | .error error => .error error
      | .ok applied =>
        if applied.lines = previousText then .ok none
        else .ok <| (applyPatch previousText applied.lines currentText).bind fun merged =>
          if merged = currentText then none
          else
            let changed := firstChangedLine currentText merged
            some ⟨merged, changed.or applied.firstChangedLine,
              (if changed.isSome then [hashlineRecoveryWarning] else []) ++ applied.warnings⟩

variable {xxHash32} {snapshot : FileReadSnapshot} {currentText : JsStr} {edits : List HashlineEdit}

/-- Without its precondition the recovery gives nothing. -/
theorem tryRecover_eq_none (h : snapshot.vouches xxHash32 edits = false)
    (applyPatch : JsStr → JsStr → JsStr → Option JsStr) (firstChangedLine : JsStr → JsStr → Option Nat)
    (options : HashlineApplyOptions) : tryRecoverHashlineWithCache xxHash32 applyPatch firstChangedLine
      (some snapshot) currentText edits options = .ok none := by
  simp [tryRecoverHashlineWithCache, h]

theorem splitLines_overlay : splitLines (joinLines (snapshot.overlay currentText)) = snapshot.overlay currentText := by
  refine splitLines_joinLines ?_ ?_
  · simp [overlay, splitLines_ne_nil]
  · intro line hline
    obtain ⟨i, hi, rfl⟩ := mem_mapIdx.mp hline
    cases hcached : snapshot.lines.lookup (i + 1) with
    | some cachedLine => exact snapshot.single _ (mem_of_lookup hcached)
    | none =>
      rcases mem_append.mp (getElem_mem hi) with hmem | hmem
      · exact LF_notMem_of_mem_splitLines hmem
      · rw [eq_of_mem_replicate hmem]
        exact not_mem_nil

theorem getD_overlay {n cachedLine} (hn : 1 ≤ n) (hlength : n ≤ (snapshot.overlay currentText).length)
    (hcached : snapshot.lines.lookup n = some cachedLine) : (snapshot.overlay currentText).getD (n - 1)
    [] = cachedLine := by
  have hlt : n - 1 < (snapshot.overlay currentText).length := by omega
  rw [getD_eq_getElem _ _ hlt]
  simp only [overlay, getElem_mapIdx, Nat.sub_add_cancel hn, hcached, Option.getD_some]

end FileReadSnapshot

theorem computeLineHash_ne_interior (xxHash32 : List UInt8 → UInt32) (n : Nat) (line : JsStr) :
    computeLineHash xxHash32 n line ≠ rangeInteriorHash := by
  have hall : (hlBigrams.all (· ≠ rangeInteriorHash)) = true := by decide +kernel
  have hlt : (xxHash32 (encodeUtf8 (trimEnd (line.filter (· != CR))))).toNat % hlBigrams.length < hlBigrams.length :=
    Nat.mod_lt _ (by rw [hlBigrams_length]; decide)
  unfold computeLineHash
  rw [getD_eq_getElem _ _ hlt]
  exact of_decide_eq_true (all_eq_true.mp hall _ (getElem_mem hlt))

theorem validateAnchor_of_foldlM {xxHash32 fileLines} (anchors : List Anchor)
    {before} (h : anchors.foldlM (fun mismatches anchor =>
      return mismatches ++ (← validateAnchor xxHash32 fileLines anchor)) before = .ok []) :
    before = [] ∧ ∀ anchor ∈ anchors, validateAnchor xxHash32 fileLines anchor = .ok [] := by
  induction anchors generalizing before with
  | nil => exact ⟨pure_eq_ok.mp h, nofun⟩
  | cons anchor anchors ih =>
    obtain ⟨after, hafter, hrest⟩ := bind_eq_ok.mp h
    obtain ⟨found, hfound, hsum⟩ := bind_eq_ok.mp hafter
    obtain ⟨hnil, hall⟩ := ih hrest
    rw [← pure_eq_ok.mp hsum, append_eq_nil_iff] at hnil
    exact ⟨hnil.1, forall_mem_cons.mpr ⟨hnil.2 ▸ hfound, hall⟩⟩

theorem validateAnchor_of_apply {xxHash32 text edits options applied}
    (h : applyHashlineEdits xxHash32 text edits options = .ok applied) :
    ∀ anchor ∈ collectEditAnchors edits, validateAnchor xxHash32 (splitLines text) anchor = .ok [] := by
  unfold applyHashlineEdits at h
  split_ifs at h with hnil
  · rw [eq_nil_of_length_eq_zero hnil]
    exact nofun
  · obtain ⟨mismatches, hvalid, h⟩ := bind_eq_ok.mp h
    split_ifs at h with hmismatch
    · cases h
    · obtain rfl := eq_nil_of_length_eq_zero (Nat.eq_zero_of_not_pos hmismatch)
      exact (validateAnchor_of_foldlM _ hvalid).2

/-- The precondition lets an accepted batch through exactly when no anchor is the inside of a range. -/
theorem vouches_iff {xxHash32 : List UInt8 → UInt32} {snapshot : FileReadSnapshot} {currentText : JsStr}
    {edits : List HashlineEdit} {options : HashlineApplyOptions} {applied : HashlineApplyResult}
    (hcached : ∀ anchor ∈ collectEditAnchors edits, (snapshot.lines.lookup anchor.line).isSome = true)
    (happly : applyHashlineEdits xxHash32 (joinLines (snapshot.overlay currentText)) edits options = .ok applied) :
    snapshot.vouches xxHash32 edits = true ↔ ∀ anchor ∈ collectEditAnchors edits, anchor.hash ≠ rangeInteriorHash := by
  unfold FileReadSnapshot.vouches
  rw [all_eq_true]
  refine forall₂_congr fun anchor hanchor => ?_
  obtain ⟨cachedLine, hline⟩ := Option.isSome_iff_exists.mp (hcached anchor hanchor)
  have hvalid := validateAnchor_of_apply happly anchor hanchor
  rw [FileReadSnapshot.splitLines_overlay] at hvalid
  simp only [hline, Option.any_some, decide_eq_true_eq]
  constructor
  · rintro hhash hinterior
    exact computeLineHash_ne_interior _ _ _ (hhash.trans hinterior)
  · intro hhash
    unfold validateAnchor at hvalid
    split_ifs at hvalid with hrange
    rw [not_or, Nat.not_lt, Nat.not_lt] at hrange
    rw [FileReadSnapshot.getD_overlay hrange.1 hrange.2 hline] at hvalid
    by_contra hne
    rw [if_neg hne] at hvalid
    cases hvalid

/-- Lines `a`, `b` and `c` as they were read. -/
def threeRead : FileReadSnapshot := ⟨[(1, lit "a"), (2, lit "b"), (3, lit "c")], by decide⟩

def deleteRange (first last : Nat × JsStr) : JsStr :=
  hlOpReplace :: (decimal first.1 ++ computeLineHash xxh32 first.1 first.2 ++ lit ".." ++ decimal last.1 ++
    computeLineHash xxh32 last.1 last.2)

/-- Both ends of a range of two lines are its anchors. -/
def twoDeleted : List HashlineEdit :=
  [.delete ⟨1, computeLineHash xxh32 1 (lit "a")⟩ 1 0, .delete ⟨2, computeLineHash xxh32 2 (lit "b")⟩ 1 1]

theorem vouches_iff_twoDeleted :
    (applyHashlineEdits xxh32 (joinLines (threeRead.overlay (lit "a\nb\nx"))) twoDeleted {}).toBool = true ∧
      threeRead.vouches xxh32 twoDeleted = true := by
  have haccepts : (applyHashlineEdits xxh32 (joinLines (threeRead.overlay (lit "a\nb\nx"))) twoDeleted {}).toBool = true := by
    decide +kernel
  refine ⟨haccepts, ?_⟩
  cases happly : applyHashlineEdits xxh32 (joinLines (threeRead.overlay (lit "a\nb\nx"))) twoDeleted {} with
  | error error =>
    rw [happly] at haccepts
    cases haccepts
  | ok applied => exact (vouches_iff (by decide +kernel) happly).mpr (by decide +kernel)

/-- Lines 1 to 3 are deleted: the anchor of line 2 has the filler hash, which no line has. -/
theorem recovery_refuses_interior :
    ((parseHashline xxh32 (deleteRange (1, lit "a") (3, lit "c"))).toOption.map fun edits =>
      ((collectEditAnchors edits).all fun anchor => (threeRead.lines.lookup anchor.line).isSome,
        (applyHashlineEdits xxh32 (joinLines (threeRead.overlay (lit "a\nb\nx"))) edits {}).toBool,
        threeRead.vouches xxh32 edits)) = some (true, true, false) := by
  decide +kernel

end GajaeCode.Hashline
