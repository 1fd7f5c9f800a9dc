import GajaeCode.Hashline.Sections

/-! When the operations of a merged section are those of its parts. -/
namespace GajaeCode.Hashline
open Text Data List Regex HashlineEdit

def HashlineEdit.unnumbered : HashlineEdit → HashlineEdit
  | .insert cursor text _ _ => .insert cursor text 0 0
  | .delete anchor _ _ => .delete anchor 0 0

def Op.operations : Op → List JsStr → List HashlineEdit
  | .insert cursor inlineBody, payload =>
    (inlineBody.toList ++ payload).map fun text => .insert cursor text 0 0
  | .replace range, payload =>
    (payload.map fun text => .insert (.beforeAnchor range.start) text 0 0) ++
      (expandRange range).map fun anchor => .delete anchor 0 0

theorem map_mapIdx_eq_map {α β γ f} {g : Nat → α → β} {h : α → γ}
    (hfg : ∀ i a, f (g i a) = h a) (l : List α) : (l.mapIdx g).map f = l.map h := by
  apply ext_getElem <;> simp [hfg]

theorem unnumbered_pushInserts (cursor : HashlineCursor) (lineNum index : Nat) (texts : List JsStr) :
    (pushInserts cursor lineNum index texts).map unnumbered = texts.map fun text => .insert cursor text 0 0 := by
  apply map_mapIdx_eq_map
  intro i text
  rfl

theorem unnumbered_edits (op : Op) (payload : List JsStr) (lineNum index : Nat) :
    (op.edits payload lineNum index).map unnumbered = op.operations payload := by
  cases op with
  | insert cursor inlineBody => exact unnumbered_pushInserts cursor lineNum index _
  | replace range =>
    rw [Op.edits, map_append, unnumbered_pushInserts]
    congr 1
    apply map_mapIdx_eq_map
    intro i anchor
    rfl

theorem length_operations (op : Op) (payload : List JsStr) :
    (op.operations payload).length = (op.operations []).length + payload.length := by
  cases op with
  | insert cursor inlineBody => simp [Op.operations]
  | replace range => simp [Op.operations]; omega

/-- The payload is read off the operations. -/
theorem operations_injective (op : Op) {payload payload'} :
    op.operations payload = op.operations payload' ↔ payload = payload' := by
  constructor
  · intro h
    cases op with
    | insert cursor inlineBody =>
      have hmap := map_injective_iff.mpr
        (fun a b hab => by simpa using hab : Function.Injective fun text => insert cursor text 0 0) h
      exact append_cancel_left hmap
    | replace range =>
      have hmap := append_cancel_right h
      exact map_injective_iff.mpr (fun a b hab => by simpa using hab) hmap
  · rintro rfl
    rfl

section

variable (xxHash32 : List UInt8 → UInt32)

def readOp (line : JsStr) : Option Op := (parseOp xxHash32 line 0).toOption

variable {xxHash32}

theorem toOption_bind {ε α β : Type} (x : Except ε α) (f : α → Except ε β) :
    (x >>= f).toOption = x.toOption.bind fun a => (f a).toOption := by
  cases x <;> rfl

theorem toOption_parseLid (raw : JsStr) (lineNum lineNum' : Nat) :
    (parseLid raw lineNum).toOption = (parseLid raw lineNum').toOption := by
  rw [parseLid, parseLid]
  split <;> rfl

theorem toOption_parseRange (raw : JsStr) (lineNum lineNum' : Nat) :
    (parseRange raw lineNum).toOption = (parseRange raw lineNum').toOption := by
  rw [parseRange, parseRange]
  split
  · rw [toOption_bind, toOption_bind, toOption_parseLid raw lineNum lineNum']
  · split
    · next u startRaw v endRaw _ =>
      simp only [toOption_bind]
      rw [toOption_parseLid (u :: startRaw) lineNum lineNum', toOption_parseLid (v :: endRaw) lineNum lineNum']
      congr 1
      funext start
      congr 1
      funext stop
      split
      · rfl
      · split <;> rfl
    · rfl

theorem toOption_parseInsertOp (found : Captures UInt16) (kind : InsertKind) (lineNum lineNum' : Nat) :
    (parseInsertOp xxHash32 found lineNum kind).toOption = (parseInsertOp xxHash32 found lineNum' kind).toOption := by
  rw [parseInsertOp, parseInsertOp, toOption_bind, toOption_bind]
  rw [parseInsertTarget, parseInsertTarget]
  split
  · rfl
  · split
    · rfl
    · rw [toOption_bind, toOption_bind, toOption_parseLid _ lineNum lineNum']

/-- The line number shows in errors only. -/
theorem toOption_parseOp (line : JsStr) (lineNum : Nat) :
    (parseOp xxHash32 line lineNum).toOption = readOp xxHash32 line := by
  rw [readOp, parseOp, parseOp]
  split
  · exact toOption_parseInsertOp _ _ _ _
  · split
    · exact toOption_parseInsertOp _ _ _ _
    · split
      · rw [toOption_bind, toOption_bind, toOption_parseRange _ lineNum 0]
      · split <;> rfl

theorem parseOp_eq_ok {line} (lineNum : Nat) {op} :
    parseOp xxHash32 line lineNum = .ok op ↔ readOp xxHash32 line = some op := by
  rw [← toOption_parseOp line lineNum]
  cases parseOp xxHash32 line lineNum with
  | error e => simp [Except.toOption]
  | ok op' => simp [Except.toOption]

/-- Nothing, or lines behind which no payload goes on. -/
def EndsPayload (lines : List JsStr) : Prop :=
  ∀ line ∈ lines.head?, isPayloadTerminatorLine line = true

/-- What the loop reads from lines without markers. -/
inductive Reads (xxHash32 : List UInt8 → UInt32) : List JsStr → List HashlineEdit → Prop
  | nil : Reads xxHash32 [] []
  | blank {line : JsStr} {lines : List JsStr} {edits : List HashlineEdit}
      (hblank : trim line = []) (h : Reads xxHash32 lines edits) : Reads xxHash32 (line :: lines) edits
  | op {line : JsStr} {op : Op} {payload rest : List JsStr} {edits : List HashlineEdit}
      (hline : trim line ≠ []) (hop : readOp xxHash32 line = some op)
      (hpayload : ∀ l ∈ payload, isPayloadTerminatorLine l = false) (hends : EndsPayload rest)
      (hrequire : payload = [] → op.requirePayload = false) (h : Reads xxHash32 rest edits) :
      Reads xxHash32 (line :: (payload ++ rest)) (op.operations payload ++ edits)

theorem takeWhile_payload {payload rest}
    (hpayload : ∀ l ∈ payload, isPayloadTerminatorLine l = false) (hends : EndsPayload rest) :
    (payload ++ rest).takeWhile (fun line => !isPayloadTerminatorLine line) = payload := by
  rw [takeWhile_append_of_pos (by simpa using hpayload)]
  cases rest with
  | nil => simp
  | cons line rest =>
    have hline := hends line rfl
    simp [hline]

theorem parseLines_skip (lineNum editIndex : Nat) (payload rest : List JsStr) :
    parseLines xxHash32 lineNum editIndex payload.length (payload ++ rest) =
      parseLines xxHash32 (lineNum + payload.length) editIndex 0 rest := by
  induction payload generalizing lineNum with
  | nil => rfl
  | cons line payload ih =>
    rw [length_cons, cons_append, parseLines, ih]
    congr 1
    omega

variable {lines : List JsStr}

theorem collectPayload_eq_ok {lineNum requirePayload payload}
    (h : collectPayload lines lineNum requirePayload = .ok payload) :
    payload = lines.takeWhile (fun line => !isPayloadTerminatorLine line) ∧
      (payload = [] → requirePayload = false) := by
  rw [collectPayload] at h
  split at h
  · cases h
  · next hrequire =>
    cases h
    refine ⟨rfl, fun hnil => ?_⟩
    simpa [hnil] using hrequire

theorem ne_markers {line} (h : isEnvelopeOrAbortMarkerLine line = false) :
    line ≠ endPatchMarker ∧ line ≠ abortMarker ∧ line ≠ beginPatchMarker := by
  refine ⟨?_, ?_, ?_⟩
  all_goals
    rintro rfl
    exact absurd h (by decide)

theorem endsPayload_dropWhile (lines : List JsStr) :
    EndsPayload (lines.dropWhile fun line => !isPayloadTerminatorLine line) := by
  intro line hline
  have hhead := head?_dropWhile_not (fun line => !isPayloadTerminatorLine line) lines
  rw [Option.mem_def.mp hline] at hhead
  simpa using hhead

theorem Reads.parseLines_ok {edits} (h : Reads xxHash32 lines edits)
    (hlines : ∀ line ∈ lines, isEnvelopeOrAbortMarkerLine line = false) (lineNum editIndex : Nat) :
    ∃ parsed, parseLines xxHash32 lineNum editIndex 0 lines = .ok parsed ∧ parsed.edits.map unnumbered = edits := by
  induction h generalizing lineNum editIndex with
  | nil => exact ⟨_, rfl, rfl⟩
  | blank hblank _ ih =>
    obtain ⟨parsed, hparse, hedits⟩ := ih (forall_mem_cons.mp hlines).2 (lineNum + 1) editIndex
    exact ⟨parsed, by rw [parseLines, if_pos hblank, hparse], hedits⟩
  | @op line op payload rest edits hline hop hpayload hends hrequire _ ih =>
    obtain ⟨hend, habort, hbegin⟩ := ne_markers (hlines line mem_cons_self)
    have hrest : ∀ l ∈ rest, isEnvelopeOrAbortMarkerLine l = false :=
      fun l hl => hlines l (mem_cons_of_mem _ (mem_append_right _ hl))
    have hcollect : collectPayload (payload ++ rest) lineNum op.requirePayload = .ok payload := by
      rw [collectPayload, takeWhile_payload hpayload hends]
      simpa using hrequire
    obtain ⟨parsed, hparse, hedits⟩ := ih hrest (lineNum + 1 + payload.length)
      (editIndex + (op.edits payload lineNum editIndex).length)
    refine ⟨⟨op.edits payload lineNum editIndex ++ parsed.edits, parsed.warnings⟩, ?_, ?_⟩
    · rw [parseLines, if_neg hline, if_neg hend, if_neg habort, if_neg hbegin]
      refine bind_eq_ok.mpr ⟨op, (parseOp_eq_ok lineNum).mpr hop, bind_eq_ok.mpr ⟨payload, hcollect, ?_⟩⟩
      exact bind_eq_ok.mpr ⟨parsed, by rw [parseLines_skip, hparse], rfl⟩
    · rw [map_append, unnumbered_edits, hedits]

theorem reads_of_parseLines (hlines : ∀ line ∈ lines, isEnvelopeOrAbortMarkerLine line = false)
    {lineNum editIndex parsed} (h : parseLines xxHash32 lineNum editIndex 0 lines = .ok parsed) :
    Reads xxHash32 lines (parsed.edits.map unnumbered) := by
  induction hlen : lines.length using Nat.strong_induction_on generalizing lines lineNum editIndex parsed with
  | _ len ih =>
    cases lines with
    | nil =>
      cases h
      exact .nil
    | cons line lines =>
      obtain ⟨hend, habort, hbegin⟩ := ne_markers (hlines line mem_cons_self)
      have hrest : ∀ l ∈ lines, isEnvelopeOrAbortMarkerLine l = false := (forall_mem_cons.mp hlines).2
      by_cases hline : trim line = []
      · rw [parseLines, if_pos hline] at h
        exact .blank hline (ih lines.length (by simp [← hlen]) hrest h rfl)
      · rw [parseLines, if_neg hline, if_neg hend, if_neg habort, if_neg hbegin] at h
        obtain ⟨op, hop, h⟩ := bind_eq_ok.mp h
        obtain ⟨payload, hcollect, h⟩ := bind_eq_ok.mp h
        obtain ⟨after, hafter, h⟩ := bind_eq_ok.mp h
        obtain rfl := pure_eq_ok.mp h
        obtain ⟨hpayload, hrequire⟩ := collectPayload_eq_ok hcollect
        -- the payload is followed by what the loop goes on with
        obtain ⟨rest, hsplit, hends⟩ : ∃ rest, lines = payload ++ rest ∧ EndsPayload rest :=
          ⟨_, hpayload ▸ (takeWhile_append_dropWhile).symm, endsPayload_dropWhile lines⟩
        subst hsplit
        rw [parseLines_skip] at hafter
        have hread := ih rest.length (by simp [← hlen]) (fun l hl => hrest l (mem_append_right _ hl)) hafter rfl
        rw [map_append, unnumbered_edits]
        refine .op hline ((parseOp_eq_ok lineNum).mp hop) (fun l hl => ?_) hends hrequire hread
        rw [hpayload] at hl
        simpa using mem_takeWhile_imp hl

end

section

variable {xxHash32 : List UInt8 → UInt32} {line : JsStr}

theorem head_of_matchWhole {p r c} (h : (seq (.cls p) r).matchWhole line = some c) : line.head?.any p = true := by
  cases line with
  | nil => cases h
  | cons u line =>
    simp only [matchWhole, Regex.run] at h
    split at h
    · next hu => simpa using hu
    · cases h

variable {op : Op}

theorem head_of_readOp (h : readOp xxHash32 line = some op) : line.head?.any (hlOpChars.contains ·) = true := by
  have hany : ∀ sigil ∈ hlOpChars, line.head?.any (· == sigil) = true →
      line.head?.any (hlOpChars.contains ·) = true := by
    intro sigil hsigil hhead
    cases hline : line.head? with
    | none => simp [hline] at hhead
    | some u =>
      have hu : u = sigil := by simpa [hline] using hhead
      simpa [hu] using hsigil
  rw [← parseOp_eq_ok 0, parseOp] at h
  split at h
  · next found hfound => exact hany _ (by decide) (head_of_matchWhole hfound)
  · split at h
    · next found hfound => exact hany _ (by decide) (head_of_matchWhole hfound)
    · split at h
      · next found hfound => exact hany _ (by decide) (head_of_matchWhole hfound)
      · split at h <;> cases h

theorem isPayloadTerminatorLine_of_readOp (h : readOp xxHash32 line = some op) :
    isPayloadTerminatorLine line = true := by
  rw [isPayloadTerminatorLine, head_of_readOp h, Bool.or_true, Bool.true_or]

theorem run_space_concat {β : Type} {w} (hw : isJsWhitespace w = true) (s : JsStr)
    (c : Captures UInt16) (result : Captures UInt16 → β) : (seqs [space]).run (s ++ [w]) c
        (fun rest c => if rest.isEmpty then some (result c) else none) =
      (Regex.seqs [space]).run s c (fun rest c => if rest.isEmpty then some (result c) else none) := by
  simp only [Regex.seqs, space, Regex.star, Regex.run, Regex.runRep_star_end, all_append, hw,
    all_cons, all_nil, Bool.and_true]

/-- A carriage return behind an operation is a blank at its end. -/
theorem matchWhole_insertOpRegex_concat {sigil} (hsigil : sigil ≠ CR) (line : JsStr) :
    (insertOpRegex sigil).matchWhole (line ++ [CR]) = (insertOpRegex sigil).matchWhole line := by
  have hfirst : (cls (· == sigil)).avoids CR = true := by
    simpa [avoids] using Ne.symm hsigil
  unfold insertOpRegex matchWhole
  rw [run_seqs_cons, run_seqs_cons]
  refine run_concat hfirst fun rest c => ?_
  refine runRep_concat (.inr rfl) (fun rest => ?_) 0 none rest
  dsimp only
  rw [run_seqs_cons, run_seqs_cons]
  refine run_concat (by decide) fun rest c => ?_
  rw [run_seqs_cons]
  refine run_concat (by decide) fun rest c => ?_
  exact run_space_concat (by decide) rest c id

theorem matchWhole_replaceOpRegex_concat (line : JsStr) :
    replaceOpRegex.matchWhole (line ++ [CR]) = replaceOpRegex.matchWhole line := by
  unfold replaceOpRegex matchWhole
  rw [run_seqs_cons, run_seqs_cons]
  refine run_concat (by decide) fun rest c => ?_
  refine runRep_concat (.inr rfl) (fun rest => ?_) 0 none rest
  dsimp only
  rw [run_seqs_cons, run_seqs_cons]
  refine run_concat (by decide) fun rest c => ?_
  exact run_space_concat (by decide) rest c id

theorem readOp_concat_CR (h : readOp xxHash32 (line ++ [CR]) = some op) : readOp xxHash32 line = some op := by
  rw [← parseOp_eq_ok 0] at h ⊢
  rw [parseOp, matchWhole_insertOpRegex_concat (by decide), matchWhole_insertOpRegex_concat (by decide),
    matchWhole_replaceOpRegex_concat] at h
  rw [parseOp]
  split
  · next hfound => simpa [hfound] using h
  · next hbefore =>
    split
    · next hfound => simpa [hbefore, hfound] using h
    · next hafter =>
      split
      · next hfound => simpa [hbefore, hafter, hfound] using h
      · next hreplace =>
        simp only [hbefore, hafter, hreplace] at h
        split at h <;> cases h

end

section

variable {xxHash32 : List UInt8 → UInt32} {lines rest : List JsStr} {edits : List HashlineEdit}

theorem trim_ne_nil_of_terminator {line} (h : isPayloadTerminatorLine line = true) : trim line ≠ [] := by
  intro hblank
  have hunits := (trim_eq_nil_iff line).mp hblank
  simp only [isPayloadTerminatorLine, Bool.or_eq_true, decide_eq_true_eq] at h
  rcases h with (hhead | hhead) | hmarker
  · exact absurd (hunits _ (mem_of_head? hhead)) (by decide)
  · cases line with
    | nil => cases hhead
    | cons u line =>
      have hops : hlOpChars.all (fun u => !isJsWhitespace u) = true := by decide
      have hvisible := all_eq_true.mp hops u (by simpa using hhead)
      rw [hunits u mem_cons_self] at hvisible
      cases hvisible
  · have htrim : trimEnd line = [] := rdropWhile_eq_nil_iff.mpr hunits
    rw [isEnvelopeOrAbortMarkerLine, htrim] at hmarker
    exact absurd hmarker (by decide)

theorem terminator_dropCr {line} (h : isPayloadTerminatorLine line = false) :
    isPayloadTerminatorLine (dropCr line) = false := by
  rw [dropCr]
  split
  · next hlast =>
    obtain ⟨rest, rfl⟩ := getLast?_eq_some_iff.mp hlast
    rw [dropLast_concat]
    cases rest with
    | nil => decide
    | cons u rest =>
      simp only [isPayloadTerminatorLine, Bool.or_eq_false_iff] at h ⊢
      have hmarker := noMarker_dropCr h.2
      rw [dropCr, if_pos hlast, dropLast_concat] at hmarker
      exact ⟨h.1, hmarker⟩
  · exact h

theorem endsPayload_of_readOp {line op} (h : readOp xxHash32 line = some op) (lines : List JsStr) :
    EndsPayload (line :: lines) := by
  intro l hl
  cases hl
  exact isPayloadTerminatorLine_of_readOp h

theorem EndsPayload.append (hlines : EndsPayload lines) (hrest : EndsPayload rest) : EndsPayload (lines ++ rest) := by
  cases lines with
  | nil => exact hrest
  | cons line lines => exact hlines

theorem Reads.append (h : Reads xxHash32 lines edits) {following}
    (hrest : Reads xxHash32 rest following) (hends : EndsPayload rest) :
    Reads xxHash32 (lines ++ rest) (edits ++ following) := by
  induction h with
  | nil => exact hrest
  | blank hblank _ ih => exact .blank hblank ih
  | op hline hop hpayload hafter hrequire _ ih =>
    rw [cons_append, append_assoc, append_assoc]
    exact .op hline hop hpayload (hafter.append hends) hrequire ih

/-- The last operation of some lines, with what is read before it. -/
structure LastOp (xxHash32 : List UInt8 → UInt32) (lines : List JsStr) (edits : List HashlineEdit)
    (before : List JsStr) (first : List HashlineEdit) (line : JsStr) (op : Op)
    (payload : List JsStr) : Prop where
  lines_eq : lines = before ++ line :: payload
  edits_eq : edits = first ++ op.operations payload
  reads : Reads xxHash32 before first
  nonblank : trim line ≠ []
  readOp_eq : readOp xxHash32 line = some op
  payload_lines : ∀ l ∈ payload, isPayloadTerminatorLine l = false
  require : payload = [] → op.requirePayload = false

variable (h : Reads xxHash32 lines edits)
include h

theorem exists_lastOp (hops : ∃ line ∈ lines, trim line ≠ []) :
    ∃ before first line op payload, LastOp xxHash32 lines edits before first line op payload := by
  induction h with
  | nil => simp at hops
  | @blank blank lines edits hblank _ ih =>
    obtain ⟨before, first, line, op, payload, hlast⟩ := ih (by simpa [hblank] using hops)
    refine ⟨blank :: before, first, line, op, payload, ?_⟩
    exact { hlast with
      lines_eq := by rw [hlast.lines_eq]; rfl
      reads := .blank hblank hlast.reads }
  | @op line op payload rest edits hline hop hpayload hends hrequire hrest ih =>
    cases rest with
    | nil =>
      cases hrest
      exact ⟨[], [], line, op, payload, by simp, by simp, .nil, hline, hop, hpayload, hrequire⟩
    | cons next rest =>
      have hnext := hends next rfl
      obtain ⟨before, first, last, op', payload', hlast⟩ := ih ⟨next, mem_cons_self, trim_ne_nil_of_terminator hnext⟩
      have hbefore : EndsPayload before := by
        intro l hl
        obtain ⟨tail, rfl⟩ := head?_eq_some_iff.mp hl
        have hsame := hlast.lines_eq
        rw [cons_append, List.cons.injEq] at hsame
        exact hsame.1 ▸ hnext
      refine ⟨line :: (payload ++ before), op.operations payload ++ first, last, op', payload', ?_⟩
      exact { hlast with
        lines_eq := by rw [hlast.lines_eq]; simp
        edits_eq := by rw [hlast.edits_eq, append_assoc]
        reads := .op hline hop hpayload hbefore hrequire hlast.reads }

theorem Reads.dropBlank : Reads xxHash32 (lines.dropWhile fun line => trim line = []) edits ∧
    EndsPayload (lines.dropWhile fun line => trim line = []) := by
  induction h with
  | nil => exact ⟨.nil, nofun⟩
  | blank hblank _ ih => simpa [hblank] using ih
  | op hline hop hpayload hends hrequire hrest ih =>
    rw [dropWhile_cons_of_neg (by simpa using hline)]
    exact ⟨.op hline hop hpayload hends hrequire hrest, endsPayload_of_readOp hop _⟩

end

section

variable {xxHash32 : List UInt8 → UInt32} {diff : JsStr} {edits : List HashlineEdit}

/-- The lines of a diff in front of another one: its end is a line break like any other. -/
def innerLines (diff : JsStr) : List JsStr := (splitLines diff).map dropCr

theorem diffLines_append_LF (diff : JsStr) {following : JsStr} (h : following ≠ []) :
    diffLines (diff ++ LF :: following) = innerLines diff ++ diffLines following := by
  obtain ⟨lines, last, hsplit⟩ := exists_splitLines_concat following
  have hlast : (diff ++ LF :: following).getLast? = following.getLast? := by
    obtain ⟨u, hu⟩ := Option.ne_none_iff_exists'.mp (by simpa using h : following.getLast? ≠ none)
    rw [getLast?_append, getLast?_cons, hu]
    rfl
  rw [diffLines, diffLines, hlast, splitCrLf_append_LF, splitCrLf_of_splitLines hsplit, innerLines]
  simp only [← append_assoc, getLast?_concat, dropLast_concat]
  split <;> simp

def firstLine (diff : JsStr) : JsStr := (splitLines diff).head?.getD []
def lastLine (diff : JsStr) : JsStr := (splitLines diff).getLast?.getD []

/-- Nothing of the last operation is lost or added at a line break behind the diff. -/
def EndsWithOperation (diff : JsStr) : Prop :=
  diff.getLast? ≠ some LF ∧ (diff.getLast? = some CR → (lastLine diff).head?.any (hlOpChars.contains ·) = true)

theorem exists_nonblank (hsection : ∃ lines, IsSection diff lines) : ∃ line ∈ diffLines diff, trim line ≠ [] := by
  obtain ⟨sectionLines, hsection⟩ := hsection
  obtain ⟨lines, last, hsplit⟩ := exists_splitLines_concat diff
  obtain ⟨l, hl, hnonblank⟩ := hsection.hasOps
  rw [← hsection.splitLines_eq, hsplit] at hl
  rw [diffLines, splitCrLf_of_splitLines hsplit]
  rcases mem_append.mp hl with hl | hl
  · refine ⟨dropCr l, ?_, by rwa [Ne, trim_dropCr]⟩
    have hmem : dropCr l ∈ lines.map dropCr := mem_map_of_mem hl
    split
    · simpa using hmem
    · exact mem_append_left _ hmem
  · obtain rfl := mem_singleton.mp hl
    have hne : l ≠ [] := by
      rintro rfl
      exact hnonblank (by decide)
    exact ⟨l, by simp [hne], hnonblank⟩

instance (diff : JsStr) : Decidable (EndsWithOperation diff) :=
  inferInstanceAs (Decidable (_ ∧ _))

theorem exists_inner_lastOp (hsection : ∃ lines, IsSection diff lines) {before first line op payload}
    (h : LastOp xxHash32 (diffLines diff) edits before first line op payload) :
    ∃ line' payload', innerLines diff = before ++ line' :: payload' ∧ trim line' ≠ [] ∧
      readOp xxHash32 line' = some op ∧ (∀ l ∈ payload', isPayloadTerminatorLine l = false) ∧
      payload.length ≤ payload'.length ∧ (payload' = payload ↔ EndsWithOperation diff) := by
  obtain ⟨sectionLines, hsection⟩ := hsection
  obtain ⟨lines, last, hsplit⟩ := exists_splitLines_concat diff
  have hgetLast := getLast_of_splitLines hsplit
  have hlines := h.lines_eq
  rw [diffLines, splitCrLf_of_splitLines hsplit] at hlines
  have hinner : innerLines diff = lines.map dropCr ++ [dropCr last] := by
    rw [innerLines, hsplit, map_append, map_singleton]
  have hlastLine : lastLine diff = last := by simp [lastLine, hsplit]
  by_cases hlast : last = []
  · -- a line feed at the end opens an empty line, which becomes payload
    subst hlast
    have hmore : lines ≠ [] := by
      rintro rfl
      obtain ⟨l, hl, hnonblank⟩ := hsection.hasOps
      rw [← hsection.splitLines_eq, hsplit] at hl
      rw [mem_singleton.mp hl] at hnonblank
      exact hnonblank (by decide)
    rw [if_neg hmore] at hgetLast
    simp only [hgetLast, getLast?_concat, decide_true, Bool.and_self, if_true, dropLast_concat] at hlines
    refine ⟨line, payload ++ [[]], ?_, h.nonblank, h.readOp_eq, ?_, by simp, ?_⟩
    · rw [hinner, hlines, append_assoc]
      rfl
    · exact forall_mem_append.mpr ⟨h.payload_lines, by decide⟩
    · simp [EndsWithOperation, hgetLast]
  · rw [if_neg hlast] at hgetLast
    have hnoLF : diff.getLast? ≠ some LF := by
      rw [hgetLast]
      intro hLF
      have hmem : last ∈ splitLines diff := by simp [hsplit]
      exact LF_notMem_of_mem_splitLines hmem (mem_of_getLast? hLF)
    simp only [hnoLF, decide_false, Bool.false_and, Bool.false_eq_true, if_false] at hlines
    obtain hnil | ⟨init, final, hpayload⟩ := eq_nil_or_concat' payload
    · -- the last line is the operation itself
      subst hnil
      obtain ⟨hbefore, hline⟩ := append_inj' hlines rfl
      obtain rfl : last = line := by simpa using hline
      refine ⟨dropCr last, [], ?_, ?_, ?_, by simp, le_refl _, ?_⟩
      · rw [hinner, hbefore]
      · rw [Ne, trim_dropCr]
        exact h.nonblank
      · rw [dropCr]
        split
        · next hCR =>
          obtain ⟨body, rfl⟩ := getLast?_eq_some_iff.mp hCR
          rw [dropLast_concat]
          exact readOp_concat_CR h.readOp_eq
        · exact h.readOp_eq
      · refine iff_of_true rfl ⟨hnoLF, fun _ => ?_⟩
        rw [hlastLine]
        exact head_of_readOp h.readOp_eq
    · subst hpayload
      rw [← cons_append, ← append_assoc] at hlines
      obtain ⟨hbefore, hfinal⟩ := append_inj' hlines rfl
      obtain rfl : last = final := by simpa using hfinal
      have hpayloadLine := h.payload_lines last (by simp)
      refine ⟨line, init ++ [dropCr last], ?_, h.nonblank, h.readOp_eq, ?_, by simp, ?_⟩
      · rw [hinner, hbefore]
        simp
      · have hinit := (forall_mem_append.mp h.payload_lines).1
        exact forall_mem_append.mpr ⟨hinit, forall_mem_singleton.mpr (terminator_dropCr hpayloadLine)⟩
      · have hop : last.head?.any (hlOpChars.contains ·) = false := by
          simp only [isPayloadTerminatorLine, Bool.or_eq_false_iff] at hpayloadLine
          exact hpayloadLine.1.2
        have hlastCr : init ++ [dropCr last] = init ++ [last] ↔ dropCr last = last := by simp
        rw [hlastCr, dropCr_eq_self_iff, EndsWithOperation, hlastLine, hop, hgetLast]
        refine ⟨fun hCR => ⟨hgetLast ▸ hnoLF, fun heq => absurd heq hCR⟩, fun hend heq => ?_⟩
        exact absurd (hend.2 heq) Bool.false_ne_true

/-- A diff in front of lines that start with an operation, after some blank ones. -/
theorem exists_reads_inner (hsection : ∃ lines, IsSection diff lines)
    (h : Reads xxHash32 (diffLines diff) edits) {blanks rest} (hblanks : ∀ line ∈ blanks, trim line = []) {following}
    (hrest : Reads xxHash32 rest following) (hends : EndsPayload rest) :
    ∃ inner, Reads xxHash32 (innerLines diff ++ (blanks ++ rest)) (inner ++ following) ∧
      edits.length ≤ inner.length ∧ (inner = edits ↔ EndsWithOperation diff ∧ blanks = []) := by
  obtain ⟨before, first, line, op, payload, hlast⟩ := exists_lastOp h (exists_nonblank hsection)
  obtain ⟨line', payload', hinner, hline, hop, hpayload, hlength, hsame⟩ := exists_inner_lastOp hsection hlast
  have hextended : ∀ l ∈ payload' ++ blanks, isPayloadTerminatorLine l = false := by
    refine forall_mem_append.mpr ⟨hpayload, fun l hl => ?_⟩
    by_contra hterminator
    exact trim_ne_nil_of_terminator (by simpa using hterminator) (hblanks l hl)
  refine ⟨first ++ op.operations (payload' ++ blanks), ?_, ?_, ?_⟩
  · have hread : Reads xxHash32 (line' :: ((payload' ++ blanks) ++ rest))
        (op.operations (payload' ++ blanks) ++ following) := by
      refine .op hline hop hextended hends (fun hnil => hlast.require ?_) hrest
      have hempty := (append_eq_nil_iff.mp hnil).1
      rw [hempty, length_nil, Nat.le_zero] at hlength
      exact length_eq_zero_iff.mp hlength
    rw [hinner]
    simpa using hlast.reads.append hread (endsPayload_of_readOp hop _)
  · rw [hlast.edits_eq, length_append, length_append, length_operations,
      length_operations op (payload' ++ blanks), length_append]
    omega
  · rw [hlast.edits_eq, append_cancel_left_eq, operations_injective, ← hsame]
    constructor
    · intro heq
      have htotal := congrArg List.length heq
      rw [length_append] at htotal
      have hnil : blanks = [] := length_eq_zero_iff.mp (by omega)
      rw [hnil, append_nil] at heq
      exact ⟨heq, hnil⟩
    · rintro ⟨heq, hnil⟩
      rw [heq, hnil, append_nil]

/-- Where two sections of one path meet, the first ends in its last operation and the second starts
with an operation. -/
def Junction (diff following : JsStr) : Prop :=
  EndsWithOperation diff ∧ trim (firstLine following) ≠ []

instance (diff following : JsStr) : Decidable (Junction diff following) :=
  inferInstanceAs (Decidable (_ ∧ _))

theorem ne_nil_of_isSection (hsection : ∃ lines, IsSection diff lines) : diff ≠ [] := by
  rintro rfl
  obtain ⟨line, hline, hnonblank⟩ := exists_nonblank hsection
  have hempty : diffLines [] = [[]] := by decide
  rw [hempty, mem_singleton] at hline
  subst hline
  exact hnonblank (by decide)

variable {diffs : List JsStr} {diff : JsStr}

theorem joinLines_ne_nil (hdiffs : ∀ d ∈ diffs, d ≠ []) (hne : diffs ≠ []) : joinLines diffs ≠ [] := by
  obtain ⟨d, diffs, rfl⟩ := exists_cons_of_ne_nil hne
  cases diffs with
  | nil => simpa [joinLines] using hdiffs
  | cons next diffs =>
    rw [joinLines_cons (by simp)]
    simp

theorem head_diffLines_join (hsection : ∃ lines, IsSection diff lines) (hdiffs : ∀ d ∈ diffs, d ≠ []) :
    ∃ line, (diffLines (joinLines (diff :: diffs))).head? = some line ∧
      (trim line = [] ↔ trim (firstLine diff) = []) := by
  cases diffs with
  | nil =>
    obtain ⟨lines, last, hsplit⟩ := exists_splitLines_concat diff
    have hjoin : joinLines [diff] = diff := by simp [joinLines]
    rw [hjoin, diffLines, splitCrLf_of_splitLines hsplit]
    cases lines with
    | nil =>
      have hline : diff = last := by
        rw [← joinLines_splitLines diff, hsplit]
        simp [joinLines]
      have hne : last ≠ [] := hline ▸ ne_nil_of_isSection hsection
      exact ⟨last, by simp [hne], by simp [firstLine, hsplit]⟩
    | cons first lines =>
      refine ⟨dropCr first, ?_, by simp [trim_dropCr, firstLine, hsplit]⟩
      split
      · rw [dropLast_concat]
        rfl
      · rfl
  | cons next diffs =>
    obtain ⟨first, lines, hsplit⟩ := exists_cons_of_ne_nil (splitLines_ne_nil diff)
    rw [joinLines_cons (by simp), diffLines_append_LF _ (joinLines_ne_nil hdiffs (by simp))]
    exact ⟨dropCr first, by simp [innerLines, hsplit], by simp [trim_dropCr, firstLine, hsplit]⟩

/-- The merged diff is read as its parts are exactly if every junction is one. -/
theorem exists_reads_join (hne : diffs ≠ []) {editsOf} (hsections : ∀ d ∈ diffs, ∃ lines, IsSection d lines)
    (hreads : ∀ d ∈ diffs, Reads xxHash32 (diffLines d) (editsOf d)) :
    ∃ merged, Reads xxHash32 (diffLines (joinLines diffs)) merged ∧ (diffs.flatMap editsOf).length ≤ merged.length ∧
      (merged = diffs.flatMap editsOf ↔ diffs.IsChain Junction) := by
  induction diffs with
  | nil => exact absurd rfl hne
  | cons diff diffs ih =>
    cases diffs with
    | nil =>
      simpa [joinLines] using hreads diff mem_cons_self
    | cons next diffs =>
      obtain ⟨rest, hrest, hlength, hchain⟩ := ih (by simp)
        (forall_mem_cons.mp hsections).2
        (forall_mem_cons.mp hreads).2
      have hnonempty : ∀ d ∈ next :: diffs, d ≠ [] :=
        fun d hd => ne_nil_of_isSection (hsections d (mem_cons_of_mem _ hd))
      have hlater : ∀ d ∈ diffs, d ≠ [] := (forall_mem_cons.mp hnonempty).2
      obtain ⟨line, hhead, hfirst⟩ := head_diffLines_join (hsections next (by simp)) hlater
      have hblanks : ∀ l ∈ (diffLines (joinLines (next :: diffs))).takeWhile
          (fun line => trim line = []), trim l = [] :=
        fun l hl => by simpa using mem_takeWhile_imp hl
      obtain ⟨inner, hinner, hlonger, hsame⟩ := exists_reads_inner (hsections diff (by simp))
        (hreads diff (by simp)) hblanks hrest.dropBlank.1 hrest.dropBlank.2
      rw [takeWhile_append_dropWhile, ← diffLines_append_LF _ (joinLines_ne_nil hnonempty (by simp))] at hinner
      have hnoBlanks : (diffLines (joinLines (next :: diffs))).takeWhile
          (fun line => trim line = []) = [] ↔ trim (firstLine next) ≠ [] := by
        rw [Ne, ← hfirst]
        obtain ⟨others, hlines⟩ := head?_eq_some_iff.mp hhead
        by_cases hblank : trim line = [] <;> simp [hlines, hblank]
      refine ⟨inner ++ rest, hinner, ?_, ?_⟩
      · rw [flatMap_cons, length_append, length_append]
        omega
      · rw [flatMap_cons, isChain_cons_cons, ← hchain, Junction, ← hnoBlanks, ← hsame]
        constructor
        · intro heq
          have htotal := congrArg List.length heq
          rw [length_append, length_append] at htotal
          exact append_inj heq (by omega)
        · rintro ⟨rfl, rfl⟩
          rfl

theorem parseHashline_eq_ok {edits} : parseHashline xxHash32 diff = .ok edits ↔
      ∃ parsed, parseHashlineWithWarnings xxHash32 diff = .ok parsed ∧ parsed.edits = edits := by
  rw [parseHashline]
  cases parseHashlineWithWarnings xxHash32 diff with
  | error e => simp [Except.map]
  | ok parsed => simp [Except.map]

theorem IsSection.noMarker {lines} (h : IsSection diff lines) :
    ∀ line ∈ diffLines diff, isEnvelopeOrAbortMarkerLine line = false := by
  intro line hline
  obtain ⟨l, hl, hcases⟩ := mem_diffLines hline
  rw [h.splitLines_eq] at hl
  have hmarker := (h.sectionLines l hl).noMarker
  rcases hcases with rfl | rfl
  · exact hmarker
  · exact noMarker_dropCr hmarker

end

/-- Merging the sections of a path keeps their operations exactly if every two that follow each other
meet at a junction. -/
theorem parseHashline_merged_iff (xxHash32 : List UInt8 → UInt32) {paths : PathLib} {input : JsStr}
    {options : SplitHashlineOptions} {sections : List HashlineInputSection}
    (hsplit : splitHashlineInputs paths input options = .ok sections)
    (hparse : ∀ part ∈ sections, ∃ edits, parseHashline xxHash32 part.diff = .ok edits)
    {merged : HashlineInputSection} (hmerged : merged ∈ mergeSamePathSections sections) :
    (parseHashline xxHash32 merged.diff).map (·.map unnumbered) =
        ((diffsOf sections merged.path).mapM (parseHashline xxHash32)).map
          (·.flatten.map unnumbered) ↔ (diffsOf sections merged.path).IsChain Junction := by
  obtain ⟨hdiff, hne⟩ := mem_mergeSamePathSections hmerged
  have hsections : ∀ d ∈ diffsOf sections merged.path, ∃ lines, IsSection d lines :=
    fun d hd => isSection_of_mem_diffsOf hsplit hd
  have hparses : ∀ d ∈ diffsOf sections merged.path, ∃ edits, parseHashline xxHash32 d = .ok edits := by
    intro d hd
    obtain ⟨part, hpart, rfl⟩ := mem_map.mp hd
    exact hparse part (mem_of_mem_filter hpart)
  let editsOf : JsStr → List HashlineEdit := fun d => ((parseHashline xxHash32 d).toOption.getD []).map unnumbered
  have hreads : ∀ d ∈ diffsOf sections merged.path, Reads xxHash32 (diffLines d) (editsOf d) := by
    intro d hd
    obtain ⟨lines, hsection⟩ := hsections d hd
    obtain ⟨edits, hedits⟩ := hparses d hd
    obtain ⟨parsed, hparse, rfl⟩ := parseHashline_eq_ok.mp hedits
    have hread := reads_of_parseLines hsection.noMarker hparse
    simpa only [editsOf, hedits, Except.toOption, Option.getD_some] using hread
  obtain ⟨all, hall, -, hchain⟩ := exists_reads_join hne hsections hreads
  rw [← hdiff] at hall
  obtain ⟨parsed, hparsed, hedits⟩ := hall.parseLines_ok (noMarker_of_mem_merged hsplit hmerged) 1 0
  have hmerge := parseHashline_eq_ok.mpr ⟨parsed, hparsed, rfl⟩
  have hflat : ((diffsOf sections merged.path).map
      fun d => (parseHashline xxHash32 d).toOption.getD []).flatten.map unnumbered =
      (diffsOf sections merged.path).flatMap editsOf := by
    rw [map_flatten, map_map, flatMap_def]
    rfl
  rw [← hchain, hmerge, mapM_of_forall_ok hparses [], ← hedits, ← hflat]
  simp [Except.map]

theorem parseHashline_merged_junction : (parseHashline (fun _ => 0) (lit "»1ab\nx\n≔2cd")).map (·.map unnumbered) =
      ([lit "»1ab\nx", lit "≔2cd"].mapM (parseHashline fun _ => 0)).map (·.flatten.map unnumbered) := by
  have hsplit : splitHashlineInputs samplePaths (lit "§a\n»1ab\nx\n§a\n≔2cd") ⟨none, none⟩ =
      .ok [⟨lit "a", lit "»1ab\nx"⟩, ⟨lit "a", lit "≔2cd"⟩] := by decide +kernel
  have hmerged : ⟨lit "a", lit "»1ab\nx\n≔2cd"⟩ ∈
      mergeSamePathSections [⟨lit "a", lit "»1ab\nx"⟩, ⟨lit "a", lit "≔2cd"⟩] := by decide +kernel
  have hfirst : parseHashline (fun _ => 0) (lit "»1ab\nx") =
      .ok [.insert (.afterAnchor ⟨1, lit "ab"⟩) (lit "x") 1 0] := by decide +kernel
  have hsecond : parseHashline (fun _ => 0) (lit "≔2cd") = .ok [.delete ⟨2, lit "cd"⟩ 1 0] := by decide +kernel
  refine (parseHashline_merged_iff (fun _ => 0) hsplit ?_ hmerged).mpr (by decide +kernel)
  exact forall_mem_cons.mpr ⟨⟨_, hfirst⟩, forall_mem_singleton.mpr ⟨_, hsecond⟩⟩

/-- The blank line before the second header becomes payload of the first section. -/
theorem parseHashline_merged_blank_line :
    splitHashlineInputs samplePaths (lit "§a\n»1ab\nx\n\n§a\n≔2cd") ⟨none, none⟩ =
        .ok [⟨lit "a", lit "»1ab\nx\n"⟩, ⟨lit "a", lit "≔2cd"⟩] ∧
      mergeSamePathSections [⟨lit "a", lit "»1ab\nx\n"⟩, ⟨lit "a", lit "≔2cd"⟩] =
        [⟨lit "a", lit "»1ab\nx\n\n≔2cd"⟩] ∧ parseHashline (fun _ => 0) (lit "»1ab\nx\n") =
        .ok [.insert (.afterAnchor ⟨1, lit "ab"⟩) (lit "x") 1 0] ∧
      parseHashline (fun _ => 0) (lit "≔2cd") = .ok [.delete ⟨2, lit "cd"⟩ 1 0] ∧
      parseHashline (fun _ => 0) (lit "»1ab\nx\n\n≔2cd") = .ok [.insert (.afterAnchor ⟨1, lit "ab"⟩) (lit "x") 1 0,
          .insert (.afterAnchor ⟨1, lit "ab"⟩) [] 1 1, .delete ⟨2, lit "cd"⟩ 4 2] := by
  decide +kernel

end GajaeCode.Hashline
