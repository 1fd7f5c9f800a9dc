import GajaeCode.Tools.ConflictSplice

/-! The ids of conflicts over runs: reads of the whole file and resolutions by id, with the
lines that each id was returned for and the lines that each resolution replaced. -/
namespace GajaeCode.Tools.Conflict
open Text Data List Workspace

def blockLines (text : JsStr) (b : ConflictBlock) : List JsStr :=
  ((splitLines text).take b.endLine).drop (b.startLine - 1)

def replacedLines (text : JsStr) (entry : ConflictEntry) : Option (List JsStr) :=
  (locateRegion (splitLines text) (buildRecordedRegion entry.toConflictBlock) (entry.startLine - 1)).map
    fun found => ((splitLines text).take (found.2 + 1)).drop found.1

inductive Operation where
  | read
  | resolve (id : Nat) (content : JsStr)

inductive Event where
  | named (id : Nat) (lines : List JsStr)
  | replaced (id : Nat) (lines : List JsStr)
  deriving DecidableEq

section
variable (absolutePath displayPath : JsStr)

/-- One operation with what it shows; a failed resolution changes nothing. -/
def Workspace.step (w : Workspace) : Operation → Workspace × List Event
  | .read =>
    let (next, entries) := w.read absolutePath displayPath
    (next, entries.map fun entry => .named entry.id (blockLines w.text entry.toConflictBlock))
  | .resolve id content =>
    match w.resolve id content with
    | .error _ => (w, [])
    | .ok next =>
      (next, ((w.history.get id).bind (replacedLines w.text)).toList.map (.replaced id))

def Workspace.events (w : Workspace) : List Operation → List Event
  | [] => []
  | operation :: rest =>
    (w.step absolutePath displayPath operation).2 ++ (w.step absolutePath displayPath operation).1.events rest

/-- A block found where a live entry of the file is recorded is the block of that entry, and no marker
of a block is followed by a space alone. -/
def Workspace.Recognises (w : Workspace) (b : ConflictBlock) : Prop :=
  (∀ entry ∈ w.history.entries, entry.2.absolutePath = absolutePath → entry.2.startLine = b.startLine →
      buildRecordedRegion entry.2.toConflictBlock = blockLines w.text b) ∧
    ∀ line ∈ blockLines w.text b, line ∉ spacedMarkers

def Workspace.Recognised (w : Workspace) : List Operation → Prop
  | [] => True
  | operation :: rest =>
    (operation = .read → ∀ b ∈ scanConflictLines (splitLines w.text) 1, w.Recognises absolutePath b) ∧
      (w.step absolutePath displayPath operation).1.Recognised rest

end

section

def ScanState.startLine (ln : Nat) : ScanState → Nat
  | .idle => ln
  | .ours opened | .base opened _ | .theirs opened _ _ _ => opened.startLine

variable {ln : Nat} {state : ScanState}

theorem scanLine_startLine (h : state.startLine ln ≤ ln) (line : JsStr) :
    state.startLine ln ≤ (scanLine ln line state).1.startLine (ln + 1) ∧
      (scanLine ln line state).1.startLine (ln + 1) ≤ ln + 1 := by
  unfold scanLine
  cases lineKind line <;> cases state <;> simp only [ScanState.startLine] at h ⊢ <;> omega

theorem scanLine_block_startLine {line b} (h : (scanLine ln line state).2 = some b) :
    b.startLine = state.startLine ln ∧ (scanLine ln line state).1 = .idle := by
  obtain ⟨opened, part, separatorLine, lines, label, rfl, hkind, rfl⟩ := scanLine_block h
  exact ⟨rfl, by simp [scanLine, hkind]⟩

theorem startLine_le_of_mem_scanFrom {lines b}
    (h : state.startLine ln ≤ ln) (hb : b ∈ scanFrom ln state lines) : state.startLine ln ≤ b.startLine := by
  induction lines generalizing ln state with
  | nil => cases hb
  | cons line lines ih =>
    obtain ⟨hle, hnext⟩ := scanLine_startLine h line
    rcases mem_append.mp hb with hb | hb
    · exact (scanLine_block_startLine (Option.mem_toList.mp hb)).1.ge
    · exact hle.trans (ih hnext hb)

theorem pairwise_startLine_scanFrom (lines : List JsStr) (h : state.startLine ln ≤ ln) :
    (scanFrom ln state lines).Pairwise fun a b => a.startLine ≠ b.startLine := by
  induction lines generalizing ln state with
  | nil => exact .nil
  | cons line lines ih =>
    obtain ⟨_, hnext⟩ := scanLine_startLine h line
    unfold scanFrom
    rw [pairwise_append]
    refine ⟨?_, ih hnext, ?_⟩
    · cases (scanLine ln line state).2 <;> simp
    · intro a ha b hb
      obtain ⟨hstart, hidle⟩ := scanLine_block_startLine (Option.mem_toList.mp ha)
      have hlater := startLine_le_of_mem_scanFrom hnext hb
      rw [hidle, ScanState.startLine] at hlater
      omega

end

/-- What is known of the ids after some events. -/
structure Faithful (history : ConflictHistory) (events : List Event) : Prop where
  live : ∀ entry ∈ history.entries, entry.2.id = entry.1 ∧
    .named entry.1 (buildRecordedRegion entry.2.toConflictBlock) ∈ events
  fresh : ∀ id lines, .named id lines ∈ events → id < history.nextId
  one : ∀ id x y, .named id x ∈ events → .named id y ∈ events → x = y
  replaced : ∀ id y, .replaced id y ∈ events → .named id y ∈ events

namespace Faithful
variable {history : ConflictHistory} {events : List Event}

theorem empty : Faithful {} [] where
  live _ h := nomatch h
  fresh _ _ h := nomatch h
  one _ _ _ h := nomatch h
  replaced _ _ h := nomatch h

theorem snoc_named (h : Faithful history events) {id} (lines : List JsStr) (hid : id < history.nextId)
    (hsame : ∀ x, .named id x ∈ events → x = lines) : Faithful history (events ++ [.named id lines]) := by
  have hcases : ∀ k x, Event.named k x ∈ events ++ [.named id lines] →
      Event.named k x ∈ events ∨ (k = id ∧ x = lines) := by
    intro k x hk
    rcases mem_append.mp hk with hk | hk
    · exact .inl hk
    · cases mem_singleton.mp hk
      exact .inr ⟨rfl, rfl⟩
  constructor
  · intro entry hentry
    obtain ⟨hkey, hnamed⟩ := h.live entry hentry
    exact ⟨hkey, mem_append_left _ hnamed⟩
  · intro k x hk
    rcases hcases k x hk with hk | ⟨rfl, _⟩
    · exact h.fresh k x hk
    · exact hid
  · intro k x y hx hy
    rcases hcases k x hx with hold | ⟨rfl, rfl⟩ <;> rcases hcases k y hy with hold' | ⟨hk, hlines⟩
    · exact h.one k x y hold hold'
    · exact hlines ▸ hsame x (hk ▸ hold)
    · exact (hsame y hold').symm
    · exact hlines.symm
  · intro k y hy
    rcases mem_append.mp hy with hy | hy
    · exact mem_append_left _ (h.replaced k y hy)
    · cases mem_singleton.mp hy

theorem append_replaced (h : Faithful history events) {id} {replaced : List (List JsStr)}
    (hnamed : ∀ lines ∈ replaced, .named id lines ∈ events) :
    Faithful history (events ++ replaced.map (.replaced id)) := by
  have hold : ∀ k x, Event.named k x ∈ events ++ replaced.map (.replaced id) → Event.named k x ∈ events := by
    simp
  constructor
  · intro entry hentry
    obtain ⟨hkey, hlive⟩ := h.live entry hentry
    exact ⟨hkey, mem_append_left _ hlive⟩
  · intro k x hk
    exact h.fresh k x (hold k x hk)
  · intro k x y hx hy
    exact h.one k x y (hold k x hx) (hold k y hy)
  · intro k y hy
    apply mem_append_left
    rcases mem_append.mp hy with hy | hy
    · exact h.replaced k y hy
    · obtain ⟨lines, hlines, heq⟩ := mem_map.mp hy
      cases heq
      exact hnamed y hlines

theorem mono {next} (h : Faithful history events) (hid : history.nextId ≤ next.nextId)
    (hlive : ∀ entry ∈ next.entries, entry ∈ history.entries ∨ (entry.2.id = entry.1 ∧
      .named entry.1 (buildRecordedRegion entry.2.toConflictBlock) ∈ events)) : Faithful next events where
  live entry hentry := (hlive entry hentry).elim (h.live entry) id
  fresh id x hx := (h.fresh id x hx).trans_le hid
  one := h.one
  replaced := h.replaced

variable {absolutePath : JsStr}

theorem register (h : Faithful history events) {b lines} (displayPath : JsStr)
    (hrebuilt : buildRecordedRegion b = lines)
    (hrecorded : ∀ entry ∈ history.entries, entry.2.absolutePath = absolutePath →
      entry.2.startLine = b.startLine → buildRecordedRegion entry.2.toConflictBlock = lines) :
    Faithful (history.register b absolutePath displayPath).1
      (events ++ [.named (history.register b absolutePath displayPath).2.id lines]) := by
  unfold ConflictHistory.register
  split
  next existing hfind =>
    have hmem := mem_of_find?_eq_some hfind
    have hmatch := find?_some hfind
    simp only [Bool.and_eq_true, beq_iff_eq] at hmatch
    obtain ⟨hkey, hnamed⟩ := h.live existing hmem
    rw [hrecorded existing hmem hmatch.1 hmatch.2] at hnamed
    have hnext := h.snoc_named lines (h.fresh _ _ hnamed) fun x hx => h.one _ x lines hx hnamed
    simp only [hkey]
    refine hnext.mono le_rfl ?_
    intro entry hentry
    rcases mem_assocSet hentry with rfl | hold
    · exact .inr ⟨rfl, by simp [hrebuilt]⟩
    · exact .inl hold
  next =>
    have hlater : Faithful { history with nextId := history.nextId + 1 } events :=
      h.mono (Nat.le_succ _) fun entry hentry => .inl hentry
    have hnext := hlater.snoc_named lines (Nat.lt_succ_self history.nextId) fun x hx =>
      absurd (h.fresh _ x hx) (lt_irrefl _)
    refine hnext.mono le_rfl ?_
    intro entry hentry
    rcases mem_assocSet hentry with rfl | hold
    · exact .inr ⟨rfl, by simp [hrebuilt]⟩
    · exact .inl hold

end Faithful

theorem mem_entries_register {history : ConflictHistory} {b absolutePath displayPath entry}
    (h : entry ∈ (history.register b absolutePath displayPath).1.entries) :
    entry ∈ history.entries ∨ entry.2.startLine = b.startLine := by
  unfold ConflictHistory.register at h
  split at h <;>
  · rcases mem_assocSet h with rfl | hold
    · exact .inr rfl
    · exact .inl hold

theorem register_toConflictBlock (history : ConflictHistory) (b : ConflictBlock) (absolutePath displayPath : JsStr) :
    (history.register b absolutePath displayPath).2.toConflictBlock = b := by
  unfold ConflictHistory.register
  split <;> rfl

theorem Faithful.registerAll {history events} (h : Faithful history events)
    {absolutePath displayPath text blocks} (hstart : blocks.Pairwise fun a b => a.startLine ≠ b.startLine)
    (hrebuilt : ∀ b ∈ blocks, buildRecordedRegion b = blockLines text b)
    (hrecorded : ∀ b ∈ blocks, ∀ entry ∈ history.entries, entry.2.absolutePath = absolutePath →
      entry.2.startLine = b.startLine → buildRecordedRegion entry.2.toConflictBlock = blockLines text b) :
    Faithful (Conflict.registerAll absolutePath displayPath history blocks).1
      (events ++ (Conflict.registerAll absolutePath displayPath history blocks).2.map fun entry =>
        .named entry.id (blockLines text entry.toConflictBlock)) := by
  induction blocks generalizing history events with
  | nil => simpa [Conflict.registerAll] using h
  | cons b rest ih =>
    obtain ⟨hfirst, hrest⟩ := pairwise_cons.mp hstart
    have hnext := h.register displayPath (hrebuilt b mem_cons_self) (hrecorded b mem_cons_self)
    have hall := ih hnext hrest (forall_mem_cons.mp hrebuilt).2 ?_
    · simpa [Conflict.registerAll, register_toConflictBlock] using hall
    · intro c hc entry hentry hpath hline
      rcases mem_entries_register hentry with hold | hsame
      · exact hrecorded c (mem_cons_of_mem _ hc) entry hold hpath hline
      · exact absurd (hsame.symm.trans hline) (hfirst c hc)

section
variable {absolutePath displayPath : JsStr} {w : Workspace} {events : List Event}

theorem Faithful.step_read (h : Faithful w.history events)
    (hok : ∀ b ∈ scanConflictLines (splitLines w.text) 1, w.Recognises absolutePath b) :
    Faithful (w.step absolutePath displayPath .read).1.history
      (events ++ (w.step absolutePath displayPath .read).2) := by
  apply h.registerAll
  · exact pairwise_startLine_scanFrom _ le_rfl
  · intro b hb
    obtain ⟨pre, region, post, hregion⟩ := exists_regionOf hb
    have hlines : blockLines w.text b = region := hregion.drop_take
    rw [hlines]
    exact hregion.buildRecordedRegion_of_not_spaced (hlines ▸ (hok b hb).2)
  · intro b hb
    exact (hok b hb).1

theorem replacedLines_eq_some {text entry lines}
    (h : replacedLines text entry = some lines) : lines = buildRecordedRegion entry.toConflictBlock := by
  obtain ⟨⟨startIdx, endIdx⟩, hlocate, rfl⟩ := Option.map_eq_some_iff.mp h
  obtain ⟨hmatch, hend⟩ := locateRegion_eq_some hlocate
  obtain ⟨htake, _⟩ := matchesAt_iff.mp hmatch
  rw [List.drop_take, hend, Nat.add_sub_cancel_left]
  exact htake

theorem resolve_eq_ok {id content next} (h : w.resolve id content = .ok next) :
    ∃ entry, w.history.get id = some entry ∧ next.history = w.history.invalidate entry.id := by
  unfold resolve at h
  split at h
  next => cases h
  next entry hget =>
    refine ⟨entry, hget, ?_⟩
    cases hexpand : expandContentTokens content entry with
    | error e => simp [hexpand, bind, Except.bind] at h
    | ok expanded =>
      cases hsplice : spliceConflict w.text entry expanded with
      | error e => simp [hexpand, hsplice, bind, Except.bind] at h
      | ok text =>
        simp only [hexpand, hsplice, bind, Except.bind, pure, Except.pure, Except.ok.injEq] at h
        rw [← h]

theorem Faithful.step_resolve (h : Faithful w.history events) (id : Nat) (content : JsStr) :
    Faithful (w.step absolutePath displayPath (.resolve id content)).1.history
      (events ++ (w.step absolutePath displayPath (.resolve id content)).2) := by
  cases hresolve : w.resolve id content with
  | error e => simpa [step, hresolve] using h
  | ok next =>
    obtain ⟨entry, hget, hnext⟩ := resolve_eq_ok hresolve
    have hmem : (id, entry) ∈ w.history.entries := by
      obtain ⟨before, after, heq, _⟩ := lookup_eq_some_iff.mp hget
      simp [heq]
    have hnamed := (h.live (id, entry) hmem).2
    have hreplaced : Faithful w.history
        (events ++ (replacedLines w.text entry).toList.map (.replaced id)) := by
      apply h.append_replaced
      intro lines hlines
      rw [replacedLines_eq_some (Option.mem_toList.mp hlines)]
      exact hnamed
    simp only [step, hresolve, hget, Option.bind_some, hnext]
    refine Faithful.mono hreplaced (Nat.le_refl (w.history.invalidate entry.id).nextId) ?_
    intro other hother
    exact .inl (mem_of_mem_filter hother)

theorem Faithful.events_run (operations : List Operation) {before}
    (h : Faithful w.history before) (hok : w.Recognised absolutePath displayPath operations) :
    ∃ history, Faithful history (before ++ w.events absolutePath displayPath operations) := by
  induction operations generalizing w before with
  | nil => exact ⟨w.history, by simpa [events] using h⟩
  | cons operation rest ih =>
    obtain ⟨hread, hrest⟩ := hok
    have hstep : Faithful (w.step absolutePath displayPath operation).1.history
        (before ++ (w.step absolutePath displayPath operation).2) := by
      cases operation with
      | read => exact h.step_read (hread rfl)
      | resolve id content => exact h.step_resolve id content
    obtain ⟨history, hall⟩ := ih hstep hrest
    exact ⟨history, by simpa [events] using hall⟩

end

/-- While every read recognises the blocks at the lines of live entries, an id is returned for the lines
of one block only, and a resolution replaces the lines its id was returned for. -/
theorem conflict_id_names_one_block (absolutePath displayPath text : JsStr) (operations : List Operation)
    (hok : (mk text {}).Recognised absolutePath displayPath operations) :
    (∀ id x y, .named id x ∈ (mk text {}).events absolutePath displayPath operations →
        .named id y ∈ (mk text {}).events absolutePath displayPath operations → x = y) ∧
      ∀ id y, .replaced id y ∈ (mk text {}).events absolutePath displayPath operations →
        .named id y ∈ (mk text {}).events absolutePath displayPath operations := by
  obtain ⟨history, h⟩ := Faithful.events_run operations Faithful.empty hok
  exact ⟨h.one, h.replaced⟩

theorem conflict_ids_of_two_reads :
    let workspace := mk (lit "<<<<<<< a\n=======\n>>>>>>>\n<<<<<<< b\n=======\n>>>>>>>") {}
    let operations : List Operation := [.read, .resolve 1 (lit "x\ny"), .read]
    workspace.Recognised [] [] operations ∧ ∀ id y,
      .replaced id y ∈ workspace.events [] [] operations → .named id y ∈ workspace.events [] [] operations := by
  intro workspace operations
  have hok : workspace.Recognised [] [] operations := by
    refine ⟨?_, ?_, ?_, trivial⟩
    · intro _
      unfold Workspace.Recognises
      decide +kernel
    · intro h
      cases h
    · intro _
      unfold Workspace.Recognises
      decide +kernel
  exact ⟨hok, (conflict_id_names_one_block _ _ _ _ hok).2⟩

/-- The first of three conflicts is resolved with six lines: the second then starts where the third was
recorded, and the next read returns it under the third's id. -/
theorem conflict_id_moves_to_next_block :
    let w : Workspace := ⟨lit "<<<<<<< a\n=======\n>>>>>>>\n<<<<<<< b\n=======\n>>>>>>>\n<<<<<<< c\n=======\n>>>>>>>", {}⟩
    let events := w.events [] [] [.read, .resolve 1 (lit "1\n2\n3\n4\n5\n6"), .read]
    .named 3 [lit "<<<<<<< c", lit "=======", lit ">>>>>>>"] ∈ events ∧
      .named 3 [lit "<<<<<<< b", lit "=======", lit ">>>>>>>"] ∈ events := by
  decide +kernel

end GajaeCode.Tools.Conflict
