import GajaeCode.Shell.Bash
import GajaeCode.Tools.BashAllowedPrefixes

/-! The words that the allowlist checks against the words that bash runs. -/
namespace GajaeCode.Tools

open Text Shell ShellWord
open List hiding lex

def ShellQuote.mark : ShellQuote → UInt16
  | .single => ascii '\''
  | .double => ascii '"'

def isQuoteMark (u : UInt16) : Bool := u == ascii '\'' || u == ascii '"'

/-- Outside quotes every white space is a space, a tab or a line feed and no word starts with `#`;
`mark` is the quotation that is open, `start` whether a word may start here. -/
def plainFrom : Option UInt16 → Bool → JsStr → Bool
  | _, _, [] => true
  | some mark, _, u :: s => plainFrom (if u = mark then none else some mark) false s
  | none, start, u :: s =>
    if isQuoteMark u then plainFrom (some u) false s
    else if isJsWhitespace u then isShellBlank u && plainFrom none true s
    else !(start && u == ascii '#') && plainFrom none false s

def plainlySeparated (command : JsStr) : Bool := plainFrom none true command

/-- A unit at the start of a word that does not yet say what the word is. -/
def isOpening (u : UInt16) : Bool := !isShellBlank u && !isQuoteMark u && u != ascii '='

/-- A word that starts with `name` and goes on with this unit, if any, is neither an assignment nor reserved. -/
def opensPlainly (name : JsStr) : Option UInt16 → Bool
  | none => !reservedWords.contains name
  | some u => if u = ascii '=' then !isAssignmentName name else isQuoteMark u || !reservedWords.contains name

def opensText (text : JsStr) : Bool := opensPlainly (text.takeWhile isOpening) (text.dropWhile isOpening).head?

/-- The command starts neither with an assignment nor with a reserved word. -/
def startsPlainly (command : JsStr) : Bool := opensText (command.dropWhile isShellBlank)

/-- The parser and bash know the same of the word being read. -/
structure Agree (w : ShellWord) (cur : Option Word) : Prop where
  started : cur.isSome = w.wordStarted
  text : (begun cur).text = w.current.map .unit
  assigned : (begun cur).assigned = w.sawAssignmentEquals
  plain : w.sawAssignmentEquals = false → (begun cur).plain = w.assignmentNameCandidate
  tilde : (begun cur).tilde = w.tildeExpandable

def quoteMode : ShellQuote → Word → Mode
  | .single, w => .single w
  | .double, w => .double w

theorem step_opens (k : ShellQuote) (cur : Option Word) :
    step false (.bare cur) (.unit k.mark) = some ([], quoteMode k (begun cur).quote) := by
  cases k <;> rfl

theorem step_closes (k : ShellQuote) (w : Word) :
    step false (quoteMode k w) (.unit k.mark) = some ([], .bare (some w)) := by
  cases k <;> rfl

theorem step_quoted {k : ShellQuote} {u : UInt16} (w : Word) (hu : u ≠ k.mark)
    (hdouble : k = .double → u ≠ ascii '`' ∧ u ≠ ascii '$' ∧ u ≠ ascii '\\') :
    step false (quoteMode k w) (.unit u) = some ([], quoteMode k (w.append (.unit u))) := by
  cases k with
  | single =>
    have hu : u ≠ ascii '\'' := hu
    simp [quoteMode, step, hu]
  | double =>
    have hu : u ≠ ascii '"' := hu
    simp [quoteMode, step, hu, hdouble rfl]

inductive InMode : Option ShellQuote → ShellWord → Mode → Prop where
  | bare {w : ShellWord} {cur : Option Word} (h : Agree w cur) : InMode none w (.bare cur)
  | quoted {w : ShellWord} {word : Word} (k : ShellQuote) (h : Agree w (some word)) :
      InMode (some k) w (quoteMode k word)

theorem Agree.start : Agree {} none := ⟨rfl, rfl, rfl, fun _ => rfl, rfl⟩

theorem isAssignmentName_map (name : JsStr) : Shell.isAssignmentName (name.map .unit) = isAssignmentName name := by
  have hall (rest : JsStr) : (rest.map Piece.unit).all isNamePiece = rest.all isWord := by
    simp [all_map, Function.comp_def, isNamePiece]
  have hlast : (name.map Piece.unit).getLast? = some (.unit (ascii '+')) ↔ name.getLast? = some (ascii '+') := by simp
  unfold Shell.isAssignmentName isAssignmentName
  by_cases h : name.getLast? = some (ascii '+')
  · rw [if_pos (hlast.mpr h), if_pos h, ← map_dropLast]
    cases name.dropLast with
    | nil => rfl
    | cons first rest => simp [hall]
  · rw [if_neg (mt hlast.mp h), if_neg h]
    cases name with
    | nil => rfl
    | cons first rest => simp [hall]

variable {w : ShellWord} {m' : Mode} {out : List Token}
  {cur : Option Word} {u : UInt16} {t : JsStr}

theorem Agree.openQuote (h : Agree w cur) : Agree w.openQuote (some (begun cur).quote) where
  started := rfl
  text := h.text
  assigned := h.assigned
  plain hsaw := by
    have hsaw : w.sawAssignmentEquals = false := hsaw
    simp [ShellWord.openQuote, hsaw, begun, Word.quote]
  tilde := rfl

theorem Agree.append {word} (h : Agree w (some word)) (u : UInt16) :
    Agree (w.append u) (some (word.append (.unit u))) where
  started := h.started
  text := by
    have htext : word.text = w.current.map .unit := h.text
    simp [begun, ShellWord.append, htext]
  assigned := h.assigned
  plain := h.plain
  tilde := h.tilde

theorem Agree.push (h : Agree w cur) (u : UInt16) : Agree (w.push u) (some ((begun cur).push u)) := by
  have htext : ((begun cur).text ++ [Piece.unit u]) = (w.current ++ [u]).map .unit := by
    rw [h.text, map_append, map_singleton]
  unfold ShellWord.push Word.push
  rw [h.assigned]
  split_ifs with hequals
  · have hassigns : ((begun cur).plain && Shell.isAssignmentName (begun cur).text) =
        (w.assignmentNameCandidate && isAssignmentName w.current) := by
      rw [h.plain hequals.2, h.text, isAssignmentName_map]
    exact ⟨rfl, hequals.1 ▸ htext, hassigns, fun _ => hassigns, hassigns⟩
  · exact ⟨rfl, htext, h.assigned, h.plain, rfl⟩

/-- What the parser has excluded of a unit that it passes outside quotes. -/
structure Passed (w : ShellWord) (u : UInt16) : Prop where
  backquote : u ≠ ascii '`'
  control : u ∉ shellControlChars
  expansion : u ∉ unsafeUnquotedExpansionChars
  tilde : ¬(u = ascii '~' ∧ (w.wordStarted = false ∨ w.tildeExpandable = true))
  backslash : u ≠ ascii '\\'

theorem passed_of_bareReason {next} (h : bareReason w u next = none) : Passed w u := by
  unfold bareReason at h
  split_ifs at h with hsubst hline hcontrol hexpansion htilde hslash
  exact ⟨fun hu => hsubst (.inl hu), fun hu => hcontrol (contains_iff_mem.mpr hu),
    fun hu => hexpansion (contains_iff_mem.mpr hu), htilde, hslash⟩

theorem opensTilde_eq (h : Agree w cur) : opensTilde cur = true ↔ w.wordStarted = false ∨ w.tildeExpandable = true := by
  cases cur with
  | none => simp [opensTilde, ← h.started]
  | some word =>
    have htilde : word.tilde = w.tildeExpandable := h.tilde
    simp [opensTilde, ← h.started, htilde]

theorem role_letter (h : Agree w cur) (hmark : isQuoteMark u = false) (hpass : Passed w u)
    (hblank : isJsWhitespace u = false) (hhash : ¬(u = ascii '#' ∧ cur.isNone)) : role false cur u = .letter := by
  have hne {v : UInt16} (hv : isJsWhitespace v = true) : u ≠ v := by
    rintro rfl
    exact Bool.eq_false_iff.mp hblank hv
  obtain ⟨hsingle, hdouble⟩ : u ≠ ascii '\'' ∧ u ≠ ascii '"' := by simpa [isQuoteMark] using hmark
  have hexpanders : (expanders.all fun v => v == ascii '`' || unsafeUnquotedExpansionChars.contains v) =
      true := by decide
  have hspecial : ¬(operators.contains u || expanders.contains u) = true := by
    rw [Bool.or_eq_true, contains_iff_mem, contains_iff_mem]
    rintro (hu | hu)
    · exact hpass.control hu
    · rcases Bool.or_eq_true_iff.mp (all_eq_true.mp hexpanders u hu) with hu | hu
      · exact hpass.backquote (beq_iff_eq.mp hu)
      · exact hpass.expansion (contains_iff_mem.mp hu)
  exact IsLetter.role_eq {
    blank := by rintro (hu | hu) <;> exact hne (by decide) hu
    stop := by simp [hne (v := LF) (by decide)]
    single := hsingle
    double := hdouble
    escape := hpass.backslash
    comment := hhash
    special := hspecial
    tilde := by
      rw [opensTilde_eq h]
      exact hpass.tilde }

theorem flush_map (h : Agree w cur) (words : List JsStr) : (w.flush words).map (List.map Piece.unit) =
      words.map (List.map Piece.unit) ++ cur.toList.map (·.text) := by
  cases cur with
  | none =>
    have hstarted : w.wordStarted = false := h.started.symm
    simp [flush, hstarted]
  | some word =>
    have hstarted : w.wordStarted = true := h.started.symm
    have htext : word.text = w.current.map .unit := h.text
    simp [flush, hstarted, htext]

theorem isQuoteMark_of_isJsWhitespace (h : isJsWhitespace u = true) : isQuoteMark u = false := by
  refine Bool.eq_false_iff.mpr fun hmark => ?_
  rcases Bool.or_eq_true_iff.mp hmark with hu | hu <;>
    · rw [beq_iff_eq.mp hu] at h
      exact absurd h (by decide)

theorem cases_of_isShellBlank (h : isShellBlank u = true) : u = ascii ' ' ∨ u = ascii '\t' ∨ u = LF := by
  simpa [isShellBlank, or_assoc] using h

theorem isShellBlank_eq_false (h : isJsWhitespace u = false) : isShellBlank u = false := by
  refine Bool.eq_false_iff.mpr fun hshell => ?_
  rcases cases_of_isShellBlank hshell with rfl | rfl | rfl <;> exact absurd h (by decide)

theorem isShellBlank_of_plainFrom {start} {post : JsStr} (hpost : ∀ u ∈ post, isJsWhitespace u = true)
    (h : plainFrom none start post = true) : ∀ u ∈ post, isShellBlank u = true := by
  induction post generalizing start with
  | nil => simp
  | cons u post ih =>
    obtain ⟨hu, hpost⟩ := forall_mem_cons.mp hpost
    rw [plainFrom, isQuoteMark_of_isJsWhitespace hu, hu] at h
    obtain ⟨hblank, h⟩ := Bool.and_eq_true_iff.mp h
    exact forall_mem_cons.mpr ⟨hblank, ih hpost h⟩

variable {q q' : Option ShellQuote} {w w' : ShellWord} {words words' ws : List JsStr} {u : UInt16}
  {s post : JsStr} {m : Mode}

theorem wordStarted_push (w : ShellWord) (u : UInt16) : (w.push u).wordStarted = true := by
  unfold push
  split_ifs <;> rfl

theorem current_push (w : ShellWord) (u : UInt16) : (w.push u).current = w.current ++ [u] := by
  unfold push
  split_ifs <;> rfl

/-- What the parser does with a unit that it does not refuse. A line feed outside quotes can only stand in
front of the first word, where the text is trimmed. -/
inductive ParseStep (w : ShellWord) (words : List JsStr) (u : UInt16) :
    Option ShellQuote → Option ShellQuote → ShellWord → List JsStr → Prop where
  | close (k : ShellQuote) (hu : u = k.mark) : ParseStep w words u (some k) none w words
  | quoted (k : ShellQuote) (hu : u ≠ k.mark)
      (hdouble : k = .double → u ≠ ascii '`' ∧ u ≠ ascii '$' ∧ u ≠ ascii '\\') :
      ParseStep w words u (some k) (some k) (w.append u) words
  | opens (k : ShellQuote) (hu : u = k.mark) : ParseStep w words u none (some k) w.openQuote words
  | blank (hblank : isJsWhitespace u = true) (hline : u = LF → w.flush words = []) :
      ParseStep w words u none none {} (w.flush words)
  | letter (hmark : isQuoteMark u = false) (hpass : Passed w u) (hblank : isJsWhitespace u = false) :
      ParseStep w words u none none (w.push u) words

/-- The parser's reading of a text, with the white space at its end. -/
inductive Parses : Option ShellQuote → ShellWord → List JsStr → JsStr → List JsStr → Prop where
  | done {w : ShellWord} {words : List JsStr} {post : JsStr} (hpost : ∀ u ∈ post, isJsWhitespace u = true) :
      Parses none w words post (w.flush words)
  | step {q q' : Option ShellQuote} {w w' : ShellWord} {words words' ws : List JsStr} {u : UInt16} {s : JsStr}
      (hp : ParseStep w words u q q' w' words') (h : Parses q' w' words' s ws) : Parses q w words (u :: s) ws

theorem parseStep_bare (h : (parseShellFrom none w words (u :: s)).reason = none) :
    ∃ q' w' words', ParseStep w words u none q' w' words' ∧
      parseShellFrom none w words (u :: s) = parseShellFrom q' w' words' s := by
  by_cases hsingle : u = ascii '\''
  · exact ⟨_, _, _, .opens .single hsingle, by rw [parseShellFrom, if_pos hsingle]⟩
  by_cases hdouble : u = ascii '"'
  · exact ⟨_, _, _, .opens .double hdouble, by rw [parseShellFrom, if_neg hsingle, if_pos hdouble]⟩
  have hmark : isQuoteMark u = false := by simp [isQuoteMark, hsingle, hdouble]
  rw [parseShellFrom, if_neg hsingle, if_neg hdouble] at h ⊢
  cases hreason : bareReason w u s.head? with
  | some reason =>
    rw [hreason] at h
    cases h
  | none =>
    cases hblank : isJsWhitespace u with
    | true =>
      refine ⟨_, _, _, .blank hblank ?_, rfl⟩
      rintro rfl
      cases hreason
    | false => exact ⟨_, _, _, .letter hmark (passed_of_bareReason hreason) hblank, rfl⟩

theorem parseStep_of_parseShellFrom (h : (parseShellFrom q w words (u :: s)).reason = none) :
    ∃ q' w' words', ParseStep w words u q q' w' words' ∧
      parseShellFrom q w words (u :: s) = parseShellFrom q' w' words' s := by
  match q with
  | none => exact parseStep_bare h
  | some .single =>
    rw [parseShellFrom]
    split_ifs with hu
    · exact ⟨_, _, _, .close .single hu, rfl⟩
    · exact ⟨_, _, _, .quoted .single hu (by simp), rfl⟩
  | some .double =>
    rw [parseShellFrom] at h ⊢
    split_ifs at h ⊢ with hu
    · exact ⟨_, _, _, .close .double hu, rfl⟩
    · cases hreason : doubleReason u s.head? with
      | some reason =>
        rw [hreason] at h
        cases h
      | none =>
        refine ⟨_, _, _, .quoted .double hu fun _ => ?_, rfl⟩
        unfold doubleReason at hreason
        split_ifs at hreason with hsubst hdollar hslash
        exact ⟨fun hu => hsubst (.inl hu), hdollar, hslash⟩

theorem parses_of_parseShellFrom (h : parseShellFrom q w words s = ⟨ws, none⟩)
    (hpost : ∀ u ∈ post, isJsWhitespace u = true) : Parses q w words (s ++ post) ws := by
  induction s generalizing q w words with
  | nil =>
    match q with
    | none =>
      cases h
      exact .done hpost
    | some .single | some .double => cases h
  | cons u s ih =>
    obtain ⟨q', w', words', hp, hparse⟩ := parseStep_of_parseShellFrom (congrArg ParsedShellWords.reason h)
    exact .step hp (ih (hparse.symm.trans h))

theorem parses_of_parseShellWords {command} (h : parseShellWords (trim command) = ⟨ws, none⟩) :
    Parses none {} [] command ws := by
  obtain ⟨pre, post, htrim, hpre, hpost⟩ := exists_trim_append command
  rw [htrim, append_assoc]
  clear htrim
  induction pre with
  | nil => exact parses_of_parseShellFrom (s := trim command) h hpost
  | cons u pre ih =>
    obtain ⟨hu, hpre⟩ := forall_mem_cons.mp hpre
    exact .step (.blank hu fun _ => rfl) (ih hpre)

theorem isQuoteMark_mark (k : ShellQuote) : isQuoteMark k.mark = true := by cases k <;> rfl

/-- On a plain text bash takes the same step, and the rest is plain. -/
theorem step_of_parseStep (hm : InMode q w m) (hp : ParseStep w words u q q' w' words')
    (hplain : plainFrom (q.map ShellQuote.mark) (!w.wordStarted) (u :: t) = true) :
    ∃ out m', InMode q' w' m' ∧ step false m (.unit u) = some (out, m') ∧
      (∀ ts, commandsFrom (words.map (List.map Piece.unit)) (out ++ ts) =
        commandsFrom (words'.map (List.map Piece.unit)) ts) ∧
      plainFrom (q'.map ShellQuote.mark) (!w'.wordStarted) t = true := by
  cases hp with
  | close k hu =>
    subst hu
    rw [Option.map_some, plainFrom, if_pos rfl] at hplain
    cases hm with
    | quoted k hagree =>
      exact ⟨[], _, .bare hagree, step_closes k _, fun _ => rfl, by rw [← hagree.started]; exact hplain⟩
  | quoted k hu hdouble =>
    rw [Option.map_some, plainFrom, if_neg hu] at hplain
    cases hm with
    | quoted k hagree =>
      refine ⟨[], _, .quoted k (hagree.append u), step_quoted _ hu hdouble, fun _ => rfl, ?_⟩
      rwa [append, ← hagree.started]
  | opens k hu =>
    subst hu
    rw [Option.map_none, plainFrom, isQuoteMark_mark] at hplain
    cases hm with
    | bare hagree => exact ⟨[], _, .quoted k hagree.openQuote, step_opens k _, fun _ => rfl, hplain⟩
  | blank hblank hline =>
    cases hm with
    | @bare _ cur hagree =>
      rw [Option.map_none, plainFrom, isQuoteMark_of_isJsWhitespace hblank, hblank] at hplain
      obtain ⟨hshell, hrest⟩ := Bool.and_eq_true_iff.mp hplain
      by_cases hu : u = LF
      · subst hu
        refine ⟨_, _, .bare Agree.start, step_lineFeed, fun ts => ?_, hrest⟩
        rw [append_assoc, commandsFrom_endWord, ← flush_map hagree, hline rfl]
        rfl
      · refine ⟨_, _, .bare Agree.start, step_space (eq_of_isShellBlank hshell hu), fun ts => ?_, hrest⟩
        rw [commandsFrom_endWord, flush_map hagree]
  | letter hmark hpass hblank =>
    cases hm with
    | @bare _ cur hagree =>
      rw [Option.map_none, plainFrom, hmark, hblank] at hplain
      obtain ⟨hhash, hrest⟩ := Bool.and_eq_true_iff.mp hplain
      rw [wordStarted_push]
      have hrole : role false cur u = .letter := by
        refine role_letter hagree hmark hpass hblank ?_
        rintro ⟨rfl, hnone⟩
        have hstarted : w.wordStarted = false := by
          rw [← hagree.started, Option.isNone_iff_eq_none.mp hnone]
          rfl
        simp [hstarted] at hhash
      exact ⟨[], _, .bare (hagree.push u), by rw [step, hrole], fun _ => rfl, hrest⟩

/-- On a plain text bash reads the words that the parser finds. -/
theorem lex_of_parses (hm : InMode q w m) (h : Parses q w words s ws)
    (hplain : plainFrom (q.map ShellQuote.mark) (!w.wordStarted) s = true) :
    ∃ ts, lex false m (s.map .unit) = some ts ∧
      commandsFrom (words.map (List.map Piece.unit)) ts = endCommand (ws.map (List.map Piece.unit)) := by
  induction h generalizing m with
  | done hpost =>
    cases hm with
    | @bare _ cur hagree =>
      obtain ⟨stops, hstops, hlex⟩ := lex_blanks false cur (isShellBlank_of_plainFrom hpost hplain)
      refine ⟨_, hlex, ?_⟩
      rw [commandsFrom_endWord, commandsFrom_stops _ hstops, flush_map hagree]
  | step hp h ih =>
    obtain ⟨out, m', hm', hstep, hcommands, hrest⟩ := step_of_parseStep hm hp hplain
    obtain ⟨ts, hlex, hts⟩ := ih hm' hrest
    refine ⟨out ++ ts, ?_, (hcommands ts).trans hts⟩
    rw [map_cons, lex_step hstep, hlex, Option.map_some]

/-- A word that has not started is empty; a quotation starts one. -/
structure WellStarted (q : Option ShellQuote) (w : ShellWord) : Prop where
  empty : w.wordStarted = false → w.current = []
  quoted : q ≠ none → w.wordStarted = true

theorem WellStarted.of_started (h : w.wordStarted = true) : WellStarted q w :=
  ⟨fun hno => absurd h (Bool.eq_false_iff.mp hno), fun _ => h⟩

theorem WellStarted.start : WellStarted none {} := ⟨fun _ => rfl, fun hq => absurd rfl hq⟩

theorem WellStarted.step (hw : WellStarted q w) (hp : ParseStep w words u q q' w' words') : WellStarted q' w' := by
  cases hp with
  | close | quoted => exact .of_started (hw.quoted (by simp))
  | opens => exact .of_started rfl
  | blank => exact .start
  | letter => exact .of_started (wordStarted_push w u)

theorem flatten_flush (hw : WellStarted q w) (words : List JsStr) :
    (w.flush words).flatten = words.flatten ++ w.current := by
  unfold flush
  split_ifs with hstarted
  · simp
  · simp [hw.empty (Bool.eq_false_iff.mpr hstarted)]

/-- The parser drops quotation marks and white space only. -/
theorem count_of_parses {h : UInt16} (hquote : isQuoteMark h = false) (hwhite : isJsWhitespace h = false)
    (hw : WellStarted q w) (hparses : Parses q w words s ws) :
    ws.flatten.count h = (words.flatten ++ w.current ++ s).count h := by
  have hmark {u : UInt16} (k : ShellQuote) (hu : u = k.mark) : u ≠ h := by
    rintro rfl
    rw [hu, isQuoteMark_mark] at hquote
    cases hquote
  have hblank {u : UInt16} (hu : isJsWhitespace u = true) : u ≠ h := by
    rintro rfl
    exact Bool.eq_false_iff.mp hwhite hu
  induction hparses with
  | done hpost =>
    have hnone := count_eq_zero.mpr fun hmem => hblank (hpost h hmem) rfl
    simp only [flatten_flush hw, count_append, hnone, Nat.add_zero]
  | step hp _ ih =>
    rw [ih (hw.step hp)]
    cases hp with
    | close k hu | opens k hu => simp only [ShellWord.openQuote, count_append, count_cons_of_ne (hmark k hu)]
    | quoted => simp [append]
    | blank hu => simp only [flatten_flush hw, count_append, count_cons_of_ne (hblank hu), count_nil, Nat.add_zero]
    | letter => simp [current_push]

/-- The quotation that a mode of bash is in. -/
inductive Quoting : Option ShellQuote → Mode → Prop where
  | bare (cur : Option Word) : Quoting none (.bare cur)
  | quoted (k : ShellQuote) (word : Word) : Quoting (some k) (quoteMode k word)

theorem text_quoteMode (k : ShellQuote) (w : Word) : (quoteMode k w).text = render id w.text := by cases k <;> rfl

def startsWord : Mode → Bool
  | .bare cur => cur.isNone
  | _ => false

/-- A step of bash that keeps `n` units or more, and no more only on a plain unit. -/
structure Keeps (n : Nat) (q : Option ShellQuote) (m : Mode) (u : UInt16) (s : JsStr) (out : List Token) (m' : Mode)
    (q' : Option ShellQuote) : Prop where
  quoting : Quoting q' m'
  length : m.text.length + n ≤ (letters out ++ m'.text).length
  plain : (letters out ++ m'.text).length = m.text.length + n →
    plainFrom (q'.map ShellQuote.mark) (startsWord m') s = true →
      plainFrom (q.map ShellQuote.mark) (startsWord m) (u :: s) = true

theorem length_push (cur : Option Word) (u : UInt16) :
    (letters [] ++ (Mode.bare (some ((begun cur).push u))).text).length = (Mode.bare cur).text.length + 1 := by
  simp [Mode.text, render_append]

/-- White space is kept as a letter or separates words. -/
theorem keeps_white (hu : isJsWhitespace u = true) (hstep : step false (.bare cur) (.unit u) = some (out, m')) :
    Keeps 0 none (.bare cur) u s out m' none := by
  have hne {v : UInt16} (hv : isJsWhitespace v = false) : u ≠ v := by
    rintro rfl
    exact Bool.eq_false_iff.mp hv hu
  have hblank {stops} (hstops : letters stops = []) (hshell : isShellBlank u = true) :
      Keeps 0 none (.bare cur) u s (endWord cur ++ stops) (.bare none) none := by
    refine ⟨.bare none, ?_, fun _ hplain => ?_⟩
    · simp [Mode.text, letters_append, hstops]
    · rw [Option.map_none, plainFrom, isQuoteMark_of_isJsWhitespace hu, hu, hshell]
      exact hplain
  have hspec := role_spec false cur u
  rw [step] at hstep
  generalize role false cur u = r at hstep hspec
  cases hspec with
  | blank h =>
    cases hstep
    have hkeeps := @hblank [] rfl (by rcases h with rfl | rfl <;> decide)
    rwa [append_nil] at hkeeps
  | stop h =>
    cases hstep
    obtain rfl : u = LF := by simpa using h
    exact hblank rfl (by decide)
  | single h | double h | escape h => exact absurd h (hne (by decide))
  | comment h => exact absurd h.1 (hne (by decide))
  | refused => cases hstep
  | letter =>
    cases hstep
    refine ⟨.bare _, by rw [length_push]; omega, fun hlength => ?_⟩
    rw [length_push] at hlength
    omega

theorem keeps_letter (hmark : isQuoteMark u = false) (hpass : Passed w u) (hwhite : isJsWhitespace u = false)
    (hstep : step false (.bare cur) (.unit u) = some (out, m'))
    (hhash : (letters out ++ m'.text).count (ascii '#') = ((Mode.bare cur).text ++ [u]).count (ascii '#')) :
    Keeps 1 none (.bare cur) u s out m' none := by
  have hne {v : UInt16} (hv : isJsWhitespace v = true) : u ≠ v := by
    rintro rfl
    exact Bool.eq_false_iff.mp hwhite hv
  have hspec := role_spec false cur u
  rw [step] at hstep
  generalize role false cur u = r at hstep hspec
  cases hspec with
  | blank h => rcases h with h | h <;> exact absurd h (hne (by decide))
  | stop h => exact absurd (by simpa using h) (hne (v := LF) (by decide))
  | single h | double h =>
    rw [h] at hmark
    cases hmark
  | escape h => exact absurd h hpass.backslash
  | comment h =>
    -- the hash itself is lost
    cases hstep
    obtain ⟨rfl, -⟩ := h
    simp [Mode.text] at hhash
  | refused => cases hstep
  | letter h =>
    cases hstep
    refine ⟨.bare _, (length_push cur u).ge, fun _ hplain => ?_⟩
    have hhash : (!(startsWord (.bare cur) && u == ascii '#')) = true := by
      have hcomment := h.comment
      simp only [startsWord]
      grind
    rw [Option.map_none, plainFrom, hmark, hwhite, hhash]
    exact hplain

/-- A step of bash that loses no hash keeps at least what the parser keeps, and no more only on a plain unit. -/
theorem keeps_of_parseStep (hw : WellStarted q w) (hm : Quoting q m) (hp : ParseStep w words u q q' w' words')
    (hstep : step false m (.unit u) = some (out, m'))
    (hhash : (letters out ++ m'.text).count (ascii '#') = (m.text ++ [u]).count (ascii '#')) :
    ∃ n, (words'.flatten ++ w'.current).length = (words.flatten ++ w.current).length + n ∧
      Keeps n q m u s out m' q' := by
  cases hp with
  | close k hu =>
    subst hu
    cases hm with
    | quoted k word =>
      cases (step_closes k word).symm.trans hstep
      refine ⟨0, rfl, .bare _, by rw [text_quoteMode]; rfl, fun _ hplain => ?_⟩
      rwa [Option.map_some, plainFrom, if_pos rfl]
  | quoted k hu hdouble =>
    cases hm with
    | quoted k word =>
      cases (step_quoted word hu hdouble).symm.trans hstep
      refine ⟨1, by simp [append, Nat.add_assoc], .quoted k _, by simp [text_quoteMode, render_append], fun _ hplain => ?_⟩
      rw [Option.map_some, plainFrom, if_neg hu]
      cases k <;> exact hplain
  | opens k hu =>
    subst hu
    cases hm with
    | bare cur =>
      cases (step_opens k cur).symm.trans hstep
      refine ⟨0, rfl, .quoted k _, by rw [text_quoteMode]; rfl, fun _ hplain => ?_⟩
      rw [Option.map_none, plainFrom, isQuoteMark_mark]
      cases k <;> exact hplain
  | blank hblank hline =>
    cases hm with
    | bare cur => exact ⟨0, by simp [flatten_flush hw], keeps_white hblank hstep⟩
  | letter hmark hpass hblank =>
    cases hm with
    | bare cur => exact ⟨1, by simp [current_push, Nat.add_assoc], keeps_letter hmark hpass hblank hstep hhash⟩

theorem plainFrom_of_white {ts} (hpost : ∀ u ∈ post, isJsWhitespace u = true)
    (hlex : lex false (.bare cur) (post.map .unit) = some ts) : (Mode.bare cur).text.length ≤ (letters ts).length ∧
      ((letters ts).length = (Mode.bare cur).text.length → plainFrom none cur.isNone post = true) := by
  induction post generalizing cur ts with
  | nil =>
    cases hlex
    simp [Mode.text, plainFrom]
  | cons u post ih =>
    obtain ⟨hu, hpost⟩ := forall_mem_cons.mp hpost
    obtain ⟨out, m', rest, hstep, hrest, rfl⟩ := lex_cons_eq_some.mp hlex
    obtain ⟨hquoting, hlength, hplain⟩ := keeps_white (s := post) hu hstep
    cases hquoting with
    | bare cur' =>
      obtain ⟨hle, hrestPlain⟩ := ih hpost hrest
      rw [length_append] at hlength hplain
      rw [letters_append, length_append]
      exact ⟨by omega, fun htotal => hplain (by omega) (hrestPlain (by omega))⟩

/-- If bash keeps all hashes of a text, it keeps at least what the parser keeps, and no more only if the
text is plain. -/
theorem plainFrom_of_lex {ts} (hw : WellStarted q w) (hm : Quoting q m) (h : Parses q w words s ws)
    (hlex : lex false m (s.map .unit) = some ts)
    (hhash : (letters ts).count (ascii '#') = (m.text ++ s).count (ascii '#')) :
    m.text.length + ws.flatten.length ≤ (letters ts).length + (words.flatten ++ w.current).length ∧
      ((letters ts).length + (words.flatten ++ w.current).length = m.text.length + ws.flatten.length →
        plainFrom (q.map ShellQuote.mark) (startsWord m) s = true) := by
  induction h generalizing m ts with
  | done hpost =>
    cases hm with
    | bare cur =>
      obtain ⟨hlength, hplain⟩ := plainFrom_of_white hpost hlex
      rw [flatten_flush hw]
      exact ⟨by omega, fun htotal => hplain (by omega)⟩
  | @step _ _ _ _ _ _ _ u s hp h ih =>
    obtain ⟨out, m', rest, hstep, hrest, rfl⟩ := lex_cons_eq_some.mp hlex
    have hne : ascii '#' ≠ ascii '\\' := by decide
    have hone := count_step_le hne hstep
    have hall := count_letters_le hne hrest
    rw [render_map_unit] at hall
    simp only [letters_append, count_append, count_cons, render_unit, render_nil, count_nil] at hhash hone hall
    obtain ⟨n, hgrown, hkeeps⟩ := keeps_of_parseStep (s := s) hw hm hp hstep (by
      simp only [count_append, count_cons, count_nil]
      omega)
    obtain ⟨hlength, hplain⟩ := ih (hw.step hp) hkeeps.quoting hrest (by
      rw [count_append]
      omega)
    have hkept := hkeeps.length
    rw [length_append] at hkept
    rw [letters_append, length_append]
    refine ⟨by omega, fun htotal => hkeeps.plain ?_ (hplain ?_)⟩
    · rw [length_append]
      omega
    · omega

section

variable {ν : Type} {env : StateEnv ν} {command : JsStr} {allowedPrefixes : Option (List JsStr)}
  {profile : BashRestrictionProfile}

theorem parse_of_checkBashAllowedPrefixes (hne : normalizedPrefixes allowedPrefixes ≠ [])
    (h : checkBashAllowedPrefixes env command allowedPrefixes profile = .ok ()) :
    parseShellWords (trim command) = ⟨(parseShellWords (trim command)).words, none⟩ ∧
      (parseShellWords (trim command)).words ≠ [] ∧
      checkWords env (normalizedPrefixes allowedPrefixes) profile (parseShellWords (trim command)).words =
        .ok () := by
  simp only [checkBashAllowedPrefixes, if_neg hne] at h
  cases hparse : parseShellWords (trim command) with
  | mk words reason =>
    rw [hparse] at h
    cases reason with
    | some reason => cases h
    | none =>
      refine ⟨rfl, fun hempty => ?_, h⟩
      simp only at hempty
      simp [checkWords, hempty] at h

/-- A plainly separated command is read by bash as the parser's words. -/
theorem bashCommands_of_plainlySeparated (h : Parses none {} [] command ws) (hne : ws ≠ [])
    (hplain : plainlySeparated command = true) : bashCommands false command = some [ws] := by
  obtain ⟨ts, hlex, hts⟩ := lex_of_parses (.bare Agree.start) h hplain
  exact bashCommands_of_lex hne hlex hts

theorem plainlySeparated_of_bashCommands (h : Parses none {} [] command ws)
    (hbash : bashCommands false command = some [ws]) : plainlySeparated command = true := by
  obtain ⟨ts, hlex, hletters⟩ := letters_of_bashCommands hbash
  have hhash := count_of_parses (h := ascii '#') (by decide) (by decide) .start h
  rw [← hletters] at hhash
  refine (plainFrom_of_lex .start (.bare none) h hlex hhash).2 ?_
  rw [hletters]
  exact Nat.add_comm _ _

/-- No assignment is dropped in front of all the words that the parser finds: its equals sign would
be one too many. -/
theorem takeWhile_assigned_eq_nil {words} (h : Parses none {} [] command ws)
    (hbash : bashCommands false command = some [words])
    (hdrop : ((wordsRead false (.bare none) (command.map .unit)).dropWhile (·.assigned)).map
      (fun w => render id w.text) = ws) :
    (wordsRead false (.bare none) (command.map .unit)).takeWhile (·.assigned) = [] := by
  by_contra hne
  obtain ⟨word, htaken⟩ := exists_mem_of_ne_nil _ hne
  have hequals : ascii '=' ∈ render id word.text :=
    mem_flatMap.mpr ⟨_, word.equals (mem_takeWhile_imp htaken), mem_singleton_self _⟩
  obtain ⟨ts, hlex, hletters⟩ := letters_of_bashCommands hbash
  have hcount := count_letters_le (h := ascii '=') (by decide) hlex
  have hkept := count_of_parses (h := ascii '=') (by decide) (by decide) .start h
  rw [← hdrop] at hkept
  rw [hletters, render_map_unit, words_of_bashCommands hbash] at hcount
  generalize wordsRead false (.bare none) (command.map .unit) = read at *
  have hpos : 0 < (((read.takeWhile (·.assigned)).map fun w => render id w.text).flatten).count (ascii '=') :=
    count_pos_iff.mpr (mem_flatten.mpr ⟨_, mem_map_of_mem htaken, hequals⟩)
  rw [← takeWhile_append_dropWhile (p := (·.assigned)) (l := read), map_append, flatten_append, count_append,
    hkept] at hcount
  simp only [Mode.text, currentText_none, flatten_nil, nil_append] at hcount
  omega

end

/-! ### The first word -/

theorem opensText_append {r rest : JsStr} (hfree : ∀ u ∈ r, isOpening u = true)
    (hstop : ∀ u ∈ rest.head?, isOpening u = false) : opensText (r ++ rest) = opensPlainly r rest.head? := by
  rw [opensText, takeWhile_append_of_pos hfree, dropWhile_append_of_pos hfree]
  cases rest with
  | nil => rw [takeWhile_nil, dropWhile_nil, append_nil]
  | cons u rest =>
    have hu : ¬isOpening u = true := Bool.eq_false_iff.mp (hstop u rfl)
    rw [takeWhile_cons_of_neg hu, dropWhile_cons_of_neg hu, append_nil]

/-- What the parser knows of the first word when it has read `r`: opening units so far, or what the word
is, whatever follows. -/
inductive FirstWord (r : JsStr) (w : ShellWord) : Option ShellQuote → Prop where
  | opening (hcandidate : w.assignmentNameCandidate = true) (hsaw : w.sawAssignmentEquals = false)
      (hcurrent : w.current = r) (hfree : ∀ u ∈ r, isOpening u = true) : FirstWord r w none
  | settled {q : Option ShellQuote} (hplain : w.sawAssignmentEquals = false → w.assignmentNameCandidate = false)
      (hrest : ∀ rest, opensText (r ++ rest) = !w.sawAssignmentEquals) : FirstWord r w q

/-- The word that ends here is an assignment or reserved as the text says. -/
theorem FirstWord.ends {r rest} (h : FirstWord r w q) {word} (hagree : Agree w (some word))
    (hrest : ∀ u ∈ rest.head?, isShellBlank u = true) :
    opensText (r ++ rest) = (!word.assigned && !word.isReserved) := by
  have hassigned : word.assigned = w.sawAssignmentEquals := hagree.assigned
  have hplain (hsaw : w.sawAssignmentEquals = false) : word.plain = w.assignmentNameCandidate := hagree.plain hsaw
  rw [hassigned, Word.isReserved]
  cases h with
  | settled hcandidate hall =>
    rw [hall]
    cases hsaw : w.sawAssignmentEquals with
    | true => rfl
    | false =>
      rw [hplain hsaw, hcandidate hsaw]
      rfl
  | opening hcandidate hsaw hcurrent hfree =>
    have htext : word.text = w.current.map .unit := hagree.text
    rw [opensText_append hfree fun u hu => by rw [isOpening, hrest u hu]; rfl, hsaw, hplain hsaw, hcandidate, htext,
      render_map_unit, hcurrent]
    cases hhead : rest.head? with
    | none => rfl
    | some u =>
      rcases cases_of_isShellBlank (hrest u hhead) with rfl | rfl | rfl <;> rfl

theorem FirstWord.openQuote {r} (h : FirstWord r w none) (k : ShellQuote) :
    FirstWord (r ++ [k.mark]) w.openQuote (some k) := by
  have hcandidate (hsaw : w.sawAssignmentEquals = false) : w.openQuote.assignmentNameCandidate = false := by
    rw [ShellWord.openQuote, hsaw]
    rfl
  refine .settled hcandidate fun rest => ?_
  rw [append_assoc, singleton_append]
  cases h with
  | settled hplain hall => exact hall _
  | opening _ hsaw hcurrent hfree =>
    rw [opensText_append hfree (by cases k <;> simp [ShellQuote.mark, isOpening, isQuoteMark]),
      show w.openQuote.sawAssignmentEquals = false from hsaw]
    cases k <;> rfl

theorem FirstWord.push {r} (h : FirstWord r w none) (hblank : isShellBlank u = false) (hmark : isQuoteMark u = false) :
    FirstWord (r ++ [u]) (w.push u) none := by
  unfold ShellWord.push
  cases h with
  | settled hplain hall =>
    have hall (rest : JsStr) : opensText (r ++ [u] ++ rest) = !w.sawAssignmentEquals := by
      rw [append_assoc]
      exact hall _
    split_ifs with hequals
    · rw [hplain hequals.2]
      exact .settled (fun _ => rfl) fun rest => by rw [hall, hequals.2]; rfl
    · exact .settled hplain hall
  | opening hcandidate hsaw hcurrent hfree =>
    split_ifs with hequals
    · obtain ⟨rfl, -⟩ := hequals
      rw [hcandidate, hcurrent, Bool.true_and]
      refine .settled id fun rest => ?_
      rw [append_assoc, singleton_append, opensText_append hfree (by simp [isOpening])]
      rfl
    · have hne : u ≠ ascii '=' := fun hu => hequals ⟨hu, hsaw⟩
      refine .opening hcandidate hsaw (by rw [hcurrent]) fun v hv => ?_
      rcases mem_append.mp hv with hv | hv
      · exact hfree v hv
      · rw [mem_singleton.mp hv, isOpening, hblank, hmark, bne_iff_ne.mpr hne]
        rfl

theorem InMode.ne_bare_none (hm : InMode q w m') (hstarted : w.wordStarted = true) : m' ≠ .bare none := by
  cases hm with
  | bare hagree =>
    rintro ⟨⟩
    exact absurd (hagree.started.trans hstarted) Bool.false_ne_true
  | quoted k => cases k <;> simp [quoteMode]

theorem InMode.wordStarted {k} (hm : InMode (some k) w m) : w.wordStarted = true := by
  cases hm with
  | quoted k hagree => exact hagree.started.symm

/-- A unit either ends the first word or is read as part of it. -/
theorem FirstWord.parseStep {r} (h : FirstWord r w q) (hm : InMode q w m) (hp : ParseStep w words u q q' w' words')
    (hplain : plainFrom (q.map ShellQuote.mark) (!w.wordStarted) (u :: t) = true) :
    (q = none ∧ w' = {} ∧ isShellBlank u = true ∧ isJsWhitespace u = true) ∨
      w'.wordStarted = true ∧ FirstWord (r ++ [u]) w' q' := by
  cases hp with
  | close | quoted =>
    cases h with
    | settled hcandidate hall =>
      exact .inr ⟨hm.wordStarted, .settled hcandidate fun rest => by rw [append_assoc]; exact hall _⟩
  | opens k hu => exact .inr ⟨rfl, hu ▸ h.openQuote k⟩
  | blank hblank hline =>
    rw [Option.map_none, plainFrom, isQuoteMark_of_isJsWhitespace hblank, hblank] at hplain
    exact .inl ⟨rfl, rfl, (Bool.and_eq_true_iff.mp hplain).1, hblank⟩
  | letter hmark hpass hblank =>
    exact .inr ⟨wordStarted_push w u, h.push (isShellBlank_eq_false hblank) hmark⟩

/-- The first word that bash reads is an assignment or reserved as the text says. -/
theorem head_wordsRead {r} (hm : InMode q w m) (hfirst : FirstWord r w q)
    (hstart : w.wordStarted = false → ∃ u s', s = u :: s' ∧ isJsWhitespace u = false) (h : Parses q w words s ws)
    (hplain : plainFrom (q.map ShellQuote.mark) (!w.wordStarted) s = true) :
    ∃ word rest, wordsRead false m (s.map .unit) = word :: rest ∧
      opensText (r ++ s) = (!word.assigned && !word.isReserved) := by
  induction h generalizing m r with
  | done hpost =>
    cases hm with
    | @bare _ cur hagree =>
      have hblank := isShellBlank_of_plainFrom hpost hplain
      cases cur with
      | none =>
        obtain ⟨u, s', rfl, hu⟩ := hstart hagree.started.symm
        exact absurd (hpost u mem_cons_self) (Bool.eq_false_iff.mp hu)
      | some word =>
        refine ⟨word, [], wordsRead_blanks false _ hblank, hfirst.ends hagree fun u hu => ?_⟩
        exact hblank u (mem_of_mem_head? hu)
  | step hp h ih =>
    obtain ⟨out, m', hm', hstep, -, hrest⟩ := step_of_parseStep hm hp hplain
    rw [map_cons, wordsRead_step hstep]
    rcases hfirst.parseStep hm hp hplain with ⟨rfl, rfl, hshell, hwhite⟩ | ⟨hstarted, hnext⟩
    · cases hm with
      | @bare _ cur hagree =>
        cases cur with
        | none =>
          obtain ⟨v, s', hs, hv⟩ := hstart hagree.started.symm
          cases hs
          exact absurd hwhite (Bool.eq_false_iff.mp hv)
        | some word =>
          obtain ⟨stops, -, hblank⟩ := step_blank false (some word) hshell
          rw [hblank] at hstep
          cases hstep
          refine ⟨word, _, rfl, hfirst.ends hagree fun v hv => ?_⟩
          exact Option.some.inj hv ▸ hshell
    · obtain ⟨word, rest, hread, hopens⟩ :=
        ih hm' hnext (fun hno => absurd (hno.symm.trans hstarted) Bool.false_ne_true) hrest
      rw [append_assoc, singleton_append] at hopens
      exact ⟨word, rest, by rw [ended_eq_nil (hm'.ne_bare_none hstarted), nil_append, hread], hopens⟩

theorem Parses.of_white (h : Parses none {} [] (u :: s) ws) (hu : isJsWhitespace u = true) :
    Parses none {} [] s ws := by
  cases h with
  | done hpost => exact .done (forall_mem_cons.mp hpost).2
  | step hp h =>
    cases hp with
    | blank => exact h
    | opens k hk =>
      have hmark := isQuoteMark_of_isJsWhitespace hu
      rw [hk, isQuoteMark_mark] at hmark
      cases hmark
    | letter _ _ hwhite => exact absurd hu (Bool.eq_false_iff.mp hwhite)

section

variable {ν : Type} {env : StateEnv ν} {command : JsStr} {allowedPrefixes : Option (List JsStr)}
  {profile : BashRestrictionProfile}

theorem exists_wordsRead (h : Parses none {} [] command ws) (hne : ws ≠ [])
    (hplain : plainlySeparated command = true) :
    ∃ word rest, wordsRead false (.bare none) (command.map .unit) = word :: rest ∧
      startsPlainly command = (!word.assigned && !word.isReserved) := by
  induction command with
  | nil =>
    cases h
    exact absurd rfl hne
  | cons u s ih =>
    cases hwhite : isJsWhitespace u with
    | true =>
      rw [plainlySeparated, plainFrom, isQuoteMark_of_isJsWhitespace hwhite, hwhite] at hplain
      obtain ⟨hshell, hrest⟩ := Bool.and_eq_true_iff.mp hplain
      obtain ⟨word, rest, hread, hstarts⟩ := ih (h.of_white hwhite) hrest
      obtain ⟨stops, -, hstep⟩ := step_blank false none hshell
      refine ⟨word, rest, ?_, ?_⟩
      · rw [map_cons, wordsRead_step hstep, hread]
        rfl
      · rwa [startsPlainly, dropWhile_cons_of_pos hshell]
    | false =>
      have hfirst : FirstWord [] {} none := .opening rfl rfl rfl fun u hu => absurd hu not_mem_nil
      rw [startsPlainly, dropWhile_cons_of_neg (Bool.eq_false_iff.mp (isShellBlank_eq_false hwhite))]
      exact head_wordsRead (.bare Agree.start) hfirst (fun _ => ⟨u, s, rfl, hwhite⟩) h hplain

/-- The words that run are the words that were checked exactly if the command is plainly separated
and starts plainly. -/
theorem checkBashAllowedPrefixes_executed_iff (hne : normalizedPrefixes allowedPrefixes ≠ [])
    (h : checkBashAllowedPrefixes env command allowedPrefixes profile = .ok ()) :
    (∃ args, simpleCommand false command = some args ∧ args = (parseShellWords (trim command)).words ∧
        checkWords env (normalizedPrefixes allowedPrefixes) profile args = .ok ()) ↔
      plainlySeparated command = true ∧ startsPlainly command = true := by
  obtain ⟨hparse, hwords, hcheck⟩ := parse_of_checkBashAllowedPrefixes hne h
  replace hparse := parses_of_parseShellWords hparse
  constructor
  · rintro ⟨args, hsimple, rfl, -⟩
    unfold simpleCommand at hsimple
    split at hsimple
    · next words hbash =>
      simp only at hsimple
      split_ifs at hsimple with hreserved
      injection hsimple with hdrop
      have hnone := takeWhile_assigned_eq_nil hparse hbash hdrop
      have hall := takeWhile_append_dropWhile (p := (·.assigned)) (l := wordsRead false (.bare none) (command.map .unit))
      rw [hnone, nil_append] at hall
      rw [hall, ← words_of_bashCommands hbash] at hdrop
      have hplain := plainlySeparated_of_bashCommands hparse (hdrop ▸ hbash)
      obtain ⟨word, rest, hread, hstarts⟩ := exists_wordsRead hparse hwords hplain
      rw [hread] at hnone hreserved
      have hassigned : word.assigned = false := by
        by_contra htrue
        rw [takeWhile_cons_of_pos (by simpa using htrue)] at hnone
        cases hnone
      have hreserved : word.isReserved = false := Bool.eq_false_iff.mpr hreserved
      rw [hstarts, hassigned, hreserved]
      exact ⟨hplain, rfl⟩
    · cases hsimple
  · rintro ⟨hplain, hstart⟩
    obtain ⟨word, rest, hread, hstarts⟩ := exists_wordsRead hparse hwords hplain
    rw [hstarts, Bool.and_eq_true, Bool.not_eq_true', Bool.not_eq_true'] at hstart
    refine ⟨_, ?_, rfl, hcheck⟩
    have hbash := bashCommands_of_plainlySeparated hparse hwords hplain
    have hall : (word :: rest).dropWhile (·.assigned) = word :: rest := dropWhile_cons_of_neg (by simp [hstart.1])
    rw [simpleCommand, hbash, words_of_bashCommands hbash]
    simp only [hread, hall, head?_cons, Option.any_some, hstart.2]
    rfl

end

def emptyStateEnv : StateEnv Nat := ⟨fun _ => [], fun _ => none⟩

theorem checkBashAllowedPrefixes_write : ∃ args, simpleCommand false (lit "gjc ralplan --write") = some args ∧
      args = (parseShellWords (trim (lit "gjc ralplan --write"))).words ∧
      checkWords emptyStateEnv (normalizedPrefixes (some [lit "gjc"])) .workflow args = .ok () := by
  have hne : normalizedPrefixes (some [lit "gjc"]) ≠ [] := by decide +kernel
  have h : checkBashAllowedPrefixes emptyStateEnv (lit "gjc ralplan --write") (some [lit "gjc"]) .workflow =
      .ok () := by decide +kernel
  exact (checkBashAllowedPrefixes_executed_iff hne h).mpr (by decide +kernel)

/-- `gjc ralplan # --write` is accepted, but what runs has no `--write`. -/
theorem checkBashAllowedPrefixes_comment :
    checkBashAllowedPrefixes emptyStateEnv (lit "gjc ralplan # --write") (some [lit "gjc"]) .workflow =
        .ok () ∧ simpleCommand false (lit "gjc ralplan # --write") = some [lit "gjc", lit "ralplan"] ∧
      (parseShellWords (trim (lit "gjc ralplan # --write"))).words =
        [lit "gjc", lit "ralplan", lit "#", lit "--write"] := by
  decide +kernel

end GajaeCode.Tools
