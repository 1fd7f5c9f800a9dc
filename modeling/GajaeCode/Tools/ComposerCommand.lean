import GajaeCode.Shell.Bash
import GajaeCode.Tools.ComposerBashPolicy

/-! What bash runs of a command that the composer policy lets through. The policy looks at the text
with every run of white space made one space; bash separates words at spaces and tabs only and ends
a command at a line feed. -/
namespace GajaeCode.Tools

open Text Shell
open List hiding lex
open Text.RegExp (whole Matches)

def isBlank (u : UInt16) : Bool := u == ascii ' ' || u == ascii '\t'

/-- The units that are not an ordinary letter in every place. -/
def specials : List UInt16 := lit " \t\n;'\"\\#|&<>()$`*?[\x7b~"

/-- Nothing but spaces, tabs and line feeds is trimmed, and no line feed is left. -/
def separatesAsBash (command : JsStr) : Bool :=
  !(trim command).contains LF && (command.takeWhile isJsWhitespace).all isShellBlank &&
    (command.reverse.takeWhile isJsWhitespace).all isShellBlank

/-- `words.join(" ")`. -/
def joinWords (ws : List JsStr) : JsStr := [ascii ' '].intercalate ws

section

variable {u : UInt16}

theorem isLetter_of_notMem (hu : u ∉ specials) (cur : Option Word) : IsLetter true cur u where
  blank h := hu (by rcases h with rfl | rfl <;> decide +kernel)
  stop h := hu (by rcases h with rfl | ⟨-, rfl⟩ <;> decide +kernel)
  single h := hu (by rw [h]; decide +kernel)
  double h := hu (by rw [h]; decide +kernel)
  escape h := hu (by rw [h]; decide +kernel)
  comment h := hu (by rw [h.1]; decide +kernel)
  special h := by
    have hsub : ((operators ++ expanders).all fun v => specials.contains v) = true := by decide +kernel
    have hmem : u ∈ operators ++ expanders := by simpa using h
    exact hu (contains_iff_mem.mp (all_eq_true.mp hsub u hmem))
  tilde h := hu (by rw [h.1]; decide +kernel)

theorem notMem_specials {p : UInt16 → Bool} (hall : specials.all p = true) (hu : p u = false) : u ∉ specials :=
  fun hmem => Bool.eq_false_iff.mp hu (all_eq_true.mp hall u hmem)

theorem notMem_of_argument (hu : argumentClass.has u = true) : u ∉ specials :=
  notMem_specials (p := fun v => !argumentClass.has v) (by decide +kernel) (by rw [hu]; rfl)

theorem notMem_of_whitespace (hu : isJsWhitespace u = true) (hodd : isShellBlank u = false) : u ∉ specials :=
  notMem_specials (p := fun v => !isJsWhitespace v || isShellBlank v) (by decide +kernel) (by rw [hu, hodd]; rfl)

theorem isShellBlank_of_notMem (hu : u ∉ specials) : isShellBlank u = false := by
  refine Bool.eq_false_iff.mpr fun h => hu ?_
  simp only [isShellBlank, Bool.or_eq_true, beq_iff_eq] at h
  rcases h with (rfl | rfl) | rfl <;> decide +kernel

theorem isShellBlank_iff : isShellBlank u = true ↔ isBlank u = true ∨ u = LF := by
  simp [isShellBlank, isBlank]

theorem whitespace_of_isBlank (hu : isBlank u = true) : isJsWhitespace u = true := by
  simp only [isBlank, Bool.or_eq_true, beq_iff_eq] at hu
  rcases hu with rfl | rfl <;> decide

end

section

variable {u : UInt16} {cur : Option Word}

theorem step_letter (hu : u ∉ specials) :
    step true (.bare cur) (.unit u) = some ([], .bare (some ((begun cur).push u))) := by
  rw [step, (isLetter_of_notMem hu cur).role_eq]

theorem step_isBlank (hu : isBlank u = true) : step true (.bare cur) (.unit u) = some (endWord cur, .bare none) :=
  step_space (by simpa [isBlank] using hu)

/-- A text of letters and separators is always read, and all its letters are kept. -/
theorem exists_read {s : JsStr} (hs : ∀ u ∈ s, isShellBlank u = true ∨ u ∉ specials) (cur : Option Word) :
    ∃ out cur', (∀ rest, lex true (.bare cur) (s.map .unit ++ rest) = (lex true (.bare cur') rest).map (out ++ ·)) ∧
      letters out ++ currentText cur' = currentText cur ++ s.filter fun u => !isShellBlank u := by
  induction s generalizing cur with
  | nil => exact ⟨[], cur, fun rest => by simp, by simp⟩
  | cons u s ih =>
    obtain ⟨hu, hs⟩ := forall_mem_cons.mp hs
    have hcons (out : List Token) (next : Option Word)
        (hstep : step true (.bare cur) (.unit u) = some (out, .bare next))
        (hletters : letters out ++ currentText next = currentText cur ++ [u].filter fun u => !isShellBlank u) :
        ∃ out cur', (∀ rest, lex true (.bare cur) ((u :: s).map .unit ++ rest) =
            (lex true (.bare cur') rest).map (out ++ ·)) ∧
          letters out ++ currentText cur' = currentText cur ++ (u :: s).filter fun u => !isShellBlank u := by
      obtain ⟨out', cur', hlex, hrest⟩ := ih hs next
      refine ⟨out ++ out', cur', fun rest => ?_, ?_⟩
      · rw [map_cons, cons_append, lex_step hstep, hlex, Option.map_map]
        congr 1
        funext ts
        exact (append_assoc ..).symm
      · rw [letters_append, append_assoc, hrest, ← append_assoc, hletters, append_assoc,
          ← filter_append, singleton_append]
    by_cases hspecial : u ∈ specials
    · have hspace := hu.resolve_right (not_not_intro hspecial)
      have hnone : ([u].filter fun u => !isShellBlank u) = [] := by simp [hspace]
      rw [isShellBlank_iff] at hspace
      rcases hspace with hblank | rfl
      · exact hcons _ none (step_isBlank hblank) (by rw [hnone]; simp)
      · exact hcons _ none step_lineFeed (by rw [hnone]; simp [letters_append])
    · refine hcons _ _ (step_letter hspecial) ?_
      simp [isShellBlank_of_notMem hspecial, render_append]

theorem lex_eq_of_read {s : JsStr} {out cur'}
    (h : ∀ rest, lex true (.bare cur) (s.map .unit ++ rest) = (lex true (.bare cur') rest).map (out ++ ·)) :
    lex true (.bare cur) (s.map .unit) = some (out ++ endWord cur') := by
  have hnil := h []
  rwa [append_nil] at hnil

theorem joinWords_cons {ws : List JsStr} (h : ws ≠ []) (w : JsStr) :
    joinWords (w :: ws) = w ++ ascii ' ' :: joinWords ws := by
  cases ws with
  | nil => exact absurd rfl h
  | cons v ws => simp [joinWords, List.intercalate]

theorem lex_line {s post : JsStr} (hs : ∀ u ∈ s, isBlank u = true ∨ u ∉ specials)
    (hpost : ∀ u ∈ post, isShellBlank u = true) (cur : Option Word)
    (hlast : ∀ u, s.getLast? = some u → isBlank u = false) (hnil : s = [] → cur ≠ none) :
    ∃ ws stops, ws ≠ [] ∧ (∀ t ∈ stops, t = Token.stop) ∧
      lex true (.bare cur) ((s ++ post).map .unit) = some (ws.map .word ++ stops) ∧
      joinWords (ws.map (render id)) = currentText cur ++ squeezeFrom isBlank cur.isNone s := by
  induction s generalizing cur with
  | nil =>
    obtain ⟨w, rfl⟩ := Option.ne_none_iff_exists'.mp (hnil rfl)
    obtain ⟨stops, hstops, hlex⟩ := lex_blanks true (some w) hpost
    exact ⟨[w.text], stops, cons_ne_nil _ _, hstops, hlex, by simp [joinWords, squeezeFrom]⟩
  | cons u s ih =>
    obtain ⟨hu, hs⟩ := forall_mem_cons.mp hs
    have htail : ∀ v, s.getLast? = some v → isBlank v = false := by
      intro v hv
      refine hlast v ?_
      rw [getLast?_cons, hv]
      rfl
    by_cases hblank : isBlank u = true
    · have hne : s ≠ [] := by
        rintro rfl
        simp [hlast u rfl] at hblank
      obtain ⟨ws, stops, hws, hstops, hlex, hjoin⟩ := ih hs none htail fun h => absurd h hne
      rw [cons_append, map_cons, lex_step (step_isBlank hblank), hlex, squeezeFrom, if_pos hblank]
      cases cur with
      | none => exact ⟨ws, stops, hws, hstops, rfl, hjoin⟩
      | some w =>
        refine ⟨w.text :: ws, stops, cons_ne_nil _ _, hstops, rfl, ?_⟩
        rw [map_cons, joinWords_cons (by simpa using hws), hjoin]
        rfl
    · have hletter := hu.resolve_left hblank
      obtain ⟨ws, stops, hws, hstops, hlex, hjoin⟩ := ih hs (some ((begun cur).push u)) htail fun _ => Option.some_ne_none _
      refine ⟨ws, stops, hws, hstops, ?_, ?_⟩
      · rw [cons_append, map_cons, lex_step (step_letter hletter), hlex]
        rfl
      · rw [hjoin, squeezeFrom, if_neg hblank]
        simp [render_append]

end

theorem commandsFrom_append_stop (words : List WordText) (ts us : List Token) :
    commandsFrom words (ts ++ .stop :: us) = commandsFrom words ts ++ commandsFrom [] us := by
  induction ts generalizing words with
  | nil => rfl
  | cons t ts ih =>
    cases t with
    | word w => exact ih _
    | stop => rw [cons_append, commandsFrom, ih, commandsFrom, append_assoc]

theorem commandsFrom_words (words ws : List WordText) {stops} (h : ∀ t ∈ stops, t = .stop) :
    commandsFrom words (ws.map .word ++ stops) = endCommand (words ++ ws) := by
  induction ws generalizing words with
  | nil => rw [append_nil, map_nil, nil_append, commandsFrom_stops words h]
  | cons w ws ih => rw [map_cons, cons_append, commandsFrom, ih, append_assoc]; rfl

theorem commandsFrom_ne_nil {ts} (h : letters ts ≠ []) : commandsFrom [] ts ≠ [] := by
  intro hnil
  have hflat := flatten_commandsFrom [] ts
  rw [hnil, nil_append] at hflat
  exact h (by rw [letters, ← hflat]; rfl)

theorem head_joinWords {ws v} (h : (joinWords ws).head? = some v) : v = ascii ' ' ∨ ws.flatten.head? = some v := by
  cases ws with
  | nil => cases h
  | cons w ws =>
    cases w with
    | cons u w =>
      cases ws <;> exact .inr h
    | nil =>
      cases ws with
      | nil => cases h
      | cons w' ws =>
        have hv : some (ascii ' ') = some v := h
        exact .inl (Option.some.inj hv).symm

theorem getLast_joinWords {ws v} (h : (joinWords ws).getLast? = some v) :
    v = ascii ' ' ∨ ws.flatten.getLast? = some v := by
  induction ws with
  | nil => cases h
  | cons w ws ih =>
    cases ws with
    | nil => exact .inr (by simpa [joinWords] using h)
    | cons w' ws =>
      rw [joinWords_cons (cons_ne_nil _ _), getLast?_append_of_ne_nil _ (cons_ne_nil _ _)] at h
      cases hrest : joinWords (w' :: ws) with
      | nil =>
        rw [hrest] at h
        exact .inl (Option.some.inj h).symm
      | cons x xs =>
        rw [hrest] at ih h
        have hlast : (x :: xs).getLast? = some v := by simpa [getLast?_cons] using h
        refine (ih hlast).imp_right fun hflat => ?_
        rw [flatten_cons, getLast?_append, hflat]
        rfl

section

variable {command : JsStr} {body : RegExp} {ws : List JsStr}

/-- What the expressions of the terminal commands are checked for, in one evaluation of the list. -/
structure IsTerminal (body : RegExp) : Prop where
  plain : body.plain = true
  writtenIn : body.writtenIn (argumentClass.union spaceClass) = true
  nullable : body.nullable = false
  opens : body.opensOutside spaceClass = true
  closes : body.closesOutside spaceClass = true
  elastic : body.elastic spaceClass = true

theorem isTerminal_of_mem (hbody : body ∈ terminalCommands) : IsTerminal body := by
  have hall : (terminalCommands.all fun body =>
      body.plain && body.writtenIn (argumentClass.union spaceClass) && !body.nullable &&
        body.opensOutside spaceClass && body.closesOutside spaceClass && body.elastic spaceClass) = true := by
    decide +kernel
  have h := all_eq_true.mp hall body hbody
  simp only [Bool.and_eq_true, Bool.not_eq_true'] at h
  obtain ⟨⟨⟨⟨⟨hplain, hwritten⟩, hnullable⟩, hopens⟩, hcloses⟩, helastic⟩ := h
  exact ⟨hplain, hwritten, hnullable, hopens, hcloses, helastic⟩

theorem matchesAllowed_iff (text : JsStr) :
    matchesAllowed text = true ↔ ∃ body ∈ terminalCommands, Matches body text := by
  simp only [matchesAllowed, allowedTerminalPatterns, any_map, any_eq_true, Function.comp_apply]
  constructor
  · rintro ⟨body, hbody, htest⟩
    exact ⟨body, hbody, (RegExp.test_whole (isTerminal_of_mem hbody).plain text).mp htest⟩
  · rintro ⟨body, hbody, hmatch⟩
    exact ⟨body, hbody, (RegExp.test_whole (isTerminal_of_mem hbody).plain text).mpr hmatch⟩

theorem ends_of_matches (hbody : body ∈ terminalCommands) {text} (h : Matches body text) :
    text ≠ [] ∧ (∀ u, text.head? = some u → isJsWhitespace u = false) ∧
      ∀ u, text.getLast? = some u → isJsWhitespace u = false := by
  refine ⟨fun hnil => ?_, fun u hu => ?_, fun u hu => ?_⟩
  · have hnullable := (isTerminal_of_mem hbody).nullable
    rw [h.nullable hnil] at hnullable
    cases hnullable
  · rw [← has_spaceClass]
    exact h.head_outside (isTerminal_of_mem hbody).opens hu
  · rw [← has_spaceClass]
    exact h.last_outside (isTerminal_of_mem hbody).closes hu

theorem units_of_matches (hbody : body ∈ terminalCommands) (h : Matches body (normalizeTerminalCommand command)) :
    ∀ u ∈ command, isShellBlank u = true ∨ u ∉ specials := by
  intro u hu
  by_cases hspace : isShellBlank u = true
  · exact .inl hspace
  · refine .inr ?_
    cases hwhite : isJsWhitespace u with
    | true => exact notMem_of_whitespace hwhite (Bool.eq_false_iff.mpr hspace)
    | false =>
      obtain ⟨pre, post, hcommand, hpre, hpost⟩ := exists_trim_append command
      have hcore : u ∈ trim command := by
        rw [hcommand, mem_append, mem_append] at hu
        rcases hu with (hu | hu) | hu
        · simp [hpre u hu] at hwhite
        · exact hu
        · simp [hpost u hu] at hwhite
      have hmem : u ∈ normalizeTerminalCommand command := mem_squeezeFrom hwhite hcore false
      have hhas := h.writtenIn (isTerminal_of_mem hbody).writtenIn u hmem
      rw [UnitClass.has_union rfl rfl, has_spaceClass, hwhite] at hhas
      exact notMem_of_argument (hhas.resolve_right Bool.false_ne_true)

/-- What `trim` takes off a command, and the command that is left. -/
structure Trimmed (command pre core post : JsStr) : Prop where
  eq : command = pre ++ (core ++ post)
  pre : ∀ u ∈ pre, isJsWhitespace u = true
  post : ∀ u ∈ post, isJsWhitespace u = true
  ne : core ≠ []
  head : ∀ u, core.head? = some u → isJsWhitespace u = false
  last : ∀ u, core.getLast? = some u → isJsWhitespace u = false

theorem exists_trimmed (hbody : body ∈ terminalCommands) (h : Matches body (normalizeTerminalCommand command)) :
    ∃ pre post, Trimmed command pre (trim command) post := by
  obtain ⟨pre, post, hcommand, hpre, hpost⟩ := exists_trim_append command
  rw [append_assoc] at hcommand
  refine ⟨pre, post, hcommand, hpre, hpost, ?_, fun u hu => head_trim hu, fun u hu => getLast_trim hu⟩
  intro hnil
  refine (ends_of_matches hbody h).1 ?_
  rw [normalizeTerminalCommand, hnil]
  rfl

section

variable {pre core post : JsStr}

theorem Trimmed.takeWhile_pre (h : Trimmed command pre core post) : command.takeWhile isJsWhitespace = pre := by
  cases hcore : core with
  | nil => exact absurd hcore h.ne
  | cons u core =>
    have hu := h.head u (by rw [hcore]; rfl)
    rw [h.eq, takeWhile_append_of_pos h.pre, hcore, cons_append, takeWhile_cons_of_neg (by simp [hu]), append_nil]

theorem Trimmed.takeWhile_post (h : Trimmed command pre core post) :
    command.reverse.takeWhile isJsWhitespace = post.reverse := by
  obtain ⟨init, u, hcore⟩ := (eq_nil_or_concat' core).resolve_left h.ne
  have hu := h.last u (by rw [hcore, getLast?_concat])
  have hpost : ∀ v ∈ post.reverse, isJsWhitespace v = true := fun v hv => h.post v (mem_reverse.mp hv)
  rw [h.eq, reverse_append, reverse_append, append_assoc, takeWhile_append_of_pos hpost,
    hcore, reverse_concat, cons_append, takeWhile_cons_of_neg (by simp [hu]), append_nil]

theorem separatesAsBash_iff (h : Trimmed command pre (trim command) post) :
    separatesAsBash command = true ↔ LF ∉ trim command ∧ (∀ u ∈ pre, isShellBlank u = true) ∧
      ∀ u ∈ post, isShellBlank u = true := by
  rw [separatesAsBash, h.takeWhile_pre, h.takeWhile_post]
  simp [and_assoc]

variable (hunits : ∀ u ∈ command, isShellBlank u = true ∨ u ∉ specials) (hbash : bashCommands true command = some [ws])
include hunits

/-- With the words of one line bash runs the normalized command up to white space of its own. -/
theorem bashCommands_of_separated (h : Trimmed command pre core post) (hline : LF ∉ core)
    (hpre : ∀ u ∈ pre, isShellBlank u = true) (hpost : ∀ u ∈ post, isShellBlank u = true) :
    ∃ ws, bashCommands true command = some [ws] ∧ joinWords ws = squeeze isBlank core := by
  have hcore : ∀ u ∈ core, isBlank u = true ∨ u ∉ specials := by
    intro u hu
    rcases hunits u (by rw [h.eq]; simp [hu]) with hspace | hletter
    · rw [isShellBlank_iff] at hspace
      exact .inl (hspace.resolve_right fun hLF => hline (hLF ▸ hu))
    · exact .inr hletter
  have hnotBlank {u : UInt16} (hu : isJsWhitespace u = false) : isBlank u = false := by
    refine Bool.eq_false_iff.mpr fun hblank => ?_
    rw [whitespace_of_isBlank hblank] at hu
    cases hu
  obtain ⟨ws, stops, hws, hstops, hlex, hjoin⟩ :=
    lex_line hcore hpost none (fun u hu => hnotBlank (h.last u hu)) fun hnil => absurd hnil h.ne
  obtain ⟨front, hfront, htokens⟩ : ∃ front, (∀ t ∈ front, t = Token.stop) ∧
      lex true (.bare none) (command.map .unit) = some (front ++ (ws.map .word ++ stops)) := by
    rw [h.eq, map_append]
    by_cases hnil : pre = []
    · exact ⟨[], nofun, by rw [hnil, map_nil, nil_append, hlex]; rfl⟩
    · obtain ⟨front, hfront, hrest⟩ := lex_blanks_append true none hnil hpre ((core ++ post).map .unit)
      exact ⟨front, hfront, by rw [hrest, hlex]; rfl⟩
  refine ⟨ws.map (render id), ?_, ?_⟩
  · rw [bashCommands, readCommands, htokens, Option.map_some, commandsFrom_nil_stops hfront,
      commandsFrom_words _ _ hstops, nil_append, endCommand, if_neg hws]
    rfl
  · rw [hjoin]
    cases hc : core with
    | nil => exact absurd hc h.ne
    | cons u core =>
      have hu := hnotBlank (h.head u (by rw [hc]; rfl))
      simp [squeeze, squeezeFrom, hu]

include hbash

theorem filter_of_bashCommands : ws.flatten = command.filter fun u => !isShellBlank u := by
  obtain ⟨ts, hlex, hletters⟩ := letters_of_bashCommands hbash
  obtain ⟨out, cur, hread, hkept⟩ := exists_read hunits none
  rw [lex_eq_of_read hread] at hlex
  cases hlex
  rw [← hletters, letters_append, letters_end, hkept, currentText_none, nil_append]

theorem LF_notMem_of_bashCommands (h : Trimmed command pre core post) : LF ∉ core := by
  intro hmem
  have hLF : isJsWhitespace LF = true := by decide
  obtain ⟨a, b, rfl⟩ := append_of_mem hmem
  have hcut : command = (pre ++ a) ++ LF :: (b ++ post) := by
    rw [h.eq]
    simp
  have hkeeps {s : JsStr} {u : UInt16} (hs : u ∈ s) (hu : isJsWhitespace u = false) :
      (s.filter fun v => !isShellBlank v) ≠ [] := by
    refine ne_nil_of_mem (mem_filter.mpr ⟨hs, ?_⟩)
    cases hspace : isShellBlank u with
    | false => rfl
    | true =>
      rw [isShellBlank_iff] at hspace
      rcases hspace with hblank | rfl
      · simp [whitespace_of_isBlank hblank] at hu
      · simp [hLF] at hu
  -- both sides of the line feed hold a letter of the trimmed text
  have hfront : ((pre ++ a).filter fun v => !isShellBlank v) ≠ [] := by
    cases a with
    | nil =>
      have hu := h.head LF rfl
      cases hu
    | cons u a => exact hkeeps (mem_append_right _ mem_cons_self) (h.head u rfl)
  have hback : ((b ++ post).filter fun v => !isShellBlank v) ≠ [] := by
    obtain rfl | ⟨init, u, rfl⟩ := eq_nil_or_concat' b
    · have hu := h.last LF (by simp)
      cases hu
    · refine hkeeps (mem_append_left _ mem_concat_self) (h.last u ?_)
      rw [← cons_append, ← append_assoc, getLast?_concat]
  rw [hcut, forall_mem_append, forall_mem_cons] at hunits
  obtain ⟨outA, curA, hreadA, hkeptA⟩ := exists_read hunits.1 none
  obtain ⟨outB, curB, hreadB, hkeptB⟩ := exists_read hunits.2.2 none
  have hlex : lex true (.bare none) (command.map .unit) =
      some ((outA ++ endWord curA) ++ .stop :: (outB ++ endWord curB)) := by
    rw [hcut, map_append, hreadA, map_cons, lex_step step_lineFeed, lex_eq_of_read hreadB]
    simp
  rw [bashCommands, readCommands, hlex, Option.map_some, commandsFrom_append_stop] at hbash
  have hone := congrArg List.length (Option.some.inj hbash)
  have hpos {out : List Token} {cur : Option Word} (hne : letters out ++ currentText cur ≠ []) :
      0 < (commandsFrom [] (out ++ endWord cur)).length := by
    refine length_pos_iff.mpr (commandsFrom_ne_nil ?_)
    rwa [letters_append, letters_end]
  have hlenA := hpos (hkeptA.trans_ne hfront)
  have hlenB := hpos (hkeptB.trans_ne hback)
  rw [length_map, length_append, length_singleton] at hone
  omega

/-- White space that bash takes for letters stays at the ends of the words. -/
theorem spacing_of_matches (h : Trimmed command pre core post) (hbody : body ∈ terminalCommands)
    (hmatch : Matches body (joinWords ws)) :
    (∀ u ∈ pre, isShellBlank u = true) ∧ ∀ u ∈ post, isShellBlank u = true := by
  obtain ⟨hne, hhead, hlast⟩ := ends_of_matches hbody hmatch
  have hflat := filter_of_bashCommands hunits hbash
  rw [h.eq, filter_append, filter_append] at hflat
  have hsp : isJsWhitespace (ascii ' ') = true := by decide
  constructor
  · obtain ⟨v, hv⟩ := Option.ne_none_iff_exists'.mp (mt head?_eq_none_iff.mp hne)
    have hwhite := hhead v hv
    have hfirst := (head_joinWords hv).resolve_left fun heq => by simp [heq, hsp] at hwhite
    cases hodd : pre.filter fun u => !isShellBlank u with
    | nil => simpa using hodd
    | cons w odd =>
      rw [hflat, hodd] at hfirst
      obtain rfl : w = v := Option.some.inj hfirst
      have hmem : w ∈ pre.filter fun u => !isShellBlank u := by rw [hodd]; exact mem_cons_self
      rw [h.pre w (mem_filter.mp hmem).1] at hwhite
      cases hwhite
  · obtain ⟨v, hv⟩ := Option.ne_none_iff_exists'.mp (mt getLast?_eq_none_iff.mp hne)
    have hwhite := hlast v hv
    have hend := (getLast_joinWords hv).resolve_left fun heq => by simp [heq, hsp] at hwhite
    obtain hodd | ⟨odd, w, hodd⟩ := eq_nil_or_concat' (post.filter fun u => !isShellBlank u)
    · simpa using hodd
    · rw [hflat, hodd, ← append_assoc, ← append_assoc, getLast?_concat] at hend
      obtain rfl : w = v := Option.some.inj hend
      have hmem : w ∈ post.filter fun u => !isShellBlank u := by rw [hodd]; exact mem_concat_self
      rw [h.post w (mem_filter.mp hmem).1] at hwhite
      cases hwhite

end

theorem isAllowed_of_checkComposerBashPolicy {input} (hmodel : isComposerBashPolicyModel input.modelId = true)
    (h : checkComposerBashPolicy input = .allowed) (hcommand : command ∈ input.commands) :
    isAllowedComposerTerminalCommand command = true := by
  have hrefusal : refusal command = none := by
    rw [checkComposerBashPolicy, if_pos hmodel] at h
    cases hfind : input.commands.findSome? refusal with
    | none => exact findSome?_eq_none_iff.mp hfind command hcommand
    | some reason =>
      rw [hfind] at h
      cases h
  rw [refusal] at hrefusal
  split at hrefusal
  · cases hrefusal
  · split_ifs at hrefusal with hallowed
    exact hallowed

/-- Bash runs one allowed command exactly if its separators are those the policy sees. -/
theorem checkComposerBashPolicy_one_command_iff {input : ComposerBashPolicyInput}
    (hmodel : isComposerBashPolicyModel input.modelId = true)
    (h : checkComposerBashPolicy input = .allowed) (hcommand : command ∈ input.commands) :
    (∃ ws, bashCommands true command = some [ws] ∧ matchesAllowed (joinWords ws) = true) ↔
      separatesAsBash command = true := by
  have hallowed := isAllowed_of_checkComposerBashPolicy hmodel h hcommand
  obtain ⟨body, hbody, hmatch⟩ := (matchesAllowed_iff _).mp hallowed
  have hunits := units_of_matches hbody hmatch
  obtain ⟨pre, post, htrim⟩ := exists_trimmed hbody hmatch
  rw [separatesAsBash_iff htrim]
  constructor
  · rintro ⟨ws, hbash, hwords⟩
    obtain ⟨body', hbody', hmatch'⟩ := (matchesAllowed_iff _).mp hwords
    exact ⟨LF_notMem_of_bashCommands hunits hbash htrim, spacing_of_matches hunits hbash htrim hbody' hmatch'⟩
  · rintro ⟨hline, hpre, hpost⟩
    obtain ⟨ws, hbash, hjoin⟩ := bashCommands_of_separated hunits htrim hline hpre hpost
    refine ⟨ws, hbash, (matchesAllowed_iff _).mpr ⟨body, hbody, ?_⟩⟩
    have hspace : (isJsWhitespace : UInt16 → Bool) = spaceClass.has := by
      funext u
      exact (has_spaceClass u).symm
    have hblank : isJsWhitespace (ascii ' ') = true := by decide
    have hstretch := (Stretch.of_squeeze hblank (fun u => whitespace_of_isBlank) (trim command)).1
    rw [hspace] at hstretch
    rw [normalizeTerminalCommand, hspace] at hmatch
    rw [hjoin]
    exact hmatch.stretch (isTerminal_of_mem hbody).elastic hstretch

end

theorem checkComposerBashPolicy_bun_test :
    ∃ ws, bashCommands true (lit "\tbun  test a.ts\n") = some [ws] ∧ matchesAllowed (joinWords ws) = true :=
  (@checkComposerBashPolicy_one_command_iff (lit "\tbun  test a.ts\n")
    ⟨some (lit "composer-1"), none, [lit "\tbun  test a.ts\n"]⟩ (by decide +kernel) (by decide +kernel) (by decide +kernel)).mpr (by decide +kernel)

/-- A line feed between two words is one space for the policy and the end of a command for bash. -/
theorem checkComposerBashPolicy_two_commands :
    checkComposerBashPolicy ⟨some (lit "composer-1"), none, [lit "bun test\nreboot"]⟩ = .allowed ∧
      bashCommands true (lit "bun test\nreboot") = some [[lit "bun", lit "test"], [lit "reboot"]] := by
  decide +kernel

end GajaeCode.Tools
