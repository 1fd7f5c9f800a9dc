import GajaeCode.Text.Pattern
import GajaeCode.Text.Scan

/-! Bash's reading of a text as simple commands: words are separated by spaces and tabs, a line feed
ends a command, quotes and backslashes take the special meaning of what they quote, and a `#` at the
start of a word begins a comment. A text with an operator or with anything that may be expanded has
no reading. A `hit` of the text stands for a stretch of ordinary letters. -/
namespace GajaeCode.Shell

open Text List

/-- The text of a word, its quotes removed. -/
abbrev WordText := List (Piece UInt16)

structure Word where
  text : WordText
  /-- Nothing of the word is quoted and it has no `=` yet. -/
  plain : Bool
  assigned : Bool
  /-- A tilde at this place would be expanded. -/
  tilde : Bool
  equals : assigned = true → .unit (ascii '=') ∈ text

def isNamePiece : Piece UInt16 → Bool
  | .unit u => isWord u
  | .hit _ => false

/-- `name` or `name+`. -/
def isAssignmentName (text : WordText) : Bool :=
  match if text.getLast? = some (.unit (ascii '+')) then text.dropLast else text with
  | .unit first :: rest => isWord first && !isDigit first && rest.all isNamePiece
  | _ => false

namespace Word

def start : Word := ⟨[], true, false, false, by simp⟩

def quote (w : Word) : Word := { w with plain := false, tilde := false }

def append (w : Word) (p : Piece UInt16) : Word :=
  { w with text := w.text ++ [p], equals := fun h => mem_append_left _ (w.equals h) }

/-- An unquoted unit; only in an assignment a tilde is expanded behind the `=` and behind a `:`. -/
def push (w : Word) (u : UInt16) : Word :=
  if u = ascii '=' ∧ w.assigned = false then
    let assigns := w.plain && isAssignmentName w.text
    ⟨w.text ++ [.unit (ascii '=')], assigns, assigns, assigns, by simp⟩
  else { w.append (.unit u) with tilde := u = ascii ':' ∧ w.assigned = true }

def pushHit (w : Word) (s : List UInt16) : Word := { w.append (.hit s) with tilde := false }

variable (w : Word)

@[simp] theorem text_quote : w.quote.text = w.text := rfl

@[simp] theorem text_append (p : Piece UInt16) : (w.append p).text = w.text ++ [p] := rfl

@[simp] theorem text_pushHit (s : List UInt16) : (w.pushHit s).text = w.text ++ [.hit s] :=
  rfl

@[simp] theorem text_push (u : UInt16) : (w.push u).text = w.text ++ [.unit u] := by
  unfold push
  split_ifs with h
  · rw [h.1]
  · rfl

end Word

/-- `cur` is the word that the next unit goes to, if one has begun. -/
inductive Mode where
  | bare (cur : Option Word)
  | single (w : Word)
  | double (w : Word)
  | escape (cur : Option Word)
  | doubleEscape (w : Word)
  | comment

inductive Token where
  | word (text : WordText)
  | stop

inductive Role where
  | blank
  | stop
  | single
  | double
  | escape
  | comment
  | refused
  | letter
deriving DecidableEq

def operators : List UInt16 := lit ";|&<>()"

/-- The units that may begin an expansion outside quotes, tildes apart. -/
def expanders : List UInt16 := lit "$`*?[\x7b"

def opensTilde : Option Word → Bool
  | none => true
  | some w => w.tilde

/-- `semi` is whether a `;` is read as the end of a command. -/
def role (semi : Bool) (cur : Option Word) (u : UInt16) : Role :=
  if u = ascii ' ' ∨ u = ascii '\t' then .blank
  else if u = LF ∨ semi = true ∧ u = ascii ';' then .stop
  else if u = ascii '\'' then .single
  else if u = ascii '"' then .double
  else if u = ascii '\\' then .escape
  else if u = ascii '#' ∧ cur.isNone then .comment
  else if operators.contains u || expanders.contains u then .refused
  else if u = ascii '~' ∧ opensTilde cur then .refused
  else .letter

/-- The units that are ordinary letters in a place. -/
structure IsLetter (semi : Bool) (cur : Option Word) (u : UInt16) : Prop where
  blank : ¬(u = ascii ' ' ∨ u = ascii '\t')
  stop : ¬(u = LF ∨ semi = true ∧ u = ascii ';')
  single : u ≠ ascii '\''
  double : u ≠ ascii '"'
  escape : u ≠ ascii '\\'
  comment : ¬(u = ascii '#' ∧ cur.isNone)
  special : ¬(operators.contains u || expanders.contains u) = true
  tilde : ¬(u = ascii '~' ∧ opensTilde cur)

inductive RoleSpec (semi : Bool) (cur : Option Word) (u : UInt16) : Role → Prop where
  | blank (h : u = ascii ' ' ∨ u = ascii '\t') : RoleSpec semi cur u .blank
  | stop (h : u = LF ∨ semi = true ∧ u = ascii ';') : RoleSpec semi cur u .stop
  | single (h : u = ascii '\'') : RoleSpec semi cur u .single
  | double (h : u = ascii '"') : RoleSpec semi cur u .double
  | escape (h : u = ascii '\\') : RoleSpec semi cur u .escape
  | comment (h : u = ascii '#' ∧ cur.isNone) : RoleSpec semi cur u .comment
  | refused : RoleSpec semi cur u .refused
  | letter (h : IsLetter semi cur u) : RoleSpec semi cur u .letter

theorem role_spec (semi : Bool) (cur : Option Word) (u : UInt16) : RoleSpec semi cur u (role semi cur u) := by
  unfold role
  split_ifs with hblank hstop hsingle hdouble hescape hcomment hspecial htilde
  · exact .blank hblank
  · exact .stop hstop
  · exact .single hsingle
  · exact .double hdouble
  · exact .escape hescape
  · exact .comment hcomment
  · exact .refused
  · exact .refused
  · exact .letter ⟨hblank, hstop, hsingle, hdouble, hescape, hcomment, hspecial, htilde⟩

variable {semi : Bool} {ts out : List Token} {m' : Mode}

theorem IsLetter.role_eq {cur u} (h : IsLetter semi cur u) : role semi cur u = .letter := by
  rw [role, if_neg h.blank, if_neg h.stop, if_neg h.single, if_neg h.double, if_neg h.escape,
    if_neg h.comment, if_neg h.special, if_neg h.tilde]

def endWord : Option Word → List Token
  | none => []
  | some w => [.word w.text]

def begun (cur : Option Word) : Word := cur.getD .start

/-- The units that a backslash quotes inside double quotes. -/
def doubleEscaped : List UInt16 := lit "$`\"\\"

/-- One piece of the text: the tokens that it completes and the mode behind it. -/
def step (semi : Bool) : Mode → Piece UInt16 → Option (List Token × Mode)
  | .bare cur, .hit t => some ([], .bare (some ((begun cur).pushHit t)))
  | .bare cur, .unit u =>
    match role semi cur u with
    | .blank => some (endWord cur, .bare none)
    | .stop => some (endWord cur ++ [.stop], .bare none)
    | .single => some ([], .single (begun cur).quote)
    | .double => some ([], .double (begun cur).quote)
    | .escape => some ([], .escape cur)
    | .comment => some ([], .comment)
    | .refused => none
    | .letter => some ([], .bare (some ((begun cur).push u)))
  | .escape cur, p =>
    -- a backslash and a line feed join two lines
    if p = .unit LF then some ([], .bare cur)
    else some ([], .bare (some ((begun cur).quote.append p)))
  | .single w, p =>
    if p = .unit (ascii '\'') then some ([], .bare (some w)) else some ([], .single (w.append p))
  | .double w, p =>
    if p = .unit (ascii '"') then some ([], .bare (some w))
    else if p = .unit (ascii '$') ∨ p = .unit (ascii '`') then none
    else if p = .unit (ascii '\\') then some ([], .doubleEscape w)
    else some ([], .double (w.append p))
  | .doubleEscape w, p =>
    if p = .unit LF then some ([], .double w)
    else if p ∈ doubleEscaped.map Piece.unit then some ([], .double (w.append p))
    else some ([], .double ((w.append (.unit (ascii '\\'))).append p))
  | .comment, p => if p = .unit LF then some ([.stop], .bare none) else some ([], .comment)

section

variable {semi : Bool} {cur : Option Word} {u : UInt16}

theorem step_space (h : u = ascii ' ' ∨ u = ascii '\t') :
    step semi (.bare cur) (.unit u) = some (endWord cur, .bare none) := by
  rw [step, role, if_pos h]

theorem step_lineFeed : step semi (.bare cur) (.unit LF) = some (endWord cur ++ [.stop], .bare none) := by
  rw [step, role, if_neg (by decide), if_pos (.inl rfl)]

/-- The units that separate words and commands. -/
def isShellBlank (u : UInt16) : Bool := u == ascii ' ' || u == ascii '\t' || u == LF

theorem eq_of_isShellBlank (h : isShellBlank u = true) (hline : u ≠ LF) : u = ascii ' ' ∨ u = ascii '\t' := by
  simpa [isShellBlank, hline] using h

theorem step_blank (semi : Bool) (cur : Option Word) (h : isShellBlank u = true) :
    ∃ stops, (∀ t ∈ stops, t = Token.stop) ∧
      step semi (.bare cur) (.unit u) = some (endWord cur ++ stops, .bare none) := by
  by_cases hline : u = LF
  · subst hline
    exact ⟨[.stop], by simp, step_lineFeed⟩
  · exact ⟨[], by simp, by rw [step_space (eq_of_isShellBlank h hline), append_nil]⟩

end

/-- The end of the text; a quotation must be closed. -/
def finish : Mode → Option (List Token)
  | .bare cur => some (endWord cur)
  | .escape cur => some (endWord (some ((begun cur).append (.unit (ascii '\\')))))
  | .comment => some []
  | .single _ => none
  | .double _ => none
  | .doubleEscape _ => none

def lex (semi : Bool) : Mode → List (Piece UInt16) → Option (List Token)
  | m, [] => finish m
  | m, p :: s => (step semi m p).bind fun next => (lex semi next.2 s).map (next.1 ++ ·)

def modeAfter (semi : Bool) : Mode → List (Piece UInt16) → Option Mode
  | m, [] => some m
  | m, p :: s => (step semi m p).bind fun next => modeAfter semi next.2 s

variable {m : Mode} {p : Piece UInt16}

theorem lex_cons_eq_some {s} : lex semi m (p :: s) = some ts ↔
      ∃ out m' rest, step semi m p = some (out, m') ∧ lex semi m' s = some rest ∧ ts = out ++ rest := by
  simp only [lex, Option.bind_eq_some_iff, Option.map_eq_some_iff, Prod.exists]
  constructor
  · rintro ⟨out, m', hstep, rest, hrest, rfl⟩
    exact ⟨out, m', rest, hstep, hrest, rfl⟩
  · rintro ⟨out, m', rest, hstep, hrest, rfl⟩
    exact ⟨out, m', hstep, rest, hrest, rfl⟩

theorem lex_step (h : step semi m p = some (out, m')) (s : List (Piece UInt16)) :
    lex semi m (p :: s) = (lex semi m' s).map (out ++ ·) := by
  rw [lex, h, Option.bind_some]

theorem lex_blanks_append (semi : Bool) (cur : Option Word) {pre : JsStr} (hne : pre ≠ [])
    (h : ∀ u ∈ pre, isShellBlank u = true) (s : List (Piece UInt16)) :
    ∃ stops, (∀ t ∈ stops, t = Token.stop) ∧ lex semi (.bare cur) (pre.map .unit ++ s) =
        (lex semi (.bare none) s).map fun ts => endWord cur ++ (stops ++ ts) := by
  induction pre generalizing cur with
  | nil => exact absurd rfl hne
  | cons u pre ih =>
    obtain ⟨stops, hstops, hstep⟩ := step_blank semi cur (h u mem_cons_self)
    rw [map_cons, cons_append, lex_step hstep]
    cases pre with
    | nil => exact ⟨stops, hstops, by simp⟩
    | cons v pre =>
      obtain ⟨more, hmore, hlex⟩ := ih none (by simp) (forall_mem_cons.mp h).2
      refine ⟨stops ++ more, ?_, ?_⟩
      · intro t ht
        exact (mem_append.mp ht).elim (hstops t) (hmore t)
      · rw [hlex]
        simp [Function.comp_def, endWord]

theorem lex_blanks (semi : Bool) (cur : Option Word) {post : JsStr} (h : ∀ u ∈ post, isShellBlank u = true) :
    ∃ stops, (∀ t ∈ stops, t = Token.stop) ∧ lex semi (.bare cur) (post.map .unit) = some (endWord cur ++ stops) := by
  by_cases hne : post = []
  · subst hne
    exact ⟨[], by simp, by simp [lex, finish]⟩
  · obtain ⟨stops, hstops, hlex⟩ := lex_blanks_append semi cur hne h []
    rw [append_nil] at hlex
    exact ⟨stops, hstops, by simp [hlex, lex, finish, endWord]⟩

/-- A stretch of text that completes no token. -/
inductive Quiet (semi : Bool) : Mode → List (Piece UInt16) → Mode → Prop where
  | nil (m : Mode) : Quiet semi m [] m
  | cons {m m₁ m₂ : Mode} {p : Piece UInt16} {s : List (Piece UInt16)}
      (hstep : step semi m p = some ([], m₁)) (h : Quiet semi m₁ s m₂) : Quiet semi m (p :: s) m₂

namespace Quiet

variable {semi : Bool} {m m₁ m₂ : Mode} {p : Piece UInt16} {s t : List (Piece UInt16)}

theorem single (hstep : step semi m p = some ([], m₁)) : Quiet semi m [p] m₁ := .cons hstep (.nil m₁)

theorem append (h : Quiet semi m s m₁) (ht : Quiet semi m₁ t m₂) : Quiet semi m (s ++ t) m₂ := by
  induction h with
  | nil m => exact ht
  | cons hstep h ih => exact .cons hstep (ih ht)

theorem lex_append (h : Quiet semi m s m₁) (rest : List (Piece UInt16)) :
    lex semi m (s ++ rest) = lex semi m₁ rest := by
  induction h with
  | nil m => rfl
  | cons hstep h ih => rw [cons_append, lex_step hstep, ih]; exact Option.map_id'

theorem modeAfter_eq (h : Quiet semi m s m₁) : modeAfter semi m s = some m₁ := by
  induction h with
  | nil m => rfl
  | cons hstep h ih => rw [modeAfter, hstep]; exact ih

end Quiet

/-- Lines without a word are no commands. -/
def endCommand (words : List WordText) : List (List WordText) := if words = [] then [] else [words]

/-- The commands of a token sequence; `words` are those of the command being read. -/
def commandsFrom (words : List WordText) : List Token → List (List WordText)
  | [] => endCommand words
  | .word w :: ts => commandsFrom (words ++ [w]) ts
  | .stop :: ts => endCommand words ++ commandsFrom [] ts

variable (words : List WordText) (cur : Option Word)

theorem commandsFrom_endWord (ts : List Token) : commandsFrom words (endWord cur ++ ts) =
      commandsFrom (words ++ cur.toList.map (·.text)) ts := by
  cases cur with
  | none => simp [endWord]
  | some w => rfl

theorem commandsFrom_stops {stops} (h : ∀ t ∈ stops, t = .stop) : commandsFrom words stops = endCommand words := by
  induction stops generalizing words with
  | nil => rfl
  | cons t stops ih =>
    rw [h t mem_cons_self, commandsFrom, ih [] (forall_mem_cons.mp h).2]
    exact append_nil _

theorem commandsFrom_nil_stops {stops} (h : ∀ t ∈ stops, t = .stop) (ts : List Token) :
    commandsFrom [] (stops ++ ts) = commandsFrom [] ts := by
  induction stops with
  | nil => rfl
  | cons t stops ih =>
    rw [cons_append, h t mem_cons_self, commandsFrom, ih (forall_mem_cons.mp h).2]
    rfl

def readCommands (semi : Bool) (text : List (Piece UInt16)) : Option (List (List WordText)) :=
  (lex semi (.bare none) text).map (commandsFrom [])

def bashCommands (semi : Bool) (text : JsStr) : Option (List (List JsStr)) :=
  (readCommands semi (text.map .unit)).map fun commands => commands.map fun words =>
    words.map (render id)

def wordTexts : List Token → List WordText
  | [] => []
  | .word w :: ts => w :: wordTexts ts
  | .stop :: ts => wordTexts ts

@[simp] theorem wordTexts_append (ts us : List Token) : wordTexts (ts ++ us) = wordTexts ts ++ wordTexts us := by
  induction ts with
  | nil => rfl
  | cons t ts ih => cases t <;> simp [wordTexts, ih]

theorem flatten_endCommand : (endCommand words).flatten = words := by
  unfold endCommand
  split_ifs with h
  · exact h.symm
  · exact flatten_singleton

theorem flatten_commandsFrom (ts : List Token) : (commandsFrom words ts).flatten = words ++ wordTexts ts := by
  induction ts generalizing words with
  | nil => rw [commandsFrom, flatten_endCommand, wordTexts, append_nil]
  | cons t ts ih =>
    cases t with
    | word w => rw [commandsFrom, ih, wordTexts, append_assoc, singleton_append]
    | stop => rw [commandsFrom, flatten_append, flatten_endCommand, ih, wordTexts, nil_append]

/-- Everything that the words of a token sequence hold, quotes removed. -/
def letters (ts : List Token) : JsStr := render id (wordTexts ts).flatten

@[simp] theorem letters_nil : letters [] = [] := rfl

@[simp] theorem letters_stop (ts : List Token) : letters (.stop :: ts) = letters ts := rfl

def currentText (cur : Option Word) : JsStr := render id (begun cur).text

@[simp] theorem render_begun : render id (begun cur).text = currentText cur := rfl

@[simp] theorem currentText_some (w : Word) : currentText (some w) = render id w.text := rfl

@[simp] theorem currentText_none : currentText none = [] := rfl

theorem letters_endWord (ts : List Token) : letters (endWord cur ++ ts) = currentText cur ++ letters ts := by
  cases cur with
  | none => rfl
  | some w =>
    change letters (.word w.text :: ts) = render id w.text ++ letters ts
    simp [letters, wordTexts, render_append]

/-- What the mode has read of the current word. -/
def Mode.text : Mode → JsStr
  | .bare cur => currentText cur
  | .escape cur => currentText cur
  | .single w => render id w.text
  | .double w => render id w.text
  | .doubleEscape w => render id w.text
  | .comment => []

theorem letters_append (ts us : List Token) : letters (ts ++ us) = letters ts ++ letters us := by
  simp [letters, render_append]

@[simp] theorem letters_end : letters (endWord cur) = currentText cur := by
  simpa using letters_endWord cur []

/-- What a step does to the text that has been read: it keeps it, forgets it in front of a comment, or
adds its piece, for which a backslash may be added as well. -/
theorem step_text (hstep : step semi m p = some (out, m')) :
    letters out ++ m'.text = m.text ∨ letters out ++ m'.text = [] ∨ letters out ++ m'.text = m.text ++ render id [p] ∨
      letters out ++ m'.text = m.text ++ ascii '\\' :: render id [p] := by
  cases m with
  | bare cur =>
    cases p with
    | hit t =>
      cases hstep
      simp [Mode.text, render_append]
    | unit u =>
      simp only [step] at hstep
      split at hstep <;> cases hstep <;> simp [Mode.text, letters_append, render_append]
  | escape cur | single w | double w | doubleEscape w | comment =>
    simp only [step] at hstep
    split_ifs at hstep <;> cases hstep <;> simp [Mode.text, render_append]

theorem count_step_le {h} (hh : h ≠ ascii '\\') (hstep : step semi m p = some (out, m')) :
    (letters out ++ m'.text).count h ≤ (m.text ++ render id [p]).count h := by
  have hslash : List.count h (ascii '\\' :: render id [p]) = List.count h (render id [p]) := count_cons_of_ne hh.symm
  rcases step_text hstep with htext | htext | htext | htext <;> rw [htext]
  · exact (sublist_append_left _ _).count_le h
  · exact Nat.zero_le _
  · rw [count_append, count_append, hslash]

/-- The words hold no unit more often than the text does, backslashes apart. -/
theorem count_letters_le {h} (hh : h ≠ ascii '\\') {s}
    (hlex : lex semi m s = some ts) : (letters ts).count h ≤ (m.text ++ render id s).count h := by
  induction s generalizing m ts with
  | nil =>
    cases m with
    | bare cur =>
      cases hlex
      simp [Mode.text]
    | escape cur =>
      cases hlex
      simp [Mode.text, render_append, count_cons_of_ne hh.symm]
    | comment =>
      cases hlex
      exact Nat.zero_le _
    | single w | double w | doubleEscape w => cases hlex
  | cons p s ih =>
    obtain ⟨out, m', rest, hstep, hrest, rfl⟩ := lex_cons_eq_some.mp hlex
    have hone := count_step_le hh hstep
    have htail := ih hrest
    have happend : render id (p :: s) = render id [p] ++ render id s := render_append id [p] s
    simp only [letters_append, happend, count_append] at hone htail ⊢
    omega

theorem letters_of_bashCommands {command ws} (h : bashCommands semi command = some [ws]) :
    ∃ ts, lex semi (.bare none) (command.map .unit) = some ts ∧ letters ts = ws.flatten := by
  simp only [bashCommands, readCommands, Option.map_map, Option.map_eq_some_iff, Function.comp_apply] at h
  obtain ⟨ts, hlex, hcommands⟩ := h
  obtain ⟨args, hargs, rfl⟩ := map_eq_singleton_iff.mp hcommands
  refine ⟨ts, hlex, ?_⟩
  have hflat := flatten_commandsFrom [] ts
  rw [hargs, flatten_singleton, nil_append] at hflat
  rw [letters, ← hflat, render_flatten]

theorem bashCommands_of_lex {command} {ws : List JsStr} (hne : ws ≠ [])
    (hlex : lex semi (.bare none) (command.map .unit) = some ts)
    (hcommands : commandsFrom [] ts = endCommand (ws.map (List.map Piece.unit))) :
    bashCommands semi command = some [ws] := by
  have hunits : (render id ∘ List.map Piece.unit : JsStr → JsStr) = id := by
    funext text
    exact render_map_unit id text
  rw [endCommand, if_neg (mt map_eq_nil_iff.mp hne)] at hcommands
  rw [bashCommands, readCommands, hlex, Option.map_some, Option.map_some, hcommands, map_singleton,
    map_map, hunits, map_id]

example : bashCommands false (lit "ls 'a b'\"c\" # d") = some [[lit "ls", lit "a bc"]] := by decide

/-! ### Simple commands -/

/-- The words that do not start a simple command unless something of them is quoted. -/
def reservedWords : List JsStr :=
  [lit "!", lit "case", lit "coproc", lit "do", lit "done", lit "elif", lit "else", lit "esac", lit "fi", lit "for",
    lit "function", lit "if", lit "in", lit "select", lit "then", lit "time", lit "until", lit "while",
    lit "\x7b", lit "\x7d", lit "[[", lit "]]"]

def Word.isReserved (w : Word) : Bool := w.plain && reservedWords.contains (render id w.text)

/-- The word that a step from the first mode to the second completes. -/
def ended : Mode → Mode → List Word
  | .bare (some w), .bare none => [w]
  | _, _ => []

theorem ended_eq_nil {m' : Mode} (h : m' ≠ .bare none) (m : Mode) : ended m m' = [] := by
  unfold ended
  split
  · exact absurd rfl h
  · rfl

def lastWord : Mode → List Word
  | .bare cur => cur.toList
  | .escape cur => [(begun cur).append (.unit (ascii '\\'))]
  | _ => []

/-- The words of a text with what is known of them. -/
def wordsRead (semi : Bool) : Mode → List (Piece UInt16) → List Word
  | m, [] => lastWord m
  | m, p :: s => (step semi m p).elim [] fun next => ended m next.2 ++ wordsRead semi next.2 s

/-- The arguments of a text that is one simple command: the assignments in front of it are none of
them, and a reserved word at its start makes it something else. -/
def simpleCommand (semi : Bool) (text : JsStr) : Option (List JsStr) :=
  match bashCommands semi text with
  | some [_] =>
    let read := wordsRead semi (.bare none) (text.map .unit)
    if read.head?.any Word.isReserved then none
    else some ((read.dropWhile (·.assigned)).map fun w => render id w.text)
  | _ => none

example : simpleCommand false (lit "X=1 Y=2 ls Z=3") = some [lit "ls", lit "Z=3"] ∧
    simpleCommand false (lit "time ls") = none ∧ simpleCommand false (lit "'time' ls") = some [lit "time", lit "ls"] := by
  decide

theorem wordsRead_step (h : step semi m p = some (out, m')) (s : List (Piece UInt16)) :
    wordsRead semi m (p :: s) = ended m m' ++ wordsRead semi m' s := by
  rw [wordsRead, h, Option.elim_some]

theorem wordsRead_blanks (semi : Bool) (cur : Option Word) {post : JsStr}
    (h : ∀ u ∈ post, isShellBlank u = true) : wordsRead semi (.bare cur) (post.map .unit) = cur.toList := by
  induction post generalizing cur with
  | nil => rfl
  | cons u post ih =>
    obtain ⟨stops, -, hstep⟩ := step_blank semi cur (h u mem_cons_self)
    rw [map_cons, wordsRead_step hstep, ih none (forall_mem_cons.mp h).2, Option.toList_none, append_nil]
    cases cur <;> rfl

theorem wordTexts_step (hstep : step semi m p = some (out, m')) : wordTexts out = (ended m m').map Word.text := by
  cases m with
  | bare cur =>
    cases p with
    | hit t =>
      cases hstep
      cases cur <;> rfl
    | unit u =>
      simp only [step] at hstep
      split at hstep <;> cases hstep <;> cases cur <;> rfl
  | escape cur | single w | double w | doubleEscape w | comment =>
    simp only [step] at hstep
    split_ifs at hstep <;> cases hstep <;> rfl

theorem wordTexts_lex {s} (hlex : lex semi m s = some ts) : wordTexts ts = (wordsRead semi m s).map Word.text := by
  induction s generalizing m ts with
  | nil =>
    cases m with
    | bare cur =>
      cases hlex
      cases cur <;> rfl
    | escape cur | comment =>
      cases hlex
      rfl
    | single w | double w | doubleEscape w => cases hlex
  | cons p s ih =>
    obtain ⟨out, m', rest, hstep, hrest, rfl⟩ := lex_cons_eq_some.mp hlex
    rw [wordTexts_append, wordTexts_step hstep, ih hrest, wordsRead_step hstep, map_append]

theorem words_of_bashCommands {command ws} (h : bashCommands semi command = some [ws]) :
    ws = (wordsRead semi (.bare none) (command.map .unit)).map fun w => render id w.text := by
  simp only [bashCommands, readCommands, Option.map_map, Option.map_eq_some_iff, Function.comp_apply] at h
  obtain ⟨ts, hlex, hcommands⟩ := h
  obtain ⟨args, hargs, rfl⟩ := map_eq_singleton_iff.mp hcommands
  have hflat := flatten_commandsFrom [] ts
  rw [hargs, flatten_singleton, nil_append, wordTexts_lex hlex] at hflat
  rw [hflat, map_map]
  rfl

end GajaeCode.Shell
