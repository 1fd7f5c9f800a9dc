import GajaeCode.Text.Pattern

/-! The words that the restricted shell finds in a command. -/
namespace GajaeCode.Tools

open Text

inductive ShellQuote where
  | single | double
deriving DecidableEq

def shellControlChars : List UInt16 := lit ";|&<>()"

def unsafeUnquotedExpansionChars : List UInt16 := lit "$*?[]\x7b\x7d"

/-- `ASSIGNMENT_NAME_PATTERN`. -/
def isAssignmentName (name : JsStr) : Bool :=
  match if name.getLast? = some (ascii '+') then name.dropLast else name with
  | first :: rest => isWord first && !isDigit first && rest.all isWord
  | [] => false

/-- The word being read and what is known of its tildes. -/
structure ShellWord where
  current : JsStr := []
  wordStarted : Bool := false
  assignmentNameCandidate : Bool := true
  sawAssignmentEquals : Bool := false
  tildeExpandable : Bool := false

namespace ShellWord

def openQuote (w : ShellWord) : ShellWord :=
  { w with
    wordStarted := true
    assignmentNameCandidate := w.sawAssignmentEquals && w.assignmentNameCandidate
    tildeExpandable := false }

def append (w : ShellWord) (u : UInt16) : ShellWord := { w with current := w.current ++ [u] }

def push (w : ShellWord) (u : UInt16) : ShellWord :=
  if u = ascii '=' ∧ w.sawAssignmentEquals = false then
    let assigns := w.assignmentNameCandidate && isAssignmentName w.current
    { current := w.current ++ [u]
      wordStarted := true
      assignmentNameCandidate := assigns
      sawAssignmentEquals := assigns
      tildeExpandable := assigns }
  else
    { w with
      current := w.current ++ [u]
      wordStarted := true
      tildeExpandable := u = ascii ':' ∧ w.sawAssignmentEquals = true }

def flush (w : ShellWord) (words : List JsStr) : List JsStr :=
  if w.wordStarted then words ++ [w.current] else words

end ShellWord

structure ParsedShellWords where
  words : List JsStr
  reason : Option JsStr

def substitutionReason : JsStr :=
  lit "command substitution is not allowed in restricted bash commands"

def backslashReason : JsStr :=
  lit "backslash escapes are not allowed in restricted bash commands"

def expansionReason (u : UInt16) : JsStr :=
  lit "shell expansion character '" ++ u :: lit "' is not allowed in restricted bash commands"

def controlReason (u : UInt16) : JsStr :=
  lit "shell control operator '" ++ u :: lit "' is not allowed in restricted bash commands"

def bareReason (w : ShellWord) (u : UInt16) (next : Option UInt16) : Option JsStr :=
  if u = ascii '`' ∨ u = ascii '$' ∧ next = some (ascii '(') then some substitutionReason
  else if u = LF ∨ u = CR then
    some (lit "multiple shell commands are not allowed in restricted bash mode")
  else if shellControlChars.contains u then some (controlReason u)
  else if unsafeUnquotedExpansionChars.contains u then some (expansionReason u)
  else if u = ascii '~' ∧ (w.wordStarted = false ∨ w.tildeExpandable = true) then
    some (expansionReason u)
  else if u = ascii '\\' then some backslashReason
  else none

def doubleReason (u : UInt16) (next : Option UInt16) : Option JsStr :=
  if u = ascii '`' ∨ u = ascii '$' ∧ next = some (ascii '(') then some substitutionReason
  else if u = ascii '$' then some (expansionReason u)
  else if u = ascii '\\' then some backslashReason
  else none

def parseShellFrom : Option ShellQuote → ShellWord → List JsStr → JsStr → ParsedShellWords
  | none, w, words, [] => ⟨w.flush words, none⟩
  | some _, _, words, [] => ⟨words, some (lit "unterminated quote in restricted bash command")⟩
  | some .single, w, words, u :: s =>
    if u = ascii '\'' then parseShellFrom none w words s
    else parseShellFrom (some .single) (w.append u) words s
  | some .double, w, words, u :: s =>
    if u = ascii '"' then parseShellFrom none w words s
    else
      match doubleReason u s.head? with
      | some reason => ⟨words, some reason⟩
      | none => parseShellFrom (some .double) (w.append u) words s
  | none, w, words, u :: s =>
    if u = ascii '\'' then parseShellFrom (some .single) w.openQuote words s
    else if u = ascii '"' then parseShellFrom (some .double) w.openQuote words s
    else
      match bareReason w u s.head? with
      | some reason => ⟨words, some reason⟩
      | none =>
        if isJsWhitespace u then parseShellFrom none {} (w.flush words) s
        else parseShellFrom none (w.push u) words s

def parseShellWords (command : JsStr) : ParsedShellWords := parseShellFrom none {} [] command

end GajaeCode.Tools
