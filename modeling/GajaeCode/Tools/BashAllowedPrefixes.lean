import GajaeCode.Text.Scan
import GajaeCode.Tools.ShellWords
import GajaeCode.Tools.StateArgv

/-! The allowlist of restricted shell commands, and what its read-only profile says of ripgrep. -/
namespace GajaeCode.Tools

open Text

/-- `error` carries the reason of a refusal. -/
abbrev BashAllowedPrefixesCheck := Except JsStr Unit

inductive BashRestrictionProfile where
  | workflow | readOnly
deriving DecidableEq

def allowedStateActions : List StateAction := [.read, .write, .contract]

def readOnlyCommands : List JsStr :=
  [lit "grep", lit "rg", lit "tree", lit "ls", lit "pwd", lit "wc", lit "du", lit "file", lit "stat"]

/-- `text.split(/\s+/u).filter(Boolean)`. -/
def splitBlanks (text : JsStr) : List JsStr :=
  (text.splitOnP isJsWhitespace).filter (· ≠ [])

def prefixWords (start : JsStr) : List JsStr := splitBlanks (trim start)

def wordsStartWith (words start : List JsStr) : Bool := start ≠ [] && start.isPrefixOf words

def malformedStateShape : JsStr :=
  lit "restricted role-agent bash only allows documented `gjc state` action shapes"

section

variable {ν : Type} (env : StateEnv ν)

def hasDocumentedStatePositionals (positionals : List JsStr) : Bool :=
  if (present positionals[2]?).isSome then false
  else
    match present positionals[1]? with
    | none => true
    | some second =>
      (positionals[0]?.bind stateActionNamed).isSome || (stateActionNamed second).isSome

def classifyStateAction (words : List JsStr) : Except JsStr (StateAction × JsStr) :=
  let classification := classifyStateArgv env (words.drop 2)
  if classification.unknownFlags ≠ [] ∨ classification.flags.any (·.malformed) ∨
      hasDocumentedStatePositionals classification.positionals = false then
    .error malformedStateShape
  else if 1 < (classification.flags.filter fun flag => flag.name = lit "--mode").length ∨
      1 < (classification.flags.filter fun flag => flag.name = lit "--input").length then
    .error (lit "restricted role-agent bash rejects repeated or conflicting `gjc state` target selectors")
  else if classification.inputs.any fun input => input.kind = .file then
    .error (lit "restricted role-agent bash does not allow file-backed `gjc state --input` values")
  else if classification.inputs.any fun input => input.kind = .invalid then .error malformedStateShape
  else
    let runtimeTarget := classification.runtimeSelectorCandidates.findSome? id
    let suppliedTargets := classification.selectorCandidates.filterMap id
    if 1 < suppliedTargets.dedup.length ∨
        runtimeTarget.any (fun target => suppliedTargets.any (· ≠ target)) then
      .error (lit "restricted role-agent bash rejects conflicting `gjc state` selectors that disagree with runtime precedence")
    else
      match runtimeTarget with
      | some target =>
        if canonicalGjcWorkflowSkills.contains target then .ok (classification.effectiveAction, target)
        else .error (lit "restricted role-agent bash requires a canonical workflow skill for `gjc state` commands")
      | none => .error (lit "restricted role-agent bash requires a canonical workflow skill for `gjc state` commands")

def validateMatchedGjcCommand (words : List JsStr) : BashAllowedPrefixesCheck :=
  if words[0]? ≠ some (lit "gjc") then .ok ()
  else if words[1]? = some (lit "ralplan") then
    if words.contains (lit "--write") then .ok ()
    else .error (lit "restricted role-agent bash only allows `gjc ralplan --write ...`")
  else if words[1]? = some (lit "state") then do
    let (action, _) ← classifyStateAction env words
    if allowedStateActions.contains action then .ok ()
    else .error (lit "restricted role-agent bash does not allow `gjc state " ++ action.name ++ lit "`")
  else .ok ()

end

def optionWords (words : List JsStr) : List JsStr := words.tail.takeWhile (· ≠ lit "--")

def isLongOption (option word : JsStr) : Bool := word = option || startsWith word (option ++ lit "=")

def hasShortOption (option : UInt16) (word : JsStr) : Bool :=
  startsWith word (lit "-") && !startsWith word (lit "--") && word.tail.contains option

def ripgrepReason (option : JsStr) : Option JsStr :=
  if isLongOption (lit "--pre") option || isLongOption (lit "--pre-glob") option then
    some (lit "read-only bash does not allow ripgrep preprocessors")
  else if isLongOption (lit "--search-zip") option || hasShortOption (ascii 'z') option then
    some (lit "read-only bash does not allow ripgrep compressed-file subprocesses")
  else none

def treeReason (option : JsStr) : Option JsStr :=
  if isLongOption (lit "--output") option || hasShortOption (ascii 'o') option then
    some (lit "read-only bash does not allow tree output-file writes")
  else none

def validateReadOnlyCommand (words : List JsStr) : BashAllowedPrefixesCheck :=
  match words.head? with
  | none => .error (lit "read-only bash only allows approved inspection commands")
  | some command =>
    if readOnlyCommands.contains command = false then
      .error (lit "read-only bash only allows approved inspection commands")
    else
      let reasonOf :=
        if command = lit "rg" then ripgrepReason
        else if command = lit "tree" then treeReason
        else fun _ => none
      match (optionWords words).findSome? reasonOf with
      | some reason => .error reason
      | none => .ok ()

def normalizedPrefixes (allowedPrefixes : Option (List JsStr)) : List JsStr :=
  ((allowedPrefixes.getD []).map trim).filter (· ≠ [])

def commandAllowedPrefixesReason (starts : List JsStr) (profile : BashRestrictionProfile) : JsStr :=
  let starts := (lit ", ").intercalate starts
  match profile with
  | .readOnly => lit "read-only bash only allows commands starting with: " ++ starts
  | .workflow => lit "restricted role-agent bash only allows commands starting with: " ++ starts

def checkWords {ν : Type} (env : StateEnv ν) (starts : List JsStr) (profile : BashRestrictionProfile)
    (words : List JsStr) : BashAllowedPrefixesCheck :=
  if words = [] then .error (lit "empty command is not allowed in restricted bash mode")
  else if starts.any (fun start => wordsStartWith words (prefixWords start)) = false then
    .error (commandAllowedPrefixesReason starts profile)
  else
    match profile with
    | .readOnly => validateReadOnlyCommand words
    | .workflow => validateMatchedGjcCommand env words

def checkBashAllowedPrefixes {ν : Type} (env : StateEnv ν) (command : JsStr)
    (allowedPrefixes : Option (List JsStr)) (profile : BashRestrictionProfile) :
    BashAllowedPrefixesCheck :=
  let starts := normalizedPrefixes allowedPrefixes
  if starts = [] then .ok ()
  else
    let parsed := parseShellWords (trim command)
    match parsed.reason with
    | some reason => .error reason
    | none => checkWords env starts profile parsed.words

/-- The words that ripgrep reads in option position: an option for which `takesValue` holds has the next
word as its value, whatever that is, and `--` ends the options. -/
def ripgrepOptions (takesValue : JsStr → Bool) : Bool → List JsStr → List JsStr
  | _, [] => []
  | true, _ :: words => ripgrepOptions takesValue false words
  | false, word :: words =>
    if word = lit "--" then [] else word :: ripgrepOptions takesValue (takesValue word) words

/-- Those of them that stand behind the first `--`: there are none unless it was taken for a value. -/
def ripgrepOptionsBehindDashes (takesValue : JsStr → Bool) : Bool → List JsStr → List JsStr
  | _, [] => []
  | isValue, word :: words =>
    if word = lit "--" then if isValue then ripgrepOptions takesValue false words else []
    else ripgrepOptionsBehindDashes takesValue (!isValue && takesValue word) words

/-- `--pre`, `--pre-glob` or `--search-zip`, alone or with a value, or a cluster with `z`. -/
def isForbiddenRipgrepOption (word : JsStr) : Bool :=
  isLongOption (lit "--pre") word || isLongOption (lit "--pre-glob") word ||
    isLongOption (lit "--search-zip") word || hasShortOption (ascii 'z') word

section

variable {takesValue : JsStr → Bool} {isValue : Bool} {words : List JsStr} {word : JsStr}

theorem mem_ripgrepOptions_cases (h : word ∈ ripgrepOptions takesValue isValue words) :
    word ∈ words.takeWhile (· ≠ lit "--") ∨
      word ∈ ripgrepOptionsBehindDashes takesValue isValue words := by
  induction words generalizing isValue with
  | nil => cases isValue <;> cases h
  | cons first words ih =>
    by_cases hdash : first = lit "--"
    · cases isValue with
      | true => exact .inr (by simpa [ripgrepOptions, ripgrepOptionsBehindDashes, hdash] using h)
      | false => simp [ripgrepOptions, hdash] at h
    · have htake : (first :: words).takeWhile (· ≠ lit "--") =
          first :: words.takeWhile (· ≠ lit "--") := by simp [hdash]
      rw [htake, ripgrepOptionsBehindDashes, if_neg hdash]
      cases isValue with
      | true =>
        rcases ih h with hmem | hmem
        · exact .inl (List.mem_cons_of_mem _ hmem)
        · exact .inr hmem
      | false =>
        rw [ripgrepOptions, if_neg hdash] at h
        rcases List.mem_cons.mp h with rfl | h
        · exact .inl List.mem_cons_self
        · rcases ih h with hmem | hmem
          · exact .inl (List.mem_cons_of_mem _ hmem)
          · exact .inr hmem

theorem mem_ripgrepOptions_of_behind (h : word ∈ ripgrepOptionsBehindDashes takesValue isValue words) :
    word ∈ ripgrepOptions takesValue isValue words := by
  induction words generalizing isValue with
  | nil => cases h
  | cons first words ih =>
    rw [ripgrepOptionsBehindDashes] at h
    by_cases hdash : first = lit "--"
    · cases isValue with
      | true => simpa [ripgrepOptions, hdash] using h
      | false => simp [hdash] at h
    · rw [if_neg hdash] at h
      cases isValue with
      | true => exact ih h
      | false =>
        rw [ripgrepOptions, if_neg hdash]
        exact List.mem_cons_of_mem _ (ih h)

theorem ripgrepReason_eq_none_iff (word : JsStr) :
    ripgrepReason word = none ↔ isForbiddenRipgrepOption word = false := by
  unfold ripgrepReason isForbiddenRipgrepOption
  cases isLongOption (lit "--pre") word <;> cases isLongOption (lit "--pre-glob") word <;>
    cases isLongOption (lit "--search-zip") word <;> cases hasShortOption (ascii 'z') word <;> simp

theorem isForbiddenRipgrepOption_of_validate {args}
    (h : validateReadOnlyCommand (lit "rg" :: args) = .ok ()) (hword : word ∈ args.takeWhile (· ≠ lit "--")) :
    isForbiddenRipgrepOption word = false := by
  have hrg : readOnlyCommands.contains (lit "rg") = true := by decide
  simp only [validateReadOnlyCommand, List.head?_cons, hrg, Bool.true_eq_false, if_false, if_true] at h
  cases hfind : (optionWords (lit "rg" :: args)).findSome? ripgrepReason with
  | some reason =>
    rw [hfind] at h
    cases h
  | none => exact (ripgrepReason_eq_none_iff word).mp (List.findSome?_eq_none_iff.mp hfind word hword)

/-- No forbidden option passes exactly if none stands behind a `--` that ripgrep takes for a value. -/
theorem validateReadOnlyCommand_ripgrep (takesValue : JsStr → Bool) {args : List JsStr}
    (h : validateReadOnlyCommand (lit "rg" :: args) = .ok ()) :
    (∀ word ∈ ripgrepOptions takesValue false args, isForbiddenRipgrepOption word = false) ↔
      ∀ word ∈ ripgrepOptionsBehindDashes takesValue false args, isForbiddenRipgrepOption word = false := by
  constructor
  · intro hall word hword
    exact hall word (mem_ripgrepOptions_of_behind hword)
  · intro hbehind word hword
    rcases mem_ripgrepOptions_cases hword with hword | hword
    · exact isForbiddenRipgrepOption_of_validate h hword
    · exact hbehind word hword

end

def takesPattern (word : JsStr) : Bool :=
  [lit "-e", lit "-f", lit "-g", lit "--regexp"].contains word

theorem validateReadOnlyCommand_ripgrep_dashes :
    validateReadOnlyCommand [lit "rg", lit "-e", lit "x", lit "--", lit "--pre=y"] = .ok () ∧
      ∀ word ∈ ripgrepOptions takesPattern false [lit "-e", lit "x", lit "--", lit "--pre=y"],
        isForbiddenRipgrepOption word = false := by
  have h : validateReadOnlyCommand [lit "rg", lit "-e", lit "x", lit "--", lit "--pre=y"] = .ok () := by
    decide +kernel
  exact ⟨h, (validateReadOnlyCommand_ripgrep takesPattern h).mpr (by decide +kernel)⟩

/-- `rg -e -- --pre=y` is accepted, and ripgrep reads the preprocessor. -/
theorem validateReadOnlyCommand_ripgrep_pre :
    validateReadOnlyCommand [lit "rg", lit "-e", lit "--", lit "--pre=y"] = .ok () ∧
      lit "--pre=y" ∈ ripgrepOptions takesPattern false [lit "-e", lit "--", lit "--pre=y"] ∧
      isForbiddenRipgrepOption (lit "--pre=y") = true := by
  decide +kernel

end GajaeCode.Tools
