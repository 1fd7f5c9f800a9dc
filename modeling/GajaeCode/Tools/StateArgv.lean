import GajaeCode.Json.Value
import GajaeCode.Text.Pattern

/-! The arguments of `gjc state`, as the command line and the restricted shell classify them. The
typed arguments of the workflow manifest and `JSON.parse` are parameters. -/
namespace GajaeCode.Tools

open Text

inductive StateAction where
  | read | write | clear | contract | handoff | graph | prune | gc | migrate | status | doctor
deriving DecidableEq

def StateAction.name : StateAction → JsStr
  | .read => lit "read"
  | .write => lit "write"
  | .clear => lit "clear"
  | .contract => lit "contract"
  | .handoff => lit "handoff"
  | .graph => lit "graph"
  | .prune => lit "prune"
  | .gc => lit "gc"
  | .migrate => lit "migrate"
  | .status => lit "status"
  | .doctor => lit "doctor"

def stateActions : List StateAction :=
  [.read, .write, .clear, .contract, .handoff, .graph, .prune, .gc, .migrate, .status, .doctor]

def stateActionNamed (name : JsStr) : Option StateAction :=
  stateActions.find? fun action => action.name = name

def stateFlagsWithValues : List JsStr :=
  [lit "--input", lit "--mode", lit "--session-id", lit "--thread-id", lit "--turn-id", lit "--to",
    lit "--skill", lit "--format", lit "--older-than", lit "--status", lit "--fields", lit "--since",
    lit "--limit"]

def stateBooleanFlags : List JsStr :=
  [lit "--json", lit "--replace", lit "--hard", lit "--dry-run", lit "--migrate", lit "--compact",
    lit "--history", lit "--force"]

def canonicalGjcWorkflowSkills : List JsStr :=
  [lit "deep-interview", lit "ralplan", lit "ultragoal", lit "team"]

structure TypedArgSpec where
  name : JsStr
  isBoolean : Bool
  appliesToVerbs : Option (List JsStr)

structure StateEnv (ν : Type) where
  /-- `WORKFLOW_MANIFEST[skill].typedArgs`. -/
  typedArgs : JsStr → List TypedArgSpec
  /-- `JSON.parse`; `none` when it throws. -/
  jsonParse : JsStr → Option (Json ν)

variable {ν : Type} (env : StateEnv ν)

def typedArgsFor (skill verb : JsStr) : List TypedArgSpec :=
  (env.typedArgs skill).filter fun arg =>
    match arg.appliesToVerbs with
    | none => true
    | some verbs => verbs.contains verb

structure StateFlagOccurrence where
  name : JsStr
  value : Option JsStr
  /-- `form` is `separate`, not `attached`. -/
  separate : Bool
  malformed : Bool

inductive StateInputKind where
  | empty | inline | file | invalid
deriving DecidableEq

structure StateInputClassification where
  kind : StateInputKind
  selectors : List (Option JsStr)

structure StateArgvClassification where
  effectiveAction : StateAction
  positionals : List JsStr
  flags : List StateFlagOccurrence
  unknownFlags : List JsStr
  inputs : List StateInputClassification
  runtimeSelectorCandidates : List (Option JsStr)
  selectorCandidates : List (Option JsStr)

def normalizedFlagName (arg : JsStr) : Option JsStr :=
  if startsWith arg (lit "--") then some (arg.takeWhile (· ≠ ascii '=')) else none

/-- A string that is blank selects nothing. -/
def normalizedSelector (value : Option JsStr) : Option JsStr :=
  (value.map trim).filter (· ≠ [])

def parseRuntimePositionals : Bool → List JsStr → List JsStr
  | _, [] => []
  | true, _ :: argv => parseRuntimePositionals false argv
  | false, arg :: argv =>
    if stateFlagsWithValues.contains arg then parseRuntimePositionals true argv
    else if startsWith arg (lit "-") then parseRuntimePositionals false argv
    else arg :: parseRuntimePositionals false argv

/-- An empty string counts as missing. -/
def present (value : Option JsStr) : Option JsStr := value.filter (· ≠ [])

def parseAction (positionals : List JsStr) : StateAction × Option JsStr :=
  let first := present positionals[0]?
  let second := present positionals[1]?
  match first.bind stateActionNamed with
  | some action => (action, second)
  | none =>
    match first, second with
    | some skill, some name =>
      match stateActionNamed name with
      | some action => (action, some skill)
      | none => (.read, none)
    | some skill, none => (.read, some skill)
    | none, _ => (.read, none)

/-- Whether a flag takes a value; `none` for an unknown flag. -/
def stateFlagTakesValue (action : StateAction) (positionalSkill : Option JsStr) (flag : JsStr) :
    Option Bool :=
  let skills :=
    match positionalSkill with
    | some skill =>
      if canonicalGjcWorkflowSkills.contains skill then [skill] else canonicalGjcWorkflowSkills
    | none => canonicalGjcWorkflowSkills
  if stateBooleanFlags.contains flag then some false
  else if stateFlagsWithValues.contains flag then some true
  else
    ((skills.flatMap fun skill => typedArgsFor env skill action.name).find? fun arg =>
      lit "--" ++ arg.name = flag).map fun arg => !arg.isBoolean

def classifyInput (value : Option JsStr) : StateInputClassification :=
  let trimmed := trim (value.getD [])
  if trimmed = [] then ⟨.empty, []⟩
  else if startsWith trimmed (lit "@") then ⟨.file, []⟩
  else
    match env.jsonParse trimmed with
    | some (.obj fields) =>
      ⟨.inline, [normalizedSelector ((fields.lookup (lit "mode")).bind Json.asStr),
        normalizedSelector ((fields.lookup (lit "skill")).bind Json.asStr)]⟩
    | _ => ⟨.invalid, []⟩

def classifyFlags (takesValue : JsStr → Option Bool) :
    List JsStr → List StateFlagOccurrence × List JsStr
  | [] => ([], [])
  | arg :: argv =>
    let (flags, unknown) := classifyFlags takesValue argv
    match normalizedFlagName arg with
    | none => (flags, unknown)
    | some name =>
      match takesValue name with
      | none => (flags, name :: unknown)
      | some value =>
        if arg ≠ name then
          (⟨name, some (arg.drop (name.length + 1)), false, true⟩ :: flags, unknown)
        else if value then
          let next := argv.head?
          (⟨name, next, true, next.all fun v => startsWith v (lit "--")⟩ :: flags, unknown)
        else (⟨name, none, true, false⟩ :: flags, unknown)

/-- `argv[argv.indexOf(name) + 1]`, where `name` occurs. -/
def valueBehind (name : JsStr) (argv : List JsStr) : Option JsStr :=
  (argv.dropWhile (· ≠ name))[1]?

def classifyStateArgv (argv : List JsStr) : StateArgvClassification :=
  let positionals := parseRuntimePositionals false argv
  let (action, positionalSkill) := parseAction positionals
  let (flags, unknownFlags) := classifyFlags (stateFlagTakesValue env action positionalSkill) argv
  let effectiveAction := if action = .read ∧ argv.contains (lit "--migrate") then .migrate else action
  let inputs := (flags.filter fun flag => flag.name = lit "--input" ∧ flag.separate).map fun flag =>
    classifyInput env flag.value
  let positional := normalizedSelector positionalSkill
  let modes := (flags.filter fun flag => flag.name = lit "--mode" ∧ flag.separate).map fun flag =>
    normalizedSelector flag.value
  let firstMode := normalizedSelector (valueBehind (lit "--mode") argv)
  let firstInput :=
    if argv.contains (lit "--input") then
      (classifyInput env (valueBehind (lit "--input") argv)).selectors
    else []
  { effectiveAction, positionals, flags, unknownFlags, inputs
    runtimeSelectorCandidates := firstMode :: positional :: firstInput
    selectorCandidates := positional :: modes ++ inputs.flatMap (·.selectors) }

end GajaeCode.Tools
