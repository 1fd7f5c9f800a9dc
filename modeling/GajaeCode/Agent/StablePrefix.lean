import GajaeCode.Data.KeyedCache
import GajaeCode.Data.InsertionMap
import GajaeCode.Json.Stringify

/-! The stable prefix of an agent: a snapshot of the system prompt and the tools that is kept as long
as the fingerprint of the live ones stays the same. -/
namespace GajaeCode.Agent

open Text Data List

variable {ν : Type}

inductive IntentMode where
  | require
  | optional
  | omit
  deriving DecidableEq, Repr

/-- A tool by its own properties; functions among them are no part of the wire and are left out.
`wireSchema` is the JSON schema of parameters that are a Zod schema. -/
structure AgentTool (ν : Type) where
  fields : List (JsStr × Json ν)
  intentIsFunction : Bool
  wireSchema : Option (Json ν)

structure AgentContext (ν : Type) where
  systemPrompt : List JsStr
  tools : Option (List (AgentTool ν))

structure BuildOptions where
  intentTracing : Bool

def intentField : JsStr := lit "_i"

def stringsIn (value : Option (Json ν)) : List JsStr :=
  ((value.bind Json.asItems).getD []).filterMap Json.asStr

/-- A schema with the intent as its first property. -/
def injectIntentIntoSchema (schema : Json ν) (required : Bool) : Json ν :=
  match schema with
  | .obj record =>
    let properties := ((record.lookup (lit "properties")).bind Json.asFields).getD []
    let names := stringsIn (record.lookup (lit "required"))
    let withRequired := fun record : List (JsStr × Json ν) =>
      assocSet (lit "required") (.arr ((names ++ [intentField]).map Json.str)) record
    match properties.lookup intentField with
    | some intentProp =>
      let needsReorder := properties.head?.map Prod.fst ≠ some intentField
      let needsRequired := required && !names.contains intentField
      let rest := properties.filter fun property => property.1 ≠ intentField
      let reordered :=
        if needsReorder then assocSet (lit "properties") (.obj ((intentField, intentProp) :: rest)) record
        else record
      .obj (if needsRequired then withRequired reordered else reordered)
    | none =>
      let extended := assocSet (lit "properties")
        (.obj ((intentField, .obj [(lit "type", .str (lit "string"))]) :: properties)) record
      .obj (if required then withRequired extended else extended)
  | schema => schema

def resolveIntentMode (tool : AgentTool ν) : IntentMode :=
  if tool.intentIsFunction then .omit
  else
    match (tool.fields.lookup (lit "intent")).bind Json.asStr with
    | some intent =>
      if intent = lit "omit" then .omit else if intent = lit "require" then .require else .optional
    | none => .optional

def normalizeTool (injectIntent : Bool) (tool : AgentTool ν) : List (JsStr × Json ν) :=
  let mode := resolveIntentMode tool
  let source := if injectIntent && mode ≠ .omit then tool.wireSchema.or (tool.fields.lookup (lit "parameters"))
    else tool.fields.lookup (lit "parameters")
  let parameters :=
    if injectIntent && mode ≠ .omit then source.map fun schema => injectIntentIntoSchema schema (mode = .require)
    else source
  let description := match tool.fields.lookup (lit "description") with
    | some .null | none => .str []
    | some description => description
  let fields := match parameters with
    | some parameters => assocSet (lit "parameters") parameters tool.fields
    | none => tool.fields
  assocSet (lit "description") description fields

/-- The tools for the provider. `noIntent` is whether the environment turns the intent off. -/
def normalizeTools (noIntent : Bool) (tools : Option (List (AgentTool ν))) (intentTracing : Bool) :
    List (List (JsStr × Json ν)) :=
  (tools.getD []).map (normalizeTool (intentTracing && !noIntent))

/-- `hash * 31 + unit` on 32 bits. -/
def hashUnit (hash : UInt32) (unit : UInt16) : UInt32 := (hash <<< 5) - hash + UInt32.ofNat unit.toNat

def hashString32 (value : JsStr) : UInt32 := value.foldl hashUnit 0

/-- The digit `0` to `9` or `a` to `z`. -/
def base36Digit (d : Nat) : UInt16 := UInt16.ofNat (if d < 10 then 0x30 + d else 0x61 + (d - 10))

/-- `n.toString(36)`. -/
def base36 (n : Nat) : JsStr :=
  if n < 36 then [base36Digit n] else base36 (n / 36) ++ [base36Digit (n % 36)]

example : base36 16 = lit "g" ∧ base36 (36 * 35 + 34) = lit "zy" := by decide +kernel

/-- The properties of a tool that the fingerprint is made of, under their short names. -/
def fingerprintKeys : List (JsStr × JsStr) :=
  [(lit "n", lit "name"), (lit "d", lit "description"), (lit "p", lit "parameters"), (lit "s", lit "strict"),
    (lit "cf", lit "customFormat"), (lit "cw", lit "customWireName")]

def fingerprintTool (tool : List (JsStr × Json ν)) : Json ν :=
  .obj (fingerprintKeys.filterMap fun key => (tool.lookup key.2).map (Prod.mk key.1))

section

-- the text of a number, and whether the environment turns the intent off
variable (numText : ν → JsStr) (noIntent : Bool)

def fingerprintPayload (systemPrompt : List JsStr) (tools : List (List (JsStr × Json ν)))
    (options : BuildOptions) : JsStr :=
  Json.stringify numText (.obj [(lit "s", .arr (systemPrompt.map Json.str)),
    (lit "t", .arr (tools.map fingerprintTool)), (lit "i", .bool options.intentTracing)])

def computeFingerprint (systemPrompt : List JsStr) (tools : List (List (JsStr × Json ν)))
    (options : BuildOptions) : JsStr :=
  base36 (hashString32 (fingerprintPayload numText systemPrompt tools options)).toNat

structure StablePrefixSnapshot (ν : Type) where
  systemPrompt : List JsStr
  tools : List (List (JsStr × Json ν))
  fingerprint : JsStr

def takeSnapshot (context : AgentContext ν) (options : BuildOptions) : StablePrefixSnapshot ν :=
  let tools := normalizeTools noIntent context.tools options.intentTracing
  ⟨context.systemPrompt, tools, computeFingerprint numText context.systemPrompt tools options⟩

structure StablePrefix (ν : Type) where
  snapshot : Option (StablePrefixSnapshot ν)
  version : Nat

def StablePrefix.empty : StablePrefix ν := ⟨none, 0⟩

/-- The prefix after a build, and whether it changed. That the same arrays are passed again is no
reason to skip the comparison, so the arrays' identities do not matter. -/
def StablePrefix.build (stable : StablePrefix ν) (context : AgentContext ν) (options : BuildOptions) :
    StablePrefix ν × Bool :=
  let snapshot := takeSnapshot numText noIntent context options
  match stable.snapshot with
  | some held =>
    if held.fingerprint = snapshot.fingerprint then (stable, false)
    else (⟨some snapshot, stable.version + 1⟩, true)
  | none => (⟨some snapshot, stable.version + 1⟩, true)

def normalized (call : AgentContext ν × BuildOptions) : List JsStr × List (List (JsStr × Json ν)) :=
  (call.1.systemPrompt, normalizeTools noIntent call.1.tools call.2.intentTracing)

end

section

variable {numText : ν → JsStr} {noIntent : Bool}

end

end GajaeCode.Agent
