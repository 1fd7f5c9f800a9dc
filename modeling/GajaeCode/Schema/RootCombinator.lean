import GajaeCode.Data.InsertionMap
import GajaeCode.Json.ReferenceFree

/-! Flattening of the root of a tool's input schema (`schema/root-combinator.ts`). -/
namespace GajaeCode.Schema

open Text Data
open JsonSchema (Fields get branches fieldMap)

variable {ν : Type}

def combinatorKeys : List String := ["anyOf", "allOf", "oneOf"]

def includesString (items : List (Json ν)) (s : JsStr) : Bool :=
  items.any fun item => item.asStr == some s

def isJsonSchemaArrayNode (schema : Fields ν) : Bool :=
  match get schema "type" with
  | some (.str t) => t == lit "array"
  | some (.arr t) => includesString t (lit "array") && !includesString t (lit "object")
  | _ => false

def isJsonSchemaObjectNode (schema : Fields ν) : Bool :=
  if isJsonSchemaArrayNode schema then false
  else
    match get schema "type" with
    | some (.str t) => t == lit "object" || ((get schema "properties").bind Json.asFields).isSome
    | some (.arr t) => includesString t (lit "object") || ((get schema "properties").bind Json.asFields).isSome
    | _ => ((get schema "properties").bind Json.asFields).isSome

def setEntries (names : List JsStr) : List JsStr :=
  names.foldl (fun set name => if name ∈ set then set else set ++ [name]) []

def getRequiredNames (schema : Fields ν) : List JsStr :=
  setEntries (((branches schema "required").getD []).filterMap Json.asStr)

def getSingleLiteralValue : Option (Json ν) → Option (Json ν)
  | some (.obj schema) =>
    match get schema "const" with
    | some const => some const
    | none =>
      match branches schema "enum" with
      | some [value] => some value
      | _ => none
  | _ => none

/-- `.push(...nested)` for every variant, unless one has none. -/
def appendBranches (first rest : Option (List (Fields ν))) : Option (List (Fields ν)) :=
  first.bind fun branches => rest.map (branches ++ ·)

/-- The branches of the combinators of a schema, in the order of the keys; `collected` are the branches of
the arrays among its fields. -/
def combineBranches (collected : List (JsStr × Option (Option (List (Fields ν))))) :
    List String → Option (List (Fields ν))
  | [] => some []
  | key :: keys =>
    match collected.lookup (lit key) with
    | some (some branches) => appendBranches branches (combineBranches collected keys)
    | _ => combineBranches collected keys

mutual

def collectRootObjectBranches : Json ν → Option (List (Fields ν))
  | .obj schema =>
    if isJsonSchemaObjectNode schema then some [schema]
    else if combinatorKeys.all fun key => (branches schema key).isNone then none
    else combineBranches (collectFields schema) combinatorKeys
  | _ => none

def collectVariants : List (Json ν) → Option (List (Fields ν))
  | [] => some []
  | variant :: rest => appendBranches (collectRootObjectBranches variant) (collectVariants rest)

/-- An array of variants must not be empty. -/
def collectFields : Fields ν → List (JsStr × Option (Option (List (Fields ν))))
  | [] => []
  | (key, .arr variants) :: rest =>
    (key, some (if variants.isEmpty then none else collectVariants variants)) :: collectFields rest
  | (key, _) :: rest => (key, none) :: collectFields rest

end

/-- What the engine does: `JSON.stringify`, and equality of numbers in `includes`. -/
structure Engine (ν : Type) where
  stringify : Json ν → JsStr
  sameNumber : ν → ν → Bool

section

variable (engine : Engine ν)

/-- `includes`: arrays and objects are only the same if they are one. -/
def sameValueZero : Json ν → Json ν → Bool
  | .null, .null => true
  | .bool b, .bool c => b == c
  | .num m, .num n => engine.sameNumber m n
  | .str s, .str t => s == t
  | _, _ => false

def describeRootBranch (index : Nat) (branch : Fields ν) (action : Option (Json ν)) : JsStr :=
  let required := getRequiredNames branch
  let named : List JsStr :=
    match action with
    | some (.str s) => [lit "action " ++ engine.stringify (.str s)]
    | some (.num n) => [lit "action " ++ engine.stringify (.num n)]
    | some (.bool b) => [lit "action " ++ engine.stringify (.bool b)]
    | _ => []
  let fields : List JsStr :=
    if required.isEmpty then [] else [lit "branch-required fields: " ++ (lit ", ").intercalate required]
  let described : List JsStr :=
    match get branch "description" with
    | some (.str description) => if description.isEmpty then [] else [description]
    | _ => []
  (lit "; ").intercalate ([lit "Branch " ++ decimal (index + 1)] ++ named ++ fields ++ described)

/-- `spillToDescription` with its default format. -/
def spillToDescription (node : Fields ν) (entries : List (JsStr × Json ν)) : Fields ν :=
  if entries.isEmpty then node
  else
    let existing := ((get node "description").bind Json.asStr).getD []
    let formatted := lit "\x7b" ++
      (lit ", ").intercalate (entries.map fun entry => entry.1 ++ lit ": " ++ engine.stringify entry.2) ++ lit "\x7d"
    let description := if existing.isEmpty then formatted else existing ++ lit "\n\n" ++ formatted
    assocSet (lit "description") (.str description) node

/-- `Object.assign(target, source)`; the key `__proto__` sets the prototype instead. -/
def objectAssign (target source : Fields ν) : Fields ν :=
  source.foldl (fun target entry =>
    if entry.1 = lit "__proto__" then target else assocSet entry.1 entry.2 target) target

def branchProperties (branch : Fields ν) : Option (Fields ν) := (get branch "properties").bind Json.asFields

def branchAction (branch : Fields ν) : Option (Json ν) :=
  (branchProperties branch).bind fun properties => getSingleLiteralValue (get properties "action")

def mergedProperties (base : Fields ν) (variants : List (Fields ν)) : Fields ν :=
  variants.foldl (fun properties branch => objectAssign properties ((branchProperties branch).getD [])) base

def actionValues (variants : List (Fields ν)) : List (Json ν) :=
  variants.foldl (fun values branch =>
    match branchAction branch with
    | some value => if values.any fun known => sameValueZero engine known value then values else values ++ [value]
    | none => values) []

def guidance (variants : List (Fields ν)) : List (Json ν) :=
  variants.zipIdx.map fun (branch, index) => .str (describeRootBranch engine index branch (branchAction branch))

def withActionEnum (properties : Fields ν) (values : List (Json ν)) : Fields ν :=
  if values.isEmpty then properties
  else
    let existingAction := ((get properties "action").bind Json.asFields).getD []
    let existingAction := existingAction.filter fun entry => entry.1 != lit "const"
    assocSet (lit "action") (.obj (assocSet (lit "enum") (.arr values) existingAction)) properties

def commonRequired : List (Fields ν) → List JsStr
  | [] => []
  | first :: rest =>
    (getRequiredNames first).filter fun name => (first :: rest).all fun branch => name ∈ getRequiredNames branch

def rootCombinators (schema : Fields ν) : List String :=
  combinatorKeys.filter fun key => (branches schema key).isSome

/-- The first combinator of the root that has object branches only. -/
def flattenedBranches (schema : Fields ν) : Option (String × List (Fields ν)) :=
  (rootCombinators schema).findSome? fun key =>
    (get schema key).bind fun variants =>
      match collectRootObjectBranches (.obj [(lit key, variants)]) with
      | some (branch :: rest) => some (key, branch :: rest)
      | _ => none

def withoutCombinators (schema : Fields ν) : Fields ν :=
  schema.filter fun entry => !(combinatorKeys.map lit).contains entry.1

def asObjectRoot (schema properties : Fields ν) : Fields ν :=
  let result := assocSet (lit "type") (.str (lit "object")) schema
  let result := assocSet (lit "properties") (.obj properties) result
  assocSet (lit "additionalProperties") ((get result "additionalProperties").getD (.bool false)) result

def flattenToolRootCombinators (schema : Fields ν) : Fields ν :=
  if (rootCombinators schema).isEmpty then schema
  else
    let baseProperties := fieldMap schema "properties"
    match flattenedBranches schema with
    | some (key, variants) =>
      let properties := withActionEnum (mergedProperties baseProperties variants) (actionValues engine variants)
      let result := asObjectRoot schema properties
      let result := assocSet (lit "required") (.arr ((commonRequired variants).map .str)) result
      let leftover := ((rootCombinators schema).filter (· != key)).filterMap fun other =>
        (get result other).map fun value => (lit other, value)
      withoutCombinators (spillToDescription engine result
        ((lit "rootCombinatorGuidance", .arr (guidance engine variants)) :: leftover))
    | none =>
      let result := asObjectRoot schema baseProperties
      withoutCombinators (spillToDescription engine result ((rootCombinators schema).filterMap fun other =>
        (get result other).map fun value => (lit other, value)))

end

end GajaeCode.Schema
