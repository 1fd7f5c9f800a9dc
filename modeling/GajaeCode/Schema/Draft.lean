import GajaeCode.Data.InsertionMap
import GajaeCode.Schema.JsonSchemaValidator

/-! The upgrade of a schema to draft 2020-12 (`schema/draft.ts`), on schemas that share no objects. -/
namespace GajaeCode.Schema

open Text Data
open JsonSchema (Fields get branches)

def draft202012Uri : JsStr := lit "https://json-schema.org/draft/2020-12/schema"

def draft07SchemaUris : List JsStr :=
  [lit "http://json-schema.org/draft-07/schema#", lit "https://json-schema.org/draft-07/schema#",
    lit "http://json-schema.org/draft-07/schema", lit "https://json-schema.org/draft-07/schema"]

def schemaMapKeys : List JsStr := [lit "properties", lit "patternProperties", lit "dependentSchemas"]

def nonSchemaValueKeys : List JsStr :=
  [lit "const", lit "default", lit "enum", lit "example", lit "examples", lit "required",
    lit "dependentRequired", lit "type"]

/-- `key in table` for a table that is an object with these keys. -/
def inTable (table : List JsStr) (key : JsStr) : Bool :=
  table.contains key || objectFunctions.contains key || key == protoName

def convertRef (value : JsStr) : JsStr :=
  if startsWith value (lit "#/definitions/") then
    lit "#/$defs/" ++ value.drop (lit "#/definitions/").length
  else value

section

variable {ν : Type} (numbers : Numbers ν)

/-- `target[key] = value`; the key `__proto__` sets the prototype instead. -/
def setKey (key : JsStr) (value : Json ν) (target : Fields ν) : Fields ν :=
  if key = protoName then target else assocSet key value target

def objectMap (target : Fields ν) (key : JsStr) : Fields ν := ((target.lookup key).bind Json.asFields).getD []

/-- `entries` are the upgraded entries of the map. -/
def mergeSchemaMap (target : Fields ν) (key : JsStr) (entries : Fields ν) : Fields ν :=
  setKey key (.obj (entries.foldl (fun map entry => setKey entry.1 entry.2 map) (objectMap target key))) target

/-- The intersection of two schemas; an inherited function stands for what is no schema. -/
def combineSchemas (left : Option (JsValue ν)) (right : Json ν) : Json ν :=
  match left, right with
  | none, right => right
  | some (.json (.bool true)), right => right
  | some left, .bool true => left.asSchema
  | some (.json (.bool false)), _ => .bool false
  | some _, .bool false => .bool false
  | some left, right =>
    if areJsonValuesEqual numbers left (.json right) then left.asSchema
    else .obj [(lit "allOf", .arr [left.asSchema, right])]

def mergeArrayValues (left right : List (Json ν)) : List (Json ν) :=
  right.foldl (fun merged value =>
    if merged.any fun existing => areJsonValuesEqual numbers (.json existing) (.json value) then merged
    else merged ++ [value]) left

def combineItems : List (Json ν) → List (Json ν) → List (Json ν)
  | [], converted => converted
  | existing, [] => existing
  | item :: existing, other :: converted =>
    combineSchemas numbers (some (.json item)) other :: combineItems existing converted

def mergePrefixItems (existing : Option (Json ν)) (convertedItems : List (Json ν)) : List (Json ν) :=
  match existing with
  | some (.arr items) => combineItems numbers items convertedItems
  | _ => convertedItems

def mergeDependentRequired (target : Fields ν) (key : JsStr) (deps : List (Json ν)) : Fields ν :=
  let dependentRequired := objectMap target (lit "dependentRequired")
  let dependentRequired :=
    match (JsValue.json (.obj dependentRequired)).get key with
    | none => setKey key (.arr deps) dependentRequired
    | some (.json (.arr existing)) => setKey key (.arr (mergeArrayValues numbers existing deps)) dependentRequired
    | some _ => dependentRequired
  assocSet (lit "dependentRequired") (.obj dependentRequired) target

def mergeDependentSchema (target : Fields ν) (key : JsStr) (schema : Json ν) : Fields ν :=
  let dependentSchemas := objectMap target (lit "dependentSchemas")
  let combined := combineSchemas numbers ((JsValue.json (.obj dependentSchemas)).get key) schema
  assocSet (lit "dependentSchemas") (.obj (setKey key combined dependentSchemas)) target

def nullSchema : Json ν := .obj [(lit "type", .str (lit "null"))]

def hasNullType (type : Option (Json ν)) : Bool :=
  match type with
  | some (.str type) => type == lit "null"
  | some (.arr types) => types.any fun type => type.asStr == some (lit "null")
  | _ => false

def hasNullVariant (variants : List (Json ν)) : Bool :=
  variants.any fun variant =>
    match variant with
    | .obj fields => hasNullType (get fields "type")
    | _ => false

def makeNullable (schema : Fields ν) : Fields ν :=
  match get schema "type" with
  | some (.str type) =>
    if type = lit "null" then schema
    else assocSet (lit "type") (.arr [.str type, .str (lit "null")]) schema
  | some (.arr types) =>
    if hasNullType (some (.arr types)) then schema
    else assocSet (lit "type") (.arr (types ++ [.str (lit "null")])) schema
  | _ =>
    match branches schema "anyOf" with
    | some variants =>
      if hasNullVariant variants then schema
      else assocSet (lit "anyOf") (.arr (variants ++ [nullSchema])) schema
    | none => [(lit "anyOf", .arr [.obj schema, nullSchema])]

/-- An entry of a schema with its own upgrade and, if it is an object, those of its entries. -/
structure Upgraded (ν : Type) where
  entry : Json ν
  whole : Json ν
  entries : Option (Fields ν)

def upgradeKey (result : Fields ν) (key : JsStr) (upgraded : Upgraded ν) : Fields ν :=
  if key = lit "definitions" ∨ key = lit "$defs" then
    match upgraded.entries with
    | some entries => mergeSchemaMap result (lit "$defs") entries
    | none => result
  else if inTable schemaMapKeys key then
    match upgraded.entries with
    | some entries => mergeSchemaMap result key entries
    | none => setKey key upgraded.entry result
  else if inTable nonSchemaValueKeys key then setKey key upgraded.entry result
  else if key = lit "dependencies" ∨ key = lit "additionalItems" ∨ key = lit "nullable" then result
  else if key = lit "$schema" then
    match upgraded.entry with
    | .str uri => setKey key (.str (if inTable draft07SchemaUris uri then draft202012Uri else uri)) result
    | entry => setKey key entry result
  else
    match upgraded.entry with
    | .str value => setKey key (.str (if key = lit "$ref" then convertRef value else value)) result
    | .arr _ => if key = lit "items" then result else setKey key upgraded.whole result
    | _ => setKey key upgraded.whole result

/-- The tuple form of `items` becomes `prefixItems`, and `additionalItems` the new `items`. -/
def convertTuple (fields : List (JsStr × Upgraded ν)) (result : Fields ν) : Fields ν :=
  match fields.lookup (lit "items") with
  | some ⟨.arr _, .arr convertedItems, _⟩ =>
    let result := assocSet (lit "prefixItems")
      (.arr (mergePrefixItems numbers (get result "prefixItems") convertedItems)) result
    match fields.lookup (lit "additionalItems") with
    | none | some ⟨.bool true, _, _⟩ => result.filter fun entry => entry.1 != lit "items"
    | some additionalItems => assocSet (lit "items") additionalItems.whole result
  | _ => result

def convertDependencies (fields : List (JsStr × Upgraded ν)) (result : Fields ν) : Fields ν :=
  match (fields.lookup (lit "dependencies")).bind Upgraded.entries with
  | some entries =>
    entries.foldl (fun target dependency =>
      match dependency.2 with
      | .arr converted => mergeDependentRequired numbers target dependency.1 converted
      | converted => mergeDependentSchema numbers target dependency.1 converted) result
  | none => result

/-- The upgraded object without regard to `nullable`. -/
def upgradeKeys (fields : List (JsStr × Upgraded ν)) : Fields ν :=
  convertDependencies numbers fields (convertTuple numbers fields
    (fields.foldl (fun result field => upgradeKey result field.1 field.2) []))

def upgradeObject (fields : List (JsStr × Upgraded ν)) : Fields ν :=
  match fields.lookup (lit "nullable") with
  | some ⟨.bool true, _, _⟩ => makeNullable (upgradeKeys numbers fields)
  | _ => upgradeKeys numbers fields

mutual

def upgradeJsonSchemaTo202012Impl : Json ν → Json ν
  | .arr items => .arr (upgradeItems items)
  | .obj fields => .obj (upgradeObject numbers (upgradeFields fields))
  | .str s => .str s
  | .num n => .num n
  | .bool b => .bool b
  | .null => .null

def upgradeItems : List (Json ν) → List (Json ν)
  | [] => []
  | item :: rest => upgradeJsonSchemaTo202012Impl item :: upgradeItems rest

def upgradeFields : Fields ν → List (JsStr × Upgraded ν)
  | [] => []
  | (key, .obj members) :: rest =>
    let upgraded := upgradeFields members
    (key, ⟨.obj members, .obj (upgradeObject numbers upgraded),
      some (upgraded.map fun field => (field.1, field.2.whole))⟩) :: upgradeFields rest
  | (key, .arr items) :: rest => (key, ⟨.arr items, .arr (upgradeItems items), none⟩) :: upgradeFields rest
  | (key, value) :: rest => (key, ⟨value, value, none⟩) :: upgradeFields rest

end

end

section

variable {ν : Type}

/-- Does the key need an upgrade, given whether its entry or the entries of a map need one? -/
def keyNeedsUpgrade (key : JsStr) (entry : Json ν) (whole entries : Bool) : Bool :=
  if key = lit "$schema" then
    match entry with
    | .str uri => inTable draft07SchemaUris uri
    | _ => false
  else if key = lit "definitions" ∨ key = lit "dependencies" ∨ key = lit "additionalItems" ∨
      key = lit "nullable" then true
  else if key = lit "$ref" then
    match entry with
    | .str ref => startsWith ref (lit "#/definitions/")
    | _ => false
  else if key = lit "items" ∧ entry.asItems.isSome then true
  else if key = lit "$defs" ∨ inTable schemaMapKeys key then entries
  else if inTable nonSchemaValueKeys key then false
  else whole

mutual

def schemaNeedsDraft202012UpgradeImpl : Json ν → Bool
  | .arr items => itemsNeedUpgrade items
  | .obj fields => fieldsNeedUpgrade fields
  | _ => false

def itemsNeedUpgrade : List (Json ν) → Bool
  | [] => false
  | item :: rest => schemaNeedsDraft202012UpgradeImpl item || itemsNeedUpgrade rest

def schemaMapNeedsDraft202012Upgrade : Fields ν → Bool
  | [] => false
  | (_, value) :: rest => schemaNeedsDraft202012UpgradeImpl value || schemaMapNeedsDraft202012Upgrade rest

def fieldsNeedUpgrade : Fields ν → Bool
  | [] => false
  | (key, .obj members) :: rest =>
    keyNeedsUpgrade key (.obj members) (fieldsNeedUpgrade members) (schemaMapNeedsDraft202012Upgrade members) ||
      fieldsNeedUpgrade rest
  | (key, .arr items) :: rest =>
    keyNeedsUpgrade key (.arr items) (itemsNeedUpgrade items) false || fieldsNeedUpgrade rest
  | (key, value) :: rest => keyNeedsUpgrade key value false false || fieldsNeedUpgrade rest

end

end

def schemaNeedsDraft202012Upgrade {ν : Type} (schema : Json ν) : Bool := schemaNeedsDraft202012UpgradeImpl schema

def upgradeJsonSchemaTo202012 {ν : Type} (numbers : Numbers ν) (schema : Json ν) : Json ν :=
  if schemaNeedsDraft202012Upgrade schema then upgradeJsonSchemaTo202012Impl numbers schema else schema

end GajaeCode.Schema
