import GajaeCode.Json.Schema

/-! The in-tree JSON Schema validator. Property tests use the operator `in`, so a value has the members
of `Object.prototype` as well as its own. -/
namespace GajaeCode.Schema

open Text
open JsonSchema (Fields get branches fieldMap number)

structure Numbers (ν : Type) where
  isFinite : ν → Bool
  isInteger : ν → Bool
  lt : ν → ν → Bool
  le : ν → ν → Bool
  ofNat : Nat → ν
  /-- `Object.is`. -/
  is : ν → ν → Bool
  /-- `String(n)`. -/
  text : ν → JsStr
  /-- `Math.abs(q - Math.round(q)) > Number.EPSILON * 10` for the quotient `q`. -/
  offMultiple : ν → ν → Bool

structure Host (ν : Type) where
  numbers : Numbers ν
  /-- `new RegExp(pattern)` and its `test`. -/
  compile : JsStr → Option (JsStr → Bool)
  /-- The names of the functions of `Array.prototype`. -/
  arrayFunctions : List JsStr

/-- What a property access can give: JSON or something inherited. -/
inductive JsValue (ν : Type) where
  | json (v : Json ν)
  | function
  | objectPrototype
  | arrayPrototype

def objectFunctions : List JsStr :=
  [lit "constructor", lit "__defineGetter__", lit "__defineSetter__", lit "hasOwnProperty",
    lit "__lookupGetter__", lit "__lookupSetter__", lit "isPrototypeOf", lit "propertyIsEnumerable",
    lit "toString", lit "valueOf", lit "toLocaleString"]

def protoName : JsStr := lit "__proto__"

section

variable {ν : Type} (host : Host ν)

/-- What an object without an own property of the name inherits. -/
def inherited (key : JsStr) : Option (JsValue ν) :=
  if key = protoName then some .objectPrototype
  else if objectFunctions.contains key then some .function
  else none

/-- `value[key]` for an object, and whether `key in value`. -/
def JsValue.get (key : JsStr) : JsValue ν → Option (JsValue ν)
  | .json (.obj fields) =>
    match fields.lookup key with
    | some v => some (.json v)
    | none => inherited key
  | .objectPrototype =>
    if key = protoName then some (.json .null)
    else if objectFunctions.contains key then some .function
    else none
  | _ => none

def arrayMember (length : Nat) (key : JsStr) : Option (JsValue ν) :=
  if key = lit "length" then some (.json (.num (host.numbers.ofNat length)))
  else if host.arrayFunctions.contains key || objectFunctions.contains key then some .function
  else none

/-- `current[token]` for an object or an array. -/
def JsValue.step (token : JsStr) : JsValue ν → Option (JsValue ν)
  | .json (.arr items) =>
    match Json.arrayIndex token with
    | some i => items[i]?.map .json
    | none => if token = protoName then some .arrayPrototype else arrayMember host items.length token
  | .arrayPrototype => if token = protoName then some .objectPrototype else arrayMember host 0 token
  | value => value.get token

def decodePointerToken (token : JsStr) : JsStr := Json.unescapeToken token

def followTokens : List JsStr → JsValue ν → Option (JsValue ν)
  | [], current => some current
  | token :: rest, current => (current.step host token).bind (followTokens rest)

/-- A value as a schema; a function is none, and `Object.prototype` has no keywords. -/
def JsValue.asSchema : JsValue ν → Json ν
  | .json v => v
  | .objectPrototype => .obj []
  | .function | .arrayPrototype => .null

def resolveLocalRef (root : Json ν) (ref : JsStr) : Option (Json ν) :=
  if ref = lit "#" then some root
  else if startsWith ref (lit "#/") then
    (followTokens host (((ref.drop 2).splitOn (ascii '/')).map decodePointerToken) (.json root)).map JsValue.asSchema
  else none

end

section

variable {ν : Type} (numbers : Numbers ν)

mutual

/-- The members of `left` are its own, those of `right` may be inherited. -/
def equalJson : Json ν → JsValue ν → Bool
  | .null, .json .null => true
  | .bool b, .json (.bool c) => b == c
  | .num m, .json (.num n) => numbers.is m n
  | .str s, .json (.str t) => s == t
  | .arr xs, .json (.arr ys) => equalItems xs ys
  | .obj xs, .json (.obj ys) => equalFields xs (.json (.obj ys)) && xs.length == ys.length
  | .obj xs, .objectPrototype => equalFields xs .objectPrototype && xs.length == 0
  | _, _ => false

def equalItems : List (Json ν) → List (Json ν) → Bool
  | [], [] => true
  | x :: xs, y :: ys => equalJson x (.json y) && equalItems xs ys
  | _, _ => false

def equalFields : Fields ν → JsValue ν → Bool
  | [], _ => true
  | (key, x) :: xs, right =>
    (match right.get key with
      | some y => equalJson x y
      | none => false) && equalFields xs right

end

def areJsonValuesEqual (left right : JsValue ν) : Bool :=
  match left, right with
  | .json x, right => equalJson numbers x right
  | .objectPrototype, .json (.obj fields) => fields.isEmpty
  | .objectPrototype, .objectPrototype => true
  | _, _ => false

end

inductive Key where
  | name (key : JsStr)
  | index (i : Nat)
deriving DecidableEq

structure JsonSchemaValidationIssue where
  path : List Key
  message : JsStr
  keyword : JsStr
  expectedTypes : Option (List JsStr)

/-- The outcome of a validation and its issues; `none` where it has not returned yet. -/
abbrev Check := Option (Bool × List JsonSchemaValidationIssue)

namespace Check

def pass : Check := some (true, [])

def reject (path : List Key) (message keyword : JsStr) : Check :=
  some (false, [⟨path, message, keyword, none⟩])

def ensure (b : Bool) (path : List Key) (message keyword : JsStr) : Check :=
  if b then pass else reject path message keyword

def and (a b : Check) : Check := a.bind fun x => b.map fun y => (x.1 && y.1, x.2 ++ y.2)

def all : List Check → Check
  | [] => pass
  | c :: cs => c.and (all cs)

def each {α : Type} (l : List α) (f : α → Check) : Check := all (l.map f)

def forSome {α : Type} (o : Option α) (f : α → Check) : Check :=
  match o with
  | none => pass
  | some a => f a

end Check

section

variable {ν : Type} (host : Host ν)

/-- What a value is to the cycle check: containers are told apart by their place. -/
inductive Identity where
  | place (path : List Key)
  | prototype
deriving DecidableEq

instance : LawfulBEq (JsStr × Identity) := inferInstance

def getValueIdentity (path : List Key) : JsValue ν → Option Identity
  | .json (.obj _) | .json (.arr _) => some (.place path)
  | .objectPrototype | .arrayPrototype => some .prototype
  | _ => none

structure ValidationContext (ν : Type) where
  root : Json ν
  seenPairs : List (JsStr × Identity)
  refDepth : Nat

def maxRefDepth : Nat := 64

def JsValue.members : JsValue ν → Option (Fields ν)
  | .json (.obj fields) => some fields
  | .objectPrototype => some []
  | _ => none

def typeOfJsonValue : JsValue ν → JsStr
  | .json .null => lit "null"
  | .json (.arr _) | .arrayPrototype => lit "array"
  | .json (.num n) => if host.numbers.isInteger n then lit "integer" else lit "number"
  | .json (.bool _) => lit "boolean"
  | .json (.str _) => lit "string"
  | .json (.obj _) | .objectPrototype => lit "object"
  | .function => lit "function"

def matchesJsonSchemaType (value : JsValue ν) (type : JsStr) : Bool :=
  match value with
  | .json .null => type == lit "null"
  | .json (.bool _) => type == lit "boolean"
  | .json (.num n) =>
    type == lit "number" && host.numbers.isFinite n || type == lit "integer" && host.numbers.isInteger n
  | .json (.str _) => type == lit "string"
  | .json (.arr _) | .arrayPrototype => type == lit "array"
  | .json (.obj _) | .objectPrototype => type == lit "object"
  | .function => false

def isTrue (v : Option (Json ν)) : Bool :=
  match v with
  | some (.bool b) => b
  | _ => false

def schemaTypes (schema : Fields ν) : List JsStr :=
  let types :=
    match get schema "type" with
    | some (.str type) => [type]
    | some (.arr entries) => entries.filterMap Json.asStr
    | _ => []
  if isTrue (get schema "nullable") && !types.contains (lit "null") then types ++ [lit "null"] else types

variable (validate : Json ν → JsValue ν → List Key → Check) (schema : Fields ν)

def checkConst (value : JsValue ν) (path : List Key) : Check :=
  .forSome (get schema "const") fun const =>
    .ensure (areJsonValuesEqual host.numbers value (.json const)) path (lit "must equal const value") (lit "const")

def checkEnum (value : JsValue ν) (path : List Key) : Check :=
  .forSome (branches schema "enum") fun entries =>
    .ensure (entries.any fun entry => areJsonValuesEqual host.numbers (.json entry) value) path
      (lit "must be one of the allowed enum values") (lit "enum")

/-- `anyOf` and `oneOf`: every branch is validated with issues of its own. -/
def checkBranches (keyword : String) (message : JsStr) (accepts : Nat → Bool) (value : JsValue ν)
    (path : List Key) : Check :=
  .forSome (branches schema keyword) fun branches =>
    (branches.mapM fun branch => validate branch value path).map fun results =>
      let matching := results.countP Prod.fst
      if accepts matching then (true, [])
      else
        match results.find? fun result => !result.1 with
        | some (_, issue :: issues) =>
          if matching = 0 then (false, issue :: issues) else (false, [⟨path, message, lit keyword, none⟩])
        | _ => (false, [⟨path, message, lit keyword, none⟩])

def checkAnyOf (value : JsValue ν) (path : List Key) : Check :=
  checkBranches validate schema "anyOf" (lit "must match at least one schema") (fun matching => 0 < matching)
    value path

def checkOneOf (value : JsValue ν) (path : List Key) : Check :=
  checkBranches validate schema "oneOf" (lit "must match exactly one schema") (fun matching => matching = 1)
    value path

def checkAllOf (value : JsValue ν) (path : List Key) : Check :=
  .forSome (branches schema "allOf") fun branches => .each branches fun branch => validate branch value path

def checkNot (value : JsValue ν) (path : List Key) : Check :=
  .forSome (get schema "not") fun excluded =>
    (validate excluded value path).bind fun result =>
      Check.ensure (!result.1) path (lit "must not match excluded schema") (lit "not")

def checkIf (value : JsValue ν) (path : List Key) : Check :=
  .forSome (get schema "if") fun condition =>
    (validate condition value path).bind fun result =>
      Check.forSome (if result.1 then get schema "then" else get schema "else") fun branch => validate branch value path

def checkRequired (value : JsValue ν) (path : List Key) : Check :=
  .forSome ((get schema "required").bind Json.asStrs) fun required =>
    .each required fun key =>
      .ensure (value.get key).isSome (path ++ [.name key]) (lit "is required") (lit "required")

def checkProperties (value : JsValue ν) (path : List Key) : Check :=
  .each (fieldMap schema "properties") fun property =>
    .forSome (value.get property.1) fun member => validate property.2 member (path ++ [.name property.1])

def checkPropertyNames (members : Fields ν) (path : List Key) : Check :=
  .forSome (get schema "propertyNames") fun names =>
    .each members fun member => validate names (.json (.str member.1)) (path ++ [.name member.1])

def checkPatternProperties (members : Fields ν) (path : List Key) : Check :=
  .each (fieldMap schema "patternProperties") fun property =>
    match host.compile property.1 with
    | none => .reject path (lit "invalid patternProperties regex " ++ property.1) (lit "patternProperties")
    | some test =>
      .each (members.filter fun member => test member.1) fun member =>
        validate property.2 (.json member.2) (path ++ [.name member.1])

/-- The names that `properties` lists or a pattern has matched. -/
def isKnown (key : JsStr) : Bool :=
  (fieldMap schema "properties").any (fun property => property.1 == key) ||
    (fieldMap schema "patternProperties").any fun property =>
      match host.compile property.1 with
      | none => false
      | some test => test key

def checkDependentRequired (value : JsValue ν) (path : List Key) : Check :=
  .each (fieldMap schema "dependentRequired") fun dependency =>
    if (value.get dependency.1).isSome then
      .forSome dependency.2.asItems fun deps =>
        .each (deps.filterMap Json.asStr) fun dep =>
          .ensure (value.get dep).isSome (path ++ [.name dep])
            (lit "is required when \"" ++ dependency.1 ++ lit "\" is present") (lit "dependentRequired")
    else .pass

def checkDependentSchemas (value : JsValue ν) (path : List Key) : Check :=
  .each (fieldMap schema "dependentSchemas") fun dependency =>
    if (value.get dependency.1).isSome then validate dependency.2 value path else .pass

def checkAdditionalProperties (members : Fields ν) (path : List Key) : Check :=
  let unknown := members.filter fun member => !isKnown host schema member.1
  match get schema "additionalProperties" with
  | none | some (.bool true) => .pass
  | some (.bool false) =>
    .each unknown fun member =>
      .reject (path ++ [.name member.1]) (lit "must not be present") (lit "additionalProperties")
  | some additional =>
    .each unknown fun member => validate additional (.json member.2) (path ++ [.name member.1])

def checkLeast (keyword : String) (length : Nat) (before after : JsStr) (path : List Key) : Check :=
  .forSome (number schema keyword) fun bound =>
    .ensure (!host.numbers.lt (host.numbers.ofNat length) bound) path
      (before ++ host.numbers.text bound ++ after) (lit keyword)

def checkMost (keyword : String) (length : Nat) (before after : JsStr) (path : List Key) : Check :=
  .forSome (number schema keyword) fun bound =>
    .ensure (!host.numbers.lt bound (host.numbers.ofNat length)) path
      (before ++ host.numbers.text bound ++ after) (lit keyword)

def validateObjectKeywords (value : JsValue ν) (members : Fields ν) (path : List Key) : Check :=
  .all [checkRequired schema value path, checkProperties validate schema value path,
    checkPropertyNames validate schema members path, checkPatternProperties host validate schema members path,
    checkDependentRequired schema value path, checkDependentSchemas validate schema value path,
    checkAdditionalProperties host validate schema members path,
    checkLeast host schema "minProperties" members.length (lit "must have at least ") (lit " properties") path,
    checkMost host schema "maxProperties" members.length (lit "must have at most ") (lit " properties") path]

/-- The indices `j` that repeat an earlier item, once for each of them. -/
def repeatedItems (items : List (Json ν)) : List Nat :=
  items.zipIdx.flatMap fun (left, i) =>
    (items.zipIdx.filter fun (right, j) =>
      i < j && areJsonValuesEqual host.numbers (.json left) (.json right)).map Prod.snd

def checkUniqueItems (items : List (Json ν)) (path : List Key) : Check :=
  if isTrue (get schema "uniqueItems") then
    .each (repeatedItems host items) fun j =>
      .reject (path ++ [.index j]) (lit "must be unique") (lit "uniqueItems")
  else .pass

def checkItemsFrom (start : Nat) (itemSchema : Json ν) (items : List (Json ν)) (path : List Key) : Check :=
  .each ((items.zipIdx).drop start) fun (item, i) => validate itemSchema (.json item) (path ++ [.index i])

def checkItems (items : List (Json ν)) (path : List Key) : Check :=
  match get schema "items" with
  | some (.arr _) =>
    .reject path (lit "array-valued items is not valid in JSON Schema 2020-12; use prefixItems") (lit "items")
  | itemSchema =>
    match branches schema "prefixItems" with
    | some prefixItems =>
      .and
        (.each ((prefixItems.zip items).zipIdx) fun ((itemSchema, item), i) =>
          validate itemSchema (.json item) (path ++ [.index i]))
        (.forSome itemSchema fun rest => checkItemsFrom validate prefixItems.length rest items path)
    | none => .forSome itemSchema fun every => checkItemsFrom validate 0 every items path

def checkContains (items : List (Json ν)) (path : List Key) : Check :=
  .forSome (get schema "contains") fun contained =>
    (items.zipIdx.mapM fun (item, i) => validate contained (.json item) (path ++ [Key.index i])).bind fun results =>
      let count := host.numbers.ofNat (results.countP Prod.fst)
      let minContains := (number schema "minContains").getD (host.numbers.ofNat 1)
      Check.and
        (.ensure (!host.numbers.lt count minContains) path
          (lit "must contain at least " ++ host.numbers.text minContains ++ lit " matching item(s)")
          (lit "contains"))
        (.forSome (number schema "maxContains") fun maxContains =>
          .ensure (!host.numbers.lt maxContains count) path
            (lit "must contain at most " ++ host.numbers.text maxContains ++ lit " matching item(s)")
            (lit "maxContains"))

def validateArrayKeywords (items : List (Json ν)) (path : List Key) : Check :=
  .all [checkLeast host schema "minItems" items.length (lit "must have at least ") (lit " items") path,
    checkMost host schema "maxItems" items.length (lit "must have at most ") (lit " items") path,
    checkUniqueItems host schema items path, checkItems validate schema items path,
    checkContains host validate schema items path]

def checkPattern (value : JsStr) (path : List Key) : Check :=
  .forSome ((get schema "pattern").bind Json.asStr) fun pattern =>
    match host.compile pattern with
    | none => .reject path (lit "schema pattern is invalid") (lit "pattern")
    | some test => .ensure (test value) path (lit "must match pattern") (lit "pattern")

def validateStringKeywords (value : JsStr) (path : List Key) : Check :=
  .all [checkLeast host schema "minLength" value.length (lit "must be at least ") (lit " characters") path,
    checkMost host schema "maxLength" value.length (lit "must be at most ") (lit " characters") path,
    checkPattern host schema value path]

def checkBound (bound keyword : String) (holds : ν → Bool) (message : String) (path : List Key) : Check :=
  .forSome (number schema bound) fun limit =>
    .ensure (holds limit) path (lit message ++ host.numbers.text limit) (lit keyword)

def validateNumberKeywords (value : ν) (path : List Key) : Check :=
  .all [checkBound host schema "minimum" "minimum" (fun m => !host.numbers.lt value m) "must be >= " path,
    checkBound host schema "maximum" "maximum" (fun m => !host.numbers.lt m value) "must be <= " path,
    checkBound host schema "exclusiveMinimum" "exclusiveMinimum" (fun m => !host.numbers.le value m)
      "must be > " path,
    checkBound host schema "exclusiveMaximum" "exclusiveMaximum" (fun m => !host.numbers.le m value)
      "must be < " path,
    if isTrue (get schema "exclusiveMinimum") then
      checkBound host schema "minimum" "exclusiveMinimum" (fun m => !host.numbers.le value m) "must be > " path
    else .pass,
    if isTrue (get schema "exclusiveMaximum") then
      checkBound host schema "maximum" "exclusiveMaximum" (fun m => !host.numbers.le m value) "must be < " path
    else .pass, checkBound host schema "multipleOf" "multipleOf"
      (fun m => !host.numbers.lt (host.numbers.ofNat 0) m || !host.numbers.offMultiple value m)
      "must be a multiple of " path]

def validateKindKeywords (value : JsValue ν) (path : List Key) : Check :=
  match value with
  | .json (.obj fields) => validateObjectKeywords host validate schema value fields path
  | .objectPrototype => validateObjectKeywords host validate schema value [] path
  | .json (.arr items) => validateArrayKeywords host validate schema items path
  | .json (.str s) => validateStringKeywords host schema s path
  | .json (.num n) => if host.numbers.isFinite n then validateNumberKeywords host schema n path else .pass
  | _ => .pass

def validateKeywords (value : JsValue ν) (path : List Key) : Check :=
  let types := schemaTypes schema
  if types ≠ [] ∧ (types.any fun type => matchesJsonSchemaType host value type) = false then
    some (false, [⟨path, lit "expected " ++ (lit " or ").intercalate types ++ lit ", received " ++
      typeOfJsonValue host value, lit "type", some types⟩])
  else
    .all [checkConst host schema value path, checkEnum host schema value path,
      checkAnyOf validate schema value path, checkOneOf validate schema value path,
      checkAllOf validate schema value path, checkNot validate schema value path,
      checkIf validate schema value path, validateKindKeywords host validate schema value path]

def isNull : JsValue ν → Bool
  | .json .null => true
  | _ => false

/-- A reference: a repeated pair of reference and container is a cycle, other values are limited in depth. -/
def validateRef (validate : Json ν → JsValue ν → List Key → ValidationContext ν → Check) (ref : JsStr)
    (value : JsValue ν) (path : List Key) (ctx : ValidationContext ν) : Check :=
  match resolveLocalRef host ctx.root ref with
  | none => .reject path (lit "unresolved reference " ++ ref) (lit "$ref")
  | some resolved =>
    match getValueIdentity path value with
    | some identity =>
      if (ref, identity) ∈ ctx.seenPairs then .pass
      else validate resolved value path { ctx with seenPairs := (ref, identity) :: ctx.seenPairs }
    | none =>
      if ctx.refDepth ≥ maxRefDepth then .reject path (lit "reference depth exceeded") (lit "$ref")
      else validate resolved value path { ctx with refDepth := ctx.refDepth + 1 }

def validateNode (validate : Json ν → JsValue ν → List Key → ValidationContext ν → Check) (schema : Json ν)
    (value : JsValue ν) (path : List Key) (ctx : ValidationContext ν) : Check :=
  match schema with
  | .bool true => .pass
  | .bool false => .reject path (lit "must not match false schema") (lit "false")
  | .obj fields =>
    match get fields "$ref" with
    | some (.str ref) => validateRef host validate ref value path ctx
    | _ =>
      if isNull value && isTrue (get fields "nullable") then .pass
      else validateKeywords host (fun schema value path => validate schema value path ctx) fields value path
  | _ => .reject path (lit "schema must be an object or boolean") (lit "schema")

/-- The recursion of the source, cut off after so many nested calls. -/
def validateSchemaNode : Nat → Json ν → JsValue ν → List Key → ValidationContext ν → Check
  | 0 => fun _ _ _ _ => none
  | n + 1 => validateNode host (validateSchemaNode n)

def validateJsonSchemaValue (fuel : Nat) (schema : Json ν) (value : JsValue ν) : Check :=
  validateSchemaNode host fuel schema value [] ⟨schema, [], 0⟩

end

end GajaeCode.Schema
