import GajaeCode.Json.Pointer
import GajaeCode.Text.Utf8

/-! JSON Schema, draft 2020-12: what a schema says about a value. A schema is read into the keywords of
its object, each subschema stands for its own meaning, and a meaning is the verdict on every value:
whether it is valid, and which of its members and items have been evaluated. -/
namespace GajaeCode.JsonSchema

open Text

inductive Location where
  | name (key : JsStr)
  | index (i : Nat)

structure Verdict where
  valid : Prop
  evaluated : Location → Prop

abbrev Meaning (ν : Type) := Json ν → Verdict

/-- The keywords of a schema object; `σ` are the subschemas. -/
structure Node (ν σ : Type) where
  ref : Option σ
  types : Option (List JsStr)
  const : Option (Json ν)
  enum : Option (List (Json ν))
  allOf : List σ
  anyOf : Option (List σ)
  oneOf : Option (List σ)
  not : Option σ
  ifSchema : Option σ
  thenSchema : Option σ
  elseSchema : Option σ
  properties : List (JsStr × σ)
  patternProperties : List (JsStr × σ)
  additionalProperties : Option σ
  propertyNames : Option σ
  required : List JsStr
  dependentRequired : List (JsStr × List JsStr)
  dependentSchemas : List (JsStr × σ)
  minProperties : Option ν
  maxProperties : Option ν
  unevaluatedProperties : Option σ
  prefixItems : List σ
  items : Option σ
  contains : Option σ
  minContains : Option ν
  maxContains : Option ν
  minItems : Option ν
  maxItems : Option ν
  uniqueItems : Bool
  unevaluatedItems : Option σ
  minLength : Option ν
  maxLength : Option ν
  pattern : Option JsStr
  minimum : Option ν
  maximum : Option ν
  exclusiveMinimum : Option ν
  exclusiveMaximum : Option ν
  multipleOf : Option ν

namespace Node

variable {ν σ τ : Type}

def empty : Node ν σ where
  ref := none
  types := none
  const := none
  enum := none
  allOf := []
  anyOf := none
  oneOf := none
  not := none
  ifSchema := none
  thenSchema := none
  elseSchema := none
  properties := []
  patternProperties := []
  additionalProperties := none
  propertyNames := none
  required := []
  dependentRequired := []
  dependentSchemas := []
  minProperties := none
  maxProperties := none
  unevaluatedProperties := none
  prefixItems := []
  items := none
  contains := none
  minContains := none
  maxContains := none
  minItems := none
  maxItems := none
  uniqueItems := false
  unevaluatedItems := none
  minLength := none
  maxLength := none
  pattern := none
  minimum := none
  maximum := none
  exclusiveMinimum := none
  exclusiveMaximum := none
  multipleOf := none

def map (f : σ → τ) (n : Node ν σ) : Node ν τ :=
  { n with
    ref := n.ref.map f
    allOf := n.allOf.map f
    anyOf := n.anyOf.map (List.map f)
    oneOf := n.oneOf.map (List.map f)
    not := n.not.map f
    ifSchema := n.ifSchema.map f
    thenSchema := n.thenSchema.map f
    elseSchema := n.elseSchema.map f
    properties := n.properties.map fun p => (p.1, f p.2)
    patternProperties := n.patternProperties.map fun p => (p.1, f p.2)
    additionalProperties := n.additionalProperties.map f
    propertyNames := n.propertyNames.map f
    dependentSchemas := n.dependentSchemas.map fun p => (p.1, f p.2)
    unevaluatedProperties := n.unevaluatedProperties.map f
    prefixItems := n.prefixItems.map f
    items := n.items.map f
    contains := n.contains.map f
    unevaluatedItems := n.unevaluatedItems.map f }

/-- The subschemas in the place of the schema and behind its keywords, without the reference. -/
def parts (n : Node ν σ) : List σ :=
  n.allOf ++ n.anyOf.getD [] ++ n.oneOf.getD [] ++ n.not.toList ++ n.ifSchema.toList ++
    n.thenSchema.toList ++ n.elseSchema.toList ++ n.properties.map Prod.snd ++
    n.patternProperties.map Prod.snd ++ n.additionalProperties.toList ++ n.propertyNames.toList ++
    n.dependentSchemas.map Prod.snd ++ n.unevaluatedProperties.toList ++ n.prefixItems ++
    n.items.toList ++ n.contains.toList ++ n.unevaluatedItems.toList

def children (n : Node ν σ) : List σ := n.ref.toList ++ n.parts

section

variable {f g : σ → τ}

theorem option_map_congr {o : Option σ} (h : ∀ t ∈ o.toList, f t = g t) : o.map f = o.map g := by
  cases o with
  | none => rfl
  | some t => exact congrArg some (h t (List.mem_singleton.mpr rfl))

theorem branches_map_congr {o : Option (List σ)} (h : ∀ t ∈ o.getD [], f t = g t) :
    o.map (List.map f) = o.map (List.map g) := by
  cases o with
  | none => rfl
  | some l => exact congrArg some (List.map_congr_left h)

theorem fields_map_congr {l : List (JsStr × σ)} (h : ∀ t ∈ l.map Prod.snd, f t = g t) :
    (l.map fun p => (p.1, f p.2)) = l.map fun p => (p.1, g p.2) :=
  List.map_congr_left fun p hp => by rw [h p.2 (List.mem_map_of_mem hp)]

theorem map_congr {n : Node ν σ} (h : ∀ t ∈ n.children, f t = g t) : n.map f = n.map g := by
  simp only [children, parts, List.forall_mem_append, and_assoc] at h
  obtain ⟨href, hallOf, hanyOf, honeOf, hnot, hif, hthen, helse, hproperties, hpattern, hadditional,
    hnames, hdependent, hunevaluated, hprefix, hitems, hcontains, hunevaluatedItems⟩ := h
  simp only [map, Node.mk.injEq, true_and, and_true]
  exact ⟨option_map_congr href, List.map_congr_left hallOf, branches_map_congr hanyOf,
    branches_map_congr honeOf, option_map_congr hnot, option_map_congr hif, option_map_congr hthen,
    option_map_congr helse, fields_map_congr hproperties, fields_map_congr hpattern,
    option_map_congr hadditional, option_map_congr hnames, fields_map_congr hdependent,
    option_map_congr hunevaluated, List.map_congr_left hprefix, option_map_congr hitems,
    option_map_congr hcontains, option_map_congr hunevaluatedItems⟩

end

end Node

mutual

/-- Equality of values: numbers by what they stand for, objects by their members. -/
def Same {ν : Type} (num : ν → ℚ) : Json ν → Json ν → Prop
  | .null, .null => True
  | .bool b, .bool c => b = c
  | .num m, .num n => num m = num n
  | .str s, .str t => s = t
  | .arr xs, .arr ys => SameItems num xs ys
  | .obj xs, .obj ys => SameFields num xs ys ∧ ∀ q ∈ ys, ∃ p ∈ xs, p.1 = q.1
  | _, _ => False

def SameItems {ν : Type} (num : ν → ℚ) : List (Json ν) → List (Json ν) → Prop
  | [], [] => True
  | x :: xs, y :: ys => Same num x y ∧ SameItems num xs ys
  | _, _ => False

def SameFields {ν : Type} (num : ν → ℚ) : List (JsStr × Json ν) → List (JsStr × Json ν) → Prop
  | [], _ => True
  | (k, x) :: xs, ys => (∃ y, (k, y) ∈ ys ∧ Same num x y) ∧ SameFields num xs ys

end

section

variable {ν : Type} (num : ν → ℚ) (matchesPattern : JsStr → JsStr → Prop)

def hasType : Json ν → JsStr → Prop
  | .null, type => type = lit "null"
  | .bool _, type => type = lit "boolean"
  | .num n, type => type = lit "number" ∨ type = lit "integer" ∧ ∃ k : ℤ, num n = k
  | .str _, type => type = lit "string"
  | .arr _, type => type = lit "array"
  | .obj _, type => type = lit "object"

namespace Node

variable (n : Node ν (Meaning ν)) (v : Json ν)

open Classical in
@[mk_iff]
structure General : Prop where
  ref : ∀ m ∈ n.ref, (m v).valid
  types : ∀ types ∈ n.types, ∃ type ∈ types, hasType num v type
  const : ∀ c ∈ n.const, Same num v c
  enum : ∀ entries ∈ n.enum, ∃ c ∈ entries, Same num v c
  allOf : ∀ m ∈ n.allOf, (m v).valid
  anyOf : ∀ branches ∈ n.anyOf, ∃ m ∈ branches, (m v).valid
  oneOf : ∀ branches ∈ n.oneOf, (branches.countP fun m => (m v).valid) = 1
  not : ∀ m ∈ n.not, ¬(m v).valid
  thenSchema : ∀ c ∈ n.ifSchema, (c v).valid → ∀ m ∈ n.thenSchema, (m v).valid
  elseSchema : ∀ c ∈ n.ifSchema, ¬(c v).valid → ∀ m ∈ n.elseSchema, (m v).valid

@[mk_iff]
structure Object (fields : List (JsStr × Json ν)) : Prop where
  required : ∀ key ∈ n.required, key ∈ fields.map Prod.fst
  properties : ∀ p ∈ n.properties, ∀ q ∈ fields, q.1 = p.1 → (p.2 q.2).valid
  patternProperties : ∀ p ∈ n.patternProperties, ∀ q ∈ fields, matchesPattern p.1 q.1 → (p.2 q.2).valid
  additionalProperties : ∀ m ∈ n.additionalProperties, ∀ q ∈ fields, q.1 ∉ n.properties.map Prod.fst →
    (∀ p ∈ n.patternProperties, ¬matchesPattern p.1 q.1) → (m q.2).valid
  propertyNames : ∀ m ∈ n.propertyNames, ∀ q ∈ fields, (m (.str q.1)).valid
  dependentRequired : ∀ p ∈ n.dependentRequired, p.1 ∈ fields.map Prod.fst → ∀ key ∈ p.2, key ∈ fields.map Prod.fst
  dependentSchemas : ∀ p ∈ n.dependentSchemas, p.1 ∈ fields.map Prod.fst → (p.2 (.obj fields)).valid
  minProperties : ∀ m ∈ n.minProperties, num m ≤ fields.length
  maxProperties : ∀ m ∈ n.maxProperties, (fields.length : ℚ) ≤ num m

open Classical in
@[mk_iff]
structure Array (elements : List (Json ν)) : Prop where
  prefixItems : ∀ (i : ℕ) (m : Meaning ν) (w : Json ν), n.prefixItems[i]? = some m →
    elements[i]? = some w → (m w).valid
  items : ∀ m ∈ n.items, ∀ w ∈ elements.drop n.prefixItems.length, (m w).valid
  contains : ∀ m ∈ n.contains, (n.minContains.map num).getD 1 ≤ (elements.countP fun w => (m w).valid : ℕ) ∧
      ∀ most ∈ n.maxContains, ((elements.countP fun w => (m w).valid : ℕ) : ℚ) ≤ num most
  minItems : ∀ m ∈ n.minItems, num m ≤ elements.length
  maxItems : ∀ m ∈ n.maxItems, (elements.length : ℚ) ≤ num m
  uniqueItems : n.uniqueItems = true → elements.Pairwise fun a b => ¬Same num a b

/-- The keywords for strings; the length counts characters, not units. -/
@[mk_iff]
structure Str (s : JsStr) : Prop where
  minLength : ∀ m ∈ n.minLength, num m ≤ (decodeUtf16 s).length
  maxLength : ∀ m ∈ n.maxLength, ((decodeUtf16 s).length : ℚ) ≤ num m
  pattern : ∀ p ∈ n.pattern, matchesPattern p s

@[mk_iff]
structure Num (x : ℚ) : Prop where
  minimum : ∀ m ∈ n.minimum, num m ≤ x
  maximum : ∀ m ∈ n.maximum, x ≤ num m
  exclusiveMinimum : ∀ m ∈ n.exclusiveMinimum, num m < x
  exclusiveMaximum : ∀ m ∈ n.exclusiveMaximum, x < num m
  multipleOf : ∀ m ∈ n.multipleOf, ∃ k : ℤ, x = k * num m

/-- A branch in the place of the schema has evaluated a location. -/
def branchEvaluates (l : Location) : Prop :=
  (∃ m ∈ n.ref, (m v).evaluated l) ∨ (∃ m ∈ n.allOf, (m v).evaluated l) ∨
    (∃ branches ∈ n.anyOf, ∃ m ∈ branches, (m v).evaluated l) ∨
    (∃ branches ∈ n.oneOf, ∃ m ∈ branches, (m v).evaluated l) ∨
    (∃ c ∈ n.ifSchema, (c v).evaluated l ∨ (c v).valid ∧ (∃ m ∈ n.thenSchema, (m v).evaluated l) ∨
      ¬(c v).valid ∧ ∃ m ∈ n.elseSchema, (m v).evaluated l) ∨
    ∃ p ∈ n.dependentSchemas, (∃ fields, v = .obj fields ∧ p.1 ∈ fields.map Prod.fst) ∧ (p.2 v).evaluated l

/-- What the keywords have evaluated, those for unevaluated locations apart. -/
def covers (l : Location) : Prop :=
  n.branchEvaluates v l ∨
    match l with
    | .name key => key ∈ n.properties.map Prod.fst ∨ (∃ p ∈ n.patternProperties, matchesPattern p.1 key) ∨
        n.additionalProperties.isSome = true
    | .index i => i < n.prefixItems.length ∨ n.items.isSome = true ∨
        ∃ m ∈ n.contains, ∃ items w, v = .arr items ∧ items[i]? = some w ∧ (m w).valid

/-- The keywords for the locations that no other keyword has evaluated. -/
@[mk_iff]
structure Unevaluated : Prop where
  properties : ∀ m ∈ n.unevaluatedProperties, ∀ fields, v = .obj fields → ∀ q ∈ fields,
    ¬n.covers matchesPattern v (.name q.1) → (m q.2).valid
  items : ∀ m ∈ n.unevaluatedItems, ∀ items, v = .arr items → ∀ i w, items[i]? = some w →
    ¬n.covers matchesPattern v (.index i) → (m w).valid

@[mk_iff]
structure Holds : Prop where
  general : n.General num v
  object : ∀ fields, v = .obj fields → n.Object num matchesPattern fields
  array : ∀ items, v = .arr items → n.Array num items
  string : ∀ s, v = .str s → n.Str num matchesPattern s
  number : ∀ x, v = .num x → n.Num num (num x)
  unevaluated : n.Unevaluated matchesPattern v

def verdict : Verdict where
  valid := n.Holds num matchesPattern v
  evaluated l := n.Holds num matchesPattern v ∧ (n.covers matchesPattern v l ∨
    match l with
    | .name _ => n.unevaluatedProperties.isSome = true
    | .index _ => n.unevaluatedItems.isSome = true)

end Node

end

inductive Shape (ν σ : Type) where
  | always (b : Bool)
  | node (n : Node ν σ)

namespace Shape

variable {ν σ τ : Type}

def map (f : σ → τ) : Shape ν σ → Shape ν τ
  | .always b => .always b
  | .node n => .node (n.map f)

def children : Shape ν σ → List σ
  | .always _ => []
  | .node n => n.children

theorem map_congr {s : Shape ν σ} {f g : σ → τ} (h : ∀ t ∈ s.children, f t = g t) : s.map f = s.map g := by
  cases s with
  | always b => rfl
  | node n => exact congrArg Shape.node (Node.map_congr h)

def verdict (num : ν → ℚ) (matchesPattern : JsStr → JsStr → Prop) (v : Json ν) :
    Shape ν (Meaning ν) → Verdict
  | .always b => ⟨b = true, fun _ => False⟩
  | .node n => n.verdict num matchesPattern v

end Shape

section

variable {ν : Type}

abbrev Fields (ν : Type) := List (JsStr × Json ν)

def get (fields : Fields ν) (keyword : String) : Option (Json ν) := fields.lookup (lit keyword)

def branches (fields : Fields ν) (keyword : String) : Option (List (Json ν)) :=
  (get fields keyword).bind Json.asItems

def fieldMap (fields : Fields ν) (keyword : String) : Fields ν :=
  ((get fields keyword).bind Json.asFields).getD []

def number (fields : Fields ν) (keyword : String) : Option ν := (get fields keyword).bind Json.asNum

def typeNames : Json ν → Option (List JsStr)
  | .str type => some [type]
  | v => v.asStrs

/-- The schema that a reference names; one that names nothing holds of no value. -/
def refTarget (decode : JsStr → JsStr) (root : Json ν) (fields : Fields ν) : Option (Json ν) :=
  ((get fields "$ref").bind Json.asStr).map fun ref => (root.resolve decode ref).getD (.bool false)

def node (decode : JsStr → JsStr) (root : Json ν) (fields : Fields ν) : Node ν (Json ν) where
  ref := refTarget decode root fields
  types := (get fields "type").bind typeNames
  const := get fields "const"
  enum := branches fields "enum"
  allOf := (branches fields "allOf").getD []
  anyOf := branches fields "anyOf"
  oneOf := branches fields "oneOf"
  not := get fields "not"
  ifSchema := get fields "if"
  thenSchema := get fields "then"
  elseSchema := get fields "else"
  properties := fieldMap fields "properties"
  patternProperties := fieldMap fields "patternProperties"
  additionalProperties := get fields "additionalProperties"
  propertyNames := get fields "propertyNames"
  required := ((get fields "required").bind Json.asStrs).getD []
  dependentRequired := (fieldMap fields "dependentRequired").map fun p => (p.1, p.2.asStrs.getD [])
  dependentSchemas := fieldMap fields "dependentSchemas"
  minProperties := number fields "minProperties"
  maxProperties := number fields "maxProperties"
  unevaluatedProperties := get fields "unevaluatedProperties"
  prefixItems := (branches fields "prefixItems").getD []
  items := get fields "items"
  contains := get fields "contains"
  minContains := number fields "minContains"
  maxContains := number fields "maxContains"
  minItems := number fields "minItems"
  maxItems := number fields "maxItems"
  uniqueItems := match get fields "uniqueItems" with
    | some (.bool b) => b
    | _ => false
  unevaluatedItems := get fields "unevaluatedItems"
  minLength := number fields "minLength"
  maxLength := number fields "maxLength"
  pattern := (get fields "pattern").bind Json.asStr
  minimum := number fields "minimum"
  maximum := number fields "maximum"
  exclusiveMinimum := number fields "exclusiveMinimum"
  exclusiveMaximum := number fields "exclusiveMaximum"
  multipleOf := number fields "multipleOf"

/-- What is no schema holds of no value. -/
def shape (decode : JsStr → JsStr) (root : Json ν) : Json ν → Shape ν (Json ν)
  | .bool b => .always b
  | .obj fields => .node (node decode root fields)
  | _ => .always false

def Applies (decode : JsStr → JsStr) (root t s : Json ν) : Prop := t ∈ (shape decode root s).children

end

section

variable {ν : Type} (num : ν → ℚ) (matchesPattern : JsStr → JsStr → Prop)
  (decode : JsStr → JsStr) (root : Json ν)

open Classical in
/-- By recursion on the subschemas and references of an acyclic schema. -/
noncomputable def meaningOf {s : Json ν} (h : Acc (Applies decode root) s) : Meaning ν :=
  Acc.rec (motive := fun _ _ => Meaning ν)
    (fun s _ ih v => ((shape decode root s).map fun t =>
      if ht : Applies decode root t s then ih t ht else fun _ => ⟨False, fun _ => False⟩).verdict
        num matchesPattern v) h

open Classical in
noncomputable def meaning (s : Json ν) : Meaning ν :=
  if h : Acc (Applies decode root) s then meaningOf num matchesPattern decode root h
  else fun _ => ⟨False, fun _ => False⟩

/-- The value is valid under the schema `s` of the document `root`. -/
def Valid (s v : Json ν) : Prop := (meaning num matchesPattern decode root s v).valid

open Classical in
theorem meaning_eq {s : Json ν} (h : Acc (Applies decode root) s) (v : Json ν) :
    meaning num matchesPattern decode root s v =
      ((shape decode root s).map (meaning num matchesPattern decode root)).verdict num matchesPattern v := by
  have hmap : ((shape decode root s).map fun t =>
      if ht : Applies decode root t s then meaningOf num matchesPattern decode root (h.inv ht)
      else fun _ => ⟨False, fun _ => False⟩) =
      (shape decode root s).map (meaning num matchesPattern decode root) := by
    apply Shape.map_congr
    intro t ht
    have happlies : Applies decode root t s := ht
    rw [dif_pos happlies, meaning, dif_pos (h.inv happlies)]
  rw [← hmap, meaning, dif_pos h]
  cases h
  rfl

end

end GajaeCode.JsonSchema
