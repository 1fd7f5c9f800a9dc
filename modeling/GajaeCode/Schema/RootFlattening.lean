import GajaeCode.Schema.RootBranches

/-! What the flattened root accepts. -/
namespace GajaeCode.Schema

open Text Data
open List hiding get
open JsonSchema

variable {ν : Type}

section

variable {target source base : Fields ν} {variants : List (Fields ν)} {key : JsStr}

def declares (branch : Fields ν) (key : JsStr) : Prop := key ∈ (fieldMap branch "properties").map Prod.fst

theorem nodup_objectAssign (h : (target.map Prod.fst).Nodup) (source : Fields ν) :
    ((objectAssign target source).map Prod.fst).Nodup := by
  refine foldlRecOn (motive := fun t : Fields ν => (t.map Prod.fst).Nodup) source _ h ?_
  intro t ht entry _
  split
  next => exact ht
  next => exact nodup_keys_assocSet entry.1 entry.2 ht

theorem lookup_objectAssign (hkey : key = lit "__proto__" → source.lookup key = none)
    (hnodup : (source.map Prod.fst).Nodup) (target : Fields ν) :
    (objectAssign target source).lookup key = (source.lookup key).or (target.lookup key) := by
  unfold objectAssign
  induction source generalizing target with
  | nil => rfl
  | cons entry source ih =>
    obtain ⟨hentry, hrest⟩ := nodup_cons.mp hnodup
    have hkey' : key = lit "__proto__" → source.lookup key = none := by
      intro hproto
      have hlookup := hkey hproto
      rw [lookup_cons] at hlookup
      split at hlookup
      next => cases hlookup
      next => exact hlookup
    rw [foldl_cons, ih hkey' hrest, lookup_cons]
    by_cases heq : key = entry.1
    · have hnone := lookup_eq_none_of_notMem (heq ▸ hentry)
      have hproto : entry.1 ≠ lit "__proto__" := by
        intro hproto
        have hlookup := hkey (heq.trans hproto)
        rw [lookup_cons, heq, beq_self_eq_true] at hlookup
        cases hlookup
      rw [hnone, heq, beq_self_eq_true, if_neg hproto, lookup_assocSet, if_pos rfl]
      rfl
    · rw [beq_false_of_ne heq]
      split
      next => rfl
      next => rw [lookup_assocSet, if_neg heq]

/-- The last branch that declares a name decides on its schema. -/
theorem lookup_mergedProperties
    (hkey : key = lit "__proto__" → ∀ branch ∈ variants, (fieldMap branch "properties").lookup key = none)
    (hnodup : ∀ branch ∈ variants, ((fieldMap branch "properties").map Prod.fst).Nodup) (base : Fields ν) :
    (∃ branch ∈ variants, ∃ t, (fieldMap branch "properties").lookup key = some t ∧
        (mergedProperties base variants).lookup key = some t) ∨
      (∀ branch ∈ variants, (fieldMap branch "properties").lookup key = none) ∧
        (mergedProperties base variants).lookup key = base.lookup key := by
  unfold mergedProperties
  induction variants generalizing base with
  | nil => exact .inr ⟨by simp, rfl⟩
  | cons branch rest ih =>
    have hfields : (branchProperties branch).getD [] = fieldMap branch "properties" := rfl
    have hassign := lookup_objectAssign (fun hproto => hkey hproto branch mem_cons_self)
      (hnodup branch mem_cons_self) base
    rw [foldl_cons, hfields]
    rcases ih (fun hproto => (forall_mem_cons.mp (hkey hproto)).2) (forall_mem_cons.mp hnodup).2
      (objectAssign base (fieldMap branch "properties"))
      with ⟨b, hb, t, ht, hlookup⟩ | ⟨hnone, hlookup⟩
    · exact .inl ⟨b, mem_cons_of_mem _ hb, t, ht, hlookup⟩
    · rw [hlookup, hassign]
      cases hbranch : (fieldMap branch "properties").lookup key with
      | some t => exact .inl ⟨branch, mem_cons_self, t, hbranch, rfl⟩
      | none =>
        exact .inr ⟨forall_mem_cons.mpr ⟨hbranch, hnone⟩, rfl⟩

theorem nodup_mergedProperties (h : (base.map Prod.fst).Nodup) (variants : List (Fields ν)) :
    ((mergedProperties base variants).map Prod.fst).Nodup := by
  refine foldlRecOn (motive := fun t : Fields ν => (t.map Prod.fst).Nodup) variants _ h ?_
  intro t ht branch _
  exact nodup_objectAssign ht _

theorem mem_mergedProperties {p} (h : p ∈ mergedProperties base variants) :
    p ∈ base ∨ ∃ branch ∈ variants, p ∈ fieldMap branch "properties" := by
  let Known (t : Fields ν) : Prop := ∀ p ∈ t, p ∈ base ∨ ∃ branch ∈ variants, p ∈ fieldMap branch "properties"
  have hinv : Known (mergedProperties base variants) := by
    refine foldlRecOn (motive := Known) variants _ (fun p hp => .inl hp) ?_
    intro t ht branch hbranch
    refine foldlRecOn (motive := Known) _ _ ht ?_
    intro t ht entry hentry p hp
    split at hp
    next => exact ht p hp
    next =>
      rcases mem_assocSet hp with rfl | hp
      · exact .inr ⟨branch, hbranch, hentry⟩
      · exact ht p hp
  exact hinv p h

end

section

variable (engine : Engine ν) {num : ν → ℚ}

def addAction (values : List (Json ν)) (branch : Fields ν) : List (Json ν) :=
  match branchAction branch with
  | some value => if values.any fun known => sameValueZero engine known value then values else values ++ [value]
  | none => values

variable (values : List (Json ν))

theorem subset_addAction (branch : Fields ν) : values ⊆ addAction engine values branch := by
  unfold addAction
  split
  next =>
    split
    next => exact List.Subset.refl _
    next => exact subset_append_left _ _
  next => exact List.Subset.refl _

theorem subset_addActions (variants : List (Fields ν)) : values ⊆ variants.foldl (addAction engine) values := by
  refine foldlRecOn (motive := fun t => values ⊆ t) variants _ (List.Subset.refl _) ?_
  intro t ht branch _ x hx
  exact subset_addAction engine t branch (ht hx)

variable {branch : Fields ν} {variants : List (Fields ν)}
  {literal : Json ν}

theorem exists_mem_addAction (hliteral : branchAction branch = some literal) :
    ∃ value ∈ addAction engine values branch, value = literal ∨ sameValueZero engine value literal = true := by
  rw [addAction, hliteral]
  by_cases hknown : (values.any fun known => sameValueZero engine known literal) = true
  · obtain ⟨known, hmem, hsame⟩ := any_eq_true.mp hknown
    refine ⟨known, ?_, .inr hsame⟩
    simpa [hknown] using hmem
  · simp [hknown]

theorem exists_mem_addActions (hbranch : branch ∈ variants)
    (hliteral : branchAction branch = some literal) (values : List (Json ν)) :
    ∃ value ∈ variants.foldl (addAction engine) values,
      value = literal ∨ sameValueZero engine value literal = true := by
  induction variants generalizing values with
  | nil => cases hbranch
  | cons first rest ih =>
    rcases mem_cons.mp hbranch with rfl | hbranch
    · obtain ⟨value, hmem, hsame⟩ := exists_mem_addAction engine values hliteral
      exact ⟨value, subset_addActions engine _ rest hmem, hsame⟩
    · exact ih hbranch _

theorem exists_branchAction_of_actionValues (h : actionValues engine variants ≠ []) :
    ∃ branch ∈ variants, (branchAction branch).isSome = true := by
  by_contra hnone
  push Not at hnone
  apply h
  refine foldlRecOn (motive := fun t : List (Json ν) => t = []) variants _ rfl ?_
  intro t ht branch hbranch
  have hbranch := Option.not_isSome_iff_eq_none.mp (hnone branch hbranch)
  rw [hbranch, ht]

theorem same_of_sameValueZero (hnumber : ∀ m n, engine.sameNumber m n = true → num m = num n)
    {w value} (hsame : Same num w literal)
    (h : value = literal ∨ sameValueZero engine value literal = true) : Same num w value := by
  rcases h with rfl | h
  · exact hsame
  · cases value <;> cases literal <;> simp only [sameValueZero, beq_iff_eq, Bool.false_eq_true] at h
    case null.null => exact hsame
    case bool.bool => exact h ▸ hsame
    case num.num m n =>
      cases w <;> simp only [Same] at hsame ⊢
      rw [hsame, hnumber m n h]
    case str.str => exact h ▸ hsame

end

section

variable {num : ν → ℚ} {matchesPattern : JsStr → JsStr → Prop} {decode : JsStr → JsStr}
  {root v : Json ν} {fields fields' : Fields ν}

def SameButLiterals (fields fields' : Fields ν) : Prop :=
  ∀ key, key ≠ lit "const" → key ≠ lit "enum" → fields.lookup key = fields'.lookup key

theorem SameButLiterals.node_eq (h : SameButLiterals fields fields') : node decode root fields =
      { node decode root fields' with const := get fields "const", enum := branches fields "enum" } := by
  have hget : ∀ key : String, lit key ≠ lit "const" → lit key ≠ lit "enum" → get fields key = get fields' key :=
    fun key => h (lit key)
  simp (disch := decide) only [node, refTarget, branches, fieldMap, number, hget]

theorem SameButLiterals.refFree (h : SameButLiterals fields fields') (hfree : RefFree (.obj fields')) :
    RefFree (.obj fields) := by
  obtain ⟨href, hbelow⟩ := hfree
  constructor
  · rintro _ ⟨⟩
    rw [JsonSchema.get, h _ (by decide) (by decide)]
    exact href fields' rfl
  · intro t ht
    rw [schemasBelow, h.node_eq] at ht
    exact hbelow t ht

/-- The literals can be replaced by a choice among which the value is. -/
theorem SameButLiterals.valid (h : SameButLiterals fields fields') (hfree : RefFree (.obj fields'))
    (hvalid : Valid num matchesPattern decode root (.obj fields') v) (hconst : get fields "const" = none)
    {values} (henum : branches fields "enum" = some values) (hmem : ∃ c ∈ values, Same num v c) :
    Valid num matchesPattern decode root (.obj fields) v := by
  rw [(h.refFree hfree).valid_iff, h.node_eq, hconst, henum]
  obtain ⟨general, object, array, string, number, unevaluated⟩ := hfree.valid_iff.mp hvalid
  refine ⟨{ general with const := ?_, enum := ?_ }, fun o ho => { object o ho with },
    fun a ha => { array a ha with }, fun s hs => { string s hs with }, fun x hx => { number x hx with },
    { unevaluated with }⟩
  · exact nofun
  · intro entries hentries
    cases hentries
    exact hmem

def actionSchema (existing : Fields ν) (values : List (Json ν)) : Fields ν :=
  assocSet (lit "enum") (.arr values) (existing.filter fun entry => entry.1 != lit "const")

variable (existing : Fields ν) (values : List (Json ν))

theorem sameButLiterals_actionSchema : SameButLiterals (actionSchema existing values) existing := by
  intro key hconst henum
  rw [actionSchema, lookup_assocSet, if_neg henum, lookup_filter_keys (fun k => k != lit "const")]
  simp [hconst]

theorem get_const_actionSchema : get (actionSchema existing values) "const" = none := by
  rw [JsonSchema.get, actionSchema, lookup_assocSet, if_neg (by decide), lookup_filter_keys (fun k => k != lit "const")]
  simp

theorem branches_enum_actionSchema : branches (actionSchema existing values) "enum" = some values := by
  rw [branches, JsonSchema.get, actionSchema, lookup_assocSet]
  rfl

theorem withActionEnum_of_ne_nil {values} (h : values ≠ []) (properties : Fields ν) :
    withActionEnum properties values = assocSet (lit "action")
      (.obj (actionSchema (((get properties "action").bind Json.asFields).getD []) values)) properties := by
  rw [withActionEnum, if_neg (by simpa using h)]
  rfl

theorem mem_keys_withActionEnum {properties key} (h : key ∈ properties.map Prod.fst)
    (values : List (Json ν)) : key ∈ (withActionEnum properties values).map Prod.fst := by
  by_cases hvalues : values = []
  · rw [hvalues]
    exact h
  · rw [withActionEnum_of_ne_nil hvalues, mem_keys_assocSet]
    exact .inr h

theorem nodup_withActionEnum {properties} (h : (properties.map Prod.fst).Nodup) (values : List (Json ν)) :
    ((withActionEnum properties values).map Prod.fst).Nodup := by
  by_cases hvalues : values = []
  · rw [hvalues]
    exact h
  · rw [withActionEnum_of_ne_nil hvalues]
    exact nodup_keys_assocSet _ _ h

end

section

variable {engine : Engine ν} {schema : Fields ν} {key : String} {variants : List (Fields ν)}

def flatProperties (engine : Engine ν) (schema : Fields ν) (variants : List (Fields ν)) : Fields ν :=
  withActionEnum (mergedProperties (fieldMap schema "properties") variants) (actionValues engine variants)

def rewrittenKeys : List JsStr :=
  ["type", "properties", "additionalProperties", "required", "description", "anyOf", "allOf", "oneOf"].map lit

theorem lookup_spillToDescription (fields : Fields ν) (entries : List (JsStr × Json ν)) {k}
    (hk : k ≠ lit "description") : (spillToDescription engine fields entries).lookup k = fields.lookup k := by
  unfold spillToDescription
  split
  next => rfl
  next => rw [lookup_assocSet, if_neg hk]

theorem asStrs_of_strings {items : List (Json ν)} (h : ∀ item ∈ items, item.asStr.isSome = true) :
    (Json.arr items).asStrs = some (items.filterMap Json.asStr) := by
  rw [Json.asStrs]
  induction items with
  | nil => rfl
  | cons item items ih =>
    obtain ⟨hitem, hrest⟩ := forall_mem_cons.mp h
    obtain ⟨name, hname⟩ := Option.isSome_iff_exists.mp hitem
    rw [mapM_cons, hname, ih hrest, filterMap_cons_some hname]
    rfl

theorem asStrs_map_str (names : List JsStr) : (Json.arr (names.map .str) : Json ν).asStrs = some names := by
  rw [asStrs_of_strings (forall_mem_map.mpr fun _ _ => rfl), filterMap_map]
  exact congrArg some filterMap_some

section

variable (hfound : flattenedBranches schema = some (key, variants))
include hfound

theorem lookup_flatten {k} (hk : k ≠ lit "description") : (flattenToolRootCombinators engine schema).lookup k =
      if (combinatorKeys.map lit).contains k then none
      else if k = lit "required" then some (.arr ((commonRequired variants).map .str))
      else if k = lit "additionalProperties" then some ((get schema "additionalProperties").getD (.bool false))
      else if k = lit "properties" then some (.obj (flatProperties engine schema variants))
      else if k = lit "type" then some (.str (lit "object")) else schema.lookup k := by
  have hroots : (rootCombinators schema).isEmpty = false := by
    cases hnil : rootCombinators schema with
    | nil => simp [flattenedBranches, hnil] at hfound
    | cons => rfl
  have hadditional : get (assocSet (lit "properties") (.obj (flatProperties engine schema variants))
      (assocSet (lit "type") (.str (lit "object")) schema)) "additionalProperties" =
      get schema "additionalProperties" := by
    rw [JsonSchema.get, lookup_assocSet, lookup_assocSet, if_neg (by decide)]
    rfl
  simp only [flattenToolRootCombinators, hroots, hfound, Bool.false_eq_true, if_false, withoutCombinators]
  rw [lookup_filter_keys (fun k => !(combinatorKeys.map lit).contains k), lookup_spillToDescription _ _ hk]
  cases hcombinator : (combinatorKeys.map lit).contains k with
  | true => rfl
  | false =>
    rw [lookup_assocSet, asObjectRoot, lookup_assocSet, lookup_assocSet, lookup_assocSet]
    simp only [Bool.not_false, Bool.false_eq_true, if_true, if_false]
    simp only [flatProperties] at hadditional ⊢
    rw [hadditional]

theorem get_flatten (keyword : String) (hkeyword : lit keyword ∉ rewrittenKeys) :
    get (flattenToolRootCombinators engine schema) keyword = get schema keyword := by
  simp only [rewrittenKeys, map_cons, map_nil, mem_cons, not_mem_nil, or_false, not_or] at hkeyword
  obtain ⟨htype, hproperties, hadditional, hrequired, hdescription, hany, hall, hone⟩ := hkeyword
  rw [JsonSchema.get, lookup_flatten hfound hdescription, if_neg (by simp [combinatorKeys, hany, hall, hone]),
    if_neg hrequired, if_neg hadditional, if_neg hproperties, if_neg htype]
  rfl

theorem node_flatten (decode : JsStr → JsStr) (root : Json ν) :
    node decode root (flattenToolRootCombinators engine schema) =
      { node decode root schema with
        types := some [lit "object"]
        properties := flatProperties engine schema variants
        additionalProperties := some ((get schema "additionalProperties").getD (.bool false))
        required := commonRequired variants
        allOf := []
        anyOf := none
        oneOf := none } := by
  have htype : get (flattenToolRootCombinators engine schema) "type" = some (.str (lit "object")) :=
    lookup_flatten hfound (by decide)
  have hproperties : get (flattenToolRootCombinators engine schema) "properties" =
      some (.obj (flatProperties engine schema variants)) := lookup_flatten hfound (by decide)
  have hadditional : get (flattenToolRootCombinators engine schema) "additionalProperties" =
      some ((get schema "additionalProperties").getD (.bool false)) := lookup_flatten hfound (by decide)
  have hrequired : get (flattenToolRootCombinators engine schema) "required" =
      some (.arr ((commonRequired variants).map .str)) := lookup_flatten hfound (by decide)
  have hall : get (flattenToolRootCombinators engine schema) "allOf" = none := lookup_flatten hfound (by decide)
  have hany : get (flattenToolRootCombinators engine schema) "anyOf" = none := lookup_flatten hfound (by decide)
  have hone : get (flattenToolRootCombinators engine schema) "oneOf" = none := lookup_flatten hfound (by decide)
  simp (disch := decide) only [node, refTarget, branches, fieldMap, number, get_flatten hfound, htype,
    hproperties, hadditional, hrequired, hall, hany, hone, Option.bind_some, Option.bind_none, asStrs_map_str,
    Option.getD_some, Option.getD_none, typeNames, Json.asFields]

end

end

section

variable {engine : Engine ν} {num : ν → ℚ} {matchesPattern : JsStr → JsStr → Prop}
  {decode : JsStr → JsStr} {root w : Json ν} {schema members : Fields ν} {key : String}
  {variants : List (Fields ν)}

/-- Two schemas that fix one literal each and agree otherwise. -/
def LiteralAlike (t t' : Json ν) : Prop :=
  ∃ fields fields', t = .obj fields ∧ t' = .obj fields' ∧ (getSingleLiteralValue (some t)).isSome = true ∧
    (getSingleLiteralValue (some t')).isSome = true ∧ SameButLiterals fields fields'

/-- Branches that declare the same name give it the same schema; the literal of `action` may differ. -/
def BranchesAgree (variants : List (Fields ν)) : Prop :=
  ∀ branch ∈ variants, ∀ branch' ∈ variants, ∀ name t t', (fieldMap branch "properties").lookup name = some t →
    (fieldMap branch' "properties").lookup name = some t' → t = t' ∨ name = lit "action" ∧ LiteralAlike t t'

variable {fields branch : Fields ν}
  {p : JsStr × Json ν} {name : JsStr}

theorem property_mem_schemasBelow (h : p ∈ fieldMap fields "properties") : p.2 ∈ schemasBelow (.obj fields) := by
  have hmem : p.2 ∈ (node id .null fields).properties.map Prod.snd := mem_map_of_mem h
  rw [schemasBelow]
  generalize node id .null fields = n at hmem
  simp only [Node.parts, mem_append]
  tauto

theorem valid_property (hfree : RefFree (.obj fields))
    (hvalid : Valid num matchesPattern decode root (.obj fields) (.obj members))
    {q} (hp : p ∈ fieldMap fields "properties") (hq : q ∈ members)
    (hname : q.1 = p.1) : Valid num matchesPattern decode root p.2 q.2 := by
  have hobject := (hfree.valid_iff.mp hvalid).object members rfl
  exact hobject.properties (p.1, meaning num matchesPattern decode root p.2)
    (mem_map_of_mem (f := fun p : JsStr × Json ν => (p.1, meaning num matchesPattern decode root p.2)) hp)
    q hq hname

theorem same_literal {t literal} (hfree : RefFree t) (hvalid : Valid num matchesPattern decode root t w)
    (hliteral : getSingleLiteralValue (some t) = some literal) : Same num w literal := by
  cases t with
  | obj fields =>
    have hgeneral := (hfree.valid_iff.mp hvalid).general
    rw [getSingleLiteralValue] at hliteral
    split at hliteral
    next const hconst =>
      cases hliteral
      exact hgeneral.const literal hconst
    next =>
      split at hliteral
      next value henum =>
        cases hliteral
        obtain ⟨c, hc, hsame⟩ := hgeneral.enum [literal] henum
        rw [mem_singleton.mp hc] at hsame
        exact hsame
      next => cases hliteral
  | null | bool | num | str | arr => cases hliteral

theorem branchAction_eq {found} (h : (fieldMap branch "properties").lookup (lit "action") = found) :
    branchAction branch = getSingleLiteralValue found := by
  rw [← h, branchAction, branchProperties, fieldMap]
  cases (get branch "properties").bind Json.asFields with
  | none => rfl
  | some properties => rfl

theorem exists_action_of_branchAction (h : (branchAction branch).isSome = true) :
    ∃ t, (fieldMap branch "properties").lookup (lit "action") = some t ∧
      (getSingleLiteralValue (some t)).isSome = true := by
  rw [branchAction_eq rfl] at h
  cases hlookup : (fieldMap branch "properties").lookup (lit "action") with
  | some t => exact ⟨t, rfl, hlookup ▸ h⟩
  | none =>
    rw [hlookup] at h
    cases h

theorem mem_parts_objectRoot {σ properties additional t required} (n : Node ν σ)
    (ht : t ∈ { n with
      types := some [lit "object"]
      properties := properties
      additionalProperties := some additional
      required := required
      allOf := []
      anyOf := none
      oneOf := none }.parts) : t ∈ n.parts ∨ t ∈ properties.map Prod.snd ∨ t = additional := by
  simp only [Node.parts, mem_append, Option.toList_some, mem_singleton, Option.getD_none, not_mem_nil, false_or] at ht ⊢
  tauto

theorem additional_mem_schemasBelow {s} (h : get fields "additionalProperties" = some s) :
    s ∈ schemasBelow (.obj fields) := by
  have hmem : s ∈ (node id .null fields).additionalProperties.toList := by
    rw [show (node id .null fields).additionalProperties = some s from h]
    exact mem_singleton.mpr rfl
  rw [schemasBelow]
  generalize node id .null fields = n at hmem
  simp only [Node.parts, mem_append]
  tauto

section

variable (hfree : RefFree (.obj schema)) (hfound : flattenedBranches schema = some (key, variants))
include hfree hfound

theorem refFree_flatProperties (hp : p ∈ flatProperties engine schema variants) : RefFree p.2 := by
  have hmerged : ∀ p ∈ mergedProperties (fieldMap schema "properties") variants, RefFree p.2 := by
    intro p hp
    rcases mem_mergedProperties hp with hp | ⟨branch, hbranch, hp⟩
    · exact hfree.of_mem (property_mem_schemasBelow hp)
    · exact (refFree_of_mem_flattened hfree hfound hbranch).of_mem (property_mem_schemasBelow hp)
  rw [flatProperties] at hp
  by_cases hvalues : actionValues engine variants = []
  · rw [hvalues] at hp
    exact hmerged p hp
  · rw [withActionEnum_of_ne_nil hvalues] at hp
    rcases mem_assocSet hp with rfl | hp
    · apply (sameButLiterals_actionSchema _ _).refFree
      cases haction : (get (mergedProperties (fieldMap schema "properties") variants) "action").bind Json.asFields with
      | none => exact RefFree.of_noRefKey rfl
      | some fields =>
        obtain ⟨t, ht, hfields⟩ := Option.bind_eq_some_iff.mp haction
        cases t <;> cases hfields
        exact hmerged _ (mem_of_lookup ht)
    · exact hmerged p hp

theorem refFree_flatten : RefFree (.obj (flattenToolRootCombinators engine schema)) := by
  obtain ⟨href, hbelow⟩ := hfree
  constructor
  · rintro _ ⟨⟩
    rw [get_flatten hfound "$ref" (by decide)]
    exact href schema rfl
  · intro t ht
    rw [schemasBelow, node_flatten hfound] at ht
    have hcases : t ∈ schemasBelow (.obj schema) ∨ t ∈ (flatProperties engine schema variants).map Prod.snd ∨
        t = .bool false := by
      rcases mem_parts_objectRoot _ ht with ht | ht | rfl
      · exact .inl ht
      · exact .inr (.inl ht)
      · cases hget : get schema "additionalProperties" with
        | none => exact .inr (.inr rfl)
        | some s => exact .inl (additional_mem_schemasBelow hget)
    rcases hcases with ht | ht | rfl
    · exact hbelow t ht
    · obtain ⟨p, hp, rfl⟩ := mem_map.mp ht
      exact refFree_flatProperties (.intro href hbelow) hfound hp
    · exact RefFree.of_noRefKey rfl

theorem valid_flatProperty (hnumber : ∀ m n, engine.sameNumber m n = true → num m = num n)
    (hnodup : ((fieldMap schema "properties").map Prod.fst).Nodup)
    (hbranches : ∀ branch ∈ variants, ((fieldMap branch "properties").map Prod.fst).Nodup)
    (hproto : ∀ branch ∈ variants, (fieldMap branch "properties").lookup (lit "__proto__") = none)
    (hagree : BranchesAgree variants) (hvalid : Valid num matchesPattern decode root (.obj schema) (.obj members))
    {q} (hp : p ∈ flatProperties engine schema variants) (hq : q ∈ members) (hname : q.1 = p.1)
    (hdeclared : (∃ branch ∈ variants, declares branch q.1) → ∃ branch ∈ variants, declares branch q.1 ∧
      Valid num matchesPattern decode root (.obj branch) (.obj members)) :
    Valid num matchesPattern decode root p.2 q.2 := by
  have hlookup : (flatProperties engine schema variants).lookup p.1 = some p.2 :=
    lookup_of_mem (nodup_withActionEnum (nodup_mergedProperties hnodup variants) _) hp
  -- the schema that an accepting branch gives to a declared name
  have haccepting : ∀ branch ∈ variants, ∀ t, (fieldMap branch "properties").lookup p.1 = some t →
      ∃ branch' ∈ variants, ∃ t', (fieldMap branch' "properties").lookup p.1 = some t' ∧ RefFree t' ∧
        Valid num matchesPattern decode root t' q.2 := by
    intro branch hbranch t ht
    have hname' : declares branch q.1 := by
      rw [declares, hname, ← isSome_lookup_iff, ht]
      rfl
    obtain ⟨branch', hbranch', hdeclares, hvalid'⟩ := hdeclared ⟨branch, hbranch, hname'⟩
    have hfree' := refFree_of_mem_flattened hfree hfound hbranch'
    rw [declares, hname, ← isSome_lookup_iff] at hdeclares
    obtain ⟨t', ht'⟩ := Option.isSome_iff_exists.mp hdeclares
    exact ⟨branch', hbranch', t', ht', hfree'.of_mem (property_mem_schemasBelow (mem_of_lookup ht')),
      valid_property hfree' hvalid' (mem_of_lookup ht') hq hname⟩
  have hmerged := @lookup_mergedProperties ν variants p.1 (fun h => h ▸ hproto) hbranches (fieldMap schema "properties")
  by_cases haction : actionValues engine variants ≠ [] ∧ p.1 = lit "action"
  · obtain ⟨hvalues, hp1⟩ := haction
    rw [hp1] at hlookup hmerged haccepting
    rw [flatProperties, withActionEnum_of_ne_nil hvalues, lookup_assocSet, if_pos rfl, Option.some.injEq] at hlookup
    obtain ⟨branch, hbranch, hliteral⟩ := exists_branchAction_of_actionValues engine hvalues
    obtain ⟨t, ht, hliteral⟩ := exists_action_of_branchAction hliteral
    obtain ⟨branch', hbranch', t', ht', hfree', hvalid'⟩ := haccepting branch hbranch t ht
    rcases hmerged with ⟨last, hlast, s, hs, hlookup'⟩ | ⟨hnone, _⟩
    · have hliteral' : (getSingleLiteralValue (some t')).isSome = true := by
        rcases hagree branch hbranch branch' hbranch' _ t t' ht ht' with rfl | ⟨_, _, _, _, _, _, h, _⟩
        · exact hliteral
        · exact h
      obtain ⟨literal, hliteral'⟩ := Option.isSome_iff_exists.mp hliteral'
      have hsame := same_literal hfree' hvalid' hliteral'
      obtain ⟨value, hvalue, hequal⟩ := exists_mem_addActions engine hbranch' ((branchAction_eq ht').trans hliteral') []
      obtain ⟨fields, rfl⟩ : ∃ fields, t' = .obj fields := by
        cases t' with
        | obj fields => exact ⟨fields, rfl⟩
        | null | bool | num | str | arr => cases hliteral'
      have hlike : ∃ fields', s = .obj fields' ∧ SameButLiterals fields' fields := by
        rcases hagree last hlast branch' hbranch' _ s _ hs ht' with rfl | ⟨_, f, f', rfl, hf', _, _, h⟩
        · exact ⟨fields, rfl, fun _ _ _ => rfl⟩
        · cases hf'
          exact ⟨f, rfl, h⟩
      obtain ⟨fields', rfl, hlike⟩ := hlike
      have hexisting : ((get (mergedProperties (fieldMap schema "properties") variants) "action").bind
          Json.asFields).getD [] = fields' := by
        rw [JsonSchema.get, hlookup']
        rfl
      rw [hexisting] at hlookup
      rw [← hlookup]
      have hwhole : SameButLiterals (actionSchema fields' (actionValues engine variants)) fields := by
        intro k hconst henum
        exact (sameButLiterals_actionSchema _ _ k hconst henum).trans (hlike k hconst henum)
      exact hwhole.valid hfree' hvalid' (get_const_actionSchema _ _) (branches_enum_actionSchema _ _)
        ⟨value, hvalue, same_of_sameValueZero engine hnumber hsame hequal⟩
    · rw [hnone branch hbranch] at ht
      cases ht
  · have hlookup' : (mergedProperties (fieldMap schema "properties") variants).lookup p.1 = some p.2 := by
      rw [← hlookup, flatProperties]
      by_cases hvalues : actionValues engine variants = []
      · rw [hvalues]
        rfl
      · rw [withActionEnum_of_ne_nil hvalues, lookup_assocSet, if_neg fun h => haction ⟨hvalues, h⟩]
    rcases hmerged with ⟨branch, hbranch, t, ht, hmerged⟩ | ⟨_, hmerged⟩
    · rw [hlookup', Option.some.injEq] at hmerged
      subst hmerged
      obtain ⟨branch', hbranch', t', ht', hfree', hvalid'⟩ := haccepting branch hbranch _ ht
      rcases hagree branch hbranch branch' hbranch' _ _ t' ht ht' with heq | ⟨hp1, _, _, _, _, _, hliteral, _⟩
      · rw [heq]
        exact hvalid'
      · -- a literal under `action` would be among the action values
        obtain ⟨literal, hliteral⟩ := Option.isSome_iff_exists.mp hliteral
        rw [hp1] at ht'
        obtain ⟨value, hvalue, _⟩ := exists_mem_addActions engine hbranch' ((branchAction_eq ht').trans hliteral) []
        exact absurd ⟨ne_nil_of_mem hvalue, hp1⟩ haction
    · rw [hlookup'] at hmerged
      exact valid_property hfree hvalid (mem_of_lookup hmerged.symm) hq hname

end

theorem mem_keys_flatProperties (hbranches : ∀ branch ∈ variants, ((fieldMap branch "properties").map Prod.fst).Nodup)
    (hproto : ∀ branch ∈ variants, (fieldMap branch "properties").lookup (lit "__proto__") = none)
    (h : name ∈ (fieldMap schema "properties").map Prod.fst ∨ ∃ branch ∈ variants, declares branch name) :
    name ∈ (flatProperties engine schema variants).map Prod.fst := by
  apply mem_keys_withActionEnum
  rw [← isSome_lookup_iff]
  rcases @lookup_mergedProperties ν variants name (fun h => h ▸ hproto) hbranches (fieldMap schema "properties")
    with ⟨_, _, t, _, hlookup⟩ | ⟨hnone, hlookup⟩
  · rw [hlookup]
    rfl
  · rw [hlookup]
    rcases h with h | ⟨branch, hbranch, h⟩
    · exact isSome_lookup_iff.mpr h
    · have hsome := isSome_lookup_iff.mpr h
      rw [hnone branch hbranch] at hsome
      cases hsome

theorem mem_setEntries {names} (h : name ∈ setEntries names) : name ∈ names := by
  have hinv : ∀ n ∈ setEntries names, n ∈ names := by
    refine foldlRecOn (motive := fun t : List JsStr => ∀ n ∈ t, n ∈ names) names _ nofun ?_
    intro t ht name hname n hn
    split at hn
    next => exact ht n hn
    next =>
      exact forall_mem_append.mpr ⟨ht, forall_mem_singleton.mpr hname⟩ n hn
  exact hinv name h

theorem mem_members_of_commonRequired (hbranch : branch ∈ variants) (hfree : RefFree (.obj branch))
    (hstrings : ∀ item ∈ (branches branch "required").getD [], item.asStr.isSome = true)
    (hvalid : Valid num matchesPattern decode root (.obj branch) (.obj members))
    (hname : name ∈ commonRequired variants) : name ∈ members.map Prod.fst := by
  have hrequired : name ∈ getRequiredNames branch := by
    cases variants with
    | nil => cases hname
    | cons first rest =>
      obtain ⟨_, hall⟩ := mem_filter.mp hname
      exact of_decide_eq_true (all_eq_true.mp hall branch hbranch)
  have hmem := mem_setEntries hrequired
  apply ((hfree.valid_iff.mp hvalid).object members rfl).required
  cases hvalue : get branch "required" with
  | none =>
    rw [branches, hvalue] at hmem
    cases hmem
  | some value =>
    rw [branches, hvalue] at hmem hstrings
    cases value with
    | arr items =>
      have hnames : (Json.arr items).asStrs = some (items.filterMap Json.asStr) := asStrs_of_strings hstrings
      rw [node, hvalue, Option.bind_some, hnames]
      exact hmem
    | null | bool | num | str | obj => cases hmem

/-- The flattened root accepts what the root accepts, with the properties that the accepting branches and
the root declare. -/
theorem flattenToolRootCombinators_accepts (hfound : flattenedBranches schema = some (key, variants))
    (hfree : RefFree (.obj schema)) (hnumber : ∀ m n, engine.sameNumber m n = true → num m = num n)
    (hnodup : ∀ fields ∈ schema :: variants, ((fieldMap fields "properties").map Prod.fst).Nodup)
    (hstrings : ∀ branch ∈ variants, ∀ item ∈ (branches branch "required").getD [], item.asStr.isSome = true)
    (hproto : ∀ branch ∈ variants, ¬declares branch (lit "__proto__")) (hagree : BranchesAgree variants)
    (hvalid : Valid num matchesPattern decode (.obj schema) (.obj schema) (.obj members))
    (hdeclared : ∀ q ∈ members, (∃ branch ∈ variants, declares branch q.1) →
      ∃ branch ∈ variants, declares branch q.1 ∧
        Valid num matchesPattern decode (.obj schema) (.obj branch) (.obj members))
    (hknown : get schema "additionalProperties" = none → ∀ q ∈ members,
      (∃ branch ∈ variants, declares branch q.1) ∨ declares schema q.1 ∨
        ∃ p ∈ fieldMap schema "patternProperties", matchesPattern p.1 q.1) :
    Valid num matchesPattern decode (.obj (flattenToolRootCombinators engine schema))
      (.obj (flattenToolRootCombinators engine schema)) (.obj members) := by
  have hproto' : ∀ branch ∈ variants, (fieldMap branch "properties").lookup (lit "__proto__") = none := by
    intro branch hbranch
    rw [← Option.not_isSome_iff_eq_none, isSome_lookup_iff]
    exact hproto branch hbranch
  have hbranches : ∀ branch ∈ variants, ((fieldMap branch "properties").map Prod.fst).Nodup :=
    (forall_mem_cons.mp hnodup).2
  have hflat : RefFree (.obj (flattenToolRootCombinators engine schema)) := refFree_flatten hfree hfound
  obtain ⟨accepting, haccepting, hvalid'⟩ := exists_valid_flattened hfree hfound hvalid
  obtain ⟨general, object, _, _, _, _⟩ := hfree.valid_iff.mp hvalid
  have hobject := object members rfl
  have hroot : ∀ root v, Valid num matchesPattern decode root (.obj (flattenToolRootCombinators engine schema)) v ↔
      Valid num matchesPattern decode (.obj schema) (.obj (flattenToolRootCombinators engine schema)) v := by
    intro root v
    exact iff_of_eq (congrArg (fun m => (m v).valid) hflat.meaning_eq)
  rw [hroot, hflat.valid_iff, node_flatten hfound]
  refine ⟨?_, ?_, by simp, by simp, by simp, ?_⟩
  · refine { general with types := ?_, allOf := ?_, anyOf := ?_, oneOf := ?_ }
    · intro types htypes
      cases htypes
      exact ⟨lit "object", mem_singleton.mpr rfl, rfl⟩
    all_goals rintro _ ⟨⟩
  · rintro _ ⟨⟩
    refine { hobject with required := ?_, properties := ?_, additionalProperties := ?_ }
    · intro name hname
      exact mem_members_of_commonRequired haccepting (refFree_of_mem_flattened hfree hfound haccepting)
        (hstrings accepting haccepting) hvalid' hname
    · intro p hp q hq hname
      obtain ⟨p', hp', rfl⟩ := mem_map.mp hp
      exact valid_flatProperty hfree hfound hnumber (hnodup schema mem_cons_self) hbranches hproto' hagree
        hvalid hp' hq hname (hdeclared q hq)
    · intro m hm q hq hnotin hpattern
      have hundeclared : q.1 ∉ (flatProperties engine schema variants).map Prod.fst := by
        simpa [Node.map, Function.comp_def] using hnotin
      cases hadditional : get schema "additionalProperties" with
      | some s =>
        rw [hadditional] at hm
        cases hm
        refine hobject.additionalProperties _ (congrArg (Option.map _) hadditional) q hq ?_ hpattern
        intro hmem
        apply hundeclared
        apply mem_keys_flatProperties hbranches hproto'
        exact .inl (by simpa [Node.map, node, Function.comp_def] using hmem)
      | none =>
        exfalso
        rcases hknown hadditional q hq with h | h | ⟨p, hp, hmatch⟩
        · exact hundeclared (mem_keys_flatProperties hbranches hproto' (.inr h))
        · exact hundeclared (mem_keys_flatProperties hbranches hproto' (.inl h))
        · exact hpattern _ (mem_map_of_mem hp) hmatch
  · constructor
    case properties =>
      intro m hm fields hfields q hq huncovered
      exact absurd (.inr (.inr (.inr rfl))) huncovered
    case items => rintro _ _ _ ⟨⟩

end

def decimalEngine : Engine ℕ where
  stringify
    | .num n => decimal n
    | _ => []
  sameNumber m n := m == n

def actionBranch (name : String) : Fields ℕ :=
  [(lit "type", .str (lit "object")),
    (lit "properties", .obj [(lit "action", .obj [(lit "const", .str (lit name))])]),
    (lit "required", .arr [.str (lit "action")])]

def discriminatedRoot : Fields ℕ := [(lit "anyOf", .arr [.obj (actionBranch "open"), .obj (actionBranch "close")])]

def acceptsUnits (root s v : Json ℕ) : Prop := Valid (fun n : ℕ => (n : ℚ)) (fun _ _ => False) id root s v

theorem acceptsUnits_open (root : Json ℕ) : acceptsUnits root (.obj (actionBranch "open"))
    (.obj [(lit "action", .str (lit "open"))]) := by
  have hconst : acceptsUnits root (.obj [(lit "const", .str (lit "open"))]) (.str (lit "open")) := by
    rw [acceptsUnits, (RefFree.of_noRefKey rfl).valid_iff, show node id root _ =
      { (.empty : Node ℕ (Json ℕ)) with const := some (.str (lit "open")) } from rfl]
    have hsame : Same (fun n : ℕ => (n : ℚ)) (.str (lit "open")) (.str (lit "open")) := by
      rw [Same]
    simp [Node.holds_iff, Node.general_iff, Node.str_iff, Node.unevaluated_iff, Node.map, Node.empty, hsame]
  rw [acceptsUnits, (RefFree.of_noRefKey rfl).valid_iff, show node id root _ =
    { (.empty : Node ℕ (Json ℕ)) with
      types := some [lit "object"]
      properties := [(lit "action", .obj [(lit "const", .str (lit "open"))])]
      required := [lit "action"] } from rfl]
  rw [acceptsUnits, Valid] at hconst
  simp [Node.holds_iff, Node.general_iff, Node.object_iff, Node.unevaluated_iff, Node.map, Node.empty, hasType, hconst]

theorem acceptsUnits_discriminatedRoot (root : Json ℕ) : acceptsUnits root (.obj discriminatedRoot)
    (.obj [(lit "action", .str (lit "open"))]) := by
  have hopen := acceptsUnits_open root
  rw [acceptsUnits, (RefFree.of_noRefKey rfl).valid_iff, show node id root discriminatedRoot =
    { (.empty : Node ℕ (Json ℕ)) with
      anyOf := some [.obj (actionBranch "open"), .obj (actionBranch "close")] } from rfl]
  rw [acceptsUnits, Valid] at hopen
  simp [Node.holds_iff, Node.general_iff, Node.object_iff, Node.unevaluated_iff, Node.map, Node.empty, hopen]

theorem branchesAgree_discriminated : BranchesAgree [actionBranch "open", actionBranch "close"] := by
  have hlookup : ∀ branch ∈ [actionBranch "open", actionBranch "close"], ∀ name t,
      (fieldMap branch "properties").lookup name = some t →
        name = lit "action" ∧ ∃ literal, t = .obj [(lit "const", .str literal)] := by
    intro branch hbranch name t ht
    have hmem := mem_of_lookup ht
    simp only [mem_cons, not_mem_nil, or_false] at hbranch
    rcases hbranch with rfl | rfl <;> cases mem_singleton.mp hmem <;> exact ⟨rfl, _, rfl⟩
  intro branch hbranch branch' hbranch' name t t' ht ht'
  obtain ⟨hname, literal, rfl⟩ := hlookup branch hbranch name t ht
  obtain ⟨_, literal', rfl⟩ := hlookup branch' hbranch' name t' ht'
  refine .inr ⟨hname, _, _, rfl, rfl, rfl, rfl, ?_⟩
  intro key hconst _
  simp [lookup_cons, beq_false_of_ne hconst]

theorem flattenToolRootCombinators_accepts_open :
    acceptsUnits (.obj (flattenToolRootCombinators decimalEngine discriminatedRoot))
      (.obj (flattenToolRootCombinators decimalEngine discriminatedRoot))
      (.obj [(lit "action", .str (lit "open"))]) := by
  have hdeclares : declares (actionBranch "open") (lit "action") := mem_singleton.mpr rfl
  refine @flattenToolRootCombinators_accepts ℕ decimalEngine (fun n => (n : ℚ)) (fun _ _ => False) id discriminatedRoot
    [(lit "action", .str (lit "open"))] "anyOf" [actionBranch "open", actionBranch "close"] rfl
    (RefFree.of_noRefKey rfl) ?_ ?_ ?_ ?_ branchesAgree_discriminated (acceptsUnits_discriminatedRoot _) ?_ ?_
  · intro m n h
    rw [eq_of_beq h]
  · intro fields hfields
    simp only [mem_cons, not_mem_nil, or_false] at hfields
    rcases hfields with rfl | rfl | rfl
    · exact nodup_nil
    · exact nodup_singleton _
    · exact nodup_singleton _
  · intro branch hbranch item hitem
    simp only [mem_cons, not_mem_nil, or_false] at hbranch
    rcases hbranch with rfl | rfl <;> cases mem_singleton.mp hitem <;> rfl
  · intro branch hbranch hdeclared
    simp only [mem_cons, not_mem_nil, or_false] at hbranch
    rcases hbranch with rfl | rfl <;> exact absurd (mem_singleton.mp hdeclared) (by decide)
  · intro q hq _
    cases mem_singleton.mp hq
    exact ⟨_, mem_cons_self, hdeclares, acceptsUnits_open _⟩
  · intro _ q hq
    cases mem_singleton.mp hq
    exact .inl ⟨_, mem_cons_self, hdeclares⟩

/-- An open object is accepted by the root and refused after flattening, which closes the object. -/
theorem flattenToolRootCombinators_refuses_undeclared :
    let root : Fields ℕ := [(lit "anyOf", .arr [.obj [(lit "type", .str (lit "object"))]])]
    let flat := flattenToolRootCombinators decimalEngine root
    (flattenedBranches root).isSome = true ∧ acceptsUnits (.obj root) (.obj root) (.obj [(lit "x", .null)]) ∧
      ¬acceptsUnits (.obj flat) (.obj flat) (.obj [(lit "x", .null)]) := by
  intro root flat
  refine ⟨rfl, ?_, ?_⟩
  · have hinner : acceptsUnits (.obj root) (.obj [(lit "type", .str (lit "object"))]) (.obj [(lit "x", .null)]) := by
      rw [acceptsUnits, (RefFree.of_noRefKey rfl).valid_iff, show node id (.obj root) _ =
        { (.empty : Node ℕ (Json ℕ)) with types := some [lit "object"] } from rfl]
      simp [Node.holds_iff, Node.general_iff, Node.object_iff, Node.unevaluated_iff, Node.map, Node.empty, hasType]
    rw [acceptsUnits, (RefFree.of_noRefKey rfl).valid_iff, show node id (.obj root) root =
      { (.empty : Node ℕ (Json ℕ)) with anyOf := some [.obj [(lit "type", .str (lit "object"))]] } from rfl]
    rw [acceptsUnits, Valid] at hinner
    simp [Node.holds_iff, Node.general_iff, Node.object_iff, Node.unevaluated_iff, Node.map, Node.empty, hinner]
  · intro h
    rw [acceptsUnits, (RefFree.of_noRefKey rfl).valid_iff, show node id (.obj flat) flat =
      { (.empty : Node ℕ (Json ℕ)) with
        types := some [lit "object"]
        additionalProperties := some (.bool false) } from rfl] at h
    have hx := (h.object _ rfl).additionalProperties _ rfl (lit "x", .null) (mem_singleton.mpr rfl)
      not_mem_nil (by simp)
    rw [JsonSchema.meaning_eq _ _ _ _ (RefFree.of_noRefKey rfl).acc] at hx
    have hfalse : false = true := hx
    cases hfalse

end GajaeCode.Schema
