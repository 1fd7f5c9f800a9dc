import GajaeCode.Json.Schema

/-! Schemas without references: their meaning does not depend on the document they stand in. -/
namespace GajaeCode.JsonSchema

open Text

variable {ν : Type}

def schemasBelow : Json ν → List (Json ν)
  | .obj fields => (node id .null fields).parts
  | _ => []

inductive RefFree : Json ν → Prop where
  | intro {s : Json ν} (ref : ∀ fields, s = .obj fields → (get fields "$ref").bind Json.asStr = none)
      (below : ∀ t ∈ schemasBelow s, RefFree t) : RefFree s

theorem forall_schemasBelow {P : Json ν → Prop} (hitems : ∀ items, P (.arr items) → ∀ t ∈ items, P t)
    (hfields : ∀ fields, P (.obj fields) → ∀ p ∈ fields, P p.2) {fields : Fields ν} (h : ∀ p ∈ fields, P p.2) :
    ∀ t ∈ schemasBelow (.obj fields), P t := by
  have hget : ∀ keyword, ∀ t ∈ (get fields keyword).toList, P t := by
    intro keyword t ht
    obtain ⟨before, after, heq, _⟩ := List.lookup_eq_some_iff.mp (Option.mem_toList.mp ht)
    exact h (lit keyword, t) (by simp [heq])
  have hbranches : ∀ keyword, ∀ t ∈ (branches fields keyword).getD [], P t := by
    intro keyword t ht
    cases hvalue : get fields keyword with
    | none =>
      rw [branches, hvalue] at ht
      cases ht
    | some value =>
      have hP := hget keyword value (by rw [hvalue]; exact List.mem_singleton.mpr rfl)
      rw [branches, hvalue] at ht
      cases value with
      | arr items => exact hitems items hP t ht
      | null | bool | num | str | obj => cases ht
  have hmap : ∀ keyword, ∀ t ∈ (fieldMap fields keyword).map Prod.snd, P t := by
    intro keyword t ht
    obtain ⟨p, hp, rfl⟩ := List.mem_map.mp ht
    cases hvalue : get fields keyword with
    | none =>
      rw [fieldMap, hvalue] at hp
      cases hp
    | some value =>
      have hP := hget keyword value (by rw [hvalue]; exact List.mem_singleton.mpr rfl)
      rw [fieldMap, hvalue] at hp
      cases value with
      | obj members => exact hfields members hP p hp
      | null | bool | num | str | arr => cases hp
  simp only [schemasBelow, Node.parts, List.forall_mem_append]
  exact ⟨⟨⟨⟨⟨⟨⟨⟨⟨⟨⟨⟨⟨⟨⟨⟨hbranches "allOf", hbranches "anyOf"⟩, hbranches "oneOf"⟩, hget "not"⟩, hget "if"⟩,
    hget "then"⟩, hget "else"⟩, hmap "properties"⟩, hmap "patternProperties"⟩, hget "additionalProperties"⟩,
    hget "propertyNames"⟩, hmap "dependentSchemas"⟩, hget "unevaluatedProperties"⟩, hbranches "prefixItems"⟩,
    hget "items"⟩, hget "contains"⟩, hget "unevaluatedItems"⟩

mutual

def noRefKey : Json ν → Bool
  | .arr items => noRefKeyItems items
  | .obj fields => noRefKeyFields fields
  | _ => true

def noRefKeyItems : List (Json ν) → Bool
  | [] => true
  | item :: rest => noRefKey item && noRefKeyItems rest

def noRefKeyFields : Fields ν → Bool
  | [] => true
  | (key, value) :: rest => key != lit "$ref" && noRefKey value && noRefKeyFields rest

end

theorem noRefKeyItems_iff {items : List (Json ν)} : noRefKeyItems items = true ↔ ∀ t ∈ items, noRefKey t = true := by
  induction items with
  | nil => simp [noRefKeyItems]
  | cons item rest ih => simp [noRefKeyItems, ih]

theorem noRefKeyFields_iff {fields : Fields ν} :
    noRefKeyFields fields = true ↔ ∀ p ∈ fields, p.1 ≠ lit "$ref" ∧ noRefKey p.2 = true := by
  induction fields with
  | nil => simp [noRefKeyFields]
  | cons entry rest ih =>
    obtain ⟨key, value⟩ := entry
    simp [noRefKeyFields, ih]

theorem sizeOf_schemaBelow {fields : Fields ν} :
    ∀ t ∈ schemasBelow (.obj fields), sizeOf t < sizeOf (Json.obj fields) := by
  apply forall_schemasBelow
  · intro items hlt t ht
    exact (Json.sizeOf_item ht).trans hlt
  · intro members hlt p hp
    exact (Json.sizeOf_field hp).trans hlt
  · intro p hp
    exact Json.sizeOf_field hp

theorem RefFree.of_noRefKey {s : Json ν} (h : noRefKey s = true) : RefFree s := by
  induction hsize : sizeOf s using Nat.strong_induction_on generalizing s with
  | _ n ih =>
    subst hsize
    cases s with
    | obj fields =>
      rw [noRefKey, noRefKeyFields_iff] at h
      constructor
      · rintro _ ⟨⟩
        have hnone : get fields "$ref" = none := by
          rw [get, List.lookup_eq_none_iff]
          intro p hp
          exact bne_iff_ne.mpr (h p hp).1.symm
        rw [hnone]
        rfl
      · intro t ht
        refine ih _ (sizeOf_schemaBelow t ht) ?_ rfl
        refine forall_schemasBelow (P := fun t => noRefKey t = true) ?_ ?_ (fun p hp => (h p hp).2) t ht
        · intro items hitems
          exact noRefKeyItems_iff.mp hitems
        · intro members hmembers p hp
          exact (noRefKeyFields_iff.mp hmembers p hp).2
    | null | bool | num | str | arr =>
      constructor
      · intro fields heq
        cases heq
      · intro t ht
        cases ht

section

variable {num : ν → ℚ} {matchesPattern : JsStr → JsStr → Prop} {decode decode' : JsStr → JsStr}
  {root root' s v : Json ν}

theorem RefFree.node_eq {fields : Fields ν} (h : RefFree (.obj fields)) :
    node decode root fields = node decode' root' fields := by
  obtain ⟨href, _⟩ := h
  simp only [node, refTarget, href fields rfl]
  rfl

theorem RefFree.children_eq (h : RefFree s) : (shape decode root s).children = schemasBelow s := by
  cases s with
  | obj fields =>
    have hnode : node decode root fields = node id .null fields := h.node_eq
    obtain ⟨href, _⟩ := h
    have hnone : refTarget decode root fields = none := by
      rw [refTarget, href fields rfl]
      rfl
    rw [shape, Shape.children, Node.children, show (node decode root fields).ref = none from hnone, hnode, schemasBelow,
      Option.toList_none, List.nil_append]
  | null | bool | num | str | arr => rfl

theorem RefFree.of_mem (h : RefFree s) {t} (ht : t ∈ schemasBelow s) : RefFree t := by
  obtain ⟨_, hbelow⟩ := h
  exact hbelow t ht

theorem RefFree.acc (h : RefFree s) : Acc (Applies decode root) s := by
  induction h with
  | intro href hbelow ih =>
    apply Acc.intro
    intro t ht
    rw [Applies, RefFree.children_eq (.intro href hbelow)] at ht
    exact ih t ht

/-- The document around a schema without references does not matter. -/
theorem RefFree.meaning_eq (h : RefFree s) :
    meaning num matchesPattern decode root s = meaning num matchesPattern decode' root' s := by
  induction h with
  | @intro s href hbelow ih =>
    have hfree : RefFree s := .intro href hbelow
    funext v
    rw [JsonSchema.meaning_eq num matchesPattern decode root hfree.acc,
      JsonSchema.meaning_eq num matchesPattern decode' root' hfree.acc]
    have hshape : shape decode root s = shape decode' root' s := by
      cases s with
      | obj fields => exact congrArg Shape.node hfree.node_eq
      | null | bool | num | str | arr => rfl
    rw [← hshape]
    congr 1
    apply Shape.map_congr
    intro t ht
    rw [hfree.children_eq] at ht
    exact ih t ht

theorem RefFree.valid_iff {fields : Fields ν} (h : RefFree (.obj fields)) :
    Valid num matchesPattern decode root (.obj fields) v ↔
      ((node decode root fields).map (meaning num matchesPattern decode root)).Holds num matchesPattern v := by
  rw [Valid, JsonSchema.meaning_eq num matchesPattern decode root h.acc]
  rfl

end

end GajaeCode.JsonSchema
