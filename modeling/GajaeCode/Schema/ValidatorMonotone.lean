import GajaeCode.Schema.ValidatorReturns

/-! What the validator returns does not depend on how many nested calls it may make, and the document
around a schema matters only for what references resolve to. -/
namespace GajaeCode.Schema

open Text Data List
open JsonSchema (Fields get branches fieldMap number)

/-- Where the first returns, the second returns the same. -/
def Returned {α : Type} (a b : Option α) : Prop := ∀ r, a = some r → b = some r

namespace Returned

variable {α β : Type}

@[refl]
theorem refl (a : Option α) : Returned a a := fun _ h => h

theorem trans {a b c : Option α} (hab : Returned a b) (hbc : Returned b c) : Returned a c :=
  fun r h => hbc r (hab r h)

theorem antisymm {a b : Option α} (hab : Returned a b) (hba : Returned b a) : a = b := by
  ext r
  exact ⟨hab r, hba r⟩

theorem bind {a b} {f g : α → Option β} (h : Returned a b) (hfg : ∀ x, Returned (f x) (g x)) :
    Returned (a.bind f) (b.bind g) := by
  intro r hr
  obtain ⟨x, hx, hr⟩ := Option.bind_eq_some_iff.mp hr
  rw [h x hx]
  exact hfg x r hr

theorem map {a b} (h : Returned a b) (f : α → β) : Returned (a.map f) (b.map f) := by
  intro r hr
  obtain ⟨x, hx, rfl⟩ := Option.map_eq_some_iff.mp hr
  rw [h x hx]
  rfl

theorem mapM {l : List α} {f g : α → Option β} (h : ∀ a ∈ l, Returned (f a) (g a)) :
    Returned (l.mapM f) (l.mapM g) := by
  induction l with
  | nil => exact refl _
  | cons a l ih =>
    obtain ⟨ha, hl⟩ := forall_mem_cons.mp h
    rw [mapM_cons, mapM_cons]
    apply ha.bind
    intro x
    apply (ih hl).bind
    intro y
    exact refl _

theorem and {a b c d : Check} (hac : Returned a c) (hbd : Returned b d) : Returned (a.and b) (c.and d) :=
  hac.bind fun _ => hbd.map _

theorem all {as bs : List Check} (h : List.Forall₂ Returned as bs) : Returned (Check.all as) (Check.all bs) := by
  induction h with
  | nil => exact refl _
  | cons hab _ ih => exact hab.and ih

theorem each {l} {f g : α → Check} (h : ∀ a ∈ l, Returned (f a) (g a)) :
    Returned (Check.each l f) (Check.each l g) := by
  apply all
  rw [List.forall₂_map_left_iff, List.forall₂_map_right_iff]
  exact List.forall₂_same.mpr h

theorem forSome {o} {f g : α → Check} (h : ∀ a, o = some a → Returned (f a) (g a)) :
    Returned (Check.forSome o f) (Check.forSome o g) := by
  cases o with
  | none => exact refl _
  | some a => exact h a rfl

end Returned

section

variable {ν : Type} {host : Host ν} {validate validate' : Json ν → JsValue ν → List Key → Check} {schema : Fields ν}

variable (h : ∀ t ∈ subschemas schema, ∀ w p, Returned (validate t w p) (validate' t w p))
  (value : JsValue ν) (path : List Key)
include h

theorem returned_checkBranches {keyword} (hkeyword : keyword ∈ ["anyOf", "oneOf"]) (message : JsStr)
    (accepts : Nat → Bool) : Returned (checkBranches validate schema keyword message accepts value path)
      (checkBranches validate' schema keyword message accepts value path) := by
  apply Returned.forSome
  intro ts hts
  apply Returned.map
  apply Returned.mapM
  intro t ht
  refine h t (mem_subschemas_branches hts ht ?_) _ _
  simp only [mem_cons, not_mem_nil, or_false] at hkeyword ⊢
  tauto

theorem returned_checkAllOf :
    Returned (checkAllOf validate schema value path) (checkAllOf validate' schema value path) := by
  apply Returned.forSome
  intro ts hts
  apply Returned.each
  intro t ht
  exact h t (mem_subschemas_branches hts ht (by simp)) _ _

theorem returned_checkNot : Returned (checkNot validate schema value path) (checkNot validate' schema value path) := by
  apply Returned.forSome
  intro t ht
  apply (h t (mem_subschemas_get ht (by simp)) _ _).bind
  intro result
  rfl

theorem returned_checkIf : Returned (checkIf validate schema value path) (checkIf validate' schema value path) := by
  apply Returned.forSome
  intro t ht
  apply (h t (mem_subschemas_get ht (by simp)) _ _).bind
  intro result
  apply Returned.forSome
  intro branch hbranch
  refine h branch ?_ _ _
  split_ifs at hbranch
  · exact mem_subschemas_get hbranch (by simp)
  · exact mem_subschemas_get hbranch (by simp)

theorem returned_checkAdditionalProperties (members : Fields ν) :
    Returned (checkAdditionalProperties host validate schema members path)
      (checkAdditionalProperties host validate' schema members path) := by
  simp only [checkAdditionalProperties]
  split
  · rfl
  · rfl
  · rfl
  · next additional _ _ hadditional =>
    apply Returned.each
    intro member hmember
    exact h additional (mem_subschemas_get hadditional (by simp)) _ _

theorem returned_validateObjectKeywords (members : Fields ν) :
    Returned (validateObjectKeywords host validate schema value members path)
      (validateObjectKeywords host validate' schema value members path) := by
  apply Returned.all
  refine .cons ?required (.cons ?properties (.cons ?names (.cons ?patterns (.cons ?dependent (.cons ?schemas
    (.cons ?additional (.cons ?least (.cons ?most .nil))))))))
  case required => rfl
  case properties =>
    apply Returned.each
    intro property hproperty
    apply Returned.forSome
    intro member hmember
    exact h property.2 (mem_subschemas_fieldMap hproperty (by simp)) _ _
  case names =>
    apply Returned.forSome
    intro names hnames
    apply Returned.each
    intro member hmember
    exact h names (mem_subschemas_get hnames (by simp)) _ _
  case patterns =>
    apply Returned.each
    intro property hproperty
    split
    · rfl
    · apply Returned.each
      intro member hmember
      exact h property.2 (mem_subschemas_fieldMap hproperty (by simp)) _ _
  case dependent => rfl
  case schemas =>
    apply Returned.each
    intro dependency hdependency
    split
    · exact h dependency.2 (mem_subschemas_fieldMap hdependency (by simp)) _ _
    · rfl
  case additional => exact returned_checkAdditionalProperties h path members
  case least => rfl
  case most => rfl

theorem returned_checkItemsFrom {t} (ht : t ∈ subschemas schema) (start : Nat) (items : List (Json ν)) :
    Returned (checkItemsFrom validate start t items path) (checkItemsFrom validate' start t items path) := by
  apply Returned.each
  intro item hitem
  exact h t ht _ _

theorem returned_checkItems (items : List (Json ν)) :
    Returned (checkItems validate schema items path) (checkItems validate' schema items path) := by
  unfold checkItems
  split
  · rfl
  · split
    · next prefixItems hprefixItems =>
      apply Returned.and
      · apply Returned.each
        rintro ⟨⟨t, item⟩, i⟩ hmem
        have ht : t ∈ prefixItems := (of_mem_zip (mem_of_getElem? (mem_zipIdx_iff_getElem?.mp hmem))).1
        exact h t (mem_subschemas_branches hprefixItems ht (by simp)) _ _
      · apply Returned.forSome
        intro rest hrest
        exact returned_checkItemsFrom h path (mem_subschemas_get hrest (by simp)) _ items
    · apply Returned.forSome
      intro every hevery
      exact returned_checkItemsFrom h path (mem_subschemas_get hevery (by simp)) _ items

theorem returned_validateArrayKeywords (items : List (Json ν)) :
    Returned (validateArrayKeywords host validate schema items path)
      (validateArrayKeywords host validate' schema items path) := by
  apply Returned.all
  refine .cons ?least (.cons ?most (.cons ?unique (.cons ?items (.cons ?contains .nil))))
  case least => rfl
  case most => rfl
  case unique => rfl
  case items => exact returned_checkItems h path items
  case contains =>
    apply Returned.forSome
    intro contained hcontained
    apply Returned.bind
    · apply Returned.mapM
      intro item hitem
      exact h contained (mem_subschemas_get hcontained (by simp)) _ _
    · intro results
      rfl

theorem returned_validateKindKeywords : Returned (validateKindKeywords host validate schema value path)
    (validateKindKeywords host validate' schema value path) := by
  unfold validateKindKeywords
  split
  · exact returned_validateObjectKeywords h _ path _
  · exact returned_validateObjectKeywords h _ path _
  · exact returned_validateArrayKeywords h path _
  · rfl
  · rfl
  · rfl

theorem returned_validateKeywords : Returned (validateKeywords host validate schema value path)
    (validateKeywords host validate' schema value path) := by
  simp only [validateKeywords]
  split_ifs
  · rfl
  · apply Returned.all
    exact .cons (Returned.refl _) (.cons (Returned.refl _) (.cons (returned_checkBranches h value path (by simp) _ _)
      (.cons (returned_checkBranches h value path (by simp) _ _) (.cons (returned_checkAllOf h value path)
        (.cons (returned_checkNot h value path) (.cons (returned_checkIf h value path)
          (.cons (returned_validateKindKeywords h value path) .nil)))))))

omit h in
theorem validateKeywords_congr (h : ∀ t ∈ subschemas schema, ∀ w p, validate t w p = validate' t w p) :
    validateKeywords host validate schema value path = validateKeywords host validate' schema value path := by
  refine Returned.antisymm (returned_validateKeywords (fun t ht w p => ?_) value path)
    (returned_validateKeywords (fun t ht w p => ?_) value path)
  all_goals rw [h t ht w p]

end

section

variable {ν : Type}

mutual

def references : Json ν → List JsStr
  | .arr items => referencesOfItems items
  | .obj fields => referencesOfFields fields
  | _ => []

def referencesOfItems : List (Json ν) → List JsStr
  | [] => []
  | v :: vs => references v ++ referencesOfItems vs

def referencesOfFields : Fields ν → List JsStr
  | [] => []
  | (key, v) :: fields =>
    (if key = lit "$ref" then v.asStr.toList else []) ++ references v ++ referencesOfFields fields

end

theorem mem_referencesOfFields {ref} {fields : Fields ν} : ref ∈ referencesOfFields fields ↔
    ∃ p ∈ fields, (p.1 = lit "$ref" ∧ p.2.asStr = some ref) ∨ ref ∈ references p.2 := by
  induction fields with
  | nil => simp [referencesOfFields]
  | cons p fields ih =>
    rw [referencesOfFields, mem_append, ih]
    split
    next hkey => simp [hkey]
    next hkey => simp [hkey]

theorem references_part {t s : Json ν} (h : Part t s) : references t ⊆ references s := by
  cases h with
  | @item items t h =>
    induction items with
    | nil => cases h
    | cons v items ih =>
      rcases mem_cons.mp h with rfl | h
      · exact subset_append_left _ _
      · exact subset_append_of_subset_right _ (ih h)
  | @field fields p h =>
    intro ref href
    exact mem_referencesOfFields.mpr ⟨p, h, .inr href⟩

theorem references_subset {fields fields' : Fields ν} (h : fields ⊆ fields') :
    references (.obj fields) ⊆ references (.obj fields') := by
  intro ref href
  obtain ⟨p, hp, href⟩ := mem_referencesOfFields.mp href
  exact mem_referencesOfFields.mpr ⟨p, h hp, href⟩

theorem references_subschema {schema} {t : Json ν} (h : t ∈ subschemas schema) :
    references t ⊆ references (.obj schema) := by
  rcases part_of_mem_subschemas h with hpart | ⟨s, hts, hs⟩
  · exact references_part hpart
  · exact List.Subset.trans (references_part hts) (references_part hs)

theorem references_resolveLocalRef {host} {root resolved : Json ν} {ref}
    (h : resolveLocalRef host root ref = some resolved) : references resolved ⊆ references root := by
  have hnone : ([] : List JsStr) ⊆ references root := nil_subset _
  refine closed_resolveLocalRef (P := fun v => references v ⊆ references root) ?_ ?_ ?_ ?_ (fun _ h => h) h
  · intro t s hpart hs
    exact List.Subset.trans (references_part hpart) hs
  · simpa only [references] using hnone
  · intro n
    simpa only [references] using hnone
  · simpa only [references, referencesOfFields] using hnone

end

section

variable {ν : Type} {host : Host ν}

theorem validateSchemaNode_succ (n : Nat) (schema : Json ν) (value : JsValue ν) (path : List Key)
    (ctx : ValidationContext ν) : Returned (validateSchemaNode host n schema value path ctx)
      (validateSchemaNode host (n + 1) schema value path ctx) := by
  induction n generalizing schema value path ctx with
  | zero =>
    intro r hr
    cases hr
  | succ n ih =>
    rw [validateSchemaNode, validateSchemaNode]
    unfold validateNode
    split
    · rfl
    · rfl
    · split
      · unfold validateRef
        split
        · rfl
        · split
          · split_ifs
            · rfl
            · exact ih _ _ _ _
          · split_ifs
            · rfl
            · exact ih _ _ _ _
      · split_ifs
        · rfl
        · exact returned_validateKeywords (fun t _ w p => ih t w p ctx) value path
    · rfl

theorem validateSchemaNode_mono {n m} (hnm : n ≤ m) (schema : Json ν) (value : JsValue ν) (path : List Key)
    (ctx : ValidationContext ν) : Returned (validateSchemaNode host n schema value path ctx)
      (validateSchemaNode host m schema value path ctx) := by
  induction m, hnm using Nat.le_induction with
  | base => rfl
  | succ m _ ih => exact ih.trans (validateSchemaNode_succ m schema value path ctx)

/-- The document matters only for what references resolve to. -/
theorem validateSchemaNode_root {root root'}
    (hrefs : ∀ ref ∈ references root, resolveLocalRef host root' ref = resolveLocalRef host root ref) (n : Nat)
    (schema : Json ν) (hschema : references schema ⊆ references root) (value : JsValue ν) (path : List Key)
    (seenPairs : List (JsStr × Identity)) (refDepth : Nat) :
    validateSchemaNode host n schema value path ⟨root', seenPairs, refDepth⟩ =
      validateSchemaNode host n schema value path ⟨root, seenPairs, refDepth⟩ := by
  induction n generalizing schema value path seenPairs refDepth with
  | zero => rfl
  | succ n ih =>
    show validateNode host (validateSchemaNode host n) schema value path ⟨root', seenPairs, refDepth⟩ =
      validateNode host (validateSchemaNode host n) schema value path ⟨root, seenPairs, refDepth⟩
    unfold validateNode
    split
    · rfl
    · rfl
    · next fields =>
      split
      · next ref href =>
        have hmem : ref ∈ references root := hschema (mem_referencesOfFields.mpr ⟨_, mem_of_lookup href, .inl ⟨rfl, rfl⟩⟩)
        simp only [validateRef, hrefs ref hmem]
        cases hresolved : resolveLocalRef host root ref with
        | none => rfl
        | some resolved =>
          have hinside := references_resolveLocalRef hresolved
          simp only [ih resolved hinside]
      · split_ifs
        · rfl
        · apply validateKeywords_congr
          intro t ht w p
          exact ih t (List.Subset.trans (references_subschema ht) hschema) w p seenPairs refDepth
    · rfl

end

end GajaeCode.Schema
