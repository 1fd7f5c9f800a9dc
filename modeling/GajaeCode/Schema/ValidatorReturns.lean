import GajaeCode.Data.InsertionMap
import GajaeCode.Schema.JsonSchemaValidator

/-! The validator returns on every schema and every value: a reference is followed only as long as it
adds a new pair to the finitely many, or one step to the limited depth. -/
namespace GajaeCode.Schema

open Text Data
open List hiding get
open JsonSchema (Fields get branches fieldMap number node)

namespace Check

theorem isSome_ensure (b : Bool) (path : List Key) (message keyword : JsStr) :
    (ensure b path message keyword).isSome = true := by
  cases b <;> rfl

theorem isSome_and {a b : Check} (ha : a.isSome = true) (hb : b.isSome = true) : (a.and b).isSome = true := by
  obtain ⟨x, rfl⟩ := Option.isSome_iff_exists.mp ha
  obtain ⟨y, rfl⟩ := Option.isSome_iff_exists.mp hb
  rfl

theorem isSome_all {cs : List Check} (h : cs.Forall fun c => c.isSome = true) : (all cs).isSome = true := by
  induction cs with
  | nil => rfl
  | cons c cs ih =>
    obtain ⟨hc, hcs⟩ := (forall_cons _ _ _).mp h
    exact isSome_and hc (ih hcs)

variable {α : Type}

theorem isSome_each {l} {f : α → Check} (h : ∀ a ∈ l, (f a).isSome = true) : (each l f).isSome = true := by
  exact isSome_all (forall_iff_forall_mem.mpr (forall_mem_map.mpr h))

theorem isSome_forSome {o} {f : α → Check} (h : ∀ a, o = some a → (f a).isSome = true) :
    (forSome o f).isSome = true := by
  cases o with
  | none => rfl
  | some a => exact h a rfl

theorem isSome_bound {o path keyword} {b : α → Bool} {message : α → JsStr} :
    (forSome o fun a => ensure (b a) path (message a) keyword).isSome = true :=
  isSome_forSome fun _ _ => isSome_ensure ..

theorem isSome_bind {β γ : Type} {o : Option β} {f : β → Option γ} (ho : o.isSome = true)
    (hf : ∀ b, (f b).isSome = true) : (o.bind f).isSome = true := by
  obtain ⟨b, rfl⟩ := Option.isSome_iff_exists.mp ho
  exact hf b

theorem isSome_mapM {β : Type} {l : List α} {f : α → Option β} (h : ∀ a ∈ l, (f a).isSome = true) :
    (l.mapM f).isSome = true := by
  induction l with
  | nil => rfl
  | cons a l ih =>
    obtain ⟨ha, hl⟩ := forall_mem_cons.mp h
    obtain ⟨b, hb⟩ := Option.isSome_iff_exists.mp ha
    obtain ⟨bs, hbs⟩ := Option.isSome_iff_exists.mp (ih hl)
    simp [hb, hbs]

end Check

open Check

section

variable {ν : Type} {host : Host ν}

def subschemas (schema : Fields ν) : List (Json ν) := (node id .null schema).parts

/-- The values that are validated on the way through one value, and their paths. -/
inductive Below (value : JsValue ν) (path : List Key) : JsValue ν → List Key → Prop where
  | self : Below value path value path
  | get {key : JsStr} {w : JsValue ν} (h : value.get key = some w) : Below value path w (path ++ [.name key])
  | member {members : Fields ν} {member : JsStr × Json ν} (hmembers : value.members = some members)
      (h : member ∈ members) : Below value path (.json member.2) (path ++ [.name member.1])
  | name (key : JsStr) : Below value path (.json (.str key)) (path ++ [.name key])
  | item {items : List (Json ν)} {i : Nat} {w : Json ν} (hitems : value = .json (.arr items))
      (h : items[i]? = some w) : Below value path (.json w) (path ++ [.index i])

variable {validate : Json ν → JsValue ν → List Key → Check} {schema : Fields ν} {value : JsValue ν}
  {path : List Key} {keyword : String}
  {t : Json ν}

theorem mem_subschemas_get (h : get schema keyword = some t)
    (hkeyword : keyword ∈ ["not", "if", "then", "else", "additionalProperties", "propertyNames", "items",
      "contains"]) : t ∈ subschemas schema := by
  simp only [mem_cons, not_mem_nil, or_false] at hkeyword
  simp only [subschemas, JsonSchema.Node.parts, node, mem_append, Option.mem_toList]
  rcases hkeyword with rfl | rfl | rfl | rfl | rfl | rfl | rfl | rfl <;> simp [h]

theorem mem_subschemas_branches {ts} (h : branches schema keyword = some ts)
    (ht : t ∈ ts) (hkeyword : keyword ∈ ["allOf", "anyOf", "oneOf", "prefixItems"]) : t ∈ subschemas schema := by
  simp only [mem_cons, not_mem_nil, or_false] at hkeyword
  simp only [subschemas, JsonSchema.Node.parts, node, mem_append, Option.mem_toList]
  rcases hkeyword with rfl | rfl | rfl | rfl <;> simp [h, ht]

theorem mem_subschemas_fieldMap {p} (h : p ∈ fieldMap schema keyword)
    (hkeyword : keyword ∈ ["properties", "patternProperties", "dependentSchemas"]) : p.2 ∈ subschemas schema := by
  have hmem : p.2 ∈ (fieldMap schema keyword).map Prod.snd := mem_map_of_mem h
  simp only [mem_cons, not_mem_nil, or_false] at hkeyword
  simp only [subschemas, JsonSchema.Node.parts, node, mem_append, Option.mem_toList]
  rcases hkeyword with rfl | rfl | rfl <;> simp only [hmem, true_or, or_true]

abbrev Returns (validate : Json ν → JsValue ν → List Key → Check) (schema : Fields ν) (value : JsValue ν)
    (path : List Key) : Prop :=
  ∀ t ∈ subschemas schema, ∀ w p, Below value path w p → (validate t w p).isSome = true

section

variable (h : Returns validate schema value path)
include h

theorem isSome_checkBranches (hkeyword : keyword ∈ ["anyOf", "oneOf"]) (message : JsStr) (accepts : Nat → Bool) :
    (checkBranches validate schema keyword message accepts value path).isSome = true := by
  refine isSome_forSome fun ts hts => ?_
  rw [Option.isSome_map]
  refine isSome_mapM fun t ht => h t (mem_subschemas_branches hts ht ?_) _ _ .self
  simp only [mem_cons, not_mem_nil, or_false] at hkeyword ⊢
  rcases hkeyword with rfl | rfl <;> simp

theorem isSome_checkNot : (checkNot validate schema value path).isSome = true := by
  refine isSome_forSome fun t ht => ?_
  obtain ⟨result, hresult⟩ := Option.isSome_iff_exists.mp (h t (mem_subschemas_get ht (by simp)) _ _ .self)
  rw [hresult]
  exact isSome_ensure ..

theorem isSome_checkIf : (checkIf validate schema value path).isSome = true := by
  refine isSome_forSome fun t ht => ?_
  obtain ⟨result, hresult⟩ := Option.isSome_iff_exists.mp (h t (mem_subschemas_get ht (by simp)) _ _ .self)
  rw [hresult]
  refine isSome_forSome fun branch hbranch => h branch ?_ _ _ .self
  split_ifs at hbranch
  · exact mem_subschemas_get hbranch (by simp)
  · exact mem_subschemas_get hbranch (by simp)

theorem isSome_validateObjectKeywords {members} (hmembers : value.members = some members) :
    (validateObjectKeywords host validate schema value members path).isSome = true := by
  refine isSome_all ⟨?_, ?_, ?_, ?_, ?_, ?_, ?_, isSome_bound, isSome_bound⟩
  · exact isSome_forSome fun required _ => isSome_each fun key _ => isSome_ensure ..
  · exact isSome_each fun property hproperty => isSome_forSome fun w hw =>
      h _ (mem_subschemas_fieldMap hproperty (by simp)) _ _ (.get hw)
  · exact isSome_forSome fun names hnames => isSome_each fun member _ =>
      h _ (mem_subschemas_get hnames (by simp)) _ _ (.name member.1)
  · refine isSome_each fun property hproperty => ?_
    split
    · rfl
    · refine isSome_each fun member hmember => ?_
      exact h _ (mem_subschemas_fieldMap hproperty (by simp)) _ _ (.member hmembers (mem_of_mem_filter hmember))
  · refine isSome_each fun dependency _ => ?_
    split_ifs
    · exact isSome_forSome fun deps _ => isSome_each fun dep _ => isSome_ensure ..
    · rfl
  · refine isSome_each fun dependency hdependency => ?_
    split_ifs
    · exact h _ (mem_subschemas_fieldMap hdependency (by simp)) _ _ .self
    · rfl
  · unfold checkAdditionalProperties
    split
    · rfl
    · rfl
    · exact isSome_each fun member _ => rfl
    · next additional _ hadditional =>
      refine isSome_each fun member hmember => ?_
      exact h _ (mem_subschemas_get hadditional (by simp)) _ _ (.member hmembers (mem_of_mem_filter hmember))

end

theorem isSome_checkItemsFrom {items start}
    (h : Returns validate schema (.json (.arr items)) path) (ht : t ∈ subschemas schema) :
    (checkItemsFrom validate start t items path).isSome = true := by
  refine isSome_each fun item hitem => ?_
  have hget := mem_zipIdx_iff_getElem?.mp (mem_of_mem_drop hitem)
  exact h t ht _ _ (.item rfl hget)

theorem isSome_validateArrayKeywords {items} (h : Returns validate schema (.json (.arr items)) path) :
    (validateArrayKeywords host validate schema items path).isSome = true := by
  refine isSome_all ⟨isSome_bound, isSome_bound, ?_, ?_, ?_⟩
  · unfold checkUniqueItems
    split_ifs
    · exact isSome_each fun j _ => rfl
    · rfl
  · unfold checkItems
    split
    · rfl
    · split
      · next ts hts =>
        refine isSome_and (isSome_each fun entry hentry => ?_)
          (isSome_forSome fun rest hrest => isSome_checkItemsFrom h (mem_subschemas_get hrest (by simp)))
        obtain ⟨⟨t, item⟩, i⟩ := entry
        have hget := mem_zipIdx_iff_getElem?.mp hentry
        obtain ⟨hts', hitem⟩ := getElem?_zip_eq_some.mp hget
        exact h t (mem_subschemas_branches hts (mem_of_getElem? hts') (by simp)) _ _ (.item rfl hitem)
      · exact isSome_forSome fun every hevery =>
          isSome_checkItemsFrom h (mem_subschemas_get hevery (by simp))
  · refine isSome_forSome fun contained hcontained => ?_
    refine isSome_bind (isSome_mapM fun item hitem => ?_) fun results => ?_
    · have hget := mem_zipIdx_iff_getElem?.mp hitem
      exact h contained (mem_subschemas_get hcontained (by simp)) _ _ (.item rfl hget)
    · exact isSome_and (isSome_ensure ..) isSome_bound

theorem isSome_validateStringKeywords (s : JsStr) : (validateStringKeywords host schema s path).isSome = true := by
  refine isSome_all ⟨isSome_bound, isSome_bound, isSome_forSome fun pattern _ => ?_⟩
  split
  · rfl
  · exact isSome_ensure ..

theorem isSome_validateNumberKeywords (n : ν) : (validateNumberKeywords host schema n path).isSome = true := by
  refine isSome_all ⟨isSome_bound, isSome_bound, isSome_bound, isSome_bound, ?_, ?_, isSome_bound⟩
  · split_ifs
    · exact isSome_bound
    · rfl
  · split_ifs
    · exact isSome_bound
    · rfl

theorem isSome_validateKeywords (h : Returns validate schema value path) :
    (validateKeywords host validate schema value path).isSome = true := by
  simp only [validateKeywords]
  split_ifs
  · rfl
  · refine isSome_all ⟨isSome_bound, isSome_bound, isSome_checkBranches h (by simp) _ _,
      isSome_checkBranches h (by simp) _ _, ?_, isSome_checkNot h, isSome_checkIf h, ?_⟩
    · exact isSome_forSome fun ts hts => isSome_each fun t ht =>
        h t (mem_subschemas_branches hts ht (by simp)) _ _ .self
    · unfold validateKindKeywords
      split
      · exact isSome_validateObjectKeywords h rfl
      · exact isSome_validateObjectKeywords h rfl
      · exact isSome_validateArrayKeywords h
      · exact isSome_validateStringKeywords _
      · split_ifs
        · exact isSome_validateNumberKeywords _
        · rfl
      · rfl

end

section

variable {ν : Type} {host : Host ν}

mutual

def strings : Json ν → List JsStr
  | .str s => [s]
  | .arr items => stringsOfItems items
  | .obj fields => stringsOfFields fields
  | _ => []

def stringsOfItems : List (Json ν) → List JsStr
  | [] => []
  | v :: vs => strings v ++ stringsOfItems vs

def stringsOfFields : Fields ν → List JsStr
  | [] => []
  | (_, v) :: fields => strings v ++ stringsOfFields fields

end

mutual

def places (path : List Key) : Json ν → List Identity
  | .arr items => .place path :: placesOfItems path 0 items
  | .obj fields => .place path :: placesOfFields path fields
  | _ => []

def placesOfItems (path : List Key) (i : Nat) : List (Json ν) → List Identity
  | [] => []
  | v :: vs => places (path ++ [.index i]) v ++ placesOfItems path (i + 1) vs

def placesOfFields (path : List Key) : Fields ν → List Identity
  | [] => []
  | (key, v) :: fields => places (path ++ [.name key]) v ++ placesOfFields path fields

end

variable {v t : Json ν} {value : JsValue ν} {schema : Fields ν}

variable {path : List Key} {s : Json ν} {pairs : Finset (JsStr × Identity)}
  {ctx : ValidationContext ν}

theorem places_subset_items {items i j} (h : items[i]? = some v) :
    places (path ++ [.index (j + i)]) v ⊆ placesOfItems path j items := by
  induction items generalizing i j with
  | nil => cases h
  | cons w items ih =>
    cases i with
    | zero =>
      obtain rfl : w = v := by simpa using h
      exact subset_append_left _ _
    | succ i =>
      have hrest : items[i]? = some v := by simpa using h
      have hsub := @ih i (j + 1) hrest
      rw [Nat.add_right_comm] at hsub
      exact subset_append_of_subset_right _ hsub

theorem places_subset_fields {fields} {p : JsStr × Json ν} (h : p ∈ fields) :
    places (path ++ [.name p.1]) p.2 ⊆ placesOfFields path fields := by
  induction fields with
  | nil => cases h
  | cons q fields ih =>
    rw [placesOfFields]
    rcases mem_cons.mp h with rfl | h
    · exact subset_append_left _ _
    · exact subset_append_of_subset_right _ (ih h)

/-- What a value and everything below it can be to the cycle check. -/
def identities (path : List Key) : JsValue ν → List Identity
  | .json v => .prototype :: places path v
  | _ => [.prototype]

theorem mem_identities {identity} (h : getValueIdentity path value = some identity) :
    identity ∈ identities path value := by
  unfold getValueIdentity at h
  split at h <;> cases h <;> simp [identities, places]

theorem identities_prototype : Identity.prototype ∈ identities path value := by
  cases value <;> simp [identities]

theorem identities_json_subset {path'} (h : places path' v ⊆ identities path value) :
    identities path' (.json v) ⊆ identities path value :=
  cons_subset.mpr ⟨identities_prototype, h⟩

theorem Below.identities_subset {w p} (h : Below value path w p) : identities p w ⊆ identities path value := by
  have hother {w : JsValue ν} {p : List Key} (hw : ∀ v, w ≠ .json v) : identities p w ⊆ identities path value := by
    cases w with
    | json v => exact absurd rfl (hw v)
    | function | objectPrototype | arrayPrototype => exact cons_subset.mpr ⟨identities_prototype, nofun⟩
  cases h with
  | self => exact fun _ h => h
  | @get key w hget =>
    unfold JsValue.get at hget
    split at hget
    · next fields =>
      split at hget
      · next v hlookup =>
        cases hget
        refine identities_json_subset ?_
        exact subset_cons_of_subset _ (subset_cons_of_subset _ (places_subset_fields (mem_of_lookup hlookup)))
      · unfold inherited at hget
        split_ifs at hget <;> cases hget <;> exact hother nofun
    · split_ifs at hget
      · cases hget
        exact identities_json_subset nofun
      · cases hget
        exact hother nofun
    · cases hget
  | @member members member hmembers hmem =>
    unfold JsValue.members at hmembers
    split at hmembers
    · cases hmembers
      refine identities_json_subset ?_
      exact subset_cons_of_subset _ (subset_cons_of_subset _ (places_subset_fields hmem))
    · cases hmembers
      cases hmem
    · cases hmembers
  | name key => exact identities_json_subset nofun
  | @item items i w hitems hget =>
    subst hitems
    refine identities_json_subset ?_
    have hsub := @places_subset_items _ w path items i 0 hget
    rw [Nat.zero_add] at hsub
    exact subset_cons_of_subset _ (subset_cons_of_subset _ hsub)

inductive Part : Json ν → Json ν → Prop where
  | item {items : List (Json ν)} {t : Json ν} (h : t ∈ items) : Part t (.arr items)
  | field {fields : Fields ν} {p : JsStr × Json ν} (h : p ∈ fields) : Part p.2 (.obj fields)

theorem Part.sizeOf_lt (h : Part t s) : sizeOf t < sizeOf s := by
  cases h with
  | item h => exact Json.sizeOf_item h
  | field h => exact Json.sizeOf_field h

theorem Part.strings_subset (h : Part t s) : strings t ⊆ strings s := by
  cases h with
  | @item items t h | @field items p h =>
    induction items with
    | nil => cases h
    | cons w items ih =>
      rcases mem_cons.mp h with rfl | h
      · exact subset_append_left _ _
      · exact subset_append_of_subset_right _ (ih h)

theorem part_of_mem_subschemas (h : t ∈ subschemas schema) :
    Part t (.obj schema) ∨ ∃ s, Part t s ∧ Part s (.obj schema) := by
  have hget {keyword : String} {s : Json ν} (h : get schema keyword = some s) : Part s (.obj schema) :=
    .field (mem_of_lookup h)
  have hbranches {keyword : String} (h : t ∈ (branches schema keyword).getD []) :
      ∃ s, Part t s ∧ Part s (.obj schema) := by
    unfold branches at h
    cases hs : get schema keyword with
    | none =>
      rw [hs] at h
      cases h
    | some s =>
      rw [hs] at h
      cases s with
      | arr items => exact ⟨.arr items, .item h, hget hs⟩
      | null | bool b | num n | str s | obj fields => cases h
  have hfields {keyword : String} (h : t ∈ (fieldMap schema keyword).map Prod.snd) :
      ∃ s, Part t s ∧ Part s (.obj schema) := by
    unfold fieldMap at h
    cases hs : get schema keyword with
    | none =>
      rw [hs] at h
      cases h
    | some s =>
      rw [hs] at h
      cases s with
      | obj fields =>
        obtain ⟨p, hp, rfl⟩ := mem_map.mp h
        exact ⟨.obj fields, .field hp, hget hs⟩
      | null | bool b | num n | str s | arr items => cases h
  simp only [subschemas, JsonSchema.Node.parts, node, mem_append, Option.mem_toList, or_assoc] at h
  rcases h with h | h | h | h | h | h | h | h | h | h | h | h | h | h | h | h | h
  all_goals
    first
    | exact .inl (hget h)
    | exact .inr (hbranches h)
    | exact .inr (hfields h)

theorem sizeOf_subschema (h : t ∈ subschemas schema) : sizeOf t < sizeOf (Json.obj schema) := by
  rcases part_of_mem_subschemas h with hpart | ⟨s, hts, hs⟩
  · exact hpart.sizeOf_lt
  · exact hts.sizeOf_lt.trans hs.sizeOf_lt

theorem strings_subschema (h : t ∈ subschemas schema) : strings t ⊆ strings (.obj schema) := by
  rcases part_of_mem_subschemas h with hpart | ⟨s, hts, hs⟩
  · exact hpart.strings_subset
  · exact List.Subset.trans hts.strings_subset hs.strings_subset

section

-- what holds of the document and of what it can inherit, and passes to the parts of a value
variable {P : Json ν → Prop} (hpart : ∀ {t s : Json ν}, Part t s → P s → P t) (hnull : P .null)
  (hnum : ∀ n, P (.num n)) (hnil : P (.obj []))
include hnull hnum

theorem closed_arrayMember {length token next} (h : arrayMember host length token = some next) : P next.asSchema := by
  unfold arrayMember at h
  split_ifs at h <;> cases h
  · exact hnum _
  · exact hnull

include hpart hnil

theorem closed_step {current next : JsValue ν} {token} (h : P current.asSchema)
    (hstep : current.step host token = some next) : P next.asSchema := by
  unfold JsValue.step at hstep
  split at hstep
  · next items =>
    split at hstep
    · next i hindex =>
      obtain ⟨v, hv, rfl⟩ := Option.map_eq_some_iff.mp hstep
      exact hpart (.item (mem_of_getElem? hv)) h
    · split_ifs at hstep
      · cases hstep
        exact hnull
      · exact closed_arrayMember hnull hnum hstep
  · split_ifs at hstep
    · cases hstep
      exact hnil
    · exact closed_arrayMember hnull hnum hstep
  · unfold JsValue.get at hstep
    split at hstep
    · next fields _ _ =>
      split at hstep
      · next v hlookup =>
        cases hstep
        exact hpart (.field (mem_of_lookup hlookup)) h
      · unfold inherited at hstep
        split_ifs at hstep <;> cases hstep
        · exact hnil
        · exact hnull
    · split_ifs at hstep <;> cases hstep
      · exact hnull
      · exact hnull
    · cases hstep

theorem closed_followTokens {tokens current last} (h : P current.asSchema)
    (hfollow : followTokens host tokens current = some last) : P last.asSchema := by
  induction tokens generalizing current with
  | nil =>
    cases hfollow
    exact h
  | cons token tokens ih =>
    obtain ⟨next, hstep, hrest⟩ := Option.bind_eq_some_iff.mp hfollow
    exact ih (closed_step hpart hnull hnum hnil h hstep) hrest

theorem closed_resolveLocalRef {root resolved ref} (hroot : P root)
    (h : resolveLocalRef host root ref = some resolved) : P resolved := by
  unfold resolveLocalRef at h
  split_ifs at h
  · cases h
    exact hroot
  · obtain ⟨last, hlast, rfl⟩ := Option.map_eq_some_iff.mp h
    exact @closed_followTokens _ host P hpart hnull hnum hnil _ (.json root) last hroot hlast

end

/-- What a reference resolves to is no larger than the document, and its strings are those of it. -/
structure Inside (root : Json ν) (v : Json ν) : Prop where
  strings : strings v ⊆ strings root
  size : sizeOf v ≤ sizeOf root + 2

theorem Inside.part {root} (hpart : Part t s) (h : Inside root s) : Inside root t :=
  ⟨List.Subset.trans hpart.strings_subset h.strings, hpart.sizeOf_lt.le.trans h.size⟩

theorem inside_resolveLocalRef {root resolved ref}
    (h : resolveLocalRef host root ref = some resolved) : Inside root resolved := by
  refine closed_resolveLocalRef Inside.part ⟨nofun, ?_⟩ (fun n => ⟨nofun, ?_⟩) ⟨nofun, ?_⟩
    ⟨fun _ h => h, Nat.le_add_right _ _⟩ h
  · simp
  · simp
  · simp

def remaining (pairs : Finset (JsStr × Identity)) (ctx : ValidationContext ν) : Nat :=
  (pairs.filter fun pair => pair ∉ ctx.seenPairs).card + (maxRefDepth - ctx.refDepth)

theorem remaining_seen {pair} (hmem : pair ∈ pairs) (hnew : pair ∉ ctx.seenPairs) :
    remaining pairs { ctx with seenPairs := pair :: ctx.seenPairs } < remaining pairs ctx := by
  refine Nat.add_lt_add_right (Finset.card_lt_card ?_) _
  refine Finset.ssubset_iff_subset_ne.mpr ⟨?_, ?_⟩
  · intro other hother
    obtain ⟨hin, hout⟩ := Finset.mem_filter.mp hother
    exact Finset.mem_filter.mpr ⟨hin, fun hseen => hout (mem_cons_of_mem _ hseen)⟩
  · intro heq
    have hpair : pair ∈ pairs.filter fun pair => pair ∉ ctx.seenPairs := Finset.mem_filter.mpr ⟨hmem, hnew⟩
    rw [← heq] at hpair
    exact (Finset.mem_filter.mp hpair).2 mem_cons_self

/-- Enough nested calls: each reference starts over with a schema of the document. -/
theorem isSome_validateSchemaNode {n schema} (hstrings : strings schema ⊆ strings ctx.root)
    (hpairs : ∀ ref ∈ strings ctx.root, ∀ identity ∈ identities path value, (ref, identity) ∈ pairs)
    (hfuel : remaining pairs ctx * (sizeOf ctx.root + 3) + sizeOf schema < n) :
    (validateSchemaNode host n schema value path ctx).isSome = true := by
  induction n generalizing schema value path ctx with
  | zero => exact absurd hfuel (Nat.not_lt_zero _)
  | succ n ih =>
    rw [validateSchemaNode]
    unfold validateNode
    split
    · rfl
    · rfl
    · next fields =>
      split
      · next ref href =>
        have hmem : ref ∈ strings ctx.root :=
          hstrings ((Part.field (mem_of_lookup href)).strings_subset (by simp [strings]))
        unfold validateRef
        split
        · rfl
        · next resolved hresolved =>
          have hinside := inside_resolveLocalRef hresolved
          -- a smaller remainder pays for the whole document
          have hstep {ctx' : ValidationContext ν} (hroot : ctx'.root = ctx.root)
              (hless : remaining pairs ctx' < remaining pairs ctx) :
              (validateSchemaNode host n resolved value path ctx').isSome = true := by
            refine ih (by rw [hroot]; exact hinside.strings) (by rw [hroot]; exact hpairs) ?_
            have hmul := Nat.mul_le_mul_right (sizeOf ctx.root + 3) (Nat.succ_le_of_lt hless)
            rw [Nat.succ_mul] at hmul
            have hsize := hinside.size
            rw [hroot]
            omega
          split
          · next identity hidentity =>
            split_ifs with hseen
            · rfl
            · exact hstep rfl (remaining_seen (hpairs ref hmem identity (mem_identities hidentity)) hseen)
          · split_ifs with hdepth
            · rfl
            · exact hstep rfl (by simp only [remaining]; omega)
      · split_ifs
        · rfl
        · refine isSome_validateKeywords fun t ht w p hbelow => ?_
          refine ih (List.Subset.trans (strings_subschema ht) hstrings) ?_ ?_
          · exact fun ref href identity hidentity =>
              hpairs ref href identity (hbelow.identities_subset hidentity)
          · have hsize := sizeOf_subschema ht
            omega
    · exact rfl

theorem validateSchemaNode_returns (host : Host ν) (root : Json ν) (value : JsValue ν) :
    ∃ n, ∀ fuel, n ≤ fuel → ∀ schema, strings schema ⊆ strings root → sizeOf schema ≤ sizeOf root →
      (validateSchemaNode host fuel schema value [] ⟨root, [], 0⟩).isSome = true := by
  let pairs := (strings root).toFinset ×ˢ (identities [] value).toFinset
  refine ⟨remaining pairs ⟨root, [], 0⟩ * (sizeOf root + 3) + sizeOf root + 1, ?_⟩
  intro fuel hfuel schema hstrings hsize
  refine @isSome_validateSchemaNode _ _ _ _ pairs _ _ _ hstrings ?_ (by
    show remaining pairs ⟨root, [], 0⟩ * (sizeOf root + 3) + sizeOf schema < fuel
    omega)
  intro ref href identity hidentity
  exact Finset.mem_product.mpr ⟨mem_toFinset.mpr href, mem_toFinset.mpr hidentity⟩

theorem validateJsonSchemaValue_returns (host : Host ν) (schema : Json ν) (value : JsValue ν) :
    ∃ n, ∀ fuel, n ≤ fuel → (validateJsonSchemaValue host fuel schema value).isSome = true := by
  obtain ⟨n, hn⟩ := validateSchemaNode_returns host schema value
  exact ⟨n, fun fuel hfuel => hn fuel hfuel schema (fun _ h => h) le_rfl⟩

end

end GajaeCode.Schema
