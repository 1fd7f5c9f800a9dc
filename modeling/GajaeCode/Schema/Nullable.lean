import GajaeCode.Data.Fallible
import GajaeCode.Schema.DraftUpgrade
import GajaeCode.Schema.ValidatorMonotone

/-! What `nullable` adds to a schema: the upgraded schema also accepts null, if the keywords that the upgrade
leaves alone let it pass. -/
namespace GajaeCode.Schema

open Text Data
open List hiding get
open JsonSchema (Fields get branches fieldMap number)

namespace Check

/-- The check has returned without an issue. -/
def Accepts (c : Check) : Prop := ∃ issues, c = some (true, issues)

theorem accepts_iff {c : Check} : c.Accepts ↔ c.map Prod.fst = some true := by
  constructor
  · rintro ⟨issues, rfl⟩
    rfl
  · intro h
    obtain ⟨r, hr, h⟩ := Option.map_eq_some_iff.mp h
    exact ⟨r.2, by rw [hr, ← h]⟩

theorem accepts_pass : pass.Accepts := ⟨[], rfl⟩

theorem Accepts.returned {a b : Check} (h : a.Accepts) (hab : Returned a b) : b.Accepts := by
  obtain ⟨issues, ha⟩ := h
  exact ⟨issues, hab _ ha⟩

theorem accepts_and {a b : Check} : (a.and b).Accepts ↔ a.Accepts ∧ b.Accepts := by
  constructor
  · rintro ⟨issues, h⟩
    obtain ⟨x, hx, h⟩ := Option.bind_eq_some_iff.mp h
    obtain ⟨y, hy, h⟩ := Option.map_eq_some_iff.mp h
    obtain ⟨hxy, _⟩ := Prod.mk.inj h
    obtain ⟨hx1, hy1⟩ := Bool.and_eq_true_iff.mp hxy
    exact ⟨⟨x.2, by rw [hx, ← hx1]⟩, ⟨y.2, by rw [hy, ← hy1]⟩⟩
  · rintro ⟨⟨left, rfl⟩, ⟨right, rfl⟩⟩
    exact ⟨left ++ right, rfl⟩

theorem accepts_all {cs} : (all cs).Accepts ↔ ∀ c ∈ cs, c.Accepts := by
  induction cs with
  | nil => simp [all, accepts_pass]
  | cons c cs ih => rw [all, accepts_and, ih, forall_mem_cons]

end Check

section

variable {ν : Type} (host : Host ν) (validate : Json ν → JsValue ν → List Key → Check) {schema schema' : Fields ν}
  {value : JsValue ν} {path : List Key}

def typeAllowed (schema : Fields ν) (value : JsValue ν) : Prop :=
  schemaTypes schema = [] ∨ ∃ type ∈ schemaTypes schema, matchesJsonSchemaType host value type = true

def otherChecks (schema : Fields ν) (value : JsValue ν) (path : List Key) : List Check :=
  [checkConst host schema value path, checkEnum host schema value path, checkOneOf validate schema value path,
    checkAllOf validate schema value path, checkNot validate schema value path,
    checkIf validate schema value path, validateKindKeywords host validate schema value path]

theorem accepts_validateKeywords : (validateKeywords host validate schema value path).Accepts ↔
    typeAllowed host schema value ∧ (checkAnyOf validate schema value path).Accepts ∧
      ∀ c ∈ otherChecks host validate schema value path, c.Accepts := by
  have htype : typeAllowed host schema value ↔
      ¬(schemaTypes schema ≠ [] ∧ ((schemaTypes schema).any fun type => matchesJsonSchemaType host value type) = false) := by
    rw [typeAllowed, not_and_or, not_not, Bool.not_eq_false, any_eq_true]
  rw [htype]
  simp only [validateKeywords]
  split_ifs with h
  · constructor
    · rintro ⟨_, ⟨⟩⟩
    · rintro ⟨hn, _⟩
      exact absurd h hn
  · rw [Check.accepts_all]
    simp only [otherChecks, forall_mem_cons, not_mem_nil, false_imp_iff, implies_true, and_true, h,
      not_false_eq_true, true_and]
    constructor
    · rintro ⟨hconst, henum, hanyOf, hrest⟩
      exact ⟨hanyOf, hconst, henum, hrest⟩
    · rintro ⟨hanyOf, hconst, henum, hrest⟩
      exact ⟨hconst, henum, hanyOf, hrest⟩

theorem otherChecks_congr (h : ∀ key : String, lit key ∉ [lit "type", lit "nullable", lit "anyOf"] →
    get schema' key = get schema key) :
    otherChecks host validate schema' value path = otherChecks host validate schema value path := by
  simp (disch := decide) only [otherChecks, checkConst, checkEnum, checkOneOf, checkBranches, checkAllOf, checkNot,
    checkIf, validateKindKeywords, validateObjectKeywords, checkRequired, checkProperties, checkPropertyNames,
    checkPatternProperties, isKnown, checkDependentRequired, checkDependentSchemas, checkAdditionalProperties,
    checkLeast, checkMost, validateArrayKeywords, checkUniqueItems, checkItems, checkContains,
    validateStringKeywords, checkPattern, validateNumberKeywords, checkBound, branches, fieldMap, number, h]

theorem accepts_validateKeywords_congr (h : ∀ key : String, lit key ≠ lit "type" → get schema' key = get schema key) :
    (validateKeywords host validate schema' value path).Accepts ↔ typeAllowed host schema' value ∧
      (checkAnyOf validate schema value path).Accepts ∧
      ∀ c ∈ otherChecks host validate schema value path, c.Accepts := by
  rw [accepts_validateKeywords,
    otherChecks_congr host validate fun key hkey => h key fun h => hkey (h ▸ mem_cons_self), checkAnyOf, checkAnyOf,
    checkBranches, checkBranches, branches, branches, h _ (by decide)]

theorem accepts_otherChecks_singleton {keyword : String} (field : Json ν)
    (hkeyword : lit keyword ∈ [lit "type", lit "nullable", lit "anyOf"]) :
    ∀ c ∈ otherChecks host validate [(lit keyword, field)] value path, c.Accepts := by
  have hsame : ∀ key : String, lit key ∉ [lit "type", lit "nullable", lit "anyOf"] →
      get [(lit keyword, field)] key = get [] key := by
    intro key hkey
    have hne : lit key ≠ lit keyword := fun h => hkey (h ▸ hkeyword)
    rw [JsonSchema.get, lookup_cons, beq_false_of_ne hne]
    rfl
  have hkind : validateKindKeywords host validate ([] : Fields ν) value path = Check.pass := by
    unfold validateKindKeywords
    split
    · rfl
    · rfl
    · rfl
    · rfl
    · split_ifs
      · rfl
      · rfl
    · rfl
  rw [otherChecks_congr host validate hsame]
  simp only [otherChecks, hkind, forall_mem_cons, not_mem_nil, false_imp_iff, implies_true, and_true]
  exact ⟨Check.accepts_pass, Check.accepts_pass, Check.accepts_pass, Check.accepts_pass, Check.accepts_pass,
    Check.accepts_pass, Check.accepts_pass⟩

theorem accepts_of_results {f : Json ν → Check} {variants results}
    (h : List.Forall₂ (fun t r => f t = some r) variants results) :
    (∀ t ∈ variants, (f t).isSome = true) ∧ (0 < results.countP Prod.fst ↔ ∃ t ∈ variants, (f t).Accepts) := by
  induction h with
  | nil => simp
  | @cons t r variants results hr _ ih =>
    obtain ⟨hsome, hcount⟩ := ih
    refine ⟨forall_mem_cons.mpr ⟨by rw [hr]; rfl, hsome⟩, ?_⟩
    obtain ⟨accepted, issues⟩ := r
    rw [exists_mem_cons_iff, ← hcount, Check.Accepts, hr]
    cases accepted with
    | true => simp
    | false => simp

theorem accepts_checkAnyOf {variants} (h : branches schema "anyOf" = some variants) :
    (checkAnyOf validate schema value path).Accepts ↔ (∀ t ∈ variants, (validate t value path).isSome = true) ∧
      ∃ t ∈ variants, (validate t value path).Accepts := by
  have hresults : (checkAnyOf validate schema value path).Accepts ↔ ∃ results,
      variants.mapM (fun t => validate t value path) = some results ∧ 0 < results.countP Prod.fst := by
    rw [checkAnyOf, checkBranches, h]
    constructor
    · rintro ⟨issues, hissues⟩
      obtain ⟨results, hmap, hresult⟩ := Option.map_eq_some_iff.mp hissues
      refine ⟨results, hmap, ?_⟩
      by_contra hzero
      simp only [hzero, decide_false, Bool.false_eq_true, if_false] at hresult
      split at hresult
      · split at hresult
        · cases hresult
        · cases hresult
      · cases hresult
    · rintro ⟨results, hmap, hcount⟩
      refine ⟨[], ?_⟩
      show (variants.mapM fun t => validate t value path).map _ = _
      rw [hmap, Option.map_some]
      simp [hcount]
  rw [hresults]
  constructor
  · rintro ⟨results, hmap, hcount⟩
    obtain ⟨hsome, hiff⟩ := accepts_of_results (mapM_eq_some_iff.mp hmap)
    exact ⟨hsome, hiff.mp hcount⟩
  · rintro ⟨hsome, hexists⟩
    obtain ⟨results, hmap⟩ := Option.isSome_iff_exists.mp (Check.isSome_mapM hsome)
    exact ⟨results, hmap, (accepts_of_results (mapM_eq_some_iff.mp hmap)).2.mpr hexists⟩

end

section

variable {ν : Type} (host : Host ν)

def acceptsIn (root schema v : Json ν) : Prop :=
  ∃ fuel, (validateSchemaNode host fuel schema (.json v) [] ⟨root, [], 0⟩).Accepts

def accepts (schema v : Json ν) : Prop := ∃ fuel, (validateJsonSchemaValue host fuel schema (.json v)).Accepts

abbrev callsIn (root : Json ν) (n : Nat) (schema : Json ν) (value : JsValue ν) (path : List Key) : Check :=
  validateSchemaNode host n schema value path ⟨root, [], 0⟩

variable {host} {root v : Json ν} {fields : Fields ν}

theorem validateSchemaNode_object (href : get fields "$ref" = none)
    (hnullable : get fields "nullable" = none) (n : Nat)
    (value : JsValue ν) : validateSchemaNode host (n + 1) (.obj fields) value [] ⟨root, [], 0⟩ =
      validateKeywords host (callsIn host root n) fields value [] := by
  show validateNode host (validateSchemaNode host n) (.obj fields) value [] ⟨root, [], 0⟩ = _
  simp only [validateNode, href, hnullable, isTrue, Bool.and_false, Bool.false_eq_true, if_false]

theorem acceptsIn_object (href : get fields "$ref" = none) (hnullable : get fields "nullable" = none) :
    acceptsIn host root (.obj fields) v ↔
      ∃ n, (validateKeywords host (callsIn host root n) fields (.json v) []).Accepts := by
  constructor
  · rintro ⟨fuel, h⟩
    cases fuel with
    | zero =>
      obtain ⟨_, h⟩ := h
      cases h
    | succ n =>
      rw [validateSchemaNode_object href hnullable] at h
      exact ⟨n, h⟩
  · rintro ⟨n, h⟩
    refine ⟨n + 1, ?_⟩
    rwa [validateSchemaNode_object href hnullable]

theorem accepts_object (href : get fields "$ref" = none) (hnullable : get fields "nullable" = none) :
    accepts host (.obj fields) v ↔
      ∃ n, (validateKeywords host (callsIn host (.obj fields) n) fields (.json v) []).Accepts :=
  acceptsIn_object href hnullable

theorem accepts_validateKeywords_mono {n m} (hnm : n ≤ m)
    (h : (validateKeywords host (callsIn host root n) fields (.json v) []).Accepts) :
    (validateKeywords host (callsIn host root m) fields (.json v) []).Accepts := by
  refine h.returned (returned_validateKeywords (fun t _ w p => ?_) _ _)
  exact validateSchemaNode_mono hnm t w p _

def nullFields : Fields ν := [(lit "type", .str (lit "null"))]

theorem matchesJsonSchemaType_null (v : Json ν) :
    matchesJsonSchemaType host (.json v) (lit "null") = true ↔ v = .null := by
  have hnumber : (lit "null" == lit "number") = false := by decide
  have hinteger : (lit "null" == lit "integer") = false := by decide
  cases v with
  | null => simp [matchesJsonSchemaType]
  | num n => simp [matchesJsonSchemaType, hnumber, hinteger]
  | bool | str | arr | obj =>
    simp only [matchesJsonSchemaType, reduceCtorEq, iff_false]
    decide

theorem typeAllowed_nullFields (v : Json ν) : typeAllowed host nullFields (.json v) ↔ v = .null := by
  have htypes : schemaTypes (nullFields : Fields ν) = [lit "null"] := rfl
  simp [typeAllowed, htypes, matchesJsonSchemaType_null]

theorem accepts_nullSchema (n : Nat) (v : Json ν) :
    (callsIn host root (n + 1) nullSchema (.json v) []).Accepts ↔ v = .null := by
  rw [callsIn, show nullSchema = Json.obj (nullFields : Fields ν) from rfl, validateSchemaNode_object rfl rfl,
    accepts_validateKeywords, typeAllowed_nullFields]
  refine ⟨fun h => h.1, fun h => ⟨h, ?_, accepts_otherChecks_singleton host _ _ (by decide)⟩⟩
  rw [checkAnyOf]
  exact Check.accepts_pass

theorem eq_null_of_accepts {n} {v : Json ν} (h : (callsIn host root n nullSchema (.json v) []).Accepts) :
    v = .null := by
  cases n with
  | zero =>
    obtain ⟨_, hzero⟩ := h
    cases hzero
  | succ n => exact (accepts_nullSchema n v).mp h

theorem isSome_nullSchema (n : Nat) (v : Json ν) :
    (callsIn host root (n + 1) nullSchema (.json v) []).isSome = true := by
  rw [callsIn, show nullSchema = Json.obj (nullFields : Fields ν) from rfl, validateSchemaNode_object rfl rfl]
  have hnode : JsonSchema.node id .null (nullFields : Fields ν) =
      { (.empty : JsonSchema.Node ν (Json ν)) with types := some [lit "null"] } := rfl
  apply isSome_validateKeywords
  intro t ht
  rw [subschemas, hnode] at ht
  simp [JsonSchema.Node.parts, JsonSchema.Node.empty] at ht

end

section

variable {ν : Type} {host : Host ν} {schema nullable : Fields ν} {v : Json ν}

def without (schema : Fields ν) (keyword : String) : Fields ν := schema.filter fun entry => entry.1 != lit keyword

/-- The keywords that `makeNullable` leaves alone accept null. -/
def LetsNullPass (host : Host ν) (schema : Fields ν) : Prop :=
  match get schema "type" with
  | some (.str _) => acceptsIn host (.obj schema) (.obj (without schema "type")) .null
  | some (.arr types) => (∃ type ∈ types, type.asStr.isSome = true) ∧
      acceptsIn host (.obj schema) (.obj (without schema "type")) .null
  | _ =>
    match branches schema "anyOf" with
    | some variants => acceptsIn host (.obj schema) (.obj (without schema "anyOf")) .null ∧
        (hasNullVariant variants = true → ∃ variant ∈ variants, acceptsIn host (.obj schema) variant .null)
    | none => True

theorem get_without {keyword} (other : String) (hne : lit other ≠ lit keyword) :
    get (without schema keyword) other = get schema other := by
  rw [JsonSchema.get, without, lookup_filter_keys (fun k => k != lit keyword), if_pos (bne_iff_ne.mpr hne)]
  rfl

theorem without_subset (keyword : String) : without schema keyword ⊆ schema := filter_subset_self _

theorem get_assocSet {keyword value} (other : String) (hne : lit other ≠ lit keyword) :
    get (assocSet (lit keyword) value schema) other = get schema other := by
  rw [JsonSchema.get, lookup_assocSet, if_neg hne]
  rfl

/-- The two documents resolve the references of the first alike. -/
def SameReferences (host : Host ν) (schema nullable : Fields ν) : Prop :=
  ∀ ref ∈ references (.obj schema), resolveLocalRef host (.obj nullable) ref = resolveLocalRef host (.obj schema) ref

theorem SameReferences.calls (h : SameReferences host schema nullable) (n : Nat) {t}
    (ht : references t ⊆ references (.obj schema)) (w : JsValue ν) (p : List Key) :
    callsIn host (.obj nullable) n t w p = callsIn host (.obj schema) n t w p :=
  validateSchemaNode_root h n t ht w p [] 0

theorem SameReferences.keywords (h : SameReferences host schema nullable) (n : Nat) {fields}
    (hfields : fields ⊆ schema) (value : JsValue ν) :
    validateKeywords host (callsIn host (.obj nullable) n) fields value [] =
      validateKeywords host (callsIn host (.obj schema) n) fields value [] := by
  apply validateKeywords_congr
  intro t ht w p
  exact h.calls n (List.Subset.trans (references_subschema ht) (references_subset hfields)) w p

theorem variants_return {fields variants} (hvariants : branches fields "anyOf" = some variants)
    (v : Json ν) : ∃ n, ∀ fuel, n ≤ fuel → ∀ t ∈ variants,
      (callsIn host (.obj fields) fuel t (.json v) []).isSome = true := by
  obtain ⟨n, hn⟩ := validateSchemaNode_returns host (.obj fields) (.json v)
  refine ⟨n, fun fuel hfuel t ht => hn fuel hfuel t ?_ ?_⟩
  · exact strings_subschema (mem_subschemas_branches hvariants ht (by simp))
  · exact (sizeOf_subschema (mem_subschemas_branches hvariants ht (by simp))).le

variable (href : get schema "$ref" = none) (hnull : get schema "nullable" = none)
  (hrefs : SameReferences host schema nullable)
include href hnull hrefs

theorem accepts_types_iff (hget : ∀ key : String, lit key ≠ lit "type" → get nullable key = get schema key)
    (htypes : ∀ type, type ∈ schemaTypes nullable ↔ type ∈ schemaTypes schema ∨ type = lit "null")
    (hsome : schemaTypes schema ≠ []) (hpass : acceptsIn host (.obj schema) (.obj (without schema "type")) .null) :
    accepts host (.obj nullable) v ↔ v = .null ∨ accepts host (.obj schema) v := by
  have hwithout : ∀ key : String, lit key ≠ lit "type" → get (without schema "type") key = get schema key :=
    fun key => get_without key
  have hnullable : schemaTypes nullable ≠ [] := ne_nil_of_mem ((htypes _).mpr (.inr rfl))
  rw [accepts_object ((hget _ (by decide)).trans href) ((hget _ (by decide)).trans hnull), accepts_object href hnull]
  by_cases hv : v = .null
  · refine iff_of_true ?_ (.inl hv)
    rw [acceptsIn_object ((hwithout _ (by decide)).trans href) ((hwithout _ (by decide)).trans hnull)] at hpass
    obtain ⟨n, hpass⟩ := hpass
    rw [← hrefs.keywords n (without_subset _), accepts_validateKeywords_congr host _ hwithout] at hpass
    refine ⟨n, ?_⟩
    rw [accepts_validateKeywords_congr host _ hget, hv]
    exact ⟨.inr ⟨lit "null", (htypes _).mpr (.inr rfl), (matchesJsonSchemaType_null _).mpr rfl⟩, hpass.2⟩
  · have htype : typeAllowed host nullable (.json v) ↔ typeAllowed host schema (.json v) := by
      have hno : ¬matchesJsonSchemaType host (.json v) (lit "null") = true := by
        rw [matchesJsonSchemaType_null]
        exact hv
      simp only [typeAllowed, hnullable, hsome, false_or, htypes]
      constructor
      · rintro ⟨type, htype | rfl, hmatch⟩
        · exact ⟨type, htype, hmatch⟩
        · exact absurd hmatch hno
      · rintro ⟨type, htype, hmatch⟩
        exact ⟨type, .inl htype, hmatch⟩
    rw [or_iff_right hv]
    apply exists_congr
    intro n
    rw [← hrefs.keywords n (List.Subset.refl _), accepts_validateKeywords_congr host _ hget,
      accepts_validateKeywords, htype]

/-- A schema whose variants are extended by the schema of null, unless one of them accepts null. -/
theorem accepts_variants_iff {variants variants'}
    (hget : ∀ key : String, lit key ≠ lit "anyOf" → get nullable key = get schema key)
    (hno : schemaTypes schema = []) (hvariants : branches schema "anyOf" = some variants)
    (hvariants' : branches nullable "anyOf" = some variants') (hadded : variants' = variants ++ [nullSchema] ∨
      variants' = variants ∧ ∃ variant ∈ variants, acceptsIn host (.obj schema) variant .null)
    (hpass : acceptsIn host (.obj schema) (.obj (without schema "anyOf")) .null) :
    accepts host (.obj nullable) v ↔ v = .null ∨ accepts host (.obj schema) v := by
  have hno' : schemaTypes nullable = [] := by
    rw [← hno, schemaTypes, schemaTypes, hget _ (by decide), hget _ (by decide)]
  have hother : ∀ {fields}, (∀ key : String, lit key ≠ lit "anyOf" → get fields key = get schema key) →
      ∀ n value, otherChecks host (callsIn host (.obj nullable) n) fields value [] =
        otherChecks host (callsIn host (.obj nullable) n) schema value [] := by
    intro fields hfields n value
    apply otherChecks_congr
    intro key hkey
    exact hfields key fun h => hkey (by simp [h])
  -- what the two documents accept, with the calls of the nullable one
  have hleft : accepts host (.obj nullable) v ↔ ∃ n,
      ((∀ t ∈ variants', (callsIn host (.obj nullable) n t (.json v) []).isSome = true) ∧
        ∃ t ∈ variants', (callsIn host (.obj nullable) n t (.json v) []).Accepts) ∧
      ∀ c ∈ otherChecks host (callsIn host (.obj nullable) n) schema (.json v) [], c.Accepts := by
    rw [accepts_object ((hget _ (by decide)).trans href) ((hget _ (by decide)).trans hnull)]
    apply exists_congr
    intro n
    rw [accepts_validateKeywords, accepts_checkAnyOf _ hvariants', hother hget, typeAllowed, hno']
    simp
  have hright : ∀ n, (validateKeywords host (callsIn host (.obj schema) n) schema (.json v) []).Accepts ↔
      ((∀ t ∈ variants, (callsIn host (.obj nullable) n t (.json v) []).isSome = true) ∧
        ∃ t ∈ variants, (callsIn host (.obj nullable) n t (.json v) []).Accepts) ∧
      ∀ c ∈ otherChecks host (callsIn host (.obj nullable) n) schema (.json v) [], c.Accepts := by
    intro n
    rw [← hrefs.keywords n (List.Subset.refl _), accepts_validateKeywords, accepts_checkAnyOf _ hvariants, typeAllowed,
      hno]
    simp
  rw [hleft]
  by_cases hv : v = .null
  · subst hv
    refine iff_of_true ?_ (.inl rfl)
    obtain ⟨bound, hreturn⟩ := @variants_return _ host _ _ hvariants' .null
    rw [acceptsIn_object ((get_without _ (by decide)).trans href) ((get_without _ (by decide)).trans hnull)] at hpass
    obtain ⟨n, hpass⟩ := hpass
    have hothers : ∀ m, n ≤ m → ∀ c ∈ otherChecks host (callsIn host (.obj nullable) m) schema (.json .null) [],
        c.Accepts := by
      intro m hm
      have hpass := accepts_validateKeywords_mono hm hpass
      rw [← hrefs.keywords m (without_subset _), accepts_validateKeywords, hother fun key => get_without key] at hpass
      exact hpass.2.2
    rcases hadded with rfl | ⟨rfl, variant, hvariant, fuel, haccepts⟩
    · refine ⟨max bound n + 1, ⟨hreturn _ (by omega), nullSchema, ?_, (accepts_nullSchema _ _).mpr rfl⟩,
        hothers _ (by omega)⟩
      simp
    · refine ⟨max (max bound n) fuel, ⟨hreturn _ (by omega), variant, hvariant, ?_⟩, hothers _ (by omega)⟩
      have hsub := references_subschema (mem_subschemas_branches hvariants hvariant (by simp))
      rw [hrefs.calls _ hsub]
      exact haccepts.returned (validateSchemaNode_mono (by omega) _ _ _ _)
  · rw [or_iff_right hv, accepts_object href hnull]
    rcases hadded with rfl | ⟨rfl, _⟩
    · constructor
      · rintro ⟨n, ⟨hsome, t, ht, haccepts⟩, hothers⟩
        refine ⟨n, (hright n).mpr ⟨⟨fun t ht => hsome t (mem_append_left _ ht), t, ?_, haccepts⟩, hothers⟩⟩
        rcases mem_append.mp ht with ht | ht
        · exact ht
        · rw [mem_singleton.mp ht] at haccepts
          exact absurd (eq_null_of_accepts haccepts) hv
      · rintro ⟨n, h⟩
        obtain ⟨⟨hsome, t, ht, haccepts⟩, hothers⟩ := (hright _).mp (accepts_validateKeywords_mono n.le_succ h)
        refine ⟨n + 1, ⟨?_, t, mem_append_left _ ht, haccepts⟩, hothers⟩
        exact forall_mem_append.mpr ⟨hsome, forall_mem_singleton.mpr (isSome_nullSchema n v)⟩
    · apply exists_congr
      intro n
      exact (hright n).symm

end

section

variable {ν : Type} {host : Host ν} {schema : Fields ν}

def wrapped (schema : Fields ν) : Fields ν := [(lit "anyOf", .arr [.obj schema, nullSchema])]

theorem accepts_wrapped_iff (hrefs : SameReferences host schema (wrapped schema)) (v : Json ν) :
    accepts host (.obj (wrapped schema)) v ↔ v = .null ∨ accepts host (.obj schema) v := by
  have hvariants : branches (wrapped schema) "anyOf" = some [.obj schema, nullSchema] := rfl
  have hleft : accepts host (.obj (wrapped schema)) v ↔ ∃ n,
      (∀ t ∈ [Json.obj schema, nullSchema], (callsIn host (.obj (wrapped schema)) n t (.json v) []).isSome = true) ∧
        ∃ t ∈ [Json.obj schema, nullSchema], (callsIn host (.obj (wrapped schema)) n t (.json v) []).Accepts := by
    rw [accepts_object rfl rfl]
    apply exists_congr
    intro n
    rw [accepts_validateKeywords, accepts_checkAnyOf _ hvariants]
    exact ⟨fun h => h.2.1, fun h => ⟨.inl rfl, h, accepts_otherChecks_singleton host _ _ (by decide)⟩⟩
  have hcall : ∀ n, callsIn host (.obj (wrapped schema)) n (.obj schema) (.json v) [] =
      validateJsonSchemaValue host n (.obj schema) (.json v) := by
    intro n
    exact hrefs.calls n (List.Subset.refl _) _ _
  rw [hleft]
  by_cases hv : v = .null
  · refine iff_of_true ?_ (.inl hv)
    obtain ⟨bound, hreturn⟩ := @variants_return _ host _ _ hvariants v
    exact ⟨bound + 1, hreturn _ (by omega), nullSchema, by simp, (accepts_nullSchema _ _).mpr hv⟩
  · rw [or_iff_right hv]
    constructor
    · rintro ⟨n, _, t, ht, haccepts⟩
      simp only [mem_cons, not_mem_nil, or_false] at ht
      rcases ht with rfl | rfl
      · rw [hcall] at haccepts
        exact ⟨n, haccepts⟩
      · exact absurd (eq_null_of_accepts haccepts) hv
    · rintro ⟨n, haccepts⟩
      have haccepts : (callsIn host (.obj (wrapped schema)) (n + 1) (.obj schema) (.json v) []).Accepts := by
        rw [hcall]
        exact haccepts.returned (validateSchemaNode_mono n.le_succ _ _ _ _)
      refine ⟨n + 1, ?_, .obj schema, mem_cons_self, haccepts⟩
      obtain ⟨issues, hissues⟩ := haccepts
      simp only [forall_mem_cons, not_mem_nil, false_imp_iff, implies_true, and_true]
      exact ⟨by rw [hissues]; rfl, isSome_nullSchema n v⟩

end

section

variable {ν : Type} {host : Host ν} {schema : Fields ν}

theorem schemaTypes_of_no_nullable (hnull : get schema "nullable" = none) : schemaTypes schema =
    match get schema "type" with
    | some (.str type) => [type]
    | some (.arr entries) => entries.filterMap Json.asStr
    | _ => [] := by
  exact if_neg (by simp [hnull, isTrue])

theorem accepts_makeNullable_iff (href : get schema "$ref" = none) (hnull : get schema "nullable" = none)
    (hrefs : SameReferences host schema (makeNullable schema)) (hpass : LetsNullPass host schema) (v : Json ν) :
    accepts host (.obj (makeNullable schema)) v ↔ v = .null ∨ accepts host (.obj schema) v := by
  have htypes := schemaTypes_of_no_nullable hnull
  have hset : ∀ (value : Json ν) (key : String), lit key ≠ lit "type" →
      get (assocSet (lit "type") value schema) key = get schema key := fun value key => get_assocSet key
  unfold LetsNullPass at hpass
  unfold makeNullable at hrefs ⊢
  split at hpass
  · next type htype =>
    simp only [htype] at hrefs htypes ⊢
    split_ifs at hrefs ⊢ with hnullType
    · refine accepts_types_iff href hnull hrefs (fun _ _ => rfl) ?_ (by simp [htypes]) hpass
      intro other
      simp [htypes, hnullType]
    · refine accepts_types_iff href hnull hrefs (hset _) ?_ (by simp [htypes]) hpass
      intro other
      have htypes' := schemaTypes_of_no_nullable
        ((hset (.arr [.str type, .str (lit "null")]) "nullable" (by decide)).trans hnull)
      rw [JsonSchema.get, lookup_assocSet] at htypes'
      simp [htypes, htypes', Json.asStr]
  · next types htype =>
    obtain ⟨⟨type, hmem, hstr⟩, hpass⟩ := hpass
    simp only [htype] at hrefs htypes ⊢
    have hne : schemaTypes schema ≠ [] := by
      obtain ⟨name, hname⟩ := Option.isSome_iff_exists.mp hstr
      rw [htypes]
      exact ne_nil_of_mem (mem_filterMap.mpr ⟨type, hmem, hname⟩)
    split_ifs at hrefs ⊢ with hnullType
    · refine accepts_types_iff href hnull hrefs (fun _ _ => rfl) ?_ hne hpass
      intro other
      have hin : lit "null" ∈ schemaTypes schema := by
        obtain ⟨entry, hentry, heq⟩ := any_eq_true.mp hnullType
        rw [htypes]
        exact mem_filterMap.mpr ⟨entry, hentry, eq_of_beq heq⟩
      constructor
      · exact .inl
      · rintro (h | rfl)
        · exact h
        · exact hin
    · refine accepts_types_iff href hnull hrefs (hset _) ?_ hne hpass
      have htypes' := schemaTypes_of_no_nullable
        ((hset (.arr (types ++ [.str (lit "null")])) "nullable" (by decide)).trans hnull)
      rw [JsonSchema.get, lookup_assocSet, if_pos rfl] at htypes'
      simp [htypes, htypes', Json.asStr]
  · next hstr harr =>
    have hno : schemaTypes schema = [] := by
      rw [htypes]
      split
      · next type htype => exact absurd htype (hstr type)
      · next types htype => exact absurd htype (harr types)
      · rfl
    split at hrefs
    · next type htype => exact absurd htype (hstr type)
    · next types htype => exact absurd htype (harr types)
    · split at hpass
      · next variants hvariants =>
        obtain ⟨hpass, hvariant⟩ := hpass
        simp only [hvariants] at hrefs ⊢
        split_ifs at hrefs ⊢ with hnullVariant
        · exact accepts_variants_iff href hnull hrefs (fun _ _ => rfl) hno hvariants hvariants
            (.inr ⟨rfl, hvariant hnullVariant⟩) hpass
        · refine accepts_variants_iff href hnull hrefs (fun key => get_assocSet key) hno hvariants ?_ (.inl rfl) hpass
          rw [branches, JsonSchema.get, lookup_assocSet]
          rfl
      · next hvariants =>
        simp only [hvariants] at hrefs ⊢
        exact accepts_wrapped_iff hrefs v

/-- `nullable` adds null and nothing else. -/
theorem upgrade_nullable_iff (hwf : WellFormed (.obj (withoutNullable schema))) (href : get schema "$ref" = none)
    (hrefs : ∀ ref ∈ references (upgradeJsonSchemaTo202012 host.numbers (.obj (withoutNullable schema))),
      resolveLocalRef host (upgradeJsonSchemaTo202012 host.numbers (.obj (withNullable schema))) ref =
        resolveLocalRef host (upgradeJsonSchemaTo202012 host.numbers (.obj (withoutNullable schema))) ref)
    (hpass : ∀ fields, upgradeJsonSchemaTo202012 host.numbers (.obj (withoutNullable schema)) = .obj fields →
      LetsNullPass host fields) (v : Json ν) :
    accepts host (upgradeJsonSchemaTo202012 host.numbers (.obj (withNullable schema))) v ↔
      v = .null ∨ accepts host (upgradeJsonSchemaTo202012 host.numbers (.obj (withoutNullable schema))) v := by
  rw [upgrade_withNullable, upgrade_withoutNullable hwf] at hrefs ⊢
  have hkeys : (upgradeFields host.numbers (withoutNullable schema)).map Prod.fst =
      (withoutNullable schema).map Prod.fst := by
    rw [upgradeFields_eq, map_map]
    rfl
  refine accepts_makeNullable_iff ?_ ?_ hrefs (hpass _ (upgrade_withoutNullable hwf)) v
  · apply lookup_upgradeKeys_eq_none (by decide)
    intro hmem
    rw [hkeys, ← isSome_lookup_iff, withoutNullable, lookup_filter_keys (fun k => k != lit "nullable"),
      if_pos (by decide)] at hmem
    rw [show schema.lookup (lit "$ref") = none from href] at hmem
    cases hmem
  · exact lookup_upgradeKeys_eq_none (by decide) fun _ => rfl

def naturalHost : Host ℕ where
  numbers :=
    { isFinite := fun _ => true
      isInteger := fun _ => true
      lt := fun m n => m < n
      le := fun m n => m ≤ n
      ofNat := id
      is := fun m n => m == n
      text := decimal
      offMultiple := fun m n => m % n != 0 }
  compile := fun _ => none
  arrayFunctions := []

theorem not_accepts_of_rejects {schema v} (fuel : Nat)
    (h : (validateJsonSchemaValue host fuel schema (.json v)).map Prod.fst = some false) :
    ¬accepts host schema v := by
  rintro ⟨n, issues, haccepts⟩
  obtain ⟨r, hr, hfst⟩ := Option.map_eq_some_iff.mp h
  have hleft := validateSchemaNode_mono (Nat.le_max_left n fuel) _ _ _ _ _ haccepts
  have hright := validateSchemaNode_mono (Nat.le_max_right n fuel) _ _ _ _ _ hr
  rw [hleft, Option.some_inj] at hright
  rw [← hright] at hfst
  cases hfst

/-- An object whose property `a` is the string of a definition. -/
def referringSchema : Fields ℕ :=
  [(lit "type", .str (lit "object")), (lit "properties", .obj [(lit "a", .obj [(lit "$ref", .str (lit "#/$defs/s"))])]),
    (lit "required", .arr [.str (lit "a")]), (lit "$defs", .obj [(lit "s", .obj [(lit "type", .str (lit "string"))])])]

theorem upgrade_nullable_string : WellFormed (.obj (withoutNullable referringSchema)) ∧
    ∀ v, accepts naturalHost (upgradeJsonSchemaTo202012 naturalHost.numbers (.obj (withNullable referringSchema))) v ↔
      v = .null ∨
        accepts naturalHost (upgradeJsonSchemaTo202012 naturalHost.numbers (.obj (withoutNullable referringSchema))) v := by
  have hwf : WellFormed (.obj (withoutNullable referringSchema)) := by
    rw [show withoutNullable referringSchema = referringSchema from rfl]
    simp +decide only [referringSchema, WellFormed, FieldsWellFormed, MapWellFormed, ItemsWellFormed, KeyWellFormed]
  refine ⟨hwf, fun v => ?_⟩
  have hplain : upgradeJsonSchemaTo202012 naturalHost.numbers (.obj (withoutNullable referringSchema)) =
      .obj referringSchema := rfl
  refine upgrade_nullable_iff hwf rfl ?_ ?_ v
  · intro ref href
    have hrefs : references (.obj referringSchema) = [lit "#/$defs/s"] := by decide +kernel
    rw [hplain, hrefs, mem_singleton] at href
    subst href
    rfl
  · intro fields hfields
    rw [hplain] at hfields
    cases hfields
    exact ⟨2, Check.accepts_iff.mpr (by decide +kernel)⟩

/-- A reference to the root sees the nullable root: below it null is accepted as well. -/
theorem upgrade_nullable_recursive :
    let schema : Fields ℕ := [(lit "type", .str (lit "object")),
      (lit "properties", .obj [(lit "next", .obj [(lit "$ref", .str (lit "#"))])])]
    let v : Json ℕ := .obj [(lit "next", .null)]
    get schema "$ref" = none ∧
      accepts naturalHost (upgradeJsonSchemaTo202012 naturalHost.numbers (.obj (withNullable schema))) v ∧
      ¬(v = .null ∨
        accepts naturalHost (upgradeJsonSchemaTo202012 naturalHost.numbers (.obj (withoutNullable schema))) v) := by
  intro schema v
  refine ⟨rfl, ⟨6, Check.accepts_iff.mpr (by decide +kernel)⟩, ?_⟩
  rintro (h | h)
  · have hnull : (Json.obj [(lit "next", .null)] : Json ℕ) = .null := h
    cases hnull
  · exact not_accepts_of_rejects 6 (by decide +kernel) h

end

end GajaeCode.Schema
