import GajaeCode.Schema.Draft

/-! What the upgrade leaves alone: a schema that needs no upgrade, and every key but `nullable` beside
`nullable`. -/
namespace GajaeCode.Schema

open Text Data List
open JsonSchema (Fields get branches)

variable {ν : Type} {numbers : Numbers ν}

def upgradedEntry (numbers : Numbers ν) (entry : Json ν) : Upgraded ν where
  entry := entry
  whole := upgradeJsonSchemaTo202012Impl numbers entry
  entries := entry.asFields.map fun members =>
    members.map fun member => (member.1, upgradeJsonSchemaTo202012Impl numbers member.2)

theorem upgradeItems_eq (items : List (Json ν)) :
    upgradeItems numbers items = items.map (upgradeJsonSchemaTo202012Impl numbers) := by
  induction items with
  | nil => rw [upgradeItems, map_nil]
  | cons item items ih => rw [upgradeItems, ih, map_cons]

theorem whole_upgradeFields (fields : Fields ν) :
    ((upgradeFields numbers fields).map fun field => (field.1, field.2.whole)) =
    fields.map fun member => (member.1, upgradeJsonSchemaTo202012Impl numbers member.2) := by
  induction fields with
  | nil => rfl
  | cons entry fields ih =>
    obtain ⟨key, value⟩ := entry
    cases value <;> simp only [upgradeFields, upgradeJsonSchemaTo202012Impl, map_cons, ih]

theorem upgradeFields_eq (fields : Fields ν) :
    upgradeFields numbers fields = fields.map fun field => (field.1, upgradedEntry numbers field.2) := by
  induction fields with
  | nil => rfl
  | cons entry fields ih =>
    obtain ⟨key, value⟩ := entry
    cases value <;> simp only [upgradeFields, upgradeJsonSchemaTo202012Impl, map_cons, ih, upgradedEntry,
      Json.asFields, Option.map_some, Option.map_none, whole_upgradeFields]

section

/-- A key as a schema has it, given that its entry or the entries of a map are well formed. -/
def KeyWellFormed (key : JsStr) (entry : Json ν) (whole entries : Prop) : Prop :=
  key ≠ protoName ∧
    if key = lit "$defs" then entry.asFields.isSome = true ∧ entries
    else if inTable schemaMapKeys key then entries
    else if inTable nonSchemaValueKeys key ∨ key = lit "$schema" then True
    else if key = lit "$ref" then entry.asStr.isSome = true
    else whole

mutual

/-- The objects that the upgrade walks have distinct keys, none of them `__proto__`; `$defs` is an object and
`$ref` a string. -/
def WellFormed : Json ν → Prop
  | .arr items => ItemsWellFormed items
  | .obj fields => (fields.map Prod.fst).Nodup ∧ FieldsWellFormed fields
  | _ => True

def ItemsWellFormed : List (Json ν) → Prop
  | [] => True
  | item :: rest => WellFormed item ∧ ItemsWellFormed rest

def MapWellFormed : Fields ν → Prop
  | [] => True
  | (name, value) :: rest => name ≠ protoName ∧ WellFormed value ∧ MapWellFormed rest

def FieldsWellFormed : Fields ν → Prop
  | [] => True
  | (key, .obj members) :: rest =>
    KeyWellFormed key (.obj members) ((members.map Prod.fst).Nodup ∧ FieldsWellFormed members)
      ((members.map Prod.fst).Nodup ∧ MapWellFormed members) ∧ FieldsWellFormed rest
  | (key, .arr items) :: rest => KeyWellFormed key (.arr items) (ItemsWellFormed items) True ∧ FieldsWellFormed rest
  | (key, value) :: rest => KeyWellFormed key value True True ∧ FieldsWellFormed rest

end

def EntriesWellFormed (entry : Json ν) : Prop :=
  ∀ members, entry = .obj members → (members.map Prod.fst).Nodup ∧ MapWellFormed members

def entriesNeedUpgrade (entry : Json ν) : Bool :=
  match entry with
  | .obj members => schemaMapNeedsDraft202012Upgrade members
  | _ => false

theorem itemsWellFormed_iff {items : List (Json ν)} : ItemsWellFormed items ↔ ∀ item ∈ items, WellFormed item := by
  induction items with
  | nil => simp [ItemsWellFormed]
  | cons item items ih => simp [ItemsWellFormed, ih]

theorem mapWellFormed_iff {members : Fields ν} :
    MapWellFormed members ↔ ∀ p ∈ members, p.1 ≠ protoName ∧ WellFormed p.2 := by
  induction members with
  | nil => simp [MapWellFormed]
  | cons member members ih =>
    simp [MapWellFormed, ih, and_assoc]

variable {key : JsStr} {fields : Fields ν}

theorem KeyWellFormed.imp {entry : Json ν} {whole entries whole' entries'}
    (h : KeyWellFormed key entry whole entries) (hwhole : whole → whole')
    (hentries : entries → entries') : KeyWellFormed key entry whole' entries' := by
  refine ⟨h.1, ?_⟩
  have h2 := h.2
  split_ifs at h2 ⊢
  · exact ⟨h2.1, hentries h2.2⟩
  · exact hentries h2
  · exact h2
  · exact hwhole h2

theorem fieldsWellFormed (h : FieldsWellFormed fields) : ∀ p ∈ fields,
    KeyWellFormed p.1 p.2 (WellFormed p.2) (EntriesWellFormed p.2) := by
  induction fields with
  | nil => exact nofun
  | cons entry fields ih =>
    obtain ⟨key, value⟩ := entry
    cases value with
    | obj members =>
      refine forall_mem_cons.mpr ⟨h.1.imp (fun h => by rwa [WellFormed]) ?_, ih h.2⟩
      rintro h _ ⟨⟩
      exact h
    | arr items =>
      refine forall_mem_cons.mpr ⟨h.1.imp (fun h => by rwa [WellFormed]) ?_, ih h.2⟩
      rintro _ _ ⟨⟩
    | null | bool | num | str =>
      refine forall_mem_cons.mpr ⟨h.1.imp (fun _ => by simp only [WellFormed]) ?_, ih h.2⟩
      rintro _ _ ⟨⟩

theorem itemsNeedUpgrade_eq_false {items : List (Json ν)} (h : itemsNeedUpgrade items = false) :
    ∀ item ∈ items, schemaNeedsDraft202012UpgradeImpl item = false := by
  induction items with
  | nil => simp
  | cons item items ih =>
    rw [itemsNeedUpgrade, Bool.or_eq_false_iff] at h
    exact forall_mem_cons.mpr ⟨h.1, ih h.2⟩

theorem schemaMapNeeds_eq_false {members : Fields ν} (h : schemaMapNeedsDraft202012Upgrade members = false) :
    ∀ p ∈ members, schemaNeedsDraft202012UpgradeImpl p.2 = false := by
  induction members with
  | nil => simp
  | cons member members ih =>
    rw [schemaMapNeedsDraft202012Upgrade, Bool.or_eq_false_iff] at h
    exact forall_mem_cons.mpr ⟨h.1, ih h.2⟩

theorem fieldsNeedUpgrade_cons (key : JsStr) (entry : Json ν) (rest : Fields ν) :
    fieldsNeedUpgrade ((key, entry) :: rest) = (keyNeedsUpgrade key entry (schemaNeedsDraft202012UpgradeImpl entry)
      (entriesNeedUpgrade entry) || fieldsNeedUpgrade rest) := by
  cases entry <;> simp only [fieldsNeedUpgrade, schemaNeedsDraft202012UpgradeImpl, entriesNeedUpgrade]

theorem fieldsNeedUpgrade_eq_false (h : fieldsNeedUpgrade fields = false) : ∀ p ∈ fields,
    keyNeedsUpgrade p.1 p.2 (schemaNeedsDraft202012UpgradeImpl p.2) (entriesNeedUpgrade p.2) = false := by
  induction fields with
  | nil => simp
  | cons entry fields ih =>
    rw [fieldsNeedUpgrade_cons, Bool.or_eq_false_iff] at h
    exact forall_mem_cons.mpr ⟨h.1, ih h.2⟩

def legacyKeys : List JsStr := [lit "definitions", lit "dependencies", lit "additionalItems", lit "nullable"]

theorem keyNeedsUpgrade_legacy (hkey : key ∈ legacyKeys) (entry : Json ν) (whole entries : Bool) :
    keyNeedsUpgrade key entry whole entries = true := by
  have huri : key ≠ lit "$schema" := by
    rintro rfl
    exact absurd hkey (by decide)
  unfold keyNeedsUpgrade
  rw [if_neg huri, if_pos (by simpa [legacyKeys] using hkey)]

theorem lookup_legacy_eq_none (hneeds : fieldsNeedUpgrade fields = false) (hkey : key ∈ legacyKeys) :
    fields.lookup key = none := by
  cases hlookup : fields.lookup key with
  | none => rfl
  | some entry =>
    have hfalse := fieldsNeedUpgrade_eq_false hneeds _ (mem_of_lookup hlookup)
    rw [keyNeedsUpgrade_legacy hkey] at hfalse
    cases hfalse

theorem lookup_items_ne_arr (hneeds : fieldsNeedUpgrade fields = false) (items : List (Json ν)) :
    fields.lookup (lit "items") ≠ some (.arr items) := by
  intro hlookup
  have hfalse := fieldsNeedUpgrade_eq_false hneeds _ (mem_of_lookup hlookup)
  cases hfalse

end

section

variable {key : JsStr} {target : Fields ν}

theorem setKey_fresh (hproto : key ≠ protoName) (hfresh : target.lookup key = none) (value : Json ν) :
    setKey key value target = target ++ [(key, value)] := by
  rw [setKey, if_neg hproto, assocSet_of_lookup_none hfresh]

theorem lookup_append_fresh {other value} (hne : other ≠ key)
    (hfresh : target.lookup other = none) : (target ++ [(key, value)]).lookup other = none := by
  rw [lookup_append, hfresh, lookup_cons, beq_false_of_ne hne]
  rfl

/-- A fold whose steps append the members with fresh names appends them all. -/
theorem foldl_append_fresh {step : Fields ν → JsStr × Json ν → Fields ν} {members}
    (hnodup : (members.map Prod.fst).Nodup)
    (hstep : ∀ p ∈ members, ∀ target, target.lookup p.1 = none → step target p = target ++ [p])
    (hfresh : ∀ p ∈ members, target.lookup p.1 = none) : members.foldl step target = target ++ members := by
  induction members generalizing target with
  | nil => rw [foldl_nil, append_nil]
  | cons member members ih =>
    obtain ⟨hmember, hrest⟩ := nodup_cons.mp hnodup
    rw [forall_mem_cons] at hstep hfresh
    rw [foldl_cons, hstep.1 _ hfresh.1, ih hrest hstep.2, append_assoc, singleton_append]
    intro p hp
    apply lookup_append_fresh
    · intro heq
      exact hmember (heq ▸ mem_map_of_mem hp)
    · exact hfresh.2 p hp

def EntriesUnchanged (numbers : Numbers ν) (entry : Json ν) : Prop :=
  ∀ members, entry = .obj members → EntriesWellFormed entry → entriesNeedUpgrade entry = false →
    ∀ p ∈ members, upgradeJsonSchemaTo202012Impl numbers p.2 = p.2

/-- The upgrade changes nothing where it is not needed, in a schema and in a map of schemas. -/
def Unchanged (numbers : Numbers ν) (entry : Json ν) : Prop :=
  (WellFormed entry → schemaNeedsDraft202012UpgradeImpl entry = false →
    upgradeJsonSchemaTo202012Impl numbers entry = entry) ∧ EntriesUnchanged numbers entry

theorem mergeSchemaMap_unchanged {members : Fields ν} (hproto : key ≠ protoName)
    (hfresh : target.lookup key = none) (hwf : EntriesWellFormed (.obj members))
    (hneeds : entriesNeedUpgrade (.obj members) = false) (h : EntriesUnchanged numbers (.obj members)) :
    mergeSchemaMap target key (members.map fun member => (member.1, upgradeJsonSchemaTo202012Impl numbers member.2)) =
      target ++ [(key, .obj members)] := by
  obtain ⟨hnodup, hmap⟩ := hwf members rfl
  have hmembers : (members.map fun member => (member.1, upgradeJsonSchemaTo202012Impl numbers member.2)) = members := by
    conv_rhs => rw [← map_id members]
    apply map_congr_left
    intro p hp
    rw [h members rfl hwf hneeds p hp]
    rfl
  have hempty : objectMap target key = [] := by
    rw [objectMap, hfresh]
    rfl
  rw [mergeSchemaMap, hmembers, hempty, foldl_append_fresh hnodup (fun p hp _ hfresh =>
    setKey_fresh (mapWellFormed_iff.mp hmap p hp).1 hfresh p.2) (fun _ _ => rfl), nil_append, setKey_fresh hproto hfresh]

theorem upgradeKey_unchanged {entry result} (hfresh : result.lookup key = none)
    (hkey : KeyWellFormed key entry (WellFormed entry) (EntriesWellFormed entry))
    (hneeds : keyNeedsUpgrade key entry (schemaNeedsDraft202012UpgradeImpl entry) (entriesNeedUpgrade entry) = false)
    (h : Unchanged numbers entry) : upgradeKey result key (upgradedEntry numbers entry) = result ++ [(key, entry)] := by
  obtain ⟨hproto, hkey⟩ := hkey
  obtain ⟨hwhole, hentries⟩ := h
  have hset (value : Json ν) : setKey key value result = result ++ [(key, value)] := setKey_fresh hproto hfresh value
  unfold keyNeedsUpgrade at hneeds
  unfold upgradeKey
  by_cases hdefs : key = lit "$defs"
  · subst hdefs
    rw [if_pos rfl] at hkey
    rw [if_neg (by decide), if_neg (by decide), if_neg (by decide), if_neg fun h => absurd h.1 (by decide),
      if_pos (.inl rfl)] at hneeds
    rw [if_pos (.inr rfl)]
    cases entry with
    | obj members => exact mergeSchemaMap_unchanged hproto hfresh hkey.2 hneeds hentries
    | null | bool | num | str | arr => cases hkey.1
  rw [if_neg hdefs] at hkey
  by_cases hmap : inTable schemaMapKeys key = true
  · have hne : ∀ k, inTable schemaMapKeys k = false → key ≠ k := by
      rintro k hk rfl
      rw [hmap] at hk
      cases hk
    rw [if_pos hmap] at hkey
    rw [if_neg (hne _ (by decide)), if_neg (by
      rintro (h | h | h | h)
      all_goals exact absurd h (hne _ (by decide))), if_neg (hne _ (by decide)),
      if_neg (fun h => hne _ (by decide) h.1), if_pos (.inr hmap)] at hneeds
    rw [if_neg (by
      rintro (h | h)
      all_goals exact absurd h (hne _ (by decide))), if_pos hmap]
    cases entry with
    | obj members => exact mergeSchemaMap_unchanged hproto hfresh hkey hneeds hentries
    | null | bool | num | str | arr => exact hset _
  rw [if_neg hmap] at hkey
  by_cases hlegacy : key = lit "definitions" ∨ key = lit "dependencies" ∨ key = lit "additionalItems" ∨
      key = lit "nullable"
  · have huri : key ≠ lit "$schema" := by
      rcases hlegacy with rfl | rfl | rfl | rfl <;> decide
    rw [if_neg huri, if_pos hlegacy] at hneeds
    cases hneeds
  rw [if_neg (by
    rintro (h | h)
    · exact hlegacy (.inl h)
    · exact hdefs h), if_neg hmap]
  by_cases hvalue : inTable nonSchemaValueKeys key = true
  · rw [if_pos hvalue]
    exact hset _
  rw [if_neg hvalue, if_neg fun h => hlegacy (.inr h)]
  by_cases huri : key = lit "$schema"
  · rw [if_pos huri] at hneeds
    rw [if_pos huri]
    cases entry with
    | str uri =>
      simp only [upgradedEntry]
      rw [show inTable draft07SchemaUris uri = false from hneeds]
      exact hset _
    | null | bool | num | arr | obj => exact hset _
  rw [if_neg (not_or.mpr ⟨hvalue, huri⟩)] at hkey
  rw [if_neg huri, if_neg hlegacy] at hneeds
  rw [if_neg huri]
  by_cases href : key = lit "$ref"
  · rw [if_pos href] at hkey hneeds
    cases entry with
    | str ref =>
      simp only [upgradedEntry]
      rw [if_pos href, convertRef, show startsWith ref (lit "#/definitions/") = false from hneeds]
      exact hset _
    | null | bool | num | arr | obj => cases hkey
  rw [if_neg href] at hkey hneeds
  by_cases hitems : key = lit "items" ∧ entry.asItems.isSome = true
  · rw [if_pos hitems] at hneeds
    cases hneeds
  rw [if_neg hitems, if_neg (not_or.mpr ⟨hdefs, hmap⟩), if_neg hvalue] at hneeds
  have hsame := hwhole hkey hneeds
  cases entry with
  | str value =>
    simp only [upgradedEntry, if_neg href]
    exact hset _
  | arr items =>
    simp only [upgradedEntry]
    rw [if_neg fun h => hitems ⟨h, rfl⟩, hsame]
    exact hset _
  | obj members =>
    simp only [upgradedEntry]
    rw [hsame]
    exact hset _
  | null | bool | num =>
    exact hset _

theorem lookup_map_snd {α β : Type} (f : α → β) (key : JsStr) (l : List (JsStr × α)) :
    (l.map fun p => (p.1, f p.2)).lookup key = (l.lookup key).map f := by
  induction l with
  | nil => rfl
  | cons p l ih =>
    rw [map_cons, lookup_cons, lookup_cons, ih]
    split <;> rfl

theorem upgradeKeys_unchanged {fields : Fields ν} (hwf : WellFormed (.obj fields))
    (hneeds : fieldsNeedUpgrade fields = false) (h : ∀ p ∈ fields, Unchanged numbers p.2) :
    upgradeKeys numbers (upgradeFields numbers fields) = fields := by
  rw [WellFormed] at hwf
  have hfold := @foldl_append_fresh _ [] _ _ hwf.1 (fun p hp _ hfresh => upgradeKey_unchanged hfresh
    (fieldsWellFormed hwf.2 p hp) (fieldsNeedUpgrade_eq_false hneeds p hp) (h p hp)) (fun _ _ => rfl)
  have hdependencies : fields.lookup (lit "dependencies") = none := lookup_legacy_eq_none hneeds (by decide)
  rw [upgradeKeys, upgradeFields_eq, foldl_map, hfold, nil_append, convertDependencies, lookup_map_snd, hdependencies,
    convertTuple, lookup_map_snd]
  cases hlookup : fields.lookup (lit "items") with
  | none => rfl
  | some entry =>
    cases entry with
    | arr items => exact absurd hlookup (lookup_items_ne_arr hneeds items)
    | null | bool | num | str | obj => rfl

theorem upgradeImpl_unchanged (schema : Json ν) (hwf : WellFormed schema)
    (hneeds : schemaNeedsDraft202012UpgradeImpl schema = false) :
    upgradeJsonSchemaTo202012Impl numbers schema = schema := by
  -- the entries of a map are schemas, the map itself is none, so both are carried along
  suffices h : Unchanged numbers schema from h.1 hwf hneeds
  clear hwf hneeds
  induction schema using Json.induct with
  | null | bool | num | str =>
    refine ⟨fun _ _ => by simp only [upgradeJsonSchemaTo202012Impl], ?_⟩
    rintro _ ⟨⟩
  | arr items ih =>
    refine ⟨?_, ?_⟩
    · intro hwf hneeds
      rw [WellFormed, itemsWellFormed_iff] at hwf
      have hitems := itemsNeedUpgrade_eq_false hneeds
      rw [upgradeJsonSchemaTo202012Impl, upgradeItems_eq]
      congr 1
      conv_rhs => rw [← map_id items]
      apply map_congr_left
      intro item hitem
      exact (ih item hitem).1 (hwf item hitem) (hitems item hitem)
    · rintro _ ⟨⟩
  | obj fields ih =>
    refine ⟨?_, ?_⟩
    · intro hwf hneeds
      have hkeys := upgradeKeys_unchanged hwf hneeds ih
      have hnullable : fields.lookup (lit "nullable") = none := lookup_legacy_eq_none hneeds (by decide)
      rw [upgradeJsonSchemaTo202012Impl, upgradeObject, upgradeFields_eq, lookup_map_snd, hnullable, ← upgradeFields_eq]
      exact congrArg Json.obj hkeys
    · rintro members ⟨⟩ hwf hneeds p hp
      obtain ⟨_, hmap⟩ := hwf fields rfl
      exact (ih p hp).1 (mapWellFormed_iff.mp hmap p hp).2 (schemaMapNeeds_eq_false hneeds p hp)

end

section

def withNullable (schema : Fields ν) : Fields ν := assocSet (lit "nullable") (.bool true) schema

def withoutNullable (schema : Fields ν) : Fields ν := schema.filter fun entry => entry.1 != lit "nullable"

theorem filter_assocSet {α : Type} (key : JsStr) (value : α) (map : List (JsStr × α)) :
    (assocSet key value map).filter (fun entry => entry.1 != key) = map.filter fun entry => entry.1 != key := by
  rcases assocSet_cases key value map with ⟨-, heq⟩ | ⟨before, old, after, -, rfl, heq⟩
  all_goals simp [heq]

variable (fields : List (JsStr × Upgraded ν)) (result : Fields ν)

theorem upgradeKey_nullable (upgraded : Upgraded ν) : upgradeKey result (lit "nullable") upgraded = result := by
  unfold upgradeKey
  rw [if_neg (by decide), if_neg (by decide), if_neg (by decide), if_pos (by decide)]

theorem foldl_upgradeKey_filter : (fields.filter fun field => field.1 != lit "nullable").foldl
    (fun result field => upgradeKey result field.1 field.2)
      result = fields.foldl (fun result field => upgradeKey result field.1 field.2) result := by
  rw [foldl_filter]
  congr 1
  funext result field
  split_ifs with hfield
  · rfl
  · rw [of_not_not (mt bne_iff_ne.mpr hfield), upgradeKey_nullable]

theorem upgradeKeys_filter :
    upgradeKeys numbers (fields.filter fun field => field.1 != lit "nullable") = upgradeKeys numbers fields := by
  have hlookup : ∀ key, key ≠ lit "nullable" →
      (fields.filter fun field => field.1 != lit "nullable").lookup key = fields.lookup key := by
    intro key hkey
    rw [lookup_filter_keys (fun k => k != lit "nullable"), if_pos (bne_iff_ne.mpr hkey)]
  unfold upgradeKeys convertDependencies convertTuple
  rw [foldl_upgradeKey_filter, hlookup _ (by decide), hlookup _ (by decide), hlookup _ (by decide)]

variable (schema : Fields ν)

theorem upgradeKeys_withNullable : upgradeKeys numbers (upgradeFields numbers (withNullable schema)) =
      upgradeKeys numbers (upgradeFields numbers (withoutNullable schema)) := by
  have hfilter (fields : Fields ν) : upgradeKeys numbers (upgradeFields numbers fields) =
      upgradeKeys numbers (upgradeFields numbers (withoutNullable fields)) := by
    rw [← upgradeKeys_filter, upgradeFields_eq, upgradeFields_eq, filter_map]
    rfl
  rw [hfilter (withNullable schema), withoutNullable, withNullable, filter_assocSet]
  rfl

variable {other : JsStr}

theorem lookup_setKey {key} (hne : other ≠ key) (value : Json ν) (target : Fields ν) :
    (setKey key value target).lookup other = target.lookup other := by
  unfold setKey
  split
  next => rfl
  next => rw [lookup_assocSet, if_neg hne]

theorem lookup_upgradeKey {key} (hne : other ≠ key) (hdefs : other ≠ lit "$defs")
    (result : Fields ν) (upgraded : Upgraded ν) :
    (upgradeKey result key upgraded).lookup other = result.lookup other := by
  unfold upgradeKey
  repeat' split
  all_goals first
    | rfl
    | exact lookup_setKey hne _ _
    | exact lookup_setKey hdefs _ _

def writtenKeys : List JsStr :=
  [lit "$defs", lit "prefixItems", lit "items", lit "dependentRequired", lit "dependentSchemas"]

theorem lookup_convertTuple (hother : other ∉ writtenKeys) (fields : List (JsStr × Upgraded ν))
    (result : Fields ν) : (convertTuple numbers fields result).lookup other = result.lookup other := by
  simp only [writtenKeys, mem_cons, not_mem_nil, or_false, not_or] at hother
  unfold convertTuple
  split
  · split
    iterate 2
      rw [lookup_filter_keys (fun k => k != lit "items"), if_pos (bne_iff_ne.mpr hother.2.2.1), lookup_assocSet,
        if_neg hother.2.1]
    · rw [lookup_assocSet, if_neg hother.2.2.1, lookup_assocSet, if_neg hother.2.1]
  · rfl

theorem lookup_convertDependencies (hother : other ∉ writtenKeys)
    (fields : List (JsStr × Upgraded ν)) (result : Fields ν) :
    (convertDependencies numbers fields result).lookup other = result.lookup other := by
  simp only [writtenKeys, mem_cons, not_mem_nil, or_false, not_or] at hother
  unfold convertDependencies
  split
  · next entries _ =>
    refine foldlRecOn (motive := fun t : Fields ν => t.lookup other = result.lookup other) entries _ rfl ?_
    intro target ih dependency _
    split
    · rw [mergeDependentRequired, lookup_assocSet, if_neg hother.2.2.2.1, ih]
    · rw [mergeDependentSchema, lookup_assocSet, if_neg hother.2.2.2.2, ih]
  · rfl

theorem lookup_upgradeKeys_eq_none (hother : other ∉ writtenKeys) {fields}
    (h : other ∈ fields.map Prod.fst → other = lit "nullable") :
    (upgradeKeys numbers fields).lookup other = none := by
  rw [upgradeKeys, lookup_convertDependencies hother, lookup_convertTuple hother]
  refine foldlRecOn (motive := fun t : Fields ν => t.lookup other = none) fields _ rfl ?_
  intro result ih field hfield
  by_cases hkey : other = field.1
  · have hnullable := h (hkey ▸ mem_map_of_mem hfield)
    rw [← hkey, hnullable, upgradeKey_nullable, ← hnullable, ih]
  · rw [lookup_upgradeKey hkey (fun h => hother (h ▸ mem_cons_self)), ih]

theorem upgrade_withNullable : upgradeJsonSchemaTo202012 numbers (.obj (withNullable schema)) =
      .obj (makeNullable (upgradeKeys numbers (upgradeFields numbers (withoutNullable schema)))) := by
  have hlookup : (withNullable schema).lookup (lit "nullable") = some (.bool true) := by
    rw [withNullable, lookup_assocSet, if_pos rfl]
  have hneeds : fieldsNeedUpgrade (withNullable schema) = true := by
    by_contra hfalse
    rw [lookup_legacy_eq_none (Bool.eq_false_iff.mpr hfalse) (by decide)] at hlookup
    cases hlookup
  rw [upgradeJsonSchemaTo202012, schemaNeedsDraft202012Upgrade, schemaNeedsDraft202012UpgradeImpl, if_pos hneeds,
    upgradeJsonSchemaTo202012Impl, upgradeObject, ← upgradeKeys_withNullable]
  have hupgraded : (upgradeFields numbers (withNullable schema)).lookup (lit "nullable") =
      some (upgradedEntry numbers (.bool true)) := by
    rw [upgradeFields_eq, lookup_map_snd, hlookup]
    rfl
  rw [hupgraded]
  rfl

theorem upgrade_withoutNullable {schema} (hwf : WellFormed (.obj (withoutNullable schema))) :
    upgradeJsonSchemaTo202012 numbers (.obj (withoutNullable schema)) =
      .obj (upgradeKeys numbers (upgradeFields numbers (withoutNullable schema))) := by
  have hlookup : (upgradeFields numbers (withoutNullable schema)).lookup (lit "nullable") = none := by
    rw [upgradeFields_eq, lookup_map_snd, withoutNullable, lookup_filter_keys (fun k => k != lit "nullable"),
      if_neg (by simp)]
    rfl
  have himpl : upgradeJsonSchemaTo202012Impl numbers (.obj (withoutNullable schema)) =
      .obj (upgradeKeys numbers (upgradeFields numbers (withoutNullable schema))) := by
    rw [upgradeJsonSchemaTo202012Impl, upgradeObject, hlookup]
  rw [upgradeJsonSchemaTo202012]
  split
  next => exact himpl
  next hneeds =>
    rw [← himpl]
    exact (upgradeImpl_unchanged _ hwf (Bool.eq_false_iff.mpr hneeds)).symm

end

end GajaeCode.Schema
