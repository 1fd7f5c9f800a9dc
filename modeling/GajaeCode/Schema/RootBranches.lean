import GajaeCode.Schema.RootCombinator

/-! A value that a root accepts is accepted by one of the object branches found below it. -/
namespace GajaeCode.Schema

open Text List
open JsonSchema

variable {ν : Type} {num : ν → ℚ} {matchesPattern : JsStr → JsStr → Prop} {decode : JsStr → JsStr}
  {root v : Json ν}

theorem lookup_collectFields (schema : Fields ν) (key : JsStr) :
    (collectFields schema).lookup key = (schema.lookup key).map fun value =>
      value.asItems.map fun variants => if variants.isEmpty then none else collectVariants variants := by
  induction schema with
  | nil => simp [collectFields]
  | cons entry rest ih =>
    obtain ⟨name, value⟩ := entry
    cases value with
    | arr variants =>
      rw [collectFields, lookup_cons, lookup_cons]
      split
      next => rfl
      next => exact ih
    | null | bool | num | str | obj =>
      rw [collectFields, lookup_cons, lookup_cons]
      · split
        next => rfl
        next => exact ih
      · intro variants h
        cases h

variable {all : List (Fields ν)} {key : String} {schema : Fields ν}

theorem appendAll_eq_some {xs} (h : foldr appendBranches (some []) xs = some all) :
    (∀ x ∈ xs, ∃ bs, x = some bs ∧ bs ⊆ all) ∧ ∀ branch ∈ all, ∃ bs, some bs ∈ xs ∧ branch ∈ bs := by
  induction xs generalizing all with
  | nil =>
    cases h
    exact ⟨nofun, nofun⟩
  | cons first rest ih =>
    obtain ⟨bs, rfl, h⟩ := Option.bind_eq_some_iff.mp h
    obtain ⟨more, hrest, rfl⟩ := Option.map_eq_some_iff.mp h
    obtain ⟨hsub, hmem⟩ := ih hrest
    constructor
    · refine forall_mem_cons.mpr ⟨⟨bs, rfl, subset_append_left _ _⟩, fun x hx => ?_⟩
      obtain ⟨bs', hbs, hsub⟩ := hsub x hx
      exact ⟨bs', hbs, subset_append_of_subset_right _ hsub⟩
    · refine forall_mem_append.mpr ⟨fun branch hbranch => ⟨bs, mem_cons_self, hbranch⟩, fun branch hbranch => ?_⟩
      obtain ⟨bs', hbs, hbranch⟩ := hmem branch hbranch
      exact ⟨bs', mem_cons_of_mem _ hbs, hbranch⟩

variable {branch : Fields ν} {variants : List (Json ν)}

theorem collectVariants_eq : collectVariants variants =
    (variants.map collectRootObjectBranches).foldr appendBranches (some []) := by
  induction variants with
  | nil => rfl
  | cons first rest ih =>
    rw [collectVariants, ih]
    rfl

theorem combineBranches_eq {collected keys} : @combineBranches ν collected keys =
    (keys.filterMap fun key => (collected.lookup (lit key)).join).foldr appendBranches (some []) := by
  induction keys with
  | nil => rfl
  | cons first rest ih =>
    rw [combineBranches, ih, filterMap_cons]
    rcases collected.lookup (lit first) with _ | _ | found <;> rfl

section

variable (hall : combineBranches (collectFields schema) combinatorKeys = some all)
include hall

theorem collect_variant (hkey : key ∈ combinatorKeys) (hvariants : branches schema key = some variants) :
    variants ≠ [] ∧ ∀ variant ∈ variants, ∃ bs, collectRootObjectBranches variant = some bs ∧ bs ⊆ all := by
  obtain ⟨value, hvalue, hitems⟩ := Option.bind_eq_some_iff.mp hvariants
  have hlookup : (collectFields schema).lookup (lit key) =
      some (some (if variants.isEmpty then none else collectVariants variants)) := by
    rw [lookup_collectFields, show schema.lookup (lit key) = some value from hvalue, Option.map_some, hitems,
      Option.map_some]
  rw [combineBranches_eq] at hall
  obtain ⟨bs, hbs, hsub⟩ := (appendAll_eq_some hall).1 _ (mem_filterMap.mpr ⟨key, hkey, congrArg Option.join hlookup⟩)
  split at hbs
  next => cases hbs
  next hne =>
    refine ⟨fun hnil => hne (by simp [hnil]), ?_⟩
    intro variant hvariant
    rw [collectVariants_eq] at hbs
    obtain ⟨bs', hbs', hsub'⟩ := (appendAll_eq_some hbs).1 _ (mem_map_of_mem hvariant)
    exact ⟨bs', hbs', fun b hb => hsub (hsub' hb)⟩

theorem exists_variant_of_mem (hbranch : branch ∈ all) :
    ∃ key ∈ combinatorKeys, ∃ variants, branches schema key = some variants ∧
      ∃ variant ∈ variants, ∃ bs, collectRootObjectBranches variant = some bs ∧ branch ∈ bs := by
  rw [combineBranches_eq] at hall
  obtain ⟨bs, hbs, hmem⟩ := (appendAll_eq_some hall).2 branch hbranch
  obtain ⟨key, hkey, hlookup⟩ := mem_filterMap.mp hbs
  rw [Option.join_eq_some_iff, lookup_collectFields] at hlookup
  obtain ⟨value, hvalue, hlookup⟩ := Option.map_eq_some_iff.mp hlookup
  obtain ⟨variants, hitems, hlookup⟩ := Option.map_eq_some_iff.mp hlookup
  split at hlookup
  next => cases hlookup
  next =>
    rw [collectVariants_eq] at hlookup
    obtain ⟨bs, hbs, hmem⟩ := (appendAll_eq_some hlookup).2 branch hmem
    obtain ⟨variant, hvariant, hcollect⟩ := mem_map.mp hbs
    exact ⟨key, hkey, variants, Option.bind_eq_some_iff.mpr ⟨value, hvalue, hitems⟩, variant, hvariant, bs, hcollect, hmem⟩

end

theorem combinatorKeys_cases (h : key ∈ combinatorKeys) : key = "anyOf" ∨ key = "allOf" ∨ key = "oneOf" := by
  simpa [combinatorKeys] using h

theorem exists_valid_variant (hfree : RefFree (.obj schema))
    (h : Valid num matchesPattern decode root (.obj schema) v) (hkey : key ∈ combinatorKeys)
    (hvariants : branches schema key = some variants) (hne : variants ≠ []) :
    ∃ variant ∈ variants, Valid num matchesPattern decode root variant v := by
  have hgeneral := (hfree.valid_iff.mp h).general
  rcases combinatorKeys_cases hkey with rfl | rfl | rfl
  · have hany := hgeneral.anyOf (variants.map (meaning num matchesPattern decode root)) (by
      simp [Node.map, node, hvariants])
    obtain ⟨m, hm, hvalid⟩ := hany
    obtain ⟨variant, hvariant, rfl⟩ := mem_map.mp hm
    exact ⟨variant, hvariant, hvalid⟩
  · obtain ⟨variant, hvariant⟩ := exists_mem_of_ne_nil variants hne
    refine ⟨variant, hvariant, ?_⟩
    apply hgeneral.allOf
    simp only [Node.map, node, hvariants, Option.getD_some]
    exact mem_map_of_mem hvariant
  · have hone := hgeneral.oneOf (variants.map (meaning num matchesPattern decode root)) (by
      simp [Node.map, node, hvariants])
    have hpos := Nat.lt_of_lt_of_eq Nat.zero_lt_one hone.symm
    obtain ⟨m, hm, hvalid⟩ := countP_pos_iff.mp hpos
    obtain ⟨variant, hvariant, rfl⟩ := mem_map.mp hm
    exact ⟨variant, hvariant, by simpa [Valid] using hvalid⟩

theorem mem_schemasBelow_of_mem_branches (hkey : key ∈ combinatorKeys)
    (hvariants : branches schema key = some variants) {variant}
    (hvariant : variant ∈ variants) : variant ∈ schemasBelow (.obj schema) := by
  rcases combinatorKeys_cases hkey with rfl | rfl | rfl <;>
    simp [schemasBelow, Node.parts, node, hvariants, hvariant]

theorem refFree_of_mem_collect {s} (hfree : RefFree s)
    (hall : collectRootObjectBranches s = some all) (hbranch : branch ∈ all) : RefFree (.obj branch) := by
  induction hfree generalizing all with
  | @intro s href hbelow ih =>
    cases s with
    | obj schema =>
      rw [collectRootObjectBranches] at hall
      split_ifs at hall with hobject hnone
      · cases hall
        obtain rfl := mem_singleton.mp hbranch
        exact .intro href hbelow
      · obtain ⟨key, hkey, variants, hvariants, variant, hvariant, bs, hbs, hmem⟩ := exists_variant_of_mem hall hbranch
        exact ih variant (mem_schemasBelow_of_mem_branches hkey hvariants hvariant) hbs hmem
    | null | bool | num | str | arr => cases hall

theorem exists_valid_branch {s} (hfree : RefFree s)
    (hall : collectRootObjectBranches s = some all) (h : Valid num matchesPattern decode root s v) :
    ∃ branch ∈ all, Valid num matchesPattern decode root (.obj branch) v := by
  induction hfree generalizing all with
  | @intro s href hbelow ih =>
    cases s with
    | obj schema =>
      have hfree : RefFree (.obj schema) := .intro href hbelow
      rw [collectRootObjectBranches] at hall
      split_ifs at hall with hobject hnone
      · cases hall
        exact ⟨schema, mem_singleton.mpr rfl, h⟩
      · obtain ⟨key, hkey, hsome⟩ : ∃ key ∈ combinatorKeys, (branches schema key).isSome := by
          simpa [Option.isSome_iff_ne_none] using hnone
        obtain ⟨variants, hvariants⟩ := Option.isSome_iff_exists.mp hsome
        obtain ⟨hne, hcollect⟩ := collect_variant hall hkey hvariants
        obtain ⟨variant, hvariant, hvalid⟩ := exists_valid_variant hfree h hkey hvariants hne
        obtain ⟨bs, hbs, hincluded⟩ := hcollect variant hvariant
        obtain ⟨branch, hbranch, haccepts⟩ := ih variant (mem_schemasBelow_of_mem_branches hkey hvariants hvariant) hbs hvalid
        exact ⟨branch, hincluded hbranch, haccepts⟩
    | null | bool | num | str | arr => cases hall

theorem collect_wrapper (hkey : key ∈ combinatorKeys) (variants : List (Json ν)) :
    collectRootObjectBranches (.obj [(lit key, .arr variants)]) =
      combineBranches (collectFields [(lit key, .arr variants)]) combinatorKeys ∧
      branches [(lit key, Json.arr variants)] key = some variants := by
  rcases combinatorKeys_cases hkey with rfl | rfl | rfl <;> exact ⟨rfl, rfl⟩

theorem flattenedBranches_eq_some (h : flattenedBranches schema = some (key, all)) :
    key ∈ combinatorKeys ∧ ∃ variants, branches schema key = some variants ∧
      collectRootObjectBranches (.obj [(lit key, .arr variants)]) = some all := by
  obtain ⟨key', hkey', hfound⟩ := exists_of_findSome?_eq_some h
  obtain ⟨hkeys, hsome⟩ := mem_filter.mp hkey'
  obtain ⟨variants, hvariants⟩ := Option.isSome_iff_exists.mp hsome
  obtain ⟨value, hvalue, hitems⟩ := Option.bind_eq_some_iff.mp hvariants
  rw [hvalue, Option.bind_some] at hfound
  have hvalue' : value = .arr variants := by
    cases value with
    | arr items => exact congrArg Json.arr (Option.some.inj hitems)
    | null | bool | num | str | obj => cases hitems
  split at hfound
  next first rest hcollect =>
    cases hfound
    exact ⟨hkeys, variants, hvariants, hvalue' ▸ hcollect⟩
  next => cases hfound

theorem refFree_of_mem_flattened (hfree : RefFree (.obj schema))
    (hfound : flattenedBranches schema = some (key, all)) (hbranch : branch ∈ all) : RefFree (.obj branch) := by
  obtain ⟨hkey, variants, hvariants, hcollect⟩ := flattenedBranches_eq_some hfound
  obtain ⟨hwrapper, hbranches⟩ := collect_wrapper hkey variants
  obtain ⟨key', hkey', variants', hvariants', variant, hvariant, bs, hbs, hmem⟩ :=
    exists_variant_of_mem (hwrapper.symm.trans hcollect) hbranch
  have hvariant' : variant ∈ variants := by
    obtain ⟨value, hvalue, hitems⟩ := Option.bind_eq_some_iff.mp hvariants'
    rw [JsonSchema.get, lookup_cons] at hvalue
    split at hvalue
    next =>
      cases hvalue
      cases hitems
      exact hvariant
    next => cases hvalue
  exact refFree_of_mem_collect (hfree.of_mem (mem_schemasBelow_of_mem_branches hkey hvariants hvariant')) hbs hmem

/-- One of the branches that the flattening of a root uses accepts what the root accepts. -/
theorem exists_valid_flattened (hfree : RefFree (.obj schema)) (hfound : flattenedBranches schema = some (key, all))
    (h : Valid num matchesPattern decode root (.obj schema) v) :
    ∃ branch ∈ all, Valid num matchesPattern decode root (.obj branch) v := by
  obtain ⟨hkey, variants, hvariants, hcollect⟩ := flattenedBranches_eq_some hfound
  obtain ⟨hwrapper, hbranches⟩ := collect_wrapper hkey variants
  obtain ⟨hne, hbelow⟩ := collect_variant (hwrapper.symm.trans hcollect) hkey hbranches
  obtain ⟨variant, hvariant, hvalid⟩ := exists_valid_variant hfree h hkey hvariants hne
  obtain ⟨bs, hbs, hincluded⟩ := hbelow variant hvariant
  obtain ⟨branch, hbranch, haccepts⟩ := exists_valid_branch
    (hfree.of_mem (mem_schemasBelow_of_mem_branches hkey hvariants hvariant)) hbs hvalid
  exact ⟨branch, hincluded hbranch, haccepts⟩

end GajaeCode.Schema
