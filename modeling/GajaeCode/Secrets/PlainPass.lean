import GajaeCode.Secrets.Obfuscator

/-! The plain pass: `replaceAll` as a scan, the cache of the combined expression and what the pass
computes from the mappings. -/
namespace GajaeCode.Secrets
open Text Data List

theorem scan_of_absent {search text : JsStr} (h : ¬ search <:+: text) :
    scan (alternatives [search]) text = text.map .unit := by
  have hne : ∀ s ∈ [search], s ≠ [] := by
    intro s hs hnil
    rw [mem_singleton.mp hs] at hnil
    exact h (hnil ▸ nil_infix)
  have hstarts : ∀ n < text.length, alternatives [search] ((text ++ []).drop n) = none := by
    intro n _
    rw [alternatives_eq_none, append_nil]
    intro s hs hstart
    rw [mem_singleton.mp hs] at hstart
    exact h (hstart.isInfix.trans (drop_suffix n text).isInfix)
  have hscan := scan_append hstarts
  rwa [append_nil, scan_nil (alternatives_nil hne), append_nil] at hscan

theorem replaceAll_eq {search : JsStr} (h : search ≠ []) (text replacement : JsStr) :
    replaceAll text search replacement = render (fun _ => replacement) (scan (alternatives [search]) text) := by
  rw [replaceAll, splitString, intercalate_splitHits]
  by_cases hin : search <:+: text
  · simp [includes, hin, h]
  · rw [scan_of_absent hin, render_map_unit]
    simp [includes, hin]

def replacementOf (mappings : List PlainMapping) (secret : JsStr) : JsStr :=
  ((mappings.find? fun mapping => mapping.secret = secret).map PlainMapping.replacement).getD secret

theorem exists_replacementOf {mappings secret} (h : secret ∈ mappings.map PlainMapping.secret) :
    ∃ m ∈ mappings, m.secret = secret ∧ replacementOf mappings secret = m.replacement := by
  have hfound : (mappings.find? fun m => m.secret = secret).isSome := by
    rw [find?_isSome]
    obtain ⟨m, hm, heq⟩ := mem_map.mp h
    exact ⟨m, hm, by simpa using heq⟩
  obtain ⟨m, hm⟩ := Option.isSome_iff_exists.mp hfound
  refine ⟨m, mem_of_find?_eq_some hm, by simpa using find?_some hm, ?_⟩
  rw [replacementOf, hm]
  rfl

theorem lookup_replacementBySecret (mappings : List PlainMapping) (secret : JsStr) :
    ((SecretObfuscator.replacementBySecret mappings).lookup secret).getD secret = replacementOf mappings secret := by
  have hfold : ∀ (ms : List PlainMapping) (map : List (JsStr × JsStr)),
      (ms.foldl (fun map mapping =>
        if (map.lookup mapping.secret).isSome then map
        else assocSet mapping.secret mapping.replacement map) map).lookup secret = (map.lookup secret).or
        ((ms.find? fun mapping => mapping.secret = secret).map PlainMapping.replacement) := by
    intro ms
    induction ms with
    | nil => simp
    | cons m ms ih =>
      intro map
      rw [foldl_cons, ih]
      by_cases hm : m.secret = secret
      · subst hm
        cases hlookup : map.lookup m.secret with
        | none => simp [lookup_assocSet]
        | some r => simp [hlookup]
      · cases hlookup : map.lookup m.secret with
        | none => simp [lookup_assocSet, hm, Ne.symm hm]
        | some r => simp [hm]
  rw [SecretObfuscator.replacementBySecret, hfold, lookup_nil, Option.none_or, replacementOf]

def sequentialPass (mappings : List PlainMapping) (text : JsStr) : JsStr :=
  mappings.foldl (fun result mapping => replaceAll result mapping.secret mapping.replacement) text

def singlePass (mappings : List PlainMapping) (text : JsStr) : JsStr :=
  render (replacementOf mappings) (scan (alternatives (mappings.map PlainMapping.secret)) text)

namespace SecretObfuscator

variable (o : SecretObfuscator)

theorem obfuscatePlainMappingsSequential_eq (text : JsStr) :
    o.obfuscatePlainMappingsSequential text = sequentialPass o.plainMappingList text := by
  rw [obfuscatePlainMappingsSequential, sequentialPass, plainMappingList, foldl_append, foldl_map]

/-- A clean cache belongs to the current mappings. -/
structure Coherent (o : SecretObfuscator) : Prop where
  sequential : o.combinedPlainRegexDirty = false →
    o.useSequentialPlainReplacement = needsSequential o.plainMappingList
  replacements : o.combinedPlainRegexDirty = false →
    o.combinedPlainReplacementBySecret = replacementBySecret o.plainMappingList
  expression : o.combinedPlainRegexDirty = false → o.combinedPlainRegex =
    if o.plainMappingList.length > 0 then some (o.plainMappingList.map PlainMapping.secret) else none

theorem coherent_of_dirty {o} (h : o.combinedPlainRegexDirty = true) : Coherent o := by
  constructor <;> intro hclean <;> simp [h] at hclean

theorem plainMappingList_ensure : o.ensureCombinedPlainRegex.plainMappingList = o.plainMappingList := by
  rw [ensureCombinedPlainRegex]
  split <;> rfl

theorem dirty_ensure : o.ensureCombinedPlainRegex.combinedPlainRegexDirty = false := by
  rw [ensureCombinedPlainRegex]
  split
  · next h => simpa using h
  · rfl

theorem Coherent.ensure {o} (h : Coherent o) : Coherent o.ensureCombinedPlainRegex := by
  rw [ensureCombinedPlainRegex]
  split
  · exact h
  · exact ⟨fun _ => rfl, fun _ => rfl, fun _ => rfl⟩

theorem obfuscatePlainMappings_eq {o} (h : Coherent o) (text : JsStr) : o.obfuscatePlainMappings text =
      (if needsSequential o.plainMappingList then sequentialPass o.plainMappingList text
        else singlePass o.plainMappingList text, o.ensureCombinedPlainRegex) := by
  have hclean := dirty_ensure o
  have hsequential := h.ensure.sequential hclean
  have hreplacements := h.ensure.replacements hclean
  have hexpression := h.ensure.expression hclean
  rw [plainMappingList_ensure] at hsequential hreplacements hexpression
  rw [obfuscatePlainMappings]
  simp only [hsequential, hreplacements, hexpression, obfuscatePlainMappingsSequential_eq,
    plainMappingList_ensure, lookup_replacementBySecret]
  by_cases hseq : needsSequential o.plainMappingList = true
  · simp [hseq]
  · simp only [hseq, if_false, Bool.false_eq_true]
    by_cases hlen : o.plainMappingList.length > 0
    · simp only [if_pos hlen, singlePass]
    · have hnil : o.plainMappingList = [] := by simpa using hlen
      have hnone : ∀ n < text.length, alternatives [] ((text ++ []).drop n) = none := fun _ _ => rfl
      have hscan : scan (alternatives []) text = text.map .unit := by
        have hcopy := scan_append hnone
        rwa [append_nil, scan_nil rfl, append_nil] at hcopy
      simp [hnil, singlePass, hscan, render_map_unit]

end SecretObfuscator

end GajaeCode.Secrets
