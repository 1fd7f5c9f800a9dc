import GajaeCode.Secrets.PlainPass
import GajaeCode.Text.Pattern

/-! The states an obfuscator goes through: what every call of `obfuscate` keeps. -/
namespace GajaeCode.Secrets
open Text Data List

def SecretEntry.IsPlain (entry : SecretEntry) (mode : Mode) : Prop :=
  entry.type = .plain ∧ entry.mode.getD .obfuscate = mode

namespace SecretObfuscator

inductive Reachable (rt : Runtime) (start : SecretObfuscator) : SecretObfuscator → Prop
  | start : Reachable rt start start
  | obfuscate {o o' : SecretObfuscator} {text output : JsStr} (h : Reachable rt start o)
      (hcall : o.obfuscate rt text = some (output, o')) : Reachable rt start o'

section

variable {rt : Runtime} {P : SecretObfuscator → Prop}

theorem obfuscatePlainMappings_snd (o : SecretObfuscator) (text : JsStr) :
    (o.obfuscatePlainMappings text).2 = o.ensureCombinedPlainRegex := by
  rw [obfuscatePlainMappings]
  split
  · rfl
  · split <;> rfl

theorem ne_nil_of_mem_matchesFrom {regex text rounds lastIndex found value}
    (h : matchesFrom regex text rounds lastIndex = some found) (hvalue : value ∈ found) : value ≠ [] := by
  induction rounds generalizing lastIndex found with
  | zero => cases h
  | succ rounds ih =>
    rw [matchesFrom] at h
    split at h
    · cases h
      cases hvalue
    · split_ifs at h with hempty
      · exact ih h hvalue
      · obtain ⟨rest, hrest, rfl⟩ := Option.map_eq_some_iff.mp h
        rcases mem_cons.mp hvalue with rfl | hvalue
        · exact fun hnil => hempty (length_eq_zero_iff.mpr hnil)
        · exact ih hrest hvalue

variable
  (hrecord : ∀ o secret, P o → secret ≠ [] → o.obfuscateIndexBySecret.lookup secret = none →
    P (o.recordSecret rt secret))
include hrecord

theorem replaceMatch_preserves (entry : RegexEntry) (state : JsStr × SecretObfuscator)
    {value : JsStr} (hvalue : value ≠ []) (h : P state.2) : P (replaceMatch rt entry state value).2 := by
  rw [replaceMatch]
  split
  · exact h
  · split
    · exact h
    · next hnone => exact hrecord _ _ h hvalue hnone

theorem replaceMatches_preserves (entry : RegexEntry) {values : List JsStr} (hvalues : ∀ value ∈ values, value ≠ [])
    {state : JsStr × SecretObfuscator} (h : P state.2) : P (values.foldl (replaceMatch rt entry) state).2 :=
  foldlRecOn (motive := fun state : JsStr × SecretObfuscator => P state.2) _ _ h
    fun state hstate value hvalue => replaceMatch_preserves hrecord entry state (hvalues value hvalue) hstate

theorem processEntries_preserves {regexEntries : List RegexEntry} {state result : JsStr × SecretObfuscator}
    (hrun : regexEntries.foldlM (processEntry rt) state = some result) (h : P state.2) : P result.2 := by
  induction regexEntries generalizing state with
  | nil =>
    cases hrun
    exact h
  | cons entry rest ih =>
    obtain ⟨next, hnext, hrest⟩ := Option.bind_eq_some_iff.mp (foldlM_cons.symm.trans hrun)
    obtain ⟨found, hfound, rfl⟩ := Option.map_eq_some_iff.mp hnext
    refine ih hrest (replaceMatches_preserves hrecord entry (fun value hvalue => ?_) h)
    exact ne_nil_of_mem_matchesFrom hfound (mem_eraseDups.mp hvalue)

theorem obfuscate_preserves (hensure : ∀ o, P o → P o.ensureCombinedPlainRegex) {o o' : SecretObfuscator} {text output}
    (hcall : o.obfuscate rt text = some (output, o')) (h : P o) : P o' := by
  rw [obfuscate] at hcall
  split at hcall
  · cases hcall
    exact h
  · refine processEntries_preserves hrecord hcall ?_
    rw [obfuscatePlainMappings_snd]
    exact hensure o h

theorem Reachable.induction {start o} (hreach : Reachable rt start o)
    (hstart : P start) (hensure : ∀ o, P o → P o.ensureCombinedPlainRegex) : P o := by
  induction hreach with
  | start => exact hstart
  | obfuscate _ hcall ih => exact obfuscate_preserves hrecord hensure hcall ih

end

variable {rt : Runtime} {entries : List SecretEntry} {key : Key} {o : SecretObfuscator}

theorem dirty_addEntries (rt : Runtime) (entries : List SecretEntry) {o} (h : o.combinedPlainRegexDirty = true) :
    (entries.foldl (addEntry rt) o).combinedPlainRegexDirty = true := by
  refine foldlRecOn (motive := fun o : SecretObfuscator => o.combinedPlainRegexDirty = true) _ _ h
    fun o ho entry _ => ?_
  rw [addEntry]
  split
  · exact ho
  · exact ho
  · split <;> exact ho

theorem coherent_of_reachable (h : Reachable rt (construct rt entries key) o) : Coherent o := by
  refine h.induction (fun o secret _ _ _ => coherent_of_dirty rfl) (coherent_of_dirty ?_) fun _ => Coherent.ensure
  exact dirty_addEntries rt entries (o := empty key) rfl

theorem keys_addEntry (rt : Runtime) (o : SecretObfuscator) (entry : SecretEntry) (secret : JsStr) :
    (secret ∈ (addEntry rt o entry).plainMappings.map Prod.fst ↔
      secret ∈ o.plainMappings.map Prod.fst ∨ entry.IsPlain .obfuscate ∧ entry.content = secret) ∧
    (secret ∈ (addEntry rt o entry).replaceMappings.map Prod.fst ↔
      secret ∈ o.replaceMappings.map Prod.fst ∨ entry.IsPlain .replace ∧ entry.content = secret) := by
  rw [addEntry]
  split
  · next htype hmode =>
    simp only [mem_keys_assocSet, SecretEntry.IsPlain, htype, hmode]
    constructor
    · rw [or_comm, eq_comm]; simp
    · simp
  · next htype hmode =>
    simp only [mem_keys_assocSet, SecretEntry.IsPlain, htype, hmode]
    constructor
    · simp
    · rw [or_comm, eq_comm]; simp
  · next htype =>
    split <;> simp [SecretEntry.IsPlain, htype]

theorem keys_addEntries (rt : Runtime) (entries : List SecretEntry) (o : SecretObfuscator) (secret : JsStr) :
    (secret ∈ (entries.foldl (addEntry rt) o).plainMappings.map Prod.fst ↔
      secret ∈ o.plainMappings.map Prod.fst ∨ ∃ e ∈ entries, e.IsPlain .obfuscate ∧ e.content = secret) ∧
    (secret ∈ (entries.foldl (addEntry rt) o).replaceMappings.map Prod.fst ↔
      secret ∈ o.replaceMappings.map Prod.fst ∨ ∃ e ∈ entries, e.IsPlain .replace ∧ e.content = secret) := by
  induction entries generalizing o with
  | nil => simp
  | cons entry entries ih =>
    rw [foldl_cons, (ih _).1, (ih _).2, (keys_addEntry rt o entry secret).1, (keys_addEntry rt o entry secret).2]
    simp only [exists_mem_cons_iff, or_assoc, and_self]

theorem mem_longestFirst {ν mappings} {entry : JsStr × ν} : entry ∈ longestFirst mappings ↔ entry ∈ mappings :=
  (perm_insertionSort _ mappings).mem_iff

theorem secrets_construct (rt : Runtime) (entries : List SecretEntry) (key : Key) (secret : JsStr) :
    (secret ∈ (construct rt entries key).sortedObfuscateMappings.map ObfuscateMapping.secret ↔
      ∃ e ∈ entries, e.IsPlain .obfuscate ∧ e.content = secret) ∧
    (secret ∈ (construct rt entries key).sortedReplaceMappings.map PlainMapping.secret ↔
      ∃ e ∈ entries, e.IsPlain .replace ∧ e.content = secret) := by
  have hkeys := keys_addEntries rt entries (empty key) secret
  constructor
  · simpa [construct, empty, mem_longestFirst] using hkeys.1
  · simpa [construct, empty, mem_longestFirst] using hkeys.2

/-- When no plain entry is empty, no secret ever is. -/
theorem secret_ne_nil_of_reachable (h : Reachable rt (construct rt entries key) o)
    (hplain : ∀ e ∈ entries, e.type = .plain → e.content ≠ []) : ∀ m ∈ o.plainMappingList, m.secret ≠ [] := by
  refine h.induction (P := fun o => ∀ m ∈ o.plainMappingList, m.secret ≠ []) ?_ ?_ ?_
  · intro o secret ho hsecret _ m hm
    rcases mem_append.mp hm with hm | hm
    · exact ho m (mem_append_left _ hm)
    · obtain ⟨mapping, hmapping, rfl⟩ := mem_map.mp hm
      rcases eq_or_mem_of_mem_insertIdx hmapping with rfl | hmapping
      · exact hsecret
      · exact ho _ (mem_append_right _ (mem_map_of_mem hmapping))
  · intro m hm
    have hkeys := secrets_construct rt entries key m.secret
    rcases mem_append.mp hm with hm | hm
    · obtain ⟨e, he, hplain', hcontent⟩ := hkeys.2.mp (mem_map_of_mem hm)
      exact hcontent ▸ hplain e he hplain'.1
    · obtain ⟨mapping, hmapping, rfl⟩ := mem_map.mp hm
      obtain ⟨e, he, hplain', hcontent⟩ := hkeys.1.mp (mem_map_of_mem hmapping)
      exact hcontent ▸ hplain e he hplain'.1
  · intro o ho
    rwa [plainMappingList_ensure]

/-- The tables of the obfuscated secrets agree with each other; `placeholder` is the placeholder of a
secret. -/
structure Tables (placeholder : JsStr → JsStr) (mappings : List (Nat × JsStr × JsStr))
    (reverse : List (JsStr × JsStr)) (indexBySecret : List (JsStr × Nat)) (next : Nat) : Prop where
  mapping : ∀ secret index, indexBySecret.lookup secret = some index →
    mappings.lookup index = some (secret, placeholder secret)
  bound : ∀ index entry, mappings.lookup index = some entry → index < next
  reverse_known : ∀ p secret, reverse.lookup p = some secret →
    p = placeholder secret ∧ (indexBySecret.lookup secret).isSome
  known_reverse : ∀ secret, (indexBySecret.lookup secret).isSome → (reverse.lookup (placeholder secret)).isSome

theorem Tables.record {placeholder mappings reverse indexBySecret next}
    (h : Tables placeholder mappings reverse indexBySecret next) (secret : JsStr) :
    Tables placeholder (assocSet next (secret, placeholder secret) mappings)
      (assocSet (placeholder secret) secret reverse) (assocSet secret next indexBySecret) (next + 1) where
  mapping s index hs := by
    rw [lookup_assocSet] at hs
    rw [lookup_assocSet]
    split at hs
    · next heq =>
      obtain rfl : next = index := by simpa using hs
      rw [if_pos rfl, heq]
    · have hold := h.mapping s index hs
      have hlt := h.bound index _ hold
      rw [if_neg (by omega), hold]
  bound index entry hentry := by
    rw [lookup_assocSet] at hentry
    split at hentry
    · omega
    · have hlt := h.bound index entry hentry
      omega
  reverse_known p s hp := by
    rw [lookup_assocSet] at hp
    rw [lookup_assocSet]
    split at hp
    · next heq =>
      obtain rfl : secret = s := by simpa using hp
      exact ⟨heq, by simp⟩
    · obtain ⟨heq, hknown⟩ := h.reverse_known p s hp
      refine ⟨heq, ?_⟩
      split
      · rfl
      · exact hknown
  known_reverse s hs := by
    rw [lookup_assocSet] at hs
    rw [lookup_assocSet]
    split
    · rfl
    · next hne =>
      split at hs
      · next heq => exact absurd (congrArg placeholder heq) hne
      · exact h.known_reverse s hs

def Known (o : SecretObfuscator) (secret : JsStr) : Prop :=
  (o.obfuscateIndexBySecret.lookup secret).isSome = true

/-- What the fields of a state say about each other. -/
structure Recorded (rt : Runtime) (o : SecretObfuscator) : Prop where
  tables : Tables (o.placeholderOf rt) o.obfuscateMappings o.deobfuscateMap o.obfuscateIndexBySecret o.nextIndex
  plain : ∀ entry ∈ o.plainMappings,
    o.obfuscateMappings.lookup entry.2 = some (entry.1, o.placeholderOf rt entry.1) ∧ o.Known entry.1
  sorted : ∀ m ∈ o.sortedObfuscateMappings, m.placeholder = o.placeholderOf rt m.secret ∧ o.Known m.secret

theorem known_assocSet {indexBySecret secret} (index : Nat)
    {s : JsStr} (h : s = secret ∨ (indexBySecret.lookup s).isSome = true) :
    ((assocSet secret index indexBySecret).lookup s).isSome = true := by
  rw [lookup_assocSet]
  split
  · rfl
  · next hne => exact h.resolve_left hne

theorem recorded_empty (rt : Runtime) (key : Key) : Recorded rt (empty key) where
  tables :=
    { mapping := fun _ _ h => by cases h
      bound := fun _ _ h => by cases h
      reverse_known := fun _ _ h => by cases h
      known_reverse := fun _ h => by cases h }
  plain _ h := by cases h
  sorted _ h := by cases h

theorem Recorded.addEntry {o} (h : Recorded rt o) (entry : SecretEntry) : Recorded rt (addEntry rt o entry) := by
  rw [SecretObfuscator.addEntry]
  split
  · refine ⟨h.tables.record entry.content, ?_, ?_⟩
    · intro old hold
      rcases mem_assocSet hold with rfl | hold
      · exact ⟨by simp [lookup_assocSet]; rfl, known_assocSet _ (.inl rfl)⟩
      · obtain ⟨hmapping, hknown⟩ := h.plain old hold
        have hlt := h.tables.bound _ _ hmapping
        refine ⟨?_, known_assocSet _ (.inr hknown)⟩
        rw [lookup_assocSet, if_neg (by omega)]
        exact hmapping
    · intro m hm
      exact ⟨(h.sorted m hm).1, known_assocSet _ (.inr (h.sorted m hm).2)⟩
  · exact ⟨h.tables, h.plain, h.sorted⟩
  · split
    · exact ⟨h.tables, h.plain, h.sorted⟩
    · exact h

theorem recorded_construct (rt : Runtime) (entries : List SecretEntry) (key : Key) :
    Recorded rt (construct rt entries key) := by
  have hfold : Recorded rt (entries.foldl (SecretObfuscator.addEntry rt) (empty key)) :=
    foldlRecOn (motive := fun o : SecretObfuscator => Recorded rt o) _ _ (recorded_empty rt key)
      fun o ho entry _ => ho.addEntry entry
  refine ⟨hfold.tables, hfold.plain, fun m hm => ?_⟩
  obtain ⟨entry, hentry, rfl⟩ := mem_map.mp hm
  obtain ⟨hmapping, hknown⟩ := hfold.plain entry (mem_longestFirst.mp hentry)
  exact ⟨by simp [placeholderAtIndex, hmapping]; rfl, hknown⟩

theorem Recorded.ensure {o} (h : Recorded rt o) : Recorded rt o.ensureCombinedPlainRegex := by
  rw [ensureCombinedPlainRegex]
  split
  · exact h
  · exact ⟨h.tables, h.plain, h.sorted⟩

theorem Recorded.recordSecret {o} (h : Recorded rt o) (secret : JsStr) : Recorded rt (o.recordSecret rt secret) where
  tables := h.tables.record secret
  plain old hold := by
    obtain ⟨hmapping, hknown⟩ := h.plain old hold
    have hlt := h.tables.bound _ _ hmapping
    refine ⟨?_, known_assocSet _ (.inr hknown)⟩
    rw [SecretObfuscator.recordSecret, lookup_assocSet, if_neg (by omega)]
    exact hmapping
  sorted m hm := by
    rcases eq_or_mem_of_mem_insertIdx hm with rfl | hm
    · exact ⟨rfl, known_assocSet _ (.inl rfl)⟩
    · exact ⟨(h.sorted m hm).1, known_assocSet _ (.inr (h.sorted m hm).2)⟩

end SecretObfuscator

/-- A digest to evaluate the model with: the end of the message. -/
def sampleHmac : Hmac where
  digest _ message := (message.reverse ++ replicate 32 0xff).take 32
  length_digest _ message := by simp

/-- Every pattern is `/k\d+/g`. -/
def sampleRuntime : Runtime where
  hmac := sampleHmac
  bunHash _ := 0
  compileSecretRegex _ _ := some (.ofRegex (.seq (.cls (isUnit 'k')) (.plus isDigit)))

def sampleKey : Key := ⟨replicate 32 0, by simp⟩

def replaceEntry (secret replacement : JsStr) : SecretEntry :=
  ⟨.plain, secret, some .replace, some replacement, none⟩

def obfuscateEntry (secret : JsStr) : SecretEntry := ⟨.plain, secret, none, none, none⟩

end GajaeCode.Secrets
