import GajaeCode.Secrets.State

/-! Which texts of outbound messages still hold a secret. -/
namespace GajaeCode.Secrets
open Text Data List

section

variable {τ β μ : Type}

def Block.texts : Block τ β → List JsStr
  | .text value _ => [value]
  | .other _ => []

def Content.texts : Content τ β → List JsStr
  | .string value => [value]
  | .blocks parts => parts.flatMap Block.texts

def Hides (entries : List SecretEntry) (text : JsStr) : Prop :=
  ∀ e ∈ entries, ¬ e.content <:+: text

end

theorem fenced_buildPlaceholder (hmac : Hmac) (secret : JsStr) (key : List UInt8) :
    [0x23] <+: buildPlaceholder hmac secret key ∧ [0x23] <:+ buildPlaceholder hmac secret key := by
  constructor
  · exact ⟨_, rfl⟩
  · exact ⟨_, rfl⟩

theorem replaceAll_absent {s search replacement text : JsStr} (hne : s ≠ []) (hsep : 0x23 ∉ s)
    (hfence : [0x23] <+: replacement ∧ [0x23] <:+ replacement) (hout : ¬ s <:+: replacement)
    (h : ¬ s <:+: text) : ¬ s <:+: replaceAll text search replacement := by
  by_cases hsearch : search = []
  · rwa [hsearch]
  · rw [replaceAll_eq hsearch]
    exact absent_render_scan hne (fun _ _ => hfence) hsep (fun _ _ => hout) h

theorem replaceAll_self_absent {s replacement text : JsStr} (hne : s ≠ []) (hsep : 0x23 ∉ s)
    (hfence : [0x23] <+: replacement ∧ [0x23] <:+ replacement) (hout : ¬ s <:+: replacement) :
    ¬ s <:+: replaceAll text s replacement := by
  rw [replaceAll_eq hne]
  exact literal_absent_render_scan (by simpa using hne) mem_cons_self (fun _ _ => hfence) hsep fun _ _ => hout

/-- Secrets without a separator, with fenced replacements that hold no secret. -/
structure Sealed (mappings : List PlainMapping) : Prop where
  nonempty : ∀ m ∈ mappings, m.secret ≠ []
  unfenced : ∀ m ∈ mappings, 0x23 ∉ m.secret
  fenced : ∀ m ∈ mappings, [0x23] <+: m.replacement ∧ [0x23] <:+ m.replacement
  outside : ∀ m ∈ mappings, ∀ m' ∈ mappings, ¬ m.secret <:+: m'.replacement

section

variable {mappings : List PlainMapping} {m : PlainMapping}

theorem sequentialPass_absent (h : Sealed mappings) (hm : m ∈ mappings) (text : JsStr) :
    ¬ m.secret <:+: sequentialPass mappings text := by
  have hrest : ∀ rest, (∀ m' ∈ rest, m' ∈ mappings) → ∀ text, ¬ m.secret <:+: text →
      ¬ m.secret <:+: sequentialPass rest text := by
    intro rest hsub text habsent
    refine foldlRecOn (motive := fun text : JsStr => ¬ m.secret <:+: text) _ _ habsent fun text habsent m' hm' => ?_
    exact replaceAll_absent (h.nonempty m hm) (h.unfenced m hm) (h.fenced m' (hsub m' hm'))
      (h.outside m hm m' (hsub m' hm')) habsent
  obtain ⟨before, after, rfl⟩ := append_of_mem hm
  rw [sequentialPass, foldl_append]
  refine hrest after (fun m' hm' => ?_) _ ?_
  · exact mem_append_right _ (mem_cons_of_mem _ hm')
  · exact replaceAll_self_absent (h.nonempty m hm) (h.unfenced m hm) (h.fenced m hm) (h.outside m hm m hm)

theorem singlePass_absent (h : Sealed mappings) (hm : m ∈ mappings) (text : JsStr) :
    ¬ m.secret <:+: singlePass mappings text := by
  have hsecrets : ∀ s ∈ mappings.map PlainMapping.secret, s ≠ [] := by
    intro s hs
    obtain ⟨m', hm', rfl⟩ := mem_map.mp hs
    exact h.nonempty m' hm'
  refine literal_absent_render_scan hsecrets (mem_map_of_mem hm) (fun s hs => ?_) (h.unfenced m hm) fun s hs => ?_
  · obtain ⟨m', hm', -, heq⟩ := exists_replacementOf (mem_of_hit_mem_scan hs)
    exact heq ▸ h.fenced m' hm'
  · obtain ⟨m', hm', -, heq⟩ := exists_replacementOf (mem_of_hit_mem_scan hs)
    exact heq ▸ h.outside m hm m' hm'

end

namespace SecretObfuscator

variable {rt : Runtime} {entries : List SecretEntry} {key : Key} {o : SecretObfuscator}

/-- Plain secrets without the separator that occur in no placeholder. -/
structure PlainSecrets (rt : Runtime) (entries : List SecretEntry) (key : Key) : Prop where
  plain : ∀ e ∈ entries, e.IsPlain .obfuscate
  unfenced : ∀ e ∈ entries, 0x23 ∉ e.content
  outside : ∀ e ∈ entries, ∀ e' ∈ entries, ¬ e.content <:+: buildPlaceholder rt.hmac e'.content key.bytes

theorem obfuscate_of_plain (h : o.regexEntries = []) (text : JsStr) :
    o.obfuscate rt text = some (if o.hasAny then o.obfuscatePlainMappings text else (text, o)) := by
  rw [obfuscate, h]
  cases o.hasAny <;> rfl

/-- Without expressions the calls leave everything but the cache alone. -/
structure SameMappings (start o : SecretObfuscator) : Prop where
  regexEntries : o.regexEntries = start.regexEntries
  mappings : o.plainMappingList = start.plainMappingList
  hasAny : o.hasAny = start.hasAny

theorem SameMappings.ensure {start} (h : SameMappings start o) : SameMappings start o.ensureCombinedPlainRegex := by
  refine ⟨?_, (plainMappingList_ensure o).trans h.mappings, ?_⟩
  · rw [ensureCombinedPlainRegex, ← h.regexEntries]
    split <;> rfl
  · rw [ensureCombinedPlainRegex, ← h.hasAny]
    split <;> rfl

theorem sameMappings_of_reachable {start} (hstart : start.regexEntries = [])
    (h : Reachable rt start o) : SameMappings start o := by
  induction h with
  | start => exact ⟨rfl, rfl, rfl⟩
  | @obfuscate o o' text output _ hcall ih =>
    rw [obfuscate_of_plain (ih.regexEntries.trans hstart), Option.some.injEq] at hcall
    split at hcall
    · have hstate : o.ensureCombinedPlainRegex = o' :=
        (obfuscatePlainMappings_snd o text).symm.trans (congrArg Prod.snd hcall)
      exact hstate ▸ ih.ensure
    · cases hcall
      exact ih

theorem regexEntries_construct (rt : Runtime) (key : Key) (h : ∀ e ∈ entries, e.IsPlain .obfuscate) :
    (construct rt entries key).regexEntries = [] := by
  refine foldlRecOn (motive := fun o : SecretObfuscator => o.regexEntries = []) _ _ rfl fun o ho e he => ?_
  rw [addEntry, (h e he).1, (h e he).2]
  exact ho

theorem placeholderKey_construct (rt : Runtime) (entries : List SecretEntry) (key : Key) :
    (construct rt entries key).placeholderKey = key := by
  refine foldlRecOn (motive := fun o : SecretObfuscator => o.placeholderKey = key) _ _ rfl fun o ho e _ => ?_
  rw [addEntry]
  split
  · exact ho
  · exact ho
  · split <;> exact ho

theorem mem_plainMappingList_construct (h : ∀ e ∈ entries, e.IsPlain .obfuscate) {m}
    (hm : m ∈ (construct rt entries key).plainMappingList) :
    ∃ e ∈ entries, m = ⟨e.content, buildPlaceholder rt.hmac e.content key.bytes⟩ := by
  rcases mem_append.mp hm with hm | hm
  · obtain ⟨e, he, hreplace, -⟩ := (secrets_construct rt entries key m.secret).2.mp (mem_map_of_mem hm)
    exact absurd ((h e he).2.symm.trans hreplace.2) (by simp)
  · obtain ⟨mapping, hmapping, rfl⟩ := mem_map.mp hm
    obtain ⟨e, he, -, heq⟩ := (secrets_construct rt entries key mapping.secret).1.mp (mem_map_of_mem hmapping)
    have hplaceholder := ((recorded_construct rt entries key).sorted mapping hmapping).1
    rw [placeholderOf, placeholderKey_construct] at hplaceholder
    exact ⟨e, he, by rw [hplaceholder, heq]⟩

theorem PlainSecrets.sealed (h : PlainSecrets rt entries key) :
    Sealed (construct rt entries key).plainMappingList where
  nonempty m hm := by
    obtain ⟨e, he, rfl⟩ := mem_plainMappingList_construct h.plain hm
    intro hnil
    have hempty : e.content = [] := hnil
    exact h.outside e he e he (hempty ▸ nil_infix)
  unfenced m hm := by
    obtain ⟨e, he, rfl⟩ := mem_plainMappingList_construct h.plain hm
    exact h.unfenced e he
  fenced m hm := by
    obtain ⟨e, he, rfl⟩ := mem_plainMappingList_construct h.plain hm
    exact fenced_buildPlaceholder _ _ _
  outside m hm m' hm' := by
    obtain ⟨e, he, rfl⟩ := mem_plainMappingList_construct h.plain hm
    obtain ⟨e', he', rfl⟩ := mem_plainMappingList_construct h.plain hm'
    exact h.outside e he e' he'

theorem hides_obfuscate (h : PlainSecrets rt entries key)
    (hreach : Reachable rt (construct rt entries key) o) (text : JsStr) :
    ∃ output o', o.obfuscate rt text = some (output, o') ∧ Hides entries output := by
  have hregex := regexEntries_construct rt key h.plain
  have hsame := sameMappings_of_reachable hregex hreach
  have hcall := @obfuscate_of_plain rt _ (hsame.regexEntries.trans hregex) text
  obtain ⟨⟨output, o'⟩, hresult⟩ : ∃ result, (if o.hasAny then o.obfuscatePlainMappings text else (text, o)) = result :=
    ⟨_, rfl⟩
  refine ⟨output, o', hcall.trans (congrArg some hresult), fun e he => ?_⟩
  have hany : o.hasAny = true := by
    rw [hsame.hasAny]
    exact decide_eq_true (length_pos_of_mem he)
  obtain ⟨m, hm, hsecret⟩ : ∃ m ∈ (construct rt entries key).plainMappingList, m.secret = e.content := by
    have hsorted := (secrets_construct rt entries key e.content).1.mpr ⟨e, he, h.plain e he, rfl⟩
    obtain ⟨mapping, hmapping, heq⟩ := mem_map.mp hsorted
    exact ⟨_, mem_append_right _ (mem_map_of_mem hmapping), heq⟩
  rw [if_pos hany, obfuscatePlainMappings_eq (coherent_of_reachable hreach), hsame.mappings, Prod.mk.injEq] at hresult
  rw [← hresult.1, ← hsecret]
  split
  · exact sequentialPass_absent h.sealed hm text
  · exact singlePass_absent h.sealed hm text

end SecretObfuscator

section

open SecretObfuscator

variable {τ β μ : Type} {rt : Runtime} {entries : List SecretEntry} {key : Key}

section

variable (h : PlainSecrets rt entries key) {o} (hreach : Reachable rt (construct rt entries key) o)
include h hreach

theorem hides_obfuscateBlock (block : Block τ β) : ∃ sent o', obfuscateBlock rt o block = some (sent, o') ∧
      (∀ text ∈ sent.texts, Hides entries text) ∧ Reachable rt (construct rt entries key) o' := by
  cases block with
  | text text rest =>
    obtain ⟨output, o', hcall, hhides⟩ := hides_obfuscate h hreach text
    refine ⟨_, _, by rw [obfuscateBlock, hcall, Option.map_some], ?_, hreach.obfuscate hcall⟩
    by_cases hsame : output = text
    · simpa [hsame, Block.texts] using hsame ▸ hhides
    · simpa [hsame, Block.texts] using hhides
  | other block => exact ⟨_, _, rfl, by simp [Block.texts], hreach⟩

theorem hides_obfuscateBlocks (blocks : List (Block τ β)) : ∃ sent o', obfuscateBlocks rt o blocks = some (sent, o') ∧
      (∀ text ∈ sent.flatMap Block.texts, Hides entries text) ∧ Reachable rt (construct rt entries key) o' := by
  induction blocks generalizing o with
  | nil => exact ⟨_, _, rfl, by simp, hreach⟩
  | cons block blocks ih =>
    obtain ⟨sent, o', hcall, hblock, hreach⟩ := hides_obfuscateBlock h hreach block
    obtain ⟨others, o'', hrest, hblocks, hreach⟩ := ih hreach
    refine ⟨sent :: others, o'', by simp [obfuscateBlocks, hcall, hrest], ?_, hreach⟩
    rw [flatMap_cons, forall_mem_append]
    exact ⟨hblock, hblocks⟩

/-- A message with string content goes out as it is. -/
theorem hides_obfuscateMessage (msg : Message τ β μ) : ∃ sent o', obfuscateMessage rt o msg = some (sent, o') ∧
      ((∀ text ∈ sent.content.texts, Hides entries text) ↔
        ∀ text, msg.content = .string text → Hides entries text) ∧ Reachable rt (construct rt entries key) o' := by
  obtain ⟨content, rest⟩ := msg
  cases content with
  | string text => exact ⟨_, _, rfl, by simp [Content.texts], hreach⟩
  | blocks blocks =>
    obtain ⟨sent, o', hcall, hblocks, hreach⟩ := hides_obfuscateBlocks h hreach blocks
    refine ⟨⟨.blocks sent, rest⟩, o', by simp [obfuscateMessage, hcall], ?_, hreach⟩
    exact ⟨fun _ text htext => (by cases htext), fun _ => hblocks⟩

end

/-- The messages that go out hold no secret exactly if no string content holds one. -/
theorem hides_obfuscateMessages_iff (h : PlainSecrets rt entries key) {o : SecretObfuscator}
    (hreach : Reachable rt (construct rt entries key) o) (messages : List (Message τ β μ)) :
    ∃ sent o', obfuscateMessages rt o messages = some (sent, o') ∧
      ((∀ msg ∈ sent, ∀ text ∈ msg.content.texts, Hides entries text) ↔
        ∀ msg ∈ messages, ∀ text, msg.content = .string text → Hides entries text) := by
  induction messages generalizing o with
  | nil => exact ⟨_, _, rfl, by simp⟩
  | cons msg messages ih =>
    obtain ⟨sent, o', hcall, hmsg, hreach⟩ := hides_obfuscateMessage h hreach msg
    obtain ⟨others, o'', hrest, hmessages⟩ := ih hreach
    refine ⟨sent :: others, o'', by simp [obfuscateMessages, hcall, hrest], ?_⟩
    rw [forall_mem_cons, forall_mem_cons, hmsg, hmessages]

theorem plainSecrets_sample : PlainSecrets sampleRuntime [obfuscateEntry (lit "secret")] sampleKey where
  plain e he := by
    rw [mem_singleton.mp he]
    exact ⟨rfl, rfl⟩
  unfenced := by decide
  outside := by decide +kernel

theorem hides_obfuscateMessages_iff_blocks : Hides [obfuscateEntry (lit "secret")] (lit "no") ∧
      ∃ sent o', obfuscateMessages (τ := Unit) (β := Unit) (μ := Unit) sampleRuntime
          (construct sampleRuntime [obfuscateEntry (lit "secret")] sampleKey)
          [⟨.string (lit "no"), ()⟩, ⟨.blocks [.text (lit "a secret") ()], ()⟩] = some (sent, o') ∧
        ∀ msg ∈ sent, ∀ text ∈ msg.content.texts, Hides [obfuscateEntry (lit "secret")] text := by
  have hno : Hides [obfuscateEntry (lit "secret")] (lit "no") := by unfold Hides; decide
  obtain ⟨sent, o', hcall, hiff⟩ := hides_obfuscateMessages_iff (τ := Unit) (β := Unit) (μ := Unit) plainSecrets_sample
    .start [⟨.string (lit "no"), ()⟩, ⟨.blocks [.text (lit "a secret") ()], ()⟩]
  refine ⟨hno, sent, o', hcall, hiff.mpr ?_⟩
  simpa using hno

/-- String content is not looked at. -/
theorem obfuscateMessages_string_secret :
    ((obfuscateMessages (τ := Unit) (β := Unit) (μ := Unit) sampleRuntime
        (construct sampleRuntime [obfuscateEntry (lit "secret")] sampleKey)
        [⟨.string (lit "a secret"), ()⟩]).map fun sent => sent.1.map (·.content.texts)) = some [[lit "a secret"]] ∧
      ¬ Hides [obfuscateEntry (lit "secret")] (lit "a secret") := by
  constructor
  · rfl
  · unfold Hides
    decide

end

end GajaeCode.Secrets
