import GajaeCode.Secrets.State

/-! When one pass of the combined expression replaces what the passes of the single secrets replace. -/
namespace GajaeCode.Secrets
open Text Data List

/-- After the mappings `before`, the secret of `m` occurs in `ps` at a place where the combined
expression does not match it. -/
inductive Interferes (before : List PlainMapping) (m : PlainMapping) : List (Piece UInt16) → Prop
  /-- It starts inside the match of a later secret. -/
  | overlap {secret : JsStr} {ps : List (Piece UInt16)} {n : Nat}
      (hlater : secret ∉ before.map PlainMapping.secret) (hne : secret ≠ m.secret) (hpos : 0 < n)
      (hn : n < secret.length)
      (hoccurs : m.secret <+: (secret ++ render (replacementOf before) ps).drop n) :
      Interferes before m (.hit secret :: ps)
  /-- It starts inside a replacement. -/
  | inside {secret : JsStr} {ps : List (Piece UInt16)} {n : Nat}
      (hearlier : secret ∈ before.map PlainMapping.secret)
      (hn : n < (replacementOf before secret).length)
      (hoccurs : m.secret <+: (replacementOf before secret ++ render (replacementOf before) ps).drop n) :
      Interferes before m (.hit secret :: ps)
  /-- It starts in the text and reaches over a replacement or into it. -/
  | across {u : UInt16} {secret : JsStr} {ps qs : List (Piece UInt16)}
      (hearlier : secret ∈ before.map PlainMapping.secret)
      (hoccurs : m.secret <+: render (replacementOf before) (.unit u :: ps ++ .hit secret :: qs))
      (hreach : (render (replacementOf before) (.unit u :: ps)).length < m.secret.length) :
      Interferes before m (.unit u :: ps ++ .hit secret :: qs)

/-- No stage of the sequential order finds a secret where the combined expression does not. -/
def NoInterference (mappings : List PlainMapping) (text : JsStr) : Prop :=
  ∀ before m after, mappings = before ++ m :: after →
    ∀ ps, ps <:+ scan (alternatives (mappings.map PlainMapping.secret)) text → ¬ Interferes before m ps

section

/-- What the guard of the combined expression rules out. -/
structure Apart (mappings : List PlainMapping) : Prop where
  nonempty : ∀ m ∈ mappings, m.secret ≠ []
  pairwise : mappings.Pairwise fun a b => ¬ a.secret <:+: b.secret ∧ ¬ b.secret <:+: a.secret

theorem apart_of_needsSequential {mappings : List PlainMapping} (hne : ∀ m ∈ mappings, m.secret ≠ [])
    (h : SecretObfuscator.needsSequential mappings = false) : Apart mappings := by
  refine ⟨hne, pairwise_iff_getElem.mpr fun i j hi hj hij => ?_⟩
  have hentry : ∀ k (hk : k < mappings.length), (mappings[k], k) ∈ mappings.zipIdx := by
    intro k hk
    rw [mk_mem_zipIdx_iff_getElem?]
    exact getElem?_eq_getElem hk
  have hinner := any_eq_false.mp h _ (hentry i hi)
  have hpair := any_eq_false.mp (Bool.not_eq_true _ ▸ hinner) _ (hentry j hj)
  have hlength : 0 < mappings[j].secret.length := length_pos_iff.mpr (hne _ (getElem_mem hj))
  simp [hlength, hij.ne, includes] at hpair
  exact ⟨hpair.2.2, hpair.2.1⟩

variable {before after : List PlainMapping} {m : PlainMapping}

theorem Apart.incomparable (h : Apart (before ++ m :: after)) {secret}
    (hsecret : secret ∈ (before ++ after).map PlainMapping.secret) :
    ¬ m.secret <:+: secret ∧ ¬ secret <:+: m.secret := by
  obtain ⟨-, hafter, hbefore⟩ := pairwise_append.mp h.pairwise
  obtain ⟨other, hother, rfl⟩ := mem_map.mp hsecret
  rcases mem_append.mp hother with hother | hother
  · exact (hbefore other hother m mem_cons_self).symm
  · exact (pairwise_cons.mp hafter).1 other hother

theorem replacementOf_append_of_mem {secret}
    (h : secret ∈ before.map PlainMapping.secret) (rest : List PlainMapping) :
    replacementOf (before ++ rest) secret = replacementOf before secret := by
  obtain ⟨mapping, hmapping, rfl⟩ := mem_map.mp h
  have hfound : (before.find? fun other => other.secret = mapping.secret).isSome := by
    rw [find?_isSome]
    exact ⟨mapping, hmapping, by simp⟩
  rw [replacementOf, replacementOf, find?_append, Option.or_of_isSome hfound]

theorem find_eq_none_of_not_mem {secret} (h : secret ∉ before.map PlainMapping.secret) :
    (before.find? fun other => other.secret = secret) = none := by
  rw [find?_eq_none]
  intro other hother heq
  exact h (mem_map.mpr ⟨other, hother, by simpa using heq⟩)

theorem replacementOf_of_not_mem {secret}
    (h : secret ∉ before.map PlainMapping.secret) : replacementOf before secret = secret := by
  rw [replacementOf, find_eq_none_of_not_mem h, Option.map_none, Option.getD_none]

theorem replacementOf_self (h : m.secret ∉ before.map PlainMapping.secret)
    (rest : List PlainMapping) : replacementOf (before ++ m :: rest) m.secret = m.replacement := by
  simp [replacementOf, find?_append, find_eq_none_of_not_mem h]

end

section

theorem prefix_source_or_reaches {before} {s : JsStr} {ps} (h : s <+: render (replacementOf before) ps) :
    s <+: render id ps ∨ ∃ qs secret rest, ps = qs ++ .hit secret :: rest ∧
      secret ∈ before.map PlainMapping.secret ∧ (render (replacementOf before) qs).length < s.length := by
  induction ps generalizing s with
  | nil => exact .inl h
  | cons p ps ih =>
    by_cases hs : s = []
    · exact .inl (hs ▸ nil_prefix)
    cases p with
    | unit u =>
      obtain ⟨v, s, rfl⟩ := exists_cons_of_ne_nil hs
      rw [render_unit, cons_prefix_cons] at h
      obtain ⟨rfl, h⟩ := h
      rcases ih h with h | ⟨qs, secret, rest, rfl, hmem, hlen⟩
      · exact .inl (cons_prefix_cons.mpr ⟨rfl, h⟩)
      · refine .inr ⟨.unit v :: qs, secret, rest, rfl, hmem, ?_⟩
        rw [render_unit, length_cons, length_cons]
        omega
    | hit secret =>
      by_cases hmem : secret ∈ before.map PlainMapping.secret
      · exact .inr ⟨[], secret, ps, rfl, hmem, length_pos_iff.mpr hs⟩
      rw [render_hit, replacementOf_of_not_mem hmem] at h
      rcases prefix_or_prefix_of_prefix h (prefix_append secret _) with hshort | hlong
      · exact .inl (hshort.trans (prefix_append secret _))
      · obtain ⟨s, rfl⟩ := hlong
        rcases ih ((prefix_append_right_inj secret).mp h) with
          h | ⟨qs, secret', rest, rfl, hmem', hlen⟩
        · exact .inl ((prefix_append_right_inj secret).mpr h)
        · refine .inr ⟨.hit secret :: qs, secret', rest, rfl, hmem', ?_⟩
          rw [render_hit, replacementOf_of_not_mem hmem, length_append, length_append]
          omega

variable {before after : List PlainMapping} {m : PlainMapping} {text : JsStr}

theorem replaceAll_stage (hapart : Apart (before ++ m :: after)) {ps}
    (hscan : ps <:+ scan (alternatives ((before ++ m :: after).map PlainMapping.secret)) text)
    (hquiet : ∀ qs, qs <:+ ps → ¬ Interferes before m qs) : render (fun _ => m.replacement)
        (scan (alternatives [m.secret]) (render (replacementOf before) ps)) =
      render (replacementOf (before ++ [m])) ps := by
  have hne : m.secret ≠ [] := hapart.nonempty m (by simp)
  have hsingle : ∀ s ∈ [m.secret], s ≠ [] := by simpa using hne
  have hsecrets : ∀ s ∈ (before ++ m :: after).map PlainMapping.secret, s ≠ [] := by
    intro s hs
    obtain ⟨mapping, hmapping, rfl⟩ := mem_map.mp hs
    exact hapart.nonempty mapping hmapping
  induction ps with
  | nil => rw [render_nil, scan_nil (alternatives_nil hsingle), render_nil, render_nil]
  | cons p ps ih =>
    have htail := ih ((suffix_cons p ps).trans hscan) fun qs hqs => hquiet qs (hqs.trans (suffix_cons p ps))
    have hhere := hquiet (p :: ps) (suffix_refl _)
    cases p with
    | unit u =>
      have hnone : alternatives [m.secret] (u :: render (replacementOf before) ps) = none := by
        rw [alternatives_eq_none]
        intro s hs hstart
        rw [mem_singleton.mp hs] at hstart
        rw [← render_unit] at hstart
        rcases prefix_source_or_reaches hstart with
          hsource | ⟨qs, secret, rest, heq, hmem, hlen⟩
        · have hunit := eq_none_of_unit_suffix (alternatives_ne_zero hsecrets) (alternatives_nil hsecrets) hscan
          exact alternatives_eq_none.mp hunit m.secret (by simp) hsource
        · cases qs with
          | nil => cases heq
          | cons q qs =>
            obtain ⟨rfl, rfl⟩ := cons_eq_cons.mp heq
            exact hhere (.across hmem hstart hlen)
      rw [render_unit, scan_unit hnone, render_unit, htail, render_unit]
    | hit secret =>
      have hcopy : ∀ a : JsStr,
          (∀ n < a.length, ¬ m.secret <+: (a ++ render (replacementOf before) ps).drop n) →
          render (fun _ => m.replacement) (scan (alternatives [m.secret]) (a ++ render (replacementOf before) ps)) =
          a ++ render (replacementOf (before ++ [m])) ps := by
        intro a ha
        have hnone : ∀ n < a.length,
            alternatives [m.secret] ((a ++ render (replacementOf before) ps).drop n) = none := by
          intro n hn
          rw [alternatives_eq_none]
          exact forall_mem_singleton.mpr (ha n hn)
        rw [scan_append hnone, render_append, render_map_unit, htail]
      have hmem := mem_of_hit_mem_scan (hscan.mem mem_cons_self)
      by_cases hearlier : secret ∈ before.map PlainMapping.secret
      · rw [render_hit, render_hit, replacementOf_append_of_mem hearlier]
        exact hcopy _ fun n hn hoccurs => hhere (.inside hearlier hn hoccurs)
      by_cases hself : secret = m.secret
      · subst hself
        rw [render_hit, render_hit, replacementOf_of_not_mem hearlier,
          replacementOf_self hearlier, scan_literal_append hne, render_hit, htail]
      · have hlater : secret ∉ (before ++ [m]).map PlainMapping.secret := by
          rw [map_append, mem_append, not_or]
          exact ⟨hearlier, by simpa using hself⟩
        rw [render_hit, render_hit, replacementOf_of_not_mem hearlier, replacementOf_of_not_mem hlater]
        refine hcopy _ fun n hn hoccurs => ?_
        cases n with
        | zero =>
          have hother : secret ∈ (before ++ after).map PlainMapping.secret := by
            simpa [hself] using hmem
          obtain ⟨hshort, hlong⟩ := hapart.incomparable hother
          rcases prefix_or_prefix_of_prefix hoccurs (prefix_append secret _) with
            hstart | hstart
          · exact hshort hstart.isInfix
          · exact hlong hstart.isInfix
        | succ n => exact hhere (.overlap hearlier hself (Nat.succ_pos n) hn hoccurs)

end

theorem sequentialPass_eq_singlePass {mappings text} (hapart : Apart mappings) (h : NoInterference mappings text) :
    sequentialPass mappings text = singlePass mappings text := by
  have hstages : ∀ after before, mappings = before ++ after →
      sequentialPass after (render (replacementOf before)
        (scan (alternatives (mappings.map PlainMapping.secret)) text)) = singlePass mappings text := by
    intro after
    induction after with
    | nil =>
      intro before heq
      rw [heq, append_nil]
      rfl
    | cons m after ih =>
      intro before heq
      subst heq
      have hne : m.secret ≠ [] := hapart.nonempty m (by simp)
      have hstage := replaceAll_stage hapart (suffix_refl _) fun qs hqs => h before m after rfl qs hqs
      rw [sequentialPass, foldl_cons, replaceAll_eq hne, hstage]
      exact ih (before ++ [m]) (by rw [append_assoc, singleton_append])
  have hstart := hstages mappings [] rfl
  have hnone : replacementOf [] = id := funext fun secret => rfl
  rwa [hnone, render_id_scan] at hstart

namespace SecretObfuscator

/-- In every state the plain pass is the sequential one, if the guard selects that or the secrets do not
interfere in the text. -/
theorem obfuscatePlainMappings_eq_sequential {rt : Runtime} {entries : List SecretEntry} {key : Key}
    {o : SecretObfuscator} (hreach : Reachable rt (construct rt entries key) o)
    (hplain : ∀ e ∈ entries, e.type = .plain → e.content ≠ []) (text : JsStr)
    (h : needsSequential o.plainMappingList = true ∨ NoInterference o.plainMappingList text) :
    (o.obfuscatePlainMappings text).1 = o.obfuscatePlainMappingsSequential text := by
  rw [obfuscatePlainMappings_eq (coherent_of_reachable hreach), obfuscatePlainMappingsSequential_eq]
  cases hguard : needsSequential o.plainMappingList with
  | true => rfl
  | false =>
    have hquiet := h.resolve_left (by simp [hguard])
    have hapart := apart_of_needsSequential (secret_ne_nil_of_reachable hreach hplain) hguard
    exact (sequentialPass_eq_singlePass hapart hquiet).symm

theorem noInterference_apart : NoInterference [⟨lit "ab", lit "1"⟩, ⟨lit "c", lit "2"⟩] (lit "abc") := by
  intro before m after heq ps hps hinterferes
  have hscan : scan (alternatives [lit "ab", lit "c"]) (lit "abc") = [.hit (lit "ab"), .hit (lit "c")] := by decide
  have hcases : ps = [.hit (lit "ab"), .hit (lit "c")] ∨ ps = [.hit (lit "c")] ∨ ps = [] := by
    simpa [hscan, suffix_cons_iff] using hps
  have hstage : before = [] ∧ m.secret = lit "ab" ∨ before = [⟨lit "ab", lit "1"⟩] ∧ m.secret = lit "c" := by
    rcases before with _ | ⟨first, _ | ⟨second, before⟩⟩
    · exact .inl ⟨rfl, by rw [← (cons.inj heq).1]⟩
    · obtain ⟨rfl, hrest⟩ := cons_eq_cons.mp heq
      exact .inr ⟨rfl, by rw [← (cons.inj hrest).1]⟩
    · simp at heq
  rcases hstage with ⟨rfl, hm⟩ | ⟨rfl, hm⟩ <;> rcases hcases with rfl | rfl | rfl <;> cases hinterferes <;>
    simp_all [replacementOf, lit]

/-- Secrets inside each other take the sequential path, and secrets apart from each other do not interfere. -/
theorem obfuscatePlainMappings_eq_sequential_nested :
    ((construct sampleRuntime [replaceEntry (lit "b") (lit "1"), replaceEntry (lit "abc") (lit "2")]
        sampleKey).obfuscatePlainMappings (lit "abcb")).1 = lit "21" ∧
      ((construct sampleRuntime [replaceEntry (lit "c") (lit "2"), replaceEntry (lit "ab") (lit "1")]
        sampleKey).obfuscatePlainMappings (lit "abc")).1 = lit "12" := by
  have hquiet : NoInterference (construct sampleRuntime [replaceEntry (lit "c") (lit "2"),
      replaceEntry (lit "ab") (lit "1")] sampleKey).plainMappingList (lit "abc") := noInterference_apart
  rw [obfuscatePlainMappings_eq_sequential .start (by decide) _ (.inl (by decide)),
    obfuscatePlainMappings_eq_sequential .start (by decide) _ (.inr hquiet)]
  decide

/-- The combined expression takes the leftmost secret where the passes take the longer one, or the one
configured first. -/
theorem obfuscatePlainMappings_ne_sequential :
    let o := construct sampleRuntime
      [replaceEntry (lit "bc") (lit "1"), replaceEntry (lit "ab") (lit "2")] sampleKey
    (o.obfuscatePlainMappings (lit "abc")).1 ≠ o.obfuscatePlainMappingsSequential (lit "abc") := by
  decide

end SecretObfuscator

end GajaeCode.Secrets
