import GajaeCode.Session.OutputWindows

/-! The raw copy for the terminal publisher over a whole run: it is a prefix of the raw
output exactly as long as no chunk finds room after bytes have been omitted. -/
namespace GajaeCode.Session
open Text List TerminalArtifact

def TerminalArtifact.content (a : TerminalArtifact) : JsStr :=
  (a.pendingArtifactContent.getD []).flatten

structure TerminalArtifact.Active (a : TerminalArtifact) : Prop where
  notFailed : a.artifactFinalizationFailed = false
  notFinalized : a.finalized = false

section

variable {a : TerminalArtifact} {maxBytes : Nat} {d : List Char}

theorem flatten_compactPending (pending : List JsStr) : (compactPending pending).flatten = pending.flatten := by
  unfold compactPending
  split
  next => simp
  next => rfl

theorem capArtifactChunk_eq (a : TerminalArtifact) (maxBytes : Nat) (d : List Char) :
    let f := fitting (maxBytes - a.artifactBytes) d
    a.capArtifactChunk maxBytes (encodeUtf16 d) (utf8Sum d) =
      ({ a with artifactTruncatedBytes := a.artifactTruncatedBytes + (utf8Sum d - utf8Sum f) },
        if f = [] then none else some ⟨encodeUtf16 f, utf8Sum f⟩) := by
  intro f
  unfold capArtifactChunk
  by_cases hd : d = []
  · have hf : f = [] := by simp [f, hd, fitting]
    rw [hf, hd]
    rfl
  rw [if_neg (by rw [utf8Sum_eq_zero]; exact hd)]
  by_cases hfull : maxBytes ≤ a.artifactBytes
  · have hf : f = [] := by
      simp only [f, Nat.sub_eq_zero_of_le hfull]
      exact fitting_zero d
    rw [if_pos hfull, hf]
    rfl
  rw [if_neg hfull]
  by_cases hfits : utf8Sum d ≤ maxBytes - a.artifactBytes
  · have hf : f = d := fitting_eq_self hfits
    simp only [hfits, if_true]
    rw [hf, if_neg hd, Nat.sub_self]
    rfl
  · simp only [hfits, if_false, truncateHeadBytes_encodeUtf16]
    by_cases hf : f = []
    · rw [if_pos hf, if_neg (by rw [show fitting (maxBytes - a.artifactBytes) d = [] from hf]; simp)]
    · have hpos : 0 < utf8Sum f := by
        rw [Nat.pos_iff_ne_zero, Ne, utf8Sum_eq_zero]
        exact hf
      rw [if_neg hf, if_pos hpos]

theorem enqueue_eq (hactive : a.Active) (maxBytes : Nat) (d : List Char) :
    let f := fitting (maxBytes - a.artifactBytes) d
    let a' := a.enqueueTerminalArtifactChunk maxBytes (encodeUtf16 d) (utf8Sum d)
    a'.content = a.content ++ encodeUtf16 f ∧ a'.artifactBytes = a.artifactBytes + utf8Sum f ∧
      a'.artifactTruncatedBytes = a.artifactTruncatedBytes + (utf8Sum d - utf8Sum f) ∧ a'.Active := by
  intro f a'
  have hcap : a.capArtifactChunk maxBytes (encodeUtf16 d) (utf8Sum d) =
      ({ a with artifactTruncatedBytes := a.artifactTruncatedBytes + (utf8Sum d - utf8Sum f) },
        if f = [] then none else some ⟨encodeUtf16 f, utf8Sum f⟩) := capArtifactChunk_eq a maxBytes d
  have hrun : ¬ (a.artifactFinalizationFailed || a.finalized) = true := by
    rw [hactive.notFailed, hactive.notFinalized]
    exact Bool.false_ne_true
  unfold a' enqueueTerminalArtifactChunk
  rw [if_neg hrun, hcap]
  by_cases hf : f = []
  · rw [hf]
    refine ⟨?_, rfl, rfl, hactive.notFailed, hactive.notFinalized⟩
    rw [encodeUtf16_nil, append_nil]
    rfl
  · rw [if_neg hf]
    refine ⟨?_, rfl, rfl, hactive.notFailed, hactive.notFinalized⟩
    simp only [content, Option.getD_some, flatten_compactPending, flatten_append, flatten_singleton]

end

section

variable {maxBytes : Nat} {S : List Char} {a : TerminalArtifact}

/-- The content is the prefix `p` of the output, and the next character does not fit. -/
structure Mirrored (maxBytes : Nat) (S : List Char) (a : TerminalArtifact) : Prop where
  active : a.Active
  parts : ∃ p m, S = p ++ m ∧ a.content = encodeUtf16 p ∧ a.artifactBytes = utf8Sum p ∧
    utf8Sum p ≤ maxBytes ∧ a.artifactTruncatedBytes = utf8Sum m ∧
    ∀ w ∈ m.head?, maxBytes < utf8Sum p + w.utf8Size

/-- The content and the output part at a character. -/
structure Diverged (S : List Char) (a : TerminalArtifact) : Prop where
  active : a.Active
  parts : ∃ p c w rest more, c ≠ w ∧ a.content = encodeUtf16 (p ++ c :: rest) ∧ S = p ++ w :: more

/-- No chunk finds room after bytes have been omitted: none have been, or the cap is
reached, or the chunk begins with a character wider than the room that is left. -/
def KeepsPrefix (maxBytes : Nat) (a : TerminalArtifact) (chunk : JsStr) : Prop :=
  a.artifactTruncatedBytes = 0 ∨ maxBytes ≤ a.artifactBytes ∨
    ∀ c ∈ (decodeUtf16 chunk).head?, maxBytes - a.artifactBytes < c.utf8Size

theorem mirrored_empty (maxBytes : Nat) : Mirrored maxBytes [] {} where
  active := ⟨rfl, rfl⟩
  parts := ⟨[], [], rfl, rfl, rfl, Nat.zero_le _, rfl, by simp⟩

theorem Mirrored.enqueue {d} (h : Mirrored maxBytes S a) (hkeeps : KeepsPrefix maxBytes a (encodeUtf16 d)) :
    Mirrored maxBytes (S ++ d) (a.enqueueTerminalArtifactChunk maxBytes (encodeUtf16 d) (utf8Sum d)) := by
  rw [KeepsPrefix, decodeUtf16_encodeUtf16] at hkeeps
  obtain ⟨p, m, rfl, hcontent, hbytes, hcap, homitted, hnext⟩ := h.parts
  obtain ⟨hcontent', hbytes', homitted', hactive'⟩ := enqueue_eq h.active maxBytes d
  obtain ⟨rest, hrest, hwide⟩ := exists_fitting_append (maxBytes - a.artifactBytes) d
  have hfits := utf8Sum_fitting_le (maxBytes - a.artifactBytes) d
  by_cases hf : fitting (maxBytes - a.artifactBytes) d = []
  · rw [hf, encodeUtf16_nil, append_nil] at hcontent'
    rw [hf, utf8Sum_nil] at hbytes' homitted'
    refine ⟨hactive', p, m ++ d, append_assoc .., hcontent'.trans hcontent, hbytes'.trans hbytes, hcap, ?_, ?_⟩
    · rw [homitted', homitted, utf8Sum_append, Nat.sub_zero]
    · intro w hw
      cases m with
      | cons e m => exact hnext w (by simpa using hw)
      | nil =>
        have hlt := fitting_eq_nil_iff.mp hf w hw
        omega
  · have hnone : a.artifactTruncatedBytes = 0 := by
      rcases hkeeps with hnone | hfull | hnarrow
      · exact hnone
      · rw [Nat.sub_eq_zero_of_le hfull] at hf
        exact absurd (fitting_zero d) hf
      · exact absurd (fitting_eq_nil_iff.mpr hnarrow) hf
    obtain rfl : m = [] := utf8Sum_eq_zero.mp (homitted.symm.trans hnone)
    generalize fitting (maxBytes - a.artifactBytes) d = f at *
    refine ⟨hactive', p ++ f, rest, ?_, ?_, ?_, ?_, ?_, ?_⟩
    · rw [append_nil, hrest, append_assoc]
    · rw [hcontent', hcontent, encodeUtf16_append]
    · rw [hbytes', hbytes, utf8Sum_append]
    · rw [utf8Sum_append]
      omega
    · rw [homitted', hrest, utf8Sum_append]
      omega
    · intro w hw
      have hlt := hwide w hw
      rw [utf8Sum_append]
      omega

/-- Room found after an omission parts the content from the output. -/
theorem Mirrored.diverge {d} (h : Mirrored maxBytes S a) (hkeeps : ¬ KeepsPrefix maxBytes a (encodeUtf16 d)) :
    Diverged (S ++ d) (a.enqueueTerminalArtifactChunk maxBytes (encodeUtf16 d) (utf8Sum d)) := by
  simp only [KeepsPrefix, decodeUtf16_encodeUtf16, not_or] at hkeeps
  obtain ⟨hsome, -, hroom⟩ := hkeeps
  obtain ⟨p, m, rfl, hcontent, hbytes, hcap, homitted, hnext⟩ := h.parts
  obtain ⟨hcontent', -, -, hactive'⟩ := enqueue_eq h.active maxBytes d
  have hfits := utf8Sum_fitting_le (maxBytes - a.artifactBytes) d
  have hf : fitting (maxBytes - a.artifactBytes) d ≠ [] := by
    intro hnil
    exact hroom (fitting_eq_nil_iff.mp hnil)
  have hm : m ≠ [] := by
    rintro rfl
    exact hsome homitted
  obtain ⟨w, m, rfl⟩ := exists_cons_of_ne_nil hm
  obtain ⟨c, f, hcf⟩ := exists_cons_of_ne_nil hf
  rw [hcf] at hcontent' hfits
  refine ⟨hactive', p, c, w, f, m ++ d, ?_, ?_, by simp⟩
  · rintro rfl
    have hlt := hnext c (by simp)
    rw [utf8Sum_cons] at hfits
    omega
  · rw [hcontent', hcontent, encodeUtf16_append]

theorem Diverged.enqueue (h : Diverged S a) (maxBytes : Nat) (d : List Char) :
    Diverged (S ++ d) (a.enqueueTerminalArtifactChunk maxBytes (encodeUtf16 d) (utf8Sum d)) := by
  obtain ⟨p, c, w, rest, more, hne, hcontent, rfl⟩ := h.parts
  obtain ⟨hcontent', -, -, hactive'⟩ := enqueue_eq h.active maxBytes d
  refine ⟨hactive', p, c, w, rest ++ fitting (maxBytes - a.artifactBytes) d, more ++ d, hne, ?_, by simp⟩
  rw [hcontent', hcontent, ← encodeUtf16_append, append_assoc, cons_append]

def mirrorAll (maxBytes : Nat) (a : TerminalArtifact) (chunks : List JsStr) : TerminalArtifact :=
  chunks.foldl (fun a chunk => a.enqueueTerminalArtifactChunk maxBytes chunk (byteLength chunk)) a

def PrefixKept (maxBytes : Nat) : TerminalArtifact → List JsStr → Prop
  | _, [] => True
  | a, chunk :: rest => KeepsPrefix maxBytes a chunk ∧
      PrefixKept maxBytes (a.enqueueTerminalArtifactChunk maxBytes chunk (byteLength chunk)) rest

theorem Diverged.run (h : Diverged S a) (maxBytes : Nat) {chunks} (hwell : ∀ chunk ∈ chunks, WellFormed chunk) :
    Diverged (S ++ decodeUtf16 chunks.flatten) (mirrorAll maxBytes a chunks) := by
  induction chunks generalizing S a with
  | nil => simpa [decodeUtf16, mirrorAll] using h
  | cons chunk rest ih =>
    obtain ⟨d, rfl⟩ := (wellFormed_iff chunk).mp (hwell chunk mem_cons_self)
    have hstep := ih (h.enqueue maxBytes d) (forall_mem_cons.mp hwell).2
    rw [flatten_cons, decodeUtf16_encodeUtf16_append]
    simpa [mirrorAll] using hstep

/-- A run mirrors the output while every chunk keeps the prefix, and parts from it at the
first that does not. -/
theorem Mirrored.run (h : Mirrored maxBytes S a) {chunks} (hwell : ∀ chunk ∈ chunks, WellFormed chunk) :
    let stream := S ++ decodeUtf16 chunks.flatten
    let after := mirrorAll maxBytes a chunks
    PrefixKept maxBytes a chunks ∧ Mirrored maxBytes stream after ∨
      ¬ PrefixKept maxBytes a chunks ∧ Diverged stream after := by
  induction chunks generalizing S a with
  | nil => exact .inl ⟨trivial, by simpa [decodeUtf16, mirrorAll] using h⟩
  | cons chunk rest ih =>
    obtain ⟨d, rfl⟩ := (wellFormed_iff chunk).mp (hwell chunk mem_cons_self)
    have hrest : ∀ c ∈ rest, WellFormed c := (forall_mem_cons.mp hwell).2
    have hunfold : mirrorAll maxBytes a (encodeUtf16 d :: rest) =
        mirrorAll maxBytes (a.enqueueTerminalArtifactChunk maxBytes (encodeUtf16 d) (utf8Sum d)) rest := by
      simp [mirrorAll]
    rw [flatten_cons, decodeUtf16_encodeUtf16_append, ← append_assoc, hunfold]
    simp only [PrefixKept, byteLength_encodeUtf16]
    by_cases hkeeps : KeepsPrefix maxBytes a (encodeUtf16 d)
    · simp only [hkeeps, true_and]
      exact ih (h.enqueue hkeeps) hrest
    · exact .inr ⟨fun hkept => hkeeps hkept.1, (h.diverge hkeeps).run maxBytes hrest⟩

end

section

variable {options : OutputSinkOptions} {sanitizeOutputChunk : JsStr → JsStr}

theorem artifact_ingest (hpublisher : options.artifactPublisher.isSome = true) (sink : OutputSink)
    (chunk : JsStr) : (sink.ingest options sanitizeOutputChunk chunk).artifact =
      sink.artifact.enqueueTerminalArtifactChunk options.artifactMaxBytes chunk (byteLength chunk) := by
  have hmirror : ∀ (s : OutputSink) (c : JsStr) (n : Nat), (s.mirror options c n).artifact =
      s.artifact.enqueueTerminalArtifactChunk options.artifactMaxBytes c n := by
    intro s c n
    rw [OutputSink.mirror, if_pos hpublisher]
  unfold OutputSink.ingest
  by_cases hcolumns : options.maxColumns = 0
  · simp only [hcolumns, if_true, Nat.lt_irrefl, if_false]
    split <;> exact hmirror ..
  · have hpos : 0 < options.maxColumns := Nat.pos_of_ne_zero hcolumns
    simp only [hcolumns, hpos, if_true, if_false]
    split
    next hzero =>
      rw [hzero, enqueueTerminalArtifactChunk, capArtifactChunk]
      simp
    next => exact hmirror ..

theorem artifact_ingestAll (hpublisher : options.artifactPublisher.isSome = true) (sink : OutputSink)
    (chunks : List JsStr) : (sink.ingestAll options sanitizeOutputChunk chunks).artifact =
      mirrorAll options.artifactMaxBytes sink.artifact chunks :=
  (foldl_hom OutputSink.artifact fun sink chunk => (artifact_ingest hpublisher sink chunk).symm).symm

theorem publication_eq {sink : OutputSink} {content info} (h : sink.publication options = some (content, info)) :
    options.artifactPublisher.isSome = true ∧ content = sink.artifact.content ∧
      info.omittedBytes = sink.artifact.artifactTruncatedBytes := by
  unfold OutputSink.publication at h
  split at h
  next => cases h
  next hpublish =>
    have hsome : options.artifactPublisher.isSome = true := by
      simp only [Bool.or_eq_true, Bool.not_eq_true', not_or, OutputSink.shouldPublishTerminalArtifact,
        Bool.and_eq_false_iff, Bool.not_eq_false] at hpublish
      exact hpublish.1.2.1
    obtain ⟨rfl, rfl⟩ := Prod.mk.inj (Option.some.inj h)
    exact ⟨hsome, rfl, rfl⟩

end

/-- What a dump hands to the publisher is a prefix of the raw output with the rest
counted exactly when every chunk of the run keeps the prefix. -/
theorem publication_is_raw_start_iff (options : OutputSinkOptions)
    (sanitizeOutputChunk : JsStr → JsStr) (chunks : List JsStr)
    (hwell : ∀ chunk ∈ chunks, WellFormed chunk) {content : JsStr} {info : ArtifactInfo}
    (hpublication : ((({} : OutputSink).pushAll options sanitizeOutputChunk chunks).flushCoalesced options
      sanitizeOutputChunk).publication options = some (content, info)) :
    (∃ rest, chunks.flatten = content ++ rest ∧ byteLength content ≤ options.artifactMaxBytes ∧
      info.omittedBytes = byteLength rest) ↔
    PrefixKept options.artifactMaxBytes {} (ingestedChunks options chunks) := by
  obtain ⟨hpublisher, hcontent, homitted⟩ := publication_eq hpublication
  rw [flush_pushAll, artifact_ingestAll hpublisher] at hcontent homitted
  have hruns := (mirrored_empty options.artifactMaxBytes).run (wellFormed_ingestedChunks options hwell)
  simp only [nil_append, flatten_ingestedChunks] at hruns
  rcases hruns with ⟨hkept, hmirrored⟩ | ⟨hkept, hdiverged⟩
  · obtain ⟨p, m, hsplit, hartifact, hbytes, hcap, hcount, -⟩ := hmirrored.parts
    refine iff_of_true ⟨encodeUtf16 m, ?_, ?_, ?_⟩ hkept
    · rw [hcontent, hartifact, ← encodeUtf16_append, ← hsplit, WellFormed.flatten hwell]
    · rw [hcontent, hartifact, byteLength_encodeUtf16]
      exact hcap
    · rw [homitted, hcount, byteLength_encodeUtf16]
  · refine iff_of_false ?_ hkept
    rintro ⟨rest, hraw, -, -⟩
    obtain ⟨p, c, w, more, tail, hne, hartifact, hsplit⟩ := hdiverged.parts
    rw [hraw, hcontent, hartifact, decodeUtf16_encodeUtf16_append, append_assoc, cons_append] at hsplit
    exact hne (List.cons.inj (append_cancel_left hsplit)).1

def publishingSink (artifactMaxBytes : Nat) : OutputSinkOptions :=
  { artifactMaxBytes, artifactPublisher := some fun _ _ => .published (lit "0") none }

theorem publication_of_two_chunks : ∃ rest, lit "abcde" = lit "abc" ++ rest ∧
    byteLength (lit "abc") ≤ 3 ∧ 2 = byteLength rest :=
  (@publication_is_raw_start_iff (publishingSink 3) id [lit "ab", lit "cde"] (by decide)
    (lit "abc") ⟨5, 2⟩ (by decide +kernel)).mpr ⟨.inl rfl, .inl rfl, trivial⟩

/-- A narrow character takes the room that a wide one left. -/
theorem publication_skips_a_character :
    ((({} : OutputSink).pushAll (publishingSink 1) id [lit "é", lit "a"]).flushCoalesced
      (publishingSink 1) id).publication (publishingSink 1) = some (lit "a", ⟨3, 2⟩) ∧
    ¬ ∃ rest, [lit "é", lit "a"].flatten = lit "a" ++ rest := by
  refine ⟨by decide +kernel, ?_⟩
  rintro ⟨rest, hrest⟩
  have hhead := congrArg List.head? hrest
  rw [show (lit "a" ++ rest).head? = some 0x61 from rfl] at hhead
  exact absurd hhead (by decide)

end GajaeCode.Session
