import GajaeCode.Session.OutputSink

/-! The windows of the output sink over a whole run: the head is a prefix of the output
and the tail a suffix of it as long as no chunk reaches the head after another has gone
past it. -/
namespace GajaeCode.Session
open Text List OutputSink Retention

section

/-- The batches that coalescing hands on, with `buf` already gathered. -/
def batches : JsStr → List JsStr → List JsStr
  | buf, [] => if buf = [] then [] else [buf]
  | buf, chunk :: rest =>
    if coalesceFlushChars ≤ (buf ++ chunk).length then (buf ++ chunk) :: batches [] rest
    else batches (buf ++ chunk) rest

/-- The chunks that a run of pushes and the dump after it ingest. -/
def ingestedChunks (options : OutputSinkOptions) (chunks : List JsStr) : List JsStr :=
  if options.coalesceSanitize = false then chunks else batches [] chunks

variable (options : OutputSinkOptions) (sanitizeOutputChunk : JsStr → JsStr)

def OutputSink.ingestAll (sink : OutputSink) (chunks : List JsStr) : OutputSink :=
  chunks.foldl (fun sink chunk => sink.ingest options sanitizeOutputChunk chunk) sink

theorem flatten_batches (buf : JsStr) (chunks : List JsStr) :
    (batches buf chunks).flatten = buf ++ chunks.flatten := by
  induction chunks generalizing buf with
  | nil =>
    unfold batches
    split
    next h => simp [h]
    next => simp
  | cons chunk rest ih =>
    unfold batches
    split <;> simp [ih]

variable (sink : OutputSink) (chunks : List JsStr)

theorem flatten_ingestedChunks : (ingestedChunks options chunks).flatten = chunks.flatten := by
  unfold ingestedChunks
  split
  next => rfl
  next => simpa using flatten_batches [] chunks

theorem wellFormed_batches {buf chunks} (hbuf : WellFormed buf)
    (h : ∀ chunk ∈ chunks, WellFormed chunk) : ∀ batch ∈ batches buf chunks, WellFormed batch := by
  induction chunks generalizing buf with
  | nil =>
    unfold batches
    split
    next => exact nofun
    next => exact forall_mem_singleton.mpr hbuf
  | cons chunk rest ih =>
    obtain ⟨hchunk, hrest⟩ := forall_mem_cons.mp h
    unfold batches
    split
    next => exact forall_mem_cons.mpr ⟨hbuf.append hchunk, ih rfl hrest⟩
    next => exact ih (hbuf.append hchunk) hrest

theorem wellFormed_ingestedChunks {chunks} (h : ∀ chunk ∈ chunks, WellFormed chunk) :
    ∀ chunk ∈ ingestedChunks options chunks, WellFormed chunk := by
  unfold ingestedChunks
  split
  next => exact h
  next => exact wellFormed_batches rfl h

theorem OutputSink.coalesceBuf_mirror (chunk : JsStr) (bytes : Nat) :
    (sink.mirror options chunk bytes).coalesceBuf = sink.coalesceBuf := by
  unfold mirror
  split <;> rfl

@[simp] theorem OutputSink.coalesceBuf_ingest (chunk : JsStr) :
    (sink.ingest options sanitizeOutputChunk chunk).coalesceBuf = sink.coalesceBuf := by
  unfold ingest
  simp only
  split_ifs <;> simp only [coalesceBuf_mirror]

theorem OutputSink.clear_coalesceBuf {sink : OutputSink} (h : sink.coalesceBuf = []) :
    { sink with coalesceBuf := [] } = sink := by
  rw [← h]

theorem OutputSink.flushCoalesced_of_nil {sink : OutputSink} (h : sink.coalesceBuf = []) :
    sink.flushCoalesced options sanitizeOutputChunk = sink := if_pos h

theorem OutputSink.flushCoalesced_of_ne {sink : OutputSink} (h : sink.coalesceBuf ≠ []) :
    sink.flushCoalesced options sanitizeOutputChunk =
      { sink with coalesceBuf := [] }.ingest options sanitizeOutputChunk sink.coalesceBuf := if_neg h

theorem flush_pushAll_coalesced (h : options.coalesceSanitize = true) :
    (sink.pushAll options sanitizeOutputChunk chunks).flushCoalesced options sanitizeOutputChunk =
      { sink with coalesceBuf := [] }.ingestAll options sanitizeOutputChunk (batches sink.coalesceBuf chunks) := by
  induction chunks generalizing sink with
  | nil =>
    unfold pushAll batches
    rw [foldl_nil]
    by_cases hnil : sink.coalesceBuf = []
    · rw [flushCoalesced_of_nil options sanitizeOutputChunk hnil, if_pos hnil, clear_coalesceBuf hnil]
      rfl
    · rw [flushCoalesced_of_ne options sanitizeOutputChunk hnil, if_neg hnil]
      rfl
  | cons chunk rest ih =>
    have hpush : sink.pushAll options sanitizeOutputChunk (chunk :: rest) =
        (sink.push options sanitizeOutputChunk chunk).pushAll options sanitizeOutputChunk rest := rfl
    have hbatches : batches sink.coalesceBuf (chunk :: rest) =
        if coalesceFlushChars ≤ (sink.coalesceBuf ++ chunk).length then
          (sink.coalesceBuf ++ chunk) :: batches [] rest
        else batches (sink.coalesceBuf ++ chunk) rest := rfl
    rw [hpush, ih, hbatches, push, if_neg (by simp [h])]
    by_cases hlong : coalesceFlushChars ≤ (sink.coalesceBuf ++ chunk).length
    · have hne : sink.coalesceBuf ++ chunk ≠ [] := by
        rw [← length_pos_iff]
        exact Nat.lt_of_lt_of_le (by decide) hlong
      simp only [hlong, if_true]
      rw [flushCoalesced_of_ne options sanitizeOutputChunk (by exact hne),
        clear_coalesceBuf (coalesceBuf_ingest ..), coalesceBuf_ingest]
      rfl
    · simp only [hlong, if_false]

theorem flush_pushAll : (({} : OutputSink).pushAll options sanitizeOutputChunk chunks).flushCoalesced options
        sanitizeOutputChunk =
      ({} : OutputSink).ingestAll options sanitizeOutputChunk (ingestedChunks options chunks) := by
  unfold ingestedChunks
  by_cases h : options.coalesceSanitize = false
  · have hpush : (fun (sink : OutputSink) chunk => sink.push options sanitizeOutputChunk chunk) =
        fun sink chunk => sink.ingest options sanitizeOutputChunk chunk := by
      funext sink chunk
      rw [push, if_pos h]
    have hbuf : (({} : OutputSink).ingestAll options sanitizeOutputChunk chunks).coalesceBuf = [] :=
      foldlRecOn (motive := fun sink : OutputSink => sink.coalesceBuf = []) chunks _ rfl
        fun _ hsink _ _ => (coalesceBuf_ingest ..).trans hsink
    rw [if_pos h, pushAll, hpush]
    exact flushCoalesced_of_nil options sanitizeOutputChunk hbuf
  · rw [if_neg h, flush_pushAll_coalesced options sanitizeOutputChunk {} chunks (by simpa using h)]

end

section

variable {headLimit threshold : Nat} {r : Retention}

theorem eq_nil_of_byteLength {s} (h : byteLength s = 0) : s = [] := by
  have hle := length_le_byteLength s
  exact length_eq_zero_iff.mp (by omega)

/-- Without a column cap an ingested chunk that sanitising leaves alone is retained. -/
theorem retention_ingest (options : OutputSinkOptions) {sanitizeOutputChunk chunk}
    (hcolumns : options.maxColumns = 0) (hsanitize : sanitizeOutputChunk chunk = chunk) (sink : OutputSink) :
    (sink.ingest options sanitizeOutputChunk chunk).retention =
      sink.retention.retain options.headBytes options.spillThreshold chunk := by
  have hmirror : ∀ (s : OutputSink) (c : JsStr) (n : Nat),
      (s.mirror options c n).retention = s.retention := by
    intro s c n
    unfold mirror
    split <;> rfl
  unfold ingest
  simp only [hcolumns, hsanitize, if_true, Nat.lt_irrefl, if_false]
  by_cases hzero : byteLength chunk = 0
  · rw [if_pos hzero, hmirror, eq_nil_of_byteLength hzero]
    simp [retain, byteLength, countNewlines]
  · rw [if_neg hzero]
    simp only [hmirror]

theorem pushTail_frame (r : Retention) (threshold : Nat) (chunk : JsStr) (dataBytes : Nat) :
    (r.pushTail threshold chunk dataBytes).head = r.head ∧
      (r.pushTail threshold chunk dataBytes).headBytes = r.headBytes ∧
      (r.pushTail threshold chunk dataBytes).headRetentionDisabled = r.headRetentionDisabled ∧
      (r.pushTail threshold chunk dataBytes).processedBytes = r.processedBytes := by
  unfold pushTail trimTailTo
  simp only
  split_ifs <;> exact ⟨rfl, rfl, rfl, rfl⟩

/-- The tail after a push is what fits at the end of the old tail and the chunk. -/
theorem pushTail_eq {q} (hbuffer : r.buffer = encodeUtf16 q)
    (hbytes : r.bufferBytes = utf8Sum q) (hq : utf8Sum q ≤ threshold) (d : List Char) :
    let kept := fittingEnd threshold (q ++ d)
    (r.pushTail threshold (encodeUtf16 d) (utf8Sum d)).buffer = encodeUtf16 kept ∧
      (r.pushTail threshold (encodeUtf16 d) (utf8Sum d)).bufferBytes = utf8Sum kept := by
  intro kept
  have hsum := utf8Sum_append q d
  unfold pushTail
  split
  next hzero =>
    obtain rfl : d = [] := utf8Sum_eq_zero.mp hzero
    have hkept : kept = q := by simp only [kept, append_nil, fittingEnd_eq_self hq]
    rw [hkept]
    exact ⟨hbuffer, hbytes⟩
  split
  next hfits =>
    have hkept : kept = q ++ d := fittingEnd_eq_self (by omega)
    rw [hkept, encodeUtf16_append, hsum, ← hbuffer, ← hbytes]
    exact ⟨rfl, rfl⟩
  next hover =>
    split
    next hwide =>
      have hkept : kept = fittingEnd threshold d := by
        apply fittingEnd_append
        intro c _
        have hpos := c.utf8Size_pos
        omega
      rw [hkept, setTail, truncateTailBytes_encodeUtf16]
      exact ⟨rfl, rfl⟩
    next =>
      simp only [trimTailTo, appendTail, hbytes, hbuffer, ← encodeUtf16_append]
      rw [if_neg (by omega), truncateTailBytes_encodeUtf16]
      exact ⟨rfl, rfl⟩

/-- The windows on an output `p ++ m ++ q`: the head `p` and the tail `q`, with `m` elided. -/
structure Windows (headLimit threshold : Nat) (p m q : List Char) (r : Retention) : Prop where
  head : r.head = encodeUtf16 p
  headBytes : r.headBytes = utf8Sum p
  headFits : utf8Sum p ≤ headLimit
  buffer : r.buffer = encodeUtf16 q
  bufferBytes : r.bufferBytes = utf8Sum q
  tailFits : utf8Sum q ≤ threshold
  elided : m ≠ [] → threshold < utf8Sum (p ++ m ++ q)

structure Captured (headLimit threshold : Nat) (S : List Char) (r : Retention) : Prop where
  enabled : r.headRetentionDisabled = false
  processed : r.processedBytes = utf8Sum S
  windows : ∃ p m q, S = p ++ m ++ q ∧ Windows headLimit threshold p m q r
  opens : ∀ c ∈ S.head?, c.utf8Size ≤ headLimit → 0 < r.headBytes

/-- No chunk reaches the head window after output has gone past it: the window is still
open to all output so far, or full, or the chunk begins with a character wider than the
room that is left. -/
def KeepsOrder (headLimit : Nat) (r : Retention) (chunk : JsStr) : Prop :=
  r.processedBytes = r.headBytes ∨ headLimit ≤ r.headBytes ∨
    ∀ c ∈ (decodeUtf16 chunk).head?, headLimit - r.headBytes < c.utf8Size

theorem captured_empty (headLimit threshold : Nat) : Captured headLimit threshold [] {} where
  enabled := rfl
  processed := rfl
  windows := ⟨[], [], [], rfl, rfl, rfl, Nat.zero_le _, rfl, rfl, Nat.zero_le _, by simp⟩
  opens := by simp

theorem Windows.pushTail {p m q} (w : Windows headLimit threshold p m q r) (d : List Char) :
    ∃ m' q', p ++ m ++ q ++ d = p ++ m' ++ q' ∧
      Windows headLimit threshold p m' q' (r.pushTail threshold (encodeUtf16 d) (utf8Sum d)) := by
  obtain ⟨hbuffer, hbytes⟩ := pushTail_eq w.buffer w.bufferBytes w.tailFits d
  obtain ⟨m', hsplit, -⟩ := exists_append_fittingEnd threshold (q ++ d)
  have hfits := utf8Sum_fittingEnd_le threshold (q ++ d)
  have hover : m' ≠ [] → threshold < utf8Sum q + utf8Sum d := by
    intro hne
    by_contra hle
    rw [fittingEnd_eq_self (by rw [utf8Sum_append]; omega)] at hsplit
    exact hne (self_eq_append_left.mp hsplit)
  generalize fittingEnd threshold (q ++ d) = q' at *
  obtain ⟨hhead, hheadBytes, -, -⟩ := pushTail_frame r threshold (encodeUtf16 d) (utf8Sum d)
  have heq : p ++ m ++ q ++ d = p ++ (m ++ m') ++ q' := by
    rw [append_assoc, hsplit]
    simp only [append_assoc]
  refine ⟨m ++ m', q', heq, ?_⟩
  refine ⟨hhead.trans w.head, hheadBytes.trans w.headBytes, w.headFits, hbuffer, hbytes, hfits, ?_⟩
  intro hne
  rw [← heq]
  simp only [utf8Sum_append]
  by_cases hm : m = []
  · have hlt := hover (by simpa [hm] using hne)
    omega
  · have hlt := w.elided hm
    simp only [utf8Sum_append] at hlt
    omega

theorem Windows.count {p m q} (w : Windows headLimit threshold p m q r) (bytes lines : Nat) :
    Windows headLimit threshold p m q { r with processedBytes := bytes, processedLines := lines } :=
  ⟨w.head, w.headBytes, w.headFits, w.buffer, w.bufferBytes, w.tailFits, w.elided⟩

theorem Captured.whole {S} (hcap : Captured headLimit threshold S r)
    (h : r.processedBytes = r.headBytes) : Windows headLimit threshold S [] [] r := by
  obtain ⟨p, m, q, rfl, w⟩ := hcap.windows
  have hsum : utf8Sum m + utf8Sum q = 0 := by
    have hprocessed := hcap.processed
    rw [h, w.headBytes] at hprocessed
    simp only [utf8Sum_append] at hprocessed
    omega
  obtain rfl : m = [] := utf8Sum_eq_zero.mp (by omega)
  obtain rfl : q = [] := utf8Sum_eq_zero.mp (by omega)
  simpa using w

def Retention.IsOpen (r : Retention) (headLimit : Nat) : Prop :=
  0 < headLimit ∧ r.headRetentionDisabled = false ∧ r.headBytes < headLimit

def Retention.count (r : Retention) (d : List Char) : Retention :=
  { r with
    processedBytes := r.processedBytes + utf8Sum d
    processedLines := r.processedLines + countNewlines (encodeUtf16 d) }

/-- What a chunk does: nothing, or its first characters fill the head, or it is all for
the tail. -/
theorem retain_cases (r : Retention) (headLimit threshold : Nat) (d : List Char) :
    (d = [] ∧ r.retain headLimit threshold (encodeUtf16 d) = r.count d) ∨
    (∃ f rest, r.IsOpen headLimit ∧ d = f ++ rest ∧ f ≠ [] ∧ utf8Sum f ≤ headLimit - r.headBytes ∧
      r.retain headLimit threshold (encodeUtf16 d) =
        ((r.count d).appendHead (encodeUtf16 f) (utf8Sum f)).pushTail threshold (encodeUtf16 rest) (utf8Sum rest)) ∨
    (d ≠ [] ∧ (¬ r.IsOpen headLimit ∨ ∀ c ∈ d.head?, headLimit - r.headBytes < c.utf8Size) ∧
      r.retain headLimit threshold (encodeUtf16 d) = (r.count d).pushTail threshold (encodeUtf16 d) (utf8Sum d)) := by
  unfold retain
  simp only [byteLength_encodeUtf16, truncateHeadBytes_encodeUtf16]
  by_cases hd : d = []
  · left
    rw [if_pos (utf8Sum_eq_zero.mpr hd)]
    exact ⟨hd, rfl⟩
  rw [if_neg (by rw [utf8Sum_eq_zero]; exact hd)]
  by_cases hopen : 0 < headLimit ∧ r.headRetentionDisabled = false ∧ r.headBytes < headLimit
  · rw [if_pos hopen]
    by_cases hfits : utf8Sum d ≤ headLimit - r.headBytes
    · rw [if_pos hfits]
      refine .inr (.inl ⟨d, [], hopen, by simp, hd, hfits, ?_⟩)
      rfl
    · rw [if_neg hfits]
      by_cases hslice : fitting (headLimit - r.headBytes) d = []
      · rw [hslice]
        exact .inr (.inr ⟨hd, .inr (fitting_eq_nil_iff.mp hslice), rfl⟩)
      · have hpos := Nat.pos_of_ne_zero (utf8Sum_eq_zero.not.mpr hslice)
        obtain ⟨rest, hrest, -⟩ := exists_fitting_append (headLimit - r.headBytes) d
        have hle := utf8Sum_fitting_le (headLimit - r.headBytes) d
        rw [if_pos hpos]
        generalize fitting (headLimit - r.headBytes) d = f at *
        refine .inr (.inl ⟨f, rest, hopen, hrest, hslice, hle, ?_⟩)
        have hdrop : (encodeUtf16 d).drop (encodeUtf16 f).length = encodeUtf16 rest := by
          rw [hrest, encodeUtf16_append, drop_left]
        have hbytes : utf8Sum d - utf8Sum f = utf8Sum rest := by
          rw [hrest, utf8Sum_append, Nat.add_sub_cancel_left]
        rw [hdrop, hbytes]
        rfl
  · rw [if_neg hopen]
    exact .inr (.inr ⟨hd, .inl hopen, rfl⟩)

theorem Captured.retain {S d} (hcap : Captured headLimit threshold S r)
    (horder : KeepsOrder headLimit r (encodeUtf16 d)) :
    Captured headLimit threshold (S ++ d) (r.retain headLimit threshold (encodeUtf16 d)) := by
  rw [KeepsOrder, decodeUtf16_encodeUtf16] at horder
  have hprocessed : r.processedBytes + utf8Sum d = utf8Sum (S ++ d) := by
    rw [hcap.processed, utf8Sum_append]
  rcases retain_cases r headLimit threshold d with ⟨rfl, heq⟩ |
    ⟨f, rest, hopen, rfl, hf, hfits, heq⟩ | ⟨hd, hclosed, heq⟩
  · rw [heq, append_nil]
    exact ⟨hcap.enabled, by simpa [Retention.count] using hcap.processed,
      hcap.windows.imp fun p => Exists.imp fun m => Exists.imp fun q hw => ⟨hw.1, hw.2.count _ _⟩, hcap.opens⟩
  · -- the head was open to all of the output so far, so it is all of it
    have hfirst : ∃ c, f.head? = some c ∧ c.utf8Size ≤ headLimit - r.headBytes := by
      obtain ⟨c, f, rfl⟩ := exists_cons_of_ne_nil hf
      rw [utf8Sum_cons] at hfits
      exact ⟨c, rfl, by omega⟩
    obtain ⟨c, hc, hcfits⟩ := hfirst
    have hall : r.processedBytes = r.headBytes := by
      rcases horder with hall | hfull | hwide
      · exact hall
      · exact absurd hopen.2.2 (by omega)
      · have hlt := hwide c (by simp [head?_append, hc])
        omega
    have w := hcap.whole hall
    have hsum := Nat.pos_of_ne_zero (utf8Sum_eq_zero.not.mpr hf)
    have wf : Windows headLimit threshold (S ++ f) [] []
        ((r.count (f ++ rest)).appendHead (encodeUtf16 f) (utf8Sum f)) := by
      refine ⟨?_, ?_, ?_, w.buffer, w.bufferBytes, w.tailFits, by simp⟩
      · simp only [Retention.appendHead, Retention.count, w.head, encodeUtf16_append]
      · simp only [Retention.appendHead, Retention.count, w.headBytes, utf8Sum_append]
      · have hlt := hopen.2.2
        rw [w.headBytes] at hfits hlt
        rw [utf8Sum_append]
        omega
    obtain ⟨m', q', hsplit, w'⟩ := wf.pushTail rest
    obtain ⟨-, hheadBytes, henabled, hcounted⟩ := pushTail_frame
      ((r.count (f ++ rest)).appendHead (encodeUtf16 f) (utf8Sum f)) threshold (encodeUtf16 rest)
      (utf8Sum rest)
    rw [← heq] at w' hheadBytes henabled hcounted
    refine ⟨henabled.trans hcap.enabled, hcounted.trans hprocessed, ⟨S ++ f, m', q', ?_, w'⟩, ?_⟩
    · rw [← hsplit]
      simp only [append_nil, append_assoc]
    · intro _ _ _
      rw [hheadBytes]
      simp only [Retention.appendHead, Retention.count]
      omega
  · obtain ⟨p, m, q, hS, w⟩ := hcap.windows
    obtain ⟨m', q', hsplit, w'⟩ := (w.count (r.processedBytes + utf8Sum d)
      (r.processedLines + countNewlines (encodeUtf16 d))).pushTail d
    obtain ⟨-, hheadBytes, henabled, hcounted⟩ := pushTail_frame (r.count d) threshold (encodeUtf16 d) (utf8Sum d)
    rw [← heq] at hheadBytes henabled hcounted
    refine ⟨henabled.trans hcap.enabled, hcounted.trans hprocessed, ⟨p, m', q', ?_, ?_⟩, ?_⟩
    · rw [hS, hsplit]
    · rw [heq]
      exact w'
    · intro c hc hfits
      rw [hheadBytes]
      cases S with
      | cons e S => exact hcap.opens c (by simpa using hc) hfits
      | nil =>
        -- a first character that fits would have opened the head
        exfalso
        have hcd : d.head? = some c := by simpa using hc
        have hzero : r.headBytes = 0 := by
          rw [w.headBytes, (append_eq_nil_iff.mp (append_eq_nil_iff.mp hS.symm).1).1, utf8Sum_nil]
        have hpos := c.utf8Size_pos
        rcases hclosed with hshut | hwide
        · exact hshut ⟨by omega, hcap.enabled, by omega⟩
        · have hlt := hwide c hcd
          omega

def OrderKept (headLimit threshold : Nat) : Retention → List JsStr → Prop
  | _, [] => True
  | r, chunk :: rest =>
    KeepsOrder headLimit r chunk ∧ OrderKept headLimit threshold (r.retain headLimit threshold chunk) rest

theorem Captured.run {S} (hcap : Captured headLimit threshold S r) {chunks}
    (hwell : ∀ chunk ∈ chunks, WellFormed chunk) (horder : OrderKept headLimit threshold r chunks) :
    Captured headLimit threshold (S ++ decodeUtf16 chunks.flatten)
      (chunks.foldl (fun r chunk => r.retain headLimit threshold chunk) r) := by
  induction chunks generalizing S r with
  | nil => simpa [decodeUtf16] using hcap
  | cons chunk rest ih =>
    obtain ⟨d, rfl⟩ := (wellFormed_iff chunk).mp (hwell chunk mem_cons_self)
    have hstep := hcap.retain horder.1
    have hrest := ih hstep (forall_mem_cons.mp hwell).2 horder.2
    rw [flatten_cons, decodeUtf16_encodeUtf16_append, ← append_assoc]
    exact hrest

end

/-- What a dump shows of the output `S`: all of it, a prefix and a suffix around the
marker, or a suffix when there is no head window. -/
def Shows (toLocaleString : Nat → JsStr) (headLimit threshold : Nat) (S body : JsStr)
    (elidedBytes : Option Nat) : Prop :=
  (body = S ∧ elidedBytes = none) ∨
  (∃ P M Q elidedLines, S = P ++ M ++ Q ∧ byteLength P ≤ headLimit ∧ byteLength Q ≤ threshold ∧
    elidedBytes = some (byteLength M) ∧
    body = P ++ headSep P ++ formatMiddleElisionMarker toLocaleString elidedLines (byteLength M) ++
      tailSep Q ++ Q) ∨
  (headLimit = 0 ∧ elidedBytes = none ∧ ∃ M, S = M ++ body ∧ byteLength body ≤ threshold)

section

variable {toLocaleString : Nat → JsStr} {headLimit threshold : Nat} {r : Retention}

theorem shows_composeBody {S} (hcap : Captured headLimit threshold S r)
    (hfirst : headLimit = 0 ∨ utf8Sum S ≤ threshold ∨ ∀ c ∈ S.head?, c.utf8Size ≤ headLimit)
    (sawData : Bool) : Shows toLocaleString headLimit threshold (encodeUtf16 S)
      (composeBody toLocaleString r sawData).body (composeBody toLocaleString r sawData).elidedBytes := by
  obtain ⟨p, m, q, rfl, w⟩ := hcap.windows
  have hprocessed : r.processedBytes = utf8Sum p + utf8Sum m + utf8Sum q := by
    rw [hcap.processed, utf8Sum_append, utf8Sum_append]
  have hencode : encodeUtf16 (p ++ m ++ q) = encodeUtf16 p ++ encodeUtf16 m ++ encodeUtf16 q := by
    rw [encodeUtf16_append, encodeUtf16_append]
  unfold composeBody
  simp only [w.head, w.buffer, byteLength_encodeUtf16, hprocessed]
  split
  next helided =>
    have hbytes : utf8Sum p + utf8Sum m + utf8Sum q - utf8Sum p - utf8Sum q = utf8Sum m := by omega
    refine .inr (.inl ⟨encodeUtf16 p, encodeUtf16 m, encodeUtf16 q, (if sawData then r.processedLines + 1
      else 0) - headLineCount (encodeUtf16 p) - tailLineCount (encodeUtf16 q), hencode, ?_, ?_, ?_, ?_⟩)
    · simpa using w.headFits
    · simpa using w.tailFits
    all_goals rw [byteLength_encodeUtf16, hbytes]
  next hwhole =>
    split
    next hhead =>
      have hm : m = [] := utf8Sum_eq_zero.mp (by omega)
      refine .inl ⟨?_, rfl⟩
      rw [hencode, hm, encodeUtf16_nil, append_nil]
    next hhead =>
      have hp : p = [] := utf8Sum_eq_zero.mp (by omega)
      by_cases hm : m = []
      · refine .inl ⟨?_, rfl⟩
        rw [hencode, hp, hm, encodeUtf16_nil, append_nil, nil_append]
      · have hlimit : headLimit = 0 := by
          rcases hfirst with hzero | hfits | hopens
          · exact hzero
          · exact absurd (w.elided hm) (by omega)
          · obtain ⟨c, m, rfl⟩ := exists_cons_of_ne_nil hm
            have hpos := hcap.opens c (by simp [hp]) (hopens c (by simp [hp]))
            rw [w.headBytes] at hpos
            omega
        refine .inr (.inr ⟨hlimit, rfl, encodeUtf16 m, ?_, by simpa using w.tailFits⟩)
        rw [hencode, hp, encodeUtf16_nil, nil_append]

variable (options : OutputSinkOptions)

theorem retention_publishTerminalArtifact (sink : OutputSink) :
    (sink.publishTerminalArtifact options).retention = sink.retention := by
  unfold publishTerminalArtifact
  split <;> rfl

theorem retention_ingestAll {sanitizeOutputChunk} (hcolumns : options.maxColumns = 0) {chunks}
    (hsanitize : ∀ chunk ∈ chunks, sanitizeOutputChunk chunk = chunk) (sink : OutputSink) :
    (sink.ingestAll options sanitizeOutputChunk chunks).retention =
      chunks.foldl (fun r chunk => r.retain options.headBytes options.spillThreshold chunk) sink.retention := by
  induction chunks generalizing sink with
  | nil => rfl
  | cons chunk rest ih =>
    have hstep := retention_ingest options hcolumns (hsanitize chunk mem_cons_self) sink
    rw [foldl_cons, ← hstep]
    exact ih (forall_mem_cons.mp hsanitize).2 _

end

/-- Captured output is never reordered in a run whose chunks all keep the order, and whose
first character fits the head window if there is one and the output exceeds the tail. -/
theorem dump_shows_output (toLocaleString : Nat → JsStr) (options : OutputSinkOptions)
    (sanitizeOutputChunk : JsStr → JsStr) (chunks : List JsStr) (notice : Option JsStr)
    (hcolumns : options.maxColumns = 0) (hwell : ∀ chunk ∈ chunks, WellFormed chunk)
    (hsanitize : ∀ chunk ∈ ingestedChunks options chunks, sanitizeOutputChunk chunk = chunk)
    (horder : OrderKept options.headBytes options.spillThreshold {} (ingestedChunks options chunks))
    (hfirst : options.headBytes = 0 ∨ byteLength chunks.flatten ≤ options.spillThreshold ∨
      ∀ c ∈ (decodeUtf16 chunks.flatten).head?, c.utf8Size ≤ options.headBytes) :
    let sink := ({} : OutputSink).pushAll options sanitizeOutputChunk chunks
    let summary := (sink.dump toLocaleString options sanitizeOutputChunk notice).2
    ∃ body, summary.output = noticeLine notice ++ body ∧
      Shows toLocaleString options.headBytes options.spillThreshold chunks.flatten body summary.elidedBytes := by
  intro sink summary
  have hflush := flush_pushAll options sanitizeOutputChunk chunks
  have hwells := wellFormed_ingestedChunks options hwell
  have hcap := (captured_empty options.headBytes options.spillThreshold).run hwells horder
  rw [nil_append, flatten_ingestedChunks] at hcap
  have hflat := WellFormed.flatten hwell
  have hretention : ((sink.flushCoalesced options sanitizeOutputChunk).publishTerminalArtifact
      options).retention = (ingestedChunks options chunks).foldl
        (fun r chunk => r.retain options.headBytes options.spillThreshold chunk) {} := by
    rw [retention_publishTerminalArtifact, hflush, retention_ingestAll options hcolumns hsanitize]
  rw [byteLength_eq] at hfirst
  have hshows := @shows_composeBody toLocaleString _ _ _ _ hcap hfirst
    ((sink.flushCoalesced options sanitizeOutputChunk).publishTerminalArtifact options).sawData
  rw [hflat, ← hretention] at hshows
  exact ⟨_, rfl, hshows⟩

theorem dump_shows_three_chunks :
    let options : OutputSinkOptions := { headBytes := 3, spillThreshold := 2 }
    let sink := ({} : OutputSink).pushAll options id [lit "ab", lit "cde", lit "fgh"]
    ∃ body, (sink.dump decimal options id none).2.output = noticeLine none ++ body ∧
      Shows decimal 3 2 (lit "abcdefgh") body (sink.dump decimal options id none).2.elidedBytes := by
  have hfull : KeepsOrder 3 ((({} : Retention).retain 3 2 (lit "ab")).retain 3 2 (lit "cde")) (lit "fgh") :=
    .inr (.inl (by decide))
  have hfirst : (decodeUtf16 (lit "abcdefgh")).head? = some 'a' := by decide
  have hfits : ∀ c ∈ (decodeUtf16 (lit "abcdefgh")).head?, c.utf8Size ≤ 3 := by
    intro c hc
    rw [hfirst] at hc
    cases hc
    decide
  exact dump_shows_output decimal { headBytes := 3, spillThreshold := 2 } id
    [lit "ab", lit "cde", lit "fgh"] none rfl (by decide) (fun _ _ => rfl)
    ⟨.inl rfl, .inl (by decide), hfull, trivial⟩ (.inr (.inr hfits))

/-- A wide character before a narrow one that takes the room it left. -/
theorem dump_reorders_chunks :
    let options : OutputSinkOptions := { headBytes := 1, spillThreshold := 10 }
    let sink := ({} : OutputSink).pushAll options id [lit "é", lit "a"]
    ¬ ∃ body, (sink.dump decimal options id none).2.output = noticeLine none ++ body ∧
      Shows decimal 1 10 (lit "éa") body (sink.dump decimal options id none).2.elidedBytes := by
  intro options sink
  have houtput : (sink.dump decimal options id none).2.output = lit "aé" := by decide +kernel
  have helided : (sink.dump decimal options id none).2.elidedBytes = none := by decide +kernel
  rintro ⟨body, hbody, hshows⟩
  rw [houtput, noticeLine, nil_append] at hbody
  rw [helided, ← hbody] at hshows
  rcases hshows with ⟨hall, -⟩ | ⟨_, _, _, _, -, -, -, hnone, -⟩ | ⟨hzero, -⟩
  · exact absurd hall (by decide)
  · exact absurd hnone (by simp)
  · exact absurd hzero (by decide)

end GajaeCode.Session
