import GajaeCode.Session.Truncation

/-! What the head and the tail scan keep of the lines of a text: as many as fit. -/
namespace GajaeCode.Session
open Text List

section

variable {maxLines maxBytes : Nat}

theorem length_joinLines_append {first last} (hfirst : first ≠ []) (hlast : last ≠ []) :
    (joinLines (first ++ last)).length = (joinLines first).length + 1 + (joinLines last).length := by
  rw [joinLines_append hfirst hlast, length_append, length_cons]
  omega

theorem byteLength_joinLines_append {first last} (hfirst : first ≠ []) (hlast : last ≠ []) :
    byteLength (joinLines (first ++ last)) = byteLength (joinLines first) + 1 + byteLength (joinLines last) := by
  rw [joinLines_append hfirst hlast, byteLength_append_LF]

@[simp] theorem joinLines_singleton (line : JsStr) : joinLines [line] = line := by
  simp [joinLines]

theorem sepBytes_length {lines : List JsStr} (h : lines ≠ []) : sepBytes lines.length = 1 := by
  rw [sepBytes, if_pos (length_pos_iff.mpr h)]

/-- What a scan keeps of the lines from their first on: as many as fit. -/
structure Keeps (maxLines maxBytes : Nat) (lines : List JsStr) (k : Nat) : Prop where
  le_length : k ≤ lines.length
  le_lines : k ≤ maxLines
  le_bytes : byteLength (joinLines (lines.take k)) ≤ maxBytes
  stops : k < lines.length → maxLines ≤ k ∨ maxBytes < byteLength (joinLines (lines.take (k + 1)))

theorem headScan_from {done rest} (hdone : done ≠ [])
    (hlines : done.length ≤ maxLines) (hbytes : byteLength (joinLines done) ≤ maxBytes) :
    ∃ k reason, done.length ≤ k ∧ Keeps maxLines maxBytes (done ++ rest) k ∧
      headScan maxLines maxBytes rest done.length (byteLength (joinLines done)) (joinLines done).length
        ((joinLines done).length + 1) = some ⟨k, byteLength (joinLines ((done ++ rest).take k)),
        (joinLines ((done ++ rest).take k)).length, reason⟩ := by
  induction rest generalizing done with
  | nil =>
    refine ⟨done.length, .lines, le_rfl, ?_, ?_⟩
    · exact ⟨by simp, hlines, by simpa using hbytes, by simp⟩
    · simp [headScan]
  | cons line rest ih =>
    have hnext : byteLength (joinLines (done ++ [line])) =
        byteLength (joinLines done) + 1 + byteLength line := by
      rw [byteLength_joinLines_append hdone (by simp), joinLines_singleton]
    have hunits := length_le_byteLength line
    have hstop : (maxLines ≤ done.length ∨ maxBytes < byteLength (joinLines (done ++ [line]))) →
        Keeps maxLines maxBytes (done ++ line :: rest) done.length := by
      intro h
      refine ⟨by simp, hlines, by simpa using hbytes, fun _ => ?_⟩
      rwa [take_append, take_of_length_le (by omega), Nat.add_sub_cancel_left]
    have htake : (done ++ line :: rest).take done.length = done := by simp
    rw [headScan, sepBytes_length hdone]
    by_cases hroom : done.length < maxLines
    · rw [if_pos hroom]
      by_cases hsep : maxBytes < byteLength (joinLines done) + 1
      · rw [if_pos hsep]
        exact ⟨done.length, .bytes, le_rfl, hstop (.inr (by omega)), by rw [htake]⟩
      · rw [if_neg hsep]
        by_cases hline : maxBytes < byteLength (joinLines (done ++ [line]))
        · have hne : done.length ≠ 0 := by simpa using hdone
          rw [if_pos (by omega), if_neg hne]
          exact ⟨done.length, .bytes, le_rfl, hstop (.inr hline), by rw [htake]⟩
        · rw [if_neg (by omega)]
          obtain ⟨k, reason, hk, hkeeps, hscan⟩ := @ih (done ++ [line]) (by simp) (by simpa using hroom) (by omega)
          rw [append_assoc, singleton_append] at hkeeps hscan
          refine ⟨k, reason, by simp at hk; omega, hkeeps, ?_⟩
          rw [← hscan, length_joinLines_append hdone (by simp), joinLines_singleton, length_append]
          congr 1
          omega
    · rw [if_neg hroom]
      exact ⟨done.length, .lines, le_rfl, hstop (.inl (by omega)), by rw [htake]⟩

theorem headScan_eq {line rest} (hpos : 0 < maxLines) :
    (maxBytes < byteLength line ∧ headScan maxLines maxBytes (line :: rest) 0 0 0 0 = none) ∨
    ∃ k reason, 0 < k ∧ Keeps maxLines maxBytes (line :: rest) k ∧ headScan maxLines maxBytes (line :: rest) 0 0 0 0 =
        some ⟨k, byteLength (joinLines ((line :: rest).take k)),
          (joinLines ((line :: rest).take k)).length, reason⟩ := by
  have hunits := length_le_byteLength line
  have hsep : sepBytes 0 = 0 := rfl
  rw [headScan, if_pos hpos, hsep, if_neg (by omega)]
  by_cases hline : maxBytes < byteLength line
  · left
    rw [if_pos (by omega)]
    exact ⟨hline, rfl⟩
  · right
    rw [if_neg (by omega)]
    obtain ⟨k, reason, hk, hkeeps, hscan⟩ := @headScan_from maxLines maxBytes [line] rest (by simp)
      hpos (by rw [joinLines_singleton]; omega)
    refine ⟨k, reason, by simp at hk; omega, hkeeps, ?_⟩
    simpa using hscan

theorem lastNewline_eq_some {text : JsStr} {i n} (hi : text[i]? = some LF) (hle : i ≤ n)
    (hlast : ∀ j, i < j → j ≤ n → text[j]? ≠ some LF) : lastNewline text n = some i := by
  induction n with
  | zero =>
    obtain rfl : i = 0 := by omega
    rw [lastNewline, if_pos hi]
  | succ n ih =>
    rw [lastNewline]
    rcases Nat.lt_or_eq_of_le hle with hlt | rfl
    · rw [if_neg (hlast _ hlt le_rfl), ih (by omega) fun j hj hjn => hlast j hj (by omega)]
    · rw [if_pos hi]

theorem lastNewline_eq_none {text : JsStr} {n} (h : ∀ j ≤ n, text[j]? ≠ some LF) : lastNewline text n = none := by
  induction n with
  | zero => rw [lastNewline, if_neg (h 0 le_rfl)]
  | succ n ih => rw [lastNewline, if_neg (h _ le_rfl), ih fun j hj => h j (by omega)]

/-- The line that the loop finds before `stop`; `nl` is the line feed in front of it. -/
structure LineAt (content line : JsStr) (nl : Option Nat) (stop : Nat) : Prop where
  newline : lastNewline content (stop - 1) = nl
  text : (content.take stop).drop ((nl.map (· + 1)).getD 0) = line
  length : (nl.map (· + 1)).getD 0 + line.length = stop

section

variable {content line before : JsStr} {rest : List JsStr} {nl : Option Nat} {stop room n b cut cursor : Nat}
  {scan : LineScan}

theorem lineAt_first (hne : line ≠ []) (hfree : LF ∉ line) (post : JsStr) :
    LineAt (line ++ post) line none line.length where
  newline := by
    refine lastNewline_eq_none fun j hj hat => ?_
    have hpos := length_pos_iff.mpr hne
    rw [getElem?_append_left (by omega)] at hat
    exact hfree (mem_of_getElem? hat)
  text := by rw [take_left' rfl]; rfl
  length := Nat.zero_add _

theorem lineAt_next (hfree : LF ∉ line) (before post : JsStr) :
    LineAt (before ++ LF :: line ++ post) line (some before.length) (before ++ LF :: line).length where
  newline := by
    refine lastNewline_eq_some (by simp) (by simp) fun j hj hle hat => ?_
    rw [length_append, length_cons] at hle
    rw [append_cons, append_assoc, getElem?_append_right (by simpa), getElem?_append_left (by simp; omega)] at hat
    exact hfree (mem_of_getElem? hat)
  text := by
    rw [take_left' rfl, append_cons]
    exact drop_left' (by simp)
  length := by
    simp
    omega

/-- One round: the tail scan goes on as the head scan does over the lines from the last one on, with its
places counted from the end. -/
theorem tailScan_succ (hat : LineAt content line nl stop)
    (h : headScan (n + (room + 1)) maxBytes (line :: rest) n b cut cursor = some scan)
    (hnext : headScan (n + (room + 1)) maxBytes rest (n + 1) (b + (sepBytes n + byteLength line))
        (cursor + line.length) (cursor + line.length + 1) = some scan →
      (match nl with
        | none => TailScan.lines ⟨n + 1, b + (sepBytes n + byteLength line), 0, .lines⟩
        | some nl => tailScan content maxBytes room (n + 1) (b + (sepBytes n + byteLength line)) (nl + 1) nl) =
      .lines { scan with index := content.length - scan.index }) :
    tailScan content maxBytes (room + 1) n b (content.length - cut) stop =
      .lines { scan with index := content.length - scan.index } := by
  have hlen := hat.length
  rw [headScan, if_pos (by omega)] at h
  simp only at h
  simp only [tailScan, hat.newline, hat.text, show stop - (nl.map (· + 1)).getD 0 = line.length by omega]
  split_ifs at h with hsep hlong hfirst
  · obtain rfl := Option.some.inj h
    rw [if_pos hsep]
  · obtain rfl := Option.some.inj h
    rw [if_neg hsep]
    split_ifs <;> first | rfl | omega
  · rw [if_neg hsep, if_neg (by omega), if_neg (by omega)]
    cases nl with
    | none => exact hnext h
    | some nl => exact hnext h

/-- The last line alone is too long. -/
theorem tailScan_lastLine (hat : LineAt content line nl stop) (hlong : maxBytes < byteLength line) (start : Nat) :
    ∃ n ≤ line.length - maxBytes, tailScan content maxBytes (room + 1) 0 0 start stop =
      .lastLine (truncateTailBytes (line.drop n) maxBytes) := by
  have hlen := hat.length
  have hwindow : (content.take stop).drop (max ((nl.map (· + 1)).getD 0) (stop - maxBytes)) =
      line.drop (line.length - maxBytes) := by
    rw [← hat.text, drop_drop, hat.text]
    congr 1
    omega
  simp only [tailScan, hat.newline, hat.text, hwindow, show sepBytes 0 = 0 from rfl, Nat.add_zero, Nat.not_lt_zero,
    if_false, if_true, Nat.sub_zero, hlong]
  split_ifs
  · exact ⟨_, le_rfl, rfl⟩
  · exact ⟨0, Nat.zero_le _, rfl⟩

/-- The loop over the text is the head scan over its lines from the last one on, unless everything fits: then
the first line would be read again and again if the text starts with a line feed. -/
theorem tailScan_of_headScan {post} (hcontent : content = joinLines (line :: rest).reverse ++ post)
    (hline : ∀ l ∈ line :: rest, LF ∉ l) (hcursor : (joinLines (line :: rest).reverse).length + cursor = content.length)
    (hbytes : b + sepBytes n + byteLength (joinLines (line :: rest).reverse) = byteLength content)
    (hover : ¬(rest.length + 1 ≤ room ∧ byteLength content ≤ maxBytes))
    (h : headScan (n + room) maxBytes (line :: rest) n b cut cursor = some scan) :
    tailScan content maxBytes room n b (content.length - cut) (joinLines (line :: rest).reverse).length =
      .lines { scan with index := content.length - scan.index } := by
  induction rest generalizing line post room n b cut cursor with
  | nil =>
    rw [reverse_singleton, joinLines_singleton] at hcontent hbytes hcursor ⊢
    cases room with
    | zero =>
      rw [headScan, if_neg (by omega)] at h
      obtain rfl := Option.some.inj h
      rfl
    | succ room =>
      by_cases hempty : line = []
      · -- a line feed at the start would be found again, but there is no room for its byte
        subst hempty
        have hfull : maxBytes < b + sepBytes n := by
          rw [length_nil, show byteLength [] = 0 from rfl] at *
          omega
        rw [headScan, if_pos (by omega), if_pos hfull] at h
        obtain rfl := Option.some.inj h
        rw [tailScan, if_pos hfull]
      · refine tailScan_succ (hcontent ▸ lineAt_first hempty (hline line mem_cons_self) post) h fun h => ?_
        obtain rfl := Option.some.inj h
        rw [show content.length - (cursor + line.length) = 0 by omega]
  | cons next rest ih =>
    have hsplit : joinLines (line :: next :: rest).reverse = joinLines (next :: rest).reverse ++ LF :: line := by
      rw [reverse_cons, joinLines_append (by simp) (by simp), joinLines_singleton]
    rw [hsplit] at hcontent hbytes hcursor ⊢
    cases room with
    | zero =>
      rw [headScan, if_neg (by omega)] at h
      obtain rfl := Option.some.inj h
      rfl
    | succ room =>
      refine tailScan_succ (hcontent ▸ lineAt_next (hline line mem_cons_self) _ post) h fun h => ?_
      rw [byteLength_append_LF] at hbytes
      rw [length_append, length_cons] at hcursor
      rw [length_cons] at hover
      rw [show n + (room + 1) = n + 1 + room by omega] at h
      have hrest := @ih next room (n + 1) _ _ _ (LF :: line ++ post) (by rw [hcontent, append_assoc])
        (fun l hl => hline l (mem_cons_of_mem _ hl)) (by omega)
        (by rw [show sepBytes (n + 1) = 1 from rfl]; omega) (by omega) h
      rwa [show content.length - (cursor + line.length) = (joinLines (next :: rest).reverse).length + 1 by omega] at hrest

end

theorem size_joinLines_reverse (lines : List JsStr) :
    byteLength (joinLines lines.reverse) = byteLength (joinLines lines) ∧
      (joinLines lines.reverse).length = (joinLines lines).length := by
  induction lines with
  | nil => exact ⟨rfl, rfl⟩
  | cons line rest ih =>
    by_cases hrest : rest = []
    · rw [hrest]
      exact ⟨rfl, rfl⟩
    · have hne : rest.reverse ≠ [] := by simpa using hrest
      rw [reverse_cons, byteLength_joinLines_append hne (by simp), length_joinLines_append hne (by simp),
        joinLines_cons hrest, byteLength_append_LF, length_append, length_cons, joinLines_singleton]
      omega

end

variable (lines : List JsStr)

theorem joinLines_take_append {k} (hk : 0 < k) (hlt : k < lines.length) :
    joinLines lines = joinLines (lines.take k) ++ LF :: joinLines (lines.drop k) := by
  have htake : lines.take k ≠ [] := by
    rw [← length_pos_iff, length_take]
    omega
  have hdrop : lines.drop k ≠ [] := by
    rw [← length_pos_iff, length_drop]
    omega
  rw [← joinLines_append htake hdrop, take_append_drop]

theorem drop_joinLines {j} (hlt : j < lines.length) :
    (joinLines lines).drop ((joinLines lines).length - (joinLines (lines.drop j)).length) =
      joinLines (lines.drop j) := by
  have happend : ∃ pre, joinLines lines = pre ++ joinLines (lines.drop j) := by
    rcases Nat.eq_zero_or_pos j with rfl | hj
    · exact ⟨[], rfl⟩
    · refine ⟨joinLines (lines.take j) ++ [LF], ?_⟩
      rw [joinLines_take_append lines hj hlt, append_assoc, singleton_append]
  obtain ⟨pre, hpre⟩ := happend
  rw [hpre, length_append, Nat.add_sub_cancel, drop_left' rfl]

variable (first last : List JsStr)

theorem byteLength_joinLines_le_append : byteLength (joinLines first) ≤ byteLength (joinLines (first ++ last)) := by
  by_cases hfirst : first = []
  · subst hfirst
    exact Nat.zero_le _
  · by_cases hlast : last = []
    · rw [hlast, append_nil]
    · rw [byteLength_joinLines_append hfirst hlast]
      omega

theorem byteLength_joinLines_le_append_right :
    byteLength (joinLines last) ≤ byteLength (joinLines (first ++ last)) := by
  by_cases hlast : last = []
  · subst hlast
    exact Nat.zero_le _
  · by_cases hfirst : first = []
    · rw [hfirst, nil_append]
    · rw [byteLength_joinLines_append hfirst hlast]
      omega

/-- Two windows that meet cover the text, but for one line feed. -/
theorem byteLength_joinLines_le {k j} (hk : 0 < k) (hlt : k < lines.length) (hj : j ≤ k) : byteLength
    (joinLines lines) ≤ byteLength (joinLines (lines.take k)) + 1 + byteLength (joinLines (lines.drop j)) := by
  have hcover : lines.drop j = (lines.drop j).take (k - j) ++ lines.drop k := by
    have happend := take_append_drop (k - j) (lines.drop j)
    rwa [drop_drop, Nat.add_sub_cancel' hj, eq_comm] at happend
  have hle := byteLength_joinLines_le_append_right ((lines.drop j).take (k - j)) (lines.drop k)
  rw [← hcover] at hle
  rw [joinLines_take_append lines hk hlt, byteLength_append_LF]
  omega

section

variable {content : JsStr} {maxLines maxBytes : Nat}

structure HeadKept (content : JsStr) (maxLines maxBytes k : Nat) (result : TruncationResult) : Prop where
  pos : 0 < k
  lt_length : k < (splitLines content).length
  keeps : Keeps maxLines maxBytes (splitLines content) k
  lineCount : outputLineCount result = k
  content_eq : result.content = joinLines ((splitLines content).take k)
  whole : result.firstLineExceedsLimit = false ∧ result.lastLinePartial = false

def wholeLines (content kept : JsStr) (k : Nat) (reason : TruncatedBy) : TruncationResult :=
  { content := kept, truncated := true, truncatedBy := some reason,
    totalLines := countNewlines content + 1, totalBytes := byteLength content,
    outputLines := some k, outputBytes := some (byteLength kept) }

/-- A tail window: a part of a last line over the limit, or whole lines. -/
structure TailKept (content last : JsStr) (maxBytes : Nat) (result : TruncationResult) : Prop where
  le_bytes : byteLength result.content ≤ maxBytes
  lines : (maxBytes < byteLength last ∧ outputLineCount result = 1 ∧ result.lastLinePartial = true) ∨
    (byteLength last ≤ maxBytes ∧ result.lastLinePartial = false ∧
      ∃ k, 0 < k ∧ k ≤ (splitLines content).length ∧ outputLineCount result = k ∧
        result.content = joinLines ((splitLines content).drop ((splitLines content).length - k)))

theorem TailKept.lineCount_ne_zero {last result}
    (h : TailKept content last maxBytes result) : outputLineCount result ≠ 0 := by
  rcases h.lines with ⟨-, hone, -⟩ | ⟨-, -, k, hk, -, hcount, -⟩
  · rw [hone]
    exact one_ne_zero
  · rw [hcount]
    exact hk.ne'

theorem exists_lineAt_last {init last} (hsplit : splitLines content = init ++ [last]) (hne : last ≠ []) :
    ∃ nl, LineAt content last nl content.length := by
  have hfree : LF ∉ last := LF_notMem_of_mem_splitLines (hsplit ▸ mem_concat_self)
  rw [← joinLines_splitLines content, hsplit]
  by_cases hinit : init = []
  · rw [hinit, nil_append, joinLines_singleton]
    exact ⟨none, by simpa using lineAt_first hne hfree []⟩
  · rw [joinLines_append hinit (by simp), joinLines_singleton]
    exact ⟨_, by simpa using lineAt_next hfree (joinLines init) []⟩

theorem Keeps.head_le {line rest k} (h : Keeps maxLines maxBytes (line :: rest) k) (hk : 0 < k) :
    byteLength line ≤ maxBytes := by
  obtain ⟨j, rfl⟩ := Nat.exists_eq_succ_of_ne_zero hk.ne'
  have hle := byteLength_joinLines_le_append [line] (rest.take j)
  rw [joinLines_singleton, singleton_append] at hle
  exact hle.trans h.le_bytes

section

variable (hpos : 0 < maxLines)
  (hover : ¬ (countNewlines content + 1 ≤ maxLines ∧ byteLength content ≤ maxBytes))
include hpos hover

theorem truncateHead_eq :
    let result := truncateHead content { maxLines := some maxLines, maxBytes := some maxBytes }
    ∃ k, k < (splitLines content).length ∧ Keeps maxLines maxBytes (splitLines content) k ∧
      (k = 0 ∧ result = { wholeLines content [] 0 .bytes with firstLineExceedsLimit := true } ∨
        0 < k ∧ ∃ reason, result = wholeLines content (joinLines ((splitLines content).take k)) k reason) := by
  intro result
  let lines := splitLines content
  obtain ⟨line, rest, hsplit⟩ := exists_cons_of_ne_nil (splitLines_ne_nil content)
  rcases @headScan_eq maxLines maxBytes line rest hpos with ⟨hline, hscan⟩ | ⟨k, reason, hk, hkeeps, hscan⟩
  · refine ⟨0, by simp [hsplit], ⟨Nat.zero_le _, Nat.zero_le _, Nat.zero_le _, fun _ => .inr ?_⟩, .inl ⟨rfl, ?_⟩⟩
    · simpa [hsplit] using hline
    · rw [← hsplit] at hscan
      simp only [result, truncateHead, Option.getD_some]
      rw [if_neg hover, hscan]
      rfl
  · rw [← hsplit] at hscan hkeeps
    have hlt : k < lines.length := by
      refine lt_of_le_of_ne hkeeps.le_length ?_
      intro heq
      apply hover
      have htotal : lines.length = countNewlines content + 1 := length_splitLines content
      have hbytes := hkeeps.le_bytes
      have hkl := hkeeps.le_lines
      rw [heq, take_length, joinLines_splitLines] at hbytes
      exact ⟨by omega, hbytes⟩
    have htake : content.take (joinLines (lines.take k)).length = joinLines (lines.take k) := by
      have happend := joinLines_take_append lines hk hlt
      rw [joinLines_splitLines] at happend
      rw [happend, take_left' rfl]
    have hresult : ∃ cause, result = wholeLines content (joinLines (lines.take k)) k cause := by
      simp only [result, truncateHead, Option.getD_some]
      rw [if_neg hover, hscan]
      simp only [htake, lines]
      exact ⟨_, rfl⟩
    obtain ⟨cause, hresult⟩ := hresult
    exact ⟨k, hlt, hkeeps, .inr ⟨hk, cause, hresult⟩⟩

theorem truncateHead_cases :
    let result := truncateHead content { maxLines := some maxLines, maxBytes := some maxBytes }
    (outputLineCount result = 0 ∧ ∀ line ∈ (splitLines content).head?, maxBytes < byteLength line) ∨
    ∃ k, HeadKept content maxLines maxBytes k result := by
  intro result
  obtain ⟨k, hlt, hkeeps, ⟨rfl, heq⟩ | ⟨hk, reason, heq⟩⟩ := truncateHead_eq hpos hover
  · simp only [result, heq]
    refine .inl ⟨rfl, fun line hline => ?_⟩
    have hstop := (hkeeps.stops hlt).resolve_left (Nat.not_le.mpr hpos)
    rwa [take_one, Option.mem_def.mp hline, Option.toList_some, joinLines_singleton] at hstop
  · simp only [result, heq]
    exact .inr ⟨k, hk, hlt, hkeeps, rfl, rfl, rfl, rfl⟩

theorem truncateTail_eq {init last} (hsplit : splitLines content = init ++ [last]) :
    let lines := splitLines content
    let result := truncateTail content { maxLines := some maxLines, maxBytes := some maxBytes }
    (maxBytes < byteLength last ∧ ∃ n ≤ last.length - maxBytes,
      let tail := truncateTailBytes (last.drop n) maxBytes
      result = { wholeLines content tail.text 1 .bytes with
        outputBytes := some tail.bytes, lastLinePartial := true, lastLineExceedsLimit := true }) ∨
    (byteLength last ≤ maxBytes ∧ ∃ k reason, 0 < k ∧ Keeps maxLines maxBytes lines.reverse k ∧
      result = wholeLines content (joinLines (lines.drop (lines.length - k))) k reason) := by
  intro lines result
  have hrev : lines.reverse = last :: init.reverse := by
    rw [show lines = init ++ [last] from hsplit, reverse_append, reverse_singleton, singleton_append]
  have hjoin : joinLines (last :: init.reverse).reverse = content := by
    rw [← hrev, reverse_reverse, joinLines_splitLines]
  have hfree : ∀ l ∈ last :: init.reverse, LF ∉ l :=
    fun l hl => LF_notMem_of_mem_splitLines (mem_reverse.mp (hrev ▸ hl))
  obtain ⟨room, rfl⟩ := Nat.exists_eq_succ_of_ne_zero hpos.ne'
  rcases @headScan_eq (room + 1) maxBytes last init.reverse hpos with
    ⟨hline, -⟩ | ⟨k, reason, hk, hkeeps, hscan⟩
  · left
    have hne : last ≠ [] := by
      rintro rfl
      exact absurd hline (Nat.not_lt_zero _)
    obtain ⟨nl, hat⟩ := exists_lineAt_last hsplit hne
    obtain ⟨n, hn, hscan⟩ := @tailScan_lastLine maxBytes _ _ _ _ room hat hline content.length
    refine ⟨hline, n, hn, ?_⟩
    simp only [result, truncateTail, Option.getD_some]
    rw [if_neg hover, hscan]
    rfl
  · right
    rw [← hrev] at hkeeps
    have hkept : (last :: init.reverse).take k = (lines.drop (lines.length - k)).reverse := hrev ▸ take_reverse
    have hlast : byteLength last ≤ maxBytes := Keeps.head_le (hrev ▸ hkeeps) hk
    have hdrop := drop_joinLines lines (show lines.length - k < lines.length by
      have hlen := hkeeps.le_length
      rw [length_reverse] at hlen
      omega)
    rw [hkept, (size_joinLines_reverse _).1, (size_joinLines_reverse _).2] at hscan
    rw [joinLines_splitLines] at hdrop
    have htotal : init.reverse.length + 1 = countNewlines content + 1 := by
      rw [← length_cons (a := last), ← hrev, length_reverse]
      exact length_splitLines content
    rw [← Nat.zero_add (room + 1)] at hscan
    have htail := tailScan_of_headScan (by rw [hjoin, append_nil]) hfree (by rw [hjoin]; rfl)
      (by rw [hjoin]; exact Nat.zero_add _) (by rwa [htotal]) hscan
    rw [hjoin, Nat.sub_zero] at htail
    simp only [result, truncateTail, Option.getD_some]
    rw [if_neg hover, htail]
    simp only [hdrop]
    exact ⟨hlast, k, _, hk, hkeeps, rfl⟩

theorem truncateTail_kept {init last} (hsplit : splitLines content = init ++ [last]) : TailKept content last maxBytes
      (truncateTail content { maxLines := some maxLines, maxBytes := some maxBytes }) := by
  rcases truncateTail_eq hpos hover hsplit with
    ⟨hline, n, -, heq⟩ | ⟨hline, k, reason, hk, hkeeps, heq⟩
  · obtain ⟨hbytes, hle⟩ := truncateTailBytes_le (last.drop n) maxBytes
    rw [heq]
    exact ⟨hbytes ▸ hle, .inl ⟨hline, rfl, rfl⟩⟩
  · have hbytes := hkeeps.le_bytes
    have hlen := hkeeps.le_length
    rw [take_reverse, (size_joinLines_reverse _).1] at hbytes
    rw [length_reverse] at hlen
    rw [heq]
    exact ⟨hbytes, .inr ⟨hline, rfl, k, hk, hlen, rfl, rfl⟩⟩

end

/-- The result holds `text`, of `k` lines; a count that it leaves out is the total. -/
structure Reports (content text : JsStr) (k : Nat) (result : TruncationResult) : Prop where
  content_eq : result.content = text
  totalLines : result.totalLines = (splitLines content).length
  totalBytes : result.totalBytes = byteLength content
  outputLines : result.outputLines.getD result.totalLines = k
  outputBytes : result.outputBytes.getD result.totalBytes = byteLength text

theorem reports_wholeLines (kept : JsStr) (k : Nat) (reason : TruncatedBy) :
    Reports content kept k (wholeLines content kept k reason) :=
  ⟨rfl, (length_splitLines content).symm, rfl, rfl, rfl⟩

theorem keeps_whole {lines} (hlen : lines.length = (splitLines content).length)
    (hsize : byteLength (joinLines lines) = byteLength content)
    (hfits : countNewlines content + 1 ≤ maxLines ∧ byteLength content ≤ maxBytes) :
    Keeps maxLines maxBytes lines (splitLines content).length ∧ Reports content content (splitLines content).length
        (noTruncResult content (countNewlines content + 1) (byteLength content)) := by
  have htotal := length_splitLines content
  refine ⟨⟨hlen.ge, htotal.trans_le hfits.1, ?_, fun h => absurd h (hlen ▸ lt_irrefl _)⟩, ?_⟩
  · rw [← hlen, take_length, hsize]
    exact hfits.2
  · exact ⟨rfl, htotal.symm, rfl, htotal.symm, rfl⟩

theorem truncateHead_keeps (hpos : 0 < maxLines) :
    let result := truncateHead content { maxLines := some maxLines, maxBytes := some maxBytes }
    ∃ k, Keeps maxLines maxBytes (splitLines content) k ∧
      Reports content (joinLines ((splitLines content).take k)) k result ∧
      (result.firstLineExceedsLimit = true ↔ k = 0) := by
  intro result
  by_cases hfits : countNewlines content + 1 ≤ maxLines ∧ byteLength content ≤ maxBytes
  · obtain ⟨hkeeps, hreports⟩ := keeps_whole rfl (by rw [joinLines_splitLines]) hfits
    rw [show result = noTruncResult content _ _ from if_pos hfits]
    refine ⟨_, hkeeps, by rwa [take_length, joinLines_splitLines], ?_⟩
    simp [noTruncResult, splitLines_ne_nil]
  · obtain ⟨k, -, hkeeps, ⟨rfl, heq⟩ | ⟨hk, reason, heq⟩⟩ := @truncateHead_eq content maxLines maxBytes hpos hfits
    · rw [show result = _ from heq]
      exact ⟨0, hkeeps, ⟨rfl, (length_splitLines content).symm, rfl, rfl, rfl⟩, by simp⟩
    · rw [show result = _ from heq]
      exact ⟨k, hkeeps, reports_wholeLines _ k reason, by simp [wholeLines, hk.ne']⟩

theorem truncateTail_keeps (hpos : 0 < maxLines) {init last} (hsplit : splitLines content = init ++ [last])
    (hwell : WellFormed last) :
    let lines := splitLines content
    let result := truncateTail content { maxLines := some maxLines, maxBytes := some maxBytes }
    if byteLength last ≤ maxBytes then ∃ k, Keeps maxLines maxBytes lines.reverse k ∧
      Reports content (joinLines (lines.drop (lines.length - k))) k result
    else Reports content (encodeUtf16 (fittingEnd maxBytes (decodeUtf16 last))) 1 result := by
  intro lines result
  by_cases hfits : countNewlines content + 1 ≤ maxLines ∧ byteLength content ≤ maxBytes
  · have hle := byteLength_joinLines_le_append_right init [last]
    rw [← hsplit, joinLines_splitLines, joinLines_singleton] at hle
    obtain ⟨hkeeps, hreports⟩ := @keeps_whole content maxLines maxBytes lines.reverse length_reverse
      (by rw [(size_joinLines_reverse lines).1, joinLines_splitLines]) hfits
    rw [if_pos (hle.trans hfits.2), show result = noTruncResult content _ _ from if_pos hfits]
    exact ⟨_, hkeeps, by rwa [Nat.sub_self, drop_zero, joinLines_splitLines]⟩
  rcases truncateTail_eq hpos hfits hsplit with ⟨hline, n, hn, heq⟩ | ⟨hline, k, reason, hk, hkeeps, heq⟩
  · have htail := @truncateTailBytes_drop (decodeUtf16 last) n maxBytes (by rwa [hwell])
    rw [hwell] at htail
    rw [if_neg (Nat.not_le.mpr hline), show result = _ from heq, htail]
    refine ⟨rfl, (length_splitLines content).symm, rfl, rfl, ?_⟩
    rw [byteLength_encodeUtf16]
    rfl
  · rw [if_pos hline, show result = _ from heq]
    exact ⟨k, hkeeps, reports_wholeLines _ k reason⟩

theorem wellFormed_of_append_LF {s t} (h : WellFormed (s ++ LF :: t)) : WellFormed t := by
  obtain ⟨cs, hcs⟩ := (wellFormed_iff _).mp h
  obtain ⟨a, b, rfl, hcut⟩ := cut_encodeUtf16 cs s.length
  rw [← hcs, drop_left] at hcut
  rcases hcut with ⟨-, heq⟩ | ⟨c, rest, -, -, -, heq⟩
  · cases b with
    | nil => cases heq
    | cons d b =>
      rw [encodeUtf16_cons] at heq
      rcases encodeChar16_cases d with ⟨u, hu⟩ | ⟨hu, -⟩
      · rw [hu] at heq
        exact (wellFormed_iff t).mpr ⟨b, (cons.inj heq).2⟩
      · rw [hu] at heq
        have hhigh := isHighSurrogate_highUnit d
        rw [← (cons.inj heq).1] at hhigh
        exact absurd hhigh (by decide)
  · have hlow := isLowSurrogate_lowUnit c
    rw [← (cons.inj heq).1] at hlow
    exact absurd hlow (by decide)

/-- Both truncations keep as many whole lines as fit, from the first or from the last on, and of a last
line that alone is too long its longest end. -/
theorem truncateHead_truncateTail_keep (hwell : WellFormed content) (hlines : 1 ≤ maxLines) :
    let head := truncateHead content { maxLines := some maxLines, maxBytes := some maxBytes }
    let tail := truncateTail content { maxLines := some maxLines, maxBytes := some maxBytes }
    let lines := splitLines content
    let last := lines.getLastD []
    (∃ k, Keeps maxLines maxBytes lines k ∧ Reports content (joinLines (lines.take k)) k head ∧
      (head.firstLineExceedsLimit = true ↔ k = 0)) ∧
    if byteLength last ≤ maxBytes then ∃ k, Keeps maxLines maxBytes lines.reverse k ∧
      Reports content (joinLines (lines.drop (lines.length - k))) k tail
    else ∃ kept, IsLongestEnd maxBytes (decodeUtf16 last) kept ∧ Reports content (encodeUtf16 kept) 1 tail := by
  intro head tail lines last
  obtain ⟨init, line, hsplit⟩ := exists_splitLines_concat content
  have hlast : last = line := by simp [last, lines, hsplit]
  have hline : WellFormed line := by
    rw [← joinLines_splitLines content, hsplit] at hwell
    by_cases hinit : init = []
    · rwa [hinit, nil_append, joinLines_singleton] at hwell
    · rw [joinLines_append hinit (by simp), joinLines_singleton] at hwell
      exact wellFormed_of_append_LF hwell
  refine ⟨truncateHead_keeps hlines, ?_⟩
  have htail := @truncateTail_keeps content maxLines maxBytes hlines init line hsplit hline
  rw [hlast]
  split
  next hle => rwa [if_pos hle] at htail
  next hle =>
    rw [if_neg hle] at htail
    exact ⟨_, isLongestEnd_fittingEnd maxBytes _, htail⟩

theorem truncateHead_truncateTail_keep_second :
    (∃ k, Keeps 2 2 [lit "a", lit "é"] k ∧ Reports (lit "a\né") (joinLines ([lit "a", lit "é"].take k)) k
        (truncateHead (lit "a\né") { maxLines := some 2, maxBytes := some 2 }) ∧
      ((truncateHead (lit "a\né") { maxLines := some 2, maxBytes := some 2 }).firstLineExceedsLimit = true ↔ k = 0)) ∧
    ∃ k, Keeps 2 2 [lit "é", lit "a"] k ∧ Reports (lit "a\né") (joinLines ([lit "a", lit "é"].drop (2 - k))) k
      (truncateTail (lit "a\né") { maxLines := some 2, maxBytes := some 2 }) :=
  @truncateHead_truncateTail_keep (lit "a\né") 2 2 (by decide) (by decide)

end

end GajaeCode.Session
