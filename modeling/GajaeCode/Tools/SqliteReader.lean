import GajaeCode.Sqlite.Tokenizer

/-! The `where=` filter of the structured SQLite reads, against SQLite's own reading of it. -/
namespace GajaeCode.Tools

open Text Sqlite List

def forbiddenWhereKeywords : List JsStr :=
  [lit "limit", lit "offset", lit "union", lit "intersect", lit "except", lit "attach", lit "detach", lit "pragma"]

def commentOrTerminatorError : JsStr :=
  lit "SQLite 'where' clause must not contain comments or statement terminators; use '?q=SELECT ...' for raw SQL"

def forbiddenKeywordError : JsStr :=
  lit "SQLite 'where' clause must not contain LIMIT/OFFSET/UNION/INTERSECT/EXCEPT/ATTACH/DETACH/PRAGMA; use '?q=SELECT ...' for raw SQL"

inductive ScanMode where
  /-- `token` is the text from `tokenStart`, empty when there is none. -/
  | code (token : JsStr)
  | quote (mark : UInt16)
  /-- The second of two marks is skipped. -/
  | doubled (mark : UInt16)

def isForbiddenToken (token : JsStr) : Bool :=
  forbiddenWhereKeywords.contains (token.map asciiLower)

def startsComment (u : UInt16) (next : Option UInt16) : Bool :=
  (u == ascii '-' && next == some (ascii '-')) || (u == ascii '/' && next == some (ascii '*')) ||
    (u == ascii '*' && next == some (ascii '/'))

/-- The loop of `findWhereClauseViolation`; `keyword` is whether a forbidden keyword was seen. -/
def scanWhere : ScanMode → Bool → JsStr → Option JsStr
  | .code token, keyword, [] =>
    if keyword || isForbiddenToken token then some forbiddenKeywordError else none
  | .quote _, keyword, [] => if keyword then some forbiddenKeywordError else none
  | .doubled _, keyword, [] => if keyword then some forbiddenKeywordError else none
  | .code token, keyword, u :: s =>
    if isWord u then scanWhere (.code (token ++ [u])) keyword s
    else if u = ascii '\'' ∨ u = ascii '"' then
      scanWhere (.quote u) (keyword || isForbiddenToken token) s
    else if u = ascii ';' then some commentOrTerminatorError
    else if startsComment u s.head? then some commentOrTerminatorError
    else scanWhere (.code []) (keyword || isForbiddenToken token) s
  | .quote mark, keyword, u :: s =>
    if u = mark then
      if s.head? = some mark then scanWhere (.doubled mark) keyword s
      else scanWhere (.code []) keyword s
    else scanWhere (.quote mark) keyword s
  | .doubled mark, keyword, _ :: s => scanWhere (.quote mark) keyword s

def findWhereClauseViolation (sql : JsStr) : Option JsStr := scanWhere (.code []) false sql

def validateWhereClause (whereClause : Option JsStr) : Except JsStr (Option JsStr) :=
  match whereClause with
  | none => .ok none
  | some text =>
    let trimmed := trim text
    if trimmed = [] then .ok none
    else
      match findWhereClauseViolation trimmed with
      | some violation => .error violation
      | none => .ok (some trimmed)

def leavesClause : Token → Bool
  | .comment => true
  | .semicolon => true
  | .word text => isKeyword forbiddenWhereKeywords text
  | _ => false

def holdsMark (text : JsStr) : Bool := text.contains (ascii '\'') || text.contains (ascii '"')

/-- What the scanner reads otherwise than SQLite: an identifier in brackets or backquotes, or a variable, that
holds a quotation mark, and a numbered variable with a word right behind it. -/
def hidesMark : Token → Bool
  | .quoted mark text => (mark == ascii '[' || mark == ascii '`') && holdsMark text
  | .parameter text => holdsMark text
  | .numbered digits runsOn => runsOn && digits != []
  | _ => false

variable {u : UInt16} {token : JsStr}

theorem scanWhere_keyword (mode : ScanMode) (s : JsStr) : scanWhere mode true s ≠ none := by
  induction s generalizing mode with
  | nil => cases mode <;> simp [scanWhere]
  | cons u s ih =>
    cases mode with
    | code token =>
      simp only [scanWhere, Bool.true_or]
      split_ifs <;> first | exact ih _ | exact Option.some_ne_none _
    | quote mark =>
      simp only [scanWhere]
      split_ifs <;> exact ih _
    | doubled mark => exact ih _

variable {keyword : Bool} {s : JsStr}

theorem keyword_eq_false {mode} (h : scanWhere mode keyword s = none) : keyword = false := by
  cases keyword with
  | false => rfl
  | true => exact absurd h (scanWhere_keyword mode s)

theorem isWord_of_isWord_asciiLower (h : isWord (asciiLower u) = true) : isWord u = true := by
  unfold asciiLower at h
  split_ifs at h with hu
  · simp [isWord, hu]
  · exact h

theorem isWord_of_isKeyword {text} (h : isKeyword forbiddenWhereKeywords text = true) :
    ∀ u ∈ text, isWord u = true := by
  have hall : (forbiddenWhereKeywords.all fun k => k.all isWord) = true := by decide
  have htext := all_eq_true.mp hall _ (contains_iff_mem.mp h)
  intro u hu
  exact isWord_of_isWord_asciiLower (all_eq_true.mp htext _ (mem_map_of_mem hu))

theorem scanWhere_code (h : scanWhere (.code token) keyword (u :: s) = none) :
    (isWord u = true ∧ scanWhere (.code (token ++ [u])) keyword s = none) ∨
      isWord u = false ∧ isForbiddenToken token = false ∧
        ((u = ascii '\'' ∨ u = ascii '"') ∧ scanWhere (.quote u) keyword s = none ∨
          ¬(u = ascii '\'' ∨ u = ascii '"') ∧ u ≠ ascii ';' ∧ startsComment u s.head? = false ∧
            scanWhere (.code []) keyword s = none) := by
  simp only [scanWhere] at h
  split_ifs at h with hword hmark hsemi hcomment
  · exact .inl ⟨hword, h⟩
  · obtain ⟨rfl, htoken⟩ := Bool.or_eq_false_iff.mp (keyword_eq_false h)
    rw [htoken] at h
    exact .inr ⟨Bool.eq_false_iff.mpr hword, htoken, .inl ⟨hmark, h⟩⟩
  · obtain ⟨rfl, htoken⟩ := Bool.or_eq_false_iff.mp (keyword_eq_false h)
    rw [htoken] at h
    exact .inr ⟨Bool.eq_false_iff.mpr hword, htoken, .inr ⟨hmark, hsemi, Bool.eq_false_iff.mpr hcomment, h⟩⟩

/-- The scanner stands where a token starts: it has no token of its own that would go on. -/
def AtToken (z : JsStr) : Prop := ∃ token, scanWhere (.code token) false z = none ∧ (token = [] ∨ runsOn z = false)

theorem AtToken.of_code (h : scanWhere (.code []) false s = none) : AtToken s := ⟨[], h, .inl rfl⟩

variable {w rest : JsStr}

theorem holdsMark_eq_false : holdsMark w = false ↔ ∀ v ∈ w, ¬(v = ascii '\'' ∨ v = ascii '"') := by
  constructor
  · rintro h v hv (rfl | rfl) <;> simp [holdsMark, hv] at h
  · intro h
    have hsingle : ascii '\'' ∉ w := fun hmem => h _ hmem (.inl rfl)
    have hdouble : ascii '"' ∉ w := fun hmem => h _ hmem (.inr rfl)
    simp [holdsMark, hsingle, hdouble]

theorem exists_scanWhere_append (hw : holdsMark w = false) (h : scanWhere (.code token) keyword (w ++ rest) = none) :
    ∃ next, scanWhere (.code next) keyword rest = none ∧ ((∃ v ∈ w.getLast?, isWord v = false) → next = []) := by
  induction w using List.reverseRecOn generalizing rest with
  | nil => exact ⟨token, h, by simp⟩
  | append_singleton w u ih =>
    rw [holdsMark_eq_false, forall_mem_append, forall_mem_singleton] at hw
    rw [append_assoc] at h
    obtain ⟨next, h, -⟩ := ih (holdsMark_eq_false.mpr hw.1) h
    rcases scanWhere_code h with ⟨hword, h⟩ | ⟨-, -, ⟨hmark, -⟩ | ⟨-, -, -, h⟩⟩
    · exact ⟨_, h, by simp [hword]⟩
    · exact absurd hmark hw.2
    · exact ⟨[], h, fun _ => rfl⟩

theorem AtToken.append (hw : holdsMark w = false) (hend : Apart w rest) (h : AtToken (w ++ rest)) : AtToken rest := by
  obtain ⟨token, h, -⟩ := h
  obtain ⟨next, h, hnext⟩ := exists_scanWhere_append hw h
  exact ⟨next, h, hend.symm.imp_left hnext⟩

theorem holdsMark_of_isPlain (h : ∀ v ∈ w, isPlain v = true) : holdsMark w = false := by
  refine holdsMark_eq_false.mpr fun v hv => ?_
  rintro (rfl | rfl) <;> exact absurd (h _ hv) (by decide)

theorem scanWhere_append_word (hw : ∀ v ∈ w, isWord v = true) (token : JsStr) :
    scanWhere (.code token) keyword (w ++ rest) = scanWhere (.code (token ++ w)) keyword rest := by
  induction w generalizing token with
  | nil => simp
  | cons u w ih =>
    rw [forall_mem_cons] at hw
    simp [scanWhere, hw.1, ih hw.2]

/-- A forbidden keyword is a token of the scanner too. -/
theorem AtToken.not_isKeyword (hw : ∀ v ∈ w, isIdChar v = true) (hend : runsOn rest = false) (h : AtToken (w ++ rest)) :
    isKeyword forbiddenWhereKeywords w = false := by
  refine Bool.eq_false_iff.mpr fun hkey => ?_
  obtain ⟨token, h, htoken⟩ := h
  cases w with
  | nil => cases hkey
  | cons u w =>
    obtain rfl : token = [] := htoken.resolve_right (by simp [runsOn, hw u mem_cons_self])
    rw [scanWhere_append_word (isWord_of_isKeyword hkey), nil_append] at h
    cases rest with
    | nil =>
      have hforbidden : isForbiddenToken (u :: w) = true := hkey
      simp [scanWhere, hforbidden] at h
    | cons v rest =>
      have hv : isWord v = false := by
        refine Bool.eq_false_iff.mpr fun hv => ?_
        simp [runsOn, isIdChar, hv] at hend
      rcases scanWhere_code h with ⟨hword, -⟩ | ⟨-, hforbidden, -⟩
      · exact Bool.eq_false_iff.mp hv hword
      · exact Bool.eq_false_iff.mp hforbidden hkey

/-- The mark that closes a quotation may also be read as closing it before another one opens. -/
theorem scanWhere_close (hu : u = ascii '\'' ∨ u = ascii '"') :
    scanWhere (.quote u) false (u :: rest) = scanWhere (.code []) false rest := by
  rw [scanWhere, if_pos rfl]
  split_ifs with hnext
  · obtain ⟨rest, rfl⟩ := head?_eq_some_iff.mp hnext
    have hword : isWord u = false := by rcases hu with rfl | rfl <;> decide
    have hempty : isForbiddenToken [] = false := by decide
    simp [scanWhere, hword, hu, hempty]
  · rfl

theorem scanWhere_readQuoted {text k} (hu : u = ascii '\'' ∨ u = ascii '"') (hread : readQuoted u s = some (text, k))
    (h : scanWhere (.quote u) false s = none) : scanWhere (.code []) false (s.drop k) = none := by
  fun_induction readQuoted u s generalizing text k with
  | case1 => cases hread
  | case2 v s hne ih =>
    obtain ⟨r, hr, heq⟩ := Option.map_eq_some_iff.mp hread
    cases heq
    rw [scanWhere, if_neg hne] at h
    exact ih hr h
  | case3 v hv s ih =>
    obtain ⟨r, hr, heq⟩ := Option.map_eq_some_iff.mp hread
    cases heq
    rw [scanWhere, if_pos (not_not.mp hv), if_pos head?_cons] at h
    exact ih hr h
  | case4 v hv | case5 v hv =>
    cases hread
    obtain rfl := not_not.mp hv
    rwa [scanWhere_close hu] at h

theorem scanWhere_quote (hu : u = ascii '\'' ∨ u = ascii '"') (h : scanWhere (.code token) keyword (u :: s) = none) :
    scanWhere (.quote u) keyword s = none := by
  have hword : isWord u = false := by rcases hu with rfl | rfl <;> decide
  rcases scanWhere_code h with ⟨hno, -⟩ | ⟨-, -, ⟨-, h⟩ | ⟨hno, -⟩⟩
  · exact absurd hno (Bool.eq_false_iff.mp hword)
  · exact h
  · exact absurd hu hno

theorem scanWhere_quote_append (hw : u ∉ w) :
    scanWhere (.quote u) keyword (w ++ rest) = scanWhere (.quote u) keyword rest := by
  induction w with
  | nil => rfl
  | cons v w ih =>
    rw [mem_cons, not_or] at hw
    rw [cons_append, scanWhere, if_neg (Ne.symm hw.1), ih hw.2]

theorem leavesClause_step {z t} (htoken : TokenAt z t rest) (hlegal : t ≠ .illegal) (hhides : hidesMark t = false)
    (h : AtToken z) : leavesClause t = false ∧ AtToken rest := by
  cases htoken with
  | number hblank | operator hblank =>
    exact ⟨rfl, h.append (holdsMark_of_isPlain hblank.plain) hblank.apart⟩
  | word hw hend =>
    exact ⟨h.not_isKeyword hw hend, h.append (holdsMark_of_isPlain fun v hv => isPlain_of_isIdChar (hw v hv)) (.inl hend)⟩
  | parameter hend => exact ⟨rfl, h.append hhides hend⟩
  | @numbered digits _ hw =>
    refine ⟨rfl, h.append (holdsMark_of_isPlain ?_) ?_⟩
    · exact forall_mem_cons.mpr ⟨by decide, fun v hv => isPlain_of_isWord (isWord_of_isDigit (hw v hv))⟩
    · cases digits with
      | nil => exact .inr ⟨ascii '?', rfl, by decide⟩
      | cons => exact .inl (by simpa [hidesMark] using hhides)
  | @quoted mark s text k hmark hread =>
    refine ⟨rfl, ?_⟩
    by_cases hquote : mark = ascii '\'' ∨ mark = ascii '"'
    · obtain ⟨token, h, -⟩ := h
      exact .of_code (scanWhere_readQuoted hquote hread (scanWhere_quote hquote h))
    · obtain rfl : mark = ascii '`' := by
        simp only [isMark, Bool.or_eq_true, beq_iff_eq] at hmark
        exact hmark.resolve_left hquote
      have hnone := holdsMark_eq_false.mp (show holdsMark text = false from hhides)
      obtain ⟨hmem, hlast⟩ := readQuoted_take hread
      have hsplit : ascii '`' :: s = (ascii '`' :: s.take k) ++ s.drop k := by simp
      rw [hsplit] at h
      refine h.append (holdsMark_eq_false.mpr (forall_mem_cons.mpr ⟨hquote, fun v hv => ?_⟩))
        (.inr ⟨ascii '`', by simp [getLast?_cons, hlast], by decide⟩)
      rcases mem_cons.mp (hmem v hv) with rfl | hv
      · exact hquote
      · exact hnone v hv
  | unterminated hmark hread => exact ⟨rfl, .of_code (by decide)⟩
  | @bracket text rest hclose =>
    have hnone := holdsMark_eq_false.mp (show holdsMark text = false from hhides)
    have hsplit : ascii '[' :: (text ++ ascii ']' :: rest) = (ascii '[' :: text ++ [ascii ']']) ++ rest := by simp
    rw [hsplit] at h
    refine ⟨rfl, h.append (holdsMark_eq_false.mpr ?_) (.inr ⟨ascii ']', getLast?_concat, by decide⟩)⟩
    exact forall_mem_append.mpr ⟨forall_mem_cons.mpr ⟨by decide, hnone⟩, forall_mem_singleton.mpr (by decide)⟩
  | openBracket => exact ⟨rfl, .of_code (by decide)⟩
  | @blob x digits rest hx hw =>
    obtain ⟨token, h, -⟩ := h
    rw [scanWhere, if_pos hx] at h
    have hdigits : ascii '\'' ∉ digits := fun hmem => absurd (hw _ hmem) (by decide)
    have hclosed := scanWhere_quote (.inl rfl) h
    rw [scanWhere_quote_append hdigits, scanWhere_close (.inl rfl)] at hclosed
    exact ⟨rfl, .of_code hclosed⟩
  | comment rest hstart =>
    exfalso
    obtain ⟨token, h, -⟩ := h
    rcases hstart with ⟨rfl, hnext⟩ | ⟨rfl, hnext⟩
    · simp [scanWhere, startsComment, hnext, ascii, isWord, isDigit] at h
    · simp [scanWhere, startsComment, hnext, ascii, isWord, isDigit] at h
  | semicolon rest =>
    obtain ⟨token, h, -⟩ := h
    rw [scanWhere, if_neg (by decide), if_neg (by decide), if_pos rfl] at h
    cases h
  | illegal => exact absurd rfl hlegal

/-- From a common start, no token before the first one that the scanner reads otherwise leaves the clause. -/
theorem leavesClause_of_atToken (z : JsStr) : AtToken z →
    ∀ t ∈ (tokens 0 z).takeWhile (fun t => !hidesMark t), leavesClause t = false := by
  refine tokens_induction (motive := fun z ts => AtToken z →
    ∀ t ∈ ts.takeWhile (fun t => !hidesMark t), leavesClause t = false) ?_ ?_ ?_ ?_ z
  · simp
  · intro w rest hblank ih h
    exact ih (h.append (holdsMark_of_isPlain hblank.plain) hblank.apart)
  · intro z t rest htoken hillegal _ ih h
    cases hhides : hidesMark t with
    | true => simp [hhides]
    | false =>
      rw [takeWhile_cons_of_pos (by simp [hhides]), forall_mem_cons]
      have hstep := leavesClause_step htoken hillegal hhides h
      exact ⟨hstep.1, ih hstep.2⟩
  · simp [leavesClause, hidesMark]

theorem findWhereClauseViolation_of_validate {whereClause sql}
    (h : validateWhereClause whereClause = .ok (some sql)) : findWhereClauseViolation sql = none := by
  cases whereClause with
  | none => cases h
  | some text =>
    simp only [validateWhereClause] at h
    split_ifs at h with hblank
    · cases h
    · cases hscan : findWhereClauseViolation (trim text) with
      | some violation =>
        rw [hscan] at h
        cases h
      | none =>
        rw [hscan] at h
        cases h
        exact hscan

theorem scanWhere_of_append {mode} (hrest : ∀ u ∈ rest.head?, isWord u = false)
    (h : scanWhere mode false (s ++ rest) = none) : scanWhere mode false s = none := by
  induction s generalizing mode with
  | nil =>
    cases rest with
    | nil => exact h
    | cons u rest =>
      cases mode with
      | code token =>
        rcases scanWhere_code h with ⟨hword, -⟩ | ⟨-, hforbidden, -⟩
        · exact absurd hword (Bool.eq_false_iff.mp (hrest u rfl))
        · simp [scanWhere, hforbidden]
      | quote mark | doubled mark => rfl
  | cons u s ih =>
    cases mode with
    | code token =>
      rcases scanWhere_code h with ⟨hword, h⟩ | ⟨hword, hforbidden, ⟨hmark, h⟩ | ⟨hmark, hsemi, hcomment, h⟩⟩
      · rw [scanWhere, if_pos hword]
        exact ih h
      · simpa [scanWhere, hword, hmark, hforbidden] using ih h
      · have hcomment : startsComment u s.head? = false := by
          cases s with
          | nil => simp [startsComment]
          | cons v s => exact hcomment
        rw [scanWhere, if_neg (Bool.eq_false_iff.mp hword), if_neg hmark, if_neg hsemi, hcomment, hforbidden]
        exact ih h
    | quote mark =>
      cases s with
      | nil =>
        have hempty : isForbiddenToken [] = false := by decide
        simp [scanWhere, hempty]
      | cons v s =>
        rw [cons_append, scanWhere, cons_append, head?_cons] at h
        rw [scanWhere, head?_cons]
        split_ifs at h ⊢ <;> exact ih h
    | doubled mark => exact ih h

/-- An accepted filter stays inside its clause exactly if SQLite reads nothing that leaves it from the
first token on that the scanner reads otherwise. -/
theorem validateWhereClause_stays_inside {whereClause : Option JsStr} {sql : JsStr}
    (h : validateWhereClause whereClause = .ok (some sql)) : (∀ t ∈ tokenize sql, leavesClause t = false) ↔
      ∀ t ∈ (tokenize sql).dropWhile (fun t => !hidesMark t), leavesClause t = false := by
  have hscan : scanWhere (.code []) false sql = none := findWhereClauseViolation_of_validate h
  have hzero : ∀ u ∈ (sql.dropWhile (· ≠ 0)).head?, isWord u = false := fun u hu => by
    have hhead := head?_dropWhile_not (· ≠ 0) sql
    rw [Option.mem_def.mp hu] at hhead
    obtain rfl : u = 0 := by simpa using hhead
    rfl
  have hopen : ∀ t ∈ (tokenize sql).takeWhile (fun t => !hidesMark t), leavesClause t = false :=
    leavesClause_of_atToken _ (.of_code (scanWhere_of_append hzero (by rwa [takeWhile_append_dropWhile])))
  conv_lhs => rw [← takeWhile_append_dropWhile (p := fun t => !hidesMark t) (l := tokenize sql)]
  rw [forall_mem_append, and_iff_right hopen]

theorem validateWhereClause_bracket : validateWhereClause (some (lit "[a]=1")) = .ok (some (lit "[a]=1")) ∧
      ∀ t ∈ tokenize (lit "[a]=1"), leavesClause t = false := by
  have h : validateWhereClause (some (lit "[a]=1")) = .ok (some (lit "[a]=1")) := by decide +kernel
  exact ⟨h, (validateWhereClause_stays_inside h).mpr (by decide +kernel)⟩

/-- `[']=1 LIMIT 5` is accepted: the scanner takes everything from the mark on for a string. -/
theorem validateWhereClause_hidden_limit :
    validateWhereClause (some (lit "[']=1 LIMIT 5")) = .ok (some (lit "[']=1 LIMIT 5")) ∧
      Token.word (lit "LIMIT") ∈ tokenize (lit "[']=1 LIMIT 5") ∧ leavesClause (.word (lit "LIMIT")) = true := by
  decide +kernel

/-! ### Raw reads -/

def rawQueryError : JsStr := lit "SQLite raw queries must contain exactly one explicit SELECT statement"

/-- `/^SELECT\b/i`. -/
def startsWithSelect (sql : JsStr) : Bool :=
  (sql.take 6).map asciiLower == lit "select" && (sql.drop 6).head?.all fun u => !isWord u

/-- The loop of `validateSqliteReadQuery`; the mark of a quote is what closes it. -/
def scanRead : ScanMode → JsStr → Bool
  | .code _, [] => true
  | .quote _, [] => false
  | .doubled _, [] => false
  | .code token, u :: s =>
    if u = 0 then false
    else if isMark u then scanRead (.quote u) s
    else if u = ascii '[' then scanRead (.quote (ascii ']')) s
    else !startsComment u s.head? && (u ≠ ascii ';' || trim s = []) && scanRead (.code token) s
  | .quote mark, u :: s =>
    if u = 0 then false
    else if u = mark then
      if mark ≠ ascii ']' ∧ s.head? = some mark then scanRead (.doubled mark) s else scanRead (.code []) s
    else scanRead (.quote mark) s
  | .doubled mark, _ :: s => scanRead (.quote mark) s

def validateSqliteReadQuery (sql : JsStr) : Except JsStr JsStr :=
  let trimmed := trim sql
  if startsWithSelect trimmed && scanRead (.code []) trimmed then .ok trimmed else .error rawQueryError

/-- No comment, every quoted token closed, and nothing behind a semicolon. -/
structure OneStatement (ts : List Token) : Prop where
  plain : ∀ t ∈ ts, t ≠ .comment ∧ ∀ mark, t ≠ .unterminated mark
  single : ts.Pairwise fun t _ => t ≠ .semicolon

/-- A variable with a mark of the scanner. -/
def hidesOpener : Token → Bool
  | .parameter text => text.any opens
  | _ => false

theorem scanRead_append (hw : ∀ v ∈ w, opens v = false) (h : scanRead (.code token) (w ++ rest) = true) :
    scanRead (.code token) rest = true := by
  induction w with
  | nil => exact h
  | cons v w ih =>
    rw [forall_mem_cons] at hw
    have hopens := Bool.or_eq_false_iff.mp hw.1
    simp only [cons_append, scanRead, hopens.1, beq_eq_false_iff_ne.mp hopens.2, Bool.false_eq_true, if_false] at h
    split_ifs at h with hnul
    exact ih hw.2 (Bool.and_eq_true_iff.mp h).2

theorem scanRead_quote_append (hw : u ∉ w) (h : scanRead (.quote u) (w ++ rest) = true) :
    scanRead (.quote u) rest = true := by
  induction w with
  | nil => exact h
  | cons v w ih =>
    rw [mem_cons, not_or] at hw
    simp only [cons_append, scanRead, if_neg (Ne.symm hw.1)] at h
    split_ifs at h with hnul
    exact ih hw.2 h

theorem scanRead_quote (hu : isMark u = true) (h : scanRead (.code token) (u :: s) = true) :
    scanRead (.quote u) s = true := by
  rw [scanRead, if_pos hu] at h
  split_ifs at h with hnul
  exact h

theorem scanRead_close (hu : isMark u = true) (h : scanRead (.quote u) (u :: rest) = true) :
    scanRead (.code []) rest = true := by
  rw [scanRead, if_pos rfl] at h
  split_ifs at h with hnul hnext
  · obtain ⟨rest, rfl⟩ := head?_eq_some_iff.mp hnext.2
    rw [scanRead, if_neg hnul, if_pos hu]
    exact h
  · exact h

theorem scanRead_readQuoted (hu : isMark u = true) (h : scanRead (.quote u) s = true) :
    ∃ r, readQuoted u s = some r ∧ scanRead (.code []) (s.drop r.2) = true := by
  fun_induction readQuoted u s with
  | case1 => cases h
  | case2 v s hne ih =>
    obtain ⟨r, hr, hrest⟩ := ih (scanRead_quote_append (w := [v]) (by simpa using Ne.symm hne) h)
    exact ⟨_, Option.map_eq_some_iff.mpr ⟨r, hr, rfl⟩, hrest⟩
  | case3 v hv s ih =>
    obtain rfl := not_not.mp hv
    obtain ⟨r, hr, hrest⟩ := ih (scanRead_quote hu (scanRead_close hu h))
    exact ⟨_, Option.map_eq_some_iff.mpr ⟨r, hr, rfl⟩, hrest⟩
  | case4 v hv | case5 v hv =>
    obtain rfl := not_not.mp hv
    exact ⟨_, rfl, scanRead_close hu h⟩

theorem scanRead_step {z t} (htoken : TokenAt z t rest) (hlegal : t ≠ .illegal) (hhides : hidesOpener t = false)
    (h : ∃ token, scanRead (.code token) z = true) : (t ≠ .comment ∧ ∀ mark, t ≠ .unterminated mark) ∧
      (t = .semicolon → trim rest = []) ∧ ∃ token, scanRead (.code token) rest = true := by
  obtain ⟨token, h⟩ := h
  have hplain {v : UInt16} (hv : isPlain v = true) : opens v = false := by
    simpa using (Bool.and_eq_true_iff.mp hv).1
  cases htoken with
  | number hblank | operator hblank =>
    exact ⟨by simp, by simp, token, scanRead_append (fun v hv => hplain (hblank.plain v hv)) h⟩
  | word hw hend =>
    exact ⟨by simp, by simp, token, scanRead_append (fun v hv => hplain (isPlain_of_isIdChar (hw v hv))) h⟩
  | parameter hend =>
    exact ⟨by simp, by simp, token, scanRead_append (by simpa [hidesOpener] using hhides) h⟩
  | numbered rest hw =>
    refine ⟨by simp, by simp, token, scanRead_append (forall_mem_cons.mpr ⟨by decide, fun v hv => ?_⟩) h⟩
    exact hplain (isPlain_of_isWord (isWord_of_isDigit (hw v hv)))
  | quoted hmark hread =>
    obtain ⟨r, hr, hrest⟩ := scanRead_readQuoted hmark (scanRead_quote hmark h)
    cases hread.symm.trans hr
    exact ⟨by simp, by simp, [], hrest⟩
  | unterminated hmark hread =>
    obtain ⟨r, hr, -⟩ := scanRead_readQuoted hmark (scanRead_quote hmark h)
    cases hread.symm.trans hr
  | bracket rest hclose =>
    have hquote : scanRead (.quote (ascii ']')) (_ ++ ascii ']' :: rest) = true := h
    exact ⟨by simp, by simp, [], scanRead_quote_append hclose hquote⟩
  | @openBracket s hclose =>
    have hquote : scanRead (.quote (ascii ']')) (s ++ []) = true := by
      rw [append_nil]
      exact h
    cases scanRead_quote_append hclose hquote
  | @blob x digits rest hx hw =>
    have hdigits : ascii '\'' ∉ digits := fun hmem => absurd (hw _ hmem) (by decide)
    have hquote : scanRead (.code token) (ascii '\'' :: (digits ++ ascii '\'' :: rest)) = true :=
      scanRead_append (w := [x]) (by simpa using hplain (isPlain_of_isWord hx)) h
    exact ⟨by simp, by simp, [], scanRead_close rfl (scanRead_quote_append hdigits (scanRead_quote rfl hquote))⟩
  | comment rest hstart =>
    exfalso
    rcases hstart with ⟨rfl, hnext⟩ | ⟨rfl, hnext⟩
    · simp [scanRead, startsComment, hnext, ascii, isMark] at h
    · simp [scanRead, startsComment, hnext, ascii, isMark] at h
  | semicolon rest =>
    have hblank : trim rest = [] ∧ scanRead (.code token) rest = true := by
      simpa [scanRead, startsComment, ascii, isMark] using h
    exact ⟨by simp, fun _ => hblank.1, token, hblank.2⟩
  | illegal => exact absurd rfl hlegal

theorem OneStatement.cons {t ts} (ht : t ≠ .comment ∧ ∀ mark, t ≠ .unterminated mark)
    (hlast : t = .semicolon → ts = []) (h : OneStatement ts) : OneStatement (t :: ts) := by
  refine ⟨forall_mem_cons.mpr ⟨ht, h.plain⟩, pairwise_cons.mpr ⟨fun x hx hsemi => ?_, h.single⟩⟩
  rw [hlast hsemi] at hx
  cases hx

theorem oneStatement_of_dropWhile (z : JsStr) : (∃ token, scanRead (.code token) z = true) →
    (∀ v ∈ z.getLast?, isJsWhitespace v = false) →
      OneStatement ((tokens 0 z).dropWhile fun t => !hidesOpener t) → OneStatement (tokens 0 z) := by
  have hsuffix {z rest : JsStr} (hrest : rest <:+ z) (hlast : ∀ v ∈ z.getLast?, isJsWhitespace v = false) :
      ∀ v ∈ rest.getLast?, isJsWhitespace v = false := by
    obtain ⟨w, rfl⟩ := hrest
    exact fun v hv => hlast v (by simp [getLast?_append, Option.mem_def.mp hv])
  refine tokens_induction (motive := fun z ts => (∃ token, scanRead (.code token) z = true) →
    (∀ v ∈ z.getLast?, isJsWhitespace v = false) →
      OneStatement (ts.dropWhile fun t => !hidesOpener t) → OneStatement ts) ?_ ?_ ?_ ?_ z
  · exact fun _ _ h => h
  · rintro w rest hblank ih ⟨token, h⟩ hlast
    refine ih ⟨token, scanRead_append (fun v hv => ?_) h⟩ (hsuffix (suffix_append w rest) hlast)
    simpa using (Bool.and_eq_true_iff.mp (hblank.plain v hv)).1
  · intro z t rest htoken hlegal hrest ih h hlast hone
    cases hhides : hidesOpener t with
    | true => rwa [dropWhile_cons_of_neg (by simp [hhides])] at hone
    | false =>
      rw [dropWhile_cons_of_pos (by simp [hhides])] at hone
      obtain ⟨ht, hsemi, hscan⟩ := scanRead_step htoken hlegal hhides h
      refine (ih hscan (hsuffix hrest hlast) hone).cons ht fun hsemicolon => ?_
      -- the text has no blank at its end, so nothing follows a semicolon
      rcases eq_nil_or_concat rest with rfl | ⟨init, v, rfl⟩
      · rfl
      · have hblank := (trim_eq_nil_iff _).mp (hsemi hsemicolon) v (by simp)
        rw [hsuffix hrest hlast v (by simp)] at hblank
        cases hblank
  · exact fun _ _ _ _ => ⟨by simp, by simp⟩

theorem nul_notMem_of_scanRead {mode} (h : scanRead mode s = true)
    (hmode : ∀ mark, mode = .doubled mark → s.head? ≠ some 0) : (0 : UInt16) ∉ s := by
  induction s generalizing mode with
  | nil => simp
  | cons u s ih =>
    suffices hnext : u ≠ 0 ∧ ∃ mode, scanRead mode s = true ∧ ∀ mark, mode = .doubled mark → s.head? ≠ some 0 by
      obtain ⟨hu, mode, h, hmode⟩ := hnext
      exact not_mem_cons_of_ne_of_not_mem (Ne.symm hu) (ih h hmode)
    cases mode with
    | code token =>
      rw [scanRead] at h
      split_ifs at h with hnul hmark hbracket
      · exact ⟨hnul, _, h, by simp⟩
      · exact ⟨hnul, _, h, by simp⟩
      · exact ⟨hnul, _, (Bool.and_eq_true_iff.mp h).2, by simp⟩
    | quote mark =>
      rw [scanRead] at h
      split_ifs at h with hnul hclose hnext
      · refine ⟨hnul, _, h, fun _ _ hzero => hnul ?_⟩
        rw [hclose, ← Option.some.inj (hnext.2.symm.trans hzero)]
      · exact ⟨hnul, _, h, by simp⟩
      · exact ⟨hnul, _, h, by simp⟩
    | doubled mark => exact ⟨by simpa using hmode mark rfl, _, h, by simp⟩

theorem OneStatement.of_sublist {ts ts'} (hsub : ts' <+ ts) (h : OneStatement ts) : OneStatement ts' :=
  ⟨fun t ht => h.plain t (hsub.subset ht), h.single.sublist hsub⟩

/-- SQLite reads an accepted raw query as one statement exactly if it does so from the first variable on that
holds a mark of the scanner. -/
theorem validateSqliteReadQuery_oneStatement {sql query : JsStr} (h : validateSqliteReadQuery sql = .ok query) :
    OneStatement (tokenize query) ↔ OneStatement ((tokenize query).dropWhile fun t => !hidesOpener t) := by
  simp only [validateSqliteReadQuery] at h
  split_ifs at h with hscan
  cases h
  have hread := (Bool.and_eq_true_iff.mp hscan).2
  have hnul : (trim sql).takeWhile (· ≠ 0) = trim sql := by
    refine takeWhile_eq_self_iff.mpr fun v hv => ?_
    rw [decide_eq_true_eq]
    rintro rfl
    exact nul_notMem_of_scanRead hread (by simp) hv
  rw [tokenize, hnul]
  exact ⟨.of_sublist (dropWhile_sublist _), oneStatement_of_dropWhile _ ⟨[], hread⟩ fun v hv => getLast_trim hv⟩

theorem validateSqliteReadQuery_quoted : OneStatement (tokenize (lit "select ';--' from [a;']`/*` where x=$y;")) := by
  have hopen : (tokenize (lit "select ';--' from [a;']`/*` where x=$y;")).dropWhile (fun t => !hidesOpener t) = [] := by
    decide +kernel
  refine (@validateSqliteReadQuery_oneStatement (lit " select ';--' from [a;']`/*` where x=$y; ") _
    (by decide +kernel)).mpr ?_
  rw [hopen]
  exact ⟨by simp, .nil⟩

/-- `SELECT $a(') ; DROP TABLE x --'` is accepted: the scanner takes what stands behind the variable's name for a
string, SQLite reads a second statement. -/
theorem validateSqliteReadQuery_hidden_statement :
    let sql := lit "SELECT $a(') ; DROP TABLE x --'"
    validateSqliteReadQuery sql = .ok sql ∧
      ¬OneStatement (tokenize sql) := by
  intro sql
  have htokens : tokenize sql = [.word (lit "SELECT"), .parameter (lit "$a(')"),
      .semicolon, .word (lit "DROP"), .word (lit "TABLE"), .word (lit "x"), .comment] := by decide +kernel
  refine ⟨by decide +kernel, fun h => ?_⟩
  rw [htokens] at h
  exact absurd h.single (by decide +kernel)

end GajaeCode.Tools
