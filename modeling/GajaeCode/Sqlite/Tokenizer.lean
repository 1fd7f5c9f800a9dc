import GajaeCode.Text.Pattern

/-! SQLite's tokenizer (`sqlite3GetToken`) on UTF-16 units. -/
namespace GajaeCode.Sqlite

open Text List

def isSpace (u : UInt16) : Bool := (9 ≤ u && u ≤ 13) || u == 0x20

/-- The units of identifiers and keywords; everything outside ASCII is one. -/
def isIdChar (u : UInt16) : Bool := isWord u || u == ascii '$' || 0x80 ≤ u

def isHex (u : UInt16) : Bool := isDigit u || (0x41 ≤ u && u ≤ 0x46) || (0x61 ≤ u && u ≤ 0x66)

def isMark (u : UInt16) : Bool := u == ascii '\'' || u == ascii '"' || u == ascii '`'

inductive Token where
  | word (text : JsStr)
  | number
  | blob
  /-- `$name`, `@name`, `:name` or `#name`, with `::` and a last part in parentheses. -/
  | parameter (text : JsStr)
  /-- `?` and its digits; `runsOn` if an identifier follows them at once. -/
  | numbered (digits : JsStr) (runsOn : Bool)
  /-- A string literal or a quoted identifier; `mark` is what opened it. -/
  | quoted (mark : UInt16) (text : JsStr)
  | unterminated (mark : UInt16)
  | comment
  | semicolon
  | operator (text : JsStr)
  | illegal
deriving DecidableEq

/-- The longer ones first. -/
def operators : List JsStr :=
  [lit "->>", lit "->", lit "==", lit "<=", lit "<>", lit "<<", lit ">=", lit ">>", lit "!=", lit "||", lit "-",
    lit "(", lit ")", lit "+", lit "*", lit "/", lit "%", lit "=", lit "<", lit ">", lit "|", lit ",", lit "&",
    lit "~", lit "."]

/-- The rest of a quoted token and how many units it takes; a mark is written twice inside. -/
def readQuoted (mark : UInt16) : JsStr → Option (JsStr × Nat)
  | [] => none
  | u :: s =>
    if u ≠ mark then (readQuoted mark s).map fun r => (u :: r.1, r.2 + 1)
    else
      match s with
      | v :: s => if v = mark then (readQuoted mark s).map fun r => (mark :: r.1, r.2 + 2) else some ([], 1)
      | [] => some ([], 1)

/-- How many units of a comment there are up to the end of `*/`. -/
def blockLength : JsStr → Nat
  | [] => 0
  | u :: s => if u = ascii '*' ∧ s.head? = some (ascii '/') then 2 else blockLength s + 1

/-- How many units there are up to `)` or white space. -/
def insideLength (s : JsStr) : Nat := (s.takeWhile fun v => !isSpace v && v != ascii ')').length

/-- How many units belong to a variable, of which `named` says whether it has a name yet. -/
def readVariable : Bool → JsStr → Option Nat
  | named, [] => if named then some 0 else none
  | named, u :: s =>
    if isIdChar u then (readVariable true s).map (· + 1)
    else if u = ascii '(' ∧ named = true then
      if (s.drop (insideLength s)).head? = some (ascii ')') then some (insideLength s + 2) else none
    else
      match s with
      | v :: s =>
        if u = ascii ':' ∧ v = ascii ':' then (readVariable named s).map (· + 2)
        else if named then some 0 else none
      | [] => if named then some 0 else none

def digitRun (p : UInt16 → Bool) (text : JsStr) : Nat := (text.takeWhile fun u => p u || u == ascii '_').length

def isExponent (text : JsStr) : Bool :=
  (text.head? == some (ascii 'e') || text.head? == some (ascii 'E')) &&
    (text[1]?.any isDigit || ((text[1]? == some (ascii '+') || text[1]? == some (ascii '-')) && text[2]?.any isDigit))

def fractionLength (text : JsStr) : Nat :=
  if text.head? = some (ascii '.') then 1 + digitRun isDigit (text.drop 1) else 0

def exponentLength (text : JsStr) : Nat := if isExponent text then 2 + digitRun isDigit (text.drop 2) else 0

/-- How many units a number has. -/
def numberLength (text : JsStr) : Nat :=
  if text.head? = some (ascii '0') ∧ (text[1]? = some (ascii 'x') ∨ text[1]? = some (ascii 'X')) ∧
      text[2]?.any isHex = true then 3 + digitRun isHex (text.drop 3)
  else
    let whole := digitRun isDigit text
    let fraction := fractionLength (text.drop whole)
    whole + fraction + exponentLength (text.drop (whole + fraction))

def runsOn (rest : JsStr) : Bool := rest.head?.any isIdChar

def quotedToken (mark : UInt16) (s : JsStr) : Token × Nat :=
  match readQuoted mark s with
  | some (text, k) => (.quoted mark text, k)
  | none => (.unterminated mark, s.length)

def bracketToken (s : JsStr) : Token × Nat :=
  let text := s.takeWhile (· ≠ ascii ']')
  if text.length < s.length then (.quoted (ascii '[') text, text.length + 1)
  else (.unterminated (ascii '['), s.length)

def variableToken (u : UInt16) (s : JsStr) : Token × Nat :=
  match readVariable false s with
  | some k => (.parameter (u :: s.take k), k)
  | none => (.illegal, 0)

def numberToken (u : UInt16) (s : JsStr) : Token × Nat :=
  let k := numberLength (u :: s) - 1
  if runsOn (s.drop k) then (.illegal, 0) else (.number, k)

def blobToken (s : JsStr) : Token × Nat :=
  let digits := (s.drop 1).takeWhile isHex
  if s[digits.length + 1]? = some (ascii '\'') ∧ digits.length % 2 = 0 then (.blob, digits.length + 2)
  else (.illegal, 0)

def operatorToken (text : JsStr) : Token × Nat :=
  match operators.find? (·.isPrefixOf text) with
  | some op => (.operator op, op.length - 1)
  | none => (.illegal, 0)

/-- The token that starts with a unit that is not white space, and how many units follow its first. -/
def getToken (u : UInt16) (s : JsStr) : Token × Nat :=
  if u = ascii '-' ∧ s.head? = some (ascii '-') then (.comment, (s.takeWhile (· ≠ LF)).length)
  else if u = ascii '/' ∧ s.head? = some (ascii '*') ∧ 2 ≤ s.length then (.comment, 1 + blockLength (s.drop 1))
  else if u = ascii ';' then (.semicolon, 0)
  else if isMark u then quotedToken u s
  else if u = ascii '[' then bracketToken s
  else if u = ascii '?' then
    let digits := s.takeWhile isDigit
    (.numbered digits (runsOn (s.drop digits.length)), digits.length)
  else if u = ascii '$' ∨ u = ascii '@' ∨ u = ascii ':' ∨ u = ascii '#' then variableToken u s
  else if isDigit u ∨ u = ascii '.' ∧ s.head?.any isDigit = true then numberToken u s
  else if (u = ascii 'x' ∨ u = ascii 'X') ∧ s.head? = some (ascii '\'') then blobToken s
  else if isIdChar u then (.word (u :: s.takeWhile isIdChar), (s.takeWhile isIdChar).length)
  else operatorToken (u :: s)

/-- How many units of white space follow, if this is one; a byte order mark is skipped alone, and white space
does not start with a vertical tab. -/
def getSpace (u : UInt16) (s : JsStr) : Option Nat :=
  if u = 0xfeff then some 0
  else if isSpace u = true ∧ u ≠ 0x0b then some (s.takeWhile isSpace).length
  else none

/-- The tokens behind the next `skip` units; an illegal one is an error and the last that is read. -/
def tokens : Nat → JsStr → List Token
  | _, [] => []
  | skip + 1, _ :: s => tokens skip s
  | 0, u :: s =>
    match getSpace u s with
    | some k => tokens k s
    | none => (getToken u s).1 :: if (getToken u s).1 = .illegal then [] else tokens (getToken u s).2 s

/-- A statement ends at the first zero. -/
def tokenize (sql : JsStr) : List Token := tokens 0 (sql.takeWhile (· ≠ 0))

/-- Keywords are compared without case. -/
def isKeyword (keywords : List JsStr) (word : JsStr) : Bool :=
  keywords.contains (word.map asciiLower)

example : tokenize (lit "a=$b::c(') AND x'0f'<>0x1F ?5LIMIT 1e+5 1.5.b 1e") = [.word (lit "a"), .operator (lit "="),
    .parameter (lit "$b::c(')"), .word (lit "AND"), .blob, .operator (lit "<>"), .number, .numbered (lit "5") true,
    .word (lit "LIMIT"), .number, .number, .operator (lit "."), .word (lit "b"), .illegal] := by decide +kernel

/-! ### The token at the front -/

/-- What opens a quotation. -/
def opens (u : UInt16) : Bool := isMark u || u == ascii '['

def isPlain (u : UInt16) : Bool := !opens u && u != ascii ';'

/-- Nothing behind `w` is read as part of the same word. -/
def Apart (w rest : JsStr) : Prop := runsOn rest = false ∨ ∃ v ∈ w.getLast?, isWord v = false

/-- White space, numbers and operators. -/
structure Blank (w rest : JsStr) : Prop where
  plain : ∀ v ∈ w, isPlain v = true
  apart : Apart w rest

inductive TokenAt : JsStr → Token → JsStr → Prop where
  | number {w rest : JsStr} (h : Blank w rest) : TokenAt (w ++ rest) .number rest
  | operator {w rest : JsStr} (h : Blank w rest) (op : JsStr) : TokenAt (w ++ rest) (.operator op) rest
  | word {w rest : JsStr} (hw : ∀ v ∈ w, isIdChar v = true) (hend : runsOn rest = false) :
      TokenAt (w ++ rest) (.word w) rest
  | parameter {w rest : JsStr} (hend : Apart w rest) : TokenAt (w ++ rest) (.parameter w) rest
  | numbered {digits : JsStr} (rest : JsStr) (hw : ∀ v ∈ digits, isDigit v = true) :
      TokenAt (ascii '?' :: digits ++ rest) (.numbered digits (runsOn rest)) rest
  | quoted {mark : UInt16} {s text : JsStr} {k : Nat} (hmark : isMark mark = true)
      (h : readQuoted mark s = some (text, k)) : TokenAt (mark :: s) (.quoted mark text) (s.drop k)
  | unterminated {mark : UInt16} {s : JsStr} (hmark : isMark mark = true) (h : readQuoted mark s = none) :
      TokenAt (mark :: s) (.unterminated mark) []
  | bracket {text : JsStr} (rest : JsStr) (h : ascii ']' ∉ text) :
      TokenAt (ascii '[' :: (text ++ ascii ']' :: rest)) (.quoted (ascii '[') text) rest
  | openBracket {s : JsStr} (h : ascii ']' ∉ s) : TokenAt (ascii '[' :: s) (.unterminated (ascii '[')) []
  | blob {x : UInt16} {digits : JsStr} (rest : JsStr) (hx : isWord x = true) (hw : ∀ v ∈ digits, isHex v = true) :
      TokenAt (x :: ascii '\'' :: (digits ++ ascii '\'' :: rest)) .blob rest
  | comment {u : UInt16} {s : JsStr} (rest : JsStr) (h : u = ascii '-' ∧ s.head? = some (ascii '-') ∨
      u = ascii '/' ∧ s.head? = some (ascii '*')) : TokenAt (u :: s) .comment rest
  | semicolon (rest : JsStr) : TokenAt (ascii ';' :: rest) .semicolon rest
  | illegal (z rest : JsStr) : TokenAt z .illegal rest

variable {u : UInt16} {s : JsStr}

theorem exists_takeWhile (p : UInt16 → Bool) (s : JsStr) : ∃ w rest, s.takeWhile p = w ∧ s = w ++ rest ∧
      (∀ v ∈ w, p v = true) ∧ rest.head?.any p = false := by
  refine ⟨_, s.dropWhile p, rfl, takeWhile_append_dropWhile.symm, fun v hv => mem_takeWhile_imp hv, ?_⟩
  have hhead := head?_dropWhile_not p s
  cases hrest : (s.dropWhile p).head? with
  | none => rfl
  | some v => simpa [hrest] using hhead

theorem isPlain_of_isIdChar (h : isIdChar u = true) : isPlain u = true := by
  have hne {v : UInt16} (hv : isIdChar v = false) : u ≠ v := by
    rintro rfl
    exact Bool.eq_false_iff.mp hv h
  simp only [isPlain, opens, isMark, Bool.and_eq_true, Bool.not_eq_true', Bool.or_eq_false_iff, beq_eq_false_iff_ne,
    bne_iff_ne]
  exact ⟨⟨⟨⟨hne rfl, hne rfl⟩, hne rfl⟩, hne rfl⟩, hne rfl⟩

theorem isPlain_of_isWord (h : isWord u = true) : isPlain u = true := isPlain_of_isIdChar (by simp [isIdChar, h])

theorem isWord_of_isDigit (h : isDigit u = true) : isWord u = true := by simp [isWord, h]

theorem isWord_of_isHex (h : isHex u = true) : isWord u = true := by
  simp only [isHex, isWord, isDigit, Bool.or_eq_true, Bool.and_eq_true, decide_eq_true_eq, beq_iff_eq,
    UInt16.le_iff_toNat_le] at h ⊢
  simp at h ⊢
  omega

theorem isSpace_spec (h : isSpace u = true) : isPlain u = true ∧ isWord u = false := by
  have hcases : u = 9 ∨ u = 10 ∨ u = 11 ∨ u = 12 ∨ u = 13 ∨ u = 32 := by
    simp only [isSpace, Bool.or_eq_true, Bool.and_eq_true, decide_eq_true_eq, beq_iff_eq, UInt16.le_iff_toNat_le] at h
    simp only [← UInt16.toNat_inj] at h ⊢
    simp at h ⊢
    omega
  rcases hcases with rfl | rfl | rfl | rfl | rfl | rfl <;> decide

theorem blank_getSpace {k : Nat} (h : getSpace u s = some k) : Blank (u :: s.take k) (s.drop k) := by
  unfold getSpace at h
  split_ifs at h with hbom hspace
  · cases h
    subst hbom
    exact ⟨by simp; decide, .inr ⟨0xfeff, rfl, by decide⟩⟩
  · obtain ⟨w, rest, hw, rfl, hall, -⟩ := exists_takeWhile isSpace s
    rw [hw] at h
    cases h
    rw [take_left, drop_left]
    have hall : ∀ v ∈ u :: w, isSpace v = true := forall_mem_cons.mpr ⟨hspace.1, hall⟩
    refine ⟨fun v hv => (isSpace_spec (hall v hv)).1, .inr ⟨_, getLast?_eq_some_getLast (cons_ne_nil _ _), ?_⟩⟩
    exact (isSpace_spec (hall _ (getLast_mem _))).2

theorem readVariable_apart {named k} (h : readVariable named s = some k) :
    runsOn (s.drop k) = false ∨ ∃ v ∈ (s.take k).getLast?, isWord v = false := by
  have hback : ∀ {w more : JsStr}, (∃ v ∈ more.getLast?, isWord v = false) →
      ∃ v ∈ (w ++ more).getLast?, isWord v = false := by
    rintro w more ⟨v, hv, hword⟩
    exact ⟨v, by simp [Option.mem_def.mp hv], hword⟩
  fun_induction readVariable named s generalizing k with
  | case1 | case2 => simp_all [runsOn]
  | case3 named u s hid ih =>
    obtain ⟨k, hk, rfl⟩ := Option.map_eq_some_iff.mp h
    exact (ih hk).imp_right (hback (w := [u]))
  | case4 named u s hid hopen hclosed =>
    cases h
    obtain ⟨w, rest, hw, rfl, -, -⟩ := exists_takeWhile (fun v => !isSpace v && v != ascii ')') s
    rw [insideLength, hw, drop_left] at hclosed
    obtain ⟨rest, rfl⟩ := head?_eq_some_iff.mp hclosed
    have htake : (u :: (w ++ ascii ')' :: rest)).take (w.length + 2) = (u :: w) ++ [ascii ')'] := by
      simp [take_append]
    rw [insideLength, hw, htake]
    exact .inr (hback ⟨ascii ')', rfl, by decide⟩)
  | case6 named u hid hopen v s hcolon ih =>
    obtain ⟨k, hk, rfl⟩ := Option.map_eq_some_iff.mp h
    exact (ih hk).imp_right (hback (w := [u, v]))
  | case7 | case9 =>
    cases h
    simp_all [runsOn]
  | case5 | case8 | case10 => cases h

theorem isPlain_take_add {text : JsStr} {m n : Nat} (hfirst : ∀ v ∈ text.take m, isPlain v = true)
    (hrest : ∀ v ∈ (text.drop m).take n, isPlain v = true) : ∀ v ∈ text.take (m + n), isPlain v = true := by
  rw [take_add]
  exact forall_mem_append.mpr ⟨hfirst, hrest⟩

theorem isPlain_digitRun {p : UInt16 → Bool} (hp : ∀ {v}, p v = true → isWord v = true) (text : JsStr) :
    ∀ v ∈ text.take (digitRun p text), isPlain v = true := by
  obtain ⟨w, rest, hw, rfl, hall, -⟩ := exists_takeWhile (fun u => p u || u == ascii '_') text
  rw [digitRun, hw, take_left]
  intro v hv
  have hunit := hall v hv
  simp only [Bool.or_eq_true, beq_iff_eq] at hunit
  rcases hunit with hunit | rfl
  · exact isPlain_of_isWord (hp hunit)
  · decide

theorem isPlain_fractionLength (text : JsStr) : ∀ v ∈ text.take (fractionLength text), isPlain v = true := by
  unfold fractionLength
  split_ifs with hdot
  · refine isPlain_take_add ?_ (isPlain_digitRun isWord_of_isDigit _)
    obtain ⟨rest, rfl⟩ := head?_eq_some_iff.mp hdot
    simp [isPlain]
    decide
  · simp

theorem isPlain_exponentLength (text : JsStr) : ∀ v ∈ text.take (exponentLength text), isPlain v = true := by
  unfold exponentLength
  split_ifs with hexponent
  · refine isPlain_take_add ?_ (isPlain_digitRun isWord_of_isDigit _)
    rcases text with _ | ⟨e, _ | ⟨v, rest⟩⟩
    · simp
    · simp [isExponent] at hexponent
    · simp only [isExponent, head?_cons, Option.some_beq_some, getElem?_cons_succ, getElem?_cons_zero, Option.any_some,
        Bool.and_eq_true, Bool.or_eq_true, beq_iff_eq] at hexponent
      refine forall_mem_cons.mpr ⟨?_, forall_mem_singleton.mpr ?_⟩
      · rcases hexponent.1 with rfl | rfl <;> decide
      · rcases hexponent.2 with hdigit | ⟨rfl | rfl, -⟩
        · exact isPlain_of_isWord (isWord_of_isDigit hdigit)
        · decide
        · decide
  · simp

theorem isPlain_numberLength (text : JsStr) : ∀ v ∈ text.take (numberLength text), isPlain v = true := by
  unfold numberLength
  split_ifs with hhex
  · refine isPlain_take_add ?_ (isPlain_digitRun isWord_of_isHex _)
    rcases text with _ | ⟨zero, _ | ⟨x, _ | ⟨v, rest⟩⟩⟩
    · simp
    · simp at hhex
    · simp at hhex
    · simp only [head?_cons, Option.some.injEq, getElem?_cons_succ, getElem?_cons_zero, Option.any_some] at hhex
      obtain ⟨rfl, hx, hv⟩ := hhex
      refine forall_mem_cons.mpr ⟨by decide, forall_mem_cons.mpr ⟨?_, forall_mem_singleton.mpr ?_⟩⟩
      · rcases hx with rfl | rfl <;> decide
      · exact isPlain_of_isWord (isWord_of_isHex hv)
  · exact isPlain_take_add (isPlain_take_add (isPlain_digitRun isWord_of_isDigit _) (isPlain_fractionLength _))
      (isPlain_exponentLength _)

theorem readQuoted_take {mark text k} (h : readQuoted mark s = some (text, k)) :
    (∀ v ∈ s.take k, v ∈ mark :: text) ∧ (s.take k).getLast? = some mark := by
  fun_induction readQuoted mark s generalizing text k with
  | case1 => cases h
  | case2 u s hne ih =>
    obtain ⟨⟨text, k⟩, hr, heq⟩ := Option.map_eq_some_iff.mp h
    cases heq
    obtain ⟨hmem, hlast⟩ := ih hr
    refine ⟨forall_mem_cons.mpr ⟨by simp, fun v hv => ?_⟩, by simp [take_succ_cons, getLast?_cons, hlast]⟩
    rcases mem_cons.mp (hmem v hv) with rfl | hv <;> simp [*]
  | case3 u hu s ih =>
    obtain ⟨⟨text, k⟩, hr, heq⟩ := Option.map_eq_some_iff.mp h
    cases heq
    obtain ⟨hmem, hlast⟩ := ih hr
    obtain rfl := not_not.mp hu
    refine ⟨?_, by simp [take_succ_cons, getLast?_cons, hlast]⟩
    simpa [take_succ_cons] using fun v hv => hmem v hv
  | case4 u hu | case5 u hu =>
    cases h
    obtain rfl := not_not.mp hu
    simp

theorem quotedToken_spec (h : isMark u = true) :
    TokenAt (u :: s) (quotedToken u s).1 (s.drop (quotedToken u s).2) := by
  unfold quotedToken
  cases hread : readQuoted u s with
  | some r => exact .quoted h hread
  | none => simpa using TokenAt.unterminated h hread

theorem bracketToken_spec (s : JsStr) : TokenAt (ascii '[' :: s) (bracketToken s).1 (s.drop (bracketToken s).2) := by
  obtain ⟨w, rest, hw, rfl, hall, hend⟩ := exists_takeWhile (fun u => decide (u ≠ ascii ']')) s
  have hopen : ascii ']' ∉ w := fun hmem => by simpa using hall _ hmem
  simp only [bracketToken, hw]
  cases rest with
  | nil => simpa using TokenAt.openBracket hopen
  | cons v rest =>
    obtain rfl : v = ascii ']' := by simpa using hend
    have hdrop : (w ++ ascii ']' :: rest).drop (w.length + 1) = rest := by
      rw [← drop_drop, drop_left]
      rfl
    rw [if_pos (by simp), hdrop]
    exact .bracket rest hopen

theorem variableToken_spec (u : UInt16) (s : JsStr) :
    TokenAt (u :: s) (variableToken u s).1 (s.drop (variableToken u s).2) := by
  unfold variableToken
  cases hread : readVariable false s with
  | none => exact .illegal _ _
  | some k =>
    have hsplit : u :: s = (u :: s.take k) ++ s.drop k := by simp
    rw [hsplit]
    refine .parameter ((readVariable_apart hread).imp_right ?_)
    rintro ⟨v, hv, hword⟩
    exact ⟨v, by rw [getLast?_cons, Option.mem_def.mp hv]; rfl, hword⟩

theorem numberToken_spec (hu : isDigit u = true ∨ u = ascii '.') :
    TokenAt (u :: s) (numberToken u s).1 (s.drop (numberToken u s).2) := by
  unfold numberToken
  obtain ⟨k, hk⟩ : ∃ k, numberLength (u :: s) - 1 = k := ⟨_, rfl⟩
  have hplain := isPlain_numberLength (u :: s)
  simp only [hk]
  split_ifs with hruns
  · exact .illegal _ _
  · have hsplit : u :: s = (u :: s.take k) ++ s.drop k := by simp
    rw [hsplit]
    refine .number ⟨forall_mem_cons.mpr ⟨?_, fun v hv => hplain v ?_⟩, .inl (Bool.eq_false_iff.mpr hruns)⟩
    · rcases hu with hu | rfl
      · exact isPlain_of_isWord (isWord_of_isDigit hu)
      · decide
    · cases hlen : numberLength (u :: s) with
      | zero =>
        obtain rfl : k = 0 := by omega
        simp at hv
      | succ n =>
        obtain rfl : k = n := by omega
        exact mem_cons_of_mem _ hv

theorem blobToken_spec (hu : isWord u = true) (hs : s.head? = some (ascii '\'')) :
    TokenAt (u :: s) (blobToken s).1 (s.drop (blobToken s).2) := by
  obtain ⟨s, rfl⟩ := head?_eq_some_iff.mp hs
  obtain ⟨w, rest, hw, rfl, hall, -⟩ := exists_takeWhile isHex s
  simp only [blobToken, drop_one, tail_cons, hw]
  split_ifs with hclosed
  · have hrest : rest.head? = some (ascii '\'') := by
      have hat := hclosed.1
      rwa [getElem?_cons_succ, getElem?_append_right le_rfl, Nat.sub_self, ← head?_eq_getElem?] at hat
    obtain ⟨rest, rfl⟩ := head?_eq_some_iff.mp hrest
    have hdrop : (ascii '\'' :: (w ++ ascii '\'' :: rest)).drop (w.length + 2) = rest := by
      rw [drop_succ_cons, ← drop_drop, drop_left]
      rfl
    rw [hdrop]
    exact .blob rest hu hall
  · exact .illegal _ _

theorem operatorToken_spec (u : UInt16) (s : JsStr) :
    TokenAt (u :: s) (operatorToken (u :: s)).1 (s.drop (operatorToken (u :: s)).2) := by
  have hall : (operators.all fun op => op != [] && op.all isPlain && !op.getLast?.any isWord) = true := by
    decide +kernel
  unfold operatorToken
  cases hfind : operators.find? (·.isPrefixOf (u :: s)) with
  | none => exact .illegal _ _
  | some op =>
    have hop := all_eq_true.mp hall op (mem_of_find?_eq_some hfind)
    have hstart : op.isPrefixOf (u :: s) = true := (find?_eq_some_iff_append.mp hfind).1
    obtain ⟨rest, hrest⟩ := isPrefixOf_iff_prefix.mp hstart
    cases op with
    | nil => simp at hop
    | cons v op =>
      obtain ⟨rfl, rfl⟩ := cons_eq_cons.mp hrest
      simp only [Bool.and_eq_true, all_eq_true, getLast?_cons, Option.any_some, Bool.not_eq_true'] at hop
      have hblank : Blank (v :: op) rest := ⟨hop.1.2, .inr ⟨_, getLast?_cons, hop.2⟩⟩
      simpa using TokenAt.operator hblank (v :: op)

theorem getToken_spec (u : UInt16) (s : JsStr) : TokenAt (u :: s) (getToken u s).1 (s.drop (getToken u s).2) := by
  unfold getToken
  split_ifs with hline hblock hsemi hmark hbracket hnum hvar hdigit hblob hid
  · exact .comment _ (.inl hline)
  · exact .comment _ (.inr ⟨hblock.1, hblock.2.1⟩)
  · rw [hsemi]
    exact .semicolon s
  · exact quotedToken_spec hmark
  · rw [hbracket]
    exact bracketToken_spec s
  · obtain ⟨w, rest, hw, rfl, hall, -⟩ := exists_takeWhile isDigit s
    simp only [hw, hnum, drop_left]
    exact .numbered rest hall
  · exact variableToken_spec u s
  · exact numberToken_spec (hdigit.imp_right And.left)
  · exact blobToken_spec (by rcases hblob.1 with rfl | rfl <;> decide) hblob.2
  · obtain ⟨w, rest, hw, rfl, hall, hend⟩ := exists_takeWhile isIdChar s
    rw [hw, drop_left, ← cons_append]
    exact .word (forall_mem_cons.mpr ⟨hid, hall⟩) hend
  · exact operatorToken_spec u s

theorem tokens_eq (skip : Nat) (s : JsStr) : tokens skip s = tokens 0 (s.drop skip) := by
  induction s generalizing skip with
  | nil => cases skip <;> rfl
  | cons u s ih =>
    cases skip with
    | zero => rfl
    | succ skip => exact ih skip

/-- Token by token. -/
theorem tokens_induction {motive : JsStr → List Token → Prop} (nil : motive [] [])
    (space : ∀ {w rest}, Blank w rest → motive rest (tokens 0 rest) → motive (w ++ rest) (tokens 0 rest))
    (token : ∀ {z t rest}, TokenAt z t rest → t ≠ .illegal → rest <:+ z → motive rest (tokens 0 rest) →
      motive z (t :: tokens 0 rest)) (illegal : ∀ z, motive z [.illegal]) (z : JsStr) : motive z (tokens 0 z) := by
  induction hn : z.length using Nat.strong_induction_on generalizing z with
  | _ n ih =>
    subst hn
    cases z with
    | nil => exact nil
    | cons u s =>
      have hrest (k : Nat) : motive (s.drop k) (tokens 0 (s.drop k)) := ih _ (by simp) _ rfl
      simp only [tokens, tokens_eq _ s]
      split
      · next k hspace =>
        rw [show u :: s = (u :: s.take k) ++ s.drop k by simp]
        exact space (blank_getSpace hspace) (hrest k)
      · split_ifs with hillegal
        · rw [hillegal]
          exact illegal _
        · exact token (getToken_spec u s) hillegal ((drop_suffix _ _).trans (suffix_cons _ _)) (hrest _)

end GajaeCode.Sqlite
