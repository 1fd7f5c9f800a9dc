import GajaeCode.Text.Nesting
import GajaeCode.Text.Pattern
import GajaeCode.Text.Utf8Window

/-! Telegram HTML as a sequence of pieces, and the tokens it is cut into. -/
namespace GajaeCode.Telegram

open Text List

def ltUnit : UInt16 := 0x3c
def gtUnit : UInt16 := 0x3e
def ampUnit : UInt16 := 0x26
def semiUnit : UInt16 := 0x3b

def allowedTags : List JsStr :=
  [lit "b", lit "i", lit "u", lit "s", lit "code", lit "pre", lit "a", lit "blockquote", lit "tg-spoiler"]

inductive TokenKind where
  | text
  | opening (name : JsStr)
  | closing (name : JsStr)
  deriving DecidableEq

structure Token where
  value : JsStr
  kind : TokenKind
  deriving DecidableEq

/-- `[a-z-]` under the flag `i`. -/
def isTagUnit (u : UInt16) : Bool := (0x61 ≤ u && u ≤ 0x7a) || (0x41 ≤ u && u ≤ 0x5a) || u == 0x2d

def lowerName (name : JsStr) : JsStr := name.map asciiLower

/-- The name in `</name>`, for a text that ends at its first `>`. -/
def closingName (raw : JsStr) : Option JsStr :=
  let name := (raw.drop 2).dropLast
  if startsWith raw (lit "</") && !name.isEmpty && name.all isTagUnit then some name else none

/-- The name in `<name>` or `<name …>`. -/
def openingName (raw : JsStr) : Option JsStr :=
  let body := (raw.drop 1).dropLast
  let name := body.takeWhile isTagUnit
  if !name.isEmpty && (body.dropWhile isTagUnit).head?.all isJsWhitespace then some name else none

def tagKind (raw : JsStr) : TokenKind :=
  match (closingName raw).filter fun name => allowedTags.contains (lowerName name) with
  | some name => .closing (lowerName name)
  | none =>
    match (openingName raw).filter fun name => allowedTags.contains (lowerName name) with
    | some name => .opening (lowerName name)
    | none => .text

def tokenAt (html : JsStr) : Token :=
  match html with
  | [] => ⟨[], .text⟩
  | u :: rest =>
    if u = ltUnit ∧ gtUnit ∈ rest then
      let raw := html.take (html.idxOf gtUnit + 1)
      ⟨raw, tagKind raw⟩
    else if u = ampUnit ∧ semiUnit ∈ rest ∧ html.idxOf semiUnit ≤ 10 then ⟨html.take (html.idxOf semiUnit + 1), .text⟩
    else ⟨[u], .text⟩

/-- The tokens of a text after its first `skip` units. -/
def tokenizeFrom : Nat → JsStr → List Token
  | _, [] => []
  | skip + 1, _ :: rest => tokenizeFrom skip rest
  | 0, u :: rest =>
    let token := tokenAt (u :: rest)
    token :: tokenizeFrom (token.value.length - 1) rest

def tokenize (html : JsStr) : List Token := tokenizeFrom 0 html

theorem tokenizeFrom_eq (skip : Nat) (html : JsStr) : tokenizeFrom skip html = tokenize (html.drop skip) := by
  induction skip generalizing html with
  | zero => rfl
  | succ skip ih =>
    cases html with
    | nil => rfl
    | cons u rest => exact ih rest

theorem tokenize_append {token : Token} {html} (hne : token.value ≠ [])
    (h : tokenAt (token.value ++ html) = token) : tokenize (token.value ++ html) = token :: tokenize html := by
  obtain ⟨u, rest, hvalue⟩ := exists_cons_of_ne_nil hne
  rw [hvalue, cons_append] at h ⊢
  rw [tokenize, tokenizeFrom, h, tokenizeFrom_eq, hvalue, length_cons, Nat.add_sub_cancel, drop_left]

/-! ### Pieces -/

/-- `[A-Za-z0-9#]`, the units of the name of an entity. -/
def isEntityUnit (u : UInt16) : Bool :=
  (0x61 ≤ u && u ≤ 0x7a) || (0x41 ≤ u && u ≤ 0x5a) || (0x30 ≤ u && u ≤ 0x39) || u == 0x23

/-- The name of an allowed tag, in any case. -/
structure IsTagName (name : JsStr) : Prop where
  units : ∀ u ∈ name, isTagUnit u = true
  allowed : lowerName name ∈ allowedTags

/-- What may follow the name in an opening tag. -/
structure IsAttributes (attributes : JsStr) : Prop where
  space : ∀ u ∈ attributes.head?, isJsWhitespace u = true
  closed : gtUnit ∉ attributes
  wellFormed : WellFormed attributes

/-- A piece of a message: a character, an entity or a tag. -/
inductive HtmlPiece where
  | unit (u : UInt16) (plain : u ≠ ltUnit ∧ u ≠ ampUnit ∧ isSurrogate u = false)
  | pair (hi lo : UInt16) (surrogates : isHighSurrogate hi = true ∧ isLowSurrogate lo = true)
  | entity (name : JsStr) (units : name ≠ [] ∧ ∀ u ∈ name, isEntityUnit u = true)
  | opening (name attributes : JsStr) (tag : IsTagName name ∧ IsAttributes attributes)
  | closing (name : JsStr) (tag : IsTagName name)

structure OpenTag where
  name : JsStr
  tag : JsStr
  deriving DecidableEq

namespace HtmlPiece

def render : HtmlPiece → JsStr
  | unit u _ => [u]
  | pair hi lo _ => [hi, lo]
  | entity name _ => ampUnit :: name ++ [semiUnit]
  | opening name attributes _ => ltUnit :: name ++ attributes ++ [gtUnit]
  | closing name _ => lit "</" ++ name ++ [gtUnit]

def bracket : HtmlPiece → Option (Text.Bracket OpenTag JsStr)
  | opening name attributes h => some (.opening ⟨lowerName name, (opening name attributes h).render⟩)
  | closing name _ => some (.closing (lowerName name))
  | _ => none

def text : HtmlPiece → JsStr
  | opening _ _ _ | closing _ _ => []
  | piece => piece.render

/-- The tokens of a piece. Of a surrogate pair and of a long entity each unit is one. -/
def tokens : HtmlPiece → List Token
  | unit u _ => [⟨[u], .text⟩]
  | pair hi lo _ => [⟨[hi], .text⟩, ⟨[lo], .text⟩]
  | entity name h =>
    if name.length < 10 then [⟨(entity name h).render, .text⟩]
    else (entity name h).render.map fun u => ⟨[u], .text⟩
  | opening name attributes h => [⟨(opening name attributes h).render, .opening (lowerName name)⟩]
  | closing name h => [⟨(closing name h).render, .closing (lowerName name)⟩]

end HtmlPiece

def render (pieces : List HtmlPiece) : JsStr := pieces.flatMap HtmlPiece.render

def brackets (pieces : List HtmlPiece) : List (Text.Bracket OpenTag JsStr) := pieces.filterMap HtmlPiece.bracket

def IsMessage (html : JsStr) : Prop :=
  ∃ pieces : List HtmlPiece, html = render pieces ∧ Nested OpenTag.name (brackets pieces)

/-! ### The tokens of pieces -/

variable {u : UInt16} {name : JsStr}

theorem tokenize_plain (hlt : u ≠ ltUnit) (hamp : u ≠ ampUnit) (rest : JsStr) :
    tokenize (u :: rest) = ⟨[u], .text⟩ :: tokenize rest := by
  apply @tokenize_append ⟨[u], .text⟩ rest (cons_ne_nil _ _)
  rw [singleton_append, tokenAt, if_neg (fun h => hlt h.1), if_neg (fun h => hamp h.1)]

theorem tokenize_units {units} (h : ∀ u ∈ units, u ≠ ltUnit ∧ u ≠ ampUnit) (rest : JsStr) :
    tokenize (units ++ rest) = units.map (fun u => ⟨[u], .text⟩) ++ tokenize rest := by
  induction units with
  | nil => rfl
  | cons u units ih =>
    obtain ⟨hlt, hamp⟩ := h u mem_cons_self
    rw [cons_append, tokenize_plain hlt hamp, ih (forall_mem_cons.mp h).2]
    rfl

/-- An ampersand is a token of its own unless a semicolon follows closely. -/
theorem tokenize_ampersand {rest : JsStr} (h : ¬ (semiUnit ∈ rest ∧ (ampUnit :: rest).idxOf semiUnit ≤ 10)) :
    tokenize (ampUnit :: rest) = ⟨[ampUnit], .text⟩ :: tokenize rest := by
  apply @tokenize_append ⟨[ampUnit], .text⟩ rest (cons_ne_nil _ _)
  rw [singleton_append, tokenAt, if_neg (fun h => absurd h.1 (by decide)), if_neg (fun hs => h hs.2)]

theorem idxOf_append_cons {first : JsStr} (h : u ∉ first) (rest : JsStr) :
    (first ++ u :: rest).idxOf u = first.length := by
  rw [idxOf_append_of_notMem h, idxOf_cons_self, Nat.add_zero]

theorem tokenize_tag {first : JsStr} (h : gtUnit ∉ first) (rest : JsStr) :
    tokenize (ltUnit :: first ++ [gtUnit] ++ rest) =
      ⟨ltUnit :: first ++ [gtUnit], tagKind (ltUnit :: first ++ [gtUnit])⟩ :: tokenize rest := by
  apply @tokenize_append ⟨ltUnit :: first ++ [gtUnit], _⟩ rest (cons_ne_nil _ _)
  have hidx : (ltUnit :: (first ++ gtUnit :: rest)).idxOf gtUnit = first.length + 1 := by
    exact @idxOf_append_cons gtUnit (ltUnit :: first) (by simpa using ⟨by decide, h⟩) rest
  have htake : (ltUnit :: (first ++ gtUnit :: rest)).take (first.length + 1 + 1) = ltUnit :: first ++ [gtUnit] := by
    rw [show ltUnit :: (first ++ gtUnit :: rest) = (ltUnit :: first ++ [gtUnit]) ++ rest by simp]
    exact take_left' (by simp)
  simp only [cons_append, append_assoc, nil_append] at htake ⊢
  rw [tokenAt, if_pos ⟨rfl, by simp⟩, hidx, htake]

theorem IsTagName.ne_nil (h : IsTagName name) : name ≠ [] := by
  rintro rfl
  exact absurd h.allowed (by decide)

theorem isTagName_of_allowed (h : name ∈ allowedTags) : IsTagName name ∧ lowerName name = name := by
  have hall : allowedTags.all (fun name => name.all isTagUnit && lowerName name == name) = true := rfl
  have hname := all_eq_true.mp hall name h
  rw [Bool.and_eq_true, all_eq_true, beq_iff_eq] at hname
  exact ⟨⟨hname.1, hname.2.symm ▸ h⟩, hname.2⟩

theorem tagUnit_ne {v} (hu : isTagUnit u = true) (hv : isTagUnit v = false) : u ≠ v := by
  rintro rfl
  exact Bool.noConfusion (hu.symm.trans hv)

theorem IsTagName.notMem (h : IsTagName name) (hu : isTagUnit u = false) : u ∉ name :=
  fun hmem => tagUnit_ne (h.units u hmem) hu rfl

theorem tagKind_closing (h : IsTagName name) : tagKind (lit "</" ++ name ++ [gtUnit]) = .closing (lowerName name) := by
  have hname : closingName (lit "</" ++ name ++ [gtUnit]) = some name := by
    have hbody : ((lit "</" ++ name ++ [gtUnit]).drop 2).dropLast = name := by
      rw [append_assoc, drop_left' (by rfl), dropLast_concat]
    simp only [closingName, hbody]
    simpa [startsWith, h.ne_nil] using h.units
  simp only [tagKind, hname]
  rw [Option.filter_some, if_pos (by simpa using h.allowed)]

theorem not_tagUnit_of_whitespace (h : isJsWhitespace u = true) : isTagUnit u = false := by
  simp only [isJsWhitespace, isTagUnit, Bool.or_eq_true, Bool.and_eq_true, beq_iff_eq, decide_eq_true_eq,
    ← Bool.not_eq_true, UInt16.le_iff_toNat_le, ← UInt16.toNat_inj, UInt16.reduceToNat] at h ⊢
  omega

theorem closingName_opening (h : IsTagName name) (rest : JsStr) : closingName (ltUnit :: name ++ rest) = none := by
  obtain ⟨u, units, rfl⟩ := exists_cons_of_ne_nil h.ne_nil
  have hslash : 0x2f ≠ u := (tagUnit_ne (h.units u mem_cons_self) (by decide)).symm
  have hstart : startsWith (ltUnit :: (u :: units) ++ rest) (lit "</") = false := by
    change (ltUnit == ltUnit && ((0x2f == u) && _)) = false
    rw [beq_eq_false_iff_ne.mpr hslash, Bool.false_and, Bool.and_false]
  simp only [closingName, hstart, Bool.false_and, Bool.false_eq_true, if_false]

theorem openingName_opening {attributes} (h : IsTagName name)
    (space : ∀ u ∈ attributes.head?, isJsWhitespace u = true) :
    openingName (ltUnit :: name ++ attributes ++ [gtUnit]) = some name := by
  have hbody : ((ltUnit :: name ++ attributes ++ [gtUnit]).drop 1).dropLast = name ++ attributes := by
    rw [cons_append, cons_append, drop_one, tail_cons, dropLast_concat]
  have hspace : attributes.takeWhile isTagUnit = [] ∧ attributes.dropWhile isTagUnit = attributes := by
    cases attributes with
    | nil => exact ⟨rfl, rfl⟩
    | cons u rest => simp [not_tagUnit_of_whitespace (space u rfl)]
  simp only [openingName, hbody]
  rw [takeWhile_append_of_pos h.units, dropWhile_append_of_pos h.units, hspace.1, hspace.2]
  have hall : attributes.head?.all isJsWhitespace = true := by
    cases attributes with
    | nil => rfl
    | cons u rest => exact space u rfl
  simpa [h.ne_nil] using hall

theorem tagKind_opening {attributes} (h : IsTagName name) (space : ∀ u ∈ attributes.head?, isJsWhitespace u = true) :
    tagKind (ltUnit :: name ++ attributes ++ [gtUnit]) = .opening (lowerName name) := by
  have hclosing : closingName (ltUnit :: name ++ attributes ++ [gtUnit]) = none := by
    rw [append_assoc]
    exact closingName_opening h _
  simp only [tagKind, hclosing, openingName_opening h space, Option.filter_none]
  rw [Option.filter_some, if_pos (by simpa using h.allowed)]

theorem entityUnit_plain (h : isEntityUnit u = true) : u ≠ ltUnit ∧ u ≠ ampUnit ∧ u ≠ semiUnit := by
  refine ⟨?_, ?_, ?_⟩ <;> rintro rfl <;> exact absurd h (by decide)

theorem surrogate_plain (h : isSurrogate u = true) : u ≠ ltUnit ∧ u ≠ ampUnit := by
  refine ⟨?_, ?_⟩ <;> rintro rfl <;> exact absurd h (by decide)

namespace HtmlPiece

theorem tokenize_entity (name : JsStr) (h : name ≠ [] ∧ ∀ u ∈ name, isEntityUnit u = true) (rest : JsStr) :
    tokenize ((entity name h).render ++ rest) = (entity name h).tokens ++ tokenize rest := by
  have hsemi : semiUnit ∉ name := fun hmem => (entityUnit_plain (h.2 _ hmem)).2.2 rfl
  have hidx : (ampUnit :: (name ++ semiUnit :: rest)).idxOf semiUnit = name.length + 1 :=
    @idxOf_append_cons semiUnit (ampUnit :: name) (by simpa using ⟨by decide, hsemi⟩) rest
  have hsplit : (entity name h).render ++ rest = ampUnit :: (name ++ semiUnit :: rest) := by
    simp [HtmlPiece.render]
  rw [HtmlPiece.tokens]
  split_ifs with hshort
  · apply @tokenize_append ⟨(entity name h).render, .text⟩ rest (cons_ne_nil _ _)
    have htake : (ampUnit :: (name ++ semiUnit :: rest)).take (name.length + 1 + 1) = (entity name h).render := by
      rw [← hsplit]
      exact take_left' (by simp [HtmlPiece.render])
    rw [hsplit, tokenAt, if_neg (fun hlt => absurd hlt.1 (by decide)), hidx, if_pos ⟨rfl, by simp, by omega⟩, htake]
  · have hunits : ∀ u ∈ name ++ [semiUnit], u ≠ ltUnit ∧ u ≠ ampUnit := by
      refine forall_mem_append.mpr ⟨fun u hu => ?_, forall_mem_singleton.mpr (by decide)⟩
      exact ⟨(entityUnit_plain (h.2 u hu)).1, (entityUnit_plain (h.2 u hu)).2.1⟩
    have hname := tokenize_units hunits rest
    rw [append_assoc, singleton_append] at hname
    rw [hsplit, tokenize_ampersand (fun hs => by omega), hname]
    rfl

/-- A piece is cut into its tokens, whatever follows it. -/
theorem tokenize_append (piece : HtmlPiece) (rest : JsStr) :
    tokenize (piece.render ++ rest) = piece.tokens ++ tokenize rest := by
  cases piece with
  | unit u plain => exact tokenize_plain plain.1 plain.2.1 rest
  | pair hi lo surrogates =>
    refine @tokenize_units [hi, lo] ?_ rest
    intro u hu
    rcases mem_pair.mp hu with rfl | rfl
    · exact surrogate_plain (surrogate_of_high surrogates.1)
    · exact surrogate_plain (surrogate_of_low surrogates.2)
  | entity name units => exact tokenize_entity name units rest
  | opening name attributes tag =>
    have hfree : gtUnit ∉ name ++ attributes := by
      rw [mem_append]
      exact not_or.mpr ⟨tag.1.notMem (by decide), tag.2.closed⟩
    have h := tokenize_tag hfree rest
    rw [← cons_append, tagKind_opening tag.1 tag.2.space] at h
    exact h
  | closing name tag =>
    have hfree : gtUnit ∉ 0x2f :: name := by
      rw [mem_cons]
      exact not_or.mpr ⟨by decide, tag.notMem (by decide)⟩
    have h := tokenize_tag hfree rest
    rw [show ltUnit :: 0x2f :: name ++ [gtUnit] = lit "</" ++ name ++ [gtUnit] from rfl, tagKind_closing tag] at h
    exact h

theorem flatMap_value_tokens (piece : HtmlPiece) : piece.tokens.flatMap Token.value = piece.render := by
  cases piece with
  | entity name units =>
    rw [tokens]
    split_ifs
    · exact append_nil _
    · rw [flatMap_map, flatMap_singleton']
  | _ => simp [tokens, HtmlPiece.render]

end HtmlPiece

def tokensOf (pieces : List HtmlPiece) : List Token := pieces.flatMap HtmlPiece.tokens

variable (pieces : List HtmlPiece)

theorem tokenize_render_append (rest : JsStr) :
    tokenize (render pieces ++ rest) = tokensOf pieces ++ tokenize rest := by
  induction pieces with
  | nil => rfl
  | cons piece pieces ih =>
    rw [render, flatMap_cons, append_assoc, piece.tokenize_append, tokensOf, flatMap_cons, append_assoc]
    exact congrArg _ ih

theorem tokenize_render : tokenize (render pieces) = tokensOf pieces := by
  have h := tokenize_render_append pieces []
  rw [append_nil] at h
  exact h.trans (append_nil _)

/-! ### The text without tags -/

def withoutTags (html : JsStr) : JsStr :=
  ((tokenize html).filter fun token => token.kind = .text).flatMap Token.value

theorem HtmlPiece.text_eq (piece : HtmlPiece) :
    (piece.tokens.filter fun token => token.kind = .text).flatMap Token.value = piece.text := by
  cases piece with
  | entity name units =>
    have hall : ∀ token ∈ (entity name units).tokens, decide (token.kind = .text) = true := by
      intro token htoken
      rw [tokens] at htoken
      split_ifs at htoken
      · rw [mem_singleton.mp htoken]
        rfl
      · obtain ⟨u, _, rfl⟩ := mem_map.mp htoken
        rfl
    rw [filter_eq_self.mpr hall]
    exact flatMap_value_tokens _
  | _ => simp [tokens, text, HtmlPiece.render]

theorem withoutTags_render : withoutTags (render pieces) = pieces.flatMap HtmlPiece.text := by
  rw [withoutTags, tokenize_render, tokensOf, filter_flatMap, flatMap_assoc]
  exact flatMap_congr fun piece _ => piece.text_eq

end GajaeCode.Telegram
