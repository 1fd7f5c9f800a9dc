import GajaeCode.Telegram.Markdown

/-! Well-formed converted text: units, the entities that escaping writes, and nested tags. -/
namespace GajaeCode.Telegram

open Text List

inductive Entity where
  | amp
  | lt
  | gt
  | quot

def Entity.name : Entity → JsStr
  | .amp => lit "amp"
  | .lt => lit "lt"
  | .gt => lit "gt"
  | .quot => lit "quot"

inductive Inline where
  | unit (u : UInt16) (plain : u ≠ ltUnit ∧ u ≠ gtUnit ∧ u ≠ ampUnit)
  | entity (e : Entity)

def Inline.render : Inline → JsStr
  | .unit u _ => [u]
  | .entity e => ampUnit :: e.name ++ [semiUnit]

def inlineText (text : List Inline) : JsStr := text.flatMap Inline.render

inductive Markup where
  | inline (inline : Inline)
  | opening (name : JsStr) (attributes : List Inline) (allowed : name ∈ allowedTags)
      (space : ∀ u ∈ (inlineText attributes).head?, isJsWhitespace u = true)
  | closing (name : JsStr) (allowed : name ∈ allowedTags)

namespace Markup

def render : Markup → JsStr
  | inline i => i.render
  | opening name attributes _ _ => ltUnit :: name ++ inlineText attributes ++ [gtUnit]
  | closing name _ => lit "</" ++ name ++ [gtUnit]

def bracket : Markup → Option (Text.Bracket JsStr JsStr)
  | inline _ => none
  | opening name _ _ _ => some (.opening name)
  | closing name _ => some (.closing name)

def Bare : Markup → Prop
  | opening _ attributes _ _ => attributes = []
  | _ => True

end Markup

def markupText (pieces : List Markup) : JsStr := pieces.flatMap Markup.render

/-- Text in which tags of the allowed set are nested and closed, and `<`, `>` and `&` stand only in tags
and entities. -/
def IsHtml (html : JsStr) : Prop :=
  ∃ pieces : List Markup, html = markupText pieces ∧ Nested id (pieces.filterMap Markup.bracket)

/-- Text of pieces, nested or not. -/
def IsMarkup (html : JsStr) : Prop := ∃ pieces : List Markup, html = markupText pieces

def IsBare (html : JsStr) : Prop := ∃ pieces : List Markup, html = markupText pieces ∧ ∀ piece ∈ pieces, piece.Bare

def IsEscaped (html : JsStr) : Prop := ∃ text : List Inline, html = inlineText text

/-! ### The tags of a text -/

def Token.bracket (token : Token) : Option (Text.Bracket JsStr JsStr) :=
  match token.kind with
  | .opening name => some (.opening name)
  | .closing name => some (.closing name)
  | .text => none

def bracketsOf (html : JsStr) : List (Text.Bracket JsStr JsStr) := (tokenize html).filterMap Token.bracket

theorem Entity.name_units (e : Entity) : e.name ≠ [] ∧ ∀ u ∈ e.name, isTagUnit u = true ∧ isEntityUnit u = true := by
  have hunits : e.name.all (fun u => isTagUnit u && isEntityUnit u) = true := by
    cases e <;> rfl
  refine ⟨by cases e <;> exact cons_ne_nil _ _, ?_⟩
  intro u hu
  simpa using all_eq_true.mp hunits u hu

theorem Entity.tokenize_append (e : Entity) (rest : JsStr) :
    tokenize ((Inline.entity e).render ++ rest) = ⟨(Inline.entity e).render, .text⟩ :: tokenize rest := by
  have h := HtmlPiece.tokenize_entity e.name ⟨e.name_units.1, fun u hu => (e.name_units.2 u hu).2⟩ rest
  rw [HtmlPiece.tokens, if_pos (by cases e <;> decide)] at h
  exact h

variable (text : List Inline)

theorem gt_notMem_inlineText : gtUnit ∉ inlineText text := by
  intro hmem
  obtain ⟨i, -, hmem⟩ := mem_flatMap.mp hmem
  cases i with
  | unit u plain => exact plain.2.1 (mem_singleton.mp hmem).symm
  | entity e => cases e <;> exact absurd hmem (by decide)

theorem Markup.bracketsOf_append (piece : Markup) (rest : JsStr) :
    bracketsOf (piece.render ++ rest) = piece.bracket.toList ++ bracketsOf rest := by
  cases piece with
  | inline i =>
    cases i with
    | unit u plain => exact (congrArg (List.filterMap _) (tokenize_plain plain.1 plain.2.2 rest)).trans rfl
    | entity e => exact (congrArg (List.filterMap _) (e.tokenize_append rest)).trans rfl
  | opening name attributes allowed space =>
    obtain ⟨htag, hlower⟩ := isTagName_of_allowed allowed
    have hfree : gtUnit ∉ name ++ inlineText attributes := by
      rw [mem_append]
      exact not_or.mpr ⟨htag.notMem (by decide), gt_notMem_inlineText attributes⟩
    have h := tokenize_tag hfree rest
    rw [← cons_append, tagKind_opening htag space, hlower] at h
    exact congrArg (List.filterMap _) h
  | closing name allowed =>
    obtain ⟨htag, hlower⟩ := isTagName_of_allowed allowed
    have hfree : gtUnit ∉ 0x2f :: name := by
      rw [mem_cons]
      exact not_or.mpr ⟨by decide, htag.notMem (by decide)⟩
    have h := tokenize_tag hfree rest
    rw [show ltUnit :: 0x2f :: name ++ [gtUnit] = lit "</" ++ name ++ [gtUnit] from rfl, tagKind_closing htag,
      hlower] at h
    exact congrArg (List.filterMap _) h

variable (pieces : List Markup)

theorem bracketsOf_markupText_append (rest : JsStr) :
    bracketsOf (markupText pieces ++ rest) = pieces.filterMap Markup.bracket ++ bracketsOf rest := by
  induction pieces with
  | nil => rfl
  | cons piece pieces ih =>
    rw [markupText, flatMap_cons, append_assoc, piece.bracketsOf_append]
    change _ ++ bracketsOf (markupText pieces ++ rest) = _
    rw [ih, filterMap_cons]
    cases piece.bracket <;> rfl

theorem bracketsOf_markupText : bracketsOf (markupText pieces) = pieces.filterMap Markup.bracket := by
  have h := bracketsOf_markupText_append pieces []
  rw [append_nil] at h
  exact h.trans (append_nil _)

theorem markupText_map_inline : markupText (text.map .inline) = inlineText text := by
  rw [markupText, flatMap_map]
  rfl

theorem filterMap_bracket_map_inline : (text.map Markup.inline).filterMap Markup.bracket = [] := by
  rw [filterMap_map]
  exact filterMap_eq_nil_iff.mpr fun _ _ => rfl

section

variable {a b html : JsStr}

theorem IsMarkup.bracketsOf_append (ha : IsMarkup a) (b : JsStr) :
    bracketsOf (a ++ b) = bracketsOf a ++ bracketsOf b := by
  obtain ⟨pieces, rfl⟩ := ha
  rw [bracketsOf_markupText_append, bracketsOf_markupText]

/-- Which tags a text has does not depend on how it is read. -/
theorem isHtml_iff (h : IsMarkup html) : IsHtml html ↔ Nested id (bracketsOf html) := by
  constructor
  · rintro ⟨pieces, rfl, hnested⟩
    rwa [bracketsOf_markupText]
  · intro hnested
    obtain ⟨pieces, rfl⟩ := h
    rw [bracketsOf_markupText] at hnested
    exact ⟨pieces, rfl, hnested⟩

theorem IsHtml.isMarkup (h : IsHtml html) : IsMarkup html := by
  obtain ⟨pieces, heq, -⟩ := h
  exact ⟨pieces, heq⟩

theorem IsBare.isMarkup (h : IsBare html) : IsMarkup html := by
  obtain ⟨pieces, heq, -⟩ := h
  exact ⟨pieces, heq⟩

theorem IsMarkup.append (ha : IsMarkup a) (hb : IsMarkup b) : IsMarkup (a ++ b) := by
  obtain ⟨first, rfl⟩ := ha
  obtain ⟨last, rfl⟩ := hb
  exact ⟨first ++ last, flatMap_append.symm⟩

theorem IsBare.append (ha : IsBare a) (hb : IsBare b) : IsBare (a ++ b) := by
  obtain ⟨first, rfl, hfirst⟩ := ha
  obtain ⟨last, rfl, hlast⟩ := hb
  refine ⟨first ++ last, flatMap_append.symm, ?_⟩
  exact forall_mem_append.mpr ⟨hfirst, hlast⟩

theorem IsEscaped.append (ha : IsEscaped a) (hb : IsEscaped b) : IsEscaped (a ++ b) := by
  obtain ⟨first, rfl⟩ := ha
  obtain ⟨last, rfl⟩ := hb
  exact ⟨first ++ last, flatMap_append.symm⟩

theorem IsHtml.append (ha : IsHtml a) (hb : IsHtml b) : IsHtml (a ++ b) := by
  have hmarkup := ha.isMarkup.append hb.isMarkup
  rw [isHtml_iff hmarkup, ha.isMarkup.bracketsOf_append]
  exact ((isHtml_iff ha.isMarkup).mp ha).append ((isHtml_iff hb.isMarkup).mp hb)

theorem IsEscaped.isBare (h : IsEscaped html) : IsBare html := by
  obtain ⟨text, rfl⟩ := h
  refine ⟨text.map .inline, (markupText_map_inline text).symm, ?_⟩
  intro piece hpiece
  obtain ⟨i, -, rfl⟩ := mem_map.mp hpiece
  exact trivial

theorem IsEscaped.bracketsOf_eq (h : IsEscaped html) : bracketsOf html = [] := by
  obtain ⟨text, rfl⟩ := h
  rw [← markupText_map_inline, bracketsOf_markupText, filterMap_bracket_map_inline]

theorem IsEscaped.isHtml (h : IsEscaped html) : IsHtml html := by
  rw [isHtml_iff h.isBare.isMarkup, h.bracketsOf_eq]
  rfl

theorem isEscaped_of_plain (h : ∀ u ∈ html, u ≠ ltUnit ∧ u ≠ gtUnit ∧ u ≠ ampUnit) : IsEscaped html := by
  induction html with
  | nil => exact ⟨[], rfl⟩
  | cons u html ih =>
    obtain ⟨text, rfl⟩ := ih (forall_mem_cons.mp h).2
    exact ⟨.unit u (h u mem_cons_self) :: text, rfl⟩

end

/-! ### Wrapping in a tag -/

section

variable {name html : JsStr}

theorem isBare_opener (h : name ∈ allowedTags) : IsBare (ltUnit :: name ++ [gtUnit]) := by
  refine ⟨[.opening name [] h nofun], ?_, ?_⟩
  · simp [markupText, Markup.render, inlineText]
  · exact forall_mem_singleton.mpr rfl

theorem isBare_closer (h : name ∈ allowedTags) : IsBare (lit "</" ++ name ++ [gtUnit]) := by
  exact ⟨[.closing name h], (append_nil _).symm, forall_mem_singleton.mpr trivial⟩

theorem IsBare.tag (h : IsBare html) (hname : name ∈ allowedTags) : IsBare (tag name html) :=
  ((isBare_opener hname).append h).append (isBare_closer hname)

theorem bracketsOf_opener (h : name ∈ allowedTags) : bracketsOf (ltUnit :: name ++ [gtUnit]) = [.opening name] := by
  have hb := (Markup.opening name [] h nofun).bracketsOf_append []
  simpa [Markup.render, inlineText, Markup.bracket, bracketsOf, tokenize, tokenizeFrom] using hb

theorem bracketsOf_closer (h : name ∈ allowedTags) : bracketsOf (lit "</" ++ name ++ [gtUnit]) = [.closing name] := by
  have hb := (Markup.closing name h).bracketsOf_append []
  rw [append_nil] at hb
  exact hb

theorem IsMarkup.bracketsOf_tag (h : IsMarkup html) (hname : name ∈ allowedTags) :
    bracketsOf (tag name html) = .opening name :: bracketsOf html ++ [.closing name] := by
  have hopen := (isBare_opener hname).isMarkup
  rw [Telegram.tag, (hopen.append h).bracketsOf_append, hopen.bracketsOf_append, bracketsOf_opener hname,
    bracketsOf_closer hname]
  rfl

theorem IsHtml.tag (h : IsHtml html) (hname : name ∈ allowedTags) : IsHtml (tag name html) := by
  have hmarkup : IsMarkup (Telegram.tag name html) :=
    ((isBare_opener hname).isMarkup.append h.isMarkup).append (isBare_closer hname).isMarkup
  rw [isHtml_iff hmarkup, h.isMarkup.bracketsOf_tag hname]
  exact ((isHtml_iff h.isMarkup).mp h).wrap name

end

/-! ### Cutting at a unit -/

/-- A unit that no tag without attributes and no entity holds. -/
def IsCut (u : UInt16) : Prop :=
  isTagUnit u = false ∧ u ≠ ltUnit ∧ u ≠ gtUnit ∧ u ≠ ampUnit ∧ u ≠ semiUnit ∧ u ≠ ascii '/'

instance (u : UInt16) : Decidable (IsCut u) := inferInstanceAs (Decidable (_ ∧ _))

variable {u : UInt16} {a b : JsStr}

theorem IsCut.isEscaped (h : IsCut u) : IsEscaped [u] :=
  ⟨[.unit u ⟨h.2.1, h.2.2.1, h.2.2.2.1⟩], rfl⟩

theorem IsCut.notMem_entity (h : IsCut u) (e : Entity) : u ∉ (Inline.entity e).render := by
  intro hmem
  rcases mem_append.mp hmem with hmem | hmem
  · rcases mem_cons.mp hmem with rfl | hmem
    · exact h.2.2.2.1 rfl
    · exact Bool.noConfusion ((e.name_units.2 u hmem).1.symm.trans h.1)
  · exact h.2.2.2.2.1 (mem_singleton.mp hmem)

/-- A text is cut between the items that spell it where a unit is an item of its own. -/
theorem flatMap_eq_append_cons {ι} {f : ι → JsStr} {items : List ι}
    (hitem : ∀ i ∈ items, u ∈ f i → f i = [u]) (h : items.flatMap f = a ++ u :: b) :
    ∃ first i last, items = first ++ i :: last ∧ a = first.flatMap f ∧ f i = [u] ∧ b = last.flatMap f := by
  induction items generalizing a with
  | nil => simp at h
  | cons i items ih =>
    rcases append_eq_append_iff.mp h with ⟨rest, ha, hrest⟩ | ⟨rest, hi, hrest⟩
    · obtain ⟨first, j, last, rfl, hfirst, hj, hlast⟩ := ih (forall_mem_cons.mp hitem).2 hrest
      exact ⟨i :: first, j, last, rfl, by rw [ha, hfirst, flatMap_cons], hj, hlast⟩
    · cases rest with
      | nil =>
        rw [append_nil] at hi
        obtain ⟨first, j, last, rfl, hfirst, hj, hlast⟩ := @ih [] (forall_mem_cons.mp hitem).2 hrest.symm
        exact ⟨i :: first, j, last, rfl, by rw [flatMap_cons, ← hfirst, append_nil, hi], hj, hlast⟩
      | cons v rest =>
        injection hrest with hv hb
        subst hv
        have hu := hitem i mem_cons_self (hi ▸ mem_append_right _ mem_cons_self)
        rw [hu] at hi
        rcases singleton_eq_append_iff.mp hi with ⟨ha, hv⟩ | ⟨-, hv⟩
        · injection hv with _ hnil
          exact ⟨[], i, items, rfl, ha, hu, by rw [hb, hnil]; rfl⟩
        · cases hv

theorem IsCut.inline_render (h : IsCut u) {i : Inline} (hu : u ∈ i.render) : i.render = [u] := by
  cases i with
  | unit v plain =>
    rw [Inline.render] at hu ⊢
    rw [mem_singleton.mp hu]
  | entity e => exact absurd hu (h.notMem_entity e)

theorem IsCut.bare_render (h : IsCut u) {piece : Markup} (hbare : piece.Bare)
    (hu : u ∈ piece.render) : piece.render = [u] := by
  have hname : ∀ {name : JsStr}, name ∈ allowedTags → u ∉ name :=
    fun hname => (isTagName_of_allowed hname).1.notMem h.1
  cases piece with
  | inline i => exact h.inline_render hu
  | opening name attributes allowed space =>
    exfalso
    obtain rfl : attributes = [] := hbare
    simp only [Markup.render, inlineText, flatMap_nil, append_nil, mem_append, mem_cons, not_mem_nil, or_false] at hu
    rcases hu with (hu | hu) | hu
    · exact h.2.1 hu
    · exact hname allowed hu
    · exact h.2.2.1 hu
  | closing name allowed =>
    exfalso
    rcases mem_append.mp hu with hu | hu
    · rcases mem_append.mp hu with hu | hu
      · rcases mem_pair.mp hu with hu | hu
        · exact h.2.1 hu
        · exact h.2.2.2.2.2 hu
      · exact hname allowed hu
    · exact h.2.2.1 (mem_singleton.mp hu)

theorem notMem_tag_marks {name} (hu : IsCut u) (hname : name ∈ allowedTags) :
    u ∉ ltUnit :: name ++ [gtUnit] ∧ u ∉ lit "</" ++ name ++ [gtUnit] := by
  have hfree := (isTagName_of_allowed hname).1.notMem hu.1
  have hslash : u ∉ lit "</" := by
    intro hmem
    rcases mem_pair.mp hmem with hmem | hmem
    · exact hu.2.1 hmem
    · exact hu.2.2.2.2.2 hmem
  exact ⟨by simpa using ⟨hu.2.1, hfree, hu.2.2.1⟩, by simpa using ⟨hslash, hfree, hu.2.2.1⟩⟩

theorem mem_tag_iff {name html} (hu : IsCut u) (hname : name ∈ allowedTags) : u ∈ tag name html ↔ u ∈ html := by
  obtain ⟨hopen, hclose⟩ := notMem_tag_marks hu hname
  rw [tag, mem_append, or_iff_left hclose, mem_append, or_iff_right hopen]

theorem quoteBody_eq_some {line body} (h : quoteBody line = some body) :
    ∃ gap, line = lit "&gt;" ++ (gap ++ body) ∧ ∀ u ∈ gap, isJsWhitespace u = true := by
  simp only [quoteBody] at h
  split_ifs at h with hstart hspace
  all_goals
    obtain ⟨rest, rfl⟩ := isPrefixOf_iff_prefix.mp hstart
    cases h
  · cases rest with
    | nil => exact ⟨[], rfl, nofun⟩
    | cons u rest => exact ⟨[u], rfl, forall_mem_singleton.mpr hspace⟩
  · exact ⟨[], rfl, nofun⟩

theorem headerBody_eq_some {line body} (h : headerBody line = some body) :
    ∃ marks, line = marks ++ body ∧ ∀ u ∈ marks, isUnit '#' u = true ∨ isJsWhitespace u = true := by
  simp only [headerBody] at h
  split_ifs at h
  cases h
  refine ⟨line.takeWhile (isUnit '#') ++ (line.dropWhile (isUnit '#')).takeWhile isJsWhitespace, ?_,
    forall_mem_append.mpr ⟨?_, ?_⟩⟩
  · rw [append_assoc, takeWhile_append_dropWhile, takeWhile_append_dropWhile]
  · exact fun u hu => .inl (mem_takeWhile_imp hu)
  · exact fun u hu => .inr (mem_takeWhile_imp hu)

theorem isCut_nulUnit : IsCut nulUnit := by decide

theorem IsEscaped.cut (hu : IsCut u) (h : IsEscaped (a ++ u :: b)) : IsEscaped a ∧ IsEscaped b := by
  obtain ⟨text, htext⟩ := h
  obtain ⟨first, i, last, -, ha, -, hb⟩ := flatMap_eq_append_cons (fun i _ hi => hu.inline_render hi) htext.symm
  exact ⟨⟨first, ha⟩, ⟨last, hb⟩⟩

theorem IsBare.cut (hu : IsCut u) (h : IsBare (a ++ u :: b)) : IsBare a ∧ IsBare b := by
  obtain ⟨pieces, htext, hbare⟩ := h
  obtain ⟨first, piece, last, rfl, ha, -, hb⟩ :=
    flatMap_eq_append_cons (fun piece hpiece hmem => hu.bare_render (hbare piece hpiece) hmem) htext.symm
  refine ⟨⟨first, ha, ?_⟩, ⟨last, hb, ?_⟩⟩
  · intro piece hpiece
    exact hbare piece (mem_append_left _ hpiece)
  · intro piece hpiece
    exact hbare piece (mem_append_right _ (mem_cons_of_mem _ hpiece))

end GajaeCode.Telegram
