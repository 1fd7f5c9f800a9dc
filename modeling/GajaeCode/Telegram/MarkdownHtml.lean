import GajaeCode.Telegram.Markup

/-! When converted markdown is well formed. Headers, quotes, bold and italic text nest; a strikethrough may
reach over the end of bold or italic text. -/
namespace GajaeCode.Telegram

open Text List

/-! ### Escaping -/

theorem isEscaped_escapeHtml_unit (u : UInt16) : IsEscaped (escapeHtml [u]) := by
  by_cases hamp : u = ampUnit
  · subst hamp
    exact ⟨[.entity .amp], rfl⟩
  · by_cases hlt : u = ltUnit
    · subst hlt
      exact ⟨[.entity .lt], rfl⟩
    · by_cases hgt : u = gtUnit
      · subst hgt
        exact ⟨[.entity .gt], rfl⟩
      · refine ⟨[.unit u ⟨hlt, hgt, hamp⟩], ?_⟩
        simp [escapeHtml, replaceUnit, hamp, hlt, hgt, inlineText, Inline.render]

theorem isEscaped_escapeHtml (value : JsStr) : IsEscaped (escapeHtml value) := by
  induction value with
  | nil => exact ⟨[], rfl⟩
  | cons u value ih =>
    rw [← singleton_append, escapeHtml_append]
    exact (isEscaped_escapeHtml_unit u).append ih

theorem isEscaped_escapeAttr (value : JsStr) : IsEscaped (escapeAttr value) := by
  obtain ⟨text, htext⟩ := isEscaped_escapeHtml value
  rw [escapeAttr, htext]
  clear htext
  induction text with
  | nil => exact ⟨[], rfl⟩
  | cons i text ih =>
    rw [inlineText, flatMap_cons, replaceUnit_append]
    refine IsEscaped.append ?_ ih
    cases i with
    | unit u plain =>
      by_cases hquote : u = ascii '"'
      · exact ⟨[.entity .quot], by subst hquote; rfl⟩
      · refine ⟨[.unit u plain], ?_⟩
        simp [replaceUnit, Inline.render, hquote, inlineText]
    | entity e => exact ⟨[.entity e], by cases e <;> rfl⟩

variable {html b : JsStr}

theorem isEscaped_of_all (h : html.all (fun u => u ≠ ltUnit && u ≠ gtUnit && u ≠ ampUnit) = true) : IsEscaped html := by
  apply isEscaped_of_plain
  simpa [and_assoc] using h

theorem IsEscaped.of_append {a} (ha : IsEscaped a) (h : IsEscaped (a ++ b)) : IsEscaped b := by
  obtain ⟨first, rfl⟩ := ha
  induction first with
  | nil => exact h
  | cons i first ih =>
    apply ih
    obtain ⟨text, htext⟩ := h
    rw [inlineText, flatMap_cons, append_assoc] at htext
    cases text with
    | nil => cases i <;> simp [inlineText, Inline.render] at htext
    | cons j text =>
      refine ⟨text, ?_⟩
      change _ = j.render ++ inlineText text at htext
      cases i with
      | unit u plain =>
        cases j with
        | unit v _ => exact (List.cons.inj htext).2
        | entity e => exact absurd (List.cons.inj htext).1 plain.2.2
      | entity e =>
        cases j with
        | unit v plain => exact absurd (List.cons.inj htext).1.symm plain.2.2
        | entity e' =>
          cases e <;> cases e' <;> simp [Inline.render, Entity.name, lit] at htext <;> exact htext

/-! ### Fragments -/

/-- Nested tags without attributes. -/
structure Fragment (html : JsStr) : Prop where
  bare : IsBare html
  nested : Nested id (bracketsOf html)

theorem IsEscaped.fragment (h : IsEscaped html) : Fragment html :=
  ⟨h.isBare, by rw [h.bracketsOf_eq]; rfl⟩

theorem Fragment.append {a} (ha : Fragment a) (hb : Fragment b) : Fragment (a ++ b) := by
  refine ⟨ha.bare.append hb.bare, ?_⟩
  rw [ha.bare.isMarkup.bracketsOf_append]
  exact ha.nested.append hb.nested

theorem Fragment.tag {name} (h : Fragment html) (hname : name ∈ allowedTags) : Fragment (tag name html) := by
  refine ⟨h.bare.tag hname, ?_⟩
  rw [h.bare.isMarkup.bracketsOf_tag hname]
  exact h.nested.wrap name

/-- Between two markers on a line stands a fragment. -/
def Interior (marker : UInt16) (html : JsStr) : Prop :=
  ∀ a seg c, html = a ++ marker :: (seg ++ marker :: c) → marker ∉ seg → LF ∉ seg → Fragment seg

def starUnit : UInt16 := ascii '*'

def NotStrike : Text.Bracket JsStr JsStr → Prop
  | .opening name => name ≠ lit "s"
  | .closing name => name ≠ lit "s"

/-- Text of headers, quotes and emphasis. -/
structure Formatted (html : JsStr) : Prop where
  fragment : Fragment html
  interior : Interior starUnit html
  notStrike : ∀ bracket ∈ bracketsOf html, NotStrike bracket

theorem append_eq_append_cons {u} {first middle last a : JsStr} (hu : u ∉ middle)
    (h : first ++ middle ++ last = a ++ u :: b) :
    (∃ p, first = a ++ u :: p ∧ b = p ++ middle ++ last) ∨ ∃ q, last = q ++ u :: b ∧ a = first ++ middle ++ q := by
  rcases append_eq_append_iff.mp h with ⟨q, ha, hlast⟩ | ⟨r, hfirst, hb⟩
  · exact .inr ⟨q, hlast, ha⟩
  · cases r with
    | nil =>
      rw [append_nil] at hfirst
      exact .inr ⟨[], hb.symm, by rw [append_nil, hfirst]⟩
    | cons v r =>
      injection hb with hv hb
      subst hv
      rcases append_eq_append_iff.mp hfirst with ⟨q, -, hmiddle⟩ | ⟨p, hp, hr⟩
      · exact absurd (hmiddle ▸ mem_append_right _ mem_cons_self) hu
      · cases p with
        | nil =>
          rw [nil_append] at hr
          exact absurd (hr ▸ mem_cons_self) hu
        | cons w p =>
          injection hr with hw hr
          subst hw
          exact .inl ⟨p, hp, by rw [hb, hr]; rfl⟩

theorem Interior.append_LF {marker} (hmarker : marker ≠ LF) {x y} (hx : Interior marker x)
    (hy : Interior marker y) : Interior marker (x ++ LF :: y) := by
  intro a seg c h hseg hLF
  have hmiddle : marker ∉ [LF] := by simpa using hmarker
  rw [← singleton_append, ← append_assoc] at h
  rcases append_eq_append_cons hmiddle h with ⟨p, hfirst, hrest⟩ | ⟨q, hlast, -⟩
  · rcases append_eq_append_cons hmiddle hrest.symm with ⟨p', hp, -⟩ | ⟨q, -, hq⟩
    · exact hx a seg p' (by rw [hfirst, hp]) hseg hLF
    · exact absurd (by rw [hq]; simp) hLF
  · exact hy q seg c hlast hseg hLF

theorem Interior.surround {marker before after} (h : Interior marker html)
    (hbefore : marker ∉ before) (hafter : marker ∉ after) : Interior marker (before ++ html ++ after) := by
  intro a seg c heq hseg hLF
  have hstart : ∃ a', html ++ after = a' ++ marker :: (seg ++ marker :: c) := by
    rw [append_assoc, ← nil_append (before ++ _), ← append_assoc] at heq
    rcases append_eq_append_cons hbefore heq with ⟨p, hp, -⟩ | ⟨q, hq, -⟩
    · simp at hp
    · exact ⟨q, hq⟩
  obtain ⟨a', hstart⟩ := hstart
  rw [← append_nil (html ++ after)] at hstart
  rcases append_eq_append_cons hafter hstart with ⟨p, hp, hrest⟩ | ⟨q, hq, -⟩
  · rcases append_eq_append_cons hafter hrest.symm with ⟨p', hp', -⟩ | ⟨q, hq, -⟩
    · exact h a' seg p' (by rw [hp, hp']) hseg hLF
    · simp at hq
  · simp at hq

theorem isCut_starUnit : IsCut starUnit := by decide

theorem IsEscaped.interior (h : IsEscaped html) : Interior starUnit html := by
  rintro a seg c rfl - -
  exact ((h.cut isCut_starUnit).2.cut isCut_starUnit).1.fragment

/-! ### Bold and italic text -/

section

variable {k : Nat} {name pre s post body : JsStr}

/-- Replacing the text between markers on a line by a tag keeps what stands between markers. -/
theorem Interior.replace {wrapped}
    (h : Interior starUnit (pre ++ (replicate (k + 1) starUnit ++ body ++ replicate (k + 1) starUnit) ++ post))
    (hwrapped : Fragment wrapped) (hstar : starUnit ∉ wrapped) : Interior starUnit (pre ++ wrapped ++ post) := by
  intro a seg c heq hseg hLF
  rcases append_eq_append_cons hstar heq with ⟨p, hpre, hrest⟩ | ⟨q, hpost, -⟩
  · rcases append_eq_append_cons hstar hrest.symm with ⟨p', hp, -⟩ | ⟨q, hpost, hsplit⟩
    · apply h a seg (p' ++ (replicate (k + 1) starUnit ++ body ++ replicate (k + 1) starUnit) ++ post) _ hseg hLF
      rw [hpre, hp]
      simp only [append_assoc, cons_append]
    · have hmem : ∀ u, (u ∈ p → u ∈ seg) ∧ (u ∈ q → u ∈ seg) := by
        intro u
        rw [hsplit, mem_append, mem_append]
        exact ⟨fun hu => .inl (.inl hu), .inr⟩
      have hp : Fragment p := by
        apply h a p (replicate k starUnit ++ body ++ replicate (k + 1) starUnit ++ post) _
          (fun hu => hseg ((hmem _).1 hu)) (fun hu => hLF ((hmem _).1 hu))
        rw [hpre, replicate_succ]
        simp only [append_assoc, cons_append]
      have hq : Fragment q := by
        apply h (pre ++ replicate (k + 1) starUnit ++ body ++ replicate k starUnit) q c _
          (fun hu => hseg ((hmem _).2 hu)) (fun hu => hLF ((hmem _).2 hu))
        rw [hpost]
        simp only [append_assoc, replicate_append_comm]
      rw [hsplit]
      exact (hp.append hwrapped).append hq
  · apply h (pre ++ (replicate (k + 1) starUnit ++ body ++ replicate (k + 1) starUnit) ++ q) seg c _ hseg hLF
    rw [hpost]
    simp only [append_assoc]

theorem isEscaped_replicate {u} (hu : IsCut u) (k : Nat) : IsEscaped (replicate k u) := by
  apply isEscaped_of_plain
  intro v hv
  rw [eq_of_mem_replicate hv]
  exact ⟨hu.2.1, hu.2.2.1, hu.2.2.2.1⟩

theorem IsBare.cut_markers {marker} (hmarker : IsCut marker)
    (h : IsBare (pre ++ (replicate (k + 1) marker ++ body ++ replicate (k + 1) marker) ++ post)) :
    IsBare pre ∧ IsBare body ∧ IsBare post := by
  rw [delimiters_around] at h
  obtain ⟨hleft, hrest⟩ := h.cut hmarker
  obtain ⟨hbody, hright⟩ := hrest.cut hmarker
  refine ⟨?_, hbody, ?_⟩
  · cases k with
    | zero => simpa using hleft
    | succ k => exact (IsBare.cut hmarker (by simpa only [replicate_succ] using hleft)).1
  · cases k with
    | zero => simpa using hright
    | succ k =>
      rw [replicate_append_comm] at hright
      exact (hright.cut hmarker).2

theorem bracketsOf_markers {marker} (hmarker : IsCut marker) (hpre : IsMarkup pre) (hbody : IsMarkup body) :
    bracketsOf (pre ++ (replicate k marker ++ body ++ replicate k marker) ++ post) =
      bracketsOf pre ++ bracketsOf body ++ bracketsOf post := by
  have hmarkers := isEscaped_replicate hmarker k
  have hopen := hmarkers.isBare.isMarkup
  rw [(hpre.append ((hopen.append hbody).append hopen)).bracketsOf_append, hpre.bracketsOf_append,
    (hopen.append hbody).bracketsOf_append, hopen.bracketsOf_append, hmarkers.bracketsOf_eq, nil_append,
    append_nil]

theorem bracketsOf_tagged (hname : name ∈ allowedTags) (hpre : IsMarkup pre) (hbody : IsBare body) :
    bracketsOf (pre ++ tag name body ++ post) =
      bracketsOf pre ++ (.opening name :: bracketsOf body ++ [.closing name]) ++ bracketsOf post := by
  rw [(hpre.append (hbody.tag hname).isMarkup).bracketsOf_append, hpre.bracketsOf_append,
    hbody.isMarkup.bracketsOf_tag hname]

theorem Formatted.replace (hname : name ∈ allowedTags) (hstrike : name ≠ lit "s")
    (hmatch : delimited starUnit (k + 1) (otherThan starUnit) (s ++ post) = some s.length)
    (h : Formatted (pre ++ s ++ post)) : Formatted (pre ++ tag name (delimitedBody (k + 1) s) ++ post) := by
  obtain ⟨hs, -, hinside⟩ := delimited_match hmatch
  generalize delimitedBody (k + 1) s = body at hs hinside ⊢
  subst hs
  have hstar : starUnit ∉ body := fun hu => by simpa [otherThan] using hinside _ hu
  have hLF : LF ∉ body := fun hu => by simpa [otherThan] using hinside _ hu
  obtain ⟨hpre, hbody, hpost⟩ := h.fragment.bare.cut_markers isCut_starUnit
  have hold := @bracketsOf_markers (k + 1) pre post body starUnit isCut_starUnit hpre.isMarkup hbody.isMarkup
  have hnew := @bracketsOf_tagged name pre post body hname hpre.isMarkup hbody
  have hfragment : Fragment body := by
    apply h.interior (pre ++ replicate k starUnit) body (replicate k starUnit ++ post) _ hstar hLF
    exact delimiters_around starUnit k pre body post
  refine ⟨⟨(hpre.append (hbody.tag hname)).append hpost, ?_⟩, ?_, ?_⟩
  · have hnested := h.fragment.nested
    rw [Nested, hold] at hnested
    rw [Nested, hnew]
    exact (nest_wrap_nested hfragment.nested name [] _ _).trans hnested
  · exact h.interior.replace (hfragment.tag hname) ((mem_tag_iff isCut_starUnit hname).not.mpr hstar)
  · intro bracket hmem
    have hmem' : bracket ∈ bracketsOf pre ++ bracketsOf body ++ bracketsOf post ∨ bracket = .opening name ∨
        bracket = .closing name := by
      rw [hnew] at hmem
      simp only [mem_append, mem_cons, not_mem_nil, or_false] at hmem ⊢
      tauto
    rcases hmem' with hmem' | rfl | rfl
    · exact h.notStrike bracket (hold ▸ hmem')
    · exact hstrike
    · exact hstrike

theorem Formatted.emphasis (hname : name ∈ allowedTags) (hstrike : name ≠ lit "s") {html}
    (h : Formatted html) : Formatted (emphasis starUnit (k + 1) name html) :=
  render_scan_invariant isMatcher_delimited (fun _ _ _ _ hmatch => Formatted.replace hname hstrike hmatch) [] h

end

/-! ### Headers and quotes -/

theorem IsEscaped.formatted (h : IsEscaped html) : Formatted html where
  fragment := h.fragment
  interior := h.interior
  notStrike := by rw [h.bracketsOf_eq]; exact nofun

theorem Formatted.append_LF {x y} (hx : Formatted x) (hy : Formatted y) : Formatted (x ++ LF :: y) := by
  have hLF : IsEscaped [LF] := IsCut.isEscaped (by decide)
  refine ⟨hx.fragment.append (hLF.fragment.append hy.fragment), hx.interior.append_LF (by decide) hy.interior, ?_⟩
  have hbrackets : bracketsOf (x ++ LF :: y) = bracketsOf x ++ bracketsOf y := by
    rw [hx.fragment.bare.isMarkup.bracketsOf_append, ← singleton_append, hLF.isBare.isMarkup.bracketsOf_append,
      hLF.bracketsOf_eq, nil_append]
  rw [hbrackets]
  exact forall_mem_append.mpr ⟨hx.notStrike, hy.notStrike⟩

theorem IsEscaped.formatted_tag {name} (h : IsEscaped html) (hname : name ∈ allowedTags)
    (hstrike : name ≠ lit "s") : Formatted (tag name html) := by
  obtain ⟨hopen, hclose⟩ := notMem_tag_marks isCut_starUnit hname
  refine ⟨h.fragment.tag hname, h.interior.surround hopen hclose, ?_⟩
  rw [h.isBare.isMarkup.bracketsOf_tag hname, h.bracketsOf_eq]
  exact forall_mem_cons.mpr ⟨hstrike, forall_mem_singleton.mpr hstrike⟩

theorem formatted_joinLines {lines} (h : ∀ line ∈ lines, Formatted line) : Formatted (joinLines lines) := by
  induction lines with
  | nil => exact IsEscaped.formatted ⟨[], rfl⟩
  | cons x lines ih =>
    cases lines with
    | nil => simpa [joinLines] using h x mem_cons_self
    | cons y lines =>
      exact (h x mem_cons_self).append_LF (ih (forall_mem_cons.mp h).2)

theorem isEscaped_joinLines_iff {lines} : IsEscaped (joinLines lines) ↔ ∀ line ∈ lines, IsEscaped line := by
  have hLF : IsCut LF := by decide
  induction lines with
  | nil => exact iff_of_true ⟨[], rfl⟩ nofun
  | cons x lines ih =>
    cases lines with
    | nil => simp [joinLines]
    | cons y lines =>
      rw [forall_mem_cons]
      constructor
      · intro h
        exact ⟨(h.cut hLF).1, ih.mp (h.cut hLF).2⟩
      · rintro ⟨hx, hrest⟩
        exact hx.append (hLF.isEscaped.append (ih.mpr hrest))

theorem isEscaped_blank {u} (h : isUnit '#' u = true ∨ isJsWhitespace u = true) :
    u ≠ ltUnit ∧ u ≠ gtUnit ∧ u ≠ ampUnit := by
  refine ⟨?_, ?_, ?_⟩ <;> rintro rfl <;> exact absurd h (by decide)

theorem isEscaped_quoteBody {line body} (hline : IsEscaped line) (h : quoteBody line = some body) : IsEscaped body := by
  obtain ⟨gap, rfl, hgap⟩ := quoteBody_eq_some h
  apply IsEscaped.of_append (isEscaped_of_plain fun u hu => isEscaped_blank (.inr (hgap u hu)))
  exact IsEscaped.of_append ⟨[.entity .gt], rfl⟩ hline

theorem isEscaped_headerBody {line body} (hline : IsEscaped line) (h : headerBody line = some body) :
    IsEscaped body := by
  obtain ⟨marks, rfl, hmarks⟩ := headerBody_eq_some h
  exact IsEscaped.of_append (isEscaped_of_plain fun u hu => isEscaped_blank (hmarks u hu)) hline

theorem formatted_flushQuote {quoteBuffer} (h : ∀ lines ∈ quoteBuffer, ∀ line ∈ lines, IsEscaped line) :
    ∀ line ∈ flushQuote quoteBuffer, Formatted line := by
  cases quoteBuffer with
  | none => exact nofun
  | some lines =>
    have hquoted := isEscaped_joinLines_iff.mpr (h lines rfl)
    exact forall_mem_singleton.mpr (hquoted.formatted_tag (by decide) (by decide))

theorem formatted_formatLines {quoteBuffer lines} (hquote : ∀ quoted ∈ quoteBuffer, ∀ line ∈ quoted, IsEscaped line)
    (hlines : ∀ line ∈ lines, IsEscaped line) : ∀ line ∈ formatLines quoteBuffer lines, Formatted line := by
  induction lines generalizing quoteBuffer with
  | nil => exact formatted_flushQuote hquote
  | cons line lines ih =>
    have hline := hlines line mem_cons_self
    have hrest := fun other hother => hlines other (mem_cons_of_mem line hother)
    rw [formatLines]
    cases hbody : quoteBody line with
    | some body =>
      refine ih ?_ hrest
      rintro quoted ⟨⟩ other hother
      rcases mem_append.mp hother with hother | hother
      · cases quoteBuffer with
        | none => cases hother
        | some quoted => exact hquote quoted rfl other hother
      · rw [mem_singleton.mp hother]
        exact isEscaped_quoteBody hline hbody
    | none =>
      refine forall_mem_append.mpr ⟨formatted_flushQuote hquote, forall_mem_cons.mpr ⟨?_, ih (by simp) hrest⟩⟩
      cases hheader : headerBody line with
      | some body => exact (isEscaped_headerBody hline hheader).formatted_tag (by decide) (by decide)
      | none => exact hline.formatted

variable (stringWidth : JsStr → Nat) (markdown : JsStr)

theorem formatted_formattedText : Formatted (formattedText stringWidth markdown) := by
  apply formatted_joinLines
  apply formatted_formatLines (by simp)
  rw [← isEscaped_joinLines_iff, joinLines_splitLines]
  exact isEscaped_escapeHtml _

/-! ### Strikethrough -/

def tildeUnit : UInt16 := ascii '~'

def strikeBodies (html : JsStr) : List JsStr :=
  (hits (scan (delimited tildeUnit 2 (otherThan tildeUnit)) html)).map (delimitedBody 2)

section

variable {html pre s post : JsStr}

theorem isCut_tildeUnit : IsCut tildeUnit := by decide

section

variable (hmatch : delimited tildeUnit 2 (otherThan tildeUnit) (s ++ post) = some s.length)
include hmatch

variable (h : IsBare (pre ++ s ++ post))
include h

theorem IsBare.cut_strike : IsBare pre ∧ IsBare (delimitedBody 2 s) ∧ IsBare post := by
  obtain ⟨hs, -, -⟩ := delimited_match hmatch
  generalize delimitedBody 2 s = body at hs ⊢
  subst hs
  exact h.cut_markers isCut_tildeUnit

theorem IsBare.strike : IsBare (pre ++ Telegram.tag (lit "s") (delimitedBody 2 s) ++ post) := by
  obtain ⟨hpre, hbody, hpost⟩ := h.cut_strike hmatch
  exact (hpre.append (hbody.tag (by decide))).append hpost

theorem bracketsOf_strike :
    bracketsOf (pre ++ s ++ post) = bracketsOf pre ++ bracketsOf (delimitedBody 2 s) ++ bracketsOf post := by
  obtain ⟨hpre, hbody, -⟩ := h.cut_strike hmatch
  obtain ⟨hs, -, -⟩ := delimited_match hmatch
  generalize delimitedBody 2 s = body at hs hbody ⊢
  subst hs
  exact bracketsOf_markers isCut_tildeUnit hpre.isMarkup hbody.isMarkup

end

theorem isBare_strikeText (h : IsBare html) : IsBare (strikeText html) :=
  render_scan_invariant isMatcher_delimited (fun _ _ _ _ hmatch => IsBare.strike hmatch) [] h

theorem nested_strikeText (h : Fragment html)
    (hbodies : ∀ body ∈ strikeBodies html, Nested id (bracketsOf body)) : Fragment (strikeText html) := by
  refine @render_scan_invariant _ _ html isMatcher_delimited _ Fragment ?_ [] h
  intro pre s post hs hmatch hold
  have hbody := hbodies _ (mem_map.mpr ⟨s, hs, rfl⟩)
  obtain ⟨hpre, hbare, -⟩ := hold.bare.cut_strike hmatch
  refine ⟨hold.bare.strike hmatch, ?_⟩
  have hnested := hold.nested
  rw [bracketsOf_strike hmatch hold.bare] at hnested
  rw [bracketsOf_tagged (by decide) hpre.isMarkup hbare]
  exact (nest_wrap_nested hbody _ [] _ _).trans hnested

/-- A strikethrough that is not nested crosses another tag. -/
theorem nest_strikeText_eq_none {pre html} (h : IsBare (pre ++ html))
    (hstrike : ∀ body ∈ strikeBodies html, ∀ bracket ∈ bracketsOf body, NotStrike bracket)
    (hbody : ∃ body ∈ strikeBodies html, ¬ Nested id (bracketsOf body)) :
    nest id [] (bracketsOf (pre ++ strikeText html)) = none := by
  unfold strikeText emphasis strikeBodies at *
  have hm : IsMatcher (delimited (ascii '~') 2 (otherThan (ascii '~'))) := isMatcher_delimited
  induction html using scan_induction (m := delimited (ascii '~') 2 (otherThan (ascii '~'))) generalizing pre with
  | hnil _ => exact absurd hbody (by simp)
  | hend n hn => exact absurd (hm.nil.symm.trans hn) nofun
  | hunit u t hu ih =>
    have hrest := @ih (pre ++ [u]) (by rwa [append_assoc]) hstrike hbody
    rw [append_assoc] at hrest
    exact hrest
  | hempty u t hu ih => exact absurd hu (hm.pos _)
  | hhit u t n hu ih =>
    have hmatch := hm.split hu
    have hbare : IsBare (pre ++ (u :: t).take (n + 1) ++ (u :: t).drop (n + 1)) := by
      rwa [append_assoc, take_append_drop]
    generalize (u :: t).take (n + 1) = s at hmatch hbare hstrike hbody ⊢
    obtain ⟨hpre, hbare', -⟩ := hbare.cut_strike hmatch
    rw [Text.render_hit, ← append_assoc]
    by_cases hnested : Nested id (bracketsOf (delimitedBody 2 s))
    · apply ih (hbare.strike hmatch) (forall_mem_cons.mp hstrike).2
      obtain ⟨body, hmem, hnot⟩ := hbody
      rcases mem_cons.mp hmem with rfl | hmem
      · exact absurd hnested hnot
      · exact ⟨body, hmem, hnot⟩
    · rw [bracketsOf_tagged (by decide) hpre.isMarkup hbare']
      have hfree := hstrike _ mem_cons_self
      exact nest_wrap_crossed hnested (fun k hk => hfree _ hk) (fun k hk => hfree _ hk) [] _ _

/-- Formatted text with its strikethroughs is nested just when each of them is. -/
theorem Formatted.strike_iff (h : Formatted html) :
    Nested id (bracketsOf (strikeText html)) ↔ ∀ body ∈ strikeBodies html, IsHtml body := by
  have hbare : ∀ body ∈ strikeBodies html, IsBare body ∧ ∀ bracket ∈ bracketsOf body, NotStrike bracket := by
    intro body hmem
    obtain ⟨s, hs, rfl⟩ := mem_map.mp hmem
    obtain ⟨pre, post, rfl, hmatch⟩ := exists_split_of_hit isMatcher_delimited hs
    refine ⟨(h.fragment.bare.cut_strike hmatch).2.1, ?_⟩
    intro bracket hbracket
    apply h.notStrike
    rw [bracketsOf_strike hmatch h.fragment.bare]
    exact mem_append_left _ (mem_append_right _ hbracket)
  constructor
  · intro hnested body hmem
    rw [isHtml_iff (hbare body hmem).1.isMarkup]
    by_contra hnot
    have hnone := @nest_strikeText_eq_none [] html h.fragment.bare (fun body hmem => (hbare body hmem).2) ⟨body, hmem, hnot⟩
    exact nomatch hnested.symm.trans hnone
  · intro hbodies
    exact (nested_strikeText h.fragment fun body hmem =>
      (isHtml_iff (hbare body hmem).1.isMarkup).mp (hbodies body hmem)).nested

end

/-! ### Restoring fragments -/

section

variable {placeholders : List JsStr}

theorem placeholderMatch_eq_some {text n} (h : placeholderMatch text = some n) :
    ∃ digits post, text = nulUnit :: lit "ph" ++ digits ++ [nulUnit] ++ post ∧ digits ≠ [] ∧
      (∀ u ∈ digits, isDigit u = true) ∧ n = 3 + digits.length + 1 := by
  simp only [placeholderMatch] at h
  generalize hdigits : (text.drop 3).takeWhile isDigit = digits at h
  split_ifs at h with hc
  injection h with h
  obtain ⟨hstart, hne, hend⟩ := hc
  obtain ⟨rest, rfl⟩ := isPrefixOf_iff_prefix.mp hstart
  obtain ⟨after, hafter⟩ := hdigits ▸ takeWhile_prefix (l := rest) isDigit
  have hnul : (digits ++ after)[digits.length]? = some nulUnit := by
    rw [hafter, ← hend, ← getElem?_drop]
    rfl
  rw [getElem?_append_right (Nat.le_refl _), Nat.sub_self] at hnul
  cases after with
  | nil => cases hnul
  | cons u after =>
    cases hnul
    refine ⟨digits, after, ?_, hne, ?_, h.symm⟩
    · rw [← hafter]
      simp only [append_assoc, singleton_append]
    · intro u hu
      rw [← hdigits] at hu
      exact mem_takeWhile_imp hu

theorem isMatcher_placeholderMatch : IsMatcher placeholderMatch where
  pos := by
    intro t h
    obtain ⟨digits, post, -, -, -, hn⟩ := placeholderMatch_eq_some h
    omega
  le := by
    intro t n h
    obtain ⟨digits, post, rfl, -, -, rfl⟩ := placeholderMatch_eq_some h
    have hlength : (nulUnit :: lit "ph").length = 3 := rfl
    simp only [length_append, hlength, length_singleton]
    omega

theorem placeholderMatch_split {s post} (h : placeholderMatch (s ++ post) = some s.length) :
    ∃ digits, s = nulUnit :: lit "ph" ++ digits ++ [nulUnit] ∧ digits ≠ [] ∧ ∀ u ∈ digits, isDigit u = true := by
  obtain ⟨digits, after, ht, hne, hdigits, hn⟩ := placeholderMatch_eq_some h
  refine ⟨digits, (append_inj ht ?_).1, hne, hdigits⟩
  have hlength : (nulUnit :: lit "ph").length = 3 := rfl
  rw [hn, length_append, length_append, hlength, length_singleton]

theorem isEscaped_placeholderMatch {s post} (h : placeholderMatch (s ++ post) = some s.length) : IsEscaped s := by
  obtain ⟨digits, rfl, -, hdigits⟩ := placeholderMatch_split h
  have hopen : IsEscaped (nulUnit :: lit "ph") := isEscaped_of_all rfl
  refine (hopen.append (isEscaped_of_plain ?_)).append isCut_nulUnit.isEscaped
  intro u hu
  refine ⟨?_, ?_, ?_⟩ <;> rintro rfl <;> exact absurd (hdigits _ hu) (by decide)

theorem isHtml_fragmentAt (h : ∀ fragment ∈ placeholders, IsHtml fragment) (s : JsStr) :
    IsHtml (fragmentAt placeholders s) := by
  unfold fragmentAt
  cases hget : placeholders[digitsValue ((s.drop 3).takeWhile isDigit)]? with
  | none => exact IsEscaped.isHtml ⟨[], rfl⟩
  | some fragment => exact h fragment (mem_of_getElem? hget)

/-- Restoring well-formed fragments keeps the nesting of what is around them. -/
theorem nest_restore (h : ∀ fragment ∈ placeholders, IsHtml fragment) {html} (hbare : IsBare html) :
    IsMarkup (restore placeholders html) ∧
      ∀ stack, nest id stack (bracketsOf (restore placeholders html)) = nest id stack (bracketsOf html) := by
  refine @render_scan_rel _ _ isMatcher_placeholderMatch (fragmentAt placeholders)
    (fun html result => IsBare html → IsMarkup result ∧
      ∀ stack, nest id stack (bracketsOf result) = nest id stack (bracketsOf html))
    (fun html hbare => ⟨hbare.isMarkup, fun _ => rfl⟩) ?_ [] html hbare
  intro pre s post result hmatch ih hbare
  have hs := isEscaped_placeholderMatch hmatch
  have hfragment := isHtml_fragmentAt h s
  have hparts : IsBare pre ∧ IsBare post := by
    obtain ⟨digits, rfl, -, -⟩ := placeholderMatch_split hmatch
    have hright : IsBare ((pre ++ (nulUnit :: lit "ph" ++ digits)) ++ nulUnit :: post) := by
      simpa only [append_assoc, singleton_append] using hbare
    rw [append_assoc] at hbare
    exact ⟨(IsBare.cut isCut_nulUnit hbare).1, (hright.cut isCut_nulUnit).2⟩
  obtain ⟨hmarkup, hnest⟩ := ih hparts.2
  have hpre := hparts.1.isMarkup
  refine ⟨(hpre.append hfragment.isMarkup).append hmarkup, ?_⟩
  intro stack
  rw [(hpre.append hfragment.isMarkup).bracketsOf_append, hpre.bracketsOf_append,
    (hpre.append hs.isBare.isMarkup).bracketsOf_append, hpre.bracketsOf_append, hs.bracketsOf_eq, append_nil]
  have hnested := (isHtml_iff hfragment.isMarkup).mp hfragment
  simp only [nest_append, hnested.nest, hnest, Option.bind_some, Option.bind_assoc]

end

/-! ### The fragments -/

theorem isHtml_intercalate {sep} (hsep : IsHtml sep) {parts : List JsStr} (h : ∀ part ∈ parts, IsHtml part) :
    IsHtml (sep.intercalate parts) := by
  induction parts with
  | nil => exact IsEscaped.isHtml ⟨[], rfl⟩
  | cons part parts ih =>
    have hrest := ih (forall_mem_cons.mp h).2
    cases parts with
    | nil => simpa using h part mem_cons_self
    | cons next parts =>
      exact (h part mem_cons_self).append (hsep.append hrest)

theorem isHtml_renderTelegramTable (table : Table) : IsHtml (table.renderTelegramTable stringWidth) := by
  unfold Table.renderTelegramTable
  split_ifs
  · exact (isEscaped_escapeHtml _).isHtml.tag (by decide)
  · apply isHtml_intercalate (isEscaped_of_all rfl).isHtml
    intro record hrecord
    obtain ⟨row, -, rfl⟩ := mem_map.mp hrecord
    apply isHtml_intercalate (isEscaped_of_all rfl).isHtml
    intro line hline
    obtain ⟨i, hi, rfl⟩ := mem_mapIdx.mp hline
    exact (((isEscaped_escapeHtml _).isHtml.tag (by decide)).append (isEscaped_of_all rfl).isHtml).append (isEscaped_escapeHtml _).isHtml

theorem isHtml_linkHtml {s fragment} (h : linkHtml s = some fragment) : IsHtml fragment := by
  unfold linkHtml at h
  split_ifs at h
  cases h
  have hattributes : IsEscaped (lit " href=\"" ++ escapeAttr (linkUrl s) ++ lit "\"") :=
    ((isEscaped_of_all rfl).append (isEscaped_escapeAttr _)).append (isEscaped_of_all rfl)
  obtain ⟨attributes, hattributes⟩ := hattributes
  obtain ⟨label, hlabel⟩ := isEscaped_escapeHtml (linkLabel s)
  have hname : lit "a" ∈ allowedTags := by decide
  have hspace : ∀ u ∈ (inlineText attributes).head?, isJsWhitespace u = true := by
    rw [← hattributes]
    rintro u ⟨⟩
    rfl
  refine ⟨.opening (lit "a") attributes hname hspace :: label.map .inline ++ [.closing (lit "a") hname], ?_, ?_⟩
  · rw [← singleton_append, markupText, flatMap_append, flatMap_append]
    change _ = (ltUnit :: lit "a" ++ inlineText attributes ++ [gtUnit] ++ []) ++ markupText (label.map .inline) ++ _
    rw [markupText_map_inline, ← hlabel, ← hattributes]
    simp only [append_nil, append_assoc]
    rfl
  · rw [cons_append, filterMap_cons, filterMap_append, filterMap_bracket_map_inline]
    rfl

theorem isHtml_placeholders : ∀ fragment ∈ (protectedMarkdown stringWidth markdown).placeholders, IsHtml fragment := by
  intro fragment hmem
  simp only [protectedMarkdown, protectLinks, protectCode, convertMarkdownTables, protectFences, placeholders_stashHits,
    placeholders_stashTables, nil_append, mem_append, mem_filterMap, mem_map, Option.some.injEq] at hmem
  rcases hmem with ((⟨s, -, rfl⟩ | ⟨table, -, rfl⟩) | ⟨s, -, rfl⟩) | ⟨s, -, hlink⟩
  · exact (isEscaped_escapeHtml _).isHtml.tag (by decide)
  · exact isHtml_renderTelegramTable stringWidth table
  · exact (isEscaped_escapeHtml _).isHtml.tag (by decide)
  · exact isHtml_linkHtml hlink

/-- Converted markdown is well formed just when no strikethrough holds one tag of a pair without the
other. -/
theorem isHtml_markdownToTelegramHtml_iff (stringWidth : JsStr → Nat) (markdown : JsStr) :
    IsHtml (markdownToTelegramHtml stringWidth markdown) ↔
      ∀ body ∈ strikeBodies (italicText (boldText (formattedText stringWidth markdown))), IsHtml body := by
  have hformatted : Formatted (italicText (boldText (formattedText stringWidth markdown))) :=
    ((formatted_formattedText stringWidth markdown).emphasis (by decide) (by decide)).emphasis (by decide)
    (by decide)
  obtain ⟨hmarkup, hnest⟩ := nest_restore (isHtml_placeholders stringWidth markdown)
    (isBare_strikeText hformatted.fragment.bare)
  rw [← hformatted.strike_iff]
  exact (isHtml_iff hmarkup).trans (by rw [Nested, hnest]; rfl)

/-- Italic text that ends in a strikethrough. -/
theorem markdownToTelegramHtml_crosses :
    markdownToTelegramHtml (fun _ => 0) (lit "*a ~~b* c~~") = lit "<i>a <s>b</i> c</s>" ∧
      ¬ IsHtml (markdownToTelegramHtml (fun _ => 0) (lit "*a ~~b* c~~")) := by
  have houtput : markdownToTelegramHtml (fun _ => 0) (lit "*a ~~b* c~~") = lit "<i>a <s>b</i> c</s>" := rfl
  refine ⟨houtput, ?_⟩
  rw [houtput]
  intro h
  exact absurd ((isHtml_iff h.isMarkup).mp h) (by decide)

end GajaeCode.Telegram
