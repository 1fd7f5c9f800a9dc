import GajaeCode.Tools.BashSkillUrls
import GajaeCode.Tools.RestrictedBash

/-! What the expansion of internal URLs does to the words of a command. -/
namespace GajaeCode.Tools

open Text Shell
open List hiding lex

structure UrlText (url : JsStr) : Prop where
  exists_head : ∃ head tail, url = head ++ tail ∧ (∃ first rest, head = first :: rest ∧ isWord first = true) ∧
    ascii ':' ∈ head ∧ ascii '=' ∉ head
  units : ∀ u ∈ url, isUrlUnit u = true

/-- The tokens that the pattern matches; `next` is the unit behind. -/
inductive UrlToken : JsStr → Option UInt16 → Prop where
  | bare {url : JsStr} {next : Option UInt16} (h : UrlText url) (hnext : ∀ u ∈ next, isUrlUnit u = false) :
      UrlToken url next
  | quoted {url : JsStr} (k : ShellQuote) (next : Option UInt16) (h : UrlText url) :
      UrlToken (k.mark :: url ++ [k.mark]) next

inductive Cut : JsStr → List (Piece UInt16) → Prop where
  | nil : Cut [] []
  | unit (u : UInt16) {s : JsStr} {ps : List (Piece UInt16)} (h : Cut s ps) : Cut (u :: s) (.unit u :: ps)
  | hit {token s : JsStr} {ps : List (Piece UInt16)} (htoken : UrlToken token s.head?) (h : Cut s ps) :
      Cut (token ++ s) (.hit token :: ps)

theorem UrlText.ne_nil {url} (h : UrlText url) : url ≠ [] := by
  obtain ⟨head, tail, rfl, ⟨first, rest, rfl, -⟩, -, -⟩ := h.exists_head
  simp

theorem UrlToken.ne_nil {token next} (h : UrlToken token next) : token ≠ [] := by
  cases h with
  | bare h => exact h.ne_nil
  | quoted k next h => simp

section

variable {heads : List JsStr} {s : JsStr} {n : Nat}

/-- What both lists of heads satisfy. -/
def isUrlHead (head : JsStr) : Bool :=
  head.all isUrlUnit && head.head?.any isWord && head.contains (ascii ':') && !head.contains (ascii '=')

theorem all_isUrlHead : (urlHeads ++ localHeads).all isUrlHead = true := by decide +kernel

theorem urlText_of_head {head tail} (hhead : isUrlHead head = true)
    (htail : ∀ u ∈ tail, isUrlUnit u = true) : UrlText (head ++ tail) := by
  simp only [isUrlHead, Bool.and_eq_true, Bool.not_eq_true', all_eq_true] at hhead
  obtain ⟨⟨⟨hunits, hfirst⟩, hcolon⟩, hequals⟩ := hhead
  refine ⟨⟨head, tail, rfl, ?_, contains_iff_mem.mp hcolon, ?_⟩, ?_⟩
  · cases head with
    | nil => cases hfirst
    | cons first rest => exact ⟨first, rest, rfl, hfirst⟩
  · exact fun hmem => Bool.eq_false_iff.mp hequals (contains_iff_mem.mpr hmem)
  · intro u hu
    exact (mem_append.mp hu).elim (hunits u) (htail u)

theorem bareUrl_eq_some (hheads : heads.all isUrlHead = true) (h : bareUrl heads s = some n) :
    ∃ url rest, s = url ++ rest ∧ n = url.length ∧ UrlText url ∧ ∀ u ∈ rest.head?, isUrlUnit u = false := by
  obtain ⟨head, hmem, hhead⟩ := exists_of_findSome?_eq_some h
  simp only [headMatch] at hhead
  split_ifs at hhead with hstart
  obtain ⟨tail, rfl⟩ := isPrefixOf_iff_prefix.mp hstart.1
  rw [drop_left] at hhead
  obtain rfl := Option.some.inj hhead
  refine ⟨head ++ tail.takeWhile isUrlUnit, tail.dropWhile isUrlUnit, ?_, ?_, ?_, ?_⟩
  · rw [append_assoc, takeWhile_append_dropWhile]
  · rw [length_append]
  · exact urlText_of_head (all_eq_true.mp hheads head hmem) fun u hu => mem_takeWhile_imp hu
  · intro u hu
    have hdrop := head?_dropWhile_not isUrlUnit tail
    rw [Option.mem_def.mp hu] at hdrop
    exact hdrop

/-- A match is bare, or starts with a quotation mark. -/
theorem matchInternalUrl_cases {prev} (h : matchInternalUrl prev s = some n) :
    ∃ heads, (heads = urlHeads ∨ heads = localHeads) ∧
      (bareUrl heads s = some n ∨ ∃ (k : ShellQuote) (rest : JsStr) (length : Nat), s = k.mark :: rest ∧
        bareUrl heads rest = some length ∧ rest[length]? = some k.mark ∧ n = length + 2) := by
  have hquoted (k : ShellQuote) {heads : List JsStr} (h : quotedUrl k.mark heads s = some n) :
      ∃ (k : ShellQuote) (rest : JsStr) (length : Nat), s = k.mark :: rest ∧
        bareUrl heads rest = some length ∧ rest[length]? = some k.mark ∧ n = length + 2 := by
    cases s with
    | nil => cases h
    | cons u s =>
      rw [quotedUrl] at h
      split_ifs at h with hu
      split at h
      · next length hbare =>
        split_ifs at h with hclose
        exact ⟨k, s, length, by rw [hu], hbare, hclose, (Option.some.inj h).symm⟩
      · cases h
  simp only [matchInternalUrl, Option.or_eq_some_iff] at h
  rcases h with h | ⟨-, h | ⟨-, h | ⟨-, h | ⟨-, h | ⟨-, h⟩⟩⟩⟩⟩
  · exact ⟨_, .inl rfl, .inr (hquoted .single h)⟩
  · exact ⟨_, .inl rfl, .inr (hquoted .double h)⟩
  · exact ⟨_, .inl rfl, .inl h⟩
  · exact ⟨_, .inr rfl, .inr (hquoted .single h)⟩
  · exact ⟨_, .inr rfl, .inr (hquoted .double h)⟩
  · split_ifs at h
    exact ⟨_, .inr rfl, .inl h⟩

theorem matchInternalUrl_eq_some {prev} (h : matchInternalUrl prev s = some n) :
    ∃ token rest, s = token ++ rest ∧ n = token.length ∧ UrlToken token rest.head? := by
  obtain ⟨heads, hlist, h⟩ := matchInternalUrl_cases h
  have hheads : heads.all isUrlHead = true := by
    have hall := all_isUrlHead
    rw [all_append, Bool.and_eq_true] at hall
    rcases hlist with rfl | rfl
    · exact hall.1
    · exact hall.2
  rcases h with h | ⟨k, rest, length, rfl, hbare, hclose, rfl⟩
  · obtain ⟨url, rest, hs, hn, hurl, hrest⟩ := bareUrl_eq_some hheads h
    exact ⟨url, rest, hs, hn, .bare hurl hrest⟩
  · obtain ⟨url, rest, rfl, rfl, hurl, -⟩ := bareUrl_eq_some hheads hbare
    rw [getElem?_append_right (le_refl _), Nat.sub_self] at hclose
    cases rest with
    | nil => cases hclose
    | cons v rest =>
      obtain rfl := Option.some.inj hclose
      exact ⟨k.mark :: url ++ [k.mark], rest, by simp, by simp, .quoted k _ hurl⟩

theorem internalUrlsFrom_skip (prev : Option UInt16) (skip : Nat) (s : JsStr) :
    ∃ prev', internalUrlsFrom prev skip s = internalUrlsFrom prev' 0 (s.drop skip) := by
  induction s generalizing prev skip with
  | nil =>
    exact ⟨prev, by cases skip <;> rfl⟩
  | cons u s ih =>
    cases skip with
    | zero => exact ⟨prev, rfl⟩
    | succ skip => exact ih (some u) skip

theorem cut_internalUrlsFrom (prev : Option UInt16) (s : JsStr) : Cut s (internalUrlsFrom prev 0 s) := by
  induction hlen : s.length using Nat.strong_induction_on generalizing prev s with
  | _ len ih =>
    cases s with
    | nil => exact .nil
    | cons u s =>
      rw [internalUrlsFrom]
      cases hmatch : matchInternalUrl prev (u :: s) with
      | none => exact .unit u (ih s.length (by simp [← hlen]) _ _ rfl)
      | some n =>
        obtain ⟨token, rest, hs, rfl, htoken⟩ := matchInternalUrl_eq_some hmatch
        obtain ⟨v, tail, rfl⟩ := exists_cons_of_ne_nil htoken.ne_nil
        obtain ⟨rfl, hrest⟩ : u = v ∧ s = tail ++ rest := by simpa using hs
        subst hrest
        obtain ⟨prev', hskip⟩ := internalUrlsFrom_skip (some u) ((u :: tail).length - 1) (tail ++ rest)
        have hdrop : (tail ++ rest).drop ((u :: tail).length - 1) = rest := by simp
        have htake : (u :: (tail ++ rest)).take (u :: tail).length = u :: tail := by simp
        simp only [hskip, hdrop, htake]
        exact .hit htoken (ih rest.length (by simp [← hlen]) _ _ rfl)

end

/-- The word can no longer become an assignment. -/
def Dead (w : Word) : Prop := w.plain = false ∨ ∃ p ∈ w.text, isNamePiece p = false ∧ p ≠ .unit (ascii '+')

theorem not_isAssignmentName {text} (h : ∃ p ∈ text, isNamePiece p = false ∧ p ≠ .unit (ascii '+')) :
    Shell.isAssignmentName text = false := by
  obtain ⟨p, hp, hname, hplus⟩ := h
  have hmem : p ∈ if text.getLast? = some (.unit (ascii '+')) then text.dropLast else text := by
    split_ifs with hlast
    · obtain ⟨init, rfl⟩ := getLast?_eq_some_iff.mp hlast
      rw [dropLast_concat]
      exact (mem_append.mp hp).resolve_right fun hlast => hplus (mem_singleton.mp hlast)
    · exact hp
  unfold Shell.isAssignmentName
  generalize (if text.getLast? = some (.unit (ascii '+')) then text.dropLast else text) = body at hmem
  cases body with
  | nil => rfl
  | cons first rest =>
    cases first with
    | hit s => rfl
    | unit v =>
      refine Bool.eq_false_iff.mpr fun hall => Bool.eq_false_iff.mp hname ?_
      simp only [Bool.and_eq_true, all_eq_true] at hall
      rcases mem_cons.mp hmem with rfl | hmem
      · exact hall.1.1
      · exact hall.2 p hmem

variable {w : Word}

theorem Dead.assigns (h : Dead w) : (w.plain && Shell.isAssignmentName w.text) = false := by
  rcases h with h | h
  · rw [h, Bool.false_and]
  · rw [not_isAssignmentName h, Bool.and_false]

theorem Dead.append (h : Dead w) (p : Piece UInt16) : Dead (w.append p) := by
  rcases h with h | ⟨q, hq, hname⟩
  · exact .inl h
  · exact .inr ⟨q, mem_append_left _ hq, hname⟩

theorem Dead.push (h : Dead w) (u : UInt16) : Dead (w.push u) := by
  rcases h with h | ⟨q, hq, hname⟩
  · refine .inl ?_
    unfold Word.push
    split_ifs
    · simp [h]
    · exact h
  · refine .inr ⟨q, ?_, hname⟩
    rw [Word.text_push]
    exact mem_append_left _ hq

theorem dead_quote (w : Word) : Dead w.quote := .inl rfl

/-- The same word, read with `f url` for each marked URL; the tildes need to agree only before a
tilde. -/
structure SameWord (f : JsStr → JsStr) (next : Option UInt16) (w w' : Word) : Prop where
  text : w'.text = (render f w.text).map .unit
  assigned : w'.assigned = w.assigned
  tilde : w'.tilde = w.tilde ∨ next ≠ some (ascii '~')
  name : w'.plain = w.plain ∧ w'.text = w.text ∨ Dead w ∧ Dead w'

abbrev StrictlySame (f : JsStr → JsStr) (w w' : Word) : Prop := SameWord f (some (ascii '~')) w w'

inductive SameMode (f : JsStr → JsStr) (next : Option UInt16) : Mode → Mode → Prop where
  | bare {cur cur' : Option Word} (hnone : cur'.isNone = cur.isNone)
      (h : SameWord f next (begun cur) (begun cur')) : SameMode f next (.bare cur) (.bare cur')
  | single {w w' : Word} (h : StrictlySame f w w') : SameMode f next (.single w) (.single w')
  | double {w w' : Word} (h : StrictlySame f w w') : SameMode f next (.double w) (.double w')
  | comment : SameMode f next .comment .comment

section

variable {f : JsStr → JsStr} {next : Option UInt16} {w w' : Word}

theorem StrictlySame.weaken (h : StrictlySame f w w') (next : Option UInt16) : SameWord f next w w' :=
  ⟨h.text, h.assigned, h.tilde.imp_right fun hne => absurd rfl hne, h.name⟩

theorem SameWord.start : StrictlySame f .start .start := ⟨rfl, rfl, .inl rfl, .inl ⟨rfl, rfl⟩⟩

theorem SameWord.quote (h : SameWord f next w w') : StrictlySame f w.quote w'.quote :=
  ⟨h.text, h.assigned, .inl rfl, .inr ⟨dead_quote w, dead_quote w'⟩⟩

theorem SameWord.append (h : StrictlySame f w w') (u : UInt16) :
    StrictlySame f (w.append (.unit u)) (w'.append (.unit u)) where
  text := by simp [h.text, render_append]
  assigned := h.assigned
  tilde := h.tilde
  name := by
    rcases h.name with ⟨hplain, htext⟩ | ⟨hdead, hdead'⟩
    · exact .inl ⟨hplain, by simp [htext]⟩
    · exact .inr ⟨hdead.append _, hdead'.append _⟩

theorem SameWord.assigns (h : SameWord f next w w') :
    (w'.plain && Shell.isAssignmentName w'.text) = (w.plain && Shell.isAssignmentName w.text) := by
  rcases h.name with ⟨hplain, htext⟩ | ⟨hdead, hdead'⟩
  · rw [hplain, htext]
  · rw [hdead.assigns, hdead'.assigns]

theorem SameWord.push (h : SameWord f next w w') (u : UInt16) : StrictlySame f (w.push u) (w'.push u) := by
  have htext : w'.text ++ [Piece.unit u] = (render f (w.text ++ [.unit u])).map .unit := by
    simp [h.text, render_append]
  have hname : (w'.push u).plain = (w.push u).plain ∧ (w'.push u).text = (w.push u).text ∨
      Dead (w.push u) ∧ Dead (w'.push u) := by
    rcases h.name with ⟨hplain, hsame⟩ | ⟨hdead, hdead'⟩
    · refine .inl ⟨?_, by simp [hsame]⟩
      unfold Word.push
      rw [h.assigned]
      split_ifs
      · exact h.assigns
      · exact hplain
    · exact .inr ⟨hdead.push u, hdead'.push u⟩
  refine ⟨by simpa using htext, ?_, .inl ?_, hname⟩ <;>
    · unfold Word.push
      rw [h.assigned]
      split_ifs
      · exact h.assigns
      · first | exact h.assigned | rfl

/-- The token with the words read as `f` says. -/
def renderToken (f : JsStr → JsStr) : Token → Token
  | .word text => .word ((render f text).map .unit)
  | .stop => .stop

variable {cur cur' : Option Word} {m m' : Mode} {u : UInt16}

theorem role_same (hnone : cur'.isNone = cur.isNone) (h : SameWord f (some u) (begun cur) (begun cur')) :
    role false cur' u = role false cur u := by
  have htilde : (u = ascii '~' ∧ opensTilde cur' = true) ↔ (u = ascii '~' ∧ opensTilde cur = true) := by
    refine and_congr_right fun hu => ?_
    cases cur with
    | none =>
      obtain rfl : cur' = none := by simpa using hnone
      rfl
    | some w =>
      cases cur' with
      | none => cases hnone
      | some w' =>
        have hsame : w'.tilde = w.tilde := h.tilde.resolve_right fun hne => hne (by rw [hu])
        simp only [opensTilde, hsame]
  simp only [role, hnone, htilde]

theorem endWord_same (hnone : cur'.isNone = cur.isNone) (h : SameWord f next (begun cur) (begun cur')) :
    endWord cur' = (endWord cur).map (renderToken f) := by
  cases cur with
  | none =>
    obtain rfl : cur' = none := by simpa using hnone
    rfl
  | some w =>
    cases cur' with
    | none => cases hnone
    | some w' => exact congrArg (fun text => [Token.word text]) h.text

theorem step_same (h : SameMode f (some u) m m') (hu : u ≠ ascii '\\') :
    step false m (.unit u) = none ∧ step false m' (.unit u) = none ∨
      ∃ out m₁ m₁', step false m (.unit u) = some (out, m₁) ∧
        step false m' (.unit u) = some (out.map (renderToken f), m₁') ∧ ∀ next, SameMode f next m₁ m₁' := by
  cases h with
  | @bare cur cur' hnone hsame =>
    have hrole := role_same hnone hsame
    have hend := endWord_same hnone hsame
    have hbetween (next : Option UInt16) : SameMode f next (.bare none) (.bare none) :=
      .bare rfl (SameWord.start.weaken next)
    simp only [step, hrole]
    have hspec := role_spec false cur u
    generalize role false cur u = r at hspec
    cases hspec with
    | blank hr => exact .inr ⟨_, _, _, rfl, by rw [hend], hbetween⟩
    | stop hr => exact .inr ⟨_, _, _, rfl, by rw [hend, map_append]; rfl, hbetween⟩
    | single hr => exact .inr ⟨_, _, _, rfl, rfl, fun _ => .single hsame.quote⟩
    | double hr => exact .inr ⟨_, _, _, rfl, rfl, fun _ => .double hsame.quote⟩
    | escape hr => exact absurd hr hu
    | comment hr => exact .inr ⟨_, _, _, rfl, rfl, fun _ => .comment⟩
    | refused => exact .inl ⟨rfl, rfl⟩
    | letter hr => exact .inr ⟨_, _, _, rfl, rfl, fun next => .bare rfl ((hsame.push u).weaken next)⟩
  | single hsame =>
    refine .inr ?_
    simp only [step, Piece.unit.injEq]
    split_ifs
    · exact ⟨_, _, _, rfl, rfl, fun next => .bare rfl (hsame.weaken next)⟩
    · exact ⟨_, _, _, rfl, rfl, fun _ => .single (hsame.append u)⟩
  | double hsame =>
    simp only [step, Piece.unit.injEq]
    split_ifs
    · exact .inr ⟨_, _, _, rfl, rfl, fun next => .bare rfl (hsame.weaken next)⟩
    · exact .inl ⟨rfl, rfl⟩
    · exact .inr ⟨_, _, _, rfl, rfl, fun _ => .double (hsame.append u)⟩
  | comment =>
    refine .inr ?_
    simp only [step]
    split_ifs
    · exact ⟨_, _, _, rfl, rfl, fun next => .bare rfl (SameWord.start.weaken next)⟩
    · exact ⟨_, _, _, rfl, rfl, fun _ => .comment⟩

end

/-- `w₁` is `w` with `text` behind it and can no longer become an assignment. -/
structure Takes (w : Word) (text : WordText) (next : Option UInt16) (w₁ : Word) : Prop where
  text : w₁.text = w.text ++ text
  assigned : w₁.assigned = w.assigned
  tilde : w₁.tilde = false ∨ next ≠ some (ascii '~')
  dead : Dead w₁

theorem SameWord.takes {f next next' w' w₁ w₁'} (h : SameWord f next w w') {url text} (htext : f url = text)
    (hw : Takes w [.hit url] next' w₁) (hw' : Takes w' (text.map .unit) next' w₁') : SameWord f next' w₁ w₁' where
  text := by simp [hw.text, hw'.text, h.text, render_append, htext]
  assigned := by rw [hw.assigned, hw'.assigned, h.assigned]
  tilde := by
    rcases hw.tilde with htilde | hne
    · rcases hw'.tilde with htilde' | hne
      · exact .inl (htilde'.trans htilde.symm)
      · exact .inr hne
    · exact .inr hne
  name := .inr ⟨hw.dead, hw'.dead⟩

section

variable {cur : Option Word} {w : Word} {next : Option UInt16} {url token : JsStr}
  (k : ShellQuote)

theorem unquoteToken_quoted (url : JsStr) : unquoteToken (k.mark :: url ++ [k.mark]) = url := by
  have hlast : (k.mark :: url ++ [k.mark]).getLast? = some k.mark := getLast?_concat
  have htail : (k.mark :: url ++ [k.mark]).tail.dropLast = url := by simp
  unfold unquoteToken
  rw [hlast, htail]
  cases k with
  | single => rw [if_pos (.inr ⟨rfl, rfl⟩)]
  | double => rw [if_pos (.inl ⟨rfl, rfl⟩)]

theorem unquoteToken_bare (h : UrlText url) : unquoteToken url = url := by
  obtain ⟨head, tail, rfl, ⟨first, rest, rfl, hfirst⟩, -, -⟩ := h.exists_head
  refine if_neg ?_
  simp only [cons_append, head?_cons, Option.some.injEq]
  rintro (⟨rfl, -⟩ | ⟨rfl, -⟩) <;> exact absurd hfirst (by decide)

/-- `w₁` is the quoted word `w` with `text` behind it. -/
structure Extends (w : Word) (text : WordText) (w₁ : Word) : Prop where
  text : w₁.text = w.text ++ text
  assigned : w₁.assigned = w.assigned
  plain : w₁.plain = false
  tilde : w₁.tilde = false

theorem Extends.refl (w : Word) : Extends w.quote [] w.quote := ⟨by simp, rfl, rfl, rfl⟩

variable {w₁ : Word} {s : List (Piece UInt16)} {ts : List Token} {units : JsStr}

theorem Extends.append {text} (h : Extends w text w₁) (p : Piece UInt16) : Extends w (text ++ [p]) (w₁.append p) :=
  ⟨by simp [h.text], h.assigned, h.plain, h.tilde⟩

theorem Extends.takes {text} (h : Extends w.quote text w₁) : Takes w text next w₁ :=
  ⟨h.text, h.assigned, .inl h.tilde, .inl h.plain⟩

theorem quiet_escapeUnits {text} (h : Extends w text w₁) (p : JsStr) : ∃ w₂, Extends w (text ++ p.map .unit) w₂ ∧
      Quiet false (.single w₁) ((p.flatMap escapeUnit).map .unit) (.single w₂) := by
  induction p generalizing text w₁ with
  | nil => exact ⟨w₁, by simpa using h, .nil _⟩
  | cons u p ih =>
    have hsplit : text ++ (u :: p).map Piece.unit = text ++ [.unit u] ++ p.map .unit := by simp
    rw [hsplit, flatMap_cons, map_append]
    by_cases hu : u = ascii '\''
    · -- the quotation is closed, the mark escaped and the quotation opened again
      subst hu
      have hmark : Extends w (text ++ [.unit (ascii '\'')])
          ((w₁.quote.append (.unit (ascii '\''))).quote) :=
        ⟨by simp [h.text], h.assigned, rfl, rfl⟩
      obtain ⟨w₂, hext, hquiet⟩ := ih hmark
      refine ⟨w₂, hext, Quiet.append ?_ hquiet⟩
      exact .cons rfl (.cons rfl (.cons rfl (.single rfl)))
    · obtain ⟨w₂, hext, hquiet⟩ := ih (h.append (.unit u))
      refine ⟨w₂, hext, Quiet.append ?_ hquiet⟩
      rw [escapeUnit, if_neg hu]
      exact .single (by simp [step, hu])

theorem takes_shellEscape (cur : Option Word) (next : Option UInt16) (p : JsStr) :
    ∃ w₁, Quiet false (.bare cur) ((shellEscape p).map .unit) (.bare (some w₁)) ∧
      Takes (begun cur) (p.map .unit) next w₁ := by
  obtain ⟨w₁, hext, hquiet⟩ := quiet_escapeUnits (Extends.refl (begun cur)) p
  refine ⟨w₁, ?_, hext.takes⟩
  rw [shellEscape, cons_append, map_cons, map_append]
  exact .cons rfl (hquiet.append (.single rfl))

/-- A marked token is read as one letter. -/
theorem takes_markToken (htoken : UrlToken token next) (cur : Option Word) :
    ∃ w₁, Quiet false (.bare cur) (markToken token) (.bare (some w₁)) ∧
      Takes (begun cur) [.hit (unquoteToken token)] next w₁ := by
  cases htoken with
  | bare h hnext =>
    refine ⟨(begun cur).pushHit token, ?_, ?_⟩
    · rw [markToken, unquoteToken_bare h]
      simp only [if_true]
      exact .single rfl
    · rw [unquoteToken_bare h]
      exact ⟨rfl, rfl, .inl rfl, .inr ⟨.hit token, by simp, rfl, nofun⟩⟩
  | @quoted url k _ h =>
    have hmark : markToken (k.mark :: url ++ [k.mark]) = [.unit k.mark, .hit url, .unit k.mark] := by
      have hne : url ≠ k.mark :: url ++ [k.mark] := by
        intro heq
        have hlen := congrArg List.length heq
        simp only [cons_append, length_cons, length_append] at hlen
        omega
      have hlast : (k.mark :: url ++ [k.mark]).getLast? = some k.mark := getLast?_concat
      rw [markToken, unquoteToken_quoted, if_neg hne, hlast]
      rfl
    rw [hmark, unquoteToken_quoted]
    refine ⟨(begun cur).quote.append (.hit url), ?_, ((Extends.refl (begun cur)).append (.hit url)).takes⟩
    cases k with
    | single | double => exact .cons rfl (.cons rfl (.single rfl))

theorem ne_of_isUrlUnit {u v} (hu : isUrlUnit u = true) (hv : isUrlUnit v = false) : u ≠ v := by
  rintro rfl
  exact Bool.eq_false_iff.mp hv hu

theorem letter_of_isUrlUnit {u} (hu : isUrlUnit u = true)
    (hhash : ¬(u = ascii '#' ∧ cur.isNone)) (hlex : lex false (.bare cur) (.unit u :: s) = some ts) :
    step false (.bare cur) (.unit u) = some ([], .bare (some ((begun cur).push u))) := by
  obtain ⟨out, m₁, rest, hstep, -, -⟩ := lex_cons_eq_some.mp hlex
  rw [step] at hstep ⊢
  have hspec := role_spec false cur u
  generalize role false cur u = r at hstep hspec
  cases hspec with
  | blank hr => rcases hr with hr | hr <;> exact absurd hr (ne_of_isUrlUnit hu (by decide))
  | stop hr => exact absurd (by simpa using hr) (ne_of_isUrlUnit (v := LF) hu (by decide))
  | single hr | double hr | escape hr => exact absurd hr (ne_of_isUrlUnit hu (by decide))
  | comment hr => exact absurd hr hhash
  | refused => cases hstep
  | letter hr => rfl

theorem quiet_units (hunits : ∀ u ∈ units, isUrlUnit u = true)
    (hlex : lex false (.bare (some w)) (units.map .unit ++ s) = some ts) :
    Quiet false (.bare (some w)) (units.map .unit) (.bare (some (units.foldl Word.push w))) := by
  induction units generalizing w with
  | nil => exact .nil _
  | cons u units ih =>
    have hstep := letter_of_isUrlUnit (hunits u mem_cons_self) (by simp) hlex
    rw [map_cons, cons_append, ← singleton_append, (Quiet.single hstep).lex_append] at hlex
    exact .cons hstep (ih (forall_mem_cons.mp hunits).2 hlex)

theorem text_foldl_push (units : JsStr) (w : Word) : (units.foldl Word.push w).text = w.text ++ units.map .unit := by
  induction units generalizing w with
  | nil => simp
  | cons u units ih => rw [foldl_cons, ih, Word.text_push, append_assoc]; rfl

theorem Dead.assigned_push (h : Dead w) (u : UInt16) : (w.push u).assigned = w.assigned := by
  unfold Word.push
  split_ifs with hequals
  · exact h.assigns.trans hequals.2.symm
  · rfl

theorem Dead.foldl_push (h : Dead w) (units : JsStr) :
    Dead (units.foldl Word.push w) ∧ (units.foldl Word.push w).assigned = w.assigned := by
  induction units generalizing w with
  | nil => exact ⟨h, rfl⟩
  | cons u units ih =>
    obtain ⟨hdead, hassigned⟩ := ih (h.push u)
    exact ⟨hdead, hassigned.trans (h.assigned_push u)⟩

theorem assigned_foldl_push (h : ascii '=' ∉ units) (w : Word) : (units.foldl Word.push w).assigned = w.assigned := by
  induction units generalizing w with
  | nil => rfl
  | cons u units ih =>
    have hu : ¬(u = ascii '=' ∧ w.assigned = false) := fun hu => h (by simp [hu.1])
    rw [foldl_cons, ih fun hmem => h (mem_cons_of_mem _ hmem), Word.push, if_neg hu]; rfl

theorem takes_foldl_push (h : UrlText url) (hnext : ∀ u ∈ next, isUrlUnit u = false) (w : Word) :
    Takes w (url.map .unit) next (url.foldl Word.push w) := by
  obtain ⟨head, tail, rfl, -, hcolon, hequals⟩ := h.exists_head
  have hdead : Dead (head.foldl Word.push w) := by
    refine .inr ⟨.unit (ascii ':'), ?_, by decide, by decide⟩
    rw [text_foldl_push]
    exact mem_append_right _ (mem_map_of_mem hcolon)
  refine ⟨text_foldl_push _ w, ?_, .inr ?_, ?_⟩
  · rw [foldl_append, (hdead.foldl_push tail).2, assigned_foldl_push hequals]
  · intro htilde
    exact absurd (hnext _ htilde) (by decide)
  · rw [foldl_append]
    exact (hdead.foldl_push tail).1

theorem step_quoteMode {u} (hu : isUrlUnit u = true) (hlex : lex false (quoteMode k w) (.unit u :: s) = some ts) :
    step false (quoteMode k w) (.unit u) = some ([], quoteMode k (w.append (.unit u))) := by
  obtain ⟨out, m₁, rest, hstep, -, -⟩ := lex_cons_eq_some.mp hlex
  cases k with
  | single =>
    have hclose : u ≠ ascii '\'' := ne_of_isUrlUnit hu (by decide)
    simp [quoteMode, step, hclose]
  | double =>
    have hclose : u ≠ ascii '"' := ne_of_isUrlUnit hu (by decide)
    have hslash : u ≠ ascii '\\' := ne_of_isUrlUnit hu (by decide)
    simp only [quoteMode, step, Piece.unit.injEq, if_neg hclose, if_neg hslash] at hstep ⊢
    split_ifs at hstep ⊢ with hexpands
    rfl

theorem quiet_quoted (hunits : ∀ u ∈ units, isUrlUnit u = true) {text}
    (hext : Extends w text w₁) (hlex : lex false (quoteMode k w₁) (units.map .unit ++ s) = some ts) :
    ∃ w₂, Extends w (text ++ units.map .unit) w₂ ∧
      Quiet false (quoteMode k w₁) (units.map .unit) (quoteMode k w₂) := by
  induction units generalizing text w₁ with
  | nil => exact ⟨w₁, by simpa using hext, .nil _⟩
  | cons u units ih =>
    have hsplit : text ++ (u :: units).map Piece.unit = text ++ [.unit u] ++ units.map .unit := by simp
    have hstep := step_quoteMode k (hunits u mem_cons_self) hlex
    rw [map_cons, cons_append, ← singleton_append, (Quiet.single hstep).lex_append] at hlex
    obtain ⟨w₂, hext₂, hquiet⟩ := ih (forall_mem_cons.mp hunits).2 (hext.append (.unit u)) hlex
    exact ⟨w₂, hsplit ▸ hext₂, .cons hstep hquiet⟩

/-- A token in the command itself, if bash reads on. -/
theorem takes_token (htoken : UrlToken token next) (hlex : lex false (.bare cur) (token.map .unit ++ s) = some ts) :
    ∃ w₁, Quiet false (.bare cur) (token.map .unit) (.bare (some w₁)) ∧
      Takes (begun cur) ((unquoteToken token).map .unit) next w₁ := by
  cases htoken with
  | bare h hnext =>
    rw [unquoteToken_bare h]
    refine ⟨_, ?_, takes_foldl_push h hnext (begun cur)⟩
    obtain ⟨head, tail, rfl, ⟨first, rest, rfl, hfirst⟩, -, -⟩ := h.exists_head
    have hhash : ¬(first = ascii '#' ∧ cur.isNone) := by
      rintro ⟨rfl, -⟩
      exact absurd hfirst (by decide)
    have hstep := letter_of_isUrlUnit (h.units first (by simp)) hhash hlex
    rw [cons_append, map_cons, cons_append, ← singleton_append, (Quiet.single hstep).lex_append] at hlex
    exact .cons hstep (quiet_units (fun u hu => h.units u (mem_cons_of_mem _ hu)) hlex)
  | @quoted url k _ h =>
    rw [unquoteToken_quoted]
    have hopen := step_opens k cur
    rw [cons_append, map_cons, cons_append, ← singleton_append,
      (Quiet.single hopen).lex_append, map_append, append_assoc] at hlex
    obtain ⟨w₁, hext, hquiet⟩ := quiet_quoted k h.units (Extends.refl (begun cur)) hlex
    refine ⟨w₁, ?_, hext.takes⟩
    rw [cons_append, map_cons, map_append]
    exact .cons hopen (hquiet.append (.single (step_closes k w₁)))

end

/-- The text with the escaped path `f url` for each token. -/
def expandedText (f : JsStr → JsStr) (ps : List (Piece UInt16)) : JsStr :=
  render (fun token => shellEscape (f (unquoteToken token))) ps

theorem expandedText_unit (f : JsStr → JsStr) (u : UInt16) (ps : List (Piece UInt16)) :
    (expandedText f (.unit u :: ps)).map Piece.unit = .unit u :: (expandedText f ps).map .unit := rfl

theorem expandedText_hit (f : JsStr → JsStr) (token : JsStr) (ps : List (Piece UInt16)) :
    (expandedText f (.hit token :: ps)).map Piece.unit =
      (shellEscape (f (unquoteToken token))).map .unit ++ (expandedText f ps).map .unit := by
  simp [expandedText]

section

variable {f : JsStr → JsStr} {next : Option UInt16} {m m' mO mE : Mode} {s : JsStr}
  {ps : List (Piece UInt16)} {tsO : List Token}

theorem finish_same (h : SameMode f next m m') : finish m' = (finish m).map (List.map (renderToken f)) := by
  cases h with
  | bare hnone hsame => exact congrArg some (endWord_same hnone hsame)
  | single hsame | double hsame | comment => rfl

theorem SameMode.of_bare {cur'} (h : SameMode f next m (.bare cur')) :
    ∃ cur, m = .bare cur ∧ cur'.isNone = cur.isNone ∧ SameWord f next (begun cur) (begun cur') := by
  cases h with
  | bare hnone hsame => exact ⟨_, rfl, hnone, hsame⟩

theorem SameMode.to_bare {cur} (h : SameMode f next (.bare cur) m') :
    ∃ cur', m' = .bare cur' ∧ SameWord f next (begun cur) (begun cur') := by
  cases h with
  | bare hnone hsame => exact ⟨_, rfl, hsame⟩

/-- The modes of the marked, the original and the expanded command. -/
structure Together (f : JsStr → JsStr) (next : Option UInt16) (m mO mE : Mode) : Prop where
  original : SameMode id next m mO
  expanded : SameMode f next m mE

theorem Together.unit {u} (h : Together f (some u) m mO mE) (hu : u ≠ ascii '\\')
    (hlex : lex false mO ((u :: s).map .unit) = some tsO) :
    ∃ out m₁ mO₁ mE₁ rest, step false m (.unit u) = some (out, m₁) ∧
      step false mO (.unit u) = some (out.map (renderToken id), mO₁) ∧
      step false mE (.unit u) = some (out.map (renderToken f), mE₁) ∧
      lex false mO₁ (s.map .unit) = some rest ∧ tsO = out.map (renderToken id) ++ rest ∧
      ∀ next, Together f next m₁ mO₁ mE₁ := by
  obtain ⟨outO, mO₁, rest, hstepO, hrest, rfl⟩ := lex_cons_eq_some.mp hlex
  rcases step_same h.original hu with ⟨-, hnone⟩ | ⟨out, m₁, mO₂, hstep, hstepO', hsameO⟩
  · rw [hnone] at hstepO
    cases hstepO
  · obtain ⟨rfl, rfl⟩ := Prod.mk.injEq .. ▸ Option.some.inj (hstepO.symm.trans hstepO')
    rcases step_same h.expanded hu with ⟨hnone, -⟩ | ⟨outE, m₂, mE₁, hstep', hstepE, hsameE⟩
    · rw [hnone] at hstep
      cases hstep
    · obtain ⟨rfl, rfl⟩ := Prod.mk.injEq .. ▸ Option.some.inj (hstep.symm.trans hstep')
      exact ⟨out, m₁, mO₁, mE₁, rest, hstep, hstepO, hstepE, hrest, rfl, fun next => ⟨hsameO next, hsameE next⟩⟩

theorem Together.hit {token curO} (h : Together f next m (.bare curO) mE) (htoken : UrlToken token s.head?)
    (hlex : lex false (.bare curO) ((token ++ s).map .unit) = some tsO) :
    ∃ m₁ mO₁ mE₁, Quiet false m (markToken token) m₁ ∧ Quiet false (.bare curO) (token.map .unit) mO₁ ∧
      Quiet false mE ((shellEscape (f (unquoteToken token))).map .unit) mE₁ ∧
      lex false mO₁ (s.map .unit) = some tsO ∧ Together f s.head? m₁ mO₁ mE₁ := by
  obtain ⟨cur, rfl, -, hsameO⟩ := h.original.of_bare
  obtain ⟨curE, rfl, hsameE⟩ := h.expanded.to_bare
  rw [map_append] at hlex
  obtain ⟨w, hquiet, htakes⟩ := takes_markToken htoken cur
  obtain ⟨wO, hquietO, htakesO⟩ := takes_token htoken hlex
  obtain ⟨wE, hquietE, htakesE⟩ := takes_shellEscape curE s.head? (f (unquoteToken token))
  rw [hquietO.lex_append] at hlex
  exact ⟨_, _, _, hquiet, hquietO, hquietE, hlex, .bare rfl (hsameO.takes rfl htakes htakesO),
    .bare rfl (hsameE.takes rfl htakes htakesE)⟩

/-- A path that bash does not read as one word unless it is quoted. -/
def hostilePath : JsStr := lit "/$\n$"

theorem lex_hostilePath (h : SameMode f next m mE) (hbare : ∀ cur, m ≠ .bare cur) (rest : List (Piece UInt16)) :
    lex false mE ((shellEscape hostilePath).map .unit ++ rest) = none := by
  cases h with
  | bare hnone hsame => exact absurd rfl (hbare _)
  | single hsame | double hsame | comment => rfl

theorem SameMode.not_bare (h : SameMode f next m m') (hbare : ∀ cur', m' ≠ .bare cur') (cur : Option Word) :
    m ≠ .bare cur := by
  rintro rfl
  obtain ⟨cur', rfl, -⟩ := h.to_bare
  exact hbare cur' rfl

/-- With every match outside quotes the three commands have the same words, and with a match inside quotes or a
comment some resolution breaks the command. -/
theorem lex_expandedText (hcut : Cut s ps) (hslash : ascii '\\' ∉ s) (h : Together f s.head? m mO mE)
    (hlex : lex false mO (s.map .unit) = some tsO) : (matchesOutsideQuotes mO ps = true ∧
      ∃ ts, lex false m (ps.flatMap markPiece) = some ts ∧ tsO = ts.map (renderToken id) ∧
        lex false mE ((expandedText f ps).map .unit) = some (ts.map (renderToken f))) ∨
    matchesOutsideQuotes mO ps = false ∧
      ((∀ url, f url = hostilePath) → lex false mE ((expandedText f ps).map .unit) = none) := by
  induction hcut generalizing m mO mE tsO with
  | nil =>
    have hO := finish_same h.original
    have hE := finish_same h.expanded
    have hfinish : finish mO = some tsO := hlex
    rw [hO] at hfinish
    obtain ⟨ts, hts, rfl⟩ := Option.map_eq_some_iff.mp hfinish
    refine .inl ⟨by cases mO <;> rfl, ts, hts, rfl, ?_⟩
    rw [show lex false mE _ = finish mE from rfl, hE, hts]
    rfl
  | @unit u s ps hcut ih =>
    obtain ⟨out, m₁, mO₁, mE₁, rest, hstep, hstepO, hstepE, hrest, rfl, hnext⟩ :=
      h.unit (fun hu => hslash (by simp [hu])) hlex
    rw [matchesOutsideQuotes, hstepO, expandedText_unit, lex_step hstepE]
    obtain ⟨hbare, ts, hlexM, rfl, hlexE⟩ | ⟨hbad, hnone⟩ :=
      ih (fun hmem => hslash (mem_cons_of_mem _ hmem)) (hnext _) hrest
    · refine .inl ⟨hbare, out ++ ts, ?_, by rw [map_append], by rw [hlexE, map_append]; rfl⟩
      rw [flatMap_cons, markPiece, singleton_append, lex_step hstep, hlexM]
      rfl
    · exact .inr ⟨hbad, fun hf => by rw [hnone hf, Option.map_none]⟩
  | @hit token s ps htoken hcut ih =>
    rw [expandedText_hit]
    cases mO with
    | single w | double w | escape w | doubleEscape w | comment =>
      refine .inr ⟨rfl, fun hf => ?_⟩
      rw [hf]
      exact lex_hostilePath h.expanded (h.original.not_bare nofun) _
    | bare curO =>
      obtain ⟨m₁, mO₁, mE₁, hquiet, hquietO, hquietE, hlex, hnext⟩ := h.hit htoken hlex
      rw [matchesOutsideQuotes, hquietO.modeAfter_eq, hquietE.lex_append, flatMap_cons, markPiece, hquiet.lex_append]
      exact ih (fun hmem => hslash (mem_append_right _ hmem)) hnext hlex

theorem commandsFrom_renderToken (f : JsStr → JsStr) (words : List WordText) (ts : List Token) :
    commandsFrom (words.map fun text => (render f text).map .unit) (ts.map (renderToken f)) =
      (commandsFrom words ts).map (List.map fun text => (render f text).map .unit) := by
  have hend (words : List WordText) : endCommand (words.map fun text => (render f text).map .unit) =
      (endCommand words).map (List.map fun text => (render f text).map .unit) := by
    cases words <;> rfl
  induction ts generalizing words with
  | nil => exact hend words
  | cons t ts ih =>
    cases t with
    | word text =>
      have hword := ih (words ++ [text])
      rw [map_append] at hword
      exact hword
    | stop => rw [map_cons, renderToken, commandsFrom, commandsFrom, map_append, hend, ← ih []]; rfl

theorem bashCommands_of_renderToken {text ts}
    (h : lex false (.bare none) (text.map .unit) = some (ts.map (renderToken f))) :
    bashCommands false text = some ((commandsFrom [] ts).map (List.map (render f))) := by
  have hwords : (List.map (render id) ∘ List.map fun text => (render f text).map Piece.unit) =
      List.map (render f) := by
    simp [Function.comp_def, render_map_unit]
  have hcommands := commandsFrom_renderToken f [] ts
  rw [map_nil] at hcommands
  rw [bashCommands, readCommands, h, Option.map_some, hcommands]
  exact congrArg some ((map_map ..).trans (by rw [← hwords]))

end

def pathOf (resolve : JsStr → Except JsStr JsStr) (url : JsStr) : JsStr :=
  match resolve (normalizeLocalScheme url) with
  | .ok path => path
  | .error _ => []

/-- The expanded command has the words of the original with each matched URL replaced by its path. -/
def KeepsWords (resolve : JsStr → Except JsStr JsStr) (command : JsStr) (ws : List JsStr) :
    Prop :=
  ∃ expanded words, expandInternalUrls resolve false command = .ok expanded ∧
    readCommands false (markedUrls command) = some [words] ∧ words.map (render id) = ws ∧
    bashCommands false expanded = some [words.map (render (pathOf resolve))]

def ResolvesToPaths (resolve : JsStr → Except JsStr JsStr) : Prop :=
  ∀ url, ∃ path, resolve url = .ok path ∧ startsWith path (lit "/") = true

section

variable {resolve : JsStr → Except JsStr JsStr} {command : JsStr} {ws : List JsStr}

theorem expandPieces_eq_ok (hresolve : ResolvesToPaths resolve) (ps : List (Piece UInt16)) :
    expandPieces resolve false ps = .ok (expandedText (pathOf resolve) ps) := by
  induction ps with
  | nil => rfl
  | cons p ps ih =>
    cases p with
    | unit u => rw [expandPieces, ih]; rfl
    | hit token =>
      obtain ⟨path, hpath, -⟩ := hresolve (normalizeLocalScheme (unquoteToken token))
      have hof : pathOf resolve (unquoteToken token) = path := by rw [pathOf, hpath]
      rw [expandPieces, ih, hpath]
      simp [expandedText, hof]
      rfl

variable {s : JsStr}

theorem includes_of_bareUrl {heads} {search : JsStr} {n}
    (hheads : (heads.all fun head => includes head search) = true) (h : bareUrl heads s = some n) :
    includes s search = true := by
  obtain ⟨head, hmem, hhead⟩ := exists_of_findSome?_eq_some h
  simp only [headMatch] at hhead
  split_ifs at hhead with hstart
  have hin : search <:+: head := of_decide_eq_true (all_eq_true.mp hheads head hmem)
  exact decide_eq_true (hin.trans (List.isPrefixOf_iff_prefix.mp hstart.1).isInfix)

theorem includes_of_matchInternalUrl {prev n} (h : matchInternalUrl prev s = some n) :
    includes s (lit "://") = true ∨ includes s (lit "local:/") = true := by
  obtain ⟨heads, hlist, h⟩ := matchInternalUrl_cases h
  have hincludes {search : JsStr} (hheads : (heads.all fun head => includes head search) = true) :
      includes s search = true := by
    rcases h with h | ⟨k, rest, length, rfl, hbare, -⟩
    · exact includes_of_bareUrl hheads h
    · have hin : search <:+: rest := of_decide_eq_true (includes_of_bareUrl hheads hbare)
      exact decide_eq_true (hin.trans (suffix_cons k.mark rest).isInfix)
  rcases hlist with rfl | rfl
  · exact .inl (hincludes (by decide +kernel))
  · exact .inr (hincludes (by decide +kernel))

theorem internalUrlsFrom_eq_units (hscheme : includes s (lit "://") = false)
    (hlocal : includes s (lit "local:/") = false) (prev : Option UInt16) :
    internalUrlsFrom prev 0 s = s.map .unit := by
  have hsuffix {u : UInt16} {s search : JsStr} (h : includes (u :: s) search = false) :
      includes s search = false := by
    refine decide_eq_false fun hin => ?_
    exact of_decide_eq_false h (hin.trans (suffix_cons u s).isInfix)
  induction s generalizing prev with
  | nil => rfl
  | cons u s ih =>
    cases hmatch : matchInternalUrl prev (u :: s) with
    | none => rw [internalUrlsFrom, hmatch, map_cons, ← ih (hsuffix hscheme) (hsuffix hlocal) (some u)]
    | some n =>
      rcases includes_of_matchInternalUrl hmatch with h | h
      · exact absurd h (Bool.eq_false_iff.mp hscheme)
      · exact absurd h (Bool.eq_false_iff.mp hlocal)

theorem expandInternalUrls_eq_ok (hresolve : ResolvesToPaths resolve) :
    expandInternalUrls resolve false command = .ok (expandedText (pathOf resolve) (internalUrls command)) := by
  unfold expandInternalUrls
  split_ifs with hnone
  · rw [internalUrls, internalUrlsFrom_eq_units hnone.1 hnone.2, expandedText, render_map_unit]
  · exact expandPieces_eq_ok hresolve _

theorem Together.start (f : JsStr → JsStr) (next : Option UInt16) :
    Together f next (.bare none) (.bare none) (.bare none) :=
  ⟨.bare rfl (SameWord.start.weaken next), .bare rfl (SameWord.start.weaken next)⟩

/-- The words survive every resolution exactly if every match starts outside quotes and comments. -/
theorem expandInternalUrls_keeps_words_iff (hslash : ascii '\\' ∉ command)
    (hread : bashCommands false command = some [ws]) :
    (∀ resolve, ResolvesToPaths resolve → KeepsWords resolve command ws) ↔
      matchesOutsideQuotes (.bare none) (internalUrls command) = true := by
  obtain ⟨tsO, hlex, -⟩ := letters_of_bashCommands hread
  have hcut : Cut command (internalUrls command) := cut_internalUrlsFrom none command
  constructor
  · intro hkeeps
    have hresolve : ResolvesToPaths fun _ => .ok hostilePath := fun _ => ⟨hostilePath, rfl, by decide⟩
    obtain ⟨expanded, words, hexpanded, -, -, hbash⟩ := hkeeps _ hresolve
    rw [expandInternalUrls_eq_ok hresolve] at hexpanded
    cases hexpanded
    obtain ⟨hbare, -⟩ | ⟨-, hnone⟩ :=
      lex_expandedText hcut hslash (Together.start (pathOf fun _ => .ok hostilePath) _) hlex
    · exact hbare
    · rw [bashCommands, readCommands, hnone fun _ => rfl] at hbash
      cases hbash
  · intro hbare resolve hresolve
    obtain ⟨-, ts, hmarked, rfl, hexpanded⟩ :=
      (lex_expandedText hcut hslash (Together.start (pathOf resolve) _) hlex).resolve_right (by simp [hbare])
    rw [bashCommands_of_renderToken hlex] at hread
    obtain ⟨words, hwords, rfl⟩ := map_eq_singleton_iff.mp (Option.some.inj hread)
    refine ⟨_, words, expandInternalUrls_eq_ok hresolve, ?_, rfl, ?_⟩
    · rw [readCommands, markedUrls, hmarked, Option.map_some, hwords]
    · rw [bashCommands_of_renderToken hexpanded, hwords, map_singleton]

end

theorem expandInternalUrls_keeps_cat : ascii '\\' ∉ lit "cat 'skill://a/b' x" ∧ ∀ resolve, ResolvesToPaths resolve →
      KeepsWords resolve (lit "cat 'skill://a/b' x") [lit "cat", lit "skill://a/b", lit "x"] :=
  ⟨by decide +kernel,
    (expandInternalUrls_keeps_words_iff (by decide +kernel) (by decide +kernel)).mpr (by decide +kernel)⟩

/-- The quotes of the replacement become part of the word when the match is inside other quotes. -/
theorem expandInternalUrls_inside_quotes :
    bashCommands false (lit "echo \"see skill://a\"") = some [[lit "echo", lit "see skill://a"]] ∧
      expandInternalUrls (fun _ => .ok (lit "/p")) false (lit "echo \"see skill://a\"") =
        .ok (lit "echo \"see '/p'\"") ∧
      bashCommands false (lit "echo \"see '/p'\"") = some [[lit "echo", lit "see '/p'"]] ∧
      (readCommands false (markedUrls (lit "echo \"see skill://a\""))).map
        (List.map (List.map (render fun _ => lit "/p"))) = some [[lit "echo", lit "see /p"]] := by
  decide +kernel

end GajaeCode.Tools
