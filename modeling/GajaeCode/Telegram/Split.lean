import GajaeCode.Telegram.Tokens

/-! Cutting a long message into chunks. At a cut the open tags are closed, and reopened in the next
chunk. -/
namespace GajaeCode.Telegram

open Text List HtmlPiece OpenTag

def closersFor (stack : List OpenTag) : JsStr :=
  (stack.map fun t => lit "</" ++ t.name ++ [gtUnit]).reverse.flatten

def openersFor (stack : List OpenTag) : JsStr := (stack.map OpenTag.tag).flatten

def minimumChunkLengthFor (stack : List OpenTag) : Nat :=
  (openersFor stack).length + (closersFor stack).length + 1

structure SplitState where
  chunks : List JsStr
  stack : List OpenTag
  out : JsStr
  chunkHasBody : Bool

def SplitState.flush (st : SplitState) : SplitState :=
  if st.chunkHasBody then
    { st with chunks := st.chunks ++ [st.out ++ closersFor st.stack], out := openersFor st.stack, chunkHasBody := false }
  else st

/-- The stack without the last open tag of that name. -/
def updateStackForClose (stack : List OpenTag) (name : JsStr) : List OpenTag :=
  (stack.reverse.eraseP fun t => t.name = name).reverse

section

variable (max : Nat)

/-- What of the stack and the token has to fit before `max`, or the open chunk is flushed. -/
def flushFor (st : SplitState) (length : Nat) (nextStack : List OpenTag) : SplitState :=
  if st.chunkHasBody ∧ max < st.out.length + length + (closersFor nextStack).length then st.flush else st

def splitStep (st : SplitState) (token : Token) : SplitState :=
  match token.kind with
  | .opening name =>
    let nextStack := st.stack ++ [⟨name, token.value⟩]
    if max < minimumChunkLengthFor nextStack then st
    else
      let st := flushFor max st token.value.length nextStack
      if max < st.out.length + token.value.length + (closersFor nextStack).length then st
      else { st with out := st.out ++ token.value, chunkHasBody := true, stack := nextStack }
  | .closing name =>
    if st.stack.all fun t => t.name ≠ name then st
    else
      let nextStack := updateStackForClose st.stack name
      let st := flushFor max st token.value.length nextStack
      if max < st.out.length + token.value.length + (closersFor nextStack).length then { st with stack := nextStack }
      else { st with out := st.out ++ token.value, chunkHasBody := true, stack := nextStack }
  | .text =>
    let st := flushFor max st token.value.length st.stack
    { st with out := st.out ++ token.value, chunkHasBody := true }

def splitTokens (st : SplitState) (tokens : List Token) : SplitState := tokens.foldl (splitStep max) st

end

def splitTelegramHtml (message : JsStr) (max : Nat) : List JsStr :=
  if message.length ≤ max then [message]
  else
    let st := splitTokens max ⟨[], [], [], false⟩ (tokenize message)
    if st.chunkHasBody then st.chunks ++ [st.out ++ closersFor st.stack] else st.chunks

/-! ### What has to fit -/

def openAfter (stack : List OpenTag) (token : Token) : List OpenTag :=
  match token.kind with
  | .opening name => stack ++ [⟨name, token.value⟩]
  | .closing name => updateStackForClose stack name
  | .text => stack

/-- At every token, the open tags, their closers and the token fit `max`. -/
def NestingFits (max : Nat) : List OpenTag → List Token → Prop
  | _, [] => True
  | stack, token :: rest =>
    (openersFor stack).length + (closersFor stack).length + token.value.length ≤ max ∧
      NestingFits max (openAfter stack token) rest

instance NestingFits.decidable (max : Nat) : (stack : List OpenTag) → (tokens : List Token) →
    Decidable (NestingFits max stack tokens)
  | _, [] => .isTrue trivial
  | stack, token :: rest => @instDecidableAnd _ _ _ (NestingFits.decidable max (openAfter stack token) rest)

def HtmlPiece.tokenLength : HtmlPiece → Nat
  | .pair _ _ _ => 1
  | .entity name h => if name.length < 10 then (entity name h).render.length else 1
  | piece => piece.render.length

def HtmlPiece.openAfter (stack : List OpenTag) : HtmlPiece → List OpenTag
  | .opening name attributes h => stack ++ [⟨lowerName name, (opening name attributes h).render⟩]
  | .closing name _ => updateStackForClose stack (lowerName name)
  | _ => stack

/-- Where in a chunk a piece starts: behind the `used` units of the open chunk if its first token fits
there, behind the reopened tags of a new one otherwise. -/
def chunkStart (max used : Nat) (stack : List OpenTag) (piece : HtmlPiece) : Nat :=
  if max < used + piece.tokenLength + (closersFor (piece.openAfter stack)).length then (openersFor stack).length
  else used

/-- Every piece ends in the chunk in which it starts. -/
def PiecesFit (max : Nat) : Nat → List OpenTag → List HtmlPiece → Prop
  | _, _, [] => True
  | used, stack, piece :: rest =>
    chunkStart max used stack piece + piece.render.length + (closersFor (piece.openAfter stack)).length ≤ max ∧
      PiecesFit max (chunkStart max used stack piece + piece.render.length) (piece.openAfter stack) rest

/-! ### Opening and closing tags -/

@[simp] theorem closersFor_append (first last : List OpenTag) :
    closersFor (first ++ last) = closersFor last ++ closersFor first := by
  simp [closersFor]

@[simp] theorem openersFor_append (first last : List OpenTag) :
    openersFor (first ++ last) = openersFor first ++ openersFor last := by
  simp [openersFor]

@[simp] theorem updateStackForClose_concat (stack : List OpenTag) (t : OpenTag) :
    updateStackForClose (stack ++ [t]) t.name = stack := by
  simp [updateStackForClose]

variable {stack : List OpenTag} {piece : HtmlPiece} {u : UInt16}

theorem exists_concat_of_closing {after name} (h : nest OpenTag.name stack.reverse [.closing name] = some after) :
    ∃ t : OpenTag, stack = after.reverse ++ [t] ∧ t.name = name := by
  cases hstack : stack.reverse with
  | nil =>
    rw [hstack] at h
    cases h
  | cons t below =>
    rw [hstack, nest] at h
    split_ifs at h with hname
    injection h with h
    refine ⟨t, ?_, hname⟩
    rw [← reverse_reverse stack, hstack, reverse_cons, h]

/-- The stack after a piece is what the nesting of the message says. -/
theorem HtmlPiece.openAfter_of_nest {after} (h : nest OpenTag.name stack.reverse piece.bracket.toList = some after) :
    piece.openAfter stack = after.reverse := by
  cases piece with
  | opening name attributes tag =>
    cases h
    rw [reverse_cons, reverse_reverse]
    rfl
  | closing name tag =>
    obtain ⟨t, hstack, hname⟩ := exists_concat_of_closing h
    rw [openAfter, hstack, ← hname, updateStackForClose_concat]
  | _ =>
    cases h
    rw [reverse_reverse]
    rfl

def OpenTag.Opened (t : OpenTag) : Prop :=
  ∃ name attributes h, t = ⟨lowerName name, (opening name attributes h).render⟩

variable {pieces : List HtmlPiece} {max : Nat}

theorem opened_of_nest (h : nest name [] (brackets pieces) = some stack.reverse) : ∀ t ∈ stack, t.Opened := by
  intro t ht
  have hmem : Text.Bracket.opening t ∈ brackets pieces := by
    rcases mem_of_nest h (mem_reverse.mpr ht) with hnil | hmem
    · cases hnil
    · exact hmem
  obtain ⟨piece, _, hbracket⟩ := mem_filterMap.mp hmem
  cases piece with
  | opening name attributes tag =>
    refine ⟨name, attributes, tag, ?_⟩
    simpa [bracket] using hbracket.symm
  | _ => cases hbracket

theorem brackets_append (first last : List HtmlPiece) : brackets (first ++ last) = brackets first ++ brackets last :=
  filterMap_append

theorem render_append (first last : List HtmlPiece) : render (first ++ last) = render first ++ render last :=
  flatMap_append

theorem exists_closers (h : ∀ t ∈ stack, t.Opened) : ∃ closers : List HtmlPiece, closersFor stack = render closers ∧
      brackets closers = stack.reverse.map (fun t => .closing t.name) ∧
      ∀ piece ∈ closers, ∃ name tag, piece = .closing name tag := by
  induction stack with
  | nil => exact ⟨[], rfl, rfl, nofun⟩
  | cons t stack ih =>
    obtain ⟨closers, hrender, hbrackets, hclosing⟩ := ih (forall_mem_cons.mp h).2
    obtain ⟨name, attributes, tag, rfl⟩ := h t mem_cons_self
    obtain ⟨hname, hlower⟩ := isTagName_of_allowed tag.1.allowed
    refine ⟨closers ++ [.closing (lowerName name) hname], ?_, ?_, ?_⟩
    · rw [← singleton_append, closersFor_append, hrender, render_append]
      simp [closersFor, render, HtmlPiece.render]
    · rw [brackets_append, hbrackets]
      simp [brackets, bracket, hlower]
    · exact forall_mem_append.mpr ⟨hclosing, forall_mem_singleton.mpr ⟨_, _, rfl⟩⟩

theorem exists_openers (h : ∀ t ∈ stack, t.Opened) : ∃ openers : List HtmlPiece, openersFor stack = render openers ∧
      brackets openers = stack.map .opening ∧ openers.flatMap text = [] := by
  induction stack with
  | nil => exact ⟨[], rfl, rfl, rfl⟩
  | cons t stack ih =>
    obtain ⟨openers, hrender, hbrackets, htext⟩ := ih (forall_mem_cons.mp h).2
    obtain ⟨name, attributes, tag, rfl⟩ := h t mem_cons_self
    refine ⟨.opening name attributes tag :: openers, ?_, ?_, htext⟩
    · exact congrArg (_ ++ ·) hrender
    · exact congrArg (_ :: ·) hbrackets

theorem isMessage_append_closers (h : nest name [] (brackets pieces) = some stack.reverse) :
    IsMessage (render pieces ++ closersFor stack) := by
  obtain ⟨closers, hrender, hbrackets, _⟩ := exists_closers (opened_of_nest h)
  refine ⟨pieces ++ closers, by rw [render_append, hrender], ?_⟩
  have hclosings := @nest_closings _ _ _ name stack.reverse []
  rw [Nested, brackets_append, nest_append, h, hbrackets]
  rwa [append_nil] at hclosings

theorem withoutTags_append_closers (h : nest name [] (brackets pieces) = some stack.reverse) :
    withoutTags (render pieces ++ closersFor stack) = withoutTags (render pieces) := by
  obtain ⟨closers, hrender, _, hclosing⟩ := exists_closers (opened_of_nest h)
  have htext : closers.flatMap text = [] := by
    rw [flatMap_eq_nil_iff]
    intro piece hpiece
    obtain ⟨name, tag, rfl⟩ := hclosing piece hpiece
    rfl
  rw [hrender, ← render_append, withoutTags_render, withoutTags_render, flatMap_append, htext, append_nil]

/-! ### The loop -/

/-- What the loop has of the pieces it has read. -/
structure Chunking (max : Nat) (st : SplitState) (done : List HtmlPiece) : Prop where
  within : st.out.length + (closersFor st.stack).length ≤ max
  opened : ∃ pieces, st.out = render pieces ∧ nest name [] (brackets pieces) = some st.stack.reverse
  fresh : st.chunkHasBody = false → st.out = openersFor st.stack
  closed : ∀ chunk ∈ st.chunks, chunk.length ≤ max ∧ IsMessage chunk
  text : st.chunks.flatMap withoutTags ++ withoutTags st.out = done.flatMap text

namespace Chunking

variable {max : Nat} {st : SplitState} {done : List HtmlPiece} (h : Chunking max st done)
include h

theorem message : (st.out ++ closersFor st.stack).length ≤ max ∧ IsMessage (st.out ++ closersFor st.stack) := by
  obtain ⟨pieces, hout, hnest⟩ := h.opened
  refine ⟨by simpa using h.within, ?_⟩
  rw [hout]
  exact isMessage_append_closers hnest

theorem chunks : ∀ chunk ∈ st.chunks ++ [st.out ++ closersFor st.stack], chunk.length ≤ max ∧ IsMessage chunk :=
  forall_mem_append.mpr ⟨h.closed, forall_mem_singleton.mpr h.message⟩

theorem withoutTags_message : withoutTags (st.out ++ closersFor st.stack) = withoutTags st.out := by
  obtain ⟨pieces, hout, hnest⟩ := h.opened
  rw [hout]
  exact withoutTags_append_closers hnest

theorem flush
    (hroom : (openersFor st.stack).length + (closersFor st.stack).length ≤ max) : Chunking max st.flush done := by
  unfold SplitState.flush
  split_ifs with hbody
  · obtain ⟨pieces, hout, hnest⟩ := h.opened
    obtain ⟨openers, hrender, hbrackets, htext⟩ := exists_openers (opened_of_nest hnest)
    refine ⟨hroom, ⟨openers, hrender, ?_⟩, fun _ => rfl, h.chunks, ?_⟩
    · rw [hbrackets, nest_openings, append_nil]
    · rw [flatMap_append, flatMap_singleton, h.withoutTags_message, hrender, withoutTags_render, htext, append_nil]
      exact h.text
  · exact h

theorem flushFor (hroom : (openersFor st.stack).length + (closersFor st.stack).length ≤ max) (length : Nat)
    (nextStack : List OpenTag) : Chunking max (flushFor max st length nextStack) done := by
  unfold GajaeCode.Telegram.flushFor
  split_ifs
  · exact h.flush hroom
  · exact h

theorem add {piece after} (hnest : nest name st.stack.reverse piece.bracket.toList = some after.reverse)
    (hfits : st.out.length + piece.render.length + (closersFor after).length ≤ max) :
    Chunking max { st with out := st.out ++ piece.render, chunkHasBody := true, stack := after } (done ++ [piece]) := by
  obtain ⟨pieces, hout, hopen⟩ := h.opened
  have hrender : st.out ++ piece.render = render (pieces ++ [piece]) := by
    rw [render_append, hout]
    exact congrArg _ (append_nil _).symm
  refine ⟨by simpa using hfits, ⟨pieces ++ [piece], hrender, ?_⟩, nofun, h.closed, ?_⟩
  · have hbracket : brackets [piece] = piece.bracket.toList := by
      cases hpiece : piece.bracket <;> simp [brackets, hpiece]
    rw [brackets_append, nest_append, hopen, Option.bind_some, hbracket, hnest]
  · have htext := h.text
    rw [hout, withoutTags_render] at htext
    rw [hrender, withoutTags_render, flatMap_append, ← append_assoc, htext, flatMap_append]

end Chunking

section

variable {max : Nat} {st : SplitState}

@[simp] theorem flushFor_stack (length : Nat) (nextStack : List OpenTag) :
    (flushFor max st length nextStack).stack = st.stack := by
  unfold flushFor SplitState.flush
  split_ifs <;> rfl

variable {units : JsStr}

theorem splitStep_text_of_le (hbody : st.chunkHasBody = true)
    (h : st.out.length + units.length + (closersFor st.stack).length ≤ max) :
    splitStep max st ⟨units, .text⟩ = { st with out := st.out ++ units } := by
  have hflush : flushFor max st units.length st.stack = st := if_neg fun hc => absurd hc.2 (Nat.not_lt.mpr h)
  simp only [splitStep, hflush, ← hbody]

theorem flushFor_chunks_subset (length : Nat) (nextStack : List OpenTag) :
    st.chunks ⊆ (flushFor max st length nextStack).chunks := by
  unfold flushFor SplitState.flush
  split_ifs
  · exact subset_append_left _ _
  all_goals exact List.Subset.refl _

theorem splitStep_chunks_subset (token : Token) : st.chunks ⊆ (splitStep max st token).chunks := by
  unfold splitStep
  split
  all_goals
    dsimp only
    try split_ifs
  all_goals first | exact List.Subset.refl _ | exact flushFor_chunks_subset _ _

theorem splitTokens_chunks_subset (tokens : List Token) : st.chunks ⊆ (splitTokens max st tokens).chunks := by
  induction tokens generalizing st with
  | nil => exact List.Subset.refl _
  | cons token tokens ih => exact List.Subset.trans (splitStep_chunks_subset token) ih

theorem splitTokens_cons (token : Token) (tokens : List Token) :
    splitTokens max st (token :: tokens) = splitTokens max (splitStep max st token) tokens := rfl

theorem splitTokens_append (first last : List Token) :
    splitTokens max st (first ++ last) = splitTokens max (splitTokens max st first) last :=
  foldl_append

theorem splitTokens_units (hbody : st.chunkHasBody = true)
    (h : st.out.length + units.length + (closersFor st.stack).length ≤ max) :
    splitTokens max st (units.map fun u => ⟨[u], .text⟩) = { st with out := st.out ++ units } := by
  induction units generalizing st with
  | nil => rw [append_nil]; rfl
  | cons u units ih =>
    rw [length_cons] at h
    have hstep := @splitStep_text_of_le max st [u] hbody (by rw [length_singleton]; omega)
    have hrest := @ih { st with out := st.out ++ [u] } hbody (by simp; omega)
    rw [append_assoc] at hrest
    rw [map_cons, splitTokens_cons, hstep]
    exact hrest

/-- If not all units fit, a chunk ends between two of them. -/
theorem exists_chunk_of_overflow (hbody : st.chunkHasBody = true)
    (hwithin : st.out.length + (closersFor st.stack).length ≤ max)
    (h : max < st.out.length + units.length + (closersFor st.stack).length) :
    ∃ n < units.length, st.out ++ units.take n ++ closersFor st.stack ∈
      (splitTokens max st (units.map fun u => ⟨[u], .text⟩)).chunks := by
  induction units generalizing st with
  | nil => exact absurd h (by simpa using hwithin)
  | cons u units ih =>
    rw [length_cons] at h
    by_cases hroom : max < st.out.length + 1 + (closersFor st.stack).length
    · refine ⟨0, Nat.succ_pos _, ?_⟩
      rw [map_cons, splitTokens_cons]
      apply splitTokens_chunks_subset
      simp [splitStep, flushFor, hbody, hroom, SplitState.flush]
    · have hstep := @splitStep_text_of_le max st [u] hbody (Nat.not_lt.mp hroom)
      obtain ⟨n, hn, hmem⟩ := @ih { st with out := st.out ++ [u] } hbody (by simp; omega) (by simp; omega)
      refine ⟨n + 1, Nat.succ_lt_succ hn, ?_⟩
      rw [map_cons, splitTokens_cons, hstep]
      simpa using hmem

end

/-! ### Pieces that are cut -/

/-- The unit that ends what another one begins: the low surrogate of a pair, the semicolon of an entity. -/
def Completes (u v : UInt16) : Prop :=
  isHighSurrogate u = true ∧ isLowSurrogate v = true ∨ u = ampUnit ∧ v = semiUnit

def BeginsPiece (u : UInt16) : Prop := isHighSurrogate u = true ∨ u = ampUnit

theorem low_not_begins (h : isLowSurrogate u = true) : ¬ BeginsPiece u := by
  rintro (hhigh | rfl)
  · exact Bool.noConfusion (hhigh.symm.trans (not_high_of_low h))
  · exact absurd h (by decide)

theorem entityUnit_not_begins (h : isEntityUnit u = true) : ¬ BeginsPiece u := by
  rintro (hhigh | rfl)
  · simp only [isEntityUnit, isHighSurrogate, Bool.or_eq_true, Bool.and_eq_true, beq_iff_eq, decide_eq_true_eq,
      UInt16.le_iff_toNat_le, ← UInt16.toNat_inj, UInt16.reduceToNat] at h hhigh
    omega
  · exact absurd h (by decide)

theorem HtmlPiece.exists_completes {first last}
    (h : piece.tokens = first ++ ⟨[u], .text⟩ :: last) (hu : BeginsPiece u) :
    ∃ v, Completes u v ∧ ⟨[v], .text⟩ ∈ last := by
  have hmem : ⟨[u], .text⟩ ∈ piece.tokens := h ▸ mem_append_right first mem_cons_self
  cases piece with
  | unit w plain =>
    exfalso
    obtain rfl : u = w := by simpa [tokens] using hmem
    rcases hu with hhigh | hamp
    · exact Bool.noConfusion ((surrogate_of_high hhigh).symm.trans plain.2.2)
    · exact plain.2.1 hamp
  | pair hi lo surrogates =>
    cases first with
    | nil =>
      obtain ⟨rfl, rfl⟩ := h
      exact ⟨lo, .inl surrogates, mem_singleton_self _⟩
    | cons token first =>
      exfalso
      have hmem : (⟨[u], .text⟩ : Token) ∈ [(⟨[lo], .text⟩ : Token)] := by
        injection h with _ h
        rw [h]
        exact mem_append_right _ mem_cons_self
      have hlo : u = lo := by simpa using hmem
      exact low_not_begins (hlo ▸ surrogates.2) hu
  | entity name units =>
    rw [tokens] at h
    split_ifs at h with hshort
    · simp [tokens, hshort, render] at hmem
    · obtain ⟨before, after, hrender, -, hafter⟩ := map_eq_append_iff.mp h
      obtain ⟨w, after, rfl, hw, rfl⟩ := map_eq_cons_iff.mp hafter
      obtain rfl : w = u := by simpa using hw
      cases before with
      | nil =>
        injection hrender with hamp hrest
        refine ⟨semiUnit, .inr ⟨hamp.symm, rfl⟩, mem_map.mpr ⟨semiUnit, ?_, rfl⟩⟩
        rw [← hrest]
        exact mem_append_right _ (mem_singleton_self _)
      | cons _ before =>
        exfalso
        injection hrender with _ hrest
        have hmem : w ∈ name ++ [semiUnit] := by
          change w ∈ List.append name [semiUnit]
          rw [hrest]
          exact mem_append_right _ mem_cons_self
        rcases mem_append.mp hmem with hmem | hmem
        · exact entityUnit_not_begins (units.2 w hmem) hu
        · rw [mem_singleton.mp hmem] at hu
          exact absurd hu (by unfold BeginsPiece; decide)
  | _ => simp [tokens] at hmem

theorem exists_completes {first last} (h : tokensOf pieces = first ++ ⟨[u], .text⟩ :: last) (hu : BeginsPiece u) :
    ∃ v, Completes u v ∧ ⟨[v], .text⟩ ∈ last := by
  induction pieces generalizing first with
  | nil => simp [tokensOf] at h
  | cons piece pieces ih =>
    rcases append_eq_append_iff.mp h with ⟨rest, hfirst, hrest⟩ | ⟨rest, hpiece, hlast⟩
    · exact ih hrest
    · cases rest with
      | nil =>
        exact @ih [] hlast.symm
      | cons token rest =>
        injection hlast with htoken hlast
        subst htoken
        obtain ⟨v, hv, hmem⟩ := HtmlPiece.exists_completes hpiece hu
        exact ⟨v, hv, hlast ▸ mem_append_left _ hmem⟩

/-- A begun piece is not completed by closers. -/
theorem not_isMessage_of_tokens {closers} {html units : JsStr}
    (hu : BeginsPiece u) (hunits : ∀ v ∈ units, ¬ Completes u v)
    (hclosers : ∀ piece ∈ closers, ∃ name tag, piece = .closing name tag)
    (h : tokenize html = tokensOf pieces ++ ⟨[u], .text⟩ :: (units.map (fun u => ⟨[u], .text⟩) ++ tokensOf closers)) :
    ¬ IsMessage html := by
  rintro ⟨whole, rfl, -⟩
  rw [tokenize_render] at h
  obtain ⟨v, hv, hmem⟩ := exists_completes h hu
  rcases mem_append.mp hmem with hmem | hmem
  · obtain ⟨w, hw, htoken⟩ := mem_map.mp hmem
    obtain rfl : w = v := by simpa using htoken
    exact hunits w hw hv
  · obtain ⟨piece, hpiece, htoken⟩ := mem_flatMap.mp hmem
    obtain ⟨name, tag, rfl⟩ := hclosers piece hpiece
    simp [tokens] at htoken

theorem semi_notMem_closers (h : ∀ t ∈ stack, t.Opened) : semiUnit ∉ closersFor stack := by
  intro hmem
  obtain ⟨closer, hcloser, hmem⟩ := mem_flatten.mp hmem
  obtain ⟨t, ht, rfl⟩ := mem_map.mp (mem_reverse.mp hcloser)
  obtain ⟨name, attributes, tag, rfl⟩ := h t ht
  rcases mem_append.mp hmem with hmem | hmem
  · rcases mem_append.mp hmem with hmem | hmem
    · exact absurd hmem (by decide)
    · exact (isTagName_of_allowed tag.1.allowed).1.notMem (by decide) hmem
  · exact absurd hmem (by decide)

theorem not_isMessage_of_cut (hpiece : piece.bracket = none) {n} (hpos : 0 < n)
    (hn : n < piece.render.length) (hstack : ∀ t ∈ stack, t.Opened) (pieces : List HtmlPiece) :
    ¬ IsMessage (render pieces ++ (piece.render.take n ++ closersFor stack)) := by
  obtain ⟨closers, hrender, -, hclosing⟩ := exists_closers hstack
  have htokens := tokenize_render_append pieces (piece.render.take n ++ closersFor stack)
  cases piece with
  | unit u plain => exact absurd hn (by simp [HtmlPiece.render]; omega)
  | pair hi lo surrogates =>
    obtain rfl : n = 1 := by
      simp [HtmlPiece.render] at hn
      omega
    have hplain := surrogate_plain (surrogate_of_high surrogates.1)
    refine @not_isMessage_of_tokens hi pieces closers _ [] (.inl surrogates.1) (by simp) hclosing ?_
    rw [htokens, hrender]
    refine congrArg _ ((tokenize_plain hplain.1 hplain.2 _).trans ?_)
    exact congrArg _ (tokenize_render closers)
  | entity name units =>
    obtain ⟨m, rfl⟩ := Nat.exists_eq_succ_of_ne_zero hpos.ne'
    have hm : m ≤ name.length := by
      simp [HtmlPiece.render] at hn
      omega
    have htake : (HtmlPiece.entity name units).render.take (m + 1) = ampUnit :: name.take m := by
      rw [HtmlPiece.render, cons_append, take_succ_cons, take_append_of_le_length hm]
    have hsub : ∀ v ∈ name.take m, isEntityUnit v = true := fun v hv => units.2 v (mem_of_mem_take hv)
    refine @not_isMessage_of_tokens ampUnit pieces closers _ (name.take m) (.inr rfl) ?_ hclosing ?_
    · rintro v hv (⟨hhigh, -⟩ | ⟨-, rfl⟩)
      · exact absurd hhigh (by decide)
      · exact (entityUnit_plain (hsub _ hv)).2.2 rfl
    · have hsemi : semiUnit ∉ name.take m ++ closersFor stack := by
        rw [mem_append]
        exact not_or.mpr ⟨fun hmem => (entityUnit_plain (hsub _ hmem)).2.2 rfl, semi_notMem_closers hstack⟩
      rw [htokens, htake, cons_append, tokenize_ampersand (fun hs => hsemi hs.1),
        tokenize_units fun v hv => ⟨(entityUnit_plain (hsub v hv)).1, (entityUnit_plain (hsub v hv)).2.1⟩,
        hrender, tokenize_render]
  | opening name attributes tag | closing name tag => cases hpiece

/-! ### The loop over a piece -/

/-- A piece is one token, or each of its units is one. -/
theorem HtmlPiece.tokens_cases (piece : HtmlPiece) :
    (∃ kind, piece.tokens = [⟨piece.render, kind⟩]) ∧ piece.tokenLength = piece.render.length ∨
      piece.tokens = piece.render.map (fun u => ⟨[u], .text⟩) ∧ piece.tokenLength = 1 ∧ piece.bracket = none := by
  cases piece with
  | pair hi lo surrogates => exact .inr ⟨rfl, rfl, rfl⟩
  | entity name units =>
    simp only [tokens, tokenLength]
    split_ifs
    · exact .inl ⟨⟨_, rfl⟩, rfl⟩
    · exact .inr ⟨rfl, rfl, rfl⟩
  | _ => exact .inl ⟨⟨_, rfl⟩, rfl⟩

theorem HtmlPiece.openAfter_of_bracket (h : piece.bracket = none) (stack : List OpenTag) :
    piece.openAfter stack = stack := by
  cases piece with
  | opening name attributes tag | closing name tag => cases h
  | _ => rfl

theorem HtmlPiece.render_ne_nil (piece : HtmlPiece) : piece.render ≠ [] := by
  cases piece <;> exact cons_ne_nil _ _

theorem HtmlPiece.tokenLength_pos (piece : HtmlPiece) : 0 < piece.tokenLength := by
  rcases piece.tokens_cases with ⟨-, h⟩ | ⟨-, h, -⟩
  · exact h ▸ length_pos_of_ne_nil piece.render_ne_nil
  · exact h ▸ Nat.one_pos

theorem nestingFits_units {units : JsStr} {rest}
    (h : NestingFits max stack (units.map (fun u => ⟨[u], .text⟩) ++ rest)) : NestingFits max stack rest := by
  induction units with
  | nil => exact h
  | cons u units ih => exact ih h.2

theorem nestingFits_piece {rest} (h : NestingFits max stack (piece.tokens ++ rest)) :
    (openersFor stack).length + (closersFor stack).length + piece.tokenLength ≤ max ∧
      NestingFits max (piece.openAfter stack) rest := by
  cases piece with
  | pair hi lo surrogates => exact ⟨h.1, h.2.2⟩
  | entity name units =>
    simp only [tokens, tokenLength] at h ⊢
    split_ifs at h ⊢
    · exact h
    · exact ⟨h.1, nestingFits_units h⟩
  | _ => exact h

/-- Open tags are closed by a further token, which fits. -/
theorem minimum_le (hnest : nest name stack.reverse (brackets pieces) = some [])
    (hstack : stack ≠ []) (hfits : NestingFits max stack (tokensOf pieces)) : minimumChunkLengthFor stack ≤ max := by
  cases pieces with
  | nil =>
    injection hnest with hnil
    exact absurd (reverse_eq_nil_iff.mp hnil) hstack
  | cons piece pieces =>
    have hfirst := (nestingFits_piece hfits).1
    have hpos := piece.tokenLength_pos
    rw [minimumChunkLengthFor]
    omega

section

variable {max : Nat} {st : SplitState} {done : List HtmlPiece}

/-- The state in which a piece is added: after the flush for its first token. -/
def SplitState.before (max : Nat) (st : SplitState) (piece : HtmlPiece) : SplitState :=
  flushFor max st piece.tokenLength (piece.openAfter st.stack)

@[simp] theorem before_stack (piece : HtmlPiece) : (st.before max piece).stack = st.stack := flushFor_stack _ _

theorem before_out_length (h : Chunking max st done) (piece : HtmlPiece) :
    (st.before max piece).out.length = chunkStart max st.out.length st.stack piece := by
  rw [SplitState.before, chunkStart, flushFor]
  cases hbody : st.chunkHasBody with
  | true =>
    by_cases hfull : max < st.out.length + piece.tokenLength + (closersFor (piece.openAfter st.stack)).length
    · rw [if_pos ⟨rfl, hfull⟩, if_pos hfull, SplitState.flush, if_pos hbody]
    · rw [if_neg fun hc => hfull hc.2, if_neg hfull]
  | false => simp [h.fresh hbody]

variable {piece : HtmlPiece}

theorem before_fits (h : Chunking max st done)
    (hroom : (openersFor st.stack).length + piece.tokenLength + (closersFor (piece.openAfter st.stack)).length ≤ max) :
    (st.before max piece).out.length + piece.tokenLength + (closersFor (piece.openAfter st.stack)).length ≤ max := by
  rw [before_out_length h, chunkStart]
  split_ifs with hfull
  · exact hroom
  · exact Nat.not_lt.mp hfull

theorem splitStep_text (units : JsStr) :
    splitStep max st ⟨units, .text⟩ = { flushFor max st units.length st.stack with
      out := (flushFor max st units.length st.stack).out ++ units, chunkHasBody := true, stack := st.stack } := by
  simp [splitStep]

theorem splitTokens_piece_units {u} {units : JsStr}
    (hfits : (flushFor max st 1 st.stack).out.length + (u :: units).length + (closersFor st.stack).length ≤ max) :
    splitTokens max st ((u :: units).map fun u => ⟨[u], .text⟩) = { flushFor max st 1 st.stack with
      out := (flushFor max st 1 st.stack).out ++ (u :: units), chunkHasBody := true, stack := st.stack } := by
  rw [map_cons, splitTokens_cons, splitStep_text, splitTokens_units rfl (by simp at hfits ⊢; omega)]
  simp

theorem splitTokens_piece {after} (hnest : nest OpenTag.name st.stack.reverse piece.bracket.toList = some after)
    (hmin : piece.openAfter st.stack ≠ [] → minimumChunkLengthFor (piece.openAfter st.stack) ≤ max)
    (hfits : (st.before max piece).out.length + piece.render.length +
      (closersFor (piece.openAfter st.stack)).length ≤ max) :
    splitTokens max st piece.tokens = { st.before max piece with
      out := (st.before max piece).out ++ piece.render, chunkHasBody := true, stack := piece.openAfter st.stack } := by
  cases piece with
  | unit u plain => exact splitStep_text [u]
  | pair hi lo surrogates => exact splitTokens_piece_units hfits
  | entity name units =>
    simp only [SplitState.before, tokenLength, tokens] at hfits ⊢
    split_ifs at hfits ⊢
    · exact splitStep_text _
    · exact splitTokens_piece_units hfits
  | opening name attributes tag =>
    have hmin := Nat.not_lt.mpr (hmin (append_ne_nil_of_right_ne_nil _ (cons_ne_nil _ _)))
    exact (if_neg hmin).trans (if_neg (Nat.not_lt.mpr hfits))
  | closing name tag =>
    have hopen : ¬ (st.stack.all fun t => t.name ≠ lowerName name) = true := by
      obtain ⟨t, hstack, hname⟩ := exists_concat_of_closing hnest
      simp [hstack, hname]
    exact (if_neg hopen).trans (if_neg (Nat.not_lt.mpr hfits))

theorem exists_cut (hunits : piece.tokens = piece.render.map fun u => ⟨[u], .text⟩)
    (hone : piece.tokenLength = 1) (hbracket : piece.bracket = none)
    (hroom : (st.before max piece).out.length + 1 + (closersFor st.stack).length ≤ max)
    (h : max < (st.before max piece).out.length + piece.render.length + (closersFor st.stack).length) :
    ∃ n, 0 < n ∧ n < piece.render.length ∧ (st.before max piece).out ++ (piece.render.take n ++ closersFor st.stack) ∈
        (splitTokens max st piece.tokens).chunks := by
  obtain ⟨u, units, hrender⟩ := exists_cons_of_ne_nil piece.render_ne_nil
  rw [hunits, hrender, map_cons, splitTokens_cons, splitStep_text]
  rw [hrender, length_cons] at h
  rw [SplitState.before, hone, openAfter_of_bracket hbracket] at h hroom ⊢
  obtain ⟨n, hn, hmem⟩ := @exists_chunk_of_overflow max
    { flushFor max st 1 st.stack with
      out := (flushFor max st 1 st.stack).out ++ [u], chunkHasBody := true, stack := st.stack } units rfl
    (by simpa using hroom) (by simp; omega)
  refine ⟨n + 1, Nat.succ_pos _, Nat.succ_lt_succ hn, ?_⟩
  simpa using hmem

end

/-! ### The whole message -/

section

variable {max : Nat}

theorem brackets_cons (piece : HtmlPiece) (pieces : List HtmlPiece) :
    brackets (piece :: pieces) = piece.bracket.toList ++ brackets pieces := by
  cases h : piece.bracket <;> simp [brackets, h]

theorem nest_piece {stack piece pieces} (h : nest name stack.reverse (brackets (piece :: pieces)) = some []) :
    nest name stack.reverse piece.bracket.toList = some (piece.openAfter stack).reverse ∧
      nest name (piece.openAfter stack).reverse (brackets pieces) = some [] := by
  rw [brackets_cons, nest_append] at h
  obtain ⟨after, hafter, hrest⟩ := Option.bind_eq_some_iff.mp h
  rw [openAfter_of_nest hafter, reverse_reverse]
  exact ⟨hafter, hrest⟩

theorem room_of_nestingFits {stack piece pieces}
    (hnest : nest OpenTag.name stack.reverse (brackets (piece :: pieces)) = some [])
    (hfits : NestingFits max stack (tokensOf (piece :: pieces))) :
    (openersFor stack).length + piece.tokenLength + (closersFor (piece.openAfter stack)).length ≤ max := by
  obtain ⟨hfirst, hrest⟩ := nestingFits_piece hfits
  obtain ⟨hpiece, hnest⟩ := nest_piece hnest
  cases piece with
  | opening name attributes tag =>
    have hmin := minimum_le hnest (append_ne_nil_of_right_ne_nil _ (cons_ne_nil _ _)) hrest
    simp only [minimumChunkLengthFor, HtmlPiece.openAfter, openersFor_append, length_append] at hmin ⊢
    simp only [HtmlPiece.tokenLength, openersFor, map_cons, map_nil, flatten_cons, flatten_nil, append_nil] at hmin ⊢
    omega
  | closing name tag =>
    obtain ⟨t, hstack, -⟩ := exists_concat_of_closing hpiece
    have hclosers := congrArg (fun stack => (closersFor stack).length) hstack
    simp only [closersFor_append, length_append, reverse_reverse] at hclosers
    omega
  | _ =>
    simp only [HtmlPiece.openAfter]
    omega

theorem tokensOf_cons (piece : HtmlPiece) (pieces : List HtmlPiece) :
    tokensOf (piece :: pieces) = piece.tokens ++ tokensOf pieces := rfl

variable {st : SplitState} {done pieces : List HtmlPiece} {piece : HtmlPiece}

section

variable (h : Chunking max st done)
include h

theorem Chunking.place (hnest : nest name st.stack.reverse (brackets (piece :: pieces)) = some [])
    (hfits : NestingFits max st.stack (tokensOf (piece :: pieces)))
    (hpiece : chunkStart max st.out.length st.stack piece + piece.render.length +
      (closersFor (piece.openAfter st.stack)).length ≤ max) :
    Chunking max (splitTokens max st piece.tokens) (done ++ [piece]) ∧
      (splitTokens max st piece.tokens).stack = piece.openAfter st.stack ∧
      (splitTokens max st piece.tokens).out.length =
        chunkStart max st.out.length st.stack piece + piece.render.length := by
  have hstart := before_out_length h piece
  obtain ⟨hbracket, hrest⟩ := nest_piece hnest
  obtain ⟨hfirst, htail⟩ := nestingFits_piece hfits
  have hbefore : Chunking max (st.before max piece) done := h.flushFor (by omega) _ _
  rw [← hstart] at hpiece ⊢
  rw [splitTokens_piece hbracket (fun hne => minimum_le hrest hne htail) hpiece]
  refine ⟨hbefore.add ?_ hpiece, rfl, length_append⟩
  rw [before_stack]
  exact hbracket

theorem Chunking.cut (hnest : nest name st.stack.reverse (brackets (piece :: pieces)) = some [])
    (hfits : NestingFits max st.stack (tokensOf (piece :: pieces)))
    (hpiece : ¬ chunkStart max st.out.length st.stack piece + piece.render.length +
      (closersFor (piece.openAfter st.stack)).length ≤ max) :
    ∃ chunk ∈ (splitTokens max st piece.tokens).chunks, ¬ IsMessage chunk := by
  rw [← before_out_length h piece] at hpiece
  have hroom := before_fits h (room_of_nestingFits hnest hfits)
  rcases piece.tokens_cases with ⟨-, hlength⟩ | ⟨hunits, hone, hbracket⟩
  · exact absurd (hlength ▸ hroom) hpiece
  · rw [openAfter_of_bracket hbracket] at hpiece hroom
    rw [hone] at hroom
    obtain ⟨n, hpos, hn, hmem⟩ := exists_cut hunits hone hbracket hroom (Nat.not_le.mp hpiece)
    have hbefore : Chunking max (st.before max piece) done := by
      have hfirst := (nestingFits_piece hfits).1
      exact h.flushFor (by omega) _ _
    obtain ⟨before, hout, hopen⟩ := hbefore.opened
    rw [hout] at hmem
    rw [before_stack] at hopen
    exact ⟨_, hmem, not_isMessage_of_cut hbracket hpos hn (opened_of_nest hopen) before⟩

/-- A run places all pieces, or one of them does not fit and is cut. -/
theorem Chunking.run (hnest : nest name st.stack.reverse (brackets pieces) = some [])
    (hfits : NestingFits max st.stack (tokensOf pieces)) : PiecesFit max st.out.length st.stack pieces ∧
      Chunking max (splitTokens max st (tokensOf pieces)) (done ++ pieces) ∧
      (splitTokens max st (tokensOf pieces)).stack = [] ∨ ¬ PiecesFit max st.out.length st.stack pieces ∧
      ∃ chunk ∈ (splitTokens max st (tokensOf pieces)).chunks, ¬ IsMessage chunk := by
  induction pieces generalizing st done with
  | nil =>
    injection hnest with hnil
    rw [append_nil]
    exact .inl ⟨trivial, h, reverse_eq_nil_iff.mp hnil⟩
  | cons piece pieces ih =>
    rw [tokensOf_cons, splitTokens_append, append_cons, PiecesFit]
    by_cases hfirst : chunkStart max st.out.length st.stack piece + piece.render.length +
        (closersFor (piece.openAfter st.stack)).length ≤ max
    · obtain ⟨hstep, hstack, hout⟩ := h.place hnest hfits hfirst
      rw [and_iff_right hfirst, ← hstack, ← hout]
      apply ih hstep
      · rw [hstack]
        exact (nest_piece hnest).2
      · rw [hstack]
        exact (nestingFits_piece hfits).2
    · obtain ⟨chunk, hmem, hbroken⟩ := h.cut hnest hfits hfirst
      exact .inr ⟨fun hpieces => hfirst hpieces.1, chunk, splitTokens_chunks_subset _ hmem, hbroken⟩

end

theorem chunking_start : Chunking max ⟨[], [], [], false⟩ [] where
  within := Nat.zero_le _
  opened := ⟨[], rfl, rfl⟩
  fresh := fun _ => rfl
  closed := nofun
  text := rfl

end

/-- A message that is longer than a chunk is split into messages of its text just when no surrogate pair
and no long entity reaches over the end of a chunk. -/
theorem splitTelegramHtml_messages_iff {max : Nat} {pieces : List HtmlPiece}
    (hnested : Nested name (brackets pieces)) (hfits : NestingFits max [] (tokenize (render pieces))) :
    ((∀ chunk ∈ splitTelegramHtml (render pieces) max, chunk.length ≤ max ∧ IsMessage chunk) ∧
      (splitTelegramHtml (render pieces) max).flatMap withoutTags = withoutTags (render pieces)) ↔
    (render pieces).length ≤ max ∨ PiecesFit max 0 [] pieces := by
  unfold splitTelegramHtml
  by_cases hshort : (render pieces).length ≤ max
  · rw [if_pos hshort]
    refine iff_of_true ⟨?_, append_nil _⟩ (.inl hshort)
    exact forall_mem_singleton.mpr ⟨hshort, pieces, rfl, hnested⟩
  rw [if_neg hshort]
  rw [tokenize_render] at hfits ⊢
  rw [or_iff_right hshort]
  rcases chunking_start.run hnested hfits with ⟨hpieces, hrun, hstack⟩ | ⟨hpieces, chunk, hmem, hbroken⟩
  · refine iff_of_true ?_ hpieces
    rw [nil_append] at hrun
    rw [withoutTags_render, ← hrun.text]
    dsimp only
    split_ifs with hbody
    · refine ⟨hrun.chunks, ?_⟩
      rw [flatMap_append, flatMap_singleton, hrun.withoutTags_message]
    · refine ⟨hrun.closed, ?_⟩
      rw [hrun.fresh (by simpa using hbody), hstack]
      exact (append_nil _).symm
  · refine iff_of_false (fun h => hbroken (h.1 chunk ?_).2) hpieces
    dsimp only
    split_ifs
    · exact mem_append_left _ hmem
    · exact hmem

def boldPieces : List HtmlPiece :=
  have tag : IsTagName (lit "b") := (isTagName_of_allowed mem_cons_self).1
  .opening (lit "b") [] ⟨tag, ⟨(fun _ hu => nomatch hu), not_mem_nil, rfl⟩⟩ ::
    replicate 5 (.unit 0x61 (by decide)) ++ [.closing (lit "b") tag]

theorem splitTelegramHtml_messages_bold :
    Nested name (brackets boldPieces) ∧ NestingFits 11 [] (tokenize (render boldPieces)) ∧
      (((∀ chunk ∈ splitTelegramHtml (render boldPieces) 11, chunk.length ≤ 11 ∧ IsMessage chunk) ∧
        (splitTelegramHtml (render boldPieces) 11).flatMap withoutTags = withoutTags (render boldPieces)) ↔
      (render boldPieces).length ≤ 11 ∨ PiecesFit 11 0 [] boldPieces) :=
  ⟨by decide, by decide, splitTelegramHtml_messages_iff (by decide) (by decide)⟩

/-- A character outside the basic plane is cut in two. -/
theorem splitTelegramHtml_cuts_pair :
    IsMessage [0x61, 0xd83d, 0xde00] ∧ NestingFits 2 [] (tokenize [0x61, 0xd83d, 0xde00]) ∧
      splitTelegramHtml [0x61, 0xd83d, 0xde00] 2 = [[0x61, 0xd83d], [0xde00]] ∧ ¬ IsMessage [0x61, 0xd83d] := by
  refine ⟨⟨[.unit 0x61 (by decide), .pair 0xd83d 0xde00 (by decide)], rfl, rfl⟩, by decide, by decide, ?_⟩
  exact @not_isMessage_of_tokens 0xd83d [.unit 0x61 (by decide)] [] _ [] (.inl rfl) nofun nofun rfl

end GajaeCode.Telegram
