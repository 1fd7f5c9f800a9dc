import GajaeCode.Query.HostInvariant

/-! Pages of one snapshot: what a page takes, what the next one continues with, and the walk of a connection from
the first page to the last while other requests are served in between. -/
namespace GajaeCode.Query

open Text Data List RevisionStore

variable {α δ κ ν : Type} (codec : SnapshotCodec α δ ν)

/-- A page takes items from the front, none of them above the target. -/
theorem pageItems_eq (items taken : List α) (itemsBytes : Nat) : ∃ m, m ≤ items.length ∧
      pageItems codec items taken itemsBytes = taken ++ items.take m ∧
      ∀ item ∈ items.take m, codec.itemBytes item ≤ targetPageBytes := by
  induction items generalizing taken itemsBytes with
  | nil => exact ⟨0, le_rfl, by simp [pageItems]⟩
  | cons item rest ih =>
    have hstop : ∃ m, m ≤ (item :: rest).length ∧ taken = taken ++ (item :: rest).take m ∧
        ∀ other ∈ (item :: rest).take m, codec.itemBytes other ≤ targetPageBytes :=
      ⟨0, Nat.zero_le _, by simp⟩
    simp only [pageItems]
    generalize itemsBytes + codec.itemBytes item + (if taken.isEmpty = true then 0 else 1) = candidateBytes
    split_ifs with hlarge
    · exact hstop
    · exact hstop
    · exact hstop
    · obtain ⟨m, hm, heq, hsmall⟩ := ih (taken ++ [item]) _
      refine ⟨m + 1, Nat.succ_le_succ hm, ?_, ?_⟩
      · rw [heq, append_assoc]
        rfl
      · exact forall_mem_cons.mpr ⟨not_lt.mp hlarge, hsmall⟩

theorem pageItems_ne_nil {item} (h : codec.itemBytes item ≤ targetPageBytes)
    (rest : List α) : pageItems codec (item :: rest) [] 2 ≠ [] := by
  have hfits : ¬ 2 + codec.itemBytes item + 0 > responseCeilingBytes := by
    have htarget : targetPageBytes = 262144 := rfl
    have hceiling : responseCeilingBytes = 1048576 := rfl
    omega
  simp only [pageItems, isEmpty_nil, if_true, Bool.not_true, Bool.false_eq_true, and_false,
    if_false, if_neg (not_lt.mpr h), if_neg hfits]
  obtain ⟨m, -, heq, -⟩ := pageItems_eq codec rest ([] ++ [item]) (2 + codec.itemBytes item + 0)
  rw [heq]
  exact cons_ne_nil _ _

theorem readPage_of_mem {store : RevisionStore α κ} (h : store.Ordered) {key r}
    (hr : r ∈ store.resources key) {items} (hpayload : r.payload = .array items) (offset : Nat) (now : Int) :
    store.readPage codec key r.id offset now = (some (pageItems codec (items.drop offset) [] 2,
        decide (items.length ≤ offset + (pageItems codec (items.drop offset) [] 2).length)),
        store.modify key r.number fun r => { r with lastAccessed := now }) := by
  obtain ⟨number, payload, pins, lastAccessed⟩ := r
  cases hpayload
  rw [readPage, access, find_of_mem h hr]

/-- How an item is shown: itself, or the placeholder for an item above the target. -/
def shownItem (codec : SnapshotCodec α δ ν) (resource resourceId revision : JsStr) (item : α) : PageItem α ν :=
  if targetPageBytes < codec.itemBytes item then
    .tooLarge (codec.entryId item)
      (match codec.entryId item with
      | some itemId =>
        if itemId = [] then []
        else (codec.stringFields item).map fun field => ⟨resource, resourceId, revision, itemId, field⟩
      | none => [])
  else .value item

theorem describeIndexedItem_of_mem {store : RevisionStore α κ} (h : store.Ordered) {key r}
    (hr : r ∈ store.resources key) {items} (hpayload : r.payload = .array items) (offset : Nat) :
    store.describeIndexedItem codec key r.id offset =
      items[offset]?.map fun item => (codec.entryId item, codec.stringFields item) := by
  obtain ⟨number, payload, pins, lastAccessed⟩ := r
  cases hpayload
  rw [describeIndexedItem, find_of_mem h hr]

theorem shownItems_eq (session : Session α δ κ ν) {host} (hordered : host.revisions.Ordered)
    (resource resourceId : JsStr) {r}
    (hr : r ∈ host.revisions.resources (resourceKey resource resourceId)) {items}
    (hpayload : r.payload = .array items) (offset : Nat) :
    let taken := pageItems session.codec (items.drop offset) [] 2
    let shown := shownItems session resource resourceId r.id offset
      (taken, decide (items.length ≤ offset + taken.length)) host
    ∃ m, m ≤ items.length - offset ∧
      shown.1 = ((items.drop offset).take m).map (shownItem session.codec resource resourceId r.id) ∧
      (shown.2 = true ∧ m = items.length - offset ∨ shown.2 = false ∧ 0 < m) := by
  intro taken shown
  obtain ⟨m, hm, heq, hsmall⟩ := pageItems_eq session.codec (items.drop offset) [] 2
  rw [length_drop] at hm
  have htaken : taken = (items.drop offset).take m := heq
  by_cases hplaceholder : (taken.isEmpty && !decide (items.length ≤ offset + taken.length)) = true
  · rw [Bool.and_eq_true, List.isEmpty_iff] at hplaceholder
    obtain ⟨hnil, hmore⟩ := hplaceholder
    rw [hnil] at hmore
    have hlt : offset < items.length := by simpa using hmore
    have hdrop := drop_eq_getElem_cons hlt
    have hlarge : targetPageBytes < session.codec.itemBytes items[offset] := by
      by_contra hsmall
      refine pageItems_ne_nil session.codec (not_lt.mp hsmall) (items.drop (offset + 1)) ?_
      rw [← hdrop]
      exact hnil
    have hshown : shown = ([shownItem session.codec resource resourceId r.id items[offset]], false) := by
      simp only [shown, shownItems, hnil, isEmpty_nil, hmore, Bool.and_self, if_true,
        describeIndexedItem_of_mem session.codec hordered hr hpayload, getElem?_eq_getElem hlt,
        Option.map_some, Option.bind_some, shownItem, if_pos hlarge]
      cases session.codec.entryId items[offset] <;> rfl
    refine ⟨1, by omega, ?_, .inr ⟨congrArg Prod.snd hshown, Nat.one_pos⟩⟩
    rw [hshown, hdrop]
    rfl
  · have hshown : shown = (taken.map .value, decide (items.length ≤ offset + taken.length)) := if_neg hplaceholder
    refine ⟨m, hm, ?_, ?_⟩
    · rw [hshown, htaken]
      apply map_congr_left
      intro item hitem
      rw [shownItem, if_neg (not_lt.mpr (hsmall item hitem))]
    · rw [hshown, htaken, length_take, length_drop, Nat.min_eq_left hm]
      by_cases hend : items.length ≤ offset + m
      · exact .inl ⟨decide_eq_true hend, by omega⟩
      · refine .inr ⟨decide_eq_false hend, ?_⟩
        rw [htaken, length_take, length_drop, Nat.min_eq_left hm, decide_eq_false hend, Bool.not_false,
          Bool.and_true, List.isEmpty_iff, take_eq_nil_iff] at hplaceholder
        omega

/-- What is assumed of the signatures: a cursor without byte offset is read back as it was signed and is the cursor
of no other envelope. (A byte offset that is not finite turns into `null` in the text of a cursor.) -/
structure CursorSigner.Faithful (signer : CursorSigner κ ν) : Prop where
  verify_sign : ∀ envelope, envelope.position.byteOffset = none →
    signer.verify (signer.sign envelope) = some envelope
  sign_inj : ∀ envelope other, envelope.position.byteOffset = none →
    signer.sign other = signer.sign envelope → other = envelope

def RevisionStore.Fresh (key : JsStr) (number : Nat) (payload : Snapshot α) (now : Int)
    (store : RevisionStore α κ) : Prop :=
  ∃ r ∈ store.resources key, r.number = number ∧ r.payload = payload ∧ r.lastAccessed = now

theorem RevisionStore.Fresh.keep {key number payload now}
    {store after : RevisionStore α κ} (h : store.Fresh key number payload now)
    (hkeeps : RevisionStore.Keeps (fun r => r.lastAccessed = now) store after) :
    after.Fresh key number payload now := by
  obtain ⟨r, hr, hnumber, hpayload, hnow⟩ := h
  obtain ⟨s, hs, hnumber', hpayload', hnow'⟩ := hkeeps key r hr hnow
  exact ⟨s, hs, hnumber'.trans hnumber, hpayload'.trans hpayload, hnow'⟩

theorem RevisionStore.fresh_modify {key r} {store : RevisionStore α κ} (hr : r ∈ store.resources key) (now : Int) :
    (store.modify key r.number fun r => { r with lastAccessed := now }).Fresh key r.number r.payload now := by
  refine ⟨{ r with lastAccessed := now }, ?_, rfl, rfl, rfl⟩
  simp only [modify, Function.update_self]
  exact mem_map.mpr ⟨r, hr, if_pos rfl⟩

section

variable [DecidableEq κ] {signer : CursorSigner κ ν} {host : Host α κ} {key : JsStr} {number : Nat}
  {payload : Snapshot α} {now : Int}

theorem Host.fresh_sweep (h : host.revisions.Fresh key number payload now) :
    (host.sweep now).revisions.Fresh key number payload now := by
  apply Host.sweep_induction (P := fun after => after.revisions.Fresh key number payload now) h
  · intro cursor _ after hafter
    exact hafter.keep (keeps_unpin (fun _ hr => hr) after.revisions)
  · intro after hafter
    apply hafter.keep
    apply keeps_sweep
    rw [snapshotTtlMs]
    omega

variable {envelope : CursorEnvelope ν} {kind resourceId connectionId : JsStr}

theorem Host.held_of_grant (hsigner : signer.Faithful) (hvalid : host.Valid signer)
    (hitems : envelope.position.byteOffset = none) (hpoints : envelope.PointsTo (resourceKey kind resourceId))
    (hrevision : envelope.revision = decimal number)
    (hfresh : host.revisions.Fresh (resourceKey kind resourceId) number payload now) {after cursor}
    (h : host.grant signer connectionId envelope kind resourceId now = (after, .ok cursor)) :
    cursor = signer.sign envelope ∧
      after.Held cursor connectionId (now + cursorTtlMs) (resourceKey kind resourceId) number payload := by
  simp only [Host.grant] at h
  split_ifs at h with hroom
  · simp at h
  rw [not_or, not_le, not_le] at hroom
  split at h
  · simp at h
  · next revisions hpin =>
    obtain ⟨rfl, rfl⟩ := h
    have hissued : Host.Valid signer ⟨revisions, assocSet (signer.sign envelope)
        ⟨connectionId, resourceId, now + cursorTtlMs⟩ (host.sweep now).active⟩ :=
      (hvalid.sweep now).issue hpoints hroom.1 hroom.2 hpin
    refine ⟨rfl, ⟨⟨connectionId, resourceId, now + cursorTtlMs⟩, ?_, rfl, le_rfl⟩, ?_⟩
    · rw [lookup_assocSet, if_pos rfl]
    · have hkey : signer.sign envelope ∈ revisions.pinIndex.map Prod.fst := by
        rw [hissued.keys, mem_keys_assocSet]
        exact .inl rfl
      obtain ⟨entry, hentry, hcursor⟩ := mem_map.mp hkey
      obtain ⟨⟨other, hsigned, hnumber, hother⟩, r, hr, hnumber', hpinned⟩ := hissued.pins entry hentry
      rw [hcursor] at hsigned hpinned
      obtain rfl := hsigner.sign_inj envelope other hitems hsigned
      obtain ⟨selector, hselector, hkey⟩ := hpoints hitems
      obtain ⟨selector', hselector', hkey'⟩ := hother hitems
      rw [hselector, Option.some.injEq] at hselector'
      subst hselector'
      rw [hkey', ← hkey] at hr
      have hsame : r.number = number := hnumber'.trans (decimal_inj (hnumber.symm.trans hrevision))
      obtain ⟨s, hs, hsnumber, hspayload, -⟩ := (Host.fresh_sweep hfresh).keep (keeps_pin (fun _ hr => hr) hpin)
      have heq := eq_of_number hissued.ordered hr hs (hsame.trans hsnumber.symm)
      exact ⟨r, hr, hsame, heq ▸ hspayload, hpinned⟩

theorem Host.grant_of_room (hvalid : host.Valid signer) (hrevision : envelope.revision = decimal number)
    (hfresh : host.revisions.Fresh (resourceKey kind resourceId) number payload now)
    (hsession : host.active.length < maxCursorsPerSession)
    (hconnection : host.cursorsOf connectionId < maxCursorsPerConnection) :
    ∃ after, host.grant signer connectionId envelope kind resourceId now = (after, .ok (signer.sign envelope)) := by
  have hactive := Host.sweep_active_sublist host now
  have hroom : ¬ (maxCursorsPerSession ≤ (host.sweep now).active.length ∨
      maxCursorsPerConnection ≤ (host.sweep now).cursorsOf connectionId) := by
    rw [not_or, not_le, not_le]
    exact ⟨hactive.length_le.trans_lt hsession, (hactive.countP_le).trans_lt hconnection⟩
  have hswept := hvalid.sweep now
  have hlength : (host.sweep now).revisions.pinIndex.length < maxPinnedRevisions := by
    have hkeys := congrArg List.length hswept.keys
    rw [length_map, length_map] at hkeys
    rw [hkeys]
    exact hactive.length_le.trans_lt hsession
  obtain ⟨r, hr, hnumber, -, -⟩ := Host.fresh_sweep hfresh
  have hfind : (host.sweep now).revisions.find (resourceKey kind resourceId) envelope.revision = some r := by
    rw [hrevision, ← hnumber]
    exact find_of_mem hswept.ordered hr
  simp only [Host.grant, if_neg hroom, pin, if_neg (not_le.mpr hlength), hfind, Option.map_some]
  split_ifs
  · exact ⟨_, rfl⟩
  · exact ⟨_, rfl⟩

end

/-- A walk through one snapshot: who walks, what was asked, and the revision with its items. -/
structure Walk (α : Type) where
  connectionId : JsStr
  source : Source
  selector : CursorSelector
  highWatermark : Option JsStr
  number : Nat
  items : List α

section

variable [DecidableEq κ]

namespace Walk

variable (session : Session α δ κ ν) (walk : Walk α)

def key : JsStr := resourceKey walk.source.resource walk.selector.resourceId

def envelope (offset : Nat) : CursorEnvelope ν :=
  envelopeAt session walk.source.resource (decimal walk.number)
    { offset := some offset, byteOffset := none, selector := some walk.selector }
    (transcriptExtra walk.source walk.highWatermark)

def cursor (offset : Nat) : κ := session.signer.sign (walk.envelope session offset)

def shown : α → PageItem α ν :=
  shownItem session.codec walk.source.resource walk.selector.resourceId (decimal walk.number)

/-- The host after a page, when the connection can go on at an offset. -/
def Held (offset : Nat) (granted : Int) (host : Host α κ) : Prop :=
  host.Held (walk.cursor session offset) walk.connectionId (granted + cursorTtlMs) walk.key walk.number
    (.array walk.items)

/-- A page from an offset on: the last one, or one with items whose continuation is held. -/
def PageFrom (offset : Nat) (now : Int) (after : Host α κ) (page : QueryPage α κ ν) : Prop :=
  page.revision = decimal walk.number ∧ ∃ m, m ≤ walk.items.length - offset ∧
      page.items = ((walk.items.drop offset).take m).map (walk.shown session) ∧
      (page.complete = true ∧ page.continuationCursor = none ∧ m = walk.items.length - offset ∨
        page.complete = false ∧ 0 < m ∧ page.continuationCursor = some (walk.cursor session (offset + m)) ∧
          walk.Held session (offset + m) now after)

variable {session walk}

theorem page_of_answerItems (hsigner : session.signer.Faithful) {event host after}
    (hvalid : host.Valid session.signer) (hconnection : event.request.connectionId = walk.connectionId)
    (hfresh : host.revisions.Fresh walk.key walk.number (.array walk.items) event.now) {offset taken}
    (htaken : taken = pageItems session.codec (walk.items.drop offset) [] 2) {page}
    (h : answerItems session event walk.source (decimal walk.number) offset
      (taken, decide (walk.items.length ≤ offset + taken.length)) walk.selector walk.highWatermark host =
        (after, .page page)) : walk.PageFrom session offset event.now after page := by
  obtain ⟨r, hr, hnumber, hpayload, -⟩ := id hfresh
  have hshown := shownItems_eq session hvalid.ordered walk.source.resource walk.selector.resourceId hr hpayload offset
  rw [← htaken, show r.id = decimal walk.number from congrArg decimal hnumber] at hshown
  dsimp only at hshown
  simp only [answerItems] at h
  generalize shownItems session walk.source.resource walk.selector.resourceId (decimal walk.number) offset
    (taken, decide (walk.items.length ≤ offset + taken.length)) host = shown at h hshown
  obtain ⟨m, hm, hitems, hcomplete⟩ := hshown
  have hlength : shown.1.length = m := by
    rw [hitems, length_map, length_take, length_drop, Nat.min_eq_left hm]
  rw [paginateIndexed, hlength, answerPage] at h
  rcases hcomplete with ⟨hcomplete, hend⟩ | ⟨hcomplete, hpos⟩
  · rw [hcomplete, if_pos rfl, Prod.mk.injEq, Answer.page.injEq] at h
    obtain ⟨rfl, rfl⟩ := h
    exact ⟨rfl, m, hm, hitems, .inl ⟨rfl, rfl, hend⟩⟩
  · rw [hcomplete, if_neg Bool.false_ne_true] at h
    split at h
    · cases h
    · next cursor hgrant =>
      obtain ⟨rfl, rfl⟩ := h
      have hpoints : (walk.envelope session (offset + m)).PointsTo
          (resourceKey walk.source.resource walk.selector.resourceId) := fun _ => ⟨walk.selector, rfl, rfl⟩
      obtain ⟨hcursor, hheld⟩ := Host.held_of_grant hsigner hvalid rfl hpoints rfl hfresh hgrant
      rw [hcursor, hconnection] at hheld
      exact ⟨rfl, m, hm, hitems, .inr ⟨rfl, hpos, congrArg some hcursor, hheld⟩⟩

theorem exists_page_of_room {event host} (hvalid : host.Valid session.signer)
    (hfresh : host.revisions.Fresh walk.key walk.number (.array walk.items) event.now)
    (hsession : host.active.length < maxCursorsPerSession)
    (hconnection : host.cursorsOf event.request.connectionId < maxCursorsPerConnection) (offset : Nat)
    (page : List α × Bool) :
    ∃ after shown, answerItems session event walk.source (decimal walk.number) offset page walk.selector
      walk.highWatermark host = (after, .page shown) := by
  simp only [answerItems, paginateIndexed, answerPage]
  generalize shownItems session walk.source.resource walk.selector.resourceId (decimal walk.number) offset page
    host = shown
  split_ifs
  · exact ⟨_, _, rfl⟩
  · have hrevision : (walk.envelope session (offset + shown.1.length)).revision = decimal walk.number := rfl
    obtain ⟨after, hgrant⟩ := Host.grant_of_room hvalid hrevision hfresh hsession hconnection
    rw [envelope] at hgrant
    rw [hgrant]
    exact ⟨_, _, rfl⟩

theorem transcriptExtra_highWatermark (source : Source) (highWatermark : Option JsStr) :
    transcriptExtra source (transcriptExtra source highWatermark).highWatermark =
      transcriptExtra source highWatermark := by
  rw [transcriptExtra]
  split_ifs with h
  · simp only [transcriptExtra, if_pos h]
  · simp only [transcriptExtra, if_neg h]

theorem consume_of_held (hsigner : session.signer.Faithful) {host offset granted now}
    (h : walk.Held session offset granted host) (hnow : now < granted + cursorTtlMs) :
    host.consume session.signer (walk.cursor session offset) walk.connectionId
        { sessionId := session.sessionId, resource := some walk.source.resource, direction := lit "forward",
          targetBytes := targetPageBytes } now =
      (host.release (walk.cursor session offset), .ok (walk.envelope session offset)) := by
  obtain ⟨active, hlookup, hconnection, hexpiry⟩ := h.active
  have hverify : session.signer.verify (walk.cursor session offset) = some (walk.envelope session offset) :=
    hsigner.verify_sign _ rfl
  have halive : ¬ (active.connectionId ≠ walk.connectionId ∨ active.expiresAt ≤ now) := by
    rw [not_or, not_ne_iff]
    exact ⟨hconnection, by omega⟩
  simp only [Host.consume, hverify, hlookup, if_neg halive]
  simp [envelope, envelopeAt]

theorem room_of_release {host} (hvalid : host.Valid session.signer) {offset granted}
    (h : walk.Held session offset granted host) :
    (host.release (walk.cursor session offset)).active.length < maxCursorsPerSession ∧
      (host.release (walk.cursor session offset)).cursorsOf walk.connectionId < maxCursorsPerConnection := by
  obtain ⟨active, hlookup, hconnection, -⟩ := h.active
  have hmem := mem_of_lookup hlookup
  constructor
  · refine lt_of_lt_of_le ?_ hvalid.session
    apply length_filter_lt_length_iff_exists.mpr
    exact ⟨_, hmem, by simp⟩
  · refine lt_of_lt_of_le ?_ (hvalid.connection walk.connectionId)
    rw [Host.cursorsOf, Host.cursorsOf, Host.release, countP_eq_length_filter, countP_eq_length_filter, filter_comm]
    apply length_filter_lt_length_iff_exists.mpr
    exact ⟨_, mem_filter.mpr ⟨hmem, decide_eq_true hconnection⟩, by simp⟩

theorem page_of_continueSource [DecidableEq δ] (hsigner : session.signer.Faithful) {event host}
    (hvalid : host.Valid session.signer) (hconnection : event.request.connectionId = walk.connectionId)
    {queryId} (hselector : assertCursorSelector (some walk.selector)
      (selectorFor session queryId event.request.input) = .ok walk.selector)
    {offset granted} (h : walk.Held session offset granted host) (hnow : event.now < granted + cursorTtlMs) :
    ∃ after page, continueSource session event queryId walk.source (walk.cursor session offset) host =
        (after, .page page) ∧ walk.PageFrom session offset event.now after page := by
  have hreleased := hvalid.release (walk.cursor session offset)
  have hroom := room_of_release hvalid h
  obtain ⟨r, hr, hnumber, hpayload, -⟩ := h.revision
  have hkeeps : RevisionStore.Keeps (fun _ => True) host.revisions
      (host.release (walk.cursor session offset)).revisions :=
    keeps_unpin (fun _ _ => trivial) host.revisions
  obtain ⟨s, hs, hsnumber, hspayload, -⟩ := hkeeps walk.key r hr trivial
  have hread := readPage_of_mem session.codec hreleased.ordered hs (hspayload.trans hpayload) offset event.now
  have hfresh := fresh_modify hs event.now
  have hid : s.id = decimal walk.number := congrArg decimal (hsnumber.trans hnumber)
  rw [hid] at hread
  rw [hsnumber.trans hnumber, hspayload.trans hpayload] at hfresh
  rw [hsnumber.trans hnumber] at hread
  have haccessed := (readPage_steps hread : HostSteps session event none _ ⟨_, (host.release _).active⟩).valid hreleased
  have hanswer : continueSource session event queryId walk.source (walk.cursor session offset) host =
      answerItems session event walk.source (decimal walk.number) offset
        (pageItems session.codec (walk.items.drop offset) [] 2,
          decide (walk.items.length ≤ offset + (pageItems session.codec (walk.items.drop offset) [] 2).length))
        walk.selector walk.highWatermark
        ⟨(host.release (walk.cursor session offset)).revisions.modify walk.key walk.number fun r =>
          { r with lastAccessed := event.now }, (host.release (walk.cursor session offset)).active⟩ := by
    simp only [continueSource, hconnection, consume_of_held hsigner h hnow]
    rw [show (walk.envelope session offset).position.selector = some walk.selector from rfl, hselector]
    dsimp only
    rw [show resourceKey walk.source.resource walk.selector.resourceId = walk.key from rfl,
      show (walk.envelope session offset).revision = decimal walk.number from rfl,
      show (walk.envelope session offset).position.offset.getD 0 = offset from rfl, hread]
    simp only [answerItems]
    rw [show (walk.envelope session offset).extra = transcriptExtra walk.source walk.highWatermark from rfl,
      transcriptExtra_highWatermark]
  rw [← hconnection] at hroom
  obtain ⟨after, page, hpage⟩ := exists_page_of_room haccessed hfresh hroom.1 hroom.2 offset _
  exact ⟨after, page, hanswer.trans hpage, page_of_answerItems hsigner haccessed hconnection hfresh rfl hpage⟩

end Walk

end

end GajaeCode.Query
