import GajaeCode.Query.Pagination

/-! A connection that follows continuation cursors, with other requests served between its pages. -/
namespace GajaeCode.Query

open Text Data List

variable {α δ κ ν : Type}

theorem keys_filterMap_sublist {β γ : Type} (f : β → Option γ) (g : γ → JsStr) (keys : List β) :
    ((keys.filterMap fun key => (f key).map fun value => (key, g value)).map Prod.fst).Sublist keys := by
  induction keys with
  | nil => exact Sublist.refl _
  | cons key rest ih =>
    cases hf : f key with
    | none =>
      rw [filterMap_cons_none (by rw [hf]; rfl)]
      exact ih.cons key
    | some value =>
      rw [filterMap_cons_some (by rw [hf]; rfl)]
      exact ih.cons_cons key

variable (session : Session α δ κ ν)

theorem assertCursorSelector_selectorFor (queryId : JsStr) {input input'} (h : input' = input ∨ input' = none) :
    assertCursorSelector (some (selectorFor session queryId input)) (selectorFor session queryId input') =
      .ok (selectorFor session queryId input) := by
  refine if_pos ⟨rfl, ?_⟩
  rcases h with rfl | rfl
  · have hnodup : ((selectorFor session queryId input').entries.map Prod.fst).Nodup := by
      have hsub : ((selectorFor session queryId input').entries.map Prod.fst).Sublist selectorKeys := by
        simp only [selectorFor]
        exact keys_filterMap_sublist _ _ selectorKeys
      exact hsub.nodup (by decide)
    apply all_eq_true.mpr
    intro entry hentry
    rw [lookup_of_mem hnodup hentry, beq_self_eq_true]
  · rfl

theorem route_of_paged {session : Session α δ κ ν} {request request' queryId source}
    (h : route session request = .paged queryId source) (hquery : request'.query = request.query)
    (hinput : request'.input = request.input ∨ request'.input = none) :
    route session request' = .paged queryId source := by
  simp only [route] at h ⊢
  rcases hinput with hinput | hinput
  · rw [hquery, hinput]
    exact h
  · rw [hquery]
    split_ifs at h ⊢ <;> simp_all

variable [DecidableEq δ] [DecidableEq κ]

/-- The requests of others before a connection asks for its next page. -/
structure Leg (α κ ν : Type) where
  between : List (Event α κ ν)
  next : Event α κ ν

def Event.presenting (cursor : κ) (event : Event α κ ν) : Event α κ ν :=
  { event with request := { event.request with cursor := some cursor } }

def serveAll (session : Session α δ κ ν) (events : List (Event α κ ν)) (host : Host α κ) : Host α κ :=
  events.foldl (fun host event => (dispatch session event host).1) host

/-- The responses to a connection that presents each cursor it is given, until it is given none. -/
def follow (session : Session α δ κ ν) :
    List (Leg α κ ν) → Host α κ → QueryResponse α κ ν → List (QueryResponse α κ ν)
  | [], _, response => [response]
  | leg :: rest, host, response =>
    match response.answer.cursor with
    | none => [response]
    | some cursor =>
      let served := dispatch session (leg.next.presenting cursor) (serveAll session leg.between host)
      response :: follow session rest served.1 served.2

/-- The later requests of a connection: the same query with the same input or none, each within the lifetime of the
cursor, as are the requests served meanwhile. -/
def Follows (first : Event α κ ν) : Int → List (Leg α κ ν) → Prop
  | _, [] => True
  | granted, leg :: rest =>
    leg.next.request.connectionId = first.request.connectionId ∧
    leg.next.request.query = first.request.query ∧
    (leg.next.request.input = first.request.input ∨ leg.next.request.input = none) ∧
    (∀ event ∈ leg.between, granted ≤ event.now ∧ event.now < granted + cursorTtlMs) ∧
    leg.next.now < granted + cursorTtlMs ∧ Follows first leg.next.now rest

/-- No request presents the cursor and no answer to another connection carries it. -/
def Untouched (session : Session α δ κ ν) (cursor : κ) (connectionId : JsStr) :
    List (Event α κ ν) → Host α κ → Prop
  | [], _ => True
  | event :: rest, host =>
    event.request.cursor ≠ some cursor ∧
    (event.request.connectionId = connectionId ∨ (dispatch session event host).2.answer.cursor ≠ some cursor) ∧
    Untouched session cursor connectionId rest (dispatch session event host).1

def Undisturbed (session : Session α δ κ ν) (connectionId : JsStr) :
    List (Leg α κ ν) → Host α κ → QueryResponse α κ ν → Prop
  | [], _, _ => True
  | leg :: rest, host, response =>
    ∀ cursor, response.answer.cursor = some cursor → Untouched session cursor connectionId leg.between host ∧
      Undisturbed session connectionId rest
        (dispatch session (leg.next.presenting cursor) (serveAll session leg.between host)).1
        (dispatch session (leg.next.presenting cursor) (serveAll session leg.between host)).2

theorem dispatch_steps (event : Event α κ ν) (host : Host α κ) :
    HostSteps session event (dispatch session event host).2.answer.cursor host (dispatch session event host).1 :=
  handle_stepped session event host

theorem valid_serveAll (events : List (Event α κ ν)) {host}
    (h : host.Valid session.signer) : (serveAll session events host).Valid session.signer :=
  foldlRecOn events _ h fun after hafter event _ => (dispatch_steps session event after).valid hafter

/-- After any requests the pins are those of the cursors in use, each on a revision that is there. -/
theorem pinIndex_serveAll (events : List (Event α κ ν)) :
    let host := serveAll session events .empty
    host.revisions.pinIndex.map Prod.fst = host.active.map Prod.fst ∧ ∀ entry ∈ host.revisions.pinIndex,
      ∃ r ∈ host.revisions.resources entry.2.1, r.number = entry.2.2 ∧ entry.1 ∈ r.pins := by
  have hvalid := valid_serveAll session events (Host.valid_empty session.signer)
  exact ⟨hvalid.keys, fun entry hentry => (hvalid.pins entry hentry).2⟩

theorem held_serveAll {events host}
    (hvalid : host.Valid session.signer) {cursor connectionId granted key number payload}
    (huntouched : Untouched session cursor connectionId events host)
    (htimely : ∀ event ∈ events, granted ≤ event.now ∧ event.now < granted + cursorTtlMs)
    (h : host.Held cursor connectionId (granted + cursorTtlMs) key number payload) :
    (serveAll session events host).Held cursor connectionId (granted + cursorTtlMs) key number payload := by
  induction events generalizing host with
  | nil => exact h
  | cons event rest ih =>
    obtain ⟨hpresented, hissued, hrest⟩ := huntouched
    have hsteps := dispatch_steps session event host
    have htime := htimely event mem_cons_self
    have hspares : Spares event (dispatch session event host).2.answer.cursor cursor connectionId
        (granted + cursorTtlMs) := by
      refine ⟨htime.2, hpresented, fun heq => ⟨hissued.resolve_right fun hne => hne heq, ?_⟩⟩
      omega
    exact ih (hsteps.valid hvalid) hrest (forall_mem_cons.mp htimely).2 (hsteps.held hvalid hspares h)

section

variable {session : Session α δ κ ν} {event : Event α κ ν} {host : Host α κ}

theorem page_of_openSource (hsigner : session.signer.Faithful) (hvalid : host.Valid session.signer)
    {queryId source items} (hhash : ∀ r ∈ host.revisions.resources
        (resourceKey source.resource (selectorFor session queryId event.request.input).resourceId),
      session.codec.hash r.payload = session.codec.hash (.array items) → r.payload = .array items)
    (hreply : event.reply source.method = .value (some (.array items))) {after page}
    (h : openSource session event queryId source host = (after, .page page)) :
    ∃ number, page.revision = decimal number ∧
      (Walk.mk event.request.connectionId source (selectorFor session queryId event.request.input)
        (lastId session (.array items)) number items).PageFrom session 0 event.now after page := by
  rw [openSource] at h
  rw [hreply] at h
  dsimp only at h
  set selector := selectorFor session queryId event.request.input with hselector
  set key := resourceKey source.resource selector.resourceId with hkey
  cases hcreate : host.revisions.createRevision session.codec key (.array items) event.now with
  | mk revision revisions =>
    rw [hcreate] at h
    have hcreated := (createRevision_steps hcreate : HostSteps session event none host ⟨_, host.active⟩).valid hvalid
    cases hfind : revisions.find key revision with
    | none =>
      -- a revision dropped at once leaves no page
      have haccess : revisions.access key revision event.now = (none, revisions) := by
        rw [RevisionStore.access, hfind]
      rw [RevisionStore.readPage, haccess] at h
      dsimp only at h
      rw [answerRoot] at h
      rw [RevisionStore.revisionByteLength, haccess] at h
      cases h
    | some r =>
      obtain ⟨hr, hid⟩ := RevisionStore.mem_of_find hfind
      have hpayload : r.payload = .array items :=
        RevisionStore.payload_of_find_createRevision session.codec hvalid.ordered hhash hcreate hfind
      have hread := readPage_of_mem session.codec hcreated.ordered hr hpayload 0 event.now
      have hfresh := RevisionStore.fresh_modify hr event.now
      have haccessed := (readPage_steps hread : HostSteps session event none _ ⟨_, host.active⟩).valid hcreated
      rw [hpayload] at hfresh
      rw [← hid, hread] at h
      have hpage := @Walk.page_of_answerItems _ _ _ _ _ session ⟨event.request.connectionId, source, selector,
        lastId session (.array items), r.number, items⟩ hsigner event _ after haccessed rfl hfresh 0 _ rfl
        page h
      exact ⟨r.number, hpage.1, hpage⟩

end

section

variable {session : Session α δ κ ν} {walk : Walk α}

theorem page_of_dispatch (hsigner : session.signer.Faithful) {first next : Event α κ ν} {queryId}
    (hroute : route session first.request = .paged queryId walk.source)
    (hselector : walk.selector = selectorFor session queryId first.request.input)
    (hconnection : next.request.connectionId = walk.connectionId) (hquery : next.request.query = first.request.query)
    (hinput : next.request.input = first.request.input ∨ next.request.input = none) {host}
    (hvalid : host.Valid session.signer) {offset granted}
    (hheld : walk.Held session offset granted host) (hnow : next.now < granted + cursorTtlMs) :
    ∃ page, (dispatch session (next.presenting (walk.cursor session offset)) host).2.answer = .page page ∧
      walk.PageFrom session offset next.now
        (dispatch session (next.presenting (walk.cursor session offset)) host).1 page := by
  have hnext : route session (next.presenting (walk.cursor session offset)).request = .paged queryId walk.source :=
    route_of_paged hroute hquery hinput
  have hassert : assertCursorSelector (some walk.selector) (selectorFor session queryId
      (next.presenting (walk.cursor session offset)).request.input) = .ok walk.selector := by
    rw [hselector]
    exact assertCursorSelector_selectorFor session queryId hinput
  obtain ⟨after, page, hpage, hfrom⟩ := @Walk.page_of_continueSource _ _ _ _ _ session walk _ hsigner
    (next.presenting (walk.cursor session offset)) host hvalid hconnection queryId hassert offset granted hheld hnow
  have hhandle : handle session (next.presenting (walk.cursor session offset)) host = (after, .page page) := by
    rw [handle, hnext]
    exact hpage
  rw [dispatch, hhandle]
  exact ⟨page, rfl, hfrom⟩

theorem follow_from (hsigner : session.signer.Faithful) {first queryId}
    (hroute : route session first.request = .paged queryId walk.source)
    (hselector : walk.selector = selectorFor session queryId first.request.input)
    (hconnection : walk.connectionId = first.request.connectionId) {legs host}
    (hvalid : host.Valid session.signer) {response page} (hpage : response.answer = .page page) {offset granted}
    (hfrom : walk.PageFrom session offset granted host page) (hlength : walk.items.length - offset ≤ legs.length)
    (hfollows : Follows first granted legs)
    (hundisturbed : Undisturbed session walk.connectionId legs host response) :
    ∃ pages : List (QueryPage α κ ν), (follow session legs host response).map (·.answer) = pages.map .page ∧
      pages.getLast?.map (·.complete) = some true ∧ (∀ p ∈ pages, p.revision = decimal walk.number) ∧
      pages.flatMap (·.items) = (walk.items.drop offset).map (walk.shown session) := by
  induction legs generalizing host response page offset granted with
  | nil =>
    obtain ⟨hrevision, m, hm, hitems, hlast | ⟨-, hpos, -⟩⟩ := hfrom
    · refine ⟨[page], by simp [follow, hpage], by simp [hlast.1], by simpa using hrevision, ?_⟩
      rw [flatMap_singleton, hitems, take_of_length_le]
      rw [length_drop, hlast.2.2]
    · simp only [length_nil] at hlength
      omega
  | cons leg rest ih =>
    obtain ⟨hrevision, m, hm, hitems, ⟨hcomplete, hcursor, hend⟩ | ⟨-, hpos, hcursor, hheld⟩⟩ := hfrom
    · have hnone : response.answer.cursor = none := by
        rw [hpage]
        exact hcursor
      refine ⟨[page], by rw [follow, hnone]; simp [hpage], by simp [hcomplete], by simpa using hrevision, ?_⟩
      rw [flatMap_singleton, hitems, take_of_length_le]
      rw [length_drop, hend]
    · have hsome : response.answer.cursor = some (walk.cursor session (offset + m)) := by
        rw [hpage]
        exact hcursor
      obtain ⟨hnext, hquery, hinput, htimely, hnow, hrest⟩ := hfollows
      obtain ⟨huntouched, hundisturbed⟩ := hundisturbed _ hsome
      have hserved := valid_serveAll session leg.between hvalid
      obtain ⟨page', hpage', hfrom'⟩ := page_of_dispatch hsigner hroute hselector (hnext.trans hconnection.symm)
        hquery hinput hserved (held_serveAll session hvalid huntouched htimely hheld) hnow
      have hlength' : walk.items.length - (offset + m) ≤ rest.length := by
        rw [length_cons] at hlength
        omega
      obtain ⟨pages, hanswers, hlast, hrevisions, hshown⟩ := ih
        ((dispatch_steps session _ _).valid hserved) hpage' hfrom' hlength' hrest hundisturbed
      refine ⟨page :: pages, ?_, ?_, ?_, ?_⟩
      · rw [follow, hsome]
        simp only [map_cons, hpage, hanswers]
      · cases pages with
        | nil => simp at hlast
        | cons p ps => rwa [getLast?_cons_cons]
      · exact forall_mem_cons.mpr ⟨hrevision, hrevisions⟩
      · rw [flatMap_cons, hitems, hshown, ← map_append, ← drop_drop, take_append_drop]

/-- A connection that follows its cursors within their lifetime, while no request presents the cursor it holds and
no other connection is granted the same cursor, is shown the items of the first page's snapshot, in order and each
once, with the placeholder for each item above the page limit. -/
theorem follow_shows_snapshot (session : Session α δ κ ν) (hsigner : session.signer.Faithful)
    (history : List (Event α κ ν)) (first : Event α κ ν)
    (hcursor : first.request.cursor = none) {queryId : JsStr} {source : Source}
    (hroute : route session first.request = .paged queryId source) {items : List α}
    (hhash : ∀ r ∈ (serveAll session history Host.empty).revisions.resources
        (resourceKey source.resource (selectorFor session queryId first.request.input).resourceId),
      session.codec.hash r.payload = session.codec.hash (.array items) → r.payload = .array items)
    (hreply : first.reply source.method = .value (some (.array items))) {page : QueryPage α κ ν}
    (hpage : (dispatch session first (serveAll session history Host.empty)).2.answer = .page page)
    (legs : List (Leg α κ ν)) (hlength : items.length ≤ legs.length) (hfollows : Follows first first.now legs)
    (hundisturbed : Undisturbed session first.request.connectionId legs
      (dispatch session first (serveAll session history Host.empty)).1
      (dispatch session first (serveAll session history Host.empty)).2) : ∃ pages : List (QueryPage α κ ν),
      (follow session legs (dispatch session first (serveAll session history Host.empty)).1
        (dispatch session first (serveAll session history Host.empty)).2).map (·.answer) = pages.map .page ∧
      pages.getLast?.map (·.complete) = some true ∧ (∀ p ∈ pages, p.revision = page.revision) ∧
      pages.flatMap (·.items) = items.map (shownItem session.codec source.resource
        (selectorFor session queryId first.request.input).resourceId page.revision) := by
  have hvalid := valid_serveAll session history (Host.valid_empty session.signer)
  have hopen : openSource session first queryId source (serveAll session history Host.empty) =
      ((dispatch session first (serveAll session history Host.empty)).1, .page page) := by
    have hhandle : openSource session first queryId source (serveAll session history Host.empty) =
        handle session first (serveAll session history Host.empty) := by
      rw [handle, hroute]
      dsimp only
      rw [pageSource, hcursor]
    rw [hhandle]
    exact Prod.ext rfl hpage
  obtain ⟨number, hrevision, hfrom⟩ := page_of_openSource hsigner hvalid hhash hreply hopen
  obtain ⟨pages, hanswers, hlast, hrevisions, hshown⟩ := follow_from hsigner hroute rfl rfl
    ((dispatch_steps session first _).valid hvalid) hpage hfrom hlength hfollows hundisturbed
  rw [hrevision]
  exact ⟨pages, hanswers, hlast, hrevisions, hshown⟩

def plainSession : Session Nat (Snapshot Nat) (CursorEnvelope Nat) Nat where
  sessionId := lit "s"
  installedQueries := none
  hasModelProfiles := true
  hasActiveProviders := true
  codec :=
    { itemBytes := id, rootBytes := fun _ => 0, hash := id, entryId := fun _ => none, stringFields := fun _ => []
      rootRange := fun _ _ => none, stringRange := fun _ _ _ => none, indexedStringRange := fun _ _ _ _ => none }
  signer := { sign := id, verify := some }
  idOf := fun _ => none
  text := fun _ => []
  number := fun _ => 0
  zero := 0
  advance := fun offset length => offset + length
  nameIndex := fun _ => none

def askTranscript (connectionId : JsStr) (now : Int) : Event Nat (CursorEnvelope Nat) Nat where
  request := { id := none, query := lit "Q01", input := none, cursor := none, connectionId }
  now := now
  reply := fun _ => .value (some (.array [200000, 200000, 300000]))
  direct := .error resourceGone

theorem plainSession_faithful : plainSession.signer.Faithful :=
  ⟨fun _ _ => rfl, fun _ _ _ h => h⟩

/-- Another connection reads a longer transcript between the pages. -/
def readsBetween : Leg Nat (CursorEnvelope Nat) Nat :=
  ⟨[{ askTranscript (lit "b") 6 with reply := fun _ => .value (some (.array [200000, 200000, 300000, 1])) }],
    askTranscript (lit "a") 7⟩

theorem follow_shows_snapshot_transcript : ∃ pages : List (QueryPage Nat (CursorEnvelope Nat) Nat),
      (follow plainSession [readsBetween, ⟨[], askTranscript (lit "a") 8⟩, ⟨[], askTranscript (lit "a") 9⟩]
        (dispatch plainSession (askTranscript (lit "a") 5) Host.empty).1
        (dispatch plainSession (askTranscript (lit "a") 5) Host.empty).2).map (·.answer) = pages.map .page ∧
      pages.getLast?.map (·.complete) = some true ∧ (∀ p ∈ pages, p.revision = decimal 1) ∧
      pages.flatMap (·.items) = [200000, 200000, 300000].map (shownItem plainSession.codec (lit "transcript")
        (lit "default") (decimal 1)) := by
  have hfollows : Follows (askTranscript (lit "a") 5) 5
      [readsBetween, ⟨[], askTranscript (lit "a") 8⟩, ⟨[], askTranscript (lit "a") 9⟩] :=
    ⟨rfl, rfl, .inl rfl, forall_mem_singleton.mpr (by decide), by decide, rfl, rfl, .inl rfl, by simp,
      by decide, rfl, rfl, .inl rfl, by simp, by decide, trivial⟩
  refine follow_shows_snapshot plainSession plainSession_faithful [] (askTranscript (lit "a") 5) rfl
    rfl (fun _ _ h => h) rfl rfl _ le_rfl hfollows fun cursor hcursor => ⟨⟨?_, .inr ?_, trivial⟩, fun _ _ =>
      ⟨trivial, fun _ _ => ⟨trivial, trivial⟩⟩⟩
  · exact (Option.some_ne_none cursor).symm
  · cases hcursor
    decide +kernel

/-- Two connections that page through one revision are given one cursor: it is the second one's, and the first one
can not go on. -/
theorem follow_expires_when_shared :
    (dispatch plainSession (askTranscript (lit "a") 0) Host.empty).2.answer.cursor.isSome = true ∧
      ((follow plainSession [⟨[askTranscript (lit "b") 0], askTranscript (lit "a") 0⟩]
        (dispatch plainSession (askTranscript (lit "a") 0) Host.empty).1
        (dispatch plainSession (askTranscript (lit "a") 0) Host.empty).2).getLast?.map (·.answer)) =
          some (.error cursorExpired) :=
  ⟨rfl, rfl⟩

end

end GajaeCode.Query
