import GajaeCode.Json.Value
import GajaeCode.Text.Utf8
import GajaeCode.Query.CursorRegistry

/-! The query handlers of a session (`sdk/host/query/handlers.ts`): which query a request names, the pages of a
snapshot, and the byte ranges of one value. A request is handled at one instant; what the surface returns at that
instant comes with it. -/
namespace GajaeCode.Query

open Text

structure Source where
  resource : JsStr
  method : JsStr

def sources : List (JsStr × Source) :=
  [ (lit "Q01", ⟨lit "transcript", lit "getTranscriptEntries"⟩),
    (lit "Q03", ⟨lit "context", lit "getContextSnapshot"⟩), (lit "Q04", ⟨lit "goal", lit "getGoalState"⟩),
    (lit "Q05", ⟨lit "todo", lit "getTodoState"⟩), (lit "Q06", ⟨lit "diff", lit "getDiff"⟩),
    (lit "Q07", ⟨lit "diff", lit "getDiff"⟩), (lit "Q08", ⟨lit "diff", lit "getDiff"⟩),
    (lit "Q09", ⟨lit "usage", lit "getUsage"⟩), (lit "Q10", ⟨lit "models", lit "getModels"⟩),
    (lit "Q11", ⟨lit "skills", lit "getSkillState"⟩), (lit "Q12", ⟨lit "gates", lit "getGates"⟩),
    (lit "Q13", ⟨lit "config", lit "getConfigItems"⟩),
    (lit "Q14", ⟨lit "metadata", lit "getSessionMetadata"⟩), (lit "Q15", ⟨lit "stats", lit "getStats"⟩),
    (lit "Q16", ⟨lit "branches", lit "getBranchCandidates"⟩),
    (lit "Q17", ⟨lit "lastAssistant", lit "getLastAssistant"⟩),
    (lit "Q18", ⟨lit "capabilities", lit "getCapabilities"⟩),
    (lit "Q19", ⟨lit "auth", lit "getAuthProviders"⟩), (lit "Q20", ⟨lit "tools", lit "getTools"⟩),
    (lit "Q21", ⟨lit "queue", lit "getQueueMessages"⟩), (lit "Q22", ⟨lit "extensions", lit "getExtensions"⟩),
    (lit "Q25", ⟨lit "jobs", lit "getJobs"⟩), (lit "Q29", ⟨lit "activeProviders", lit "getActiveProviders"⟩),
    (lit "Q27", ⟨lit "modelProfiles", lit "getModelProfiles"⟩) ]

def names : List JsStr :=
  [ lit "transcript.list", lit "transcript.body", lit "context.get", lit "goal.list/get", lit "todo.list",
    lit "diff.list_files", lit "diff.list_hunks", lit "diff.read_hunk", lit "usage.get",
    lit "models.list/current", lit "skill.list/state", lit "workflow.gates.list", lit "config.list/get",
    lit "session.metadata", lit "session.stats", lit "session.branch_candidates", lit "session.last_assistant",
    lit "runtime.capabilities", lit "auth.providers", lit "tools.list", lit "queue.messages.list",
    lit "extensions.list", lit "resource.body", lit "artifact.read", lit "runtime.jobs.list",
    lit "turn.prompt_status", lit "models.profiles.list", lit "skill.invoke_status",
    lit "providers.list/active" ]

/-- A session: its surface as far as it does not change, the codec of its snapshots, the signer of its cursors,
and JavaScript's conversions. `nameIndex` is the index `Number(text) - 1` into a list, if it is one. -/
structure Session (α δ κ ν : Type) where
  sessionId : JsStr
  installedQueries : Option (List JsStr)
  hasModelProfiles : Bool
  hasActiveProviders : Bool
  codec : SnapshotCodec α δ ν
  signer : CursorSigner κ ν
  idOf : α → Option JsStr
  text : Json ν → JsStr
  number : Json ν → ν
  zero : ν
  advance : ν → Nat → ν
  nameIndex : JsStr → Option Nat

structure QueryRequest (κ ν : Type) where
  id : Option JsStr
  query : JsStr
  input : Option (List (JsStr × Json ν))
  cursor : Option κ
  connectionId : JsStr

/-- A field of a large item that can be read on its own with Q23. -/
structure Continuation where
  resourceKind : JsStr
  resourceId : JsStr
  revision : JsStr
  itemId : JsStr
  field : JsStr
deriving DecidableEq

inductive PageItem (α ν : Type) where
  | value (item : α)
  | tooLarge (id : Option JsStr) (continuations : List Continuation)
  | chunk (extra : EnvelopeExtra) (range : ByteRange ν)

structure QueryPage (α κ ν : Type) where
  items : List (PageItem α ν)
  complete : Bool
  continuationCursor : Option κ
  revision : JsStr
  preview : Bool

inductive Answer (α κ ν : Type) where
  | page (page : QueryPage α κ ν)
  | result (value : Json ν)
  | error (error : QueryError)

structure QueryResponse (α κ ν : Type) where
  id : Option JsStr
  answer : Answer α κ ν

inductive Reply (α : Type) where
  | threw (error : QueryError)
  | value (snapshot : Option (Snapshot α))

/-- A request with the time at which it is handled and what the surface would return to it. `direct` is the answer
of the queries that read neither revisions nor cursors. -/
structure Event (α κ ν : Type) where
  request : QueryRequest κ ν
  now : Int
  reply : JsStr → Reply α
  direct : Answer α κ ν

section

variable {α δ κ ν : Type}

def queryOf (query : JsStr) : JsStr :=
  if startsWith query (lit "Q") then query
  else if query = lit "models.list" ∨ query = lit "models.current" then lit "Q10"
  else
    let number := decimal (if query ∈ names then names.idxOf query + 1 else 0)
    lit "Q" ++ List.replicate (2 - number.length) 0x30 ++ number

inductive Route where
  | refused (error : QueryError)
  | transcriptBody
  | resourceBody
  | direct
  | paged (queryId : JsStr) (source : Source)

/-- The checks that need neither revisions nor cursors. -/
def route (session : Session α δ κ ν) (request : QueryRequest κ ν) : Route :=
  let query := queryOf request.query
  let name := ((session.nameIndex (query.drop 1)).bind fun index => names[index]?).getD []
  let hasInput := request.input.any fun fields => !fields.isEmpty
  if session.installedQueries.any fun installed => !installed.contains name then
    .refused { code := lit "operation_not_session_owned",
               message := request.query ++ lit " is not installed for this session." }
  else if query = lit "Q02" then .transcriptBody
  else if query = lit "Q23" then .resourceBody
  else if query = lit "Q26" ∨ query = lit "Q28" ∨ query = lit "Q24" then .direct
  else if query = lit "Q27" ∧ hasInput then
    .refused { code := lit "invalid_request", message := lit "models.profiles.list does not accept input fields." }
  else if query = lit "Q27" ∧ !session.hasModelProfiles then
    .refused { code := lit "unavailable", message := lit "models.profiles.list is unavailable for this session." }
  else if query = lit "Q29" ∧ hasInput then
    .refused { code := lit "invalid_request", message := lit "providers.list/active does not accept input fields." }
  else if query = lit "Q29" ∧ !session.hasActiveProviders then
    .refused { code := lit "unavailable", message := lit "providers.list/active is unavailable for this session." }
  else
    match sources.lookup query with
    | none => .refused { code := lit "invalid_request" }
    | some source => .paged query source

end

def selectorKeys : List JsStr :=
  [lit "entryId", lit "field", lit "fileId", lit "hunkId", lit "resourceKind", lit "resourceId", lit "itemId"]

def CursorSelector.get (key : JsStr) (selector : CursorSelector) : Option JsStr :=
  selector.entries.lookup key

def CursorSelector.resourceId (selector : CursorSelector) : JsStr :=
  (selector.get (lit "resourceId")).getD (lit "default")

def resourceGone : QueryError := { code := lit "resource_gone" }

section

variable {α δ κ ν : Type} [DecidableEq δ] [DecidableEq κ] (session : Session α δ κ ν)

def selectorFor (queryId : JsStr) (input : Option (List (JsStr × Json ν))) : CursorSelector where
  queryId := queryId
  entries := selectorKeys.filterMap fun key =>
    (input.bind fun fields => fields.lookup key).map fun value => (key, session.text value)

def lastId : Snapshot α → Option JsStr
  | .array items => items.getLast?.bind session.idOf
  | .document _ => none

def envelopeAt (resource revision : JsStr) (position : CursorPosition ν) (extra : EnvelopeExtra) :
    CursorEnvelope ν where
  sessionId := session.sessionId
  resource := resource
  revision := revision
  position := position
  direction := lit "forward"
  targetBytes := targetPageBytes
  extra := extra

/-- The end of every paged answer: unless the page is complete, a cursor for its continuation. -/
def answerPage (event : Event α κ ν) (resource resourceId revision : JsStr) (items : List (PageItem α ν))
    (complete : Bool) (position : CursorPosition ν) (extra : EnvelopeExtra) (host : Host α κ) :
    Host α κ × Answer α κ ν :=
  if complete then (host, .page { items, complete, continuationCursor := none, revision, preview := false })
  else
    match host.grant session.signer event.request.connectionId (envelopeAt session resource revision position extra)
        resource resourceId event.now with
    | (host, .error error) => (host, .error error)
    | (host, .ok cursor) =>
      (host, .page { items, complete, continuationCursor := some cursor, revision, preview := true })

def paginateIndexed (event : Event α κ ν) (resource resourceId revision : JsStr) (items : List (PageItem α ν))
    (complete : Bool) (offset : Nat) (selector : CursorSelector) (extra : EnvelopeExtra) (host : Host α κ) :
    Host α κ × Answer α κ ν :=
  answerPage session event resource resourceId revision items complete
    { offset := some (offset + items.length), byteOffset := none, selector := some selector } extra host

def chunkRange (event : Event α κ ν) (kind resourceId revision : JsStr) (range : ByteRange ν)
    (selector : CursorSelector) (extra : EnvelopeExtra) (host : Host α κ) : Host α κ × Answer α κ ν :=
  answerPage session event kind resourceId revision [.chunk extra range] range.complete
    { offset := none, byteOffset := some (session.advance range.offset (encodeUtf8 range.body).length),
      selector := some selector } extra host

def paginateItems : List α → List α → Nat → List α
  | [], taken, _ => taken
  | item :: rest, taken, itemsBytes =>
    let candidateBytes := itemsBytes + session.codec.itemBytes item + (if taken.isEmpty then 0 else 1)
    if candidateBytes > targetPageBytes ∧ !taken.isEmpty then taken
    else if candidateBytes > responseCeilingBytes then taken
    else paginateItems rest (taken ++ [item]) candidateBytes

def paginate (event : Event α κ ν) (resource resourceId revision : JsStr) (snapshot : Snapshot α)
    (selector : CursorSelector) (extra : EnvelopeExtra) (host : Host α κ) : Host α κ × Answer α κ ν :=
  let values :=
    match snapshot with
    | .array items => items
    | .document value => [value]
  let items := paginateItems session values [] 2
  answerPage session event resource resourceId revision (items.map .value) (decide (values.length ≤ items.length))
    { offset := some items.length, byteOffset := none, selector := some selector } extra host

/-- The items shown of a page of a snapshot: a page that could not take even its first item shows a placeholder. -/
def shownItems (resource resourceId revision : JsStr) (offset : Nat) (page : List α × Bool)
    (host : Host α κ) : List (PageItem α ν) × Bool :=
  if page.1.isEmpty && !page.2 then
    let item := host.revisions.describeIndexedItem session.codec (resourceKey resource resourceId) revision offset
    let continuations :=
      match item with
      | some (some itemId, fields) =>
        -- an empty id counts as no id
        if itemId = [] then [] else fields.map fun field => ⟨resource, resourceId, revision, itemId, field⟩
      | _ => []
    ([.tooLarge (item.bind Prod.fst) continuations], false)
  else (page.1.map .value, page.2)

def transcriptExtra (source : Source) (highWatermark : Option JsStr) : EnvelopeExtra :=
  if source.resource = lit "transcript" then { highWatermark } else {}

def answerItems (event : Event α κ ν) (source : Source) (revision : JsStr) (offset : Nat)
    (page : List α × Bool) (selector : CursorSelector) (highWatermark : Option JsStr) (host : Host α κ) :
    Host α κ × Answer α κ ν :=
  let shown := shownItems session source.resource selector.resourceId revision offset page host
  paginateIndexed session event source.resource selector.resourceId revision shown.1 shown.2 offset selector
    (transcriptExtra source highWatermark) host

/-- The part of `#pageSource` that continues a cursor. -/
def continueSource (event : Event α κ ν) (queryId : JsStr) (source : Source) (cursor : κ) (host : Host α κ) :
    Host α κ × Answer α κ ν :=
  match host.consume session.signer cursor event.request.connectionId
      { sessionId := session.sessionId, resource := some source.resource, direction := lit "forward",
        targetBytes := targetPageBytes } event.now with
  | (host, .error error) => (host, .error error)
  | (host, .ok envelope) =>
    match assertCursorSelector envelope.position.selector (selectorFor session queryId event.request.input) with
    | .error error => (host, .error error)
    | .ok selector =>
      let key := resourceKey source.resource selector.resourceId
      let offset := envelope.position.offset.getD 0
      match host.revisions.readPage session.codec key envelope.revision offset event.now with
      | (some page, revisions) =>
        answerItems session event source envelope.revision offset page selector
          envelope.extra.highWatermark { host with revisions }
      | (none, revisions) =>
        match revisions.readRootRange session.codec key envelope.revision
            (envelope.position.byteOffset.getD session.zero) event.now with
        | (none, revisions) => ({ host with revisions }, .error resourceGone)
        | (some range, revisions) =>
          chunkRange session event source.resource selector.resourceId envelope.revision range selector
            (transcriptExtra source envelope.extra.highWatermark) { host with revisions }

/-- The answer to a first request whose snapshot has no index of items. -/
def answerRoot (event : Event α κ ν) (source : Source) (selector : CursorSelector) (snapshot : Snapshot α)
    (revision : JsStr) (host : Host α κ) : Host α κ × Answer α κ ν :=
  let key := resourceKey source.resource selector.resourceId
  let extra := transcriptExtra source (lastId session snapshot)
  match host.revisions.revisionByteLength session.codec key revision event.now with
  | (none, revisions) => ({ host with revisions }, .error resourceGone)
  | (some rootBytes, revisions) =>
    if rootBytes ≤ targetPageBytes then
      paginate session event source.resource selector.resourceId revision snapshot selector extra
        { host with revisions }
    else
      match revisions.readRootRange session.codec key revision session.zero event.now with
      | (none, revisions) => ({ host with revisions }, .error resourceGone)
      | (some range, revisions) =>
        chunkRange session event source.resource selector.resourceId revision range selector extra
          { host with revisions }

def snapshotUnavailable : QueryError :=
  { code := lit "resource_gone", message := lit "snapshot payload is unavailable" }

def activeProviderResolutionError : QueryError :=
  { code := lit "internal", message := lit "Unable to resolve active providers." }

/-- The part of `#pageSource` that takes a snapshot. -/
def openSource (event : Event α κ ν) (queryId : JsStr) (source : Source) (host : Host α κ) :
    Host α κ × Answer α κ ν :=
  let selector := selectorFor session queryId event.request.input
  let key := resourceKey source.resource selector.resourceId
  match event.reply source.method with
  | .threw error => (host, .error (if queryId = lit "Q29" then activeProviderResolutionError else error))
  | .value none => (host, .error snapshotUnavailable)
  | .value (some snapshot) =>
    let (revision, revisions) := host.revisions.createRevision session.codec key snapshot event.now
    match snapshot with
    | .document _ => answerRoot session event source selector snapshot revision { host with revisions }
    | .array _ =>
      match revisions.readPage session.codec key revision 0 event.now with
      | (some page, revisions) =>
        answerItems session event source revision 0 page selector (lastId session snapshot)
          { host with revisions }
      | (none, revisions) =>
        answerRoot session event source selector snapshot revision { host with revisions }

def pageSource (event : Event α κ ν) (queryId : JsStr) (source : Source) (host : Host α κ) :
    Host α κ × Answer α κ ν :=
  match event.request.cursor with
  | some cursor => continueSource session event queryId source cursor host
  | none => openSource session event queryId source host

/-- The end of `#transcriptBody`. -/
def answerBody (event : Event α κ ν) (selector : CursorSelector) (entryId revision : JsStr) (offset : ν)
    (highWatermark : Option JsStr) (host : Host α κ) : Host α κ × Answer α κ ν :=
  match host.revisions.readTranscriptBodyRange session.codec revision entryId offset event.now with
  | (none, revisions) => ({ host with revisions }, .error resourceGone)
  | (some range, revisions) =>
    chunkRange session event (lit "transcript") (lit "default") revision range selector
      { highWatermark, entryId := some entryId } { host with revisions }

def transcriptBody (event : Event α κ ν) (host : Host α κ) : Host α κ × Answer α κ ν :=
  let selector := selectorFor session (lit "Q02") event.request.input
  match event.request.cursor with
  | some cursor =>
    match host.consume session.signer cursor event.request.connectionId
        { sessionId := session.sessionId, resource := some (lit "transcript"),
          resourceId := some (lit "default"), direction := lit "forward", targetBytes := targetPageBytes }
        event.now with
    | (host, .error error) => (host, .error error)
    | (host, .ok envelope) =>
      match assertCursorSelector envelope.position.selector selector with
      | .error error => (host, .error error)
      | .ok selector =>
        answerBody session event selector ((selector.get (lit "entryId")).getD []) envelope.revision
          (envelope.position.byteOffset.getD session.zero) envelope.extra.highWatermark host
  | none =>
    match event.reply (lit "getTranscriptEntries") with
    | .threw error => (host, .error error)
    | .value none => (host, .error snapshotUnavailable)
    | .value (some snapshot) =>
      let (revision, revisions) := host.revisions.createRevision session.codec
        (resourceKey (lit "transcript") (lit "default")) snapshot event.now
      answerBody session event selector ((selector.get (lit "entryId")).getD []) revision session.zero
        (lastId session snapshot) { host with revisions }

/-- The end of `#resourceBody`. -/
def answerResource (event : Event α κ ν) (selector : CursorSelector) (revision : JsStr) (offset : ν)
    (host : Host α κ) : Host α κ × Answer α κ ν :=
  let kind := (selector.get (lit "resourceKind")).getD []
  let key := resourceKey kind selector.resourceId
  let itemId := selector.get (lit "itemId")
  let field := (selector.get (lit "field")).getD (lit "body")
  let read :=
    match itemId with
    | none => host.revisions.readStringRange session.codec key revision field offset event.now
    | some itemId => host.revisions.readIndexedStringRange session.codec key revision itemId field offset event.now
  match read with
  | (none, revisions) => ({ host with revisions }, .error resourceGone)
  | (some range, revisions) =>
    chunkRange session event kind selector.resourceId revision range selector
      { field := some field, itemId := itemId } { host with revisions }

/-- `Number(input?.byteOffset ?? 0)`. -/
def requestedByteOffset (input : Option (List (JsStr × Json ν))) : ν :=
  match input.bind fun fields => fields.lookup (lit "byteOffset") with
  | none => session.zero
  | some .null => session.zero
  | some value => session.number value

/-- `String(input?.revision ?? "")`. -/
def requestedRevision (input : Option (List (JsStr × Json ν))) : JsStr :=
  match input.bind fun fields => fields.lookup (lit "revision") with
  | none => []
  | some .null => []
  | some value => session.text value

def resourceBody (event : Event α κ ν) (host : Host α κ) : Host α κ × Answer α κ ν :=
  let selector := selectorFor session (lit "Q23") event.request.input
  match event.request.cursor with
  | none =>
    answerResource session event selector (requestedRevision session event.request.input)
      (requestedByteOffset session event.request.input) host
  | some cursor =>
    match host.consume session.signer cursor event.request.connectionId
        { sessionId := session.sessionId, direction := lit "forward", targetBytes := targetPageBytes }
        event.now with
    | (host, .error error) => (host, .error error)
    | (host, .ok envelope) =>
      match assertCursorSelector envelope.position.selector selector with
      | .error error => (host, .error error)
      | .ok selector =>
        answerResource session event selector envelope.revision
          (envelope.position.byteOffset.getD session.zero) host

def handle (event : Event α κ ν) (host : Host α κ) : Host α κ × Answer α κ ν :=
  match route session event.request with
  | .refused error => (host, .error error)
  | .transcriptBody => transcriptBody session event host
  | .resourceBody => resourceBody session event host
  | .direct => (host, event.direct)
  | .paged queryId source => pageSource session event queryId source host

def dispatch (event : Event α κ ν) (host : Host α κ) : Host α κ × QueryResponse α κ ν :=
  let (host, answer) := handle session event host
  (host, { id := event.request.id, answer })

end

end GajaeCode.Query
