import GajaeCode.Query.RevisionStore

/-! Continuation cursors (`sdk/host/query/cursor.ts`): signed envelopes, the table of the cursors in use with the
connection each was granted to, and the pins they hold. -/
namespace GajaeCode.Query

open Text Data

def cursorTtlMs : Int := snapshotTtlMs
def maxCursorsPerConnection : Nat := 32
def maxCursorsPerSession : Nat := maxPinnedRevisions

structure CursorSelector where
  queryId : JsStr
  entries : List (JsStr × JsStr)
deriving DecidableEq

structure CursorPosition (ν : Type) where
  offset : Option Nat
  byteOffset : Option ν
  selector : Option CursorSelector
deriving DecidableEq

structure EnvelopeExtra where
  highWatermark : Option JsStr := none
  entryId : Option JsStr := none
  field : Option JsStr := none
  itemId : Option JsStr := none
deriving DecidableEq

structure CursorEnvelope (ν : Type) where
  sessionId : JsStr
  resource : JsStr
  revision : JsStr
  position : CursorPosition ν
  direction : JsStr
  targetBytes : Nat
  extra : EnvelopeExtra
deriving DecidableEq

/-- `signCursor` and `verifyCursor` with the token of the session. -/
structure CursorSigner (κ ν : Type) where
  sign : CursorEnvelope ν → κ
  verify : κ → Option (CursorEnvelope ν)

structure CursorQueryContext where
  sessionId : JsStr
  resource : Option JsStr := none
  resourceId : Option JsStr := none
  direction : JsStr
  targetBytes : Nat

structure QueryError where
  code : JsStr
  restartQuery : Bool := false
  message : JsStr := code
deriving DecidableEq

def snapshotCapacityExceeded : QueryError := { code := lit "snapshot_capacity_exceeded" }
def invalidCursor : QueryError := { code := lit "invalid_cursor" }
def cursorExpired : QueryError := { code := lit "cursor_expired", restartQuery := true }
def cursorMismatch : QueryError := { code := lit "invalid_input", message := lit "cursor does not match query" }

def assertCursorSelector (cursor : Option CursorSelector) (requested : CursorSelector) :
    Except QueryError CursorSelector :=
  match cursor with
  | none => .error cursorMismatch
  | some cursor =>
    if cursor.queryId = requested.queryId ∧
        requested.entries.all fun entry => cursor.entries.lookup entry.1 == some entry.2 then
      .ok cursor
    else .error cursorMismatch

structure ActiveCursor where
  connectionId : JsStr
  resourceId : JsStr
  expiresAt : Int

/-- What the handlers of a session share: the revisions and the cursors in use. -/
structure Host (α κ : Type) where
  revisions : RevisionStore α κ
  active : List (κ × ActiveCursor)

namespace Host

variable {α κ ν : Type} [DecidableEq κ]

def empty : Host α κ := ⟨RevisionStore.empty, []⟩

def release (cursor : κ) (host : Host α κ) : Host α κ where
  revisions := host.revisions.unpin cursor
  active := host.active.filter fun entry => entry.1 ≠ cursor

def expired (now : Int) (host : Host α κ) : List κ :=
  (host.active.filter fun entry => entry.2.expiresAt ≤ now).map Prod.fst

def sweep (now : Int) (host : Host α κ) : Host α κ :=
  let host := (host.expired now).foldl (fun host cursor => host.release cursor) host
  { host with revisions := host.revisions.sweep now }

def cursorsOf (connectionId : JsStr) (host : Host α κ) : Nat :=
  host.active.countP fun entry => entry.2.connectionId = connectionId

def grant (signer : CursorSigner κ ν) (connectionId : JsStr) (envelope : CursorEnvelope ν)
    (resourceKind resourceId : JsStr) (now : Int) (host : Host α κ) : Host α κ × Except QueryError κ :=
  let host := host.sweep now
  if maxCursorsPerSession ≤ host.active.length ∨ maxCursorsPerConnection ≤ host.cursorsOf connectionId then
    (host, .error snapshotCapacityExceeded)
  else
    let cursor := signer.sign envelope
    match host.revisions.pin cursor (resourceKey resourceKind resourceId) envelope.revision with
    | none => (host, .error snapshotCapacityExceeded)
    | some revisions =>
      ({ revisions
         active := assocSet cursor { connectionId, resourceId, expiresAt := now + cursorTtlMs } host.active },
        .ok cursor)

/-- A cursor of another connection or past its time is released, like one that is consumed. -/
def consume (signer : CursorSigner κ ν) (cursor : κ) (connectionId : JsStr) (expected : CursorQueryContext)
    (now : Int) (host : Host α κ) : Host α κ × Except QueryError (CursorEnvelope ν) :=
  match signer.verify cursor with
  | none => (host, .error invalidCursor)
  | some envelope =>
    match host.active.lookup cursor with
    | none => (host.release cursor, .error cursorExpired)
    | some active =>
      if active.connectionId ≠ connectionId ∨ active.expiresAt ≤ now then
        (host.release cursor, .error cursorExpired)
      else if envelope.sessionId ≠ expected.sessionId ∨
          (expected.resource.any fun resource => decide (envelope.resource ≠ resource)) ∨
          envelope.direction ≠ expected.direction ∨ envelope.targetBytes ≠ expected.targetBytes ∨
          (expected.resourceId.any fun resourceId => decide (active.resourceId ≠ resourceId)) then
        (host, .error cursorMismatch)
      else (host.release cursor, .ok envelope)

end Host

end GajaeCode.Query
