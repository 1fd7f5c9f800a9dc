import GajaeCode.Text.Pattern
import GajaeCode.Data.InsertionMap

/-! The snapshots that queries page through (`sdk/host/query/revision-store.ts`). A revision holds the snapshot
it was made of: whether its bytes stay in memory or in chunk files makes no difference to what is read. -/
namespace GajaeCode.Query

open Text

def maxRevisionsPerResource : Nat := 8
def maxPinnedRevisions : Nat := 128
def snapshotTtlMs : Int := 15 * 60 * 1000
def targetPageBytes : Nat := 256 * 1024
def responseCeilingBytes : Nat := 1024 * 1024

/-- What a surface returns: an array, whose items are indexed, or another value. -/
inductive Snapshot (α : Type) where
  | array (items : List α)
  | document (value : α)
deriving DecidableEq

structure ByteRange (ν : Type) where
  body : JsStr
  complete : Bool
  offset : ν

/-- How values are serialised: the length of the canonical JSON, its digest, what the index records of an item,
and the ranges of at most a page that start at a byte offset. -/
structure SnapshotCodec (α δ ν : Type) where
  itemBytes : α → Nat
  rootBytes : Snapshot α → Nat
  hash : Snapshot α → δ
  entryId : α → Option JsStr
  stringFields : α → List JsStr
  rootRange : Snapshot α → ν → Option (ByteRange ν)
  stringRange : Snapshot α → JsStr → ν → Option (ByteRange ν)
  indexedStringRange : Snapshot α → JsStr → JsStr → ν → Option (ByteRange ν)

structure Revision (α κ : Type) where
  number : Nat
  payload : Snapshot α
  pins : List κ
  lastAccessed : Int

def Revision.id {α κ : Type} (revision : Revision α κ) : JsStr := decimal revision.number

theorem decimal_inj {m n} (h : decimal m = decimal n) : m = n := by
  rw [← digitsValue_decimal m, ← digitsValue_decimal n, h]

theorem Revision.id_inj {α κ} {r s : Revision α κ} (h : r.id = s.id) : r.number = s.number :=
  decimal_inj h

/-- A pin refers to a revision by its resource and its number. -/
structure RevisionStore (α κ : Type) where
  resources : JsStr → List (Revision α κ)
  pinIndex : List (κ × JsStr × Nat)

def resourceKey (kind id : JsStr) : JsStr := kind ++ lit ":" ++ id

namespace RevisionStore

variable {α δ κ ν : Type}

def empty : RevisionStore α κ := ⟨fun _ => [], []⟩

def find (key id : JsStr) (store : RevisionStore α κ) : Option (Revision α κ) :=
  (store.resources key).find? fun revision => revision.id = id

def modify (key : JsStr) (number : Nat) (f : Revision α κ → Revision α κ)
    (store : RevisionStore α κ) : RevisionStore α κ :=
  { store with
    resources := Function.update store.resources key
      ((store.resources key).map fun revision => if revision.number = number then f revision else revision) }

/-- The loop that drops the earliest unpinned revision while there are too many. -/
def evictUnpinned : Nat → List (Revision α κ) → List (Revision α κ)
  | 0, revisions => revisions
  | fuel + 1, revisions =>
    if revisions.length ≤ maxRevisionsPerResource then revisions
    else if revisions.any fun revision => revision.pins.isEmpty then
      evictUnpinned fuel (revisions.eraseP fun revision => revision.pins.isEmpty)
    else revisions

def pushRevision (key : JsStr) (number : Nat) (payload : Snapshot α) (now : Int)
    (store : RevisionStore α κ) : RevisionStore α κ :=
  let revisions := store.resources key ++ [{ number, payload, pins := [], lastAccessed := now }]
  { store with resources := Function.update store.resources key (evictUnpinned revisions.length revisions) }

/-- The id of the revision and the store; a snapshot equal to the latest one makes no new revision. -/
def createRevision [DecidableEq δ] (codec : SnapshotCodec α δ ν) (key : JsStr) (payload : Snapshot α)
    (now : Int) (store : RevisionStore α κ) : JsStr × RevisionStore α κ :=
  match (store.resources key).getLast? with
  | none => (decimal 1, store.pushRevision key 1 payload now)
  | some previous =>
    if codec.hash previous.payload = codec.hash payload then (previous.id, store)
    else (decimal (previous.number + 1), store.pushRevision key (previous.number + 1) payload now)

/-- Every reader looks the revision up and marks it as used. -/
def access (key id : JsStr) (now : Int) (store : RevisionStore α κ) :
    Option (Revision α κ) × RevisionStore α κ :=
  match store.find key id with
  | none => (none, store)
  | some revision =>
    (some revision, store.modify key revision.number fun r => { r with lastAccessed := now })

/-- The items of a page: it stops before an item above the target, and before the item with which it would be
above the target unless that is its first. -/
def pageItems (codec : SnapshotCodec α δ ν) : List α → List α → Nat → List α
  | [], taken, _ => taken
  | item :: rest, taken, itemsBytes =>
    let candidateBytes := itemsBytes + codec.itemBytes item + (if taken.isEmpty then 0 else 1)
    if codec.itemBytes item > targetPageBytes then taken
    else if candidateBytes > targetPageBytes ∧ !taken.isEmpty then taken
    else if candidateBytes > responseCeilingBytes then taken
    else pageItems codec rest (taken ++ [item]) candidateBytes

/-- The items from an offset on and whether they reach the end, if the revision is there and an array. -/
def readPage (codec : SnapshotCodec α δ ν) (key id : JsStr) (offset : Nat) (now : Int)
    (store : RevisionStore α κ) : Option (List α × Bool) × RevisionStore α κ :=
  match store.access key id now with
  | (some { payload := .array items, .. }, store) =>
    let taken := pageItems codec (items.drop offset) [] 2
    (some (taken, decide (items.length ≤ offset + taken.length)), store)
  | (_, store) => (none, store)

def describeIndexedItem (codec : SnapshotCodec α δ ν) (key id : JsStr) (offset : Nat)
    (store : RevisionStore α κ) : Option (Option JsStr × List JsStr) :=
  match store.find key id with
  | some { payload := .array items, .. } =>
    items[offset]?.map fun item => (codec.entryId item, codec.stringFields item)
  | _ => none

def revisionByteLength (codec : SnapshotCodec α δ ν) (key id : JsStr) (now : Int)
    (store : RevisionStore α κ) : Option Nat × RevisionStore α κ :=
  match store.access key id now with
  | (revision, store) => (revision.map fun r => codec.rootBytes r.payload, store)

def readRange (reader : Snapshot α → Option (ByteRange ν)) (key id : JsStr) (now : Int)
    (store : RevisionStore α κ) : Option (ByteRange ν) × RevisionStore α κ :=
  match store.access key id now with
  | (revision, store) => (revision.bind fun r => reader r.payload, store)

def readRootRange (codec : SnapshotCodec α δ ν) (key id : JsStr) (offset : ν) (now : Int)
    (store : RevisionStore α κ) : Option (ByteRange ν) × RevisionStore α κ :=
  store.readRange (fun payload => codec.rootRange payload offset) key id now

def readStringRange (codec : SnapshotCodec α δ ν) (key id field : JsStr) (offset : ν) (now : Int)
    (store : RevisionStore α κ) : Option (ByteRange ν) × RevisionStore α κ :=
  store.readRange (fun payload => codec.stringRange payload field offset) key id now

def readIndexedStringRange (codec : SnapshotCodec α δ ν) (key id itemId field : JsStr) (offset : ν)
    (now : Int) (store : RevisionStore α κ) : Option (ByteRange ν) × RevisionStore α κ :=
  store.readRange (fun payload => codec.indexedStringRange payload itemId field offset) key id now

def readTranscriptBodyRange (codec : SnapshotCodec α δ ν) (id entryId : JsStr) (offset : ν) (now : Int)
    (store : RevisionStore α κ) : Option (ByteRange ν) × RevisionStore α κ :=
  let key := resourceKey (lit "transcript") (lit "default")
  match store.readIndexedStringRange codec key id entryId (lit "body") offset now with
  | (some range, store) => (some range, store)
  | (none, store) => store.readIndexedStringRange codec key id entryId (lit "content") offset now

section

variable [DecidableEq κ]

/-- Without a result the pin is refused with `snapshot_capacity_exceeded`. -/
def pin (cursor : κ) (key id : JsStr) (store : RevisionStore α κ) : Option (RevisionStore α κ) :=
  if (store.pinIndex.lookup cursor).isSome then some store
  else if maxPinnedRevisions ≤ store.pinIndex.length then none
  else
    (store.find key id).map fun revision =>
      { store.modify key revision.number fun r => { r with pins := r.pins ++ [cursor] } with
        pinIndex := store.pinIndex ++ [(cursor, key, revision.number)] }

def unpin (cursor : κ) (store : RevisionStore α κ) : RevisionStore α κ :=
  match store.pinIndex.lookup cursor with
  | none => store
  | some (key, number) =>
    { store.modify key number fun r => { r with pins := r.pins.filter fun pin => pin ≠ cursor } with
      pinIndex := store.pinIndex.filter fun entry => entry.1 ≠ cursor }

/-- Drops the unpinned revisions that were last used before the cutoff. -/
def sweep (now : Int) (store : RevisionStore α κ) : RevisionStore α κ :=
  let cutoff := now - snapshotTtlMs
  { store with
    resources := fun key =>
      (store.resources key).filter fun revision => !(revision.pins.isEmpty && revision.lastAccessed < cutoff) }

end

end RevisionStore

end GajaeCode.Query
