import GajaeCode.Json.Value
import GajaeCode.Data.InsertionMap

/-! Entries of a session tree and the messages they stand for; `ν` are the numbers. A long text of an
entry may be held in a resident store, with a blob reference in its place. -/
namespace GajaeCode.Session

open Text

inductive ResidentBlobKind where
  | text
  | imageUrl
  | imageData
  deriving DecidableEq, Repr

/-- A text, or the resident blob that stands for it. -/
inductive HeldText where
  | text (s : JsStr)
  | blob (kind : ResidentBlobKind) (ref : JsStr)
  deriving DecidableEq

inductive SpillEncoding where
  | utf8
  | json
  deriving DecidableEq, Repr

structure ColdSpillRef where
  ref : JsStr
  encoding : SpillEncoding
  originalChars : Nat
  sha256 : JsStr
  bytes : Nat
  deriving DecidableEq

structure EvictedContentMarker (ν : Type) where
  evictedAt : ν
  compactionEntryId : JsStr
  firstKeptEntryId : JsStr
  payloads : List (JsStr × ColdSpillRef)

structure Compaction (ν : Type) where
  summary : HeldText
  shortSummary : Option HeldText
  firstKeptEntryId : JsStr
  tokensBefore : ν
  preserveData : Option (Json ν)

structure CustomMessage (ν : Type) where
  customType : JsStr
  content : Json ν
  details : Option (Json ν)
  display : Bool
  attribution : Option JsStr

inductive Record (ν : Type) where
  | message (message : Json ν) (evictedContent : Option (EvictedContentMarker ν))
  | thinkingLevelChange
  | modelChange
  | configuredModelChain
  | serviceTierChange
  | compaction (compaction : Compaction ν)
  | branchSummary (summary : HeldText) (fromId : JsStr)
  | custom
  | customMessage (message : CustomMessage ν) (evictedContent : Option (EvictedContentMarker ν))
  | label (targetId : JsStr) (label : JsStr)
  | ttsrInjection
  | mcpToolSelection
  | discoveredBuiltinToolSelection
  | sessionInit
  | modeChange

structure SessionEntry (ν : Type) where
  id : JsStr
  parentId : Option JsStr
  timestamp : JsStr
  record : Record ν

/-- The native history that replaces the messages before a compaction. -/
structure ProviderPayload (ν : Type) where
  provider : JsStr
  items : List (Json ν)

/-- A message of the context: the message of an entry, or one made of an entry's fields. -/
inductive AgentMessage (ν : Type) where
  | stored (message : Json ν)
  | custom (message : CustomMessage ν) (timestamp : ν)
  | branchSummary (summary : HeldText) (fromId : JsStr) (timestamp : ν)
  | compactionSummary (summary : HeldText) (shortSummary : Option HeldText) (tokensBefore : ν)
      (providerPayload : Option (ProviderPayload ν)) (timestamp : ν)

variable {ν : Type}

/-- Whether a summary counts as present: an object does. -/
def isTruthy : HeldText → Bool
  | .text s => !s.isEmpty
  | .blob _ _ => true

def SessionEntry.isMessage (entry : SessionEntry ν) : Bool :=
  match entry.record with
  | .message _ _ => true
  | _ => false

def SessionEntry.isLabel (entry : SessionEntry ν) : Bool :=
  match entry.record with
  | .label _ _ => true
  | _ => false

def SessionEntry.asCompaction (entry : SessionEntry ν) : Option (Compaction ν) :=
  match entry.record with
  | .compaction c => some c
  | _ => none

def SessionEntry.isCompaction (entry : SessionEntry ν) : Bool := entry.asCompaction.isSome

def SessionEntry.role (entry : SessionEntry ν) : Option JsStr :=
  match entry.record with
  | .message message _ => (message.field (lit "role")).bind Json.asStr
  | _ => none

section

-- the milliseconds of new Date(timestamp).getTime()
variable (getTime : JsStr → ν)

def getMessageFromEntry (entry : SessionEntry ν) : Option (AgentMessage ν) :=
  match entry.record with
  | .message message _ => some (.stored message)
  | .customMessage message _ => some (.custom message (getTime entry.timestamp))
  | .branchSummary summary fromId => some (.branchSummary summary fromId (getTime entry.timestamp))
  | _ => none

/-- What an entry adds to the messages of a context. -/
def appendMessage (entry : SessionEntry ν) : List (AgentMessage ν) :=
  match entry.record with
  | .message message _ => [.stored message]
  | .customMessage message _ => [.custom message (getTime entry.timestamp)]
  | .branchSummary summary fromId =>
    if isTruthy summary then [.branchSummary summary fromId (getTime entry.timestamp)] else []
  | _ => []

variable {getTime}

theorem mem_appendMessage_iff {entry m} :
    m ∈ appendMessage getTime entry ↔ getMessageFromEntry getTime entry = some m ∧
      ∀ summary fromId time, m = .branchSummary summary fromId time → isTruthy summary = true := by
  obtain ⟨id, parentId, timestamp, record⟩ := entry
  cases record with
  | branchSummary summary fromId =>
    by_cases h : isTruthy summary
    · simp only [appendMessage, getMessageFromEntry, if_pos h, List.mem_singleton, Option.some.injEq]
      constructor
      · rintro rfl
        refine ⟨rfl, ?_⟩
        rintro s f t hm
        injection hm with hs
        rwa [← hs]
      · rintro ⟨rfl, -⟩
        rfl
    · simp only [appendMessage, getMessageFromEntry, if_neg h, Option.some.injEq]
      constructor
      · intro hm
        cases hm
      · rintro ⟨rfl, hm⟩
        exact absurd (hm _ _ _ rfl) h
  | message message evicted =>
    simp only [appendMessage, getMessageFromEntry, List.mem_singleton, Option.some.injEq]
    grind
  | customMessage message evicted =>
    simp only [appendMessage, getMessageFromEntry, List.mem_singleton, Option.some.injEq]
    grind
  | _ => simp [appendMessage, getMessageFromEntry]

end

def userEntry (id : String) (parentId : Option String) : SessionEntry Nat :=
  ⟨lit id, parentId.map lit, [], .message
    (.obj [(lit "role", .str (lit "user")), (lit "content", .str (lit id))]) none⟩

end GajaeCode.Session
