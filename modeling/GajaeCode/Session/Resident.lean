import GajaeCode.Session.Context

/-! The resident store: long texts of the entries are held as blobs, and read back when an entry is
materialized. -/
namespace GajaeCode.Session

open Text

variable {ν : Type}

def isBlobRef (ref : JsStr) : Bool := startsWith ref (lit "blob:sha256:")

def blobKindOf (kind : JsStr) : Option ResidentBlobKind :=
  if kind = lit "text" then some .text
  else if kind = lit "imageUrl" then some .imageUrl
  else if kind = lit "imageData" then some .imageData
  else none

def isTrue : Json ν → Bool
  | .bool b => b
  | _ => false

/-- The kind and the reference of a value that stands for a resident blob. -/
def residentBlob (value : Json ν) : Option (ResidentBlobKind × JsStr) := do
  let marked ← value.field (lit "__gjcResidentBlob")
  let kind ← ((value.field (lit "kind")).bind Json.asStr).bind blobKindOf
  let ref ← (value.field (lit "ref")).bind Json.asStr
  if isTrue marked && isBlobRef ref then some (kind, ref) else none

section

-- the text of a blob, or the placeholder for a missing one
variable (resolve : ResidentBlobKind → JsStr → JsStr)

mutual

def materializeResidentValue : Json ν → Json ν
  | .arr items => .arr (materializeItems items)
  | .obj fields =>
    match residentBlob (.obj fields) with
    | some (kind, ref) => .str (resolve kind ref)
    | none => .obj (materializeFields fields)
  | .str s => .str s
  | .num n => .num n
  | .bool b => .bool b
  | .null => .null

def materializeItems : List (Json ν) → List (Json ν)
  | [] => []
  | item :: rest => materializeResidentValue item :: materializeItems rest

def materializeFields : List (JsStr × Json ν) → List (JsStr × Json ν)
  | [] => []
  | (key, value) :: rest => (key, materializeResidentValue value) :: materializeFields rest

end

def HeldText.materialize : HeldText → HeldText
  | .text s => .text s
  | .blob kind ref => .text (resolve kind ref)

def Compaction.materialize (compaction : Compaction ν) : Compaction ν :=
  { compaction with
    summary := compaction.summary.materialize resolve
    shortSummary := compaction.shortSummary.map (HeldText.materialize resolve)
    preserveData := compaction.preserveData.map (materializeResidentValue resolve) }

def CustomMessage.materialize (message : CustomMessage ν) : CustomMessage ν :=
  { message with
    content := materializeResidentValue resolve message.content
    details := message.details.map (materializeResidentValue resolve) }

def materializeRecord : Record ν → Record ν
  | .message message evicted => .message (materializeResidentValue resolve message) evicted
  | .compaction c => .compaction (c.materialize resolve)
  | .branchSummary summary fromId => .branchSummary (summary.materialize resolve) fromId
  | .customMessage message evicted => .customMessage (message.materialize resolve) evicted
  | record => record

def materializeResidentEntryForRead (entry : SessionEntry ν) : SessionEntry ν :=
  { entry with record := materializeRecord resolve entry.record }

end

section

variable {resolve : ResidentBlobKind → JsStr → JsStr}

@[simp] theorem id_materialize (entry : SessionEntry ν) :
    (materializeResidentEntryForRead resolve entry).id = entry.id := rfl

@[simp] theorem parentId_materialize (entry : SessionEntry ν) :
    (materializeResidentEntryForRead resolve entry).parentId = entry.parentId := rfl

end

end GajaeCode.Session
