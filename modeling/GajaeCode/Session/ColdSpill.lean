import GajaeCode.Session.Resident
import GajaeCode.Text.Utf8Window

/-! The way back of compacted history from durable cold storage: the payloads of an evicted entry are
named by dotted paths and read from blobs. -/
namespace GajaeCode.Session

open Text

variable {ν : Type}

def coldSpillArgumentsKey : JsStr := lit "__gjcColdSpillArguments"

def childPath (basePath key : JsStr) : JsStr := basePath ++ (lit "." ++ key)

def isColdSpillArgumentsSentinel (value : Json ν) : Bool :=
  (value.field coldSpillArgumentsKey).any isTrue

structure ColdSpillStores (ν : Type) where
  /-- The blob of a hash whose content was checked against it. -/
  get : JsStr → Option (List UInt8)
  /-- `JSON.parse`. -/
  parse : JsStr → Option (Json ν)
  /-- A value with the resident blobs read, `none` if one is missing. -/
  materialize : Json ν → Option (Json ν)

section

variable (stores : ColdSpillStores ν)

def coldSpillUnavailable (ref : ColdSpillRef) : JsStr :=
  lit "[Cold-spill blob unavailable: " ++ (ref.ref ++ (lit "; original " ++ (decimal ref.originalChars ++
    lit " chars unavailable]")))

def rehydrateColdSpillRef (ref : ColdSpillRef) : Json ν :=
  let hash := if isBlobRef ref.ref then ref.ref.drop (lit "blob:sha256:").length else ref.sha256
  match stores.get hash with
  | none => .str (coldSpillUnavailable ref)
  | some data =>
    if hash = ref.sha256 then
      match ref.encoding with
      | .utf8 => .str (decodeUtf8 data)
      | .json => ((stores.parse (decodeUtf8 data)).bind stores.materialize).getD (.str (coldSpillUnavailable ref))
    else .str (coldSpillUnavailable ref)

def sentinelPayload (payloads : List (JsStr × ColdSpillRef)) (fields : List (JsStr × Json ν)) :
    Option (Option ColdSpillRef) :=
  if isColdSpillArgumentsSentinel (.obj fields) then
    ((fields.lookup (lit "refPath")).bind Json.asStr).map fun refPath => payloads.lookup refPath
  else none

mutual

def rehydrateColdSpillValue (payloads : List (JsStr × ColdSpillRef)) : Json ν → JsStr → Json ν
  | .arr items, basePath =>
    match payloads.lookup basePath with
    | some ref => rehydrateColdSpillRef stores ref
    | none => .arr (rehydrateItems payloads items basePath 0)
  | .obj fields, basePath =>
    match payloads.lookup basePath, sentinelPayload payloads fields with
    | some ref, _ => rehydrateColdSpillRef stores ref
    | none, some (some ref) => rehydrateColdSpillRef stores ref
    | none, some none => .obj fields
    | none, none => .obj (rehydrateFields payloads fields basePath)
  | .str s, basePath =>
    match payloads.lookup basePath with
    | some ref => rehydrateColdSpillRef stores ref
    | none => .str s
  | .num n, basePath =>
    match payloads.lookup basePath with
    | some ref => rehydrateColdSpillRef stores ref
    | none => .num n
  | .bool b, basePath =>
    match payloads.lookup basePath with
    | some ref => rehydrateColdSpillRef stores ref
    | none => .bool b
  | .null, basePath =>
    match payloads.lookup basePath with
    | some ref => rehydrateColdSpillRef stores ref
    | none => .null

def rehydrateItems (payloads : List (JsStr × ColdSpillRef)) : List (Json ν) → JsStr → Nat → List (Json ν)
  | [], _, _ => []
  | item :: rest, basePath, index =>
    rehydrateColdSpillValue payloads item (childPath basePath (decimal index)) ::
      rehydrateItems payloads rest basePath (index + 1)

def rehydrateFields (payloads : List (JsStr × ColdSpillRef)) :
    List (JsStr × Json ν) → JsStr → List (JsStr × Json ν)
  | [], _ => []
  | (key, value) :: rest, basePath =>
    (key, if key = lit "evictedContent" then value
      else rehydrateColdSpillValue payloads value (childPath basePath key)) ::
      rehydrateFields payloads rest basePath

end

def payloadsIn (evicted : Option (EvictedContentMarker ν)) : List (JsStr × ColdSpillRef) :=
  (evicted.map EvictedContentMarker.payloads).getD []

/-- An entry with what was evicted of it. The other fields of a custom message hold no payload. -/
def rehydrateColdSpillEntry (entry : SessionEntry ν) : SessionEntry ν :=
  match entry.record with
  | .message message evicted =>
    { entry with
      record := .message (rehydrateColdSpillValue stores (payloadsIn evicted) message (lit "message")) evicted }
  | .customMessage message evicted =>
    { entry with
      record := .customMessage
        { message with
          content := rehydrateColdSpillValue stores (payloadsIn evicted) message.content
            (lit "custom_message.content")
          details := message.details.map fun details =>
            rehydrateColdSpillValue stores (payloadsIn evicted) details (lit "custom_message.details") }
        evicted }
  | _ => entry

end

end GajaeCode.Session
