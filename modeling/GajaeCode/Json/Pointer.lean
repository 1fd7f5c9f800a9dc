import GajaeCode.Json.Value
import GajaeCode.Text.Pattern

/-! JSON pointers: reference tokens and the part of a value that they lead to. -/
namespace GajaeCode.Json

open Text

variable {ν : Type}

def replaceTilde (digit out : UInt16) : JsStr → JsStr
  | [] => []
  | [u] => [u]
  | u :: v :: s =>
    if u = ascii '~' ∧ v = digit then out :: replaceTilde digit out s
    else u :: replaceTilde digit out (v :: s)

/-- `~1` is a slash and `~0` is a tilde. -/
def unescapeToken (token : JsStr) : JsStr :=
  replaceTilde (ascii '0') (ascii '~') (replaceTilde (ascii '1') (ascii '/') token)

def tokens (pointer : JsStr) : List JsStr := (pointer.splitOn (ascii '/')).map unescapeToken

/-- The index that a token is the decimal form of. -/
def arrayIndex (token : JsStr) : Option Nat :=
  if token = lit "0" then some 0
  else if token ≠ [] ∧ token.all isDigit = true ∧ token.head? ≠ some (ascii '0') then some (digitsValue token)
  else none

def member (token : JsStr) : Json ν → Option (Json ν)
  | .obj fields => fields.lookup token
  | .arr items => (arrayIndex token).bind fun i => items[i]?
  | _ => none

def follow : List JsStr → Json ν → Option (Json ν)
  | [], v => some v
  | token :: rest, v => (member token v).bind (follow rest)

/-- The part of the root that a local reference names; `decode` takes the percent encoding off. -/
def resolve (decode : JsStr → JsStr) (root : Json ν) : JsStr → Option (Json ν)
  | [] => none
  | u :: fragment =>
    if u = ascii '#' then
      match decode fragment with
      | [] => some root
      | slash :: pointer => if slash = ascii '/' then follow (tokens pointer) root else none
    else none

example : resolve id (.obj [(lit "$defs", .obj [(lit "a/b", .arr [.null, .bool true])])] : Json Nat)
    (lit "#/$defs/a~1b/1") = some (.bool true) := by rfl

end GajaeCode.Json
