import GajaeCode.Json.Value
import GajaeCode.Text.Utf8

/-! `JSON.stringify` of a value. The text of a number is a parameter. -/
namespace GajaeCode.Json

open Text

variable {ν : Type} (numText : ν → JsStr)

mutual

def stringify : Json ν → JsStr
  | .null => lit "null"
  | .bool true => lit "true"
  | .bool false => lit "false"
  | .num n => numText n
  | .str s => jsonStringify s
  | .arr [] => lit "[]"
  | .arr (item :: rest) => lit "[" ++ (stringify item ++ (stringifyItems rest ++ lit "]"))
  | .obj [] => lit "\x7b\x7d"
  | .obj ((key, value) :: rest) =>
    lit "\x7b" ++ (jsonStringify key ++ (lit ":" ++ (stringify value ++ (stringifyFields rest ++ lit "\x7d"))))

/-- The items after the first, each with the comma before it. -/
def stringifyItems : List (Json ν) → JsStr
  | [] => []
  | item :: rest => lit "," ++ (stringify item ++ stringifyItems rest)

def stringifyFields : List (JsStr × Json ν) → JsStr
  | [] => []
  | (key, value) :: rest =>
    lit "," ++ (jsonStringify key ++ (lit ":" ++ (stringify value ++ stringifyFields rest)))

end

example : stringify (fun n : Nat => decimal n)
    (.obj [(lit "a", .arr [.num 10, .null]), (lit "b", .str (lit "\"x\""))]) =
      lit "\x7b\"a\":[10,null],\"b\":\"\\\"x\\\"\"\x7d" := by decide

end GajaeCode.Json
