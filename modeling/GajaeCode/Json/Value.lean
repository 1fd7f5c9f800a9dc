import GajaeCode.Text.JsString

/-! JSON values as JavaScript holds them. The fields of an object stand in the order in which they are
enumerated; `ν` are the numbers. -/
namespace GajaeCode

open Text

inductive Json (ν : Type) where
  | null
  | bool (b : Bool)
  | num (n : ν)
  | str (s : JsStr)
  | arr (items : List (Json ν))
  | obj (fields : List (JsStr × Json ν))

namespace Json

variable {ν : Type}

def field (key : JsStr) : Json ν → Option (Json ν)
  | .obj fields => fields.lookup key
  | _ => none

def asStr : Json ν → Option JsStr
  | .str s => some s
  | _ => none

def asItems : Json ν → Option (List (Json ν))
  | .arr items => some items
  | _ => none

def asFields : Json ν → Option (List (JsStr × Json ν))
  | .obj fields => some fields
  | _ => none

def asNum : Json ν → Option ν
  | .num n => some n
  | _ => none

def asStrs : Json ν → Option (List JsStr)
  | .arr items => items.mapM asStr
  | _ => none

theorem sizeOf_item {items} {v : Json ν} (h : v ∈ items) : sizeOf v < sizeOf (Json.arr items) := by
  have hlt := List.sizeOf_lt_of_mem h
  simp only [arr.sizeOf_spec]
  omega

theorem sizeOf_field {fields} {p : JsStr × Json ν} (h : p ∈ fields) : sizeOf p.2 < sizeOf (Json.obj fields) := by
  have hlt := List.sizeOf_lt_of_mem h
  have hpair : sizeOf p = 1 + sizeOf p.1 + sizeOf p.2 := by
    cases p
    rfl
  simp only [obj.sizeOf_spec]
  omega

theorem induct {P : Json ν → Prop} (null : P .null) (bool : ∀ b, P (.bool b)) (num : ∀ n, P (.num n))
    (str : ∀ s, P (.str s)) (arr : ∀ items, (∀ v ∈ items, P v) → P (.arr items))
    (obj : ∀ fields, (∀ p ∈ fields, P p.2) → P (.obj fields)) (v : Json ν) : P v := by
  induction hsize : sizeOf v using Nat.strong_induction_on generalizing v with
  | _ n ih =>
    subst hsize
    cases v with
    | null => exact null
    | bool b => exact bool b
    | num n => exact num n
    | str s => exact str s
    | arr items => exact arr items fun v hv => ih _ (sizeOf_item hv) v rfl
    | obj fields => exact obj fields fun p hp => ih _ (sizeOf_field hp) p.2 rfl

end Json

end GajaeCode
