import Mathlib

/-! A cache of one value that is replaced when the key of the live value changes. -/
namespace GajaeCode.Data
open List

variable {α κ : Type*} [DecidableEq κ] (key : α → κ)

variable (before : List α)

end GajaeCode.Data
