import GajaeCode.Text.JsString

/-! Anchors, cursors and edits (`hashline/types.ts`), without the content hint and the old-text
assertion that only the parser and the recovery path read. -/
namespace GajaeCode.Hashline
open Text

/-- `RANGE_INTERIOR_HASH`, the filler hash that is not validated. -/
def rangeInteriorHash : JsStr := lit "**"

structure Anchor where
  line : Nat
  hash : JsStr
deriving DecidableEq, Repr

inductive HashlineCursor where
  | bof
  | eof
  | beforeAnchor (anchor : Anchor)
  | afterAnchor (anchor : Anchor)
deriving DecidableEq, Repr

inductive HashlineEdit where
  | insert (cursor : HashlineCursor) (text : JsStr) (lineNum index : Nat)
  | delete (anchor : Anchor) (lineNum index : Nat)
deriving DecidableEq, Repr

structure HashMismatch where
  line : Nat
  expected : JsStr
  actual : JsStr
deriving DecidableEq, Repr

structure HashlineApplyOptions where
  autoDropPureInsertDuplicates : Bool := false

end GajaeCode.Hashline
