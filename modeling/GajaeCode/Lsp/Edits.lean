import GajaeCode.Text.JsString
import GajaeCode.Text.Splice

/-! Text edits of language servers applied to a text (`lsp/edits.ts`). -/
namespace GajaeCode.Lsp
open Text

structure Position where
  line : Nat
  character : Nat
  deriving DecidableEq

/-- From `start` up to `stop`, the `end` of the source. -/
structure Range where
  start : Position
  stop : Position
  deriving DecidableEq

structure TextEdit where
  range : Range
  newText : JsStr
  deriving DecidableEq

def comparePosition (a b : Position) : Int :=
  if a.line = b.line then (a.character : Int) - b.character else (a.line : Int) - b.line

def formatRange (range : Range) : JsStr :=
  decimal (range.start.line + 1) ++ lit ":" ++ decimal (range.start.character + 1) ++ lit "-" ++
    decimal (range.stop.line + 1) ++ lit ":" ++ decimal (range.stop.character + 1)

/-- True when two ranges share any position other than a touching boundary. -/
def rangesOverlap (a b : Range) : Bool :=
  decide (comparePosition a.start b.stop < 0) && decide (comparePosition b.start a.stop < 0)

/-- The comparison of the sort: bottom to top, right to left. -/
def compareEdits (a b : TextEdit) : Int :=
  if a.range.start.line ≠ b.range.start.line then (b.range.start.line : Int) - a.range.start.line
  else (b.range.start.character : Int) - a.range.start.character

def sortEdits (edits : List TextEdit) : List TextEdit :=
  edits.insertionSort fun a b => compareEdits a b ≤ 0

def overlapError (earlier later : Range) : JsStr :=
  lit "overlapping LSP edits: " ++ formatRange earlier ++ lit " conflicts with " ++ formatRange later ++
    lit "; multi-server rename produced inconsistent edits"

/-- In the sorted order each edit starts at or after the end of the next one. -/
def checkOverlaps : List TextEdit → Except JsStr Unit
  | later :: earlier :: rest =>
    if comparePosition earlier.range.stop later.range.start > 0 then
      .error (overlapError earlier.range later.range)
    else checkOverlaps (earlier :: rest)
  | _ => .ok ()

/-- `lines[i] = line`; a position past the end leaves holes, which are joined as empty lines. -/
def setLine (lines : List JsStr) (i : Nat) (line : JsStr) : List JsStr :=
  if i < lines.length then lines.set i line else lines ++ List.replicate (i - lines.length) [] ++ [line]

def applyEdit (lines : List JsStr) (edit : TextEdit) : List JsStr :=
  let start := edit.range.start
  let stop := edit.range.stop
  if start.line = stop.line then
    let line := lines.getD start.line []
    setLine lines start.line (line.take start.character ++ edit.newText ++ line.drop stop.character)
  else
    let startLine := lines.getD start.line []
    let endLine := lines.getD stop.line []
    let newContent := startLine.take start.character ++ edit.newText ++ endLine.drop stop.character
    splice lines start.line (stop.line + 1 - start.line) (splitLines newContent)

def applyTextEditsToString (content : JsStr) (edits : List TextEdit) : Except JsStr JsStr := do
  let sortedEdits := sortEdits edits
  checkOverlaps sortedEdits
  return joinLines (sortedEdits.foldl applyEdit (splitLines content))

end GajaeCode.Lsp
