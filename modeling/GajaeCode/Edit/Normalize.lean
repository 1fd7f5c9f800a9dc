import GajaeCode.Text.JsString

/-! Line normalisation of the fuzzy matcher (`edit/normalize.ts`). -/
namespace GajaeCode.Edit
open Text

/-- The class `[ \t]`. -/
def isBlank (u : UInt16) : Bool := u == 0x20 || u == 0x09

/-- A global replacement of a class of single units by one unit. -/
def replaceClass (cls : List UInt16) (unit : UInt16) (s : JsStr) : JsStr :=
  s.map fun u => if cls.contains u then unit else u

/-- `.replace(/[ \t]+/g, " ")`; the flag says whether the scan is inside a run. -/
def collapseBlanks : Bool → JsStr → JsStr
  | _, [] => []
  | inRun, u :: rest =>
    if isBlank u then
      if inRun then collapseBlanks true rest else 0x20 :: collapseBlanks true rest
    else u :: collapseBlanks false rest

def normalizeForFuzzy (line : JsStr) : JsStr :=
  let trimmed := trim line
  if trimmed.length = 0 then []
  else
    collapseBlanks false
      (replaceClass [0x2010, 0x2011, 0x2012, 0x2013, 0x2014, 0x2212] 0x2d
        (replaceClass [0x27, 0x201a, 0x201b, 0x60, 0xb4] 0x27
          (replaceClass [0x22, 0x201e, 0x201f, 0xab, 0xbb] 0x22 trimmed)))

end GajaeCode.Edit
