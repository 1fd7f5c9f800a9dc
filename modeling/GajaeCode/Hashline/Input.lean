import GajaeCode.Hashline.Parser
import GajaeCode.Data.InsertionMap

/-! Sections of a hashline input (`hashline/input.ts`) and what `hashline/execute.ts` parses. The path
library of the runtime is a parameter. -/
namespace GajaeCode.Hashline
open Text Data

structure PathLib where
  isAbsolute : JsStr → Bool
  resolve : JsStr → JsStr
  relative : JsStr → JsStr → JsStr

structure SplitHashlineOptions where
  cwd : Option JsStr
  path : Option JsStr

structure HashlineInputSection where
  path : JsStr
  diff : JsStr
deriving DecidableEq

def unquoteHashlinePath (pathText : JsStr) : JsStr :=
  if pathText.length < 2 then pathText
  else
    let first := pathText.head?
    let last := pathText.getLast?
    if (first = some 0x22 || first = some 0x27) && first = last then (pathText.drop 1).dropLast
    else pathText

section

variable (paths : PathLib)

def normalizeHashlinePath (rawPath : JsStr) (cwd : Option JsStr) : JsStr :=
  let unquoted := unquoteHashlinePath (trim rawPath)
  match cwd with
  | none | some [] => unquoted
  | some cwd =>
    if !paths.isAbsolute unquoted then unquoted
    else
      let relative := paths.relative (paths.resolve cwd) (paths.resolve unquoted)
      let isWithinCwd := relative = [] || (!startsWith relative (lit "..") && !paths.isAbsolute relative)
      if isWithinCwd then (if relative = [] then lit "." else relative) else unquoted

def emptyHeaderError := lit "Input header \"§\" is empty; provide a file path."

/-- The path of a header line; a run of markers counts as one. -/
def parseHashlineHeaderLine (line : JsStr) (cwd : Option JsStr) : Except JsStr (Option JsStr) :=
  let trimmed := trimEnd line
  if !startsWith trimmed [hlFilePrefix] then .ok none
  else
    let rest := trimmed.dropWhile (· == hlFilePrefix)
    if trim rest = [] then .error emptyHeaderError
    else
      let parsedPath := normalizeHashlinePath paths rest cwd
      if parsedPath = [] then .error emptyHeaderError else .ok (some parsedPath)

def isPatchEnvelopeMarker (line : JsStr) : Bool :=
  trimEnd line = beginPatchMarker || trimEnd line = endPatchMarker

def dropBom (input : JsStr) : JsStr := if input.head? = some 0xfeff then input.tail else input

def stripLeadingBlankLines (input : JsStr) : JsStr :=
  joinLines ((splitLines (dropBom input)).dropWhile fun line =>
    let head := dropCr line
    trim head = [] || trimEnd head = beginPatchMarker)

def containsRecognizableHashlineOperations (input : JsStr) : Bool :=
  (splitCrLf input).any fun line => line.head?.any (hlOpChars.contains ·)

/-- Whether one of the lines is a header; the lines after the first are not read. -/
def hasExplicitHeader (cwd : Option JsStr) : List JsStr → Except JsStr Bool
  | [] => .ok false
  | line :: lines => do
      let header ← parseHashlineHeaderLine paths line cwd
      if header.isSome then return true else hasExplicitHeader cwd lines

def normalizeFallbackInput (input : JsStr) (options : SplitHashlineOptions) :
    Except JsStr JsStr := do
  if ← hasExplicitHeader paths options.cwd (splitCrLf (dropBom input)) then return input
  match options.path with
  | none | some [] => return input
  | some path =>
    if !containsRecognizableHashlineOperations input then return input
    let fallbackPath := normalizeHashlinePath paths path options.cwd
    if fallbackPath = [] then return input
    return hlFilePrefix :: fallbackPath ++ LF :: input

/-- `flush`: a section without a line that is not blank is dropped. -/
def flushSection (currentPath : JsStr) (currentLines : List JsStr) : List HashlineInputSection :=
  if currentPath.length = 0 then []
  else if currentLines.any fun line => trim line ≠ [] then [⟨currentPath, joinLines currentLines⟩]
  else []

/-- The loop over the lines, up to an end or abort marker. -/
def splitSections (cwd : Option JsStr) (currentPath : JsStr) (currentLines : List JsStr) :
    List JsStr → Except JsStr (List HashlineInputSection)
  | [] => .ok (flushSection currentPath currentLines)
  | line :: lines =>
    if trimEnd line = endPatchMarker || trimEnd line = abortMarker then
      .ok (flushSection currentPath currentLines)
    else if isPatchEnvelopeMarker line then splitSections cwd currentPath currentLines lines
    else do
      match ← parseHashlineHeaderLine paths line cwd with
      | some path =>
        let sections ← splitSections cwd path [] lines
        return flushSection currentPath currentLines ++ sections
      | none => splitSections cwd currentPath (currentLines ++ [line]) lines

def splitHashlineInputs (input : JsStr) (options : SplitHashlineOptions) :
    Except JsStr (List HashlineInputSection) := do
  let stripped := stripLeadingBlankLines (← normalizeFallbackInput paths input options)
  let lines := splitCrLf stripped
  let firstLine := (lines.head?).getD []
  if (← parseHashlineHeaderLine paths firstLine options.cwd).isNone then
    throw (lit "input must begin with \"§PATH\" on the first non-blank line; got: " ++
      jsonStringify (firstLine.take 120) ++ lit ". Example: \"§src/foo.ts\" then edit ops.")
  splitSections paths options.cwd [] [] lines

end

def diffsByPath (sections : List HashlineInputSection) : List (JsStr × List JsStr) :=
  sections.foldl (fun byPath part =>
    match byPath.lookup part.path with
    | some existing => assocSet part.path (existing ++ [part.diff]) byPath
    | none => assocSet part.path [part.diff] byPath) []

def mergeSamePathSections (sections : List HashlineInputSection) : List HashlineInputSection :=
  (diffsByPath sections).map fun (path, diffs) => ⟨path, joinLines diffs⟩

/-- The parse warnings that `executeHashlineSingle` collects from its sections. -/
def collectParseWarnings (xxHash32 : List UInt8 → UInt32) (paths : PathLib) (input : JsStr)
    (options : SplitHashlineOptions) : Except JsStr (List JsStr) := do
  let sections ← splitHashlineInputs paths input options
  let parsed ← (mergeSamePathSections sections).mapM fun part =>
    parseHashlineWithWarnings xxHash32 part.diff
  return parsed.flatMap ParsedHashline.warnings

end GajaeCode.Hashline
