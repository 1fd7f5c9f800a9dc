import GajaeCode.Shell.Bash

/-! Internal URLs in a shell command and their expansion to file paths. How a URL is resolved is a
parameter. -/
namespace GajaeCode.Tools

open Text Shell

/-- `[^\s'")`\\]`. -/
def isUrlUnit (u : UInt16) : Bool := !isJsWhitespace u && !(lit "'\")`\\").contains u

/-- The supported schemes, each with its `://`. -/
def urlHeads : List JsStr :=
  [lit "skill://", lit "agent://", lit "artifact://", lit "plan://", lit "memory://", lit "rule://", lit "local://"]

/-- The normalized form of a local URL has one slash only. -/
def localHeads : List JsStr := [lit "local:/"]

def headMatch (s head : JsStr) : Option Nat :=
  let units := ((s.drop head.length).takeWhile isUrlUnit).length
  if startsWith s head ∧ units ≠ 0 then some (head.length + units) else none

def bareUrl (heads : List JsStr) (s : JsStr) : Option Nat := heads.findSome? (headMatch s)

/-- The length of the URL with `mark` around it. -/
def quotedUrl (mark : UInt16) (heads : List JsStr) : JsStr → Option Nat
  | [] => none
  | u :: s =>
    if u = mark then
      match bareUrl heads s with
      | some n => if s[n]? = some mark then some (n + 2) else none
      | none => none
    else none

/-- The units that must not precede a bare URL with one slash. -/
def joinsUrl (u : UInt16) : Bool := (lit "./\\-").contains u || isWord u

/-- `INTERNAL_URL_PATTERN_INCLUDING_NORMALIZED_LOCAL` at a place; `prev` is the unit before it. -/
def matchInternalUrl (prev : Option UInt16) (s : JsStr) : Option Nat :=
  (quotedUrl (ascii '\'') urlHeads s).or <| (quotedUrl (ascii '"') urlHeads s).or <|
    (bareUrl urlHeads s).or <| (quotedUrl (ascii '\'') localHeads s).or <|
      (quotedUrl (ascii '"') localHeads s).or <|
        if prev.any joinsUrl then none else bareUrl localHeads s

/-- The matches of the pattern in a text; `skip` units of the last one are still ahead. -/
def internalUrlsFrom : Option UInt16 → Nat → JsStr → List (Piece UInt16)
  | _, _, [] => []
  | _, skip + 1, u :: s => internalUrlsFrom (some u) skip s
  | prev, 0, u :: s =>
    match matchInternalUrl prev (u :: s) with
    | none => .unit u :: internalUrlsFrom (some u) 0 s
    | some n => .hit ((u :: s).take n) :: internalUrlsFrom (some u) (n - 1) s

def internalUrls (command : JsStr) : List (Piece UInt16) := internalUrlsFrom none 0 command

def unquoteToken (token : JsStr) : JsStr :=
  if (token.head? = some (ascii '"') ∧ token.getLast? = some (ascii '"')) ∨
      (token.head? = some (ascii '\'') ∧ token.getLast? = some (ascii '\'')) then token.tail.dropLast
  else token

/-- `local:/x` for `local://x`. -/
def normalizeLocalScheme (url : JsStr) : JsStr :=
  if startsWith url (lit "local:/") ∧ startsWith url (lit "local://") = false then
    lit "local://" ++ url.drop 7
  else url

/-- `p.replace(/'/g, "'\\''")`. -/
def escapeUnit (u : UInt16) : JsStr := if u = ascii '\'' then lit "'\\''" else [u]

def shellEscape (p : JsStr) : JsStr := ascii '\'' :: p.flatMap escapeUnit ++ [ascii '\'']

section

variable (resolve : JsStr → Except JsStr JsStr)

/-- The loop of `expandInternalUrls`, from the last match to the first. -/
def expandPieces (noEscape : Bool) : List (Piece UInt16) → Except JsStr JsStr
  | [] => .ok []
  | .unit u :: ps => (expandPieces noEscape ps).map (u :: ·)
  | .hit token :: ps => do
      let rest ← expandPieces noEscape ps
      let path ← resolve (normalizeLocalScheme (unquoteToken token))
      .ok ((if noEscape then path else shellEscape path) ++ rest)

/-- `resolve` is `resolveInternalUrlToPath` under the options of the call. -/
def expandInternalUrls (noEscape : Bool) (command : JsStr) : Except JsStr JsStr :=
  if includes command (lit "://") = false ∧ includes command (lit "local:/") = false then .ok command
  else expandPieces resolve noEscape (internalUrls command)

end

/-- A match with its URL as one stretch of letters; the quotes that are part of it stay. -/
def markToken (token : JsStr) : List (Piece UInt16) :=
  let url := unquoteToken token
  if url = token then [.hit url]
  else token.head?.toList.map .unit ++ .hit url :: token.getLast?.toList.map .unit

def markPiece : Piece UInt16 → List (Piece UInt16)
  | .unit u => [.unit u]
  | .hit token => markToken token

def markedUrls (command : JsStr) : List (Piece UInt16) := (internalUrls command).flatMap markPiece

/-- Every match starts where bash reads neither a quotation nor a comment. -/
def matchesOutsideQuotes : Mode → List (Piece UInt16) → Bool
  | _, [] => true
  | m, .unit u :: ps => (step false m (.unit u)).all fun next => matchesOutsideQuotes next.2 ps
  | .bare cur, .hit token :: ps =>
    (modeAfter false (.bare cur) (token.map .unit)).all fun m => matchesOutsideQuotes m ps
  | _, .hit _ :: _ => false

end GajaeCode.Tools
