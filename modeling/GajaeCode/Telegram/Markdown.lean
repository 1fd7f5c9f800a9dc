import GajaeCode.Telegram.Tokens
import GajaeCode.Text.Delimited

/-! The conversion of markdown to Telegram HTML, stage by stage. Code, tables and links are stashed
behind placeholders, what remains is escaped and tagged, and the placeholders are restored at the end. -/
namespace GajaeCode.Telegram

open Text List

/-- `value.replace(/u/g, text)`. -/
def replaceUnit (u : UInt16) (text value : JsStr) : JsStr := value.flatMap fun v => if v = u then text else [v]

def escapeHtml (value : JsStr) : JsStr :=
  replaceUnit gtUnit (lit "&gt;") (replaceUnit ltUnit (lit "&lt;") (replaceUnit ampUnit (lit "&amp;") value))

def escapeAttr (value : JsStr) : JsStr := replaceUnit (ascii '"') (lit "&quot;") (escapeHtml value)

def tag (name escaped : JsStr) : JsStr :=
  ltUnit :: name ++ [gtUnit] ++ escaped ++ (lit "</" ++ name ++ [gtUnit])

def code (raw : JsStr) : JsStr := tag (lit "code") (escapeHtml raw)
def pre (raw : JsStr) : JsStr := tag (lit "pre") (escapeHtml raw)

def nulUnit : UInt16 := 0

/-- The token that stands for the stashed fragment `n`. -/
def placeholder (n : Nat) : JsStr := nulUnit :: lit "ph" ++ decimal n ++ [nulUnit]

/-- `/^(https?:\/\/|mailto:)/i`. -/
def isSafeUrl (url : JsStr) : Bool :=
  [lit "http://", lit "https://", lit "mailto:"].any fun start => startsWith (url.map asciiLower) start

/-! ### Tables -/

inductive ColumnAlign where
  | left
  | right
  | center
  deriving DecidableEq

def pipeUnit : UInt16 := ascii '|'

def splitCells : JsStr → JsStr → List JsStr
  | cur, [] => [cur]
  | cur, [u] => if u = pipeUnit then [cur, []] else [cur ++ [u]]
  | cur, u :: v :: rest =>
    if u = ascii '\\' ∧ v = pipeUnit then splitCells (cur ++ [pipeUnit]) rest
    else if u = pipeUnit then cur :: splitCells [] (v :: rest)
    else splitCells (cur ++ [u]) (v :: rest)

def splitTableRow (line : JsStr) : List JsStr :=
  let s := trim line
  let s := if startsWith s [pipeUnit] then s.drop 1 else s
  let s := if s.getLast? = some pipeUnit ∧ ¬ (lit "\\|") <:+ s then s.dropLast else s
  (splitCells [] s).map trim

/-- `/(?:^|[^\\])\|/`. -/
def looksLikeTableRow (line : JsStr) : Bool :=
  line.head? = some pipeUnit || (line.zip line.tail).any fun pair => pair.1 ≠ ascii '\\' && pair.2 = pipeUnit

/-- `/^:?-+:?$/`. -/
def isSeparatorCell (cell : JsStr) : Bool :=
  let rest := if cell.head? = some (ascii ':') then cell.drop 1 else cell
  rest.head? = some (ascii '-') && ((rest.dropWhile (isUnit '-')) = [] || rest.dropWhile (isUnit '-') = lit ":")

def isTableSeparator (line : JsStr) : Bool :=
  looksLikeTableRow line && (splitTableRow line).all isSeparatorCell

def parseAlign (cell : JsStr) : ColumnAlign :=
  let c := trim cell
  let left := c.head? = some (ascii ':')
  let right := c.getLast? = some (ascii ':')
  if left ∧ right then .center else if right then .right else .left

structure Table where
  header : List JsStr
  aligns : List ColumnAlign
  body : List (List JsStr)

/-- `row[c] ?? ""`. -/
def cellAt (row : List JsStr) (c : Nat) : JsStr := row[c]?.getD []

/-- `text.repeat(n)` for one unit. -/
def spaces (n : Nat) : JsStr := replicate n (ascii ' ')

namespace Table

variable (table : Table)

def rows : List (List JsStr) := table.header :: table.body

def cols : Nat := (table.body.map List.length).foldl max table.header.length

def width (c : Nat) : Nat := table.rows.foldl (fun w row => max w (cellAt row c).length) 1

def padCell (value : JsStr) (c : Nat) : JsStr :=
  let pad := table.width c - value.length
  match table.aligns[c]?.getD .left with
  | .right => spaces pad ++ value
  | .center => spaces (pad / 2) ++ value ++ spaces (pad - pad / 2)
  | .left => value ++ spaces pad

def renderRow (row : List JsStr) : JsStr :=
  (lit " | ").intercalate ((List.range table.cols).map fun c => table.padCell (cellAt row c) c)

def divider : JsStr :=
  (lit "-|-").intercalate ((List.range table.cols).map fun c => replicate (table.width c) (ascii '-'))

def renderTableText : JsStr :=
  joinLines (table.renderRow table.header :: table.divider :: table.body.map table.renderRow)

/-- One row of a wide table, a line for each column of the header. -/
def renderRecord (row : List JsStr) : JsStr :=
  joinLines (table.header.mapIdx fun column label =>
    tag (lit "b") (escapeHtml (if label = [] then lit "Column " ++ decimal (column + 1) else label)) ++ lit ": " ++
      escapeHtml (cellAt row column))

/-- The grid is narrow enough, or there are no records. -/
def Compact (stringWidth : JsStr → Nat) : Prop :=
  table.body = [] ∨ ∀ line ∈ splitLines table.renderTableText, stringWidth line ≤ 42

instance (stringWidth : JsStr → Nat) : Decidable (table.Compact stringWidth) :=
  inferInstanceAs (Decidable (table.body = [] ∨ ∀ line ∈ splitLines table.renderTableText, stringWidth line ≤ 42))

def renderTelegramTable (stringWidth : JsStr → Nat) : JsStr :=
  if table.Compact stringWidth then Telegram.pre table.renderTableText
  else (lit "\n\n").intercalate (table.body.map table.renderRecord)

end Table

inductive Block where
  | line (line : JsStr)
  | table (table : Table)

def isBodyRow (row : JsStr) : Bool := looksLikeTableRow row && !isTableSeparator row

/-- The blocks of the lines after the first `skip` ones. -/
def tableBlocks : Nat → List JsStr → List Block
  | _, [] => []
  | skip + 1, _ :: rest => tableBlocks skip rest
  | 0, headerLine :: rest =>
    match rest with
    | [] => [.line headerLine]
    | separatorLine :: after =>
      if looksLikeTableRow headerLine && isTableSeparator separatorLine then
        let body := after.takeWhile isBodyRow
        .table ⟨splitTableRow headerLine, (splitTableRow separatorLine).map parseAlign, body.map splitTableRow⟩ ::
          tableBlocks (1 + body.length) rest
      else .line headerLine :: tableBlocks 0 rest

/-! ### Stashing -/

/-- The fragments stashed so far and the text with their placeholders. -/
structure Protected where
  placeholders : List JsStr
  text : JsStr

/-- The hits for which `html` has a fragment are stashed in order. -/
def stashHits (html : JsStr → Option JsStr) : List JsStr → List (Piece UInt16) → Protected
  | placeholders, [] => ⟨placeholders, []⟩
  | placeholders, .unit u :: pieces =>
    let rest := stashHits html placeholders pieces
    ⟨rest.placeholders, u :: rest.text⟩
  | placeholders, .hit s :: pieces =>
    match html s with
    | none =>
      let rest := stashHits html placeholders pieces
      ⟨rest.placeholders, s ++ rest.text⟩
    | some fragment =>
      let rest := stashHits html (placeholders ++ [fragment]) pieces
      ⟨rest.placeholders, placeholder placeholders.length ++ rest.text⟩

def indexOf (search text : JsStr) : Option Nat :=
  (List.range text.length).find? fun i => search.isPrefixOf (text.drop i)

def lastIndexOf (search text : JsStr) : Option Nat :=
  (List.range text.length).reverse.find? fun i => search.isPrefixOf (text.drop i)

def fence : JsStr := lit "\x60\x60\x60"

/-- The expression of a fenced block: the fence, the rest of its line, then up to the next fence. Without
one after the line, up to the last fence of the line. -/
def fencedMatch (text : JsStr) : Option Nat :=
  if startsWith text fence then
    let line := (text.drop 3).takeWhile (· ≠ LF)
    let tail := text.drop (3 + line.length + 1)
    match indexOf fence tail with
    | some i => some (3 + line.length + 1 + i + 3)
    | none => (lastIndexOf fence line).map fun i => 3 + i + 3
  else none

def fencedBody (s : JsStr) : JsStr :=
  let tail := ((s.drop 3).dropWhile (· ≠ LF)).drop 1
  tail.take (tail.length - 3)

def protectFences (markdown : JsStr) : Protected :=
  stashHits (fun s => some (pre (fencedBody s))) [] (scan fencedMatch markdown)

def stashTables (stringWidth : JsStr → Nat) : List JsStr → List Block → List JsStr × List JsStr
  | placeholders, [] => (placeholders, [])
  | placeholders, .line line :: blocks =>
    let rest := stashTables stringWidth placeholders blocks
    (rest.1, line :: rest.2)
  | placeholders, .table table :: blocks =>
    let rest := stashTables stringWidth (placeholders ++ [table.renderTelegramTable stringWidth]) blocks
    (rest.1, placeholder placeholders.length :: rest.2)

def convertMarkdownTables (stringWidth : JsStr → Nat) (p : Protected) : Protected :=
  let converted := stashTables stringWidth p.placeholders (tableBlocks 0 (splitLines p.text))
  ⟨converted.1, joinLines converted.2⟩

/-- The class `[^u\n]`. -/
def otherThan (u v : UInt16) : Bool := v ≠ u && v ≠ LF

def inlineCode : JsStr → Option Nat := delimited (ascii '\x60') 1 (otherThan (ascii '\x60'))

def protectCode (p : Protected) : Protected :=
  stashHits (fun s => some (code (delimitedBody 1 s))) p.placeholders (scan inlineCode p.text)

def linkLabel (text : JsStr) : JsStr := (text.drop 1).takeWhile (otherThan (ascii ']'))

/-- The class `[^)\s]`. -/
def isUrlUnit (u : UInt16) : Bool := u ≠ ascii ')' && !isJsWhitespace u

/-- What stands behind the label and the brackets. -/
def linkUrl (text : JsStr) : JsStr := (text.drop (1 + (linkLabel text).length + 2)).takeWhile isUrlUnit

/-- `/\[([^\]\n]+)\]\(([^)\s]+)\)/`. -/
def linkMatch (text : JsStr) : Option Nat :=
  let label := linkLabel text
  let url := linkUrl text
  if text.head? = some (ascii '[') ∧ label ≠ [] ∧ (text.drop (1 + label.length)).take 2 = lit "](" ∧ url ≠ [] ∧
      text[1 + label.length + 2 + url.length]? = some (ascii ')') then some (1 + label.length + 2 + url.length + 1)
  else none

def linkHtml (s : JsStr) : Option JsStr :=
  if isSafeUrl (linkUrl s) then
    some (lit "<a href=\"" ++ escapeAttr (linkUrl s) ++ lit "\">" ++ escapeHtml (linkLabel s) ++ lit "</a>")
  else none

def protectLinks (p : Protected) : Protected := stashHits linkHtml p.placeholders (scan linkMatch p.text)

/-! ### Lines and emphasis -/

/-- `/^&gt;\s?(.*)$/`. -/
def quoteBody (line : JsStr) : Option JsStr :=
  if startsWith line (lit "&gt;") then
    let rest := line.drop 4
    let body := if rest.head?.any isJsWhitespace then rest.drop 1 else rest
    if body.all isDot then some body else none
  else none

/-- `/^(#{1,6})\s+(.*)$/`. -/
def headerBody (line : JsStr) : Option JsStr :=
  let marks := line.takeWhile (isUnit '#')
  let rest := line.dropWhile (isUnit '#')
  if 1 ≤ marks.length ∧ marks.length ≤ 6 ∧ rest.head?.any isJsWhitespace ∧ (rest.dropWhile isJsWhitespace).all isDot then
    some (rest.dropWhile isJsWhitespace)
  else none

def flushQuote : Option (List JsStr) → List JsStr
  | none => []
  | some quoteBuffer => [tag (lit "blockquote") (joinLines quoteBuffer)]

def formatLines : Option (List JsStr) → List JsStr → List JsStr
  | quoteBuffer, [] => flushQuote quoteBuffer
  | quoteBuffer, line :: lines =>
    match quoteBody line with
    | some body => formatLines (some (quoteBuffer.getD [] ++ [body])) lines
    | none =>
      flushQuote quoteBuffer ++
        (match headerBody line with
        | some body => tag (lit "b") body
        | none => line) :: formatLines none lines

/-- `text.replace(/m{k}([^m\n]+)m{k}/g, (_m, body) => tag(name, body))`. -/
def emphasis (marker : UInt16) (k : Nat) (name : JsStr) (text : JsStr) : JsStr :=
  Text.render (fun s => tag name (delimitedBody k s)) (scan (delimited marker k (otherThan marker)) text)

def boldText (text : JsStr) : JsStr := emphasis (ascii '*') 2 (lit "b") text
def italicText (text : JsStr) : JsStr := emphasis (ascii '*') 1 (lit "i") text
def strikeText (text : JsStr) : JsStr := emphasis (ascii '~') 2 (lit "s") text

/-! ### Restoring -/

def placeholderMatch (text : JsStr) : Option Nat :=
  let digits := (text.drop 3).takeWhile isDigit
  if startsWith text (nulUnit :: lit "ph") ∧ digits ≠ [] ∧ text[3 + digits.length]? = some nulUnit then
    some (3 + digits.length + 1)
  else none

/-- `placeholders[Number(i)] ?? ""`. -/
def fragmentAt (placeholders : List JsStr) (s : JsStr) : JsStr :=
  placeholders[digitsValue ((s.drop 3).takeWhile isDigit)]?.getD []

def restore (placeholders : List JsStr) (text : JsStr) : JsStr :=
  Text.render (fragmentAt placeholders) (scan placeholderMatch text)

/-! ### The conversion -/

section

variable (stringWidth : JsStr → Nat) (markdown : JsStr)

/-- The text with everything stashed that is. -/
def protectedMarkdown : Protected :=
  protectLinks (protectCode (convertMarkdownTables stringWidth (protectFences markdown)))

def formattedText : JsStr :=
  joinLines (formatLines none (splitLines (escapeHtml (protectedMarkdown stringWidth markdown).text)))

def markdownToTelegramHtml : JsStr :=
  restore (protectedMarkdown stringWidth markdown).placeholders
    (strikeText (italicText (boldText (formattedText stringWidth markdown))))

end

/-! ### Escaping -/

theorem replaceUnit_append (u : UInt16) (text a b : JsStr) :
    replaceUnit u text (a ++ b) = replaceUnit u text a ++ replaceUnit u text b :=
  flatMap_append

theorem escapeHtml_append (a b : JsStr) : escapeHtml (a ++ b) = escapeHtml a ++ escapeHtml b := by
  simp only [escapeHtml, replaceUnit_append]

theorem mem_replaceUnit_iff {u v text value} (hv : v ≠ u) (htext : v ∉ text) :
    v ∈ replaceUnit u text value ↔ v ∈ value := by
  rw [replaceUnit, mem_flatMap]
  constructor
  · rintro ⟨w, hw, hmem⟩
    split_ifs at hmem
    · exact absurd hmem htext
    · exact mem_singleton.mp hmem ▸ hw
  · intro hmem
    exact ⟨v, hmem, by rw [if_neg hv]; exact mem_singleton_self v⟩

theorem replaceUnit_of_notMem {u text value} (h : u ∉ value) : replaceUnit u text value = value := by
  conv_rhs => rw [← flatMap_singleton' value]
  refine flatMap_congr fun v hv => if_neg ?_
  rintro rfl
  exact h hv

/-! ### What is stashed -/

theorem placeholders_stashHits (html : JsStr → Option JsStr) (placeholders : List JsStr)
    (pieces : List (Piece UInt16)) :
    (stashHits html placeholders pieces).placeholders = placeholders ++ (hits pieces).filterMap html := by
  induction pieces generalizing placeholders with
  | nil => exact (append_nil _).symm
  | cons piece pieces ih =>
    cases piece with
    | unit u => exact ih placeholders
    | hit s =>
      rw [stashHits, hits_hit, filterMap_cons]
      cases html s with
      | none => exact ih placeholders
      | some fragment => exact (ih _).trans (append_assoc _ _ _)

def tablesOf (blocks : List Block) : List Table :=
  blocks.filterMap fun
    | .line _ => none
    | .table table => some table

theorem placeholders_stashTables (stringWidth : JsStr → Nat) (placeholders : List JsStr)
    (blocks : List Block) : (stashTables stringWidth placeholders blocks).1 =
      placeholders ++ (tablesOf blocks).map fun table => table.renderTelegramTable stringWidth := by
  induction blocks generalizing placeholders with
  | nil => exact (append_nil _).symm
  | cons block blocks ih =>
    cases block with
    | line line => exact ih placeholders
    | table table => exact (ih _).trans (append_assoc _ _ _)

end GajaeCode.Telegram
