import GajaeCode.Data.FileTree
import GajaeCode.Lsp.Edits

/-! Workspace edits (`lsp/edits.ts`): text edits collected by document and applied first, then
the resource operations; and the execution of the same changes in the order of their list. -/
namespace GajaeCode.Lsp
open Text Data

inductive DocumentChange where
  | edit (uri : JsStr) (edits : List TextEdit)
  | create (uri : JsStr)
  | rename (oldUri newUri : JsStr)
  | delete (uri : JsStr)
  deriving DecidableEq

structure WorkspaceEdit where
  changes : Option (List (JsStr × List TextEdit)) := none
  documentChanges : Option (List DocumentChange) := none

inductive EditError where
  | uri
  | tool (message : JsStr)
  | fs (error : FsError)
  deriving DecidableEq

abbrev Files := FileTree JsStr JsStr

/-- What the platform decides: percent decoding, drive letters, the resolution of a file name to a path
and the spelling of a file name in messages. -/
structure Host where
  decodeURIComponent : JsStr → Option JsStr
  win32 : Bool
  resolvePath : JsStr → List JsStr
  formatPathRelativeToCwd : JsStr → JsStr

/-- `/^[A-Za-z]:/`. -/
def startsWithDrive : JsStr → Bool
  | letter :: colon :: _ =>
    ((0x41 ≤ letter && letter ≤ 0x5a) || (0x61 ≤ letter && letter ≤ 0x7a)) && colon == 0x3a
  | _ => false

def uriToFile (host : Host) (uri : JsStr) : Except EditError JsStr :=
  if startsWith uri (lit "file://") = false then .ok uri
  else match host.decodeURIComponent (uri.drop 7) with
    | none => .error .uri
    | some filePath =>
      .ok (if host.win32 && startsWith filePath (lit "/") && startsWithDrive (filePath.drop 1) then
        filePath.drop 1
      else filePath)

def liftFs {α : Type} : Except FsError α → Except EditError α
  | .ok a => .ok a
  | .error e => .error (.fs e)

def liftTool {α : Type} : Except JsStr α → Except EditError α
  | .ok a => .ok a
  | .error message => .error (.tool message)

def pushEdits (out : List (JsStr × List TextEdit)) (uri : JsStr) (edits : List TextEdit) :
    List (JsStr × List TextEdit) :=
  if edits.length = 0 then out
  else match out.lookup uri with
    | some prev => assocSet uri (prev ++ edits) out
    | none => assocSet uri edits out

def pushChange (out : List (JsStr × List TextEdit)) : DocumentChange → List (JsStr × List TextEdit)
  | .edit uri edits => pushEdits out uri edits
  | _ => out

def flattenWorkspaceTextEdits (edit : WorkspaceEdit) : List (JsStr × List TextEdit) :=
  let out := (edit.changes.getD []).foldl (fun out change => pushEdits out change.1 change.2) []
  (edit.documentChanges.getD []).foldl pushChange out

def applyTextEdits (path : List JsStr) (edits : List TextEdit) (files : Files) : Except EditError Files := do
  let content ← liftFs (files.read path)
  let result ← liftTool (applyTextEditsToString content edits)
  liftFs (files.write path result)

def applyDocument (host : Host) (state : Files × List JsStr) (document : JsStr × List TextEdit) :
    Except EditError (Files × List JsStr) := do
  let filePath ← uriToFile host document.1
  let files ← applyTextEdits (host.resolvePath filePath) document.2 state.1
  return (files, state.2 ++ [lit "Applied " ++ decimal document.2.length ++ lit " edit(s) to " ++
    host.formatPathRelativeToCwd filePath])

/-- One resource operation; text edits are skipped. -/
def applyResource (host : Host) (state : Files × List JsStr) :
    DocumentChange → Except EditError (Files × List JsStr)
  | .edit .. => .ok state
  | .create uri => do
      let filePath ← uriToFile host uri
      let files ← liftFs (state.1.write (host.resolvePath filePath) [])
      return (files, state.2 ++ [lit "Created " ++ host.formatPathRelativeToCwd filePath])
  | .rename oldUri newUri => do
      let oldPath ← uriToFile host oldUri
      let newPath ← uriToFile host newUri
      let files ← liftFs (state.1.mkdirs (host.resolvePath newPath).dropLast)
      let files ← liftFs (files.rename (host.resolvePath oldPath) (host.resolvePath newPath))
      return (files, state.2 ++ [lit "Renamed " ++ host.formatPathRelativeToCwd oldPath ++ lit " → " ++
        host.formatPathRelativeToCwd newPath])
  | .delete uri => do
      let filePath ← uriToFile host uri
      let files ← liftFs (state.1.remove (host.resolvePath filePath))
      return (files, state.2 ++ [lit "Deleted " ++ host.formatPathRelativeToCwd filePath])

def applyWorkspaceEdit (host : Host) (edit : WorkspaceEdit) (files : Files) :
    Except EditError (Files × List JsStr) := do
  let state ← (flattenWorkspaceTextEdits edit).foldlM (applyDocument host) (files, [])
  (edit.documentChanges.getD []).foldlM (applyResource host) state

def pathOf (host : Host) (uri : JsStr) : Option (List JsStr) :=
  (uriToFile host uri).toOption.map host.resolvePath

/-- One change on its own: creates and renames are to paths where nothing stands. -/
def execute (host : Host) (files : Files) : DocumentChange → Option Files
  | .edit uri edits => do
      let path ← pathOf host uri
      (applyTextEdits path edits files).toOption
  | .create uri => do
      let path ← pathOf host uri
      if (files.nodeAt path).isSome then none else (files.write path []).toOption
  | .rename oldUri newUri => do
      let old ← pathOf host oldUri
      let new ← pathOf host newUri
      if (files.nodeAt new).isSome then none
      else (files.mkdirs new.dropLast >>= FileTree.rename old new).toOption
  | .delete uri => do
      let path ← pathOf host uri
      (files.remove path).toOption

def executeAll (host : Host) (files : Files) (changes : List DocumentChange) : Option Files :=
  changes.foldlM (execute host) files

/-- A create or rename after which the file of `path` is a new one. -/
def brings (host : Host) (path : List JsStr) : DocumentChange → Bool
  | .create uri => pathOf host uri == some path
  | .rename _ newUri => (pathOf host newUri).any fun new => FileTree.isBelow new path
  | _ => false

/-- The later change edits a file that the earlier one brings. -/
def EditsBrought (host : Host) (earlier : DocumentChange) : DocumentChange → Prop
  | .edit uri edits => edits ≠ [] ∧ ∃ path, pathOf host uri = some path ∧ brings host path earlier = true
  | _ => False

def editedUri : DocumentChange → Option JsStr
  | .edit uri _ => some uri
  | _ => none

end GajaeCode.Lsp
