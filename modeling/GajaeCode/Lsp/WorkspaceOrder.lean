import GajaeCode.Lsp.WorkspaceEdit

/-! When the collected text edits and the resource operations have the effect of the changes in
their order. -/
namespace GajaeCode.Lsp
open Text Data List FileTree

variable {host : Host} {files next : Files} {change : DocumentChange} {changes : List DocumentChange}

theorem toOption_eq_some_iff {ε α : Type} {x : Except ε α} {a} : x.toOption = some a ↔ x = .ok a := by
  cases x <;> simp [Except.toOption]

theorem liftFs_eq_ok_iff {α x} {a : α} : liftFs x = .ok a ↔ x = .ok a := by
  cases x <;> simp [liftFs]

theorem liftTool_eq_ok_iff {α x} {a : α} : liftTool x = .ok a ↔ x = .ok a := by
  cases x <;> simp [liftTool]

theorem pathOf_eq_some_iff {uri path} :
    pathOf host uri = some path ↔ ∃ filePath, uriToFile host uri = .ok filePath ∧ host.resolvePath filePath = path := by
  rw [pathOf, Option.map_eq_some_iff]
  simp only [toOption_eq_some_iff]

theorem applyTextEdits_eq_ok_iff {path edits} :
    applyTextEdits path edits files = .ok next ↔ ∃ content result, path ≠ [] ∧
      files.HasFile path content ∧ applyTextEditsToString content edits = .ok result ∧
      files.overwrite path result = next := by
  unfold applyTextEdits
  simp only [bind_eq_ok, liftFs_eq_ok_iff, liftTool_eq_ok_iff, read_eq_ok_iff]
  constructor
  · rintro ⟨content, ⟨hpath, hfile⟩, result, hresult, hwrite⟩
    rw [write_of_hasFile hpath hfile] at hwrite
    cases hwrite
    exact ⟨content, result, hpath, hfile, hresult, rfl⟩
  · rintro ⟨content, result, hpath, hfile, hresult, rfl⟩
    exact ⟨content, ⟨hpath, hfile⟩, result, hresult, write_of_hasFile hpath hfile result⟩

theorem execute_no_edits {uri} (h : execute host files (.edit uri []) = some next) : next = files := by
  obtain ⟨path, _, hedit⟩ := Option.bind_eq_some_iff.mp h
  obtain ⟨content, result, _, hfile, hresult, rfl⟩ := applyTextEdits_eq_ok_iff.mp (toOption_eq_some_iff.mp hedit)
  have hsame : applyTextEditsToString content [] = .ok content := by
    simp [applyTextEditsToString, sortEdits, checkOverlaps, joinLines_splitLines, bind, Except.bind, pure, Except.pure]
  cases hsame.symm.trans hresult
  exact overwrite_self hfile

theorem execute_keeps (hchange : editedUri change = none) {path}
    (hbrings : brings host path change = false) {content} (h : execute host files change = some next)
    (hfile : next.HasFile path content) : files.HasFile path content ∧
      ∀ result, execute host (files.overwrite path result) change = some (next.overwrite path result) := by
  cases change with
  | edit uri edits => cases hchange
  | create uri =>
    obtain ⟨made, hmade, h⟩ := Option.bind_eq_some_iff.mp h
    have hne : made ≠ path := by
      rintro rfl
      simp [brings, hmade] at hbrings
    split at h
    next => cases h
    next hnew =>
      obtain ⟨hbefore, hsame⟩ := write_keeps hne [] files next content (toOption_eq_some_iff.mp h) hfile
      refine ⟨hbefore, ?_⟩
      intro result
      refine Option.bind_eq_some_iff.mpr ⟨made, hmade, ?_⟩
      rw [nodeAt_overwrite hne, if_neg hnew, toOption_eq_some_iff]
      exact hsame result
  | rename oldUri newUri =>
    obtain ⟨old, hold, h⟩ := Option.bind_eq_some_iff.mp h
    obtain ⟨new, hnew, h⟩ := Option.bind_eq_some_iff.mp h
    have hbelow : isBelow new path = false := by
      simpa [brings, hnew] using hbrings
    split at h
    next => cases h
    next hfree =>
      have hkeeps : FileTree.Keeps (fun t : Files => t.mkdirs new.dropLast >>= rename old new) path :=
        (mkdirs_keeps new.dropLast).bind (rename_keeps hbelow)
      obtain ⟨hbefore, hsame⟩ := hkeeps files next content (toOption_eq_some_iff.mp h) hfile
      refine ⟨hbefore, ?_⟩
      intro result
      refine Option.bind_eq_some_iff.mpr ⟨old, hold, Option.bind_eq_some_iff.mpr ⟨new, hnew, ?_⟩⟩
      rw [nodeAt_overwrite (ne_of_isBelow_eq_false hbelow), if_neg hfree, toOption_eq_some_iff]
      exact hsame result
  | delete uri =>
    obtain ⟨removed, hremoved, h⟩ := Option.bind_eq_some_iff.mp h
    obtain ⟨hbefore, hsame⟩ := remove_keeps files next content (toOption_eq_some_iff.mp h) hfile
    refine ⟨hbefore, ?_⟩
    intro result
    exact Option.bind_eq_some_iff.mpr ⟨removed, hremoved, toOption_eq_some_iff.mpr (hsame result)⟩

def document? : DocumentChange → Option (JsStr × List TextEdit)
  | .edit uri edits => if edits.length = 0 then none else some (uri, edits)
  | _ => none

def documents (changes : List DocumentChange) : List (JsStr × List TextEdit) := changes.filterMap document?

def resources (changes : List DocumentChange) : List DocumentChange :=
  changes.filter fun change => (editedUri change).isNone

def editOf (document : JsStr × List TextEdit) : DocumentChange := .edit document.1 document.2

/-- Text edits of a file may come before a resource operation that does not bring it. -/
theorem execute_swap {document last} (hchange : editedUri change = none)
    (hbrought : ¬EditsBrought host change (editOf document)) (hedits : document.2 ≠ [])
    (h : execute host files change = some next) (hedit : execute host next (editOf document) = some last) :
    ∃ edited, execute host files (editOf document) = some edited ∧ execute host edited change = some last := by
  obtain ⟨path, hpath, hedit⟩ := Option.bind_eq_some_iff.mp hedit
  obtain ⟨content, result, hne, hfile, hresult, rfl⟩ := applyTextEdits_eq_ok_iff.mp (toOption_eq_some_iff.mp hedit)
  have hbrings : brings host path change = false := by
    rw [Bool.eq_false_iff]
    intro hbrings
    exact hbrought ⟨hedits, path, hpath, hbrings⟩
  obtain ⟨hbefore, hsame⟩ := execute_keeps hchange hbrings h hfile
  refine ⟨files.overwrite path result, ?_, hsame result⟩
  refine Option.bind_eq_some_iff.mpr ⟨path, hpath, toOption_eq_some_iff.mpr ?_⟩
  exact applyTextEdits_eq_ok_iff.mpr ⟨content, result, hne, hbefore, hresult, rfl⟩

theorem executeAll_cons (files : Files) (change : DocumentChange) (changes : List DocumentChange) :
    executeAll host files (change :: changes) = (execute host files change).bind (executeAll host · changes) :=
  foldlM_cons

theorem executeAll_append (files : Files) (first second : List DocumentChange) :
    executeAll host files (first ++ second) = (executeAll host files first).bind (executeAll host · second) :=
  foldlM_append

theorem executeAll_swap {documents : List (JsStr × List TextEdit)} {last} (hchange : editedUri change = none)
    (hdocuments : ∀ document ∈ documents, document.2 ≠ [] ∧ ¬EditsBrought host change (editOf document))
    (h : executeAll host files (change :: documents.map editOf) = some last) :
    executeAll host files (documents.map editOf ++ [change]) = some last := by
  induction documents generalizing files with
  | nil => exact h
  | cons document rest ih =>
    rw [executeAll_cons] at h
    obtain ⟨next, hnext, h⟩ := Option.bind_eq_some_iff.mp h
    rw [map_cons, executeAll_cons] at h
    obtain ⟨edited, hedited, h⟩ := Option.bind_eq_some_iff.mp h
    obtain ⟨⟨hedits, hbrought⟩, hrest⟩ := forall_mem_cons.mp hdocuments
    obtain ⟨before, hbefore, hafter⟩ := execute_swap hchange hbrought hedits hnext hedited
    rw [map_cons, cons_append, executeAll_cons, hbefore]
    apply ih hrest
    rw [executeAll_cons, hafter]
    exact h

theorem mem_documents {document} (h : document ∈ documents changes) : editOf document ∈ changes ∧ document.2 ≠ [] := by
  obtain ⟨change, hchange, hdocument⟩ := mem_filterMap.mp h
  cases change with
  | edit uri edits =>
    rw [document?] at hdocument
    split at hdocument
    next => cases hdocument
    next hlen =>
      cases hdocument
      exact ⟨hchange, fun hnil => hlen (congrArg List.length hnil)⟩
  | create | rename | delete => cases hdocument

/-- The changes in order have the effect of all text edits and then all resource operations. -/
theorem executeAll_documents_resources {last}
    (hbrought : changes.Pairwise fun earlier later => ¬EditsBrought host earlier later)
    (h : executeAll host files changes = some last) :
    executeAll host files ((documents changes).map editOf ++ resources changes) = some last := by
  induction changes generalizing files with
  | nil => exact h
  | cons change rest ih =>
    obtain ⟨hfirst, hrest⟩ := pairwise_cons.mp hbrought
    obtain ⟨next, hnext, h⟩ := Option.bind_eq_some_iff.mp h
    have hmoved := ih hrest h
    cases hchange : editedUri change with
    | some uri =>
      cases change with
      | edit uri' edits =>
        cases edits with
        | nil =>
          rw [execute_no_edits hnext] at hmoved
          exact hmoved
        | cons edit edits =>
          have hdocuments : documents (.edit uri' (edit :: edits) :: rest) =
            (uri', edit :: edits) :: documents rest := rfl
          rw [hdocuments, map_cons, cons_append, executeAll_cons, editOf, hnext]
          exact hmoved
      | create | rename | delete => cases hchange
    | none =>
      have hdocuments : documents (change :: rest) = documents rest := by
        cases change with
        | edit => cases hchange
        | create | rename | delete => rfl
      have hresources : resources (change :: rest) = change :: resources rest := by
        rw [resources, filter_cons, hchange]
        rfl
      rw [executeAll_append] at hmoved
      obtain ⟨edited, hedited, hmoved⟩ := Option.bind_eq_some_iff.mp hmoved
      have hswap : executeAll host files ((documents rest).map editOf ++ [change]) = some edited := by
        apply executeAll_swap hchange
        · intro document hdocument
          obtain ⟨hmem, hedits⟩ := mem_documents hdocument
          exact ⟨hedits, hfirst _ hmem⟩
        · rw [executeAll_cons, hnext]
          exact hedited
      rw [hdocuments, hresources, append_cons, executeAll_append, hswap]
      exact hmoved

theorem foldl_pushChange {out} (hnodup : (changes.filterMap editedUri).Nodup)
    (hout : ∀ uri ∈ changes.filterMap editedUri, out.lookup uri = none) :
    changes.foldl pushChange out = out ++ documents changes := by
  induction changes generalizing out with
  | nil => simp [documents]
  | cons change rest ih =>
    cases change with
    | edit uri edits =>
      obtain ⟨hnew, hrest⟩ := nodup_cons.mp hnodup
      have huri := hout uri mem_cons_self
      rw [foldl_cons, pushChange, pushEdits]
      by_cases hedits : edits.length = 0
      · rw [if_pos hedits, ih hrest (forall_mem_cons.mp hout).2, documents,
          documents, filterMap_cons, document?, if_pos hedits]
      · rw [if_neg hedits, huri]
        rw [assocSet_of_lookup_none huri, ih hrest, documents, documents, filterMap_cons, document?,
          if_neg hedits, append_assoc, singleton_append]
        intro other hother
        have hne : other ≠ uri := by
          rintro rfl
          exact hnew hother
        rw [lookup_append, hout other (mem_cons_of_mem _ hother), lookup_cons, beq_false_of_ne hne]
        rfl
    | create | rename | delete => exact ih hnodup hout

theorem foldlM_applyDocument {documents : List (JsStr × List TextEdit)} {last} (applied : List JsStr)
    (h : executeAll host files (documents.map editOf) = some last) :
    ∃ descriptions, documents.foldlM (applyDocument host) (files, applied) = .ok (last, descriptions) := by
  induction documents generalizing files applied with
  | nil =>
    cases h
    exact ⟨applied, rfl⟩
  | cons document rest ih =>
    obtain ⟨next, hnext, h⟩ := Option.bind_eq_some_iff.mp h
    obtain ⟨path, hpath, hedit⟩ := Option.bind_eq_some_iff.mp hnext
    obtain ⟨filePath, hfilePath, rfl⟩ := pathOf_eq_some_iff.mp hpath
    have hdocument : ∃ messages, applyDocument host (files, applied) document = .ok (next, messages) := by
      unfold applyDocument
      rw [hfilePath]
      simp only [toOption_eq_some_iff] at hedit
      exact ⟨_, by simp [hedit, bind, Except.bind, pure, Except.pure]; rfl⟩
    obtain ⟨messages, hdocument⟩ := hdocument
    obtain ⟨descriptions, hrest⟩ := ih messages h
    exact ⟨descriptions, by rw [foldlM_cons, hdocument]; exact hrest⟩

theorem applyResource_of_execute (hchange : editedUri change = none) (applied : List JsStr)
    (h : execute host files change = some next) :
    ∃ descriptions, applyResource host (files, applied) change = .ok (next, descriptions) := by
  cases change with
  | edit => cases hchange
  | create uri =>
    obtain ⟨path, hpath, h⟩ := Option.bind_eq_some_iff.mp h
    obtain ⟨filePath, hfilePath, rfl⟩ := pathOf_eq_some_iff.mp hpath
    split at h
    next => cases h
    next =>
      rw [toOption_eq_some_iff] at h
      rw [applyResource, hfilePath]
      simp [h, liftFs, bind, Except.bind, pure, Except.pure]
  | rename oldUri newUri =>
    obtain ⟨old, hold, h⟩ := Option.bind_eq_some_iff.mp h
    obtain ⟨new, hnew, h⟩ := Option.bind_eq_some_iff.mp h
    obtain ⟨oldPath, holdPath, rfl⟩ := pathOf_eq_some_iff.mp hold
    obtain ⟨newPath, hnewPath, rfl⟩ := pathOf_eq_some_iff.mp hnew
    split at h
    next => cases h
    next =>
      obtain ⟨made, hmade, hrename⟩ := bind_eq_ok.mp (toOption_eq_some_iff.mp h)
      rw [applyResource, holdPath, hnewPath]
      simp [hmade, hrename, liftFs, bind, Except.bind, pure, Except.pure]
  | delete uri =>
    obtain ⟨path, hpath, h⟩ := Option.bind_eq_some_iff.mp h
    obtain ⟨filePath, hfilePath, rfl⟩ := pathOf_eq_some_iff.mp hpath
    rw [toOption_eq_some_iff] at h
    rw [applyResource, hfilePath]
    simp [h, liftFs, bind, Except.bind, pure, Except.pure]

theorem foldlM_applyResource {last} (applied : List JsStr)
    (h : executeAll host files (resources changes) = some last) :
    ∃ descriptions, changes.foldlM (applyResource host) (files, applied) = .ok (last, descriptions) := by
  induction changes generalizing files applied with
  | nil =>
    cases h
    exact ⟨applied, rfl⟩
  | cons change rest ih =>
    rw [resources, filter_cons] at h
    split at h
    next hchange =>
      obtain ⟨next, hnext, h⟩ := Option.bind_eq_some_iff.mp h
      obtain ⟨messages, hmessages⟩ := applyResource_of_execute (by simpa using hchange) applied hnext
      obtain ⟨descriptions, hrest⟩ := ih messages h
      refine ⟨descriptions, ?_⟩
      rw [foldlM_cons, hmessages]
      exact hrest
    next hchange =>
      obtain ⟨descriptions, hrest⟩ := ih applied h
      refine ⟨descriptions, ?_⟩
      cases change with
      | edit uri edits => exact hrest
      | create | rename | delete => exact absurd rfl hchange

/-- Changes that can be executed in order, with at most one text edit per URI and none of a file that an
earlier create or rename brings, have that effect. -/
theorem applyWorkspaceEdit_in_order (host : Host) (files last : Files) (changes : List DocumentChange)
    (hone : (changes.filterMap editedUri).Nodup) (hexecute : executeAll host files changes = some last)
    (hbrought : changes.Pairwise fun earlier later => ¬EditsBrought host earlier later) :
    ∃ applied, applyWorkspaceEdit host ⟨none, some changes⟩ files = .ok (last, applied) := by
  have hflatten : flattenWorkspaceTextEdits ⟨none, some changes⟩ = documents changes :=
    foldl_pushChange hone fun _ _ => rfl
  have hordered := executeAll_documents_resources hbrought hexecute
  rw [executeAll_append] at hordered
  obtain ⟨edited, hedited, hresources⟩ := Option.bind_eq_some_iff.mp hordered
  obtain ⟨messages, hdocuments⟩ := foldlM_applyDocument [] hedited
  obtain ⟨applied, hall⟩ := foldlM_applyResource messages hresources
  refine ⟨applied, ?_⟩
  rw [applyWorkspaceEdit, hflatten, hdocuments]
  exact hall

def plainHost : Host := ⟨fun _ => none, false, fun name => [name], id⟩

theorem applyWorkspaceEdit_edit_then_rename : ∃ applied, applyWorkspaceEdit plainHost
      ⟨none, some [.edit (lit "a") [⟨⟨⟨0, 0⟩, ⟨0, 0⟩⟩, lit "x"⟩], .rename (lit "a") (lit "b"), .create (lit "c")]⟩
      [([lit "a"], .file (lit "y"))] = .ok ([([lit "b"], .file (lit "xy")), ([lit "c"], .file [])], applied) := by
  apply applyWorkspaceEdit_in_order
  · decide +kernel
  · decide +kernel
  · simp [EditsBrought]

/-- A file is created and then gets its text: the text edit is tried before the file is there. -/
theorem applyWorkspaceEdit_create_then_edit :
    executeAll plainHost [] [.create (lit "a"), .edit (lit "a") [⟨⟨⟨0, 0⟩, ⟨0, 0⟩⟩, lit "x"⟩]] =
        some [([lit "a"], .file (lit "x"))] ∧ applyWorkspaceEdit plainHost
        ⟨none, some [.create (lit "a"), .edit (lit "a") [⟨⟨⟨0, 0⟩, ⟨0, 0⟩⟩, lit "x"⟩]]⟩ [] =
        .error (.fs .notFound) := by
  decide +kernel

end GajaeCode.Lsp
