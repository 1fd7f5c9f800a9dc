import GajaeCode.Data.Fallible
import GajaeCode.Data.InsertionMap

/-! Trees of files and directories by path, their operations, and the operations that leave a
file where it is. -/
namespace GajaeCode.Data
open List

variable {ν γ : Type} [DecidableEq ν]

inductive Node (γ : Type) where
  | file (content : γ)
  | directory
  deriving DecidableEq

inductive FsError where
  | notFound
  | isDirectory
  | notDirectory
  | notEmpty
  | invalid
  deriving DecidableEq

/-- The nodes of a tree by their path from the root, which is a directory. -/
abbrev FileTree (ν γ : Type) := List (List ν × Node γ)

namespace FileTree

def isBelow (above path : List ν) : Bool := above.isPrefixOf path

def nodeAt (t : FileTree ν γ) (path : List ν) : Option (Node γ) :=
  if path = [] then some .directory else t.lookup path

def read (t : FileTree ν γ) (path : List ν) : Except FsError γ :=
  match t.nodeAt path with
  | some (.file content) => .ok content
  | some .directory => .error .isDirectory
  | none => .error .notFound

/-- The directories of a path below `above`, made where they are missing. -/
def mkdirsFrom : FileTree ν γ → List ν → List ν → Except FsError (FileTree ν γ)
  | t, _, [] => .ok t
  | t, above, name :: rest =>
    match t.lookup (above ++ [name]) with
    | none => mkdirsFrom (t ++ [(above ++ [name], .directory)]) (above ++ [name]) rest
    | some .directory => mkdirsFrom t (above ++ [name]) rest
    | some (.file _) => .error .notDirectory

def mkdirs (path : List ν) (t : FileTree ν γ) : Except FsError (FileTree ν γ) := mkdirsFrom t [] path

def write (path : List ν) (content : γ) (t : FileTree ν γ) : Except FsError (FileTree ν γ) :=
  match t.nodeAt path with
  | some .directory => .error .isDirectory
  | some (.file _) => .ok (assocSet path (.file content) t)
  | none => do
      let t ← t.mkdirs path.dropLast
      return t ++ [(path, .file content)]

def remove (path : List ν) (t : FileTree ν γ) : Except FsError (FileTree ν γ) :=
  if path = [] then .error .invalid
  else match t.lookup path with
    | none => .error .notFound
    | some _ => .ok (t.filter fun entry => !isBelow path entry.1)

/-- The path of a node after its ancestor `old` has become `new`. -/
def moved (old new path : List ν) : List ν :=
  if isBelow old path then new ++ path.drop old.length else path

/-- What may stand at the new path of a node: nothing, a file for a file, or an empty directory for a
directory. -/
def checkTarget (t : FileTree ν γ) (node : Node γ) (new : List ν) : Except FsError Unit :=
  match t.lookup new, node with
  | none, _ => .ok ()
  | some (.file _), .file _ => .ok ()
  | some .directory, .file _ => .error .isDirectory
  | some (.file _), .directory => .error .notDirectory
  | some .directory, .directory =>
    if t.any fun entry => isBelow new entry.1 && entry.1 != new then .error .notEmpty else .ok ()

def relocate (old new : List ν) (t : FileTree ν γ) : FileTree ν γ :=
  (t.filter fun entry => entry.1 != new).map fun entry => (moved old new entry.1, entry.2)

def rename (old new : List ν) (t : FileTree ν γ) : Except FsError (FileTree ν γ) :=
  if old = [] ∨ new = [] then .error .invalid
  else match t.lookup old, t.nodeAt new.dropLast with
    | none, _ => .error .notFound
    | some _, none => .error .notFound
    | some _, some (.file _) => .error .notDirectory
    | some node, some .directory =>
      if old = new then .ok t
      else if isBelow old new then .error .invalid
      else do
        t.checkTarget node new
        return relocate old new t

section
variable {t u : FileTree ν γ} {path other : List ν} {content : γ}

def HasFile (t : FileTree ν γ) (path : List ν) (content : γ) : Prop :=
  t.lookup path = some (.file content)

def overwrite (path : List ν) (content : γ) (t : FileTree ν γ) : FileTree ν γ :=
  assocSet path (.file content) t

/-- An operation that leaves the file at `path` alone: the file was there before, and a new content for
it may come before or after. -/
def Keeps (operation : FileTree ν γ → Except FsError (FileTree ν γ)) (path : List ν) : Prop :=
  ∀ t u content, operation t = .ok u → HasFile u path content →
    HasFile t path content ∧ ∀ next, operation (overwrite path next t) = .ok (overwrite path next u)

theorem read_eq_ok_iff : t.read path = .ok content ↔ path ≠ [] ∧ t.HasFile path content := by
  unfold read nodeAt HasFile
  by_cases hpath : path = []
  · simp [hpath]
  · rw [if_neg hpath]
    cases t.lookup path with
    | none => simp
    | some node => cases node <;> simp [hpath]

theorem write_of_hasFile (hpath : path ≠ []) (h : t.HasFile path content) (next : γ) :
    t.write path next = .ok (t.overwrite path next) := by
  unfold write nodeAt
  rw [if_neg hpath, h]
  rfl

theorem overwrite_self (h : t.HasFile path content) : t.overwrite path content = t := by
  unfold HasFile at h
  rcases assocSet_cases path (.file content) t with ⟨hnew, -⟩ | ⟨before, node, after, hbefore, rfl, heq⟩
  · rw [lookup_eq_none_of_notMem hnew] at h
    cases h
  · rw [lookup_append, lookup_eq_none_of_notMem hbefore, lookup_cons, beq_self_eq_true] at h
    cases h
    exact heq

theorem nodeAt_overwrite (hne : other ≠ path) (next : γ) : (t.overwrite path next).nodeAt other = t.nodeAt other := by
  rw [overwrite, nodeAt, nodeAt, lookup_assocSet, if_neg hne]

theorem Keeps.bind {first second : FileTree ν γ → Except FsError (FileTree ν γ)} (hfirst : Keeps first path)
    (hsecond : Keeps second path) : Keeps (fun t => first t >>= second) path := by
  intro t u content h hu
  obtain ⟨v, hv, hvu⟩ := bind_eq_ok.mp h
  obtain ⟨hlookup, hsame⟩ := hsecond v u content hvu hu
  obtain ⟨hlookup', hsame'⟩ := hfirst t v content hv hlookup
  refine ⟨hlookup', ?_⟩
  intro next
  exact bind_eq_ok.mpr ⟨_, hsame' next, hsame next⟩

theorem assocSet_append (hpath : (t.lookup path).isSome) (node : Node γ) (u : FileTree ν γ) :
    assocSet path node (t ++ u) = assocSet path node t ++ u := by
  rw [isSome_lookup_iff] at hpath
  induction t with
  | nil => cases hpath
  | cons entry t ih =>
    rw [cons_append, assocSet, assocSet]
    split
    next => rfl
    next hne => rw [ih ((mem_cons.mp hpath).resolve_left (Ne.symm hne)), cons_append]

theorem mkdirsFrom_keeps (above rest : List ν) : Keeps (fun t : FileTree ν γ => mkdirsFrom t above rest) path := by
  induction rest generalizing above with
  | nil =>
    intro t u content h hu
    cases h
    exact ⟨hu, fun next => rfl⟩
  | cons name rest ih =>
    intro t u content h hu
    simp only [mkdirsFrom] at h ⊢
    cases hname : t.lookup (above ++ [name]) with
    | none =>
      rw [hname] at h
      obtain ⟨hlookup, hsame⟩ := ih (above ++ [name]) _ u content h hu
      have hfile : t.lookup path = some (.file content) := by
        rw [HasFile, lookup_append, Option.or_eq_some_iff] at hlookup
        rcases hlookup with hlookup | ⟨_, hlookup⟩
        · exact hlookup
        · rw [lookup_cons] at hlookup
          split at hlookup <;> cases hlookup
      refine ⟨hfile, ?_⟩
      intro next
      have hne : above ++ [name] ≠ path := by
        rintro rfl
        rw [hname] at hfile
        cases hfile
      rw [overwrite, lookup_assocSet, if_neg hne, hname]
      have hnext := hsame next
      rwa [overwrite, assocSet_append (by simp [hfile])] at hnext
    | some node =>
      cases node with
      | file _ =>
        rw [hname] at h
        cases h
      | directory =>
        rw [hname] at h
        obtain ⟨hlookup, hsame⟩ := ih (above ++ [name]) t u content h hu
        refine ⟨hlookup, ?_⟩
        intro next
        have hne : above ++ [name] ≠ path := by
          rintro rfl
          rw [HasFile, hname] at hlookup
          cases hlookup
        rw [overwrite, lookup_assocSet, if_neg hne, hname]
        exact hsame next

theorem mkdirs_keeps (made : List ν) : Keeps (mkdirs made : FileTree ν γ → _) path :=
  mkdirsFrom_keeps [] made

theorem assocSet_comm (hne : path ≠ other) (hpath : (t.lookup path).isSome) (node node' : Node γ) :
    assocSet other node' (assocSet path node t) = assocSet path node (assocSet other node' t) := by
  rw [isSome_lookup_iff] at hpath
  induction t with
  | nil => cases hpath
  | cons entry t ih =>
    by_cases hentry : entry.1 = path
    · simp [assocSet, hentry, hne]
    · by_cases hentry' : entry.1 = other
      · simp [assocSet, hentry', Ne.symm hne]
      · simp [assocSet, hentry, hentry', ih ((mem_cons.mp hpath).resolve_left (Ne.symm hentry))]

theorem write_keeps (hne : other ≠ path) (content : γ) : Keeps (write other content) path := by
  intro t u old h hu
  unfold write at h ⊢
  simp only [nodeAt_overwrite hne]
  cases hnode : t.nodeAt other with
  | some node =>
    cases node with
    | directory =>
      rw [hnode] at h
      cases h
    | file _ =>
      rw [hnode] at h
      cases h
      rw [HasFile, lookup_assocSet, if_neg hne.symm] at hu
      exact ⟨hu, fun next => congrArg Except.ok (assocSet_comm hne.symm (by simp [hu]) _ _)⟩
  | none =>
    rw [hnode] at h
    obtain ⟨v, hv, hvu⟩ := bind_eq_ok.mp h
    cases pure_eq_ok.mp hvu
    have hlookup : v.lookup path = some (.file old) := by
      rw [HasFile, lookup_append, Option.or_eq_some_iff] at hu
      rcases hu with hu | ⟨_, hu⟩
      · exact hu
      · simp [lookup_cons, beq_false_of_ne hne.symm] at hu
    obtain ⟨hfile, hsame⟩ := mkdirs_keeps other.dropLast t v old hv hlookup
    refine ⟨hfile, ?_⟩
    intro next
    refine bind_eq_ok.mpr ⟨_, hsame next, ?_⟩
    rw [overwrite, overwrite, assocSet_append (by simp [hlookup])]
    rfl

variable (keep : List ν → Bool)

theorem filter_assocSet (h : keep path = true) (node : Node γ) :
    (assocSet path node t).filter (fun entry => keep entry.1) =
      assocSet path node (t.filter fun entry => keep entry.1) := by
  induction t with
  | nil => simp [assocSet, h]
  | cons entry t ih =>
    rw [assocSet]
    by_cases hentry : entry.1 = path
    · simp [hentry, h, assocSet]
    · rw [if_neg hentry, filter_cons, filter_cons]
      split
      next => rw [assocSet, if_neg hentry, ih]
      next => exact ih

theorem isBelow_self (path : List ν) : isBelow path path = true :=
  isPrefixOf_iff_prefix.mpr (prefix_refl path)

theorem ne_of_isBelow_eq_false (h : isBelow other path = false) : other ≠ path := by
  rintro rfl
  rw [isBelow_self] at h
  cases h

theorem remove_keeps : Keeps (remove other : FileTree ν γ → _) path := by
  intro t u content h hu
  unfold remove at h ⊢
  split at h
  next => cases h
  next hother =>
    cases hnode : t.lookup other with
    | none =>
      rw [hnode] at h
      cases h
    | some node =>
      rw [hnode] at h
      cases h
      rw [HasFile, lookup_filter_keys fun q => !isBelow other q] at hu
      split_ifs at hu with hkeep
      have hne : other ≠ path := ne_of_isBelow_eq_false (by simpa using hkeep)
      refine ⟨hu, ?_⟩
      intro next
      rw [if_neg hother, overwrite, lookup_assocSet, if_neg hne, hnode]
      exact congrArg Except.ok (filter_assocSet (fun q => !isBelow other q) hkeep _)

section
variable {old new : List ν} (hnew : isBelow new path = false)
include hnew

theorem moved_eq_iff (q : List ν) : moved old new q = path ↔ q = path ∧ isBelow old path = false := by
  unfold moved
  split
  next hold =>
    refine iff_of_false ?_ ?_
    · rintro rfl
      rw [Bool.eq_false_iff] at hnew
      exact hnew (List.isPrefixOf_iff_prefix.mpr (prefix_append _ _))
    · rintro ⟨rfl, hpath⟩
      rw [hold] at hpath
      cases hpath
  next hold =>
    constructor
    · rintro rfl
      exact ⟨rfl, Bool.eq_false_iff.mpr hold⟩
    · exact And.left

theorem lookup_map_moved {node}
    (h : List.lookup path (t.map fun entry => (moved old new entry.1, entry.2)) = some node) :
    isBelow old path = false ∧ t.lookup path = some node := by
  induction t with
  | nil => cases h
  | cons entry t ih =>
    rw [map_cons, lookup_cons] at h
    by_cases hentry : moved old new entry.1 = path
    · obtain ⟨hpath, hold⟩ := (moved_eq_iff hnew entry.1).mp hentry
      refine ⟨hold, ?_⟩
      rw [hentry, beq_self_eq_true] at h
      rw [lookup_cons, hpath, beq_self_eq_true]
      exact h
    · rw [beq_false_of_ne (Ne.symm hentry)] at h
      obtain ⟨hold, hlookup⟩ := ih h
      refine ⟨hold, ?_⟩
      have hne : path ≠ entry.1 := by
        intro hpath
        exact hentry ((moved_eq_iff hnew entry.1).mpr ⟨hpath.symm, hold⟩)
      rw [lookup_cons, beq_false_of_ne hne]
      exact hlookup

theorem map_moved_assocSet (hold : isBelow old path = false) (node : Node γ) :
    (assocSet path node t).map (fun entry => (moved old new entry.1, entry.2)) =
      assocSet path node (t.map fun entry => (moved old new entry.1, entry.2)) := by
  have hmoved : ∀ q, moved old new q = path ↔ q = path := by
    intro q
    rw [moved_eq_iff hnew, and_iff_left hold]
  induction t with
  | nil => simp [assocSet, (hmoved path).mpr rfl]
  | cons entry t ih =>
    by_cases hentry : entry.1 = path
    · simp [assocSet, hentry, (hmoved path).mpr rfl]
    · simp [assocSet, hentry, mt (hmoved entry.1).mp hentry, ih]

end

theorem any_assocSet (hpath : (t.lookup path).isSome) (test : List ν → Bool) (node : Node γ) :
    (assocSet path node t).any (fun entry => test entry.1) = t.any fun entry => test entry.1 := by
  have hkeys := map_fst_assocSet_of_mem (isSome_lookup_iff.mp hpath) node
  simpa [any_map, Function.comp_def] using congrArg (List.any · test) hkeys

theorem checkTarget_assocSet (hpath : (t.lookup path).isSome) (hne : other ≠ path) (moving node : Node γ) :
    FileTree.checkTarget (assocSet path node t) moving other = t.checkTarget moving other := by
  unfold checkTarget
  rw [lookup_assocSet, if_neg hne, any_assocSet hpath fun q => isBelow other q && q != other]

theorem nodeAt_directory_assocSet (hpath : t.lookup path = some (.file content))
    (hother : t.nodeAt other = some .directory) (next : γ) :
    FileTree.nodeAt (assocSet path (.file next) t) other = some .directory := by
  unfold nodeAt at hother ⊢
  split
  next => rfl
  next hne =>
    rw [if_neg hne] at hother
    have hdiff : other ≠ path := by
      rintro rfl
      rw [hpath] at hother
      cases hother
    rw [lookup_assocSet, if_neg hdiff, hother]

theorem rename_eq_ok_iff {old new} :
    rename old new t = .ok u ↔ (old ≠ [] ∧ new ≠ []) ∧ ∃ node, t.lookup old = some node ∧
      t.nodeAt new.dropLast = some .directory ∧ ((old = new ∧ t = u) ∨ (old ≠ new ∧
        isBelow old new = false ∧ t.checkTarget node new = .ok () ∧ relocate old new t = u)) := by
  unfold rename
  by_cases hnil : old = [] ∨ new = []
  · rw [if_pos hnil]
    refine iff_of_false (by simp) ?_
    rintro ⟨⟨hold, hnew⟩, _⟩
    exact hnil.elim hold hnew
  · rw [if_neg hnil]
    have hne : old ≠ [] ∧ new ≠ [] := not_or.mp hnil
    cases t.lookup old with
    | none => simp
    | some node =>
      cases t.nodeAt new.dropLast with
      | none => simp
      | some parent =>
        cases parent with
        | file _ => simp
        | directory =>
          by_cases hsame : old = new
          · simp [hsame, hne.2]
          · by_cases hbelow : isBelow old new = true
            · simp [hsame, hbelow]
            · cases hcheck : t.checkTarget node new with
              | error e => simp [hsame, hbelow, hcheck, bind, Except.bind]
              | ok _ =>
                simp [hsame, hbelow, hcheck, hne, bind, Except.bind, pure, Except.pure]

theorem rename_keeps {old new} (hnew : isBelow new path = false) : Keeps (rename old new : FileTree ν γ → _) path := by
  intro t u content h hu
  have hnewPath := ne_of_isBelow_eq_false hnew
  obtain ⟨hnil, node, hnode, hparent, hcases⟩ := rename_eq_ok_iff.mp h
  rcases hcases with ⟨hsame, rfl⟩ | ⟨hsame, hbelow, hcheck, rfl⟩
  · refine ⟨hu, ?_⟩
    intro next
    refine rename_eq_ok_iff.mpr ⟨hnil, node, ?_, nodeAt_directory_assocSet hu hparent next, .inl ⟨hsame, rfl⟩⟩
    rw [overwrite, lookup_assocSet, if_neg (hsame ▸ hnewPath), hnode]
  · obtain ⟨hold, hlookup⟩ := lookup_map_moved hnew hu
    rw [lookup_filter_keys fun q => q != new, if_pos (by simpa using hnewPath.symm)] at hlookup
    refine ⟨hlookup, ?_⟩
    intro next
    refine rename_eq_ok_iff.mpr
      ⟨hnil, node, ?_, nodeAt_directory_assocSet hlookup hparent next, .inr ⟨hsame, hbelow, ?_, ?_⟩⟩
    · rw [overwrite, lookup_assocSet, if_neg (ne_of_isBelow_eq_false hold), hnode]
    · rw [overwrite, checkTarget_assocSet (by simp [hlookup]) hnewPath, hcheck]
    · unfold relocate overwrite
      rw [filter_assocSet (fun q => q != new) (by simpa using hnewPath.symm), map_moved_assocSet hnew hold]

end

end FileTree

end GajaeCode.Data
