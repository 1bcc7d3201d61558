import Pintos.Filesys.Tree
import Pintos.Filesys.Session

/-!
# The tree walkers

`path_exists`, `path_isfile` and `path_isdir` follow the components of the reduced absolute path.  They
all compute one resolution of paths.
-/

namespace Pintos.Filesys

open List

/-- What an entry names. -/
def DirEntry.node (e : DirEntry) : Node :=
  if e.isDir then .directory e.inodeSector else .file e.inodeSector

namespace Fs

variable {fs start : Fs} {owner : Owner} {files dirs : Set Nat} {dir : Nat} {held : List (Nat × Ref)} {ref : Ref}
  {cwd path : CString} {names : List CString}

/-- The entry at which a path with at least one component ends. -/
def lastEntry (fs : Fs) : Nat → List CString → Option DirEntry
  | _, [] => none
  | dir, [name] => fs.child dir name
  | dir, name :: next :: rest =>
    match fs.child dir name with
    | none => none
    | some e => if e.isDir then fs.lastEntry e.inodeSector (next :: rest) else none

theorem resolve_eq (fs : Fs) (dir : Nat) (ne_nil : names ≠ []) :
    fs.resolve dir names = (fs.lastEntry dir names).map DirEntry.node := by
  induction names generalizing dir with
  | nil => exact (ne_nil rfl).elim
  | cons name rest ih =>
    cases rest with
    | nil =>
      unfold resolve lastEntry
      cases fs.child dir name with
      | none => rfl
      | some e => simp only [resolve, if_true, Option.map_some, DirEntry.node, apply_ite some]
    | cons next rest =>
      unfold resolve lastEntry
      cases fs.child dir name with
      | none => rfl
      | some e =>
        simp only [reduceCtorEq, if_false]
        split
        · exact ih e.inodeSector (cons_ne_nil _ _)
        · rfl

/-- A loop of a walker closes the directory that it has been given, and finds the last entry. -/
theorem Visit.walk (last : DirEntry → Bool)
    (visit : Visit owner files dirs start fs ((dir, ref) :: held)) (is_dir : dir ∈ dirs)
    (ne_nil : names ≠ [])
    (parts : ∀ name ∈ names, IsComponent name) :
    Returns (start.Compact dirs) (Fs.walk last names fs ref) fun res =>
      Visit owner files dirs start res.1 held ∧ res.2 = (start.lastEntry dir names).any last := by
  induction names generalizing fs dir ref with
  | nil => exact (ne_nil rfl).elim
  | cons name rest ih =>
    have is_valid := (parts name mem_cons_self).valid
    have closes := visit.dirClose is_dir
    cases rest with
    | nil =>
      refine (visit.lookup is_dir mem_cons_self name).bind ?_
      rintro _ rfl
      refine closes.bind ?_
      intro s' visit
      refine .of_some ⟨visit, ?_⟩
      change _ = (start.child dir name).any last
      rw [← child_eq is_valid, Option.any_map]
    | cons next rest =>
      refine (visit.lookup is_dir mem_cons_self name).bind ?_
      rintro _ rfl
      refine closes.bind ?_
      intro s' visit'
      have found := @child_eq start dir name is_valid
      unfold lastEntry
      cases located : entryNamed (start.content dir) name with
      | none =>
        rw [← found, located]
        exact .of_some ⟨visit', rfl⟩
      | some entry =>
        obtain ⟨e, ofs⟩ := entry
        rw [located, Option.map_some] at found
        rw [← found]
        have leads := visit'.child is_dir found.symm
        cases is_directory : e.isDir with
        | false =>
          simp only [is_directory, Bool.false_eq_true, if_false]
          exact .of_some ⟨visit', rfl⟩
        | true =>
          simp only [is_directory, if_true]
          have next_dir := leads.2.2.2 is_directory
          obtain ⟨opened, ref, opens, visit''⟩ := visit'.inodeOpen leads.2.1
          refine .step opens ?_
          exact ih visit'' next_dir (cons_ne_nil _ _)
            fun name mem => parts name (mem_cons_of_mem _ mem)

/-- What a walker returns, and that it leaves the root open if there is no component. -/
theorem Tree.pathWalk (tree : fs.Tree owner files dirs) (atRoot : Bool) (last : DirEntry → Bool)
    (is_abs : pathIsabs cwd = true) (valid : pathIsvalid path = true) :
    Returns (fs.Compact dirs) (Fs.pathWalk atRoot last fs cwd path) fun res =>
      if reducedPath cwd path = [] then
        (∃ ref, Visit owner files dirs fs res.1 [(rootDirSector, ref)]) ∧ res.2 = atRoot
      else
        Visit owner files dirs fs res.1 [] ∧
          res.2 = (fs.lastEntry rootDirSector (reducedPath cwd path)).any last := by
  have parts : ∀ name ∈ reducedPath cwd path, IsComponent name := fun _ mem =>
    isComponent_of_reducedPath is_abs valid mem
  unfold Fs.pathWalk
  rw [if_pos valid, pathAbspath_eq is_abs valid, tokens_pathText parts]
  obtain ⟨opened, ref, opens, visit⟩ := (Visit.refl tree).inodeOpen (tree.listed tree.root)
  refine .step opens ?_
  cases names : reducedPath cwd path with
  | nil => exact .of_some ⟨⟨ref, visit⟩, rfl⟩
  | cons fst rest =>
    rw [names] at parts
    simp only [reduceCtorEq, if_false]
    exact visit.walk last tree.root (cons_ne_nil _ _) parts

/-- A directory tree whose directories fit into their first inodes. -/
def IsTree (fs : Fs) : Prop := ∃ owner files dirs, fs.Tree owner files dirs ∧ fs.Compact dirs

/-- What the three walkers say about a path is what its resolution says. -/
def WalkersResolve (fs : Fs) (cwd path : CString) : Prop :=
  ∃ isdir isfile existing : Bool, (∃ s', fs.pathIsdir cwd path = some (s', isdir)) ∧
    (∃ s', fs.pathIsfile cwd path = some (s', isfile)) ∧
    (∃ s', fs.pathExists cwd path = some (s', existing)) ∧
    (isdir = true ↔ ∃ sector,
      fs.resolve rootDirSector (reducedPath cwd path) = some (.directory sector)) ∧
    (isfile = true ↔ ∃ sector,
      fs.resolve rootDirSector (reducedPath cwd path) = some (.file sector)) ∧
    existing = (isfile || isdir) ∧ ¬ (isfile = true ∧ isdir = true)

/-- The same inodes are open, each with the same `open_cnt`. -/
def SameOpens (fs s' : Fs) : Prop :=
  ∀ sector, (s'.opens sector).map (fun view => (view.ref, view.count)) =
    (fs.opens sector).map fun view => (view.ref, view.count)

/-- The three queries leave the open inodes as they are; where the directories fit into their first
inodes, they return. -/
def QueriesQuiet (fs : Fs) (dirs : Set Nat) (cwd path : CString) : Prop :=
  ∀ query ∈ [pathExists, pathIsfile, pathIsdir],
    Returns (fs.Compact dirs) (query fs cwd path) fun result => SameOpens fs result.1

/-- A walk that holds nothing open leaves the table as it was. -/
theorem Visit.sameOpens (visit : Visit owner files dirs start fs []) : SameOpens start fs := by
  intro sec
  have lent := visit.holds sec
  rw [map_nil, count_nil] at lent
  cases old : start.opens sec with
  | some view =>
    rw [old] at lent
    obtain ⟨isDir, now⟩ := lent
    simp [now]
  | none =>
    rw [old] at lent
    cases now : fs.opens sec with
    | none => rfl
    | some view =>
      rw [now] at lent
      exact absurd lent.2.1 (Nat.lt_irrefl 0)

/-- A walk that holds a directory open has changed the table. -/
theorem Visit.not_sameOpens (visit : Visit owner files dirs start fs [(dir, ref)]) :
    ¬ SameOpens start fs := by
  intro same
  have lent := visit.holds dir
  have eq := same dir
  rw [map_cons, count_cons_self, map_nil, count_nil] at lent
  cases old : start.opens dir with
  | some view =>
    rw [old] at lent eq
    obtain ⟨isDir, now⟩ := lent
    simp [now] at eq
  | none =>
    rw [old] at lent eq
    obtain ⟨view, now⟩ := lent.exists_of_pos Nat.one_pos
    rw [now] at eq
    cases eq

theorem entryAt_zeros (len i : Nat) : entryAt (FlatFile.zeros len) i = Buffer.zeros := by
  funext position
  unfold entryAt Buffer.copy
  split <;> rfl

theorem RootMade.tree {size : Nat} (made : RootMade fs owner size) :
    fs.Tree owner {rootDirSector} {rootDirSector} ∧ fs.Compact {rootDirSector} := by
  obtain ⟨map, node, map_open⟩ := made.map
  have closed : ∀ dir ∈ ({rootDirSector} : Set Nat), fs.opens dir = none := by
    rintro _ rfl
    exact made.closed rootDirSector (by decide)
  refine ⟨⟨made.sound, by simp [map_open.file], rfl, fun _ => id, ?_, ?_⟩, ?_, ?_⟩
  · intro dir is_dir view opened
    cases (closed dir is_dir).symm.trans opened
  · rintro _ rfl i _ in_use
    rw [made.content, entryAt_zeros] at in_use
    cases in_use
  · rintro _ rfl
    rw [made.content]
    decide
  · intro dir is_dir view opened
    cases (closed dir is_dir).symm.trans opened

end Fs

end Pintos.Filesys
