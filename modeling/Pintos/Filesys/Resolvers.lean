import Pintos.Filesys.Leaf
import Pintos.Filesys.Walkers

/-!
# The two path resolvers

`filesys_open` finds the directory of a path with `dir_get_leaf`, which does not tell a missing
directory from a directory that it has reached, and then looks for the last component.  It agrees
with `path_exists` under conditions that are stated here exactly.
-/

namespace Pintos.Filesys

open Function Tokens Option List

/-- The sector of the inode of a node. -/
def Node.sector : Node → Nat
  | .directory sector | .file sector => sector

namespace Fs

variable {fs start s' : Fs} {owner : Owner} {files dirs : Set Nat} {dir last tmp file : Nat}
  {held : List (Nat × Ref)} {ref : Ref} {cwd path name : CString} {names front : List CString}

/-- The last directory that a path reaches. -/
def reached (fs : Fs) : Nat → List CString → Nat
  | dir, [] => dir
  | dir, name :: rest =>
    match fs.child dir name with
    | some e => if e.isDir then fs.reached e.inodeSector rest else dir
    | none => dir

theorem resolve_concat (fs : Fs) (dir : Nat) (front : List CString) (last : CString) :
    fs.resolve dir (front ++ [last]) =
      match fs.resolve dir front with
      | some (.directory sector) => (fs.child sector last).map DirEntry.node
      | _ => none := by
  induction front generalizing dir with
  | nil => exact resolve_eq fs dir (cons_ne_nil _ _)
  | cons name rest ih =>
    rw [cons_append]
    unfold resolve
    cases fs.child dir name with
    | none => rfl
    | some e =>
      simp only [append_eq_nil_iff, cons_ne_nil, and_false, if_false]
      cases e.isDir with
      | true => exact ih e.inodeSector
      | false => by_cases single : rest = [] <;> simp [single]

theorem reached_of_resolve (leads : fs.resolve dir names = some (.directory file)) :
    fs.reached dir names = file := by
  induction names generalizing dir with
  | nil =>
    cases leads
    rfl
  | cons name rest ih =>
    unfold resolve at leads
    unfold reached
    cases found : fs.child dir name with
    | none => simp [found] at leads
    | some e =>
      rw [found] at leads
      cases is_dir : e.isDir with
      | true =>
        simp only [is_dir, if_true] at leads ⊢
        exact ih leads
      | false =>
        simp only [is_dir, Bool.false_eq_true, if_false] at leads
        split at leads <;> cases leads

theorem leafOutcome_fst (inside : ∀ token ∈ names, token ≠ name)
    (ends : name.getLast? ≠ some slash) :
    (fs.leafOutcome name names last tmp).1 = some (fs.reached tmp names) := by
  induction names generalizing last tmp with
  | nil => simp [leafOutcome, reached, ends]
  | cons token rest ih =>
    unfold leafOutcome reached
    have ne := inside token mem_cons_self
    cases fs.child tmp token with
    | none => simp [ne]
    | some e =>
      cases is_dir : e.isDir with
      | true =>
        simp only [is_dir, if_true]
        exact ih fun token mem => inside token (mem_cons_of_mem _ mem)
      | false => simp [is_dir, ne]

/-- For an absolute path `dir_get_leaf` returns the last directory that is reached. -/
theorem leafOf_pathText (parts : ∀ name ∈ names, IsComponent name) :
    (fs.leafOf (pathText names)).1 = some (fs.reached rootDirSector names) := by
  have is_abs := pathIsabs_iff.mp (pathIsabs_pathText parts)
  rw [leafOf, if_pos is_abs.1, tokens_pathText parts]
  by_cases empty : names = []
  · subst empty
    rfl
  · refine leafOutcome_fst ?_ (getLast_pathText parts empty)
    rintro token mem rfl
    exact (parts _ mem).1.2 (mem_of_head? is_abs.2)

theorem Visit.setIsDir (visit : Visit owner files dirs start fs held) (named : file ∈ files)
    (holding : (file, ref) ∈ held) (isDir : Bool) : ∃ node, fs.inodes ref = some node ∧
      Visit owner files dirs start (fs.setInode ref { node with isDir }) held := by
  obtain ⟨view, is_open, rfl⟩ := visit.refs _ holding
  obtain ⟨node, here⟩ := visit.tree.sound.present named is_open
  obtain ⟨sound, table⟩ := visit.tree.sound.touch here { node with isDir } rfl here.opened.counted
  have now : viewOf view.ref { node with isDir } = { view with isDir } := by
    rw [← here.isView]
    rfl
  rw [now] at table
  have quiet : Quiet fs (fs.setInode view.ref { node with isDir }) := rfl
  have ages : Ages fs (fs.setInode view.ref { node with isDir }) :=
    .of_update (Nat.le_refl _) rfl (fun o _ ne => update_of_ne ne _ _)
      (by simp [here.listed.2]) here.notMap fun _ => visit.tree.sound.map_lt
  refine ⟨node, here.listed.2, ?_, visit.quiet.trans quiet, visit.ages.trans ages, visit.counted, ?_,
    ?_⟩
  · refine visit.tree.quiet quiet ages sound ?_
    intro o is_dir other_view other_open
    by_cases same : o = file
    · subst same
      rw [table, update_self] at other_open
      cases other_open
      exact visit.tree.kept o is_dir view is_open
    · rw [table, update_of_ne same] at other_open
      exact visit.tree.kept o is_dir other_view other_open
  · intro o
    have lent := visit.holds o
    by_cases same : o = file
    · subst same
      rw [is_open] at lent
      rw [table, update_self]
      cases old : start.opens o with
      | none =>
        rw [old] at lent
        exact lent
      | some fst =>
        rw [old] at lent
        obtain ⟨_, is_view⟩ := lent
        cases is_view
        exact ⟨isDir, rfl⟩
    · rw [table, update_of_ne same]
      exact lent
  · intro item mem
    obtain ⟨fst, old, is_ref⟩ := visit.refs item mem
    by_cases same : item.1 = file
    · rw [same] at old ⊢
      obtain rfl := some.inj (is_open.symm.trans old)
      rw [OpenAs, table, update_self]
      exact ⟨_, rfl, is_ref⟩
    · refine ⟨fst, ?_, is_ref⟩
      rw [table, update_of_ne same]
      exact old

/-- The directory part and the last component of a path, as `dir_lookup` splits it. -/
theorem split_abspath (is_abs : pathIsabs cwd = true) (valid : pathIsvalid path = true) :
    pathDirname (pathAbspath cwd path) = pathText (reducedPath cwd path).dropLast ∧
      pathBasename (pathAbspath cwd path) = (reducedPath cwd path).getLast?.getD [slash] := by
  have parts : ∀ name ∈ reducedPath cwd path, IsComponent name := fun _ mem =>
    isComponent_of_reducedPath is_abs valid mem
  rw [pathAbspath_eq is_abs valid]
  exact ⟨pathDirname_pathText parts, pathBasename_pathText parts⟩

theorem valid_of_getLast (is_abs : pathIsabs cwd = true) (is_valid : pathIsvalid path = true) :
    pathIsvalid ((reducedPath cwd path).getLast?.getD [slash]) = true := by
  cases last : (reducedPath cwd path).getLast? with
  | none => rfl
  | some name =>
    exact (isComponent_of_reducedPath is_abs is_valid (mem_of_getLast? last)).valid

theorem Visit.dirLookup (visit : Visit owner files dirs start fs held) (is_abs : pathIsabs cwd = true)
    (valid : pathIsvalid path = true) :
    Returns (start.Compact dirs ∧ (pathText (reducedPath cwd path).dropLast).length < pathMax)
      (fs.dirLookup cwd path) fun res =>
        ∃ leaked : List (Nat × Ref),
          leaked.map Prod.fst = (start.leafOf (pathText (reducedPath cwd path).dropLast)).2 ∧
          match start.child (start.reached rootDirSector (reducedPath cwd path).dropLast)
            ((reducedPath cwd path).getLast?.getD [slash]) with
          | none => res.2 = none ∧ Visit owner files dirs start res.1 (leaked ++ held)
          | some e => e.inodeSector ∈ files ∧ e.inodeSector ≠ rootDirSector ∧
              ∃ ref, res.2 = some ref ∧
                Visit owner files dirs start res.1 ((e.inodeSector, ref) :: (leaked ++ held)) := by
  obtain ⟨dirname, basename⟩ := split_abspath is_abs valid
  have parts : ∀ name ∈ (reducedPath cwd path).dropLast, IsComponent name := fun _ mem =>
    isComponent_of_reducedPath is_abs valid (dropLast_subset _ mem)
  have last_valid := valid_of_getLast is_abs valid
  dsimp only [Fs.dirLookup]
  rw [dirname, basename]
  generalize (reducedPath cwd path).dropLast = front at parts ⊢
  generalize (reducedPath cwd path).getLast?.getD [slash] = last at last_valid ⊢
  refine (visit.dirGetLeaf (pathText front)).bind ?_
  rintro ⟨mid, res⟩ ⟨leaked, is_leaked, found⟩
  rw [leafOf_pathText parts] at found
  cases res with
  | none => exact found.elim
  | some ref =>
    obtain ⟨is_dir, visit⟩ := found
    refine ((visit.lookup is_dir mem_cons_self last).bind ?_).strengthen And.left
    rintro _ rfl
    have is_child := @child_eq start (start.reached rootDirSector front) last last_valid
    cases located : entryNamed (start.content (start.reached rootDirSector front)) last with
    | none =>
      rw [located] at is_child
      rw [← is_child]
      refine (visit.dirClose is_dir).map ?_
      intro s' visit
      exact ⟨leaked, is_leaked, rfl, visit⟩
    | some entry =>
      obtain ⟨e, ofs⟩ := entry
      rw [located, map_some] at is_child
      rw [← is_child]
      have leads := visit.child is_dir is_child.symm
      obtain ⟨opened, inode, opens, visit⟩ := visit.inodeOpen leads.2.1
      refine .step opens ?_
      obtain ⟨node, held, visit⟩ := visit.setIsDir leads.2.1 mem_cons_self e.isDir
      refine .step held ?_
      refine ((visit.perm (.swap _ _ _)).dirClose is_dir).map ?_
      intro s' visit
      exact ⟨leaked, is_leaked, leads.2.1, leads.2.2.1, inode, rfl, visit⟩

theorem Tree.filesysOpen (tree : fs.Tree owner files dirs) (is_abs : pathIsabs cwd = true)
    (valid : pathIsvalid path = true) (not_root : path ≠ [slash]) :
    Returns (fs.Compact dirs ∧ (pathText (reducedPath cwd path).dropLast).length < pathMax)
      (fs.filesysOpen cwd path) fun res =>
        ∃ leaked : List (Nat × Ref),
          leaked.map Prod.fst = (fs.leafOf (pathText (reducedPath cwd path).dropLast)).2 ∧
          match fs.child (fs.reached rootDirSector (reducedPath cwd path).dropLast)
            ((reducedPath cwd path).getLast?.getD [slash]) with
          | none => res.2 = none ∧ Visit owner files dirs fs res.1 leaked
          | some e => e.inodeSector ∈ files ∧ e.inodeSector ≠ rootDirSector ∧
              ∃ ref, res.2 = some ref ∧
                Visit owner files dirs fs res.1 ((e.inodeSector, ref) :: leaked) := by
  obtain ⟨opened, root, opens, visit⟩ := (Visit.refl tree).inodeOpen (tree.listed tree.root)
  refine .step opens ?_
  have o : pathIsroot path = false := by simp [pathIsroot, not_root]
  simp only [o, Bool.false_eq_true, if_false]
  refine (visit.dirLookup is_abs valid).bind ?_
  rintro ⟨mid, res⟩ ⟨leaked, is_leaked, found⟩
  cases is_child : fs.child (fs.reached rootDirSector (reducedPath cwd path).dropLast)
      ((reducedPath cwd path).getLast?.getD [slash]) with
  | none =>
    rw [is_child] at found
    obtain ⟨rfl, visit⟩ := found
    refine (((visit.perm perm_append_comm).dirClose tree.root).map ?_).strengthen And.left
    intro s' visit
    exact ⟨leaked, is_leaked, rfl, visit⟩
  | some e =>
    rw [is_child] at found
    obtain ⟨named, alien, ref, rfl, visit⟩ := found
    have perm : ((e.inodeSector, ref) :: (leaked ++ [(rootDirSector, root)])).Perm
        ((rootDirSector, root) :: (e.inodeSector, ref) :: leaked) :=
      (perm_append_comm.cons _).trans (.swap _ _ _)
    refine (((visit.perm perm).dirClose tree.root).map ?_).strengthen And.left
    intro s' visit
    exact ⟨leaked, is_leaked, named, alien, ref, rfl, visit⟩

theorem inodes_of_last_close {node : Inode} (held : fs.inodes ref = some node) (single : node.openCnt = 1)
    (closes : fs.inodeClose ref = some s') : s'.inodes ref = none := by
  obtain ⟨same, is_held, closes⟩ := bind_eq_some_iff.mp closes
  obtain rfl := some.inj (held.symm.trans is_held)
  split at closes
  · cases closes
  · rw [if_pos (by omega)] at closes
    obtain ⟨_, _, closes⟩ := bind_eq_some_iff.mp closes
    obtain ⟨_, _, closes⟩ := bind_eq_some_iff.mp closes
    cases closes
    exact update_self _ _ _

theorem Sound.holds_of_openAs (sound : fs.Sound owner files) (opened : fs.OpenAs file ref) :
    fs.holds file ref = true := by
  obtain ⟨view, opened, rfl⟩ := opened
  obtain ⟨node, listed, sec, _⟩ := sound.opens_eq_some.mp opened
  simp [holds, listed.2, sec]

theorem holds_unique {o : Nat} (fst : fs.holds file ref = true) (snd : fs.holds o ref = true) :
    file = o := by
  unfold holds at fst snd
  cases held : fs.inodes ref with
  | none =>
    rw [held] at fst
    cases fst
  | some node =>
    rw [held] at fst snd
    exact (beq_iff_eq.mp fst).symm.trans (beq_iff_eq.mp snd)

/-- `filesys_open` of the root returns an inode that it has closed. -/
theorem Tree.filesysOpen_root (tree : fs.Tree owner files dirs) :
    Returns (fs.Compact dirs) (fs.filesysOpen cwd [slash]) fun res =>
      Visit owner files dirs fs res.1 [] ∧ ∃ ref, res.2 = some ref ∧
        res.1.holds rootDirSector ref = (fs.opens rootDirSector).isSome := by
  have named := tree.listed tree.root
  obtain ⟨opened, root, opens, visit⟩ := (Visit.refl tree).inodeOpen named
  refine .step opens ?_
  simp only [show pathIsroot [slash] = true by decide, if_true, bind_eq_bind, bind_some]
  have closing := visit.dirClose tree.root
  refine ⟨?_, fun compact => ?_⟩
  · intro res runs
    obtain ⟨s', closes, rfl⟩ := map_eq_some_iff.mp runs
    have visit' := closing.post_of_eq closes
    refine ⟨visit', root, rfl, ?_⟩
    obtain ⟨view, is_open, rfl⟩ := visit.refs _ mem_cons_self
    have lent := visit.holds rootDirSector
    rw [is_open, map_cons, map_nil, count_singleton_self] at lent
    cases old : fs.opens rootDirSector with
    | none =>
      rw [old] at lent
      obtain ⟨node, here⟩ := visit.tree.sound.present named is_open
      have count : view.count = node.openCnt := by rw [← here.isView]; rfl
      have freed := inodes_of_last_close here.listed.2 (count ▸ lent.1) closes
      simp [holds, freed]
    | some fst =>
      rw [old] at lent
      obtain ⟨_, is_view⟩ := lent
      cases is_view
      have still := visit'.holds rootDirSector
      rw [old] at still
      obtain ⟨_, now⟩ := still
      exact visit'.tree.sound.holds_of_openAs ⟨_, now, rfl⟩
  · obtain ⟨s', closes, _⟩ := closing.exists_of compact
    rw [closes]
    exact Option.some_ne_none _

/-! ## Agreement -/

/-- `filesys_open` returns a file exactly when `path_exists` is true, and then the inode of what the
path names. -/
def ResolversAgree (fs : Fs) (cwd path : CString) : Prop :=
  ∃ s' result walked existing, fs.filesysOpen cwd path = some (s', result) ∧
    fs.pathExists cwd path = some (walked, existing) ∧ result.isSome = existing ∧
    ∀ inode, result = some inode → ∃ node,
      fs.resolve rootDirSector (reducedPath cwd path) = some node ∧ s'.holds node.sector inode = true

/-- The root is named by `/` while something else has it open; any other path has a directory part
that fits into the buffer, and that either leads to a directory or ends before its end in a directory
without an entry for the last component. -/
structure ResolversFit (fs : Fs) (cwd path : CString) : Prop where
  root : reducedPath cwd path = [] → path = [slash] ∧ fs.opens rootDirSector ≠ none
  short : ∀ front last, reducedPath cwd path = front ++ [last] → (pathText front).length < pathMax
  complete : ∀ front last, reducedPath cwd path = front ++ [last] →
    (∃ dir, fs.resolve rootDirSector front = some (.directory dir)) ∨
      fs.child (fs.reached rootDirSector front) last = none

theorem pathExists_eq (tree : fs.Tree owner files dirs) (compact : fs.Compact dirs)
    (is_abs : pathIsabs cwd = true) (valid : pathIsvalid path = true) :
    ∃ s', fs.pathExists cwd path =
      some (s', (fs.resolve rootDirSector (reducedPath cwd path)).isSome) := by
  obtain ⟨⟨s', existing⟩, runs, is_existing⟩ :=
    (tree.pathWalk true (fun _ => true) is_abs valid).exists_of compact
  refine ⟨s', ?_⟩
  by_cases root : reducedPath cwd path = []
  · simp only [if_pos root] at is_existing
    rw [root, resolve, isSome_some, ← is_existing.2]
    exact runs
  · simp only [if_neg root] at is_existing
    rw [resolve_eq fs rootDirSector root, isSome_map]
    refine runs.trans ?_
    rw [is_existing.2]
    cases fs.lastEntry rootDirSector (reducedPath cwd path) <;> rfl

theorem dirGetLeaf_of_long (valid : pathIsvalid name = true) (long : pathMax ≤ name.length) :
    fs.dirGetLeaf name = none := by
  have not_root : name ≠ [slash] := by
    rintro rfl
    simp at long
  simp [Fs.dirGetLeaf, valid, not_root, long]

/-- A path whose directory part is too long overflows the buffer of `dir_get_leaf`. -/
theorem filesysOpen_of_long (is_abs : pathIsabs cwd = true) (valid : pathIsvalid path = true)
    (not_root : path ≠ [slash]) (long : pathMax ≤ (pathText (reducedPath cwd path).dropLast).length) :
    fs.filesysOpen cwd path = none := by
  have parts : ∀ name ∈ (reducedPath cwd path).dropLast, IsComponent name := fun _ mem =>
    isComponent_of_reducedPath is_abs valid (dropLast_subset _ mem)
  have overflows : ∀ fs : Fs, fs.dirLookup cwd path = none := by
    intro fs
    dsimp only [Fs.dirLookup]
    rw [(split_abspath is_abs valid).1,
      dirGetLeaf_of_long (pathIsabs_iff.mp (pathIsabs_pathText parts)).1 long]
    rfl
  have o : pathIsroot path = false := by simp [pathIsroot, not_root]
  simp [Fs.filesysOpen, o, overflows]

section Agreement

variable (tree : fs.Tree owner files dirs) (compact : fs.Compact dirs) (is_abs : pathIsabs cwd = true)
  (is_valid : pathIsvalid path = true)

include tree compact is_abs is_valid

theorem resolversAgree_root_iff (root : reducedPath cwd path = []) :
    fs.ResolversAgree cwd path ↔ path = [slash] ∧ fs.opens rootDirSector ≠ none := by
  obtain ⟨walked, walks⟩ := pathExists_eq tree compact is_abs is_valid
  rw [root, resolve, isSome_some] at walks
  unfold ResolversAgree
  simp only [walks, root, resolve, some.injEq, Prod.mk.injEq]
  by_cases is_slash : path = [slash]
  · subst is_slash
    obtain ⟨⟨s', res⟩, runs, _, ref, rfl, holds⟩ := tree.filesysOpen_root.exists_of compact
    rw [runs]
    simp only [some.injEq, Prod.mk.injEq]
    constructor
    · rintro ⟨_, _, _, _, ⟨rfl, rfl⟩, _, _, sec⟩
      obtain ⟨_, rfl, is_root⟩ := sec ref rfl
      rw [Node.sector, holds] at is_root
      exact ⟨trivial, isSome_iff_ne_none.mp is_root⟩
    · rintro ⟨_, opened⟩
      refine ⟨s', some ref, walked, true, ⟨rfl, rfl⟩, ⟨rfl, rfl⟩, rfl, ?_⟩
      rintro _ ⟨⟩
      exact ⟨_, rfl, holds.trans (isSome_iff_ne_none.mpr opened)⟩
  · refine ⟨?_, fun both => (is_slash both.1).elim⟩
    rintro ⟨s', res, _, _, runs, ⟨rfl, rfl⟩, is_some, sec⟩
    obtain ⟨leaked, _, found⟩ := (tree.filesysOpen is_abs is_valid is_slash).post_of_eq runs
    cases is_child : fs.child (fs.reached rootDirSector (reducedPath cwd path).dropLast)
        ((reducedPath cwd path).getLast?.getD [slash]) with
    | none =>
      rw [is_child] at found
      obtain ⟨rfl, _⟩ := found
      cases is_some
    | some e =>
      rw [is_child] at found
      obtain ⟨_, alien, ref, rfl, visit⟩ := found
      obtain ⟨_, rfl, is_root⟩ := sec ref rfl
      have is_entry := visit.tree.sound.holds_of_openAs (visit.refs _ mem_cons_self)
      exact (alien (holds_unique is_entry is_root)).elim

theorem resolversAgree_concat_iff {last : CString} (split : reducedPath cwd path = front ++ [last]) :
    fs.ResolversAgree cwd path ↔ (pathText front).length < pathMax ∧
      ((∃ dir, fs.resolve rootDirSector front = some (.directory dir)) ∨
        fs.child (fs.reached rootDirSector front) last = none) := by
  obtain ⟨walked, walks⟩ := pathExists_eq tree compact is_abs is_valid
  have not_root : path ≠ [slash] := by
    rintro rfl
    have empty : reducedPath cwd [slash] = [] := rfl
    rw [empty] at split
    simp at split
  have opening := tree.filesysOpen is_abs is_valid not_root
  have overflow := @filesysOpen_of_long fs cwd path is_abs is_valid not_root
  unfold ResolversAgree
  rw [walks]
  simp only [split, dropLast_concat, getLast?_concat, getD_some] at opening overflow ⊢
  rw [resolve_concat]
  constructor
  · rintro ⟨s', res, _, existing, runs, same, is_some, _⟩
    cases same
    refine ⟨?_, ?_⟩
    · by_contra long
      rw [overflow (Nat.le_of_not_lt long)] at runs
      cases runs
    · by_contra neither
      obtain ⟨no_directory, has_entry⟩ := not_or.mp neither
      obtain ⟨leaked, _, found⟩ := opening.post_of_eq runs
      obtain ⟨e, is_child⟩ := ne_none_iff_exists'.mp has_entry
      rw [is_child] at found
      obtain ⟨_, _, ref, rfl, _⟩ := found
      split at is_some
      · next dir leads => exact no_directory ⟨dir, leads⟩
      · cases is_some
  · rintro ⟨short, fits⟩
    obtain ⟨⟨s', res⟩, runs, leaked, _, found⟩ := opening.exists_of ⟨compact, short⟩
    refine ⟨s', res, walked, _, runs, rfl, ?_⟩
    cases is_child : fs.child (fs.reached rootDirSector front) last with
    | none =>
      rw [is_child] at found
      obtain ⟨rfl, _⟩ := found
      refine ⟨?_, nofun⟩
      split
      · next dir leads =>
          rw [reached_of_resolve leads] at is_child
          rw [is_child]
          rfl
      · rfl
    | some e =>
      rw [is_child] at found
      obtain ⟨_, _, ref, rfl, visit⟩ := found
      obtain ⟨dir, leads⟩ := fits.resolve_right (by simp [is_child])
      rw [reached_of_resolve leads] at is_child
      rw [leads]
      simp only [is_child, map_some]
      refine ⟨rfl, ?_⟩
      rintro _ ⟨⟩
      refine ⟨e.node, rfl, ?_⟩
      have sec : e.node.sector = e.inodeSector := by
        unfold DirEntry.node
        split <;> rfl
      rw [sec]
      exact visit.tree.sound.holds_of_openAs (visit.refs _ mem_cons_self)

end Agreement

end Fs

end Pintos.Filesys
