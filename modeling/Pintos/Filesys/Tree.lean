import Pintos.Lib.Returns
import Pintos.Filesys.Lookup

/-!
# Directory trees

The directories of a device form a tree: every entry in use names a file, and an entry of a directory
names a directory.  A walk through the tree opens and closes directories; what it holds open is a list
of sectors.
-/

namespace Pintos.Filesys

open Function Option

/-- What a path can name. -/
inductive Node
  | directory (sector : Nat)
  | file (sector : Nat)
  deriving DecidableEq

namespace Fs

/-- The entry of a name in a directory. -/
def child (fs : Fs) (dir : Nat) (name : CString) : Option DirEntry :=
  (findSlot (DirEntry.isNamed name) (fs.content dir)).map (entryAt (fs.content dir))

/-- What the components of a path name, from a directory on. -/
def resolve (fs : Fs) : Nat → List CString → Option Node
  | dir, [] => some (.directory dir)
  | dir, name :: rest =>
    match fs.child dir name with
    | none => none
    | some e =>
      if e.isDir then
        fs.resolve e.inodeSector rest
      else if rest = [] then
        some (.file e.inodeSector)
      else
        none

/-- The directories, among the files of the device, form a tree. -/
structure Tree (fs : Fs) (owner : Owner) (files dirs : Set Nat) : Prop where
  sound : fs.Sound owner files
  map : fs.freeMapFile ≠ none
  root : rootDirSector ∈ dirs
  listed : dirs ⊆ files
  /-- An open directory of the tree has not been removed. -/
  kept : ∀ dir ∈ dirs, ∀ view, fs.opens dir = some view → view.removed = false
  entries : ∀ dir ∈ dirs, ∀ i < slots (fs.content dir), (entryAt (fs.content dir) i).inUse = true →
      (entryAt (fs.content dir) i).inodeSector ∈ files ∧
        (entryAt (fs.content dir) i).inodeSector ≠ rootDirSector ∧
        ((entryAt (fs.content dir) i).isDir = true →
          (entryAt (fs.content dir) i).inodeSector ∈ dirs)

/-- Every directory fits into its first inode. -/
structure Compact (fs : Fs) (dirs : Set Nat) : Prop where
  short : ∀ dir ∈ dirs, (fs.content dir).length ≤ 124928
  unlinked : ∀ dir ∈ dirs, ∀ view, fs.opens dir = some view → view.next = none

/-! ## What a walk holds open -/

/-- How the open inode of a file looks after it has been opened some more times. -/
def Borrowed (times : Nat) : Option OpenView → Option OpenView → Prop
  | some s, now => ∃ isDir, now = some { s with count := s.count + times, isDir }
  | none, none => times = 0
  | none, some view => view.count = times ∧ 0 < times ∧ view.removed = false ∧ view.next = none

/-- The open inodes, apart from those in the list, are those of the table. -/
def Holds (table : Nat → Option OpenView) (held : List Nat) (now : Nat → Option OpenView) : Prop :=
  ∀ file, Borrowed (held.count file) (table file) (now file)

/-- This is the address of the open inode of a file. -/
def OpenAs (fs : Fs) (file : Nat) (ref : Ref) : Prop := ∃ view, fs.opens file = some view ∧ view.ref = ref

/-- A walk that has begun in one state, and the inodes that it holds open. -/
structure Visit (owner : Owner) (files dirs : Set Nat) (start fs : Fs) (held : List (Nat × Ref)) :
    Prop where
  tree : fs.Tree owner files dirs
  quiet : Quiet start fs
  ages : Ages start fs
  counted : ∀ file ∈ files, ∀ view, start.opens file = some view → 1 ≤ view.count
  holds : Holds start.opens (held.map Prod.fst) fs.opens
  refs : ∀ item ∈ held, fs.OpenAs item.1 item.2

variable {fs s' start : Fs} {owner : Owner} {files dirs : Set Nat} {file dir : Nat}
  {view : OpenView} {table : Nat → Option OpenView} {held : List (Nat × Ref)} {ref : Ref}
  {name : CString} {s : Option OpenView}

theorem Borrowed.reopened {times : Nat} {now : Option OpenView}
    (lent : Borrowed times s now) (again : Reopened view now) :
    Borrowed (times + 1) s (some view) := by
  cases s with
  | some fst =>
    obtain ⟨isDir, rfl⟩ := lent
    obtain rfl : view = _ := again
    refine ⟨isDir, ?_⟩
    simp [Int.add_assoc]
  | none =>
    cases now with
    | none =>
      obtain rfl : times = 0 := lent
      exact ⟨again.1, Nat.one_pos, again.2⟩
    | some last =>
      obtain ⟨count, _, rest⟩ := lent
      obtain rfl : view = _ := again
      exact ⟨by simp [count], Nat.succ_pos _, rest⟩

theorem Borrowed.lowered {times : Nat} (lent : Borrowed (times + 1) s (some view))
    (counted : ∀ fst, s = some fst → 1 ≤ fst.count) : Borrowed times s
      (if 1 < view.count then some { view with count := view.count - 1 } else none) := by
  cases s with
  | some fst =>
    obtain ⟨isDir, is_view⟩ := lent
    cases is_view
    have pos := counted fst rfl
    have many : 1 < fst.count + (times + 1 : Nat) := by omega
    rw [if_pos many]
    refine ⟨isDir, ?_⟩
    simp only [some.injEq, OpenView.mk.injEq, true_and, and_true]
    omega
  | none =>
    obtain ⟨count, _, rest⟩ := lent
    by_cases many : 1 < view.count
    · rw [if_pos many]
      refine ⟨?_, by omega, rest⟩
      change view.count - 1 = _
      omega
    · rw [if_neg many]
      change times = 0
      omega

theorem Borrowed.exists_of_pos {times : Nat} {now : Option OpenView}
    (lent : Borrowed times s now) (pos : 0 < times) : ∃ view, now = some view := by
  cases now with
  | some view => exact ⟨view, rfl⟩
  | none =>
    cases s with
    | some view =>
      obtain ⟨_, now⟩ := lent
      cases now
    | none => exact absurd lent (Nat.ne_of_gt pos)

theorem Holds.refl (table : Nat → Option OpenView) : Holds table [] table := by
  intro file
  rw [List.count_nil]
  cases table file with
  | none => rfl
  | some view => exact ⟨view.isDir, by simp⟩

theorem Sound.counted (sound : fs.Sound owner files) (named : file ∈ files)
    (is_open : fs.opens file = some view) : 1 ≤ view.count := by
  obtain ⟨node, here⟩ := sound.present named is_open
  have count : view.count = node.openCnt := by rw [← here.isView]; rfl
  rw [count]
  exact here.opened.counted

theorem Visit.refl (tree : fs.Tree owner files dirs) : Visit owner files dirs fs fs [] where
  tree
  quiet := .refl fs
  ages := .refl fs
  counted _ named _ := tree.sound.counted named
  holds := .refl _
  refs _ held := nomatch held

theorem Visit.perm {held' : List (Nat × Ref)} (visit : Visit owner files dirs start fs held)
    (perm : held.Perm held') : Visit owner files dirs start fs held' where
  __ := visit
  holds file := (perm.map Prod.fst).count_eq file ▸ visit.holds file
  refs item mem := visit.refs item (perm.mem_iff.mpr mem)

theorem Tree.quiet (tree : fs.Tree owner files dirs) (quiet : Quiet fs s') (ages : Ages fs s')
    (sound : s'.Sound owner files)
    (kept : ∀ dir ∈ dirs, ∀ view, s'.opens dir = some view → view.removed = false) :
    s'.Tree owner files dirs where
  __ := tree
  sound
  map := by
    rw [ages.mapFile]
    exact tree.map
  kept
  entries := by
    rw [quiet.content]
    exact tree.entries

theorem Tree.child (tree : fs.Tree owner files dirs) (is_dir : dir ∈ dirs) {e : DirEntry}
    (found : fs.child dir name = some e) :
    e.inUse = true ∧ e.inodeSector ∈ files ∧ e.inodeSector ≠ rootDirSector ∧
      (e.isDir = true → e.inodeSector ∈ dirs) := by
  obtain ⟨i, finds, rfl⟩ := map_eq_some_iff.mp found
  obtain ⟨below, named, _⟩ := findSlot_eq_some.mp finds
  have in_use : (entryAt (fs.content dir) i).inUse = true := (Bool.and_eq_true_iff.mp named).1
  exact ⟨in_use, tree.entries dir is_dir i below in_use⟩

theorem Visit.inodeOpen (visit : Visit owner files dirs start fs held) (named : file ∈ files) :
    ∃ s' ref, fs.inodeOpen file = some (s', ref) ∧
      Visit owner files dirs start s' ((file, ref) :: held) := by
  obtain ⟨s', view, opens, sound, quiet, ages, table, again⟩ :=
    inodeOpen_spec visit.tree.sound named
  have now : s'.opens file = some view := by rw [table]; exact update_self _ _ _
  refine ⟨s', view.ref, opens, ?_, visit.quiet.trans quiet, visit.ages.trans ages, visit.counted, ?_,
    ?_⟩
  · refine visit.tree.quiet quiet ages sound ?_
    intro dir is_dir o opened
    by_cases same : dir = file
    · subst same
      obtain rfl := some.inj (now.symm.trans opened)
      cases s : fs.opens dir with
      | none =>
        rw [s] at again
        exact again.2.1
      | some fst =>
        rw [s] at again
        obtain rfl : view = _ := again
        exact visit.tree.kept dir is_dir fst s
    · rw [table, update_of_ne same] at opened
      exact visit.tree.kept dir is_dir o opened
  · intro o
    rw [List.map_cons]
    by_cases same : o = file
    · subst same
      rw [List.count_cons_self, now]
      exact (visit.holds o).reopened again
    · rw [List.count_cons_of_ne (Ne.symm same), table, update_of_ne same]
      exact visit.holds o
  · intro item mem
    rcases List.mem_cons.mp mem with rfl | prev
    · exact ⟨view, now, rfl⟩
    obtain ⟨fst, s, is_ref⟩ := visit.refs item prev
    by_cases same : item.1 = file
    · rw [same] at s ⊢
      rw [s] at again
      obtain rfl : view = _ := again
      exact ⟨_, now, is_ref⟩
    · refine ⟨fst, ?_, is_ref⟩
      rw [table, update_of_ne same]
      exact s

theorem Visit.compact (visit : Visit owner files dirs start fs held) (compact : start.Compact dirs) :
    fs.Compact dirs where
  short := by
    rw [visit.quiet.content]
    exact compact.short
  unlinked dir is_dir view is_open := by
    have lent := visit.holds dir
    rw [is_open] at lent
    cases s : start.opens dir with
    | none =>
      rw [s] at lent
      exact lent.2.2.2
    | some fst =>
      rw [s] at lent
      obtain ⟨isDir, is_view⟩ := lent
      cases is_view
      exact compact.unlinked dir is_dir fst s

/-- `dir_close` of a directory of the tree does not give its sector back. -/
theorem Tree.dirClose (tree : fs.Tree owner files dirs) (is_dir : dir ∈ dirs)
    (opened : fs.opens dir = some view) (closes : fs.dirClose view.ref = some s') :
    s'.Sound owner files ∧ Quiet fs s' ∧ Ages fs s' ∧ s'.opens = update fs.opens dir
        (if 1 < view.count then some { view with count := view.count - 1 } else none) := by
  obtain ⟨files', sound, ages, eff⟩ := inodeClose_some tree.sound (tree.listed is_dir) opened closes
  cases eff with
  | shared many quiet opens => exact ⟨sound, quiet, ages, by rw [if_pos many, opens]⟩
  | last single kept quiet opens =>
    exact ⟨sound, quiet, ages, by rw [if_neg (by omega), opens]⟩
  | removed single gone keeps taken opens =>
    rw [tree.kept dir is_dir view opened] at gone
    cases gone

theorem Visit.dirClose (visit : Visit owner files dirs start fs ((dir, ref) :: held))
    (is_dir : dir ∈ dirs) : Returns (start.Compact dirs) (fs.dirClose ref) fun s' =>
      Visit owner files dirs start s' held := by
  obtain ⟨view, opened, rfl⟩ := visit.refs _ List.mem_cons_self
  constructor
  · intro s' closes
    obtain ⟨sound, quiet, ages, table⟩ := visit.tree.dirClose is_dir opened closes
    have now : s'.opens dir =
        if 1 < view.count then some { view with count := view.count - 1 } else none := by
      rw [table]
      exact update_self _ _ _
    have holds : Holds start.opens (held.map Prod.fst) s'.opens := by
      intro o
      have lent := visit.holds o
      rw [List.map_cons] at lent
      by_cases same : o = dir
      · subst same
        rw [opened, List.count_cons_self] at lent
        rw [now]
        exact lent.lowered (visit.counted o (visit.tree.listed is_dir))
      · rw [List.count_cons_of_ne (Ne.symm same)] at lent
        rw [table, update_of_ne same]
        exact lent
    refine ⟨?_, visit.quiet.trans quiet, visit.ages.trans ages, visit.counted, holds, ?_⟩
    · refine visit.tree.quiet quiet ages sound ?_
      intro o other_dir other_view other_open
      by_cases same : o = dir
      · subst same
        rw [now] at other_open
        split at other_open
        · cases other_open
          exact visit.tree.kept o is_dir view opened
        · cases other_open
      · rw [table, update_of_ne same] at other_open
        exact visit.tree.kept o other_dir other_view other_open
    · intro item mem
      obtain ⟨first, s, is_ref⟩ := visit.refs item (List.mem_cons_of_mem _ mem)
      by_cases same : item.1 = dir
      · -- The inode is held a second time, so it was not the last close.
        rw [same] at s ⊢
        obtain rfl := some.inj (opened.symm.trans s)
        have still : 0 < (held.map Prod.fst).count dir :=
          List.count_pos_iff.mpr (same ▸ List.mem_map_of_mem mem)
        obtain ⟨last, last_open⟩ := (holds dir).exists_of_pos still
        refine ⟨last, last_open, ?_⟩
        rw [now] at last_open
        split at last_open
        · cases last_open
          exact is_ref
        · cases last_open
      · refine ⟨first, ?_, is_ref⟩
        rw [table, update_of_ne same]
        exact s
  · intro compact
    obtain ⟨s', closes⟩ := inodeClose_isSome visit.tree.sound (visit.tree.listed is_dir) opened
      visit.tree.map (.inr ((visit.compact compact).unlinked dir is_dir view opened))
    rw [Fs.dirClose, closes]
    exact Option.some_ne_none _

theorem child_eq (valid : pathIsvalid name = true) :
    (entryNamed (fs.content dir) name).map Prod.fst = fs.child dir name := by
  rw [entryNamed, if_pos valid, map_map]
  rfl

theorem Quiet.child (quiet : Quiet fs s') : s'.child = fs.child := by
  funext dir name
  unfold Fs.child
  rw [quiet.content]

theorem Visit.child (visit : Visit owner files dirs start fs held) (is_dir : dir ∈ dirs) {e : DirEntry}
    (found : start.child dir name = some e) :
    e.inUse = true ∧ e.inodeSector ∈ files ∧ e.inodeSector ≠ rootDirSector ∧
      (e.isDir = true → e.inodeSector ∈ dirs) := by
  rw [← visit.quiet.child] at found
  exact visit.tree.child is_dir found

theorem Visit.lookup (visit : Visit owner files dirs start fs held) (is_dir : dir ∈ dirs)
    (holding : (dir, ref) ∈ held) (name : CString) :
    Returns (start.Compact dirs) (fs.lookup ref name) fun res =>
      res = (fs, entryNamed (start.content dir) name) := by
  obtain ⟨view, opened, rfl⟩ := visit.refs _ holding
  have named := visit.tree.listed is_dir
  constructor
  · rintro ⟨s', found⟩ looks
    obtain ⟨rfl, rfl⟩ := lookup_some visit.tree.sound named opened looks
    rw [visit.quiet.content]
  · intro compact
    rw [lookup_eq visit.tree.sound named opened ((visit.compact compact).short dir is_dir)]
    exact Option.some_ne_none _

end Fs

end Pintos.Filesys
