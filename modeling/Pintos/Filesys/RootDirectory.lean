import Pintos.Filesys.Entries
import Pintos.Filesys.Session
import Pintos.Filesys.Walkers

/-!
# The root directory as a finite map

A caller with the working directory `/` keeps the root directory open, and adds to it and removes from
it the names of regular files that it has created.  The slots of the directory represent the map from
the names added, and not removed since, to their sectors.
-/

namespace Pintos.Filesys

open Function Execution Option

/-- A caller of `dir_add` and `dir_remove`. -/
structure Caller where
  fs : Fs
  /-- The sectors in which there are files. -/
  live : Finset Nat
  /-- The root directory, which the caller has opened. -/
  dir : Ref
  /-- The names added and not removed since, and the sectors they were added with. -/
  names : CString → Option Nat

/-- What the caller does. -/
inductive DirCall
  | create (length : Nat)
  | dirAdd (name : CString) (sector : Nat)
  | dirRemove (name : CString)

namespace Caller

/-- `inode_extend_link` succeeds when `dir_add` appends an entry to the root directory. -/
def rootGrows (fs : Fs) : Bool :=
  let size := entrySize + entrySize * slots (fs.content rootDirSector)
  (fs.dirOpenRoot.bind fun (opened, dir) =>
    opened.inodeExtendLink dir (size - (fs.content rootDirSector).length) size).any fun result =>
      result.2.isSome

/-- If an entry has to be appended to the root directory, the directory grows, and within its first
inode. -/
def Room (fs : Fs) : Prop :=
  findSlot (fun e => !e.inUse) (fs.content rootDirSector) = none →
    entrySize * (slots (fs.content rootDirSector) + 1) ≤ byteCapacity ∧ rootGrows fs = true

instance (fs : Fs) : Decidable (Room fs) := inferInstanceAs (Decidable (_ → _))

/-- Names are single components, and what is added is a closed file that no entry names. -/
def Admits (c : Caller) : DirCall → Prop
  | .create _ => True
  | .dirAdd name sector =>
    IsFileName name ∧ sector ∈ c.live ∧ sector ≠ rootDirSector ∧ (c.fs.opens sector).isNone = true ∧
      ¬ Names (c.fs.content rootDirSector) sector ∧
      (c.names name = none → Room c.fs)
  | .dirRemove name => IsFileName name

instance (c : Caller) : (call : DirCall) → Decidable (c.Admits call)
  | .create _ => .isTrue trivial
  | .dirAdd _ _ => inferInstanceAs (Decidable (_ ∧ _))
  | .dirRemove name => inferInstanceAs (Decidable (IsFileName name))

/-- A call, with the working directory `/`. -/
def call (caller : Caller) : DirCall → Option Caller
  | .create length =>
    (Session.createInode ⟨caller.fs, caller.live⟩ length).map fun session =>
      { caller with fs := session.fs, live := session.live }
  | .dirAdd name sector =>
    (caller.fs.dirAdd [slash] name sector).map fun (fs, success) =>
      if success then
        { caller with fs, names := update caller.names name (some sector) }
      else
        { caller with fs }
  | .dirRemove name =>
    (caller.fs.dirRemove caller.dir name).map fun (fs, success) =>
      if success then
        { caller with
          fs
          live := (caller.names name).elim caller.live caller.live.erase
          names := update caller.names name none }
      else
        { caller with fs }

def step (caller : Caller) (call : DirCall) : Option Caller :=
  if caller.Admits call then caller.call call else none

/-- A caller that opens the root directory of a freshly formatted device. -/
def start (size : Nat) (disk : Nat → Buffer) (garbage : Ref → Inode) : Option Caller := do
  let fs ← Fs.filesysInit size disk garbage
  let (fs, dir) ← fs.dirOpenRoot
  some ⟨fs, {rootDirSector}, dir, fun _ => none⟩

/-- The slots of the root directory represent a map from names to files, one name for each. -/
structure Binds (directory : FlatFile) (live : Finset Nat) (names : CString → Option Nat) : Prop where
  represents : SlotMap.Represents (slots directory) (slotOf directory) names
  proper : ∀ name, names name ≠ none → IsFileName name
  files : ∀ name sector, names name = some sector → sector ∈ live ∧ sector ≠ rootDirSector
  distinct : ∀ first second sector, names first = some sector → names second = some sector →
    first = second

/-- The device is sound, the root directory is the only open file, and its slots represent the map. -/
structure Serves (c : Caller) (owner : Owner) : Prop where
  sound : c.fs.Sound owner c.live
  map : c.fs.freeMapFile ≠ none
  root : rootDirSector ∈ c.live
  dir : c.fs.OpenAs rootDirSector c.dir
  closed : ∀ file ∈ c.live, file ≠ rootDirSector → c.fs.opens file = none
  short : (c.fs.content rootDirSector).length ≤ byteCapacity
  binds : Binds (c.fs.content rootDirSector) c.live c.names

variable {c next : Caller} {owner : Owner} {name : CString} {sec : Nat}
  {dir written : FlatFile} {live : Finset Nat} {names : CString → Option Nat}
  {view : Fs.OpenView}

/-! ## The map -/

section

variable (binds : Binds dir live names)
include binds

theorem Binds.unbound (unnamed : ¬ Names dir sec) (name : CString) : names name ≠ some sec := by
  intro bound
  obtain ⟨i, below, held⟩ := (binds.represents.bound name sec).mp bound
  unfold slotOf at held
  split at held
  · next in_use => exact unnamed ⟨i, below, in_use, (Prod.mk.inj (some.inj held)).2⟩
  · cases held

theorem Binds.add (is_name : IsFileName name) (named : sec ∈ live)
    (apart : sec ≠ rootDirSector) (unnamed : ¬ Names dir sec)
    (represents : SlotMap.Represents (slots written) (slotOf written)
      (update names name (some sec))) :
    Binds written live (update names name (some sec)) where
  represents
  proper o bound := by
    by_cases same : o = name
    · rw [same]
      exact is_name
    · rw [update_of_ne same] at bound
      exact binds.proper o bound
  files o bound is_bound := by
    by_cases same : o = name
    · rw [same, update_self] at is_bound
      cases is_bound
      exact ⟨named, apart⟩
    · rw [update_of_ne same] at is_bound
      exact binds.files o bound is_bound
  distinct fst snd bound first_bound second_bound := by
    by_cases is_fst : fst = name <;> by_cases is_snd : snd = name
    · rw [is_fst, is_snd]
    · rw [is_fst, update_self] at first_bound
      rw [update_of_ne is_snd, ← first_bound] at second_bound
      exact (binds.unbound unnamed snd second_bound).elim
    · rw [is_snd, update_self] at second_bound
      rw [update_of_ne is_fst, ← second_bound] at first_bound
      exact (binds.unbound unnamed fst first_bound).elim
    · rw [update_of_ne is_fst] at first_bound
      rw [update_of_ne is_snd] at second_bound
      exact binds.distinct fst snd bound first_bound second_bound

theorem Binds.remove (here : names name = some sec)
    (maps : SlotMap.Represents (slots written) (slotOf written)
      (update names name none)) : Binds written (live.erase sec) (update names name none) := by
  have kept : ∀ o bound, update names name none o = some bound →
      o ≠ name ∧ names o = some bound := by
    intro o bound is_bound
    by_cases same : o = name
    · rw [same, update_self] at is_bound
      cases is_bound
    · rw [update_of_ne same] at is_bound
      exact ⟨same, is_bound⟩
  refine ⟨maps, ?_, ?_, ?_⟩
  · intro o bound
    obtain ⟨value, is_bound⟩ := ne_none_iff_exists'.mp bound
    exact binds.proper o (by simp [(kept o value is_bound).2])
  · intro o bound is_bound
    obtain ⟨ne, was_bound⟩ := kept o bound is_bound
    obtain ⟨is_live, apart⟩ := binds.files o bound was_bound
    refine ⟨Finset.mem_erase.mpr ⟨?_, is_live⟩, apart⟩
    rintro rfl
    exact ne (binds.distinct o name bound was_bound here)
  · intro fst snd bound first_bound second_bound
    exact binds.distinct fst snd bound (kept fst bound first_bound).2
      (kept snd bound second_bound).2

end

/-! ## The directory opened once more -/

/-- The root directory is opened a second time, and could be closed again. -/
structure Reentered (c : Caller) (owner : Owner) (inner : Fs) (view : Fs.OpenView) : Prop where
  opens : c.fs.inodeOpen rootDirSector = some (inner, view.ref)
  closes : inner.inodeClose view.ref = some c.fs
  isDir : view.ref = c.dir
  sound : inner.Sound owner c.live
  quiet : Fs.Quiet c.fs inner
  ages : Fs.Ages c.fs inner
  table : inner.opens = update c.fs.opens rootDirSector (some view)
  shared : 1 < view.count

theorem Serves.reenter (serves : c.Serves owner) : ∃ inner view, c.Reentered owner inner view := by
  obtain ⟨view, is_open, is_dir⟩ := serves.dir
  obtain ⟨node, here⟩ := serves.sound.present serves.root is_open
  have counted := here.opened.counted
  have found := serves.sound.findOpen_eq here.listed
  rw [here.sector] at found
  have opens := Fs.inodeOpen_of_findOpen found here.listed.2
  obtain ⟨inner, again, opens', sound, quiet, ages, table, reopened⟩ :=
    Fs.inodeOpen_spec serves.sound serves.root
  rw [opens] at opens'
  obtain ⟨rfl, is_ref⟩ := Prod.mk.inj (some.inj opens')
  rw [is_open] at reopened
  obtain rfl : again = { view with count := view.count + 1 } := reopened
  have not_self : node.next ≠ some view.ref := fun is_self =>
    ((serves.sound.memory view.ref node here.listed.2).next view.ref is_self).2 here.listed.1
  refine ⟨_, { view with count := view.count + 1 }, opens, ?_, is_dir, sound, quiet, ages, table, ?_⟩
  · have held : (c.fs.setInode view.ref { node with openCnt := node.openCnt + 1 }).inodes
        view.ref = some { node with openCnt := node.openCnt + 1 } := update_self _ _ _
    simp only [Fs.inodeClose, Fs.close, held, bind_eq_bind, bind_some]
    rw [if_neg not_self, if_neg (by omega), Int.add_sub_cancel]
    simp only [Fs.setInode, update_idem]
    rw [← here.listed.2, update_eq_self]
  · have count : view.count = node.openCnt := by rw [← here.isView]; rfl
    change 1 < view.count + 1
    omega

theorem Reentered.is_open {inner : Fs} (again : c.Reentered owner inner view) :
    inner.opens rootDirSector = some view := by
  rw [again.table]
  exact update_self _ _ _

/-! ## Looking for a name -/

section

variable (serves : c.Serves owner)
include serves

theorem Serves.entryNamed_absent (absent : c.names name = none) :
    entryNamed (c.fs.content rootDirSector) name = none := by
  have missing := serves.binds.represents.eq_none_iff.mp absent
  unfold entryNamed
  split
  · rw [findSlot_eq_none.mpr]
    · rfl
    · intro i below
      simpa only [ne_eq, slotOf_map_eq_some, Bool.not_eq_true] using missing i below
  · rfl

theorem Serves.entryNamed_present (here : c.names name = some sec) :
    ∃ i < slots (c.fs.content rootDirSector),
      slotOf (c.fs.content rootDirSector) i = some (name, sec) ∧
      entryNamed (c.fs.content rootDirSector) name =
        some (entryAt (c.fs.content rootDirSector) i, entrySize * i) := by
  have is_valid := (serves.binds.proper name (by simp [here])).valid
  obtain ⟨holding, holding_below, holding_slot⟩ := (serves.binds.represents.bound name sec).mp here
  have named := slotOf_map_eq_some.mp
    (show (slotOf (c.fs.content rootDirSector) holding).map Prod.fst = some name by
      rw [holding_slot]
      rfl)
  unfold entryNamed
  rw [if_pos is_valid]
  cases finds : findSlot (DirEntry.isNamed name) (c.fs.content rootDirSector) with
  | none =>
    rw [findSlot_eq_none.mp finds holding holding_below] at named
    cases named
  | some i =>
    obtain ⟨below, names, _⟩ := findSlot_eq_some.mp finds
    obtain ⟨⟨_, found⟩, held, rfl⟩ := map_eq_some_iff.mp (slotOf_map_eq_some.mpr names)
    have value := serves.binds.represents.value_eq below held
    rw [here] at value
    cases value
    exact ⟨i, below, held, rfl⟩

theorem Serves.entryNamed_eq :
    (entryNamed (c.fs.content rootDirSector) name).map (fun found => found.1.inodeSector) =
      c.names name := by
  cases here : c.names name with
  | none =>
    rw [serves.entryNamed_absent here]
    rfl
  | some sec =>
    obtain ⟨i, below, held, finds⟩ := serves.entryNamed_present here
    rw [finds]
    unfold slotOf at held
    split at held
    · exact congrArg (fun found => some found.2) (some.inj held)
    · cases held

end

theorem Reentered.lookup {inner : Fs} (again : c.Reentered owner inner view)
    (serves : c.Serves owner) (name : CString) : inner.lookup view.ref name =
      some (inner, entryNamed (c.fs.content rootDirSector) name) := by
  have short := serves.short
  rw [← again.quiet.content] at short ⊢
  exact Fs.lookup_eq again.sound serves.root again.is_open short name

/-! ## Calls that fail -/

theorem dirGetLeaf_root (fs : Fs) :
    fs.dirGetLeaf [slash] = fs.dirOpenRoot.map fun (fs, dir) => (fs, some dir) := rfl

/-- `dir_add` of a name that is there fails and changes nothing. -/
theorem Serves.dirAdd_present (serves : c.Serves owner) (here : c.names name ≠ none)
    (sec : Nat) : c.fs.dirAdd [slash] name sec = some (c.fs, false) := by
  have is_name := serves.binds.proper name here
  obtain ⟨inner, view, again⟩ := serves.reenter
  have looks := again.lookup serves name
  obtain ⟨bound, is_bound⟩ := ne_none_iff_exists'.mp here
  obtain ⟨i, _, _, finds⟩ := serves.entryNamed_present is_bound
  rw [finds] at looks
  simp only [Fs.dirAdd, is_name.abspath, dirGetLeaf_root, Fs.dirOpenRoot, again.opens,
    map_some, bind_eq_bind, bind_some, Fs.insertEntry, looks,
    isSome_some, if_true, Fs.dirClose, again.closes]

/-- `dir_remove` in the root directory goes on in the directory opened once more. -/
theorem Reentered.dirRemove {inner : Fs} (again : c.Reentered owner inner view)
    (serves : c.Serves owner) (is_name : IsFileName name) :
    c.fs.dirRemove c.dir name = inner.removeEntry view.ref name := by
  obtain ⟨outer, opened, is_dir⟩ := serves.dir
  obtain ⟨node, here⟩ := serves.sound.present serves.root opened
  have held := here.listed.2
  rw [is_dir] at held
  simp only [Fs.dirRemove, Fs.removeTarget, is_name.not_path, bind_eq_bind, bind_some,
    Bool.false_eq_true, if_false, Fs.dirOpenAgain, held, here.sector, again.opens, map_some]

/-- `dir_remove` of a name that is not there fails and changes nothing. -/
theorem Serves.dirRemove_absent (serves : c.Serves owner) (is_name : IsFileName name)
    (absent : c.names name = none) :
    c.fs.dirRemove c.dir name = some (c.fs, false) := by
  obtain ⟨inner, view, again⟩ := serves.reenter
  have looks := again.lookup serves name
  rw [serves.entryNamed_absent absent] at looks
  rw [again.dirRemove serves is_name]
  simp only [Fs.removeEntry, looks, bind_eq_bind, bind_some, Fs.dirClose, again.closes, map_some]

/-! ## Calls that succeed -/

section Write

variable {fs : Fs} {files : Set Nat} {file : Nat} {view : Fs.OpenView}
  (sound : fs.Sound owner files)
include sound

/-- An entry is written into a slot, if growth does not fail. -/
theorem writeEntry (named : file ∈ files) (opened : fs.opens file = some view) (e : DirEntry)
    {i : Nat} (inside : entrySize * (i + 1) ≤ byteCapacity)
    (grows : (fs.content file).length < entrySize + entrySize * i →
      ∃ res tail, fs.inodeExtendLink view.ref
        (entrySize + entrySize * i - (fs.content file).length) (entrySize + entrySize * i) =
          some (res, some tail)) :
    ∃ s' owner', fs.inodeWriteAt view.ref e entrySize (entrySize * i) =
        some (s', entrySize) ∧ Fs.Altered fs owner files file view s' owner' ∧
      s'.content file = (fs.content file).write e entrySize (entrySize * i) := by
  have room : entrySize * i + entrySize ≤ 124928 := by
    unfold entrySize byteCapacity at *
    omega
  obtain ⟨s', put, writes⟩ := Fs.inodeWriteAt_isSome sound named opened e room
  obtain ⟨owner', new, wrote⟩ := Fs.inodeWriteAt_some sound named opened writes
  cases wrote with
  | done content _ => exact ⟨s', owner', writes, new, content⟩
  | failed more fails _ _ _ =>
    obtain ⟨res, tail, works⟩ := grows more
    rw [fails] at works
    cases works

theorem closeShared (named : file ∈ files) (opened : fs.opens file = some view)
    (map_open : fs.freeMapFile ≠ none) (shared : 1 < view.count) :
    ∃ s', fs.inodeClose view.ref = some s' ∧ s'.Sound owner files ∧ Fs.Quiet fs s' ∧ Fs.Ages fs s' ∧
      s'.opens = update fs.opens file (some { view with count := view.count - 1 }) := by
  obtain ⟨s', closes⟩ := Fs.inodeClose_isSome sound named opened map_open (.inl shared)
  obtain ⟨files', sound', ages, eff⟩ := Fs.inodeClose_some sound named opened closes
  cases eff with
  | shared _ quiet opens => exact ⟨s', closes, sound', quiet, ages, opens⟩
  | last single _ _ _ => omega
  | removed single _ _ _ _ => omega

theorem markRemoved (named : file ∈ files) (is_open : fs.opens file = some view) :
    ∃ s', fs.inodeRemove view.ref = some s' ∧ s'.Sound owner files ∧ Fs.Quiet fs s' ∧
      s'.freeMapFile = fs.freeMapFile ∧
      s'.opens = update fs.opens file (some { view with removed := true }) := by
  obtain ⟨node, here⟩ := sound.present named is_open
  obtain ⟨sound', opens⟩ := sound.touch here { node with removed := true } rfl here.opened.counted
  refine ⟨_, by rw [Fs.inodeRemove, here.listed.2]; rfl, sound', rfl, rfl, ?_⟩
  rw [opens, ← here.isView]
  rfl

theorem closeRemoved (named : file ∈ files) (opened : fs.opens file = some view)
    (map_open : fs.freeMapFile ≠ none) (single : view.count = 1) (unlinked : view.next = none)
    (gone : view.removed = true) :
    ∃ s', fs.inodeClose view.ref = some s' ∧ s'.Sound owner (files \ {file}) ∧
      (∀ o ∈ files, s'.content o = fs.content o) ∧
      s'.freeMapFile = fs.freeMapFile ∧ s'.opens = update fs.opens file none := by
  obtain ⟨s', closes⟩ := Fs.inodeClose_isSome sound named opened map_open (.inr unlinked)
  obtain ⟨files', sound', ages, eff⟩ := Fs.inodeClose_some sound named opened closes
  cases eff with
  | shared many _ _ => omega
  | last _ kept _ _ => simp [gone] at kept
  | removed _ _ keeps _ opens =>
    exact ⟨s', closes, sound', fun o is_named => sound.content_kept keeps is_named,
      ages.mapFile, opens⟩

end Write

theorem Reentered.scanFree {inner : Fs} {view : Fs.OpenView}
    (again : c.Reentered owner inner view) (serves : c.Serves owner) :
    ∃ e found, inner.scanDir (fun e => !e.inUse) view.ref =
        some (inner, e, entrySize * freeSlot (c.fs.content rootDirSector), found) ∧
      IsEntry e := by
  have short := serves.short
  rw [← again.quiet.content] at short ⊢
  obtain ⟨⟨s', e, ofs, found⟩, runs⟩ := Fs.scanDir_isSome (fun e => !e.inUse) again.sound
    serves.root again.is_open short
  obtain ⟨rfl, res⟩ := Fs.scanDir_some again.sound serves.root again.is_open runs
  unfold freeSlot
  generalize findSlot (fun e => !e.inUse) (s'.content rootDirSector) = slot at res ⊢
  cases res with
  | found i => exact ⟨_, _, runs, isEntry_entryAt _ _⟩
  | missing e is_entry => exact ⟨_, _, runs, is_entry⟩

section

variable (serves : c.Serves owner)
include serves

theorem Serves.sector_lt (named : sec ∈ c.live) : sec < 2 ^ 32 := by
  have on_device := (serves.sound.stored sec named).owned.1.1
  have small := serves.sound.ready.small
  omega

theorem Serves.dirAdd_absent (admits : c.Admits (.dirAdd name sec)) (absent : c.names name = none) :
    ∃ s' owner' e, c.fs.dirAdd [slash] name sec = some (s', true) ∧ IsEntry e ∧
      s'.content rootDirSector = (c.fs.content rootDirSector).write
        (e.filled false name sec) entrySize
        (entrySize * freeSlot (c.fs.content rootDirSector)) ∧
      Serves { c with fs := s', names := update c.names name (some sec) } owner' := by
  obtain ⟨is_name, named, apart, _, unnamed, room⟩ := admits
  obtain ⟨inner, view, again⟩ := serves.reenter
  have content : inner.content = c.fs.content := again.quiet.content
  have looks := again.lookup serves name
  rw [serves.entryNamed_absent absent] at looks
  obtain ⟨e, found, scans, is_entry⟩ := again.scanFree serves
  have short := serves.short
  have fits : entrySize * (freeSlot (c.fs.content rootDirSector) + 1) ≤ byteCapacity := by
    rcases Nat.lt_or_ge (freeSlot (c.fs.content rootDirSector))
      (slots (c.fs.content rootDirSector)) with old | new
    · unfold slots entrySize byteCapacity at *
      omega
    · rw [Nat.le_antisymm (freeSlot_le _) new]
      exact (room absent (findSlot_of_slots_le new)).1
  have grows : (inner.content rootDirSector).length <
      entrySize + entrySize * freeSlot (c.fs.content rootDirSector) →
      ∃ res tail, inner.inodeExtendLink view.ref
        (entrySize + entrySize * freeSlot (c.fs.content rootDirSector) -
          (inner.content rootDirSector).length)
        (entrySize + entrySize * freeSlot (c.fs.content rootDirSector)) =
          some (res, some tail) := by
    intro more
    rw [content] at more ⊢
    have new : slots (c.fs.content rootDirSector) ≤ freeSlot (c.fs.content rootDirSector) := by
      unfold slots entrySize at *
      omega
    have works := (room absent (findSlot_of_slots_le new)).2
    rw [Nat.le_antisymm (freeSlot_le _) new]
    simp only [rootGrows, Fs.dirOpenRoot, again.opens, bind_some] at works
    obtain ⟨⟨res, tail⟩, links, is_some⟩ := (Option.any_eq_true _ _).mp works
    obtain ⟨last, rfl⟩ := isSome_iff_exists.mp is_some
    exact ⟨res, last, links⟩
  obtain ⟨put, owner', wrote, altered, is_written⟩ := writeEntry again.sound serves.root
    again.is_open (e.filled false name sec) fits grows
  rw [content] at is_written
  obtain ⟨link, table⟩ := altered.opens
  have now_open : put.opens rootDirSector = some { view with next := link } := by
    rw [table]
    exact update_self _ _ _
  have map_open : put.freeMapFile ≠ none := by
    rw [altered.ages.mapFile, again.ages.mapFile]
    exact serves.map
  obtain ⟨s', closes, sound, quiet, ages, opens⟩ := closeShared altered.sound serves.root now_open
    map_open again.shared
  refine ⟨s', owner', e, ?_, is_entry, ?_⟩
  · simp only [Fs.dirAdd, is_name.abspath, dirGetLeaf_root, Fs.dirOpenRoot, again.opens,
      map_some, bind_eq_bind, bind_some, Fs.insertEntry, looks,
      isSome_none, Bool.false_eq_true, if_false, scans, wrote, Fs.dirClose, closes, beq_self_eq_true]
  have table_after : s'.opens = update c.fs.opens rootDirSector
      (some { view with count := view.count - 1, next := link }) := by
    rw [opens, table, again.table, update_idem, update_idem]
  have is_content : s'.content rootDirSector = (c.fs.content rootDirSector).write
      (e.filled false name sec) entrySize
      (entrySize * freeSlot (c.fs.content rootDirSector)) := by
    rw [quiet.content]
    exact is_written
  refine ⟨is_content, sound, by rw [ages.mapFile]; exact map_open, serves.root, ?_, ?_, ?_, ?_⟩
  · refine ⟨{ view with count := view.count - 1, next := link }, ?_, again.isDir⟩
    rw [table_after]
    exact update_self _ _ _
  · intro file is_live ne
    rw [table_after, update_of_ne ne]
    exact serves.closed file is_live ne
  · rw [is_content]
    simp only [FlatFile.write]
    unfold entrySize byteCapacity at *
    omega
  · exact serves.binds.add is_name named apart unnamed (represents_filled
      serves.binds.represents absent is_name (serves.sector_lt named) is_entry is_content)

/-- `dir_remove` of a name that is there succeeds and gives its file back. -/
theorem Serves.dirRemove_present (here : c.names name = some sec) :
    ∃ s' owner', c.fs.dirRemove c.dir name = some (s', true) ∧
      (∃ i < slots (c.fs.content rootDirSector), s'.content rootDirSector =
        (c.fs.content rootDirSector).write
          (entryAt (c.fs.content rootDirSector) i).erased entrySize (entrySize * i)) ∧
      Serves { c with
          fs := s'
          live := c.live.erase sec
          names := update c.names name none }
        owner' := by
  have is_name := serves.binds.proper name (by simp [here])
  obtain ⟨named, apart⟩ := serves.binds.files name sec here
  obtain ⟨i, below, held, finds⟩ := serves.entryNamed_present here
  obtain ⟨inner, view, again⟩ := serves.reenter
  have looks := again.lookup serves name
  rw [finds] at looks
  have is_sector : (entryAt (c.fs.content rootDirSector) i).inodeSector = sec := by
    have bound := @Serves.entryNamed_eq c owner name serves
    rw [finds, here] at bound
    exact some.inj bound
  -- The file is opened for the first time.
  obtain ⟨opened, fileView, opens_file, sound_opened, quiet_opened, ages_opened, table_opened, fst⟩ :=
    Fs.inodeOpen_spec again.sound named
  have was_closed : inner.opens sec = none := by
    rw [again.table, update_of_ne apart]
    exact serves.closed sec named apart
  rw [was_closed] at fst
  obtain ⟨single, _, gone⟩ := fst
  have file_open : opened.opens sec = some fileView := by
    rw [table_opened]
    exact update_self _ _ _
  obtain ⟨node, file_present⟩ := sound_opened.present named file_open
  have count : node.openCnt = 1 := by
    rw [← single, ← file_present.isView]
    rfl
  have root_open : opened.opens rootDirSector = some view := by
    rw [table_opened, update_of_ne apart.symm]
    exact again.is_open
  -- The entry is erased.
  have content : opened.content = c.fs.content := by
    rw [quiet_opened.content, again.quiet.content]
  have short := serves.short
  have fits : entrySize * (i + 1) ≤ (c.fs.content rootDirSector).length := by
    unfold slots entrySize at *
    omega
  obtain ⟨put, owner', wrote, new, is_written⟩ := writeEntry sound_opened serves.root root_open
    (entryAt (c.fs.content rootDirSector) i).erased (Nat.le_trans fits short) (by
      rw [content]
      unfold entrySize at *
      omega)
  rw [content] at is_written
  obtain ⟨link, table_written⟩ := new.opens
  have file_written : put.opens sec = some fileView := by
    rw [table_written, update_of_ne apart]
    exact file_open
  -- The inode is marked, and both files are closed.
  obtain ⟨marked, removes, sound_marked, quiet_marked, map_marked, table_marked⟩ :=
    markRemoved new.sound named file_written
  have root_marked : marked.opens rootDirSector = some { view with next := link } := by
    rw [table_marked, update_of_ne apart.symm, table_written]
    exact update_self _ _ _
  have map_open : marked.freeMapFile ≠ none := by
    rw [map_marked, new.ages.mapFile, ages_opened.mapFile, again.ages.mapFile]
    exact serves.map
  obtain ⟨left, closes_root, sound_left, quiet_left, ages_left, table_left⟩ :=
    closeShared sound_marked serves.root root_marked map_open again.shared
  have file_left : left.opens sec = some { fileView with removed := true } := by
    rw [table_left, update_of_ne apart, table_marked]
    exact update_self _ _ _
  obtain ⟨s', closes_file, sound, kept, map_after, table⟩ := closeRemoved sound_left named file_left
    (by rw [ages_left.mapFile]; exact map_open) single gone rfl
  have is_content : s'.content rootDirSector = (c.fs.content rootDirSector).write
      (entryAt (c.fs.content rootDirSector) i).erased entrySize (entrySize * i) := by
    rw [kept rootDirSector serves.root, quiet_left.content, quiet_marked.content]
    exact is_written
  refine ⟨s', owner', ?_, ⟨i, below, is_content⟩, ?_, ?_,
    Finset.mem_erase.mpr ⟨apart.symm, serves.root⟩, ?_, ?_, ?_, ?_⟩
  · have unshared : ¬ node.openCnt > 1 := by omega
    rw [again.dirRemove serves is_name]
    simp only [Fs.removeEntry, looks, is_sector, opens_file, file_present.listed.2, Fs.inodeIsDir,
      bind_eq_bind, bind_some, map_some, unshared, decide_false, Bool.and_false,
      Bool.false_eq_true, if_false, if_true, wrote, removes, Fs.dirClose, closes_root, closes_file]
  · rw [Finset.coe_erase]
    exact sound
  · rw [map_after, ages_left.mapFile]
    exact map_open
  · refine ⟨{ view with count := view.count - 1, next := link }, ?_, again.isDir⟩
    rw [table, update_of_ne apart.symm, table_left]
    exact update_self _ _ _
  · intro file is_live ne
    obtain ⟨o, is_live⟩ := Finset.mem_erase.mp is_live
    rw [table, update_of_ne o, table_left, update_of_ne ne, table_marked,
      update_of_ne o, table_written, update_of_ne ne, table_opened,
      update_of_ne o, again.table, update_of_ne ne]
    exact serves.closed file is_live ne
  · rw [is_content, length_write_old below]
    exact short
  · exact serves.binds.remove here (represents_erased serves.binds.represents below held is_content)

end

/-! ## Runs -/

def Serving (c : Caller) : Prop := ∃ owner, c.Serves owner

theorem Serves.create {len : Nat} (serves : c.Serves owner)
    (makes : c.call (.create len) = some next) : next.Serving := by
  obtain ⟨session, runs, rfl⟩ := map_eq_some_iff.mp makes
  obtain ⟨⟨owner', sound⟩, adds⟩ := Session.createInode_some serves.sound runs
  have content : session.fs.content rootDirSector = c.fs.content rootDirSector :=
    adds.content rootDirSector serves.root
  obtain ⟨view, opened, is_dir⟩ := serves.dir
  refine ⟨owner', sound, ?_, adds.live serves.root, ⟨view, ?_, is_dir⟩, ?_, ?_, ?_⟩
  · rw [adds.ages.mapFile]
    exact serves.map
  · rw [adds.opens]
    exact opened
  · intro file is_live ne
    rcases adds.new file is_live with prev | closed
    · rw [adds.opens]
      exact serves.closed file prev ne
    · exact closed
  · rw [content]
    exact serves.short
  · obtain ⟨maps, proper, files, apart⟩ := serves.binds
    rw [content]
    exact ⟨maps, proper,
      fun name sec bound => (files name sec bound).imp_left fun is_live => adds.live is_live,
      apart⟩

theorem serving_of_start {size : Nat} {disk : Nat → Buffer} {garbage : Ref → Inode}
    (small : size ≤ 2 ^ 14) (starts : start size disk garbage = some c) : c.Serving := by
  obtain ⟨fs, format, starts⟩ := bind_eq_some_iff.mp starts
  obtain ⟨owner, made⟩ := Fs.filesysInit_some small format
  obtain ⟨map, node, map_open⟩ := made.map
  obtain ⟨s', view, opens, sound, quiet, ages, table, _⟩ := Fs.inodeOpen_spec made.sound rfl
  rw [Fs.dirOpenRoot, opens] at starts
  cases starts
  have content : s'.content rootDirSector = FlatFile.zeros blockSectorSize := by
    rw [quiet.content]
    exact made.content
  refine ⟨owner, ?_, ?_, Finset.mem_singleton_self _, ⟨view, ?_, rfl⟩, ?_, ?_, ?_⟩
  · rw [Finset.coe_singleton]
    exact sound
  · rw [ages.mapFile, map_open.file]
    exact Option.some_ne_none _
  · rw [table]
    exact update_self _ _ _
  · intro file is_live ne
    exact (ne (Finset.mem_singleton.mp is_live)).elim
  · rw [content]
    decide
  · refine ⟨SlotMap.represents_empty ?_, fun _ bound => (bound rfl).elim, fun _ _ bound => ?_,
      fun _ _ _ bound => ?_⟩
    · intro i _
      rw [content, slotOf_eq_none, Fs.entryAt_zeros]
      rfl
    · cases bound
    · cases bound

theorem serving_of_step {call : DirCall} (serving : c.Serving)
    (steps : c.step call = some next) : next.Serving := by
  obtain ⟨owner, serves⟩ := serving
  unfold step at steps
  split at steps
  · next admits =>
      cases call with
      | create len => exact serves.create steps
      | dirAdd name sec =>
        obtain ⟨⟨fs, ok⟩, adds, rfl⟩ := map_eq_some_iff.mp steps
        by_cases absent : c.names name = none
        · obtain ⟨s', owner', _, works, _, _, serves'⟩ := serves.dirAdd_absent admits absent
          rw [works] at adds
          cases adds
          exact ⟨owner', serves'⟩
        · rw [serves.dirAdd_present absent] at adds
          cases adds
          exact ⟨owner, serves⟩
      | dirRemove name =>
        obtain ⟨⟨fs, ok⟩, removes, rfl⟩ := map_eq_some_iff.mp steps
        cases here : c.names name with
        | none =>
          rw [serves.dirRemove_absent admits here] at removes
          cases removes
          exact ⟨owner, serves⟩
        | some sec =>
          obtain ⟨s', owner', works, _, serves'⟩ := serves.dirRemove_present here
          rw [works] at removes
          cases removes
          exact ⟨owner', serves'⟩
  · cases steps

/-- The root directory behaves as a finite map from names to sectors. -/
structure FiniteMap (c : Caller) : Prop where
  /-- `lookup` finds exactly the names of the map, with their sectors. -/
  lookup : ∀ name, IsFileName name → ∃ found, c.fs.lookup c.dir name = some (c.fs, found) ∧
      found.map (fun entry => entry.1.inodeSector) = c.names name
  addPresent : ∀ name sec, c.names name ≠ none →
    c.fs.dirAdd [slash] name sec = some (c.fs, false)
  removeAbsent : ∀ name, IsFileName name → c.names name = none →
    c.fs.dirRemove c.dir name = some (c.fs, false)
  /-- A new name is added, and in a free slot as long as there is one. -/
  addAbsent : ∀ name sec, c.Admits (.dirAdd name sec) → c.names name = none →
    ∃ s', c.fs.dirAdd [slash] name sec = some (s', true) ∧
      ∀ i, findSlot (fun e => !e.inUse) (c.fs.content rootDirSector) = some i →
        (s'.content rootDirSector).length = (c.fs.content rootDirSector).length ∧
          DirEntry.isNamed name (entryAt (s'.content rootDirSector) i) = true
  /-- A name is removed, which leaves a slot free. -/
  removePresent : ∀ name, c.names name ≠ none → ∃ s', c.fs.dirRemove c.dir name = some (s', true) ∧
      (s'.content rootDirSector).length = (c.fs.content rootDirSector).length ∧
      findSlot (fun e => !e.inUse) (s'.content rootDirSector) ≠ none
  /-- Calls of `dir_readdir` from position 0 give each name once and then fail. -/
  readdir : ∃ listed : List CString, listed.Nodup ∧ (∀ name, name ∈ listed ↔ c.names name ≠ none) ∧
    ∀ more, Fs.readdirs (listed.length + more) c.fs c.dir 0 =
      some (listed.map some ++ List.replicate more none)

theorem Serves.finiteMap (serves : c.Serves owner) : c.FiniteMap := by
  obtain ⟨view, opened, is_dir⟩ := serves.dir
  refine ⟨?_, fun name sec here => serves.dirAdd_present here sec,
    fun name is_name absent => serves.dirRemove_absent is_name absent, ?_, ?_, ?_⟩
  · intro name is_name
    refine ⟨_, ?_, serves.entryNamed_eq⟩
    rw [← is_dir]
    exact Fs.lookup_eq serves.sound serves.root opened serves.short name
  · intro name sec admits absent
    obtain ⟨s', _, e, works, is_entry, content, _⟩ := serves.dirAdd_absent admits absent
    refine ⟨s', works, ?_⟩
    intro i finds
    have is_free : freeSlot (c.fs.content rootDirSector) = i := by
      rw [freeSlot, finds]
      rfl
    rw [is_free] at content
    rw [content, length_write_old (findSlot_eq_some.mp finds).1,
      entryAt_write_self (isEntry_filled is_entry)]
    refine ⟨rfl, ?_⟩
    simp [DirEntry.isNamed, inUse_filled, name_filled admits.1]
  · intro name here
    obtain ⟨sec, bound⟩ := ne_none_iff_exists'.mp here
    obtain ⟨s', _, works, ⟨i, below, content⟩, _⟩ := serves.dirRemove_present bound
    refine ⟨s', works, by rw [content, length_write_old below], ?_⟩
    intro none_free
    have used := findSlot_eq_none.mp none_free i (by
      unfold slots
      rw [content, length_write_old below]
      exact below)
    rw [content, entryAt_write_self (isEntry_erased (isEntry_entryAt _ _)), inUse_erased] at used
    cases used
  · refine ⟨Fs.namesFrom (c.fs.content rootDirSector) 0, serves.binds.represents.nodup_keys,
      fun name => serves.binds.represents.mem_keys, ?_⟩
    intro more
    rw [← is_dir]
    refine Fs.readdirs_eq serves.sound serves.root opened serves.short ?_ more
    intro name mem
    exact (serves.binds.proper name (serves.binds.represents.mem_keys.mp mem)).2

/-- On a device of at most `2 ^ 14` sectors the root directory is a finite map, whatever is added to it
and removed from it. -/
theorem root_finiteMap {size : Nat} {disk : Nat → Buffer} {garbage : Ref → Inode} {first : Caller}
    (small : size ≤ 2 ^ 14) (starts : start size disk garbage = some first) {calls : List DirCall}
    (reached : run step first calls = some caller) : caller.FiniteMap := by
  obtain ⟨owner, serves⟩ := run_invariant (serving_of_start small starts) serving_of_step reached
  exact serves.finiteMap

theorem root_finiteMap_reused : ∃ first caller,
    start 16 (fun _ => Buffer.zeros) Session.blankMemory = some first ∧
      run step first [.create 100, .dirAdd [97] 4, .create 0, .dirAdd [98] 6, .dirRemove [97]] =
        some caller ∧ caller.FiniteMap := by
  have runs : ((start 16 (fun _ => Buffer.zeros) Session.blankMemory).bind fun first =>
      run step first [.create 100, .dirAdd [97] 4, .create 0, .dirAdd [98] 6, .dirRemove [97]]).isSome =
        true := by
    decide +kernel
  obtain ⟨caller, runs⟩ := isSome_iff_exists.mp runs
  obtain ⟨first, starts, got⟩ := bind_eq_some_iff.mp runs
  exact ⟨first, caller, starts, got, root_finiteMap (by decide) starts got⟩

/-! ## Larger devices -/

/-- Other files have taken all sectors below 16386. -/
def crowded (c : Caller) : Caller :=
  { c with
    fs := { c.fs with freeMap := ⟨c.fs.freeMap.bitCnt, fun sec => sec < 16386⟩ } }

/-- One name more than the first block of the root directory has slots, and the first is removed. -/
def fillRoot : List DirCall :=
  (List.range 21).map (fun index => .dirAdd [97 + UInt8.ofNat index] (8 + index)) ++
    [.dirAdd [119, 119, 119, 119] 29, .dirRemove [97]]

/-- The second block of the directory is sector 16386, and its pointer names sector 2, which belongs to
the free map file: the next change of the free map overwrites the last entry. -/
theorem entry_overwritten : ∃ formatted first caller after,
    start 16390 (fun _ => Buffer.zeros) Session.blankMemory = some formatted ∧
      run step formatted (List.replicate 22 (.create 0)) = some first ∧
      run step first.crowded fillRoot = some caller ∧ caller.names [119, 119, 119, 119] = some 29 ∧
      caller.fs.lookup caller.dir [119, 119, 119, 119] = some (after, none) ∧ ¬ caller.FiniteMap := by
  have runs : ((start 16390 (fun _ => Buffer.zeros) Session.blankMemory).bind fun formatted =>
      (run step formatted (List.replicate 22 (.create 0))).bind fun first =>
        (run step first.crowded fillRoot).bind fun caller =>
          (caller.fs.lookup caller.dir [119, 119, 119, 119]).map fun res =>
            (res.2.isSome, caller.names [119, 119, 119, 119])) = some (false, some 29) := by
    decide +kernel
  obtain ⟨formatted, starts, runs⟩ := bind_eq_some_iff.mp runs
  obtain ⟨first, makes, runs⟩ := bind_eq_some_iff.mp runs
  obtain ⟨caller, got, runs⟩ := bind_eq_some_iff.mp runs
  obtain ⟨⟨after, found⟩, looks, out⟩ := map_eq_some_iff.mp runs
  obtain ⟨missing, bound⟩ := Prod.mk.inj out
  obtain rfl : found = none := by simpa using missing
  refine ⟨formatted, first, caller, after, starts, makes, got, bound, looks, ?_⟩
  intro finite
  obtain ⟨found, finds, is_bound⟩ := finite.lookup [119, 119, 119, 119] (by decide)
  rw [looks] at finds
  cases finds
  rw [bound] at is_bound
  cases is_bound

end Caller

end Pintos.Filesys
