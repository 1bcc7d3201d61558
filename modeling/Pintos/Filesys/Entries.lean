import Pintos.Lib.SlotMap
import Pintos.Filesys.Canonical
import Pintos.Filesys.Tree

/-!
# The entries of a directory as a table of slots

A slot of a directory that is in use binds a name to a sector.  Writing one entry changes one slot,
and what `dir_add` writes is read back as the name and the sector it was given.
-/

namespace Pintos.Filesys

open Function Option List Buffer Nat

/-- A name that `dir_add` can store: one component of at most `NAME_MAX` characters. -/
def IsFileName (name : CString) : Prop := IsProper name ∧ name.length ≤ nameMax

instance (name : CString) : Decidable (IsFileName name) := inferInstanceAs (Decidable (_ ∧ _))

/-- What a slot of a directory binds. -/
def slotOf (directory : FlatFile) (index : Nat) : Option (CString × Nat) :=
  if (entryAt directory index).inUse then
    some ((entryAt directory index).name, (entryAt directory index).inodeSector)
  else
    none

/-- Some entry that is in use names this sector. -/
def Names (directory : FlatFile) (sector : Nat) : Prop :=
  ∃ i < slots directory, (entryAt directory i).inUse = true ∧
    (entryAt directory i).inodeSector = sector

instance (directory : FlatFile) (sector : Nat) : Decidable (Names directory sector) :=
  inferInstanceAs (Decidable (∃ i < slots directory, _))

variable {dir : FlatFile} {e : DirEntry} {name : CString} {isDir : Bool}
  {i other sector : Nat}

/-! ## Names -/

section

variable (is_name : IsFileName name)
include is_name

theorem IsFileName.valid : pathIsvalid name = true := is_name.1.1.valid

theorem IsFileName.ne_zero {c : UInt8} (inside : c ∈ name) : c ≠ 0 := by
  rintro rfl
  exact absurd ((pathIsvalid_iff.mp is_name.valid).2 0 inside) (by decide)

/-- In the root directory, a file name is its own last component. -/
theorem IsFileName.abspath : pathDirname (pathAbspath [slash] name) = [slash] ∧
      pathBasename (pathAbspath [slash] name) = name := by
  have single : ∀ o ∈ [name], IsComponent o := by
    intro o mem
    rw [mem_singleton.mp mem]
    exact is_name.1.1
  have abspath : pathAbspath [slash] name = pathText [name] := by
    obtain ⟨is_abs, parts⟩ := pathJoin2_spec (show pathIsabs [slash] = true from rfl) is_name.valid
    have rel : name.head? ≠ some slash := fun starts =>
      is_name.1.1.1.2 (mem_of_head? starts)
    rw [pathAbspath, (pathNormpath_eq is_abs).1, parts, reducedPath, if_neg rel,
      Tokens.tokens_of_isToken is_name.1.1.1]
    simp [reduceStep, is_name.1.2.1, is_name.1.2.2]
  rw [abspath, pathDirname_pathText single, pathBasename_pathText single]
  exact ⟨rfl, rfl⟩

theorem IsFileName.not_path : Fs.isPath name = some false := by
  have short : name.length ≤ 14 := is_name.2
  rw [Fs.isPath, if_neg (show ¬ pathMax ≤ name.length by unfold pathMax; omega),
    Tokens.tokens_of_isToken is_name.1.1.1]
  simp

end

/-! ## One entry -/

theorem filled_byte (e : DirEntry) (isDir : Bool) (name : CString) (sec : Nat) {i : Nat}
    (late : 19 ≤ i) : e.filled isDir name sec i =
      update (update e 19 1) 20 (if isDir then 1 else 0) i := by
  have short : (name.take nameMax ++ [0]).length ≤ 15 := by simp
  unfold DirEntry.filled DirEntry.setName
  rw [put_outside (.inr (by omega)), copy_outside (.inr (by omega))]

theorem inUse_filled : (e.filled isDir name sector).inUse = true := by
  unfold DirEntry.inUse
  rw [filled_byte e isDir name sector (le_refl _)]
  simp

theorem inodeSector_filled (small : sector < 2 ^ 32) :
    (e.filled isDir name sector).inodeSector = sector := by
  unfold DirEntry.inodeSector DirEntry.filled
  rw [word_put]
  exact mod_eq_of_lt small

theorem name_filled (is_name : IsFileName name) : (e.filled isDir name sector).name = name := by
  have short : name.length ≤ 14 := is_name.2
  have byte : ∀ i ≤ name.length, e.filled isDir name sector (4 + i) = (name ++ [0]).getD i 0 := by
    intro i inside
    unfold DirEntry.filled DirEntry.setName
    rw [put_outside (.inr (by omega)), take_of_length_le short,
      copy_inside (by omega) (by simp; omega)]
    congr 1
    omega
  have fst : (range name.length).map (fun i => e.filled isDir name sector (4 + i)) = name := by
    apply ext_getElem
    · simp
    · intro i _ below
      rw [getElem_map, getElem_range, byte i (le_of_lt below),
        getD_append _ _ _ _ below, getD_eq_getElem _ _ below]
  have rest : range 20 = range name.length ++
      name.length :: range' (name.length + 1) (19 - name.length) := by
    rw [← range'_succ, range_eq_range', range_eq_range']
    have joined := @range'_append_1 0 name.length (19 - name.length + 1)
    rw [zero_add] at joined
    rw [joined]
    congr 1
    omega
  unfold DirEntry.name
  rw [rest, map_append, map_cons, fst, byte name.length (le_refl _), takeWhile_append_of_pos]
  · simp
  · intro c inside
    simpa using is_name.ne_zero inside

theorem isEntry_filled (is_entry : IsEntry e) : IsEntry (e.filled isDir name sector) := by
  intro i past
  unfold entrySize at past
  rw [filled_byte e isDir name sector (by omega), update_of_ne (by omega), update_of_ne (by omega)]
  exact is_entry i past

theorem isEntry_erased (is_entry : IsEntry e) : IsEntry e.erased := by
  intro i past
  unfold entrySize at past
  rw [DirEntry.erased, update_of_ne (by omega)]
  exact is_entry i past

theorem inUse_erased (e : DirEntry) : e.erased.inUse = false := by
  simp [DirEntry.inUse, DirEntry.erased]

/-! ## Writing an entry -/

theorem entryAt_write_self (is_entry : IsEntry e) :
    entryAt (dir.write e entrySize (entrySize * i)) i = e := by
  funext pos
  by_cases inside : pos < entrySize
  · unfold entryAt
    rw [copy_inside (zero_le _) (by omega)]
    simp only [FlatFile.write]
    rw [if_pos (by omega)]
    congr 1
    omega
  · rw [isEntry_entryAt _ i pos (by omega), is_entry pos (by omega)]

theorem entryAt_write_other (ne : other ≠ i) :
    entryAt (dir.write e entrySize (entrySize * i)) other = entryAt dir other := by
  refine copy_congr fun pos inside => ?_
  simp only [FlatFile.write]
  rw [if_neg]
  unfold entrySize at inside ⊢
  omega

theorem length_write_old (below : i < slots dir) :
    (dir.write e entrySize (entrySize * i)).length = dir.length := by
  unfold slots entrySize at below
  simp only [FlatFile.write, entrySize]
  omega

theorem slots_write_new :
    slots (dir.write e entrySize (entrySize * slots dir)) = slots dir + 1 := by
  unfold slots entrySize
  simp only [FlatFile.write]
  omega

theorem slotOf_of_inUse (in_use : (entryAt dir i).inUse = true) : slotOf dir i =
      some ((entryAt dir i).name, (entryAt dir i).inodeSector) :=
  if_pos in_use

theorem slotOf_eq_none : slotOf dir i = none ↔ (entryAt dir i).inUse = false := by
  unfold slotOf
  split
  · next in_use => simp [in_use]
  · next free => simp [free]

theorem slotOf_map_eq_some : (slotOf dir i).map Prod.fst = some name ↔
      DirEntry.isNamed name (entryAt dir i) = true := by
  unfold slotOf DirEntry.isNamed
  split
  · next in_use =>
      simp only [in_use, map_some, some.injEq, Bool.true_and, beq_iff_eq]
      exact eq_comm
  · next free => simp [free]

/-- The slot into which `dir_add` writes: the first free one, or a new one. -/
def freeSlot (dir : FlatFile) : Nat :=
  (findSlot (fun e => !e.inUse) dir).getD (slots dir)

theorem freeSlot_le (dir : FlatFile) : freeSlot dir ≤ slots dir := by
  unfold freeSlot
  cases finds : findSlot (fun e => !e.inUse) dir with
  | none => exact le_refl _
  | some i => exact le_of_lt (findSlot_eq_some.mp finds).1

theorem findSlot_of_slots_le {dir : FlatFile} (past : slots dir ≤ freeSlot dir) :
    findSlot (fun e => !e.inUse) dir = none := by
  unfold freeSlot at past
  cases finds : findSlot (fun e => !e.inUse) dir with
  | none => rfl
  | some i =>
    have below := (findSlot_eq_some.mp finds).1
    rw [finds, getD_some] at past
    omega

theorem slotOf_freeSlot {dir : FlatFile} (below : freeSlot dir < slots dir) :
    slotOf dir (freeSlot dir) = none := by
  unfold freeSlot at below ⊢
  cases finds : findSlot (fun e => !e.inUse) dir with
  | none =>
    rw [finds] at below
    exact (lt_irrefl _ below).elim
  | some i => exact slotOf_eq_none.mpr (by simpa using (findSlot_eq_some.mp finds).2.1)

theorem represents_filled {names : CString → Option Nat}
    (maps : SlotMap.Represents (slots dir) (slotOf dir) names)
    (absent : names name = none) (is_name : IsFileName name) (small : sector < 2 ^ 32)
    (is_entry : IsEntry e) {wrote : FlatFile}
    (is_written : wrote =
      dir.write (e.filled false name sector) entrySize (entrySize * freeSlot dir)) :
    SlotMap.Represents (slots wrote) (slotOf wrote) (update names name (some sector)) := by
  have filled : entryAt wrote (freeSlot dir) = e.filled false name sector := by
    rw [is_written]
    exact entryAt_write_self (isEntry_filled is_entry)
  refine maps.fill absent slotOf_freeSlot ?_ ?_ ?_
  · rw [slotOf_of_inUse (by rw [filled]; exact inUse_filled), filled, name_filled is_name,
      inodeSector_filled small]
  · intro o ne
    unfold slotOf
    rw [is_written, entryAt_write_other ne]
  · intro o
    rcases lt_or_eq_of_le (freeSlot_le dir) with old | new
    · have same : slots wrote = slots dir := by
        unfold slots
        rw [is_written, length_write_old old]
      rw [same]
      omega
    · rw [is_written, new, slots_write_new]
      omega

theorem represents_erased {names : CString → Option Nat}
    (maps : SlotMap.Represents (slots dir) (slotOf dir) names)
    (below : i < slots dir) (held : slotOf dir i = some (name, sector))
    {wrote : FlatFile}
    (is_written : wrote = dir.write (entryAt dir i).erased entrySize (entrySize * i)) :
    SlotMap.Represents (slots wrote) (slotOf wrote) (update names name none) := by
  have same : slots wrote = slots dir := by
    unfold slots
    rw [is_written, length_write_old below]
  rw [same]
  refine maps.erase below held ?_ ?_
  · rw [slotOf_eq_none, is_written, entryAt_write_self (isEntry_erased (isEntry_entryAt _ _))]
    exact inUse_erased _
  · intro o ne
    unfold slotOf
    rw [is_written, entryAt_write_other ne]

/-! ## `dir_readdir` -/

namespace Fs

/-- What some calls of `dir_readdir`, one after the other, return. -/
def readdirs : Nat → Fs → Ref → Nat → Option (List (Option CString))
  | 0, _, _, _ => some []
  | calls + 1, fs, dir, pos => do
      let (fs, pos, name) ← fs.dirReaddir dir pos
      let names ← readdirs calls fs dir pos
      some (name :: names)

/-- The names in use from a slot on. -/
abbrev namesFrom (dir : FlatFile) (start : Nat) : List CString :=
  SlotMap.keysFrom (slots dir) (slotOf dir) start

/-- The first name from a slot on is that of the next slot in use. -/
theorem namesFrom_eq (dir : FlatFile) (start : Nat) : namesFrom dir start =
      (findFrom DirEntry.inUse dir start).elim [] fun i =>
        (entryAt dir i).name :: namesFrom dir (i + 1) := by
  induction left : slots dir - start generalizing start with
  | zero =>
    have past : slots dir ≤ start := by omega
    rw [findFrom_of_le past, namesFrom, SlotMap.keysFrom_of_le past]
    rfl
  | succ left ih =>
    have below : start < slots dir := by omega
    rw [findFrom_of_lt below, namesFrom, SlotMap.keysFrom_of_lt below]
    split
    · next in_use =>
        rw [slotOf_of_inUse in_use]
        rfl
    · next free =>
        rw [slotOf_eq_none.mpr (by simpa using free)]
        exact ih (start + 1) (by omega)

theorem findFrom_lt {stop : DirEntry → Bool} {start : Nat}
    (finds : findFrom stop dir start = some i) : start ≤ i ∧ i < slots dir := by
  have mem := mem_of_find?_eq_some finds
  rw [mem_range'_1] at mem
  omega

section Listing

variable {fs : Fs} {owner : Owner} {files : Set Nat} {file : Nat} {view : OpenView}
  (sound : fs.Sound owner files) (named : file ∈ files) (is_open : fs.opens file = some view)
  (short : (fs.content file).length ≤ 124928)

include sound named is_open short

/-- `dir_readdir` in a directory that fits into its first inode. -/
theorem dirReaddir_eq {start : Nat} (got : start ≤ slots (fs.content file)) :
    fs.dirReaddir view.ref (entrySize * start) = some
      ((findFrom DirEntry.inUse (fs.content file) start).elim
        (fs, entrySize * slots (fs.content file), none) fun i =>
          (fs, entrySize * (i + 1), some ((entryAt (fs.content file) i).name.take nameMax))) := by
  obtain ⟨⟨s', e, ofs, found⟩, runs⟩ := @scan_isSome DirEntry.inUse fs owner files file view sound
    named is_open short ((fs.content file).length / entrySize + 1) start zeros got
    (by unfold slots; omega)
  obtain ⟨rfl, res⟩ := scan_some sound named is_open _ (fun _ _ => rfl) got runs
  rw [dirReaddir, inodeLength_eq sound named is_open]
  simp only [bind_eq_bind, bind_some, runs]
  generalize findFrom DirEntry.inUse (s'.content file) start = slot at res ⊢
  cases res with
  | found i => rfl
  | missing e is_entry => rfl

theorem readdirs_of_ended (more : Nat) {start : Nat} (got : start ≤ slots (fs.content file))
    (ended : namesFrom (fs.content file) start = []) :
    readdirs more fs view.ref (entrySize * start) = some (replicate more none) := by
  induction more generalizing start with
  | zero => rfl
  | succ more ih =>
    have reads := dirReaddir_eq sound named is_open short got
    rw [namesFrom_eq] at ended
    cases finds : findFrom DirEntry.inUse (fs.content file) start with
    | some i =>
      rw [finds] at ended
      cases ended
    | none =>
      have later := ih (le_refl _) (SlotMap.keysFrom_of_le (le_refl _))
      rw [finds, elim_none] at reads
      rw [readdirs, reads]
      simp only [bind_eq_bind, bind_some, later]
      rfl

/-- Calls of `dir_readdir` list the names in use, and then fail. -/
theorem readdirs_eq
    (fit : ∀ name ∈ namesFrom (fs.content file) 0, name.length ≤ nameMax) (more : Nat) :
    readdirs ((namesFrom (fs.content file) 0).length + more) fs view.ref 0 =
      some ((namesFrom (fs.content file) 0).map some ++ replicate more none) := by
  suffices lists : ∀ names start, start ≤ slots (fs.content file) →
      namesFrom (fs.content file) start = names → (∀ name ∈ names, name.length ≤ nameMax) →
      readdirs (names.length + more) fs view.ref (entrySize * start) =
        some (names.map some ++ replicate more none) from
    lists _ 0 (zero_le _) rfl fit
  intro names
  induction names with
  | nil =>
    intro start got ended _
    rw [length_nil, zero_add]
    exact readdirs_of_ended sound named is_open short more got ended
  | cons fst rest ih =>
    intro start got begins fit
    have reads := dirReaddir_eq sound named is_open short got
    rw [namesFrom_eq] at begins
    cases finds : findFrom DirEntry.inUse (fs.content file) start with
    | none =>
      rw [finds] at begins
      cases begins
    | some i =>
      rw [finds] at begins reads
      obtain ⟨rfl, tail⟩ := cons.inj begins
      have later := ih (i + 1) (findFrom_lt finds).2 tail
        fun name mem => fit name (mem_cons_of_mem _ mem)
      rw [elim_some, take_of_length_le (fit _ mem_cons_self)] at reads
      rw [length_cons, add_right_comm, readdirs, reads]
      simp only [bind_eq_bind, bind_some, later]
      rfl

end Listing

end Fs

end Pintos.Filesys
