import Pintos.Filesys.Directory

/-!
# Directories as flat files

A directory is a flat file of slots.  The loops over its entries, and `lookup`, find the first slot of
the flat file that meets a test.
-/

namespace Pintos.Filesys

open Option

/-- The number of whole entries of a directory. -/
def slots (directory : FlatFile) : Nat := directory.length / entrySize

def entryAt (directory : FlatFile) (index : Nat) : DirEntry :=
  Buffer.zeros.copy 0 directory.bytes (entrySize * index) entrySize

/-- The first slot whose entry meets a test. -/
def findSlot (stop : DirEntry → Bool) (directory : FlatFile) : Option Nat :=
  (List.range (slots directory)).find? fun index => stop (entryAt directory index)

/-- The entry that `lookup` finds, and its offset. -/
def entryNamed (directory : FlatFile) (name : CString) : Option (DirEntry × Nat) :=
  if pathIsvalid name then
    (findSlot (DirEntry.isNamed name) directory).map fun index =>
      (entryAt directory index, entrySize * index)
  else
    none

/-- An entry has no bytes after its last field. -/
def IsEntry (e : DirEntry) : Prop := ∀ i, entrySize ≤ i → e i = 0

/-- What a loop over the entries leaves behind. -/
inductive ScanResult (directory : FlatFile) : Option Nat → DirEntry → Nat → Bool → Prop
  | found (i : Nat) : ScanResult directory (some i) (entryAt directory i) (entrySize * i) true
  | missing (e : DirEntry) (is_entry : IsEntry e) :
      ScanResult directory none e (entrySize * slots directory) false

variable {dir : FlatFile} {e : DirEntry} {i : Nat} {name : CString} {stop : DirEntry → Bool}

theorem findSlot_eq_some : findSlot stop dir = some i ↔
    i < slots dir ∧ stop (entryAt dir i) = true ∧ ∀ prev < i, stop (entryAt dir prev) = false := by
  simp [findSlot, List.find?_range_eq_some, and_left_comm]

theorem findSlot_eq_none : findSlot stop dir = none ↔
    ∀ i < slots dir, stop (entryAt dir i) = false := by
  simp [findSlot]

theorem isEntry_read (is_entry : IsEntry e) (ofs : Nat) : IsEntry (dir.read e entrySize ofs) := by
  intro i past
  unfold FlatFile.read
  rw [Buffer.copy_outside, is_entry i past]
  unfold FlatFile.readCount
  omega

theorem isEntry_entryAt (dir : FlatFile) (i : Nat) : IsEntry (entryAt dir i) := by
  intro pos past
  unfold entryAt
  rw [Buffer.copy_outside]
  · rfl
  · omega

theorem readCount_eq_iff : dir.readCount entrySize (entrySize * i) = entrySize ↔ i < slots dir := by
  unfold FlatFile.readCount slots entrySize
  omega

theorem read_eq_entryAt (is_entry : IsEntry e)
    (full : dir.readCount entrySize (entrySize * i) = entrySize) :
    dir.read e entrySize (entrySize * i) = entryAt dir i := by
  funext pos
  by_cases inside : pos < entrySize
  · unfold FlatFile.read entryAt
    rw [full, Buffer.copy_inside (Nat.zero_le _) (by omega),
      Buffer.copy_inside (Nat.zero_le _) (by omega)]
  · rw [isEntry_read is_entry _ pos (by omega), isEntry_entryAt dir i pos (by omega)]

namespace Fs

variable {fs s' : Fs} {owner : Owner} {files : Set Nat} {file : Nat} {view : OpenView}

/-- The first slot from an index on that meets a test. -/
def findFrom (stop : DirEntry → Bool) (dir : FlatFile) (index : Nat) : Option Nat :=
  (List.range' index (slots dir - index)).find? fun index => stop (entryAt dir index)

theorem findFrom_of_lt (below : i < slots dir) : findFrom stop dir i =
      if stop (entryAt dir i) then some i else findFrom stop dir (i + 1) := by
  unfold findFrom
  rw [show slots dir - i = slots dir - (i + 1) + 1 by omega, List.range'_succ, List.find?_cons]
  cases stop (entryAt dir i) <;> rfl

theorem findFrom_of_le (past : slots dir ≤ i) : findFrom stop dir i = none := by
  unfold findFrom
  rw [Nat.sub_eq_zero_of_le past]
  rfl

theorem findFrom_zero : findFrom stop dir 0 = findSlot stop dir := by
  unfold findFrom findSlot
  rw [List.range_eq_range', Nat.sub_zero]

section

variable (sound : fs.Sound owner files)
include sound

theorem scan_some (named : file ∈ files) (opened : fs.opens file = some view) (fuel : Nat)
    {i : Nat} {e e' : DirEntry} {ofs : Nat} {found : Bool} (is_entry : IsEntry e)
    (got : i ≤ slots (fs.content file))
    (runs : scan stop fuel fs view.ref e (entrySize * i) = some (s', e', ofs, found)) :
    s' = fs ∧ ScanResult (fs.content file) (findFrom stop (fs.content file) i) e' ofs found := by
  induction fuel generalizing i e with
  | zero => cases runs
  | succ fuel ih =>
    obtain ⟨⟨mid, bytes, count⟩, reads, runs⟩ := bind_eq_some_iff.mp runs
    obtain ⟨rfl, rfl, rfl, _⟩ := inodeReadAt_some sound named opened reads
    by_cases full : (mid.content file).readCount entrySize (entrySize * i) = entrySize
    · have below := readCount_eq_iff.mp full
      rw [findFrom_of_lt below]
      simp only [if_pos full, read_eq_entryAt is_entry full] at runs
      split at runs
      · next stops =>
          obtain ⟨rfl, rfl, rfl, rfl⟩ := by simpa using runs
          rw [if_pos stops]
          exact ⟨rfl, .found i⟩
      · next goes_on =>
          rw [if_neg goes_on]
          exact ih (isEntry_entryAt _ _) below runs
    · have past : slots (mid.content file) ≤ i := by
        have := readCount_eq_iff.not.mp full
        omega
      obtain rfl : i = slots (mid.content file) := Nat.le_antisymm got past
      simp only [if_neg full] at runs
      obtain ⟨rfl, rfl, rfl, rfl⟩ := by simpa using runs
      rw [findFrom_of_le past]
      exact ⟨rfl, .missing _ (isEntry_read is_entry _)⟩

/-- A loop over the entries of a directory that fits into its first inode returns. -/
theorem scan_isSome (named : file ∈ files) (opened : fs.opens file = some view)
    (short : (fs.content file).length ≤ 124928) (fuel : Nat) (i : Nat) (e : DirEntry)
    (got : i ≤ slots (fs.content file)) (enough : slots (fs.content file) < i + fuel) :
    ∃ res, scan stop fuel fs view.ref e (entrySize * i) = some res := by
  induction fuel generalizing i e with
  | zero => omega
  | succ fuel ih =>
    unfold scan
    rw [inodeReadAt_spec sound named opened e entrySize (entrySize * i) (by omega)]
    simp only [bind_eq_bind, bind_some]
    split
    · next full =>
        split
        · exact ⟨_, rfl⟩
        · exact ih (i + 1) _ (readCount_eq_iff.mp full) (by omega)
    · exact ⟨_, rfl⟩

theorem inodeLength_eq (named : file ∈ files) (is_open : fs.opens file = some view) :
    fs.inodeLength view.ref = some (fs.content file).length := by
  obtain ⟨node, here⟩ := sound.present named is_open
  rw [inodeLength_of_held here.listed.2, here.length]

theorem scanDir_some (named : file ∈ files) (opened : fs.opens file = some view) {e : DirEntry}
    {ofs : Nat} {found : Bool} (runs : fs.scanDir stop view.ref = some (s', e, ofs, found)) :
    s' = fs ∧ ScanResult (fs.content file) (findSlot stop (fs.content file)) e ofs found := by
  rw [scanDir, inodeLength_eq sound named opened] at runs
  rw [← findFrom_zero]
  exact scan_some sound named opened _ (fun _ _ => rfl) (Nat.zero_le _) runs

end

theorem scanDir_isSome (stop : DirEntry → Bool) (sound : fs.Sound owner files) (named : file ∈ files)
    (opened : fs.opens file = some view) (short : (fs.content file).length ≤ 124928) :
    ∃ res, fs.scanDir stop view.ref = some res := by
  rw [scanDir, inodeLength_eq sound named opened]
  exact scan_isSome sound named opened short _ 0 _ (Nat.zero_le _) (by unfold slots; omega)

theorem lookup_some (sound : fs.Sound owner files) (named : file ∈ files)
    (opened : fs.opens file = some view) {found : Option (DirEntry × Nat)}
    (looks : fs.lookup view.ref name = some (s', found)) :
    s' = fs ∧ found = entryNamed (fs.content file) name := by
  unfold lookup at looks
  unfold entryNamed
  split at looks
  · next is_valid =>
      obtain ⟨⟨mid, e, ofs, stopped⟩, runs, is_result⟩ := bind_eq_some_iff.mp looks
      obtain ⟨rfl, rfl⟩ := Prod.mk.inj (some.inj is_result)
      obtain ⟨rfl, res⟩ := scanDir_some sound named opened runs
      refine ⟨rfl, ?_⟩
      rw [if_pos is_valid]
      generalize findSlot (DirEntry.isNamed name) (mid.content file) = slot at res ⊢
      cases res with
      | found i => rfl
      | missing e is_entry => rfl
  · next invalid =>
      obtain ⟨rfl, rfl⟩ := Prod.mk.inj (some.inj looks)
      exact ⟨rfl, (if_neg invalid).symm⟩

theorem lookup_eq (sound : fs.Sound owner files) (named : file ∈ files)
    (opened : fs.opens file = some view) (short : (fs.content file).length ≤ 124928)
    (name : CString) : fs.lookup view.ref name = some (fs, entryNamed (fs.content file) name) := by
  obtain ⟨⟨s', found⟩, looks⟩ : ∃ res, fs.lookup view.ref name = some res := by
    unfold lookup
    split
    · obtain ⟨res, runs⟩ := scanDir_isSome (DirEntry.isNamed name) sound named opened short
      rw [runs]
      exact ⟨_, rfl⟩
    · exact ⟨_, rfl⟩
  obtain ⟨rfl, rfl⟩ := lookup_some sound named opened looks
  exact looks

end Fs

end Pintos.Filesys
