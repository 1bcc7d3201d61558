import Pintos.Filesys.Image

/-!
# Reading and writing blocks

What the loops of `inode_read_at` and `inode_write_at` do to an inode whose blocks are in place:
they move exactly the bytes asked for, block by block, up to the end of the file.  Past the first
`BYTE_CAPACITY` bytes they find no sector and the kernel panics.
-/

namespace Pintos.Filesys

open Function Option Nat

namespace InodeDisk

def block (data : InodeDisk) (index : Nat) : Nat := ptrGetAddress (data.blockptrs index)

theorem sectors_le {data : InodeDisk} (bounded : data.nodeLength ≤ 124928) :
    data.sectors ≤ 244 := by
  simp only [sectors, divRoundUp, blockSectorSize]
  omega

theorem sectors_mono {data data' : InodeDisk} (longer : data.nodeLength ≤ data'.nodeLength) :
    data.sectors ≤ data'.sectors := by
  simp only [sectors, divRoundUp, blockSectorSize]
  omega

theorem nodeLength_le (data : InodeDisk) : data.nodeLength ≤ 512 * data.sectors := by
  simp only [sectors, divRoundUp, blockSectorSize]
  omega

end InodeDisk

/-- The blocks of an inode are in place up to its length. -/
structure Fs.Readable (fs : Fs) (data : InodeDisk) : Prop where
  prev : data.prevLength = 0
  covered : min data.fileLength 124928 ≤ 512 * data.sectors
  inPlace : ∀ i < data.sectors, ptrExists (data.blockptrs i) = true
  onDevice : ∀ i < data.sectors, data.block i < fs.size

namespace Fs

def byte (fs : Fs) (data : InodeDisk) (pos : Nat) : UInt8 :=
  fs.disk (data.block (pos / 512)) (pos % 512)

variable {fs s' : Fs} {r : Ref} {node : Inode} {pos sector ofs length size : Nat}

theorem inodeLength_of_held (held : fs.inodes r = some node) :
    fs.inodeLength r = some node.data.fileLength := by
  rw [inodeLength, held]
  rfl

theorem Readable.index_lt (reads : fs.Readable node.data)
    (below : pos < node.data.fileLength) (inside : pos < 124928) :
    pos / 512 < node.data.sectors := by
  have covered := reads.covered
  omega

theorem byteToSector_inside (held : fs.inodes r = some node)
    (reads : fs.Readable node.data) (below : pos < node.data.fileLength)
    (inside : pos < 124928) :
    fs.byteToSector r pos = some (fs, some (node.data.block (pos / 512))) := by
  have found : byteToInode (fs.size + 1) fs r pos = some (fs, some r) := by
    simp [byteToInode, held, below, reads.prev, inside]
  have placed := reads.inPlace _ (reads.index_lt below inside)
  simp [byteToSector, found, held, reads.prev, placed, InodeDisk.block]

theorem byteToSector_past (held : fs.inodes r = some node)
    (past : node.data.fileLength ≤ pos) : fs.byteToSector r pos = some (fs, none) := by
  have missing : byteToInode (fs.size + 1) fs r pos = some (fs, none) := by
    simp [byteToInode, held, not_lt.mpr past]
  simp [byteToSector, missing]

/-! ## Reading -/

theorem chunk_in_block {i : Nat} (small : i < chunkSize length size ofs) :
    (ofs + i) / 512 = ofs / 512 ∧ (ofs + i) % 512 = ofs % 512 + i := by
  simp only [chunkSize, blockSectorSize] at small
  omega

theorem chunkSize_eq_zero (pos : size ≠ 0) : chunkSize length size ofs = 0 ↔ length ≤ ofs := by
  simp only [chunkSize, blockSectorSize]
  omega

theorem copy_chunk (data : InodeDisk) (buf : Buffer) {done : Nat} :
    (if ofs % 512 = 0 ∧ chunkSize length size ofs = 512 then
        buf.copy done (fs.disk (data.block (ofs / 512))) 0 512
      else
        buf.copy done (fs.disk (data.block (ofs / 512))) (ofs % 512) (chunkSize length size ofs)) =
      buf.copy done (fs.byte data) ofs (chunkSize length size ofs) := by
  have chunk : buf.copy done (fs.disk (data.block (ofs / 512)))
        (ofs % 512) (chunkSize length size ofs) =
      buf.copy done (fs.byte data) ofs (chunkSize length size ofs) := by
    apply Buffer.copy_congr
    intro i small
    obtain ⟨quotient, remainder⟩ := chunk_in_block small
    unfold byte
    rw [quotient, remainder]
  split
  · rename_i whole
    rw [← chunk, whole.1, whole.2]
  · exact chunk

theorem readLoop_past (held : fs.inodes r = some node) (fuel : Nat) (buf : Buffer)
    (size done : Nat) (past : node.data.fileLength ≤ ofs) :
    readLoop fuel fs r buf size ofs done = some (fs, buf, done) := by
  cases fuel with
  | zero => rfl
  | succ fuel =>
    rcases Nat.eq_zero_or_pos size with rfl | pos
    · simp [readLoop]
    have length := inodeLength_of_held held
    have stops : chunkSize node.data.fileLength size ofs = 0 :=
      (chunkSize_eq_zero (by omega)).mpr past
    simp [readLoop, Nat.ne_of_gt pos, byteToSector_past held past, length, stops]

/-- The loop of `inode_read_at` copies the bytes up to the end of the file. -/
theorem readLoop_spec (held : fs.inodes r = some node) (reads : fs.Readable node.data)
    (fuel : Nat) (buf : Buffer) (size ofs done : Nat) (enough : size ≤ fuel)
    (inside : min (ofs + size) node.data.fileLength ≤ 124928) :
    readLoop fuel fs r buf size ofs done =
      some (fs, buf.copy done (fs.byte node.data) ofs (min size (node.data.fileLength - ofs)),
        done + min size (node.data.fileLength - ofs)) := by
  induction fuel generalizing buf size ofs done with
  | zero =>
    obtain rfl := Nat.le_zero.mp enough
    simp [readLoop]
  | succ fuel ih =>
    rcases Nat.eq_zero_or_pos size with rfl | pos
    · simp [readLoop]
    have length := inodeLength_of_held held
    rcases lt_or_ge ofs node.data.fileLength with below | past
    · have sec := byteToSector_inside held reads below (by omega)
      have fits := reads.onDevice _ (reads.index_lt below (by omega))
      have moves : chunkSize node.data.fileLength size ofs ≠ 0 := by
        rw [Ne, chunkSize_eq_zero (by omega)]
        omega
      have bounded : chunkSize node.data.fileLength size ofs ≤
          min size (node.data.fileLength - ofs) := by
        simp only [chunkSize]
        omega
      simp only [readLoop, if_neg (ne_of_gt pos), sec, length, bind_eq_bind,
        bind_some, if_neg moves, blockRead, if_pos fits, copy_chunk]
      rw [ih _ _ _ _ (by omega) (by omega), Buffer.copy_copy]
      have total : chunkSize node.data.fileLength size ofs +
          min (size - chunkSize node.data.fileLength size ofs)
            (node.data.fileLength - (ofs + chunkSize node.data.fileLength size ofs)) =
          min size (node.data.fileLength - ofs) := by omega
      rw [add_assoc done, total]
    · have nothing : min size (node.data.fileLength - ofs) = 0 := by omega
      rw [readLoop_past held _ buf size done past]
      simp [nothing]

/-! ## Writing -/

/-- The bytes of an inode from `first` up to `last` have been replaced. -/
structure Written (fs : Fs) (data : InodeDisk) (source : Nat → UInt8) (first last : Nat)
    (s' : Fs) : Prop where
  rest : s' = { fs with disk := s'.disk }
  inside : ∀ i < data.sectors, ∀ position < 512, s'.disk (data.block i) position =
      if first ≤ 512 * i + position ∧ 512 * i + position < last then
        source (512 * i + position)
      else
        fs.disk (data.block i) position
  outside : ∀ sector, (∀ i < data.sectors, data.block i ≠ sector) → s'.disk sector = fs.disk sector

theorem Written.refl (fs : Fs) (data : InodeDisk) (source : Nat → UInt8) (first : Nat) :
    Written fs data source first first fs where
  rest := rfl
  inside i _ position _ := by
    rw [if_neg]
    omega
  outside _ _ := rfl

theorem Written.trans {mid : Fs} {data : InodeDisk} {source : Nat → UInt8}
    {first between last : Nat} (early : Written fs data source first between mid)
    (late : Written mid data source between last s') (ordered : first ≤ between)
    (upward : between ≤ last) : Written fs data source first last s' where
  rest := by
    rw [late.rest, early.rest]
  inside i below position small := by
    rw [late.inside i below position small, early.inside i below position small]
    split_ifs <;> first | rfl | omega
  outside sector other := by
    rw [late.outside sector other, early.outside sector other]

theorem written_chunk {data : InodeDisk} (buf : Buffer)
    (distinct : ∀ first < data.sectors, ∀ snd < data.sectors,
      data.block first = data.block snd → first = snd)
    {start chunk : Nat} (block : Buffer) (ordered : start ≤ ofs)
    (fits : ofs % 512 + chunk ≤ 512) (below : ofs / 512 < data.sectors)
    (bytes : ∀ position < 512, block position =
      if ofs % 512 ≤ position ∧ position < ofs % 512 + chunk then
        buf (ofs - start + (position - ofs % 512))
      else
        fs.disk (data.block (ofs / 512)) position) :
    Written fs data (fun pos => buf (pos - start)) ofs (ofs + chunk) { fs with
        disk := update fs.disk (data.block (ofs / 512)) block } where
  rest := rfl
  inside i indexed position small := by
    by_cases same : i = ofs / 512
    · subst same
      have place : 512 * (ofs / 512) + position - start =
          ofs - start + (position - ofs % 512) ∨ position < ofs % 512 := by omega
      simp only [update_self]
      rw [bytes position small]
      split_ifs with within range range
      · rw [place.resolve_right (by omega)]
      · omega
      · omega
      · rfl
    · have other : data.block i ≠ data.block (ofs / 512) := by
        intro equal
        exact same (distinct i indexed _ below equal)
      simp only [update_of_ne other]
      rw [if_neg]
      omega
  outside sector other := update_of_ne (other _ below).symm _ _

/-- One round of the loop of `inode_write_at` updates one sector. -/
theorem writeChunk_spec {done : Nat} (buf : Buffer) (fits : sector < fs.size) :
    ∃ block : Buffer, fs.writeChunk (some sector) buf (ofs % 512) done
          (chunkSize length size ofs) = some { fs with disk := update fs.disk sector block } ∧
      ∀ position < 512, block position =
        if ofs % 512 ≤ position ∧ position < ofs % 512 + chunkSize length size ofs then
          buf (done + (position - ofs % 512))
        else
          fs.disk sector position := by
  simp only [writeChunk, blockSectorSize]
  split
  · rename_i whole
    refine ⟨buf.drop done, by simp [blockWrite, fits], ?_⟩
    intro position small
    rw [if_pos (by omega), whole.1]
    rfl
  · rename_i partly
    -- the branch that starts from zeros would write a whole sector
    have reads : 0 < ofs % 512 ∨ chunkSize length size ofs < 512 - ofs % 512 := by
      simp only [chunkSize, blockSectorSize] at partly ⊢
      omega
    refine ⟨(fs.disk sector).copy (ofs % 512) buf done
      (chunkSize length size ofs), by simp [blockRead, blockWrite, fits, reads], ?_⟩
    intro position _
    rfl

/-- The loop of `inode_write_at` replaces the bytes of a range within the file. -/
theorem writeLoop_spec {start : Nat} (held : fs.inodes r = some node)
    (reads : fs.Readable node.data)
    (distinct : ∀ first < node.data.sectors, ∀ snd < node.data.sectors,
      node.data.block first = node.data.block snd → first = snd)
    (fuel : Nat) (buf : Buffer) (size ofs done : Nat) (enough : size ≤ fuel)
    (aligned : ofs = start + done) (below : ofs + size ≤ node.data.fileLength)
    (inside : ofs + size ≤ 124928) :
    ∃ s', writeLoop fuel fs r buf size ofs done = some (s', done + size) ∧
      Written fs node.data (fun pos => buf (pos - start)) ofs (ofs + size) s' := by
  induction fuel generalizing fs size ofs done with
  | zero =>
    obtain rfl := Nat.le_zero.mp enough
    exact ⟨fs, rfl, .refl fs node.data _ ofs⟩
  | succ fuel ih =>
    rcases Nat.eq_zero_or_pos size with rfl | positive
    · exact ⟨fs, by simp [writeLoop], .refl fs node.data _ ofs⟩
    have length := inodeLength_of_held held
    have sec := byteToSector_inside held reads (show ofs < _ by omega) (by omega)
    have i := reads.index_lt (show ofs < _ by omega) (by omega)
    have moves : chunkSize node.data.fileLength size ofs ≠ 0 := by
      rw [Ne, chunkSize_eq_zero (by omega)]
      omega
    have bounded : chunkSize node.data.fileLength size ofs ≤ size := by
      simp only [chunkSize]
      omega
    have fits : ofs % 512 + chunkSize node.data.fileLength size ofs ≤ 512 := by
      simp only [chunkSize, blockSectorSize]
      omega
    obtain ⟨block, round, bytes⟩ := @writeChunk_spec fs _ ofs
      node.data.fileLength size done buf (reads.onDevice _ i)
    rw [show done = ofs - start by omega] at bytes
    have early := written_chunk buf distinct block (by omega) fits i bytes
    obtain ⟨s', rest, late⟩ := @ih
      { fs with disk := update fs.disk (node.data.block (ofs / 512)) block }
      held ⟨reads.prev, reads.covered, reads.inPlace, reads.onDevice⟩
      (size - chunkSize node.data.fileLength size ofs)
      (ofs + chunkSize node.data.fileLength size ofs)
      (done + chunkSize node.data.fileLength size ofs)
      (by omega) (by omega) (by omega) (by omega)
    refine ⟨s', ?_, ?_⟩
    · simp only [writeLoop, if_neg (ne_of_gt positive), sec, length, bind_eq_bind,
        bind_some, if_neg moves, round]
      rw [rest]
      congr 2
      omega
    · have whole := early.trans late (by omega) (by omega)
      rwa [show ofs + chunkSize node.data.fileLength size ofs +
        (size - chunkSize node.data.fileLength size ofs) = ofs + size by omega] at whole

/-! ## Opening an inode -/

def inodeAt (fs : Fs) (sector : Nat) : InodeDisk := InodeDisk.ofBlock (fs.disk sector)

/-- The `struct inode` that `inode_open` makes for a sector that is not open. -/
def openedInode (fs : Fs) (sector : Nat) : Inode :=
  { fs.garbage fs.heapTop with
    sector
    openCnt := 1
    removed := false
    denyWriteCnt := 0
    next := none
    data := fs.inodeAt sector }

/-- The state after `inode_open` of a sector that was not open. -/
def opened (fs : Fs) (sector : Nat) : Fs :=
  { fs with
    inodes := update fs.inodes fs.heapTop (some (fs.openedInode sector))
    heapTop := fs.heapTop + 1
    openInodes := fs.heapTop :: fs.openInodes }

theorem inodeOpen_of_findOpen (found : fs.findOpen sector = some r)
    (held : fs.inodes r = some node) : fs.inodeOpen sector =
      some (fs.setInode r { node with openCnt := node.openCnt + 1 }, r) := by
  simp [inodeOpen, found, inodeReopen, held]

theorem inodeOpen_of_closed (closed : fs.findOpen sector = none) (fits : sector < fs.size) :
    fs.inodeOpen sector = some (fs.opened sector, fs.heapTop) := by
  simp [inodeOpen, closed, mallocInode, setInode, blockRead, fits, opened, openedInode, inodeAt]

theorem held_of_findOpen (found : fs.findOpen sector = some r) :
    r ∈ fs.openInodes ∧ ∃ node, fs.inodes r = some node ∧ node.sector = sector := by
  refine ⟨List.mem_of_find?_eq_some found, ?_⟩
  have listed := List.find?_some found
  cases held : fs.inodes r with
  | none => simp [holds, held] at listed
  | some node => exact ⟨node, rfl, by simpa [holds, held] using listed⟩

theorem inodeOpen_cases (ran : fs.inodeOpen sector = some (s', r)) :
    (∃ node, fs.findOpen sector = some r ∧ r ∈ fs.openInodes ∧
      fs.inodes r = some node ∧ node.sector = sector ∧
      s' = fs.setInode r { node with openCnt := node.openCnt + 1 }) ∨
    (fs.findOpen sector = none ∧ sector < fs.size ∧ r = fs.heapTop ∧ s' = fs.opened sector) := by
  cases found : fs.findOpen sector with
  | some known =>
    obtain ⟨listed, node, held, same⟩ := held_of_findOpen found
    rw [inodeOpen_of_findOpen found held] at ran
    cases ran
    exact .inl ⟨node, rfl, listed, held, same, rfl⟩
  | none =>
    rcases lt_or_ge sector fs.size with fits | past
    · rw [inodeOpen_of_closed found fits] at ran
      cases ran
      exact .inr ⟨rfl, fits, rfl, rfl⟩
    · simp [inodeOpen, found, mallocInode, setInode, blockRead, not_lt.mpr past] at ran

/-! ## Past the first inode -/

/-- An inode on the device, and every one linked to it, says that nothing comes before it. -/
inductive Headless (fs : Fs) : Nat → Prop
  | node {sector : Nat} (prev : (fs.inodeAt sector).prevLength = 0)
      (rest : ptrExists (fs.inodeAt sector).doubleptr = true →
        Headless fs (ptrGetAddress (fs.inodeAt sector).doubleptr)) : Headless fs sector

/-- The inodes in memory: `malloc` returns unused addresses, and every inode heads its chain. -/
structure Memory (fs : Fs) : Prop where
  fresh : ∀ r, fs.heapTop ≤ r → fs.inodes r = none
  prev : ∀ r node, fs.inodes r = some node → node.data.prevLength = 0
  rest : ∀ r node, fs.inodes r = some node → ptrExists node.data.doubleptr = true →
    Headless fs (ptrGetAddress node.data.doubleptr)

theorem Headless.of_disk (headless : Headless fs sector) (disk : s'.disk = fs.disk) :
    Headless s' sector := by
  induction headless with
  | @node sector prev _ ih =>
    have same : s'.inodeAt sector = fs.inodeAt sector := by
      unfold inodeAt
      rw [disk]
    refine .node (by rw [same]; exact prev) ?_
    rw [same]
    exact ih

section

variable (m : Memory fs)
include m

theorem Memory.lt_heapTop (held : fs.inodes r = some node) : r < fs.heapTop := by
  by_contra above
  rw [m.fresh r (not_lt.mp above)] at held
  cases held

theorem Memory.update {new : Inode}
    (inodes : s'.inodes = update fs.inodes r (some new)) (disk : s'.disk = fs.disk)
    (grown : fs.heapTop ≤ s'.heapTop) (below : r < s'.heapTop)
    (prev : new.data.prevLength = 0) (rest : ptrExists new.data.doubleptr = true →
      Headless fs (ptrGetAddress new.data.doubleptr)) : Memory s' := by
  have split : ∀ o present, s'.inodes o = some present →
      present = new ∨ fs.inodes o = some present := by
    intro o present found
    rw [inodes] at found
    by_cases same : o = r
    · subst same
      rw [update_self] at found
      exact .inl (some.inj found).symm
    · rw [update_of_ne same] at found
      exact .inr found
  refine ⟨?_, ?_, ?_⟩
  · intro o above
    rw [inodes, update_of_ne (ne_of_gt (lt_of_lt_of_le below above))]
    exact m.fresh o (le_trans grown above)
  · intro o present found
    rcases split o present found with rfl | old
    · exact prev
    · exact m.prev o present old
  · intro o present found linked
    rcases split o present found with rfl | old
    · exact (rest linked).of_disk disk
    · exact (m.rest o present old linked).of_disk disk

theorem Memory.setInode {new : Inode} (held : fs.inodes r = some node)
    (data : new.data = node.data) : Memory (fs.setInode r new) := by
  refine m.update rfl rfl (le_refl _) (m.lt_heapTop held) ?_ ?_
  · rw [data]
    exact m.prev r node held
  · rw [data]
    exact m.rest r node held

/-- `inode_open` keeps memory in order and the data of every inode in it. -/
theorem Memory.inodeOpen (device : Headless fs sector) (ran : fs.inodeOpen sector = some (s', r)) :
    Memory s' ∧ ∀ o here, fs.inodes o = some here →
      ∃ kept, s'.inodes o = some kept ∧ kept.data = here.data := by
  rcases inodeOpen_cases ran with ⟨node, _, _, held, _, rfl⟩ | ⟨_, _, _, rfl⟩
  · refine ⟨m.setInode held rfl, ?_⟩
    intro o here found
    by_cases same : o = r
    · subst same
      obtain rfl := some.inj (held.symm.trans found)
      exact ⟨_, update_self _ _ _, rfl⟩
    · exact ⟨here, (update_of_ne same _ _).trans found, rfl⟩
  · constructor
    · cases device with
      | node prev rest => exact m.update rfl rfl (le_succ _) (lt_succ_self _) prev rest
    · intro o here found
      have ne : o ≠ fs.heapTop := Nat.ne_of_lt (m.lt_heapTop found)
      exact ⟨here, (update_of_ne ne _ _).trans found, rfl⟩

end

/-- No inode of a chain takes a position past the first `BYTE_CAPACITY` bytes for its own, and the
search changes no data. -/
theorem byteToInode_beyond {found : Option Ref} (fuel : Nat) (m : Memory fs)
    (beyond : 124928 ≤ pos) (ran : byteToInode fuel fs r pos = some (s', found)) :
    found = none ∧ ∀ o here, fs.inodes o = some here →
      ∃ kept, s'.inodes o = some kept ∧ kept.data = here.data := by
  induction fuel generalizing fs r with
  | zero => cases ran
  | succ fuel ih =>
    obtain ⟨node, held, ran⟩ := bind_eq_some_iff.mp ran
    have ended : some (fs, none) = some (s', found) → found = none ∧
        ∀ o here, fs.inodes o = some here →
          ∃ kept, s'.inodes o = some kept ∧ kept.data = here.data := by
      intro res
      cases res
      exact ⟨rfl, fun _ here hit => ⟨here, hit, rfl⟩⟩
    simp only [m.prev r node held, Nat.not_lt_zero, if_false, Nat.sub_zero, byteCapacity,
      if_neg (Nat.not_lt.mpr beyond)] at ran
    split at ran
    · split at ran
      · split at ran
        · cases ran
        · exact ih m ran
      · split at ran
        · rename_i linked
          split at ran
          · cases ran
          · obtain ⟨⟨mid, next⟩, opens, ran⟩ := bind_eq_some_iff.mp ran
            obtain ⟨kept, unchanged⟩ := m.inodeOpen (m.rest r node held linked) opens
            obtain ⟨current, current_held, data⟩ := unchanged r node held
            have new : Memory (mid.setInode r { node with next := some next }) :=
              kept.setInode current_held data.symm
            obtain ⟨none_found, later⟩ := ih new ran
            refine ⟨none_found, ?_⟩
            intro o here hit
            obtain ⟨present', found', data'⟩ := unchanged o here hit
            by_cases same : o = r
            · subst same
              obtain ⟨last, last_found, last_data⟩ :=
                later o { node with next := some next } (update_self _ _ _)
              obtain rfl := some.inj (held.symm.trans hit)
              exact ⟨last, last_found, last_data⟩
            · obtain ⟨last, last_found, last_data⟩ :=
                later o present' ((update_of_ne same _ _).trans found')
              exact ⟨last, last_found, last_data.trans data'⟩
        · exact ended ran
    · exact ended ran

theorem byteToSector_beyond {sec : Option Nat} (m : Memory fs) (beyond : 124928 ≤ pos)
    (ran : fs.byteToSector r pos = some (s', sec)) :
    sec = none ∧ ∀ o here, fs.inodes o = some here →
      ∃ kept, s'.inodes o = some kept ∧ kept.data = here.data := by
  obtain ⟨⟨mid, found⟩, finds, ran⟩ := bind_eq_some_iff.mp ran
  obtain ⟨rfl, same⟩ := byteToInode_beyond _ m beyond finds
  cases ran
  exact ⟨rfl, same⟩

theorem readLoop_beyond (held : fs.inodes r = some node) (reads : fs.Readable node.data)
    (m : Memory fs) (fuel : Nat) (buf : Buffer) (size ofs done : Nat)
    (enough : size ≤ fuel) (pos : size ≠ 0) (ends : 124928 < ofs + size)
    (long : max ofs 124928 < node.data.fileLength) :
    readLoop fuel fs r buf size ofs done = none := by
  induction fuel generalizing buf size ofs done with
  | zero => omega
  | succ fuel ih =>
    have moves : chunkSize node.data.fileLength size ofs ≠ 0 := by
      rw [Ne, chunkSize_eq_zero pos]
      omega
    rcases lt_or_ge ofs 124928 with inside | beyond
    · have sec := byteToSector_inside held reads (show ofs < _ by omega) inside
      have fits := reads.onDevice _ (reads.index_lt (show ofs < _ by omega) inside)
      have length := inodeLength_of_held held
      have bounded : ofs + chunkSize node.data.fileLength size ofs ≤ 124928 := by
        simp only [chunkSize, blockSectorSize]
        omega
      simp only [readLoop, if_neg pos, sec, length, bind_eq_bind,
        bind_some, if_neg moves, blockRead, if_pos fits]
      exact ih _ _ _ _ (by omega) (by omega) (by omega) (by omega)
    · cases finds : fs.byteToSector r ofs with
      | none => simp [readLoop, pos, finds]
      | some found =>
        obtain ⟨s', sec⟩ := found
        obtain ⟨rfl, same⟩ := byteToSector_beyond m beyond finds
        obtain ⟨current, current_held, data⟩ := same r node held
        have length : s'.inodeLength r = some node.data.fileLength := by
          simp [inodeLength, current_held, data]
        simp [readLoop, pos, finds, length, moves, blockRead]

/-- A state that differs in the data blocks of one inode only. -/
structure SameButBlocks (fs : Fs) (data : InodeDisk) (s' : Fs) : Prop where
  rest : s' = { fs with disk := s'.disk }
  outside : ∀ sector, (∀ i < data.sectors, data.block i ≠ sector) → s'.disk sector = fs.disk sector

theorem writeLoop_beyond (held : fs.inodes r = some node) (reads : fs.Readable node.data)
    (m : ∀ s', SameButBlocks fs node.data s' → Memory s') (fuel : Nat)
    (buf : Buffer) (size ofs done : Nat) (enough : size ≤ fuel)
    (pos : size ≠ 0) (ends : 124928 < ofs + size)
    (long : max ofs 124928 < node.data.fileLength) :
    writeLoop fuel fs r buf size ofs done = none := by
  induction fuel generalizing fs size ofs done with
  | zero => omega
  | succ fuel ih =>
    have moves : chunkSize node.data.fileLength size ofs ≠ 0 := by
      rw [Ne, chunkSize_eq_zero pos]
      omega
    rcases lt_or_ge ofs 124928 with inside | beyond
    · have sec := byteToSector_inside held reads (show ofs < _ by omega) inside
      have i := reads.index_lt (show ofs < _ by omega) inside
      have length := inodeLength_of_held held
      have bounded : ofs + chunkSize node.data.fileLength size ofs ≤ 124928 := by
        simp only [chunkSize, blockSectorSize]
        omega
      obtain ⟨block, round, -⟩ := @writeChunk_spec fs _ ofs
        node.data.fileLength size done buf (reads.onDevice _ i)
      simp only [writeLoop, if_neg pos, sec, length, bind_eq_bind, bind_some, if_neg moves, round]
      refine @ih { fs with disk := update fs.disk (node.data.block (ofs / 512)) block } held
        ⟨reads.prev, reads.covered, reads.inPlace, reads.onDevice⟩ ?_
        (size - chunkSize node.data.fileLength size ofs)
        (ofs + chunkSize node.data.fileLength size ofs)
        (done + chunkSize node.data.fileLength size ofs)
        (by omega) (by omega) (by omega) (by omega)
      intro s' same
      refine m s' ⟨same.rest, ?_⟩
      intro o out
      rw [same.outside o out]
      exact update_of_ne (out _ i).symm _ _
    · have current : Memory fs := m fs ⟨rfl, fun _ _ => rfl⟩
      cases finds : fs.byteToSector r ofs with
      | none => simp [writeLoop, pos, finds]
      | some found =>
        obtain ⟨s', sec⟩ := found
        obtain ⟨rfl, kept⟩ := byteToSector_beyond current beyond finds
        obtain ⟨current, current_held, data⟩ := kept r node held
        have length : s'.inodeLength r = some node.data.fileLength := by
          simp [inodeLength, current_held, data]
        simp [writeLoop, pos, finds, length, moves, writeChunk, blockRead, blockWrite]

end Fs

end Pintos.Filesys
