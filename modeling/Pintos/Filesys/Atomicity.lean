import Pintos.Filesys.BlockPointers
import Pintos.Filesys.Session

/-!
# Growth that fails

`inode_write_at` returns 0 if the file cannot grow, but sectors that were allocated by then stay
allocated, and an inode that was full has its new length already.  Nothing has changed exactly if not
a single sector was free and the inode had room for another block.
-/

namespace Pintos.Filesys

open Function Option Nat

namespace Fs

variable {fs mid s' : Fs} {r current other : Ref} {node : Inode} {bytesLeft length : Nat}

/-! ## The length of an inode in memory -/

/-- The length that an inode in memory has for its file. -/
def lengthOf (fs : Fs) (r : Ref) : Option Nat :=
  (fs.inodes r).map fun node => node.data.fileLength

theorem lengthOf_setInode_of_ne (ne : r ≠ other) :
    (fs.setInode other node).lengthOf r = fs.lengthOf r :=
  congrArg _ (update_of_ne ne ..)

theorem lengthOf_setInode_self : (fs.setInode r node).lengthOf r = some node.data.fileLength :=
  congrArg _ (update_self ..)

/-- The inode in memory keeps its length, and its address is not given out again. -/
structure SameLength (r : Ref) (fs s' : Fs) : Prop where
  allocated : r < s'.heapTop
  length : s'.lengthOf r = fs.lengthOf r

theorem SameLength.trans (fst : SameLength r fs mid) (snd : SameLength r mid s') :
    SameLength r fs s' :=
  ⟨snd.allocated, snd.length.trans fst.length⟩

section

variable (same : SameLength r fs mid)
include same

theorem SameLength.setInode (ne : r ≠ other) : SameLength r fs (mid.setInode other node) :=
  ⟨same.allocated, (lengthOf_setInode_of_ne ne).trans same.length⟩

theorem SameLength.restore {new : Inode} (held : fs.inodes other = some node)
    (len : new.data.fileLength = node.data.fileLength) :
    SameLength r fs (mid.setInode other new) := by
  by_cases ne : r = other
  · refine ⟨same.allocated, ?_⟩
    rw [ne, lengthOf_setInode_self, lengthOf, held, len]
    rfl
  · exact same.setInode ne

theorem SameLength.free (ne : r ≠ other) : SameLength r fs (mid.free other) :=
  ⟨same.allocated, (congrArg _ (update_of_ne ne ..)).trans same.length⟩

end

theorem sameLength_blockWrite {sec : Option Nat} {block : Buffer} (taken : r < fs.heapTop)
    (wrote : fs.blockWrite sec block = some s') : SameLength r fs s' := by
  cases sec with
  | none => cases wrote
  | some sec =>
    simp only [blockWrite] at wrote
    split at wrote
    · cases wrote
      exact ⟨taken, rfl⟩
    · cases wrote

theorem sameLength_inodeOpen {sec : Nat} {next : Ref} (taken : r < fs.heapTop)
    (opens : fs.inodeOpen sec = some (s', next)) : SameLength r fs s' := by
  have self : SameLength r fs fs := ⟨taken, rfl⟩
  rcases inodeOpen_cases opens with ⟨node, _, _, held, _, rfl⟩ | ⟨_, _, _, rfl⟩
  · exact self.restore held rfl
  · exact ⟨Nat.lt_succ_of_lt taken, congrArg _ (update_of_ne (Nat.ne_of_lt taken) ..)⟩

theorem lasting_sameLength (r : Ref) (start : Fs) : Lasting (SameLength r start) where
  follows same held opens := same.trans
    ((sameLength_inodeOpen same.allocated opens).restore held rfl)
  writes same writes := same.trans (sameLength_blockWrite same.allocated writes)

section

variable (allocated : r < fs.heapTop)
include allocated

theorem sameLength_freeMapAllocate {cnt : Nat} {sec : Option Nat}
    (takes : fs.freeMapAllocate cnt = some (s', sec)) : SameLength r fs s' := by
  have self : SameLength r fs fs := ⟨allocated, rfl⟩
  unfold freeMapAllocate at takes
  split at takes
  · cases takes
    exact self
  · split at takes
    · cases takes
      exact ⟨allocated, rfl⟩
    · obtain ⟨⟨mid, put⟩, wrote, takes⟩ := bind_eq_some_iff.mp takes
      have kept : SameLength r fs mid :=
        (lasting_sameLength r fs).bitmapWrite (by exact ⟨allocated, rfl⟩) wrote
      dsimp only at takes
      split at takes
      · cases takes
        exact kept
      · cases takes
        exact ⟨kept.allocated, kept.length⟩

theorem sameLength_allocateInode {made : Ref}
    (allocs : fs.allocateInode true = some (s', some made)) :
    SameLength r fs s' ∧ r ≠ made := by
  obtain ⟨⟨mid, sec⟩, takes, allocs⟩ := bind_eq_some_iff.mp allocs
  have kept := sameLength_freeMapAllocate allocated takes
  cases sec with
  | none => cases allocs
  | some sec =>
    obtain ⟨rfl, is_made⟩ := Prod.mk.inj (some.inj allocs)
    have ne : r ≠ made := by
      rw [← some.inj is_made]
      exact Nat.ne_of_lt kept.allocated
    cases is_made
    refine ⟨⟨lt_succ_of_lt kept.allocated, ?_⟩, ne⟩
    rw [← kept.length]
    unfold lengthOf
    exact congrArg _ (update_of_ne ne ..)

theorem sameLength_fillLoop {room left : Nat} {data filled : InodeDisk} {ok : Bool}
    (fills : fillLoop room fs data bytesLeft = some (s', filled, left, ok)) :
    SameLength r fs s' := by
  induction room generalizing fs data bytesLeft with
  | zero =>
    obtain ⟨rfl, rfl, rfl, rfl⟩ := some.inj fills
    exact ⟨allocated, rfl⟩
  | succ room ih =>
    simp only [fillLoop] at fills
    split at fills
    · obtain ⟨rfl, rfl, rfl, rfl⟩ := some.inj fills
      exact ⟨allocated, rfl⟩
    · obtain ⟨⟨mid, sec⟩, takes, fills⟩ := bind_eq_some_iff.mp fills
      have kept := sameLength_freeMapAllocate allocated takes
      cases sec with
      | none =>
        obtain ⟨rfl, rfl, rfl, rfl⟩ := some.inj fills
        exact kept
      | some sec =>
        obtain ⟨last, wrote, fills⟩ := bind_eq_some_iff.mp fills
        have put := kept.trans (sameLength_blockWrite kept.allocated wrote)
        exact put.trans (ih put.allocated fills)

theorem sameLength_inodeFill {left : Nat} {ok : Bool} (ne : r ≠ current)
    (fills : fs.inodeFill current bytesLeft length = some (s', left, ok)) :
    SameLength r fs s' := by
  obtain ⟨node, _, fills⟩ := bind_eq_some_iff.mp fills
  obtain ⟨⟨mid, data, left, filled⟩, loops, fills⟩ := bind_eq_some_iff.mp fills
  have kept := sameLength_fillLoop allocated loops
  dsimp only at fills
  split at fills
  · obtain ⟨last, wrote, fills⟩ := bind_eq_some_iff.mp fills
    obtain ⟨rfl, rfl, rfl⟩ := some.inj fills
    refine SameLength.trans (kept.setInode ne) (sameLength_blockWrite ?_ wrote)
    exact kept.allocated
  · obtain ⟨rfl, rfl, rfl⟩ := some.inj fills
    exact kept.setInode ne

/-- Linking a new inode keeps the length of the one before it, if the recursive call does. -/
theorem sameLength_linkNext {extend : Fs → Ref → Nat → Option (Fs × Option Ref)} {prev : Ref}
    {tail : Option Ref}
    (extends_later : ∀ {fs s' : Fs} {cur : Ref} {togo : Nat} {tail : Option Ref},
      r < fs.heapTop → r ≠ cur → extend fs cur togo = some (s', tail) → SameLength r fs s')
    (links : linkNext extend fs prev togo length = some (s', tail)) :
    SameLength r fs s' := by
  obtain ⟨⟨fst, made⟩, allocs, links⟩ := bind_eq_some_iff.mp links
  cases made with
  | none =>
    cases links
    obtain ⟨⟨mid, sec⟩, takes, allocs⟩ := bind_eq_some_iff.mp allocs
    have kept := sameLength_freeMapAllocate allocated takes
    cases sec with
    | none =>
      cases allocs
      exact kept
    | some sec => cases allocs
  | some made =>
    obtain ⟨kept, ne⟩ := sameLength_allocateInode allocated allocs
    obtain ⟨⟨snd, left, filled⟩, fills, links⟩ := bind_eq_some_iff.mp links
    have full := kept.trans (sameLength_inodeFill kept.allocated ne fills)
    dsimp only at links
    split at links
    · cases links
      exact full.free ne
    · obtain ⟨node, _, links⟩ := bind_eq_some_iff.mp links
      obtain ⟨prevNode, held, links⟩ := bind_eq_some_iff.mp links
      obtain ⟨⟨third, last⟩, extends_, links⟩ := bind_eq_some_iff.mp links
      have self : SameLength r snd snd := ⟨full.allocated, rfl⟩
      have grown : SameLength r fs third := by
        refine full.trans (SameLength.trans (self.restore held ?_) (extends_later ?_ ne extends_))
        · rfl
        · exact full.allocated
      cases last with
      | none =>
        cases links
        exact grown.free ne
      | some last =>
        obtain ⟨prevNode, _, links⟩ := bind_eq_some_iff.mp links
        obtain ⟨node, _, links⟩ := bind_eq_some_iff.mp links
        obtain ⟨fourth, wrote, links⟩ := bind_eq_some_iff.mp links
        obtain ⟨fifth, writes', links⟩ := bind_eq_some_iff.mp links
        cases links
        have put : SameLength r fs fourth := by
          refine SameLength.trans (grown.setInode ne) (sameLength_blockWrite ?_ wrote)
          exact grown.allocated
        exact put.trans (sameLength_blockWrite put.allocated writes')

theorem sameLength_extendLink {fuel : Nat} {prev : Ref} {tail : Option Ref} (ne : r ≠ prev)
    (extends_ : extendLink fuel fs prev bytesLeft length = some (s', tail)) :
    SameLength r fs s' := by
  induction fuel generalizing fs s' prev bytesLeft tail with
  | zero => cases extends_
  | succ fuel ih =>
    obtain ⟨⟨mid, left, filled⟩, fills, extends_⟩ := bind_eq_some_iff.mp extends_
    have kept := sameLength_inodeFill allocated ne fills
    dsimp only at extends_
    split at extends_
    · cases extends_
      exact kept
    · split at extends_
      · cases extends_
        exact kept
      · exact kept.trans (sameLength_linkNext kept.allocated
          (fun allocated ne extends_ => ih allocated ne extends_) extends_)

end

/-! ## Failing growth -/

/-- `inode_write_at` has to grow the file and cannot, and that is because no sector is free. -/
structure FailsToGrow (fs s' : Fs) (r : Ref) (node : Inode) (size ofs : Nat) : Prop where
  held : fs.inodes r = some node
  allocated : r < fs.heapTop
  writable : node.denyWriteCnt = 0
  small : size + ofs < 2 ^ 31
  grows : node.data.fileLength < size + ofs
  fails : fs.inodeExtendLink r (size + ofs - node.data.fileLength) (size + ofs) =
    some (s', none)
  exhausted : s'.freeMap.scan 0 1 false = none

/-- The inodes in memory that are linked from an inode on. -/
def Linked (fs : Fs) : Ref → Ref → Prop :=
  Relation.ReflTransGen fun first second =>
    ∃ node, fs.inodes first = some node ∧ node.next = some second

/-- The inode, those linked to it, their images on the device and the free map are as before. -/
structure Untouched (fs s' : Fs) (r : Ref) : Prop where
  memory : ∀ other, fs.Linked r other → s'.inodes other = fs.inodes other
  image : ∀ other node, fs.Linked r other → fs.inodes other = some node →
    s'.disk node.sector = fs.disk node.sector
  freeMap : s'.freeMap = fs.freeMap

variable {size ofs : Nat}

theorem FailsToGrow.inodeWriteAt (failing : FailsToGrow fs s' r node size ofs)
    (buf : Buffer) : fs.inodeWriteAt r buf size ofs = some (s', 0) := by
  unfold Fs.inodeWriteAt writeAt
  rw [failing.held, bind_eq_bind, bind_some]
  rw [if_neg (not_not.mpr failing.writable), if_neg (not_le.mpr failing.small),
    if_pos failing.grows, failing.fails]
  rfl

/-- Without a free sector an inode with room for a block is left alone. -/
theorem inodeExtendLink_full {left : Nat} (len : Nat) (held : fs.inodes r = some node)
    (full : fs.freeMap.scan 0 1 false = none) (room : node.data.sectors < nodeCapacity)
    (pos : 0 < left) : fs.inodeExtendLink r left len = some (fs, none) := by
  obtain ⟨blocks, is_blocks⟩ : ∃ blocks, nodeCapacity - node.data.sectors = blocks + 1 :=
    ⟨nodeCapacity - node.data.sectors - 1, by omega⟩
  have takes : fs.freeMapAllocate 1 = some (fs, none) := by
    unfold freeMapAllocate
    rw [full]
  have loops : fillLoop (nodeCapacity - node.data.sectors) fs node.data left =
      some (fs, node.data, left, false) := by
    rw [is_blocks, fillLoop, if_neg (ne_of_gt pos), takes]
    rfl
  have same : fs.setInode r node = fs := by
    unfold setInode
    rw [update_eq_self_iff.mpr held.symm]
  have fills : fs.inodeFill r left len = some (fs, left, false) := by
    unfold inodeFill
    rw [held, bind_eq_bind, bind_some, loops, bind_eq_bind, bind_some]
    exact congrArg (fun state => some (state, left, false)) same
  rw [inodeExtendLink, extendLink, fills, bind_eq_bind, bind_some]
  rfl

/-- A full inode gets its new length before another one is linked to it. -/
theorem FailsToGrow.length_of_no_room (failing : FailsToGrow fs s' r node size ofs)
    (no_room : nodeCapacity ≤ node.data.sectors) : s'.lengthOf r = some (size + ofs) := by
  obtain ⟨left, is_left⟩ : ∃ left, size + ofs - node.data.fileLength = left + 1 :=
    ⟨size + ofs - node.data.fileLength - 1, by have := failing.grows; omega⟩
  have fails := failing.fails
  rw [is_left, inodeExtendLink, extendLink] at fails
  obtain ⟨⟨mid, rest, filled⟩, fills, fails⟩ := bind_eq_some_iff.mp fails
  have len : SameLength r (fs.setInode r
      { node with data := { node.data with fileLength := size + ofs } }) mid ∧
      rest = left + 1 ∧ filled = true := by
    unfold inodeFill at fills
    rw [failing.held, bind_eq_bind, bind_some, Nat.sub_eq_zero_of_le no_room, fillLoop,
      bind_eq_bind, bind_some] at fills
    dsimp only at fills
    rw [if_pos rfl] at fills
    obtain ⟨put, wrote, fills⟩ := bind_eq_some_iff.mp fills
    obtain ⟨rfl, rfl, rfl⟩ := some.inj fills
    exact ⟨sameLength_blockWrite failing.allocated wrote, rfl, rfl⟩
  obtain ⟨kept, rfl, rfl⟩ := len
  dsimp only at fails
  rw [if_neg (by decide), if_neg (succ_ne_zero left)] at fails
  have link := sameLength_linkNext kept.allocated
    (fun taken ne extends_ => sameLength_extendLink taken ne extends_) fails
  rw [link.length, kept.length, lengthOf_setInode_self]

/-- Growth that fails for want of free sectors leaves everything as it was exactly if no sector was
free to begin with and the inode had room for another block. -/
theorem untouched_iff_no_sector_taken (failing : FailsToGrow fs after inode node size offset)
    (buffer : Buffer) : fs.inodeWriteAt inode buffer size offset = some (after, 0) ∧
      (Untouched fs after inode ↔
        fs.freeMap.scan 0 1 false = none ∧ node.data.sectors < nodeCapacity) := by
  refine ⟨failing.inodeWriteAt buffer, fun clean => ⟨?_, ?_⟩, ?_⟩
  · rw [← clean.freeMap]
    exact failing.exhausted
  · by_contra no_room
    have len := failing.length_of_no_room (Nat.not_lt.mp no_room)
    unfold lengthOf at len
    rw [clean.memory inode .refl, failing.held, map_some] at len
    have grows := failing.grows
    rw [some.inj len] at grows
    exact Nat.lt_irrefl _ grows
  · rintro ⟨full, room⟩
    have fails := inodeExtendLink_full (size + offset) failing.held full room
      (Nat.sub_pos_of_lt failing.grows)
    obtain ⟨rfl, _⟩ := Prod.mk.inj (some.inj (fails.symm.trans failing.fails))
    exact ⟨fun _ _ => rfl, fun _ _ _ _ => rfl, rfl⟩

/-- A device without a free sector, and an empty inode in memory. -/
def fullDevice : Fs where
  size := 1
  disk _ := Buffer.zeros
  freeMap := ⟨1, fun _ => true⟩
  freeMapFile := none
  inodes r := if r = 0 then some ⟨0, 1, false, 0, false, ⟨0, 0, 0, 0, 0, 0, fun _ => 0⟩, none⟩
    else none
  heapTop := 1
  openInodes := [0]
  garbage := Session.blankMemory

theorem untouched_iff_no_sector_taken_full : FailsToGrow fullDevice fullDevice 0
        ⟨0, 1, false, 0, false, ⟨0, 0, 0, 0, 0, 0, fun _ => 0⟩, none⟩ 10 0 ∧
      fullDevice.inodeWriteAt 0 Buffer.zeros 10 0 = some (fullDevice, 0) ∧
        Untouched fullDevice fullDevice 0 := by
  have fails : FailsToGrow fullDevice fullDevice 0
      ⟨0, 1, false, 0, false, ⟨0, 0, 0, 0, 0, 0, fun _ => 0⟩, none⟩ 10 0 := by
    refine ⟨rfl, by decide, rfl, by decide, by decide, ?_, by decide⟩
    exact inodeExtendLink_full _ rfl (by decide) (by decide) (by decide)
  obtain ⟨wrote, exact_condition⟩ := untouched_iff_no_sector_taken fails Buffer.zeros
  exact ⟨fails, wrote, exact_condition.mpr (by decide)⟩

/-- On a device of eight sectors, an empty file is asked to grow by 3000 bytes.  The write returns 0;
the sectors that were free are taken and belong to no file that reaches them. -/
theorem failed_write_takes_sectors : ∃ fs session after,
    Fs.filesysInit 8 (fun _ => Buffer.zeros) Session.blankMemory = some fs ∧
      Execution.run Session.step (Session.start fs) [.inodeCreate 0, .inodeOpen 4] = some session ∧
      session.fs.inodeWriteAt 6 Buffer.zeros 3000 0 = some (after, 0) ∧
      (session.fs.freeMap.bits 5 = false ∧ after.freeMap.bits 5 = true) ∧
      ((session.fs.inodes 6).map fun node => node.data.nodeLength) = some 0 ∧
      ((after.inodes 6).map fun node => node.data.nodeLength) = some 1536 ∧
      ¬ Untouched session.fs after 6 := by
  have runs : ((Fs.filesysInit 8 (fun _ => Buffer.zeros) Session.blankMemory).bind fun fs =>
      (Execution.run Session.step (Session.start fs) [.inodeCreate 0, .inodeOpen 4]).bind fun session =>
        (session.fs.inodeWriteAt 6 Buffer.zeros 3000 0).map fun res =>
          (res.2, session.fs.freeMap.bits 5, res.1.freeMap.bits 5,
            (session.fs.inodes 6).map fun node => node.data.nodeLength,
            (res.1.inodes 6).map fun node => node.data.nodeLength)) =
      some (0, false, true, some 0, some 1536) := by
    decide +kernel
  obtain ⟨fs, made, runs⟩ := bind_eq_some_iff.mp runs
  obtain ⟨session, got, runs⟩ := bind_eq_some_iff.mp runs
  obtain ⟨⟨after, put⟩, wrote, values⟩ := map_eq_some_iff.mp runs
  simp only [Prod.mk.injEq] at values
  obtain ⟨rfl, free, taken, empty, grown⟩ := values
  refine ⟨fs, session, after, made, got, wrote, ⟨free, taken⟩, empty, grown, ?_⟩
  intro clean
  rw [clean.freeMap, free] at taken
  cases taken

end Fs

end Pintos.Filesys
