import Pintos.Filesys.Format

/-!
# Block pointers and the sectors they stand for

A pointer keeps fourteen bits of the number of a sector, while the free map has a bit for every
sector of the device.  Pointers lead to the sectors they were made for exactly if the device has no
more than `2 ^ 14` sectors.
-/

namespace Pintos.Filesys

open Option Nat

/-! ## Flags -/

inductive PtrFlag
  | exist
  | isdir
  deriving DecidableEq

/-- `ptr_set_exist` or `ptr_set_isdir`. -/
def PtrFlag.set : PtrFlag → InodePtr → InodePtr
  | exist, ptr => ptrSetExist ptr
  | isdir, ptr => ptrSetIsdir ptr

/-- A pointer after some calls of `ptr_set_exist` and `ptr_set_isdir`. -/
def setFlags (flags : List PtrFlag) (ptr : InodePtr) : InodePtr :=
  flags.foldl (fun ptr flag => flag.set ptr) ptr

theorem or_two_pow_mod {number pos : Nat} (high : 14 ≤ pos) :
    (number ||| 2 ^ pos) % 2 ^ 14 = number % 2 ^ 14 := by
  apply eq_of_testBit_eq
  intro bit
  rw [testBit_mod_two_pow, testBit_mod_two_pow, testBit_or, testBit_two_pow]
  rcases lt_or_ge bit 14 with below | above
  · simp [show pos ≠ bit by omega]
  · simp [not_lt.mpr above]

@[simp] theorem ptrGetAddress_set (flag : PtrFlag) (ptr : InodePtr) :
    ptrGetAddress (flag.set ptr) = ptrGetAddress ptr := by
  rw [ptrGetAddress_eq, ptrGetAddress_eq]
  cases flag with
  | exist =>
    rw [PtrFlag.set, toNat_ptrSetExist]
    exact or_two_pow_mod (by omega)
  | isdir =>
    rw [PtrFlag.set, toNat_ptrSetIsdir]
    exact or_two_pow_mod (by omega)

@[simp] theorem ptrExists_set (flag : PtrFlag) (ptr : InodePtr) :
    ptrExists (flag.set ptr) = (decide (flag = .exist) || ptrExists ptr) := by
  cases flag with
  | exist => simp [PtrFlag.set]
  | isdir =>
    rw [PtrFlag.set, ptrExists_eq, ptrExists_eq, toNat_ptrSetIsdir, testBit_or, testBit_two_pow]
    simp

@[simp] theorem ptrIsdir_set (flag : PtrFlag) (ptr : InodePtr) :
    ptrIsdir (flag.set ptr) = (decide (flag = .isdir) || ptrIsdir ptr) := by
  cases flag with
  | exist =>
    rw [PtrFlag.set, ptrIsdir_eq, ptrIsdir_eq, toNat_ptrSetExist, testBit_or, testBit_two_pow]
    simp
  | isdir => simp [PtrFlag.set]

theorem ptrGetAddress_setFlags (flags : List PtrFlag) (ptr : InodePtr) :
    ptrGetAddress (setFlags flags ptr) = ptrGetAddress ptr := by
  induction flags generalizing ptr with
  | nil => rfl
  | cons flag flags ih => exact (ih _).trans (ptrGetAddress_set flag ptr)

theorem ptrExists_setFlags (flags : List PtrFlag) (ptr : InodePtr) :
    ptrExists (setFlags flags ptr) = (decide (.exist ∈ flags) || ptrExists ptr) := by
  induction flags generalizing ptr with
  | nil => simp [setFlags]
  | cons flag flags ih =>
    refine (ih _).trans ?_
    rw [ptrExists_set]
    cases flag <;> simp

theorem ptrIsdir_setFlags (flags : List PtrFlag) (ptr : InodePtr) :
    ptrIsdir (setFlags flags ptr) = (decide (.isdir ∈ flags) || ptrIsdir ptr) := by
  induction flags generalizing ptr with
  | nil => simp [setFlags]
  | cons flag flags ih =>
    refine (ih _).trans ?_
    rw [ptrIsdir_set]
    cases flag <;> simp

@[simp] theorem ptrGetAddress_create (sec : Nat) :
    ptrGetAddress (ptrCreate sec) = sec % 2 ^ 14 := by
  rw [ptrGetAddress_eq, toNat_ptrCreate, mod_mod]

@[simp] theorem ptrExists_create (sec : Nat) : ptrExists (ptrCreate sec) = false := by
  rw [ptrExists_eq, toNat_ptrCreate]
  apply testBit_lt_two_pow
  omega

/-- A pointer made for a sector leads to that sector and keeps its flags apart from the address, in
whatever order they are set. -/
structure NamesSector (sector : Nat) : Prop where
  address : ∀ flags, ptrGetAddress (setFlags flags (ptrCreate sector)) = sector
  exist : ∀ flags, ptrExists (setFlags flags (ptrCreate sector)) = decide (.exist ∈ flags)
  isdir : ∀ flags, ptrIsdir (setFlags flags (ptrCreate sector)) = decide (.isdir ∈ flags)

theorem namesSector_iff {sec : Nat} : NamesSector sec ↔ sec < 2 ^ 14 := by
  constructor
  · intro names
    have address := names.address []
    rw [ptrGetAddress_setFlags, ptrGetAddress_create] at address
    omega
  · intro small
    refine ⟨fun flags => ?_, fun flags => ?_, fun flags => ?_⟩
    · rw [ptrGetAddress_setFlags, ptrGetAddress_create, mod_eq_of_lt small]
    · rw [ptrExists_setFlags, ptrExists_create, Bool.or_false]
    · rw [ptrIsdir_setFlags, ptrIsdir_create, Bool.or_false]

/-- The pointer that `inode_fill` and `inode_extend_link` store for a sector. -/
abbrev storedPtr (sector : Nat) : InodePtr := ptrSetExist (ptrCreate sector)

theorem NamesSector.address_storedPtr {sec : Nat} (names : NamesSector sec) :
    ptrGetAddress (storedPtr sec) = sec := names.address [.exist]

namespace Fs

variable {fs s' : Fs} {inode : Ref} {node : Inode} {pos : Nat}

/-! ## What writing the free map leaves alone -/

/-- A property of the state that opening the next inode of a chain and writing a block keep. -/
structure Lasting (property : Fs → Prop) : Prop where
  follows : ∀ {fs s' : Fs} {sector : Nat} {inode next : Ref} {node : Inode}, property fs →
    fs.inodes inode = some node → fs.inodeOpen sector = some (s', next) →
      property (s'.setInode inode { node with next := some next })
  writes : ∀ {fs s' : Fs} {sector : Option Nat} {block : Buffer}, property fs →
    fs.blockWrite sector block = some s' → property s'

section Lasting

variable {property : Fs → Prop} (lasting : Lasting property)

include lasting

variable (holds : property fs)
include holds

theorem Lasting.byteToInode {fuel : Nat} {found : Option Ref}
    (finds : Fs.byteToInode fuel fs inode pos = some (s', found)) : property s' := by
  induction fuel generalizing fs inode with
  | zero => cases finds
  | succ fuel ih =>
    obtain ⟨node, held, finds⟩ := bind_eq_some_iff.mp finds
    split at finds
    · split at finds
      · cases finds
      · split at finds
        · cases finds
          exact holds
        · split at finds
          · split at finds
            · cases finds
            · exact ih holds finds
          · split at finds
            · split at finds
              · cases finds
              · obtain ⟨⟨mid, next⟩, opens, finds⟩ := bind_eq_some_iff.mp finds
                exact ih (lasting.follows holds held opens) finds
            · cases finds
              exact holds
    · cases finds
      exact holds

theorem Lasting.byteToSector {found : Option Nat}
    (finds : fs.byteToSector inode pos = some (s', found)) : property s' := by
  obtain ⟨⟨mid, holder⟩, walks, finds⟩ := bind_eq_some_iff.mp finds
  have kept := lasting.byteToInode holds walks
  cases holder with
  | none =>
    cases finds
    exact kept
  | some holder =>
    obtain ⟨node, _, finds⟩ := bind_eq_some_iff.mp finds
    cases finds
    exact kept

theorem Lasting.writeChunk {sec : Option Nat} {buf : Buffer} {sectorOfs put chunk : Nat}
    (wrote : fs.writeChunk sec buf sectorOfs put chunk = some s') :
    property s' := by
  simp only [Fs.writeChunk] at wrote
  split at wrote
  · exact lasting.writes holds wrote
  · obtain ⟨bounce, _, wrote⟩ := bind_eq_some_iff.mp wrote
    exact lasting.writes holds wrote

theorem Lasting.writeLoop {fuel size ofs put total : Nat} {buf : Buffer}
    (wrote : Fs.writeLoop fuel fs inode buf size ofs put = some (s', total)) :
    property s' := by
  induction fuel generalizing fs size ofs put with
  | zero =>
    cases wrote
    exact holds
  | succ fuel ih =>
    simp only [Fs.writeLoop] at wrote
    split at wrote
    · cases wrote
      exact holds
    · obtain ⟨⟨mid, sec⟩, finds, wrote⟩ := bind_eq_some_iff.mp wrote
      obtain ⟨len, _, wrote⟩ := bind_eq_some_iff.mp wrote
      have kept := lasting.byteToSector holds finds
      split at wrote
      · cases wrote
        exact kept
      · obtain ⟨last, chunk, wrote⟩ := bind_eq_some_iff.mp wrote
        exact ih (lasting.writeChunk kept chunk) wrote

theorem Lasting.bitmapWrite {put : Bool} (wrote : fs.bitmapWrite inode = some (s', put)) :
    property s' := by
  obtain ⟨⟨mid, total⟩, fills, is_after⟩ := bind_eq_some_iff.mp wrote
  cases is_after
  obtain ⟨node, _, wrote⟩ := bind_eq_some_iff.mp fills
  split at wrote
  · cases wrote
    exact holds
  · split at wrote
    · cases wrote
    · split at wrote
      · cases wrote
      · exact lasting.writeLoop holds wrote

end Lasting

variable {sector : Nat}

theorem freeMap_inodeOpen (opens : fs.inodeOpen sector = some (s', inode)) :
    s'.freeMap = fs.freeMap := by
  rcases inodeOpen_cases opens with ⟨node, _, _, _, _, rfl⟩ | ⟨_, _, _, rfl⟩ <;> rfl

theorem freeMap_blockWrite {sec : Option Nat} {block : Buffer}
    (wrote : fs.blockWrite sec block = some s') : s'.freeMap = fs.freeMap := by
  cases sec with
  | none => cases wrote
  | some sec =>
    simp only [blockWrite] at wrote
    split at wrote
    · cases wrote
      rfl
    · cases wrote

theorem lasting_freeMap (map : Bitmap) : Lasting fun fs => fs.freeMap = map where
  follows same _ opens := (freeMap_inodeOpen opens).trans same
  writes same writes := (freeMap_blockWrite writes).trans same

theorem freeMap_bitmapWrite {put : Bool}
    (wrote : fs.bitmapWrite inode = some (s', put)) : s'.freeMap = fs.freeMap :=
  (lasting_freeMap fs.freeMap).bitmapWrite rfl wrote

theorem bitCnt_freeMapAllocate {cnt : Nat} {sec : Option Nat}
    (takes : fs.freeMapAllocate cnt = some (s', sec)) :
    s'.freeMap.bitCnt = fs.freeMap.bitCnt := by
  unfold freeMapAllocate at takes
  split at takes
  · cases takes
    rfl
  · split at takes
    · cases takes
      rfl
    · obtain ⟨⟨mid, put⟩, wrote, takes⟩ := bind_eq_some_iff.mp takes
      have kept := freeMap_bitmapWrite wrote
      dsimp only at takes
      split at takes
      · cases takes
        rw [kept]
        rfl
      · cases takes
        change mid.freeMap.bitCnt = fs.freeMap.bitCnt
        rw [kept]
        rfl

/-! ## What `free_map_allocate` returns -/

theorem scan_of_freeMapAllocate {cnt : Nat}
    (takes : fs.freeMapAllocate cnt = some (s', some sector)) :
    fs.freeMap.scan 0 cnt false = some sector := by
  unfold freeMapAllocate at takes
  split at takes
  · cases takes
  · next found scans =>
      rw [scans]
      split at takes
      · exact (Prod.mk.inj (some.inj takes)).2
      · obtain ⟨⟨mid, wrote⟩, _, takes⟩ := bind_eq_some_iff.mp takes
        dsimp only at takes
        split at takes
        · exact (Prod.mk.inj (some.inj takes)).2
        · cases takes

/-- `free_map_allocate` returns sectors that the free map has a bit for. -/
theorem lt_of_freeMapAllocate {cnt : Nat} (some_sector : cnt ≠ 0)
    (takes : fs.freeMapAllocate cnt = some (s', some sector)) :
    sector < fs.freeMap.bitCnt := by
  have scans := scan_of_freeMapAllocate takes
  unfold Bitmap.scan at scans
  split at scans
  · have listed := List.mem_of_find?_eq_some scans
    rw [List.mem_range'_1] at listed
    omega
  · cases scans

/-- A map in which all sectors before this one are taken. -/
def takenBelow (size sector : Nat) : Fs :=
  { freeMapInit size (fun _ => Buffer.zeros)
      (fun _ => ⟨0, 0, false, 0, false, ⟨0, 0, 0, 0, 0, 0, fun _ => 0⟩, none⟩) with
    freeMap := ⟨size, fun index => decide (index < sector)⟩ }

theorem freeMapAllocate_takenBelow {size : Nat} (below : sector < size) :
    ∃ s', (takenBelow size sector).freeMapAllocate 1 = some (s', some sector) := by
  have scans : (takenBelow size sector).freeMap.scan 0 1 false = some sector := by
    have one : 1 ≤ size := by omega
    unfold Bitmap.scan takenBelow
    rw [if_pos one, List.find?_eq_some_iff_getElem]
    refine ⟨by simp [Bitmap.contains], sector, by simpa using by omega, by simp, ?_⟩
    intro i old
    simp [Bitmap.contains, old]
  unfold freeMapAllocate
  rw [scans]
  exact ⟨_, rfl⟩

/-! ## Pointers in inodes -/

/-- Wherever an inode holds the pointer made for a sector, in memory or on the device, it is the
sector that is read, written or opened. -/
structure FollowsPtr (sector : Nat) : Prop where
  block : ∀ (fs : Fs) inode node pos, fs.inodes inode = some node → node.data.prevLength ≤ pos →
    pos < node.data.fileLength → pos - node.data.prevLength < byteCapacity →
      node.data.blockptrs ((pos - node.data.prevLength) / blockSectorSize) = storedPtr sector →
        fs.byteToSector inode pos = some (fs, some sector)
  link : ∀ (fs : Fs) fuel inode node pos, fs.inodes inode = some node → node.next = none →
    node.data.prevLength ≤ pos → pos < node.data.fileLength →
      byteCapacity ≤ pos - node.data.prevLength → node.data.doubleptr = storedPtr sector →
        node.sector ≠ sector → byteToInode (fuel + 1) fs inode pos =
          (fs.inodeOpen sector).bind fun opened =>
            byteToInode fuel (opened.1.setInode inode { node with next := some opened.2 }) opened.2 pos
  blockStored : ∀ (data : InodeDisk) i, i < nodeCapacity → data.blockptrs i = storedPtr sector →
      (InodeDisk.ofBlock data.toBlock).blockptrs i = storedPtr sector
  linkStored : ∀ data : InodeDisk, data.doubleptr = storedPtr sector →
    (InodeDisk.ofBlock data.toBlock).doubleptr = storedPtr sector

theorem followsPtr_of_namesSector (names : NamesSector sector) : FollowsPtr sector where
  block fs inode node pos held after_prev below inside is_ptr := by
    have found : byteToInode (fs.size + 1) fs inode pos = some (fs, some inode) := by
      simp [byteToInode, held, below, inside, not_lt.mpr after_prev]
    simp [byteToSector, found, held, is_ptr, names.address_storedPtr]
  link fs fuel inode node pos held unlinked after_prev below beyond is_ptr apart := by
    simp [byteToInode, held, unlinked, below, not_lt.mpr after_prev, not_lt.mpr beyond, is_ptr,
      names.address_storedPtr, apart]
  blockStored data i below is_ptr := by
    rw [InodeDisk.blockptrs_ofBlock_toBlock below, is_ptr]
  linkStored data is_ptr := by
    rw [InodeDisk.doubleptr_ofBlock_toBlock, is_ptr]

/-- The sector was returned by `free_map_allocate` on a device with this many sectors. -/
def Returned (size sector : Nat) : Prop :=
  ∃ (fs s' : Fs) (cnt : Nat), fs.freeMap.bitCnt = size ∧ cnt ≠ 0 ∧
    fs.freeMapAllocate cnt = some (s', some sector)

theorem returned_iff {size : Nat} : Returned size sector ↔ sector < size := by
  constructor
  · rintro ⟨fs, s', cnt, rfl, some_sector, takes⟩
    exact lt_of_freeMapAllocate some_sector takes
  · intro below
    obtain ⟨s', takes⟩ := freeMapAllocate_takenBelow below
    exact ⟨takenBelow size sector, s', 1, rfl, one_ne_zero, takes⟩

/-- A pointer that `inode_fill` leaves in an inode was there before or stands for a sector that it
allocated. -/
theorem blockptrs_fillLoop {room togo left size : Nat} {data filled : InodeDisk} {ok : Bool}
    (device : fs.freeMap.bitCnt = size)
    (fills : fillLoop room fs data togo = some (s', filled, left, ok)) (i : Nat) :
    filled.blockptrs i = data.blockptrs i ∨
      ∃ sec, Returned size sec ∧ filled.blockptrs i = storedPtr sec := by
  induction room generalizing fs data togo with
  | zero =>
    obtain ⟨rfl, rfl, rfl, rfl⟩ := some.inj fills
    exact .inl rfl
  | succ room ih =>
    simp only [fillLoop] at fills
    split at fills
    · obtain ⟨rfl, rfl, rfl, rfl⟩ := some.inj fills
      exact .inl rfl
    · obtain ⟨⟨mid, taken⟩, takes, fills⟩ := bind_eq_some_iff.mp fills
      cases taken with
      | none =>
        obtain ⟨rfl, rfl, rfl, rfl⟩ := some.inj fills
        exact .inl rfl
      | some sec =>
        obtain ⟨last, wrote, fills⟩ := bind_eq_some_iff.mp fills
        have same : last.freeMap.bitCnt = size := by
          rw [freeMap_blockWrite wrote, ← device]
          exact bitCnt_freeMapAllocate takes
        rcases ih same fills with kept | new
        · rw [kept]
          by_cases here : i = nodeCapacity - (room + 1)
          · refine .inr ⟨sec, ⟨fs, mid, 1, device, one_ne_zero, takes⟩, ?_⟩
            rw [here]
            exact Function.update_self ..
          · exact .inl (Function.update_of_ne here ..)
        · exact .inr new

/-- On a device of this size, every sector that `free_map_allocate` returns is the one that its
pointer leads to, and the blocks of an inode that `inode_fill` has filled are sectors that were
allocated for it. -/
structure PointersFaithful (size : Nat) : Prop where
  names : ∀ sector, Returned size sector → NamesSector sector
  follows : ∀ sector, Returned size sector → FollowsPtr sector
  fills : ∀ (fs s' : Fs) room bytesLeft left data filled success, fs.freeMap.bitCnt = size →
    fillLoop room fs data bytesLeft = some (s', filled, left, success) →
      ∀ i, filled.blockptrs i = data.blockptrs i ∨ ∃ sector, Returned size sector ∧
        filled.blockptrs i = storedPtr sector ∧ filled.block i = sector

/-- Pointers lead to the sectors they were made for exactly on devices of at most `2 ^ 14` sectors. -/
theorem pointersFaithful_iff_size_le (size : Nat) : PointersFaithful size ↔ size ≤ 2 ^ 14 := by
  constructor
  · intro right
    by_contra large
    have back : Returned size (2 ^ 14) := returned_iff.mpr (by omega)
    have small := namesSector_iff.mp (right.names _ back)
    omega
  · intro small
    have names : ∀ sec, Returned size sec → NamesSector sec := by
      intro sec back
      have below := returned_iff.mp back
      exact namesSector_iff.mpr (by omega)
    refine ⟨names, fun sec back => followsPtr_of_namesSector (names sec back), ?_⟩
    intro fs after room togo left data filled ok device fills index
    refine (blockptrs_fillLoop device fills index).imp id ?_
    rintro ⟨sec, back, is_ptr⟩
    refine ⟨sec, back, is_ptr, ?_⟩
    rw [InodeDisk.block, is_ptr]
    exact (names sec back).address_storedPtr

/-! ## A device with one sector more -/

/-- The inode of a free map for 16385 sectors. -/
def fullMapInode : InodeDisk where
  fileLength := 2052
  prevLength := 0
  nodeLength := 2052
  self := ptrCreate freeMapSector
  magic := inodeMagic
  doubleptr := 0
  blockptrs index := if index < 5 then storedPtr (index + 2) else 0

/-- A device whose free map marks the first 16384 sectors. -/
def fullDisk (sector : Nat) : Buffer :=
  if sector = freeMapSector then fullMapInode.toBlock
  else if sector < 6 then fun _ => 255
  else Buffer.zeros

/-- The last sector of a device of 16385 sectors is allocated after booting, and its pointer leads
to the inode of the free map. -/
theorem last_sector_misnamed : ∃ fs after,
    (freeMapInit 16385 fullDisk fun _ => openedInode (takenBelow 0 0) 0).freeMapOpen = some fs ∧
      fs.freeMapAllocate 1 = some (after, some 16384) ∧ (16385 : Nat) < 2 ^ 21 ∧
      ptrGetAddress (ptrCreate 16384) = freeMapSector ∧ ¬ PointersFaithful 16385 := by
  have runs : ((freeMapInit 16385 fullDisk fun _ => openedInode (takenBelow 0 0) 0).freeMapOpen.bind
      fun fs => (fs.freeMapAllocate 1).bind fun taken => taken.2) = some 16384 := by
    decide +kernel
  obtain ⟨fs, boots, runs⟩ := bind_eq_some_iff.mp runs
  obtain ⟨⟨after, sec⟩, takes, is_sector⟩ := bind_eq_some_iff.mp runs
  obtain rfl : sec = some 16384 := is_sector
  refine ⟨fs, after, boots, takes, by decide, by decide, ?_⟩
  intro right
  have back : Returned 16385 16384 := returned_iff.mpr (by decide)
  have address := (right.names 16384 back).address []
  rw [ptrGetAddress_setFlags, ptrGetAddress_create] at address
  exact absurd address (by decide)

end Fs

end Pintos.Filesys
