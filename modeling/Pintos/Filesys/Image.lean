import Mathlib.Data.Finset.Card
import Mathlib.Data.Finset.Range
import Pintos.Filesys.Inode

/-!
# What sectors hold

Block pointers, inodes and the free map are read back as they were written.
-/

namespace Pintos.Filesys

open Buffer

/-! ## Block pointers -/

theorem ptrGetAddress_eq (ptr : InodePtr) : ptrGetAddress ptr = ptr.toNat % 2 ^ 14 := by
  unfold ptrGetAddress
  rw [UInt16.toNat_and]
  exact Nat.and_two_pow_sub_one_eq_mod ptr.toNat 14

theorem flag_eq_testBit {mask : InodePtr} {position : Nat} (single : mask.toNat = 2 ^ position)
    (ptr : InodePtr) : (ptr &&& mask != 0) = ptr.toNat.testBit position := by
  have number : (ptr &&& mask).toNat = ptr.toNat &&& 2 ^ position := by
    rw [UInt16.toNat_and, single]
  rw [Nat.and_two_pow] at number
  cases bit : ptr.toNat.testBit position with
  | false =>
    rw [bit] at number
    have zero : ptr &&& mask = 0 := UInt16.toNat_inj.mp (by simpa using number)
    simp [zero]
  | true =>
    rw [bit] at number
    have pos : 0 < 2 ^ position := Nat.two_pow_pos position
    have nonzero : ptr &&& mask ≠ 0 := by
      intro zero
      rw [zero] at number
      simp only [UInt16.toNat_zero, Bool.toNat_true, one_mul] at number
      omega
    simpa using nonzero

theorem ptrExists_eq (ptr : InodePtr) : ptrExists ptr = ptr.toNat.testBit 15 :=
  flag_eq_testBit (by decide) ptr

theorem ptrIsdir_eq (ptr : InodePtr) : ptrIsdir ptr = ptr.toNat.testBit 14 :=
  flag_eq_testBit (by decide) ptr

theorem toNat_ptrCreate (sec : Nat) : (ptrCreate sec).toNat = sec % 2 ^ 14 := by
  have addr : sec &&& 0x3FFF = sec % 2 ^ 14 := Nat.and_two_pow_sub_one_eq_mod sec 14
  have small : sec % 2 ^ 14 < 2 ^ 16 := by omega
  unfold ptrCreate
  rw [addr, UInt16.toNat_ofNat', Nat.mod_eq_of_lt small]

theorem toNat_ptrSetExist (ptr : InodePtr) : (ptrSetExist ptr).toNat = ptr.toNat ||| 2 ^ 15 :=
  UInt16.toNat_or ptr 0x8000

theorem toNat_ptrSetIsdir (ptr : InodePtr) : (ptrSetIsdir ptr).toNat = ptr.toNat ||| 2 ^ 14 :=
  UInt16.toNat_or ptr 0x4000

@[simp] theorem ptrExists_setExist (ptr : InodePtr) : ptrExists (ptrSetExist ptr) = true := by
  rw [ptrExists_eq, toNat_ptrSetExist, Nat.testBit_or, Nat.testBit_two_pow_self, Bool.or_true]

@[simp] theorem ptrIsdir_setIsdir (ptr : InodePtr) : ptrIsdir (ptrSetIsdir ptr) = true := by
  rw [ptrIsdir_eq, toNat_ptrSetIsdir, Nat.testBit_or, Nat.testBit_two_pow_self, Bool.or_true]

@[simp] theorem ptrIsdir_create (sec : Nat) : ptrIsdir (ptrCreate sec) = false := by
  rw [ptrIsdir_eq, toNat_ptrCreate]
  apply Nat.testBit_lt_two_pow
  exact Nat.mod_lt _ (Nat.two_pow_pos 14)

theorem ptrGetAddress_setExist_create {sec : Nat} (small : sec < 2 ^ 14) :
    ptrGetAddress (ptrSetExist (ptrCreate sec)) = sec := by
  rw [ptrGetAddress_eq, toNat_ptrSetExist, toNat_ptrCreate, Nat.mod_eq_of_lt small]
  apply Nat.eq_of_testBit_eq
  intro pos
  rw [Nat.testBit_mod_two_pow, Nat.testBit_or, Nat.testBit_two_pow]
  rcases Nat.lt_or_ge pos 14 with below | above
  · simp [below, show 15 ≠ pos by omega]
  · have high : sec < 2 ^ pos := Nat.lt_of_lt_of_le small (Nat.pow_le_pow_right (by omega) above)
    simp [Nat.testBit_lt_two_pow high, Nat.not_lt.mpr above]

@[simp] theorem ptrExists_zero : ptrExists 0 = false := rfl

/-! ## Inodes -/

namespace InodeDisk

/-- The numbers of an inode fit its fields. -/
structure Fits (data : InodeDisk) : Prop where
  fileLength : data.fileLength < 2 ^ 32
  prevLength : data.prevLength < 2 ^ 32
  nodeLength : data.nodeLength < 2 ^ 32
  magic : data.magic < 2 ^ 32

variable {data : InodeDisk}

theorem word_toBlock (start width : Nat) (header : start + width ≤ 22) :
    data.toBlock.word start width =
      ((((((zeros.put 0 4 data.fileLength).put 4 4 data.prevLength).put 8 4
        data.nodeLength).put 12 2 data.self.toNat).put 16 4 data.magic).put 20 2
          data.doubleptr.toNat).word start width :=
  word_putTable_of_disjoint (.inl header)

theorem fileLength_ofBlock_toBlock (fits : data.Fits) :
    (ofBlock data.toBlock).fileLength = data.fileLength := by
  refine (word_toBlock 0 4 (by omega)).trans ?_
  rw [word_put_of_disjoint (by omega), word_put_of_disjoint (by omega),
    word_put_of_disjoint (by omega), word_put_of_disjoint (by omega),
    word_put_of_disjoint (by omega), word_put]
  exact Nat.mod_eq_of_lt fits.fileLength

theorem prevLength_ofBlock_toBlock (fits : data.Fits) :
    (ofBlock data.toBlock).prevLength = data.prevLength := by
  refine (word_toBlock 4 4 (by omega)).trans ?_
  rw [word_put_of_disjoint (by omega), word_put_of_disjoint (by omega),
    word_put_of_disjoint (by omega), word_put_of_disjoint (by omega), word_put]
  exact Nat.mod_eq_of_lt fits.prevLength

theorem nodeLength_ofBlock_toBlock (fits : data.Fits) :
    (ofBlock data.toBlock).nodeLength = data.nodeLength := by
  refine (word_toBlock 8 4 (by omega)).trans ?_
  rw [word_put_of_disjoint (by omega), word_put_of_disjoint (by omega),
    word_put_of_disjoint (by omega), word_put]
  exact Nat.mod_eq_of_lt fits.nodeLength

theorem magic_ofBlock_toBlock (fits : data.Fits) : (ofBlock data.toBlock).magic = data.magic := by
  refine (word_toBlock 16 4 (by omega)).trans ?_
  rw [word_put_of_disjoint (by omega), word_put]
  exact Nat.mod_eq_of_lt fits.magic

theorem self_ofBlock_toBlock : (ofBlock data.toBlock).self = data.self := by
  have word : data.toBlock.word 12 2 = data.self.toNat := by
    rw [word_toBlock 12 2 (by omega), word_put_of_disjoint (by omega),
      word_put_of_disjoint (by omega), word_put]
    exact Nat.mod_eq_of_lt data.self.toNat_lt
  change UInt16.ofNat (data.toBlock.word 12 2) = data.self
  rw [word, UInt16.ofNat_toNat]

theorem doubleptr_ofBlock_toBlock : (ofBlock data.toBlock).doubleptr = data.doubleptr := by
  have word : data.toBlock.word 20 2 = data.doubleptr.toNat := by
    rw [word_toBlock 20 2 (by omega), word_put]
    exact Nat.mod_eq_of_lt data.doubleptr.toNat_lt
  change UInt16.ofNat (data.toBlock.word 20 2) = data.doubleptr
  rw [word, UInt16.ofNat_toNat]

theorem blockptrs_ofBlock_toBlock {i : Nat} (below : i < nodeCapacity) :
    (ofBlock data.toBlock).blockptrs i = data.blockptrs i := by
  have word : data.toBlock.word (22 + 2 * i) 2 = (data.blockptrs i).toNat := by
    refine (word_putTable i below).trans ?_
    exact Nat.mod_eq_of_lt (data.blockptrs i).toNat_lt
  change UInt16.ofNat (data.toBlock.word (22 + 2 * i) 2) = data.blockptrs i
  rw [word, UInt16.ofNat_toNat]

/-- Two inodes with the same fields and the same pointers. -/
structure Same (first second : InodeDisk) : Prop where
  fileLength : first.fileLength = second.fileLength
  prevLength : first.prevLength = second.prevLength
  nodeLength : first.nodeLength = second.nodeLength
  self : first.self = second.self
  magic : first.magic = second.magic
  doubleptr : first.doubleptr = second.doubleptr
  blockptrs : ∀ i < nodeCapacity, first.blockptrs i = second.blockptrs i

theorem same_ofBlock_toBlock (fits : data.Fits) : Same (ofBlock data.toBlock) data where
  fileLength := fileLength_ofBlock_toBlock fits
  prevLength := prevLength_ofBlock_toBlock fits
  nodeLength := nodeLength_ofBlock_toBlock fits
  self := self_ofBlock_toBlock
  magic := magic_ofBlock_toBlock fits
  doubleptr := doubleptr_ofBlock_toBlock
  blockptrs _ below := blockptrs_ofBlock_toBlock below

theorem fits_ofBlock (block : Buffer) : (ofBlock block).Fits where
  fileLength := word_lt block 0 4
  prevLength := word_lt block 4 4
  nodeLength := word_lt block 8 4
  magic := word_lt block 16 4

end InodeDisk

/-! ## The free map -/

namespace Bitmap

variable (map : Bitmap)

def freeSectors : Finset Nat := (Finset.range map.bitCnt).filter fun sector => map.bits sector = false

@[simp] theorem mem_freeSectors {sec : Nat} :
    sec ∈ map.freeSectors ↔ sec < map.bitCnt ∧ map.bits sec = false := by
  simp [freeSectors]

theorem bits_setMultiple_one (sec i : Nat) (value : Bool) :
    (map.setMultiple sec 1 value).bits i = if i = sec then value else map.bits i := by
  have single : (sec ≤ i ∧ i < sec + 1) ↔ i = sec := by omega
  exact if_congr single rfl rfl

theorem freeSectors_setMultiple_true (sec : Nat) :
    (map.setMultiple sec 1 true).freeSectors = map.freeSectors.erase sec := by
  ext i
  rw [mem_freeSectors, bits_setMultiple_one, Finset.mem_erase, mem_freeSectors]
  by_cases same : i = sec
  · simp [same]
  · simp [same, setMultiple]

/-- A run of free sectors. -/
def FreeRun (cnt sector : Nat) : Prop :=
  sector + cnt ≤ map.bitCnt ∧ ∀ i, sector ≤ i → i < sector + cnt → map.bits i = false

theorem not_contains {start cnt : Nat} {value : Bool} : (!map.contains start cnt value) = true ↔
    ∀ i, start ≤ i → i < start + cnt → map.bits i = !value := by
  simp only [contains, Bool.not_eq_true', List.any_eq_false, List.mem_range'_1, and_imp, beq_iff_eq]
  refine forall_congr' fun i => forall_congr' fun _ => forall_congr' fun _ => ?_
  cases map.bits i <;> cases value <;> simp

/-- `bitmap_scan` finds the lowest run of free sectors, unless there is none. -/
theorem scan_free (cnt : Nat) : (map.scan 0 cnt false = none ∧ ∀ sec, ¬ map.FreeRun cnt sec) ∨
      ∃ sec, map.scan 0 cnt false = some sec ∧ map.FreeRun cnt sec ∧
        ∀ lower < sec, ¬ map.FreeRun cnt lower := by
  unfold scan
  by_cases fits : cnt ≤ map.bitCnt
  · rw [if_pos fits]
    cases found : (List.range' 0 (map.bitCnt - cnt + 1 - 0)).find? _ with
    | none =>
      refine .inl ⟨rfl, ?_⟩
      rintro sec ⟨inside, free⟩
      have taken := List.find?_eq_none.mp found sec (by rw [List.mem_range'_1]; omega)
      exact taken (map.not_contains.mpr free)
    | some sec =>
      obtain ⟨free, listed, least⟩ := List.find?_range'_eq_some.mp found
      rw [List.mem_range'_1] at listed
      refine .inr ⟨sec, rfl, ⟨by omega, map.not_contains.mp free⟩, ?_⟩
      rintro lower below ⟨_, run⟩
      have taken := least lower (Nat.zero_le _) below
      rw [map.not_contains.mpr run] at taken
      cases taken
  · rw [if_neg fits]
    refine .inl ⟨rfl, ?_⟩
    rintro sec ⟨inside, _⟩
    omega

theorem freeRun_one {sec : Nat} : map.FreeRun 1 sec ↔ sec ∈ map.freeSectors := by
  rw [mem_freeSectors, FreeRun]
  refine and_congr_right fun _ => ⟨fun free => free sec (by omega) (by omega), ?_⟩
  intro free i above below
  obtain rfl : i = sec := by omega
  exact free

theorem ofBytes_congr {bitCnt : Nat} {bytes o : Buffer}
    (same : ∀ i < 4 * divRoundUp bitCnt 32, bytes i = o i) :
    ofBytes bitCnt bytes = ofBytes bitCnt o := by
  simp only [ofBytes, mk.injEq, true_and]
  funext sec
  by_cases below : sec < bitCnt
  · have inside : sec / 8 < 4 * divRoundUp bitCnt 32 := by
      unfold divRoundUp
      omega
    unfold bit
    rw [same _ inside]
  · simp [below]

theorem ofBytes_ofBits (bounded : ∀ sec, map.bitCnt ≤ sec → map.bits sec = false) :
    ofBytes map.bitCnt (ofBits map.bits) = map := by
  obtain ⟨bitCnt, bits⟩ := map
  simp only [ofBytes, mk.injEq, true_and, bit_ofBits]
  funext sec
  by_cases below : sec < bitCnt
  · simp [below]
  · have clear : bits sec = false := bounded sec (Nat.not_lt.mp below)
    simp [below, clear]

end Bitmap

end Pintos.Filesys
