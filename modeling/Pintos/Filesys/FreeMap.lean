import Pintos.Filesys.Session

/-!
# The free map as an allocator

Calls of `free_map_allocate` and `free_map_release` after `free_map_open`, one after the other.  The
free map in memory stays the one that the next `free_map_open` finds in its file.
-/

namespace Pintos.Filesys

open Function Option Execution

/-- A call that changes the free map. -/
inductive MapCall
  | allocate (cnt : Nat)
  | release (sector cnt : Nat)

/-- A run of sectors that are not free. -/
def Bitmap.TakenRun (map : Bitmap) (sector cnt : Nat) : Prop :=
  sector + cnt ≤ map.bitCnt ∧ ∀ i, sector ≤ i → i < sector + cnt → map.bits i = true

namespace Fs

/-- One call: at least one sector is asked for, and only sectors of the device are given back. -/
def mapStep (fs : Fs) : MapCall → Option Fs
  | .allocate cnt => if 1 ≤ cnt then (fs.freeMapAllocate cnt).map Prod.fst else none
  | .release sector cnt =>
    if sector + cnt ≤ fs.freeMap.bitCnt then fs.freeMapRelease sector cnt else none

/-- The free map allocates and releases exactly, and its file holds it. -/
structure MapExact (fs : Fs) : Prop where
  full : ∀ cnt, 1 ≤ cnt → (∀ sector, ¬ fs.freeMap.FreeRun cnt sector) →
    fs.freeMapAllocate cnt = some (fs, none)
  allocates : ∀ cnt sector, 1 ≤ cnt → fs.freeMap.FreeRun cnt sector →
    (∀ lower < sector, ¬ fs.freeMap.FreeRun cnt lower) → ∃ s',
      fs.freeMapAllocate cnt = some (s', some sector) ∧
        s'.freeMap = fs.freeMap.setMultiple sector cnt true
  releases : ∀ sector cnt, fs.freeMap.TakenRun sector cnt → ∃ s',
    fs.freeMapRelease sector cnt = some s' ∧ s'.freeMap = fs.freeMap.setMultiple sector cnt false
  /-- What the next boot of the machine reads. -/
  persists : ∀ garbage, ∃ booted, (freeMapInit fs.size fs.disk garbage).freeMapOpen = some booted ∧
    booted.freeMap = fs.freeMap

/-- The free map file is open, and it holds the free map. -/
structure MapCurrent (fs : Fs) : Prop extends MapFormed fs where
  held : ∃ inode node, fs.freeMapFile = some inode ∧ fs.inodes inode = some node ∧
    node.denyWriteCnt = 0 ∧ node.data = fs.inodeAt freeMapSector
  reads : Bitmap.ofBytes fs.freeMap.bitCnt (fs.byte (fs.inodeAt freeMapSector)) = fs.freeMap

variable {fs after : Fs}

theorem MapCurrent.bounded (cur : fs.MapCurrent) :
    ∀ sec, fs.freeMap.bitCnt ≤ sec → fs.freeMap.bits sec = false := by
  intro sec past
  rw [← cur.reads]
  simp [Bitmap.ofBytes, Nat.not_lt.mpr past]

theorem MapCurrent.write (cur : fs.MapCurrent) {sec cnt : Nat}
    (inside : sec + cnt ≤ fs.freeMap.bitCnt) (value : Bool) :
    ∃ inode after, fs.freeMapFile = some inode ∧
      { fs with freeMap := fs.freeMap.setMultiple sec cnt value }.bitmapWrite inode =
        some (after, true) ∧ after.MapCurrent ∧
      after.freeMap = fs.freeMap.setMultiple sec cnt value := by
  obtain ⟨inode, node, file, held, writable, data⟩ := cur.held
  let flipped : Fs := { fs with freeMap := fs.freeMap.setMultiple sec cnt value }
  have formed : flipped.MapFormed := cur.frame rfl rfl rfl
  have reads := formed.readable
  have ne := formed.distinct
  have len := formed.length
  rw [show flipped.inodeAt freeMapSector = node.data from data.symm] at reads ne len
  obtain ⟨after, wrote, put, synced⟩ := @bitmapWrite_written flipped inode node held writable
    reads ne len formed.fileSize_le
  have state := put.rest
  have same_map : after.freeMap = fs.freeMap.setMultiple sec cnt value := by rw [state]
  have same_inode : after.inodeAt freeMapSector = fs.inodeAt freeMapSector := by
    unfold inodeAt
    rw [put.outside freeMapSector]
    intro i below
    rw [data] at below ⊢
    exact cur.apart i below
  have bits : Bitmap.ofBytes after.freeMap.bitCnt (after.byte (after.inodeAt freeMapSector)) =
      after.freeMap := by
    rw [same_inode, ← data, same_map, Bitmap.ofBytes_congr synced]
    refine Bitmap.ofBytes_ofBits _ ?_
    intro o past
    change (if _ then value else fs.freeMap.bits o) = false
    rw [if_neg (by change fs.freeMap.bitCnt ≤ o at past; omega)]
    exact cur.bounded o past
  refine ⟨inode, after, file, wrote,
    ⟨formed.frame (by rw [state]) (by rw [state]) same_inode, ?_, bits⟩, same_map⟩
  rw [same_inode, state]
  exact ⟨inode, node, file, held, writable, data⟩

/-- `free_map_allocate` takes the lowest run of free sectors, unless there is none. -/
theorem MapCurrent.allocate (cur : fs.MapCurrent) (cnt : Nat) :
    ((∀ sec, ¬ fs.freeMap.FreeRun cnt sec) ∧ fs.freeMapAllocate cnt = some (fs, none)) ∨
      ∃ sec after, fs.freeMap.FreeRun cnt sec ∧ (∀ lower < sec, ¬ fs.freeMap.FreeRun cnt lower) ∧
        fs.freeMapAllocate cnt = some (after, some sec) ∧ after.MapCurrent ∧
        after.freeMap = fs.freeMap.setMultiple sec cnt true := by
  rcases fs.freeMap.scan_free cnt with ⟨missing, full⟩ | ⟨sec, found, free, least⟩
  · exact .inl ⟨full, by simp [freeMapAllocate, missing]⟩
  · obtain ⟨inode, after, file, wrote, still, is_map⟩ := cur.write free.1 true
    refine .inr ⟨sec, after, free, least, ?_, still, is_map⟩
    simp only [file] at wrote
    simp [freeMapAllocate, found, file, wrote]

theorem MapCurrent.release (cur : fs.MapCurrent) {sec cnt : Nat}
    (taken : fs.freeMap.TakenRun sec cnt) :
    ∃ after, fs.freeMapRelease sec cnt = some after ∧ after.MapCurrent ∧
      after.freeMap = fs.freeMap.setMultiple sec cnt false := by
  obtain ⟨inode, after, file, wrote, still, is_map⟩ := cur.write taken.1 false
  refine ⟨after, ?_, still, is_map⟩
  have all : fs.freeMap.all sec cnt = true := fs.freeMap.not_contains.mpr taken.2
  simp only [file] at wrote
  simp [freeMapRelease, all, file, wrote]

theorem MapCurrent.step (cur : fs.MapCurrent) {call : MapCall}
    (ran : fs.mapStep call = some after) : after.MapCurrent := by
  cases call with
  | allocate cnt =>
    simp only [mapStep] at ran
    split at ran
    · rcases cur.allocate cnt with ⟨_, takes⟩ | ⟨_, mid, _, _, takes, still, _⟩
      · rw [takes] at ran
        cases ran
        exact cur
      · rw [takes] at ran
        cases ran
        exact still
    · cases ran
  | release sec cnt =>
    simp only [mapStep] at ran
    split at ran
    · next inside =>
        by_cases all : fs.freeMap.all sec cnt = true
        · obtain ⟨_, frees, still, _⟩ := cur.release ⟨inside, fs.freeMap.not_contains.mp all⟩
          rw [frees] at ran
          cases ran
          exact still
        · simp [freeMapRelease, all] at ran
    · cases ran

theorem MapCurrent.exact (cur : fs.MapCurrent) : fs.MapExact := by
  refine ⟨?_, ?_, ?_, ?_⟩
  · intro cnt _ full
    rcases cur.allocate cnt with ⟨_, takes⟩ | ⟨sec, _, free, _⟩
    · exact takes
    · exact (full sec free).elim
  · intro cnt sec _ free least
    rcases cur.allocate cnt with ⟨full, _⟩ | ⟨o, after, free', least', takes, _, is_map⟩
    · exact (full sec free).elim
    · obtain rfl : o = sec := by
        rcases Nat.lt_trichotomy o sec with lower | same | higher
        · exact (least o lower free').elim
        · exact same
        · exact (least' sec higher free).elim
      exact ⟨after, takes, is_map⟩
  · intro sec cnt taken
    obtain ⟨after, frees, _, is_map⟩ := cur.release taken
    exact ⟨after, frees, is_map⟩
  · intro garbage
    refine ⟨_, @freeMapOpen_eq (freeMapInit fs.size fs.disk garbage)
      (cur.frame rfl cur.bitCnt.symm rfl) rfl, ?_⟩
    rw [← cur.reads, cur.bitCnt]
    rfl

end Fs

end Pintos.Filesys
