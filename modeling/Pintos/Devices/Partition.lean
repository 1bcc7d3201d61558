import Mathlib.Data.List.Basic
import Pintos.Lib.Buffer

/-!
# Partition tables

The scan of `partition.c`.  `read_partition_table` always reads sector 0, whatever sector it is asked
for, so that below an extended entry it finds the entries of the master boot record once more, among
them the extended ones.
-/

namespace Pintos.Devices

/-- What is used of `struct partition_table_entry`. -/
structure PartitionEntry where
  type : Nat
  offset : Nat
  size : Nat
  deriving DecidableEq

/-- What `found_partition` is told; the number of the partition is its place in the list. -/
structure Partition where
  type : Nat
  start : Nat
  size : Nat
  deriving DecidableEq

structure BlockDevice where
  size : Nat
  sectors : Nat → Buffer

def partitionEntry (sector : Buffer) (i : Nat) : PartitionEntry where
  type := (sector (446 + 16 * i + 4)).toNat
  offset := sector.word (446 + 16 * i + 8) 4
  size := sector.word (446 + 16 * i + 12) 4

def partitions (sector : Buffer) : List PartitionEntry :=
  [partitionEntry sector 0, partitionEntry sector 1, partitionEntry sector 2, partitionEntry sector 3]

/-- The signature is `0xaa55`. -/
def isSigned (sector : Buffer) : Bool :=
  sector.word 510 2 = 0xaa55

namespace PartitionEntry

def isEmpty (e : PartitionEntry) : Bool := e.size = 0 || e.type = 0

def isExtended (e : PartitionEntry) : Bool :=
  e.type = 0x05 || e.type = 0x0f || e.type = 0x85 || e.type = 0xc5

/-- The partition of an entry of the table in a sector. -/
def partition (e : PartitionEntry) (sector : Nat) : Partition :=
  ⟨e.type, (e.offset + sector) % 2 ^ 32, e.size⟩

end PartitionEntry

/-- What `read_partition_table` does with an entry of a table, given the call for the next table. -/
def parseEntry (next : Nat → Nat → List Partition → Option (List Partition)) (sector primary : Nat)
    (found : List Partition) (e : PartitionEntry) : Option (List Partition) :=
  if e.isEmpty then
    some found
  else if e.isExtended then
    if sector = 0 then next e.offset e.offset found
    else next ((e.offset + primary) % 2 ^ 32) primary found
  else
    some (found ++ [e.partition sector])

/-- `read_partition_table`, with the partitions found so far and a bound on the depth of the recursion:
`none` if it is not deep enough. -/
def readPartitionTable (device : BlockDevice) :
    Nat → Nat → Nat → List Partition → Option (List Partition)
  | 0, _, _, _ => none
  | depth + 1, sector, primary, found =>
    if device.size ≤ sector then
      some found
    else
      let pt := device.sectors 0
      if isSigned pt then
        (partitions pt).foldlM (parseEntry (readPartitionTable device depth) sector primary) found
      else
        some found

def partitionScan (device : BlockDevice) (depth : Nat) : Option (List Partition) :=
  readPartitionTable device depth 0 0 []

/-! ## What is on the device -/

/-- The entries of the table that a sector holds. -/
def BlockDevice.table (device : BlockDevice) (sector : Nat) : List PartitionEntry :=
  if sector < device.size ∧ isSigned (device.sectors sector) then partitions (device.sectors sector)
  else []

/-- The table of a sector has an extended entry at this offset. -/
def BlockDevice.Extends (device : BlockDevice) (sector ofs : Nat) : Prop :=
  ∃ e ∈ device.table sector, e.isEmpty = false ∧ e.isExtended = true ∧ e.offset = ofs

/-- A partition of the table of a sector, as if the table were at another place. -/
def BlockDevice.Shows (device : BlockDevice) (sector place : Nat) (part : Partition) : Prop :=
  ∃ e ∈ device.table sector, e.isEmpty = false ∧ e.isExtended = false ∧ part = e.partition place

/-- The sectors of the master boot record and of the extended tables below it, each with the sector of
the extended partition that it belongs to. -/
inductive BlockDevice.Holds (device : BlockDevice) : Nat → Nat → Prop
  | masterBootRecord : Holds device 0 0
  | primary {ofs : Nat} (extended : device.Extends 0 ofs) : Holds device ofs ofs
  | logical {sector primary ofs : Nat} (holds : Holds device sector primary)
      (nonzero : sector ≠ 0) (extended : device.Extends sector ofs) :
      Holds device ((ofs + primary) % 2 ^ 32) primary

/-- The scan returns and reports exactly the partitions of the tables. -/
def ScanFaithful (device : BlockDevice) : Prop :=
  ∃ parts bound, (∀ depth ≥ bound, partitionScan device depth = some parts) ∧
    ∀ part, part ∈ parts ↔ ∃ sector primary, device.Holds sector primary ∧
      device.Shows sector sector part

/-! ## The scan -/

section

variable {device : BlockDevice} {depth sector primary : Nat} {found : List Partition}

theorem foldlM_eq_append {step : List Partition → PartitionEntry → Option (List Partition)}
    {told : PartitionEntry → List Partition} {entries : List PartitionEntry}
    (steps : ∀ e ∈ entries, ∀ found, step found e = some (found ++ told e)) :
    entries.foldlM step found = some (found ++ entries.flatMap told) := by
  induction entries generalizing found with
  | nil => simp
  | cons e entries ih =>
    rw [List.foldlM_cons, steps e List.mem_cons_self, Option.bind_eq_bind, Option.bind_some,
      ih fun later mem => steps later (List.mem_cons_of_mem _ mem), List.flatMap_cons,
      List.append_assoc]

theorem foldlM_eq_none {step : List Partition → PartitionEntry → Option (List Partition)}
    {entries : List PartitionEntry} {e : PartitionEntry} (mem : e ∈ entries)
    (stuck : ∀ found, step found e = none) : entries.foldlM step found = none := by
  induction entries generalizing found with
  | nil => cases mem
  | cons fst entries ih =>
    rw [List.foldlM_cons]
    rcases List.mem_cons.mp mem with rfl | later
    · rw [stuck]
      rfl
    · cases step found fst with
      | none => rfl
      | some found => exact ih later

/-- A call reads the master boot record, if its sector is on the device. -/
theorem readPartitionTable_inside (inside : sector < device.size) :
    readPartitionTable device (depth + 1) sector primary found = (device.table 0).foldlM
      (parseEntry (readPartitionTable device depth) sector primary) found := by
  rw [readPartitionTable, if_neg (by omega), BlockDevice.table]
  dsimp only
  by_cases is_signed : isSigned (device.sectors 0)
  · rw [if_pos is_signed, if_pos ⟨by omega, is_signed⟩]
  · rw [if_neg is_signed, if_neg fun both => is_signed both.2]
    rfl

theorem readPartitionTable_outside (out : device.size ≤ sector) :
    readPartitionTable device (depth + 1) sector primary found = some found :=
  if_pos out

/-- The partitions of the master boot record, as if it were at another place. -/
def shifted (device : BlockDevice) (place : Nat) : List Partition :=
  (device.table 0).flatMap fun e => if e.isEmpty || e.isExtended then [] else [e.partition place]

theorem mem_shifted {place : Nat} {part : Partition} :
    part ∈ shifted device place ↔ device.Shows 0 place part := by
  simp only [shifted, List.mem_flatMap, BlockDevice.Shows]
  refine exists_congr fun e => and_congr_right fun _ => ?_
  cases e.isEmpty <;> cases e.isExtended <;> simp

/-- A table below which all extended tables are past the end of the device. -/
theorem readPartitionTable_nested (inside : sector < device.size) (nonzero : sector ≠ 0)
    (ends : ∀ offset, device.Extends 0 offset → device.size ≤ (offset + primary) % 2 ^ 32) :
    readPartitionTable device (depth + 2) sector primary found =
      some (found ++ shifted device sector) := by
  rw [readPartitionTable_inside inside]
  refine foldlM_eq_append fun e mem found => ?_
  unfold parseEntry
  by_cases empty : e.isEmpty
  · simp [empty]
  · by_cases grown : e.isExtended
    · have past := ends e.offset ⟨e, mem, by simpa using empty, grown, rfl⟩
      simp only [empty, grown, nonzero, Bool.or_true, if_true, if_false, List.append_nil]
      exact readPartitionTable_outside past
    · simp [empty, grown]

/-- The scan of a device on which no extended entry leads to another one. -/
theorem partitionScan_eq (ends : ∀ sec < device.size, device.Extends 0 sec →
      ∀ offset, device.Extends 0 offset → device.size ≤ (offset + sec) % 2 ^ 32) :
    ∃ parts, (∀ depth ≥ 3, partitionScan device depth = some parts) ∧ ∀ part, part ∈ parts ↔
      ∃ place, (place = 0 ∨ place < device.size ∧ device.Extends 0 place) ∧
        device.Shows 0 place part := by
  refine ⟨(device.table 0).flatMap fun e => if e.isEmpty then [] else if e.isExtended then
    if e.offset < device.size then shifted device e.offset else [] else [e.partition 0], ?_, ?_⟩
  · intro depth enough
    obtain ⟨depth, rfl⟩ := Nat.exists_eq_add_of_le' enough
    by_cases some_sector : 0 < device.size
    · rw [partitionScan, readPartitionTable_inside some_sector]
      refine foldlM_eq_append fun e mem found => ?_
      unfold parseEntry
      by_cases empty : e.isEmpty
      · simp [empty]
      by_cases grown : e.isExtended
      · simp only [empty, grown, if_true, Bool.false_eq_true, if_false]
        by_cases inside : e.offset < device.size
        · have is_extended : device.Extends 0 e.offset := ⟨e, mem, by simpa using empty, grown, rfl⟩
          have ends := ends e.offset inside is_extended
          have nonzero : e.offset ≠ 0 := by
            intro zero
            have past := ends e.offset is_extended
            simp [zero] at past
            omega
          rw [if_pos inside, readPartitionTable_nested inside nonzero ends]
        · rw [if_neg inside, List.append_nil, readPartitionTable_outside (Nat.not_lt.mp inside)]
      · simp [empty, grown]
    · rw [partitionScan, readPartitionTable_outside (by omega), BlockDevice.table,
        if_neg fun both => some_sector both.1]
      rfl
  · intro part
    simp only [List.mem_flatMap]
    constructor
    · rintro ⟨e, mem, told⟩
      split_ifs at told with empty grown inside
      · cases told
      · exact ⟨e.offset, .inr ⟨inside, e, mem, by simpa using empty, grown, rfl⟩,
          mem_shifted.mp told⟩
      · cases told
      · exact ⟨0, .inl rfl, e, mem, by simpa using empty, by simpa using grown,
          List.mem_singleton.mp told⟩
    · rintro ⟨place, rfl | ⟨inside, e, mem, full, grown, rfl⟩, shows⟩
      · obtain ⟨e, mem, full, plain, rfl⟩ := shows
        exact ⟨e, mem, by simp [full, plain]⟩
      · exact ⟨e, mem, by simpa [full, grown, inside] using mem_shifted.mpr shows⟩

/-- An extended entry that leads to another one makes the scan go on forever. -/
theorem readPartitionTable_none {offset : Nat} (primary_inside : sector < device.size)
    (grown : device.Extends 0 sector) (extended' : device.Extends 0 offset)
    (inside : (offset + sector) % 2 ^ 32 < device.size) (place : Nat)
    (place_inside : place < device.size) (loops : place = 0 ∨
      ∃ offset, device.Extends 0 offset ∧ (offset + primary) % 2 ^ 32 < device.size) :
    readPartitionTable device depth place primary found = none := by
  induction depth generalizing place primary found with
  | zero => rfl
  | succ depth ih =>
    rw [readPartitionTable_inside place_inside]
    by_cases fst : place = 0
    · obtain ⟨e, mem, full, is_extended, rfl⟩ := grown
      refine foldlM_eq_none mem fun found => ?_
      simp only [parseEntry, full, is_extended, fst]
      exact ih e.offset primary_inside (.inr ⟨offset, extended', inside⟩)
    · obtain ⟨_, ⟨e, mem, full, is_extended, rfl⟩, inside'⟩ := loops.resolve_left fst
      refine foldlM_eq_none mem fun found => ?_
      simp only [parseEntry, full, is_extended, fst]
      exact ih _ inside' (.inr ⟨_, ⟨e, mem, full, is_extended, rfl⟩, inside'⟩)

theorem partitionScan_none {sec offset : Nat} (inside : sec < device.size)
    (grown : device.Extends 0 sec) (extended' : device.Extends 0 offset)
    (again : (offset + sec) % 2 ^ 32 < device.size) (depth : Nat) :
    partitionScan device depth = none :=
  readPartitionTable_none inside grown extended' again 0 (by omega) (.inl rfl)

end

/-- The scan is faithful exactly if no extended entry of the master boot record leads to another one,
and its partitions, shifted to each extended table, are those of the tables. -/
theorem scanFaithful_iff (device : BlockDevice) : ScanFaithful device ↔
    (∀ sector < device.size, device.Extends 0 sector →
      ∀ offset, device.Extends 0 offset → device.size ≤ (offset + sector) % 2 ^ 32) ∧
    ∀ part, (∃ place, (place = 0 ∨ place < device.size ∧ device.Extends 0 place) ∧
        device.Shows 0 place part) ↔
      ∃ sector primary, device.Holds sector primary ∧ device.Shows sector sector part := by
  constructor
  · rintro ⟨parts, bound, runs, exactly⟩
    have ends : ∀ sector < device.size, device.Extends 0 sector →
        ∀ offset, device.Extends 0 offset → device.size ≤ (offset + sector) % 2 ^ 32 := by
      intro sector inside grown offset extended'
      by_contra short
      have forever := partitionScan_none inside grown extended' (Nat.not_le.mp short) bound
      cases (runs bound (Nat.le_refl _)).symm.trans forever
    obtain ⟨parts', runs', told⟩ := partitionScan_eq ends
    have same : parts = parts' := by
      have both := (runs (bound + 3) (by omega)).symm.trans (runs' (bound + 3) (by omega))
      exact Option.some.inj both
    exact ⟨ends, fun part => (told part).symm.trans (same ▸ exactly part)⟩
  · rintro ⟨ends, exactly⟩
    obtain ⟨parts, runs, told⟩ := partitionScan_eq ends
    exact ⟨parts, 3, runs, fun part => (told part).trans (exactly part)⟩

/-- A device of four sectors with an extended partition in sector 1. -/
def extendedDevice : BlockDevice where
  size := 4
  sectors _ index := if index = 450 then 5 else if index = 454 ∨ index = 458 then 1
    else if index = 510 then 0x55 else if index = 511 then 0xaa else 0

/-- The scan of this device does not return. -/
theorem scan_runs_forever : ¬ ScanFaithful extendedDevice := by
  rintro ⟨parts, bound, runs, _⟩
  have grown : extendedDevice.Extends 0 1 :=
    ⟨partitionEntry (extendedDevice.sectors 0) 0, by decide, by decide, by decide, by decide⟩
  have forever := partitionScan_none (by decide) grown grown (by decide) bound
  cases (runs bound (Nat.le_refl _)).symm.trans forever

end Pintos.Devices
