import Pintos.Clib.Ustar

/-!
# Appending to an archive

`fsutil_append` writes a header, the file and a marker to the scratch device.  The second sector of the
marker is written over the first one, with the byte behind the buffer at its end.
-/

namespace Pintos.Filesys

open Clib List Function

abbrev Sector := Fin 512 → UInt8

structure SourceFile where
  name : List UInt8
  size : Nat
  contents : Buffer

/-- The scratch device, and the static variable `sector`. -/
structure Scratch where
  size : Nat
  sectors : Nat → Sector
  sector : Nat

def zeroSector : Sector := fun _ => 0

namespace Scratch

def blockWrite (dst : Scratch) (sector : Nat) (buffer : Buffer) : Option Scratch :=
  if sector < dst.size then
    some { dst with sectors := update dst.sectors sector fun i => buffer i }
  else
    none

/-- The loop that copies the file, from an offset on. -/
def copyFile (contents : Buffer) (offset size : Nat) (dst : Scratch) : Option Scratch :=
  if 0 < size then
    let chunkSize := if 512 < size then 512 else size
    if dst.size ≤ dst.sector then
      none
    else do
      let dst ← dst.blockWrite dst.sector fun i => if i < chunkSize then contents (offset + i) else 0
      copyFile contents (offset + chunkSize) (size - chunkSize) { dst with sector := dst.sector + 1 }
  else
    some dst
termination_by size
decreasing_by split <;> omega

/-- `fsutil_append`, given the byte behind its buffer. -/
def fsutilAppend (dst : Scratch) (file : SourceFile) (beyond : UInt8) : Option Scratch := do
  let header ← ustarMakeHeader file.name .regular file.size
  let dst ← dst.blockWrite dst.sector header
  let dst ← copyFile file.contents 0 file.size { dst with sector := dst.sector + 1 }
  let dst ← dst.blockWrite dst.sector Buffer.zeros
  dst.blockWrite dst.sector fun i => if i < 511 then 0 else beyond

/-- A sequence of calls. -/
def appendAll (dst : Scratch) (calls : List (SourceFile × UInt8)) : Option Scratch :=
  calls.foldlM (fun dst call => dst.fsutilAppend call.1 call.2) dst

end Scratch

/-! ## Archives -/

/-- A file, from an offset on, in whole sectors. -/
def paddedSectors (contents : Buffer) (offset size : Nat) : List Sector :=
  (range ((size + 511) / 512)).map fun k i =>
    if 512 * k + i < size then contents (offset + (512 * k + i)) else 0

/-- A file in an archive. -/
def SourceFile.sectors (file : SourceFile) : List Sector :=
  (fun i => (ustarMakeHeader file.name .regular file.size).getD Buffer.zeros i) ::
    paddedSectors file.contents 0 file.size

/-- The device starts with an archive of the files. -/
def IsArchive (files : List SourceFile) (sectors : Nat → Sector) : Prop :=
  (range ((files.flatMap SourceFile.sectors).length + 2)).map sectors =
    files.flatMap SourceFile.sectors ++ [zeroSector, zeroSector]

/-- Sectors are written from a place on. -/
def writeAll (sectors : Nat → Sector) (start : Nat) (new : List Sector) : Nat → Sector :=
  fun i => if start ≤ i then new[i - start]?.getD (sectors i) else sectors i

section

variable {sectors : Nat → Sector} {start : Nat}

theorem writeAll_writeAll {front old new : List Sector} (covers : old.length ≤ new.length) :
    writeAll (writeAll sectors start (front ++ old)) (start + front.length) new =
      writeAll sectors start (front ++ new) := by
  funext i
  unfold writeAll
  by_cases was : start ≤ i
  · by_cases early : i - start < front.length
    · rw [if_neg (by omega), if_pos was, if_pos was, getElem?_append_left early,
        getElem?_append_left early]
    · rw [if_pos (by omega), if_pos was, if_pos was, getElem?_append_right (by omega),
        getElem?_append_right (by omega), Nat.sub_sub]
      by_cases inside : i - (start + front.length) < new.length
      · rw [getElem?_eq_getElem inside]
        rfl
      · rw [getElem?_eq_none (Nat.not_lt.mp inside), getElem?_eq_none (by omega)]
        rfl
  · rw [if_neg (by omega), if_neg was, if_neg was]

theorem writeAll_nil : writeAll sectors start [] = sectors := by
  funext i
  simp [writeAll]

theorem update_eq_writeAll (sec : Sector) : update sectors start sec =
    writeAll sectors start [sec] := by
  funext i
  unfold writeAll
  rcases Nat.lt_trichotomy i start with old | rfl | behind
  · rw [if_neg (by omega), update_of_ne (by omega)]
  · simp
  · rw [if_pos (by omega), update_of_ne (by omega), getElem?_eq_none (by simp; omega)]
    rfl

theorem paddedSectors_cons {bytes : Buffer} {ofs size chunkSize : Nat} (some_left : 0 < size)
    (is_chunk : chunkSize = if 512 < size then 512 else size) :
    paddedSectors bytes ofs size =
      (fun i : Fin 512 => if i < chunkSize then bytes (ofs + i) else 0) ::
        paddedSectors bytes (ofs + chunkSize) (size - chunkSize) := by
  have count : (size + 511) / 512 = (size - chunkSize + 511) / 512 + 1 := by
    split at is_chunk <;> omega
  rw [paddedSectors, count, range_succ_eq_map, map_cons, map_map]
  congr 1
  · funext i
    have below := i.isLt
    congr 1
    · rw [is_chunk]
      split <;> simp
      omega
    · congr 1
      omega
  · refine map_congr_left fun k mem => ?_
    have below := mem_range.mp mem
    funext i
    have large : 512 < size := by
      by_contra small
      rw [if_neg small] at is_chunk
      omega
    rw [if_pos large] at is_chunk
    subst is_chunk
    simp only [comp_apply]
    congr 1
    · simp only [eq_iff_iff]
      omega
    · congr 1
      omega

namespace Scratch

variable {dst : Scratch} {file : SourceFile} {beyond : UInt8}

/-- The device after some sectors were written. -/
abbrev write (dst : Scratch) (new : List Sector) (sector : Nat) : Scratch :=
  ⟨dst.size, writeAll dst.sectors dst.sector new, sector⟩

theorem write_write {front old new : List Sector} {sec : Nat} (covers : old.length ≤ new.length) :
    (dst.write (front ++ old) (dst.sector + front.length)).write new sec =
      dst.write (front ++ new) sec := by
  rw [write, write, write, writeAll_writeAll covers]

theorem write_more (dst : Scratch) (front new : List Sector) (sec : Nat) :
    (dst.write front (dst.sector + front.length)).write new sec = dst.write (front ++ new) sec := by
  have covered := @write_write dst front [] new sec (Nat.zero_le _)
  rwa [append_nil] at covered

theorem blockWrite_eq {buf : Buffer} (inside : dst.sector < dst.size) :
    dst.blockWrite dst.sector buf = some (dst.write [fun i => buf i] dst.sector) := by
  rw [blockWrite, if_pos inside, update_eq_writeAll]

theorem copyFile_eq {bytes : Buffer} {ofs size : Nat}
    (room : dst.sector + (paddedSectors bytes ofs size).length ≤ dst.size) :
    copyFile bytes ofs size dst = some (dst.write (paddedSectors bytes ofs size)
      (dst.sector + (paddedSectors bytes ofs size).length)) := by
  induction size using Nat.strong_induction_on generalizing ofs dst with
  | _ size ih =>
    rw [copyFile]
    by_cases some_left : 0 < size
    · obtain ⟨chunkSize, is_chunk⟩ : ∃ chunkSize, chunkSize = if 512 < size then 512 else size :=
        ⟨_, rfl⟩
      rw [paddedSectors_cons some_left is_chunk] at room ⊢
      rw [length_cons] at room
      rw [if_pos some_left, ← is_chunk, if_neg (by omega), blockWrite_eq (by omega),
        Option.bind_eq_bind, Option.bind_some]
      refine (ih (size - chunkSize) (by split at is_chunk <;> omega) (by dsimp only; omega)).trans ?_
      rw [length_cons, Nat.add_comm (length _), ← Nat.add_assoc]
      exact congrArg some (write_more dst [_] _ _)
    · obtain rfl : size = 0 := by omega
      rw [if_neg some_left]
      rw [show paddedSectors bytes ofs 0 = [] from rfl, write, writeAll_nil]
      rfl

theorem isSome_makeHeader (name : List UInt8) (type : UstarType) (size : Nat) :
    (ustarMakeHeader name type size).isSome ↔ (stripAntisocialPrefixes name).length ≤ 99 := by
  unfold ustarMakeHeader
  dsimp only
  split_ifs with long
  · simp [long]
  · simpa using long

theorem fsutilAppend_eq (short : (stripAntisocialPrefixes file.name).length ≤ 99)
    (room : dst.sector + file.sectors.length < dst.size) : dst.fsutilAppend file beyond =
      some (dst.write (file.sectors ++ [fun i => if i.val < 511 then 0 else beyond])
        (dst.sector + file.sectors.length)) := by
  obtain ⟨header, makes⟩ :=
    Option.isSome_iff_exists.mp ((isSome_makeHeader _ .regular file.size).mpr short)
  have image : file.sectors =
      (fun i : Fin 512 => header i) :: paddedSectors file.contents 0 file.size := by
    rw [SourceFile.sectors, makes, Option.getD_some]
  have count := congrArg length image
  rw [length_cons] at count
  have copied : copyFile file.contents 0 file.size (dst.write [fun i => header i] (dst.sector + 1)) =
      some (dst.write file.sectors (dst.sector + file.sectors.length)) := by
    rw [copyFile_eq (by dsimp only; omega), image, length_cons, Nat.add_comm (length _),
      ← Nat.add_assoc]
    exact congrArg some (write_more dst [_] _ _)
  simp only [fsutilAppend, makes, Option.bind_eq_bind, Option.bind_some,
    blockWrite_eq (show dst.sector < dst.size by omega), copied]
  rw [blockWrite_eq room, write_more, Option.bind_some, blockWrite_eq room]
  exact congrArg some (write_write (Nat.le_refl _))

theorem appendAll_eq {calls : List (SourceFile × UInt8)} (some_call : calls ≠ [])
    (short : ∀ call ∈ calls, (stripAntisocialPrefixes call.1.name).length ≤ 99)
    (room : dst.sector + (calls.flatMap fun call => call.1.sectors).length < dst.size) :
    dst.appendAll calls = some (dst.write ((calls.flatMap fun call => call.1.sectors) ++
      [fun i => if i.val < 511 then 0 else (calls.getLast some_call).2])
        (dst.sector + (calls.flatMap fun call => call.1.sectors).length)) := by
  induction calls generalizing dst with
  | nil => exact absurd rfl some_call
  | cons call calls ih =>
    rw [flatMap_cons, length_append] at room
    rw [appendAll, foldlM_cons, fsutilAppend_eq (short call mem_cons_self) (by omega),
      Option.bind_eq_bind, Option.bind_some]
    by_cases last : calls = []
    · subst last
      simp
    · refine (ih last (fun later mem => short later (mem_cons_of_mem _ mem)) (by dsimp only; omega)).trans ?_
      rw [flatMap_cons, append_assoc, getLast_cons last, length_append, ← Nat.add_assoc]
      exact congrArg some (write_write (by simp))

theorem short_of_appendAll {calls : List (SourceFile × UInt8)} {s' : Scratch}
    (gives : dst.appendAll calls = some s') :
    ∀ call ∈ calls, (stripAntisocialPrefixes call.1.name).length ≤ 99 := by
  induction calls generalizing dst with
  | nil => simp
  | cons call calls ih =>
    obtain ⟨next, fst, rest⟩ := Option.bind_eq_some_iff.mp gives
    obtain ⟨header, makes, _⟩ := Option.bind_eq_some_iff.mp fst
    refine forall_mem_cons.mpr ⟨?_, ih rest⟩
    rw [← isSome_makeHeader _ .regular call.1.size, makes]
    rfl

end Scratch

end

theorem map_writeAll (sectors : Nat → Sector) (new : List Sector) :
    (range new.length).map (writeAll sectors 0 new) = new := by
  refine ext_getElem (by simp) fun i left right => ?_
  simp [writeAll, getElem?_eq_getElem right]

theorem marker_iff (sectors : Nat → Sector) (image : List Sector) (beyond : UInt8) :
    (range (image.length + 2)).map
        (writeAll sectors 0 (image ++ [fun i => if i.val < 511 then 0 else beyond])) =
      image ++ [zeroSector, zeroSector] ↔ sectors (image.length + 1) = zeroSector ∧ beyond = 0 := by
  obtain ⟨marker, is_marker⟩ : ∃ marker : Sector, marker = fun i => if i.val < 511 then 0 else beyond :=
    ⟨_, rfl⟩
  have zero_iff : marker = zeroSector ↔ beyond = 0 := by
    rw [is_marker]
    constructor
    · intro zero
      exact (if_neg (by decide)).symm.trans (congrFun zero (511 : Fin 512))
    · rintro rfl
      funext i
      simp [zeroSector]
  have wrote := map_writeAll sectors (image ++ [marker])
  have behind : writeAll sectors 0 (image ++ [marker]) (image.length + 1) =
      sectors (image.length + 1) := by
    simp [writeAll]
  rw [length_append, length_singleton] at wrote
  rw [← is_marker, range_succ, map_append, wrote, map_singleton, behind, append_assoc,
    append_cancel_left_eq, ← zero_iff]
  simp [and_comm]

/-- A call for an empty file. -/
def emptyFile : SourceFile × UInt8 := (⟨[97], 0, Buffer.zeros⟩, 0)

end Pintos.Filesys
