import Pintos.Filesys.Session

/-!
# Addressing

`byte_to_sector` finds the sector of every position of a file that does not reach past its first
inode, and of no position past it: an inode that is linked to another one never records how many
bytes come before it.
-/

namespace Pintos.Filesys

open Execution Option

namespace Fs

/-- The data blocks of an inode and of the inodes linked to it. -/
inductive BlockOf (fs : Fs) : InodeDisk → Nat → Prop
  | own {data : InodeDisk} {i : Nat} (below : i < data.sectors) : BlockOf fs data (data.block i)
  | linked {data : InodeDisk} {sector : Nat} (goes : ptrExists data.doubleptr = true)
      (rest : BlockOf fs (fs.inodeAt (ptrGetAddress data.doubleptr)) sector) :
      BlockOf fs data sector

/-- The sector that `byte_to_sector` returns, if it returns one. -/
def sectorAt (fs : Fs) (inode : Ref) (pos : Nat) : Option Nat :=
  (fs.byteToSector inode pos).bind fun result => result.2

/-- Every position of the file has an allocated sector of the file, and positions in different
blocks have different sectors. -/
structure Addressable (fs : Fs) (inode : Ref) (node : Inode) : Prop where
  found : ∀ pos < node.data.fileLength, ∃ sector, fs.sectorAt inode pos = some sector ∧
    fs.Allocated sector ∧ fs.BlockOf node.data sector
  distinct : ∀ first < node.data.fileLength, ∀ second < node.data.fileLength,
    first / 512 ≠ second / 512 → fs.sectorAt inode first ≠ fs.sectorAt inode second

variable {fs : Fs} {owner : Owner} {inode : Ref} {node : Inode}

theorem sectorAt_inside (held : fs.inodes inode = some node) (reads : fs.Readable node.data)
    {pos : Nat} (below : pos < node.data.fileLength) (inside : pos < 124928) :
    fs.sectorAt inode pos = some (node.data.block (pos / 512)) := by
  unfold sectorAt
  rw [byteToSector_inside held reads below inside]
  rfl

theorem sectorAt_beyond (m : fs.Memory) {pos : Nat} (beyond : 124928 ≤ pos) :
    fs.sectorAt inode pos = none := by
  unfold sectorAt
  cases finds : fs.byteToSector inode pos with
  | none => rfl
  | some found =>
    obtain ⟨s', sec⟩ := found
    obtain ⟨rfl, _⟩ := byteToSector_beyond m beyond finds
    rfl

/-- An open file is addressable end to end exactly if it does not reach past its first inode. -/
theorem Opened.addressable_iff (opened : fs.Opened owner node) (m : fs.Memory)
    (held : fs.inodes inode = some node) :
    fs.Addressable inode node ↔ node.data.fileLength ≤ byteCapacity := by
  have reads := opened.head.readable opened.covered
  constructor
  · intro addressable
    by_contra long
    have long : 124928 < node.data.fileLength := Nat.not_le.mp long
    obtain ⟨sec, found, _⟩ := addressable.found 124928 long
    rw [sectorAt_beyond m (Nat.le_refl _)] at found
    cases found
  · intro short
    have short : node.data.fileLength ≤ 124928 := short
    refine ⟨?_, ?_⟩
    · intro pos below
      have i := reads.index_lt below (show pos < 124928 by omega)
      exact ⟨_, sectorAt_inside held reads below (by omega),
        (opened.head.blocks.owned _ i).1, .own i⟩
    · intro fst fst_lt snd snd_lt ne same
      rw [sectorAt_inside held reads fst_lt (by omega),
        sectorAt_inside held reads snd_lt (by omega)] at same
      exact ne (opened.head.distinct _ (reads.index_lt fst_lt (by omega)) _
        (reads.index_lt snd_lt (by omega)) (some.inj same))

end Fs

namespace Session

variable {session : Session} {inode : Ref} {owner : Owner}

/-- In every state that calls of the inode layer reach, an open file is addressable end to end
exactly if it is no longer than one inode spans. -/
theorem addressable_iff_length_le {size : Nat} {disk : Nat → Buffer} {garbage : Ref → Inode} {fs : Fs}
    (small : size ≤ 2 ^ 14) (formatted : Fs.filesysInit size disk garbage = some fs)
    {calls : List Call} (reached : run step (start fs) calls = some session)
    (handle : session.Handle inode) {node : Inode} (held : session.fs.inodes inode = some node) :
    session.fs.Addressable inode node ↔ node.data.fileLength ≤ byteCapacity := by
  obtain ⟨owner, sound⟩ := valid_of_run small formatted reached
  obtain ⟨file, view, named, is_open, rfl⟩ := view_of_handle sound handle
  obtain ⟨cur, here⟩ := sound.present named is_open
  obtain rfl := some.inj (here.listed.2.symm.trans held)
  exact here.opened.addressable_iff sound.heapMemory held

/-- The free sectors of a freshly formatted device of 16384 sectors. -/
theorem card_freeSectors_of_formatted {fs : Fs} (made : fs.RootMade owner 16384) :
    16368 ≤ fs.freeSectors.card := by
  have card := made.card
  have bits := made.sound.ready.bitCnt
  rw [made.device] at bits
  simp only [Bitmap.fileSize, divRoundUp, bits] at card
  omega

/-- A file of one byte more than an inode spans can be created and opened on a device of 16384
sectors, and is not addressable. -/
theorem chained_file_not_addressable : ∃ fs sector session inode node,
      Fs.filesysInit 16384 (fun _ => Buffer.zeros) blankMemory = some fs ∧
      run step (start fs) [.inodeCreate 124929, .inodeOpen sector] = some session ∧
      session.Handle inode ∧ session.fs.inodes inode = some node ∧ node.sector = sector ∧
      node.data.fileLength = 124929 ∧ ¬ session.fs.Addressable inode node := by
  obtain ⟨fs, format⟩ := @Fs.filesysInit_isSome 16384 (fun _ => Buffer.zeros) blankMemory
    (by omega) (by omega)
  obtain ⟨owner, made⟩ := Fs.filesysInit_some (by omega) format
  have sound := made.sound
  have many := card_freeSectors_of_formatted made
  rcases Fs.freeMapAllocate_head sound.ready with ⟨nothing, _⟩ | ⟨sector, taken, takes, took⟩
  · rw [nothing] at many
    simp at many
  have owned := took.owned sound.ready
  have card := took.card
  obtain ⟨unnamed, alien⟩ := sound.took_new took
  obtain ⟨sound, _, _⟩ := sound.took took
  have closed := closed_of_new sound unnamed alien
  obtain ⟨after, owner', res, makes, created, result_made⟩ := Fs.inodeCreate_spec
    ⟨.inl alien, sound.ready, sound.fresh, owned⟩ (show 124929 < 2 ^ 31 by omega)
  cases result_made with
  | failed _ _ _ few => omega
  | done stored content _ _ =>
    obtain ⟨sound', opens', _⟩ := sound.created alien owned.2 closed created (fun _ => id)
      (fun _ is_named _ => .inr is_named) fun _ => stored
    have named : sector ∈ insert sector ({rootDirSector} : Set Nat) := .inl rfl
    obtain ⟨last, view, opens, sound'', quiet, _, now_open, _⟩ := Fs.inodeOpen_spec sound' named
    have is_open : last.opens sector = some view := by
      rw [now_open]
      exact Function.update_self _ _ _
    obtain ⟨node, here⟩ := sound''.present named is_open
    have len : node.data.fileLength = 124929 := by
      rw [← here.length]
      exact congrArg FlatFile.length ((congrFun quiet.content sector).trans content)
    refine ⟨fs, sector, ⟨last, insert sector {rootDirSector}⟩, view.ref, node, format, ?_,
      ⟨here.listed.1, here.notMap⟩, here.listed.2, here.sector, len, ?_⟩
    · simp [run, step, createInode, start, takes, makes, opens]
    · rw [here.opened.addressable_iff sound''.heapMemory here.listed.2, len]
      decide

/-- The root directory of a small device is addressable. -/
theorem addressable_root_directory : ∃ fs session node,
    Fs.filesysInit 16 (fun _ => Buffer.zeros) blankMemory = some fs ∧
      run step (start fs) [.inodeOpen 1] = some session ∧ session.fs.inodes 5 = some node ∧
      session.Handle 5 ∧
      (session.fs.Addressable 5 node ↔ node.data.fileLength ≤ byteCapacity) := by
  have runs : ((Fs.filesysInit 16 (fun _ => Buffer.zeros) blankMemory).bind fun fs =>
      (run step (start fs) [.inodeOpen 1]).bind fun session =>
        (session.fs.inodes 5).bind fun _ => if session.Handle 5 then some () else none).isSome =
      true := by
    decide +kernel
  obtain ⟨_, runs⟩ := isSome_iff_exists.mp runs
  obtain ⟨fs, made, runs⟩ := bind_eq_some_iff.mp runs
  obtain ⟨session, got, runs⟩ := bind_eq_some_iff.mp runs
  obtain ⟨node, held, runs⟩ := bind_eq_some_iff.mp runs
  split at runs
  · next handle =>
      exact ⟨fs, session, node, made, got, held, handle,
        addressable_iff_length_le (by decide) made got handle held⟩
  · cases runs

end Session

end Pintos.Filesys
