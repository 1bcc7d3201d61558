import Mathlib.Order.Interval.Finset.Nat
import Pintos.Filesys.Creation

/-!
# Formatting

`filesys_init` with formatting: the free map file and the root directory are created, the free map
file is closed and opened again.  What it leaves satisfies the invariant of the inode layer, with
the root directory as the only file.
-/

namespace Pintos.Filesys

open Function Option List Nat

namespace Fs

def dirCreateRoot (fs : Fs) (sector : Nat) : Option (Fs × Bool) := do
  let (fs, success) ← fs.inodeCreate sector blockSectorSize
  if success then do
    let fs ← fs.markSector sector
    some (fs, true)
  else
    some (fs, false)

def doFormat (fs : Fs) : Option Fs := do
  let fs ← fs.freeMapCreate
  let (fs, success) ← fs.dirCreateRoot rootDirSector
  if success then fs.freeMapClose else none

/-- `filesys_init` with formatting, on a device with any contents. -/
def filesysInit (size : Nat) (disk : Nat → Buffer) (garbage : Ref → Inode) : Option Fs := do
  let fs ← (freeMapInit size disk garbage).doFormat
  fs.freeMapOpen

variable {fs s' : Fs} {owner owner' : Owner} {r : Ref} {node : Inode}
  {size : Nat} {disk : Nat → Buffer} {garbage : Ref → Inode}

/-! ## The free map file -/

/-- The free map file is open once, and its inode in memory is the one on the device. -/
structure MapOpen (fs : Fs) (r : Ref) (node : Inode) : Prop where
  file : fs.freeMapFile = some r
  held : fs.inodes r = some node
  count : node.openCnt = 1
  next : node.next = none
  removed : node.removed = false
  data : node.data = fs.inodeAt freeMapSector

/-- Every sector is tagged as the inode of a file of its own. -/
def ownInodes : Owner := fun sector => ⟨sector, .inode⟩

theorem ready_freeMapInit (two : 2 ≤ size) (small : size ≤ 2 ^ 14) :
    (freeMapInit size disk garbage).Ready ownInodes := by
  refine ⟨small, rfl, ?_, by simp [freeMapInit]⟩
  intro sec past
  have past : size ≤ sec := past
  simp only [freeMapInit, Bool.or_eq_false_iff, beq_eq_false_iff_ne]
  exact ⟨show sec ≠ 0 by omega, show sec ≠ 1 by omega⟩

theorem creatable_freeMapInit (two : 2 ≤ size) (small : size ≤ 2 ^ 14) :
    (freeMapInit size disk garbage).Creatable ownInodes freeMapSector where
  foreign := .inr rfl
  ready := ready_freeMapInit two small
  fresh _ _ := rfl
  owned := ⟨⟨show 0 < size by omega, rfl⟩, rfl⟩

/-- The state after the free map has been written for the first time. -/
structure MapMade (fs : Fs) (owner : Owner) (size : Nat) : Prop where
  device : fs.size = size
  sound : fs.Sound owner ∅
  map : ∃ r node, fs.MapOpen r node
  root : fs.Owned owner ⟨rootDirSector, .inode⟩ rootDirSector
  card : 512 * size ≤ 512 * fs.freeSectors.card + 2 * fs.freeMap.fileSize + 2046

theorem card_freeMapInit (two : 2 ≤ size) :
    (freeMapInit size disk garbage).freeSectors.card + 2 = size := by
  have marked : (freeMapInit size disk garbage).freeSectors = Finset.Ico 2 size := by
    ext sec
    rw [freeSectors, Bitmap.mem_freeSectors, Finset.mem_Ico]
    simp only [freeMapInit, Bool.or_eq_false_iff, beq_eq_false_iff_ne]
    constructor
    · rintro ⟨below, not_zero, not_one⟩
      have not_zero : sec ≠ 0 := not_zero
      have not_one : sec ≠ 1 := not_one
      omega
    · rintro ⟨above, below⟩
      exact ⟨below, show sec ≠ 0 by omega, show sec ≠ 1 by omega⟩
  rw [marked, card_Ico]
  omega

/-- The free map has been written to its file, which has just been created and opened. -/
theorem mapMade_of_written {written : Fs}
    (made : Created (freeMapInit size disk garbage) ownInodes freeMapSector fs owner)
    (stored : fs.Stored owner freeMapSector)
    (root : fs.Owned owner ⟨rootDirSector, .inode⟩ rootDirSector)
    (card : 512 * size ≤ 512 * fs.freeSectors.card + 2 * fs.freeMap.fileSize + 2046)
    (state : written =
      { fs.opened freeMapSector with freeMapFile := some fs.heapTop, disk := written.disk })
    (out : ∀ sec, ¬ fs.Owned owner ⟨freeMapSector, .block⟩ sec → written.disk sec = fs.disk sec)
    (map_node : written.FreeMapNode owner (fs.openedInode freeMapSector))
    (synced : ∀ i < fs.freeMap.fileSize,
      written.byte (fs.openedInode freeMapSector).data i = Buffer.ofBits fs.freeMap.bits i) :
    MapMade written owner size := by
  have list : written.openInodes = [fs.heapTop] := by
    rw [state]
    simp only [opened]
    rw [made.rest]
    rfl
  have inodes : written.inodes =
      update fs.inodes fs.heapTop (some (fs.openedInode freeMapSector)) := by
    rw [state]
    rfl
  have heapTop : written.heapTop = fs.heapTop + 1 := by
    rw [state]
    rfl
  have taken : ∀ sec, fs.Allocated sec → written.Allocated sec := by
    intro sec is_allocated
    rw [state]
    exact is_allocated
  have keeps : Keeps fs owner written owner (fun _ => False)
      fun sec => fs.Owned owner ⟨freeMapSector, .block⟩ sec :=
    ⟨fun owned _ => ⟨taken _ owned.1, owned.2⟩, fun _ => False.elim,
      fun sec _ clean _ => out sec clean⟩
  have chain_kept : ∀ {file ptr linked}, fs.Chain owner file ptr linked →
      written.Chain owner file ptr linked := by
    intro file ptr linked chain
    refine keeps.chain chain ?_
    rintro sec mem ⟨_, is_block⟩
    cases (chain.link mem).owned.2.symm.trans is_block
  have same_inode : written.inodeAt freeMapSector = fs.inodeAt freeMapSector := by
    refine keeps.inodeAt stored.owned ?_
    rintro ⟨_, is_block⟩
    cases stored.owned.2.symm.trans is_block
  have ready := made.ready
  have held : written.inodes fs.heapTop = some (fs.openedInode freeMapSector) := by
    rw [inodes]
    exact update_self _ _ _
  have map_file : written.freeMapFile = some fs.heapTop := by rw [state]
  refine ⟨by rw [state]; exact made.grows.size, ⟨?_, ?_, ?_, keeps.owned stored.owned id, ?_, id,
    by simp [list], ?_, ?_, fun _ => False.elim⟩, ⟨fs.heapTop, fs.openedInode freeMapSector,
    map_file, held, rfl, rfl, rfl, same_inode.symm⟩, keeps.owned root id, ?_⟩
  · refine ⟨by rw [state]; exact ready.small, by rw [state]; exact ready.bitCnt,
      by rw [state]; exact ready.bounded, ?_⟩
    intro r is_map
    obtain rfl := some.inj (map_file.symm.trans is_map)
    refine ⟨_, held, map_node, ?_⟩
    rw [state] at synced ⊢
    exact synced
  · intro r above
    rw [heapTop] at above
    rw [inodes, update_of_ne (ne_of_gt above)]
    exact made.fresh r (le_of_lt above)
  · intro r node is_held
    by_cases is_new : r = fs.heapTop
    · rw [is_new] at is_held ⊢
      obtain rfl := some.inj (held.symm.trans is_held)
      obtain ⟨linked, chain⟩ := stored.head.chain
      refine ⟨stored.head.prev, ⟨_, linked, chain_kept chain⟩, by simp [openedInode], ?_⟩
      simp [list]
    · rw [inodes, update_of_ne is_new] at is_held
      obtain ⟨closed, prev, next, linked, chain, _⟩ := made.spare r node (zero_le _) is_held
      refine ⟨prev, ⟨_, linked, chain_kept chain⟩, ?_, fun _ => closed⟩
      intro after is_next
      have below := (next after is_next).2
      refine ⟨by rw [heapTop]; exact lt_succ_of_lt below, ?_⟩
      rw [list, mem_singleton]
      exact Nat.ne_of_lt below
  · intro r is_map
    obtain rfl := some.inj (map_file.symm.trans is_map)
    simp [list]
  · intro r mem
    rw [list, mem_singleton] at mem
    exact ⟨_, by rw [mem]; exact held, .inl (by rw [mem]; exact map_file)⟩
  · intro fst first_in snd snd_in _ _ _ _ _
    rw [list, mem_singleton] at first_in snd_in
    rw [first_in, snd_in]
  · rw [state]
    exact card

/-- `free_map_create` fails only on a device with very few sectors. -/
theorem freeMapCreate_spec (two : 2 ≤ size) (small : size ≤ 2 ^ 14) :
    (∃ fs owner, (freeMapInit size disk garbage).freeMapCreate = some fs ∧ MapMade fs owner size) ∨
      (freeMapInit size disk garbage).freeMapCreate = none ∧ size ≤ 4 := by
  obtain ⟨start, is_start⟩ : ∃ start, start = freeMapInit size disk garbage := ⟨_, rfl⟩
  have creatable := @creatable_freeMapInit size disk garbage two small
  have free := @card_freeMapInit size disk garbage two
  rw [← is_start] at creatable free
  have file_size : start.freeMap.fileSize = 4 * divRoundUp size 32 := by
    rw [is_start]
    rfl
  have bound : start.freeMap.fileSize ≤ 2048 := creatable.ready.fileSize_le
  obtain ⟨fs, owner, res, makes, created, made⟩ := inodeCreate_spec creatable
    (show start.freeMap.fileSize < 2 ^ 31 by omega)
  rw [← is_start]
  cases made with
  | failed _ _ _ few =>
    refine .inr ⟨by simp [freeMapCreate, makes], ?_⟩
    unfold divRoundUp at file_size
    omega
  | done stored content _ cost =>
    refine .inl ?_
    have same_map : fs.freeMap.fileSize = start.freeMap.fileSize := by
      have bits := created.ready.bitCnt
      rw [created.grows.size, ← creatable.ready.bitCnt] at bits
      unfold Bitmap.fileSize
      rw [bits]
    have len : (fs.inodeAt freeMapSector).fileLength = fs.freeMap.fileSize := by
      rw [same_map]
      exact congrArg FlatFile.length content
    have no_inodes : fs.openInodes = [] := by
      rw [created.rest, is_start]
      rfl
    have opens : fs.inodeOpen freeMapSector = some (fs.opened freeMapSector, fs.heapTop) :=
      inodeOpen_of_closed (by simp [findOpen, no_inodes]) stored.owned.1.1
    obtain ⟨ready, is_ready⟩ : ∃ ready, ready =
        { fs.opened freeMapSector with freeMapFile := some fs.heapTop } := ⟨_, rfl⟩
    have held : ready.inodes fs.heapTop = some (fs.openedInode freeMapSector) := by
      rw [is_ready]
      exact update_self _ _ _
    have keeps : Keeps fs owner ready owner (fun _ => False) fun _ => False := by
      rw [is_ready]
      exact ⟨fun owned _ => owned, fun _ => False.elim, fun _ _ _ _ => rfl⟩
    have map_node : ready.FreeMapNode owner (fs.openedInode freeMapSector) := by
      refine ⟨rfl, rfl, ?_, stored.covered, ?_⟩
      · refine keeps.head_of_blocks (fun _ _ _ => id) (fun _ _ => ?_) stored.head
        rw [is_ready]
        rfl
      · rw [is_ready]
        exact len
    have ready_size : ready.freeMap.fileSize = fs.freeMap.fileSize := by
      rw [is_ready]
      rfl
    obtain ⟨put, wrote, state, out, kept, synced⟩ := bitmapWrite_spec held map_node (by omega)
    refine ⟨put, owner, ?_, mapMade_of_written (is_start ▸ created) stored ?_ ?_ ?_ ?_ kept ?_⟩
    · rw [is_ready] at wrote
      simp [freeMapCreate, makes, opens, wrote]
    · refine created.grows.owned ⟨⟨?_, ?_⟩, rfl⟩
      · rw [is_start]
        exact two
      · rw [is_start]
        rfl
    · rw [same_map]
      omega
    · rw [state, is_ready]
    · intro sec alien
      rw [out sec, is_ready]
      · rfl
      · rw [is_ready]
        exact alien
    · rw [← ready_size]
      intro i below
      rw [synced i below, is_ready]
      rfl

/-! ## The root directory -/

/-- The state after the root directory has been made. -/
structure RootMade (fs : Fs) (owner : Owner) (size : Nat) : Prop where
  device : fs.size = size
  sound : fs.Sound owner {rootDirSector}
  map : ∃ r node, fs.MapOpen r node
  closed : ∀ file, file ≠ freeMapSector → fs.opens file = none
  content : fs.content rootDirSector = FlatFile.zeros 512
  card : 512 * size ≤ 512 * fs.freeSectors.card + 2 * fs.freeMap.fileSize + 4092

theorem MapOpen.later {file : Nat} {hit : Nat → Prop} (map : fs.MapOpen r node)
    (ages : Ages fs s') (grows : Grows fs owner s' owner' hit)
    (owned : fs.Owned owner ⟨freeMapSector, .inode⟩ freeMapSector)
    (within : ∀ sec, hit sec → Belongs owner file sec) (alien : file ≠ freeMapSector) :
    s'.MapOpen r node where
  __ := map
  file := ages.mapFile.trans map.file
  held := (ages.map r map.file).trans map.held
  data := by
    rw [map.data]
    refine (grows.keeps.inodeAt owned ?_).symm
    intro is_touched
    rcases within _ is_touched with is_block | rfl
    · cases owned.2.symm.trans is_block
    · exact alien rfl

theorem MapMade.closed (made : MapMade fs owner size) {file : Nat} (alien : file ≠ freeMapSector) :
    fs.opens file = none := by
  cases opened : fs.opens file with
  | none => rfl
  | some view => exact ((made.sound.named_of_opens opened).resolve_left alien).elim

/-- `dir_create_root` fails only if fewer than four sectors are free. -/
theorem dirCreateRoot_spec (made : MapMade fs owner size) :
    (∃ s' owner', fs.dirCreateRoot rootDirSector = some (s', true) ∧ RootMade s' owner' size) ∨
    (∃ s', fs.dirCreateRoot rootDirSector = some (s', false)) ∧ fs.freeSectors.card < 4 := by
  have sound := made.sound
  have alien : rootDirSector ≠ freeMapSector := by decide
  have closed := made.closed alien
  have creatable : fs.Creatable owner rootDirSector :=
    ⟨.inl alien, sound.ready, sound.fresh, made.root⟩
  obtain ⟨mid, owner', res, makes, created, result_made⟩ :=
    inodeCreate_spec creatable (show 512 < 2 ^ 31 by omega)
  cases result_made with
  | failed _ _ _ few =>
    refine .inr ⟨⟨mid, by simp [dirCreateRoot, makes]⟩, ?_⟩
    omega
  | done stored content _ cost =>
    refine .inl ?_
    obtain ⟨sound_middle, opens, ages⟩ := sound.created alien made.root.2 closed created
      (fun _ => .inl) (fun _ => False.elim) fun _ => stored
    have named : rootDirSector ∈ ({rootDirSector} : Set Nat) := rfl
    obtain ⟨map, node, map_open⟩ := made.map
    have map_middle : mid.MapOpen map node := map_open.later ages created.grows
      sound.mapInode (fun _ => .inr) alien
    obtain ⟨s', marks, sound', opens', ages', grows', content', same_free⟩ :=
      markSector_spec sound_middle named (by rw [opens]; exact closed) (by simp [map_middle.file])
    refine ⟨s', owner', by simp [dirCreateRoot, makes, marks], ?_, sound', ⟨map, node, ?_⟩, ?_,
      ?_, ?_⟩
    · rw [grows'.size, created.grows.size, made.device]
    · exact map_middle.later ages' grows' sound_middle.mapInode (fun _ => id) alien
    · intro file is_foreign
      rw [opens', opens]
      exact made.closed is_foreign
    · rw [content', content]
    · have card := made.card
      have bits := sound'.ready.bitCnt
      rw [grows'.size, created.grows.size, ← sound.ready.bitCnt] at bits
      rw [same_free]
      simp only [Bitmap.fileSize, bits] at card ⊢
      omega

/-! ## Opening the free map again -/

/-- The state after the free map file has been closed and opened again. -/
def reopened (fs : Fs) (map : Ref) : Fs :=
  { fs with
    inodes := update (update fs.inodes map none) fs.heapTop (some (fs.openedInode freeMapSector))
    heapTop := fs.heapTop + 1
    openInodes := [fs.heapTop]
    freeMapFile := some fs.heapTop }

theorem RootMade.openInodes (made : RootMade fs owner size) (map : fs.MapOpen r node) :
    fs.openInodes = [r] := by
  have sound := made.sound
  have only : ∀ o ∈ fs.openInodes, o = r := by
    intro o mem
    obtain ⟨here, held, is_listed⟩ := sound.listed o mem
    rcases is_listed with is_map | ⟨named, _⟩
    · exact some.inj (is_map.symm.trans map.file)
    · have opened := sound.opens_eq_some.mpr
        ⟨here, show fs.OpenNode (viewOf o here).ref here from ⟨mem, held⟩, rfl, rfl⟩
      rw [made.closed here.sector (by rw [named]; decide)] at opened
      cases opened
  by_contra ne
  rcases (sound.nodup.ne_singleton_iff r).mp ne with nothing | ⟨o, mem, apart⟩
  · have listed := sound.mapOpen r map.file
    rw [nothing] at listed
    cases listed
  · exact apart (only o mem)

/-- The free map file is in order, in so far as its inode goes. -/
structure MapFormed (fs : Fs) : Prop where
  small : fs.size ≤ 2 ^ 14
  bitCnt : fs.freeMap.bitCnt = fs.size
  present : freeMapSector < fs.size
  readable : fs.Readable (fs.inodeAt freeMapSector)
  distinct : ∀ first < (fs.inodeAt freeMapSector).sectors,
    ∀ second < (fs.inodeAt freeMapSector).sectors,
      (fs.inodeAt freeMapSector).block first = (fs.inodeAt freeMapSector).block second → first = second
  apart : ∀ i < (fs.inodeAt freeMapSector).sectors,
    (fs.inodeAt freeMapSector).block i ≠ freeMapSector
  length : (fs.inodeAt freeMapSector).fileLength = fs.freeMap.fileSize

theorem MapFormed.frame (formed : fs.MapFormed) (size : s'.size = fs.size)
    (bitCnt : s'.freeMap.bitCnt = fs.freeMap.bitCnt)
    (r : s'.inodeAt freeMapSector = fs.inodeAt freeMapSector) : s'.MapFormed := by
  obtain ⟨small, bits, here, ⟨prev, covered, inPlace, fits⟩, ne, apart, len⟩ := formed
  refine ⟨size ▸ small, by rw [bitCnt, size, bits], size ▸ here, ?_, ?_, ?_, ?_⟩
  · rw [r]
    exact ⟨prev, covered, inPlace, size ▸ fits⟩
  · rwa [r]
  · rwa [r]
  · rw [r, len, Bitmap.fileSize, Bitmap.fileSize, bitCnt]

theorem FreeMapNode.formed (map_node : fs.FreeMapNode owner node) (ready : fs.Ready owner)
    (owned : fs.Owned owner ⟨freeMapSector, .inode⟩ freeMapSector)
    (data : node.data = fs.inodeAt freeMapSector) : fs.MapFormed := by
  obtain ⟨_, _, head, covered, len⟩ := map_node
  rw [data] at head covered len
  refine ⟨ready.small, ready.bitCnt, owned.1.1, head.readable covered, head.distinct, ?_, len⟩
  intro i below same
  have tag := (head.blocks.owned i below).2
  rw [same, owned.2] at tag
  cases tag

theorem MapFormed.fileSize_le (formed : fs.MapFormed) : fs.freeMap.fileSize ≤ 2048 := by
  have small := formed.small
  have bitCnt := formed.bitCnt
  simp only [Bitmap.fileSize, divRoundUp]
  omega

theorem freeMapOpen_eq (formed : fs.MapFormed) (closed : fs.findOpen freeMapSector = none) :
    fs.freeMapOpen = some { fs.opened freeMapSector with
        freeMapFile := some fs.heapTop
        freeMap := Bitmap.ofBytes fs.freeMap.bitCnt (fs.byte (fs.inodeAt freeMapSector)) } := by
  have fits := formed.fileSize_le
  have new_held : (fs.opened freeMapSector).inodes fs.heapTop = some (fs.openedInode freeMapSector) :=
    update_self ..
  have len : (fs.openedInode freeMapSector).data.fileLength = fs.freeMap.fileSize := formed.length
  have opened : (fs.opened freeMapSector).MapFormed := formed.frame rfl rfl rfl
  have reads := readLoop_spec new_held opened.readable
    fs.freeMap.fileSize (Buffer.ofBits fs.freeMap.bits) fs.freeMap.fileSize 0 0 (le_refl _) (by omega)
  rw [len, Nat.sub_zero, Nat.min_self, Nat.zero_add] at reads
  have same_map : Bitmap.ofBytes fs.freeMap.bitCnt ((Buffer.ofBits fs.freeMap.bits).copy 0
      (fs.byte (fs.inodeAt freeMapSector)) 0 fs.freeMap.fileSize) =
      Bitmap.ofBytes fs.freeMap.bitCnt (fs.byte (fs.inodeAt freeMapSector)) := by
    refine Bitmap.ofBytes_congr fun i below => ?_
    rw [Buffer.copy_inside (Nat.zero_le _) (by rw [Nat.zero_add]; exact below), Nat.zero_add, Nat.sub_zero]
  have reads' : (fs.opened freeMapSector).inodeReadAt fs.heapTop
      (Buffer.ofBits (fs.opened freeMapSector).freeMap.bits) (fs.opened freeMapSector).freeMap.fileSize 0 =
      some (fs.opened freeMapSector, (Buffer.ofBits fs.freeMap.bits).copy 0
        (fs.byte (fs.inodeAt freeMapSector)) 0 fs.freeMap.fileSize, fs.freeMap.fileSize) := reads
  simp only [freeMapOpen, inodeOpen_of_closed closed formed.present, bind_eq_bind, bind_some, reads']
  rw [if_pos (show fs.freeMap.fileSize = (fs.opened freeMapSector).freeMap.fileSize from rfl),
    show (fs.opened freeMapSector).freeMap.bitCnt = fs.freeMap.bitCnt from rfl, same_map]

/-- The state after the free map file has been closed. -/
def mapClosed (fs : Fs) (map : Ref) : Fs :=
  { fs with inodes := update fs.inodes map none, openInodes := [] }

section

variable (made : RootMade fs owner size)
include made

theorem freeMapClose_spec (map : fs.MapOpen r node) : fs.freeMapClose = some (fs.mapClosed r) := by
  have listed := made.openInodes map
  simp [freeMapClose, map.file, inodeClose, close, map.held, map.next, map.count, map.removed,
    listed, free, mapClosed]

/-- The free map that is read back is the one that was written. -/
theorem freeMapOpen_spec (map : fs.MapOpen r node) :
    (fs.mapClosed r).freeMapOpen = some (fs.reopened r) := by
  have sound := made.sound
  obtain ⟨map_node, held, is_map, synced⟩ := sound.ready.file r map.file
  obtain rfl := some.inj (map.held.symm.trans held)
  have formed := is_map.formed sound.ready sound.mapInode map.data
  rw [@freeMapOpen_eq (fs.mapClosed r) (formed.frame rfl rfl rfl) rfl]
  rw [map.data] at synced
  have same_map : Bitmap.ofBytes fs.freeMap.bitCnt (fs.byte (fs.inodeAt freeMapSector)) =
      fs.freeMap := by
    rw [Bitmap.ofBytes_congr synced]
    refine fs.freeMap.ofBytes_ofBits ?_
    rw [sound.ready.bitCnt]
    exact sound.ready.bounded
  rw [show Bitmap.ofBytes (fs.mapClosed r).freeMap.bitCnt
    ((fs.mapClosed r).byte ((fs.mapClosed r).inodeAt freeMapSector)) = fs.freeMap from same_map]
  rfl

theorem RootMade.reopened (map : fs.MapOpen r node) : RootMade (fs.reopened r) owner size ∧
      (fs.reopened r).MapOpen fs.heapTop (fs.openedInode freeMapSector) := by
  have sound := made.sound
  have listed := made.openInodes map
  obtain ⟨map_node, held, is_map, synced⟩ := sound.ready.file r map.file
  obtain rfl := some.inj (map.held.symm.trans held)
  have keeps : Keeps fs owner (fs.reopened r) owner (fun _ => False) fun _ => False :=
    ⟨fun owned _ => owned, fun _ => False.elim, fun _ _ _ _ => rfl⟩
  have head : (fs.reopened r).Head owner freeMapSector (fs.inodeAt freeMapSector) := by
    rw [← map.data]
    exact keeps.head_of_blocks (fun _ _ _ => id) (fun _ _ => rfl) is_map.head
  have new_held : (fs.reopened r).inodes fs.heapTop = some (fs.openedInode freeMapSector) :=
    update_self _ _ _
  have old : ∀ o here, o ≠ fs.heapTop → (fs.reopened r).inodes o = some here →
      fs.inodes o = some here ∧ o ≠ r := by
    intro o here ne is_held
    rw [show (fs.reopened r).inodes o = update fs.inodes r none o from
      update_of_ne ne _ _] at is_held
    by_cases is_old : o = r
    · rw [is_old, update_self] at is_held
      cases is_held
    · rw [update_of_ne is_old] at is_held
      exact ⟨is_held, is_old⟩
  refine ⟨⟨made.device, ⟨?_, ?_, ?_, keeps.owned sound.mapInode id, ?_, sound.mapApart,
    nodup_singleton _, ?_, ?_, ?_⟩, ⟨_, _, rfl, new_held, rfl, rfl, rfl, rfl⟩, ?_, made.content,
    made.card⟩, rfl, new_held, rfl, rfl, rfl, rfl⟩
  · refine ⟨sound.ready.small, sound.ready.bitCnt, sound.ready.bounded, ?_⟩
    intro o is_file
    cases is_file
    refine ⟨_, new_held, ⟨rfl, rfl, head, ?_, ?_⟩, ?_⟩
    · change (fs.inodeAt freeMapSector).Covered
      rw [← map.data]
      exact is_map.covered
    · change (fs.inodeAt freeMapSector).fileLength = fs.freeMap.fileSize
      rw [← map.data]
      exact is_map.length
    · rw [map.data] at synced
      exact synced
  · intro o above
    have above : fs.heapTop + 1 ≤ o := above
    have below := sound.map_lt map.file
    have fst : o ≠ fs.heapTop := ne_of_gt above
    have snd : o ≠ r := ne_of_gt (lt_trans below above)
    simp only [Fs.reopened, update_of_ne fst, update_of_ne snd]
    exact sound.fresh o (le_of_lt above)
  · intro o here is_held
    by_cases is_new : o = fs.heapTop
    · rw [is_new] at is_held ⊢
      obtain rfl := some.inj (new_held.symm.trans is_held)
      obtain ⟨link, chain⟩ := head.chain
      exact ⟨head.prev, ⟨_, link, chain⟩, by simp [openedInode], by simp [Fs.reopened]⟩
    · obtain ⟨was, ne⟩ := old o here is_new is_held
      obtain ⟨prev, ⟨file, link, chain⟩, next, closed⟩ := sound.memory o here was
      refine ⟨prev, ⟨file, link, keeps.chain chain fun _ _ => id⟩, ?_, fun _ => closed ?_⟩
      · intro after is_next
        have below := (next after is_next).1
        exact ⟨lt_succ_of_lt below, by
          simp only [Fs.reopened, mem_singleton]
          exact Nat.ne_of_lt below⟩
      · rw [listed, mem_singleton]
        exact ne
  · intro o is_file
    cases is_file
    exact mem_singleton.mpr rfl
  · intro o mem
    obtain rfl := mem_singleton.mp mem
    exact ⟨_, new_held, .inl rfl⟩
  · intro fst first_in snd snd_in _ _ _ _ _
    rw [mem_singleton.mp first_in, mem_singleton.mp snd_in]
  · intro file named
    have stored := sound.stored file named
    exact ⟨keeps.owned stored.owned id,
      keeps.head_of_blocks (fun _ _ _ => id) (fun _ _ => rfl) stored.head, stored.covered⟩
  · intro file alien
    have not_held : (fs.reopened r).holds file fs.heapTop = false := by
      simp only [holds, new_held, beq_eq_false_iff_ne]
      exact fun same => alien same.symm
    simp [opens, findOpen, show (fs.reopened r).openInodes = [fs.heapTop] from rfl, not_held]

end

/-! ## The whole -/

theorem fillLoop_nothing (data : InodeDisk) (room : Nat) :
    fillLoop room fs data 0 = some (fs, data, 0, true) := by
  cases room <;> simp [fillLoop]

/-- The loop of `inode_fill` on a device of which no sector is free. -/
theorem fillLoop_of_full {data : InodeDisk} {left room : Nat} (pos : 0 < left)
    (full : fs.freeMap.scan 0 1 false = none) :
    fillLoop (room + 1) fs data left = some (fs, data, left, false) := by
  simp [fillLoop, ne_of_gt pos, freeMapAllocate, full]

/-- A device without room for the two first inodes cannot be formatted. -/
theorem two_le_of_filesysInit (inits : filesysInit size disk garbage = some fs) : 2 ≤ size := by
  have empty_device : (freeMapInit 0 disk garbage).freeMapCreate = none := by
    have fills : ((freeMapInit 0 disk garbage).prepared freeMapSector 0).inodeFill 0 0 0 = none := by
      have held : ((freeMapInit 0 disk garbage).prepared freeMapSector 0).inodes 0 =
          some ((freeMapInit 0 disk garbage).firstInode freeMapSector 0) := rfl
      simp only [inodeFill, held, bind_eq_bind, bind_some, fillLoop_nothing, if_pos, blockWrite]
      rfl
    have size_zero : (freeMapInit 0 disk garbage).freeMap.fileSize = 0 := by
      simp [freeMapInit, Bitmap.fileSize, divRoundUp]
    have heap_zero : (freeMapInit 0 disk garbage).heapTop = 0 := rfl
    simp [freeMapCreate, size_zero, heap_zero, inodeCreate_eq, inodeExtendLink, extendLink, fills]
  have full_device : (freeMapInit 1 disk garbage).freeMapCreate = none := by
    have fills : ((freeMapInit 1 disk garbage).prepared freeMapSector 4).inodeFill 0 4 4 =
        some ((freeMapInit 1 disk garbage).prepared freeMapSector 4, 4, false) := by
      have held : ((freeMapInit 1 disk garbage).prepared freeMapSector 4).inodes 0 =
          some ((freeMapInit 1 disk garbage).firstInode freeMapSector 4) := rfl
      have sectors : nodeCapacity - ((freeMapInit 1 disk garbage).firstInode freeMapSector
          4).data.sectors = 243 + 1 := by
        simp [InodeDisk.sectors, divRoundUp, firstInode, blankInode, nodeCapacity, blockSectorSize]
      have full : ((freeMapInit 1 disk garbage).prepared freeMapSector 4).freeMap.scan 0 1 false =
          none := rfl
      simp only [inodeFill, held, bind_eq_bind, bind_some, sectors,
        fillLoop_of_full (show 0 < 4 by decide) full]
      simp [prepared, setInode, freeMapInit]
    have size_four : (freeMapInit 1 disk garbage).freeMap.fileSize = 4 := by
      simp [freeMapInit, Bitmap.fileSize, divRoundUp]
    have heap_zero : (freeMapInit 1 disk garbage).heapTop = 0 := rfl
    simp [freeMapCreate, size_four, heap_zero, inodeCreate_eq, inodeExtendLink, extendLink, fills]
  by_contra few
  obtain rfl | rfl : size = 0 ∨ size = 1 := by omega
  · simp [filesysInit, doFormat, empty_device] at inits
  · simp [filesysInit, doFormat, full_device] at inits

theorem filesysInit_some (small : size ≤ 2 ^ 14) (inits : filesysInit size disk garbage = some fs) :
    ∃ owner, RootMade fs owner size := by
  have two := two_le_of_filesysInit inits
  rcases @freeMapCreate_spec size disk garbage two small with ⟨fst, owner, makes, made⟩ | fails
  · rcases dirCreateRoot_spec made with ⟨snd, owner', roots, root⟩ | ⟨⟨snd, fails⟩, _⟩
    · obtain ⟨map, node, map_open⟩ := root.map
      simp only [filesysInit, doFormat, makes, roots, bind_eq_bind, bind_some, if_pos,
        freeMapClose_spec root map_open, freeMapOpen_spec root map_open] at inits
      cases inits
      exact ⟨owner', (root.reopened map_open).1⟩
    · simp [filesysInit, doFormat, makes, fails] at inits
  · simp [filesysInit, doFormat, fails.1] at inits

theorem filesysInit_isSome (enough : 16 ≤ size) (small : size ≤ 2 ^ 14) :
    ∃ fs, filesysInit size disk garbage = some fs := by
  rcases @freeMapCreate_spec size disk garbage (by omega) small with
    ⟨fst, owner, makes, made⟩ | fails
  · rcases dirCreateRoot_spec made with ⟨snd, owner', roots, root⟩ | ⟨_, few⟩
    · obtain ⟨map, node, map_open⟩ := root.map
      exact ⟨snd.reopened map, by simp [filesysInit, doFormat, makes, roots,
        freeMapClose_spec root map_open, freeMapOpen_spec root map_open]⟩
    · have card := made.card
      have bits := made.sound.ready.bitCnt
      rw [made.device] at bits
      simp only [Bitmap.fileSize, divRoundUp, bits] at card
      omega
  · omega

end Fs

end Pintos.Filesys
