import Pintos.Filesys.Layout

/-!
# Which file a sector belongs to

A ghost map gives every allocated sector to one file, as an inode or as a data block.  The sectors of
a file are all its own, so that what is done to one file leaves the others alone.
-/

namespace Pintos.Filesys

open Function

/-- What a sector is used for. -/
inductive Role
  | inode
  | block
  deriving DecidableEq

/-- The file, named by the sector of its first inode, that a sector was given to, and what for. -/
structure Tag where
  file : Nat
  role : Role
  deriving DecidableEq

/-- The ghost map. -/
abbrev Owner := Nat → Tag

namespace Fs

/-- The device has the sector and the free map marks it. -/
def Allocated (fs : Fs) (sector : Nat) : Prop :=
  sector < fs.size ∧ fs.freeMap.bits sector = true

/-- The sector is allocated and has this tag. -/
def Owned (fs : Fs) (owner : Owner) (tag : Tag) (sector : Nat) : Prop :=
  fs.Allocated sector ∧ owner sector = tag

/-- The data blocks of an inode of a file. -/
structure Blocks (fs : Fs) (owner : Owner) (file : Nat) (data : InodeDisk) : Prop where
  bounded : data.nodeLength ≤ 124928
  inPlace : ∀ i < data.sectors, ptrExists (data.blockptrs i) = true
  owned : ∀ i < data.sectors, fs.Owned owner ⟨file, .block⟩ (data.block i)

/-- An inode linked after the first inode of a file. -/
structure Link (fs : Fs) (owner : Owner) (file sector : Nat) : Prop where
  owned : fs.Owned owner ⟨file, .inode⟩ sector
  later : sector ≠ file
  prev : (fs.inodeAt sector).prevLength = 0
  blocks : fs.Blocks owner file (fs.inodeAt sector)

/-- The inodes linked from a pointer on, in order. -/
inductive Chain (fs : Fs) (owner : Owner) (file : Nat) : InodePtr → List Nat → Prop
  | nil {ptr : InodePtr} (ends : ptrExists ptr = false) : Chain fs owner file ptr []
  | cons {ptr : InodePtr} {rest : List Nat} (goes : ptrExists ptr = true)
      (link : fs.Link owner file (ptrGetAddress ptr))
      (next : Chain fs owner file (fs.inodeAt (ptrGetAddress ptr)).doubleptr rest) :
      Chain fs owner file ptr (ptrGetAddress ptr :: rest)

/-- Data blocks that are distinct and hold zeros past the end of the file. -/
structure Laid (fs : Fs) (owner : Owner) (file : Nat) (data : InodeDisk) : Prop where
  blocks : fs.Blocks owner file data
  distinct : ∀ first < data.sectors, ∀ second < data.sectors,
    data.block first = data.block second → first = second
  clear : ∀ i < data.sectors, ∀ position < 512, data.fileLength ≤ 512 * i + position →
    fs.disk (data.block i) position = 0

/-- The first inode of a file. -/
structure Head (fs : Fs) (owner : Owner) (file : Nat) (data : InodeDisk) : Prop
    extends Laid fs owner file data where
  fits : data.Fits
  prev : data.prevLength = 0
  chain : ∃ linked, Chain fs owner file data.doubleptr linked

end Fs

/-- The blocks reach to the end of the file, or to the end of the inode. -/
def InodeDisk.Covered (data : InodeDisk) : Prop :=
  data.fileLength ≤ data.nodeLength ∨ 124416 < data.nodeLength

theorem InodeDisk.Covered.min_le {data : InodeDisk} (covered : data.Covered)
    (bounded : data.nodeLength ≤ 124928) : min data.fileLength 124928 ≤ 512 * data.sectors := by
  have len := data.nodeLength_le
  unfold InodeDisk.Covered at covered
  have full : 124416 < data.nodeLength → data.sectors = 244 := by
    intro long
    simp only [InodeDisk.sectors, divRoundUp, blockSectorSize]
    omega
  rcases covered with short | long
  · omega
  · have := full long
    omega

namespace Fs

variable {fs s' : Fs} {own owner' : Owner} {file : Nat} {data : InodeDisk}

theorem Head.readable (head : fs.Head own file data) (covered : data.Covered) :
    fs.Readable data where
  prev := head.prev
  covered := covered.min_le head.blocks.bounded
  inPlace := head.blocks.inPlace
  onDevice i below := (head.blocks.owned i below).1.1

theorem Chain.headless {ptr : InodePtr} {linked : List Nat} (chain : fs.Chain own file ptr linked)
    (goes : ptrExists ptr = true) : fs.Headless (ptrGetAddress ptr) := by
  induction chain with
  | nil ends =>
    rw [ends] at goes
    cases goes
  | cons _ link _ ih => exact .node link.prev ih

theorem Chain.link {ptr : InodePtr} {linked : List Nat} (chain : fs.Chain own file ptr linked)
    {sec : Nat} (mem : sec ∈ linked) : fs.Link own file sec := by
  induction chain with
  | nil _ => cases mem
  | cons _ link _ ih =>
    rcases List.mem_cons.mp mem with rfl | later
    · exact link
    · exact ih later

/-! ## What operations leave alone -/

/-- What was allocated changes at most in the sectors touched and in the data of the free map file,
if that is open, and of what was allocated only first inodes are lost. -/
structure Keeps (fs : Fs) (own : Owner) (s' : Fs) (owner' : Owner)
    (lost touched : Nat → Prop) : Prop where
  owned : ∀ {tag sector}, fs.Owned own tag sector → ¬ lost sector → s'.Owned owner' tag sector
  heads : ∀ sector, lost sector → own sector = ⟨sector, .inode⟩
  disk : ∀ sector, fs.Allocated sector → ¬ touched sector →
    own sector ≠ ⟨freeMapSector, .block⟩ ∨ fs.freeMapFile = none →
      s'.disk sector = fs.disk sector

section Keeps

variable {lost touched : Nat → Prop} (keeps : Keeps fs own s' owner' lost touched)

include keeps

theorem Keeps.blocks (blocks : fs.Blocks own file data) : s'.Blocks owner' file data where
  __ := blocks
  owned i below := by
    have owned := blocks.owned i below
    refine keeps.owned owned ?_
    intro is_lost
    cases owned.2.symm.trans (keeps.heads _ is_lost)

theorem Keeps.inodeAt {sec : Nat} (owned : fs.Owned own ⟨file, .inode⟩ sec)
    (clean : ¬ touched sec) : s'.inodeAt sec = fs.inodeAt sec := by
  unfold Fs.inodeAt
  rw [keeps.disk sec owned.1 clean (.inl (by simp [owned.2]))]

theorem Keeps.link {sec : Nat} (clean : ¬ touched sec)
    (link : fs.Link own file sec) : s'.Link owner' file sec := by
  have same := keeps.inodeAt link.owned clean
  refine ⟨keeps.owned link.owned ?_, link.later, ?_, ?_⟩
  · intro is_lost
    exact link.later (Tag.mk.inj (link.owned.2.symm.trans (keeps.heads _ is_lost))).1.symm
  · rw [same]
    exact link.prev
  · rw [same]
    exact keeps.blocks link.blocks

theorem Keeps.chain {ptr : InodePtr} {linked : List Nat} (chain : fs.Chain own file ptr linked)
    (clean : ∀ sec ∈ linked, ¬ touched sec) : s'.Chain owner' file ptr linked := by
  induction chain with
  | nil ends => exact .nil ends
  | @cons ptr rest goes link _ ih =>
    have fst : ¬ touched (ptrGetAddress ptr) := clean _ List.mem_cons_self
    refine .cons goes (keeps.link fst link) ?_
    rw [keeps.inodeAt link.owned fst]
    exact ih fun sec mem => clean sec (List.mem_cons_of_mem _ mem)

theorem Keeps.laid (same : ∀ i < data.sectors, s'.disk (data.block i) = fs.disk (data.block i))
    (laid : fs.Laid own file data) : s'.Laid owner' file data where
  blocks := keeps.blocks laid.blocks
  distinct := laid.distinct
  clear i below position small past := by
    rw [same i below]
    exact laid.clear i below position small past

theorem Keeps.head_of_blocks
    (clean : ∀ sec, fs.Owned own ⟨file, .inode⟩ sec → sec ≠ file → ¬ touched sec)
    (same : ∀ i < data.sectors, s'.disk (data.block i) = fs.disk (data.block i))
    (head : fs.Head own file data) : s'.Head owner' file data where
  __ := head
  toLaid := keeps.laid same head.toLaid
  chain := by
    obtain ⟨linked, chain⟩ := head.chain
    refine ⟨linked, keeps.chain chain ?_⟩
    intro sec mem
    exact clean sec (chain.link mem).owned (chain.link mem).later

theorem Keeps.laid_of_untouched (o : file ≠ freeMapSector ∨ fs.freeMapFile = none)
    (clean : ∀ sec, fs.Owned own ⟨file, .block⟩ sec → ¬ touched sec)
    (laid : fs.Laid own file data) : s'.Laid owner' file data := by
  refine keeps.laid ?_ laid
  intro i below
  have owned := laid.blocks.owned i below
  refine keeps.disk _ owned.1 (clean _ owned) (o.imp_left ?_)
  intro ne
  simp [owned.2, ne]

/-- A file none of whose sectors is touched, its first inode apart. -/
theorem Keeps.head (o : file ≠ freeMapSector ∨ fs.freeMapFile = none)
    (clean : ∀ sec role, fs.Owned own ⟨file, role⟩ sec → role = .block ∨ sec ≠ file → ¬ touched sec)
    (head : fs.Head own file data) : s'.Head owner' file data where
  __ := head
  toLaid := keeps.laid_of_untouched o
    (fun sec owned => clean sec .block owned (.inl rfl)) head.toLaid
  chain := by
    obtain ⟨linked, chain⟩ := head.chain
    refine ⟨linked, keeps.chain chain ?_⟩
    intro sec mem
    exact clean sec .inode (chain.link mem).owned (.inr (chain.link mem).later)

end Keeps

/-- Sectors are only added. -/
structure Grows (fs : Fs) (own : Owner) (s' : Fs) (owner' : Owner) (touched : Nat → Prop) :
    Prop where
  size : s'.size = fs.size
  mapFile : s'.freeMapFile = fs.freeMapFile
  allocated : ∀ sector, fs.Allocated sector → s'.Allocated sector
  tags : ∀ sector, fs.Allocated sector → owner' sector = own sector
  disk : ∀ sector, fs.Allocated sector → ¬ touched sector →
    own sector ≠ ⟨freeMapSector, .block⟩ ∨ fs.freeMapFile = none →
      s'.disk sector = fs.disk sector

variable {touched : Nat → Prop} {sector : Nat}

theorem Grows.owned {tag : Tag} (grows : Grows fs own s' owner' touched)
    (owned : fs.Owned own tag sector) : s'.Owned owner' tag sector :=
  ⟨grows.allocated sector owned.1, (grows.tags sector owned.1).trans owned.2⟩

theorem Grows.keeps (grows : Grows fs own s' owner' touched) :
    Keeps fs own s' owner' (fun _ => False) touched :=
  ⟨fun owned _ => grows.owned owned, fun _ => False.elim, grows.disk⟩

theorem Grows.refl (fs : Fs) (own : Owner) (hit : Nat → Prop) : Grows fs own fs own hit :=
  ⟨rfl, rfl, fun _ taken => taken, fun _ _ => rfl, fun _ _ _ _ => rfl⟩

/-- What the second step touches matters only where the first state had something. -/
theorem Grows.trans {mid : Fs} {owner'' : Owner} {touched' : Nat → Prop}
    (fst : Grows fs own mid owner' touched)
    (snd : Grows mid owner' s' owner'' touched')
    (within : ∀ sec, fs.Allocated sec → touched' sec → touched sec) :
    Grows fs own s' owner'' touched where
  size := snd.size.trans fst.size
  mapFile := snd.mapFile.trans fst.mapFile
  allocated sec allocated := snd.allocated sec (fst.allocated sec allocated)
  tags sec allocated := (snd.tags sec (fst.allocated sec allocated)).trans (fst.tags sec allocated)
  disk sec allocated untouched other := by
    have later : owner' sec ≠ ⟨freeMapSector, .block⟩ ∨ mid.freeMapFile = none := by
      rw [fst.tags sec allocated, fst.mapFile]
      exact other
    rw [snd.disk sec (fst.allocated sec allocated)
      (fun is_touched => untouched (within sec allocated is_touched)) later,
      fst.disk sec allocated untouched other]

theorem Grows.mono {wider : Nat → Prop} (grows : Grows fs own s' owner' touched)
    (within : ∀ sec, fs.Allocated sec → touched sec → wider sec) :
    Grows fs own s' owner' wider where
  __ := grows
  disk sec allocated untouched other := grows.disk sec allocated
      (fun is_touched => untouched (within sec allocated is_touched)) other

/-! ## The free map -/

/-- The inode of the free map file is fit to be written to. -/
structure FreeMapNode (fs : Fs) (own : Owner) (node : Inode) : Prop where
  sector : node.sector = freeMapSector
  writable : node.denyWriteCnt = 0
  head : fs.Head own freeMapSector node.data
  covered : node.data.Covered
  length : node.data.fileLength = fs.freeMap.fileSize

/-- The free map has a bit for every sector, pointers can name every sector, and the free map file,
if open, holds the free map. -/
structure Ready (fs : Fs) (own : Owner) : Prop where
  small : fs.size ≤ 2 ^ 14
  bitCnt : fs.freeMap.bitCnt = fs.size
  bounded : ∀ sector, fs.size ≤ sector → fs.freeMap.bits sector = false
  file : ∀ inode, fs.freeMapFile = some inode → ∃ node, fs.inodes inode = some node ∧
    fs.FreeMapNode own node ∧
    ∀ i < fs.freeMap.fileSize, fs.byte node.data i = Buffer.ofBits fs.freeMap.bits i

/-- The free sectors of the device. -/
def freeSectors (fs : Fs) : Finset Nat := fs.freeMap.freeSectors

theorem Ready.fileSize_le (ready : fs.Ready own) : fs.freeMap.fileSize ≤ 2048 := by
  have small := ready.small
  have bitCnt := ready.bitCnt
  simp only [Bitmap.fileSize, divRoundUp]
  omega

theorem Ready.mem_freeSectors (ready : fs.Ready own) :
    sector ∈ fs.freeSectors ↔ sector < fs.size ∧ ¬ fs.Allocated sector := by
  unfold freeSectors Allocated
  rw [Bitmap.mem_freeSectors, ready.bitCnt]
  cases fs.freeMap.bits sector <;> simp

theorem bitmapWrite_written {inode : Ref} {node : Inode} (held : fs.inodes inode = some node)
    (writable : node.denyWriteCnt = 0) (reads : fs.Readable node.data)
    (ne : ∀ fst < node.data.sectors, ∀ snd < node.data.sectors,
      node.data.block fst = node.data.block snd → fst = snd)
    (len : node.data.fileLength = fs.freeMap.fileSize) (fits : fs.freeMap.fileSize ≤ 2048) :
    ∃ s', fs.bitmapWrite inode = some (s', true) ∧
      Written fs node.data (Buffer.ofBits fs.freeMap.bits) 0 fs.freeMap.fileSize s' ∧
      ∀ i < fs.freeMap.fileSize, s'.byte node.data i = Buffer.ofBits fs.freeMap.bits i := by
  obtain ⟨s', wrote, put⟩ := @writeLoop_spec fs inode node 0 held reads ne
    fs.freeMap.fileSize (Buffer.ofBits fs.freeMap.bits) fs.freeMap.fileSize 0 0 (Nat.le_refl _) rfl
    (by omega) (by omega)
  rw [Nat.zero_add] at put
  refine ⟨s', ?_, put, ?_⟩
  · simp [bitmapWrite, writeAt, held, writable, len, wrote,
      show ¬ 2147483648 ≤ fs.freeMap.fileSize by omega]
  · intro i below
    have inside := reads.index_lt (show i < node.data.fileLength by omega) (by omega)
    unfold byte
    rw [put.inside _ inside _ (Nat.mod_lt _ (by omega)), if_pos (by omega), Nat.div_add_mod]
    rfl

/-- `bitmap_write` changes the data of the free map file only. -/
theorem bitmapWrite_spec {inode : Ref} {node : Inode} (held : fs.inodes inode = some node)
    (free_map : fs.FreeMapNode own node) (fits : fs.freeMap.fileSize ≤ 2048) :
    ∃ s', fs.bitmapWrite inode = some (s', true) ∧ s' = { fs with disk := s'.disk } ∧
      (∀ sec, ¬ fs.Owned own ⟨freeMapSector, .block⟩ sec →
        s'.disk sec = fs.disk sec) ∧ s'.FreeMapNode own node ∧
      ∀ i < fs.freeMap.fileSize, s'.byte node.data i = Buffer.ofBits fs.freeMap.bits i := by
  have len := free_map.length
  obtain ⟨s', wrote, put, synced⟩ := bitmapWrite_written held free_map.writable
    (free_map.head.readable free_map.covered) free_map.head.distinct len fits
  have out : ∀ sec, ¬ fs.Owned own ⟨freeMapSector, .block⟩ sec → s'.disk sec = fs.disk sec := by
    intro sec alien
    apply put.outside
    rintro i below rfl
    exact alien (free_map.head.blocks.owned i below)
  have state : s' = { fs with disk := s'.disk } := put.rest
  have grows : Grows fs own s' own fun sec =>
      fs.Owned own ⟨freeMapSector, .block⟩ sec := by
    refine ⟨by rw [state], by rw [state], ?_, fun _ _ => rfl, fun sec _ clean _ => out sec clean⟩
    intro sec taken
    rw [state]
    exact taken
  refine ⟨s', wrote, state, out, ⟨free_map.sector, free_map.writable, ?_, free_map.covered, ?_⟩,
    synced⟩
  · refine ⟨⟨grows.keeps.blocks free_map.head.blocks, free_map.head.distinct, ?_⟩,
      free_map.head.fits, free_map.head.prev, ?_⟩
    · intro i below pos small past
      rw [put.inside i below pos small, if_neg (by omega)]
      exact free_map.head.clear i below pos small past
    · obtain ⟨linked, chain⟩ := free_map.head.chain
      refine ⟨linked, grows.keeps.chain chain ?_⟩
      rintro sec mem ⟨_, tag⟩
      rw [(chain.link mem).owned.2] at tag
      cases tag
  · rw [state]
    exact len

/-- A free sector has been taken and tagged. -/
structure Took (fs : Fs) (own : Owner) (tag : Tag) (sector : Nat) (s' : Fs) : Prop where
  free : sector ∈ fs.freeSectors
  state : s' =
    { fs with freeMap := fs.freeMap.setMultiple sector 1 true, disk := s'.disk }
  outside : ∀ other, ¬ fs.Owned own ⟨freeMapSector, .block⟩ other →
    s'.disk other = fs.disk other
  unwritten : fs.freeMapFile = none → s'.disk = fs.disk
  ready : s'.Ready (update own sector tag)

theorem allocated_mark {o : Nat} (below : sector < fs.size) :
    { fs with freeMap := fs.freeMap.setMultiple sector 1 true }.Allocated o ↔
      fs.Allocated o ∨ o = sector := by
  unfold Allocated
  simp only [Bitmap.bits_setMultiple_one]
  by_cases same : o = sector
  · simp [same, below]
  · simp [same]

section Took

variable {tag : Tag} {sector : Nat} (took : Took fs own tag sector s')
include took

theorem Took.allocated_iff (ready : fs.Ready own) {o : Nat} :
    s'.Allocated o ↔ fs.Allocated o ∨ o = sector := by
  have below := (ready.mem_freeSectors.mp took.free).1
  rw [took.state]
  exact allocated_mark below

theorem Took.new (ready : fs.Ready own) : ¬ fs.Allocated sector :=
  (ready.mem_freeSectors.mp took.free).2

theorem Took.owned (ready : fs.Ready own) : s'.Owned (update own sector tag) tag sector :=
  ⟨(took.allocated_iff ready).mpr (.inr rfl), update_self _ _ _⟩

theorem Took.grows (ready : fs.Ready own) :
    Grows fs own s' (update own sector tag) fun _ => False where
  size := by rw [took.state]
  mapFile := by rw [took.state]
  allocated other allocated := (took.allocated_iff ready).mpr (.inl allocated)
  tags other allocated := by
    refine update_of_ne ?_ _ _
    rintro rfl
    exact took.new ready allocated
  disk other allocated _ alien := by
    rcases alien with ne | closed
    · exact took.outside other fun owned => ne owned.2
    · rw [took.unwritten closed]

theorem Took.freeSectors : s'.freeSectors = fs.freeSectors.erase sector := by
  rw [took.state]
  exact fs.freeMap.freeSectors_setMultiple_true sector

theorem Took.card : s'.freeSectors.card + 1 = fs.freeSectors.card := by
  rw [took.freeSectors]
  exact Finset.card_erase_add_one took.free

end Took

variable {sector : Nat}

/-- `free_map_allocate` takes a free sector, unless there is none. -/
theorem freeMapAllocate_spec (ready : fs.Ready own) (tag : Tag)
    (alien : tag ≠ ⟨freeMapSector, .block⟩ ∨ fs.freeMapFile = none) :
    (fs.freeSectors = ∅ ∧ fs.freeMapAllocate 1 = some (fs, none)) ∨
      ∃ sec s', fs.freeMapAllocate 1 = some (s', some sec) ∧ Took fs own tag sec s' := by
  rcases fs.freeMap.scan_free 1 with ⟨missing, full⟩ | ⟨sec, found, free, _⟩
  · refine .inl ⟨Finset.eq_empty_of_forall_notMem fun sec free => ?_, by
      simp [freeMapAllocate, missing]⟩
    exact full sec (fs.freeMap.freeRun_one.mpr free)
  replace free : sec ∈ fs.freeSectors := fs.freeMap.freeRun_one.mp free
  refine .inr ⟨sec, ?_⟩
  obtain ⟨below, unallocated⟩ := ready.mem_freeSectors.mp free
  let flipped : Fs := { fs with freeMap := fs.freeMap.setMultiple sec 1 true }
  have bounded : ∀ o, fs.size ≤ o → flipped.freeMap.bits o = false := by
    intro o past
    change (fs.freeMap.setMultiple sec 1 true).bits o = false
    rw [Bitmap.bits_setMultiple_one, if_neg (by omega)]
    exact ready.bounded o past
  have grows : Grows fs own flipped (update own sec tag) fun _ => False := by
    refine ⟨rfl, rfl, fun o taken => (allocated_mark below).mpr (.inl taken), ?_,
      fun _ _ _ _ => rfl⟩
    intro o taken
    refine update_of_ne ?_ _ _
    rintro rfl
    exact unallocated taken
  cases file : fs.freeMapFile with
  | none =>
    refine ⟨flipped, by simp [freeMapAllocate, found, file, flipped], free, rfl, fun _ _ => rfl,
      fun _ => rfl, ready.small, ready.bitCnt, bounded, ?_⟩
    intro inode is_file
    rw [show flipped.freeMapFile = none from file] at is_file
    cases is_file
  | some inode =>
    obtain ⟨node, held, free_map, _⟩ := ready.file inode file
    have marked : flipped.FreeMapNode (update own sec tag) node :=
      ⟨free_map.sector, free_map.writable,
        grows.keeps.head_of_blocks (fun _ _ _ => id) (fun _ _ => rfl) free_map.head, free_map.covered,
        free_map.length⟩
    obtain ⟨s', wrote, state, out, kept, synced⟩ :=
      bitmapWrite_spec (show flipped.inodes inode = some node from held) marked ready.fileSize_le
    refine ⟨s', ?_, free, state, ?_, ?_, ?_⟩
    · simp only [flipped, file] at wrote
      simp [freeMapAllocate, found, file, wrote]
    · intro o unowned
      apply out
      rintro ⟨taken, owned⟩
      rcases (allocated_mark below).mp taken with old | rfl
      · exact unowned ⟨old, (grows.tags o old).symm.trans owned⟩
      · rw [update_self] at owned
        rcases alien with ne | closed
        · exact ne owned
        · rw [file] at closed
          cases closed
    · intro closed
      rw [file] at closed
      cases closed
    · rw [state]
      refine ⟨ready.small, ready.bitCnt, bounded, ?_⟩
      intro o is_file
      obtain rfl : inode = o := Option.some.inj (file.symm.trans is_file)
      rw [state] at kept synced
      exact ⟨node, held, kept, synced⟩

/-- The sector of a first inode has been given back. -/
structure Released (fs : Fs) (own : Owner) (sector : Nat) (s' : Fs) : Prop where
  mapOpen : fs.freeMapFile ≠ none
  state : s' =
    { fs with freeMap := fs.freeMap.setMultiple sector 1 false, disk := s'.disk }
  outside : ∀ other, ¬ fs.Owned own ⟨freeMapSector, .block⟩ other →
    s'.disk other = fs.disk other
  ready : s'.Ready own

theorem allocated_unmark {o : Nat} :
    { fs with freeMap := fs.freeMap.setMultiple sector 1 false }.Allocated o ↔
      fs.Allocated o ∧ o ≠ sector := by
  unfold Allocated
  simp only [Bitmap.bits_setMultiple_one]
  by_cases same : o = sector
  · simp [same]
  · simp [same]

theorem Released.allocated_iff {o : Nat} (freed : Released fs own sector s') :
    s'.Allocated o ↔ fs.Allocated o ∧ o ≠ sector := by
  rw [freed.state]
  exact allocated_unmark

theorem Released.keeps (freed : Released fs own sector s') (tag : own sector = ⟨sector, .inode⟩) :
    Keeps fs own s' own (fun o => o = sector) fun _ => False where
  owned owned remains := ⟨freed.allocated_iff.mpr ⟨owned.1, remains⟩, owned.2⟩
  heads o is_lost := is_lost ▸ tag
  disk o allocated _ alien := by
    refine freed.outside o ?_
    intro owned
    rcases alien with ne | closed
    · exact ne owned.2
    · exact freed.mapOpen closed

theorem freeMapRelease_spec {inode : Ref} (ready : fs.Ready own)
    (opened : fs.freeMapFile = some inode) (owned : fs.Owned own ⟨sector, .inode⟩ sector) :
    ∃ s', fs.freeMapRelease sector 1 = some s' ∧ Released fs own sector s' := by
  let flipped : Fs := { fs with freeMap := fs.freeMap.setMultiple sector 1 false }
  have marked : fs.freeMap.all sector 1 = true := by
    simp [Bitmap.all, Bitmap.contains, owned.1.2]
  have keeps : Keeps fs own flipped own (fun o => o = sector) fun _ => False := by
    refine ⟨?_, ?_, fun _ _ _ _ => rfl⟩
    · intro tag o is_owned remains
      exact ⟨allocated_unmark.mpr ⟨is_owned.1, remains⟩, is_owned.2⟩
    · rintro o rfl
      exact owned.2
  have bounded : ∀ o, fs.size ≤ o → flipped.freeMap.bits o = false := by
    intro o past
    change (fs.freeMap.setMultiple sector 1 false).bits o = false
    rw [Bitmap.bits_setMultiple_one, ready.bounded o past, ite_self]
  obtain ⟨node, held, free_map, _⟩ := ready.file inode opened
  have still : flipped.FreeMapNode own node := ⟨free_map.sector, free_map.writable,
      keeps.head_of_blocks (fun _ _ _ => id) (fun _ _ => rfl) free_map.head, free_map.covered,
      free_map.length⟩
  obtain ⟨s', wrote, state, out, kept, synced⟩ :=
    bitmapWrite_spec (show flipped.inodes inode = some node from held) still ready.fileSize_le
  refine ⟨s', ?_, by simp [opened], state, ?_, ?_⟩
  · simp only [flipped, opened] at wrote
    simp [freeMapRelease, marked, opened, wrote]
  · intro o unowned
    refine out o ?_
    rintro ⟨taken, is_owned⟩
    exact unowned ⟨(allocated_unmark.mp taken).1, is_owned⟩
  · rw [state]
    refine ⟨ready.small, ready.bitCnt, bounded, ?_⟩
    intro o is_file
    obtain rfl : inode = o := Option.some.inj (opened.symm.trans is_file)
    rw [state] at kept synced
    exact ⟨node, held, kept, synced⟩

theorem Ready.frame (ready : fs.Ready own) (size : s'.size = fs.size)
    (freeMap : s'.freeMap = fs.freeMap) (file : s'.freeMapFile = fs.freeMapFile)
    (tags : ∀ sec, fs.Allocated sec → owner' sec = own sec)
    (inodes : ∀ inode, fs.freeMapFile = some inode → s'.inodes inode = fs.inodes inode)
    (disk : ∀ inode, fs.freeMapFile = some inode → ∀ role sec,
      fs.Owned own ⟨freeMapSector, role⟩ sec → role = .block ∨ sec ≠ freeMapSector →
        s'.disk sec = fs.disk sec) : s'.Ready owner' := by
  refine ⟨by rw [size]; exact ready.small, by rw [freeMap, size]; exact ready.bitCnt,
    by rw [freeMap, size]; exact ready.bounded, ?_⟩
  intro inode is_file
  rw [file] at is_file
  obtain ⟨node, held, free_map, synced⟩ := ready.file inode is_file
  have taken : ∀ sec, fs.Allocated sec → s'.Allocated sec := by
    intro sec taken
    unfold Allocated
    rw [size, freeMap]
    exact taken
  have blocks : ∀ i < node.data.sectors,
      s'.disk (node.data.block i) = fs.disk (node.data.block i) := by
    intro i below
    exact disk inode is_file .block _ (free_map.head.blocks.owned i below) (.inl rfl)
  have grows : Grows fs own s' owner' fun sec =>
      ¬ (fs.Owned own ⟨freeMapSector, .inode⟩ sec ∧ sec ≠ freeMapSector) := by
    refine ⟨size, file, taken, tags, ?_⟩
    intro sec _ clean _
    obtain ⟨owned, link⟩ := not_not.mp clean
    exact disk inode is_file .inode sec owned (.inr link)
  refine ⟨node, (inodes inode is_file).trans held, ⟨free_map.sector, free_map.writable, ?_,
    free_map.covered, ?_⟩, ?_⟩
  · refine grows.keeps.head_of_blocks ?_ blocks free_map.head
    intro sec owned link hit
    exact hit ⟨owned, link⟩
  · rw [freeMap]
    exact free_map.length
  · intro i below
    rw [freeMap] at below ⊢
    have len := free_map.length
    have fits := ready.fileSize_le
    have inside := (free_map.head.readable free_map.covered).index_lt
      (show i < node.data.fileLength by omega) (by omega)
    unfold byte
    rw [blocks _ inside]
    exact synced i below

/-! ## Changing one inode -/

/-- Two states that differ only in memory and in one sector. -/
structure Changed (fs s' : Fs) (sector : Nat) : Prop where
  state : s' =
    { fs with disk := s'.disk, inodes := s'.inodes, heapTop := s'.heapTop,
              openInodes := s'.openInodes }
  disk : ∀ other, other ≠ sector → s'.disk other = fs.disk other

theorem Changed.grows (new : Changed fs s' sector) (own : Owner) :
    Grows fs own s' own fun o => o = sector where
  size := by rw [new.state]
  mapFile := by rw [new.state]
  allocated o allocated := by
    rw [new.state]
    exact allocated
  tags _ _ := rfl
  disk o _ ne _ := new.disk o ne

theorem Changed.ready (new : Changed fs s' sector) (ready : fs.Ready own)
    (alien : file ≠ freeMapSector ∨ fs.freeMapFile = none)
    (owned : fs.Owned own ⟨file, .inode⟩ sector)
    (inodes : ∀ inode, fs.freeMapFile = some inode → s'.inodes inode = fs.inodes inode) :
    s'.Ready own := by
  refine ready.frame (by rw [new.state]) (by rw [new.state]) (by rw [new.state])
    (fun _ _ => rfl) inodes ?_
  intro inode is_file role o is_owned _
  refine new.disk o ?_
  rintro rfl
  have tag := owned.2.symm.trans is_owned.2
  rcases alien with ne | closed
  · exact ne (Tag.mk.inj tag).1
  · rw [is_file] at closed
    cases closed

end Fs

end Pintos.Filesys
