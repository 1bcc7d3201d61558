import Pintos.Lib.FlatFile
import Pintos.Filesys.Extension

/-!
# Files and open inodes

The invariant of the inode layer: every file has its own sectors and is laid out on the device, an
open inode agrees with what the device holds, and what else is in memory does no harm.  A file is
then a flat file, read off the device.
-/

namespace Pintos.Filesys

open Function Option

/-- The inode on the device and the inode in memory of one file; a failed growth leaves blocks that
only the one in memory has. -/
structure InodeDisk.Agrees (stored held : InodeDisk) : Prop where
  fileLength : stored.fileLength = held.fileLength
  self : stored.self = held.self
  sectors : stored.sectors ≤ held.sectors
  blockptrs : ∀ i < stored.sectors, stored.blockptrs i = held.blockptrs i

namespace Fs

variable {fs s' : Fs} {own owner' : Owner} {file other : Nat} {r : Ref} {node : Inode}
  {data : InodeDisk} {touched : Nat → Prop} {files : Set Nat}

/-- A file as the device has it. -/
structure Stored (fs : Fs) (own : Owner) (file : Nat) : Prop where
  owned : fs.Owned own ⟨file, .inode⟩ file
  head : fs.Head own file (fs.inodeAt file)
  covered : (fs.inodeAt file).Covered

/-- The inode of a file in `open_inodes`. -/
structure Opened (fs : Fs) (own : Owner) (node : Inode) : Prop where
  counted : 1 ≤ node.openCnt
  writable : node.denyWriteCnt = 0
  head : fs.Head own node.sector node.data
  covered : node.data.Covered
  agrees : (fs.inodeAt node.sector).Agrees node.data

/-- Any inode in memory. -/
structure InMemory (fs : Fs) (own : Owner) (r : Ref) (node : Inode) : Prop where
  prev : node.data.prevLength = 0
  chain : ∃ file linked, fs.Chain own file node.data.doubleptr linked
  next : ∀ linked, node.next = some linked → linked < fs.heapTop ∧ linked ∉ fs.openInodes
  closed : r ∉ fs.openInodes → node.openCnt ≤ 0

/-- The invariant of the inode layer, for the files other than the free map. -/
structure Sound (fs : Fs) (own : Owner) (files : Set Nat) : Prop where
  ready : fs.Ready own
  fresh : ∀ r, fs.heapTop ≤ r → fs.inodes r = none
  memory : ∀ r node, fs.inodes r = some node → fs.InMemory own r node
  mapInode : fs.Owned own ⟨freeMapSector, .inode⟩ freeMapSector
  mapOpen : ∀ r, fs.freeMapFile = some r → r ∈ fs.openInodes
  mapApart : freeMapSector ∉ files
  nodup : fs.openInodes.Nodup
  listed : ∀ r ∈ fs.openInodes, ∃ node, fs.inodes r = some node ∧
    (fs.freeMapFile = some r ∨ node.sector ∈ files ∧ fs.Opened own node)
  apart : ∀ first ∈ fs.openInodes, ∀ second ∈ fs.openInodes, ∀ node node',
    fs.inodes first = some node → fs.inodes second = some node' → node.sector = node'.sector →
      first = second
  stored : ∀ file ∈ files, fs.Stored own file

/-! ## What a change to one file leaves alone -/

/-- The sectors that an operation on a file may change. -/
def Belongs (own : Owner) (file sector : Nat) : Prop :=
  own sector = ⟨file, .block⟩ ∨ sector = file

theorem Keeps.stored {lost : Nat → Prop} (keeps : Keeps fs own s' owner' lost touched)
    (clean : ∀ sec role, own sec = ⟨file, role⟩ → ¬ touched sec) (alien : file ≠ freeMapSector)
    (remains : ¬ lost file) (stored : fs.Stored own file) : s'.Stored owner' file := by
  have same := keeps.inodeAt stored.owned (clean _ _ stored.owned.2)
  refine ⟨keeps.owned stored.owned remains, ?_, ?_⟩
  · rw [same]
    exact keeps.head (.inl alien) (fun sec role owned _ => clean sec role owned.2) stored.head
  · rw [same]
    exact stored.covered

section Frame

variable {lost : Nat → Prop} (keeps : Keeps fs own s' owner' lost touched)
  (belongs : ∀ sector, touched sector → Belongs own file sector)
  (tag : own file = ⟨file, .inode⟩)

include belongs tag

theorem not_touched_of_tag {role : Role} {sec : Nat} (ne : other ≠ file)
    (tagged : own sec = ⟨other, role⟩) : ¬ touched sec := by
  intro is_touched
  rcases belongs sec is_touched with block | rfl
  · exact ne (Tag.mk.inj (tagged.symm.trans block)).1
  · exact ne (Tag.mk.inj (tagged.symm.trans tag)).1

include keeps

theorem Keeps.chain_of_belongs {ptr : InodePtr} {linked : List Nat}
    (chain : fs.Chain own other ptr linked) : s'.Chain owner' other ptr linked := by
  refine keeps.chain chain ?_
  intro sec mem hit
  have link := chain.link mem
  rcases belongs sec hit with block | rfl
  · cases link.owned.2.symm.trans block
  · exact link.later (Tag.mk.inj (link.owned.2.symm.trans tag)).1.symm

theorem Keeps.inodeAt_of_belongs (ne : other ≠ file) (stored : fs.Stored own other) :
    s'.inodeAt other = fs.inodeAt other :=
  keeps.inodeAt stored.owned (not_touched_of_tag belongs tag ne stored.owned.2)

theorem Keeps.inMemory_of_belongs (opened : s'.openInodes = fs.openInodes)
    (heap : fs.heapTop ≤ s'.heapTop) (memory : fs.InMemory own r node) :
    s'.InMemory owner' r node where
  prev := memory.prev
  chain := by
    obtain ⟨head, link, chain⟩ := memory.chain
    exact ⟨head, link, keeps.chain_of_belongs belongs tag chain⟩
  next link is_next := by
    rw [opened]
    exact (memory.next link is_next).imp_left fun below => Nat.lt_of_lt_of_le below heap
  closed := by
    rw [opened]
    exact memory.closed

end Frame

variable {files' : Set Nat}

/-! ## Contents -/

/-- The flat file that an inode stands for; the bytes past the first inode cannot be read. -/
def contentOf (fs : Fs) (data : InodeDisk) : FlatFile where
  length := data.fileLength
  bytes position :=
    if position < data.fileLength ∧ position < 124928 then fs.byte data position else 0
  clear position past := by
    rw [if_neg]
    omega

def content (fs : Fs) (file : Nat) : FlatFile := fs.contentOf (fs.inodeAt file)

theorem contentOf_congr {data' : InodeDisk} (fileLength : data'.fileLength = data.fileLength)
    (bytes : ∀ pos, pos < data.fileLength → pos < 124928 → s'.byte data' pos = fs.byte data pos) :
    s'.contentOf data' = fs.contentOf data := by
  apply FlatFile.ext
  · exact fileLength
  · funext pos
    simp only [contentOf, fileLength]
    split
    · next inside => exact bytes pos inside.1 inside.2
    · rfl

theorem InodeDisk.Covered.div_lt (covered : data.Covered) (bounded : data.nodeLength ≤ 124928)
    {pos : Nat} (below : pos < data.fileLength) (inside : pos < 124928) :
    pos / 512 < data.sectors := by
  have reach := covered.min_le bounded
  omega

/-- The blocks of a file that is not touched keep its content. -/
theorem Keeps.content_of_belongs {lost : Nat → Prop} (keeps : Keeps fs own s' owner' lost touched)
    (belongs : ∀ sec, touched sec → Belongs own file sec)
    (tag : own file = ⟨file, .inode⟩) (ne : other ≠ file)
    (open_map : other ≠ freeMapSector ∨ fs.freeMapFile = none)
    (stored : fs.Stored own other) : s'.content other = fs.content other := by
  unfold content
  rw [keeps.inodeAt_of_belongs belongs tag ne stored]
  refine contentOf_congr rfl ?_
  intro pos below inside
  have i := InodeDisk.Covered.div_lt stored.covered stored.head.blocks.bounded below inside
  have owned := stored.head.blocks.owned _ i
  unfold byte
  rw [keeps.disk _ owned.1 (not_touched_of_tag belongs tag ne owned.2)
    (open_map.imp_left fun apart => by simp [owned.2, apart])]

theorem Opened.content_eq (opened : fs.Opened own node) (sector : node.sector = file)
    (stored : fs.Stored own file) : fs.content file = fs.contentOf node.data := by
  subst sector
  refine contentOf_congr opened.agrees.fileLength ?_
  intro pos below inside
  rw [← opened.agrees.fileLength] at below
  have i := InodeDisk.Covered.div_lt stored.covered stored.head.blocks.bounded below inside
  unfold byte InodeDisk.block
  rw [opened.agrees.blockptrs _ i]

/-! ## The table of open inodes -/

/-- What is known of the open inode of a file. -/
@[ext]
structure OpenView where
  ref : Ref
  count : Int
  removed : Bool
  isDir : Bool
  next : Option Ref

/-- What is known of an inode in memory. -/
def viewOf (r : Ref) (node : Inode) : OpenView :=
  ⟨r, node.openCnt, node.removed, node.isDir, node.next⟩

/-- The open inode of a file. -/
def opens (fs : Fs) (file : Nat) : Option OpenView :=
  (fs.findOpen file).bind fun r => (fs.inodes r).map (viewOf r)

/-- An inode is in memory and in `open_inodes`. -/
def OpenNode (fs : Fs) (r : Ref) (node : Inode) : Prop :=
  r ∈ fs.openInodes ∧ fs.inodes r = some node

section

variable (sound : fs.Sound own files)
include sound

theorem Sound.findOpen_eq (listed : fs.OpenNode r node) : fs.findOpen node.sector = some r := by
  cases found : fs.findOpen node.sector with
  | none =>
    have missing := List.find?_eq_none.mp found r listed.1
    simp [holds, listed.2] at missing
  | some fst =>
    obtain ⟨mem, first_node, held, same⟩ := held_of_findOpen found
    rw [sound.apart fst mem r listed.1 first_node node held listed.2 same]

theorem Sound.opens_eq_some {view : OpenView} : fs.opens file = some view ↔
      ∃ node, fs.OpenNode view.ref node ∧ node.sector = file ∧ viewOf view.ref node = view := by
  constructor
  · intro opened
    obtain ⟨r, found, held⟩ := bind_eq_some_iff.mp opened
    obtain ⟨node, here, rfl⟩ := map_eq_some_iff.mp held
    obtain ⟨mem, fst, fst_held, same⟩ := held_of_findOpen found
    obtain rfl := some.inj (here.symm.trans fst_held)
    exact ⟨node, ⟨mem, here⟩, same, rfl⟩
  · rintro ⟨node, listed, rfl, same⟩
    unfold opens
    rw [sound.findOpen_eq listed, bind_some, listed.2, map_some, same]

theorem Sound.opens_update (sound' : s'.Sound owner' files') (others : ∀ o here, o ≠ r →
      (s'.OpenNode o here ↔ fs.OpenNode o here))
    (s : ∀ here, fs.OpenNode r here → here.sector = node.sector)
    (listed : s'.OpenNode r node) :
    s'.opens = update fs.opens node.sector (some (viewOf r node)) := by
  funext key
  by_cases is_key : key = node.sector
  · subst is_key
    rw [update_self]
    exact sound'.opens_eq_some.mpr ⟨node, listed, rfl, rfl⟩
  · rw [update_of_ne is_key]
    apply Option.ext
    intro view
    rw [sound.opens_eq_some, sound'.opens_eq_some]
    refine exists_congr fun here => ?_
    by_cases is_inode : view.ref = r
    · rw [is_inode]
      constructor
      · rintro ⟨opened, rfl, _⟩
        obtain rfl := some.inj (opened.2.symm.trans listed.2)
        exact (is_key rfl).elim
      · rintro ⟨opened, rfl, _⟩
        exact (is_key (s here opened)).elim
    · rw [others view.ref here is_inode]

theorem Sound.opens_erase (sound' : s'.Sound owner' files') (others : ∀ o here, o ≠ r →
      (s'.OpenNode o here ↔ fs.OpenNode o here))
    (listed : fs.OpenNode r node) (gone : r ∉ s'.openInodes) :
    s'.opens = update fs.opens node.sector none := by
  funext key
  apply Option.ext
  intro view
  rw [sound'.opens_eq_some]
  by_cases is_key : key = node.sector
  · subst is_key
    rw [update_self]
    simp only [reduceCtorEq, iff_false]
    rintro ⟨here, opened, same, _⟩
    have ne : view.ref ≠ r := by
      rintro rfl
      exact gone opened.1
    have was_open := (others view.ref here ne).mp opened
    exact ne (sound.apart view.ref was_open.1 r listed.1 here node was_open.2 listed.2 same)
  · rw [update_of_ne is_key, sound.opens_eq_some]
    refine exists_congr fun here => ?_
    by_cases is_inode : view.ref = r
    · rw [is_inode]
      constructor
      · rintro ⟨opened, _, _⟩
        exact (gone opened.1).elim
      · rintro ⟨opened, rfl, _⟩
        obtain rfl := some.inj (opened.2.symm.trans listed.2)
        exact (is_key rfl).elim
    · rw [others view.ref here is_inode]

end

/-! ## Changing one file -/

section

variable (sound : fs.Sound own files)
include sound

theorem Sound.lt_heapTop (held : fs.inodes r = some node) : r < fs.heapTop := by
  by_contra above
  rw [sound.fresh r (Nat.not_lt.mp above)] at held
  cases held

theorem Sound.not_open (above : fs.heapTop ≤ r) : r ∉ fs.openInodes := by
  intro mem
  obtain ⟨_, held, _⟩ := sound.listed r mem
  exact Nat.not_le.mpr (sound.lt_heapTop held) above

theorem Sound.ne_mapSector (named : file ∈ files) : file ≠ freeMapSector := by
  rintro rfl
  exact sound.mapApart named

/-- The invariant after an operation on one file, and on its inode in memory if it has one. -/
theorem Sound.change {lost : Nat → Prop} (r : Ref) (keeps : Keeps fs own s' owner' lost touched)
    (clean : ∀ sec role o, own sec = ⟨o, role⟩ → o ≠ file → ¬ touched sec)
    (alien : file ≠ freeMapSector) (remains : ¬ lost freeMapSector) (ready : s'.Ready owner')
    (mapFile : s'.freeMapFile = fs.freeMapFile)
    (fresh : ∀ o, s'.heapTop ≤ o → s'.inodes o = none)
    (memory : ∀ o here, s'.inodes o = some here → s'.InMemory owner' o here)
    (nodup : s'.openInodes.Nodup)
    (members : ∀ o, o ≠ r → (o ∈ s'.openInodes ↔ o ∈ fs.openInodes))
    (kept : ∀ o ∈ fs.openInodes, o ≠ r → s'.inodes o = fs.inodes o)
    (not_map : fs.freeMapFile ≠ some r)
    (solo : ∀ o ∈ fs.openInodes, ∀ here, fs.inodes o = some here → here.sector = file → o = r)
    (self : r ∈ s'.openInodes → file ∈ files' ∧ ∃ node, s'.inodes r = some node ∧
      node.sector = file ∧ s'.Opened owner' node)
    (named : ∀ o ∈ files', o ≠ file → o ∈ files ∧ ¬ lost o)
    (stored : file ∈ files' → s'.Stored owner' file)
    (still : ∀ o ∈ files, o ≠ file → o ∈ files') : s'.Sound owner' files' := by
  have old : ∀ o ∈ s'.openInodes, o ≠ r → ∀ here, s'.inodes o = some here →
      o ∈ fs.openInodes ∧ fs.inodes o = some here := by
    intro o mem ne here held
    have was := (members o ne).mp mem
    exact ⟨was, (kept o was ne).symm.trans held⟩
  have own_sector : ∀ o ∈ s'.openInodes, ∀ here, s'.inodes o = some here →
      (here.sector = file ↔ o = r) := by
    intro o mem here held
    by_cases same : o = r
    · subst same
      obtain ⟨-, node, is_node, sec, -⟩ := self mem
      obtain rfl := some.inj (held.symm.trans is_node)
      exact iff_of_true sec rfl
    · obtain ⟨was, was_held⟩ := old o mem same here held
      exact iff_of_false (fun is_file => same (solo o was here was_held is_file)) same
  refine ⟨ready, fresh, memory, keeps.owned sound.mapInode remains, ?_, ?_, nodup, ?_, ?_, ?_⟩
  · intro o is_map
    rw [mapFile] at is_map
    refine (members o ?_).mpr (sound.mapOpen o is_map)
    rintro rfl
    exact not_map is_map
  · exact fun zero => sound.mapApart (named _ zero alien.symm).1
  · intro o mem
    by_cases same : o = r
    · subst same
      obtain ⟨in_files, node, held, sec, opened⟩ := self mem
      exact ⟨node, held, .inr ⟨sec ▸ in_files, opened⟩⟩
    · have was := (members o same).mp mem
      obtain ⟨here, held, is_listed⟩ := sound.listed o was
      rw [mapFile]
      refine ⟨here, (kept o was same).trans held, is_listed.imp_right ?_⟩
      rintro ⟨in_files, opened⟩
      have ne : here.sector ≠ file := fun is_file => same (solo o was here held is_file)
      have owned := (sound.stored _ in_files).owned
      refine ⟨still _ in_files ne, opened.counted, opened.writable, ?_, opened.covered, ?_⟩
      · exact keeps.head (.inl (sound.ne_mapSector in_files))
          (fun _ _ owned _ => clean _ _ _ owned.2 ne) opened.head
      · rw [keeps.inodeAt owned (clean _ _ _ owned.2 ne)]
        exact opened.agrees
  · intro fst fst_in snd snd_in node node' held held' same
    have fst_sector := own_sector fst fst_in node held
    have snd_sector := own_sector snd snd_in node' held'
    rw [same] at fst_sector
    by_cases is_fst : fst = r
    · exact is_fst.trans (snd_sector.mp (fst_sector.mpr is_fst)).symm
    · have is_snd : snd ≠ r := fun is_snd => is_fst (fst_sector.mp (snd_sector.mpr is_snd))
      obtain ⟨fst_was, fst_held⟩ := old fst fst_in is_fst node held
      obtain ⟨snd_was, snd_held⟩ := old snd snd_in is_snd node' held'
      exact sound.apart fst fst_was snd snd_was node node' fst_held snd_held same
  · intro o in_files
    by_cases is_file : o = file
    · subst is_file
      exact stored in_files
    · obtain ⟨was, left⟩ := named o in_files is_file
      exact keeps.stored (fun _ _ tagged => clean _ _ _ tagged is_file) (sound.ne_mapSector was) left
        (sound.stored o was)

/-- The same where no inode is opened or closed; inodes may have been made. -/
theorem Sound.step (r : Ref) (grows : Grows fs own s' owner' touched)
    (belongs : ∀ sec, touched sec → Belongs own file sec)
    (tag : own file = ⟨file, .inode⟩) (alien : file ≠ freeMapSector) (ready : s'.Ready owner')
    (fresh : ∀ o, s'.heapTop ≤ o → s'.inodes o = none)
    (list : s'.openInodes = fs.openInodes) (heap : fs.heapTop ≤ s'.heapTop)
    (made : ∀ o here, fs.heapTop ≤ o → s'.inodes o = some here → Spare fs s' owner' file here)
    (kept : ∀ o < fs.heapTop, o ≠ r → s'.inodes o = fs.inodes o)
    (memory : r < fs.heapTop → ∀ here, s'.inodes r = some here → s'.InMemory owner' r here)
    (not_map : fs.freeMapFile ≠ some r)
    (solo : ∀ o ∈ fs.openInodes, ∀ here, fs.inodes o = some here → here.sector = file → o = r)
    (self : r ∈ s'.openInodes → file ∈ files' ∧ ∃ node, s'.inodes r = some node ∧
      node.sector = file ∧ s'.Opened owner' node)
    (named : ∀ o ∈ files', o ≠ file → o ∈ files)
    (stored : file ∈ files' → s'.Stored owner' file)
    (still : ∀ o ∈ files, o ≠ file → o ∈ files') : s'.Sound owner' files' := by
  refine sound.change r grows.keeps (fun _ _ _ tagged ne => not_touched_of_tag belongs tag ne tagged)
    alien id ready grows.mapFile fresh ?_ (list ▸ sound.nodup) (fun _ _ => by rw [list]) ?_ not_map
    solo self (fun o in_files ne => ⟨named o in_files ne, id⟩) stored still
  · intro o here held
    rcases Nat.lt_or_ge o fs.heapTop with below | above
    · by_cases same : o = r
      · subst same
        exact memory below here held
      · rw [kept o below same] at held
        exact grows.keeps.inMemory_of_belongs belongs tag list heap (sound.memory o here held)
    · obtain ⟨closed, prev, next, link, chain, _⟩ := made o here above held
      refine ⟨prev, ⟨file, link, chain⟩, fun after is_next => ?_, fun _ => closed⟩
      rw [list]
      exact ⟨(next after is_next).2, sound.not_open (next after is_next).1⟩
  · intro o mem ne
    obtain ⟨_, held, _⟩ := sound.listed o mem
    exact kept o (sound.lt_heapTop held) ne

end

end Fs

end Pintos.Filesys
