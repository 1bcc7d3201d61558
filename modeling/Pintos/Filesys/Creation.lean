import Pintos.Filesys.Updates

/-!
# Creating and giving back files

A file is created in a sector that `free_map_allocate` has handed out, by `inode_create`, and its
sector can be given back with `free_map_release`.
-/

namespace Pintos.Filesys

open Function Option Nat

namespace Fs

variable {fs mid s' : Fs} {own owner' : Owner} {file : Nat} {node node' : Inode}
  {files : Set Nat} {len : Nat}

/-! ## `inode_create` -/

/-- The inode that `inode_create` grows. -/
def firstInode (fs : Fs) (file len : Nat) : Inode :=
  { fs.blankInode 0 with
    sector := file
    data := { (fs.blankInode 0).data with self := ptrCreate file, fileLength := len } }

/-- The state in which `inode_create` calls `inode_extend_link`. -/
def prepared (fs : Fs) (file len : Nat) : Fs :=
  { fs with
    inodes := update fs.inodes fs.heapTop (some (fs.firstInode file len))
    heapTop := fs.heapTop + 1 }

/-- What `inode_create` needs. -/
structure Creatable (fs : Fs) (own : Owner) (file : Nat) : Prop where
  foreign : file ≠ freeMapSector ∨ fs.freeMapFile = none
  ready : fs.Ready own
  fresh : ∀ other, fs.heapTop ≤ other → fs.inodes other = none
  owned : fs.Owned own ⟨file, .inode⟩ file

/-- What `inode_create` has done to everything but the contents of the file. -/
structure Created (fs : Fs) (own : Owner) (file : Nat) (s' : Fs) (owner' : Owner) : Prop where
  grows : Grows fs own s' owner' fun sector => sector = file
  ready : s'.Ready owner'
  rest : s' =
    { fs with disk := s'.disk, freeMap := s'.freeMap, inodes := s'.inodes,
              heapTop := s'.heapTop }
  heap : fs.heapTop ≤ s'.heapTop
  fresh : ∀ other, s'.heapTop ≤ other → s'.inodes other = none
  others : ∀ other < fs.heapTop, s'.inodes other = fs.inodes other
  spare : ∀ other present, fs.heapTop ≤ other → s'.inodes other = some present →
    Spare fs s' owner' file present

/-- What `inode_create` has done to the file. -/
inductive Made (fs : Fs) (own : Owner) (file len : Nat) (s' : Fs) (owner' : Owner) :
    Bool → Prop
  | done (stored : s'.Stored owner' file)
      (content : s'.content file = FlatFile.zeros len)
      (self : (s'.inodeAt file).self = ptrCreate file)
      (cost : 512 * fs.freeSectors.card ≤ 512 * s'.freeSectors.card + 2 * len + 1022) :
      Made fs own file len s' owner' true
  | failed (stored : fs.Stored own file → s'.Stored owner' file)
      (content : s'.inodeAt file = fs.inodeAt file ∨
        s'.content file = FlatFile.zeros len ∧ (s'.inodeAt file).self = ptrCreate file)
      (exhausted : s'.freeSectors = ∅)
      (few : 512 * fs.freeSectors.card ≤ 2 * len + 1022) :
      Made fs own file len s' owner' false

section Create

variable (creatable : fs.Creatable own file)

include creatable

theorem growing_prepared (small : len < 2 ^ 32) :
    Growing file (fs.prepared file len) own fs.heapTop (fs.firstInode file len) := by
  have same : Grows fs own (fs.prepared file len) own fun _ => False :=
    ⟨rfl, rfl, fun _ => id, fun _ _ => rfl, fun _ _ _ _ => rfl⟩
  have map_below : ∀ inode, fs.freeMapFile = some inode → inode ≠ fs.heapTop := by
    rintro inode is_map rfl
    obtain ⟨node, held, _⟩ := creatable.ready.file fs.heapTop is_map
    rw [creatable.fresh fs.heapTop (le_refl _)] at held
    cases held
  refine ⟨creatable.foreign, creatable.owned.1, ?_, ?_, update_self _ _ _, ?_,
    same.owned creatable.owned, laid_of_empty _ _ _ rfl, ?_⟩
  · refine creatable.ready.frame rfl rfl rfl (fun _ _ => rfl) ?_ fun _ _ _ _ _ _ => rfl
    intro inode is_map
    exact update_of_ne (map_below inode is_map) _ _
  · intro o above
    have past : fs.heapTop < o := above
    exact (update_of_ne (ne_of_gt past) _ _).trans (creatable.fresh o (le_of_lt past))
  · intro is_map
    exact map_below fs.heapTop is_map rfl
  · exact ⟨small, by simp [firstInode, blankInode], by simp [firstInode, blankInode],
      by simp [firstInode, blankInode, inodeMagic]⟩

/-- The call of `inode_extend_link` has been made, and the new inode is kept or freed. -/
theorem Extended.made (grown : Extended file (fs.prepared file len) own fs.heapTop
      (fs.firstInode file len) mid owner' node')
    (rest : s' = { mid with inodes := s'.inodes })
    (inodes : ∀ o, o ≠ fs.heapTop → s'.inodes o = mid.inodes o)
    (kept : s'.inodes fs.heapTop = none ∨ s'.inodes fs.heapTop = mid.inodes fs.heapTop) :
    Created fs own file s' owner' := by
  have quiet : Quiet mid s' := by
    unfold Quiet
    rw [rest]
  have same := quiet.grows owner'
  have start : Grows fs own (fs.prepared file len) own fun sec => sec = file :=
    ⟨rfl, rfl, fun _ => id, fun _ _ => rfl, fun _ _ _ _ => rfl⟩
  have heapTop : s'.heapTop = mid.heapTop := by rw [rest]
  have heap : fs.heapTop < s'.heapTop := by
    rw [heapTop]
    exact grown.heap
  have grows : Grows fs own mid owner' fun sec => sec = file :=
    start.trans grown.grows fun _ _ => id
  have spare_later : ∀ {here : Inode}, Spare (fs.prepared file len) mid owner' file here →
      Spare fs s' owner' file here := by
    intro here spare
    obtain ⟨closed, prev, next, chain⟩ :=
      spare.later same (fun _ => False.elim) (le_of_eq heapTop.symm)
    refine ⟨closed, prev, fun o is_next => ?_, chain⟩
    exact (next o is_next).imp_left fun above => le_of_lt above
  refine ⟨grows.trans (same.mono fun _ _ => False.elim) fun _ _ => id, ?_, ?_, le_of_lt heap, ?_,
    ?_, ?_⟩
  · refine quiet.ready grown.ready ?_
    intro inode is_map
    refine inodes inode ?_
    rintro rfl
    rw [grown.grows.mapFile] at is_map
    obtain ⟨node, held, _⟩ := creatable.ready.file fs.heapTop is_map
    rw [creatable.fresh fs.heapTop (le_refl _)] at held
    cases held
  · rw [rest, grown.rest]
    rfl
  · intro o above
    rw [inodes o (ne_of_gt (lt_of_lt_of_le heap above))]
    exact grown.fresh o (heapTop ▸ above)
  · intro o below
    rw [inodes o (Nat.ne_of_lt below),
      grown.others o (Nat.lt_succ_of_lt below) (Nat.ne_of_lt below)]
    exact update_of_ne (Nat.ne_of_lt below) _ _
  · intro o here above held
    rcases eq_or_lt_of_le above with rfl | past
    · rcases kept with gone | same_inode
      · rw [gone] at held
        cases held
      rw [same_inode] at held
      obtain rfl := some.inj (grown.held.symm.trans held)
      refine spare_later ⟨?_, ?_, ?_, ?_⟩
      · rw [grown.fields]
        exact Int.le_refl _
      · rw [grown.header]
        rfl
      · intro link is_next
        rcases grown.next with unlinked | ⟨found, hit, above, below⟩
        · rw [unlinked] at is_next
          cases is_next
        · obtain rfl := some.inj (hit.symm.trans is_next)
          exact ⟨above, below⟩
      · rcases grown.linked with unlinked | link
        · refine ⟨[], .nil ?_, by simp⟩
          rw [unlinked]
          exact ptrExists_zero
        · exact link
    · rw [inodes o (ne_of_gt past)] at held
      exact spare_later (grown.created o here past held)

omit creatable in
theorem head_prepared (small : len < 2 ^ 32) :
    (fs.prepared file len).Head own file (fs.firstInode file len).data where
  toLaid := laid_of_empty _ _ _ rfl
  fits := ⟨small, by simp [firstInode, blankInode], by simp [firstInode, blankInode],
    by simp [firstInode, blankInode, inodeMagic]⟩
  prev := rfl
  chain := ⟨[], .nil ptrExists_zero⟩

omit creatable in
theorem Extended.contentOf_new {image : InodeDisk}
    (grown : Extended file (fs.prepared file len) own fs.heapTop
      (fs.firstInode file len) mid owner' node')
    (blockptrs : image.blockptrs = node'.data.blockptrs)
    (nodeLength : image.nodeLength = node'.data.nodeLength)
    (fileLength : image.fileLength = len) (covered : image.Covered) :
    mid.contentOf image = FlatFile.zeros len := by
  have sectors : image.sectors = node'.data.sectors := by
    unfold InodeDisk.sectors
    rw [nodeLength]
  have bounded := grown.laid.blocks.bounded
  rw [← nodeLength] at bounded
  apply FlatFile.ext
  · exact fileLength
  · funext position
    change (if _ then _ else _) = _
    split
    · next inside =>
        have i := InodeDisk.Covered.div_lt covered bounded inside.1 inside.2
        unfold byte InodeDisk.block
        rw [blockptrs]
        rw [sectors] at i
        have none_yet : (fs.firstInode file len).data.sectors = 0 := by
          simp [InodeDisk.sectors, divRoundUp, firstInode, blankInode]
        have zero := grown.zeros (position / 512) (by omega) i
        unfold InodeDisk.block at zero
        rw [zero]
        rfl
    · rfl

/-- The new inode has been written, whole or without what follows it. -/
theorem Extended.stored_new {image : InodeDisk}
    (grown : Extended file (fs.prepared file len) own fs.heapTop
      (fs.firstInode file len) mid owner' node')
    (image_eq : image = { node'.data with doubleptr := image.doubleptr })
    (disk : mid.disk file = image.toBlock) (head : mid.Head owner' file image)
    (covered : image.Covered) (fileLength : node'.data.fileLength = len) :
    mid.Stored owner' file ∧ mid.content file = FlatFile.zeros len ∧
      (mid.inodeAt file).self = ptrCreate file := by
  have start : Grows fs own (fs.prepared file len) own fun _ => False :=
    ⟨rfl, rfl, fun _ => id, fun _ _ => rfl, fun _ _ _ _ => rfl⟩
  have owned := grown.grows.owned (start.owned creatable.owned)
  obtain ⟨stored, same⟩ := stored_of_image owned disk head covered
  refine ⟨stored, ?_, ?_⟩
  · have image_length : image.fileLength = len := by
      rw [image_eq]
      exact fileLength
    rw [← grown.contentOf_new (by rw [image_eq]) (by rw [image_eq]) image_length covered]
    refine contentOf_congr same.fileLength ?_
    intro pos below inside
    have i := InodeDisk.Covered.div_lt covered head.blocks.bounded below inside
    have bound := InodeDisk.sectors_le head.blocks.bounded
    unfold byte InodeDisk.block
    rw [same.blockptrs _ (lt_of_lt_of_le i bound)]
  · rw [same.self, image_eq, grown.header]
    rfl

omit creatable in
theorem inodeCreate_eq (small : len < 2 ^ 31) : fs.inodeCreate file len =
      ((fs.prepared file len).inodeExtendLink fs.heapTop len len).bind fun res =>
        match res.2 with
        | none => some (res.1.free fs.heapTop, false)
        | some _ => (res.1.inodes fs.heapTop).bind fun node =>
          (res.1.blockWrite (some file) node.data.toBlock).bind fun fs => some (fs, true) := by
  have takes : fs.allocateInode false = some (fs.spawn 0, some fs.heapTop) := rfl
  have held : (fs.spawn 0).inodes fs.heapTop = some (fs.blankInode 0) := update_self _ _ _
  have ready_state : (fs.spawn 0).setInode fs.heapTop (fs.firstInode file len) =
      fs.prepared file len := by
    simp only [setInode, spawn, prepared, update_idem]
  unfold inodeCreate
  rw [if_neg (by omega), ← ready_state]
  simp only [takes, held, bind_eq_bind, bind_some]
  rfl

/-- `inode_create` returns, and fails only for lack of free sectors. -/
theorem inodeCreate_spec (small : len < 2 ^ 31) :
    ∃ s' owner' res, fs.inodeCreate file len = some (s', res) ∧
      Created fs own file s' owner' ∧ Made fs own file len s' owner' res := by
  obtain ⟨mid, owner', node', tail, used, runs, grew⟩ := extendLink_spec (len + 1)
    (growing_prepared creatable (show len < 2 ^ 32 by omega))
    (show (fs.firstInode file len).data.fileLength ≤ len from le_refl _)
    (show len < 2 ^ 32 by omega) (lt_succ_self len)
  have grown := grew.extended
  have head := grown.head (head_prepared (show len < 2 ^ 32 by omega)) rfl
  rw [inodeCreate_eq small, inodeExtendLink, runs, bind_some]
  cases tail with
  | none =>
    refine ⟨mid.free fs.heapTop, owner', false, rfl,
      grown.made creatable rfl (fun o ne => update_of_ne ne _ _) (.inl (update_self _ _ _)), ?_⟩
    have created : Created fs own file (mid.free fs.heapTop) owner' :=
      grown.made creatable rfl (fun o ne => update_of_ne ne _ _) (.inl (update_self _ _ _))
    have empty := grew.exhausted rfl
    have quiet : Quiet mid (mid.free fs.heapTop) := rfl
    have few : 512 * fs.freeSectors.card ≤ 2 * len + 1022 := by
      have card := grew.card
      have cost := grew.cost
      rw [empty, Finset.card_empty] at card
      change 0 + used = fs.freeSectors.card at card
      omega
    cases grew.outcome with
    | full disk _ _ =>
      have same : (mid.free fs.heapTop).inodeAt file = fs.inodeAt file :=
        congrArg InodeDisk.ofBlock disk
      refine .failed ?_ (.inl same) empty few
      intro stored
      refine ⟨created.grows.owned stored.owned, ?_, ?_⟩
      · rw [same]
        refine created.grows.keeps.head creatable.foreign ?_ stored.head
        rintro sec role is_owned which rfl
        rcases which with rfl | apart
        · cases is_owned.2.symm.trans creatable.owned.2
        · exact apart rfl
      · rw [same]
        exact stored.covered
    | cut disk fileLength long =>
      have image_head : mid.Head owner' file
          { node'.data with doubleptr := (fs.firstInode file len).data.doubleptr } :=
        ⟨head.toLaid.congr rfl (fun _ _ => rfl) (le_refl _),
          ⟨head.fits.fileLength, head.fits.prevLength, head.fits.nodeLength, head.fits.magic⟩,
          head.prev, [], .nil ptrExists_zero⟩
      obtain ⟨stored, content, self⟩ := grown.stored_new creatable rfl disk image_head
        (.inr long) fileLength
      refine .failed (fun _ => quiet.stored stored) (.inr ⟨?_, ?_⟩) empty few
      · rw [quiet.content]
        exact content
      · rw [quiet.inodeAt]
        exact self
  | some last =>
    cases grew.outcome with
    | done disk fileLength reach =>
      have covered : node'.data.Covered := by
        have nothing : (fs.firstInode file len).data.nodeLength = 0 := rfl
        unfold InodeDisk.Covered
        omega
      have on_device : file < mid.size := (grown.grows.allocated file creatable.owned.1).1
      obtain ⟨stored, content, self⟩ := grown.stored_new creatable rfl disk head covered fileLength
      have same : update mid.disk file node'.data.toBlock = mid.disk := by
        rw [← show mid.disk file = node'.data.toBlock from disk]
        exact update_eq_self _ _
      have cost : 512 * fs.freeSectors.card ≤ 512 * mid.freeSectors.card + 2 * len + 1022 := by
        have card : mid.freeSectors.card + used = fs.freeSectors.card := grew.card
        have cost := grew.cost
        omega
      refine ⟨mid, owner', true, ?_,
        grown.made creatable rfl (fun _ _ => rfl) (.inr rfl), .done stored content self cost⟩
      simp only [grown.held, bind_some, blockWrite, if_pos on_device, same]

end Create

theorem Sound.sector_ne {r : Ref} (sound : fs.Sound own files) (closed : fs.opens file = none)
    (mem : r ∈ fs.openInodes) (held : fs.inodes r = some node) : node.sector ≠ file := by
  rintro rfl
  have is_open := sound.opens_eq_some.mpr
    ⟨node, show fs.OpenNode (viewOf r node).ref node from ⟨mem, held⟩, rfl, rfl⟩
  rw [closed] at is_open
  cases is_open

/-- The invariant after a file has been created, or not, in a sector that is not open. -/
theorem Sound.created {files' : Set Nat} (sound : fs.Sound own files)
    (alien : file ≠ freeMapSector) (tag : own file = ⟨file, .inode⟩)
    (closed : fs.opens file = none) (made : Created fs own file s' owner')
    (named : ∀ o ∈ files', o = file ∨ o ∈ files)
    (still : ∀ o ∈ files, o ≠ file → o ∈ files')
    (stored : file ∈ files' → s'.Stored owner' file) :
    s'.Sound owner' files' ∧ s'.opens = fs.opens ∧ Ages fs s' := by
  have opened : s'.openInodes = fs.openInodes := by rw [made.rest]
  have new : fs.heapTop ∉ fs.openInodes := sound.not_open (le_refl _)
  have sound' : s'.Sound owner' files' := by
    refine sound.step fs.heapTop made.grows (fun _ => .inr) tag alien made.ready made.fresh
      opened made.heap made.spare (fun o below _ => made.others o below)
      (fun below => (lt_irrefl _ below).elim) (fun is_map => new (sound.mapOpen _ is_map)) ?_
      (fun mem => (new (opened ▸ mem)).elim) (fun o in_files => (named o in_files).resolve_left)
      stored still
    exact fun o mem present held is_file => (sound.sector_ne closed mem held is_file).elim
  refine ⟨sound', ?_, made.heap, ?_, made.grows.mapFile,
    fun o is_map => made.others o (sound.map_lt is_map)⟩
  · have same : ∀ o ∈ fs.openInodes, s'.inodes o = fs.inodes o := by
      intro o mem
      obtain ⟨_, held, _⟩ := sound.listed o mem
      exact made.others o (sound.lt_heapTop held)
    funext key
    apply Option.ext
    intro view
    rw [sound.opens_eq_some, sound'.opens_eq_some]
    refine exists_congr fun present => and_congr_left fun _ => ?_
    unfold OpenNode
    rw [opened]
    exact and_congr_right fun mem => by rw [same _ mem]
  · intro o below gone
    rw [made.others o below]
    exact gone

/-! ## Taking a sector and giving it back -/

/-- The invariant after sectors have been taken or the sector of a file given back. -/
theorem Sound.keep {files' : Set Nat} {lost : Nat → Prop} (sound : fs.Sound own files)
    (keeps : Keeps fs own s' owner' lost fun _ => False) (ready : s'.Ready owner')
    (mapFile : s'.freeMapFile = fs.freeMapFile) (inodes : s'.inodes = fs.inodes)
    (heapTop : s'.heapTop = fs.heapTop) (list : s'.openInodes = fs.openInodes)
    (alien : file ≠ freeMapSector) (closed : fs.opens file = none)
    (heads : ∀ o, lost o → o = file) (fewer : ∀ o ∈ files', o ∈ files ∧ ¬ lost o)
    (still : ∀ o ∈ files, o ≠ file → o ∈ files') :
    s'.Sound owner' files' ∧ s'.opens = fs.opens ∧ Ages fs s' := by
  have new : fs.heapTop ∉ fs.openInodes := sound.not_open (le_refl _)
  have opens : s'.opens = fs.opens := by
    unfold Fs.opens findOpen holds
    rw [inodes, list]
  refine ⟨sound.change fs.heapTop keeps (fun _ _ _ _ _ => id) alien
    (fun is_lost => alien (heads _ is_lost).symm) ready mapFile ?_ ?_ (list ▸ sound.nodup)
    (fun _ _ => by rw [list]) (fun _ _ _ => by rw [inodes])
    (fun is_map => new (sound.mapOpen _ is_map))
    (fun o mem here held is_file => (sound.sector_ne closed mem held is_file).elim)
    (fun mem => (new (list ▸ mem)).elim) (fun o named _ => fewer o named) ?_ still, opens,
    le_of_eq heapTop.symm, fun o _ gone => by rw [inodes]; exact gone, mapFile,
    fun _ _ => by rw [inodes]⟩
  · rw [inodes, heapTop]
    exact sound.fresh
  · intro o here held
    rw [inodes] at held
    obtain ⟨prev, ⟨head, link, chain⟩, next, closed⟩ := sound.memory o here held
    refine ⟨prev, ⟨head, link, keeps.chain chain fun _ _ => id⟩, ?_, ?_⟩
    · rw [heapTop, list]
      exact next
    · rw [list]
      exact closed
  · intro named
    obtain ⟨was_named, remains⟩ := fewer file named
    exact keeps.stored (fun _ _ _ => id) alien remains (sound.stored file was_named)

theorem Sound.content_kept {lost : Nat → Prop} {o : Nat} (sound : fs.Sound own files)
    (keeps : Keeps fs own s' owner' lost fun _ => False) (named : o ∈ files) :
    s'.content o = fs.content o := by
  have alien := sound.ne_mapSector named
  exact keeps.content_of_belongs (fun _ => False.elim) sound.mapInode.2 alien (.inl alien)
    (sound.stored o named)

theorem freeMapAllocate_head (ready : fs.Ready own) :
    (fs.freeSectors = ∅ ∧ fs.freeMapAllocate 1 = some (fs, none)) ∨
      ∃ sec s', fs.freeMapAllocate 1 = some (s', some sec) ∧ Took fs own ⟨sec, .inode⟩ sec s' := by
  rcases freeMapAllocate_spec ready ⟨freeMapSector, .inode⟩ (.inl (by simp)) with
    nothing | ⟨sec, s', takes, _⟩
  · exact .inl nothing
  · rcases freeMapAllocate_spec ready ⟨sec, .inode⟩ (.inl (by simp)) with
      nothing | ⟨found, result, takes', took⟩
    · exact .inl nothing
    · rw [takes] at takes'
      obtain ⟨rfl, same⟩ := Prod.mk.inj (some.inj takes')
      cases same
      exact .inr ⟨sec, s', takes, took⟩

section

variable (sound : fs.Sound own files)
include sound

theorem Sound.took_new {sec : Nat} {tag : Tag} (took : Took fs own tag sec s') :
    sec ∉ files ∧ sec ≠ freeMapSector := by
  have new := took.new sound.ready
  constructor
  · intro named
    exact new (sound.stored sec named).owned.1
  · rintro rfl
    exact new sound.mapInode.1

theorem Sound.took {sec : Nat} (took : Took fs own ⟨sec, .inode⟩ sec s') :
    s'.Sound (update own sec ⟨sec, .inode⟩) files ∧ s'.opens = fs.opens ∧ Ages fs s' := by
  have state := took.state
  obtain ⟨unnamed, alien⟩ := sound.took_new took
  refine sound.keep (took.grows sound.ready).keeps took.ready (by rw [state]) (by rw [state])
    (by rw [state]) (by rw [state]) alien ?_ (fun _ => False.elim) (fun _ named => ⟨named, id⟩)
    fun _ named _ => named
  cases is_open : fs.opens sec with
  | none => rfl
  | some view => exact ((sound.named_of_opens is_open).elim alien unnamed).elim

/-- What `free_map_release` does with the sector of a file that is not open. -/
theorem freeMapRelease_closed {inode : Ref} (is_map : fs.freeMapFile = some inode)
    (owned : fs.Owned own ⟨file, .inode⟩ file) (alien : file ≠ freeMapSector)
    (closed : fs.opens file = none) :
    ∃ s', fs.freeMapRelease file 1 = some s' ∧ Released fs own file s' ∧
      s'.Sound own (files \ {file}) ∧ s'.opens = fs.opens ∧ Ages fs s' := by
  obtain ⟨s', frees, freed⟩ := freeMapRelease_spec sound.ready is_map owned
  have state := freed.state
  exact ⟨s', frees, freed, sound.keep (freed.keeps owned.2) freed.ready (by rw [state])
    (by rw [state]) (by rw [state]) (by rw [state]) alien closed (fun _ => id)
    (fun _ named => named) fun _ named ne => ⟨named, ne⟩⟩

end

/-! ## Marking a directory -/

/-- The state after `inode_mark_dir` and writing the inode to its sector. -/
def marked (fs : Fs) (inode : Ref) (node : Inode) : Fs :=
  fs.store inode { node with data := { node.data with self := ptrSetIsdir node.data.self } }

/-- The flag in the inode itself is no part of the contents of the file. -/
theorem Sound.marked {view : OpenView} (sound : fs.Sound own files)
    (here : fs.Present own files file view node) :
    Altered fs own files file view (fs.marked view.ref node) own ∧
      (fs.marked view.ref node).opens = fs.opens ∧
      (fs.marked view.ref node).content file = fs.content file ∧
      (fs.marked view.ref node).freeSectors = fs.freeSectors := by
  obtain ⟨new, is_new⟩ : ∃ new, new =
      { node with data := { node.data with self := ptrSetIsdir node.data.self } } := ⟨_, rfl⟩
  have sec : new.sector = file := by
    rw [is_new]
    exact here.sector
  obtain ⟨s', is_after⟩ : ∃ s', s' = fs.marked view.ref node := ⟨_, rfl⟩
  have state : s' = { fs.setInode view.ref new with disk := s'.disk } := by
    rw [is_after, is_new]
    rfl
  have disk : s'.disk = update fs.disk file new.data.toBlock := by
    rw [is_after, is_new, ← here.sector]
    rfl
  have inodes : s'.inodes = update fs.inodes view.ref (some new) := by
    rw [state]
    rfl
  have list : s'.openInodes = fs.openInodes := by
    rw [state]
    rfl
  have heapTop : s'.heapTop = fs.heapTop := by
    rw [state]
    rfl
  have alien := sound.ne_mapSector here.named
  have change : Changed fs s' file := by
    refine ⟨?_, fun o ne => ?_⟩
    · rw [state]
      rfl
    · rw [disk]
      exact update_of_ne ne _ _
  have grows := change.grows own
  have opened := here.opened
  have was_head : fs.Head own file node.data := here.sector ▸ opened.head
  have keeps_head : ∀ data, fs.Head own file data → s'.Head own file data := by
    intro data head
    refine grows.keeps.head (.inl alien) ?_ head
    rintro o role is_owned which rfl
    rcases which with rfl | apart
    · cases is_owned.2.symm.trans here.stored.owned.2
    · exact apart rfl
  have head : s'.Head own file new.data := by
    obtain ⟨laid, fits, prev, chain⟩ := keeps_head node.data was_head
    rw [is_new]
    exact ⟨laid.congr rfl (fun _ _ => rfl) (le_refl _),
      ⟨fits.fileLength, fits.prevLength, fits.nodeLength, fits.magic⟩, prev, chain⟩
  have covered : new.data.Covered := by
    rw [is_new]
    exact opened.covered
  obtain ⟨stored, same⟩ := stored_of_image (grows.owned here.stored.owned)
    (by rw [disk]; exact update_self _ _ _) head covered
  have is_opened : s'.Opened own new := by
    refine ⟨by rw [is_new]; exact opened.counted, by rw [is_new]; exact opened.writable,
      by rw [sec]; exact head, covered, ?_⟩
    rw [sec]
    exact InodeDisk.Same.agrees same head.blocks.bounded
  have ready : s'.Ready own := by
    refine change.ready sound.ready (.inl alien) here.stored.owned ?_
    intro o is_map
    rw [inodes]
    refine update_of_ne ?_ _ _
    rintro rfl
    exact here.notMap is_map
  obtain ⟨sound', ages, opens⟩ := sound.rewrite here grows (fun _ => .inr) ready list heapTop inodes
    sec (by rw [is_new]) is_opened stored
  have same_view : viewOf view.ref new = view := by
    rw [is_new]
    exact here.isView
  have is_open := sound.opens_eq_some.mpr ⟨node, here.listed, here.sector, here.isView⟩
  rw [same_view] at opens
  rw [← is_after]
  refine ⟨⟨sound', grows.mono fun _ _ => .inr, ages, view.next, opens⟩, ?_, ?_, ?_⟩
  · rw [opens, ← is_open]
    exact update_eq_self _ _
  · rw [is_opened.content_eq sec stored, here.content]
    refine contentOf_congr (by rw [is_new]) ?_
    intro pos inside capacity
    have i := InodeDisk.Covered.div_lt opened.covered opened.head.blocks.bounded inside capacity
    have owned := was_head.blocks.owned _ i
    have same_block : new.data.block (pos / 512) = node.data.block (pos / 512) := by
      rw [is_new]
      rfl
    unfold byte
    rw [same_block, change.disk]
    intro is_file
    rw [is_file] at owned
    cases owned.2.symm.trans here.stored.owned.2
  · rw [state]
    rfl

/-- What `dir_create_root` and `dir_create` do with a new directory: the inode is opened, marked,
written to its sector and closed. -/
def markSector (fs : Fs) (sector : Nat) : Option Fs := do
  let (fs, inode) ← fs.inodeOpen sector
  let fs ← fs.inodeMarkDir inode
  let node ← fs.inodes inode
  let fs ← fs.blockWrite (some node.sector) node.data.toBlock
  fs.inodeClose inode

/-- Marking a file that is not open changes nothing that is seen of it. -/
theorem markSector_spec (sound : fs.Sound own files) (named : file ∈ files)
    (closed : fs.opens file = none) (map_open : fs.freeMapFile ≠ none) :
    ∃ s', fs.markSector file = some s' ∧ s'.Sound own files ∧ s'.opens = fs.opens ∧
      Ages fs s' ∧ Grows fs own s' own (Belongs own file) ∧
      s'.content file = fs.content file ∧ s'.freeSectors = fs.freeSectors := by
  obtain ⟨opened, view, opens_file, sound_opened, quiet, ages, opens, fresh⟩ :=
    inodeOpen_spec sound named
  rw [closed] at fresh
  obtain ⟨count, kept, unlinked⟩ := fresh
  have is_open : opened.opens file = some view := by
    rw [opens]
    exact update_self _ _ _
  obtain ⟨node, here⟩ := sound_opened.present named is_open
  obtain ⟨new, same_opens, same_content, same_free⟩ := sound_opened.marked here
  obtain ⟨marked, is_marked⟩ : ∃ marked, marked = opened.marked view.ref node := ⟨_, rfl⟩
  rw [← is_marked] at new same_opens same_content same_free
  rw [← same_opens] at is_open
  have map_marked : marked.freeMapFile ≠ none := by
    rw [new.ages.mapFile, ages.mapFile]
    exact map_open
  obtain ⟨s', closes⟩ := inodeClose_isSome new.sound named is_open map_marked (.inr unlinked)
  obtain ⟨files', sound', aged, closes'⟩ := inodeClose_some new.sound named is_open closes
  have on_device : node.sector < opened.size := by
    rw [here.sector]
    exact here.stored.owned.1.1
  have runs : fs.markSector file = some s' := by
    rw [is_marked] at closes
    simp only [markSector, opens_file, inodeMarkDir, here.listed.2, map_some, setInode,
      update_self, bind_eq_bind, bind_some, blockWrite, if_pos on_device]
    exact closes
  cases closes' with
  | shared many _ _ => omega
  | removed _ gone _ _ _ =>
    rw [kept] at gone
    cases gone
  | last _ _ quiet' opens' =>
    have start : Grows fs own opened own (Belongs own file) :=
      (quiet.grows own).mono fun _ _ => False.elim
    have ended : Grows marked own s' own (Belongs own file) :=
      (quiet'.grows own).mono fun _ _ => False.elim
    refine ⟨s', runs, sound', ?_, (ages.trans new.ages).trans aged,
      (start.trans new.grows fun _ _ => id).trans ended fun _ _ => id, ?_, ?_⟩
    · rw [opens', same_opens, opens, update_idem, ← closed]
      exact update_eq_self _ _
    · rw [quiet'.content, same_content, quiet.content]
    · have free : ∀ {fs s' : Fs}, Quiet fs s' → s'.freeSectors = fs.freeSectors := by
        intro fs s' quiet
        unfold Quiet at quiet
        rw [quiet]
        rfl
      rw [free quiet', same_free, free quiet]

end Fs

end Pintos.Filesys
