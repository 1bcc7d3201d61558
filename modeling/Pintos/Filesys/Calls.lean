import Pintos.Filesys.Files

/-!
# What the calls of the inode layer do

Opening, closing, reading, writing, creating and giving back inodes, each in terms of the flat files
and of the table of open inodes.
-/

namespace Pintos.Filesys

open Function Option Nat

namespace Fs

variable {fs s' mid : Fs} {own owner' : Owner} {file fuel : Nat} {r : Ref}
  {node : Inode} {files : Set Nat} {view : OpenView}

/-! ## Open inodes -/

theorem Sound.heapMemory (sound : fs.Sound own files) : fs.Memory where
  fresh := sound.fresh
  prev r node held := (sound.memory r node held).prev
  rest r node held goes := by
    obtain ⟨_, _, chain⟩ := (sound.memory r node held).chain
    exact chain.headless goes

/-- The open inode of a file. -/
structure Present (fs : Fs) (own : Owner) (files : Set Nat) (file : Nat) (view : OpenView)
    (node : Inode) : Prop where
  listed : fs.OpenNode view.ref node
  sector : node.sector = file
  isView : viewOf view.ref node = view
  named : file ∈ files
  stored : fs.Stored own file
  opened : fs.Opened own node
  notMap : fs.freeMapFile ≠ some view.ref

theorem Sound.present (sound : fs.Sound own files) (named : file ∈ files)
    (opened : fs.opens file = some view) : ∃ node, fs.Present own files file view node := by
  obtain ⟨node, listed, rfl, is_view⟩ := sound.opens_eq_some.mp opened
  have not_map : fs.freeMapFile ≠ some view.ref := by
    intro is_map
    obtain ⟨map, held, free_map, _⟩ := sound.ready.file view.ref is_map
    obtain rfl := some.inj (listed.2.symm.trans held)
    rw [free_map.sector] at named
    exact sound.mapApart named
  obtain ⟨here, held, is_listed⟩ := sound.listed view.ref listed.1
  obtain rfl := some.inj (listed.2.symm.trans held)
  exact ⟨node, listed, rfl, is_view, named, sound.stored _ named,
    (is_listed.resolve_left not_map).2, not_map⟩

section

variable (here : fs.Present own files file view node)
include here

theorem Present.content : fs.content file = fs.contentOf node.data :=
  here.opened.content_eq here.sector here.stored

theorem Present.length : (fs.content file).length = node.data.fileLength := by
  rw [here.content]
  rfl

end

theorem Sound.named_of_opens (sound : fs.Sound own files) (opened : fs.opens file = some view) :
    file = freeMapSector ∨ file ∈ files := by
  obtain ⟨node, listed, rfl, _⟩ := sound.opens_eq_some.mp opened
  obtain ⟨here, held, is_listed⟩ := sound.listed view.ref listed.1
  obtain rfl := some.inj (listed.2.symm.trans held)
  refine is_listed.imp ?_ And.left
  intro is_map
  obtain ⟨map, map_held, map_node, _⟩ := sound.ready.file view.ref is_map
  obtain rfl := some.inj (listed.2.symm.trans map_held)
  exact map_node.sector

/-! ## Reading -/

/-- `inode_read_at` within the first inode reads the flat file. -/
theorem inodeReadAt_spec (sound : fs.Sound own files) (named : file ∈ files)
    (is_open : fs.opens file = some view) (buf : Buffer) (size ofs : Nat)
    (inside : min (ofs + size) (fs.content file).length ≤ 124928) :
    fs.inodeReadAt view.ref buf size ofs = some (fs, (fs.content file).read buf size ofs,
        (fs.content file).readCount size ofs) := by
  obtain ⟨node, here⟩ := sound.present named is_open
  rw [here.content] at inside ⊢
  have runs := readLoop_spec here.listed.2
    (here.opened.head.readable here.opened.covered) size buf size ofs 0 (le_refl _)
    inside
  unfold inodeReadAt
  rw [runs, zero_add]
  have copied : buf.copy 0 (fs.byte node.data) ofs (min size (node.data.fileLength - ofs)) =
      (fs.contentOf node.data).read buf size ofs := by
    apply Buffer.copy_congr
    intro i below
    change min (ofs + size) node.data.fileLength ≤ 124928 at inside
    exact (if_pos (by omega)).symm
  rw [copied]
  rfl

/-- `inode_read_at` returns what the flat file says, or not at all. -/
theorem inodeReadAt_some (sound : fs.Sound own files) (named : file ∈ files)
    (is_open : fs.opens file = some view) {buf bytes : Buffer} {size ofs count : Nat}
    (reads : fs.inodeReadAt view.ref buf size ofs = some (s', bytes, count)) :
    s' = fs ∧ bytes = (fs.content file).read buf size ofs ∧
      count = (fs.content file).readCount size ofs ∧ (count ≠ 0 → ofs + count ≤ 124928) := by
  rcases lt_or_ge 124928 (min (ofs + size) (fs.content file).length) with beyond | inside
  · obtain ⟨node, here⟩ := sound.present named is_open
    have same := here.length
    rw [same] at beyond
    by_cases stops : size = 0 ∨ node.data.fileLength ≤ ofs
    · have zero : (fs.content file).readCount size ofs = 0 := by
        unfold FlatFile.readCount
        omega
      have ends : fs.inodeReadAt view.ref buf size ofs = some (fs, buf, 0) := by
        rcases stops with rfl | past
        · rfl
        · exact readLoop_past here.listed.2 size buf size 0 past
      rw [ends] at reads
      obtain ⟨rfl, rest⟩ := Prod.mk.inj (some.inj reads)
      cases rest
      exact ⟨rfl, by simp [FlatFile.read, zero], zero.symm, by simp⟩
    · have panics := readLoop_beyond here.listed.2
        (here.opened.head.readable here.opened.covered) sound.heapMemory size buf size
        ofs 0 (le_refl _) (by omega) (by omega) (by omega)
      unfold inodeReadAt at reads
      rw [panics] at reads
      cases reads
  · rw [inodeReadAt_spec sound named is_open buf size ofs inside] at reads
    obtain ⟨rfl, rest⟩ := Prod.mk.inj (some.inj reads)
    cases rest
    refine ⟨rfl, rfl, rfl, ?_⟩
    unfold FlatFile.readCount
    omega

/-! ## Opening and closing -/

/-- A state that differs in memory only. -/
def Quiet (fs s' : Fs) : Prop :=
  s' = { fs with inodes := s'.inodes, heapTop := s'.heapTop, openInodes := s'.openInodes }

theorem Quiet.refl (fs : Fs) : Quiet fs fs := rfl

theorem Quiet.trans (fst : Quiet fs mid) (snd : Quiet mid s') : Quiet fs s' := by
  unfold Quiet at *
  rw [snd, fst]

section

variable (quiet : Quiet fs s')
include quiet

theorem Quiet.disk : s'.disk = fs.disk := by
  unfold Quiet at quiet
  rw [quiet]

theorem Quiet.inodeAt (sec : Nat) : s'.inodeAt sec = fs.inodeAt sec := by
  unfold Fs.inodeAt
  rw [quiet.disk]

theorem Quiet.content : s'.content = fs.content := by
  funext file
  unfold Fs.content
  rw [quiet.inodeAt]
  refine contentOf_congr rfl fun pos _ _ => ?_
  unfold byte
  rw [quiet.disk]

theorem Quiet.grows (own : Owner) : Grows fs own s' own fun _ => False := by
  unfold Quiet at quiet
  refine ⟨by rw [quiet], by rw [quiet], ?_, fun _ _ => rfl, fun _ _ _ _ => by rw [quiet]⟩
  intro sec taken
  rw [quiet]
  exact taken

theorem Quiet.head {data : InodeDisk} (head : fs.Head own file data) : s'.Head own file data :=
  (quiet.grows own).keeps.head_of_blocks (fun _ _ _ => id) (fun _ _ => by rw [quiet.disk]) head

theorem Quiet.stored (stored : fs.Stored own file) : s'.Stored own file where
  owned := (quiet.grows own).owned stored.owned
  head := by
    rw [quiet.inodeAt]
    exact quiet.head stored.head
  covered := by
    rw [quiet.inodeAt]
    exact stored.covered

theorem Quiet.opened {new : Inode} (opened : fs.Opened own node) (fields : new = { node with
        openCnt := new.openCnt
        removed := new.removed
        isDir := new.isDir })
    (counted : 1 ≤ new.openCnt) : s'.Opened own new where
  counted := counted
  writable := by
    rw [fields]
    exact opened.writable
  head := by
    rw [fields]
    exact quiet.head opened.head
  covered := by
    rw [fields]
    exact opened.covered
  agrees := by
    rw [quiet.inodeAt, fields]
    exact opened.agrees

theorem Quiet.ready (ready : fs.Ready own)
    (inodes : ∀ r, fs.freeMapFile = some r → s'.inodes r = fs.inodes r) :
    s'.Ready own := by
  unfold Quiet at quiet
  refine ready.frame (by rw [quiet]) (by rw [quiet]) (by rw [quiet]) (fun _ _ => rfl) inodes ?_
  intro _ _ _ _ _ _
  rw [quiet]

end

/-- Memory that has been freed is not used again, and the inode of the free map file stays as it
is. -/
structure Ages (fs s' : Fs) : Prop where
  heap : fs.heapTop ≤ s'.heapTop
  freed : ∀ r < fs.heapTop, fs.inodes r = none → s'.inodes r = none
  mapFile : s'.freeMapFile = fs.freeMapFile
  map : ∀ r, fs.freeMapFile = some r → s'.inodes r = fs.inodes r

theorem Ages.refl (fs : Fs) : Ages fs fs := ⟨le_refl _, fun _ _ => id, rfl, fun _ _ => rfl⟩

theorem Ages.trans (fst : Ages fs mid) (snd : Ages mid s') : Ages fs s' where
  heap := le_trans fst.heap snd.heap
  freed r below gone := snd.freed r (lt_of_lt_of_le below fst.heap) (fst.freed r below gone)
  mapFile := snd.mapFile.trans fst.mapFile
  map r is_map := by
    rw [snd.map r (fst.mapFile.trans is_map), fst.map r is_map]

/-- A change to inodes that are in memory, except the one of the free map file. -/
theorem Ages.of_update (heap : fs.heapTop ≤ s'.heapTop) (mapFile : s'.freeMapFile = fs.freeMapFile)
    (others : ∀ o < fs.heapTop, o ≠ r → s'.inodes o = fs.inodes o)
    (held : fs.inodes r ≠ none) (not_map : fs.freeMapFile ≠ some r)
    (map_below : ∀ o, fs.freeMapFile = some o → o < fs.heapTop) : Ages fs s' where
  heap
  freed o below gone := by
    refine (others o below ?_).trans gone
    rintro rfl
    exact held gone
  mapFile
  map o is_map := by
    refine others o (map_below o is_map) ?_
    rintro rfl
    exact not_map is_map

theorem Sound.map_lt (sound : fs.Sound own files) (is_map : fs.freeMapFile = some r) :
    r < fs.heapTop := by
  obtain ⟨_, held, _⟩ := sound.ready.file r is_map
  exact sound.lt_heapTop held

/-- The invariant, and the table, after an operation on an open file. -/
theorem Sound.redo {new : Inode} {touched : Nat → Prop} (sound : fs.Sound own files)
    (here : fs.Present own files file view node) (grows : Grows fs own s' owner' touched)
    (belongs : ∀ sec, touched sec → Belongs own file sec) (ready : s'.Ready owner')
    (fresh : ∀ o, s'.heapTop ≤ o → s'.inodes o = none)
    (list : s'.openInodes = fs.openInodes) (heap : fs.heapTop ≤ s'.heapTop)
    (made : ∀ o cur, fs.heapTop ≤ o → s'.inodes o = some cur → Spare fs s' owner' file cur)
    (kept : ∀ o < fs.heapTop, o ≠ view.ref → s'.inodes o = fs.inodes o)
    (held : s'.inodes view.ref = some new) (sec : new.sector = file)
    (next : new.next = node.next ∨
      ∃ after, new.next = some after ∧ fs.heapTop ≤ after ∧ after < s'.heapTop)
    (opened : s'.Opened owner' new) (stored : s'.Stored owner' file) :
    s'.Sound owner' files ∧ Ages fs s' ∧
      s'.opens = update fs.opens file (some (viewOf view.ref new)) := by
  have solo : ∀ o ∈ fs.openInodes, ∀ cur, fs.inodes o = some cur → cur.sector = file →
      o = view.ref := fun o mem cur is_held is_file =>
    sound.apart o mem view.ref here.listed.1 cur node is_held here.listed.2
      (is_file.trans here.sector.symm)
  have sound' : s'.Sound owner' files := by
    refine sound.step view.ref grows belongs here.stored.owned.2 (sound.ne_mapSector here.named)
      ready fresh list heap made kept ?_ here.notMap solo
      (fun _ => ⟨here.named, new, held, sec, opened⟩) (fun _ named _ => named) (fun _ => stored)
      (fun _ named _ => named)
    intro _ cur is_held
    obtain rfl := some.inj (held.symm.trans is_held)
    obtain ⟨link, chain⟩ := opened.head.chain
    refine ⟨opened.head.prev, ⟨new.sector, link, chain⟩, ?_, ?_⟩
    · intro after is_next
      rw [list]
      rcases next with same | ⟨o, is_other, above, below⟩
      · rw [same] at is_next
        exact ((sound.memory view.ref node here.listed.2).next after is_next).imp_left
          fun below => lt_of_lt_of_le below heap
      · obtain rfl := some.inj (is_other.symm.trans is_next)
        exact ⟨below, sound.not_open above⟩
    · rw [list]
      exact fun out => (out here.listed.1).elim
  refine ⟨sound', .of_update heap grows.mapFile kept (by simp [here.listed.2]) here.notMap
    fun _ => sound.map_lt, ?_⟩
  rw [← sec]
  refine sound.opens_update sound' ?_ ?_ ⟨list ▸ here.listed.1, held⟩
  · intro o cur ne
    unfold OpenNode
    rw [list]
    refine and_congr_right fun mem => ?_
    obtain ⟨_, is_held, _⟩ := sound.listed o mem
    rw [kept o (sound.lt_heapTop is_held) ne]
  · intro cur is_open
    obtain rfl := some.inj (is_open.2.symm.trans here.listed.2)
    exact here.sector.trans sec.symm

/-- The same where only this inode has changed in memory. -/
theorem Sound.rewrite {new : Inode} {touched : Nat → Prop} (sound : fs.Sound own files)
    (here : fs.Present own files file view node) (grows : Grows fs own s' own touched)
    (belongs : ∀ sec, touched sec → Belongs own file sec) (ready : s'.Ready own)
    (list : s'.openInodes = fs.openInodes) (heap : s'.heapTop = fs.heapTop)
    (inodes : s'.inodes = update fs.inodes view.ref (some new)) (sec : new.sector = file)
    (next : new.next = node.next) (opened : s'.Opened own new) (stored : s'.Stored own file) :
    s'.Sound own files ∧ Ages fs s' ∧
      s'.opens = update fs.opens file (some (viewOf view.ref new)) := by
  have below := sound.lt_heapTop here.listed.2
  have fresh : ∀ o, fs.heapTop ≤ o → s'.inodes o = none := by
    intro o above
    rw [inodes, update_of_ne (ne_of_gt (lt_of_lt_of_le below above))]
    exact sound.fresh o above
  refine sound.redo here grows belongs ready (heap ▸ fresh) list heap.ge ?_ ?_ ?_ sec (.inl next)
    opened stored
  · intro o cur above held
    rw [fresh o above] at held
    cases held
  · intro o _ ne
    rw [inodes, update_of_ne ne]
  · rw [inodes, update_self]

theorem Sound.touch (sound : fs.Sound own files)
    (here : fs.Present own files file view node) (new : Inode)
    (fields : new = { node with
        openCnt := new.openCnt
        removed := new.removed
        isDir := new.isDir })
    (counted : 1 ≤ new.openCnt) :
    (fs.setInode view.ref new).Sound own files ∧ (fs.setInode view.ref new).opens =
        update fs.opens file (some (viewOf view.ref new)) := by
  have quiet : Quiet fs (fs.setInode view.ref new) := rfl
  have ready : (fs.setInode view.ref new).Ready own := by
    refine quiet.ready sound.ready fun o is_map => update_of_ne ?_ _ _
    rintro rfl
    exact here.notMap is_map
  have sec : new.sector = file := by
    rw [fields]
    exact here.sector
  obtain ⟨sound', -, opens⟩ := sound.rewrite here (quiet.grows own) (fun _ => False.elim) ready rfl
    rfl rfl sec (by rw [fields]) (quiet.opened here.opened fields counted) (quiet.stored here.stored)
  exact ⟨sound', opens⟩

/-- The entry of the table after `inode_open`. -/
def Reopened (view : OpenView) : Option OpenView → Prop
  | some s => view = { s with count := s.count + 1 }
  | none => view.count = 1 ∧ view.removed = false ∧ view.next = none

section

variable (sound : fs.Sound own files)
include sound

theorem Sound.opened (named : file ∈ files) (closed : fs.findOpen file = none) :
    (fs.opened file).Sound own files ∧ (fs.opened file).opens =
        update fs.opens file (some (viewOf fs.heapTop (fs.openedInode file))) := by
  have quiet : Quiet fs (fs.opened file) := rfl
  have stored := sound.stored file named
  have new : fs.heapTop ∉ fs.openInodes := sound.not_open (le_refl _)
  have held : (fs.opened file).inodes fs.heapTop = some (fs.openedInode file) := update_self _ _ _
  have others : ∀ o, o ≠ fs.heapTop → (fs.opened file).inodes o = fs.inodes o :=
    fun o ne => update_of_ne ne _ _
  have mem_iff : ∀ o, o ≠ fs.heapTop → (o ∈ (fs.opened file).openInodes ↔ o ∈ fs.openInodes) := by
    intro o ne
    exact List.mem_cons.trans (or_iff_right ne)
  have sound' : (fs.opened file).Sound own files := by
    refine sound.change fs.heapTop (quiet.grows own).keeps (fun _ _ _ _ _ => id)
      (sound.ne_mapSector named) id ?_ rfl ?_ ?_ (List.nodup_cons.mpr ⟨new, sound.nodup⟩) mem_iff
      (fun o _ ne => others o ne) (fun is_map => new (sound.mapOpen _ is_map)) ?_
      (fun _ => ⟨named, _, held, rfl, Int.le_refl _, rfl, quiet.head stored.head, stored.covered,
        rfl, rfl, le_refl _, fun _ _ => rfl⟩)
      (fun _ is_named _ => ⟨is_named, id⟩) (fun _ => quiet.stored stored)
      (fun _ is_named _ => is_named)
    · refine quiet.ready sound.ready fun o is_map => others o ?_
      rintro rfl
      exact new (sound.mapOpen _ is_map)
    · intro o above
      rw [others o (ne_of_gt above)]
      exact sound.fresh o (le_of_lt above)
    · intro o node is_held
      by_cases same : o = fs.heapTop
      · subst same
        obtain rfl := some.inj (held.symm.trans is_held)
        refine ⟨stored.head.prev, ?_, by simp [openedInode], fun out => ?_⟩
        · obtain ⟨link, chain⟩ := stored.head.chain
          exact ⟨file, link, (quiet.grows own).keeps.chain chain fun _ _ => id⟩
        · exact (out List.mem_cons_self).elim
      · rw [others o same] at is_held
        obtain ⟨prev, ⟨head, link, chain⟩, next, not_open⟩ := sound.memory o node is_held
        refine ⟨prev, ⟨head, link, (quiet.grows own).keeps.chain chain fun _ _ => id⟩, ?_, ?_⟩
        · intro after is_next
          obtain ⟨below, out⟩ := next after is_next
          refine ⟨lt_succ_of_lt below, ?_⟩
          rw [mem_iff after (Nat.ne_of_lt below)]
          exact out
        · rw [mem_iff o same]
          exact not_open
    · rintro o mem node is_held rfl
      rw [sound.findOpen_eq ⟨mem, is_held⟩] at closed
      cases closed
  refine ⟨sound', @Sound.opens_update _ _ _ _ _ (fs.openedInode file) _ _ sound sound' ?_ ?_
    ⟨List.mem_cons_self, held⟩⟩
  · intro o node ne
    unfold OpenNode
    rw [mem_iff o ne, others o ne]
  · intro node is_open
    exact (new is_open.1).elim

theorem inodeOpen_spec (named : file ∈ files) :
    ∃ s' view, fs.inodeOpen file = some (s', view.ref) ∧ s'.Sound own files ∧
      Quiet fs s' ∧ Ages fs s' ∧ s'.opens = update fs.opens file (some view) ∧
      Reopened view (fs.opens file) := by
  cases found : fs.findOpen file with
  | none =>
    have on_device := (sound.stored file named).owned.1.1
    obtain ⟨sound', opens⟩ := sound.opened named found
    refine ⟨fs.opened file, viewOf fs.heapTop (fs.openedInode file),
      inodeOpen_of_closed found on_device, sound', rfl, ⟨le_succ _, ?_, rfl, ?_⟩, opens, ?_⟩
    · intro o below gone
      exact (update_of_ne (Nat.ne_of_lt below) _ _).trans gone
    · intro o is_map
      exact update_of_ne (Nat.ne_of_lt (sound.map_lt is_map)) _ _
    · simp only [Fs.opens, found]
      exact ⟨rfl, rfl, rfl⟩
  | some r =>
    obtain ⟨mem, node, held, sec⟩ := held_of_findOpen found
    have is_open : fs.opens file = some (viewOf r node) := by
      simp [Fs.opens, found, held]
    obtain ⟨same, here⟩ := sound.present named is_open
    obtain rfl : same = node := some.inj (here.listed.2.symm.trans held)
    have counted := here.opened.counted
    obtain ⟨sound', opens⟩ := sound.touch here { same with openCnt := same.openCnt + 1 } rfl
      (show 1 ≤ same.openCnt + 1 by omega)
    refine ⟨_, viewOf r { same with openCnt := same.openCnt + 1 },
      inodeOpen_of_findOpen found held, sound', rfl,
      .of_update (le_refl _) rfl (fun o _ ne => update_of_ne ne _ _)
        (show fs.inodes r ≠ none by simp [held]) here.notMap fun _ => sound.map_lt, opens, ?_⟩
    rw [is_open]
    rfl

theorem Sound.closed {files' : Set Nat} {lost : Nat → Prop}
    (here : fs.Present own files file view node)
    (keeps : Keeps fs own s' own lost fun _ => False) (ready : s'.Ready own)
    (mapFile : s'.freeMapFile = fs.freeMapFile) (heap : s'.heapTop = fs.heapTop)
    (opened : s'.openInodes = fs.openInodes.erase view.ref)
    (gone : s'.inodes view.ref = none)
    (others : ∀ o, o ≠ view.ref → s'.inodes o = fs.inodes o ∨
      o ∉ fs.openInodes ∧ ∃ here, fs.inodes o = some here ∧
        s'.inodes o = some { here with openCnt := here.openCnt - 1 })
    (heads : ∀ o, lost o → o = file)
    (fewer : ∀ o ∈ files', o ∈ files ∧ ¬ lost o)
    (still : ∀ o ∈ files, o ≠ file → o ∈ files') :
    s'.Sound own files' ∧ s'.opens = update fs.opens file none := by
  have mem_iff : ∀ o, o ∈ s'.openInodes ↔ o ≠ view.ref ∧ o ∈ fs.openInodes := by
    intro o
    rw [opened]
    exact sound.nodup.mem_erase_iff
  have kept : ∀ o ∈ fs.openInodes, o ≠ view.ref → s'.inodes o = fs.inodes o := by
    intro o mem ne
    exact (others o ne).resolve_right fun closed => closed.1 mem
  have alien := sound.ne_mapSector here.named
  have m : ∀ o node, s'.inodes o = some node → s'.InMemory own o node := by
    intro o is_node held
    have ne : o ≠ view.ref := by
      rintro rfl
      rw [gone] at held
      cases held
    -- an inode that was only linked has had its counter lowered
    obtain ⟨old, was_held, data, next, count⟩ : ∃ old, fs.inodes o = some old ∧
        is_node.data = old.data ∧ is_node.next = old.next ∧
        is_node.openCnt ≤ old.openCnt := by
      rcases others o ne with same | ⟨_, old, was_held, is_new⟩
      · exact ⟨is_node, same.symm.trans held, rfl, rfl, Int.le_refl _⟩
      · obtain rfl := some.inj (held.symm.trans is_new)
        exact ⟨old, was_held, rfl, rfl, by simp⟩
    obtain ⟨prev, ⟨head, linked, chain⟩, was_next, not_open⟩ := sound.memory o old was_held
    rw [← data] at prev chain
    refine ⟨prev, ⟨head, linked, keeps.chain chain fun _ _ => id⟩, ?_, ?_⟩
    · intro after is_next
      rw [next] at is_next
      obtain ⟨below, out⟩ := was_next after is_next
      refine ⟨by rw [heap]; exact below, ?_⟩
      rw [mem_iff]
      exact fun mem => out mem.2
    · intro out
      refine Int.le_trans count (not_open ?_)
      intro mem
      exact out ((mem_iff o).mpr ⟨ne, mem⟩)
  have sound' : s'.Sound own files' := by
    refine sound.change view.ref keeps (fun _ _ _ _ _ => id) alien
      (fun is_lost => alien (heads _ is_lost).symm) ready mapFile ?_ m (opened ▸ sound.nodup.erase _)
      (fun o ne => (mem_iff o).trans (and_iff_right ne)) kept here.notMap ?_
      (fun mem => (((mem_iff _).mp mem).1 rfl).elim) (fun o is_named _ => fewer o is_named) ?_ still
    · intro o above
      rw [heap] at above
      by_cases same : o = view.ref
      · rw [same]
        exact gone
      · rcases others o same with kept_same | ⟨_, old, was_held, _⟩
        · rw [kept_same]
          exact sound.fresh o above
        · rw [sound.fresh o above] at was_held
          cases was_held
    · intro o mem cur held is_file
      exact sound.apart o mem view.ref here.listed.1 cur node held here.listed.2
        (is_file.trans here.sector.symm)
    · intro is_named
      exact keeps.stored (fun _ _ _ => id) alien (fewer _ is_named).2 here.stored
  refine ⟨sound', ?_⟩
  have erased := @Sound.opens_erase _ _ _ _ view.ref node _ _ sound sound' ?_ here.listed ?_
  · rwa [here.sector] at erased
  · intro o is_node ne
    constructor
    · rintro ⟨mem, held⟩
      have was_open := ((mem_iff o).mp mem).2
      exact ⟨was_open, (kept o was_open ne).symm.trans held⟩
    · rintro ⟨mem, held⟩
      exact ⟨(mem_iff o).mpr ⟨ne, mem⟩, (kept o mem ne).trans held⟩
  · rw [mem_iff]
    exact fun mem => mem.1 rfl

end

/-- What `inode_close` does: it lowers the counter, or forgets the inode, or also gives its sector
back. -/
inductive Closes (fs : Fs) (own : Owner) (files : Set Nat) (file : Nat) (view : OpenView)
    (s' : Fs) : Set Nat → Prop
  | shared (many : 1 < view.count) (quiet : Quiet fs s') (opens : s'.opens =
        update fs.opens file (some { view with count := view.count - 1 })) :
      Closes fs own files file view s' files
  | last (single : view.count = 1) (kept : view.removed = false) (quiet : Quiet fs s')
      (opens : s'.opens = update fs.opens file none) :
      Closes fs own files file view s' files
  | removed (single : view.count = 1) (gone : view.removed = true)
      (keeps : Keeps fs own s' own (fun sector => sector = file) fun _ => False)
      (allocated : ∀ sector, s'.Allocated sector ↔ fs.Allocated sector ∧ sector ≠ file)
      (opens : s'.opens = update fs.opens file none) :
      Closes fs own files file view s' (files \ {file})

theorem close_next {link : Ref} (held : fs.inodes link = some node) (closed : node.openCnt ≤ 0)
    (closes : close fuel fs link = some s') :
    s' = fs.setInode link { node with openCnt := node.openCnt - 1 } := by
  cases fuel with
  | zero => cases closes
  | succ fuel =>
    obtain ⟨same, is_held, closes⟩ := bind_eq_some_iff.mp closes
    obtain rfl := some.inj (held.symm.trans is_held)
    split at closes
    · cases closes
    · rw [if_neg (by omega)] at closes
      exact (some.inj closes).symm

theorem close_held {link : Ref} (closes : close fuel fs link = some s') :
    ∃ node, fs.inodes link = some node := by
  cases fuel with
  | zero => cases closes
  | succ fuel =>
    obtain ⟨node, held, _⟩ := bind_eq_some_iff.mp closes
    exact ⟨node, held⟩

variable (sound : fs.Sound own files)
include sound

theorem inodes_of_close (held : fs.inodes r = some node) (same : mid.inodes = fs.inodes)
    (closes : node.next.elim (some mid) (close fuel mid) = some s') :
    s' = { mid with inodes := s'.inodes } ∧ ∀ o, o ≠ r → s'.inodes o = fs.inodes o ∨
        o ∉ fs.openInodes ∧ ∃ here, fs.inodes o = some here ∧
          s'.inodes o = some { here with openCnt := here.openCnt - 1 } := by
  cases is_next : node.next with
  | none =>
    rw [is_next] at closes
    cases closes
    exact ⟨rfl, fun o _ => .inl (by rw [same])⟩
  | some link =>
    rw [is_next] at closes
    obtain ⟨next, next_held⟩ := close_held closes
    rw [same] at next_held
    have out := ((sound.memory r node held).next link is_next).2
    have closed := (sound.memory link next next_held).closed out
    have res := close_next (by rw [same]; exact next_held) closed closes
    refine ⟨by rw [res]; rfl, ?_⟩
    intro o _
    by_cases is_linked : o = link
    · subst is_linked
      refine .inr ⟨out, next, next_held, ?_⟩
      rw [res]
      exact update_self _ _ _
    · refine .inl ?_
      rw [res, ← same]
      exact update_of_ne is_linked _ _

/-- The last close of a file, after its sector has been given back or not. -/
theorem Sound.forgotten {last : Fs} {files' : Set Nat} {lost : Nat → Prop}
    (here : fs.Present own files file view node)
    (keeps : Keeps fs own mid own lost fun _ => False) (ready : mid.Ready own)
    (mapFile : mid.freeMapFile = fs.freeMapFile) (heap : mid.heapTop = fs.heapTop)
    (opened : mid.openInodes = fs.openInodes.erase view.ref)
    (same : mid.inodes = fs.inodes)
    (links : node.next.elim (some mid) (close fuel mid) = some last)
    (heads : ∀ o, lost o → o = file)
    (fewer : ∀ o ∈ files', o ∈ files ∧ ¬ lost o)
    (still : ∀ o ∈ files, o ≠ file → o ∈ files') :
    (last.free view.ref).Sound own files' ∧ Ages fs (last.free view.ref) ∧
      (last.free view.ref).opens = update fs.opens file none ∧
      Quiet mid (last.free view.ref) := by
  obtain ⟨state, others⟩ := inodes_of_close sound here.listed.2 same links
  have quiet : Quiet mid (last.free view.ref) := by
    unfold Quiet
    rw [state]
    rfl
  have others' : ∀ o, o ≠ view.ref → (last.free view.ref).inodes o = fs.inodes o ∨
      o ∉ fs.openInodes ∧ ∃ here, fs.inodes o = some here ∧ (last.free view.ref).inodes o =
          some { here with openCnt := here.openCnt - 1 } := by
    intro o ne
    rw [show (last.free view.ref).inodes o = last.inodes o from update_of_ne ne _ _]
    exact others o ne
  have heap' : last.heapTop = fs.heapTop := by rw [state, heap]
  have mapFile' : last.freeMapFile = fs.freeMapFile := by rw [state, mapFile]
  have openInodes' : last.openInodes = fs.openInodes.erase view.ref := by rw [state, opened]
  have keeps' : Keeps fs own (last.free view.ref) own lost fun _ => False := by
    refine ⟨?_, keeps.heads, ?_⟩
    · intro tag sec owned remains
      exact (quiet.grows own).owned (keeps.owned owned remains)
    · intro sec taken clean alien
      rw [quiet.disk]
      exact keeps.disk sec taken clean alien
  have map_kept : ∀ o, fs.freeMapFile = some o → (last.free view.ref).inodes o = fs.inodes o := by
    intro o is_map
    refine (others' o ?_).resolve_right fun closed => closed.1 (sound.mapOpen o is_map)
    rintro rfl
    exact here.notMap is_map
  have ready' : (last.free view.ref).Ready own := by
    refine quiet.ready ready ?_
    intro o is_map
    rw [mapFile] at is_map
    rw [same]
    exact map_kept o is_map
  obtain ⟨sound', opens⟩ := sound.closed here keeps' ready' mapFile' heap' openInodes'
    (update_self _ _ _) others' heads fewer still
  refine ⟨sound', ⟨le_of_eq heap'.symm, ?_, mapFile', map_kept⟩, opens, quiet⟩
  intro o _ gone
  by_cases is_closed : o = view.ref
  · rw [is_closed]
    exact update_self _ _ _
  rcases others' o is_closed with kept | ⟨_, old, was, _⟩
  · rw [kept]
    exact gone
  · rw [gone] at was
    cases was

theorem inodeClose_some (named : file ∈ files) (is_open : fs.opens file = some view)
    (closes : fs.inodeClose view.ref = some s') :
    ∃ files', s'.Sound own files' ∧ Ages fs s' ∧ Closes fs own files file view s' files' := by
  obtain ⟨node, here⟩ := sound.present named is_open
  have count : view.count = node.openCnt := by rw [← here.isView]; rfl
  have counted := here.opened.counted
  have removed : view.removed = node.removed := by rw [← here.isView]; rfl
  obtain ⟨same, held, closes⟩ := bind_eq_some_iff.mp closes
  obtain rfl := some.inj (here.listed.2.symm.trans held)
  split at closes
  · cases closes
  by_cases single : node.openCnt - 1 = 0
  · rw [if_pos single] at closes
    obtain ⟨mid, frees, closes⟩ := bind_eq_some_iff.mp closes
    obtain ⟨last, links, closes⟩ := bind_eq_some_iff.mp closes
    cases closes
    have is_single : view.count = 1 := by omega
    have absent : Quiet fs { fs with openInodes := fs.openInodes.erase view.ref } := rfl
    have ready := absent.ready sound.ready fun _ _ => rfl
    cases is_removed : node.removed with
    | false =>
      rw [is_removed] at frees
      cases frees
      obtain ⟨sound', ages, opens, quiet⟩ := sound.forgotten here (absent.grows own).keeps
        ready rfl rfl rfl rfl links (fun _ => False.elim) (fun _ is_named => ⟨is_named, id⟩)
        (fun _ is_named _ => is_named)
      exact ⟨files, sound', ages,
        .last is_single (removed.trans is_removed) (absent.trans quiet) opens⟩
    | true =>
      rw [is_removed, if_pos rfl] at frees
      have owned : Owned { fs with openInodes := fs.openInodes.erase view.ref } own
          ⟨node.sector, .inode⟩ node.sector := by
        rw [here.sector]
        exact (absent.grows own).owned here.stored.owned
      obtain ⟨map, is_map⟩ : ∃ map, fs.freeMapFile = some map := by
        cases is_map : fs.freeMapFile with
        | some map => exact ⟨map, rfl⟩
        | none => simp [freeMapRelease, is_map] at frees
      obtain ⟨res, runs, freed⟩ := freeMapRelease_spec ready is_map owned
      obtain rfl := some.inj (runs.symm.trans frees)
      rw [here.sector] at freed owned
      have keeps := freed.keeps owned.2
      have state := freed.state
      obtain ⟨sound', ages, opens, quiet⟩ := @Sound.forgotten fs res own file _ node files
        view sound last (files \ {file}) _ here ⟨keeps.owned, keeps.heads, keeps.disk⟩
        freed.ready (by rw [state]) (by rw [state]) (by rw [state]) (by rw [state]) links
        (fun _ => id) (fun _ is_named => is_named) (fun _ is_named apart => ⟨is_named, apart⟩)
      refine ⟨files \ {file}, sound', ages,
        .removed is_single (removed.trans is_removed) ⟨?_, keeps.heads, ?_⟩ ?_ opens⟩
      · intro tag sec is_owned remains
        exact (quiet.grows own).owned (keeps.owned is_owned remains)
      · intro sec taken clean alien
        rw [quiet.disk]
        exact keeps.disk sec taken clean alien
      · intro sec
        have same : (last.free view.ref).Allocated sec ↔ res.Allocated sec := by
          unfold Quiet at quiet
          rw [quiet]
          rfl
        rw [same]
        exact freed.allocated_iff
  · rw [if_neg single] at closes
    cases closes
    obtain ⟨sound', opens⟩ := sound.touch here { node with openCnt := node.openCnt - 1 } rfl
      (show 1 ≤ node.openCnt - 1 by omega)
    refine ⟨files, sound', .of_update (le_refl _) rfl
      (fun o _ ne => update_of_ne ne _ _) (by simp [held]) here.notMap
      fun _ => sound.map_lt, .shared (by omega) rfl ?_⟩
    rw [opens, ← here.isView]
    rfl

/-- `inode_close` returns unless it has to close a linked inode. -/
theorem inodeClose_isSome (named : file ∈ files) (opened : fs.opens file = some view)
    (map_open : fs.freeMapFile ≠ none) (gone : 1 < view.count ∨ view.next = none) :
    ∃ s', fs.inodeClose view.ref = some s' := by
  obtain ⟨node, here⟩ := sound.present named opened
  have count : view.count = node.openCnt := by rw [← here.isView]; rfl
  have next : view.next = node.next := by rw [← here.isView]; rfl
  have not_self : node.next ≠ some view.ref := fun is_self =>
    ((sound.memory view.ref node here.listed.2).next view.ref is_self).2 here.listed.1
  simp only [inodeClose, close, here.listed.2, bind_eq_bind, bind_some, if_neg not_self]
  by_cases single : node.openCnt - 1 = 0
  · have is_last : node.next = none := next ▸ gone.resolve_left (by omega)
    rw [if_pos single, is_last]
    cases node.removed with
    | false => exact ⟨_, rfl⟩
    | true =>
      obtain ⟨map, is_map⟩ := ne_none_iff_exists'.mp map_open
      have absent : Quiet fs { fs with openInodes := fs.openInodes.erase view.ref } := rfl
      have owned : Owned { fs with openInodes := fs.openInodes.erase view.ref } own
          ⟨node.sector, .inode⟩ node.sector := by
        rw [here.sector]
        exact (absent.grows own).owned here.stored.owned
      obtain ⟨res, runs, _⟩ := freeMapRelease_spec
        (absent.ready sound.ready fun _ _ => rfl) is_map owned
      rw [if_pos rfl, runs]
      exact ⟨_, rfl⟩
  · rw [if_neg single]
    exact ⟨_, rfl⟩

end Fs

end Pintos.Filesys
