import Pintos.Filesys.Growth

/-!
# Linking inodes

`inode_extend_link` fills an inode and links new ones to it until there is room for all bytes.  Of
what was allocated before, it writes only the sector of the inode it starts from, and whatever it
does, also when it fails half-way, the inodes in memory and on the device stay in order.
-/

namespace Pintos.Filesys

open Function Nat

namespace Fs

variable {fs mid s' : Fs} {own owner' owner'' : Owner} {file bytesLeft count left : Nat}
  {r : Ref} {node node' node'' : Inode} {data data' : InodeDisk}

theorem Blocks.congr (blocks : fs.Blocks own file data)
    (nodeLength : data'.nodeLength = data.nodeLength)
    (blockptrs : ∀ i < data.sectors, data'.blockptrs i = data.blockptrs i) :
    fs.Blocks own file data' := by
  have sectors : data'.sectors = data.sectors := by
    unfold InodeDisk.sectors
    rw [nodeLength]
  refine ⟨by rw [nodeLength]; exact blocks.bounded, ?_, ?_⟩ <;> intro i below <;>
    rw [sectors] at below
  · rw [blockptrs i below]
    exact blocks.inPlace i below
  · unfold InodeDisk.block
    rw [blockptrs i below]
    exact blocks.owned i below

theorem Laid.congr (laid : fs.Laid own file data) (nodeLength : data'.nodeLength = data.nodeLength)
    (blockptrs : ∀ i < data.sectors, data'.blockptrs i = data.blockptrs i)
    (fileLength : data.fileLength ≤ data'.fileLength) : fs.Laid own file data' := by
  have sectors : data'.sectors = data.sectors := by
    unfold InodeDisk.sectors
    rw [nodeLength]
  have block : ∀ i < data'.sectors, data'.block i = data.block i := by
    intro i below
    unfold InodeDisk.block
    rw [blockptrs i (sectors ▸ below)]
  refine ⟨laid.blocks.congr nodeLength blockptrs, ?_, ?_⟩
  · intro fst fst_lt snd snd_lt eq
    rw [block fst fst_lt, block snd snd_lt] at eq
    rw [sectors] at fst_lt snd_lt
    exact laid.distinct fst fst_lt snd snd_lt eq
  · intro i below pos small past
    rw [block i below]
    rw [sectors] at below
    exact laid.clear i below pos small (by omega)

/-! ## What growth has done -/

/-- An inode in memory that can be grown. -/
structure Growing (file : Nat) (fs : Fs) (own : Owner) (r : Ref) (node : Inode) : Prop where
  foreign : file ≠ freeMapSector ∨ fs.freeMapFile = none
  head : fs.Allocated file
  ready : fs.Ready own
  fresh : ∀ other, fs.heapTop ≤ other → fs.inodes other = none
  held : fs.inodes r = some node
  other : fs.freeMapFile ≠ some r
  owned : fs.Owned own ⟨file, .inode⟩ node.sector
  laid : fs.Laid own file node.data
  fits : node.data.Fits

/-- An inode that growth has left in memory, linked to new inodes only. -/
structure Spare (fs s' : Fs) (own : Owner) (file : Nat) (node : Inode) : Prop where
  closed : node.openCnt ≤ 0
  prev : node.data.prevLength = 0
  next : ∀ other, node.next = some other → fs.heapTop ≤ other ∧ other < s'.heapTop
  chain : ∃ linked, s'.Chain own file node.data.doubleptr linked ∧
    ∀ sector ∈ linked, ¬ fs.Allocated sector

/-- What `inode_extend_link` has done to the inode that it was called for and to the rest. -/
structure Extended (file : Nat) (fs : Fs) (own : Owner) (r : Ref) (node : Inode)
    (s' : Fs) (owner' : Owner) (node' : Inode) : Prop where
  grows : Grows fs own s' owner' fun sector => sector = node.sector
  ready : s'.Ready owner'
  rest : s' =
    { fs with disk := s'.disk, freeMap := s'.freeMap, inodes := s'.inodes,
              heapTop := s'.heapTop }
  heap : fs.heapTop ≤ s'.heapTop
  fresh : ∀ other, s'.heapTop ≤ other → s'.inodes other = none
  held : s'.inodes r = some node'
  others : ∀ other < fs.heapTop, other ≠ r → s'.inodes other = fs.inodes other
  created : ∀ other present, fs.heapTop ≤ other → s'.inodes other = some present →
    Spare fs s' owner' file present
  fields : node' = { node with data := node'.data, next := node'.next }
  header : node'.data =
    { node.data with
      fileLength := node'.data.fileLength
      nodeLength := node'.data.nodeLength
      doubleptr := node'.data.doubleptr
      blockptrs := node'.data.blockptrs }
  fits : node'.data.Fits
  laid : s'.Laid owner' file node'.data
  longer : node.data.nodeLength ≤ node'.data.nodeLength
  kept : ∀ i < node.data.sectors, node'.data.blockptrs i = node.data.blockptrs i
  zeros : ∀ i, node.data.sectors ≤ i → i < node'.data.sectors →
    s'.disk (node'.data.block i) = Buffer.zeros
  next : node'.next = node.next ∨
    ∃ other, node'.next = some other ∧ fs.heapTop ≤ other ∧ other < s'.heapTop
  linked : node'.data.doubleptr = node.data.doubleptr ∨
    ∃ linked, s'.Chain owner' file node'.data.doubleptr linked ∧
      ∀ sector ∈ linked, ¬ fs.Allocated sector

theorem Growing.lt_heapTop (grows : Growing file fs own r node) : r < fs.heapTop := by
  by_contra above
  have missing := grows.fresh r (not_lt.mp above)
  rw [grows.held] at missing
  cases missing

theorem Growing.file_lt {o : Ref} (grows : Growing file fs own r node)
    (is_file : fs.freeMapFile = some o) : o < fs.heapTop ∧ o ≠ r := by
  obtain ⟨map_node, held, _⟩ := grows.ready.file o is_file
  constructor
  · by_contra above
    rw [grows.fresh o (not_lt.mp above)] at held
    cases held
  · rintro rfl
    exact grows.other is_file

section

variable (extended : Extended file fs own r node s' owner' node')
include extended

theorem Extended.sector : node'.sector = node.sector := by
  rw [extended.fields]

theorem Extended.growing (growing : Growing file fs own r node) :
    Growing file s' owner' r node' where
  __ := extended
  foreign := growing.foreign.imp_right extended.grows.mapFile.trans
  head := extended.grows.allocated file growing.head
  other := by
    rw [extended.grows.mapFile]
    exact growing.other
  owned := by
    rw [extended.sector]
    exact extended.grows.owned growing.owned

end

theorem Extended.refl (growing : Growing file fs own r node) :
    Extended file fs own r node fs own node where
  __ := growing
  grows := .refl fs own _
  rest := rfl
  heap := le_refl _
  others _ _ _ := rfl
  created other present above held := by
    rw [growing.fresh other above] at held
    cases held
  fields := rfl
  header := rfl
  longer := le_refl _
  kept _ _ := rfl
  zeros _ past below := (not_lt.mpr past below).elim
  next := .inl rfl
  linked := .inl rfl

/-- A change to old sectors only leaves a spare inode as it is. -/
theorem Spare.later {hit : Nat → Prop} (spare : Spare fs mid own file node)
    (grows : Grows mid own s' owner' hit)
    (old : ∀ sec, hit sec → fs.Allocated sec)
    (heap : mid.heapTop ≤ s'.heapTop) : Spare fs s' owner' file node where
  __ := spare
  next other is_next :=
    ⟨(spare.next other is_next).1, lt_of_lt_of_le (spare.next other is_next).2 heap⟩
  chain := by
    obtain ⟨link, chain, new⟩ := spare.chain
    refine ⟨link, grows.keeps.chain chain ?_, new⟩
    intro sec mem is_touched
    exact new sec mem (old sec is_touched)

theorem Spare.earlier (spare : Spare mid s' own file node)
    (taken : ∀ sec, fs.Allocated sec → mid.Allocated sec)
    (heap : fs.heapTop ≤ mid.heapTop) : Spare fs s' own file node where
  __ := spare
  next other is_next := ⟨le_trans heap (spare.next other is_next).1, (spare.next other is_next).2⟩
  chain := by
    obtain ⟨link, chain, new⟩ := spare.chain
    exact ⟨link, chain, fun sec mem old => new sec mem (taken sec old)⟩

theorem Extended.trans (fst : Extended file fs own r node mid owner' node')
    (snd : Extended file mid owner' r node' s' owner'' node'')
    (growing : Growing file fs own r node) :
    Extended file fs own r node s' owner'' node'' where
  __ := snd
  grows := fst.grows.trans snd.grows fun sec _ hit => hit.trans fst.sector
  rest := by
    rw [snd.rest, fst.rest]
  heap := le_trans fst.heap snd.heap
  others o below ne := by
    rw [snd.others o (lt_of_lt_of_le below fst.heap) ne]
    exact fst.others o below ne
  created o present above held := by
    rcases lt_or_ge o mid.heapTop with below | above'
    · have ne : o ≠ r := ne_of_gt (lt_of_lt_of_le growing.lt_heapTop above)
      rw [snd.others o below ne] at held
      refine (fst.created o present above held).later snd.grows ?_ snd.heap
      rintro sec rfl
      rw [fst.sector]
      exact growing.owned.1
    · exact (snd.created o present above' held).earlier fst.grows.allocated fst.heap
  fields := by
    rw [snd.fields, fst.fields]
  header := by
    rw [snd.header, fst.header]
  longer := le_trans fst.longer snd.longer
  kept i below := by
    rw [snd.kept i (lt_of_lt_of_le below (InodeDisk.sectors_mono fst.longer)), fst.kept i below]
  zeros i past below := by
    rcases lt_or_ge i node'.data.sectors with inside | out
    · have owned := fst.laid.blocks.owned i inside
      have apart : node'.data.block i ≠ node'.sector := by
        intro same
        have tag := (fst.growing growing).owned.2
        rw [← same, owned.2] at tag
        cases tag
      unfold InodeDisk.block at *
      rw [snd.kept i inside, snd.grows.disk _ owned.1 apart]
      · exact fst.zeros i past inside
      · refine growing.foreign.imp (fun ne => ?_) fst.grows.mapFile.trans
        simp [owned.2, ne]
    · exact snd.zeros i out below
  next := by
    rcases snd.next with same | ⟨o, is_next, above, below⟩
    · rw [same]
      refine fst.next.imp_right ?_
      rintro ⟨o, is_next, above, below⟩
      exact ⟨o, is_next, above, lt_of_lt_of_le below snd.heap⟩
    · exact .inr ⟨o, is_next, le_trans fst.heap above, below⟩
  linked := by
    rcases snd.linked with same | ⟨linked, chain, new⟩
    · rw [same]
      refine fst.linked.imp_right ?_
      rintro ⟨linked, chain, new⟩
      refine ⟨linked, snd.grows.keeps.chain chain ?_, new⟩
      rintro sec mem rfl
      refine new _ mem ?_
      rw [fst.sector]
      exact growing.owned.1
    · exact .inr ⟨linked, chain, fun sec mem old =>
        new sec mem (fst.grows.allocated sec old)⟩

/-! ## Filling the inode -/

theorem Filled.longer (filled : Filled file fs own data bytesLeft s' owner' data' left count) :
    data.nodeLength ≤ data'.nodeLength := by
  have less := filled.less
  have balance := filled.balance
  omega

section

variable (grow : Growing file fs own r node)
include grow

/-- The inode with its new blocks, in memory and perhaps in its sector. -/
theorem Extended.of_filled {len : Nat}
    (filled : Filled file fs own node.data bytesLeft mid owner' data left count)
    (more : node.data.fileLength ≤ len) (small : len < 2 ^ 32) (state : s' =
      { mid.setInode r { node with data := { data with fileLength := len } } with
        disk := s'.disk })
    (disk : ∀ sec, sec ≠ node.sector → s'.disk sec = mid.disk sec) :
    Extended file fs own r node s' owner'
      { node with data := { data with fileLength := len } } := by
  have middle_state := filled.state
  have inodes : mid.inodes = fs.inodes := by rw [middle_state]
  have heapTop : s'.heapTop = fs.heapTop := by
    rw [state, middle_state]
    rfl
  have map_file : mid.freeMapFile = fs.freeMapFile := filled.grows.mapFile
  have held : s'.inodes r = some { node with data := { data with fileLength := len } } := by
    rw [state]
    exact update_self _ _ _
  have others : ∀ o, o ≠ r → s'.inodes o = fs.inodes o := by
    intro o ne
    rw [state, ← inodes]
    exact update_of_ne ne _ _
  have change : Changed mid s' node.sector := by
    refine ⟨?_, disk⟩
    rw [state]
    rfl
  have grows : Grows fs own s' owner' fun sec => sec = node.sector :=
    (filled.grows.mono fun _ _ => False.elim).trans (change.grows owner') fun _ _ => id
  have owned := filled.grows.owned grow.owned
  have fields := filled.fields
  have blocks : ∀ i < data.sectors, s'.disk (data.block i) = mid.disk (data.block i) := by
    intro i below
    refine disk _ ?_
    intro same
    have block := filled.laid.blocks.owned i below
    rw [same] at block
    cases owned.2.symm.trans block.2
  refine ⟨grows, ?_, ?_, le_of_eq heapTop.symm, ?_, held, fun o _ => others o, ?_, rfl,
    ?_, ?_, ?_, filled.longer, filled.kept, ?_, .inl rfl, .inl ?_⟩
  · refine change.ready filled.ready (grow.foreign.imp_right map_file.trans) owned ?_
    intro o is_file
    rw [map_file] at is_file
    rw [others o (grow.file_lt is_file).2, inodes]
  · rw [state, middle_state]
    rfl
  · intro o above
    rw [heapTop] at above
    rw [others o (ne_of_gt (lt_of_lt_of_le grow.lt_heapTop above))]
    exact grow.fresh o above
  · intro o here above is_held
    rw [others o (ne_of_gt (lt_of_lt_of_le grow.lt_heapTop above)), grow.fresh o above] at is_held
    cases is_held
  · rw [fields]
  · have bounded := filled.laid.blocks.bounded
    have fits := grow.fits
    refine ⟨small, ?_, ?_, ?_⟩
    · rw [fields]
      exact fits.prevLength
    · change data.nodeLength < 2 ^ 32
      omega
    · rw [fields]
      exact fits.magic
  · refine Laid.congr ((change.grows owner').keeps.laid blocks filled.laid) rfl (fun _ _ => rfl) ?_
    rw [fields]
    exact more
  · intro i past below
    exact (blocks i below).trans (filled.zeros i past below)
  · rw [fields]

theorem Extended.of_failed
    (filled : Filled file fs own node.data bytesLeft mid owner' data left count) :
    Extended file fs own r node (mid.setInode r { node with data }) owner' { node with data } := by
  have same : { data with fileLength := node.data.fileLength } = data := by rw [filled.fields]
  have grown := @Extended.of_filled fs mid
    (mid.setInode r { node with data := { data with fileLength := node.data.fileLength } })
    own owner' file bytesLeft count left r node data grow node.data.fileLength filled
    (le_refl _) grow.fits.fileLength rfl fun _ _ => rfl
  rwa [same] at grown

theorem Extended.of_stored {len : Nat}
    (filled : Filled file fs own node.data bytesLeft mid owner' data left count)
    (more : node.data.fileLength ≤ len) (small : len < 2 ^ 32) :
    Extended file fs own r node
      (mid.store r { node with data := { data with fileLength := len } }) owner'
      { node with data := { data with fileLength := len } } :=
  .of_filled grow filled more small rfl fun _ ne => update_of_ne ne _ _

end

/-! ## A new inode -/

/-- The `struct inode` that `allocate_inode` makes. -/
def blankInode (fs : Fs) (sector : Nat) : Inode :=
  { fs.garbage fs.heapTop with
    sector
    openCnt := 0
    removed := false
    denyWriteCnt := 0
    next := none
    data :=
      { (fs.garbage fs.heapTop).data with
        fileLength := 0
        prevLength := 0
        nodeLength := 0
        self := ptrCreate sector
        doubleptr := 0
        magic := inodeMagic } }

/-- The state with a new `struct inode`. -/
def spawn (fs : Fs) (sector : Nat) : Fs :=
  { fs with
    inodes := update fs.inodes fs.heapTop (some (fs.blankInode sector))
    heapTop := fs.heapTop + 1 }

theorem mallocInode_eq (fs : Fs) (sec : Nat) :
    fs.mallocInode sec = (fs.spawn sec, fs.heapTop) := rfl

theorem allocateInode_spec (ready : fs.Ready own) (file : Nat) :
    (fs.freeSectors = ∅ ∧ fs.allocateInode true = some (fs, none)) ∨
      ∃ sec mid, fs.allocateInode true = some (mid.spawn sec, some mid.heapTop) ∧
        Took fs own ⟨file, .inode⟩ sec mid := by
  rcases freeMapAllocate_spec ready ⟨file, .inode⟩ (.inl (by simp)) with
    ⟨full, fails⟩ | ⟨sec, mid, takes, took⟩
  · exact .inl ⟨full, by simp [allocateInode, fails]⟩
  · exact .inr ⟨sec, mid, by simp [allocateInode, takes, mallocInode_eq], took⟩

theorem laid_of_empty (fs : Fs) (own : Owner) (file : Nat) (empty : data.nodeLength = 0) :
    fs.Laid own file data := by
  have none_below : ∀ i, ¬ i < data.sectors := by
    intro i below
    simp only [InodeDisk.sectors, divRoundUp, blockSectorSize, empty] at below
    omega
  refine ⟨⟨by omega, ?_, ?_⟩, ?_, ?_⟩
  · intro i below
    exact (none_below i below).elim
  · intro i below
    exact (none_below i below).elim
  · intro i below
    exact (none_below i below).elim
  · intro i below
    exact (none_below i below).elim

/-- The state with a new inode, and the inode that it is to be linked to changed. -/
def joined (fs : Fs) (sector : Nat) (prev : Ref) (changed : Inode) : Fs :=
  (fs.spawn sector).setInode prev changed

section Link

variable {prev : Ref} {sec : Nat} (changed : Inode)
  (grow : Growing file fs own prev node)
  (took : Took fs own ⟨file, .inode⟩ sec mid)

include grow took

theorem inodes_joined :
    (mid.joined sec prev changed).inodes fs.heapTop = some (mid.blankInode sec) ∧
      (mid.joined sec prev changed).inodes prev = some changed ∧
      ∀ o, o ≠ prev → o ≠ fs.heapTop → (mid.joined sec prev changed).inodes o = fs.inodes o := by
  have heapTop : mid.heapTop = fs.heapTop := by rw [took.state]
  have below := grow.lt_heapTop
  simp only [joined, spawn, setInode, heapTop]
  refine ⟨?_, update_self _ _ _, ?_⟩
  · rw [update_of_ne (ne_of_gt below), update_self]
  · intro o ne fresh
    rw [update_of_ne ne, update_of_ne fresh, took.state]

omit grow in
theorem heapTop_joined : (mid.joined sec prev changed).heapTop = fs.heapTop + 1 := by
  change mid.heapTop + 1 = _
  rw [took.state]

theorem growing_joined : Growing file (mid.joined sec prev changed)
      (update own sec ⟨file, .inode⟩) fs.heapTop (mid.blankInode sec) := by
  obtain ⟨held, held_prev, others⟩ := inodes_joined changed grow took
  have map_file : mid.freeMapFile = fs.freeMapFile := by rw [took.state]
  have inodes : mid.inodes = fs.inodes := by rw [took.state]
  have owned := took.owned grow.ready
  have change : Changed mid (mid.joined sec prev changed) sec := ⟨rfl, fun _ _ => rfl⟩
  refine ⟨grow.foreign.imp_right map_file.trans,
    (took.allocated_iff grow.ready).mpr (.inl grow.head), ?_, ?_, held, ?_, owned,
    laid_of_empty _ _ _ rfl, ?_⟩
  · refine change.ready took.ready (grow.foreign.imp_right map_file.trans) owned ?_
    intro o is_file
    obtain ⟨below, ne⟩ := grow.file_lt (map_file.symm.trans is_file)
    rw [others o ne (Nat.ne_of_lt below), inodes]
  · intro o above
    rw [heapTop_joined changed took] at above
    rw [others o (ne_of_gt (lt_trans grow.lt_heapTop above)) (ne_of_gt above)]
    exact grow.fresh o (le_of_lt above)
  · intro is_file
    exact lt_irrefl _ (grow.file_lt (map_file.symm.trans is_file)).1
  · exact ⟨by simp [blankInode], by simp [blankInode], by simp [blankInode],
      by simp [blankInode, inodeMagic]⟩

theorem grows_joined : Grows fs own (mid.joined sec prev changed)
      (update own sec ⟨file, .inode⟩) fun _ => False := by
  have change : Changed mid (mid.joined sec prev changed) sec := ⟨rfl, fun _ _ => rfl⟩
  refine (took.grows grow.ready).trans (change.grows _) ?_
  rintro o taken rfl
  exact took.new grow.ready taken

variable {last : Fs}

/-- The previous inode after the new one has been grown, and then freed or linked. -/
theorem Extended.link (ext : Extended file (mid.joined sec prev changed)
      (update own sec ⟨file, .inode⟩) fs.heapTop (mid.blankInode sec) last owner' node')
    (fields : changed = { node with
        next := changed.next
        data := { node.data with doubleptr := changed.data.doubleptr } })
    (state : s' = { last with disk := s'.disk, inodes := s'.inodes })
    (disk : ∀ other, other ≠ node.sector → s'.disk other = last.disk other)
    (inodes : ∀ other, other ≠ fs.heapTop → s'.inodes other = last.inodes other)
    (current : ∀ here, s'.inodes fs.heapTop = some here → Spare fs s' owner' file here)
    (next : changed.next = node.next ∨ changed.next = some fs.heapTop)
    (linked : changed.data.doubleptr = node.data.doubleptr ∨
      ∃ linked, s'.Chain owner' file changed.data.doubleptr linked ∧
        ∀ other ∈ linked, ¬ fs.Allocated other) :
    Extended file fs own prev node s' owner' changed := by
  obtain ⟨_, held_prev, others⟩ := inodes_joined changed grow took
  have below := grow.lt_heapTop
  have joined_heap : (mid.joined sec prev changed).heapTop = fs.heapTop + 1 :=
    heapTop_joined changed took
  have last_heap : s'.heapTop = last.heapTop := by rw [state]
  have heap : fs.heapTop < s'.heapTop := by
    have more := ext.heap
    rw [joined_heap] at more
    rw [last_heap]
    exact more
  have new : ¬ fs.Allocated sec := took.new grow.ready
  have change : Changed last s' node.sector := ⟨by rw [state], disk⟩
  have start := grows_joined changed grow took
  have grown : Grows fs own last owner' fun _ => False := by
    refine start.trans ext.grows ?_
    intro other taken same
    rw [show other = sec from same] at taken
    exact new taken
  have grows : Grows fs own s' owner' fun other => other = node.sector :=
    (grown.mono fun _ _ => False.elim).trans (change.grows owner') fun _ _ => id
  have map_file : last.freeMapFile = fs.freeMapFile := grown.mapFile
  have held : s'.inodes prev = some changed := by
    rw [inodes prev (Nat.ne_of_lt below), ext.others prev ?_ (Nat.ne_of_lt below), held_prev]
    rw [joined_heap]
    exact lt_succ_of_lt below
  have old : ∀ other < fs.heapTop, other ≠ prev → s'.inodes other = fs.inodes other := by
    intro other other_below ne
    rw [inodes other (Nat.ne_of_lt other_below), ext.others other ?_ (Nat.ne_of_lt other_below),
      others other ne (Nat.ne_of_lt other_below)]
    rw [joined_heap]
    exact lt_succ_of_lt other_below
  have data : changed.data = { node.data with doubleptr := changed.data.doubleptr } := by
    rw [fields]
  refine ⟨grows, ?_, ?_, le_of_lt heap, ?_, held, old, ?_, ?_, ?_, ?_, ?_, ?_, ?_, ?_, ?_, linked⟩
  · refine change.ready ext.ready (grow.foreign.imp_right map_file.trans)
      (grown.owned grow.owned) ?_
    intro other is_file
    rw [map_file] at is_file
    exact inodes other (Nat.ne_of_lt (grow.file_lt is_file).1)
  · rw [state, ext.rest]
    simp only [joined, spawn, setInode]
    rw [took.state]
  · intro other above
    rw [inodes other (ne_of_gt (lt_of_lt_of_le heap above))]
    exact ext.fresh other (last_heap ▸ above)
  · intro other here above is_held
    rcases eq_or_lt_of_le above with rfl | past
    · exact current here is_held
    · rw [inodes other (ne_of_gt past)] at is_held
      have spare := ext.created other here (by rw [joined_heap]; exact past) is_held
      refine ((spare.later (change.grows owner') ?_ (le_of_eq last_heap.symm)).earlier
        start.allocated ?_)
      · rintro changed_sector rfl
        exact start.allocated _ grow.owned.1
      · rw [joined_heap]
        exact le_succ _
  · rw [fields]
  · rw [data]
  · rw [data]
    exact ⟨grow.fits.fileLength, grow.fits.prevLength, grow.fits.nodeLength, grow.fits.magic⟩
  · rw [data]
    refine Laid.congr (grows.keeps.laid_of_untouched grow.foreign ?_ grow.laid) rfl
      (fun _ _ => rfl) (le_refl _)
    rintro other block rfl
    cases grow.owned.2.symm.trans block.2
  · rw [data]
  · intro i _
    rw [data]
  · intro i past inside
    rw [data] at inside
    exact (not_lt.mpr past inside).elim
  · refine next.imp_right ?_
    intro is_next
    exact ⟨fs.heapTop, is_next, le_refl _, heap⟩

end Link

theorem Extended.setInode {o : Ref} {changed : Inode}
    (grown : Extended file fs own r node s' owner' node')
    (ne : o ≠ r) (below : o < fs.heapTop)
    (not_file : fs.freeMapFile ≠ some o) :
    Extended file (fs.setInode o changed) own r node (s'.setInode o changed) owner' node' := by
  have same : Grows s' owner' (s'.setInode o changed) owner' fun _ => False :=
    ⟨rfl, rfl, fun _ => id, fun _ _ => rfl, fun _ _ _ _ => rfl⟩
  have grows := grown.grows
  refine ⟨⟨grows.size, grows.mapFile, grows.allocated, grows.tags, grows.disk⟩, ?_, ?_,
    grown.heap, ?_, ?_, ?_, ?_, grown.fields, grown.header, grown.fits,
    same.keeps.laid (fun _ _ => rfl) grown.laid, grown.longer, grown.kept, grown.zeros,
    grown.next, ?_⟩
  · refine grown.ready.frame rfl rfl rfl (fun _ _ => rfl) ?_ fun _ _ _ _ _ _ => rfl
    intro file_inode is_file
    refine update_of_ne ?_ _ _
    rintro rfl
    exact not_file (grows.mapFile.symm.trans is_file)
  · simp only [Fs.setInode]
    rw [grown.rest]
  · intro free above
    refine (update_of_ne ?_ _ _).trans (grown.fresh free above)
    exact ne_of_gt (lt_of_lt_of_le below (le_trans grown.heap above))
  · exact (update_of_ne (Ne.symm ne) _ _).trans grown.held
  · intro free free_below apart
    change update s'.inodes o (some changed) free = update fs.inodes o (some changed) free
    simp only [update_apply, grown.others free free_below apart]
  · intro free here above is_held
    have apart : free ≠ o := ne_of_gt (lt_of_lt_of_le below above)
    change update s'.inodes o (some changed) free = some here at is_held
    rw [update_of_ne apart] at is_held
    obtain ⟨closed, prev, next, chain⟩ :=
      (grown.created free here above is_held).later same (fun _ => False.elim) (le_refl _)
    exact ⟨closed, prev, next, chain⟩
  · refine grown.linked.imp_right ?_
    rintro ⟨link, chain, new⟩
    exact ⟨link, same.keeps.chain chain fun _ _ => id, new⟩

theorem chain_of_image {sec : Nat} {linked : List Nat} (small : fs.size ≤ 2 ^ 14)
    (owned : fs.Owned own ⟨file, .inode⟩ sec) (later : sec ≠ file)
    (image : fs.disk sec = data.toBlock) (fits : data.Fits) (prev : data.prevLength = 0)
    (blocks : fs.Blocks own file data) (rest : fs.Chain own file data.doubleptr linked) :
    fs.Chain own file (ptrSetExist (ptrCreate sec)) (sec :: linked) := by
  have addr : ptrGetAddress (ptrSetExist (ptrCreate sec)) = sec :=
    ptrGetAddress_setExist_create (lt_of_lt_of_le owned.1.1 small)
  have same : (fs.inodeAt sec).Same data := by
    unfold inodeAt
    rw [image]
    exact InodeDisk.same_ofBlock_toBlock fits
  have bound := InodeDisk.sectors_le blocks.bounded
  have link : fs.Link own file sec := by
    refine ⟨owned, later, same.prevLength.trans prev, blocks.congr same.nodeLength ?_⟩
    intro i below
    exact same.blockptrs i (lt_of_lt_of_le below bound)
  have chain := @Chain.cons fs own file (ptrSetExist (ptrCreate sec)) linked
    (ptrExists_setExist _) (by rw [addr]; exact link)
    (by rw [addr, same.doubleptr]; exact rest)
  rw [addr] at chain
  exact chain

/-! ## The recursion -/

/-- How `inode_extend_link` ends: it may find no sector for a block of the inode itself, or none for
what comes after the inode, or it succeeds. -/
inductive Outcome (fs : Fs) (node : Inode) (bytesLeft length : Nat) (s' : Fs) (node' : Inode) :
    Option Ref → Prop
  | full (disk : s'.disk node.sector = fs.disk node.sector)
      (data : node'.data =
        { node.data with
          nodeLength := node'.data.nodeLength
          blockptrs := node'.data.blockptrs })
      (next : node'.next = node.next) : Outcome fs node bytesLeft length s' node' none
  | cut
      (disk : s'.disk node.sector =
        { node'.data with doubleptr := node.data.doubleptr }.toBlock)
      (fileLength : node'.data.fileLength = length)
      (long : 124416 < node'.data.nodeLength) : Outcome fs node bytesLeft length s' node' none
  | done {tail : Ref} (disk : s'.disk node.sector = node'.data.toBlock)
      (fileLength : node'.data.fileLength = length)
      (reach : node'.data.nodeLength = node.data.nodeLength + bytesLeft ∨
        124416 < node'.data.nodeLength) :
      Outcome fs node bytesLeft length s' node' (some tail)

theorem Outcome.image {left len : Nat} {tail : Option Ref}
    (out : Outcome fs node left len s' node' tail)
    (grown : Extended file fs own r node s' owner' node')
    (growing : Growing file fs own r node)
    (s : fs.disk node.sector = node.data.toBlock)
    (gone : ptrExists node.data.doubleptr = false) :
    ∃ data link, s'.disk node.sector = data.toBlock ∧ data.Fits ∧
      data.prevLength = node.data.prevLength ∧ s'.Blocks owner' file data ∧
      s'.Chain owner' file data.doubleptr link ∧
      (∀ sec ∈ link, ¬ fs.Allocated sec) ∧ (tail ≠ none → data = node'.data) := by
  have header := grown.header
  have prev : node'.data.prevLength = node.data.prevLength := by rw [header]
  have fits := grown.fits
  cases out with
  | full disk _ _ =>
    exact ⟨node.data, [], disk.trans s, growing.fits, rfl,
      grown.grows.keeps.blocks growing.laid.blocks, .nil gone, by simp, by simp⟩
  | cut disk _ _ =>
    refine ⟨{ node'.data with doubleptr := node.data.doubleptr }, [], disk,
      ⟨fits.fileLength, fits.prevLength, fits.nodeLength, fits.magic⟩, prev,
      grown.laid.blocks.congr rfl fun _ _ => rfl, .nil gone, by simp, by simp⟩
  | done disk _ _ =>
    rcases grown.linked with same | ⟨link, chain, new⟩
    · exact ⟨node'.data, [], disk, fits, prev, grown.laid.blocks,
        .nil (by rw [same]; exact gone), by simp, fun _ => rfl⟩
    · exact ⟨node'.data, link, disk, fits, prev, grown.laid.blocks, chain, new, fun _ => rfl⟩

/-- What a call of `inode_extend_link` has done, how it ended and how many sectors it took. -/
structure Grew (file : Nat) (fs : Fs) (own : Owner) (r : Ref) (node : Inode)
    (bytesLeft length : Nat) (s' : Fs) (owner' : Owner) (node' : Inode) (tail : Option Ref)
    (used : Nat) : Prop where
  extended : Extended file fs own r node s' owner' node'
  outcome : Outcome fs node bytesLeft length s' node' tail
  exhausted : tail = none → s'.freeSectors = ∅
  card : s'.freeSectors.card + used = fs.freeSectors.card
  cost : 512 * used ≤ 2 * bytesLeft + 1022
  idle : bytesLeft = 0 → used = 0

/-- A full inode has taken no more sectors than its bytes need. -/
theorem Filled.cost_of_full {togo left count : Nat}
    (filled : Filled file fs own data togo s' owner' data' left count) (more : 0 < left)
    (full : data'.sectors = 244 ∧ (data'.nodeLength = 124928 ∨ data' = data)) :
    512 * count ≤ togo - left := by
  have balance := filled.balance
  have cost := filled.cost
  have exactly := filled.exactly
  have bound := data.nodeLength_le
  obtain ⟨sectors, long | rfl⟩ := full
  · have inside := InodeDisk.sectors_mono filled.longer
    omega
  · omega

section Link

variable {prev : Ref} {sec : Nat} (changed : Inode) {last : Fs}
  (grow : Growing file fs own prev node)
  (took : Took fs own ⟨file, .inode⟩ sec mid)
  (extended : Extended file (mid.joined sec prev changed)
    (update own sec ⟨file, .inode⟩) fs.heapTop (mid.blankInode sec)
    last owner' node')

include grow took extended

theorem Extended.freed (fields : changed = { node with
        next := changed.next
        data := { node.data with doubleptr := changed.data.doubleptr } })
    (next : changed.next = node.next ∨ changed.next = some fs.heapTop)
    (linked : changed.data.doubleptr = node.data.doubleptr ∨
      ∃ linked, last.Chain owner' file changed.data.doubleptr linked ∧
        ∀ o ∈ linked, ¬ fs.Allocated o) :
    Extended file fs own prev node (last.free fs.heapTop) owner' changed := by
  have same : Grows last owner' (last.free fs.heapTop) owner' fun _ => False :=
    ⟨rfl, rfl, fun _ => id, fun _ _ => rfl, fun _ _ _ _ => rfl⟩
  refine Extended.link changed grow took extended fields rfl (fun _ _ => rfl)
    (fun o ne => update_of_ne ne _ _) ?_ next ?_
  · intro here held
    change update last.inodes fs.heapTop none fs.heapTop = some here at held
    rw [update_self] at held
    cases held
  · refine linked.imp_right ?_
    rintro ⟨linked, chain, new⟩
    exact ⟨linked, same.keeps.chain chain fun _ _ => id, new⟩

/-- What the previous inode holds on the device is not touched. -/
theorem Extended.prev_disk : last.disk node.sector = fs.disk node.sector := by
  have start := grows_joined changed grow took
  have apart : node.sector ≠ sec := by
    intro same
    exact took.new grow.ready (same ▸ grow.owned.1)
  have tag : update own sec ⟨file, .inode⟩ node.sector ≠ ⟨freeMapSector, .block⟩ := by
    rw [update_of_ne apart, grow.owned.2]
    simp
  rw [extended.grows.disk node.sector (start.allocated _ grow.owned.1) apart (.inl tag),
    start.disk node.sector grow.owned.1 id (.inl (by rw [grow.owned.2]; simp))]

end Link

@[simp] theorem size_setInode (fs : Fs) (r : Ref) (node : Inode) :
    (fs.setInode r node).size = fs.size := rfl

section Recursion

variable {prev : Ref} {sec left length used : Nat} {tail : Option Ref} {current : Inode}
  {next last : Fs} (changed : Inode)
  (grow : Growing file fs own prev node)
  (took : Took fs own ⟨file, .inode⟩ sec mid)
  (joined : Extended file (mid.joined sec prev changed)
    (update own sec ⟨file, .inode⟩) fs.heapTop (mid.blankInode sec)
    next owner' current)
  (image : next.disk sec = current.data.toBlock)
  (unlinked : ptrExists current.data.doubleptr = false)
  (grew : Grew file next owner' fs.heapTop current left length last owner'' node' tail used)

include grow took joined image unlinked grew

/-- The new inode, as it is on the device after the recursive call, and what is linked to it. -/
theorem Grew.chain : ∃ data linked, last.disk sec = data.toBlock ∧
      last.Chain owner'' file data.doubleptr linked ∧
      last.Chain owner'' file (ptrSetExist (ptrCreate sec)) (sec :: linked) ∧
      (∀ o ∈ sec :: linked, ¬ fs.Allocated o) ∧ (tail ≠ none → data = node'.data) := by
  have growing_joined := growing_joined changed grow took
  have growing_next := joined.growing growing_joined
  have start := grows_joined changed grow took
  have same : current.sector = sec := joined.sector
  have new := took.new grow.ready
  have later : sec ≠ file := by
    rintro rfl
    exact new grow.head
  have owned : last.Owned owner'' ⟨file, .inode⟩ sec := by
    have old := growing_next.owned
    rw [same] at old
    exact grew.extended.grows.owned old
  obtain ⟨data, linked, written, fits, prev_length, blocks, chain, unallocated, is_data⟩ :=
    grew.outcome.image grew.extended growing_next (by rw [same]; exact image) unlinked
  rw [same] at written
  have header : current.data.prevLength = 0 := by
    rw [joined.header]
    rfl
  refine ⟨data, linked, written, chain, ?_, ?_, is_data⟩
  · exact chain_of_image grew.extended.ready.small owned later written fits
      (prev_length.trans header) blocks chain
  · intro o mem taken
    rcases List.mem_cons.mp mem with rfl | in_rest
    · exact new taken
    · exact unallocated o in_rest (joined.grows.allocated o (start.allocated o taken))

/-- The previous inode is linked to the new one, and both are written. -/
theorem Extended.closed (ended : tail ≠ none) (fields : changed = { node with
        next := some fs.heapTop
        data := { node.data with doubleptr := ptrSetExist (ptrCreate sec) } }) :
    Extended file fs own prev node { last.setInode fs.heapTop node' with
        disk := update (update last.disk node.sector changed.data.toBlock) sec
          node'.data.toBlock }
      owner'' changed := by
  obtain ⟨data, linked, written, chain, whole, unallocated, is_data⟩ :=
    Grew.chain changed grow took joined image unlinked grew
  obtain rfl := is_data ended
  have growing_joined := growing_joined changed grow took
  have start := grows_joined changed grow took
  have both := joined.trans grew.extended growing_joined
  have apart : node.sector ∉ sec :: linked := by
    intro mem
    exact unallocated _ mem grow.owned.1
  obtain ⟨s', is_after⟩ : ∃ s', s' = { last.setInode fs.heapTop node' with
        disk := update (update last.disk node.sector changed.data.toBlock) sec
          node'.data.toBlock } := ⟨_, rfl⟩
  have disk : ∀ other, other ≠ node.sector → s'.disk other = last.disk other := by
    intro other ne
    rw [is_after]
    simp only [update_apply, if_neg ne]
    split
    · next same => rw [same, written]
    · rfl
  have change : Changed last s' node.sector := ⟨by rw [is_after]; rfl, disk⟩
  rw [← is_after]
  refine Extended.link changed grow took both (by rw [fields]) (by rw [is_after]; rfl) disk ?_ ?_
    (.inr (by rw [fields])) (.inr ?_)
  · intro other ne
    rw [is_after]
    exact update_of_ne ne _ _
  · intro present is_held
    rw [is_after] at is_held
    change update last.inodes fs.heapTop (some node') fs.heapTop = some present at is_held
    rw [update_self] at is_held
    cases is_held
    refine ⟨?_, ?_, ?_, ?_⟩
    · rw [both.fields]
      exact Int.le_refl _
    · rw [both.header]
      rfl
    · intro other is_next
      rcases both.next with unlinked_still | ⟨found, is_found, above, top⟩
      · rw [unlinked_still] at is_next
        cases is_next
      · obtain rfl := Option.some.inj (is_found.symm.trans is_next)
        rw [heapTop_joined changed took] at above
        refine ⟨le_of_lt above, ?_⟩
        rw [is_after]
        exact top
    · refine ⟨linked, (change.grows owner'').keeps.chain chain ?_, ?_⟩
      · rintro other mem rfl
        exact apart (List.mem_cons_of_mem _ mem)
      · exact fun other mem => unallocated other (List.mem_cons_of_mem _ mem)
  · rw [fields]
    refine ⟨sec :: linked, (change.grows owner'').keeps.chain whole ?_, unallocated⟩
    rintro other mem rfl
    exact apart mem

end Recursion

/-- The second half of `inode_extend_link`, if the recursive call does what it should. -/
theorem linkNext_spec {extend : Fs → Ref → Nat → Option (Fs × Option Ref)} {prev : Ref}
    {rem len : Nat} (growing : Growing file fs own prev node)
    (image : fs.disk node.sector = node.data.toBlock) (fileLength : node.data.fileLength = len)
    (pos : 0 < rem)
    (extends_next : ∀ {fs : Fs} {own : Owner} {r : Ref} {node : Inode} (left : Nat),
      Growing file fs own r node → node.data.fileLength = len → left < rem →
        ∃ s' owner' node' tail used, extend fs r left = some (s', tail) ∧
          Grew file fs own r node left len s' owner' node' tail used) :
    ∃ s' owner' node' tail used, linkNext extend fs prev rem len = some (s', tail) ∧
      Extended file fs own prev node s' owner' node' ∧
      node'.data = { node.data with doubleptr := node'.data.doubleptr } ∧
      (tail = none → s'.freeSectors = ∅ ∧ s'.disk node.sector = node.data.toBlock) ∧
      (tail ≠ none → s'.disk node.sector = node'.data.toBlock) ∧
      s'.freeSectors.card + used = fs.freeSectors.card ∧ 512 * used ≤ 2 * rem + 1022 := by
  have small : len < 2 ^ 32 := fileLength ▸ growing.fits.fileLength
  rcases allocateInode_spec growing.ready file with
    ⟨full, fails⟩ | ⟨sec, mid, takes, took⟩
  · exact ⟨fs, own, node, none, 0, by simp [linkNext, fails], .refl growing, rfl,
      fun _ => ⟨full, image⟩, by simp, rfl, by omega⟩
  have heapTop : mid.heapTop = fs.heapTop := by rw [took.state]
  have below := growing.lt_heapTop
  have unchanged : mid.joined sec prev node = mid.spawn sec := by
    have held : (mid.spawn sec).inodes prev = some node := by
      have apart : prev ≠ mid.heapTop := heapTop ▸ Nat.ne_of_lt below
      simp only [spawn, update_of_ne apart]
      rw [took.state]
      exact growing.held
    simp only [joined, setInode, ← held, update_eq_self]
  have growing_new := growing_joined node growing took
  rw [unchanged] at growing_new
  obtain ⟨last, owner', data, left, filled, count, fills, done, works, fails⟩ :=
    inodeFill_spec growing_new.foreign growing_new.ready growing_new.held growing_new.owned.1.1
      growing_new.laid rem len
  have taken := took.card
  have card : last.freeSectors.card + count = mid.freeSectors.card := done.card
  cases filled with
  | false =>
    obtain ⟨empty, more, cost⟩ := fails rfl
    have ext := Extended.of_failed growing_new done
    rw [← unchanged] at ext
    refine ⟨(last.setInode fs.heapTop { mid.blankInode sec with data }).free fs.heapTop,
      owner', node, none, count + 1, ?_, .freed node growing took ext rfl (.inl rfl) (.inl rfl),
      rfl, ?_, by simp, ?_, by omega⟩
    · simp [linkNext, takes, heapTop, fills]
    · intro _
      have kept := Extended.prev_disk node growing took ext
      exact ⟨empty, kept.trans image⟩
    · change last.freeSectors.card + (count + 1) = _
      omega
  | true =>
    obtain ⟨cur, is_current⟩ : ∃ cur, cur =
        { mid.blankInode sec with data := { data with fileLength := len } } := ⟨_, rfl⟩
    obtain ⟨changed, is_new⟩ : ∃ changed, changed = { node with
          next := some fs.heapTop
          data := { node.data with doubleptr := ptrSetExist (ptrCreate sec) } } := ⟨_, rfl⟩
    have stored := Extended.of_stored growing_new done (zero_le len) small
    rw [← is_current] at stored
    have fresh_heap : prev < (mid.spawn sec).heapTop := by
      change prev < mid.heapTop + 1
      rw [heapTop]
      exact Nat.lt_succ_of_lt below
    have joined := @Extended.setInode _ _ _ _ _ _ _ _ prev changed stored (Nat.ne_of_lt below)
      fresh_heap (by rw [show (mid.spawn sec).freeMapFile = fs.freeMapFile by
        simp only [spawn]; rw [took.state]]; exact growing.other)
    have growing_joined := growing_joined changed growing took
    have growing_next := Extended.growing joined growing_joined
    obtain ⟨next, is_next⟩ : ∃ next, next =
        (last.store fs.heapTop cur).setInode prev changed := ⟨_, rfl⟩
    rw [← is_next] at growing_next joined
    have next_image : next.disk sec = cur.data.toBlock := by
      rw [is_next, is_current]
      exact update_self _ _ _
    have gone : ptrExists cur.data.doubleptr = false := by
      have zero : cur.data.doubleptr = 0 := by
        rw [is_current, done.fields]
        rfl
      rw [zero]
      exact ptrExists_zero
    -- a new inode that is not enough has been filled from end to end
    have gap : 0 < left → left + 124928 ≤ rem := by
      intro more
      have balance := done.balance
      have blank : (mid.blankInode sec).data.nodeLength = 0 := rfl
      have none_yet : (mid.blankInode sec).data.sectors = 0 := by
        simp [InodeDisk.sectors, divRoundUp, blank]
      rcases works rfl with finished | ⟨full, long | same⟩
      · omega
      · omega
      · rw [same] at full
        omega
    have left_lt : left < rem := by omega
    have held_current : (last.store fs.heapTop cur).inodes fs.heapTop = some cur := stored.held
    have held_prev : (last.store fs.heapTop cur).inodes prev = some node := by
      rw [stored.others prev fresh_heap (Nat.ne_of_lt below), ← unchanged]
      exact (inodes_joined node growing took).2.1
    have eq_sec : cur.sector = sec := stored.sector
    rw [if_pos rfl, ← is_current] at fills
    obtain ⟨final, owner'', node', tail, used, runs, grew⟩ :=
      extends_next left growing_next (by rw [is_current]) left_lt
    rw [is_next, is_new] at runs
    have used_card : final.freeSectors.card + used = last.freeSectors.card := by
      have := grew.card
      rw [is_next] at this
      exact this
    have cost : 512 * (count + used + 1) ≤ 2 * rem + 1022 := by
      have fst := done.cost
      have rest := grew.cost
      rcases Nat.eq_zero_or_pos left with rfl | more
      · have := grew.idle rfl
        omega
      · have full := done.cost_of_full more ((works rfl).resolve_left (ne_of_gt more))
        have gap := gap more
        omega
    have both := joined.trans grew.extended growing_joined
    cases tail with
    | none =>
      obtain ⟨_, link, _, _, whole, unallocated, _⟩ :=
        Grew.chain changed growing took joined next_image gone grew
      refine ⟨final.free fs.heapTop, owner'', changed, none, count + used + 1, ?_,
        .freed changed growing took both (by rw [is_new]) (.inr (by rw [is_new]))
          (.inr ⟨sec :: link, by rw [is_new]; exact whole, unallocated⟩),
        by rw [is_new], ?_, by simp, ?_, cost⟩
      · simp [linkNext, takes, heapTop, fills, held_current, held_prev, eq_sec, runs]
      · intro _
        have kept := Extended.prev_disk changed growing took both
        exact ⟨grew.exhausted rfl, kept.trans image⟩
      · change final.freeSectors.card + (count + used + 1) = _
        omega
    | some tail =>
      have final_prev : final.inodes prev = some changed := by
        rw [both.others prev ?_ (Nat.ne_of_lt below)]
        · exact (inodes_joined changed growing took).2.1
        · exact fresh_heap
      have final_length : node'.data.fileLength = len := by
        cases grew.outcome with
        | done _ len _ => exact len
      have final_sector : node'.sector = sec := both.sector
      have same_data : { node'.data with fileLength := node.data.fileLength } = node'.data := by
        rw [fileLength, ← final_length]
      have on_device : ∀ o, fs.Allocated o → o < final.size := by
        intro o alloc
        have grown := both.grows.allocated o ((grows_joined changed growing took).allocated o alloc)
        exact grown.1
      have new_on_device : node'.sector < final.size := (both.growing growing_joined).owned.1.1
      have prev_on_device := on_device _ growing.owned.1
      refine ⟨_, owner'', changed, some fs.heapTop, count + used + 1, ?_,
        .closed changed growing took joined next_image gone grew (by simp) is_new,
        by rw [is_new], by simp, ?_, ?_, cost⟩
      · simp [linkNext, takes, heapTop, fills, held_current, held_prev, eq_sec, runs,
          final_prev, both.held, blockWrite, is_new, same_data, new_on_device, prev_on_device]
        rw [final_sector]
        rfl
      · intro _
        have apart : node.sector ≠ sec := by
          intro same
          exact took.new growing.ready (same ▸ growing.owned.1)
        change update (update final.disk _ _) sec _ node.sector = _
        rw [update_of_ne apart, update_self]
      · change final.freeSectors.card + (count + used + 1) = _
        omega

/-- `inode_extend_link` returns, and fails only when no free sector is left. -/
theorem extendLink_spec (fuel : Nat) {prev : Ref} {rem len : Nat}
    (growing : Growing file fs own prev node) (longer : node.data.fileLength ≤ len)
    (small : len < 2 ^ 32) (enough : rem < fuel) : ∃ s' owner' node' tail used,
      extendLink fuel fs prev rem len = some (s', tail) ∧
        Grew file fs own prev node rem len s' owner' node' tail used := by
  induction fuel generalizing fs own prev node rem with
  | zero => omega
  | succ fuel ih =>
    obtain ⟨mid, owner', data, left, filled, count, fills, done, works, fails⟩ :=
      inodeFill_spec growing.foreign growing.ready growing.held growing.owned.1.1 growing.laid
        rem len
    have card := done.card
    have cost := done.cost
    have idle := done.idle
    have less := done.less
    cases filled with
    | false =>
      obtain ⟨empty, _, _⟩ := fails rfl
      have kept : mid.disk node.sector = fs.disk node.sector :=
        done.grows.disk _ growing.owned.1 id (.inl (by rw [growing.owned.2]; simp))
      exact ⟨mid.setInode prev { node with data }, owner', { node with data }, none, count,
        by simp [extendLink, fills], .of_failed growing done, .full kept done.fields rfl,
        fun _ => empty, card, by omega, fun nothing => (idle nothing).2⟩
    | true =>
      have stored := Extended.of_stored growing done longer small
      obtain ⟨fst, is_fst⟩ : ∃ fst, fst =
          { node with data := { data with fileLength := len } } := ⟨_, rfl⟩
      rw [if_pos rfl] at fills
      rw [← is_fst] at stored fills
      have image : (mid.store prev fst).disk node.sector = fst.data.toBlock := by
        rw [is_fst]
        exact update_self _ _ _
      have reach : fst.data.nodeLength + left = node.data.nodeLength + rem := by
        rw [is_fst]
        exact done.balance
      rcases Nat.eq_zero_or_pos left with rfl | more
      · refine ⟨mid.store prev fst, owner', fst, some prev, count,
          by simp [extendLink, fills], stored, .done image (by rw [is_fst]) (.inl reach),
          by simp, card, by omega, fun nothing => (idle nothing).2⟩
      have full := (works rfl).resolve_left (Nat.ne_of_gt more)
      have full_cost := done.cost_of_full more full
      have long : 124416 < fst.data.nodeLength := by
        have sectors := full.1
        rw [is_fst]
        change 124416 < data.nodeLength
        simp only [InodeDisk.sectors, divRoundUp, blockSectorSize] at sectors
        omega
      have growing_first := stored.growing growing
      obtain ⟨s', owner'', node', tail, used, runs, rest, data', failed, ended, rest_card,
        rest_cost⟩ :=
        @linkNext_spec _ _ _ _ (fun fs prev rem => extendLink fuel fs prev rem len)
          prev left len growing_first (by rw [stored.sector]; exact image) (by rw [is_fst])
          more fun below next_growing next_length less => ih next_growing
            (Nat.le_of_eq next_length) (by omega)
      have whole := stored.trans rest growing
      rw [stored.sector] at failed ended
      have final_length : node'.data.fileLength = len := by
        rw [data', is_fst]
      have final_long : 124416 < node'.data.nodeLength := by
        rw [data']
        exact long
      have rest_card : s'.freeSectors.card + used = mid.freeSectors.card := rest_card
      refine ⟨s', owner'', node', tail, count + used, ?_, whole, ?_,
        fun nothing => (failed nothing).1, by omega, by omega, by omega⟩
      · simp [extendLink, fills, Nat.ne_of_gt more, runs]
      · cases tail with
        | none =>
          refine .cut ?_ final_length final_long
          rw [(failed rfl).2, data', is_fst, done.fields]
        | some tail => exact .done (ended (by simp)) final_length (.inr final_long)

end Fs

end Pintos.Filesys
