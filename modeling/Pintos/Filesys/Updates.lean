import Pintos.Filesys.Calls

/-!
# Writing to files

`inode_write_at` grows the file if it has to and then replaces bytes of it.  It is a write to the
flat file, or it fails for lack of free sectors and leaves a flat file that at most has become
longer by zeros.
-/

namespace Pintos.Filesys

open Function Option Nat

namespace Fs

variable {fs s' : Fs} {own owner' : Owner} {file : Nat} {inode : Ref} {node node' : Inode}
  {data data' : InodeDisk} {files : Set Nat} {view : OpenView}

/-! ## The image of an inode -/

theorem Head.same (head : fs.Head own file data) (same : data'.Same data) (fits : data'.Fits) :
    fs.Head own file data' := by
  have bound := InodeDisk.sectors_le head.blocks.bounded
  refine ⟨head.toLaid.congr same.nodeLength ?_ (le_of_eq same.fileLength.symm), fits,
    same.prevLength.trans head.prev, ?_⟩
  · intro i below
    exact same.blockptrs i (lt_of_lt_of_le below bound)
  · rw [same.doubleptr]
    exact head.chain

theorem stored_of_image (owned : fs.Owned own ⟨file, .inode⟩ file)
    (image : fs.disk file = data.toBlock) (head : fs.Head own file data)
    (covered : data.Covered) : fs.Stored own file ∧ (fs.inodeAt file).Same data := by
  have same : (fs.inodeAt file).Same data := by
    unfold inodeAt
    rw [image]
    exact InodeDisk.same_ofBlock_toBlock head.fits
  refine ⟨⟨owned, head.same same (InodeDisk.fits_ofBlock _), ?_⟩, same⟩
  unfold InodeDisk.Covered
  rw [same.fileLength, same.nodeLength]
  exact covered

theorem InodeDisk.Same.agrees (same : data'.Same data) (bounded : data.nodeLength ≤ 124928) :
    data'.Agrees data := by
  have sectors : data'.sectors = data.sectors := by
    unfold InodeDisk.sectors
    rw [same.nodeLength]
  have bound := InodeDisk.sectors_le bounded
  refine ⟨same.fileLength, same.self, le_of_eq sectors, ?_⟩
  intro i below
  rw [sectors] at below
  exact same.blockptrs i (lt_of_lt_of_le below bound)

/-! ## Growing an open file -/

theorem Sound.growing (sound : fs.Sound own files)
    (here : fs.Present own files file view node) : Growing file fs own view.ref node where
  __ := sound
  foreign := .inl (sound.ne_mapSector here.named)
  head := here.stored.owned.1
  held := here.listed.2
  other := here.notMap
  owned := by
    rw [here.sector]
    exact here.stored.owned
  laid := by
    rw [← here.sector]
    exact here.opened.head.toLaid
  fits := here.opened.head.fits

section Growth

variable {bytesLeft length used : Nat} {tail : Option Ref}

section

variable (grown : Extended file fs own inode node s' owner' node')
include grown

/-- The first inode of a file, as growth leaves it in memory. -/
theorem Extended.head (head : fs.Head own file node.data) (sector : node.sector = file) :
    s'.Head owner' file node'.data where
  toLaid := grown.laid
  fits := grown.fits
  prev := by
    rw [grown.header]
    exact head.prev
  chain := by
    rcases grown.linked with same | ⟨linked, chain, _⟩
    · obtain ⟨linked, chain⟩ := head.chain
      rw [same]
      refine ⟨linked, grown.grows.keeps.chain chain ?_⟩
      intro other mem is_file
      exact (chain.link mem).later (is_file.trans sector)
    · exact ⟨linked, chain⟩

theorem Extended.disk_block (growing : Growing file fs own inode node) {i : Nat}
    (below : i < node.data.sectors) :
    s'.disk (node'.data.block i) = fs.disk (node.data.block i) := by
  have owned := growing.laid.blocks.owned i below
  have apart : node.data.block i ≠ node.sector := by
    intro same
    have tag := growing.owned.2
    rw [← same, owned.2] at tag
    cases tag
  rw [show node'.data.block i = node.data.block i by
    unfold InodeDisk.block
    rw [grown.kept i below]]
  refine grown.grows.disk _ owned.1 apart (growing.foreign.imp_left ?_)
  intro ne
  simp [owned.2, ne]

theorem Extended.contentOf (grows : Growing file fs own inode node)
    (covered : node.data.Covered) (covered' : node'.data.Covered)
    (more : node.data.fileLength ≤ node'.data.fileLength) :
    s'.contentOf node'.data = (fs.contentOf node.data).extend node'.data.fileLength := by
  apply FlatFile.ext
  · exact (max_eq_right more).symm
  · funext pos
    change (if _ then _ else _) = (if _ then _ else _)
    by_cases inside : pos < node'.data.fileLength ∧ pos < 124928
    · rw [if_pos inside]
      have i := InodeDisk.Covered.div_lt covered' grown.laid.blocks.bounded inside.1 inside.2
      unfold byte
      rcases lt_or_ge (pos / 512) node.data.sectors with old | new
      · rw [grown.disk_block grows old]
        split
        · rfl
        · next outside =>
            exact grows.laid.clear _ old _ (mod_lt _ (by omega)) (by omega)
      · rw [grown.zeros _ new i, if_neg]
        · rfl
        · intro was
          have := InodeDisk.Covered.div_lt covered grows.laid.blocks.bounded was.1 was.2
          omega
    · rw [if_neg inside, if_neg (by omega)]

end

/-- What growth has made of the flat file. -/
inductive Grown (fs : Fs) (file length : Nat) (s' : Fs) : Option Ref → Prop
  | full (content : s'.content file = fs.content file) : Grown fs file length s' none
  | cut (content : s'.content file = (fs.content file).extend length) : Grown fs file length s' none
  | done {tail : Ref} (content : s'.content file = (fs.content file).extend length) :
      Grown fs file length s' (some tail)

section Image

variable (grown : Extended file fs own inode node s' owner' node')
  (growing : Growing file fs own inode node) (sector : node.sector = file)
  (stored : fs.Stored own file) (opened : fs.Opened own node)

include grown sector opened

/-- An open inode that has grown, if it agrees with what the device holds. -/
theorem Extended.opened_of_agrees (covered : node'.data.Covered)
    (agrees : (s'.inodeAt file).Agrees node'.data) : s'.Opened owner' node' := by
  have same : node'.sector = file := grown.sector.trans sector
  have fields := grown.fields
  refine ⟨?_, ?_, ?_, covered, ?_⟩
  · rw [fields]
    exact opened.counted
  · rw [fields]
    exact opened.writable
  · rw [same]
    exact grown.head (sector ▸ opened.head) sector
  · rw [same]
    exact agrees

include growing stored

/-- The file after its inode has been written, with what follows it or without. -/
theorem Extended.written {image : InodeDisk}
    (image_eq : image = { node'.data with doubleptr := image.doubleptr })
    (disk : s'.disk file = image.toBlock) (head : s'.Head owner' file image)
    (covered : node'.data.Covered) (more : node.data.fileLength ≤ node'.data.fileLength) :
    s'.Stored owner' file ∧ s'.Opened owner' node' ∧
      s'.content file = (fs.content file).extend node'.data.fileLength := by
  have owned := grown.grows.owned stored.owned
  have fileLength : image.fileLength = node'.data.fileLength := by rw [image_eq]
  have nodeLength : image.nodeLength = node'.data.nodeLength := by rw [image_eq]
  have self : image.self = node'.data.self := by rw [image_eq]
  have blockptrs : image.blockptrs = node'.data.blockptrs := by rw [image_eq]
  have image_covered : image.Covered := by
    unfold InodeDisk.Covered
    rw [fileLength, nodeLength]
    exact covered
  obtain ⟨is_stored, same⟩ := stored_of_image owned disk head image_covered
  have agrees := InodeDisk.Same.agrees same head.blocks.bounded
  have sectors : image.sectors = node'.data.sectors := by
    unfold InodeDisk.sectors
    rw [nodeLength]
  have is_opened := grown.opened_of_agrees sector opened covered
    ⟨agrees.fileLength.trans fileLength, agrees.self.trans self, sectors ▸ agrees.sectors,
      fun i below => by rw [agrees.blockptrs i below, blockptrs]⟩
  refine ⟨is_stored, is_opened, ?_⟩
  rw [is_opened.content_eq (grown.sector.trans sector) is_stored, opened.content_eq sector stored,
    grown.contentOf growing opened.covered covered more]

theorem Extended.unwritten (disk : s'.disk file = fs.disk file)
    (fileLength : node'.data.fileLength = node.data.fileLength) :
    s'.Stored owner' file ∧ s'.Opened owner' node' ∧ s'.content file = fs.content file := by
  have same : s'.inodeAt file = fs.inodeAt file := by
    unfold inodeAt
    rw [disk]
  have longer := grown.longer
  have agrees := opened.agrees
  rw [sector] at agrees
  have self : node'.data.self = node.data.self := by rw [grown.header]
  have covered : node'.data.Covered := by
    have was_covered := opened.covered
    unfold InodeDisk.Covered at was_covered ⊢
    omega
  have more := InodeDisk.sectors_mono longer
  have is_stored : s'.Stored owner' file := by
    refine ⟨grown.grows.owned stored.owned, ?_, ?_⟩
    · rw [same]
      refine grown.grows.keeps.head growing.foreign ?_ stored.head
      rintro o role is_owned which rfl
      rcases which with rfl | apart
      · cases is_owned.2.symm.trans growing.owned.2
      · exact apart sector
    · rw [same]
      exact stored.covered
  have is_opened := grown.opened_of_agrees sector opened covered (by
    rw [same]
    refine ⟨agrees.fileLength.trans fileLength.symm, agrees.self.trans self.symm,
      le_trans agrees.sectors more, ?_⟩
    intro i below
    rw [agrees.blockptrs i below, grown.kept i (lt_of_lt_of_le below agrees.sectors)])
  refine ⟨is_stored, is_opened, ?_⟩
  rw [is_opened.content_eq (grown.sector.trans sector) is_stored, opened.content_eq sector stored,
    grown.contentOf growing opened.covered covered (le_of_eq fileLength.symm), fileLength]
  apply FlatFile.ext
  · exact max_self _
  · rfl

end Image

theorem Grew.image (grew : Grew file fs own inode node bytesLeft length s' owner' node' tail used)
    (growing : Growing file fs own inode node) (sec : node.sector = file)
    (stored : fs.Stored own file) (opened : fs.Opened own node)
    (amount : node.data.fileLength + bytesLeft = length) :
    s'.Stored owner' file ∧ s'.Opened owner' node' ∧ Grown fs file length s' tail := by
  have grown := grew.extended
  have was_head : fs.Head own file node.data := sec ▸ opened.head
  have head := grown.head was_head sec
  cases grew.outcome with
  | full disk data next =>
    rw [sec] at disk
    obtain ⟨is_stored, is_opened, content⟩ :=
      grown.unwritten growing sec stored opened disk (by rw [data])
    exact ⟨is_stored, is_opened, .full content⟩
  | cut disk fileLength long =>
    rw [sec] at disk
    obtain ⟨linked, chain⟩ := was_head.chain
    have kept : ∀ o ∈ linked, o ≠ node.sector := fun o mem is_file =>
      (chain.link mem).later (is_file.trans sec)
    have image_head : s'.Head owner' file { node'.data with doubleptr := node.data.doubleptr } :=
      ⟨head.toLaid.congr rfl (fun _ _ => rfl) (le_refl _),
        ⟨head.fits.fileLength, head.fits.prevLength, head.fits.nodeLength, head.fits.magic⟩,
        head.prev, linked, grown.grows.keeps.chain chain kept⟩
    obtain ⟨is_stored, is_opened, content⟩ := grown.written growing sec stored opened rfl
      disk image_head (.inr long) (by omega)
    exact ⟨is_stored, is_opened, .cut (fileLength ▸ content)⟩
  | done disk fileLength reach =>
    rw [sec] at disk
    have covered : node'.data.Covered := by
      have was_covered := opened.covered
      have more := grown.longer
      unfold InodeDisk.Covered at was_covered ⊢
      omega
    obtain ⟨is_stored, is_opened, content⟩ := grown.written growing sec stored opened rfl
      disk head covered (by omega)
    exact ⟨is_stored, is_opened, .done (fileLength ▸ content)⟩

theorem Sound.grown (sound : fs.Sound own files) (here : fs.Present own files file view node)
    (grew : Grew file fs own view.ref node bytesLeft length s' owner' node' tail used)
    (amount : node.data.fileLength + bytesLeft = length) : s'.Sound owner' files ∧ s'.opens =
        update fs.opens file (some { view with next := node'.next }) ∧
      Ages fs s' ∧ Grown fs file length s' tail := by
  have grown := grew.extended
  obtain ⟨is_stored, is_opened, content⟩ :=
    grew.image (sound.growing here) here.sector here.stored here.opened amount
  obtain ⟨sound', ages, opens⟩ := sound.redo here grown.grows
    (fun _ same => .inr (same.trans here.sector)) grown.ready grown.fresh (by rw [grown.rest])
    grown.heap grown.created grown.others grown.held (grown.sector.trans here.sector) grown.next
    is_opened is_stored
  refine ⟨sound', ?_, ages, content⟩
  rw [opens, ← here.isView]
  have fields := grown.fields
  simp only [viewOf]
  rw [fields]

end Growth

/-! ## Replacing bytes -/

section Replace

variable {buf : Buffer} {size ofs : Nat}
  (sound : fs.Sound own files) (present : fs.Present own files file view node)
  (written : Written fs node.data (fun position => buf (position - ofs)) ofs (ofs + size) s')
  (below : ofs + size ≤ node.data.fileLength)

include present written

theorem Written.grows : Grows fs own s' own fun sec => own sec = ⟨file, .block⟩ := by
  have state := written.rest
  refine ⟨by rw [state], by rw [state], ?_, fun _ _ => rfl, ?_⟩
  · intro sec taken
    rw [state]
    exact taken
  · intro sec _ clean _
    refine written.outside sec ?_
    rintro i indexed rfl
    rw [← present.sector] at clean
    exact clean (present.opened.head.blocks.owned i indexed).2

theorem Written.inodeAt : s'.inodeAt file = fs.inodeAt file := by
  refine (Written.grows present written).keeps.inodeAt present.stored.owned ?_
  rw [present.stored.owned.2]
  simp

include below

/-- Blocks that the inode in memory has too keep their zeros past the end of the file. -/
theorem Written.head (agrees : data.Agrees node.data) (head : fs.Head own file data) :
    s'.Head own file data := by
  have keeps := (Written.grows present written).keeps
  refine ⟨⟨keeps.blocks head.blocks, head.distinct, ?_⟩, head.fits, head.prev, ?_⟩
  · intro i indexed pos small past
    have shared := lt_of_lt_of_le indexed agrees.sectors
    have same : data.block i = node.data.block i := by
      unfold InodeDisk.block
      rw [agrees.blockptrs i indexed]
    have clear := head.clear i indexed pos small past
    rw [agrees.fileLength] at past
    rw [same] at clear ⊢
    rw [written.inside i shared pos small, if_neg (by omega)]
    exact clear
  · obtain ⟨linked, chain⟩ := head.chain
    refine ⟨linked, keeps.chain chain ?_⟩
    intro sec mem is_block
    cases (chain.link mem).owned.2.symm.trans is_block

theorem Written.opened : s'.Opened own node := by
  have opened := present.opened
  refine ⟨opened.counted, opened.writable, ?_, opened.covered, ?_⟩
  · rw [present.sector]
    refine Written.head present written below ⟨rfl, rfl, le_refl _, fun _ _ => rfl⟩ ?_
    rw [← present.sector]
    exact opened.head
  · rw [present.sector, Written.inodeAt present written, ← present.sector]
    exact opened.agrees

include sound in
/-- The invariant after bytes of an open file have been replaced. -/
theorem Written.sound_after : s'.Sound own files := by
  have grows := Written.grows present written
  have state := written.rest
  have alien := sound.ne_mapSector present.named
  have agrees := present.opened.agrees
  rw [present.sector] at agrees
  refine (sound.rewrite present grows (fun _ => .inl) ?_ (by rw [state]) (by rw [state]) ?_
    present.sector rfl (Written.opened present written below) ⟨grows.owned present.stored.owned, ?_,
    ?_⟩).1
  · refine sound.ready.frame (by rw [state]) (by rw [state]) (by rw [state]) (fun _ _ => rfl)
      (fun _ _ => by rw [state]) ?_
    intro _ _ role sec owned _
    refine written.outside sec ?_
    rintro i indexed rfl
    have block := (present.opened.head.blocks.owned i indexed).2
    rw [present.sector] at block
    exact alien (Tag.mk.inj (block.symm.trans owned.2)).1
  · rw [state, ← present.listed.2]
    exact (update_eq_self _ _).symm
  · rw [Written.inodeAt present written]
    exact Written.head present written below agrees present.stored.head
  · rw [Written.inodeAt present written]
    exact present.stored.covered

include sound in
theorem Written.content (inside : ofs + size ≤ 124928) :
    s'.content file = (fs.content file).write buf size ofs := by
  have sound' := Written.sound_after sound present written below
  have now := (Written.opened present written below).content_eq present.sector
    (sound'.stored file present.named)
  rw [now, present.content]
  apply FlatFile.ext
  · exact (max_eq_left below).symm
  · funext pos
    change (if _ then _ else _) = if _ then _ else if _ then _ else _
    by_cases here : pos < node.data.fileLength ∧ pos < 124928
    · have i := InodeDisk.Covered.div_lt present.opened.covered
        present.opened.head.blocks.bounded here.1 here.2
      rw [if_pos here, if_pos here]
      unfold byte
      rw [written.inside _ i _ (mod_lt _ (by omega)), div_add_mod]
    · rw [if_neg here, if_neg here, if_neg (by omega)]

end Replace

variable {ofs : Nat}

/-! ## `inode_write_at` -/

/-- What `inode_write_at` has done to the flat file. -/
inductive Wrote (fs : Fs) (file : Nat) (view : OpenView) (buf : Buffer) (size ofs : Nat)
    (s' : Fs) : Nat → Prop
  | done (content : s'.content file = (fs.content file).write buf size ofs)
      (inside : size = 0 ∨ ofs + size ≤ 124928) :
      Wrote fs file view buf size ofs s' size
  | failed (longer : (fs.content file).length < size + ofs)
      (fails : fs.inodeExtendLink view.ref (size + ofs - (fs.content file).length)
        (size + ofs) = some (s', none))
      (content : s'.content file = fs.content file ∨
        s'.content file = (fs.content file).extend (size + ofs))
      (exhausted : s'.freeSectors = ∅)
      (few : 512 * fs.freeSectors.card ≤ 2 * (size + ofs - (fs.content file).length) + 1022) :
      Wrote fs file view buf size ofs s' 0

theorem FlatFile.write_extend (flat : FlatFile) (buf : Buffer) (size ofs : Nat) :
    (flat.extend (size + ofs)).write buf size ofs = flat.write buf size ofs := by
  apply FlatFile.ext
  · simp only [FlatFile.write, FlatFile.extend]
    omega
  · rfl

/-- The invariant and the table of open inodes after an operation on one open file. -/
structure Altered (fs : Fs) (own : Owner) (files : Set Nat) (file : Nat) (view : OpenView)
    (s' : Fs) (owner' : Owner) : Prop where
  sound : s'.Sound owner' files
  grows : Grows fs own s' owner' (Belongs own file)
  ages : Ages fs s'
  opens : ∃ next, s'.opens = update fs.opens file (some { view with next })

variable (sound : fs.Sound own files)
include sound

theorem writeLoop_some (named : file ∈ files) (is_open : fs.opens file = some view)
    {buf : Buffer} {size put : Nat} (below : ofs + size ≤ (fs.content file).length)
    (wrote : writeLoop size fs view.ref buf size ofs 0 = some (s', put)) :
    Altered fs own files file view s' own ∧
      s'.content file = (fs.content file).write buf size ofs ∧ put = size ∧
      s'.freeSectors = fs.freeSectors ∧ (size = 0 ∨ ofs + size ≤ 124928) := by
  obtain ⟨node, here⟩ := sound.present named is_open
  have len := here.length
  rw [len] at below
  have reads := here.opened.head.readable here.opened.covered
  have same_view : update fs.opens file (some { view with next := view.next }) = fs.opens := by
    rw [← is_open]
    exact update_eq_self _ _
  rcases Nat.eq_zero_or_pos size with rfl | pos
  · cases wrote
    refine ⟨⟨sound, .refl _ _ _, .refl _, view.next, same_view.symm⟩, ?_, rfl, rfl, .inl rfl⟩
    apply FlatFile.ext
    · exact (Nat.max_eq_left (by rw [len]; exact below)).symm
    · funext position
      exact (if_neg (by omega)).symm
  rcases Nat.lt_or_ge 124928 (ofs + size) with beyond | inside
  · have m : ∀ o, SameButBlocks fs node.data o → o.Memory := by
      intro o same
      have grows : Grows fs own o own fun sec => own sec = ⟨file, .block⟩ := by
        have state := same.rest
        refine ⟨by rw [state], by rw [state], ?_, fun _ _ => rfl, ?_⟩
        · intro sec taken
          rw [state]
          exact taken
        · intro sec _ clean _
          refine same.outside sec ?_
          rintro i indexed rfl
          rw [← here.sector] at clean
          exact clean (here.opened.head.blocks.owned i indexed).2
      have inodes : o.inodes = fs.inodes := by rw [same.rest]
      refine ⟨?_, ?_, ?_⟩
      · intro inode above
        rw [inodes]
        refine sound.fresh inode ?_
        rw [same.rest] at above
        exact above
      · intro inode cur held
        rw [inodes] at held
        exact (sound.memory inode cur held).prev
      · intro inode cur held goes
        rw [inodes] at held
        obtain ⟨_, _, chain⟩ := (sound.memory inode cur held).chain
        exact (grows.keeps.chain_of_belongs (fun _ => .inl) here.stored.owned.2 chain).headless goes
    rw [writeLoop_beyond here.listed.2 reads m size buf size ofs 0 (Nat.le_refl _)
      (by omega) beyond (by omega)] at wrote
    cases wrote
  obtain ⟨res, runs, new⟩ := @writeLoop_spec fs view.ref node ofs here.listed.2 reads
    here.opened.head.distinct size buf size ofs 0 (Nat.le_refl _) rfl below inside
  rw [runs] at wrote
  obtain ⟨rfl, rfl⟩ := Prod.mk.inj (some.inj wrote)
  have grows := Written.grows here new
  have state := new.rest
  refine ⟨⟨Written.sound_after sound here new below, grows.mono fun _ _ => .inl, ?_, view.next, ?_⟩,
    Written.content sound here new below inside, Nat.zero_add _, ?_, .inr inside⟩
  · have inodes : res.inodes = fs.inodes := by rw [state]
    exact ⟨by rw [state], fun inode _ gone => by rw [inodes]; exact gone, by rw [state],
      fun _ _ => by rw [inodes]⟩
  · rw [same_view]
    unfold opens findOpen holds
    rw [state]
  · rw [state]
    rfl

theorem inodeWriteAt_some (named : file ∈ files) (is_open : fs.opens file = some view)
    {buf : Buffer} {size put : Nat}
    (writes : fs.inodeWriteAt view.ref buf size ofs = some (s', put)) :
    ∃ owner', Altered fs own files file view s' owner' ∧
      Wrote fs file view buf size ofs s' put := by
  obtain ⟨node, here⟩ := sound.present named is_open
  have len := here.length
  simp only [inodeWriteAt, writeAt, here.listed.2, here.opened.writable, bind_eq_bind,
    bind_some, ne_eq, not_true_eq_false, if_false] at writes
  split at writes
  · cases writes
  next small =>
  split at writes
  · next longer =>
      obtain ⟨mid, owner', node', tail, used, runs, grew⟩ := extendLink_spec
        (size + ofs - node.data.fileLength + 1) (sound.growing here) (le_of_lt longer)
        (by omega) (lt_succ_self (size + ofs - node.data.fileLength))
      obtain ⟨sound', opens, ages, grown⟩ := sound.grown here grew (by omega)
      have grows : Grows fs own mid owner' (Belongs own file) :=
        grew.extended.grows.mono fun sec _ same => .inr (same.trans here.sector)
      rw [inodeExtendLink, runs, bind_some] at writes
      cases tail with
      | none =>
        cases writes
        have empty := grew.exhausted rfl
        refine ⟨owner', ⟨sound', grows, ages, _, opens⟩, .failed (by omega) ?_ ?_ empty ?_⟩
        · rw [len]
          exact runs
        · cases grown with
          | full content => exact .inl content
          | cut content => exact .inr content
        · have card := grew.card
          have cost := grew.cost
          rw [empty, Finset.card_empty] at card
          omega
      | some last =>
        have content : mid.content file = (fs.content file).extend (size + ofs) := by
          cases grown with
          | done content => exact content
        have now_open : mid.opens file = some { view with next := node'.next } := by
          rw [opens]
          exact update_self _ _ _
        obtain ⟨new, wrote, rfl, _, inside⟩ := writeLoop_some sound' named now_open
          (by rw [content]; simp only [FlatFile.extend]; omega) writes
        obtain ⟨next, final_opens⟩ := new.opens
        refine ⟨owner', ⟨new.sound, ?_, ages.trans new.ages, next, ?_⟩, .done ?_ inside⟩
        · refine grows.trans new.grows ?_
          intro sec taken belongs
          refine belongs.imp_left fun tag => ?_
          rw [← grows.tags sec taken]
          exact tag
        · rw [final_opens, opens, update_idem]
        · rw [wrote, content]
          exact FlatFile.write_extend _ _ _ _
  · next within =>
      obtain ⟨new, wrote, rfl, _, inside⟩ := writeLoop_some sound named is_open (by omega) writes
      exact ⟨own, new, .done wrote inside⟩

theorem inodeWriteAt_isSome (named : file ∈ files) (is_open : fs.opens file = some view)
    (buf : Buffer) {size : Nat} (inside : ofs + size ≤ 124928) :
    ∃ s' put, fs.inodeWriteAt view.ref buf size ofs = some (s', put) := by
  obtain ⟨node, here⟩ := sound.present named is_open
  have wrote : ∀ {fs : Fs} {own : Owner} {node : Inode} {view : OpenView},
      fs.Present own files file view node → ofs + size ≤ node.data.fileLength →
      ∃ s' put, writeLoop size fs view.ref buf size ofs 0 = some (s', put) := by
    intro fs own node view here below
    have reads := here.opened.head.readable here.opened.covered
    obtain ⟨s', runs, _⟩ := @writeLoop_spec fs view.ref node ofs here.listed.2 reads
      here.opened.head.distinct size buf size ofs 0 (le_refl _) rfl below inside
    exact ⟨s', _, runs⟩
  by_cases more : node.data.fileLength < size + ofs
  · obtain ⟨mid, owner', node', tail, used, runs, grew⟩ := extendLink_spec
      (size + ofs - node.data.fileLength + 1) (sound.growing here) (le_of_lt more)
      (by omega) (lt_succ_self (size + ofs - node.data.fileLength))
    obtain ⟨sound', opens, _, _⟩ := sound.grown here grew (by omega)
    simp only [inodeWriteAt, writeAt, here.listed.2, here.opened.writable,
      bind_eq_bind, bind_some, ne_eq, not_true_eq_false, if_false,
      if_neg (show ¬ 2 ^ 31 ≤ size + ofs by omega), if_pos more, inodeExtendLink, runs]
    cases tail with
    | none => exact ⟨_, _, rfl⟩
    | some last =>
      have now_open : mid.opens file = some { view with next := node'.next } := by
        rw [opens]
        exact update_self _ _ _
      obtain ⟨cur, is_present⟩ := sound'.present named now_open
      obtain rfl : cur = node' := some.inj (is_present.listed.2.symm.trans grew.extended.held)
      have gives := wrote is_present (by
        cases grew.outcome with
        | done _ fileLength _ => omega)
      exact gives
  · simp only [inodeWriteAt, writeAt, here.listed.2, here.opened.writable,
      bind_eq_bind, bind_some, ne_eq, not_true_eq_false, if_false,
      if_neg (show ¬ 2 ^ 31 ≤ size + ofs by omega), if_neg more]
    exact wrote here (by omega)

end Fs

end Pintos.Filesys
