import Pintos.Filesys.Ownership

/-!
# Growing a file

`inode_fill` and `inode_extend_link` only ever take free sectors.  Each new data block is zeroed
before it is linked, so that a file keeps its bytes and grows by zeros, and everything that
belongs to another file stays as it is.
-/

namespace Pintos.Filesys

open Function Nat

namespace Fs

variable {fs s' : Fs} {owner owner' : Owner} {file : Nat} {data data' : InodeDisk}

/-! ## One inode -/

/-- What the loop of `inode_fill` has done after taking `count` sectors. -/
structure Filled (file : Nat) (fs : Fs) (owner : Owner) (data : InodeDisk) (bytesLeft : Nat)
    (s' : Fs) (owner' : Owner) (data' : InodeDisk) (left count : Nat) : Prop where
  state : s' = { fs with disk := s'.disk, freeMap := s'.freeMap }
  grows : Grows fs owner s' owner' fun _ => False
  ready : s'.Ready owner'
  laid : s'.Laid owner' file data'
  fields : data' = { data with nodeLength := data'.nodeLength, blockptrs := data'.blockptrs }
  kept : ∀ i < data.sectors, data'.blockptrs i = data.blockptrs i
  zeros : ∀ i, data.sectors ≤ i → i < data'.sectors → s'.disk (data'.block i) = Buffer.zeros
  idle : bytesLeft = 0 → data' = data ∧ count = 0
  less : left ≤ bytesLeft
  balance : data'.nodeLength + left = data.nodeLength + bytesLeft
  card : s'.freeSectors.card + count = fs.freeSectors.card
  cost : 512 * count ≤ bytesLeft - left + 511
  added : ∀ sector, s'.Allocated sector → fs.Allocated sector ∨
    ∃ i, data.sectors ≤ i ∧ i < data.sectors + count ∧ data'.block i = sector
  exactly : 512 * data.sectors < data.nodeLength + bytesLeft → data'.sectors = data.sectors + count

theorem Filled.refl (ready : fs.Ready owner) (laid : fs.Laid owner file data) (left : Nat) :
    Filled file fs owner data left fs owner data left 0 where
  state := rfl
  grows := .refl fs owner _
  ready
  laid
  fields := rfl
  kept _ _ := rfl
  zeros _ past below := (not_lt.mpr past below).elim
  idle _ := ⟨rfl, rfl⟩
  less := le_refl _
  balance := rfl
  card := rfl
  cost := by omega
  added _ allocated := .inl allocated
  exactly _ := rfl

theorem InodeDisk.sectors_add {data data' : InodeDisk} {added : Nat}
    (len : data'.nodeLength = data.nodeLength + added)
    (small : added ≤ (data.sectors + 1) * 512 - data.nodeLength) :
    data.sectors ≤ data'.sectors ∧ data'.sectors ≤ data.sectors + 1 ∧
      (512 * data.sectors < data.nodeLength + added → data'.sectors = data.sectors + 1) := by
  simp only [InodeDisk.sectors, divRoundUp, blockSectorSize] at small ⊢
  rw [len]
  omega

theorem added_cases {left diff added : Nat} (pos : 0 < left) (wide : 0 < diff)
    (amount : added = if left < diff then left else diff) :
    0 < added ∧ added ≤ left ∧ added ≤ diff ∧ (left - added = 0 ∨ added = diff) := by
  split at amount <;> omega

/-- A node with one more block. -/
def linkBlock (data : InodeDisk) (sector added : Nat) : InodeDisk :=
  { data with
    blockptrs := update data.blockptrs data.sectors (ptrSetExist (ptrCreate sector))
    nodeLength := data.nodeLength + added }

section Round

variable {sector added : Nat} {mid : Fs}

theorem block_linkBlock_self (small : sector < 2 ^ 14) :
    (linkBlock data sector added).block data.sectors = sector := by
  simp only [InodeDisk.block, linkBlock, update_self]
  exact ptrGetAddress_setExist_create small

theorem block_linkBlock_of_ne {i : Nat} (o : i ≠ data.sectors) :
    (linkBlock data sector added).block i = data.block i := by
  simp only [InodeDisk.block, linkBlock, update_of_ne o]

/-- The state after one round of the loop of `inode_fill`. -/
def zeroed (mid : Fs) (sector : Nat) : Fs :=
  { mid with disk := update mid.disk sector Buffer.zeros }

variable (foreign : file ≠ freeMapSector ∨ fs.freeMapFile = none) (ready : fs.Ready owner)
  (took : Took fs owner ⟨file, .block⟩ sector mid)

include foreign ready took

theorem ready_zeroed : (zeroed mid sector).Ready (update owner sector ⟨file, .block⟩) := by
  refine took.ready.frame rfl rfl rfl (fun _ _ => rfl) (fun _ _ => rfl) ?_
  intro inode is_file role other owned _
  refine update_of_ne ?_ _ _
  rintro rfl
  have tag := (took.owned ready).2.symm.trans owned.2
  rcases foreign with ne | closed
  · exact ne (Tag.mk.inj tag).1
  · rw [took.state] at is_file
    rw [show fs.freeMapFile = some inode from is_file] at closed
    cases closed

omit foreign in
theorem grows_zeroed : Grows fs owner (zeroed mid sector) (update owner sector ⟨file, .block⟩)
      fun _ => False := by
  have grows := took.grows ready
  refine ⟨grows.size, grows.mapFile, grows.allocated, grows.tags, ?_⟩
  intro o taken clean foreign_tag
  refine (update_of_ne ?_ _ _).trans (grows.disk o taken clean foreign_tag)
  rintro rfl
  exact took.new ready taken

theorem laid_linkBlock (laid : fs.Laid owner file data) (room : data.sectors < 244)
    (small : added ≤ (data.sectors + 1) * 512 - data.nodeLength) :
    (zeroed mid sector).Laid (update owner sector ⟨file, .block⟩) file
      (linkBlock data sector added) := by
  have grows := grows_zeroed ready took
  have below : sector < 2 ^ 14 :=
    Nat.lt_of_lt_of_le (ready.mem_freeSectors.mp took.free).1 ready.small
  have len : (linkBlock data sector added).nodeLength = data.nodeLength + added := rfl
  obtain ⟨_, most, _⟩ := InodeDisk.sectors_add len small
  have cases_of : ∀ i < (linkBlock data sector added).sectors,
      i = data.sectors ∨ i < data.sectors := by
    intro i indexed
    omega
  have old : ∀ i < data.sectors, data.block i ≠ sector := by
    rintro i indexed rfl
    exact took.new ready (laid.blocks.owned i indexed).1
  refine ⟨⟨?_, ?_, ?_⟩, ?_, ?_⟩
  · have bound := data.nodeLength_le
    rw [len]
    omega
  · intro i indexed
    rcases cases_of i indexed with rfl | was
    · simp [linkBlock]
    · simp only [linkBlock, update_of_ne (Nat.ne_of_lt was)]
      exact laid.blocks.inPlace i was
  · intro i indexed
    rcases cases_of i indexed with rfl | was
    · rw [block_linkBlock_self below]
      exact took.owned ready
    · rw [block_linkBlock_of_ne (Nat.ne_of_lt was)]
      exact grows.owned (laid.blocks.owned i was)
  · intro fst fst_lt snd snd_lt eq
    rcases cases_of fst fst_lt with rfl | was <;> rcases cases_of snd snd_lt with rfl | before'
    · rfl
    · rw [block_linkBlock_self below, block_linkBlock_of_ne (Nat.ne_of_lt before')] at eq
      exact (old snd before' eq.symm).elim
    · rw [block_linkBlock_self below, block_linkBlock_of_ne (Nat.ne_of_lt was)] at eq
      exact (old fst was eq).elim
    · rw [block_linkBlock_of_ne (Nat.ne_of_lt was),
        block_linkBlock_of_ne (Nat.ne_of_lt before')] at eq
      exact laid.distinct fst was snd before' eq
  · intro i indexed pos inside past
    rcases cases_of i indexed with rfl | was
    · rw [block_linkBlock_self below]
      simp only [zeroed, update_self]
      rfl
    · rw [block_linkBlock_of_ne (Nat.ne_of_lt was)]
      have owned := laid.blocks.owned i was
      have same : (zeroed mid sector).disk (data.block i) = fs.disk (data.block i) := by
        refine grows.disk _ owned.1 id (foreign.imp_left ?_)
        intro ne
        simp [owned.2, ne]
      rw [same]
      exact laid.clear i was pos inside past

theorem Filled.round {togo left count : Nat} (pos : 0 < togo)
    (amount : added = if togo < (data.sectors + 1) * 512 - data.nodeLength then togo
      else (data.sectors + 1) * 512 - data.nodeLength)
    (rest : Filled file (zeroed mid sector) (update owner sector ⟨file, .block⟩)
      (linkBlock data sector added) (togo - added) s' owner' data' left count) :
    Filled file fs owner data togo s' owner' data' left (count + 1) := by
  have bound := data.nodeLength_le
  -- the loop goes on only after a whole block has been added
  obtain ⟨moved, within, small, whole⟩ := added_cases pos (by omega) amount
  have length : (linkBlock data sector added).nodeLength = data.nodeLength + added := rfl
  obtain ⟨least, most, next⟩ := InodeDisk.sectors_add length small
  have below : sector < 2 ^ 14 := lt_of_lt_of_le (ready.mem_freeSectors.mp took.free).1 ready.small
  have balance := rest.balance
  have cost := rest.cost
  have less := rest.less
  have last : data'.block data.sectors = sector := by
    rcases lt_or_ge data.sectors (linkBlock data sector added).sectors with inside | out
    · unfold InodeDisk.block
      rw [rest.kept _ inside]
      exact block_linkBlock_self below
    · have idle := rest.idle (by
        rcases whole with ended | full
        · exact ended
        · have := next (by omega)
          omega)
      rw [idle.1]
      exact block_linkBlock_self below
  refine ⟨?_, (grows_zeroed ready took).trans rest.grows fun _ _ => id, rest.ready, rest.laid, ?_, ?_,
    ?_, ?_, ?_, ?_, ?_, ?_, ?_, ?_⟩
  · rw [rest.state]
    simp only [zeroed]
    rw [took.state]
  · rw [rest.fields]
    rfl
  · intro i indexed
    rw [rest.kept i (by omega)]
    exact update_of_ne (Nat.ne_of_lt indexed) _ _
  · intro i past indexed
    rcases lt_or_ge i (linkBlock data sector added).sectors with inside | out
    · obtain rfl : i = data.sectors := by omega
      have owned := took.owned ready
      rw [last, rest.grows.disk sector owned.1 id]
      · exact update_self _ _ _
      · refine foreign.imp (fun ne => ?_) fun closed => ?_
        · simp [ne]
        · rw [(grows_zeroed ready took).mapFile]
          exact closed
    · exact rest.zeros i out indexed
  · intro nothing
    omega
  · omega
  · rw [length] at balance
    omega
  · have card := rest.card
    have taken := took.card
    have same : (zeroed mid sector).freeSectors = mid.freeSectors := rfl
    rw [same] at card
    omega
  · rcases whole with ended | full
    · have idle := (rest.idle ended).2
      omega
    · omega
  · intro o used
    rcases rest.added o used with was | ⟨i, above, indexed, found⟩
    · rcases (took.allocated_iff ready).mp was with old | rfl
      · exact .inl old
      · exact .inr ⟨data.sectors, Nat.le_refl _, by omega, last⟩
    · exact .inr ⟨i, by omega, by omega, found⟩
  · intro long
    rcases whole with ended | full
    · obtain ⟨rfl, rfl⟩ := rest.idle ended
      rw [next (by omega)]
    · have one := next (by omega)
      rcases Nat.eq_zero_or_pos (togo - added) with ended | more
      · obtain ⟨rfl, rfl⟩ := rest.idle ended
        rw [one]
      · have rest_exact := rest.exactly (by rw [one, length]; omega)
        omega

end Round

/-- The loop of `inode_fill`: it ends when nothing is left or the node is full, and fails only for
lack of free sectors. -/
theorem fillLoop_spec (alien : file ≠ freeMapSector ∨ fs.freeMapFile = none)
    (ready : fs.Ready owner) (laid : fs.Laid owner file data) (room togo : Nat)
    (align : togo = 0 ∨ room = 244 - data.sectors) : ∃ s' owner' data' left filled count,
      fillLoop room fs data togo = some (s', data', left, filled) ∧
      Filled file fs owner data togo s' owner' data' left count ∧
      (filled = true → left = 0 ∨
        data'.sectors = 244 ∧ (data'.nodeLength = 124928 ∨ data' = data)) ∧
      (filled = false → s'.freeSectors = ∅ ∧ 0 < left ∧ 512 * count ≤ togo - left) := by
  induction room generalizing fs owner data togo with
  | zero =>
    refine ⟨fs, owner, data, togo, true, 0, rfl, .refl ready laid togo, ?_, by simp⟩
    intro _
    have most := InodeDisk.sectors_le laid.blocks.bounded
    refine align.imp_right ?_
    intro full
    exact ⟨by omega, .inr rfl⟩
  | succ room ih =>
    rcases Nat.eq_zero_or_pos togo with rfl | pos
    · exact ⟨fs, owner, data, 0, true, 0, by simp [fillLoop], .refl ready laid 0, by simp, by simp⟩
    have i : 244 - (room + 1) = data.sectors := by
      have most := InodeDisk.sectors_le laid.blocks.bounded
      omega
    have free_tag : (⟨file, .block⟩ : Tag) ≠ ⟨freeMapSector, .block⟩ ∨ fs.freeMapFile = none := by
      refine alien.imp_left ?_
      intro ne same
      exact ne (Tag.mk.inj same).1
    rcases freeMapAllocate_spec ready ⟨file, .block⟩ free_tag with
      ⟨full, fails⟩ | ⟨sec, mid, takes, took⟩
    · refine ⟨fs, owner, data, togo, false, 0, ?_, .refl ready laid togo, by simp, ?_⟩
      · simp [fillLoop, Nat.ne_of_gt pos, fails]
      · intro _
        exact ⟨full, pos, by omega⟩
    · obtain ⟨added, amount⟩ : ∃ added, added =
          if togo < (data.sectors + 1) * 512 - data.nodeLength then togo
          else (data.sectors + 1) * 512 - data.nodeLength := ⟨_, rfl⟩
      have bound := data.nodeLength_le
      obtain ⟨_, _, small, whole⟩ := added_cases pos (by omega) amount
      have len : (linkBlock data sec added).nodeLength = data.nodeLength + added := rfl
      obtain ⟨_, _, next⟩ := InodeDisk.sectors_add len small
      have below : sec < mid.size := by
        rw [took.state]
        exact (ready.mem_freeSectors.mp took.free).1
      have still : file ≠ freeMapSector ∨ (zeroed mid sec).freeMapFile = none := by
        refine alien.imp_right ?_
        intro closed
        simp only [zeroed]
        rw [took.state]
        exact closed
      obtain ⟨s', owner', data', left, filled, count, runs, rest, works, fails⟩ :=
        ih still (ready_zeroed alien ready took)
          (laid_linkBlock alien ready took laid (by omega) small) (togo - added)
          (whole.imp_right fun full => by
            have := next (by omega)
            omega)
      refine ⟨s', owner', data', left, filled, count + 1, ?_,
        Filled.round alien ready took pos amount rest, ?_, ?_⟩
      · rw [← runs]
        simp only [fillLoop, if_neg (Nat.ne_of_gt pos), takes, Option.bind_eq_bind,
          Option.bind_some, blockWrite, if_pos below, nodeCapacity, blockSectorSize, i]
        rw [← amount]
        rfl
      · intro ok
        rcases works ok with done | ⟨full, long | rfl⟩
        · exact .inl done
        · exact .inr ⟨full, .inl long⟩
        · have balance := rest.balance
          rcases whole with ended | whole_block
          · exact .inl (by omega)
          · have one := next (by omega)
            exact .inr ⟨full, .inl (by rw [len]; omega)⟩
      · intro failed
        obtain ⟨full, more, cost⟩ := fails failed
        have less := rest.less
        exact ⟨full, more, by omega⟩

/-! ## A whole inode -/

/-- An inode in memory is changed and written to its sector. -/
def store (fs : Fs) (inode : Ref) (node : Inode) : Fs :=
  { fs.setInode inode node with
    disk := update fs.disk node.sector node.data.toBlock }

/-- `inode_fill` writes the inode unless the loop has failed. -/
theorem inodeFill_spec {inode : Ref} {node : Inode}
    (alien : file ≠ freeMapSector ∨ fs.freeMapFile = none) (ready : fs.Ready owner)
    (held : fs.inodes inode = some node) (fits : node.sector < fs.size)
    (laid : fs.Laid owner file node.data) (togo len : Nat) :
    ∃ mid owner' data left filled count, fs.inodeFill inode togo len = some (if filled then
              mid.store inode { node with data := { data with fileLength := len } }
            else
              mid.setInode inode { node with data },
            left, filled) ∧
      Filled file fs owner node.data togo mid owner' data left count ∧
      (filled = true → left = 0 ∨
        data.sectors = 244 ∧ (data.nodeLength = 124928 ∨ data = node.data)) ∧
      (filled = false → mid.freeSectors = ∅ ∧ 0 < left ∧ 512 * count ≤ togo - left) := by
  obtain ⟨mid, owner', data, left, filled, count, runs, done, works, fails⟩ :=
    fillLoop_spec alien ready laid (244 - node.data.sectors) togo (.inr rfl)
  refine ⟨mid, owner', data, left, filled, count, ?_, done, works, fails⟩
  have below : node.sector < mid.size := by
    rw [done.state]
    exact fits
  cases filled with
  | false => simp [inodeFill, held, runs]
  | true => simp [inodeFill, held, runs, blockWrite, setInode, below, store]

end Fs

end Pintos.Filesys
