import Pintos.Lib.Execution
import Pintos.Threads.Malloc

/-!
# The integrity of the heap

In any sequence of calls of `malloc` and `free`, the blocks of every arena are split between the
callers and the free list of its descriptor, the counter of the arena is the number of its free
blocks, and an arena is there exactly as long as one of its blocks is in use.
-/

namespace Pintos.Threads

open Function Execution Option List Nat

/-- A block that has been allocated, with the size that was asked for. -/
structure Allocation where
  address : Nat
  size : Nat
  deriving DecidableEq

namespace Heap

/-- The block is one of the blocks of the arena at this page. -/
def Block (heap : Heap) (desc : Desc) (base block : Nat) : Prop :=
  (∃ freeCnt, heap.arenas base = some ⟨some desc, freeCnt⟩) ∧ block ∈ blocks base desc

/-- The page allocator may return this page. -/
def FreshPage (heap : Heap) (base : Nat) : Prop :=
  base % pgSize = 0 ∧ 0 < base ∧ base + pgSize ≤ 2 ^ 32 ∧ heap.arenas base = none

instance (heap : Heap) (base : Nat) : Decidable (heap.FreshPage base) :=
  have : Decidable (heap.arenas base = none) := decidable_of_iff _ isNone_iff_eq_none
  inferInstanceAs (Decidable (_ ∧ _ ∧ _ ∧ _))

/-- The number of blocks of an arena that are on the free list of its descriptor. -/
def freeBlocks (heap : Heap) (desc : Desc) (base : Nat) : Nat :=
  (heap.freeList desc).countP fun block => block ∈ blocks base desc

/-- The arenas, the free lists and the blocks in use fit together. -/
structure Sound (heap : Heap) (live : List Allocation) : Prop where
  arena : ∀ base arena, heap.arenas base = some arena → ∃ desc ∈ descs, arena.desc = some desc ∧
    base % pgSize = 0 ∧ 0 < base
  nodup : ∀ desc, (heap.freeList desc).Nodup
  listed : ∀ desc, ∀ block ∈ heap.freeList desc, ∃ base, heap.Block desc base block
  liveNodup : (live.map Allocation.address).Nodup
  liveBlock : ∀ allocation ∈ live, ∃ desc base, heap.Block desc base allocation.address ∧
    allocation.size ≤ desc.blockSize
  split : ∀ desc base block, heap.Block desc base block →
    (block ∈ heap.freeList desc ↔ block ∉ live.map Allocation.address)
  count : ∀ base desc freeCnt, heap.arenas base = some ⟨some desc, freeCnt⟩ →
    freeCnt = heap.freeBlocks desc base

/-- Every arena has a block in use. -/
def Used (heap : Heap) (live : List Allocation) : Prop :=
  ∀ base arena, heap.arenas base = some arena →
    ∃ allocation ∈ live, pgRoundDown allocation.address = base

variable {heap : Heap} {live : List Allocation} {desc : Desc} {base b : Nat}

/-! ## Blocks and their arenas -/

theorem blockToArena_of_block (mem : desc ∈ descs) (align : base % pgSize = 0) (pos : 0 < base)
    (is_block : heap.Block desc base b) : ∃ freeCnt, heap.arenas base = some ⟨some desc, freeCnt⟩ ∧
      heap.blockToArena b = some (base, ⟨some desc, freeCnt⟩) := by
  obtain ⟨⟨freeCnt, held⟩, within⟩ := is_block
  obtain ⟨i, below, rfl⟩ := mem_blocks.mp within
  have fits := fits_of_mem_descs mem
  obtain ⟨page, ofs⟩ := pgRoundDown_arenaToBlock fits align below
  have inside := Desc.Fits.block_le fits below
  have small : arenaHeader + i * desc.blockSize < 2 ^ 32 :=
    lt_of_le_of_lt (le_of_add_right_le inside) (by decide)
  have divides : sizeSub (pgOfs (arenaToBlock base desc i)) arenaHeader % desc.blockSize = 0 := by
    rw [ofs, sizeSub_of_le (Nat.le_add_right ..) small, Nat.add_sub_cancel_left, mul_mod_left]
  exact ⟨freeCnt, held, blockToArena_eq page (ne_of_gt pos) held divides⟩

theorem page_of_mem_blocks (mem : desc ∈ descs) (align : base % pgSize = 0)
    (within : b ∈ blocks base desc) : pgRoundDown b = base := by
  obtain ⟨i, below, rfl⟩ := mem_blocks.mp within
  exact (pgRoundDown_arenaToBlock (fits_of_mem_descs mem) align below).1

section

variable (sound : heap.Sound live)
include sound

theorem Sound.desc_of_block (is_block : heap.Block desc base b) :
    desc ∈ descs ∧ base % pgSize = 0 ∧ 0 < base := by
  obtain ⟨⟨freeCnt, held⟩, _⟩ := is_block
  obtain ⟨desc', mem, same, align, pos⟩ := sound.arena base _ held
  cases same
  exact ⟨mem, align, pos⟩

theorem Sound.page_of_block (is_block : heap.Block desc base b) : pgRoundDown b = base := by
  obtain ⟨mem, align, _⟩ := sound.desc_of_block is_block
  exact page_of_mem_blocks mem align is_block.2

theorem Sound.blockToArena (is_block : heap.Block desc base b) :
    ∃ freeCnt, heap.arenas base = some ⟨some desc, freeCnt⟩ ∧
      heap.blockToArena b = some (base, ⟨some desc, freeCnt⟩) := by
  obtain ⟨mem, align, pos⟩ := sound.desc_of_block is_block
  exact blockToArena_of_block mem align pos is_block

end

/-! ## Counting free blocks -/

section Counting

variable {list list' blocks : List Nat}

theorem countP_mem_congr (nodup : list.Nodup) (nodup' : list'.Nodup)
    (same : ∀ b ∈ blocks, (b ∈ list ↔ b ∈ list')) :
    list.countP (fun b => b ∈ blocks) = list'.countP (fun b => b ∈ blocks) := by
  rw [countP_eq_length_filter, countP_eq_length_filter]
  refine ((perm_ext_iff_of_nodup (nodup.filter _) (nodup'.filter _)).mpr fun b => ?_).length_eq
  rw [mem_filter, mem_filter]
  exact and_congr_left fun within => same b (of_decide_eq_true within)

theorem countP_mem_le (nodup : list.Nodup) : list.countP (fun b => b ∈ blocks) ≤ blocks.length := by
  rw [countP_eq_length_filter]
  refine ((nodup.filter _).subperm fun b mem => ?_).length_le
  exact of_decide_eq_true (mem_filter.mp mem).2

theorem countP_mem_eq_length_iff (nodup : list.Nodup) (ne : blocks.Nodup) :
    list.countP (fun b => b ∈ blocks) = blocks.length ↔ ∀ b ∈ blocks, b ∈ list := by
  rw [countP_eq_length_filter]
  have inside : (list.filter fun b => b ∈ blocks).Subperm blocks := by
    refine (nodup.filter _).subperm fun b mem => ?_
    exact of_decide_eq_true (mem_filter.mp mem).2
  constructor
  · intro same b mem
    have perm := inside.perm_of_length_le (le_of_eq same.symm)
    exact (mem_filter.mp (perm.mem_iff.mpr mem)).1
  · intro all
    refine le_antisymm inside.length_le (ne.subperm fun b mem => ?_).length_le
    exact mem_filter.mpr ⟨all b mem, decide_eq_true mem⟩

end Counting

variable {freeCnt : Nat}

/-! ## Moving a block -/

/-- The invariant after blocks of one arena have changed hands, or the arena has come or gone. -/
theorem Sound.change {count : Option Nat} {list : List Nat} {live' : List Allocation}
    (sound : heap.Sound live) (mem : desc ∈ descs) (align : base % pgSize = 0) (pos : 0 < base)
    (owner : ∀ arena, heap.arenas base = some arena → arena.desc = some desc) (nodup : list.Nodup)
    (out : ∀ b, b ∉ blocks base desc → (b ∈ list ↔ b ∈ heap.freeList desc))
    (inside : ∀ b ∈ blocks base desc,
      (b ∈ list ↔ count ≠ none ∧ b ∉ live'.map Allocation.address))
    (live_out : ∀ b, b ∉ blocks base desc →
      (b ∈ live'.map Allocation.address ↔ b ∈ live.map Allocation.address))
    (live_nodup : (live'.map Allocation.address).Nodup)
    (sizes : ∀ alloc ∈ live', alloc ∈ live ∨ alloc.address ∈ blocks base desc ∧
      alloc.size ≤ desc.blockSize)
    (used : ∀ alloc ∈ live', alloc.address ∈ blocks base desc → count ≠ none)
    (counted : ∀ freeCnt, count = some freeCnt → freeCnt = list.countP fun b => b ∈ blocks base desc) :
    ((heap.setArena base (count.map fun freeCnt => ⟨some desc, freeCnt⟩)).setFreeList desc
      list).Sound live' := by
  obtain ⟨s', is_after⟩ : ∃ s', s' = (heap.setArena base
    (count.map fun freeCnt => ⟨some desc, freeCnt⟩)).setFreeList desc list := ⟨_, rfl⟩
  have is_list : ∀ desc', s'.freeList desc' =
      if desc' = desc then list else heap.freeList desc' := by
    intro desc'
    rw [is_after]
    exact update_apply ..
  have old_arena : ∀ base', base' ≠ base → s'.arenas base' = heap.arenas base' := by
    intro base' ne
    rw [is_after]
    exact update_of_ne ne _ _
  have new_arena : s'.arenas base = count.map fun freeCnt => ⟨some desc, freeCnt⟩ := by
    rw [is_after]
    exact update_self ..
  have new_block : ∀ b, count ≠ none → b ∈ blocks base desc → s'.Block desc base b := by
    intro b here within
    obtain ⟨freeCnt, is_count⟩ := ne_none_iff_exists'.mp here
    exact ⟨⟨freeCnt, by rw [new_arena, is_count]; rfl⟩, within⟩
  have old_block : ∀ desc' base' b, base' ≠ base → (s'.Block desc' base' b ↔
      heap.Block desc' base' b) := by
    intro desc' base' b ne
    unfold Block
    rw [old_arena base' ne]
  have apart : ∀ {desc' base' b}, heap.Block desc' base' b → base' ≠ base →
      b ∉ blocks base desc := fun is_block ne within =>
    ne ((sound.page_of_block is_block).symm.trans (page_of_mem_blocks mem align within))
  have desc_eq : ∀ {desc' b}, heap.Block desc' base b → desc' = desc := by
    rintro desc' b ⟨⟨freeCnt, held⟩, _⟩
    exact some.inj (owner _ held)
  rw [← is_after]
  refine ⟨fun base' arena held => ?_, fun desc' => ?_, fun desc' b listed => ?_, live_nodup,
    fun alloc is_live => ?_, fun desc' base' b is_block => ?_, fun base' desc' freeCnt held => ?_⟩
  · by_cases same : base' = base
    · rw [same, new_arena] at held
      obtain ⟨freeCnt, _, rfl⟩ := map_eq_some_iff.mp held
      exact ⟨desc, mem, rfl, same ▸ align, same ▸ pos⟩
    · exact sound.arena base' arena (old_arena base' same ▸ held)
  · rw [is_list]
    split
    · exact nodup
    · exact sound.nodup desc'
  · rw [is_list] at listed
    split at listed
    · next same =>
        rw [same]
        by_cases within : b ∈ blocks base desc
        · exact ⟨base, new_block b ((inside b within).mp listed).1 within⟩
        · obtain ⟨base', is_block⟩ := sound.listed desc b ((out b within).mp listed)
          refine ⟨base', (old_block desc base' b ?_).mpr is_block⟩
          rintro rfl
          exact within is_block.2
    · next ne =>
        obtain ⟨base', is_block⟩ := sound.listed desc' b listed
        refine ⟨base', (old_block desc' base' b ?_).mpr is_block⟩
        rintro rfl
        exact ne (desc_eq is_block)
  · rcases sizes alloc is_live with old | ⟨within, fits⟩
    · obtain ⟨desc', base', is_block, fits⟩ := sound.liveBlock alloc old
      refine ⟨desc', base', ?_, fits⟩
      by_cases same : base' = base
      · subst same
        obtain rfl := desc_eq is_block
        exact new_block _ (used alloc is_live is_block.2) is_block.2
      · exact (old_block desc' base' _ same).mpr is_block
    · exact ⟨desc, base, new_block _ (used alloc is_live within) within, fits⟩
  · rw [is_list]
    by_cases same : base' = base
    · subst same
      obtain ⟨⟨freeCnt, held⟩, within⟩ := is_block
      rw [new_arena] at held
      obtain ⟨_, is_count, is_arena⟩ := map_eq_some_iff.mp held
      cases is_arena
      rw [if_pos rfl, inside b within]
      exact and_iff_right (by simp [is_count])
    · rw [old_block desc' base' b same] at is_block
      have alien := apart is_block same
      rw [live_out b alien, ← sound.split desc' base' b is_block]
      split
      · next same_desc =>
          rw [same_desc]
          exact out b alien
      · rfl
  · unfold freeBlocks
    rw [is_list]
    by_cases same : base' = base
    · subst same
      rw [new_arena] at held
      obtain ⟨_, is_count, is_arena⟩ := map_eq_some_iff.mp held
      cases is_arena
      rw [if_pos rfl]
      exact counted freeCnt is_count
    · rw [old_arena base' same] at held
      rw [sound.count base' desc' freeCnt held]
      split
      · next same_desc =>
          subst same_desc
          exact countP_mem_congr (sound.nodup desc') nodup fun b within =>
            (out b (apart ⟨⟨freeCnt, held⟩, within⟩ same)).symm
      · rfl

/-- The invariant after one block has moved between its free list and the blocks in use. -/
theorem Sound.moved {freeCnt' : Nat} {list : List Nat} {live' : List Allocation}
    (sound : heap.Sound live) (held : heap.arenas base = some ⟨some desc, freeCnt⟩)
    (is_block : b ∈ blocks base desc) (nodup : list.Nodup)
    (same_list : ∀ o, o ≠ b → (o ∈ list ↔ o ∈ heap.freeList desc))
    (same_live : ∀ o, o ≠ b → (o ∈ live'.map Allocation.address ↔ o ∈ live.map Allocation.address))
    (here : b ∈ list ↔ b ∉ live'.map Allocation.address)
    (live_nodup : (live'.map Allocation.address).Nodup)
    (sizes : ∀ alloc ∈ live', alloc ∈ live ∨ alloc.address = b ∧ alloc.size ≤ desc.blockSize)
    (counted : freeCnt' = list.countP fun b => b ∈ blocks base desc) :
    ((heap.setArena base (some ⟨some desc, freeCnt'⟩)).setFreeList desc list).Sound live' := by
  obtain ⟨mem, align, pos⟩ := sound.desc_of_block ⟨⟨freeCnt, held⟩, is_block⟩
  have ne : ∀ o, o ∉ blocks base desc → o ≠ b := by
    rintro o out rfl
    exact out is_block
  refine @Sound.change _ _ _ _ (some freeCnt') _ _ sound mem align pos ?_ nodup
    (fun o out => same_list o (ne o out)) ?_ (fun o out => same_live o (ne o out)) live_nodup ?_
    (fun _ _ _ => by simp) ?_
  · intro arena is_arena
    rw [held] at is_arena
    cases is_arena
    rfl
  · intro o within
    rw [and_iff_right (by simp)]
    by_cases same : o = b
    · rw [same]
      exact here
    · rw [same_list o same, same_live o same]
      exact sound.split desc base o ⟨⟨freeCnt, held⟩, within⟩
  · intro alloc is_live
    refine (sizes alloc is_live).imp_right fun new => ⟨?_, new.2⟩
    rw [new.1]
    exact is_block
  · exact fun _ is_count => some.inj is_count ▸ counted

/-- The invariant after the first block of a free list has been taken. -/
theorem Sound.take {size : Nat} {rest : List Nat} (sound : heap.Sound live)
    (is_list : heap.freeList desc = b :: rest)
    (held : heap.arenas base = some ⟨some desc, freeCnt⟩) (is_block : b ∈ blocks base desc)
    (fits : size ≤ desc.blockSize) :
    0 < freeCnt ∧ ((heap.setArena base (some ⟨some desc, freeCnt - 1⟩)).setFreeList desc rest).Sound
      (⟨b, size⟩ :: live) := by
  have nodup := sound.nodup desc
  rw [is_list] at nodup
  obtain ⟨fresh, rest_nodup⟩ := nodup_cons.mp nodup
  have mine : heap.Block desc base b := ⟨⟨freeCnt, held⟩, is_block⟩
  have free : b ∉ live.map Allocation.address :=
    (sound.split desc base b mine).mp (is_list ▸ mem_cons_self ..)
  have count := sound.count base desc freeCnt held
  unfold freeBlocks at count
  rw [is_list, countP_cons_of_pos (by simpa using is_block)] at count
  refine ⟨by omega, sound.moved held is_block rest_nodup (fun o ne => ?_)
    (fun o ne => ?_) ?_ ?_ (fun alloc mem => ?_) (by omega)⟩
  · rw [is_list, mem_cons, or_iff_right ne]
  · rw [map_cons, mem_cons, or_iff_right ne]
  · exact iff_of_false fresh fun absent => absent (mem_cons_self ..)
  · exact nodup_cons.mpr ⟨free, sound.liveNodup⟩
  · rcases mem_cons.mp mem with rfl | old
    · exact .inr ⟨rfl, fits⟩
    · exact .inl old

/-- The blocks in use after one has been freed. -/
def without (live : List Allocation) (address : Nat) : List Allocation :=
  live.filter fun allocation => allocation.address ≠ address

theorem mem_map_without {address o : Nat} : o ∈ (without live address).map Allocation.address ↔
      o ∈ live.map Allocation.address ∧ o ≠ address := by
  simp only [without, List.mem_map, List.mem_filter, decide_eq_true_eq]
  constructor
  · rintro ⟨alloc, ⟨mem, ne⟩, rfl⟩
    exact ⟨⟨alloc, mem, rfl⟩, ne⟩
  · rintro ⟨⟨alloc, mem, rfl⟩, ne⟩
    exact ⟨alloc, ⟨mem, ne⟩, rfl⟩

/-- The invariant after a block in use has been put back on its free list. -/
theorem Sound.give (sound : heap.Sound live) (used : b ∈ live.map Allocation.address)
    (held : heap.arenas base = some ⟨some desc, freeCnt⟩) (is_block : b ∈ blocks base desc) :
    ((heap.setArena base (some ⟨some desc, freeCnt + 1⟩)).setFreeList desc
      (b :: heap.freeList desc)).Sound (without live b) := by
  have mine : heap.Block desc base b := ⟨⟨freeCnt, held⟩, is_block⟩
  have absent : b ∉ heap.freeList desc := fun listed =>
    (sound.split desc base b mine).mp listed used
  have count := sound.count base desc freeCnt held
  unfold freeBlocks at count
  refine sound.moved held is_block (nodup_cons.mpr ⟨absent, sound.nodup desc⟩)
    (fun o ne => ?_) (fun o ne => ?_) ?_ ?_ (fun alloc mem => ?_) ?_
  · rw [mem_cons, or_iff_right ne]
  · rw [mem_map_without, and_iff_left ne]
  · exact iff_of_true (mem_cons_self ..) fun still => (mem_map_without.mp still).2 rfl
  · exact sound.liveNodup.sublist (filter_sublist.map _)
  · exact .inl (mem_filter.mp mem).1
  · rw [countP_cons_of_pos (by simpa using is_block), ← count]

/-! ## Arenas that come and go -/

/-- The invariant after an arena whose blocks are all free has been given back. -/
theorem Sound.drop (sound : heap.Sound live) (held : heap.arenas base = some ⟨some desc, freeCnt⟩)
    (all : ∀ b ∈ blocks base desc, b ∈ heap.freeList desc) :
    ((heap.setArena base none).setFreeList desc
      ((heap.freeList desc).filter fun b => b ∉ blocks base desc)).Sound live := by
  obtain ⟨_, mem, is_desc, align, pos⟩ := sound.arena base _ held
  cases is_desc
  refine @Sound.change _ _ _ _ none _ _ sound mem align pos ?_ ((sound.nodup desc).filter _) ?_ ?_
    (fun _ _ => Iff.rfl) sound.liveNodup (fun _ => .inl) ?_ (by simp)
  · intro arena is_arena
    rw [held] at is_arena
    cases is_arena
    rfl
  · intro b out
    rw [mem_filter]
    exact and_iff_left (decide_eq_true out)
  · intro b within
    simp [within]
  · intro alloc is_live within
    exact ((sound.split desc base _ ⟨⟨freeCnt, held⟩, within⟩).mp (all _ within)
      (mem_map_of_mem is_live)).elim

/-- The invariant after a new arena has been made for an empty free list. -/
theorem Sound.addArena (sound : heap.Sound live) (mem : desc ∈ descs)
    (fresh : heap.FreshPage base) (empty : heap.freeList desc = []) :
    (heap.addArena desc base).Sound live := by
  obtain ⟨align, pos, _, unheld⟩ := fresh
  have nodup := @nodup_blocks base desc (fits_of_mem_descs mem)
  have unused : ∀ b ∈ blocks base desc, b ∉ live.map Allocation.address := by
    intro b within used
    obtain ⟨alloc, is_live, rfl⟩ := mem_map.mp used
    obtain ⟨_, base', is_block, _⟩ := sound.liveBlock alloc is_live
    obtain rfl := (page_of_mem_blocks mem align within).symm.trans (sound.page_of_block is_block)
    obtain ⟨⟨_, held⟩, _⟩ := is_block
    rw [unheld] at held
    cases held
  unfold Heap.addArena
  rw [empty, nil_append]
  refine @Sound.change _ _ _ _ (some desc.blocksPerArena) _ _ sound mem align pos ?_ nodup ?_ ?_
    (fun _ _ => Iff.rfl) sound.liveNodup (fun _ => .inl) (fun _ _ _ => by simp) ?_
  · intro arena is_arena
    rw [unheld] at is_arena
    cases is_arena
  · intro b out
    rw [empty]
    exact iff_of_false out (by simp)
  · intro b within
    exact iff_of_true within ⟨by simp, unused b within⟩
  · intro _ is_count
    rw [← some.inj is_count, eq_comm, ← @length_blocks base desc]
    exact (countP_mem_eq_length_iff nodup nodup).mpr fun _ => id

/-! ## What the calls do -/

theorem Sound.freeCnt_le (sound : heap.Sound live)
    (held : heap.arenas base = some ⟨some desc, freeCnt⟩) : freeCnt ≤ desc.blocksPerArena := by
  rw [sound.count base desc freeCnt held, ← @length_blocks base desc]
  exact countP_mem_le (sound.nodup desc)

theorem blocksPerArena_lt (mem : desc ∈ descs) : desc.blocksPerArena < 2 ^ 32 := by
  have all : ∀ desc ∈ descs, desc.blocksPerArena < 2 ^ 32 := by
    decide
  exact all desc mem

theorem Sound.takeBlock {size : Nat} {rest : List Nat} (sound : heap.Sound live)
    (is_list : heap.freeList desc = b :: rest) (fits : size ≤ desc.blockSize) :
    ∃ s', heap.takeBlock desc = some (s', some b) ∧ s'.Sound (⟨b, size⟩ :: live) ∧
      ∀ base, (s'.arenas base).isSome ↔ (heap.arenas base).isSome := by
  obtain ⟨base, is_block⟩ := sound.listed desc b (is_list ▸ mem_cons_self ..)
  obtain ⟨freeCnt, held, finds⟩ := sound.blockToArena is_block
  obtain ⟨pos, taken⟩ := sound.take is_list held is_block.2 fits
  have mem := (sound.desc_of_block is_block).1
  have small : freeCnt < 2 ^ 32 := lt_of_le_of_lt (sound.freeCnt_le held) (blocksPerArena_lt mem)
  refine ⟨_, ?_, taken, fun base' => ?_⟩
  · have finds' : (heap.setFreeList desc rest).blockToArena b =
        some (base, ⟨some desc, freeCnt⟩) := finds
    unfold Heap.takeBlock
    rw [is_list]
    dsimp only
    rw [finds', bind_eq_bind, bind_some]
    dsimp only
    rw [sizeSub_of_le pos small]
    rfl
  · change (update heap.arenas base _ base').isSome ↔ _
    by_cases same : base' = base
    · rw [same, update_self, held]
      rfl
    · rw [update_of_ne same]

/-- What `malloc` does with a request that has a descriptor. -/
inductive Allocates (heap : Heap) (live : List Allocation) (page : Option Nat) (size : Nat) : Prop
  | failed (no_page : page = none) (fails : heap.malloc page size = some (heap, none))
  | done {s' : Heap} {b : Nat} (allocates : heap.malloc page size = some (s', some b))
      (sound : s'.Sound (⟨b, size⟩ :: live)) (used : s'.Used (⟨b, size⟩ :: live))

theorem Sound.malloc {page : Option Nat} {size : Nat} (sound : heap.Sound live)
    (used : heap.Used live) (pos : 1 ≤ size) (small : size ≤ 1024)
    (fresh : ∀ base, page = some base → heap.FreshPage base) : heap.Allocates live page size := by
  obtain ⟨desc, mem, fits, found⟩ := exists_desc small
  by_cases empty : heap.freeList desc = []
  · have calls : heap.malloc page size =
        match page with
        | none => some (heap, none)
        | some base => (heap.addArena desc base).takeBlock desc := by
      unfold Heap.malloc
      rw [if_neg (by omega), found]
      dsimp only
      rw [if_pos empty]
      cases page <;> rfl
    cases page with
    | none => exact .failed rfl calls
    | some base =>
      have added := sound.addArena mem (fresh base rfl) empty
      obtain ⟨fst, rest, is_blocks⟩ : ∃ fst rest, blocks base desc = fst :: rest := by
        refine exists_cons_of_length_pos ?_
        rw [length_blocks]
        exact (fits_of_mem_descs mem).some_block
      have is_list : (heap.addArena desc base).freeList desc = fst :: rest := by
        refine (update_self ..).trans ?_
        rw [empty, nil_append, is_blocks]
      obtain ⟨s', takes, taken, same⟩ := added.takeBlock is_list fits
      have first_page : pgRoundDown fst = base := by
        refine added.page_of_block ⟨⟨_, update_self ..⟩, ?_⟩
        rw [is_blocks]
        exact mem_cons_self ..
      refine .done (calls.trans takes) taken fun base' arena held => ?_
      have here := (same base').mp (isSome_iff_exists.mpr ⟨arena, held⟩)
      by_cases new : base' = base
      · exact ⟨⟨fst, size⟩, mem_cons_self .., first_page.trans new.symm⟩
      · have old : (heap.arenas base').isSome := by
          change (update heap.arenas base _ base').isSome at here
          rwa [update_of_ne new] at here
        obtain ⟨arena', held'⟩ := isSome_iff_exists.mp old
        obtain ⟨alloc, is_live, page⟩ := used base' arena' held'
        exact ⟨alloc, mem_cons_of_mem _ is_live, page⟩
  · have calls : heap.malloc page size = heap.takeBlock desc := by
      unfold Heap.malloc
      rw [if_neg (by omega), found]
      dsimp only
      rw [if_neg empty]
    obtain ⟨fst, rest, is_list⟩ := exists_cons_of_ne_nil empty
    obtain ⟨s', takes, taken, same⟩ := sound.takeBlock is_list fits
    refine .done (calls.trans takes) taken fun base arena held => ?_
    obtain ⟨arena', held'⟩ := isSome_iff_exists.mp
      ((same base).mp (isSome_iff_exists.mpr ⟨arena, held⟩))
    obtain ⟨alloc, is_live, page⟩ := used base arena' held'
    exact ⟨alloc, mem_cons_of_mem _ is_live, page⟩

theorem Sound.exists_live (sound : heap.Sound live) (held : heap.arenas base = some ⟨some desc, freeCnt⟩) (not_all : freeCnt ≠ desc.blocksPerArena) :
    ∃ alloc ∈ live, pgRoundDown alloc.address = base := by
  obtain ⟨_, known, is_desc, _⟩ := sound.arena base _ held
  cases is_desc
  have missing : ¬ ∀ b ∈ blocks base desc, b ∈ heap.freeList desc := by
    intro all
    apply not_all
    rw [sound.count base desc freeCnt held, ← @length_blocks base desc]
    exact (countP_mem_eq_length_iff (sound.nodup desc)
      (nodup_blocks (fits_of_mem_descs known))).mpr all
  push Not at missing
  obtain ⟨b, within, absent⟩ := missing
  have is_block : heap.Block desc base b := ⟨⟨freeCnt, held⟩, within⟩
  have is_used := not_not.mp (mt (sound.split desc base b is_block).mpr absent)
  obtain ⟨alloc, is_live, rfl⟩ := mem_map.mp is_used
  exact ⟨alloc, is_live, sound.page_of_block is_block⟩

/-- `free` of a block in use returns, and an arena without blocks in use is gone. -/
theorem Sound.free {alloc : Allocation} (sound : heap.Sound live) (used : heap.Used live)
    (is_live : alloc ∈ live) : ∃ s', heap.free alloc.address = some s' ∧
      s'.Sound (without live alloc.address) ∧
      s'.Used (without live alloc.address) := by
  obtain ⟨desc, base, is_block, _⟩ := sound.liveBlock alloc is_live
  obtain ⟨freeCnt, held, finds⟩ := sound.blockToArena is_block
  have mem := (sound.desc_of_block is_block).1
  have given := sound.give (mem_map_of_mem is_live) held is_block.2
  have held' : ((heap.setArena base (some ⟨some desc, freeCnt + 1⟩)).setFreeList desc
      (alloc.address :: heap.freeList desc)).arenas base = some ⟨some desc, freeCnt + 1⟩ :=
    update_self ..
  have is_list : ((heap.setArena base (some ⟨some desc, freeCnt + 1⟩)).setFreeList desc
      (alloc.address :: heap.freeList desc)).freeList desc =
        alloc.address :: heap.freeList desc := update_self ..
  have most := given.freeCnt_le held'
  have wraps : (freeCnt + 1) % 2 ^ 32 = freeCnt + 1 :=
    mod_eq_of_lt (lt_of_le_of_lt most (blocksPerArena_lt mem))
  have others : ∀ base' arena, base' ≠ base → heap.arenas base' = some arena →
      ∃ o ∈ without live alloc.address, pgRoundDown o.address = base' := by
    intro base' arena ne held_other
    obtain ⟨o, other_live, page⟩ := used base' arena held_other
    refine ⟨o, mem_filter.mpr ⟨other_live, decide_eq_true ?_⟩, page⟩
    intro same
    rw [same, sound.page_of_block is_block] at page
    exact ne page.symm
  have calls : heap.free alloc.address = if desc.blocksPerArena ≤ freeCnt + 1 then
        if freeCnt + 1 = desc.blocksPerArena then
          (removeAll (alloc.address :: heap.freeList desc) (blocks base desc)).bind fun list =>
            some ((heap.setArena base none).setFreeList desc list)
        else none
      else some ((heap.setArena base (some ⟨some desc, freeCnt + 1⟩)).setFreeList desc
        (alloc.address :: heap.freeList desc)) := by
    unfold Heap.free
    rw [finds, bind_eq_bind, bind_some]
    dsimp only
    rw [wraps]
    rfl
  by_cases last : freeCnt + 1 = desc.blocksPerArena
  · have all : ∀ b ∈ blocks base desc, b ∈ alloc.address :: heap.freeList desc := by
      have counted := given.count base desc _ held'
      unfold freeBlocks at counted
      rw [is_list, last, ← @length_blocks base desc] at counted
      refine (countP_mem_eq_length_iff ?_ (nodup_blocks (fits_of_mem_descs mem))).mp counted.symm
      rw [← is_list]
      exact given.nodup desc
    have nodup : (alloc.address :: heap.freeList desc).Nodup := is_list ▸ given.nodup desc
    have dropped := given.drop held' (by rwa [is_list])
    rw [is_list] at dropped
    rw [if_pos (le_of_eq last.symm), if_pos last,
      removeAll_eq (nodup_blocks (fits_of_mem_descs mem)) nodup all, bind_some] at calls
    have same : ((heap.setArena base none).setFreeList desc
        ((alloc.address :: heap.freeList desc).filter fun b => b ∉ blocks base desc)) =
        (((heap.setArena base (some ⟨some desc, freeCnt + 1⟩)).setFreeList desc
          (alloc.address :: heap.freeList desc)).setArena base none).setFreeList desc
            ((alloc.address :: heap.freeList desc).filter fun b => b ∉ blocks base desc) := by
      simp [setArena, setFreeList, update_idem]
    rw [same] at calls
    refine ⟨_, calls, dropped, fun base' arena is_arena => ?_⟩
    rw [← same] at is_arena
    change update heap.arenas base none base' = _ at is_arena
    by_cases here : base' = base
    · rw [here, update_self] at is_arena
      cases is_arena
    · rw [update_of_ne here] at is_arena
      exact others base' arena here is_arena
  · rw [if_neg (by omega)] at calls
    refine ⟨_, calls, given, fun base' arena is_arena => ?_⟩
    by_cases here : base' = base
    · rw [here]
      exact given.exists_live held' last
    · change update heap.arenas base _ base' = _ at is_arena
      rw [update_of_ne here] at is_arena
      exact others base' arena here is_arena

/-! ## Live blocks -/

/-- The byte lies in the block that starts at this address. -/
def Covers (heap : Heap) (addr byte : Nat) : Prop :=
  ∃ size, heap.blockSize addr = some size ∧ addr ≤ byte ∧ byte < addr + size

theorem Sound.blockSize (sound : heap.Sound live) (is_block : heap.Block desc base b) :
    heap.blockSize b = some desc.blockSize := by
  obtain ⟨_, _, finds⟩ := sound.blockToArena is_block
  rw [Heap.blockSize, finds]
  rfl

theorem Sound.eq_of_covers {fst snd : Allocation} {byte : Nat} (sound : heap.Sound live)
    (first_live : fst ∈ live) (second_live : snd ∈ live)
    (first_covers : heap.Covers fst.address byte)
    (second_covers : heap.Covers snd.address byte) : fst.address = snd.address := by
  obtain ⟨desc, base, is_block, _⟩ := sound.liveBlock fst first_live
  obtain ⟨desc', base', is_block', _⟩ := sound.liveBlock snd second_live
  obtain ⟨size, is_size, lower, upper⟩ := first_covers
  obtain ⟨size', is_size', lower', upper'⟩ := second_covers
  obtain rfl := some.inj ((sound.blockSize is_block).symm.trans is_size)
  obtain rfl := some.inj ((sound.blockSize is_block').symm.trans is_size')
  obtain ⟨known, align, _⟩ := sound.desc_of_block is_block
  obtain ⟨known', aligned', _⟩ := sound.desc_of_block is_block'
  obtain ⟨i, below, is_fst⟩ := mem_blocks.mp is_block.2
  obtain ⟨index', below', is_snd⟩ := mem_blocks.mp is_block'.2
  rw [← is_fst] at lower upper
  rw [← is_snd] at lower' upper'
  obtain ⟨page, pos⟩ := index_of_byte (fits_of_mem_descs known) align below lower upper
  obtain ⟨page', position'⟩ :=
    index_of_byte (fits_of_mem_descs known') aligned' below' lower' upper'
  obtain rfl : base = base' := page.symm.trans page'
  obtain ⟨⟨_, held⟩, _⟩ := is_block
  obtain ⟨⟨_, held'⟩, _⟩ := is_block'
  obtain rfl := some.inj (Arena.mk.inj (some.inj (held.symm.trans held'))).1
  obtain rfl : i = index' := pos.symm.trans position'
  exact is_fst.symm.trans is_snd

theorem Sound.inside {alloc : Allocation} (sound : heap.Sound live) (is_live : alloc ∈ live) :
    ∃ size, heap.blockSize alloc.address = some size ∧ alloc.size ≤ size ∧
      pgRoundDown alloc.address + arenaHeader ≤ alloc.address ∧
      alloc.address + size ≤ pgRoundDown alloc.address + pgSize := by
  obtain ⟨desc, base, is_block, large⟩ := sound.liveBlock alloc is_live
  refine ⟨desc.blockSize, sound.blockSize is_block, large, ?_⟩
  rw [sound.page_of_block is_block]
  obtain ⟨i, below, is_address⟩ := mem_blocks.mp is_block.2
  have inside := Desc.Fits.block_le (fits_of_mem_descs (sound.desc_of_block is_block).1) below
  rw [← is_address]
  unfold arenaToBlock
  omega

end Heap

/-! ## Runs -/

/-- The heap and the blocks that callers hold. -/
structure HeapUse where
  heap : Heap
  live : List Allocation

/-- A call of the allocator; `malloc` comes with what the page allocator returns if it is asked. -/
inductive HeapCall
  | malloc (page : Option Nat) (size : Nat)
  | free (address : Nat)

namespace HeapUse

/-- The call is one for a block of a descriptor, or frees a block in use. -/
def Admits (use : HeapUse) : HeapCall → Prop
  | .malloc page size => (1 ≤ size ∧ size ≤ 1024) ∧ ∀ base, page = some base → use.heap.FreshPage base
  | .free addr => addr ∈ use.live.map Allocation.address

/-- The state after a call that returns. -/
def call (use : HeapUse) : HeapCall → Option HeapUse
  | .malloc page size =>
    (use.heap.malloc page size).map fun result =>
      ⟨result.1, match result.2 with
        | none => use.live
        | some block => ⟨block, size⟩ :: use.live⟩
  | .free address =>
    (use.heap.free address).map fun after => ⟨after, Heap.without use.live address⟩

instance (use : HeapUse) : (e : HeapCall) → Decidable (use.Admits e)
  | .malloc none size => decidable_of_iff (1 ≤ size ∧ size ≤ 1024) (by simp [Admits])
  | .malloc (some base) size =>
    decidable_of_iff ((1 ≤ size ∧ size ≤ 1024) ∧ use.heap.FreshPage base) (by simp [Admits])
  | .free address => inferInstanceAs (Decidable (address ∈ use.live.map Allocation.address))

/-- One call that is admitted; `none` if it is not admitted or does not return. -/
def step (use : HeapUse) (event : HeapCall) : Option HeapUse :=
  if use.Admits event then use.call event else none

def start : HeapUse := ⟨.init, []⟩

/-- The integrity of the heap. -/
structure Intact (use : HeapUse) : Prop where
  disjoint : use.live.Pairwise fun first second =>
    ∀ byte, ¬ (use.heap.Covers first.address byte ∧ use.heap.Covers second.address byte)
  inside : ∀ allocation ∈ use.live, ∃ size, use.heap.blockSize allocation.address = some size ∧
    allocation.size ≤ size ∧
    Heap.pgRoundDown allocation.address + arenaHeader ≤ allocation.address ∧
    allocation.address + size ≤ Heap.pgRoundDown allocation.address + pgSize
  counted : ∀ base desc freeCnt, use.heap.arenas base = some ⟨some desc, freeCnt⟩ →
    freeCnt = use.heap.freeBlocks desc base
  once : ∀ desc base block, use.heap.Block desc base block →
    (use.live.map Allocation.address).count block + (use.heap.freeList desc).count block = 1
  listed : ∀ desc, ∀ block ∈ use.heap.freeList desc, ∃ base, use.heap.Block desc base block
  held : ∀ base, (use.heap.arenas base).isSome ↔
    ∃ allocation ∈ use.live, Heap.pgRoundDown allocation.address = base
  returns : ∀ e, use.Admits e → (use.call e).isSome

/-- The invariant of a run. -/
structure Valid (use : HeapUse) : Prop where
  sound : use.heap.Sound use.live
  used : use.heap.Used use.live

variable {use s' : HeapUse} {e : HeapCall}

theorem Valid.call (valid : use.Valid) (admits : use.Admits e) :
    ∃ s', use.call e = some s' ∧ s'.Valid := by
  cases e with
  | malloc page size =>
    obtain ⟨⟨pos, small⟩, fresh⟩ := admits
    cases valid.sound.malloc valid.used pos small fresh with
    | failed _ fails => exact ⟨use, by rw [HeapUse.call, fails]; rfl, valid⟩
    | done takes sound used =>
      exact ⟨_, by rw [HeapUse.call, takes]; rfl, sound, used⟩
  | free address =>
    obtain ⟨alloc, is_live, rfl⟩ := mem_map.mp admits
    obtain ⟨s', frees, sound, used⟩ := valid.sound.free valid.used is_live
    exact ⟨_, by rw [HeapUse.call, frees]; rfl, sound, used⟩

theorem Valid.step (valid : use.Valid) (steps : use.step e = some s') : s'.Valid := by
  unfold HeapUse.step at steps
  split at steps
  · next admits =>
      obtain ⟨res, calls, kept⟩ := valid.call admits
      obtain rfl := some.inj (calls.symm.trans steps)
      exact kept
  · cases steps

theorem Valid.intact (valid : use.Valid) : use.Intact where
  disjoint := by
    have apart := valid.sound.liveNodup
    rw [nodup_iff_pairwise_ne, pairwise_map] at apart
    refine apart.imp_of_mem ?_
    rintro fst snd first_live second_live ne byte ⟨first_covers, second_covers⟩
    exact ne (valid.sound.eq_of_covers first_live second_live first_covers second_covers)
  inside alloc is_live := valid.sound.inside is_live
  counted := valid.sound.count
  once desc base block is_block := by
    have split := valid.sound.split desc base block is_block
    have live_count := nodup_iff_count_le_one.mp valid.sound.liveNodup block
    have list_count := nodup_iff_count_le_one.mp (valid.sound.nodup desc) block
    rw [← count_pos_iff, ← count_eq_zero] at split
    omega
  listed := valid.sound.listed
  held base := by
    constructor
    · intro here
      obtain ⟨arena, held⟩ := isSome_iff_exists.mp here
      exact valid.used base arena held
    · rintro ⟨alloc, is_live, rfl⟩
      obtain ⟨desc, base, is_block, _⟩ := valid.sound.liveBlock alloc is_live
      rw [valid.sound.page_of_block is_block]
      obtain ⟨⟨freeCnt, held⟩, _⟩ := is_block
      exact isSome_iff_exists.mpr ⟨_, held⟩
  returns e admits := by
    obtain ⟨s', calls, _⟩ := valid.call admits
    exact isSome_iff_exists.mpr ⟨s', calls⟩

theorem valid_start : start.Valid where
  sound :=
    { arena := nofun
      nodup := fun _ => nodup_nil
      listed := nofun
      liveNodup := nodup_nil
      liveBlock := nofun
      split := by
        rintro _ _ _ ⟨⟨_, held⟩, _⟩
        cases held
      count := nofun }
  used := nofun

/-- In every run of `malloc` and `free` the heap stays intact, and an arena is held exactly as long as
one of its blocks is in use. -/
theorem heap_intact (events : List HeapCall) : Along step Intact start events :=
  along_of_invariant valid_start (fun valid steps => valid.step steps)
    (fun valid => valid.intact) events

end HeapUse

end Pintos.Threads
