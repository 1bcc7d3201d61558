import Mathlib.Algebra.Group.Nat.Defs
import Mathlib.Data.Finset.Card
import Mathlib.Data.Finset.Range
import Mathlib.Data.List.Lattice
import Mathlib.Logic.Function.Basic

/-!
# The block allocator of the kernel

`malloc` and `free` on the pages of the page allocator.  Small requests are served from arenas, pages
that are cut into blocks of one size behind a header; the free blocks of all arenas of one size are on
the free list of its descriptor.
-/

namespace Pintos.Threads

open List

abbrev pgSize : Nat := 4096

/-- `sizeof (struct arena)`. -/
abbrev arenaHeader : Nat := 12

/-- `struct desc`, without its free list and its lock. -/
structure Desc where
  blockSize : Nat
  blocksPerArena : Nat
  deriving DecidableEq

/-- The loop of `malloc_init`, for an array with room for this many descriptors. -/
def mallocInit : Nat → Nat → List Desc
  | 0, _ => []
  | room + 1, blockSize =>
    if blockSize < pgSize / 2 then
      ⟨blockSize, (pgSize - arenaHeader) / blockSize⟩ :: mallocInit room (blockSize * 2)
    else
      []

def descs : List Desc := mallocInit 10 16

/-- `struct arena`; the magic number is there if the arena is. -/
structure Arena where
  desc : Option Desc
  freeCnt : Nat

/-- The arenas by the addresses of their pages, and the free lists of the descriptors. -/
structure Heap where
  arenas : Nat → Option Arena
  freeList : Desc → List Nat

namespace Heap

def init : Heap := ⟨fun _ => none, fun _ => []⟩

def pgRoundDown (address : Nat) : Nat := address / pgSize * pgSize

def pgOfs (address : Nat) : Nat := address % pgSize

/-- The difference of two values of type `size_t`. -/
def sizeSub (first second : Nat) : Nat := (first + 2 ^ 32 - second) % 2 ^ 32

/-- `block_to_arena`: the address of the arena and the arena, or none if an assertion fails. -/
def blockToArena (heap : Heap) (block : Nat) : Option (Nat × Arena) := do
  let base := pgRoundDown block
  if base = 0 then
    none
  else
    let arena ← heap.arenas base
    match arena.desc with
    | some desc =>
      if sizeSub (pgOfs block) arenaHeader % desc.blockSize = 0 then
        some (base, arena)
      else
        none
    | none => if pgOfs block = arenaHeader then some (base, arena) else none

def blockSize (heap : Heap) (block : Nat) : Option Nat :=
  (heap.blockToArena block).map fun found =>
    match found.2.desc with
    | some desc => desc.blockSize
    | none => pgSize * found.2.freeCnt - pgOfs block

/-- `arena_to_block`, for an arena of this descriptor. -/
def arenaToBlock (base : Nat) (desc : Desc) (index : Nat) : Nat :=
  base + arenaHeader + index * desc.blockSize

/-- The blocks of an arena in the order of their addresses. -/
def blocks (base : Nat) (desc : Desc) : List Nat :=
  (List.range desc.blocksPerArena).map (arenaToBlock base desc)

def setArena (heap : Heap) (base : Nat) (arena : Option Arena) : Heap :=
  { heap with arenas := Function.update heap.arenas base arena }

def setFreeList (heap : Heap) (desc : Desc) (list : List Nat) : Heap :=
  { heap with freeList := Function.update heap.freeList desc list }

/-- A new arena, with all its blocks at the end of the free list. -/
def addArena (heap : Heap) (desc : Desc) (base : Nat) : Heap :=
  (heap.setArena base (some ⟨some desc, desc.blocksPerArena⟩)).setFreeList desc
    (heap.freeList desc ++ blocks base desc)

/-- The end of `malloc`, which takes the first block of the free list. -/
def takeBlock (heap : Heap) (desc : Desc) : Option (Heap × Option Nat) :=
  match heap.freeList desc with
  | [] => none
  | block :: rest => do
      let heap := heap.setFreeList desc rest
      let (base, arena) ← heap.blockToArena block
      let freeCnt := sizeSub arena.freeCnt 1
      some (heap.setArena base (some { arena with freeCnt }), some block)

/-- `DIV_ROUND_UP (size + sizeof (struct arena), PGSIZE)` in values of type `size_t`. -/
def pageCnt (size : Nat) : Nat := (size + arenaHeader + pgSize - 1) % 2 ^ 32 / pgSize

/-- `malloc`, given what the page allocator returns if it is asked for at least one page.  A null
pointer is `none`. -/
def malloc (heap : Heap) (page : Option Nat) (size : Nat) : Option (Heap × Option Nat) :=
  if size = 0 then
    some (heap, none)
  else
    match descs.find? fun desc => size ≤ desc.blockSize with
    | none =>
      match page with
      | none => some (heap, none)
      | some base =>
        if pageCnt size = 0 then
          some (heap, none)
        else
          some (heap.setArena base (some ⟨none, pageCnt size⟩), some (base + arenaHeader))
    | some desc =>
      if heap.freeList desc = [] then
        match page with
        | none => some (heap, none)
        | some base => (heap.addArena desc base).takeBlock desc
      else
        heap.takeBlock desc

/-- `list_remove` of some elements, each of which has to be on the list. -/
def removeAll : List Nat → List Nat → Option (List Nat)
  | list, [] => some list
  | list, block :: blocks => if block ∈ list then removeAll (list.erase block) blocks else none

def free (heap : Heap) (block : Nat) : Option Heap := do
  let (base, arena) ← heap.blockToArena block
  match arena.desc with
  | none => some (heap.setArena base none)
  | some desc =>
    let freeList := block :: heap.freeList desc
    let freeCnt := (arena.freeCnt + 1) % 2 ^ 32
    if desc.blocksPerArena ≤ freeCnt then
      if freeCnt = desc.blocksPerArena then do
        let freeList ← removeAll freeList (blocks base desc)
        some ((heap.setArena base none).setFreeList desc freeList)
      else
        none
    else
      some ((heap.setArena base (some { arena with freeCnt })).setFreeList desc freeList)

end Heap

/-! ## Descriptors -/

/-- What holds of the block size and the number of blocks of every descriptor. -/
structure Desc.Fits (desc : Desc) : Prop where
  positive : 0 < desc.blockSize
  some_block : 0 < desc.blocksPerArena
  inside : arenaHeader + desc.blocksPerArena * desc.blockSize ≤ pgSize

theorem fits_of_mem_descs {desc : Desc} (mem : desc ∈ descs) : desc.Fits := by
  have all : ∀ desc ∈ descs, 0 < desc.blockSize ∧ 0 < desc.blocksPerArena ∧
      arenaHeader + desc.blocksPerArena * desc.blockSize ≤ pgSize := by
    decide
  obtain ⟨pos, some_block, inside⟩ := all desc mem
  exact ⟨pos, some_block, inside⟩

theorem exists_desc {size : Nat} (small : size ≤ 1024) : ∃ desc ∈ descs, size ≤ desc.blockSize ∧
      (descs.find? fun desc => size ≤ desc.blockSize) = some desc := by
  have some_desc : (descs.find? fun desc => size ≤ desc.blockSize).isSome := by
    rw [find?_isSome]
    exact ⟨⟨1024, 3⟩, by decide, decide_eq_true small⟩
  obtain ⟨desc, found⟩ := Option.isSome_iff_exists.mp some_desc
  have passes := find?_some found
  exact ⟨desc, mem_of_find?_eq_some found, of_decide_eq_true passes, found⟩

/-! ## Addresses -/

namespace Heap

variable {base other i index' : Nat} {desc desc' : Desc}

theorem Desc.Fits.block_le (fits : desc.Fits) (below : i < desc.blocksPerArena) :
    arenaHeader + i * desc.blockSize + desc.blockSize ≤ pgSize := by
  have le : (i + 1) * desc.blockSize ≤ desc.blocksPerArena * desc.blockSize :=
    Nat.mul_le_mul_right _ below
  have inside := fits.inside
  rw [Nat.succ_mul] at le
  omega

theorem pgRoundDown_arenaToBlock (fits : desc.Fits) (align : base % pgSize = 0)
    (below : i < desc.blocksPerArena) : pgRoundDown (arenaToBlock base desc i) = base ∧
      pgOfs (arenaToBlock base desc i) = arenaHeader + i * desc.blockSize := by
  have inside := Desc.Fits.block_le fits below
  have pos := fits.positive
  unfold pgRoundDown pgOfs arenaToBlock
  generalize i * desc.blockSize = ofs at inside ⊢
  simp only [pgSize, arenaHeader] at align inside ⊢
  constructor <;> omega

/-- A byte of a block determines the arena and the index of the block. -/
theorem index_of_byte {byte : Nat} (fits : desc.Fits) (align : base % pgSize = 0)
    (below : i < desc.blocksPerArena) (fst : arenaToBlock base desc i ≤ byte)
    (last : byte < arenaToBlock base desc i + desc.blockSize) :
    pgRoundDown byte = base ∧ (byte - base - arenaHeader) / desc.blockSize = i := by
  have inside := Desc.Fits.block_le fits below
  constructor
  · unfold pgRoundDown
    unfold arenaToBlock at fst last
    generalize i * desc.blockSize = ofs at inside fst last
    simp only [pgSize, arenaHeader] at align inside fst last ⊢
    omega
  · unfold arenaToBlock at fst last
    refine Nat.div_eq_of_lt_le (by omega) ?_
    rw [Nat.succ_mul]
    omega

theorem sizeSub_of_le {fst snd : Nat} (le : snd ≤ fst) (small : fst < 2 ^ 32) :
    sizeSub fst snd = fst - snd := by
  unfold sizeSub
  omega

theorem blockToArena_eq {heap : Heap} {block freeCnt : Nat} (page : pgRoundDown block = base)
    (nonzero : base ≠ 0) (held : heap.arenas base = some ⟨some desc, freeCnt⟩)
    (divides : sizeSub (pgOfs block) arenaHeader % desc.blockSize = 0) :
    heap.blockToArena block = some (base, ⟨some desc, freeCnt⟩) := by
  unfold blockToArena
  rw [page]
  dsimp only
  rw [if_neg nonzero, held, Option.bind_eq_bind, Option.bind_some]
  dsimp only
  rw [if_pos divides]

theorem arenaToBlock_injective (fits : desc.Fits)
    (same : arenaToBlock base desc i = arenaToBlock base desc index') : i = index' := by
  unfold arenaToBlock at same
  exact Nat.eq_of_mul_eq_mul_right fits.positive (by omega)

theorem mem_blocks {block : Nat} :
    block ∈ blocks base desc ↔ ∃ i < desc.blocksPerArena, arenaToBlock base desc i = block := by
  simp [blocks]

theorem nodup_blocks (fits : desc.Fits) : (blocks base desc).Nodup :=
  List.Nodup.map (fun _ _ same => arenaToBlock_injective fits same) nodup_range

@[simp]
theorem length_blocks : (blocks base desc).length = desc.blocksPerArena := by
  simp [blocks]

theorem removeAll_eq {list blocks : List Nat} (ne : blocks.Nodup) (nodup : list.Nodup)
    (here : ∀ block ∈ blocks, block ∈ list) :
    removeAll list blocks = some (list.filter fun block => block ∉ blocks) := by
  rw [← nodup.sdiff_eq_filter]
  induction blocks generalizing list with
  | nil => simp [removeAll]
  | cons block blocks ih =>
    obtain ⟨fresh, ne⟩ := nodup_cons.mp ne
    rw [removeAll, if_pos (here block (mem_cons_self ..)), diff_cons]
    refine ih ne (nodup.erase block) fun later mem => ?_
    rw [nodup.mem_erase_iff]
    refine ⟨?_, here later (mem_cons_of_mem _ mem)⟩
    rintro rfl
    exact fresh mem

end Heap

end Pintos.Threads
