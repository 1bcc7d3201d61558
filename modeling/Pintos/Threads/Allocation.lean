import Pintos.Threads.Arenas

/-!
# Sizes of allocations

`malloc` adds the size of the arena header and rounds up to pages in 32 bits, and `calloc` multiplies
in 32 bits and compares the product with its factors.  Neither computation is safe from wrapping
around: the largest requests get a single page, and many products that do not fit pass the test.
-/

namespace Pintos.Threads.Heap

open Option List

/-- The free lists hold blocks of the arenas of their descriptors. -/
def Listed (heap : Heap) : Prop :=
  ∀ desc, ∀ block ∈ heap.freeList desc, desc ∈ descs ∧
    ∃ base, base % pgSize = 0 ∧ 0 < base ∧ heap.Block desc base block

/-- `calloc`, with the bytes of memory. -/
def calloc (heap : Heap) (memory : Nat → UInt8) (page : Option Nat) (a b : Nat) :
    Option (Heap × (Nat → UInt8) × Option Nat) :=
  let size := a * b % 2 ^ 32
  if size < a ∨ size < b then
    some (heap, memory, none)
  else do
    let (heap, block) ← heap.malloc page size
    match block with
    | none => some (heap, memory, none)
    | some block =>
      let zeroed address := if block ≤ address ∧ address < block + size then 0 else memory address
      some (heap, zeroed, some block)

/-- A block that `malloc` returns has the size that was asked for. -/
def MallocFits (heap : Heap) (size : Nat) : Prop :=
  ∀ page s' block, (∀ base ∈ page, heap.FreshPage base) →
    heap.malloc page size = some (s', some block) →
    ∃ bytes, s'.blockSize block = some bytes ∧ size ≤ bytes

/-- A block that `calloc` returns has room for all elements and is zero. -/
def CallocFits (heap : Heap) (a b : Nat) : Prop :=
  ∀ m page s' zeroed block, (∀ base ∈ page, heap.FreshPage base) →
    heap.calloc m page a b = some (s', zeroed, some block) →
    (∃ bytes, s'.blockSize block = some bytes ∧ a * b ≤ bytes) ∧
      ∀ ofs < a * b, zeroed (block + ofs) = 0

/-- The size of the block for a request, or zero if there is none. -/
def granted (size : Nat) : Nat :=
  match descs.find? fun desc => size ≤ desc.blockSize with
  | some desc => desc.blockSize
  | none => pgSize * pageCnt size - arenaHeader

/-! ## The block of a request -/

variable {heap : Heap} {page : Option Nat} {size : Nat}

/-- The first block of a free list has the size of the descriptor. -/
theorem takeBlock_of_block {desc : Desc} {base block : Nat} {rest : List Nat}
    (is_list : heap.freeList desc = block :: rest) (mem : desc ∈ descs)
    (align : base % pgSize = 0) (pos : 0 < base) (is_block : heap.Block desc base block) :
    ∃ s', heap.takeBlock desc = some (s', some block) ∧
      s'.blockSize block = some desc.blockSize := by
  obtain ⟨freeCnt, _, finds⟩ := blockToArena_of_block mem align pos is_block
  have finds' : (heap.setFreeList desc rest).blockToArena block =
      some (base, ⟨some desc, freeCnt⟩) := finds
  obtain ⟨s', is_after⟩ : ∃ s', s' = (heap.setFreeList desc rest).setArena base
      (some ⟨some desc, sizeSub freeCnt 1⟩) := ⟨_, rfl⟩
  refine ⟨s', ?_, ?_⟩
  · unfold takeBlock
    rw [is_list]
    dsimp only
    rw [finds', bind_eq_bind, bind_some, is_after]
  · have held : s'.Block desc base block := by
      rw [is_after]
      exact ⟨⟨_, Function.update_self ..⟩, is_block.2⟩
    obtain ⟨_, _, finds⟩ := blockToArena_of_block mem align pos held
    rw [blockSize, finds]
    rfl

/-- What `malloc` returns: nothing if nothing is asked for or granted or if there is no page, or else
a block of the size that is granted. -/
theorem Listed.malloc (listed : heap.Listed) (fresh : ∀ base ∈ page, heap.FreshPage base)
    (size : Nat) :
    heap.malloc page size = some (heap, none) ∧ (page = none ∨ size = 0 ∨ granted size = 0) ∨
      size ≠ 0 ∧ granted size ≠ 0 ∧ ∃ s' block, heap.malloc page size = some (s', some block) ∧
        s'.blockSize block = some (granted size) := by
  unfold Heap.malloc granted
  by_cases zero : size = 0
  · rw [if_pos zero]
    exact .inl ⟨rfl, .inr (.inl zero)⟩
  rw [if_neg zero]
  cases found : descs.find? fun desc => size ≤ desc.blockSize with
  | some desc =>
    have mem := mem_of_find?_eq_some found
    have some_size := (fits_of_mem_descs mem).positive
    dsimp only
    by_cases empty : heap.freeList desc = []
    · rw [if_pos empty]
      cases page with
      | none => exact .inl ⟨rfl, .inl rfl⟩
      | some base =>
        obtain ⟨align, pos, _⟩ := fresh base rfl
        obtain ⟨fst, rest, is_blocks⟩ : ∃ fst rest, blocks base desc = fst :: rest := by
          refine exists_cons_of_length_pos ?_
          rw [length_blocks]
          exact (fits_of_mem_descs mem).some_block
        have is_list : (heap.addArena desc base).freeList desc = fst :: rest := by
          refine (Function.update_self ..).trans ?_
          rw [empty, nil_append, is_blocks]
        obtain ⟨s', takes, size_eq⟩ := takeBlock_of_block is_list mem align pos
          ⟨⟨_, Function.update_self ..⟩, is_blocks ▸ mem_cons_self⟩
        exact .inr ⟨zero, ne_of_gt some_size, s', fst, takes, size_eq⟩
    · rw [if_neg empty]
      obtain ⟨fst, rest, is_list⟩ := exists_cons_of_ne_nil empty
      obtain ⟨_, base, align, pos, is_block⟩ := listed desc fst (is_list ▸ mem_cons_self)
      obtain ⟨s', takes, size_eq⟩ := takeBlock_of_block is_list mem align pos is_block
      exact .inr ⟨zero, ne_of_gt some_size, s', fst, takes, size_eq⟩
  | none =>
    dsimp only
    cases page with
    | none => exact .inl ⟨rfl, .inl rfl⟩
    | some base =>
      dsimp only
      by_cases pages : pageCnt size = 0
      · rw [if_pos pages, pages]
        exact .inl ⟨rfl, .inr (.inr rfl)⟩
      · obtain ⟨align, pos, _⟩ := fresh base rfl
        rw [if_neg pages]
        refine .inr ⟨zero, ?_, _, _, rfl, ?_⟩
        · simp only [pgSize, arenaHeader]
          omega
        · have ofs : pgOfs (base + arenaHeader) = arenaHeader := by
            unfold pgOfs
            simp only [pgSize, arenaHeader] at align ⊢
            omega
          have rounded : pgRoundDown (base + arenaHeader) = base := by
            unfold pgRoundDown
            simp only [pgSize, arenaHeader] at align ⊢
            omega
          simp [blockSize, blockToArena, rounded, ofs, setArena, ne_of_gt pos]

/-! ## When requests fit -/

/-- What is granted is enough, nothing, or, for the last eleven sizes, a single page. -/
theorem granted_cases (small : size < 2 ^ 32) : granted size < 2 ^ 32 ∧
    (granted size = 0 ↔ 2 ^ 32 ≤ size + 4107 ∧ size + 11 < 2 ^ 32) ∧
    (granted size ≠ 0 → (size ≤ granted size ↔ size + 11 < 2 ^ 32)) := by
  unfold granted
  cases found : descs.find? fun desc => size ≤ desc.blockSize with
  | some desc =>
    have sizes : ∀ desc ∈ descs, 0 < desc.blockSize ∧ desc.blockSize ≤ 1024 := by decide
    have bounds := sizes desc (mem_of_find?_eq_some found)
    have passes := find?_some found
    have fits := of_decide_eq_true passes
    dsimp only
    omega
  | none =>
    have large := find?_eq_none.mp found ⟨1024, 3⟩ (by decide)
    simp only [decide_eq_true_eq, not_le] at large
    simp only [pageCnt, pgSize, arenaHeader]
    omega

section

variable (listed : heap.Listed) (room : ∃ base, heap.FreshPage base)
include listed room

theorem mallocFits_iff (small : size < 2 ^ 32) : heap.MallocFits size ↔ size + 11 < 2 ^ 32 := by
  obtain ⟨_, none_granted, enough⟩ := granted_cases small
  constructor
  · intro fits
    obtain ⟨base, fresh⟩ := room
    have only : ∀ o ∈ some base, heap.FreshPage o := by
      rintro _ ⟨⟩
      exact fresh
    rcases listed.malloc only size with
      ⟨_, no_page | zero | nothing⟩ | ⟨_, something, s', block, runs, bytes⟩
    · cases no_page
    · omega
    · exact (none_granted.mp nothing).2
    · obtain ⟨_, is_bytes, le⟩ := fits _ _ _ only runs
      cases bytes.symm.trans is_bytes
      exact (enough something).mp le
  · intro below page s' block fresh runs
    rcases listed.malloc fresh size with ⟨fails, _⟩ | ⟨_, something, after', block', runs', bytes⟩
    · cases fails.symm.trans runs
    · cases runs'.symm.trans runs
      exact ⟨_, bytes, (enough something).mpr below⟩

theorem callocFits_iff (a b : Nat) : heap.CallocFits a b ↔ a * b + 11 < 2 ^ 32 ∨
    (a * b % 2 ^ 32 < a ∨ a * b % 2 ^ 32 < b) ∨
    2 ^ 32 ≤ a * b % 2 ^ 32 + 4107 ∧ a * b % 2 ^ 32 + 11 < 2 ^ 32 := by
  have small : a * b % 2 ^ 32 < 2 ^ 32 := Nat.mod_lt _ (by decide)
  obtain ⟨granted_lt, none_granted, enough⟩ := granted_cases small
  unfold CallocFits calloc
  dsimp only
  by_cases refused : a * b % 2 ^ 32 < a ∨ a * b % 2 ^ 32 < b
  · refine iff_of_true (fun _ _ _ _ _ _ runs => ?_) (.inr (.inl refused))
    rw [if_pos refused] at runs
    cases runs
  simp only [refused, false_or]
  constructor
  · intro fits
    obtain ⟨base, fresh⟩ := room
    have only : ∀ o ∈ some base, heap.FreshPage o := by
      rintro _ ⟨⟩
      exact fresh
    rcases listed.malloc only (a * b % 2 ^ 32) with
      ⟨_, no_page | zero | nothing⟩ | ⟨_, something, s', block, runs, bytes⟩
    · cases no_page
    · obtain rfl : a = 0 := by omega
      simp
    · exact .inr (none_granted.mp nothing)
    · obtain ⟨⟨_, is_bytes, le⟩, _⟩ := fits (fun _ => 0) (some base) s' _ block only (by rw [runs]; rfl)
      cases bytes.symm.trans is_bytes
      have whole : a * b % 2 ^ 32 = a * b := Nat.mod_eq_of_lt (by omega)
      rw [whole] at enough something le
      exact .inl ((enough something).mp le)
  · intro cond m page s' zeroed block fresh runs
    rcases listed.malloc fresh (a * b % 2 ^ 32) with
      ⟨fails, _⟩ | ⟨_, something, after', block', runs', bytes⟩
    · rw [fails] at runs
      cases runs
    · have below := cond.resolve_right fun nothing => something (none_granted.mpr nothing)
      have whole : a * b % 2 ^ 32 = a * b := Nat.mod_eq_of_lt (by omega)
      rw [runs', whole] at runs
      cases runs
      rw [whole] at bytes enough something
      refine ⟨⟨_, bytes, (enough something).mpr below⟩, fun ofs inside => if_pos ?_⟩
      omega

/-- The exact sizes for which allocations do not wrap around. -/
theorem allocationsFit_iff (size a b : Nat) (small : size < 2 ^ 32) :
    (heap.MallocFits size ↔ size + 11 < 2 ^ 32) ∧
      (heap.CallocFits a b ↔ a * b + 11 < 2 ^ 32 ∨ (a * b % 2 ^ 32 < a ∨ a * b % 2 ^ 32 < b) ∨
        2 ^ 32 ≤ a * b % 2 ^ 32 + 4107 ∧ a * b % 2 ^ 32 + 11 < 2 ^ 32) :=
  ⟨mallocFits_iff listed room small, callocFits_iff listed room a b⟩

end

theorem listed_init : init.Listed := fun _ _ listed => by cases listed

theorem freshPage_init : init.FreshPage pgSize := ⟨by decide, by decide, by decide, rfl⟩

theorem allocationsFit_ten :
    (init.MallocFits 10 ↔ 10 + 11 < 2 ^ 32) ∧ (init.CallocFits 2 5 ↔ 2 * 5 + 11 < 2 ^ 32 ∨
      (2 * 5 % 2 ^ 32 < 2 ∨ 2 * 5 % 2 ^ 32 < 5) ∨
      2 ^ 32 ≤ 2 * 5 % 2 ^ 32 + 4107 ∧ 2 * 5 % 2 ^ 32 + 11 < 2 ^ 32) :=
  allocationsFit_iff listed_init ⟨_, freshPage_init⟩ 10 2 5 (by decide)

/-- `malloc (0xffffffff)` returns a block of 4084 bytes, and `calloc (65537, 65537)` one of less than
2^32 bytes. -/
theorem allocations_wrap : ¬ init.MallocFits 0xffffffff ∧ ¬ init.CallocFits 65537 65537 := by
  constructor
  · rw [mallocFits_iff listed_init ⟨_, freshPage_init⟩ (by decide)]
    decide
  · rw [callocFits_iff listed_init ⟨_, freshPage_init⟩]
    decide

end Pintos.Threads.Heap
