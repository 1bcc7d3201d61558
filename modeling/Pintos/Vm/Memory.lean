import Pintos.Vm.SwapTable

/-!
# Frames and pages

The functions of `frame.c` and `page.c`, one call after the other, on the list of frames, the page
entries of the processes, their page directories, the user pool and the swap table.  Entries and
frames are known by their addresses; an address is not handed out twice, so that a pointer to freed
memory stays visible as one.  A failed `ASSERT`, a panic of the block layer and the use of freed memory
are `none`.  Memory for entries, frames and page tables can be had.
-/

namespace Pintos.Vm

open Function

abbrev physBase : Nat := 0xc0000000

/-- The address of the page of a user address. -/
def pageOf (uaddr : Nat) : Nat := uaddr / pageSize * pageSize

structure Frame where
  tid : Nat
  upage : Option Nat
  kpage : Nat
  pinned : Bool
  asyncWrite : Bool

structure PageEntry where
  tid : Nat
  uaddr : Nat
  writable : Bool
  frame : Option Nat
  /-- The first sector of the slot. -/
  swap : Option Nat
  file : Option Nat
  offset : Nat
  readBytes : Nat

/-- The state of the virtual memory system. -/
structure Memory where
  allFrames : List Nat
  frames : Nat → Option Frame
  /-- The lists `pages` of the processes. -/
  pages : Nat → List Nat
  entries : Nat → Option PageEntry
  /-- The page directories: the frame that a process has at a user address. -/
  pagedir : Nat × Nat → Option Nat
  /-- The bitmap of the user pool. -/
  used : Nat → Bool
  poolSize : Nat
  /-- The bytes of the user pool, by page. -/
  contents : Nat → Buffer
  swapTable : SwapTable Nat
  /-- The processes in `all_list`. -/
  alive : Nat → Bool
  /-- The next address that `malloc` hands out. -/
  heapTop : Nat

/-- What `evict_frame` finds on its way round the clock: the victim among the frames that are not
pinned, the frames whose dirty bits it moves to `async_write`, and the dirty bit of the victim. -/
structure Policy where
  choose : List Nat → Nat
  chooses : ∀ frames, frames ≠ [] → choose frames ∈ frames
  marked : Nat → Bool
  dirty : Bool

/-- What a load depends on besides the memory. -/
structure Chance extends Policy where
  /-- `file_read` at an offset: the number of bytes, and the bytes. -/
  fileRead : (file offset size : Nat) → Nat × Buffer

namespace Memory

abbrev setEntry (memory : Memory) (e : Nat) (entry : Option PageEntry) : Memory :=
  { memory with entries := update memory.entries e entry }

abbrev setFrame (memory : Memory) (fp : Nat) (frame : Option Frame) : Memory :=
  { memory with frames := update memory.frames fp frame }

/-- `pagedir_set_page` and `pagedir_clear_page`. -/
abbrev setPage (memory : Memory) (tid uaddr : Nat) (kpage : Option Nat) : Memory :=
  { memory with pagedir := update memory.pagedir (tid, uaddr) kpage }

abbrev fill (memory : Memory) (kpage : Nat) (bytes : Buffer) : Memory :=
  { memory with contents := update memory.contents kpage bytes }

abbrev setSwapTable (memory : Memory) (swapTable : SwapTable Nat) : Memory :=
  { memory with swapTable }

/-- Write the bitmap of the user pool and the list of frames. -/
abbrev setPool (memory : Memory) (used : Nat → Bool) (allFrames : List Nat) : Memory :=
  { memory with used, allFrames }

/-! ## Page entries -/

def getPageEntry (memory : Memory) (tid uaddr : Nat) : Option Nat :=
  (memory.pages tid).find? fun e =>
    (memory.entries e).any fun entry => entry.uaddr == pageOf uaddr

/-- The entry that `allocate_page` makes. -/
def newEntry (tid uaddr : Nat) : PageEntry :=
  ⟨tid, pageOf uaddr, true, none, none, none, 0, 0⟩

def allocatePage (memory : Memory) (tid uaddr : Nat) : Memory × Option Nat :=
  match memory.getPageEntry tid uaddr with
  | some e =>
    (memory, if (memory.entries e).any fun entry => entry.tid == tid then some e else none)
  | none =>
    if uaddr < physBase ∧ uaddr ≠ 0 then
      ({ memory with
          entries := update memory.entries memory.heapTop (some (newEntry tid uaddr))
          pages := update memory.pages tid (memory.pages tid ++ [memory.heapTop])
          heapTop := memory.heapTop + 1 },
        some memory.heapTop)
    else
      (memory, none)

/-- The fields that `load_segment` fills in. -/
def describe (memory : Memory) (tid uaddr : Nat) (writable : Bool) (file : Option Nat)
    (offset readBytes : Nat) : Option Memory := do
  let e ← memory.getPageEntry tid uaddr
  let entry ← memory.entries e
  some (memory.setEntry e (some { entry with writable, file, offset, readBytes }))

/-! ## Swap -/

/-- `push_to_swap`; its result is not used. -/
def pushToSwap (memory : Memory) (fp : Nat) : Option Memory := do
  let frame ← memory.frames fp
  let e ← frame.upage
  let entry ← memory.entries e
  let holder ← memory.frames (← entry.frame)
  match ← memory.swapTable.pushToSwap e (memory.contents holder.kpage) with
  | (swapTable, some sector) =>
    some ((memory.setEntry e (some { entry with swap := some sector })).setSwapTable swapTable)
  | (swapTable, none) => some (memory.setSwapTable swapTable)

/-- `pull_from_swap`; its result is not used. -/
def pullFromSwap (memory : Memory) (e : Nat) : Option Memory :=
  match memory.swapTable.getSwappedPage e with
  | none => some memory
  | some slot => do
      let entry ← memory.entries e
      let frame ← memory.frames (← entry.frame)
      let bytes ← memory.swapTable.readSwap slot.sector (memory.contents frame.kpage)
      some (((memory.fill frame.kpage bytes).setEntry e (some { entry with swap := none })).setSwapTable
        (memory.swapTable.rotate slot.sector))

def freeSwap (memory : Memory) (sector : Nat) : Option Memory := do
  let (swapTable, owner) ← memory.swapTable.freeSwap sector
  let entry ← memory.entries owner
  if entry.swap.isSome then
    some ((memory.setEntry owner (some { entry with swap := none })).setSwapTable swapTable)
  else
    none

/-! ## Frames -/

/-- `palloc_get_page (PAL_USER | PAL_ZERO)`: the first page of the user pool that is free. -/
def pallocGetPage (memory : Memory) : Option Nat :=
  (List.range memory.poolSize).find? fun kpage => !memory.used kpage

/-- The frames that `evict_frame` may take. -/
def evictable (memory : Memory) : List Nat :=
  memory.allFrames.filter fun fp => (memory.frames fp).any fun frame => !frame.pinned

/-- The dirty bits that the clock hand has passed. -/
def mark (memory : Memory) (marked : Nat → Bool) : Memory :=
  { memory with
    frames := fun fp => (memory.frames fp).map fun frame =>
      { frame with asyncWrite := frame.asyncWrite || marked fp } }

/-- The page of a victim that is dirty goes to swap. -/
def pushDirty (memory : Memory) (fp : Nat) (dirty : Bool) : Option Memory :=
  if dirty then memory.pushToSwap fp else some memory

/-- The part of `evict_frame` after the loop. -/
def unmapVictim (memory : Memory) (fp : Nat) (dirty : Bool) : Option Memory := do
  let frame ← memory.frames fp
  match frame.upage with
  | none => some memory
  | some e =>
    let entry ← memory.entries e
    if memory.alive frame.tid then
      let memory := memory.setPage frame.tid entry.uaddr none
      let memory ← memory.pushDirty fp (dirty || frame.asyncWrite)
      let entry ← memory.entries e
      some (((memory.fill frame.kpage Buffer.zeros).setEntry e
        (some { entry with frame := none })).setFrame fp
        (some { frame with upage := none, asyncWrite := false }))
    else
      none

def evictFrame (memory : Memory) (policy : Policy) : Option (Memory × Nat) :=
  if memory.evictable = [] then
    none
  else do
    let fp := policy.choose memory.evictable
    let memory ← (memory.mark policy.marked).unmapVictim fp policy.dirty
    some (memory, fp)

/-- A page of the user pool gets a frame. -/
abbrev newFrame (memory : Memory) (kpage : Nat) : Memory × Nat :=
  ({ memory with
      contents := update memory.contents kpage Buffer.zeros
      frames := update memory.frames memory.heapTop (some ⟨0, none, kpage, false, false⟩)
      used := update memory.used kpage true
      allFrames := memory.allFrames ++ [memory.heapTop]
      heapTop := memory.heapTop + 1 },
    memory.heapTop)

/-- A frame for a page: a new one, or that of a victim. -/
def getFrame (memory : Memory) (policy : Policy) : Option (Memory × Nat) :=
  match memory.pallocGetPage with
  | some kpage => some (memory.newFrame kpage)
  | none => memory.evictFrame policy

/-- The end of `allocate_frame`. -/
def assign (memory : Memory) (fp e : Nat) : Option Memory := do
  let frame ← memory.frames fp
  let entry ← memory.entries e
  if frame.asyncWrite || frame.pinned then
    none
  else
    some ((memory.setFrame fp (some { frame with upage := some e, tid := entry.tid })).setEntry e
      (some { entry with frame := some fp }))

def allocateFrame (memory : Memory) (e : Nat) (policy : Policy) : Option (Memory × Nat) := do
  let entry ← memory.entries e
  if entry.uaddr = 0 ∨ entry.frame.isSome then
    none
  else
    let (memory, fp) ← memory.getFrame policy
    let memory ← memory.assign fp e
    some (memory, fp)

def freeFrame (memory : Memory) (fp : Nat) : Option Memory := do
  let frame ← memory.frames fp
  let e ← frame.upage
  let entry ← memory.entries e
  if entry.frame.isSome ∧ entry.uaddr ≠ 0 ∧ memory.alive frame.tid ∧ memory.used frame.kpage ∧
      fp ∈ memory.allFrames then
    some ((((memory.setPage frame.tid entry.uaddr none).setEntry e
      (some { entry with frame := none })).setFrame fp none).setPool
      (update memory.used frame.kpage false) (memory.allFrames.erase fp))
  else
    none

/-- `install_frame`.  If the address is mapped already, freed memory is read. -/
def installFrame (memory : Memory) (tid fp : Nat) : Option (Memory × Bool) := do
  let frame ← memory.frames fp
  let entry ← memory.entries (← frame.upage)
  if entry.uaddr ≠ 0 ∧ frame.tid = tid ∧ memory.pagedir (tid, entry.uaddr) = none then
    some (memory.setPage tid entry.uaddr (some frame.kpage), true)
  else
    none

/-- `pin_frame` and `unpin_frame`; the flag of a frame that was freed just before is not read again. -/
def pin (memory : Memory) (fp : Nat) (pinned : Bool) : Memory :=
  memory.setFrame fp ((memory.frames fp).map fun frame => { frame with pinned })

/-! ## Pages -/

/-- The bytes of a page come from swap, from its file, or are zero. -/
def loadFrame (memory : Memory) (tid e fp : Nat) (chance : Chance) : Option (Memory × Bool) := do
  let entry ← memory.entries e
  match entry.swap, entry.file with
  | some _, _ => (← memory.pullFromSwap e).installFrame tid fp
  | none, some file =>
    if 0 < entry.readBytes then
      let frame ← memory.frames fp
      let (bytesRead, bytes) := chance.fileRead file entry.offset entry.readBytes
      let memory := memory.fill frame.kpage ((memory.contents frame.kpage).copy 0 bytes 0 bytesRead)
      if bytesRead ≠ entry.readBytes then
        some (← memory.freeFrame fp, false)
      else
        memory.installFrame tid fp
    else
      memory.installFrame tid fp
  | none, none => memory.installFrame tid fp

def loadPageEntry (memory : Memory) (tid : Nat) (e : Option Nat) (chance : Chance) :
    Option (Memory × Bool) :=
  match e with
  | none => some (memory, false)
  | some e => do
      let entry ← memory.entries e
      if entry.frame.isSome then
        none
      else
        let (memory, fp) ← memory.allocateFrame e chance.toPolicy
        let (memory, success) ← (memory.pin fp true).loadFrame tid e fp chance
        some (memory.pin fp false, success)

def freePageEntry (memory : Memory) (e : Nat) : Option Memory := do
  let entry ← memory.entries e
  let memory ← entry.frame.elim (some memory) memory.freeFrame
  let memory ← entry.swap.elim (some memory) memory.freeSwap
  some (memory.setEntry e none)

/-- An entry leaves the table of its process. -/
abbrev setPages (memory : Memory) (tid : Nat) (pages : List Nat) : Memory :=
  { memory with pages := update memory.pages tid pages }

def freePage (memory : Memory) (tid uaddr : Nat) : Option Memory :=
  match memory.getPageEntry tid uaddr with
  | none => some memory
  | some e => (memory.setPages tid ((memory.pages tid).erase e)).freePageEntry e

/-- The loop of `page_table_destroy`. -/
def freePages (tid : Nat) : Memory → List Nat → Option Memory
  | memory, [] => some memory
  | memory, e :: rest => do freePages tid (← (memory.setPages tid rest).freePageEntry e) rest

def pageTableDestroy (memory : Memory) (tid : Nat) : Option Memory :=
  freePages tid memory (memory.pages tid)

def init (poolSize swapSize : Nat) (disk : Nat → Buffer) (contents : Nat → Buffer) : Memory where
  allFrames := []
  frames _ := none
  pages _ := []
  entries _ := none
  pagedir _ := none
  used _ := false
  poolSize
  contents
  swapTable := .swapInit Nat swapSize disk
  alive _ := false
  heapTop := 0

end Memory

/-- A call by a process, or its start or end. -/
inductive MemoryCall
  | start (tid : Nat)
  | allocatePage (tid uaddr : Nat)
  | describe (tid uaddr : Nat) (writable : Bool) (file : Option Nat) (offset readBytes : Nat)
  /-- `load_page_entry` of any pointer. -/
  | loadPageEntry (tid : Nat) (e : Option Nat) (chance : Chance)
  | freePage (tid uaddr : Nat)
  | pageTableDestroy (tid : Nat)
  /-- `process_exit`, up to the end of the page table. -/
  | exit (tid : Nat)
  /-- A store by a process, or by the kernel, to a page of the user pool. -/
  | store (kpage : Nat) (bytes : Buffer)

def Memory.step (memory : Memory) : MemoryCall → Option Memory
  | .start tid =>
    if memory.alive tid then none
    else some { memory with alive := update memory.alive tid true }
  | .allocatePage tid uaddr =>
    if memory.alive tid then some (memory.allocatePage tid uaddr).1 else none
  | .describe tid uaddr writable file offset readBytes =>
    memory.describe tid uaddr writable file offset readBytes
  | .loadPageEntry tid e chance => (memory.loadPageEntry tid e chance).map Prod.fst
  | .freePage tid uaddr => memory.freePage tid uaddr
  | .pageTableDestroy tid => memory.pageTableDestroy tid
  | .exit tid => do
      let memory ← memory.pageTableDestroy tid
      some { memory with alive := update memory.alive tid false }
  | .store kpage bytes => some (memory.fill kpage bytes)

end Pintos.Vm
