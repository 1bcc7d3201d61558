import Mathlib.Logic.Function.Basic
import Pintos.Lib.Execution

/-!
# Paging

The frame table, the supplemental page tables and the swap table of `vm/`, with the dirty and
accessed bits that the hardware keeps in the page tables.  `load_page_entry` runs under
`paging_sema`, so at most one process pages at a time; between its sections other processes go on
using their pages.  A failed `ASSERT` or a panic of the block layer is `none`.  Processes do not
exit here, files do not change, and page tables can always be extended.
-/

namespace Pintos.Paging

open Function

/-- The bytes of a page, by offset. -/
abbrev Bytes := Nat → UInt8

/-- A user page: the process that owns it and its page-aligned address. -/
structure Page where
  tid : Nat
  uaddr : Nat
  deriving DecidableEq

structure PageEntry where
  writable : Bool
  /-- Index of the frame that holds the page. -/
  frame : Option Nat
  /-- First sector of the swap slot that holds the page. -/
  swap : Option Nat
  /-- Bytes of the backing file from the offset of the page on. -/
  file : Option Bytes
  readBytes : Nat

/-- `struct frame`; frames are numbered by their place in `all_frames`. -/
structure Frame where
  upage : Option Page
  pinned : Bool
  asyncWrite : Bool
  deriving DecidableEq

/-- A page table entry; a missing page table reads as empty entries. -/
structure Pte where
  /-- The frame it maps, when the page is present. -/
  kpage : Option Nat
  writable : Bool
  dirty : Bool
  accessed : Bool
  deriving DecidableEq

@[ext]
structure SwapSlot where
  sector : Nat
  upage : Option Page
  deriving DecidableEq

/-- Where `load_page_entry` has got to. -/
inductive Stage
  /-- `allocate_frame` asks for a free page. -/
  | allocate
  /-- The head of the loop of `evict_frame`, with `old_clockhand` and `revolution`. -/
  | clock (old revolution : Nat)
  /-- The dirty bit of the inspected frame is to be remembered. -/
  | clean (old revolution fp : Nat) (found : Bool)
  /-- The clock hand is to be advanced. -/
  | advance (old revolution fp : Nat) (found : Bool)
  /-- The victim is to be unmapped. -/
  | unmap (fp : Nat)
  /-- The victim is to be written to swap if it is dirty. -/
  | push (fp : Nat)
  /-- The victim is to be cleared. -/
  | detach (fp : Nat)
  /-- `allocate_frame` assigns the frame to the page. -/
  | assign (fp : Nat)
  /-- The page is to be read in. -/
  | load (fp : Nat)
  /-- `install_frame`. -/
  | install (fp : Nat)
  /-- The frame is to be unpinned. -/
  | unpin (fp : Nat)
  deriving DecidableEq

/-- The process inside `load_page_entry`. -/
structure Pager where
  page : Page
  stage : Stage
  deriving DecidableEq

/-- The state of the virtual memory system. -/
structure Vm where
  entry : Page → Option PageEntry
  /-- The page directories: the entry of a process for a user address. -/
  pte : Page → Pte
  frame : Nat → Frame
  /-- Length of `all_frames`. -/
  frames : Nat
  /-- Size of the user pool. -/
  pool : Nat
  contents : Nat → Bytes
  /-- Dirty bit of the kernel mapping of a frame. -/
  kernelDirty : Nat → Bool
  /-- Accessed bit of the kernel mapping of a frame. -/
  kernelAccessed : Nat → Bool
  clockhand : Option Nat
  swapList : List SwapSlot
  nextSector : Nat
  swapSize : Nat
  /-- Contents of the swap slot that starts at a sector. -/
  swapDisk : Nat → Bytes
  pager : Option Pager

/-- Sectors of a page: `PGSIZE / BLOCK_SECTOR_SIZE`. -/
def pageSectors : Nat := 8

/-- What is read in for a page that is not swapped. -/
def image (file : Option Bytes) (readBytes : Nat) : Bytes :=
  match file with
  | none => fun _ => 0
  | some bytes => fun offset => if offset < readBytes then bytes offset else 0

namespace Vm

def goto (vm : Vm) (page : Page) (stage : Stage) : Vm :=
  { vm with pager := some ⟨page, stage⟩ }

def setPte (vm : Vm) (page : Page) (pte : Pte) : Vm :=
  { vm with pte := update vm.pte page pte }

def setFrame (vm : Vm) (fp : Nat) (frame : Frame) : Vm :=
  { vm with frame := update vm.frame fp frame }

def setEntry (vm : Vm) (page : Page) (entry : PageEntry) : Vm :=
  { vm with entry := update vm.entry page (some entry) }

def fill (vm : Vm) (fp : Nat) (bytes : Bytes) : Vm :=
  { vm with
    contents := update vm.contents fp bytes
    kernelDirty := update vm.kernelDirty fp true }

/-! ## Status of a frame -/

/-- `is_dirty`, in the page directory of the current process. -/
def isDirty (vm : Vm) (current fp : Nat) (upage : Page) : Bool :=
  (vm.pte ⟨current, upage.uaddr⟩).dirty || vm.kernelDirty fp

/-- `is_accessed`, in the page directory of the current process. -/
def isAccessed (vm : Vm) (current fp : Nat) (upage : Page) : Bool :=
  (vm.pte ⟨current, upage.uaddr⟩).accessed || vm.kernelAccessed fp

/-- `set_dirty (fp, false)`. -/
def clearDirty (vm : Vm) (current fp : Nat) (upage : Page) : Vm :=
  { vm.setPte ⟨current, upage.uaddr⟩ { vm.pte ⟨current, upage.uaddr⟩ with dirty := false } with
    kernelDirty := update vm.kernelDirty fp false }

/-- `set_accessed (fp, false)`. -/
def clearAccessed (vm : Vm) (current fp : Nat) (upage : Page) : Vm :=
  { vm.setPte ⟨current, upage.uaddr⟩ { vm.pte ⟨current, upage.uaddr⟩ with accessed := false } with
    kernelAccessed := update vm.kernelAccessed fp false }

def isReadonly (vm : Vm) (upage : Page) : Bool :=
  match vm.entry upage with
  | some entry => !entry.writable
  | none => false

/-! ## Swap -/

def getFreeSlot (vm : Vm) : Option SwapSlot × Vm :=
  match vm.swapList.getLast? with
  | some ⟨sector, none⟩ =>
    (some ⟨sector, none⟩, { vm with swapList := vm.swapList.dropLast })
  | _ =>
    if vm.nextSector < vm.swapSize then
      (some ⟨vm.nextSector, none⟩, { vm with nextSector := vm.nextSector + pageSectors })
    else
      (none, vm)

/-- `push_to_swap`, which leaves everything as it is when there is no slot.  A slot that does not
fit on the device panics. -/
def pushToSwap (vm : Vm) (fp : Nat) (upage : Page) (entry : PageEntry) : Option Vm :=
  match vm.getFreeSlot with
  | (none, _) => some vm
  | (some slot, taken) =>
    if slot.sector + pageSectors ≤ vm.swapSize then
      some { taken.setEntry upage { entry with swap := some slot.sector } with
          swapList := ⟨slot.sector, some upage⟩ :: taken.swapList
          swapDisk := update taken.swapDisk slot.sector (vm.contents fp) }
    else
      none

def getSwappedPage (vm : Vm) (upage : Page) : Option SwapSlot :=
  vm.swapList.find? fun slot => slot.upage == some upage

def pullFromSwap (vm : Vm) (fp : Nat) (upage : Page) (entry : PageEntry) : Vm :=
  match vm.getSwappedPage upage with
  | none => vm
  | some slot =>
    { (vm.fill fp (vm.swapDisk slot.sector)).setEntry upage { entry with swap := none } with
      swapList := vm.swapList.erase slot ++ [⟨slot.sector, none⟩] }

/-! ## Sections of `load_page_entry` -/

/-- The test of the loop of `evict_frame` on a frame in use. -/
def suitable (vm : Vm) (current revolution fp : Nat) (upage : Page) : Bool :=
  !(vm.frame fp).pinned &&
    match revolution with
    | 0 => vm.isReadonly upage || (!vm.isAccessed current fp upage && !vm.isDirty current fp upage)
    | 1 => vm.isReadonly upage || !vm.isDirty current fp upage
    | _ => true

/-- `palloc_get_page`, or else the start of `evict_frame`. -/
def allocate (vm : Vm) (page : Page) : Vm :=
  if vm.frames < vm.pool then
    { (vm.fill vm.frames fun _ => 0).setFrame vm.frames ⟨none, false, false⟩ with
      frames := vm.frames + 1 }.goto page (.assign vm.frames)
  else
    let hand :=
      match vm.clockhand with
      | none => 0
      | some hand => if hand = vm.frames then 0 else hand
    { vm with clockhand := some hand }.goto page (.clock hand 0)

/-- One test of the loop of `evict_frame`.  The calls of `set_accessed` and `is_dirty` that follow
assert that the frame is in use. -/
def clock (vm : Vm) (page : Page) (old revolution : Nat) : Option Vm :=
  if revolution < 3 then
    match vm.clockhand with
    | none => none
    | some fp =>
      if fp < vm.frames then
        match (vm.frame fp).upage with
        | none => none
        | some upage =>
          some ((vm.clearAccessed page.tid fp upage).goto page
            (.clean old revolution fp (vm.suitable page.tid revolution fp upage)))
      else
        none
  else
    none

/-- The dirty bit is cleared and remembered in `async_write`. -/
def clean (vm : Vm) (page : Page) (old revolution fp : Nat) (found : Bool) : Option Vm :=
  match (vm.frame fp).upage with
  | none => none
  | some upage =>
    let cleaned := if vm.isDirty page.tid fp upage then
        (vm.clearDirty page.tid fp upage).setFrame fp { vm.frame fp with asyncWrite := true }
      else
        vm
    some (cleaned.goto page (.advance old revolution fp found))

/-- The clock hand moves on; the loop ends when a victim was found, which is then pinned. -/
def advance (vm : Vm) (page : Page) (old revolution fp : Nat) (found : Bool) : Option Vm :=
  match vm.clockhand with
  | none => none
  | some hand =>
    let next := if hand + 1 = vm.frames then 0 else hand + 1
    let moved := { vm with clockhand := some next }
    if found then
      some ((moved.setFrame fp { vm.frame fp with pinned := true }).goto page (.unmap fp))
    else
      some (moved.goto page (.clock old (if next = old then revolution + 1 else revolution)))

/-- `pagedir_clear_page` for the owner of the victim. -/
def unmap (vm : Vm) (page : Page) (fp : Nat) : Vm :=
  match (vm.frame fp).upage with
  | none => vm.goto page (.assign fp)
  | some upage => (vm.setPte upage { vm.pte upage with kpage := none }).goto page (.push fp)

/-- A dirty victim is written to swap; the result of `push_to_swap` is not used. -/
def push (vm : Vm) (page : Page) (fp : Nat) : Option Vm :=
  match (vm.frame fp).upage with
  | none => none
  | some upage =>
    match vm.entry upage with
    | none => none
    | some entry =>
      if vm.isDirty page.tid fp upage || (vm.frame fp).asyncWrite then
        (vm.pushToSwap fp upage entry).map fun pushed =>
          (pushed.setFrame fp { vm.frame fp with asyncWrite := false }).goto page (.detach fp)
      else
        some (vm.goto page (.detach fp))

/-- The victim's frame is zeroed and loses its page. -/
def detach (vm : Vm) (page : Page) (fp : Nat) : Option Vm :=
  match (vm.frame fp).upage with
  | none => none
  | some upage =>
    match vm.entry upage with
    | none => none
    | some entry =>
      some ((((vm.fill fp fun _ => 0).setEntry upage { entry with frame := none }).setFrame fp
        { vm.frame fp with upage := none, pinned := false }).goto page (.assign fp))

/-- The end of `allocate_frame`, after which `load_page_entry` pins the frame. -/
def assign (vm : Vm) (page : Page) (fp : Nat) : Option Vm :=
  match vm.entry page with
  | none => none
  | some entry =>
    if (vm.frame fp).asyncWrite || (vm.frame fp).pinned then
      none
    else
      some ((((vm.setFrame fp { vm.frame fp with upage := some page, pinned := true }).setEntry page
        { entry with frame := some fp }).clearDirty page.tid fp page).goto page (.load fp))

/-- The page is read from swap or from its file, or stays zero. -/
def load (vm : Vm) (page : Page) (fp : Nat) : Option Vm :=
  match vm.entry page with
  | none => none
  | some entry =>
    let loaded :=
      match entry.swap, entry.file with
      | some _, _ => vm.pullFromSwap fp page entry
      | none, some bytes =>
        if 0 < entry.readBytes then
          vm.fill fp fun offset =>
            if offset < entry.readBytes then bytes offset else vm.contents fp offset
        else
          vm
      | none, none => vm
    some (loaded.goto page (.install fp))

/-- `install_frame`, for an address that is not mapped. -/
def install (vm : Vm) (page : Page) (fp : Nat) : Option Vm :=
  match vm.entry page, (vm.pte page).kpage with
  | some entry, none =>
    some ((vm.setPte page ⟨some fp, entry.writable, false, false⟩).goto page (.unpin fp))
  | _, _ => none

/-- `unpin_frame` and the end of `load_page_entry`. -/
def unpin (vm : Vm) (fp : Nat) : Vm :=
  { vm.setFrame fp { vm.frame fp with pinned := false } with pager := none }

end Vm

inductive Event
  /-- `allocate_page`, with the fields that its caller fills in. -/
  | allocatePage (page : Page) (writable : Bool) (file : Option Bytes) (readBytes : Nat)
  /-- A user store to a present, writable page. -/
  | store (page : Page) (offset : Nat) (value : UInt8)
  /-- A user load from a present page. -/
  | read (page : Page)
  /-- A page fault: `load_page_entry` for a page that is not present. -/
  | fault (page : Page)
  /-- The next section of the process that pages. -/
  | pager

/-- The process of a page is inside `load_page_entry`. -/
def Vm.paging (vm : Vm) (page : Page) : Bool :=
  match vm.pager with
  | some pager => pager.page.tid == page.tid
  | none => false

def Vm.pagerStep (vm : Vm) : Option Vm :=
  match vm.pager with
  | none => none
  | some ⟨page, stage⟩ =>
    match stage with
    | .allocate => some (vm.allocate page)
    | .clock old revolution => vm.clock page old revolution
    | .clean old revolution fp found => vm.clean page old revolution fp found
    | .advance old revolution fp found => vm.advance page old revolution fp found
    | .unmap fp => some (vm.unmap page fp)
    | .push fp => vm.push page fp
    | .detach fp => vm.detach page fp
    | .assign fp => vm.assign page fp
    | .load fp => vm.load page fp
    | .install fp => vm.install page fp
    | .unpin fp => some (vm.unpin fp)

def Vm.step (vm : Vm) : Event → Option Vm
  | .allocatePage page writable file readBytes =>
    match vm.entry page with
    | none => some (vm.setEntry page ⟨writable, none, none, file, readBytes⟩)
    | some _ => none
  | .store page offset value =>
    match (vm.pte page).kpage with
    | none => none
    | some fp =>
      if (vm.pte page).writable && !vm.paging page then
        some { vm.setPte page { vm.pte page with dirty := true, accessed := true } with
            contents := update vm.contents fp (update (vm.contents fp) offset value) }
      else
        none
  | .read page =>
    match (vm.pte page).kpage with
    | none => none
    | some _ => some (vm.setPte page { vm.pte page with accessed := true })
  | .fault page =>
    match vm.pager, vm.entry page with
    | none, some entry =>
      if entry.frame = none then some (vm.goto page .allocate) else none
    | _, _ => none
  | .pager => vm.pagerStep

/-- A system with `pool` user frames and a swap device of `swapSize` sectors. -/
def Vm.boot (pool swapSize : Nat) : Vm where
  entry _ := none
  pte _ := ⟨none, false, false, false⟩
  frame _ := ⟨none, false, false⟩
  frames := 0
  pool
  contents _ _ := 0
  kernelDirty _ := false
  kernelAccessed _ := false
  clockhand := none
  swapList := []
  nextSector := 0
  swapSize
  swapDisk _ _ := 0
  pager := none

/-! ## Flat memory -/

/-- What paging is for: every page keeps its own bytes. -/
abbrev Memory := Page → Bytes

/-- Only the owner's stores change a page. -/
def Memory.step (memory : Memory) : Event → Memory
  | .allocatePage page _ file readBytes => update memory page (image file readBytes)
  | .store page offset value =>
    update memory page (update (memory page) offset value)
  | _ => memory

/-- The paged system and the flat memory side by side. -/
structure System where
  vm : Vm
  memory : Memory

/-- Both take the same step. -/
def System.step (system : System) (event : Event) : Option System :=
  (system.vm.step event).map fun vm => ⟨vm, system.memory.step event⟩

def System.boot (pool swapSize : Nat) : System :=
  ⟨Vm.boot pool swapSize, fun _ _ => 0⟩

/-- Every page that is present holds its bytes. -/
def DataKept (s : System) : Prop :=
  ∀ page fp, (s.vm.pte page).kpage = some fp → s.vm.contents fp = s.memory page

end Pintos.Paging
