import Mathlib.Data.List.Nodup
import Pintos.Lib.Buffer
import Pintos.Lib.Execution

/-!
# The swap table

The functions of `swap.c`.  Pages are known by the addresses of their entries, slots by their first
sectors.  A page that comes back from swap has the bytes with which it left, and a slot is made only
if all others are in use, so that the device is full when no slot is found.
-/

namespace Pintos.Vm

open Function Option List

abbrev pageSize : Nat := 4096

/-- `PGSIZE / BLOCK_SECTOR_SIZE`. -/
abbrev pageSectors : Nat := 8

structure SwapSlot (Page : Type) where
  sector : Nat
  upage : Option Page
  deriving DecidableEq

/-- The swap device and `swap_list`. -/
structure SwapTable (Page : Type) where
  swapList : List (SwapSlot Page)
  nextSector : Nat
  swapSize : Nat
  /-- The contents of the sectors of `swap_block`. -/
  disk : Nat → Buffer

namespace SwapTable

variable {Page : Type}

def swapInit (Page : Type) (swapSize : Nat) (disk : Nat → Buffer) : SwapTable Page :=
  ⟨[], 0, swapSize, disk⟩

/-- `get_free_slot`: the first sector of the slot. -/
def getFreeSlot (table : SwapTable Page) : Option Nat × SwapTable Page :=
  match table.swapList.getLast? with
  | some ⟨sector, none⟩ => (some sector, { table with swapList := table.swapList.dropLast })
  | _ =>
    if table.nextSector < table.swapSize then
      (some table.nextSector, { table with nextSector := table.nextSector + pageSectors })
    else
      (none, table)

/-- The loop of `write_swap`; `block_write` panics past the end of the device. -/
def writeSwap (table : SwapTable Page) (sector : Nat) (kpage : Buffer) : Option (SwapTable Page) :=
  (List.range pageSectors).foldlM (fun table i =>
    if sector + i < table.swapSize then
      some { table with disk := update table.disk (sector + i) (kpage.drop (i * 512)) }
    else
      none) table

/-- The loop of `read_swap`, on the frame of the page. -/
def readSwap (table : SwapTable Page) (sector : Nat) (kpage : Buffer) : Option Buffer :=
  (List.range pageSectors).foldlM (fun (kpage : Buffer) i =>
    if sector + i < table.swapSize then
      some (kpage.copy (i * 512) (table.disk (sector + i)) 0 512)
    else
      none) kpage

/-- `push_to_swap` of a page in a frame: the slot, if there is one. -/
def pushToSwap (table : SwapTable Page) (page : Page) (kpage : Buffer) :
    Option (SwapTable Page × Option Nat) :=
  match table.getFreeSlot with
  | (none, table) => some (table, none)
  | (some sector, table) => do
      let table ← table.writeSwap sector kpage
      some ({ table with swapList := ⟨sector, some page⟩ :: table.swapList }, some sector)

variable [DecidableEq Page]

def getSwappedPage (table : SwapTable Page) (page : Page) : Option (SwapSlot Page) :=
  table.swapList.find? fun slot => slot.upage == some page

/-- A slot becomes free and goes to the end of the list. -/
def rotate (table : SwapTable Page) (sector : Nat) : SwapTable Page :=
  { table with
    swapList := table.swapList.eraseP (fun slot => slot.sector == sector) ++ [⟨sector, none⟩] }

/-- `free_swap`: the page that had the slot. -/
def freeSwap (table : SwapTable Page) (sector : Nat) : Option (SwapTable Page × Page) := do
  let slot ← table.swapList.find? fun slot => slot.sector == sector
  let page ← slot.upage
  some (table.rotate sector, page)

end SwapTable

/-! ## Swapping -/

/-- The swap table with what it uses of the page entries. -/
structure Swapping (Page : Type) where
  table : SwapTable Page
  /-- The field `swap` of an entry. -/
  swap : Page → Option Nat
  /-- The bytes of the frame of an entry. -/
  frame : Page → Option Buffer

/-- A call of the swap table, or a change to a frame between two calls. -/
inductive SwapCall (Page : Type)
  | setFrame (page : Page) (frame : Option Buffer)
  | pushToSwap (page : Page)
  | pullFromSwap (page : Page)
  | freeSwap (page : Page)

namespace Swapping

variable {Page : Type} [DecidableEq Page]

/-- `push_to_swap` of a page that is resident and not swapped. -/
def pushToSwap (swapping : Swapping Page) (page : Page) : Option (Swapping Page × Bool) :=
  match swapping.frame page, swapping.swap page with
  | some kpage, none => do
      let (table, slot) ← swapping.table.pushToSwap page kpage
      some ({ swapping with table, swap := update swapping.swap page slot }, slot.isSome)
  | _, _ => none

def pullFromSwap (swapping : Swapping Page) (page : Page) : Option (Swapping Page × Bool) :=
  match swapping.table.getSwappedPage page with
  | none => some (swapping, false)
  | some slot => do
      let kpage ← swapping.frame page
      let kpage ← swapping.table.readSwap slot.sector kpage
      some
        ({ table := swapping.table.rotate slot.sector
           swap := update swapping.swap page none
           frame := update swapping.frame page (some kpage) },
          true)

/-- `free_swap` of the slot of an entry. -/
def freeSwap (swapping : Swapping Page) (page : Page) : Option (Swapping Page) := do
  let sector ← swapping.swap page
  let (table, owner) ← swapping.table.freeSwap sector
  if (swapping.swap owner).isSome then
    some { swapping with table, swap := update swapping.swap owner none }
  else
    none

/-- The number of slots that hold a page. -/
def inUse (swapping : Swapping Page) : Nat :=
  swapping.table.swapList.countP fun slot => slot.upage.isSome

end Swapping

/-- The swap table of a run, with the bytes of every page that is out and the largest number of slots
that were in use at once. -/
structure SwapRecord (Page : Type) extends Swapping Page where
  pushed : Page → Option Buffer
  peak : Nat

namespace SwapRecord

variable {Page : Type} [DecidableEq Page]

/-- The record after a call. -/
def record (before : SwapRecord Page) (after : Swapping Page) (pushed : Page → Option Buffer) :
    SwapRecord Page :=
  { after with pushed, peak := max before.peak after.inUse }

def step (before : SwapRecord Page) : SwapCall Page → Option (SwapRecord Page)
  | .setFrame page frame =>
    some (before.record
      { before.toSwapping with frame := update before.frame page frame } before.pushed)
  | .pushToSwap page => do
      let (after, success) ← before.toSwapping.pushToSwap page
      some (before.record after
        (if success then update before.pushed page (before.frame page) else before.pushed))
  | .pullFromSwap page => do
      let (after, _) ← before.toSwapping.pullFromSwap page
      some (before.record after (update before.pushed page none))
  | .freeSwap page => do
      let after ← before.toSwapping.freeSwap page
      some (before.record after (update before.pushed page none))

def init (swapSize : Nat) (disk : Nat → Buffer) (frame : Page → Option Buffer) :
    SwapRecord Page where
  table := .swapInit Page swapSize disk
  swap _ := none
  frame
  pushed _ := none
  peak := 0

end SwapRecord

/-! ## Sectors -/

namespace SwapTable

variable {Page : Type} {table s' : SwapTable Page} {sector : Nat} {kpage : Buffer}

/-- The device after a page has been written. -/
def written (table : SwapTable Page) (sector count : Nat) (kpage : Buffer) : SwapTable Page :=
  { table with disk := fun index =>
      if sector ≤ index ∧ index < sector + count then
        kpage.drop ((index - sector) * 512)
      else
        table.disk index }

theorem writeSwap_eq (inside : sector + pageSectors ≤ table.swapSize) :
    table.writeSwap sector kpage = some (table.written sector pageSectors kpage) := by
  suffices prefixes : ∀ count ≤ pageSectors, (range count).foldlM (fun table i =>
      if sector + i < table.swapSize then
        some { table with disk := update table.disk (sector + i) (kpage.drop (i * 512)) }
      else
        none) table = some (table.written sector count kpage) from prefixes pageSectors (Nat.le_refl _)
  intro count
  induction count with
  | zero =>
    intro _
    have unwritten : (fun index =>
        if sector ≤ index ∧ index < sector + 0 then kpage.drop ((index - sector) * 512)
        else table.disk index) = table.disk :=
      funext fun index => if_neg (by omega)
    simp only [range_zero, foldlM_nil, written, unwritten]
    rfl
  | succ count ih =>
    intro bounded
    rw [range_succ, foldlM_append, ih (by omega)]
    simp only [bind_eq_bind, bind_some, foldlM_cons, foldlM_nil, written,
      if_pos (show sector + count < table.swapSize by omega)]
    refine congrArg some ?_
    congr
    funext index
    by_cases last : index = sector + count
    · subst last
      rw [update_self, if_pos (by omega), Nat.add_sub_cancel_left]
    · rw [update_of_ne last]
      congr 1
      simp only [eq_iff_iff]
      omega

theorem writeSwap_inside (wrote : table.writeSwap sector kpage = some s') :
    sector + pageSectors ≤ table.swapSize := by
  suffices prefixes : ∀ count s', (range count).foldlM (fun table i =>
      if sector + i < table.swapSize then
        some { table with disk := update table.disk (sector + i) (kpage.drop (i * 512)) }
      else
        none) table = some s' →
      s'.swapSize = table.swapSize ∧ (0 < count → sector + count ≤ table.swapSize) from
    (prefixes pageSectors s' wrote).2 (by decide)
  intro count
  induction count with
  | zero =>
    intro s' done
    obtain rfl : table = s' := by simpa using done
    exact ⟨rfl, fun pos => absurd pos (by decide)⟩
  | succ count ih =>
    intro s' done
    rw [range_succ, foldlM_append] at done
    obtain ⟨mid, early, last⟩ := bind_eq_some_iff.mp done
    have size_eq := (ih mid early).1
    simp only [foldlM_cons, foldlM_nil] at last
    split at last
    · rename_i inside
      cases last
      exact ⟨size_eq, fun _ => by omega⟩
    · cases last

theorem readSwap_eq (inside : sector + pageSectors ≤ table.swapSize) :
    table.readSwap sector kpage = some fun ofs =>
      if ofs < pageSize then
        table.disk (sector + ofs / 512) (ofs % 512)
      else
        kpage ofs := by
  suffices prefixes : ∀ count ≤ pageSectors, (range count).foldlM (fun (kpage : Buffer) i =>
      if sector + i < table.swapSize then
        some (kpage.copy (i * 512) (table.disk (sector + i)) 0 512)
      else
        none) kpage = some fun ofs =>
          if ofs < count * 512 then
            table.disk (sector + ofs / 512) (ofs % 512)
          else
            kpage ofs from prefixes pageSectors (Nat.le_refl _)
  intro count
  induction count with
  | zero => simp
  | succ count ih =>
    intro bounded
    rw [range_succ, foldlM_append, ih (by omega)]
    simp only [bind_eq_bind, bind_some, foldlM_cons, foldlM_nil,
      if_pos (show sector + count < table.swapSize by omega)]
    refine congrArg some ?_
    funext ofs
    by_cases last : count * 512 ≤ ofs ∧ ofs < count * 512 + 512
    · rw [Buffer.copy_inside last.1 last.2, if_pos (by omega)]
      have block : ofs / 512 = count := by omega
      have rest : ofs % 512 = 0 + (ofs - count * 512) := by omega
      rw [block, rest]
    · rw [Buffer.copy_outside (by omega)]
      exact if_congr (by omega) rfl rfl

end SwapTable

end Pintos.Vm
