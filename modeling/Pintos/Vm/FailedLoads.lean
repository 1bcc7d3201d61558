import Pintos.Vm.Memory

/-!
# Failed loads

`load_page_entry` with the failures that loading leaves out: a page that cannot be mapped.  What it
reads or writes of a frame after `free_frame` has released it is recorded.
-/

namespace Pintos.Vm

/-- What a load that may fail depends on besides the memory. -/
structure Mishap extends Chance where
  /-- `pagedir_set_page` has memory for a page table. -/
  maps : Bool
  /-- What `is_present` finds through the page of a frame that was freed. -/
  stale : Bool

/-- What a load leaves, with the freed frames whose fields it used. -/
structure Load where
  memory : Memory
  success : Bool
  misused : List Nat

namespace Memory

/-- `install_frame`. -/
def installOrFree (memory : Memory) (tid fp : Nat) (mishap : Mishap) : Option Load := do
  let frame ← memory.frames fp
  let entry ← memory.entries (← frame.upage)
  if entry.uaddr ≠ 0 ∧ frame.tid = tid then
    if memory.pagedir (tid, entry.uaddr) = none ∧ mishap.maps then
      some ⟨memory.setPage tid entry.uaddr (some frame.kpage), true, []⟩
    else
      let memory ← memory.freeFrame fp
      -- the last assertion follows `fp->upage`
      if mishap.stale then none else some ⟨memory, false, [fp]⟩
  else
    none

/-- The part of `load_page_entry` that fills and installs the frame. -/
def fillFrame (memory : Memory) (tid e fp : Nat) (mishap : Mishap) : Option Load := do
  let entry ← memory.entries e
  match entry.swap, entry.file with
  | some _, _ => (← memory.pullFromSwap e).installOrFree tid fp mishap
  | none, some file =>
    if 0 < entry.readBytes then
      let frame ← memory.frames fp
      let (bytesRead, bytes) := mishap.fileRead file entry.offset entry.readBytes
      let memory := memory.fill frame.kpage ((memory.contents frame.kpage).copy 0 bytes 0 bytesRead)
      if bytesRead ≠ entry.readBytes then
        some ⟨← memory.freeFrame fp, false, []⟩
      else
        memory.installOrFree tid fp mishap
    else
      memory.installOrFree tid fp mishap
  | none, none => memory.installOrFree tid fp mishap

/-- `unpin_frame` at the end of a load, whether the frame is still there or not. -/
def unpinLoaded (load : Load) (fp : Nat) : Load where
  memory := load.memory.pin fp false
  success := load.success
  misused := if (load.memory.frames fp).isSome then load.misused else load.misused ++ [fp]

/-- `load_page_entry` for an entry that is there. -/
def tryLoad (memory : Memory) (tid e : Nat) (mishap : Mishap) : Option Load := do
  let entry ← memory.entries e
  if entry.frame.isSome then
    none
  else
    let (memory, fp) ← memory.allocateFrame e mishap.toPolicy
    let load ← (memory.pin fp true).fillFrame tid e fp mishap
    some (unpinLoaded load fp)

/-- A load leaves no trace of the frame it had, and its page where it was. -/
structure LeavesNoTrace (m : Memory) (e : Nat) (mishap : Mishap) (load : Load) : Prop where
  no_frame : ∀ entry ∈ load.memory.entries e, entry.frame = none
  still_swapped : (load.memory.entries e).map PageEntry.swap = (m.entries e).map PageEntry.swap
  same_slot : load.memory.swapTable.getSwappedPage e = m.swapTable.getSwappedPage e
  same_contents : ∀ slot ∈ m.swapTable.getSwappedPage e,
    load.memory.swapTable.readSwap slot.sector Buffer.zeros =
      m.swapTable.readSwap slot.sector Buffer.zeros
  released : ∀ allotted ∈ m.allocateFrame e mishap.toPolicy, ∀ frame ∈ allotted.1.frames allotted.2,
      allotted.2 ∉ load.memory.allFrames ∧ load.memory.used frame.kpage = false
  not_misused : load.misused = []

variable {m s' : Memory} {tid e fp : Nat} {mishap : Mishap} {load : Load}

theorem frames_freeFrame (freed : m.freeFrame fp = some s') : s'.frames fp = none := by
  unfold freeFrame at freed
  simp only [Option.bind_eq_bind, Option.bind_eq_some_iff] at freed
  obtain ⟨frame, _, e, _, entry, _, freed⟩ := freed
  split_ifs at freed
  cases freed
  exact Function.update_self ..

theorem frames_installOrFree (placed : m.installOrFree tid fp mishap = some load)
    (failed : load.success = false) : load.memory.frames fp = none := by
  unfold installOrFree at placed
  simp only [Option.bind_eq_bind, Option.bind_eq_some_iff] at placed
  obtain ⟨frame, _, e, _, entry, _, placed⟩ := placed
  split_ifs at placed with sound maps stale
  · cases placed
    cases failed
  · simp at placed
  · obtain ⟨s', freed, placed⟩ := Option.bind_eq_some_iff.mp placed
    cases placed
    exact frames_freeFrame freed

theorem frames_fillFrame (filled : m.fillFrame tid e fp mishap = some load)
    (failed : load.success = false) : load.memory.frames fp = none := by
  unfold fillFrame at filled
  simp only [Option.bind_eq_bind, Option.bind_eq_some_iff] at filled
  obtain ⟨entry, _, filled⟩ := filled
  split at filled
  · obtain ⟨pulled, _, placed⟩ := Option.bind_eq_some_iff.mp filled
    exact frames_installOrFree placed failed
  · split_ifs at filled with reads short
    · obtain ⟨frame, _, filled⟩ := Option.bind_eq_some_iff.mp filled
      obtain ⟨s', freed, filled⟩ := Option.bind_eq_some_iff.mp filled
      cases filled
      exact frames_freeFrame freed
    · obtain ⟨frame, _, placed⟩ := Option.bind_eq_some_iff.mp filled
      exact frames_installOrFree placed failed
    · exact frames_installOrFree filled failed
  · exact frames_installOrFree filled failed

theorem misused_of_failure (loaded : m.tryLoad tid e mishap = some load)
    (failed : load.success = false) : load.misused ≠ [] := by
  unfold tryLoad at loaded
  simp only [Option.bind_eq_bind, Option.bind_eq_some_iff] at loaded
  obtain ⟨entry, _, loaded⟩ := loaded
  split_ifs at loaded
  simp only [Option.bind_eq_some_iff] at loaded
  obtain ⟨allotted, _, filled, fills, loaded⟩ := loaded
  cases loaded
  simp [unpinLoaded, frames_fillFrame fills failed]

/-- A process with a page of a file, before its first load. -/
def oneFilePage : Memory :=
  { init 1 0 (fun _ => Buffer.zeros) (fun _ => Buffer.zeros) with
    pages _ := [0]
    entries := Function.update (fun _ => none) 0
      (some { newEntry 1 pageSize with file := some 0, readBytes := 10 })
    alive _ := true
    heapTop := 1 }

/-- A read of the file that gives no byte. -/
def emptyRead : Mishap where
  choose frames := frames.headD 0
  chooses frames nonempty := by
    cases frames with
    | nil => exact absurd rfl nonempty
    | cons first rest => exact List.mem_cons_self
  marked _ := false
  dirty := false
  fileRead _ _ _ := (0, Buffer.zeros)
  maps := true
  stale := false

end Memory

end Pintos.Vm
