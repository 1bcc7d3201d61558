import Pintos.Vm.Memory
import Pintos.Vm.SwapSlots

/-!
# Links between frames, pages and page directories

Frames and entries point to each other, and the page directory of the owner agrees with them.  While a
page is loaded it has a frame that is not mapped and may still have its slot; while a frame is evicted
it has no page.  Every function is described by what it does to these links.
-/

namespace Pintos.Vm

open Function Memory

/-- An entry and a frame that point to each other. -/
abbrev Resides (entries : Nat → Option PageEntry) (frames : Nat → Option Frame) (e : Nat)
    (entry : PageEntry) (fp : Nat) (frame : Frame) : Prop :=
  entries e = some entry ∧ frames fp = some frame ∧ entry.frame = some fp ∧ frame.upage = some e

/-- The slots of the entries. -/
def swapOf (entries : Nat → Option PageEntry) (e : Nat) : Option Nat :=
  (entries e).bind PageEntry.swap

theorem swapOf_update (entries : Nat → Option PageEntry) (e : Nat) (entry : Option PageEntry) :
    swapOf (update entries e entry) = update (swapOf entries) e (entry.bind PageEntry.swap) := by
  funext o
  by_cases same : o = e
  · subst same
    simp [swapOf]
  · simp [swapOf, same]

theorem SwapLinked.update {swapTable : SwapTable Nat} {entries : Nat → Option PageEntry} {e : Nat}
    {entry : Option PageEntry} (link : SwapLinked swapTable (swapOf entries))
    (same : entry.bind PageEntry.swap = swapOf entries e) :
    SwapLinked swapTable (swapOf (Function.update entries e entry)) := by
  rwa [swapOf_update, same, update_eq_self]

/-- A page of the pool keeps its frame when the frame is written. -/
theorem exists_frame_update {frames : Nat → Option Frame} {fp kpage : Nat} {frame s' : Frame}
    (found : frames fp = some frame) (same : s'.kpage = frame.kpage)
    (framed : ∃ fp frame, frames fp = some frame ∧ frame.kpage = kpage) :
    ∃ o snd, update frames fp (some s') o = some snd ∧ snd.kpage = kpage := by
  obtain ⟨o, snd, other_found, other_kpage⟩ := framed
  by_cases here : o = fp
  · refine ⟨fp, s', update_self .., ?_⟩
    grind
  · exact ⟨o, snd, (update_of_ne here ..).trans other_found, other_kpage⟩

/-- The links between the structures, while `loading` is the entry of the page that is loaded and
`spare` a frame without a page. -/
structure Links (m : Memory) (loading spare : Option Nat) : Prop where
  listed : ∀ fp, fp ∈ m.allFrames ↔ (m.frames fp).isSome
  nodup : m.allFrames.Nodup
  held : ∀ fp frame, m.frames fp = some frame → spare ≠ some fp →
    ∃ e entry, Resides m.entries m.frames e entry fp frame ∧ entry.tid = frame.tid
  spared : ∀ fp frame, m.frames fp = some frame → spare = some fp → frame.upage = none
  owned : ∀ e entry fp, m.entries e = some entry → entry.frame = some fp →
    ∃ frame, Resides m.entries m.frames e entry fp frame
  distinct : ∀ fp frame other second, m.frames fp = some frame →
    m.frames other = some second → frame.kpage = second.kpage → fp = other
  taken : ∀ fp frame, m.frames fp = some frame → m.used frame.kpage = true
  framed : ∀ kpage, m.used kpage = true → ∃ fp frame, m.frames fp = some frame ∧ frame.kpage = kpage
  bounded : ∀ kpage, m.used kpage = true → kpage < m.poolSize
  unique : ∀ e entry other second, m.entries e = some entry →
    m.entries other = some second → entry.tid = second.tid → entry.uaddr = second.uaddr →
    e = other
  maps : ∀ e entry fp frame, Resides m.entries m.frames e entry fp frame →
    loading ≠ some e → m.pagedir (entry.tid, entry.uaddr) = some frame.kpage
  backed : ∀ tid uaddr kpage, m.pagedir (tid, uaddr) = some kpage →
    ∃ e entry fp frame, Resides m.entries m.frames e entry fp frame ∧ loading ≠ some e ∧
      entry.tid = tid ∧ entry.uaddr = uaddr ∧ frame.kpage = kpage
  apart : ∀ e entry, m.entries e = some entry → loading ≠ some e → entry.frame.isSome →
    entry.swap = none
  nonzero : ∀ e entry, m.entries e = some entry → entry.frame.isSome → entry.uaddr ≠ 0
  alive : ∀ e entry, m.entries e = some entry → m.alive entry.tid = true
  fresh : ∀ addr, m.heapTop ≤ addr → m.entries addr = none ∧ m.frames addr = none
  swap : SwapLinked m.swapTable (swapOf m.entries)

namespace Links

variable {m s' : Memory} {loading spare : Option Nat} {e fp tid uaddr : Nat}
  {pe : PageEntry} {frame : Frame}

theorem tid_eq (links : Links m loading none)
    (resides : Resides m.entries m.frames e pe fp frame) : frame.tid = pe.tid := by
  obtain ⟨owner, its_entry, its_resides, same⟩ := links.held fp frame resides.2.1 (by simp)
  grind

theorem pagedir_loading (links : Links m (some e) spare)
    (found : m.entries e = some pe) : m.pagedir (pe.tid, pe.uaddr) = none := by
  cases mapped : m.pagedir (pe.tid, pe.uaddr) with
  | none => rfl
  | some kpage =>
    obtain ⟨o, snd, _, _, resides, ne, same_tid, same_uaddr, _⟩ := links.backed _ _ _ mapped
    have same := links.unique e pe o snd found resides.1 same_tid.symm same_uaddr.symm
    exact absurd (congrArg some same) ne

theorem fill (links : Links m loading spare) (kpage : Nat) (bytes : Buffer) :
    Links (m.fill kpage bytes) loading spare :=
  { links with }

theorem setPages (links : Links m loading spare) (tid : Nat) (pages : List Nat) :
    Links (m.setPages tid pages) loading spare :=
  { links with }

theorem unmap (links : Links m none none) (resides : Resides m.entries m.frames e pe fp frame) :
    Links (m.setPage pe.tid pe.uaddr none) (some e) none :=
  { links with
    maps := by grind [links.maps, links.unique]
    backed := by grind [links.backed]
    apart := by grind [links.apart] }

theorem install (links : Links m (some e) none) (resides : Resides m.entries m.frames e pe fp frame)
    (absent : pe.swap = none) :
    Links (m.setPage pe.tid pe.uaddr (some frame.kpage)) none none :=
  { links with
    maps := by grind [links.maps, links.unique]
    backed := by grind [links.backed]
    apart := by grind [links.apart] }

theorem detach (links : Links m (some e) none)
    (resides : Resides m.entries m.frames e pe fp frame) (asyncWrite : Bool) :
    Links ((m.setEntry e (some { pe with frame := none })).setFrame fp
      (some { frame with upage := none, asyncWrite })) none (some fp) where
  __ := links
  listed := by grind [links.listed]
  held := by grind [links.held, links.owned]
  spared := by grind
  owned := by grind [links.held, links.owned]
  distinct := by grind [links.distinct]
  taken := by grind [links.taken]
  framed kpage used := exists_frame_update resides.2.1 rfl (links.framed kpage used)
  unique := by grind [links.unique]
  maps := by grind [links.maps]
  backed := by grind [links.backed]
  apart := by grind [links.apart]
  nonzero := by grind [links.nonzero]
  alive := by grind [links.alive]
  fresh := by grind [links.fresh]
  swap := links.swap.update (by grind [swapOf])

theorem attach (links : Links m none (some fp)) (spare : m.frames fp = some frame)
    (found : m.entries e = some pe) (absent : pe.frame = none)
    (nonzero : pe.uaddr ≠ 0) :
    Links ((m.setFrame fp (some { frame with upage := some e, tid := pe.tid })).setEntry e
      (some { pe with frame := some fp })) (some e) none where
  __ := links
  listed := by grind [links.listed]
  held o second other_found _ := by
    by_cases here : o = fp
    · subst here
      refine ⟨e, { pe with frame := some o }, ⟨update_self .., ?_⟩, ?_⟩
      · grind
      · grind
    · obtain ⟨owner, its_entry, resides, same⟩ := links.held o second (by grind) (by grind)
      exact ⟨owner, its_entry, by grind, same⟩
  spared := by grind
  owned := by grind [links.held, links.owned, links.spared]
  distinct := by grind [links.distinct]
  taken := by grind [links.taken]
  framed kpage used := exists_frame_update spare rfl (links.framed kpage used)
  unique := by grind [links.unique]
  maps := by grind [links.maps, links.spared]
  backed := by grind [links.backed, links.spared]
  apart := by grind [links.apart]
  nonzero := by grind [links.nonzero]
  alive := by grind [links.alive]
  fresh := by grind [links.fresh]
  swap := links.swap.update (by grind [swapOf])

theorem newFrame (links : Links m none none) {kpage : Nat} (free : m.used kpage = false)
    (inside : kpage < m.poolSize) :
    Links (m.newFrame kpage).1 none (some (m.newFrame kpage).2) := by
  obtain ⟨_, unframed⟩ := links.fresh m.heapTop (Nat.le_refl _)
  exact {
    listed := by grind [links.listed]
    nodup := by
      have absent : m.heapTop ∉ m.allFrames := by grind [links.listed]
      exact List.nodup_append_comm.mp (List.nodup_cons.mpr ⟨absent, links.nodup⟩)
    held := by grind [links.held]
    spared := by grind
    owned := by grind [links.owned]
    distinct := by grind [links.distinct, links.taken]
    taken := by grind [links.taken]
    framed := fun o taken => by
      by_cases here : o = kpage
      · exact ⟨m.heapTop, _, update_self .., here.symm⟩
      · obtain ⟨fp, frame, found, same⟩ := links.framed o (by grind)
        exact ⟨fp, frame, by grind, same⟩
    bounded := fun o taken => by
      have bounded := links.bounded o
      grind
    unique := links.unique
    maps := by grind [links.maps]
    backed := by grind [links.backed]
    apart := links.apart
    nonzero := links.nonzero
    alive := links.alive
    fresh := fun addr above => by grind [links.fresh addr]
    swap := links.swap }

theorem release (links : Links m loading none) (resides : Resides m.entries m.frames e pe fp frame)
    (others : loading = none ∨ loading = some e) :
    Links ((((m.setPage pe.tid pe.uaddr none).setEntry e
      (some { pe with frame := none })).setFrame fp none).setPool
      (update m.used frame.kpage false) (m.allFrames.erase fp)) none none where
  listed := by grind [links.listed, links.nodup]
  nodup := links.nodup.erase fp
  held := by grind [links.held, links.owned]
  spared := by grind
  owned := by grind [links.held, links.owned]
  distinct := by grind [links.distinct]
  taken := by grind [links.taken, links.distinct]
  framed kpage taken := by
    obtain ⟨o, snd, found, same⟩ := links.framed kpage (by grind)
    exact ⟨o, snd, by grind, same⟩
  bounded kpage taken := by
    have bounded := links.bounded kpage
    grind
  unique := by grind [links.unique]
  maps := by grind [links.maps, links.unique]
  backed := by grind [links.backed, links.unique]
  apart := by grind [links.apart]
  nonzero := by grind [links.nonzero]
  alive := by grind [links.alive]
  fresh := by grind [links.fresh]
  swap := links.swap.update (by grind [swapOf])

section

variable (links : Links m loading spare)
include links

theorem retouch (touch : Nat → Frame → Frame)
    (same : ∀ fp frame, (touch fp frame).upage = frame.upage ∧ (touch fp frame).tid = frame.tid ∧
      (touch fp frame).kpage = frame.kpage) :
    Links { m with frames := fun fp => (m.frames fp).map (touch fp) } loading spare := by
  have back : ∀ fp frame, (m.frames fp).map (touch fp) = some frame →
      ∃ old, m.frames fp = some old ∧ frame.upage = old.upage ∧ frame.tid = old.tid ∧
        frame.kpage = old.kpage := by
    intro fp frame found
    obtain ⟨old, old_found, rfl⟩ := Option.map_eq_some_iff.mp found
    exact ⟨old, old_found, same fp old⟩
  have forth : ∀ fp old, m.frames fp = some old →
      ∃ frame, (m.frames fp).map (touch fp) = some frame ∧ frame.upage = old.upage ∧
        frame.tid = old.tid ∧ frame.kpage = old.kpage := by
    intro fp old found
    exact ⟨touch fp old, by rw [found, Option.map_some], same fp old⟩
  exact {
    listed := fun fp => (links.listed fp).trans (by simp)
    nodup := links.nodup
    held := by grind [links.held]
    spared := by grind [links.spared]
    owned := by grind [links.owned]
    distinct := by grind [links.distinct]
    taken := by grind [links.taken]
    framed := by grind [links.framed]
    bounded := links.bounded
    unique := links.unique
    maps := by grind [links.maps]
    backed := by grind [links.backed]
    apart := links.apart
    nonzero := links.nonzero
    alive := links.alive
    fresh := fun addr above => by
      have fresh := links.fresh addr above
      grind
    swap := links.swap }

theorem reslot (found : m.entries e = some pe) (new : PageEntry) {swapTable : SwapTable Nat}
    (same : new.tid = pe.tid ∧ new.uaddr = pe.uaddr ∧ new.frame = pe.frame)
    (apart : loading = some e ∨ pe.frame = none ∨ new.swap = none)
    (link : SwapLinked swapTable (update (swapOf m.entries) e new.swap)) :
    Links ((m.setEntry e (some new)).setSwapTable swapTable) loading spare where
  __ := links
  held := by grind [links.held]
  owned := by grind [links.owned]
  unique := by grind [links.unique]
  maps := by grind [links.maps]
  backed := by grind [links.backed]
  apart := by grind [links.apart]
  nonzero := by grind [links.nonzero]
  alive := by grind [links.alive]
  fresh addr above := by
    have fresh := links.fresh addr above
    grind
  swap := by
    rw [swapOf_update]
    exact link

theorem describe (found : m.entries e = some pe) (writable : Bool) (file : Option Nat)
    (offset readBytes : Nat) :
    Links (m.setEntry e (some { pe with writable, file, offset, readBytes })) loading spare := by
  have apart := links.apart e pe found
  refine links.reslot found _ ⟨rfl, rfl, rfl⟩ (by grind [Option.isSome_iff_ne_none]) ?_
  rw [update_eq_self_iff.mpr (by simp [swapOf, found])]
  exact links.swap

end

theorem drop (links : Links m none none) (found : m.entries e = some pe)
    (frame_none : pe.frame = none) (swap_none : pe.swap = none) :
    Links (m.setEntry e none) none none where
  __ := links
  held := by grind [links.held]
  owned := by grind [links.owned]
  unique := by grind [links.unique]
  maps := by grind [links.maps]
  backed := by grind [links.backed]
  apart := by grind [links.apart]
  nonzero := by grind [links.nonzero]
  alive := by grind [links.alive]
  fresh addr above := by
    have fresh := links.fresh addr above
    grind
  swap := links.swap.update (by grind [swapOf])

theorem newEntry (links : Links m none none) (runs : m.alive tid = true)
    (o : ∀ e pe, m.entries e = some pe → pe.tid = tid →
      pe.uaddr ≠ pageOf uaddr) (pages : Nat → List Nat) : Links { m with
        entries := update m.entries m.heapTop
          (some (Memory.newEntry tid uaddr))
        pages
        heapTop := m.heapTop + 1 } none none := by
  obtain ⟨free, _⟩ := links.fresh m.heapTop (Nat.le_refl _)
  exact {
    listed := links.listed
    nodup := links.nodup
    held := by grind [links.held]
    spared := links.spared
    owned := by grind [links.owned, Memory.newEntry]
    distinct := links.distinct
    taken := links.taken
    framed := links.framed
    bounded := links.bounded
    unique := by grind [links.unique, Memory.newEntry]
    maps := by grind [links.maps, Memory.newEntry]
    backed := by grind [links.backed]
    apart := by grind [links.apart, Memory.newEntry]
    nonzero := by grind [links.nonzero, Memory.newEntry]
    alive := by grind [links.alive, Memory.newEntry]
    fresh := fun addr above => by
      have fresh := links.fresh addr
      grind
    swap := links.swap.update (by simp [swapOf, free, Memory.newEntry]) }

end Links

end Pintos.Vm
