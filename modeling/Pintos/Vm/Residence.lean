import Mathlib.Data.Finset.Card
import Pintos.Lib.Returns
import Pintos.Lib.Updates
import Pintos.Vm.Links

/-!
# Calls of the frame and page tables

What each function of `frame.c` and `page.c` does to the links, to the entries and to the frames of the
other pages, and when it returns.
-/

namespace Pintos.Vm

open Function Memory Option List

/-- An entry without its places. -/
def PageEntry.bare (entry : PageEntry) : PageEntry := { entry with frame := none, swap := none }

/-- The bytes of a page that has never been written. -/
def PageEntry.bytes (entry : PageEntry) (chance : Chance) : Buffer :=
  match entry.file with
  | none => Buffer.zeros
  | some file => Buffer.zeros.copy 0 (chance.fileRead file entry.offset entry.readBytes).2 0
      entry.readBytes

/-- A page that has been loaded and was not swapped out is mapped to its bytes. -/
def BytesMapped (tid : Nat) (entry : PageEntry) (kpage : Nat) (chance : Chance)
    (result : Memory × Bool) : Prop :=
  result.2 = true → entry.swap = none → result.1.pagedir (tid, entry.uaddr) = some kpage ∧
    result.1.contents kpage = entry.bytes chance

theorem PageEntry.tid_eq_of_bare {entry o : PageEntry} (same : entry.bare = o.bare) :
    entry.tid = o.tid := by
  have tids := congrArg PageEntry.tid same
  exact tids

theorem PageEntry.uaddr_eq_of_bare {entry o : PageEntry} (same : entry.bare = o.bare) :
    entry.uaddr = o.uaddr := by
  have addresses := congrArg PageEntry.uaddr same
  exact addresses

/-- The places of some pages have changed, but nothing else about the processes. -/
structure Same (m s' : Memory) : Prop where
  pages : s'.pages = m.pages
  alive : s'.alive = m.alive
  poolSize : s'.poolSize = m.poolSize
  swapSize : s'.swapTable.swapSize = m.swapTable.swapSize
  entries : ∀ e, (s'.entries e).map PageEntry.bare = (m.entries e).map PageEntry.bare

/-- No frame is pinned. -/
def Unpinned (m : Memory) : Prop :=
  ∀ fp frame, m.frames fp = some frame → frame.pinned = false

/-- The free pages of the user pool. -/
def Memory.free (memory : Memory) : Finset Nat :=
  (Finset.range memory.poolSize).filter fun kpage => memory.used kpage = false

/-- The machine can always load a page. -/
structure Ready (m : Memory) : Prop where
  unpinned : Unpinned m
  pool : 0 < m.poolSize
  whole : pageSectors ∣ m.swapTable.swapSize

namespace Same

variable {m mid s' : Memory}

theorem trans (fst : Same m mid) (snd : Same mid s') : Same m s' :=
  ⟨snd.1.trans fst.1, snd.2.trans fst.2, snd.3.trans fst.3, snd.4.trans fst.4,
    fun e => (snd.5 e).trans (fst.5 e)⟩

theorem pin (m : Memory) (fp : Nat) (pinned : Bool) : Same m (m.pin fp pinned) :=
  ⟨rfl, rfl, rfl, rfl, fun _ => rfl⟩

theorem bare_update {entries : Nat → Option PageEntry} {e : Nat} {entry new : PageEntry}
    (found : entries e = some entry) (same : new.bare = entry.bare) (o : Nat) :
    (update entries e (some new) o).map PageEntry.bare = (entries o).map PageEntry.bare :=
  update_field (Option.map PageEntry.bare) (by rw [found, map_some, map_some, same]) o

end Same

namespace Links

variable {m s' : Memory} {loading spare : Option Nat} {e fp tid uaddr : Nat}
  {pe : PageEntry} {frame : Frame}

/-- `push_to_swap` gives the page a slot, unless the device is full. -/
theorem pushToSwap (links : Links m (some e) none)
    (resides : Resides m.entries m.frames e pe fp frame) (absent : pe.swap = none) :
    Returns (pageSectors ∣ m.swapTable.swapSize) (m.pushToSwap fp) fun s' =>
      Links s' (some e) none ∧ ∃ slot swapTable, swapTable.swapSize = m.swapTable.swapSize ∧
        s' = (m.setEntry e (some { pe with swap := slot })).setSwapTable swapTable := by
  obtain ⟨entry_eq, frame_eq, down, up⟩ := resides
  have swap_none : swapOf m.entries e = none := by
    rw [swapOf, entry_eq, bind_some, absent]
  unfold Memory.pushToSwap
  refine .step frame_eq ?_
  refine .step up ?_
  refine .step entry_eq ?_
  refine .step down ?_
  refine .step frame_eq ?_
  refine (links.swap.push swap_none (m.contents frame.kpage)).bind ?_
  rintro ⟨swapTable, slot⟩ ⟨link, swapSize⟩
  have relinked := links.reslot entry_eq { pe with swap := slot } ⟨rfl, rfl, rfl⟩ (.inl rfl) link
  cases slot with
  | none =>
    have same : m.setEntry e (some { pe with swap := none }) = m := by
      rw [← absent, ← entry_eq, Memory.setEntry, update_eq_self]
    rw [same] at relinked
    exact .of_some ⟨relinked, none, swapTable, swapSize, by rw [same]⟩
  | some sec => exact .of_some ⟨relinked, some sec, swapTable, swapSize, rfl⟩

/-- `pull_from_swap` takes the slot from a page that is loaded. -/
theorem pullFromSwap (links : Links m (some e) none)
    (resides : Resides m.entries m.frames e pe fp frame) {sec : Nat}
    (moved : pe.swap = some sec) :
    ∃ bytes, m.pullFromSwap e = some (((m.fill frame.kpage bytes).setEntry e
        (some { pe with swap := none })).setSwapTable (m.swapTable.rotate sec)) ∧
      Links (((m.fill frame.kpage bytes).setEntry e
        (some { pe with swap := none })).setSwapTable (m.swapTable.rotate sec)) (some e)
        none := by
  obtain ⟨entry_eq, frame_eq, down, up⟩ := resides
  have slot_eq : swapOf m.entries e = some sec := by
    rw [swapOf, entry_eq, bind_some, moved]
  obtain ⟨found, reads⟩ := links.swap.pull slot_eq (m.contents frame.kpage)
  obtain ⟨bytes, read⟩ := isSome_iff_exists.mp reads
  refine ⟨bytes, ?_, ?_⟩
  · simp [Memory.pullFromSwap, found, entry_eq, down, frame_eq, read]
  · exact (links.fill frame.kpage bytes).reslot entry_eq _ ⟨rfl, rfl, rfl⟩ (.inl rfl)
      (links.swap.rotate slot_eq)

theorem freeSwap (links : Links m loading spare) (entry_eq : m.entries e = some pe)
    {sec : Nat} (moved : pe.swap = some sec) :
    m.freeSwap sec = some ((m.setEntry e (some { pe with swap := none })).setSwapTable
        (m.swapTable.rotate sec)) ∧
      Links ((m.setEntry e (some { pe with swap := none })).setSwapTable
        (m.swapTable.rotate sec)) loading spare := by
  have slot_eq : swapOf m.entries e = some sec := by
    rw [swapOf, entry_eq, bind_some, moved]
  refine ⟨?_, ?_⟩
  · simp [Memory.freeSwap, links.swap.free slot_eq, entry_eq, moved]
  · exact links.reslot entry_eq _ ⟨rfl, rfl, rfl⟩ (.inr (.inr rfl)) (links.swap.rotate slot_eq)

abbrev released (memory : Memory) (e : Nat) (pe : PageEntry) (fp : Nat) (frame : Frame) : Memory :=
  (((memory.setPage pe.tid pe.uaddr none).setEntry e
    (some { pe with frame := none })).setFrame fp none).setPool
    (update memory.used frame.kpage false) (memory.allFrames.erase fp)

theorem freeFrame (links : Links m loading none)
    (resides : Resides m.entries m.frames e pe fp frame) :
    m.freeFrame fp = some (released m e pe fp frame) := by
  obtain ⟨entry_eq, frame_eq, down, up⟩ := id resides
  have nonzero := links.nonzero e pe entry_eq (by simp [down])
  have taken := links.taken fp frame frame_eq
  have runs := links.alive e pe entry_eq
  have listed : fp ∈ m.allFrames := (links.listed fp).mpr (by simp [frame_eq])
  simp [Memory.freeFrame, frame_eq, up, entry_eq, down, nonzero, runs, taken, listed,
    links.tid_eq resides]

/-- `install_frame` maps the page that is loaded, if its owner calls. -/
theorem installFrame (links : Links m (some e) none)
    (resides : Resides m.entries m.frames e pe fp frame) : m.installFrame tid fp =
      if pe.tid = tid then some (m.setPage pe.tid pe.uaddr (some frame.kpage), true)
      else none := by
  obtain ⟨entry_eq, frame_eq, down, up⟩ := id resides
  have nonzero := links.nonzero e pe entry_eq (by simp [down])
  have free := links.pagedir_loading entry_eq
  by_cases owner : pe.tid = tid
  · subst owner
    simp [Memory.installFrame, frame_eq, up, entry_eq, nonzero, links.tid_eq resides, free]
  · simp [Memory.installFrame, frame_eq, up, links.tid_eq resides, owner]

theorem pushDirty (links : Links m (some e) none)
    (resides : Resides m.entries m.frames e pe fp frame) (absent : pe.swap = none)
    (dirty : Bool) : Returns (pageSectors ∣ m.swapTable.swapSize) (m.pushDirty fp dirty) fun s' =>
      Links s' (some e) none ∧ ∃ slot swapTable, swapTable.swapSize = m.swapTable.swapSize ∧
        s' = (m.setEntry e (some { pe with swap := slot })).setSwapTable swapTable := by
  unfold Memory.pushDirty
  split
  · exact links.pushToSwap resides absent
  · refine .of_some ⟨links, none, m.swapTable, rfl, ?_⟩
    rw [← absent, ← resides.1, Memory.setSwapTable, Memory.setEntry, update_eq_self]

/-- A frame has lost its page. -/
structure Vacated (m s' : Memory) (fp : Nat) (frame : Frame) (e : Nat) (pe : PageEntry) :
    Prop where
  resides : Resides m.entries m.frames e pe fp frame
  links : Links s' none (some fp)
  frames : s'.frames = update m.frames fp (some { frame with upage := none, asyncWrite := false })
  entries : ∃ slot, s'.entries = update m.entries e
    (some { pe with frame := none, swap := slot })
  used : s'.used = m.used
  same : Same m s'
  zeroed : s'.contents frame.kpage = Buffer.zeros

theorem unmapVictim (links : Links m none none) (frame_eq : m.frames fp = some frame)
    (dirty : Bool) :
    Returns (pageSectors ∣ m.swapTable.swapSize) (m.unmapVictim fp dirty) fun s' =>
      ∃ e pe, Vacated m s' fp frame e pe := by
  obtain ⟨e, pe, resides, owner⟩ := links.held fp frame frame_eq (by simp)
  have runs := links.alive e pe resides.1
  have absent := links.apart e pe resides.1 (by simp) (by simp [resides.2.2.1])
  have free := links.unmap resides
  rw [owner] at runs free
  unfold Memory.unmapVictim
  refine .step frame_eq ?_
  simp only [resides.2.2.2]
  refine .step resides.1 ?_
  rw [if_pos runs]
  refine (free.pushDirty resides absent _).bind ?_
  rintro _ ⟨pushed, slot, swapTable, swapSize, rfl⟩
  have entry_eq : update m.entries e (some { pe with swap := slot }) e =
      some { pe with swap := slot } := update_self ..
  refine .step entry_eq ?_
  refine .of_some ⟨e, pe, resides, ?_, rfl, ⟨slot, ?_⟩, rfl, ?_, update_self ..⟩
  · exact (pushed.fill frame.kpage Buffer.zeros).detach
      ⟨entry_eq, frame_eq, resides.2.2.1, resides.2.2.2⟩ false
  · exact update_idem ..
  · refine ⟨rfl, rfl, rfl, swapSize, fun o => ?_⟩
    simp only [update_idem]
    exact Same.bare_update resides.1 (by rfl) o

/-- A frame has been found for a page. -/
structure Obtained (m s' : Memory) (fp : Nat) : Prop where
  links : Links s' none (some fp)
  same : Same m s'
  spare : ∃ frame, s'.frames fp = some frame ∧ frame.asyncWrite = false ∧
    s'.contents frame.kpage = Buffer.zeros
  unpinned : Unpinned m → Unpinned s'
  /-- Pages without a frame stay as they are. -/
  outside : ∀ e pe, m.entries e = some pe → pe.frame = none → s'.entries e = some pe
  /-- Pages that still have a frame stay as they are. -/
  inside : ∀ e pe, s'.entries e = some pe → pe.frame.isSome → m.entries e = some pe
  /-- No page loses its frame while there are free pages. -/
  kept : m.free.Nonempty → s'.entries = m.entries
  free : s'.free.card = m.free.card - 1

theorem mem_free {kpage : Nat} : kpage ∈ m.free ↔ kpage < m.poolSize ∧ m.used kpage = false := by
  simp [Memory.free]

theorem free_congr (used : s'.used = m.used) (poolSize : s'.poolSize = m.poolSize) :
    s'.free = m.free := by
  ext kpage
  rw [mem_free, mem_free, used, poolSize]

theorem pallocGetPage_some {kpage : Nat} (found : m.pallocGetPage = some kpage) :
    kpage ∈ m.free := by
  have inside := mem_range.mp (mem_of_find?_eq_some found)
  have unused := find?_some found
  exact mem_free.mpr ⟨inside, by simpa using unused⟩

theorem pallocGetPage_none (nothing : m.pallocGetPage = none) : m.free = ∅ := by
  refine Finset.eq_empty_of_forall_notMem fun kpage mem => ?_
  obtain ⟨inside, unused⟩ := mem_free.mp mem
  have taken := find?_eq_none.mp nothing kpage (mem_range.mpr inside)
  simp [unused] at taken

theorem obtained_newFrame (links : Links m none none) {kpage : Nat} (mem : kpage ∈ m.free) :
    Obtained m (m.newFrame kpage).1 (m.newFrame kpage).2 where
  links := links.newFrame (mem_free.mp mem).2 (mem_free.mp mem).1
  same := ⟨rfl, rfl, rfl, rfl, fun _ => rfl⟩
  spare := ⟨_, update_self .., rfl, update_self ..⟩
  unpinned unpinned fp frame found := by
    have unpinned := unpinned fp frame
    grind
  outside _ _ found _ := found
  inside _ _ found _ := found
  kept _ := rfl
  free := by
    rw [← Finset.card_erase_of_mem mem]
    congr 1
    ext o
    rw [Finset.mem_erase, mem_free, mem_free]
    grind

theorem Vacated.obtained {e : Nat} (vacated : Vacated m s' fp frame e pe)
    (full : m.free = ∅) : Obtained m s' fp := by
  obtain ⟨slot, entries_eq⟩ := vacated.entries
  obtain ⟨entry_eq, frame_eq, down, up⟩ := vacated.resides
  have frames_eq := vacated.frames
  exact {
    links := vacated.links
    same := vacated.same
    spare := ⟨{ frame with upage := none, asyncWrite := false }, by rw [frames_eq, update_self], rfl,
      vacated.zeroed⟩
    unpinned := fun unpinned o snd found => by
      have here := unpinned fp frame frame_eq
      have there := unpinned o snd
      rw [frames_eq] at found
      grind
    outside := by
      rw [entries_eq]
      grind
    inside := by
      rw [entries_eq]
      grind
    kept := fun ne_nil => absurd full ne_nil.ne_empty
    free := by
      rw [free_congr vacated.used vacated.same.poolSize, full]
      rfl }

theorem mark (links : Links m loading spare) (marked : Nat → Bool) :
    Links (m.mark marked) loading spare :=
  links.retouch _ fun _ _ => ⟨rfl, rfl, rfl⟩

section

variable (links : Links m none none)
include links

/-- When the pool is full there is a frame that can be evicted. -/
theorem evictable_ne_nil (ready : Ready m) (full : m.free = ∅) : m.evictable ≠ [] := by
  have taken : m.used 0 = true := by
    by_contra unused
    have mem : 0 ∈ m.free := mem_free.mpr ⟨ready.pool, by simpa using unused⟩
    rw [full] at mem
    simp at mem
  obtain ⟨fp, frame, found, _⟩ := links.framed 0 taken
  have listed : fp ∈ m.allFrames := (links.listed fp).mpr (by simp [found])
  refine ne_nil_of_mem (mem_filter.mpr ⟨listed, ?_⟩)
  simp [found, ready.unpinned fp frame found]

theorem evictFrame (policy : Policy) (full : m.free = ∅) :
    Returns (Ready m) (m.evictFrame policy) fun res =>
      Obtained m res.1 res.2 ∧ res.2 = policy.choose m.evictable := by
  unfold Memory.evictFrame
  by_cases nothing : m.evictable = []
  · rw [if_pos nothing]
    exact .of_none fun ready => links.evictable_ne_nil ready full nothing
  · rw [if_neg nothing]
    have chosen := policy.chooses _ nothing
    obtain ⟨listed, loose⟩ := mem_filter.mp chosen
    obtain ⟨frame, frame_eq⟩ := isSome_iff_exists.mp ((links.listed _).mp listed)
    obtain ⟨marked, marked_eq⟩ : ∃ marked,
        (m.mark policy.marked).frames (policy.choose m.evictable) = some marked := by
      simp [Memory.mark, frame_eq]
    have vacates := (links.mark policy.marked).unmapVictim marked_eq policy.dirty
    refine (vacates.strengthen fun ready => ready.whole).bind ?_
    rintro s' ⟨e, pe, vacated⟩
    have got := vacated.obtained full
    refine .of_some ⟨⟨got.links, ?_, got.spare, ?_, got.outside, got.inside,
      got.kept, got.free⟩, rfl⟩
    · exact ⟨got.same.1, got.same.2, got.same.3, got.same.4, got.same.5⟩
    · intro loose
      refine got.unpinned fun fp frame found => ?_
      obtain ⟨old, old_found, rfl⟩ := map_eq_some_iff.mp found
      exact loose fp old old_found

theorem getFrame (policy : Policy) : Returns (Ready m) (m.getFrame policy) fun res =>
      Obtained m res.1 res.2 ∧ (m.free = ∅ → res.2 = policy.choose m.evictable) := by
  unfold Memory.getFrame
  cases found : m.pallocGetPage with
  | some kpage =>
    have mem := pallocGetPage_some found
    exact .of_some ⟨links.obtained_newFrame mem,
      fun full => absurd (full ▸ mem) (Finset.notMem_empty _)⟩
  | none =>
    exact (links.evictFrame policy (pallocGetPage_none found)).mono fun _ meets =>
      ⟨meets.1, fun _ => meets.2⟩

end

/-- A page has been given a frame, on which it is not mapped yet. -/
structure Assigned (m s' : Memory) (e : Nat) (pe : PageEntry) (fp : Nat) : Prop where
  links : Links s' (some e) none
  same : Same m s'
  resides : ∃ frame, Resides s'.entries s'.frames e { pe with frame := some fp } fp frame ∧
    s'.contents frame.kpage = Buffer.zeros
  unpinned : Unpinned m → Unpinned s'
  inside : ∀ other second, other ≠ e → s'.entries other = some second → second.frame.isSome →
    m.entries other = some second
  kept : m.free.Nonempty → ∀ other ≠ e, s'.entries other = m.entries other
  free : s'.free.card = m.free.card - 1

theorem Obtained.assign (got : Obtained m s' fp)
    (entry_eq : m.entries e = some pe) (absent : pe.frame = none)
    (nonzero : pe.uaddr ≠ 0) :
    Returns (Unpinned m) (s'.assign fp e) fun res => Assigned m res e pe fp := by
  obtain ⟨frame, frame_eq, clean, zeroed⟩ := got.spare
  have entry_after := got.outside e pe entry_eq absent
  unfold Memory.assign
  refine .step frame_eq ?_
  refine .step entry_after ?_
  by_cases pinned : frame.pinned = true
  · rw [if_pos (by simp [pinned])]
    refine .of_none fun unpinned => ?_
    have := got.unpinned unpinned fp frame frame_eq
    simp [pinned] at this
  · rw [if_neg (by simp [pinned, clean])]
    refine .of_some {
      links := got.links.attach frame_eq entry_after absent nonzero
      same := got.same.trans ⟨rfl, rfl, rfl, rfl, Same.bare_update entry_after (by rfl)⟩
      resides := ⟨_, ⟨update_self .., update_self .., rfl, rfl⟩, zeroed⟩
      unpinned := fun unpinned o snd found => ?_
      inside := fun o snd ne found there => ?_
      kept := fun ne_nil o ne => ?_
      free := got.free }
    · have unpinned := got.unpinned unpinned o snd
      grind
    · have inside := got.inside o snd
      grind
    · exact (update_of_ne ne ..).trans (congrFun (got.kept ne_nil) o)

theorem allocateFrame (links : Links m none none) (entry_eq : m.entries e = some pe)
    (absent : pe.frame = none) (policy : Policy) :
    Returns (Ready m ∧ pe.uaddr ≠ 0) (m.allocateFrame e policy) fun res =>
      Assigned m res.1 e pe res.2 ∧ (m.free = ∅ → res.2 = policy.choose m.evictable) := by
  unfold Memory.allocateFrame
  refine .step entry_eq ?_
  by_cases zero : pe.uaddr = 0
  · rw [if_pos (.inl zero)]
    exact .of_none fun meets => meets.2 zero
  · rw [if_neg (by simp [zero, absent])]
    refine ((links.getFrame policy).strengthen And.left).bind ?_
    rintro ⟨s', fp⟩ ⟨got, victim⟩
    have assigns := got.assign entry_eq absent zero
    refine (assigns.strengthen fun meets => meets.1.unpinned).bind ?_
    intro res given
    exact .of_some ⟨given, victim⟩

/-- A page has been loaded into a frame, or could not be read from its file. -/
structure Loaded (m s' : Memory) (e fp : Nat) (success : Bool) : Prop where
  links : Links s' none none
  same : Same m s'
  resident : success = true → ∃ loaded, s'.entries e = some loaded ∧ loaded.frame.isSome
  absent : success = false → ∃ failed, s'.entries e = some failed ∧ failed.frame = none
  /-- No other page has the frame. -/
  vacant : ∀ other second, other ≠ e → s'.entries other = some second → second.frame ≠ some fp
  unpinned : Unpinned m → Unpinned s'
  inside : ∀ other second, other ≠ e → s'.entries other = some second → second.frame.isSome →
    m.entries other = some second
  kept : m.free.Nonempty → ∀ other ≠ e, s'.entries other = m.entries other
  free : success = true → s'.free.card = m.free.card - 1
  freed : success = false → s'.free.card = m.free.card - 1 + 1

theorem retouch_pin (links : Links m loading spare) (fp : Nat) (pinned : Bool) :
    Links (m.pin fp pinned) loading spare := by
  have hit := links.retouch
    (fun o frame => if o = fp then { frame with pinned } else frame) (by grind)
  have same : (fun o => (m.frames o).map
      fun frame => if o = fp then { frame with pinned } else frame) =
      update m.frames fp ((m.frames fp).map fun frame => { frame with pinned }) := by
    funext o
    by_cases here : o = fp
    · subst here
      simp
    · simp [here]
  rw [same] at hit
  exact hit

/-- The file of a page is too short. -/
def Short (pe : PageEntry) (chance : Chance) : Prop :=
  pe.swap = none ∧ ∃ file, pe.file = some file ∧ 0 < pe.readBytes ∧
    (chance.fileRead file pe.offset pe.readBytes).1 ≠ pe.readBytes

/-- The frame of a page has been filled and mapped, or freed again. -/
structure Filled (m s' : Memory) (e : Nat) (pe : PageEntry) (fp : Nat) (frame : Frame)
    (success : Bool) : Prop where
  links : Links s' none none
  same : Same m s'
  entries : s'.entries = update m.entries e
    (some (if success then { pe with swap := none } else { pe with frame := none }))
  frames : s'.frames = if success then m.frames else update m.frames fp none
  used : s'.used = if success then m.used else update m.used frame.kpage false

theorem filled_install (links : Links m (some e) none)
    (resides : Resides m.entries m.frames e pe fp frame) (absent : pe.swap = none) :
    Returns (pe.tid = tid) (m.installFrame tid fp) fun res =>
      res.2 = true ∧ Filled m res.1 e pe fp frame true ∧
        res.1.pagedir (tid, pe.uaddr) = some frame.kpage ∧
        res.1.contents = m.contents := by
  rw [links.installFrame resides]
  split
  · rename_i same
    subst same
    refine .of_some ⟨rfl, ⟨links.install resides absent, ⟨rfl, rfl, rfl, rfl, fun _ => rfl⟩, ?_, rfl,
      rfl⟩, update_self .., rfl⟩
    rw [if_pos rfl, ← absent, ← resides.1, update_eq_self]
  · rename_i o
    exact .of_none o

theorem loadFrame (links : Links m (some e) none)
    (resides : Resides m.entries m.frames e pe fp frame)
    (zeroed : m.contents frame.kpage = Buffer.zeros) (chance : Chance) :
    Returns (pe.tid = tid) (m.loadFrame tid e fp chance) fun res =>
      (res.2 = false ↔ Short pe chance) ∧ Filled m res.1 e pe fp frame res.2 ∧
        BytesMapped tid pe frame.kpage chance res := by
  unfold Memory.loadFrame
  refine .step resides.1 ?_
  cases moved : pe.swap with
  | some sec =>
    obtain ⟨bytes, pulls, pulled⟩ := links.pullFromSwap resides moved
    refine .step pulls ?_
    have resides' : Resides (update m.entries e (some { pe with swap := none }))
        m.frames e { pe with swap := none } fp frame :=
      ⟨update_self .., resides.2.1, resides.2.2.1, resides.2.2.2⟩
    refine (pulled.filled_install resides' rfl).mono ?_
    rintro ⟨s', ok⟩ ⟨rfl, filled, _⟩
    refine ⟨by simp [Short, moved], ⟨filled.links, ?_, ?_, filled.frames, filled.used⟩,
      fun _ no_slot => nomatch moved.symm.trans no_slot⟩
    · refine Same.trans ?_ filled.same
      exact ⟨rfl, rfl, rfl, rfl, Same.bare_update resides.1 (by rfl)⟩
    · exact filled.entries.trans (update_idem ..)
  | none =>
    have installs (long : ¬ Short pe chance) (contents : Nat → Buffer)
        (bytes : contents frame.kpage = pe.bytes chance) :
        Returns (pe.tid = tid) ({ m with contents }.installFrame tid fp) fun res =>
          (res.2 = false ↔ Short pe chance) ∧ Filled m res.1 e pe fp frame res.2 ∧
            BytesMapped tid pe frame.kpage chance res := by
      have link : Links { m with contents } (some e) none := { links with }
      refine (link.filled_install resides moved).mono ?_
      rintro ⟨s', ok⟩ ⟨rfl, filled, mapped, same⟩
      refine ⟨by simp [long], ⟨filled.links, ⟨filled.same.1, filled.same.2, filled.same.3,
        filled.same.4, filled.same.5⟩, filled.entries, filled.frames, filled.used⟩, fun _ _ => ⟨mapped, ?_⟩⟩
      rw [same]
      exact bytes
    cases backing : pe.file with
    | none =>
      exact installs (by simp [Short, backing]) m.contents (by rw [zeroed, PageEntry.bytes, backing])
    | some file =>
      by_cases empty : 0 < pe.readBytes
      · simp only [if_pos empty]
        refine .step resides.2.1 ?_
        by_cases short : (chance.fileRead file pe.offset pe.readBytes).1 = pe.readBytes
        · rw [if_neg (not_not.mpr short)]
          refine installs (by simp [Short, backing, short]) _ ?_
          rw [update_self, zeroed, PageEntry.bytes, backing]
          simp only [short]
        · rw [if_pos short]
          refine .step ((links.fill _ _).freeFrame resides) ?_
          refine .of_some ⟨?_, ⟨?_, ?_, rfl, rfl, rfl⟩, nofun⟩
          · exact iff_of_true rfl ⟨moved, file, backing, empty, short⟩
          · exact (links.fill _ _).release resides (.inr rfl)
          · exact ⟨rfl, rfl, rfl, rfl, Same.bare_update resides.1 (by rfl)⟩
      · simp only [if_neg empty]
        refine installs (fun short => empty short.2.choose_spec.2.1) m.contents ?_
        simp [zeroed, PageEntry.bytes, backing, Nat.eq_zero_of_not_pos empty]

theorem Assigned.pinned (given : Assigned m s' e pe fp) :
    ∃ frame, frame.pinned = true ∧ (s'.pin fp true).contents frame.kpage = Buffer.zeros ∧
      Resides (s'.pin fp true).entries (s'.pin fp true).frames e
        { pe with frame := some fp } fp frame := by
  obtain ⟨frame, ⟨entry_eq, frame_eq, down, up⟩, zeroed⟩ := given.resides
  have pinned_eq : (s'.pin fp true).frames fp = some { frame with pinned := true } := by
    simp [Memory.pin, frame_eq]
  exact ⟨{ frame with pinned := true }, rfl, zeroed, entry_eq, pinned_eq, down, up⟩

theorem Assigned.loaded {given res : Memory} {ok : Bool} (assigns : Assigned m given e pe fp)
    (resides : Resides (given.pin fp true).entries (given.pin fp true).frames e
      { pe with frame := some fp } fp frame)
    (filled : Filled (given.pin fp true) res e { pe with frame := some fp } fp frame ok) :
    Loaded m (res.pin fp false) e fp ok := by
  have entries : res.entries = update given.entries e _ := filled.entries
  have apart : ∀ {other}, other ≠ e → res.entries other = given.entries other :=
    fun ne => by rw [entries, update_of_ne ne]
  refine ⟨filled.links.retouch_pin fp false, ?_, ?_, ?_, ?_, ?_, ?_, ?_, ?_, ?_⟩
  · exact assigns.same.trans ((Same.pin given fp true).trans
      (filled.same.trans (Same.pin res fp false)))
  · rintro rfl
    exact ⟨_, (congrFun entries e).trans (update_self ..), rfl⟩
  · rintro rfl
    exact ⟨_, (congrFun entries e).trans (update_self ..), rfl⟩
  · intro other snd ne found taken
    obtain ⟨_, _, frame_eq, _, up⟩ :=
      assigns.links.owned other snd fp ((apart ne).symm.trans found) taken
    obtain ⟨_, ⟨_, frame_eq', _, up'⟩, _⟩ := assigns.resides
    grind
  · intro loose other snd found
    have old := assigns.unpinned loose other snd
    have frames := filled.frames
    simp only [Memory.pin] at found frames
    by_cases here : other = fp
    · subst here
      rw [update_self] at found
      obtain ⟨_, _, rfl⟩ := map_eq_some_iff.mp found
      rfl
    · rw [update_of_ne here, frames] at found
      split at found
      · exact old ((update_of_ne here ..).symm.trans found)
      · rw [update_of_ne here, update_of_ne here] at found
        exact old found
  · intro other snd ne found
    exact assigns.inside other snd ne ((apart ne).symm.trans found)
  · exact fun ne_nil other ne => (apart ne).trans (assigns.kept ne_nil other ne)
  · intro succeeded
    have used := filled.used
    rw [if_pos succeeded] at used
    rw [← assigns.free]
    exact congrArg Finset.card (free_congr used filled.same.poolSize)
  · intro failed
    have used := filled.used
    have taken := (assigns.links.retouch_pin fp true).taken fp frame resides.2.1
    have inside := (assigns.links.retouch_pin fp true).bounded frame.kpage taken
    have unfree : frame.kpage ∉ given.free := by
      intro mem
      have unused := (mem_free.mp mem).2
      rw [show given.used frame.kpage = true from taken] at unused
      cases unused
    rw [if_neg (by simp [failed])] at used
    rw [← assigns.free, ← Finset.card_insert_of_notMem unfree]
    congr 1
    ext kpage
    rw [Finset.mem_insert, mem_free, mem_free]
    simp only [Memory.pin] at used taken inside ⊢
    rw [used, filled.same.poolSize]
    simp only [update_apply, Memory.pin]
    grind

theorem loadPageEntry (links : Links m none none) (entry_eq : m.entries e = some pe)
    (absent : pe.frame = none) (chance : Chance) :
    Returns (Ready m ∧ pe.uaddr ≠ 0 ∧ pe.tid = tid) (m.loadPageEntry tid (some e) chance) fun res =>
      (res.2 = false ↔ Short pe chance) ∧ ∃ fp, Loaded m res.1 e fp res.2 ∧
        (m.free = ∅ → fp = chance.choose m.evictable) ∧
        ∃ kpage, BytesMapped tid pe kpage chance res := by
  unfold Memory.loadPageEntry
  refine .step entry_eq ?_
  rw [if_neg (by simp [absent])]
  have takes := links.allocateFrame entry_eq absent chance.toPolicy
  refine (takes.strengthen fun meets => ⟨meets.1, meets.2.1⟩).bind ?_
  rintro ⟨given, fp⟩ ⟨assigns, victim⟩
  obtain ⟨frame, _, zeroed, resides⟩ := assigns.pinned
  have fills := @loadFrame _ _ _ tid _ _ (assigns.links.retouch_pin fp true) resides zeroed chance
  refine (fills.strengthen fun meets => meets.2.2).bind ?_
  rintro ⟨filled, ok⟩ ⟨out, fills, page⟩
  exact .of_some ⟨out, fp, assigns.loaded resides fills, victim, frame.kpage, page⟩

end Links

end Pintos.Vm
