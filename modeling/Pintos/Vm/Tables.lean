import Pintos.Vm.Residence

/-!
# Consistency of the page tables

The list of a process has exactly its entries.  Together with the links this is kept by every call, so
that after `page_table_destroy` nothing is mapped in the page directory of the process any more.
-/

namespace Pintos.Vm

open Function Memory Option List

/-- The lists of the processes. -/
structure Tables (m : Memory) : Prop where
  listed : ∀ tid e, e ∈ m.pages tid ↔ ∃ entry, m.entries e = some entry ∧ entry.tid = tid
  nodup : ∀ tid, (m.pages tid).Nodup

/-- What holds between two calls. -/
structure Consistent (m : Memory) : Prop extends Tables m where
  links : Links m none none

namespace Tables

variable {m s' : Memory} {e tid : Nat} {pe : PageEntry}

theorem same (tables : Tables m) (same : Same m s') : Tables s' where
  listed tid e := by
    rw [same.pages, tables.listed]
    have bare := same.entries e
    constructor
    · rintro ⟨pe, found, owner⟩
      rw [found, map_some] at bare
      obtain ⟨new, changed_eq, same_bare⟩ := map_eq_some_iff.mp bare
      exact ⟨new, changed_eq, (PageEntry.tid_eq_of_bare same_bare).trans owner⟩
    · rintro ⟨new, found, owner⟩
      rw [found, map_some] at bare
      obtain ⟨pe, entry_eq, same_bare⟩ := map_eq_some_iff.mp bare.symm
      exact ⟨pe, entry_eq, (PageEntry.tid_eq_of_bare same_bare).trans owner⟩
  nodup tid := by
    rw [same.pages]
    exact tables.nodup tid

theorem remove (tables : Tables m) (entry_eq : m.entries e = some pe)
    (owner : pe.tid = tid) {rest : List Nat}
    (others : ∀ o, o ∈ rest ↔ o ∈ m.pages tid ∧ o ≠ e) (nodup : rest.Nodup)
    (pages : s'.pages = update m.pages tid rest)
    (entries : s'.entries = update m.entries e none) : Tables s' where
  listed t o := by
    have old := tables.listed t o
    rw [pages, entries]
    by_cases here : t = tid
    · subst here
      rw [update_self, others, old]
      grind
    · rw [update_of_ne here, old]
      grind
  nodup t := by
    have old := tables.nodup t
    rw [pages]
    grind

theorem add (tables : Tables m) (fresh : m.entries e = none) (owner : pe.tid = tid)
    (pages : s'.pages = update m.pages tid (m.pages tid ++ [e]))
    (entries : s'.entries = update m.entries e (some pe)) : Tables s' where
  listed t other := by
    have old := tables.listed t other
    rw [pages, entries]
    by_cases here : t = tid
    · subst here
      rw [update_self, mem_append, mem_singleton, old]
      grind
    · rw [update_of_ne here, old]
      grind
  nodup t := by
    have old := tables.nodup t
    have absent : e ∉ m.pages tid := by
      rw [tables.listed]
      grind
    rw [pages]
    by_cases here : t = tid
    · subst here
      rw [update_self]
      exact nodup_append_comm.mp (nodup_cons.mpr ⟨absent, old⟩)
    · rwa [update_of_ne here]

end Tables

/-- Frames have been freed, and none was made or changed. -/
structure Freed (m s' : Memory) : Prop where
  alive : s'.alive = m.alive
  poolSize : s'.poolSize = m.poolSize
  swapSize : s'.swapTable.swapSize = m.swapTable.swapSize
  frames : ∀ fp frame, s'.frames fp = some frame → m.frames fp = some frame

theorem Freed.trans {m mid s' : Memory} (fst : Freed m mid) (snd : Freed mid s') : Freed m s' :=
  ⟨snd.1.trans fst.1, snd.2.trans fst.2, snd.3.trans fst.3,
    fun fp frame found => fst.4 fp frame (snd.4 fp frame found)⟩

namespace Links

variable {m : Memory} {e : Nat} {pe : PageEntry}

/-- `free_page_entry` always returns, and frees the entry with its places. -/
theorem freePageEntry (links : Links m none none) (entry_eq : m.entries e = some pe) :
    ∃ s', m.freePageEntry e = some s' ∧ Links s' none none ∧ Freed m s' ∧
      s'.pages = m.pages ∧ s'.entries = update m.entries e none := by
  have apart := links.apart e pe entry_eq (by simp)
  cases placed : pe.frame with
  | some fp =>
    have absent := apart (by simp [placed])
    obtain ⟨frame, resides⟩ := links.owned e pe fp entry_eq placed
    have released := links.release resides (.inl rfl)
    have freed_eq : update m.entries e (some { pe with frame := none }) e =
        some { pe with frame := none } := update_self ..
    refine ⟨_, ?_, released.drop freed_eq rfl absent, ⟨rfl, rfl, rfl, ?_⟩, rfl, update_idem ..⟩
    · simp [Memory.freePageEntry, entry_eq, placed, links.freeFrame resides, absent]
    · grind
  | none =>
    cases moved : pe.swap with
    | some sec =>
      obtain ⟨frees, freed⟩ := links.freeSwap entry_eq moved
      have freed_eq : update m.entries e (some { pe with swap := none }) e =
          some { pe with swap := none } := update_self ..
      refine ⟨_, ?_, freed.drop freed_eq placed rfl, ⟨rfl, rfl, rfl, fun _ _ => id⟩, rfl,
        update_idem ..⟩
      simp [Memory.freePageEntry, entry_eq, placed, moved, frees]
    | none =>
      refine ⟨_, ?_, links.drop entry_eq placed moved, ⟨rfl, rfl, rfl, fun _ _ => id⟩, rfl, rfl⟩
      simp [Memory.freePageEntry, entry_eq, placed, moved]

end Links

namespace Consistent

variable {m s' : Memory} {e tid uaddr : Nat} {pe : PageEntry}

section

variable (consistent : Consistent m)
include consistent

theorem getPageEntry_some (found : m.getPageEntry tid uaddr = some e) :
    e ∈ m.pages tid ∧ ∃ pe, m.entries e = some pe ∧ pe.tid = tid ∧ pe.uaddr = pageOf uaddr := by
  have listed := mem_of_find?_eq_some found
  have located := find?_some found
  obtain ⟨pe, entry_eq, owner⟩ := (consistent.listed tid e).mp listed
  refine ⟨listed, pe, entry_eq, owner, ?_⟩
  simpa [entry_eq] using located

theorem getPageEntry_none (nothing : m.getPageEntry tid uaddr = none)
    (entry_eq : m.entries e = some pe) (owner : pe.tid = tid) :
    pe.uaddr ≠ pageOf uaddr := by
  have listed := (consistent.listed tid e).mpr ⟨pe, entry_eq, owner⟩
  have unlike := find?_eq_none.mp nothing e listed
  simpa [entry_eq] using unlike

/-- `allocate_page` returns an entry of the process for the page, if it returns one. -/
theorem allocatePage (runs : m.alive tid = true) (uaddr : Nat) :
    Consistent (m.allocatePage tid uaddr).1 := by
  unfold Memory.allocatePage
  cases found : m.getPageEntry tid uaddr with
  | some e => exact consistent
  | none =>
    dsimp only
    split
    · have fresh := (consistent.links.fresh m.heapTop (Nat.le_refl _)).1
      have owner : (newEntry tid uaddr).tid = tid := rfl
      refine ⟨consistent.toTables.add fresh owner rfl rfl, consistent.links.newEntry runs ?_ _⟩
      exact fun e pe entry_eq owner => consistent.getPageEntry_none found entry_eq owner
    · exact consistent

theorem describe {writable : Bool} {file : Option Nat} {ofs readBytes : Nat}
    (described : m.describe tid uaddr writable file ofs readBytes = some s') :
    Consistent s' := by
  obtain ⟨e, found, described⟩ := bind_eq_some_iff.mp described
  obtain ⟨pe, entry_eq, described⟩ := bind_eq_some_iff.mp described
  cases described
  refine ⟨⟨fun t o => ?_, consistent.nodup⟩, consistent.links.describe entry_eq ..⟩
  have old := consistent.listed t o
  grind

theorem loadPageEntry {pointer : Option Nat} {chance : Chance} {ok : Bool}
    (loaded : m.loadPageEntry tid pointer chance = some (s', ok)) :
    Consistent s' := by
  cases pointer with
  | none =>
    obtain ⟨rfl, _⟩ : m = s' ∧ _ := by simpa [Memory.loadPageEntry] using loaded
    exact consistent
  | some e =>
    cases entry_eq : m.entries e with
    | none => simp [Memory.loadPageEntry, entry_eq] at loaded
    | some pe =>
      cases placed : pe.frame with
      | some fp => simp [Memory.loadPageEntry, entry_eq, placed] at loaded
      | none =>
        have gives := @Links.loadPageEntry _ e tid _ consistent.links entry_eq placed chance
        obtain ⟨_, fp, meets, _⟩ := gives.post_of_eq loaded
        exact ⟨consistent.toTables.same meets.same, meets.links⟩

theorem freePageEntry (entry_eq : m.entries e = some pe) (owner : pe.tid = tid)
    {rest : List Nat} (others : ∀ o, o ∈ rest ↔ o ∈ m.pages tid ∧ o ≠ e)
    (nodup : rest.Nodup) :
    ∃ s', (m.setPages tid rest).freePageEntry e = some s' ∧ Consistent s' ∧
      Freed m s' ∧ s'.pages = update m.pages tid rest ∧
      s'.entries = update m.entries e none := by
  obtain ⟨s', frees, links, freed, pages, entries⟩ :=
    (consistent.links.setPages tid rest).freePageEntry entry_eq
  exact ⟨s', frees, ⟨consistent.toTables.remove entry_eq owner others nodup pages entries, links⟩,
    ⟨freed.1, freed.2, freed.3, freed.4⟩, pages, entries⟩

theorem freePage (tid uaddr : Nat) :
    ∃ s', m.freePage tid uaddr = some s' ∧ Consistent s' ∧ Freed m s' ∧
      ∀ e pe, s'.entries e = some pe → m.entries e = some pe := by
  unfold Memory.freePage
  cases found : m.getPageEntry tid uaddr with
  | none => exact ⟨m, rfl, consistent, ⟨rfl, rfl, rfl, fun _ _ => id⟩, fun _ _ => id⟩
  | some e =>
    obtain ⟨_, pe, entry_eq, owner, _⟩ := consistent.getPageEntry_some found
    have nodup := consistent.nodup tid
    obtain ⟨s', frees, kept, freed, _, entries⟩ := consistent.freePageEntry entry_eq owner
      (fun o => by rw [nodup.mem_erase_iff, and_comm]) (nodup.erase e)
    refine ⟨s', frees, kept, freed, fun o snd snd_eq => ?_⟩
    rw [entries] at snd_eq
    grind

/-- The loop of `page_table_destroy` always ends, with an empty list. -/
theorem freePages {list : List Nat} (pages : m.pages tid = list) :
    ∃ s', freePages tid m list = some s' ∧ Consistent s' ∧ s'.pages tid = [] ∧ Freed m s' ∧
      ∀ e pe, s'.entries e = some pe → m.entries e = some pe := by
  induction list generalizing m with
  | nil => exact ⟨m, rfl, consistent, pages, ⟨rfl, rfl, rfl, fun _ _ => id⟩, fun _ _ => id⟩
  | cons e rest ih =>
    have nodup := consistent.nodup tid
    obtain ⟨pe, entry_eq, owner⟩ := (consistent.listed tid e).mp (by simp [pages])
    rw [pages] at nodup
    obtain ⟨absent, rest_nodup⟩ := nodup_cons.mp nodup
    obtain ⟨mid, frees, kept, freed, middle_pages, entries⟩ :=
      consistent.freePageEntry entry_eq owner (fun o => by rw [pages]; grind) rest_nodup
    obtain ⟨s', goes, final, empty, later, fewer⟩ := ih kept (by rw [middle_pages, update_self])
    refine ⟨s', ?_, final, empty, freed.trans later, fun o snd snd_eq => ?_⟩
    · simp [Memory.freePages, frees, goes]
    · have middle_eq := fewer o snd snd_eq
      rw [entries] at middle_eq
      grind

theorem pageTableDestroy (tid : Nat) :
    ∃ s', m.pageTableDestroy tid = some s' ∧ Consistent s' ∧ s'.pages tid = [] ∧ Freed m s' ∧
      ∀ e pe, s'.entries e = some pe → m.entries e = some pe :=
  consistent.freePages rfl

/-- A process without entries has nothing in its page directory. -/
theorem pagedir_eq_none (empty : m.pages tid = []) (uaddr : Nat) :
    m.pagedir (tid, uaddr) = none := by
  cases mapped : m.pagedir (tid, uaddr) with
  | none => rfl
  | some kpage =>
    obtain ⟨e, pe, _, _, resides, _, owner, _⟩ := consistent.links.backed _ _ _ mapped
    have listed := (consistent.listed tid e).mpr ⟨pe, resides.1, owner⟩
    simp [empty] at listed

theorem step {call : MemoryCall} (ran : m.step call = some s') : Consistent s' := by
  cases call with
  | start tid =>
    obtain ⟨_, rfl⟩ : _ ∧ _ = s' := by simpa [Memory.step] using ran
    refine ⟨⟨consistent.listed, consistent.nodup⟩, { consistent.links with alive := ?_ }⟩
    intro e pe entry_eq
    have old := consistent.links.alive e pe entry_eq
    grind
  | allocatePage tid uaddr =>
    obtain ⟨runs, rfl⟩ : _ ∧ _ = s' := by simpa [Memory.step] using ran
    exact consistent.allocatePage runs uaddr
  | describe tid uaddr writable file ofs readBytes => exact consistent.describe ran
  | loadPageEntry tid e chance =>
    obtain ⟨⟨_, ok⟩, loaded, rfl⟩ := map_eq_some_iff.mp ran
    exact consistent.loadPageEntry loaded
  | freePage tid uaddr =>
    obtain ⟨_, frees, kept, _⟩ := consistent.freePage tid uaddr
    obtain rfl := some.inj (frees.symm.trans ran)
    exact kept
  | pageTableDestroy tid =>
    obtain ⟨_, destroys, kept, _⟩ := consistent.pageTableDestroy tid
    obtain rfl := some.inj (destroys.symm.trans ran)
    exact kept
  | exit tid =>
    obtain ⟨destroyed, destroys, kept, empty, _⟩ := consistent.pageTableDestroy tid
    obtain ⟨_, destroyed', exits⟩ := bind_eq_some_iff.mp ran
    obtain rfl := some.inj (destroys.symm.trans destroyed')
    cases exits
    refine ⟨⟨kept.listed, kept.nodup⟩, { kept.links with alive := ?_ }⟩
    intro e pe entry_eq
    have old := kept.links.alive e pe entry_eq
    have listed := kept.listed tid e
    rw [empty] at listed
    grind
  | store kpage bytes =>
    cases ran
    exact ⟨⟨consistent.listed, consistent.nodup⟩, consistent.links.fill kpage bytes⟩

end

theorem init (poolSize swapSize : Nat) (disk bytes : Nat → Buffer) :
    Consistent (Memory.init poolSize swapSize disk bytes) where
  listed := by simp [Memory.init]
  nodup := by simp [Memory.init]
  links := by
    constructor
    case swap => exact SwapLinked.swapInit swapSize disk
    all_goals simp [Memory.init]

end Consistent

/-- Frames, entries and page directories agree. -/
structure Linked (m : Memory) : Prop where
  frames_nodup : m.allFrames.Nodup
  /-- The frames of the list are on different pages of the pool. -/
  kpages : ∀ fp ∈ m.allFrames, ∀ other ∈ m.allFrames,
    (m.frames fp).map Frame.kpage = (m.frames other).map Frame.kpage → fp = other
  /-- A frame has a page exactly when the page has the frame. -/
  links : ∀ fp e, (fp ∈ m.allFrames ∧ (m.frames fp).bind Frame.upage = some e) ↔
    ∃ tid, e ∈ m.pages tid ∧ (m.entries e).bind PageEntry.frame = some fp
  /-- The page directory of the owner maps a page to its frame, and nothing else. -/
  mapped : ∀ tid uaddr kpage, m.pagedir (tid, uaddr) = some kpage ↔
    ∃ e ∈ m.pages tid, ∃ entry fp, m.entries e = some entry ∧ entry.uaddr = uaddr ∧
      entry.frame = some fp ∧ (m.frames fp).map Frame.kpage = some kpage
  apart : ∀ tid, ∀ e ∈ m.pages tid, ∀ entry, m.entries e = some entry →
    entry.frame = none ∨ entry.swap = none
  unique : ∀ tid, ∀ e ∈ m.pages tid, ∀ other ∈ m.pages tid,
    (m.entries e).map PageEntry.uaddr = (m.entries other).map PageEntry.uaddr → e = other
  /-- `page_table_destroy` returns, and leaves no frame for `pagedir_destroy`. -/
  destroyed : ∀ tid, ∃ s', m.pageTableDestroy tid = some s' ∧
    ∀ uaddr, s'.pagedir (tid, uaddr) = none

namespace Consistent

variable {m : Memory}

theorem linked (agrees : Consistent m) : Linked m where
  frames_nodup := agrees.links.nodup
  kpages fp fp_listed other other_listed same := by
    obtain ⟨frame, frame_eq⟩ := isSome_iff_exists.mp ((agrees.links.listed fp).mp fp_listed)
    obtain ⟨snd, snd_eq⟩ := isSome_iff_exists.mp ((agrees.links.listed other).mp other_listed)
    refine agrees.links.distinct fp frame other snd frame_eq snd_eq ?_
    simpa [frame_eq, snd_eq] using same
  links fp e := by
    constructor
    · rintro ⟨_, up⟩
      obtain ⟨frame, frame_eq, up⟩ := bind_eq_some_iff.mp up
      obtain ⟨owner, entry, resides, _⟩ := agrees.links.held fp frame frame_eq (by simp)
      obtain rfl : owner = e := by grind
      refine ⟨entry.tid, (agrees.listed _ _).mpr ⟨entry, resides.1, rfl⟩, ?_⟩
      simp [resides.1, resides.2.2.1]
    · rintro ⟨tid, _, down⟩
      obtain ⟨entry, entry_eq, down⟩ := bind_eq_some_iff.mp down
      obtain ⟨frame, resides⟩ := agrees.links.owned e entry fp entry_eq down
      exact ⟨(agrees.links.listed fp).mpr (by simp [resides.2.1]),
        by simp [resides.2.1, resides.2.2.2]⟩
  mapped tid uaddr kpage := by
    constructor
    · intro mapped
      obtain ⟨e, entry, fp, frame, resides, _, owner, there, page⟩ :=
        agrees.links.backed _ _ _ mapped
      exact ⟨e, (agrees.listed tid e).mpr ⟨entry, resides.1, owner⟩, entry, fp, resides.1, there,
        resides.2.2.1, by simp [resides.2.1, page]⟩
    · rintro ⟨e, listed, entry, fp, entry_eq, rfl, down, page⟩
      obtain ⟨frame, resides⟩ := agrees.links.owned e entry fp entry_eq down
      obtain ⟨owned, owned_eq, owner⟩ := (agrees.listed tid e).mp listed
      obtain rfl : owned = entry := by grind
      have mapped := agrees.links.maps e owned fp frame resides (by simp)
      rw [owner] at mapped
      simpa [resides.2.1, mapped] using page
  apart tid e _ entry entry_eq := by
    cases placed : entry.frame with
    | none => exact .inl rfl
    | some fp => exact .inr (agrees.links.apart e entry entry_eq (by simp) (by simp [placed]))
  unique tid e listed other other_listed same := by
    obtain ⟨entry, entry_eq, owner⟩ := (agrees.listed tid e).mp listed
    obtain ⟨snd, snd_eq, second_owner⟩ := (agrees.listed tid other).mp other_listed
    refine agrees.links.unique e entry other snd entry_eq snd_eq (owner.trans second_owner.symm) ?_
    simpa [entry_eq, snd_eq] using same
  destroyed tid := by
    obtain ⟨s', destroys, kept, empty, _⟩ := agrees.pageTableDestroy tid
    exact ⟨s', destroys, kept.pagedir_eq_none empty⟩

end Consistent

/-- Frames, entries and page directories agree along every sequence of calls. -/
theorem memory_linked (poolSize swapSize : Nat) (disk contents : Nat → Buffer)
    (calls : List MemoryCall) :
    Execution.Along Memory.step Linked (.init poolSize swapSize disk contents) calls :=
  Execution.along_of_invariant (Consistent.init poolSize swapSize disk contents)
    (fun agrees ran => agrees.step ran)
    (fun agrees => agrees.linked) calls

/-- Nothing leaks: every page of the user pool and every swap slot in use belongs to an entry in the list
of a live process. -/
theorem memory_owned_by_living (poolSize swapSize : Nat) (disk contents : Nat → Buffer)
    (calls : List MemoryCall) :
    Execution.Along Memory.step (fun m =>
        (∀ kpage, m.used kpage = true → ∃ tid, m.alive tid = true ∧ ∃ e ∈ m.pages tid,
          ∃ entry fp frame, Resides m.entries m.frames e entry fp frame ∧ frame.kpage = kpage) ∧
        ∀ sector e, ⟨sector, some e⟩ ∈ m.swapTable.swapList → ∃ tid, m.alive tid = true ∧
          e ∈ m.pages tid ∧ swapOf m.entries e = some sector)
      (.init poolSize swapSize disk contents) calls := by
  refine Execution.along_of_invariant (Consistent.init poolSize swapSize disk contents)
    (·.step ·) ?_ calls
  intro m agrees
  have listed : ∀ {e pe}, m.entries e = some pe → m.alive pe.tid = true ∧ e ∈ m.pages pe.tid :=
    fun found => ⟨agrees.links.alive _ _ found, (agrees.listed _ _).mpr ⟨_, found, rfl⟩⟩
  constructor
  · intro kpage used
    obtain ⟨fp, frame, found, rfl⟩ := agrees.links.framed kpage used
    obtain ⟨e, pe, resides, _⟩ := agrees.links.held fp frame found nofun
    obtain ⟨lives, mem⟩ := listed resides.1
    exact ⟨pe.tid, lives, e, mem, pe, fp, frame, resides, rfl⟩
  · intro sec e slot
    obtain ⟨state, table, swap, inv⟩ := agrees.links.swap
    rw [← table, inv.linked, swap] at slot
    obtain ⟨pe, found, _⟩ := bind_eq_some_iff.mp slot
    obtain ⟨lives, mem⟩ := listed found
    exact ⟨pe.tid, lives, mem, slot⟩

end Pintos.Vm
