import Mathlib.Data.List.Nodup
import Mathlib.Data.List.Perm.Basic
import Pintos.Lib.Updates
import Pintos.Vm.Paging

/-!
# Paging keeps data

`evict_frame` asks for dirty bits in the page directory of the evicting process, which need not own
the victim, and it ignores that swap may be full.  The system refines flat memory in every run in
which these two shortcuts do no harm.
-/

namespace Pintos.Paging

open Function Option List

namespace Vm

/-- The frame is known to differ from what would be read in again. -/
def Marked (vm : Vm) (fp : Nat) (upage : Page) : Prop :=
  vm.kernelDirty fp ∨ (vm.frame fp).asyncWrite ∨ (vm.pte upage).dirty

/-- When the clock looks at a frame of another process, the evicting process has no dirty page of
its own at the same address, or that page is marked in another way. -/
def CleanFits (vm : Vm) (current fp : Nat) : Prop :=
  ∀ upage ∈ (vm.frame fp).upage, upage.tid = current ∨
    ∀ own ∈ (vm.pte ⟨current, upage.uaddr⟩).kpage, (vm.pte ⟨current, upage.uaddr⟩).dirty →
      vm.kernelDirty own ∨ (vm.frame own).asyncWrite

/-- There is a free slot, or room for a new one. -/
def slotAvailable (vm : Vm) : Bool :=
  vm.getFreeSlot.1.isSome

/-- A victim that its owner has written to is seen to be dirty, and a victim seen to be dirty finds
a slot. -/
def PushFits (vm : Vm) (current fp : Nat) : Prop :=
  ∀ upage ∈ (vm.frame fp).upage,
    ((vm.pte upage).dirty → vm.isDirty current fp upage ∨ (vm.frame fp).asyncWrite) ∧
      (vm.isDirty current fp upage ∨ (vm.frame fp).asyncWrite → vm.slotAvailable)

end Vm

/-- The condition on the state before each step under which no data is lost. -/
def EvictionFits (s : System) : Event → Prop
  | .pager =>
    match s.vm.pager with
    | some ⟨page, .clean _ _ fp _⟩ => s.vm.CleanFits page.tid fp
    | some ⟨page, .push fp⟩ => s.vm.PushFits page.tid fp
    | _ => True
  | _ => True

section Decidable

variable (vm : Vm) (current fp : Nat)

instance : Decidable (vm.CleanFits current fp) := by
  unfold Vm.CleanFits
  infer_instance

instance : Decidable (vm.PushFits current fp) := by
  unfold Vm.PushFits
  infer_instance

instance (s : System) (e : Event) : Decidable (EvictionFits s e) := by
  unfold EvictionFits
  split
  · split <;> infer_instance
  · infer_instance

end Decidable

variable {entry : PageEntry} {page : Page} {mid : Option Nat} {s' vm : Vm} {slot : SwapSlot}

/-- What reading in a page that is not present would yield. -/
def Vm.recover (vm : Vm) (entry : PageEntry) : Bytes :=
  match entry.swap with
  | some sector => vm.swapDisk sector
  | none => image entry.file entry.readBytes

/-- The slots in the swap list are distinct and agree with the page entries. -/
structure SwapAgrees (vm : Vm) : Prop where
  slot : ∀ page entry sector, vm.entry page = some entry → entry.swap = some sector →
    ⟨sector, some page⟩ ∈ vm.swapList
  owner : ∀ slot ∈ vm.swapList, ∀ page, slot.upage = some page →
    ∃ entry, vm.entry page = some entry ∧ entry.swap = some slot.sector
  nodup : (vm.swapList.map SwapSlot.sector).Nodup
  below : ∀ slot ∈ vm.swapList, slot.sector < vm.nextSector

/-- Frames, entries and page tables agree, and the bytes of every page can be had: from its frame if
it has one that is not in transit, else by reading it in. -/
structure Paged (s : System) (mid : Option Nat) : Prop where
  linked : ∀ page entry fp, s.vm.entry page = some entry → entry.frame = some fp →
    (s.vm.frame fp).upage = some page
  owned : ∀ fp page, (s.vm.frame fp).upage = some page →
    ∃ entry, s.vm.entry page = some entry ∧ entry.frame = some fp
  inside : ∀ fp page, (s.vm.frame fp).upage = some page → fp < s.vm.frames
  mapped : ∀ page fp, (s.vm.pte page).kpage = some fp →
    (s.vm.frame fp).upage = some page ∧ mid ≠ some fp
  present : ∀ fp page, (s.vm.frame fp).upage = some page → mid ≠ some fp →
    (s.vm.pte page).kpage = some fp
  held : ∀ fp page, (s.vm.frame fp).upage = some page → mid ≠ some fp →
    s.vm.contents fp = s.memory page
  unswapped : ∀ fp page entry, (s.vm.frame fp).upage = some page → mid ≠ some fp →
    s.vm.entry page = some entry → entry.swap = none
  marked : ∀ fp page entry, (s.vm.frame fp).upage = some page → mid ≠ some fp →
    s.vm.entry page = some entry →
    s.vm.Marked fp page ∨ image entry.file entry.readBytes = s.memory page
  absent : ∀ page entry, s.vm.entry page = some entry → entry.frame = none →
    s.vm.recover entry = s.memory page
  swap : SwapAgrees s.vm

/-- A page that is in a frame, is mapped to it and can be had from it. -/
structure Resident (s : System) (fp : Nat) (page : Page) (entry : PageEntry) : Prop where
  present : (s.vm.pte page).kpage = some fp
  held : s.vm.contents fp = s.memory page
  unswapped : entry.swap = none
  marked : s.vm.Marked fp page ∨ image entry.file entry.readBytes = s.memory page

theorem Paged.resident {s : System} (paged : Paged s mid) {fp : Nat}
    (upage : (s.vm.frame fp).upage = some page) (out : mid ≠ some fp)
    (found : s.vm.entry page = some entry) : Resident s fp page entry :=
  ⟨paged.present fp page upage out, paged.held fp page upage out,
    paged.unswapped fp page entry upage out found, paged.marked fp page entry upage out found⟩

/-- What holds of the frame in transit at each stage of `load_page_entry`. -/
def Transit (s : System) (page : Page) : Stage → Prop
  | .allocate | .clock _ _ =>
    Paged s none ∧ ∃ entry, s.vm.entry page = some entry ∧ entry.frame = none
  | .clean _ _ fp _ | .advance _ _ fp _ | .unmap fp =>
    Paged s none ∧ (∃ entry, s.vm.entry page = some entry ∧ entry.frame = none) ∧
      ∃ victim, (s.vm.frame fp).upage = some victim
  | .push fp =>
    Paged s (some fp) ∧ (∃ entry, s.vm.entry page = some entry ∧ entry.frame = none) ∧
      ∃ victim entry, (s.vm.frame fp).upage = some victim ∧
        s.vm.entry victim = some entry ∧ entry.swap = none ∧
        s.vm.contents fp = s.memory victim ∧
        (s.vm.Marked fp victim ∨
          image entry.file entry.readBytes = s.memory victim)
  | .detach fp =>
    Paged s (some fp) ∧ (∃ entry, s.vm.entry page = some entry ∧ entry.frame = none) ∧
      ∃ victim entry, (s.vm.frame fp).upage = some victim ∧
        s.vm.entry victim = some entry ∧
        s.vm.recover entry = s.memory victim
  | .assign fp =>
    Paged s none ∧ (∃ entry, s.vm.entry page = some entry ∧ entry.frame = none) ∧
      (s.vm.frame fp).upage = none ∧ fp < s.vm.frames ∧
      s.vm.contents fp = fun _ => 0
  | .load fp =>
    Paged s (some fp) ∧ (s.vm.frame fp).upage = some page ∧
      s.vm.contents fp = (fun _ => 0) ∧
      ∃ entry, s.vm.entry page = some entry ∧ s.vm.recover entry = s.memory page
  | .install fp =>
    Paged s (some fp) ∧ (s.vm.frame fp).upage = some page ∧
      s.vm.contents fp = s.memory page ∧
      ∃ entry, s.vm.entry page = some entry ∧ entry.swap = none ∧
        (s.vm.kernelDirty fp ∨
          image entry.file entry.readBytes = s.memory page)
  | .unpin _ => Paged s none

def PagingInvariant (s : System) : Prop :=
  match s.vm.pager with
  | none => Paged s none
  | some ⟨page, stage⟩ => Transit s page stage

section

variable (agrees : SwapAgrees vm)
include agrees

theorem SwapAgrees.mem_iff (found : vm.entry page = some entry) (sec : Nat) :
    entry.swap = some sec ↔ ⟨sec, some page⟩ ∈ vm.swapList := by
  refine ⟨agrees.slot page entry sec found, fun mem => ?_⟩
  obtain ⟨o, hit, swap⟩ := agrees.owner _ mem page rfl
  obtain rfl := some.inj (found.symm.trans hit)
  exact swap

/-- One page has got a new entry, and only slots of this page have changed. -/
theorem SwapAgrees.replace {new : PageEntry} (entries : s'.entry = update vm.entry page (some new))
    (others : ∀ sec owner, owner ≠ page →
      (⟨sec, some owner⟩ ∈ s'.swapList ↔ ⟨sec, some owner⟩ ∈ vm.swapList))
    (own : ∀ sec, new.swap = some sec ↔ ⟨sec, some page⟩ ∈ s'.swapList)
    (nodup : (s'.swapList.map SwapSlot.sector).Nodup)
    (below : ∀ slot ∈ s'.swapList, slot.sector < s'.nextSector) : SwapAgrees s' := by
  refine ⟨?_, ?_, nodup, below⟩
  · intro o here sec found swap
    rw [entries] at found
    rcases update_some_cases found with ⟨rfl, rfl⟩ | ⟨ne, old⟩
    · exact (own sec).mp swap
    · exact (others sec o ne).mpr (agrees.slot o here sec old swap)
  · rintro ⟨sec, _⟩ mem owner rfl
    rw [entries]
    by_cases same : owner = page
    · subst same
      exact ⟨new, update_self _ _ _, (own sec).mpr mem⟩
    · rw [update_of_ne same]
      exact agrees.owner _ ((others sec owner same).mp mem) owner rfl

theorem SwapAgrees.relink {new : PageEntry} (found : vm.entry page = some entry)
    (swap : new.swap = entry.swap) (entries : s'.entry = update vm.entry page (some new))
    (swapList : s'.swapList = vm.swapList) (nextSector : s'.nextSector = vm.nextSector) :
    SwapAgrees s' := by
  refine agrees.replace entries ?_ ?_ ?_ ?_
  · exact fun _ _ _ => by rw [swapList]
  · exact fun sec => by rw [swap, swapList, agrees.mem_iff found]
  · rw [swapList]
    exact agrees.nodup
  · rw [swapList, nextSector]
    exact agrees.below

/-- What `get_free_slot` returns is in nobody's use, and it keeps the slots in use. -/
theorem SwapAgrees.getFreeSlot {taken : Vm} (free : vm.getFreeSlot = (some slot, taken)) :
    taken = { vm with swapList := taken.swapList, nextSector := taken.nextSector } ∧
      (∀ o ∈ taken.swapList, o ∈ vm.swapList) ∧
      (∀ o ∈ vm.swapList, o.upage ≠ none → o ∈ taken.swapList) ∧
      (slot.sector :: taken.swapList.map SwapSlot.sector).Nodup ∧
      slot.sector < taken.nextSector ∧ vm.nextSector ≤ taken.nextSector := by
  unfold Vm.getFreeSlot at free
  split at free
  · rename_i sec last
    cases free
    have list : vm.swapList.dropLast ++ [⟨sec, none⟩] = vm.swapList :=
      dropLast_append_getLast? _ last
    have mem : ⟨sec, none⟩ ∈ vm.swapList := mem_of_getLast? last
    refine ⟨rfl, fun o inside => (dropLast_sublist _).subset inside, ?_, ?_,
      agrees.below _ mem, Nat.le_refl _⟩
    · intro o inside used
      rw [← list] at inside
      rcases mem_append.mp inside with front | back
      · exact front
      · rw [mem_singleton.mp back] at used
        exact (used rfl).elim
    · have nodup := agrees.nodup
      rw [← list, map_append] at nodup
      exact (perm_append_singleton _ _).nodup_iff.mp nodup
  · split at free
    · cases free
      refine ⟨rfl, fun _ inside => inside, fun _ inside _ => inside, ?_, ?_, ?_⟩
      · refine nodup_cons.mpr ⟨?_, agrees.nodup⟩
        intro inside
        obtain ⟨o, mem, same⟩ := mem_map.mp inside
        have below := agrees.below o mem
        rw [same] at below
        exact Nat.lt_irrefl _ below
      · simp [pageSectors]
      · simp [pageSectors]
    · cases free

theorem SwapAgrees.unused {taken : Vm} (free : vm.getFreeSlot = (some slot, taken))
    (found : vm.entry page = some entry) : entry.swap ≠ some slot.sector := by
  intro swap
  obtain ⟨-, -, kept, nodup, -, -⟩ := agrees.getFreeSlot free
  have mem := kept _ ((agrees.mem_iff found _).mp swap) (by simp)
  exact (nodup_cons.mp nodup).1 (mem_map.mpr ⟨_, mem, rfl⟩)

theorem SwapAgrees.push {taken : Vm} (free : vm.getFreeSlot = (some slot, taken))
    (found : vm.entry page = some entry) (no_slot : entry.swap = none) (entries : s'.entry =
      update vm.entry page (some { entry with swap := some slot.sector }))
    (swapList : s'.swapList = ⟨slot.sector, some page⟩ :: taken.swapList)
    (nextSector : s'.nextSector = taken.nextSector) : SwapAgrees s' := by
  obtain ⟨-, old, kept, nodup, below, grown⟩ := agrees.getFreeSlot free
  refine agrees.replace entries ?_ ?_ (by rw [swapList]; exact nodup) ?_
  · intro sec owner ne
    rw [swapList, mem_cons, or_iff_right fun same => ne (some.inj (SwapSlot.mk.inj same).2)]
    exact ⟨old _, fun mem => kept _ mem (by simp)⟩
  · intro sec
    have absent : ⟨sec, some page⟩ ∉ taken.swapList := by
      intro mem
      have swap := (agrees.mem_iff found sec).mpr (old _ mem)
      rw [no_slot] at swap
      cases swap
    rw [swapList, mem_cons, or_iff_left absent]
    simp [eq_comm]
  · intro o mem
    rw [swapList] at mem
    rw [nextSector]
    rcases mem_cons.mp mem with rfl | mem
    · exact below
    · exact Nat.lt_of_lt_of_le (agrees.below o (old o mem)) grown

/-- The slot of a swapped page, and the slots after `pull_from_swap`. -/
theorem SwapAgrees.pull {sec : Nat} (found : vm.entry page = some entry)
    (moved : entry.swap = some sec) : vm.getSwappedPage page = some ⟨sec, some page⟩ ∧
      ∀ s' : Vm, s'.entry = update vm.entry page (some { entry with swap := none }) →
        s'.swapList = vm.swapList.erase ⟨sec, some page⟩ ++ [⟨sec, none⟩] →
        s'.nextSector = vm.nextSector → SwapAgrees s' := by
  have mem := (agrees.mem_iff found sec).mp moved
  have unique : ∀ {other}, ⟨other, some page⟩ ∈ vm.swapList → other = sec := by
    intro other listed
    exact some.inj (((agrees.mem_iff found other).mpr listed).symm.trans moved)
  have slots_nodup : vm.swapList.Nodup := List.Nodup.of_map _ agrees.nodup
  constructor
  · unfold Vm.getSwappedPage
    cases fst : vm.swapList.find? fun slot => slot.upage == some page with
    | none =>
      have nobody := find?_eq_none.mp fst _ mem
      simp at nobody
    | some slot =>
      obtain ⟨other, _⟩ := slot
      obtain rfl : _ = some page := by simpa using find?_some fst
      rw [unique (mem_of_find?_eq_some fst)]
  · intro s' entries swapList nextSector
    refine agrees.replace entries ?_ ?_ ?_ ?_
    · intro other owner ne
      have different : (⟨other, some owner⟩ : SwapSlot) ≠ ⟨sec, some page⟩ :=
        fun same => ne (some.inj (SwapSlot.mk.inj same).2)
      simp [swapList, mem_erase_of_ne different]
    · intro other
      refine iff_of_false (by simp) fun inside => ?_
      obtain ⟨ne, listed⟩ : _ ∧ _ := by simpa [swapList, slots_nodup.mem_erase_iff] using inside
      exact ne (unique listed)
    · have perm : (s'.swapList.map SwapSlot.sector).Perm (vm.swapList.map SwapSlot.sector) := by
        rw [swapList, map_append]
        refine (perm_append_singleton _ _).trans ?_
        exact (perm_cons_erase mem).symm.map SwapSlot.sector
      exact perm.nodup_iff.mpr agrees.nodup
    · intro slot inside
      rw [swapList] at inside
      rw [nextSector]
      rcases mem_append.mp inside with old | new
      · exact agrees.below slot (mem_of_mem_erase old)
      · rw [mem_singleton.mp new]
        exact agrees.below ⟨sec, some page⟩ mem

end

/-! ## Steps that move no data -/

/-- No page has moved, the frames in use have kept their bytes, and no mark was lost. -/
structure SamePaging (s s' : System) : Prop where
  entry : s'.vm.entry = s.vm.entry
  upage : ∀ fp, (s'.vm.frame fp).upage = (s.vm.frame fp).upage
  frames : s.vm.frames ≤ s'.vm.frames
  kpage : ∀ page, (s'.vm.pte page).kpage = (s.vm.pte page).kpage
  contents : ∀ fp page, (s.vm.frame fp).upage = some page →
    s'.vm.contents fp = s.vm.contents fp
  swapList : s'.vm.swapList = s.vm.swapList
  nextSector : s'.vm.nextSector = s.vm.nextSector
  swapDisk : s'.vm.swapDisk = s.vm.swapDisk
  memory : s'.memory = s.memory
  marks : ∀ fp page, (s.vm.frame fp).upage = some page → s.vm.Marked fp page →
    s'.vm.Marked fp page

theorem SwapAgrees.congr {s : Vm} (agrees : SwapAgrees s)
    (entry : s'.entry = s.entry) (swapList : s'.swapList = s.swapList)
    (nextSector : s'.nextSector = s.nextSector) : SwapAgrees s' where
  slot := by rw [entry, swapList]; exact agrees.slot
  owner := by rw [entry, swapList]; exact agrees.owner
  nodup := by rw [swapList]; exact agrees.nodup
  below := by rw [swapList, nextSector]; exact agrees.below

theorem Vm.recover_congr {s : Vm} (swapDisk : s'.swapDisk = s.swapDisk)
    (entry : PageEntry) : s'.recover entry = s.recover entry := by
  unfold Vm.recover
  rw [swapDisk]

theorem Paged.congr {s s' : System} (paged : Paged s mid)
    (same : SamePaging s s') : Paged s' mid where
  linked page entry fp := by rw [same.entry, same.upage]; exact paged.linked page entry fp
  owned fp page := by rw [same.entry, same.upage]; exact paged.owned fp page
  inside fp page upage := by
    rw [same.upage] at upage
    exact Nat.lt_of_lt_of_le (paged.inside fp page upage) same.frames
  mapped page fp := by rw [same.kpage, same.upage]; exact paged.mapped page fp
  present fp page := by rw [same.kpage, same.upage]; exact paged.present fp page
  held fp page upage outside := by
    rw [same.upage] at upage
    rw [same.contents fp page upage, same.memory]
    exact paged.held fp page upage outside
  unswapped fp page entry := by
    rw [same.upage, same.entry]
    exact paged.unswapped fp page entry
  marked fp page entry := by
    rw [same.upage, same.entry, same.memory]
    intro upage there found
    rcases paged.marked fp page entry upage there found with marked | original
    · exact .inl (same.marks fp page upage marked)
    · exact .inr original
  absent page entry := by
    rw [same.entry, same.memory, Vm.recover_congr same.swapDisk]
    exact paged.absent page entry
  swap := paged.swap.congr same.entry same.swapList same.nextSector

theorem SamePaging.goto (s : System) (page : Page) (stage : Stage) :
    SamePaging s ⟨s.vm.goto page stage, s.memory⟩ :=
  ⟨rfl, fun _ => rfl, Nat.le_refl _, fun _ => rfl, fun _ _ _ => rfl, rfl, rfl, rfl, rfl,
    fun _ _ _ marked => marked⟩

theorem SamePaging.setPinned (s : System) (fp : Nat) (pinned : Bool) : SamePaging s
      ⟨s.vm.setFrame fp { s.vm.frame fp with pinned }, s.memory⟩ := by
  refine ⟨rfl, update_field Frame.upage rfl, Nat.le_refl _, fun _ => rfl, fun _ _ _ => rfl, rfl,
    rfl, rfl, rfl, ?_⟩
  rintro o owner - (k | async | dirty)
  · exact .inl k
  · exact .inr (.inl (Eq.trans (update_field Frame.asyncWrite (by rfl) o) async))
  · exact .inr (.inr dirty)

namespace Paged

variable {s : System} {mid : Option Nat}

theorem frame_unique (paged : Paged s mid) {fst snd : Nat} {page : Page}
    (first_page : (s.vm.frame fst).upage = some page)
    (second_page : (s.vm.frame snd).upage = some page) : fst = snd := by
  obtain ⟨entry, found, frame⟩ := paged.owned fst page first_page
  obtain ⟨o, other_found, other_frame⟩ := paged.owned snd page second_page
  rw [found] at other_found
  cases other_found
  exact some.inj (frame.symm.trans other_frame)

theorem frame_eq (paged : Paged s mid) {fp : Nat} {page : Page} {entry : PageEntry}
    (upage : (s.vm.frame fp).upage = some page) (found : s.vm.entry page = some entry) :
    entry.frame = some fp := by
  obtain ⟨o, other_found, frame⟩ := paged.owned fp page upage
  obtain rfl := some.inj (found.symm.trans other_found)
  exact frame

theorem unmapped_of_absent (paged : Paged s mid) {page : Page} {entry : PageEntry}
    (found : s.vm.entry page = some entry) (absent : entry.frame = none) :
    (s.vm.pte page).kpage = none := by
  cases kpage : (s.vm.pte page).kpage with
  | none => rfl
  | some fp =>
    rw [paged.frame_eq (paged.mapped page fp kpage).1 found] at absent
    cases absent

theorem unmapped_of_transit {fp : Nat} (paged : Paged s (some fp)) {page : Page}
    (upage : (s.vm.frame fp).upage = some page) : (s.vm.pte page).kpage = none := by
  cases kpage : (s.vm.pte page).kpage with
  | none => rfl
  | some o =>
    obtain ⟨other_page, out⟩ := paged.mapped page o kpage
    rw [paged.frame_unique upage other_page] at out
    exact (out rfl).elim

theorem ne_of_absent (paged : Paged s mid) {fp : Nat} {page victim : Page} {entry : PageEntry}
    (found : s.vm.entry page = some entry) (absent : entry.frame = none)
    (upage : (s.vm.frame fp).upage = some victim) : page ≠ victim := by
  rintro rfl
  rw [paged.frame_eq upage found] at absent
  cases absent

theorem dataKept (paged : Paged s mid) : DataKept s := by
  intro page fp kpage
  obtain ⟨upage, out⟩ := paged.mapped page fp kpage
  exact paged.held fp page upage out

end Paged

variable {s s' sys : System} {mid : Option Nat} {page : Page}

/-! ## User steps -/

/-- What user code and `allocate_page` can do: pages without frame, and frames without mapping, stay
as they are; a page that changes is dirty. -/
structure UserStep (s s' : System) : Prop where
  frame : s'.vm.frame = s.vm.frame
  frames : s'.vm.frames = s.vm.frames
  kernelDirty : s'.vm.kernelDirty = s.vm.kernelDirty
  swapList : s'.vm.swapList = s.vm.swapList
  nextSector : s'.vm.nextSector = s.vm.nextSector
  swapDisk : s'.vm.swapDisk = s.vm.swapDisk
  pager : s'.vm.pager = s.vm.pager
  entry : ∀ page entry, s.vm.entry page = some entry → s'.vm.entry page = some entry
  fresh : ∀ page entry, s'.vm.entry page = some entry → s.vm.entry page = some entry ∨
    entry.frame = none ∧ entry.swap = none ∧
      image entry.file entry.readBytes = s'.memory page
  kpage : ∀ page, (s'.vm.pte page).kpage = (s.vm.pte page).kpage
  dirty : ∀ page, (s.vm.pte page).dirty → (s'.vm.pte page).dirty
  still : ∀ page entry, s.vm.entry page = some entry → (s.vm.pte page).kpage = none →
    s'.memory page = s.memory page
  quiet : ∀ fp, (∀ page, (s.vm.pte page).kpage ≠ some fp) →
    s'.vm.contents fp = s.vm.contents fp
  stored : ∀ page fp, (s.vm.frame fp).upage = some page →
    (s.vm.pte page).kpage = some fp → s.vm.contents fp = s.memory page →
    s'.vm.contents fp = s'.memory page ∧
      (s'.memory page = s.memory page ∨ (s'.vm.pte page).dirty)

theorem UserStep.marked (step : UserStep s s') {fp : Nat}
    (marked : s.vm.Marked fp page) : s'.vm.Marked fp page := by
  unfold Vm.Marked at marked ⊢
  rw [step.kernelDirty, step.frame]
  rcases marked with k | async | dirty
  · exact .inl k
  · exact .inr (.inl async)
  · exact .inr (.inr (step.dirty page dirty))

theorem Paged.userStep (paged : Paged s mid) (step : UserStep s s') : Paged s' mid := by
  have old_of_frame : ∀ {page entry fp}, s'.vm.entry page = some entry →
      (s.vm.frame fp).upage = some page → s.vm.entry page = some entry := by
    intro page entry fp found upage
    obtain ⟨old, old_found, _⟩ := paged.owned fp page upage
    rw [step.entry page old old_found] at found
    rw [← found]
    exact old_found
  have stored : ∀ {fp page}, (s.vm.frame fp).upage = some page → mid ≠ some fp → _ :=
    fun {fp page} upage out => step.stored page fp upage (paged.present fp page upage out)
      (paged.held fp page upage out)
  refine ⟨?_, ?_, ?_, ?_, ?_, ?_, ?_, ?_, ?_, ?_⟩
  · intro page entry fp found frame
    rw [step.frame]
    rcases step.fresh page entry found with old | ⟨absent, _⟩
    · exact paged.linked page entry fp old frame
    · rw [absent] at frame
      cases frame
  · intro fp page upage
    rw [step.frame] at upage
    obtain ⟨entry, found, frame⟩ := paged.owned fp page upage
    exact ⟨entry, step.entry page entry found, frame⟩
  · rw [step.frame, step.frames]
    exact paged.inside
  · intro page fp
    rw [step.kpage, step.frame]
    exact paged.mapped page fp
  · intro fp page
    rw [step.kpage, step.frame]
    exact paged.present fp page
  · intro fp page upage out
    rw [step.frame] at upage
    exact (stored upage out).1
  · intro fp page entry upage out found
    rw [step.frame] at upage
    exact paged.unswapped fp page entry upage out (old_of_frame found upage)
  · intro fp page entry upage out found
    rw [step.frame] at upage
    rcases paged.marked fp page entry upage out (old_of_frame found upage) with marked | original
    · exact .inl (step.marked marked)
    · rcases (stored upage out).2 with same | dirty
      · exact .inr (original.trans same.symm)
      · exact .inl (.inr (.inr dirty))
  · intro page entry found absent
    rw [Vm.recover_congr step.swapDisk]
    rcases step.fresh page entry found with old | ⟨_, no_slot, original⟩
    · rw [step.still page entry old (paged.unmapped_of_absent old absent)]
      exact paged.absent page entry old absent
    · unfold Vm.recover
      rw [no_slot]
      exact original
  · constructor
    · intro page entry sec found swap
      rw [step.swapList]
      rcases step.fresh page entry found with old | ⟨_, no_slot, _⟩
      · exact paged.swap.slot page entry sec old swap
      · rw [no_slot] at swap
        cases swap
    · intro slot mem page upage
      rw [step.swapList] at mem
      obtain ⟨entry, found, swap⟩ := paged.swap.owner slot mem page upage
      exact ⟨entry, step.entry page entry found, swap⟩
    · rw [step.swapList]
      exact paged.swap.nodup
    · rw [step.swapList, step.nextSector]
      exact paged.swap.below

theorem Transit.userStep {stage : Stage} (mid : Transit s page stage)
    (step : UserStep s s') : Transit s' page stage := by
  have waits : (∃ entry, s.vm.entry page = some entry ∧ entry.frame = none) →
      ∃ entry, s'.vm.entry page = some entry ∧ entry.frame = none := by
    rintro ⟨entry, found, absent⟩
    exact ⟨entry, step.entry page entry found, absent⟩
  have not_mapped : ∀ {fp}, Paged s (some fp) → s'.vm.contents fp = s.vm.contents fp := by
    intro fp paged
    refine step.quiet fp fun o kpage => ?_
    exact (paged.mapped o fp kpage).2 rfl
  have same_memory : ∀ {fp victim entry}, Paged s (some fp) →
      (s.vm.frame fp).upage = some victim → s.vm.entry victim = some entry →
      s'.memory victim = s.memory victim := by
    intro fp victim entry paged upage found
    exact step.still victim entry found (paged.unmapped_of_transit upage)
  cases stage with
  | allocate | clock =>
    obtain ⟨paged, wait⟩ := mid
    exact ⟨paged.userStep step, waits wait⟩
  | clean | advance | unmap =>
    obtain ⟨paged, wait, victim, upage⟩ := mid
    exact ⟨paged.userStep step, waits wait, victim, by rw [step.frame]; exact upage⟩
  | push fp =>
    obtain ⟨paged, wait, victim, entry, upage, found, swap, held, marked⟩ := mid
    refine ⟨paged.userStep step, waits wait, victim, entry, by rw [step.frame]; exact upage,
      step.entry victim entry found, swap, ?_, ?_⟩
    · rw [not_mapped paged, same_memory paged upage found]
      exact held
    · rw [same_memory paged upage found]
      exact marked.imp_left step.marked
  | detach fp =>
    obtain ⟨paged, wait, victim, entry, upage, found, gets⟩ := mid
    refine ⟨paged.userStep step, waits wait, victim, entry, by rw [step.frame]; exact upage,
      step.entry victim entry found, ?_⟩
    rw [Vm.recover_congr step.swapDisk, same_memory paged upage found]
    exact gets
  | assign fp =>
    obtain ⟨paged, wait, upage, inside, zero⟩ := mid
    refine ⟨paged.userStep step, waits wait, by rw [step.frame]; exact upage,
      by rw [step.frames]; exact inside, ?_⟩
    rw [step.quiet fp fun o kpage => ?_]
    · exact zero
    · have used := (paged.mapped o fp kpage).1
      rw [upage] at used
      cases used
  | load fp =>
    obtain ⟨paged, upage, zero, entry, found, gets⟩ := mid
    refine ⟨paged.userStep step, by rw [step.frame]; exact upage, ?_, entry,
      step.entry page entry found, ?_⟩
    · rw [not_mapped paged]
      exact zero
    · rw [Vm.recover_congr step.swapDisk, same_memory paged upage found]
      exact gets
  | install fp =>
    obtain ⟨paged, upage, held, entry, found, swap, marked⟩ := mid
    refine ⟨paged.userStep step, by rw [step.frame]; exact upage, ?_, entry,
      step.entry page entry found, swap, ?_⟩
    · rw [not_mapped paged, same_memory paged upage found]
      exact held
    · rw [step.kernelDirty, same_memory paged upage found]
      exact marked
  | unpin => exact Paged.userStep mid step

/-- The frames and mappings that both kinds of state have in common. -/
theorem PagingInvariant.mapped (inv : PagingInvariant sys) : ∃ mid, Paged sys mid := by
  unfold PagingInvariant at inv
  split at inv
  · exact ⟨none, inv⟩
  · rename_i page stage _
    cases stage with
    | allocate | clock | clean | advance | unmap | assign => exact ⟨none, inv.1⟩
    | push fp | detach fp | load fp | install fp => exact ⟨some fp, inv.1⟩
    | unpin => exact ⟨none, inv⟩

theorem PagingInvariant.userStep (inv : PagingInvariant s) (step : UserStep s s') :
    PagingInvariant s' := by
  unfold PagingInvariant at inv ⊢
  rw [step.pager]
  split at inv
  · exact Paged.userStep inv step
  · exact Transit.userStep inv step

theorem userStep_allocatePage {entry : PageEntry} (paged : Paged sys mid)
    (unused : sys.vm.entry page = none) (frame : entry.frame = none) (swap : entry.swap = none) :
    UserStep sys ⟨sys.vm.setEntry page entry,
      update sys.memory page (image entry.file entry.readBytes)⟩ := by
  have other_of_found : ∀ {o found}, sys.vm.entry o = some found → o ≠ page := by
    rintro o found here rfl
    rw [unused] at here
    cases here
  refine ⟨rfl, rfl, rfl, rfl, rfl, rfl, rfl, ?_, ?_, fun _ => rfl, fun _ dirty => dirty, ?_,
    fun _ _ => rfl, ?_⟩
  · intro o found here
    exact (update_of_ne (other_of_found here) _ _).trans here
  · intro o found here
    rcases update_some_cases here with ⟨rfl, rfl⟩ | ⟨_, old⟩
    · exact .inr ⟨frame, swap, Eq.symm (update_self o _ sys.memory)⟩
    · exact .inl old
  · intro o found here _
    exact update_of_ne (other_of_found here) _ _
  · intro o fp upage kpage held
    obtain ⟨found, here, _⟩ := paged.owned fp o upage
    have same : update sys.memory page (image entry.file entry.readBytes) o =
        sys.memory o := update_of_ne (other_of_found here) _ _
    exact ⟨held.trans same.symm, .inl same⟩

theorem userStep_store {fp ofs : Nat} {value : UInt8} (paged : Paged sys mid)
    (kpage : (sys.vm.pte page).kpage = some fp) : UserStep sys
      ⟨{ sys.vm.setPte page { sys.vm.pte page with dirty := true, accessed := true } with
          contents := update sys.vm.contents fp
            (update (sys.vm.contents fp) ofs value) },
        update sys.memory page (update (sys.memory page) ofs value)⟩ := by
  obtain ⟨upage, out⟩ := paged.mapped page fp kpage
  refine ⟨rfl, rfl, rfl, rfl, rfl, rfl, rfl, fun _ _ found => found, fun _ _ found => .inl found,
    update_field Pte.kpage rfl, ?_, ?_, ?_, ?_⟩
  · intro o dirty
    by_cases same : o = page
    · simp [Vm.setPte, same]
    · simpa [Vm.setPte, same] using dirty
  · intro o entry _ free
    refine update_of_ne ?_ _ _
    rintro rfl
    rw [kpage] at free
    cases free
  · intro frame free
    refine update_of_ne ?_ _ _
    rintro rfl
    exact free page kpage
  · intro o frame other_upage other_kpage held
    by_cases same : o = page
    · subst same
      obtain rfl := some.inj (kpage.symm.trans other_kpage)
      constructor
      · simp [held]
      · right
        simp [Vm.setPte]
    · have ne : frame ≠ fp := by
        rintro rfl
        rw [upage] at other_upage
        exact same (some.inj other_upage).symm
      have bytes : update sys.memory page (update (sys.memory page) ofs value) o = sys.memory o :=
        update_of_ne same _ _
      exact ⟨((update_of_ne ne _ _).trans held).trans bytes.symm, .inl bytes⟩

theorem userStep_read (sys : System) (page : Page) :
    UserStep sys ⟨sys.vm.setPte page { sys.vm.pte page with accessed := true }, sys.memory⟩ := by
  exact ⟨rfl, rfl, rfl, rfl, rfl, rfl, rfl, fun _ _ found => found, fun _ _ found => .inl found,
    update_field Pte.kpage rfl,
    fun o dirty => Eq.trans (update_field Pte.dirty (by rfl) o) dirty,
    fun _ _ _ _ => rfl, fun _ _ => rfl, fun _ _ _ _ held => ⟨held, .inl rfl⟩⟩

/-! ## Moves of one page -/

/-- Everything is as before, apart from one frame and one page. -/
structure Elsewhere (s s' : System) (fp : Nat) (page : Page) : Prop where
  entry : ∀ other, other ≠ page → s'.vm.entry other = s.vm.entry other
  frame : ∀ other, other ≠ fp → s'.vm.frame other = s.vm.frame other
  pte : ∀ other, other ≠ page → s'.vm.pte other = s.vm.pte other
  contents : ∀ other, other ≠ fp → s'.vm.contents other = s.vm.contents other
  kernelDirty : ∀ other, other ≠ fp → s'.vm.kernelDirty other = s.vm.kernelDirty other
  recover : ∀ other entry, other ≠ page → s.vm.entry other = some entry →
    s'.vm.recover entry = s.vm.recover entry
  frames : s'.vm.frames = s.vm.frames
  memory : s'.memory = s.memory

/-- Where a page is: nowhere, in the frame in transit, or in a frame for use. -/
inductive Placed (s : System) (fp : Nat) (page : Page) (entry : PageEntry) :
    Option Nat → Prop
  | absent (upage : (s.vm.frame fp).upage = none) (frame : entry.frame = none)
      (unmapped : (s.vm.pte page).kpage = none)
      (recovers : s.vm.recover entry = s.memory page) : Placed s fp page entry none
  | moving (upage : (s.vm.frame fp).upage = some page) (frame : entry.frame = some fp)
      (unmapped : (s.vm.pte page).kpage = none) : Placed s fp page entry (some fp)
  | resident (upage : (s.vm.frame fp).upage = some page) (frame : entry.frame = some fp)
      (resident : Resident s fp page entry) : Placed s fp page entry none

section

variable {fp : Nat} {entry new : PageEntry} {transit' : Option Nat}

theorem Placed.outside (placed : Placed sys fp page entry mid) {other : Nat}
    (ne : other ≠ fp) : mid ≠ some other := by
  cases placed with
  | absent | resident => simp
  | moving => exact fun same => ne (some.inj same).symm

/-- The frame holds this page only, and this page is in no other frame. -/
theorem Placed.only (placed : Placed sys fp page entry mid) (paged : Paged sys mid)
    (found : sys.vm.entry page = some entry) {other : Nat} {owner : Page}
    (upage : (sys.vm.frame other).upage = some owner) : other = fp ↔ owner = page := by
  obtain ⟨linked, is_found, frame⟩ := paged.owned other owner upage
  constructor
  · rintro rfl
    cases placed with
    | absent unused => rw [unused] at upage; cases upage
    | moving used | resident used => exact some.inj (upage.symm.trans used)
  · rintro rfl
    obtain rfl := some.inj (found.symm.trans is_found)
    cases placed with
    | absent _ absent => rw [absent] at frame; cases frame
    | moving _ here | resident _ here => exact some.inj (frame.symm.trans here)

theorem Paged.moving (paged : Paged sys (some fp)) (found : sys.vm.entry page = some entry)
    (upage : (sys.vm.frame fp).upage = some page) : Placed sys fp page entry (some fp) :=
  .moving upage (paged.frame_eq upage found) (paged.unmapped_of_transit upage)

theorem Paged.move (paged : Paged s mid) (apart : Elsewhere s s' fp page)
    (placed : Placed s fp page entry mid) (found : s.vm.entry page = some entry)
    (is_new : s'.vm.entry page = some new) (now : Placed s' fp page new transit')
    (inside : fp < s.vm.frames) (swap : SwapAgrees s'.vm) : Paged s' transit' := by
  have old : ∀ {o owner}, (s'.vm.frame o).upage = some owner → o ≠ fp →
      (s.vm.frame o).upage = some owner ∧ owner ≠ page := by
    intro o owner upage ne
    rw [apart.frame o ne] at upage
    exact ⟨upage, fun same => ne ((placed.only paged found upage).mpr same)⟩
  have here : ∀ {owner}, (s'.vm.frame fp).upage = some owner → owner = page ∧
      new.frame = some fp ∧ (transit' ≠ some fp → Resident s' fp page new) := by
    intro owner upage
    cases now with
    | absent unused => rw [unused] at upage; cases upage
    | moving used frame =>
      exact ⟨some.inj (upage.symm.trans used), frame, fun out => (out rfl).elim⟩
    | resident used frame resident =>
      exact ⟨some.inj (upage.symm.trans used), frame, fun _ => resident⟩
  have owned : ∀ o owner, (s'.vm.frame o).upage = some owner →
      ∃ entry, s'.vm.entry owner = some entry ∧ entry.frame = some o := by
    intro o owner upage
    by_cases same : o = fp
    · subst same
      obtain ⟨rfl, frame, _⟩ := here upage
      exact ⟨new, is_new, frame⟩
    · obtain ⟨upage, ne⟩ := old upage same
      rw [apart.entry owner ne]
      exact paged.owned o owner upage
  have resident : ∀ o owner entry, (s'.vm.frame o).upage = some owner →
      transit' ≠ some o → s'.vm.entry owner = some entry →
      Resident s' o owner entry := by
    intro o owner entry upage out hit
    by_cases same : o = fp
    · subst same
      obtain ⟨rfl, _, resident⟩ := here upage
      obtain rfl := some.inj (is_new.symm.trans hit)
      exact resident out
    · obtain ⟨upage, ne⟩ := old upage same
      rw [apart.entry owner ne] at hit
      obtain ⟨got, held, no_slot, marked⟩ := paged.resident upage (placed.outside same) hit
      refine ⟨by rwa [apart.pte owner ne], ?_, no_slot, ?_⟩
      · rwa [apart.contents o same, apart.memory]
      · unfold Vm.Marked at marked ⊢
        rwa [apart.kernelDirty o same, apart.frame o same, apart.pte owner ne, apart.memory]
  have settled : ∀ o owner, (s'.vm.frame o).upage = some owner →
      transit' ≠ some o → ∃ entry, Resident s' o owner entry := by
    intro o owner upage out
    obtain ⟨entry, hit, _⟩ := owned o owner upage
    exact ⟨entry, resident o owner entry upage out hit⟩
  refine ⟨?_, owned, ?_, ?_, ?_, ?_, ?_, ?_, ?_, swap⟩
  · intro o got target hit link
    by_cases same : o = page
    · subst same
      obtain rfl := some.inj (is_new.symm.trans hit)
      cases now with
      | absent _ absent => rw [absent] at link; cases link
      | moving used frame | resident used frame =>
        obtain rfl := some.inj (frame.symm.trans link)
        exact used
    · rw [apart.entry o same] at hit
      have upage := paged.linked o got target hit link
      rwa [apart.frame target fun here => same ((placed.only paged found upage).mp here)]
  · intro o owner upage
    rw [apart.frames]
    by_cases same : o = fp
    · exact same ▸ inside
    · exact paged.inside o owner (old upage same).1
  · intro owner o kpage
    by_cases same : owner = page
    · subst same
      cases now with
      | absent _ _ free | moving _ _ free => rw [free] at kpage; cases kpage
      | resident used _ lies =>
        obtain rfl := some.inj (lies.present.symm.trans kpage)
        exact ⟨used, by simp⟩
    · rw [apart.pte owner same] at kpage
      have upage := (paged.mapped owner o kpage).1
      have ne : o ≠ fp := fun here => same ((placed.only paged found upage).mp here)
      exact ⟨by rwa [apart.frame o ne], now.outside ne⟩
  · exact fun o owner upage out => (settled o owner upage out).elim fun _ => Resident.present
  · exact fun o owner upage out => (settled o owner upage out).elim fun _ => Resident.held
  · exact fun o owner entry upage out hit =>
      (resident o owner entry upage out hit).unswapped
  · exact fun o owner entry upage out hit =>
      (resident o owner entry upage out hit).marked
  · intro o got hit absent
    by_cases same : o = page
    · subst same
      obtain rfl := some.inj (is_new.symm.trans hit)
      cases now with
      | absent _ _ _ gets => exact gets
      | moving _ frame | resident _ frame => rw [frame] at absent; cases absent
    · rw [apart.entry o same] at hit
      rw [apart.recover o got same hit, apart.memory]
      exact paged.absent o got hit absent

end

/-! ## Sections of `load_page_entry` -/

namespace Transit

variable {s : System} {page : Page} {fp revolution : Nat} {s' : Vm}

theorem allocate (mid : Transit s page .allocate) :
    PagingInvariant ⟨s.vm.allocate page, s.memory⟩ := by
  obtain ⟨paged, entry, found, absent⟩ := mid
  unfold Vm.allocate
  split
  · have unused : (s.vm.frame s.vm.frames).upage = none := by
      cases upage : (s.vm.frame s.vm.frames).upage with
      | none => rfl
      | some o => exact (Nat.lt_irrefl _ (paged.inside _ o upage)).elim
    have upage : ∀ o, (update s.vm.frame s.vm.frames
        ⟨none, false, false⟩ o).upage = (s.vm.frame o).upage :=
      update_field Frame.upage unused.symm
    have used : ∀ {o owner}, (s.vm.frame o).upage = some owner → o ≠ s.vm.frames := by
      rintro o owner found rfl
      rw [unused] at found
      cases found
    refine ⟨paged.congr ⟨rfl, upage, Nat.le_succ _, fun _ => rfl, ?_, rfl, rfl, rfl, rfl, ?_⟩,
      ⟨entry, found, absent⟩, ?_, Nat.lt_succ_self _, ?_⟩
    · intro o owner in_use
      exact update_of_ne (used in_use) _ _
    · intro o owner in_use marked
      unfold Vm.Marked at marked ⊢
      simp only [Vm.goto, Vm.setFrame, Vm.fill, update_of_ne (used in_use)]
      exact marked
    · exact (upage _).trans unused
    · exact update_self _ _ _
  · exact ⟨paged.congr ⟨rfl, fun _ => rfl, Nat.le_refl _, fun _ => rfl, fun _ _ _ => rfl, rfl, rfl, rfl,
      rfl, fun _ _ _ marked => marked⟩, entry, found, absent⟩

theorem clock {old : Nat} (mid : Transit s page (.clock old revolution))
    (ran : s.vm.clock page old revolution = some s') :
    PagingInvariant ⟨s', s.memory⟩ := by
  obtain ⟨paged, wait⟩ := mid
  unfold Vm.clock at ran
  split at ran
  · split at ran
    · cases ran
    · rename_i hand at_hand
      split at ran
      · split at ran
        · cases ran
        · rename_i upage in_use
          cases ran
          refine ⟨paged.congr ⟨rfl, fun _ => rfl, Nat.le_refl _, update_field Pte.kpage rfl,
            fun _ _ _ => rfl, rfl, rfl, rfl, rfl, ?_⟩, wait, upage, in_use⟩
          rintro o owner - (k | async | dirty)
          · exact .inl k
          · exact .inr (.inl async)
          · exact .inr (.inr (Eq.trans (update_field Pte.dirty (by rfl) owner) dirty))
      · cases ran
  · cases ran

theorem clean {old : Nat} {found : Bool} (mid : Transit s page (.clean old revolution fp found))
    (fits : s.vm.CleanFits page.tid fp)
    (ran : s.vm.clean page old revolution fp found = some s') :
    PagingInvariant ⟨s', s.memory⟩ := by
  obtain ⟨paged, wait, victim, in_use⟩ := mid
  unfold Vm.clean at ran
  rw [in_use] at ran
  cases ran
  simp only
  split
  · have upage : ∀ o, (update s.vm.frame fp { s.vm.frame fp with asyncWrite := true } o).upage =
          (s.vm.frame o).upage := update_field Frame.upage rfl
    refine ⟨paged.congr ⟨rfl, upage, Nat.le_refl _, update_field Pte.kpage rfl, fun _ _ _ => rfl, rfl,
      rfl, rfl, rfl, ?_⟩, wait, victim, (upage fp).trans in_use⟩
    intro o owner other_upage marked
    by_cases here : o = fp
    · right
      left
      simp [Vm.goto, Vm.setFrame, here]
    · -- Only the entry of the evicting process at the victim's address loses its dirty bit.
      have kept : s.vm.kernelDirty o ∨ (s.vm.frame o).asyncWrite →
          ((s.vm.clearDirty page.tid fp victim).setFrame fp
            { s.vm.frame fp with asyncWrite := true }).kernelDirty o ∨
          (((s.vm.clearDirty page.tid fp victim).setFrame fp
            { s.vm.frame fp with asyncWrite := true }).frame o).asyncWrite := by
        simp [Vm.clearDirty, Vm.setPte, Vm.setFrame, here]
      rcases marked with k | async | dirty
      · exact (kept (.inl k)).imp_right .inl
      · exact (kept (.inr async)).imp_right .inl
      · by_cases own : owner = ⟨page.tid, victim.uaddr⟩
        · have mapped := paged.present o owner other_upage (by simp)
          rw [own] at mapped dirty
          rcases fits victim in_use with same_process | protected_page
          · have same_page : owner = victim := by rw [own, ← same_process]
            rw [same_page] at other_upage
            exact (here (paged.frame_unique other_upage in_use)).elim
          · exact (kept (protected_page o mapped dirty)).imp_right .inl
        · right
          right
          simpa [Vm.goto, Vm.setFrame, Vm.clearDirty, Vm.setPte, own] using dirty
  · exact ⟨paged.congr (.goto s page _), wait, victim, in_use⟩

theorem advance {old : Nat} {found : Bool} (mid : Transit s page (.advance old revolution fp found))
    (ran : s.vm.advance page old revolution fp found = some s') :
    PagingInvariant ⟨s', s.memory⟩ := by
  obtain ⟨paged, wait, victim, in_use⟩ := mid
  unfold Vm.advance at ran
  split at ran
  · cases ran
  · simp only at ran
    split at ran
    · cases ran
      have same := SamePaging.setPinned s fp true
      exact ⟨paged.congr ⟨same.entry, same.upage, same.frames, same.kpage, same.contents, rfl, rfl,
        rfl, rfl, same.marks⟩, wait, victim, (same.upage fp).trans in_use⟩
    · cases ran
      exact ⟨paged.congr ⟨rfl, fun _ => rfl, Nat.le_refl _, fun _ => rfl, fun _ _ _ => rfl, rfl, rfl,
        rfl, rfl, fun _ _ _ marked => marked⟩, wait⟩

theorem unmap (mid : Transit s page (.unmap fp)) :
    PagingInvariant ⟨s.vm.unmap page fp, s.memory⟩ := by
  obtain ⟨paged, wait, victim, in_use⟩ := mid
  obtain ⟨entry, found, frame⟩ := paged.owned fp victim in_use
  have there := paged.resident in_use (by simp) found
  unfold Vm.unmap
  rw [in_use]
  refine ⟨paged.move ⟨fun _ _ => rfl, fun _ _ => rfl, fun _ ne => update_of_ne ne _ _,
    fun _ _ => rfl, fun _ _ => rfl, fun _ _ _ _ => rfl, rfl, rfl⟩ (.resident in_use frame there)
    found found (.moving in_use frame (by simp [Vm.goto, Vm.setPte]))
    (paged.inside fp victim in_use) (paged.swap.congr rfl rfl rfl), wait, victim, entry, in_use,
    found, there.unswapped, there.held, there.marked.imp_left ?_⟩
  rintro (k | async | dirty)
  · exact .inl k
  · exact .inr (.inl async)
  · exact .inr (.inr (Eq.trans (update_field Pte.dirty (by rfl) victim) dirty))

theorem unpin (mid : Transit s page (.unpin fp)) : PagingInvariant ⟨s.vm.unpin fp, s.memory⟩ := by
  have same := SamePaging.setPinned s fp false
  exact Paged.congr mid ⟨same.entry, same.upage, same.frames, same.kpage, same.contents, rfl,
    rfl, rfl, rfl, same.marks⟩

theorem detach (mid : Transit s page (.detach fp)) (ran : s.vm.detach page fp = some s') :
    PagingInvariant ⟨s', s.memory⟩ := by
  obtain ⟨paged, ⟨waits, waiting_found, waiting_absent⟩, victim, entry, in_use, found, gets⟩ := mid
  have placed := paged.moving found in_use
  simp only [Vm.detach, in_use, found] at ran
  cases ran
  have different_page := paged.ne_of_absent waiting_found waiting_absent in_use
  have unused : (update s.vm.frame fp
      { s.vm.frame fp with upage := none, pinned := false } fp).upage = none := by
    rw [update_self]
  refine ⟨paged.move ⟨fun _ ne => update_of_ne ne _ _, fun _ ne => update_of_ne ne _ _,
    fun _ _ => rfl, fun _ ne => update_of_ne ne _ _, fun _ ne => update_of_ne ne _ _,
    fun _ _ _ _ => rfl, rfl, rfl⟩ placed found
    (update_self _ _ _) (.absent unused rfl (paged.unmapped_of_transit in_use) gets)
    (paged.inside fp victim in_use) (paged.swap.relink found (by rfl) rfl rfl rfl),
    ⟨waits, (update_of_ne different_page _ _).trans waiting_found, waiting_absent⟩, unused,
    paged.inside fp victim in_use, update_self _ _ _⟩

/-- The page gets its frame, which is in transit until it is installed. -/
theorem assign (mid : Transit s page (.assign fp)) (ran : s.vm.assign page fp = some s') :
    PagingInvariant ⟨s', s.memory⟩ := by
  obtain ⟨paged, ⟨entry, found, absent⟩, unused, inside, zero⟩ := mid
  simp only [Vm.assign, found] at ran
  split at ran
  · cases ran
  · cases ran
    have free := paged.unmapped_of_absent found absent
    have gets := paged.absent page entry found absent
    have upage : (update s.vm.frame fp
        { s.vm.frame fp with upage := some page, pinned := true } fp).upage = some page := by
      rw [update_self]
    exact ⟨paged.move ⟨fun _ ne => update_of_ne ne _ _, fun _ ne => update_of_ne ne _ _,
      fun _ ne => update_of_ne ne _ _, fun _ _ => rfl, fun _ ne => update_of_ne ne _ _,
      fun _ _ _ _ => rfl, rfl, rfl⟩ (.absent unused absent free gets) found
      (update_self _ _ _)
      (.moving upage rfl (Eq.trans (update_field Pte.kpage (by rfl) page) free)) inside (paged.swap.relink found (by rfl) rfl rfl rfl), upage, zero, _,
      update_self _ _ _, gets⟩

theorem push (mid : Transit s page (.push fp)) (fits : s.vm.PushFits page.tid fp)
    (ran : s.vm.push page fp = some s') : PagingInvariant ⟨s', s.memory⟩ := by
  obtain ⟨paged, ⟨waits, waiting_found, waiting_absent⟩, victim, entry, in_use, found, unswapped,
    held, marked⟩ := mid
  obtain ⟨seen, available⟩ := fits victim in_use
  simp only [Vm.push, in_use, found] at ran
  split at ran
  · rename_i is_dirty
    obtain ⟨pushed, pushes, rfl⟩ := map_eq_some_iff.mp ran
    unfold Vm.pushToSwap at pushes
    split at pushes
    · rename_i slotless no_slot
      have slot := available (by simpa using is_dirty)
      unfold Vm.slotAvailable at slot
      rw [no_slot] at slot
      cases slot
    · rename_i slot taken free
      split at pushes
      · cases pushes
        obtain ⟨taken_eq, -, -, -, -, -⟩ := paged.swap.getFreeSlot free
        generalize taken.swapList = list, taken.nextSector = next at taken_eq
        subst taken_eq
        have different_page := paged.ne_of_absent waiting_found waiting_absent in_use
        have frame := paged.frame_eq in_use found
        have upage : (update s.vm.frame fp
            ⟨some victim, (s.vm.frame fp).pinned, false⟩ fp).upage = some victim := by
          rw [update_self]
        refine ⟨paged.move ⟨fun _ ne => update_of_ne ne _ _, fun _ ne => update_of_ne ne _ _,
          fun _ _ => rfl, fun _ _ => rfl, fun _ _ => rfl, ?_, rfl, rfl⟩ (paged.moving found in_use)
          found (update_self _ _ _) (.moving upage frame (paged.unmapped_of_transit in_use))
          (paged.inside fp victim in_use) (paged.swap.push free found unswapped rfl rfl rfl),
          ⟨waits, (update_of_ne different_page _ _).trans waiting_found, waiting_absent⟩, victim,
          { entry with swap := some slot.sector }, upage, update_self _ _ _,
          Eq.trans (update_self slot.sector _ _) held⟩
        intro o here _ hit
        unfold Vm.recover
        cases swap : here.swap with
        | none => rfl
        | some sec =>
          refine update_of_ne ?_ _ _
          rintro rfl
          exact paged.swap.unused free hit swap
      · cases pushes
  · rename_i clean
    cases ran
    refine ⟨paged.congr (.goto s page _), ⟨waits, waiting_found, waiting_absent⟩, victim, entry,
      in_use, found, ?_⟩
    have plain : ¬ s.vm.Marked fp victim := by
      rintro (k | async | dirty)
      · exact clean (by simp [Vm.isDirty, k])
      · exact clean (by simp [async])
      · rcases seen dirty with is_dirty | async
        · exact clean (by simp [is_dirty])
        · exact clean (by simp [async])
    change s.vm.recover entry = s.memory victim
    unfold Vm.recover
    rw [unswapped]
    exact marked.resolve_left plain

theorem load (mid : Transit s page (.load fp))
    (ran : s.vm.load page fp = some s') : PagingInvariant ⟨s', s.memory⟩ := by
  obtain ⟨paged, in_use, zero, entry, found, gets⟩ := mid
  have frame := paged.frame_eq in_use found
  have free := paged.unmapped_of_transit in_use
  have inside := paged.inside fp page in_use
  simp only [Vm.load, found] at ran
  cases ran
  unfold Vm.recover at gets
  cases moved : entry.swap with
  | some sec =>
    obtain ⟨slot, agrees⟩ := paged.swap.pull found moved
    rw [moved] at gets
    simp only [Vm.pullFromSwap, slot]
    exact ⟨paged.move ⟨fun _ ne => update_of_ne ne _ _, fun _ _ => rfl, fun _ _ => rfl,
      fun _ ne => update_of_ne ne _ _, fun _ ne => update_of_ne ne _ _, fun _ _ _ _ => rfl, rfl, rfl⟩
      (.moving in_use frame free) found (update_self _ _ _) (.moving in_use frame free) inside
      (agrees _ rfl rfl rfl), in_use, Eq.trans (update_self fp _ _) gets,
      { entry with swap := none }, update_self _ _ _, rfl, .inl (update_self fp _ _)⟩
  | none =>
    rw [moved] at gets
    cases backing : entry.file with
    | none =>
      rw [backing] at gets
      refine ⟨paged.congr (.goto s page _), in_use, zero.trans gets, entry, found, moved, .inr ?_⟩
      rw [backing]
      exact gets
    | some bytes =>
      rw [backing] at gets
      simp only
      split
      · refine ⟨paged.move ⟨fun _ _ => rfl, fun _ _ => rfl, fun _ _ => rfl,
          fun _ ne => update_of_ne ne _ _, fun _ ne => update_of_ne ne _ _, fun _ _ _ _ => rfl, rfl,
          rfl⟩ (.moving in_use frame free) found found (.moving in_use frame free) inside
          (paged.swap.congr rfl rfl rfl), in_use, ?_, entry, found, moved,
          .inl (update_self fp _ _)⟩
        refine Eq.trans (Eq.trans (update_self fp _ _) ?_) gets
        simp only [image, zero]
      · rename_i nothing
        have original : image (some bytes) entry.readBytes = fun _ => 0 := by
          funext ofs
          simp [image, Nat.eq_zero_of_not_pos nothing]
        refine ⟨paged.congr (.goto s page _), in_use, ?_, entry, found, moved, .inr ?_⟩
        · exact (zero.trans original.symm).trans gets
        · rw [backing]
          exact gets

theorem install (mid : Transit s page (.install fp)) (ran : s.vm.install page fp = some s') :
    PagingInvariant ⟨s', s.memory⟩ := by
  obtain ⟨paged, in_use, held, entry, found, moved, marked⟩ := mid
  have free := paged.unmapped_of_transit in_use
  have frame := paged.frame_eq in_use found
  simp only [Vm.install, found, free] at ran
  cases ran
  exact paged.move ⟨fun _ _ => rfl, fun _ _ => rfl, fun _ ne => update_of_ne ne _ _,
    fun _ _ => rfl, fun _ _ => rfl, fun _ _ _ _ => rfl, rfl, rfl⟩ (.moving in_use frame free)
    found found (.resident in_use frame ⟨by simp [Vm.goto, Vm.setPte], held, moved,
      marked.imp_left .inl⟩) (paged.inside fp page in_use) (paged.swap.congr rfl rfl rfl)

end Transit

/-! ## Runs -/

theorem PagingInvariant.step {s s' : System} {e : Event}
    (inv : PagingInvariant s) (fits : EvictionFits s e)
    (ran : s.step e = some s') : PagingInvariant s' := by
  obtain ⟨mid, paged⟩ := inv.mapped
  obtain ⟨vm, steps, rfl⟩ := map_eq_some_iff.mp ran
  cases e with
  | allocatePage page writable file readBytes =>
    simp only [Vm.step] at steps
    split at steps
    · rename_i unused
      cases steps
      exact inv.userStep (userStep_allocatePage paged unused rfl rfl)
    · cases steps
  | store page ofs value =>
    simp only [Vm.step] at steps
    split at steps
    · cases steps
    · rename_i fp kpage
      split at steps
      · cases steps
        exact inv.userStep (userStep_store paged kpage)
      · cases steps
  | read page =>
    simp only [Vm.step] at steps
    split at steps
    · cases steps
    · cases steps
      exact inv.userStep (userStep_read s page)
  | fault page =>
    simp only [Vm.step] at steps
    split at steps
    · rename_i entry idle found
      split at steps
      · rename_i absent
        cases steps
        unfold PagingInvariant at inv
        rw [idle] at inv
        exact ⟨Paged.congr inv (.goto s page _), entry, found, absent⟩
      · cases steps
    · cases steps
  | pager =>
    simp only [Vm.step, Vm.pagerStep] at steps
    unfold EvictionFits at fits
    unfold PagingInvariant at inv
    split at steps
    · cases steps
    · rename_i page stage pager
      rw [pager] at inv fits
      cases stage with
      | allocate =>
        cases steps
        exact Transit.allocate inv
      | clock old revolution => exact Transit.clock inv steps
      | clean old revolution fp found => exact Transit.clean inv fits steps
      | advance old revolution fp found => exact Transit.advance inv steps
      | unmap fp =>
        cases steps
        exact Transit.unmap inv
      | push fp => exact Transit.push inv fits steps
      | detach fp => exact Transit.detach inv steps
      | assign fp => exact Transit.assign inv steps
      | load fp => exact Transit.load inv steps
      | install fp => exact Transit.install inv steps
      | unpin fp =>
        cases steps
        exact Transit.unpin inv

theorem pagingInvariant_boot (pool swapSize : Nat) :
    PagingInvariant (System.boot pool swapSize) := by
  refine ⟨?_, ?_, ?_, ?_, ?_, ?_, ?_, ?_, ?_, ⟨?_, ?_, nodup_nil, ?_⟩⟩
  · exact fun _ _ _ found => by cases found
  · exact fun _ _ upage => by cases upage
  · exact fun _ _ upage => by cases upage
  · exact fun _ _ kpage => by cases kpage
  · exact fun _ _ upage => by cases upage
  · exact fun _ _ upage => by cases upage
  · exact fun _ _ _ upage => by cases upage
  · exact fun _ _ _ upage => by cases upage
  · exact fun _ _ found => by cases found
  · exact fun _ _ _ found => by cases found
  · exact fun _ mem => by cases mem
  · exact fun _ mem => by cases mem

/-- Two processes share one frame: the first stores to its page, the second evicts it, and the first
faults it back in. -/
def foreignEviction : List Event :=
  .allocatePage ⟨1, 0⟩ true none 0 :: .fault ⟨1, 0⟩ :: List.replicate 5 .pager ++
    .store ⟨1, 0⟩ 0 7 ::
    .allocatePage ⟨2, 1⟩ true none 0 :: .fault ⟨2, 1⟩ :: List.replicate 11 .pager ++
    .fault ⟨1, 0⟩ :: List.replicate 11 .pager

end Pintos.Paging
