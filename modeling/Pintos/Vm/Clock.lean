import Pintos.Vm.Memory

/-!
# The clock hand

The loop of `evict_frame`, one round at a time, while other processes make and free frames.  The loop
itself runs under `clock_sema`, so at most one thread is in it, but `free_frame` does not take that
semaphore and does not look at `clockhand`.
-/

namespace Pintos.Vm

open Option List Memory Nat

/-- The value of `clockhand`. -/
inductive Hand
  | null
  /-- The end marker of `all_frames`. -/
  | tail
  /-- The list element of a frame. -/
  | elem (fp : Nat)
  deriving DecidableEq

def listBegin : List Nat → Hand
  | [] => .tail
  | fp :: _ => .elem fp

/-- `list_next` of an element of the list. -/
def listNext (frames : List Nat) (fp : Nat) : Hand :=
  listBegin (frames.dropWhile (· ≠ fp)).tail

/-- The local variables of `evict_frame`. -/
structure Revolution where
  revolution : Nat
  found : Bool
  fp : Option Nat
  oldClockhand : Hand

/-- The memory with the clock. -/
structure Clock where
  memory : Memory
  clockhand : Hand
  /-- The thread that has `clock_sema`. -/
  evictor : Option Revolution

inductive ClockEvent
  | start (tid : Nat)
  | allocatePage (tid uaddr : Nat)
  /-- `allocate_frame` finds a free page. -/
  | newFrame
  /-- The end of `allocate_frame`. -/
  | assign (fp e : Nat)
  | installFrame (tid fp : Nat)
  /-- `free_frame`, called by `free_page_entry`, so also by `page_table_destroy`, or after a failed
  load. -/
  | freeFrame (fp : Nat)
  /-- The start of `evict_frame`. -/
  | evict
  /-- One round of its loop, with the bits that `is_accessed` and `is_dirty` read. -/
  | round (accessed dirty : Bool)
  /-- The rest of `evict_frame`. -/
  | unmapVictim (dirty : Bool)

namespace Clock

/-- The test of a frame in the loop of `evict_frame`. -/
def suitable (revolution : Nat) (pinned readonly accessed dirty : Bool) : Bool :=
  !pinned &&
    match revolution with
    | 0 => readonly || (!accessed && !dirty)
    | 1 => readonly || !dirty
    | _ => true

/-- `clockhand` when `evict_frame` starts. -/
def startHand (clock : Clock) : Hand :=
  match clock.clockhand with
  | .elem fp => .elem fp
  | _ => listBegin clock.memory.allFrames

/-- `clockhand` at the end of a round. -/
def advance (frames : List Nat) (fp : Nat) : Hand :=
  match listNext frames fp with
  | .elem next => .elem next
  | _ => listBegin frames

/-- One round of the loop of `evict_frame`.  The hand must point to a frame of the list; `set_accessed`
asserts that the frame is in use. -/
def round (clock : Clock) (locals : Revolution) (accessed dirty : Bool) : Option Clock :=
  match clock.clockhand with
  | .elem fp => do
      let frame ← clock.memory.frames fp
      let e ← frame.upage
      let entry ← clock.memory.entries e
      if fp ∈ clock.memory.allFrames then
        let clockhand := advance clock.memory.allFrames fp
        some
          { memory := clock.memory.setFrame fp
              (some { frame with asyncWrite := frame.asyncWrite || dirty })
            clockhand
            evictor := some
              { locals with
                found := suitable locals.revolution frame.pinned (!entry.writable) accessed dirty
                fp := some fp
                revolution :=
                  if clockhand = locals.oldClockhand then locals.revolution + 1
                  else locals.revolution } }
      else
        none
  | _ => none

def step (clock : Clock) : ClockEvent → Option Clock
  | .start tid => (clock.memory.step (.start tid)).map fun memory => { clock with memory }
  | .allocatePage tid uaddr =>
    (clock.memory.step (.allocatePage tid uaddr)).map fun memory => { clock with memory }
  | .newFrame => do
      let kpage ← clock.memory.pallocGetPage
      some { clock with memory := (clock.memory.newFrame kpage).1 }
  | .assign fp e => (clock.memory.assign fp e).map fun memory => { clock with memory }
  | .installFrame tid fp => do
      let (memory, _) ← clock.memory.installFrame tid fp
      some { clock with memory }
  | .freeFrame fp => (clock.memory.freeFrame fp).map fun memory => { clock with memory }
  | .evict =>
    match clock.evictor with
    | some _ => none
    | none =>
      some { clock with
        clockhand := clock.startHand
        evictor := some ⟨0, false, none, clock.startHand⟩ }
  | .round accessed dirty => do
      let locals ← clock.evictor
      if locals.revolution < 3 ∧ locals.found = false then clock.round locals accessed dirty else none
  | .unmapVictim dirty => do
      let locals ← clock.evictor
      let fp ← locals.fp
      if locals.found then
        (clock.memory.unmapVictim fp dirty).map fun memory => { clock with memory, evictor := none }
      else
        none

def init (poolSize swapSize : Nat) (disk contents : Nat → Buffer) : Clock :=
  ⟨.init poolSize swapSize disk contents, .null, none⟩

/-- The hand does not point to memory that was freed. -/
def HandValid (clock : Clock) : Prop :=
  ∀ fp, clock.clockhand = .elem fp → fp ∈ clock.memory.allFrames

/-- `free_frame` is not called for the frame at which the hand points. -/
def handFits (clock : Clock) : ClockEvent → Prop
  | .freeFrame fp => clock.clockhand ≠ .elem fp
  | _ => True

/-- What holds in every state, for as long as the hand is valid. -/
structure ClockInvariant (clock : Clock) : Prop where
  nodup : clock.memory.allFrames.Nodup
  made : ∀ fp ∈ clock.memory.allFrames, fp < clock.memory.heapTop
  valid : clock.HandValid

end Clock

variable {frames : List Nat}

/-! ## The list of frames -/

theorem mem_of_listBegin {fp : Nat} (begins : listBegin frames = .elem fp) : fp ∈ frames := by
  cases frames with
  | nil => cases begins
  | cons fst rest =>
    cases begins
    exact mem_cons_self

theorem mem_of_listNext {fp next : Nat} (follows : listNext frames fp = .elem next) :
    next ∈ frames :=
  dropWhile_subset _ (mem_of_mem_tail (mem_of_listBegin follows))

theorem mem_of_advance {fp next : Nat} (steps : Clock.advance frames fp = .elem next) :
    next ∈ frames := by
  unfold Clock.advance at steps
  split at steps
  · rename_i follows
    exact mem_of_listNext (follows.trans steps)
  · exact mem_of_listBegin steps

namespace Memory

variable {m s' : Memory} {fp : Nat}

/-- The call leaves the list of frames alone. -/
def SameFrames (m s' : Memory) : Prop :=
  s'.allFrames = m.allFrames ∧ m.heapTop ≤ s'.heapTop

theorem sameFrames_allocatePage (tid uaddr : Nat) : SameFrames m (m.allocatePage tid uaddr).1 := by
  unfold allocatePage
  split
  · exact ⟨rfl, le_refl _⟩
  · split
    · exact ⟨rfl, le_succ _⟩
    · exact ⟨rfl, le_refl _⟩

theorem sameFrames_assign {e : Nat} (given : m.assign fp e = some s') : SameFrames m s' := by
  obtain ⟨frame, _, given⟩ := bind_eq_some_iff.mp given
  obtain ⟨entry, _, given⟩ := bind_eq_some_iff.mp given
  split at given
  · cases given
  · cases given
    exact ⟨rfl, le_refl _⟩

theorem sameFrames_installFrame {tid : Nat} {ok : Bool}
    (placed : m.installFrame tid fp = some (s', ok)) : SameFrames m s' := by
  obtain ⟨frame, _, placed⟩ := bind_eq_some_iff.mp placed
  obtain ⟨e, _, placed⟩ := bind_eq_some_iff.mp placed
  obtain ⟨entry, _, placed⟩ := bind_eq_some_iff.mp placed
  split at placed
  · obtain ⟨rfl, _⟩ : _ = s' ∧ _ := by simpa using placed
    exact ⟨rfl, le_refl _⟩
  · cases placed

theorem sameFrames_pushToSwap (pushed : m.pushToSwap fp = some s') : SameFrames m s' := by
  obtain ⟨frame, _, pushed⟩ := bind_eq_some_iff.mp pushed
  obtain ⟨e, _, pushed⟩ := bind_eq_some_iff.mp pushed
  obtain ⟨entry, _, pushed⟩ := bind_eq_some_iff.mp pushed
  obtain ⟨place, _, pushed⟩ := bind_eq_some_iff.mp pushed
  obtain ⟨holder, _, pushed⟩ := bind_eq_some_iff.mp pushed
  obtain ⟨⟨table, slot⟩, _, pushed⟩ := bind_eq_some_iff.mp pushed
  cases slot with
  | none =>
    cases pushed
    exact ⟨rfl, le_refl _⟩
  | some sec =>
    cases pushed
    exact ⟨rfl, le_refl _⟩

theorem sameFrames_pushDirty {dirty : Bool} (pushed : m.pushDirty fp dirty = some s') :
    SameFrames m s' := by
  unfold pushDirty at pushed
  split at pushed
  · exact sameFrames_pushToSwap pushed
  · cases pushed
    exact ⟨rfl, le_refl _⟩

theorem sameFrames_unmapVictim {dirty : Bool} (free : m.unmapVictim fp dirty = some s') :
    SameFrames m s' := by
  obtain ⟨frame, _, free⟩ := bind_eq_some_iff.mp free
  split at free
  · cases free
    exact ⟨rfl, le_refl _⟩
  · obtain ⟨entry, _, free⟩ := bind_eq_some_iff.mp free
    split at free
    · obtain ⟨mid, pushed, free⟩ := bind_eq_some_iff.mp free
      obtain ⟨entry, _, free⟩ := bind_eq_some_iff.mp free
      cases free
      have same := sameFrames_pushDirty pushed
      exact same
    · cases free

theorem allFrames_freeFrame (freed : m.freeFrame fp = some s') :
    s'.allFrames = m.allFrames.erase fp ∧ s'.heapTop = m.heapTop := by
  obtain ⟨frame, _, freed⟩ := bind_eq_some_iff.mp freed
  obtain ⟨e, _, freed⟩ := bind_eq_some_iff.mp freed
  obtain ⟨entry, _, freed⟩ := bind_eq_some_iff.mp freed
  split at freed
  · cases freed
    exact ⟨rfl, rfl⟩
  · cases freed

end Memory

namespace Clock

variable {clock s' : Clock}

section

variable (inv : ClockInvariant clock)
include inv

theorem ClockInvariant.same (same : Memory.SameFrames clock.memory s'.memory)
    (hand : s'.clockhand = clock.clockhand) : ClockInvariant s' where
  nodup := same.1 ▸ inv.nodup
  made fp listed := (inv.made fp (same.1 ▸ listed)).trans_le same.2
  valid fp points := same.1 ▸ inv.valid fp (hand ▸ points)

theorem ClockInvariant.move (frames : s'.memory.allFrames = clock.memory.allFrames)
    (heapTop : s'.memory.heapTop = clock.memory.heapTop)
    (points : ∀ fp, s'.clockhand = .elem fp → fp ∈ clock.memory.allFrames) :
    ClockInvariant s' where
  nodup := frames ▸ inv.nodup
  made fp listed := heapTop ▸ inv.made fp (frames ▸ listed)
  valid fp elem := frames ▸ points fp elem

theorem ClockInvariant.step {event : ClockEvent} (fits : clock.handFits event)
    (ran : clock.step event = some s') : ClockInvariant s' := by
  cases event with
  | start tid =>
    obtain ⟨memory, started, rfl⟩ := map_eq_some_iff.mp ran
    obtain ⟨_, rfl⟩ : _ ∧ _ = memory := by simpa [Memory.step] using started
    exact inv.same ⟨rfl, le_refl _⟩ rfl
  | allocatePage tid uaddr =>
    obtain ⟨memory, taken, rfl⟩ := map_eq_some_iff.mp ran
    obtain ⟨_, rfl⟩ : _ ∧ _ = memory := by simpa [Memory.step] using taken
    exact inv.same (Memory.sameFrames_allocatePage tid uaddr) rfl
  | newFrame =>
    obtain ⟨kpage, _, ran⟩ := bind_eq_some_iff.mp ran
    cases ran
    have absent : clock.memory.heapTop ∉ clock.memory.allFrames :=
      fun listed => lt_irrefl _ (inv.made _ listed)
    refine ⟨?_, ?_, ?_⟩
    · exact nodup_append_comm.mp (nodup_cons.mpr ⟨absent, inv.nodup⟩)
    · intro fp listed
      have made := inv.made fp
      grind
    · intro fp points
      exact mem_append_left _ (inv.valid fp points)
  | assign fp e =>
    obtain ⟨memory, given, rfl⟩ := map_eq_some_iff.mp ran
    exact inv.same (Memory.sameFrames_assign given) rfl
  | installFrame tid fp =>
    obtain ⟨⟨memory, ok⟩, placed, ran⟩ := bind_eq_some_iff.mp ran
    cases ran
    exact inv.same (Memory.sameFrames_installFrame placed) rfl
  | freeFrame fp =>
    obtain ⟨memory, freed, rfl⟩ := map_eq_some_iff.mp ran
    obtain ⟨frames, heapTop⟩ := Memory.allFrames_freeFrame freed
    refine ⟨?_, ?_, ?_⟩
    · simp only [frames]
      exact inv.nodup.erase fp
    · simp only [frames, heapTop]
      exact fun o listed => inv.made o (mem_of_mem_erase listed)
    · intro o points
      simp only [frames]
      have ne : o ≠ fp := by
        rintro rfl
        exact fits points
      exact (mem_erase_of_ne ne).mpr (inv.valid o points)
  | evict =>
    cases evicting : clock.evictor with
    | some locals => simp [Clock.step, evicting] at ran
    | none =>
      simp only [Clock.step, evicting] at ran
      cases ran
      refine inv.move rfl rfl fun fp points => ?_
      unfold startHand at points
      split at points
      · rename_i same
        exact inv.valid fp (same.trans points)
      · exact mem_of_listBegin points
  | round accessed dirty =>
    obtain ⟨locals, _, ran⟩ := bind_eq_some_iff.mp ran
    split at ran
    · unfold Clock.round at ran
      split at ran
      · obtain ⟨frame, _, ran⟩ := bind_eq_some_iff.mp ran
        obtain ⟨e, _, ran⟩ := bind_eq_some_iff.mp ran
        obtain ⟨entry, _, ran⟩ := bind_eq_some_iff.mp ran
        split at ran
        · cases ran
          exact inv.move rfl rfl fun fp points => mem_of_advance points
        · cases ran
      · cases ran
    · cases ran
  | unmapVictim dirty =>
    obtain ⟨locals, _, ran⟩ := bind_eq_some_iff.mp ran
    obtain ⟨fp, _, ran⟩ := bind_eq_some_iff.mp ran
    split at ran
    · obtain ⟨memory, free, rfl⟩ := map_eq_some_iff.mp ran
      exact inv.same (Memory.sameFrames_unmapVictim free) rfl
    · cases ran

/-- A hand that is still on the list was not on the frame that was freed. -/
theorem ClockInvariant.handFits {e : ClockEvent} (ran : clock.step e = some s')
    (valid : s'.HandValid) : clock.handFits e := by
  cases e with
  | freeFrame fp =>
    obtain ⟨memory, freed, rfl⟩ := map_eq_some_iff.mp ran
    intro points
    have listed := valid fp points
    simp only [(allFrames_freeFrame freed).1] at listed
    exact inv.nodup.not_mem_erase listed
  | _ => trivial

end

/-- Along a run the hand is always NULL, at the end or on the list exactly if no frame is freed while
the hand points to it. -/
theorem handValid_iff_handFits (poolSize swapSize : Nat) (disk contents : Nat → Buffer)
    (events : List ClockEvent) :
    Execution.Along step HandValid (init poolSize swapSize disk contents) events ↔
      Execution.Meets step handFits (init poolSize swapSize disk contents) events := by
  have start : ClockInvariant (init poolSize swapSize disk contents) :=
    ⟨List.nodup_nil, nofun, nofun⟩
  constructor
  · exact Execution.meets_of_along start (fun inv fits ran => inv.step fits ran)
      (fun inv ran valid => inv.handFits ran valid)
  · exact Execution.along_of_meets start (fun inv fits ran => inv.step fits ran)
      (fun inv => inv.valid)

/-- Two pages are in memory, a third one takes the frame of the first, and the second one is freed. -/
theorem freed_under_hand :
    ∃ final, Execution.run step (init 2 0 (fun _ => Buffer.zeros) fun _ => Buffer.zeros)
      [.start 1, .allocatePage 1 0x8048000, .newFrame, .assign 1 0, .installFrame 1 1,
        .allocatePage 1 0x8049000, .newFrame, .assign 3 2, .installFrame 1 3,
        .allocatePage 1 0x804a000, .evict, .round false false, .unmapVictim false, .assign 1 4,
        .installFrame 1 1, .freeFrame 3] = some final ∧ ¬ HandValid final := by
  have ends : ((Execution.run step (init 2 0 (fun _ => Buffer.zeros) fun _ => Buffer.zeros)
      [.start 1, .allocatePage 1 0x8048000, .newFrame, .assign 1 0, .installFrame 1 1,
        .allocatePage 1 0x8049000, .newFrame, .assign 3 2, .installFrame 1 3,
        .allocatePage 1 0x804a000, .evict, .round false false, .unmapVictim false, .assign 1 4,
        .installFrame 1 1, .freeFrame 3]).map fun clock =>
          (clock.clockhand, clock.memory.allFrames)) = some (.elem 3, [1]) := by
    decide +kernel
  obtain ⟨final, execution, res⟩ := map_eq_some_iff.mp ends
  obtain ⟨points, frames⟩ := Prod.mk.inj res
  refine ⟨final, execution, fun valid => ?_⟩
  have listed := valid 3 points
  simp [frames] at listed

end Clock

end Pintos.Vm
