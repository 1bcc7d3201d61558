import Pintos.Threads.Sound

/-!
# External interrupts

The interrupt level and the two flags of `threads/interrupt.c`, and `sema_up` and `thread_yield` as
they run with them.  The handler of the disk calls `sema_up` while `in_external_intr` is set, and
`sema_up` calls `thread_yield` if it has woken a thread that is not less urgent than the current one.
-/

namespace Pintos.Threads

open Function Option

inductive IntrLevel
  | off
  | on
  deriving DecidableEq

/-- The kernel with the interrupt state. -/
structure Cpu extends Kernel where
  /-- `intr_get_level ()`. -/
  level : IntrLevel
  inExternalIntr : Bool
  yieldOnReturn : Bool

namespace Cpu

def intrContext (cpu : Cpu) : Bool := cpu.inExternalIntr

def intrDisable (cpu : Cpu) : Cpu :=
  { cpu with level := .off }

/-- `intr_enable`, with its assertion. -/
def intrEnable (cpu : Cpu) : Option Cpu :=
  if cpu.intrContext then none else some { cpu with level := .on }

def intrSetLevel (cpu : Cpu) : IntrLevel → Option Cpu
  | .on => cpu.intrEnable
  | .off => some cpu.intrDisable

/-- `thread_current`, with its assertion. -/
def threadCurrent (cpu : Cpu) : Option Tid :=
  if cpu.status cpu.current = .running then some cpu.current else none

/-- The kernel after some change, the interrupt state as before. -/
def setKernel (cpu : Cpu) (kernel : Kernel) : Cpu :=
  { cpu with toKernel := kernel }

/-- `thread_yield` up to the switch.  The old level is restored when the thread runs again. -/
def threadYield (cpu : Cpu) : Option Cpu := do
  let _ ← cpu.threadCurrent
  if cpu.intrContext then
    none
  else
    cpu.toKernel.threadYield.map cpu.intrDisable.setKernel

def semaUp (cpu : Cpu) (sema : SemaRef) : Option Cpu := do
  let (highestPriority, kernel) ← cpu.toKernel.semaUp sema
  let raised ← (cpu.intrDisable.setKernel kernel).intrSetLevel cpu.level
  let current ← raised.threadCurrent
  if raised.priority current ≤ highestPriority then raised.threadYield else some raised

/-- The start of `intr_handler` for an external interrupt. -/
def enterExternal (cpu : Cpu) : Cpu :=
  { cpu with inExternalIntr := true, yieldOnReturn := false }

/-- `intr_handler`, for the handler that is registered for the vector. -/
def intrHandler (cpu : Cpu) (vecNo : Nat) (handler : Cpu → Option Cpu) : Option Cpu :=
  if 0x20 ≤ vecNo ∧ vecNo < 0x30 then
    if cpu.level = .off ∧ cpu.intrContext = false then do
      let handled ← handler cpu.enterExternal
      if handled.level = .off ∧ handled.intrContext = true then
        let returned := { handled with inExternalIntr := false }
        if handled.yieldOnReturn then returned.threadYield else some returned
      else
        none
    else
      none
  else
    handler cpu

/-- The fields of `struct channel` that the interrupt handler of the disk reads. -/
structure Channel where
  irq : Nat
  expectingInterrupt : Bool
  completionWait : SemaRef

/-- `interrupt_handler` of `devices/ide.c`. -/
def interruptHandler (channels : List Channel) (vecNo : Nat) (cpu : Cpu) : Option Cpu := do
  let channel ← channels.find? (·.irq = vecNo)
  if channel.expectingInterrupt then cpu.semaUp channel.completionWait else some cpu

end Cpu

/-! ## What `sema_up` wakes -/

namespace Kernel

/-- The running thread is marked as running, the waiters of the semaphore are blocked, and no thread
has a priority below `PRI_MIN`. -/
structure SemaReady (k : Kernel) (sema : SemaRef) : Prop where
  running : k.status k.current = .running
  blocked : ∀ w ∈ (k.semaphore sema).waiters, k.status w = .blocked
  priorities : ∀ t, priMin ≤ k.priority t

/-- Exactly one waiter, one of maximal priority, has become ready, or there was none. -/
def WokeOne (s after : Kernel) (sema : SemaRef) : Prop :=
  (after.semaphore sema).value = (s.semaphore sema).value + 1 ∧
    ((s.semaphore sema).waiters = [] ∧ (after.semaphore sema).waiters = [] ∧
        after.status = s.status ∧ after.readyList = s.readyList ∨
      ∃ w ∈ (s.semaphore sema).waiters, (∀ other ∈ (s.semaphore sema).waiters,
          s.priority other ≤ s.priority w) ∧
        (after.semaphore sema).waiters = (s.semaphore sema).waiters.erase w ∧
        after.status = update s.status w .ready ∧
        after.readyList.Perm (w :: s.readyList))

variable {k s' : Kernel} {sema : SemaRef}

theorem le_searchWaiter (k : Kernel) (best : Option Tid × Int) (w : Tid) :
    best.2 ≤ (k.searchWaiter best w).2 ∧ k.priority w ≤ (k.searchWaiter best w).2 := by
  unfold searchWaiter
  split
  · rename_i above
    exact ⟨above.le, le_rfl⟩
  · rename_i below
    exact ⟨le_rfl, not_lt.mp below⟩

theorem le_foldl_searchWaiter (k : Kernel) (waiters : List Tid) (best : Option Tid × Int) :
    best.2 ≤ (waiters.foldl k.searchWaiter best).2 ∧
      ∀ w ∈ waiters, k.priority w ≤ (waiters.foldl k.searchWaiter best).2 := by
  induction waiters generalizing best with
  | nil => exact ⟨le_rfl, nofun⟩
  | cons head tail ih =>
    obtain ⟨above, fst⟩ := le_searchWaiter k best head
    obtain ⟨raised, all⟩ := ih (k.searchWaiter best head)
    refine ⟨above.trans raised, fun w mem => ?_⟩
    rcases List.mem_cons.mp mem with rfl | mem
    · exact fst.trans raised
    · exact all w mem

/-- The number kept by the search is the priority of the thread kept by it. -/
theorem priority_foldl_searchWaiter (k : Kernel) (waiters : List Tid) (best : Option Tid × Int)
    (agrees : ∀ w, best.1 = some w → best.2 = k.priority w) (w : Tid)
    (found : (waiters.foldl k.searchWaiter best).1 = some w) :
    (waiters.foldl k.searchWaiter best).2 = k.priority w := by
  induction waiters generalizing best with
  | nil => exact agrees w found
  | cons head tail ih =>
    refine ih (k.searchWaiter best head) (fun o kept => ?_) found
    unfold searchWaiter at kept ⊢
    split at kept
    · rename_i above
      rw [if_pos above]
      cases kept
      rfl
    · rename_i below
      rw [if_neg below]
      exact agrees o kept

/-- The search of `sema_up` finds a waiter of maximal priority. -/
theorem highestWaiter_spec {waiters : List Tid} {w : Tid} {highest : Int}
    (found : k.highestWaiter waiters = (some w, highest)) :
    highest = k.priority w ∧ ∀ o ∈ waiters, k.priority o ≤ k.priority w := by
  unfold highestWaiter at found
  have same := priority_foldl_searchWaiter k waiters (none, priMin - 1) nofun w (by rw [found])
  have all := (le_foldl_searchWaiter k waiters (none, priMin - 1)).2
  rw [found] at same all
  obtain rfl : highest = k.priority w := same
  exact ⟨rfl, all⟩

theorem incrementValue_value (k : Kernel) (sema : SemaRef) :
    ((k.incrementValue sema).semaphore sema).value = (k.semaphore sema).value + 1 := by
  simp [incrementValue]

theorem incrementValue_waiters (k : Kernel) (sema : SemaRef) :
    ((k.incrementValue sema).semaphore sema).waiters = (k.semaphore sema).waiters := by
  simp [incrementValue]

theorem readyList_threadUnblock {t : Tid} (ran : k.threadUnblock t = some s') :
    s'.readyList = k.insertUnblocked t := by
  unfold threadUnblock at ran
  split at ran
  · cases ran
    rfl
  · cases ran

/-- The part of `sema_up` that runs with interrupts disabled: one waiter of maximal priority is woken,
the same thread runs on, and `highestPriority` tells whether a waiter is not less urgent. -/
theorem semaUp_spec (queues : SemaReady k sema) :
    ∃ highest s', k.semaUp sema = some (highest, s') ∧ WokeOne k s' sema ∧
      s'.current = k.current ∧ s'.status s'.current = .running ∧
      s'.priority = k.priority ∧
      (k.priority k.current ≤ highest ↔ ∃ w ∈ (k.semaphore sema).waiters,
          k.priority k.current ≤ k.priority w) := by
  obtain ⟨highest, s', ran⟩ := exists_semaUp queues.priorities queues.blocked
  refine ⟨highest, s', ran, ?_⟩
  have above := queues.priorities k.current
  rcases semaUp_cases ran with ⟨empty, rfl⟩ | ⟨w, unblocked, mem, found, woken, rfl⟩
  · obtain rfl : priMin - 1 = highest := by
      unfold semaUp at ran
      rw [empty] at ran
      exact (Prod.mk.inj (some.inj ran)).1
    refine ⟨⟨incrementValue_value k sema, .inl ⟨empty, ?_, rfl, rfl⟩⟩, rfl, queues.running, rfl, ?_⟩
    · rw [incrementValue_waiters, empty]
    · rw [empty]
      constructor
      · intro below
        omega
      · rintro ⟨_, mem, _⟩
        cases mem
  · obtain ⟨rfl, max⟩ := highestWaiter_spec found
    obtain ⟨_, made⟩ := madeReady_of_threadUnblock woken
    have o : k.current ≠ w := by
      intro same
      have sleeps := queues.blocked w mem
      rw [← same, queues.running] at sleeps
      cases sleeps
    have status : unblocked.status = update k.status w .ready := by
      funext t
      rw [made.status, update_apply]
      rfl
    refine ⟨⟨?_, .inr ⟨w, mem, max, ?_, status, ?_⟩⟩, made.current, ?_, made.priority, ?_⟩
    · rw [incrementValue_value, made.semaphore]
      simp [removeWaiter]
    · rw [incrementValue_waiters, made.semaphore]
      simp [removeWaiter]
    · change unblocked.readyList.Perm _
      rw [readyList_threadUnblock woken]
      exact List.perm_orderedInsert _ _ _
    · change unblocked.status unblocked.current = .running
      rw [made.current, status]
      exact (update_of_ne o _ _).trans queues.running
    · constructor
      · intro below
        exact ⟨w, mem, below⟩
      · rintro ⟨urgent, urgentMember, below⟩
        exact below.trans (max urgent urgentMember)

end Kernel

/-- In every state of the machine the semaphores are as `sema_up` expects them. -/
theorem SoundBase.semaReady {m : Machine} (sound : SoundBase m) (sema : SemaRef) :
    m.toKernel.SemaReady sema where
  running := sound.ready.running
  blocked w mem := by
    have sleeps := sound.waiters.asleep sema w mem
    by_contra awake
    rw [Machine.asleep, asleep_of_not_blocked awake] at sleeps
    cases sleeps
  priorities := sound.priorities

/-- In every state of every run `sema_up`, on any semaphore, passes its assertions, wakes one waiter of
maximal priority, if there is one, and leaves the same thread running. -/
theorem semaUp_wakes_in_every_run (values : Nat → Nat) (events : List Event) :
    Execution.Along step (fun m => ∀ sema, ∃ highest after,
        m.toKernel.semaUp sema = some (highest, after) ∧ Kernel.WokeOne m.toKernel after sema ∧
        after.current = m.current ∧ after.status after.current = .running)
      (boot values) events := by
  refine Execution.along_of_invariant (soundBase_boot values) SoundBase.step ?_ events
  intro m sound sema
  obtain ⟨highest, s', raised, woke, cur, runs, _⟩ := Kernel.semaUp_spec (sound.semaReady sema)
  exact ⟨highest, s', raised, woke, cur, runs⟩

/-! ## Waking in an interrupt -/

namespace Cpu

variable {cpu : Cpu} {sema : SemaRef}

/-- `sema_up` returns in the context of the interrupt, having woken one waiter of maximal priority if
there is one. -/
def WakesInInterrupt (cpu : Cpu) (sema : SemaRef) : Prop :=
  ∃ s', cpu.semaUp sema = some s' ∧ s'.inExternalIntr = true ∧
    Kernel.WokeOne cpu.toKernel s'.toKernel sema

/-- In an interrupt `sema_up` fails the assertion of `thread_yield` if some waiter is not less urgent
than the interrupted thread, and otherwise wakes one. -/
theorem semaUp_interrupt (external : cpu.inExternalIntr = true) (masked : cpu.level = .off)
    (queues : cpu.toKernel.SemaReady sema) :
    ((∃ w ∈ (cpu.semaphore sema).waiters,
        cpu.priority cpu.current ≤ cpu.priority w) ∧ cpu.semaUp sema = none) ∨
      (∀ w ∈ (cpu.semaphore sema).waiters, cpu.priority w < cpu.priority cpu.current) ∧
      ∃ k, cpu.semaUp sema = some (cpu.setKernel k) ∧ Kernel.WokeOne cpu.toKernel k sema := by
  obtain ⟨highest, s', ran, woke, cur, run, prio, urgent⟩ := Kernel.semaUp_spec queues
  have same : cpu.intrDisable = cpu := by
    unfold intrDisable
    rw [← masked]
  have raised : cpu.semaUp sema =
      if cpu.priority cpu.current ≤ highest then none else some (cpu.setKernel s') := by
    have runs : (cpu.setKernel s').threadCurrent = some s'.current := if_pos run
    have yields : (cpu.setKernel s').threadYield = none := by
      unfold threadYield
      rw [runs]
      exact if_pos external
    have level : (cpu.intrDisable.setKernel s').intrSetLevel cpu.level =
        some (cpu.setKernel s') := by
      rw [masked, same]
      simp only [intrSetLevel, intrDisable, setKernel, masked]
    have read : (cpu.setKernel s').priority s'.current = cpu.priority cpu.current := by
      rw [cur]
      exact congrFun prio cpu.current
    simp only [semaUp, ran, level, runs, yields, read, bind_eq_bind, bind_some]
  by_cases below : cpu.priority cpu.current ≤ highest
  · rw [if_pos below] at raised
    exact .inl ⟨urgent.mp below, raised⟩
  · rw [if_neg below] at raised
    refine .inr ⟨fun w mem => ?_, s', raised, woke⟩
    by_contra above
    exact below (urgent.mpr ⟨w, mem, not_lt.mp above⟩)

/-- `sema_up` works in an external interrupt exactly if every waiter is less urgent than the
interrupted thread. -/
theorem wakesInInterrupt_iff_waiters_below (external : cpu.inExternalIntr = true)
    (masked : cpu.level = .off) (queues : cpu.toKernel.SemaReady sema) : cpu.WakesInInterrupt sema ↔
      ∀ waiter ∈ (cpu.semaphore sema).waiters, cpu.priority waiter < cpu.priority cpu.current := by
  rcases semaUp_interrupt external masked queues with
    ⟨⟨waiter, member, above⟩, fails⟩ | ⟨below, kernel, raised, woke⟩
  · constructor
    · rintro ⟨after, gives, _⟩
      rw [fails] at gives
      cases gives
    · intro below
      exact absurd (below waiter member) (not_lt.mpr above)
  · exact ⟨fun _ => below, fun _ => ⟨_, raised, external, woke⟩⟩

/-- A thread of priority 63 is interrupted while a thread of priority 31 waits. -/
def urgentInterrupted : Cpu where
  thread thread := if thread = 1 then initThread .running priMax else initThread .blocked priDefault
  threads := 3
  current := 1
  idleThread := 0
  readyList := []
  readyThreads := 0
  semaphore _ := ⟨0, [2]⟩
  holder _ := none
  level := .off
  inExternalIntr := true
  yieldOnReturn := false

theorem urgentInterrupted_wakes : urgentInterrupted.WakesInInterrupt (.sema 0) := by
  have queues : urgentInterrupted.toKernel.SemaReady (.sema 0) := by
    refine ⟨by decide, by decide, fun thread => ?_⟩
    simp only [Kernel.priority, urgentInterrupted]
    split <;> decide
  exact (wakesInInterrupt_iff_waiters_below rfl rfl queues).mpr (by decide)

/-- `main` waits for the disk, the idle thread runs, and the disk interrupt comes. -/
theorem idle_interrupted_fails :
    ∃ machine, Execution.run step (boot fun _ => 0) [.start (.semaDown 0), .run] = some machine ∧
      ¬ Cpu.WakesInInterrupt ⟨machine.toKernel, .off, true, false⟩ (.sema 0) := by
  have fails : ((Execution.run step (boot fun _ => 0) [.start (.semaDown 0), .run]).map fun machine =>
      (Cpu.semaUp ⟨machine.toKernel, .off, true, false⟩ (.sema 0)).isNone) = some true := by
    decide +kernel
  obtain ⟨machine, execution, none⟩ := map_eq_some_iff.mp fails
  refine ⟨machine, execution, ?_⟩
  rintro ⟨after, gives, _⟩
  rw [gives] at none
  cases none

end Cpu

end Pintos.Threads
