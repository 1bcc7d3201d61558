import Pintos.Lib.Execution
import Pintos.Threads.Kernel

/-!
# Interleaved kernel operations

Each thread carries the rest of the kernel code that it still has to run, as a list of sections.  A
section with interrupts disabled is one step; a timer interrupt may switch threads before every
section that starts with interrupts enabled.  Between operations a thread may start any operation.
-/

namespace Pintos.Threads

open Function Option Kernel

inductive Instr
  /-- `sema_down` from its start. -/
  | semaDown (sema : SemaRef)
  /-- The loop test of `sema_down` after `thread_block` returned, interrupts still disabled. -/
  | semaDownTest (sema : SemaRef)
  /-- `sema_try_down`. -/
  | semaTryDown (sema : SemaRef)
  /-- `sema_up` up to the restored interrupt level. -/
  | semaUp (sema : SemaRef)
  /-- The last test of `sema_up`, against its local `highestPriority`. -/
  | yieldUnlessAbove (highest : Int)
  /-- `thread_yield`. -/
  | threadYield
  /-- `lock_acquire` up to the decision to donate. -/
  | acquireTest (lock : LockId)
  /-- `lock_acquire` registers a donation. -/
  | acquireDonate (lock : LockId) (target : Tid)
  /-- `updateActivePriority`, called with interrupts disabled or not. -/
  | updateActivePriority (thread : Tid) (masked : Bool)
  /-- `lock->holder = thread_current ()`. -/
  | takeLock (lock : LockId)
  /-- The last lines of `lock_acquire`. -/
  | recallDonation
  /-- `lock_try_acquire` up to the assignment of the holder. -/
  | tryAcquire (lock : LockId)
  /-- `lock_release` up to `updateActivePriority`. -/
  | releaseDonors (lock : LockId)
  /-- `lock->holder = NULL`. -/
  | dropLock (lock : LockId)
  /-- `thread_create` from `init_thread` to `thread_unblock`. -/
  | createThread (priority : Int)
  /-- The last test of `thread_create`. -/
  | yieldIfBelow (created : Tid)
  /-- `thread_set_priority` up to `updateActivePriority`. -/
  | setNativePriority (priority : Int)
  /-- The last test of `thread_set_priority`; `stray` is what it reads in place of a priority when
  the ready list is empty. -/
  | yieldIfBehind (stray : Int)
  /-- One round of `idle`. -/
  | idleBlock
  deriving DecidableEq

/-- Interrupts are disabled when the section starts. -/
def Instr.masked : Instr → Bool
  | semaDownTest _ => true
  | updateActivePriority _ masked => masked
  | _ => false

inductive Op
  | semaDown (index : Nat)
  | semaTryDown (index : Nat)
  | semaUp (index : Nat)
  | lockAcquire (lock : LockId)
  | lockTryAcquire (lock : LockId)
  | lockRelease (lock : LockId)
  | threadYield
  | threadCreate (priority : Int)
  | threadSetPriority (priority stray : Int)
  deriving DecidableEq

/-- The sections of `lock_acquire`. -/
def lockAcquire (lock : LockId) : List Instr :=
  [.acquireTest lock, .semaDown (.ofLock lock), .takeLock lock, .recallDonation]

def tidLock : LockId := 0

/-- The sections of an operation.  `thread_create` calls `allocate_tid`. -/
def Op.sections : Op → List Instr
  | semaDown index => [.semaDown (.sema index)]
  | semaTryDown index => [.semaTryDown (.sema index)]
  | semaUp index => [.semaUp (.sema index)]
  | lockAcquire lock => Threads.lockAcquire lock
  | lockTryAcquire lock => [.tryAcquire lock]
  | lockRelease lock => [.releaseDonors lock]
  | threadYield => [.threadYield]
  | threadCreate priority =>
    Threads.lockAcquire tidLock ++ [.releaseDonors tidLock, .createThread priority]
  | threadSetPriority priority stray => [.setNativePriority priority, .yieldIfBehind stray]

/-- Effect of one section on the kernel, and the code its thread is left with. -/
def execute (kernel : Kernel) (rest : List Instr) : Instr → Option (Kernel × List Instr)
  | .semaDown sema =>
    if 0 < (kernel.semaphore sema).value then
      some (kernel.decrementValue sema, rest)
    else
      (kernel.pushWaiter sema).threadBlock.map (·, .semaDownTest sema :: rest)
  | .semaDownTest sema =>
    if 0 < (kernel.semaphore sema).value then
      some (kernel.decrementValue sema, rest)
    else
      kernel.threadBlock.map (·, .semaDownTest sema :: rest)
  | .semaTryDown sema =>
    if 0 < (kernel.semaphore sema).value then
      some (kernel.decrementValue sema, rest)
    else
      some (kernel, rest)
  | .semaUp sema =>
    (kernel.semaUp sema).map fun raised => (raised.2, .yieldUnlessAbove raised.1 :: rest)
  | .yieldUnlessAbove highest =>
    if kernel.priority kernel.current ≤ highest then
      kernel.threadYield.map (·, rest)
    else
      some (kernel, rest)
  | .threadYield => kernel.threadYield.map (·, rest)
  | .acquireTest lock =>
    if kernel.holder lock = some kernel.current then
      none
    else
      match kernel.donationTarget lock with
      | none => some (kernel, rest)
      | some target => some (kernel, .acquireDonate lock target :: rest)
  | .acquireDonate lock target =>
    (kernel.registerDonor lock target).map (·, .updateActivePriority target false :: rest)
  | .updateActivePriority thread masked =>
    match (kernel.thread thread).donees with
    | none => some (kernel.assignActivePriority thread, rest)
    | some donee =>
      some (kernel.assignActivePriority thread, .updateActivePriority donee.thread masked :: rest)
  | .takeLock lock => some (kernel.setHolder lock (some kernel.current), rest)
  | .recallDonation => some (kernel.clearDonees, rest)
  | .tryAcquire lock =>
    if kernel.holder lock = some kernel.current then
      none
    else if 0 < (kernel.semaphore (.ofLock lock)).value then
      some (kernel.decrementValue (.ofLock lock), .takeLock lock :: rest)
    else
      some (kernel, rest)
  | .releaseDonors lock =>
    if kernel.holder lock = some kernel.current then
      let released := kernel.releaseDonors lock
      if released.1 then
        some (released.2, .updateActivePriority kernel.current false :: .dropLock lock ::
          .semaUp (.ofLock lock) :: .threadYield :: rest)
      else
        some (released.2, .dropLock lock :: .semaUp (.ofLock lock) :: rest)
    else
      none
  | .dropLock lock => some (kernel.setHolder lock none, rest)
  | .createThread priority =>
    (kernel.createThread priority).map (·, .yieldIfBelow kernel.threads :: rest)
  | .yieldIfBelow created =>
    if kernel.priority kernel.current < kernel.priority created then
      kernel.threadYield.map (·, rest)
    else
      some (kernel, rest)
  | .setNativePriority priority =>
    some (kernel.setNativePriority priority, .updateActivePriority kernel.current true :: rest)
  | .yieldIfBehind stray =>
    if kernel.priority kernel.current < (kernel.readyList.head?.map kernel.priority).getD stray then
      kernel.threadYield.map (·, rest)
    else
      some (kernel, rest)
  | .idleBlock => kernel.threadBlock.map (·, [.idleBlock])

/-- Nothing that decides which thread runs or waits has changed. -/
structure Quiet (s s' : Kernel) : Prop where
  status : s'.status = s.status
  priority : s'.priority = s.priority
  readyList : s'.readyList = s.readyList
  waiters : ∀ sema, (s'.semaphore sema).waiters = (s.semaphore sema).waiters
  idleThread : s'.idleThread = s.idleThread
  current : s'.current = s.current
  threads : s'.threads = s.threads
  readyThreads : s'.readyThreads = s.readyThreads

namespace Quiet

variable (k : Kernel)

theorem refl : Quiet k k := ⟨rfl, rfl, rfl, fun _ => rfl, rfl, rfl, rfl, rfl⟩

theorem decrementValue (sema : SemaRef) : Quiet k (k.decrementValue sema) := by
  refine ⟨rfl, rfl, rfl, fun o => ?_, rfl, rfl, rfl, rfl⟩
  by_cases same : o = sema
  · simp [Kernel.decrementValue, same]
  · simp [Kernel.decrementValue, same]

theorem setHolder (lock : LockId) (holder : Option Tid) : Quiet k (k.setHolder lock holder) :=
  ⟨rfl, rfl, rfl, fun _ => rfl, rfl, rfl, rfl, rfl⟩

theorem setThread {t : Tid} {record : Thread} (status : record.status = (k.thread t).status)
    (prio : record.priority = (k.thread t).priority) :
    Quiet k (k.setThread t record) := by
  have priorities := funext (setThread_field k t record Thread.priority prio)
  exact ⟨setThread_status_of_eq k t record status, priorities, rfl, fun _ => rfl,
    rfl, rfl, rfl, rfl⟩

theorem trans {s mid s' : Kernel} (fst : Quiet s mid) (snd : Quiet mid s') : Quiet s s' where
  status := snd.status.trans fst.status
  priority := snd.priority.trans fst.priority
  readyList := snd.readyList.trans fst.readyList
  waiters sema := (snd.waiters sema).trans (fst.waiters sema)
  idleThread := snd.idleThread.trans fst.idleThread
  current := snd.current.trans fst.current
  threads := snd.threads.trans fst.threads
  readyThreads := snd.readyThreads.trans fst.readyThreads

theorem releaseDonors (lock : LockId) : Quiet k (k.releaseDonors lock).2 := by
  unfold Kernel.releaseDonors
  simp only
  split
  · split
    · exact Quiet.setThread k rfl rfl
    · exact Quiet.setThread k rfl rfl
  · exact Quiet.refl k

theorem registerDonor {lock : LockId} {target : Tid} {known : Kernel}
    (ran : k.registerDonor lock target = some known) : Quiet k known := by
  unfold Kernel.registerDonor at ran
  split at ran
  · cases ran
    have donors : Quiet k (k.setThread target { k.thread target with
        donors := (k.thread target).donors ++ [⟨lock, k.current⟩] }) :=
      Quiet.setThread k rfl rfl
    exact donors.trans (Quiet.setThread _ rfl rfl)
  · cases ran

end Quiet

/-- What a section can do to the queues, with the code its thread is left with. -/
inductive Outcome (k : Kernel) (rest : List Instr) : Instr → Kernel → List Instr → Prop
  | quiet {instr after code} (ne : instr ≠ .idleBlock) (quiet : Quiet k after) :
      Outcome k rest instr after code
  | update {code} (t : Tid) (masked : Bool) : Outcome k rest (.updateActivePriority t masked)
        (k.assignActivePriority t) code
  | yield {instr after code} (ne : instr ≠ .idleBlock) (yields : k.threadYield = some after) :
      Outcome k rest instr after code
  | enqueue {after} (sema : SemaRef) (zero : (k.semaphore sema).value = 0)
      (blocks : (k.pushWaiter sema).threadBlock = some after) :
      Outcome k rest (.semaDown sema) after (.semaDownTest sema :: rest)
  | blockAgain {after} (sema : SemaRef) (zero : (k.semaphore sema).value = 0)
      (blocks : k.threadBlock = some after) :
      Outcome k rest (.semaDownTest sema) after (.semaDownTest sema :: rest)
  | wake {after code} (sema : SemaRef) (highest : Int)
      (wakes : k.semaUp sema = some (highest, after)) :
      Outcome k rest (.semaUp sema) after code
  | create {after code} (priority : Int) (creates : k.createThread priority = some after) :
      Outcome k rest (.createThread priority) after code
  | idle {after} (blocks : k.threadBlock = some after) :
      Outcome k rest .idleBlock after [.idleBlock]

theorem outcome_of_execute {k s' : Kernel} {rest code : List Instr} {instr : Instr}
    (ran : execute k rest instr = some (s', code)) :
    Outcome k rest instr s' code := by
  have keep : ∀ {kept : Kernel} {left : List Instr}, instr ≠ .idleBlock →
      some (kept, left) = some (s', code) → Quiet k kept →
      Outcome k rest instr s' code := by
    intro kept left ne eq quiet
    cases eq
    exact .quiet ne quiet
  have yield : ∀ {left : List Instr}, instr ≠ .idleBlock →
      k.threadYield.map (·, left) = some (s', code) →
      Outcome k rest instr s' code := by
    intro left ne mapped
    obtain ⟨yielded, yields, eq⟩ := map_eq_some_iff.mp mapped
    cases eq
    exact .yield ne yields
  unfold execute at ran
  split at ran
  · split at ran
    · exact keep (by simp) ran (.decrementValue k _)
    · rename_i sema zero
      obtain ⟨blocked, blocks, eq⟩ := map_eq_some_iff.mp ran
      cases eq
      exact .enqueue sema (Nat.eq_zero_of_not_pos zero) blocks
  · split at ran
    · exact keep (by simp) ran (.decrementValue k _)
    · rename_i sema zero
      obtain ⟨blocked, blocks, eq⟩ := map_eq_some_iff.mp ran
      cases eq
      exact .blockAgain sema (Nat.eq_zero_of_not_pos zero) blocks
  · split at ran
    · exact keep (by simp) ran (.decrementValue k _)
    · exact keep (by simp) ran (.refl k)
  · obtain ⟨⟨highest, raised⟩, wakes, eq⟩ := map_eq_some_iff.mp ran
    cases eq
    exact .wake _ highest wakes
  · split at ran
    · exact yield (by simp) ran
    · exact keep (by simp) ran (.refl k)
  · exact yield (by simp) ran
  · split at ran
    · cases ran
    · split at ran <;> exact keep (by simp) ran (.refl k)
  · obtain ⟨donated, known, eq⟩ := map_eq_some_iff.mp ran
    cases eq
    exact .quiet (by simp) (.registerDonor k known)
  · split at ran <;> obtain ⟨rfl, rfl⟩ := Prod.mk.inj (some.inj ran) <;> exact .update _ _
  · exact keep (by simp) ran (.setHolder k _ _)
  · exact keep (by simp) ran (.setThread k rfl rfl)
  · split at ran
    · cases ran
    · split at ran
      · exact keep (by simp) ran (.decrementValue k _)
      · exact keep (by simp) ran (.refl k)
  · split at ran
    · simp only at ran
      split at ran <;> exact keep (by simp) ran (.releaseDonors k _)
    · cases ran
  · exact keep (by simp) ran (.setHolder k _ _)
  · obtain ⟨made, makes, eq⟩ := map_eq_some_iff.mp ran
    cases eq
    exact .create _ makes
  · split at ran
    · exact yield (by simp) ran
    · exact keep (by simp) ran (.refl k)
  · exact keep (by simp) ran (.setThread k rfl rfl)
  · split at ran
    · exact yield (by simp) ran
    · exact keep (by simp) ran (.refl k)
  · obtain ⟨blocked, blocks, eq⟩ := map_eq_some_iff.mp ran
    cases eq
    exact .idle blocks

theorem idleThread_threadYield {k s' : Kernel} (ran : k.threadYield = some s') :
    s'.idleThread = k.idleThread := by
  obtain ⟨next, moved⟩ := switched_of_schedule ran
  exact moved.idleThread.trans (madeReady_queueCurrent k).idleThread

theorem Outcome.idleThread {k s' : Kernel} {rest code : List Instr} {instr : Instr}
    (out : Outcome k rest instr s' code) : s'.idleThread = k.idleThread := by
  cases out with
  | quiet _ quiet => exact quiet.idleThread
  | update => rfl
  | yield _ yields => exact idleThread_threadYield yields
  | enqueue _ _ blocks | blockAgain _ _ blocks | idle blocks =>
    obtain ⟨next, moved⟩ := switched_of_schedule blocks
    exact moved.idleThread
  | wake _ _ wakes =>
    rcases semaUp_cases wakes with ⟨_, rfl⟩ | ⟨w, unblocked, _, _, woken, rfl⟩
    · rfl
    · exact (madeReady_of_threadUnblock woken).2.idleThread
  | create prio makes =>
    unfold createThread at makes
    split at makes
    · exact (madeReady_of_threadUnblock makes).2.idleThread
    · cases makes

/-- The kernel with the code every thread still has to run. -/
structure Machine extends Kernel where
  code : Tid → List Instr

/-- What happens next: the running thread starts an operation, runs its next section, or a timer
interrupt makes it yield. -/
inductive Event
  | start (op : Op)
  | run
  | timer
  deriving DecidableEq

/-- The next section of the running thread starts with interrupts enabled. -/
def Machine.interruptible (machine : Machine) : Bool :=
  match machine.code machine.current with
  | [] => true
  | instr :: _ => !instr.masked

def step (machine : Machine) : Event → Option Machine
  | .start op =>
    if machine.code machine.current = [] then
      some { machine with code := update machine.code machine.current op.sections }
    else
      none
  | .run =>
    match machine.code machine.current with
    | [] => none
    | instr :: rest =>
      (execute machine.toKernel rest instr).map fun executed =>
        { executed.1 with
          code := update machine.code machine.current executed.2 }
  | .timer =>
    if machine.interruptible then
      machine.toKernel.threadYield.map fun yielded => { yielded with code := machine.code }
    else
      none

/-- A run step executes the next section of the running thread. -/
theorem execute_of_run {s s' : Machine} (ran : step s .run = some s') :
    ∃ instr rest k left, s.code s.current = instr :: rest ∧
      execute s.toKernel rest instr = some (k, left) ∧
      s' = { k with code := update s.code s.current left } := by
  simp only [step] at ran
  split at ran
  · cases ran
  · rename_i instr rest code
    obtain ⟨⟨k, left⟩, eff, rfl⟩ := map_eq_some_iff.mp ran
    exact ⟨instr, rest, k, left, code, eff, rfl⟩

theorem threadYield_of_timer {s s' : Machine} (ran : step s .timer = some s') :
    ∃ k, s.toKernel.threadYield = some k ∧ s' = { k with code := s.code } := by
  simp only [step] at ran
  split at ran
  · obtain ⟨k, yields, rfl⟩ := map_eq_some_iff.mp ran
    exact ⟨k, yields, rfl⟩
  · cases ran

theorem code_of_start {s s' : Machine} {op : Op}
    (ran : step s (.start op) = some s') : s.code s.current = [] ∧
      s' = { s with code := update s.code s.current op.sections } := by
  simp only [step] at ran
  split at ran
  · rename_i empty
    exact ⟨empty, (some.inj ran).symm⟩
  · cases ran

/-- A step moves the code of the running thread only, and a timer interrupt that of none. -/
theorem code_of_step {s s' : Machine} {e : Event} {t : Tid} (ran : step s e = some s')
    (paused : t ≠ s.current ∨ e = .timer) :
    s'.code t = s.code t := by
  cases e with
  | start op =>
    obtain ⟨_, rfl⟩ := code_of_start ran
    exact update_of_ne (paused.resolve_right (by simp)) _ _
  | run =>
    obtain ⟨instr, rest, k, left, _, _, rfl⟩ := execute_of_run ran
    exact update_of_ne (paused.resolve_right (by simp)) _ _
  | timer =>
    obtain ⟨k, _, rfl⟩ := threadYield_of_timer ran
    rfl

/-- The record `init_thread` fills for a new thread of the given status and priority. -/
def initThread (status : ThreadStatus) (priority : Int) : Thread where
  status
  nativePriority := priority
  priority
  donors := []
  donees := none

/-- After `thread_start`: thread 0 is the idle thread, blocked; thread 1 runs `main`; semaphores
have their initial values and locks are free. -/
def boot (values : Nat → Nat) : Machine where
  thread thread := if thread = 1 then initThread .running priDefault else
    initThread .blocked priDefault
  threads := 2
  current := 1
  idleThread := 0
  readyList := []
  readyThreads := 0
  semaphore
    | .sema index => ⟨values index, []⟩
    | .ofLock _ => ⟨1, []⟩
  holder _ := none
  code thread := if thread = 0 then [.idleBlock] else []

end Pintos.Threads
