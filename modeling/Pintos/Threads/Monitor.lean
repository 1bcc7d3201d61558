import Pintos.Threads.Sound

/-!
# Condition variables

One condition variable and its lock, on top of the machine for threads, semaphores and locks.
`cond_wait`, `cond_signal` and `cond_broadcast` run sections of their own between the code of the
machine: a control section of a thread runs when the thread has no code left, and may load code.
The semaphore in the frame of a `cond_wait` belongs to its thread.
-/

namespace Pintos.Threads

open Function

/-- The semaphore in the frame of a thread's `cond_wait`. -/
def frameSema (thread : Tid) : SemaRef := .sema (2 * thread)

theorem frameSema_inj {fst snd : Tid} : frameSema fst = frameSema snd ↔ fst = snd := by
  simp only [frameSema, SemaRef.sema.injEq]
  exact Nat.mul_right_inj (by decide)

/-- The operation uses no semaphore in a frame of `cond_wait`. -/
def Op.shared : Op → Bool
  | .semaDown index | .semaTryDown index | .semaUp index => index % 2 = 1
  | _ => true

/-- A section of `cond_wait`, `cond_signal` or `cond_broadcast`. -/
inductive Control
  /-- `cond_wait` up to the call of `lock_release`. -/
  | push
  /-- `cond_signal` up to its search. -/
  | test
  /-- One round of the search, with `highestSema` and `highestPriority`. -/
  | search (index : Nat) (best : Option Tid × Int)
  /-- `list_remove` of `cond_signal`. -/
  | remove (best : Option Tid)
  /-- The loop test of `cond_broadcast`. -/
  | broadcast
  deriving DecidableEq

/-- The machine with one condition variable. -/
structure Monitor extends Machine where
  /-- `cond->waiters`; an entry is named by its `threadPtr`. -/
  queue : List Tid
  /-- The control sections every thread still has to run. -/
  control : Tid → List Control
  /-- The priorities read by the last search so far, which the program does not keep. -/
  seen : List Int

namespace Monitor

variable (monitor : Monitor)

def setControl (control : List Control) : Monitor :=
  { monitor with control := update monitor.control monitor.current control }

/-- The running thread, between operations, starts an operation of the condition variable. -/
def begin (control : Control) : Option Monitor :=
  if monitor.code monitor.current = [] ∧ monitor.control monitor.current = [] then
    some (monitor.setControl [control])
  else
    none

/-- The code of `cond_wait` from the call of `lock_release` on. -/
def waitCode (lock : LockId) (thread : Tid) : List Instr :=
  .releaseDonors lock :: .semaDown (frameSema thread) :: lockAcquire lock

/-- The running thread runs its next control section. -/
def runControl (lock : LockId) : Option Monitor :=
  match monitor.control monitor.current with
  | [] => none
  | .push :: rest =>
    if monitor.holder lock = some monitor.current then
      some { monitor.toKernel.setSemaphore (frameSema monitor.current) ⟨0, []⟩ with
          code := update monitor.code monitor.current (waitCode lock monitor.current)
          queue := monitor.queue ++ [monitor.current]
          control := update monitor.control monitor.current rest
          seen := monitor.seen }
    else
      none
  | .test :: rest =>
    if monitor.holder lock = some monitor.current then
      if monitor.queue = [] then
        some (monitor.setControl rest)
      else
        some { monitor.setControl (.search 0 (none, priMin - 1) :: rest) with seen := [] }
    else
      none
  | .search index best :: rest =>
    match monitor.queue[index]? with
    | some waiter =>
      some
        { monitor.setControl (.search (index + 1) (monitor.searchWaiter best waiter) :: rest) with
          seen := monitor.seen ++ [monitor.priority waiter] }
    | none => some (monitor.setControl (.remove best.1 :: rest))
  | .remove none :: _ => none
  | .remove (some waiter) :: rest =>
    some { monitor.setControl rest with
        queue := monitor.queue.erase waiter
        code := update monitor.code monitor.current [.semaUp (frameSema waiter)] }
  | .broadcast :: rest =>
    if monitor.queue = [] then
      some (monitor.setControl rest)
    else
      some (monitor.setControl (.test :: .broadcast :: rest))

end Monitor

/-- What happens next: an event of the machine, the start of an operation of the condition variable,
or a control section. -/
inductive MonitorEvent
  | base (event : Event)
  | condWait
  | condSignal
  | condBroadcast
  | control
  deriving DecidableEq

/-- Only a thread outside the operations of the condition variable starts an operation of the
machine. -/
def Monitor.admits (monitor : Monitor) : Event → Bool
  | .start op => op.shared && decide (monitor.control monitor.current = [])
  | _ => true

/-- One step of the machine with a condition variable, whose lock callers of `cond_broadcast`
hold. -/
def monitorStep (lock : LockId) (monitor : Monitor) : MonitorEvent → Option Monitor
  | .base event =>
    if monitor.admits event then
      (step monitor.toMachine event).map fun machine =>
        { machine with
          queue := monitor.queue
          control := monitor.control
          seen := monitor.seen }
    else
      none
  | .condWait => monitor.begin .push
  | .condSignal => monitor.begin .test
  | .condBroadcast =>
    if monitor.holder lock = some monitor.current then monitor.begin .broadcast else none
  | .control =>
    if monitor.code monitor.current = [] then monitor.runControl lock else none

/-! ## The machine below -/

theorem SoundBase.init {s : Machine} (sound : SoundBase s) (t : Tid) : SoundBase { s with
      semaphore := update s.semaphore (frameSema t) ⟨0, []⟩ } where
  __ := sound
  ready := by
    refine sound.ready.congr rfl rfl (fun sema o mem => ?_) rfl rfl rfl
    by_cases same : sema = frameSema t
    · subst same
      simp at mem
    · simpa [same] using mem
  waiters := by
    constructor
    · intro sema o mem
      by_cases same : sema = frameSema t
      · subst same
        simp at mem
      · exact sound.waiters.asleep sema o (by simpa [same] using mem)
    · intro sema
      by_cases same : sema = frameSema t
      · subst same
        simp
      · simpa [same] using sound.waiters.nodup sema
  locks := by
    obtain ⟨past, inside, locks⟩ := sound.locks
    exact ⟨past, inside, locks.accounted.same (sameLocks_setSemaphore _ _ _), locks.placed⟩

end Pintos.Threads
