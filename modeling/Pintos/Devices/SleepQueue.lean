import Pintos.Lib.Cursor
import Pintos.Threads.Asleep

/-!
# The sleep queue

`timer_sleep` and `timer_wake` on top of the machine for threads.  Every access of `timer_sleep` to
the shared queue is a step of its own, and so is each of its sections with interrupts disabled; timer
interrupts and switches may come between any two steps.  A pointer to an entry that was unlinked, and
so freed, must not be used any more: a step that does has no result.  The counter of ticks does not
wrap.
-/

namespace Pintos.Devices

open Function Threads

/-- The address of a `struct sleep_elem`. -/
abbrev ElemId := Nat

structure SleepElem where
  wakeTicks : Int
  currentThread : Tid
  removeFlag : Bool
  deriving DecidableEq

/-- Where a thread is in `timer_sleep`, with `newSleep` and `e`. -/
inductive Place
  | outside
  /-- Before `list_begin`. -/
  | first (new : ElemId)
  /-- At the loop test; `none` is `list_end`. -/
  | test (new : ElemId) (cursor : Option ElemId)
  /-- About to unlink an entry whose `removeFlag` is set. -/
  | unlink (new elem : ElemId)
  /-- About to compare with the `wakeTicks` of an entry. -/
  | compare (new elem : ElemId)
  /-- About to insert in front of an entry. -/
  | insert (new elem : ElemId)
  /-- Before `list_next`; `none` is `list_head`. -/
  | next (new : ElemId) (cursor : Option ElemId)
  /-- In `thread_block`. -/
  | asleep (new : ElemId)
  deriving DecidableEq

/-- The entry a thread is about to insert or has inserted. -/
def Place.own : Place → Option ElemId
  | outside => none
  | first new | test new _ | unlink new _ | compare new _ | insert new _ | next new _
  | asleep new => some new

/-- The entry, or the end of the queue, that a thread looks at in its loop. -/
def Place.target : Place → Option (Option ElemId)
  | test _ cursor => some cursor
  | unlink _ elem | compare _ elem | insert _ elem => some (some elem)
  | _ => none

/-- The thread holds a pointer to the entry. -/
def Place.refersTo (place : Place) (elem : ElemId) : Bool :=
  match place with
  | next _ (some other) => other = elem
  | place => place.target = some (some elem)

/-- The list `sleep_queue` and its entries. -/
structure SleepList where
  sleepQueue : List ElemId
  elem : ElemId → SleepElem
  /-- The next address that `malloc` hands out. -/
  elems : Nat

namespace SleepList

def mark (list : SleepList) (marked : ElemId) : SleepList :=
  { list with
    elem := update list.elem marked { list.elem marked with removeFlag := true } }

variable (list : SleepList) (marked elem : ElemId)

@[simp] theorem wakeTicks_mark :
    ((list.mark marked).elem elem).wakeTicks = (list.elem elem).wakeTicks := by
  by_cases same : elem = marked <;> simp [mark, same]

@[simp] theorem currentThread_mark :
    ((list.mark marked).elem elem).currentThread = (list.elem elem).currentThread := by
  by_cases same : elem = marked <;> simp [mark, same]

theorem removeFlag_mark : ((list.mark marked).elem elem).removeFlag =
    if elem = marked then true else (list.elem elem).removeFlag := by
  by_cases same : elem = marked <;> simp [mark, same]

end SleepList

/-- The machine with the state of `devices/timer.c`. -/
structure Clock extends Machine, SleepList where
  ticks : Int
  place : Tid → Place
  /-- How often `thread_unblock` was called for an entry, which the program does not keep. -/
  unblocks : ElemId → Nat

namespace Clock

variable (clock : Clock)

def setPlace (place : Place) : Clock :=
  { clock with place := update clock.place clock.current place }

def machineStep (event : Event) : Option Clock :=
  (Threads.step clock.toMachine event).map fun machine => { clock with toMachine := machine }

/-- `list_insert` and `thread_block`. -/
def insertAndBlock (new : ElemId) (cursor : Option ElemId) : Option Clock :=
  clock.toKernel.threadBlock.map fun blocked =>
    { clock with
      toMachine := { blocked with code := clock.code }
      sleepQueue := Cursor.insertBefore clock.sleepQueue cursor new
      place := update clock.place clock.current (.asleep new) }

/-- `timer_sleep` up to its loop. -/
def timerSleep (ticks : Int) : Clock :=
  { clock with
    elem := update clock.elem clock.elems ⟨clock.ticks + ticks, clock.current, false⟩
    elems := clock.elems + 1
    place := update clock.place clock.current (.first clock.elems) }

/-- The next section of `timer_sleep` of the running thread. -/
def advance : Option Clock :=
  match clock.place clock.current with
  | .outside => none
  | .first new => some (clock.setPlace (.test new clock.sleepQueue.head?))
  | .test new none => clock.insertAndBlock new none
  | .test new (some elem) =>
    if elem ∈ clock.sleepQueue then
      if (clock.elem elem).removeFlag then
        some (clock.setPlace (.unlink new elem))
      else
        some (clock.setPlace (.compare new elem))
    else
      none
  | .unlink new elem =>
    if elem ∈ clock.sleepQueue then
      some { clock.setPlace (.next new (Cursor.prior clock.sleepQueue elem)) with
          sleepQueue := clock.sleepQueue.erase elem }
    else
      none
  | .compare new elem =>
    if elem ∈ clock.sleepQueue then
      if (clock.elem new).wakeTicks < (clock.elem elem).wakeTicks then
        some (clock.setPlace (.insert new elem))
      else
        some (clock.setPlace (.next new (some elem)))
    else
      none
  | .insert new elem =>
    if elem ∈ clock.sleepQueue then clock.insertAndBlock new (some elem) else none
  | .next new none => some (clock.setPlace (.test new clock.sleepQueue.head?))
  | .next new (some elem) =>
    if elem ∈ clock.sleepQueue then
      some (clock.setPlace (.test new (Cursor.after clock.sleepQueue elem)))
    else
      none
  | .asleep _ => some (clock.setPlace .outside)

/-- One round of `timer_wake` for an entry that is due. -/
def wakeElem (elem : ElemId) : Option Clock :=
  if (clock.elem elem).removeFlag then
    some clock
  else
    (clock.toKernel.threadUnblock (clock.elem elem).currentThread).map fun unblocked =>
      { clock with
        toMachine := { unblocked with code := clock.code }
        toSleepList := clock.toSleepList.mark elem
        unblocks := update clock.unblocks elem (clock.unblocks elem + 1) }

/-- The loop of `timer_wake`. -/
def wakeLoop (clock : Clock) : List ElemId → Option Clock
  | [] => some clock
  | elem :: rest =>
    if (clock.elem elem).wakeTicks ≤ clock.ticks then
      (clock.wakeElem elem).bind fun woken => wakeLoop woken rest
    else
      some clock

def timerWake : Option Clock :=
  clock.wakeLoop clock.sleepQueue

/-- The thread comes back from `thread_block` with interrupts disabled. -/
def resuming : Bool :=
  match clock.place clock.current with
  | .asleep _ => true
  | _ => false

def interruptible : Bool :=
  clock.toMachine.interruptible && !clock.resuming

/-- `timer_interrupt`, after which the running thread may have used up its time slice. -/
def tick (yields : Bool) : Option Clock :=
  if clock.interruptible then
    ({ clock with ticks := clock.ticks + 1 } : Clock).timerWake.bind fun woken =>
      if yields then woken.machineStep .timer else some woken
  else
    none

/-- Inside `timer_sleep` a thread starts no other operation. -/
def admits : Event → Bool
  | .start _ => clock.place clock.current = .outside
  | .run => true
  | .timer => !clock.resuming

end Clock

/-- What happens next: an event of the machine, a timer interrupt, a call of `timer_sleep`, or its next
section. -/
inductive ClockEvent
  | base (event : Event)
  | tick (yields : Bool)
  | sleep (ticks : Int)
  | advance
  deriving DecidableEq

def clockStep (clock : Clock) : ClockEvent → Option Clock
  | .base event => if clock.admits event then clock.machineStep event else none
  | .tick yields => clock.tick yields
  | .sleep ticks =>
    if clock.code clock.current = [] ∧ clock.place clock.current = .outside then
      some (clock.timerSleep ticks)
    else
      none
  | .advance => clock.advance

/-- The machine with a clock at boot. -/
def clockBoot (values : Nat → Nat) : Clock where
  toMachine := boot values
  ticks := 0
  sleepQueue := []
  elem _ := ⟨0, 0, false⟩
  elems := 0
  place _ := .outside
  unblocks _ := 0

end Pintos.Devices
