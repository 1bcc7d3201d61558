import Mathlib.Data.List.Sort
import Pintos.Lib.Updates

/-!
# Threads, semaphores and locks

The data of `threads/thread.c` and `threads/synch.c`, and the sections of these files that run with
interrupts disabled, as functions on one kernel record.  A failed `ASSERT` or a dereferenced null
pointer is `none`.  The multi-level feedback scheduler is off.
-/

namespace Pintos.Threads

open Function Option List

/-- A thread, named by its page. -/
abbrev Tid := Nat

/-- A `struct lock`. -/
abbrev LockId := Nat

def priMin : Int := 0

def priMax : Int := 63

def priDefault : Int := 31

/-- `PRI_DEPTH`, the length of the `donors` array. -/
def priDepth : Nat := 8

/-- A semaphore of its own, or the one embedded in a lock. -/
inductive SemaRef
  | sema (index : Nat)
  | ofLock (lock : LockId)
  deriving DecidableEq

inductive ThreadStatus
  | running
  | ready
  | blocked
  | dying
  deriving DecidableEq

structure PriorityLock where
  /-- The lock the donation goes through. -/
  lock : LockId
  /-- The other thread of the donation. -/
  thread : Tid
  deriving DecidableEq

/-- The scheduling fields of `struct thread`. -/
structure Thread where
  status : ThreadStatus
  /-- Priority without donations. -/
  nativePriority : Int
  /-- Effective priority. -/
  priority : Int
  /-- The entries `donors[0]`, ..., `donors[numDonors - 1]`. -/
  donors : List PriorityLock
  /-- Whom this thread donated to. -/
  donees : Option PriorityLock
  deriving DecidableEq

structure Semaphore where
  value : Nat
  waiters : List Tid
  deriving DecidableEq

/-- The state shared by `thread.c` and `synch.c`. -/
structure Kernel where
  thread : Tid → Thread
  /-- Number of threads created so far; the next page handed out. -/
  threads : Nat
  /-- The running thread. -/
  current : Tid
  idleThread : Tid
  readyList : List Tid
  /-- `ready_threads`. -/
  readyThreads : Int
  semaphore : SemaRef → Semaphore
  /-- `lock->holder`. -/
  holder : LockId → Option Tid

namespace Kernel

def priority (kernel : Kernel) (thread : Tid) : Int :=
  (kernel.thread thread).priority

def status (kernel : Kernel) (thread : Tid) : ThreadStatus :=
  (kernel.thread thread).status

def setThread (kernel : Kernel) (thread : Tid) (record : Thread) : Kernel :=
  { kernel with thread := update kernel.thread thread record }

def setStatus (kernel : Kernel) (thread : Tid) (status : ThreadStatus) : Kernel :=
  kernel.setThread thread { kernel.thread thread with status }

def setSemaphore (kernel : Kernel) (sema : SemaRef) (semaphore : Semaphore) : Kernel :=
  { kernel with semaphore := update kernel.semaphore sema semaphore }

def setHolder (kernel : Kernel) (lock : LockId) (holder : Option Tid) : Kernel :=
  { kernel with holder := update kernel.holder lock holder }

section Fields

variable (k : Kernel) (thread : Tid) (record : Thread) (sema : SemaRef)
  (semaphore : Semaphore) (status : ThreadStatus)

@[simp] theorem setThread_thread :
    (k.setThread thread record).thread = update k.thread thread record := rfl

@[simp] theorem setStatus_readyList : (k.setStatus thread status).readyList = k.readyList := rfl

@[simp] theorem setStatus_semaphore : (k.setStatus thread status).semaphore = k.semaphore := rfl

@[simp] theorem setSemaphore_semaphore :
    (k.setSemaphore sema semaphore).semaphore = update k.semaphore sema semaphore := rfl

theorem status_setThread (o : Tid) : (k.setThread thread record).status o =
      if o = thread then record.status else k.status o := by
  simp only [Kernel.status, setThread_thread, update_apply]
  split <;> rfl

theorem status_setStatus (o : Tid) : (k.setStatus thread status).status o =
      if o = thread then status else k.status o := by
  simp [setStatus, status_setThread]

/-- A field that the new record keeps is the same in every thread. -/
theorem setThread_field {α : Type*} (field : Thread → α)
    (same : field record = field (k.thread thread)) (o : Tid) :
    field ((k.setThread thread record).thread o) = field (k.thread o) :=
  update_field field same o

theorem setThread_status_of_eq (same : record.status = k.status thread) :
    (k.setThread thread record).status = k.status :=
  funext (setThread_field k thread record Thread.status same)

@[simp] theorem priority_setStatus : (k.setStatus thread status).priority = k.priority :=
  funext (setThread_field k thread _ Thread.priority rfl)

end Fields

variable {after before : Kernel} {thread : Tid}

/-! ## Ready list -/

/-- Inserting by any loop that stops at the first element it may precede. -/
theorem pairwise_orderedInsert {α : Type*} {relation stop : α → α → Prop} [DecidableRel stop] {new : α}
    {list : List α} (follows : ∀ queued ∈ list, ¬ stop new queued → relation queued new)
    (precedes : ∀ queued ∈ list, stop new queued →
      relation new queued ∧ ∀ later, relation queued later → relation new later)
    (sorted : list.Pairwise relation) : (list.orderedInsert stop new).Pairwise relation := by
  induction list with
  | nil => simp
  | cons head tail ih =>
    obtain ⟨fst, rest⟩ := pairwise_cons.mp sorted
    rw [orderedInsert]
    split
    · rename_i stops
      obtain ⟨old, all⟩ := precedes head mem_cons_self stops
      refine pairwise_cons.mpr ⟨?_, sorted⟩
      intro queued mem
      rcases mem_cons.mp mem with rfl | mem
      · exact old
      · exact all queued (fst queued mem)
    · rename_i goes
      refine pairwise_cons.mpr ⟨?_, ih (fun queued mem => follows queued (mem_cons_of_mem _ mem))
        (fun queued mem => precedes queued (mem_cons_of_mem _ mem)) rest⟩
      intro queued mem
      rcases mem_cons.mp ((perm_orderedInsert stop new tail).mem_iff.mp mem) with
        rfl | mem
      · exact follows head mem_cons_self goes
      · exact fst queued mem

/-- The loop of `thread_unblock`: in front of the first thread that is not more urgent. -/
def insertUnblocked (kernel : Kernel) (thread : Tid) : List Tid :=
  kernel.readyList.orderedInsert
    (fun inserted queued => kernel.priority queued ≤ kernel.priority inserted) thread

/-- The loop of `thread_yield`: in front of the first thread that is less urgent. -/
def insertYielding (kernel : Kernel) (thread : Tid) : List Tid :=
  kernel.readyList.orderedInsert
    (fun inserted queued => kernel.priority queued < kernel.priority inserted) thread

def threadUnblock (kernel : Kernel) (thread : Tid) : Option Kernel :=
  if kernel.status thread = .blocked then
    some { kernel.setStatus thread .ready with
        readyList := kernel.insertUnblocked thread
        readyThreads := kernel.readyThreads + 1 }
  else
    none

def nextThreadToRun (kernel : Kernel) : Tid × Kernel :=
  match kernel.readyList with
  | [] => (kernel.idleThread, kernel)
  | next :: rest =>
    (next, { kernel with readyList := rest, readyThreads := kernel.readyThreads - 1 })

/-- `schedule` with `thread_schedule_tail`. -/
def schedule (kernel : Kernel) : Option Kernel :=
  if kernel.status kernel.current = .running then
    none
  else
    let chosen := kernel.nextThreadToRun
    some { chosen.2.setStatus chosen.1 .running with current := chosen.1 }

def threadBlock (kernel : Kernel) : Option Kernel :=
  (kernel.setStatus kernel.current .blocked).schedule

/-- `thread_yield` up to `schedule`: every thread but the idle thread is queued. -/
def queueCurrent (kernel : Kernel) : Kernel :=
  let queued := if kernel.current = kernel.idleThread then
      kernel
    else
      { kernel with
        readyList := kernel.insertYielding kernel.current
        readyThreads := kernel.readyThreads + 1 }
  queued.setStatus queued.current .ready

def threadYield (kernel : Kernel) : Option Kernel :=
  kernel.queueCurrent.schedule

/-- Everything a switch to `next` does. -/
structure Switched (s s' : Kernel) (next : Tid) : Prop where
  current : s'.current = next
  thread : s'.thread = update s.thread next { s.thread next with status := .running }
  semaphore : s'.semaphore = s.semaphore
  holder : s'.holder = s.holder
  threads : s'.threads = s.threads
  idleThread : s'.idleThread = s.idleThread
  readyList : s.readyList = next :: s'.readyList ∨
    s.readyList = [] ∧ s'.readyList = [] ∧ next = s.idleThread

theorem switched_of_schedule (ran : before.schedule = some after) :
    ∃ next, Switched before after next := by
  unfold schedule at ran
  split at ran
  · cases ran
  · cases ran
    unfold nextThreadToRun
    cases list : before.readyList with
    | nil => exact ⟨before.idleThread, rfl, rfl, rfl, rfl, rfl, rfl, .inr ⟨list, list, rfl⟩⟩
    | cons next rest => exact ⟨next, rfl, rfl, rfl, rfl, rfl, rfl, .inl list⟩

theorem Switched.status {next : Tid} (moved : Switched before after next) (thread : Tid) :
    after.status thread = if thread = next then .running else before.status thread := by
  simp only [Kernel.status, moved.thread, update_apply]
  split <;> rfl

theorem Switched.priority {next : Tid} (moved : Switched before after next) :
    after.priority = before.priority := by
  funext thread
  simp only [Kernel.priority, moved.thread, update_apply]
  split
  · rename_i same
    rw [same]
  · rfl

theorem Switched.mem_readyList {next : Tid} (moved : Switched before after next)
    (mem : thread ∈ after.readyList) : thread ∈ before.readyList := by
  rcases moved.readyList with list | ⟨_, empty, _⟩
  · rw [list]
    exact mem_cons_of_mem next mem
  · rw [empty] at mem
    cases mem

/-- Everything `thread_unblock` and `thread_yield` do to make a thread ready. -/
structure MadeReady (s s' : Kernel) (t : Tid) : Prop where
  record : s'.thread = update s.thread t { s.thread t with status := .ready }
  readyList : s'.readyList = s.readyList ∧ t = s.idleThread ∨ s'.readyList = s.insertUnblocked t ∨
    s'.readyList = s.insertYielding t
  semaphore : s'.semaphore = s.semaphore
  holder : s'.holder = s.holder
  threads : s'.threads = s.threads
  idleThread : s'.idleThread = s.idleThread
  current : s'.current = s.current

section

variable (made : MadeReady before after thread)
include made

theorem MadeReady.status (o : Tid) :
    after.status o = if o = thread then .ready else before.status o := by
  simp only [Kernel.status, made.record, update_apply]
  split <;> rfl

theorem MadeReady.priority : after.priority = before.priority := by
  funext other
  simp only [Kernel.priority, made.record, update_apply]
  split
  · rename_i same
    rw [same]
  · rfl

theorem MadeReady.perm :
    after.readyList = before.readyList ∨ after.readyList.Perm (thread :: before.readyList) := by
  rcases made.readyList with ⟨same, _⟩ | inserted | inserted
  · exact .inl same
  · rw [inserted]
    exact .inr (perm_orderedInsert _ _ _)
  · rw [inserted]
    exact .inr (perm_orderedInsert _ _ _)

end

theorem madeReady_of_threadUnblock (ran : before.threadUnblock thread = some after) :
    before.status thread = .blocked ∧ MadeReady before after thread := by
  unfold threadUnblock at ran
  split at ran
  · rename_i blocked
    cases ran
    exact ⟨blocked, rfl, .inr (.inl rfl), rfl, rfl, rfl, rfl, rfl⟩
  · cases ran

theorem madeReady_queueCurrent (k : Kernel) : MadeReady k k.queueCurrent k.current := by
  unfold queueCurrent
  split
  · rename_i idle
    exact ⟨rfl, .inl ⟨rfl, idle⟩, rfl, rfl, rfl, rfl, rfl⟩
  · exact ⟨rfl, .inr (.inr rfl), rfl, rfl, rfl, rfl, rfl⟩

/-! ## Semaphores -/

/-- One round of the search loop of `sema_up`. -/
def searchWaiter (kernel : Kernel) (best : Option Tid × Int) (waiter : Tid) : Option Tid × Int :=
  if best.2 < kernel.priority waiter then (some waiter, kernel.priority waiter) else best

/-- The search loop of `sema_up`: the first waiter of highest priority, with that priority. -/
def highestWaiter (kernel : Kernel) (waiters : List Tid) : Option Tid × Int :=
  waiters.foldl kernel.searchWaiter (none, priMin - 1)

def incrementValue (kernel : Kernel) (sema : SemaRef) : Kernel :=
  kernel.setSemaphore sema { kernel.semaphore sema with value := (kernel.semaphore sema).value + 1 }

def decrementValue (kernel : Kernel) (sema : SemaRef) : Kernel :=
  kernel.setSemaphore sema { kernel.semaphore sema with value := (kernel.semaphore sema).value - 1 }

def removeWaiter (kernel : Kernel) (sema : SemaRef) (waiter : Tid) : Kernel :=
  kernel.setSemaphore sema
    { kernel.semaphore sema with waiters := (kernel.semaphore sema).waiters.erase waiter }

/-- `list_push_back (&sema->waiters, &thread_current ()->elem)`. -/
def pushWaiter (kernel : Kernel) (sema : SemaRef) : Kernel :=
  kernel.setSemaphore sema { kernel.semaphore sema with
      waiters := (kernel.semaphore sema).waiters ++ [kernel.current] }

/-- `sema_up` up to the restored interrupt level, with the value of `highestPriority`. -/
def semaUp (kernel : Kernel) (sema : SemaRef) : Option (Int × Kernel) :=
  match (kernel.semaphore sema).waiters with
  | [] => some (priMin - 1, kernel.incrementValue sema)
  | _ :: _ =>
    match kernel.highestWaiter (kernel.semaphore sema).waiters with
    | (none, _) => none
    | (some waiter, highest) =>
      ((kernel.removeWaiter sema waiter).threadUnblock waiter).map fun unblocked =>
        (highest, unblocked.incrementValue sema)

theorem highestWaiter_mem {k : Kernel} {waiters : List Tid} {w : Tid} {highest : Int}
    (found : k.highestWaiter waiters = (some w, highest)) : w ∈ waiters := by
  have general : ∀ (list : List Tid) (best : Option Tid × Int),
      (list.foldl k.searchWaiter best).1 = best.1 ∨
        ∃ w ∈ list, (list.foldl k.searchWaiter best).1 = some w := by
    intro list
    induction list with
    | nil => exact fun best => .inl rfl
    | cons head tail ih =>
      intro best
      rw [foldl_cons]
      rcases ih (k.searchWaiter best head) with same | ⟨w, mem, found⟩
      · rw [same]
        unfold searchWaiter
        split
        · exact .inr ⟨head, mem_cons_self, rfl⟩
        · exact .inl rfl
      · exact .inr ⟨w, mem_cons_of_mem head mem, found⟩
  rcases general waiters (none, priMin - 1) with absent | ⟨o, mem, here⟩
  · unfold highestWaiter at found
    rw [found] at absent
    cases absent
  · unfold highestWaiter at found
    rw [found] at here
    cases here
    exact mem

theorem semaUp_cases {k : Kernel} {sema : SemaRef} {highest : Int}
    (ran : k.semaUp sema = some (highest, after)) :
    (k.semaphore sema).waiters = [] ∧ after = k.incrementValue sema ∨
      ∃ w unblocked, w ∈ (k.semaphore sema).waiters ∧
        k.highestWaiter (k.semaphore sema).waiters = (some w, highest) ∧
        (k.removeWaiter sema w).threadUnblock w = some unblocked ∧
        after = unblocked.incrementValue sema := by
  unfold semaUp at ran
  split at ran
  · rename_i empty
    obtain ⟨-, rfl⟩ := Prod.mk.inj (some.inj ran)
    exact .inl ⟨empty, rfl⟩
  · split at ran
    · cases ran
    · rename_i w found search
      obtain ⟨unblocked, woken, eq⟩ := map_eq_some_iff.mp ran
      cases eq
      exact .inr ⟨w, unblocked, highestWaiter_mem search, search, woken, rfl⟩

/-! ## Priority donation -/

/-- One round of the loop of `updateActivePriority`. -/
def raiseDonated (kernel : Kernel) (highest : Int) (donor : PriorityLock) : Int :=
  if highest < kernel.priority donor.thread then kernel.priority donor.thread else highest

/-- The loop of `updateActivePriority`. -/
def highestDonated (kernel : Kernel) (thread : Tid) : Int :=
  (kernel.thread thread).donors.foldl kernel.raiseDonated priMin

/-- The priority `updateActivePriority` assigns. -/
def activePriority (kernel : Kernel) (thread : Tid) : Int :=
  if (kernel.thread thread).nativePriority < kernel.highestDonated thread then
    kernel.highestDonated thread
  else
    (kernel.thread thread).nativePriority

/-- `updateActivePriority` up to its recursive call. -/
def assignActivePriority (kernel : Kernel) (thread : Tid) : Kernel :=
  kernel.setThread thread { kernel.thread thread with priority := kernel.activePriority thread }

theorem priority_assignActivePriority (k : Kernel) (thread o : Tid) :
    (k.assignActivePriority thread).priority o =
      if o = thread then k.activePriority thread else k.priority o := by
  simp only [Kernel.priority, assignActivePriority, setThread_thread, update_apply]
  split <;> rfl

/-- The tests of `lock_acquire` that lead to a donation, with the lock holder that gets it. -/
def donationTarget (kernel : Kernel) (lock : LockId) : Option Tid :=
  match kernel.holder lock with
  | none => none
  | some target =>
    if (kernel.thread target).nativePriority < kernel.priority kernel.current ∧
        (kernel.thread target).donors.length < priDepth then
      some target
    else
      none

/-- `lock_acquire` registers the current thread as a donor.  A ninth entry would be written past
the end of the array. -/
def registerDonor (kernel : Kernel) (lock : LockId) (target : Tid) : Option Kernel :=
  if (kernel.thread target).donors.length < priDepth then
    let registered := kernel.setThread target { kernel.thread target with
        donors := (kernel.thread target).donors ++ [⟨lock, kernel.current⟩] }
    some (registered.setThread kernel.current
        { registered.thread kernel.current with donees := some ⟨lock, target⟩ })
  else
    none

/-- `thread_current()->donees.thread = NULL`, and the same for the lock. -/
def clearDonees (kernel : Kernel) : Kernel :=
  kernel.setThread kernel.current { kernel.thread kernel.current with donees := none }

/-- Entry `donors[index]` belongs to the lock. -/
def donorHasLock (donors : List PriorityLock) (lock : LockId) (index : Nat) : Bool :=
  match donors[index]? with
  | some donor => donor.lock == lock
  | none => false

/-- The inner loop of `lock_release`, from `j` downwards. -/
def lastOtherDonor (donors : List PriorityLock) (lock : LockId) (i : Nat) : Nat → Nat
  | 0 => 0
  | j + 1 =>
    if donorHasLock donors lock (j + 1) ∧ i < j + 1 then lastOtherDonor donors lock i j else j + 1

/-- `donors[target] = donors[source]`. -/
def copyDonor (donors : List PriorityLock) (target source : Nat) : List PriorityLock :=
  match donors[source]? with
  | some donor => donors.set target donor
  | none => donors

/-- The outer loop of `lock_release` at `i`, with `j + 1` as `stop`; the result is the final `i`
and array. -/
def returnDonations (lock : LockId) : Nat → Nat → Nat → List PriorityLock → Nat × List PriorityLock
  | 0, i, _, donors => (i, donors)
  | fuel + 1, i, stop, donors =>
    if i < stop then
      if donorHasLock donors lock i then
        let j := lastOtherDonor donors lock i (stop - 1)
        if donorHasLock donors lock j then
          (i, donors)
        else
          returnDonations lock fuel (i + 1) (j + 1) (copyDonor donors i j)
      else
        returnDonations lock fuel (i + 1) stop donors
    else
      (i, donors)

/-- The donor bookkeeping of `lock_release`, with `hasWaiter`: the final `i` of the loop is below
`numDonors`. -/
def releaseDonors (kernel : Kernel) (lock : LockId) : Bool × Kernel :=
  let record := kernel.thread kernel.current
  if record.nativePriority < record.priority then
    let count := record.donors.length
    let result := returnDonations lock count 0 count record.donors
    if result.1 < count then
      (true, kernel.setThread kernel.current { record with donors := result.2.take result.1 })
    else
      (false, kernel.setThread kernel.current { record with donors := result.2 })
  else
    (false, kernel)

/-- The clamped assignment of `thread_set_priority`. -/
def clampPriority (priority : Int) : Int :=
  if priority < priMin then priMin else if priMax < priority then priMax else priority

theorem priMin_le_clampPriority (prio : Int) : priMin ≤ clampPriority prio := by
  unfold clampPriority
  split
  · exact le_rfl
  · split
    · decide
    · omega

/-- `thread_set_priority` up to the call of `updateActivePriority`. -/
def setNativePriority (kernel : Kernel) (priority : Int) : Kernel :=
  kernel.setThread kernel.current
    { kernel.thread kernel.current with nativePriority := clampPriority priority }

/-- `init_thread` and `thread_unblock` of `thread_create`.  Until it is unblocked the new record is
reachable from no other thread, so both are one step. -/
def createThread (kernel : Kernel) (priority : Int) : Option Kernel :=
  if priMin ≤ priority ∧ priority ≤ priMax then
    { kernel.setThread kernel.threads
        { status := .blocked
          nativePriority := priority
          priority
          donors := []
          donees := none } with
      threads := kernel.threads + 1 }.threadUnblock kernel.threads
  else
    none

end Kernel

end Pintos.Threads
