import Pintos.Threads.Asleep

/-!
# Thread status and queues over whole lives of threads

Threads are created, run, wait and exit, and the page of a dead thread may be handed out again.  In
every reachable state the status fields, the ready list, its counter and the queues of semaphores
agree.
-/

namespace Pintos.Threads

open Function Option List Kernel

def initialThread : Tid := 1

/-- What is left of a thread whose page was freed: no thread any more, so no donation from it
counts and none is passed on through it. -/
def freedPage : Thread where
  status := .dying
  nativePriority := priMin
  priority := priMin
  donors := []
  donees := none

namespace Kernel

/-- The current thread dies.  The page of `initial_thread` is never freed. -/
def leave (kernel : Kernel) : Kernel :=
  kernel.setThread kernel.current (if kernel.current = initialThread then
      { kernel.thread kernel.current with status := .dying }
    else
      freedPage)

/-- `thread_exit`, with the end of `thread_schedule_tail` in the next thread. -/
def threadExit (kernel : Kernel) : Option Kernel :=
  kernel.leave.schedule

/-- The page held a thread that exited. -/
def freed (kernel : Kernel) (page : Tid) : Bool :=
  kernel.status page = .dying ∧ page ≠ initialThread

/-- `init_thread` and `thread_unblock` of `thread_create` on a page that was freed before. -/
def recycle (kernel : Kernel) (page : Tid) (priority : Int) : Option Kernel :=
  if kernel.freed page ∧ priMin ≤ priority ∧ priority ≤ priMax then
    (kernel.setThread page (initThread .blocked priority)).threadUnblock page
  else
    none

end Kernel

/-- The operations of a thread that touch no lock but `tid_lock`. -/
def Op.lockless : Op → Bool
  | .semaDown _ | .semaTryDown _ | .semaUp _ | .threadYield | .threadCreate _ => true
  | _ => false

/-- The next section writes a donation through a pointer to a freed page. -/
def Machine.donatesToFreed (machine : Machine) : Bool :=
  match machine.code machine.current with
  | .acquireDonate _ target :: _ => machine.freed target
  | _ => false

/-- What happens next in a system whose threads come and go. -/
inductive LifeEvent
  | start (op : Op)
  | run
  | timer
  /-- `thread_exit` of the running thread. -/
  | exit
  /-- `thread_create` gets a page that was freed before. -/
  | reuse (page : Tid)
  deriving DecidableEq

/-- One step of a system whose threads come and go. -/
def lifeStep (machine : Machine) : LifeEvent → Option Machine
  | .start op => if op.lockless then step machine (.start op) else none
  | .run => if machine.donatesToFreed then none else step machine .run
  | .timer => step machine .timer
  | .exit =>
    if machine.code machine.current = [] then
      machine.threadExit.map fun left => { left with code := machine.code }
    else
      none
  | .reuse page =>
    match machine.code machine.current with
    | .createThread priority :: rest =>
      (machine.recycle page priority).map fun created =>
        { created with
          code := update machine.code machine.current (.yieldIfBelow page :: rest) }
    | _ => none

/-- The system after `thread_start`.  The idle thread has yielded to `main` in its `sema_up`, or has
blocked before `main` waited for it. -/
def started (idleYielded : Bool) (values : Nat → Nat) : Machine :=
  { boot values with
    thread := update (boot values).thread 0
      (initThread (if idleYielded then .ready else .blocked) priDefault) }

/-- Status fields, the ready list, its counter and the queues of semaphores agree. -/
structure StatusAgrees (m : Machine) : Prop where
  running : ∃! t, m.status t = .running
  ready : ∀ t, t ∈ m.readyList ↔ m.status t = .ready ∧ t ≠ m.idleThread
  readyOnce : m.readyList.Nodup
  waiting : ∀ sema, ∀ t ∈ (m.semaphore sema).waiters, m.status t = .blocked ∧ t ∉ m.readyList ∧
      ∀ other, t ∈ (m.semaphore other).waiters → other = sema
  waitingOnce : ∀ sema, (m.semaphore sema).waiters.Nodup
  count : m.readyThreads = m.readyList.length

/-! ## The ready list and its counter -/

/-- Every ready thread but the idle thread is in the ready list, which is counted, and only the
current thread may be running. -/
structure QueueAgrees (k : Kernel) : Prop where
  listed : ∀ t, k.status t = .ready → t ≠ k.idleThread → t ∈ k.readyList
  idle : k.idleThread ∉ k.readyList
  count : k.readyThreads = k.readyList.length
  running : ∀ t, k.status t = .running → t = k.current

namespace QueueAgrees

variable {k s' : Kernel}

theorem congr (agrees : QueueAgrees k) (status : s'.status = k.status)
    (readyList : s'.readyList = k.readyList)
    (ready : s'.readyThreads = k.readyThreads)
    (idleThread : s'.idleThread = k.idleThread) (cur : s'.current = k.current) :
    QueueAgrees s' where
  listed t := by
    rw [status, idleThread, readyList]
    exact agrees.listed t
  idle := by
    rw [idleThread, readyList]
    exact agrees.idle
  count := by
    rw [ready, readyList]
    exact agrees.count
  running t := by
    rw [status, cur]
    exact agrees.running t

theorem count_schedule (count : k.readyThreads = k.readyList.length)
    (ran : k.schedule = some s') : s'.readyThreads = s'.readyList.length := by
  unfold schedule at ran
  split at ran
  · cases ran
  · cases ran
    unfold nextThreadToRun
    cases list : k.readyList with
    | nil =>
      rw [list] at count
      change k.readyThreads = k.readyList.length
      rw [list]
      exact count
    | cons next rest =>
      rw [list, length_cons] at count
      change k.readyThreads - 1 = rest.length
      omega

variable (agrees : QueueAgrees k)
include agrees

theorem schedule (ran : k.schedule = some s') : QueueAgrees s' := by
  obtain ⟨next, moved⟩ := switched_of_schedule ran
  have gaveUp : k.status k.current ≠ .running := by
    intro runs
    simp [Kernel.schedule, runs] at ran
  refine ⟨fun t ready notIdle => ?_, ?_, count_schedule agrees.count ran, fun t runs => ?_⟩
  · rw [moved.status] at ready
    rw [moved.idleThread] at notIdle
    split at ready
    · cases ready
    · rename_i o
      have queued := agrees.listed t ready notIdle
      rcases moved.readyList with list | ⟨empty, _, _⟩
      · rw [list] at queued
        exact (mem_cons.mp queued).resolve_left o
      · rw [empty] at queued
        cases queued
  · rw [moved.idleThread]
    exact fun queued => agrees.idle (moved.mem_readyList queued)
  · rw [moved.status] at runs
    rw [moved.current]
    split at runs
    · rename_i same
      exact same
    · exact (gaveUp (agrees.running t runs ▸ runs)).elim

theorem setThread_current {record : Thread} (gone : record.status ≠ .ready) :
    QueueAgrees (k.setThread k.current record) where
  __ := agrees
  listed t ready notIdle := by
    rw [status_setThread] at ready
    split at ready
    · exact (gone ready).elim
    · exact agrees.listed t ready notIdle
  running t running := by
    rw [status_setThread] at running
    split at running
    · rename_i same
      exact same
    · exact agrees.running t running

/-- A thread other than the idle thread is inserted into the ready list. -/
theorem inserted {t : Tid} (notIdle : t ≠ k.idleThread) (made : Kernel.MadeReady k s' t)
    (perm : s'.readyList.Perm (t :: k.readyList))
    (count : s'.readyThreads = k.readyThreads + 1) : QueueAgrees s' where
  listed other ready otherNotIdle := by
    rw [made.status] at ready
    rw [made.idleThread] at otherNotIdle
    rw [perm.mem_iff, mem_cons]
    split at ready
    · rename_i same
      exact .inl same
    · exact .inr (agrees.listed other ready otherNotIdle)
  idle := by
    rw [made.idleThread, perm.mem_iff, mem_cons]
    rintro (same | queued)
    · exact notIdle same.symm
    · exact agrees.idle queued
  count := by
    rw [count, agrees.count, perm.length_eq, length_cons]
    push_cast
    rfl
  running other running := by
    rw [made.status] at running
    rw [made.current]
    split at running
    · cases running
    · exact agrees.running other running

theorem threadUnblock {t : Tid} (notIdle : t ≠ k.idleThread)
    (ran : k.threadUnblock t = some s') : QueueAgrees s' := by
  obtain ⟨blocked, made⟩ := madeReady_of_threadUnblock ran
  rw [Kernel.threadUnblock, if_pos blocked] at ran
  cases ran
  exact agrees.inserted notIdle made (perm_orderedInsert _ _ _) rfl

theorem queueCurrent : QueueAgrees k.queueCurrent := by
  have made := Kernel.madeReady_queueCurrent k
  by_cases idle : k.current = k.idleThread
  · have eq : k.queueCurrent = k.setStatus k.current .ready := by
      simp [Kernel.queueCurrent, idle]
    -- the idle thread becomes ready without being queued
    rw [eq]
    refine ⟨fun t ready notIdle => ?_, agrees.idle, agrees.count, fun t runs => ?_⟩
    · change t ≠ k.idleThread at notIdle
      rw [Kernel.status_setStatus, idle, if_neg notIdle] at ready
      exact agrees.listed t ready notIdle
    · rw [Kernel.status_setStatus] at runs
      split at runs
      · cases runs
      · exact agrees.running t runs
  · have eq : k.queueCurrent = { k.setStatus k.current .ready with
        readyList := k.insertYielding k.current
        readyThreads := k.readyThreads + 1 } := by
      simp [Kernel.queueCurrent, idle, Kernel.setStatus, Kernel.setThread]
    refine agrees.inserted idle made ?_ ?_
    · rw [eq]
      exact perm_orderedInsert _ _ _
    · rw [eq]

theorem threadYield (ran : k.threadYield = some s') : QueueAgrees s' :=
  agrees.queueCurrent.schedule ran

theorem threadBlock (ran : k.threadBlock = some s') : QueueAgrees s' :=
  (agrees.setThread_current (by simp)).schedule ran

theorem setSemaphore (sema : SemaRef) (semaphore : Semaphore) :
    QueueAgrees (k.setSemaphore sema semaphore) :=
  agrees.congr rfl rfl rfl rfl rfl

theorem semaUp {sema : SemaRef} {highest : Int}
    (notIdle : k.idleThread ∉ (k.semaphore sema).waiters)
    (ran : k.semaUp sema = some (highest, s')) : QueueAgrees s' := by
  rcases semaUp_cases ran with ⟨_, rfl⟩ | ⟨w, unblocked, mem, _, woken, rfl⟩
  · exact agrees.setSemaphore sema _
  · have o : w ≠ k.idleThread := by
      rintro rfl
      exact notIdle mem
    exact ((agrees.setSemaphore sema _).threadUnblock o woken).setSemaphore sema _

theorem initThread {page : Tid} (prio : Int) (threads : Nat) :
    QueueAgrees { k.setThread page (Threads.initThread .blocked prio) with threads } where
  __ := agrees
  listed t ready notIdle := by
    change (k.setThread page _).status t = .ready at ready
    rw [status_setThread] at ready
    split at ready
    · cases ready
    · exact agrees.listed t ready notIdle
  running t running := by
    change (k.setThread page _).status t = .running at running
    rw [status_setThread] at running
    split at running
    · cases running
    · exact agrees.running t running

theorem outcome {instr : Instr} {rest code : List Instr} (ready : ReadyInvariant k)
    (awake : ∀ sema, k.idleThread ∉ (k.semaphore sema).waiters)
    (out : Outcome k rest instr s' code) : QueueAgrees s' := by
  cases out with
  | quiet _ quiet =>
    exact agrees.congr quiet.status quiet.readyList quiet.readyThreads quiet.idleThread
      quiet.current
  | update t masked =>
    exact agrees.congr (setThread_status_of_eq k t _ rfl) rfl rfl rfl rfl
  | yield _ yields => exact agrees.threadYield yields
  | enqueue sema _ blocks => exact (agrees.setSemaphore sema _).threadBlock blocks
  | blockAgain _ _ blocks | idle blocks => exact agrees.threadBlock blocks
  | wake sema _ wakes => exact agrees.semaUp (awake sema) wakes
  | create prio makes =>
    unfold createThread at makes
    split at makes
    · exact (agrees.initThread prio _).threadUnblock (Nat.ne_of_gt ready.idleBorn) makes
    · cases makes

end QueueAgrees

/-! ## Dying threads -/

section Alive

variable {k s' : Kernel} {t : Tid} (living : k.status t ≠ .dying)
include living

theorem alive_of_switched {next : Tid} (moved : Kernel.Switched k s' next) :
    s'.status t ≠ .dying := by
  rw [moved.status]
  split
  · simp
  · exact living

theorem alive_of_madeReady {ready : Tid} (made : Kernel.MadeReady k s' ready) :
    s'.status t ≠ .dying := by
  rw [made.status]
  split
  · simp
  · exact living

theorem alive_of_threadBlock (blocks : k.threadBlock = some s') : s'.status t ≠ .dying := by
  obtain ⟨next, moved⟩ := switched_of_schedule blocks
  refine alive_of_switched ?_ moved
  rw [status_setStatus]
  split
  · simp
  · exact living

theorem alive_of_threadYield (yields : k.threadYield = some s') : s'.status t ≠ .dying := by
  obtain ⟨next, moved⟩ := switched_of_schedule yields
  exact alive_of_switched (alive_of_madeReady living (madeReady_queueCurrent k)) moved

theorem alive_of_initThread {page : Tid} {prio : Int} {threads : Nat}
    (unblocks : { k.setThread page (initThread .blocked prio) with
      threads }.threadUnblock page = some s') : s'.status t ≠ .dying := by
  refine alive_of_madeReady ?_ (madeReady_of_threadUnblock unblocks).2
  change (k.setThread page _).status t ≠ .dying
  rw [status_setThread]
  split
  · simp [initThread]
  · exact living

theorem Outcome.alive {instr : Instr} {rest code : List Instr}
    (out : Outcome k rest instr s' code) : s'.status t ≠ .dying := by
  cases out with
  | quiet _ quiet =>
    rw [quiet.status]
    exact living
  | update target masked =>
    have status := setThread_status_of_eq k target
      { k.thread target with priority := k.activePriority target } rfl
    exact (congrFun status t).trans_ne living
  | yield _ yields => exact alive_of_threadYield living yields
  | enqueue sema _ blocks => exact @alive_of_threadBlock (k.pushWaiter sema) _ _ living blocks
  | blockAgain _ _ blocks | idle blocks => exact alive_of_threadBlock living blocks
  | wake sema _ wakes =>
    rcases semaUp_cases wakes with ⟨_, rfl⟩ | ⟨w, unblocked, _, _, woken, rfl⟩
    · exact living
    · have made := (madeReady_of_threadUnblock woken).2
      exact @alive_of_madeReady (k.removeWaiter sema w) unblocked _ living _ made
  | create priority makes =>
    unfold createThread at makes
    split at makes
    · exact alive_of_initThread living makes
    · cases makes

end Alive

section Leave

variable {k : Kernel}

theorem status_leave (t : Tid) :
    k.leave.status t = if t = k.current then .dying else k.status t := by
  unfold leave
  rw [status_setThread]
  split
  · split <;> rfl
  · rfl

theorem ReadyInvariant.leave (inv : ReadyInvariant k) : ReadyQueue k.leave where
  __ := inv
  ready t mem := by
    have o : t ≠ k.current := by
      rintro rfl
      exact inv.current_not_mem mem
    rw [status_leave, if_neg o]
    exact inv.ready t mem
  unborn t created := by
    have o : t ≠ k.current := by
      rintro rfl
      exact (Nat.not_le.mpr inv.born) created
    rw [status_leave, if_neg o]
    exact inv.unborn t created

theorem asleep_leave (runs : k.status k.current = .running) (code : Tid → List Instr) :
    asleep k.leave code = asleep k code := by
  funext t
  unfold asleep
  rw [status_leave]
  by_cases same : t = k.current
  · simp [same, runs]
  · rw [if_neg same]

end Leave

/-- What holds in every reachable state. -/
structure LifeInvariant (m : Machine) : Prop extends MachineInvariant m where
  waiters : WaitersInvariant m
  queue : QueueAgrees m.toKernel
  deadCode : ∀ t, m.status t = .dying → m.code t = []
  idleLives : m.status m.idleThread ≠ .dying

theorem status_started (idleYielded : Bool) (values : Nat → Nat) (t : Tid) :
    (started idleYielded values).status t = if t = 0 then (if idleYielded then .ready else .blocked)
      else if t = 1 then .running else .blocked := by
  by_cases idle : t = 0
  · simp [started, status, initThread, idle]
  · simp only [started, status, update_of_ne idle, boot, idle, if_false]
    split <;> rfl

theorem lifeInvariant_started (idleYielded : Bool) (values : Nat → Nat) :
    LifeInvariant (started idleYielded values) where
  toMachineInvariant := by
    have booted := machineInvariant_boot values
    refine ⟨⟨⟨?_, nodup_nil, ?_, Nat.zero_lt_two, booted.ready.waitersBorn⟩, ?_⟩,
      booted.idleCode, booted.unbornCode⟩
    · intro t mem
      cases mem
    · intro t made
      change 2 ≤ t at made
      have idle : t ≠ 0 := by omega
      have main : t ≠ 1 := by omega
      rw [status_started, if_neg idle, if_neg main]
    · exact status_started idleYielded values 1
  waiters := by
    refine ⟨?_, (waitersInvariant_boot values).nodup⟩
    intro sema t mem
    cases sema <;> cases mem
  queue := by
    refine ⟨fun t ready notIdle => ?_, by simp [started, boot], rfl, fun t runs => ?_⟩
    · change t ≠ 0 at notIdle
      rw [status_started, if_neg notIdle] at ready
      split at ready <;> cases ready
    · rw [status_started] at runs
      split at runs
      · split at runs <;> cases runs
      · split at runs
        · assumption
        · cases runs
  deadCode t dying := by
    rw [status_started] at dying
    split at dying
    · split at dying <;> cases dying
    · split at dying <;> cases dying
  idleLives := by
    change (started idleYielded values).status 0 ≠ .dying
    rw [status_started, if_pos rfl]
    split <;> simp

namespace LifeInvariant

variable {s s' : Machine} {page : Tid} {k : Kernel} (inv : LifeInvariant s)
include inv

theorem idle_not_waiting (sema : SemaRef) : s.idleThread ∉ (s.semaphore sema).waiters := by
  intro mem
  have sleeps := inv.waiters.asleep sema _ mem
  unfold Machine.asleep Threads.asleep at sleeps
  rw [inv.idleCode] at sleeps
  split at sleeps <;> cases sleeps

theorem idle_waitsOf : waitsOf (s.code s.idleThread) = none := by
  rw [inv.idleCode]
  rfl

theorem current_alive : s.status s.current ≠ .dying := by
  rw [inv.ready.running]
  simp

/-- A step that ends no life and moves only the running thread keeps dead threads without code. -/
theorem deadCode_update {left : List Instr}
    (alive : ∀ {t}, s.status t ≠ .dying → k.status t ≠ .dying)
    (t : Tid) (dying : k.status t = .dying) :
    update s.code s.current left t = [] := by
  have o : t ≠ s.current := by
    rintro rfl
    exact alive inv.current_alive dying
  rw [update_of_ne o]
  refine inv.deadCode t ?_
  by_contra living
  exact alive living dying

theorem step {e : Event} (ran : Threads.step s e = some s') : LifeInvariant s' := by
  have m := inv.toMachineInvariant.step ran
  have waiters := inv.waiters.step inv.toMachineInvariant ran
  cases e with
  | start op =>
    obtain ⟨_, rfl⟩ := code_of_start ran
    exact ⟨m, waiters, inv.queue, inv.deadCode_update id, inv.idleLives⟩
  | run =>
    obtain ⟨instr, rest, k, left, _, eff, rfl⟩ := execute_of_run ran
    have out := outcome_of_execute eff
    refine ⟨m, waiters, inv.queue.outcome inv.ready inv.idle_not_waiting out,
      inv.deadCode_update fun alive => out.alive alive, ?_⟩
    change k.status k.idleThread ≠ .dying
    rw [out.idleThread]
    exact out.alive inv.idleLives
  | timer =>
    obtain ⟨k, yields, rfl⟩ := threadYield_of_timer ran
    refine ⟨m, waiters, inv.queue.threadYield yields, fun t dying => ?_, ?_⟩
    · refine inv.deadCode t ?_
      by_contra living
      exact alive_of_threadYield living yields dying
    · change k.status k.idleThread ≠ .dying
      rw [idleThread_threadYield yields]
      exact alive_of_threadYield inv.idleLives yields

theorem exit (mid : s.code s.current = []) (exits : s.threadExit = some k) :
    LifeInvariant { k with code := s.code } := by
  obtain ⟨next, moved⟩ := switched_of_schedule exits
  have ready := inv.ready
  have asleep : Threads.asleep k s.code = s.asleep :=
    (asleep_switched (MachineInvariant.asleep_next ready.leave inv.idle_waitsOf moved)
      moved).trans (asleep_leave ready.running _)
  have idleThread : k.idleThread = s.idleThread := moved.idleThread
  have notIdle : s.idleThread ≠ s.current := by
    intro same
    have code := inv.idleCode
    rw [same, mid] at code
    cases code
  have left : QueueAgrees s.leave := by
    refine inv.queue.setThread_current ?_
    split <;> simp [freedPage]
  refine ⟨⟨ready.leave.switched moved, ?_, ?_⟩, ?_, left.schedule exits, ?_, ?_⟩
  · change s.code k.idleThread = _
    rw [idleThread]
    exact inv.idleCode
  · intro t made
    change k.threads ≤ t at made
    rw [moved.threads] at made
    exact inv.unbornCode t made
  · exact inv.waiters.congr asleep fun sema => by
      change (k.semaphore sema).waiters = _
      rw [moved.semaphore]
      rfl
  · intro t dying
    change k.status t = .dying at dying
    rw [moved.status, status_leave] at dying
    split at dying
    · cases dying
    · split at dying
      · rename_i same
        rw [same]
        exact mid
      · exact inv.deadCode t dying
  · change k.status k.idleThread ≠ .dying
    rw [idleThread]
    refine alive_of_switched ?_ moved
    rw [status_leave, if_neg notIdle]
    exact inv.idleLives

/-- A page that held a thread is below the first page never handed out. -/
theorem dead_lt (dead : s.status page = .dying) : page < s.threads := by
  by_contra unborn
  have blocked := inv.ready.unborn page (Nat.not_lt.mp unborn)
  rw [dead] at blocked
  cases blocked

/-- The page of a dead thread may be filled in for a new one. -/
theorem ready_initThread (dead : s.status page = .dying) (prio : Int) :
    ReadyInvariant (s.setThread page (Threads.initThread .blocked prio)) := by
  have others : ∀ {t}, t ≠ page →
      (s.setThread page (Threads.initThread .blocked prio)).status t = s.status t := by
    intro t o
    rw [status_setThread, if_neg o]
  refine ⟨⟨fun t mem => ?_, inv.ready.nodup, fun t unborn => ?_,
    inv.ready.idleBorn, inv.ready.waitersBorn⟩, ?_⟩
  · have ready := inv.ready.ready t mem
    rw [others (by rintro rfl; rw [dead] at ready; cases ready)]
    exact ready
  · have lt := inv.dead_lt dead
    rw [others (by rintro rfl; exact (Nat.not_le.mpr lt) unborn)]
    exact inv.ready.unborn t unborn
  · have runs := inv.ready.running
    change (s.setThread page _).status s.current = .running
    rw [others (by intro same; rw [same, dead] at runs; cases runs)]
    exact runs

/-- Nobody falls asleep or wakes up when a dead page gets a new thread. -/
theorem asleep_initThread (dead : s.status page = .dying) (prio : Int) (left : List Instr) :
    update (Threads.asleep (s.setThread page (Threads.initThread .blocked prio))
      (update s.code s.current left)) page none = s.asleep := by
  have moved : Threads.asleep s.toKernel (update s.code s.current left) =
      s.asleep := asleep_moveCode inv.awake left
  funext t
  by_cases same : t = page
  · subst same
    rw [update_self]
    exact (asleep_of_not_blocked (by rw [dead]; simp)).symm
  · rw [update_of_ne same, ← moved]
    unfold Threads.asleep
    rw [status_setThread, if_neg same]

theorem reuse {prio : Int} {rest : List Instr}
    (code : s.code s.current = .createThread prio :: rest)
    (makes : s.recycle page prio = some k) : LifeInvariant { k with
      code := update s.code s.current (.yieldIfBelow page :: rest) } := by
  unfold recycle at makes
  split at makes
  · rename_i valid
    obtain ⟨dead, _⟩ : s.status page = .dying ∧ page ≠ initialThread := by
      simpa [freed] using valid.1
    have filled := inv.ready_initThread dead prio
    obtain ⟨blocked, made⟩ := madeReady_of_threadUnblock makes
    have notIdle : page ≠ s.idleThread := by
      rintro rfl
      exact inv.idleLives dead
    have idle := inv.current_ne_idle (by rw [code]; simp)
    have alive : ∀ {t}, s.status t ≠ .dying → k.status t ≠ .dying :=
      fun living => alive_of_initThread living makes
    refine ⟨⟨filled.madeReady blocked (inv.dead_lt dead) made, ?_, ?_⟩, ?_,
      (inv.queue.initThread prio s.threads).threadUnblock notIdle makes,
      inv.deadCode_update alive, ?_⟩
    · change update s.code s.current _ k.idleThread = _
      rw [made.idleThread]
      exact (update_of_ne idle.symm _ _).trans inv.idleCode
    · intro t created
      change k.threads ≤ t at created
      rw [made.threads] at created
      have o : t ≠ s.current := by
        rintro rfl
        exact (Nat.not_le.mpr inv.ready.born) created
      exact (update_of_ne o _ _).trans (inv.unbornCode t created)
    · refine inv.waiters.congr ?_ fun sema => ?_
      · exact (asleep_madeReady made).trans (inv.asleep_initThread dead prio _)
      · change (k.semaphore sema).waiters = _
        rw [made.semaphore]
        rfl
    · change k.status k.idleThread ≠ .dying
      rw [made.idleThread]
      exact alive inv.idleLives
  · cases makes

theorem lifeStep {e : LifeEvent} (ran : Threads.lifeStep s e = some s') : LifeInvariant s' := by
  cases e with
  | start op =>
    simp only [Threads.lifeStep] at ran
    split at ran
    · exact inv.step ran
    · cases ran
  | run =>
    simp only [Threads.lifeStep] at ran
    split at ran
    · cases ran
    · exact inv.step ran
  | timer => exact @step s s' inv .timer ran
  | exit =>
    simp only [Threads.lifeStep] at ran
    split at ran
    · rename_i mid
      obtain ⟨k, exits, rfl⟩ := map_eq_some_iff.mp ran
      exact inv.exit mid exits
    · cases ran
  | reuse page =>
    simp only [Threads.lifeStep] at ran
    split at ran
    · rename_i prio rest code
      obtain ⟨k, makes, rfl⟩ := map_eq_some_iff.mp ran
      exact inv.reuse code makes
    · cases ran

theorem statusAgrees : StatusAgrees s where
  running := ⟨s.current, inv.ready.running, inv.queue.running⟩
  ready t := by
    constructor
    · intro mem
      refine ⟨inv.ready.ready t mem, ?_⟩
      rintro rfl
      exact inv.queue.idle mem
    · rintro ⟨ready, notIdle⟩
      exact inv.queue.listed t ready notIdle
  readyOnce := inv.ready.nodup
  waiting sema t mem := by
    have sleeps := inv.waiters.asleep sema t mem
    have blocked : s.status t = .blocked := by
      by_contra awake
      rw [Machine.asleep, asleep_of_not_blocked awake] at sleeps
      cases sleeps
    refine ⟨blocked, inv.ready.not_mem (by rw [blocked]; simp), fun o queued => ?_⟩
    have same := inv.waiters.asleep o t queued
    rw [sleeps] at same
    exact (some.inj same).symm
  waitingOnce := inv.waiters.nodup
  count := inv.queue.count

end LifeInvariant

/-- In every state of every run from the end of `thread_start`, status fields, the ready list, its
counter and the queues of semaphores agree. -/
theorem status_and_queues_agree (idleYielded : Bool) (values : Nat → Nat)
    (events : List LifeEvent) :
    Execution.Along lifeStep StatusAgrees (started idleYielded values) events :=
  Execution.along_of_invariant (lifeInvariant_started idleYielded values)
    (fun inv ran => inv.lifeStep ran)
    (fun inv => inv.statusAgrees) events

/-- They also agree when threads use locks, donate priorities and set their own. -/
theorem queues_agree_with_locks (idleYielded : Bool) (values : Nat → Nat) (events : List Event) :
    Execution.Along step StatusAgrees (started idleYielded values) events :=
  Execution.along_of_invariant (lifeInvariant_started idleYielded values)
    (fun inv ran => inv.step ran) LifeInvariant.statusAgrees events

end Pintos.Threads
