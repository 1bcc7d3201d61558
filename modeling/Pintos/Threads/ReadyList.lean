import Pintos.Threads.Machine

/-!
# The ready list and thread status

In every reachable state the ready list holds ready threads, each of them once, and the current
thread runs.  No condition on the run is needed.  Later files build on these facts.
-/

namespace Pintos.Threads

open Function List Kernel Nat

/-- The ready list holds distinct ready threads; threads not yet created are blocked and wait for
nothing. -/
structure ReadyQueue (k : Kernel) : Prop where
  ready : ∀ t ∈ k.readyList, k.status t = .ready
  nodup : k.readyList.Nodup
  unborn : ∀ t, k.threads ≤ t → k.status t = .blocked
  idleBorn : k.idleThread < k.threads
  waitersBorn : ∀ sema, ∀ t ∈ (k.semaphore sema).waiters, t < k.threads

/-- Between sections the current thread is the running one. -/
structure ReadyInvariant (k : Kernel) : Prop extends ReadyQueue k where
  running : k.status k.current = .running

namespace ReadyQueue

variable {k s' : Kernel} (queue : ReadyQueue k)
include queue

theorem not_mem {t : Tid} (status : k.status t ≠ .ready) : t ∉ k.readyList :=
  fun mem => status (queue.ready t mem)

theorem congr (status : s'.status = k.status) (readyList : s'.readyList = k.readyList)
    (waiters : ∀ sema, ∀ t ∈ (s'.semaphore sema).waiters, t ∈ (k.semaphore sema).waiters)
    (idleThread : s'.idleThread = k.idleThread) (threads : s'.threads = k.threads) :
    ReadyQueue s' where
  ready := by rw [status, readyList]; exact queue.ready
  nodup := by rw [readyList]; exact queue.nodup
  unborn := by rw [status, threads]; exact queue.unborn
  idleBorn := by rw [idleThread, threads]; exact queue.idleBorn
  waitersBorn sema t mem := by
    rw [threads]
    exact queue.waitersBorn sema t (waiters sema t mem)

theorem madeReady {t : Tid} (asleep : k.status t ≠ .ready)
    (born : t < k.threads) (made : Kernel.MadeReady k s' t) :
    ReadyQueue s' := by
  have fresh := queue.not_mem asleep
  constructor
  · intro o mem
    rw [made.status]
    split
    · rfl
    · rename_i ne
      rcases made.perm with same | perm
      · exact queue.ready o (same ▸ mem)
      · rcases mem_cons.mp (perm.mem_iff.mp mem) with eq | mem
        · exact (ne eq).elim
        · exact queue.ready o mem
  · rcases made.perm with same | perm
    · rw [same]
      exact queue.nodup
    · exact perm.nodup_iff.mpr (nodup_cons.mpr ⟨fresh, queue.nodup⟩)
  · intro o created
    rw [made.threads] at created
    have ne : o ≠ t := by
      rintro rfl
      exact (not_le.mpr born) created
    rw [made.status, if_neg ne]
    exact queue.unborn o created
  · rw [made.idleThread, made.threads]
    exact queue.idleBorn
  · rw [made.semaphore, made.threads]
    exact queue.waitersBorn

theorem next_of_switched {next : Tid} (moved : Kernel.Switched k s' next) :
    k.status next = .ready ∨ next = k.idleThread := by
  rcases moved.readyList with list | ⟨_, _, idle⟩
  · exact .inl (queue.ready next (by rw [list]; exact mem_cons_self))
  · exact .inr idle

theorem switched {next : Tid} (moved : Kernel.Switched k s' next) : ReadyInvariant s' := by
  have nodup : s'.readyList.Nodup ∧ next ∉ s'.readyList := by
    have old := queue.nodup
    rcases moved.readyList with list | ⟨_, empty, _⟩
    · rw [list] at old
      exact ⟨old.of_cons, (nodup_cons.mp old).1⟩
    · simp [empty]
  refine ⟨⟨?_, nodup.1, ?_, ?_, ?_⟩, ?_⟩
  · intro t mem
    have o : t ≠ next := by
      rintro rfl
      exact nodup.2 mem
    rw [moved.status, if_neg o]
    exact queue.ready t (moved.mem_readyList mem)
  · intro t made
    rw [moved.threads] at made
    have blocked := queue.unborn t made
    have o : t ≠ next := by
      rintro rfl
      rcases queue.next_of_switched moved with ready | rfl
      · rw [ready] at blocked
        cases blocked
      · exact (not_le.mpr queue.idleBorn) made
    rw [moved.status, if_neg o, blocked]
  · rw [moved.threads, moved.idleThread]
    exact queue.idleBorn
  · rw [moved.semaphore, moved.threads]
    exact queue.waitersBorn
  · rw [moved.current, moved.status, if_pos rfl]

end ReadyQueue

namespace ReadyInvariant

variable {k s' : Kernel}

section

variable (inv : ReadyInvariant k)
include inv

theorem born : k.current < k.threads := by
  by_contra unborn
  have blocked := inv.unborn k.current (not_lt.mp unborn)
  rw [inv.running] at blocked
  cases blocked

theorem current_not_mem : k.current ∉ k.readyList := inv.not_mem (by rw [inv.running]; simp)

theorem queueCurrent : ReadyQueue k.queueCurrent :=
  inv.toReadyQueue.madeReady (by rw [inv.running]; simp) inv.born (madeReady_queueCurrent k)

theorem threadYield (ran : k.threadYield = some s') : ReadyInvariant s' := by
  obtain ⟨next, moved⟩ := switched_of_schedule ran
  exact inv.queueCurrent.switched moved

theorem blockCurrent : ReadyQueue (k.setStatus k.current .blocked) where
  __ := inv
  ready t mem := by
    have o : t ≠ k.current := by
      rintro rfl
      exact inv.current_not_mem mem
    rw [status_setStatus, if_neg o]
    exact inv.ready t mem
  unborn t created := by
    rw [status_setStatus]
    split
    · rfl
    · exact inv.unborn t created

theorem threadBlock (ran : k.threadBlock = some s') : ReadyInvariant s' := by
  obtain ⟨next, moved⟩ := switched_of_schedule ran
  exact inv.blockCurrent.switched moved

/-- A blocked thread that is unblocked, while nothing else changed. -/
theorem madeReady {t : Tid} (blocked : k.status t = .blocked)
    (born : t < k.threads) (made : Kernel.MadeReady k s' t) :
    ReadyInvariant s' := by
  refine ⟨inv.toReadyQueue.madeReady (by rw [blocked]; simp) born made, ?_⟩
  have o : k.current ≠ t := by
    rintro rfl
    rw [inv.running] at blocked
    cases blocked
  rw [made.current, made.status, if_neg o]
  exact inv.running

theorem congr (status : s'.status = k.status) (readyList : s'.readyList = k.readyList)
    (waiters : ∀ sema, ∀ t ∈ (s'.semaphore sema).waiters, t ∈ (k.semaphore sema).waiters)
    (idleThread : s'.idleThread = k.idleThread) (threads : s'.threads = k.threads)
    (cur : s'.current = k.current) : ReadyInvariant s' where
  toReadyQueue := inv.toReadyQueue.congr status readyList waiters idleThread threads
  running := by rw [status, cur]; exact inv.running

theorem quiet (quiet : Quiet k s') : ReadyInvariant s' :=
  inv.congr quiet.status quiet.readyList (fun sema _ mem => quiet.waiters sema ▸ mem)
    quiet.idleThread quiet.threads quiet.current

theorem pushWaiter (sema : SemaRef) : ReadyInvariant (k.pushWaiter sema) := by
  refine ⟨⟨inv.ready, inv.nodup, inv.unborn, inv.idleBorn, ?_⟩, inv.running⟩
  intro o t mem
  by_cases same : o = sema
  · subst same
    simp only [Kernel.pushWaiter, Kernel.setSemaphore_semaphore, update_self,
      mem_append, mem_singleton] at mem
    rcases mem with mem | rfl
    · exact inv.waitersBorn o t mem
    · exact inv.born
  · simp only [Kernel.pushWaiter, Kernel.setSemaphore_semaphore, update_of_ne same] at mem
    exact inv.waitersBorn o t mem

theorem removeWaiter (sema : SemaRef) (w : Tid) : ReadyInvariant (k.removeWaiter sema w) := by
  refine inv.congr rfl rfl (fun o t mem => ?_) rfl rfl rfl
  by_cases same : o = sema
  · subst same
    simp only [Kernel.removeWaiter, Kernel.setSemaphore_semaphore, update_self] at mem
    exact mem_of_mem_erase mem
  · simpa only [Kernel.removeWaiter, Kernel.setSemaphore_semaphore, update_of_ne same] using mem

theorem incrementValue (sema : SemaRef) : ReadyInvariant (k.incrementValue sema) := by
  refine inv.congr rfl rfl (fun o t mem => ?_) rfl rfl rfl
  by_cases same : o = sema
  · subst same
    simpa [Kernel.incrementValue] using mem
  · simpa [Kernel.incrementValue, same] using mem

theorem semaUp {sema : SemaRef} {highest : Int}
    (ran : k.semaUp sema = some (highest, s')) : ReadyInvariant s' := by
  rcases semaUp_cases ran with
    ⟨_, rfl⟩ | ⟨w, unblocked, mem, _, woken, rfl⟩
  · exact inv.incrementValue sema
  · obtain ⟨blocked, made⟩ := madeReady_of_threadUnblock woken
    have born := inv.waitersBorn sema w mem
    exact ((inv.removeWaiter sema w).madeReady blocked born made).incrementValue sema

theorem initThread {record : Thread} (blocked : record.status = .blocked) :
    ReadyInvariant { k.setThread k.threads record with
      threads := k.threads + 1 } := by
  have status := setThread_status_of_eq k k.threads record
    (blocked.trans (inv.unborn k.threads le_rfl).symm)
  have kept : ReadyInvariant (k.setThread k.threads record) :=
    inv.congr status rfl (fun _ _ mem => mem) rfl rfl rfl
  exact ⟨⟨kept.ready, kept.nodup, fun t made => kept.unborn t (le_of_succ_le made),
    lt_succ_of_lt kept.idleBorn,
    fun sema t mem => lt_succ_of_lt (kept.waitersBorn sema t mem)⟩, kept.running⟩

theorem createThread {prio : Int} (ran : k.createThread prio = some s') : ReadyInvariant s' := by
  unfold Kernel.createThread at ran
  split at ran
  · obtain ⟨blocked, made⟩ := madeReady_of_threadUnblock ran
    exact (inv.initThread rfl).madeReady blocked (lt_succ_self _) made
  · cases ran

theorem outcome {instr : Instr} {rest code : List Instr}
    (out : Outcome k rest instr s' code) : ReadyInvariant s' := by
  cases out with
  | quiet _ quiet => exact inv.quiet quiet
  | update t masked =>
    exact inv.congr (setThread_status_of_eq k t _ rfl) rfl (fun _ _ mem => mem) rfl rfl rfl
  | yield _ yields => exact inv.threadYield yields
  | enqueue sema _ blocks => exact (inv.pushWaiter sema).threadBlock blocks
  | blockAgain _ _ blocks | idle blocks => exact inv.threadBlock blocks
  | wake _ _ wakes => exact inv.semaUp wakes
  | create _ makes => exact inv.createThread makes

end

theorem step {s s' : Machine} {e : Event} (inv : ReadyInvariant s.toKernel)
    (ran : Threads.step s e = some s') : ReadyInvariant s'.toKernel := by
  cases e with
  | start op =>
    obtain ⟨_, rfl⟩ := code_of_start ran
    exact inv
  | run =>
    obtain ⟨instr, rest, k, left, _, eff, rfl⟩ := execute_of_run ran
    exact inv.outcome (outcome_of_execute eff)
  | timer =>
    obtain ⟨k, yields, rfl⟩ := threadYield_of_timer ran
    exact inv.threadYield yields

end ReadyInvariant

theorem readyInvariant_boot (values : Nat → Nat) : ReadyInvariant (boot values).toKernel := by
  refine ⟨⟨?_, nodup_nil, ?_, Nat.zero_lt_two, ?_⟩, rfl⟩
  · intro t mem
    cases mem
  · intro t made
    change 2 ≤ t at made
    have main : t ≠ 1 := by omega
    simp [status, boot, main, Threads.initThread]
  · intro sema t mem
    cases sema <;> cases mem

end Pintos.Threads
