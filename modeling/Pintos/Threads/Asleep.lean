import Pintos.Threads.ReadyList

/-!
# Threads asleep in `sema_down`

Which threads are blocked inside `sema_down`, on which semaphore, and how each step of the machine
changes that together with the queues of the semaphores.
-/

namespace Pintos.Threads

open Function List Kernel

/-- The semaphore in whose `sema_down` loop the code continues. -/
def waitsOf : List Instr → Option SemaRef
  | .semaDownTest sema :: _ => some sema
  | _ => none

/-- The semaphore in whose `sema_down` loop a thread is blocked. -/
def asleep (kernel : Kernel) (code : Tid → List Instr) (thread : Tid) : Option SemaRef :=
  if kernel.status thread = .blocked then waitsOf (code thread) else none

def Machine.asleep (machine : Machine) : Tid → Option SemaRef :=
  Threads.asleep machine.toKernel machine.code

section Asleep

variable {k s' : Kernel} {code : Tid → List Instr} {t : Tid}

theorem asleep_congr (status : s'.status = k.status) : asleep s' code = asleep k code := by
  unfold asleep
  rw [status]

theorem asleep_of_not_blocked (awake : k.status t ≠ .blocked) : asleep k code t = none :=
  if_neg awake

theorem asleep_moveCode (awake : k.status t ≠ .blocked) (left : List Instr) :
    asleep k (update code t left) = asleep k code := by
  funext o
  unfold asleep
  by_cases same : o = t
  · rw [same, if_neg awake, if_neg awake]
  · rw [update_of_ne same]

theorem asleep_switched {next : Tid} (quiet : asleep k code next = none)
    (moved : Kernel.Switched k s' next) : asleep s' code = asleep k code := by
  funext t
  by_cases same : t = next
  · rw [same, quiet]
    exact asleep_of_not_blocked (by rw [moved.status, if_pos rfl]; simp)
  · unfold asleep
    rw [moved.status, if_neg same]

theorem asleep_madeReady (made : Kernel.MadeReady k s' t) :
    asleep s' code = update (asleep k code) t none := by
  funext o
  by_cases same : o = t
  · rw [same, update_self]
    exact asleep_of_not_blocked (by rw [made.status, if_pos rfl]; simp)
  · rw [update_of_ne same]
    unfold asleep
    rw [made.status, if_neg same]

theorem asleep_setStatus_blocked (t : Tid) (left : List Instr) :
    asleep (k.setStatus t .blocked) (update code t left) =
      update (asleep k code) t (waitsOf left) := by
  funext o
  unfold asleep
  rw [status_setStatus]
  by_cases same : o = t
  · simp [same]
  · simp [same]

end Asleep

/-- The facts that hold in every run: the ready list, the code of the idle thread, and that threads
not yet created have no code. -/
structure MachineInvariant (m : Machine) : Prop where
  ready : ReadyInvariant m.toKernel
  idleCode : m.code m.idleThread = [.idleBlock]
  unbornCode : ∀ t, m.threads ≤ t → m.code t = []

theorem machineInvariant_boot (values : Nat → Nat) : MachineInvariant (boot values) := by
  refine ⟨readyInvariant_boot values, rfl, ?_⟩
  intro t made
  change 2 ≤ t at made
  have idle : t ≠ 0 := by omega
  simp [boot, idle]

namespace MachineInvariant

variable {s s' : Machine} {code : Tid → List Instr} {k : Kernel}

section

variable (inv : MachineInvariant s)
include inv

theorem asleep_current : s.asleep s.current = none :=
  asleep_of_not_blocked (by rw [inv.ready.running]; simp)

theorem awake : s.status s.current ≠ .blocked := by
  rw [inv.ready.running]
  simp

theorem current_ne_idle (code : s.code s.current ≠ [.idleBlock]) : s.current ≠ s.idleThread := by
  intro idle
  rw [idle] at code
  exact code inv.idleCode

end

/-- The thread picked by a switch is not asleep, whatever the running thread is left with. -/
theorem asleep_next {moved : Kernel} {next : Tid} (queue : ReadyQueue k)
    (idle : waitsOf (code k.idleThread) = none)
    (switches : Kernel.Switched k moved next) : asleep k code next = none := by
  rcases queue.next_of_switched switches with ready | rfl
  · exact asleep_of_not_blocked (by rw [ready]; simp)
  · unfold asleep
    rw [idle, ite_self]

theorem asleep_threadYield {yielded : Kernel} (ready : ReadyInvariant k)
    (idle : waitsOf (code k.idleThread) = none) (yields : k.threadYield = some yielded) :
    asleep yielded code = asleep k code := by
  obtain ⟨next, moved⟩ := switched_of_schedule yields
  have made := madeReady_queueCurrent k
  rw [← made.idleThread] at idle
  rw [asleep_switched (asleep_next ready.queueCurrent idle moved) moved, asleep_madeReady made]
  refine update_eq_self_iff.mpr ?_
  exact (asleep_of_not_blocked (by rw [ready.running]; simp)).symm

/-- `thread_block` puts the running thread to sleep in the loop it is left with. -/
theorem asleep_threadBlock {blocked : Kernel} {left : List Instr} (ready : ReadyInvariant k)
    (idle : waitsOf (update code k.current left k.idleThread) = none)
    (blocks : k.threadBlock = some blocked) :
    asleep blocked (update code k.current left) =
      update (asleep k code) k.current (waitsOf left) := by
  obtain ⟨next, moved⟩ := switched_of_schedule blocks
  rw [asleep_switched (asleep_next ready.blockCurrent idle moved) moved, asleep_setStatus_blocked]

end MachineInvariant

theorem Outcome.threads_le {k s' : Kernel} {rest code : List Instr} {instr : Instr}
    (out : Outcome k rest instr s' code) : k.threads ≤ s'.threads := by
  cases out with
  | quiet _ quiet => exact quiet.threads.ge
  | update => exact le_rfl
  | yield _ yields =>
    obtain ⟨next, moved⟩ := switched_of_schedule yields
    exact (moved.threads.trans (madeReady_queueCurrent k).threads).ge
  | enqueue _ _ blocks | blockAgain _ _ blocks | idle blocks =>
    obtain ⟨next, moved⟩ := switched_of_schedule blocks
    exact moved.threads.ge
  | wake _ _ wakes =>
    rcases semaUp_cases wakes with ⟨_, rfl⟩ | ⟨w, unblocked, _, _, woken, rfl⟩
    · exact le_rfl
    · exact (madeReady_of_threadUnblock woken).2.threads.ge
  | create prio makes =>
    unfold createThread at makes
    split at makes
    · have made := (madeReady_of_threadUnblock makes).2
      rw [made.threads]
      exact Nat.le_succ _
    · cases makes

theorem threads_le_step {s s' : Machine} {e : Event}
    (ran : step s e = some s') : s.threads ≤ s'.threads := by
  cases e with
  | start op =>
    obtain ⟨_, rfl⟩ := code_of_start ran
    exact le_rfl
  | run =>
    obtain ⟨instr, rest, k, left, _, eff, rfl⟩ := execute_of_run ran
    exact (outcome_of_execute eff).threads_le
  | timer =>
    obtain ⟨k, yields, rfl⟩ := threadYield_of_timer ran
    have out : Outcome s.toKernel [] .threadYield k [] := .yield (by simp) yields
    exact out.threads_le

namespace MachineInvariant

variable {s s' : Machine}

/-- The idle thread keeps its code when the running thread moves on from a section. -/
theorem idleCode_after {instr : Instr} {rest left : List Instr} {k : Kernel}
    (inv : MachineInvariant s) (code : s.code s.current = instr :: rest)
    (out : Outcome s.toKernel rest instr k left) :
    update s.code s.current left s.idleThread = [.idleBlock] := by
  by_cases same : s.idleThread = s.current
  · rw [same, update_self]
    have idle := inv.idleCode
    rw [same, code] at idle
    obtain ⟨rfl, rfl⟩ := cons.inj idle
    cases out with
    | quiet ne => exact (ne rfl).elim
    | yield ne => exact (ne rfl).elim
    | idle => rfl
  · rw [update_of_ne same]
    exact inv.idleCode

theorem step {e : Event} (inv : MachineInvariant s)
    (ran : Threads.step s e = some s') : MachineInvariant s' := by
  have ready := inv.ready.step ran
  have unborn_update : ∀ left t, s.threads ≤ t → update s.code s.current left t = [] := by
    intro left t created
    have o : t ≠ s.current := by
      rintro rfl
      exact (Nat.not_le.mpr inv.ready.born) created
    rw [update_of_ne o]
    exact inv.unbornCode t created
  cases e with
  | start op =>
    obtain ⟨empty, rfl⟩ := code_of_start ran
    refine ⟨ready, ?_, unborn_update _⟩
    have ne := inv.current_ne_idle (by rw [empty]; simp)
    exact (update_of_ne ne.symm _ _).trans inv.idleCode
  | run =>
    obtain ⟨instr, rest, k, left, code, eff, rfl⟩ := execute_of_run ran
    have out := outcome_of_execute eff
    refine ⟨ready, ?_, ?_⟩
    · change update s.code s.current left k.idleThread = _
      rw [out.idleThread]
      exact inv.idleCode_after code out
    · intro t created
      exact unborn_update left t (out.threads_le.trans created)
  | timer =>
    obtain ⟨k, yields, rfl⟩ := threadYield_of_timer ran
    obtain ⟨next, moved⟩ := switched_of_schedule yields
    have made := madeReady_queueCurrent s.toKernel
    refine ⟨ready, ?_, ?_⟩
    · change s.code k.idleThread = _
      rw [moved.idleThread, made.idleThread]
      exact inv.idleCode
    · intro t created
      change k.threads ≤ t at created
      rw [moved.threads, made.threads] at created
      exact inv.unbornCode t created

end MachineInvariant

/-- How a step changes who sleeps and who is queued. -/
inductive SleepStep (s : Machine) (e : Event) (s' : Machine) : Prop
  | same (asleep : s'.asleep = s.asleep)
      (waiters : ∀ sema, (s'.semaphore sema).waiters = (s.semaphore sema).waiters)
  | enqueue (sema : SemaRef) (asleep : s'.asleep = update s.asleep s.current (some sema))
      (waiters : ∀ other, (s'.semaphore other).waiters =
        (s.semaphore other).waiters ++ if other = sema then [s.current] else [])
  | again (sema : SemaRef) (rest : List Instr) (running : e = .run)
      (code : s.code s.current = .semaDownTest sema :: rest)
      (zero : (s.semaphore sema).value = 0)
      (asleep : s'.asleep = update s.asleep s.current (some sema))
      (waiters : ∀ other, (s'.semaphore other).waiters = (s.semaphore other).waiters)
  | wake (sema : SemaRef) (w : Tid) (member : w ∈ (s.semaphore sema).waiters)
      (asleep : s'.asleep = update s.asleep w none)
      (waiters : ∀ other, (s'.semaphore other).waiters =
        if other = sema then (s.semaphore other).waiters.erase w
        else (s.semaphore other).waiters)

namespace MachineInvariant

variable {s s' : Machine} (inv : MachineInvariant s)
include inv

/-- A woken thread that blocks again sleeps, and no queue changes. -/
theorem blockAgain {sema : SemaRef} {rest : List Instr} {blocked : Kernel}
    (code : s.code s.current = .semaDownTest sema :: rest)
    (blocks : s.toKernel.threadBlock = some blocked) : Threads.asleep blocked
        (update s.code s.current (.semaDownTest sema :: rest)) =
      update s.asleep s.current (some sema) ∧ blocked.semaphore = s.semaphore := by
  constructor
  · refine asleep_threadBlock inv.ready ?_ blocks
    have ne := inv.current_ne_idle (by rw [code]; simp)
    rw [update_of_ne ne.symm, inv.idleCode]
    rfl
  · obtain ⟨next, moved⟩ := switched_of_schedule blocks
    exact moved.semaphore

theorem createThread {prio : Int} {created : Kernel} (left : List Instr)
    (makes : s.toKernel.createThread prio = some created) :
    Threads.asleep created (update s.code s.current left) = s.asleep ∧
      created.semaphore = s.semaphore := by
  unfold Kernel.createThread at makes
  split at makes
  · obtain ⟨_, made⟩ := madeReady_of_threadUnblock makes
    refine ⟨?_, made.semaphore⟩
    have status := setThread_status_of_eq s.toKernel s.threads
      (Threads.initThread .blocked prio) (inv.ready.unborn s.threads le_rfl).symm
    have moved : Threads.asleep s.toKernel (update s.code s.current left) =
        s.asleep := asleep_moveCode inv.awake left
    refine (asleep_madeReady made).trans ?_
    refine (update_eq_self_iff.mpr ?_).trans ((asleep_congr status).trans moved)
    have o : s.threads ≠ s.current := Nat.ne_of_gt inv.ready.born
    unfold Threads.asleep
    rw [update_of_ne o, inv.unbornCode s.threads le_rfl, show waitsOf [] = none from rfl, ite_self]
  · cases makes

/-- One section changes sleepers and queues as `SleepStep` says. -/
theorem sleepStep_of_outcome {instr : Instr} {rest left : List Instr} {k : Kernel}
    (code : s.code s.current = instr :: rest)
    (out : Outcome s.toKernel rest instr k left) : SleepStep s .run
      { k with code := update s.code s.current left } := by
  have idle : waitsOf (update s.code s.current left s.idleThread) = none := by
    rw [inv.idleCode_after code out]
    rfl
  have moved : Threads.asleep s.toKernel (update s.code s.current left) =
      s.asleep := asleep_moveCode inv.awake left
  cases out with
  | quiet _ quiet => exact .same ((asleep_congr quiet.status).trans moved) quiet.waiters
  | update t masked =>
    have status := setThread_status_of_eq s.toKernel t
      { s.thread t with priority := s.activePriority t } rfl
    exact .same ((asleep_congr status).trans moved) fun _ => rfl
  | yield _ yields =>
    refine .same ((asleep_threadYield inv.ready idle yields).trans moved) ?_
    obtain ⟨next, swapped⟩ := switched_of_schedule yields
    intro sema
    change (k.semaphore sema).waiters = _
    rw [swapped.semaphore, (madeReady_queueCurrent s.toKernel).semaphore]
  | enqueue sema _ blocks =>
    have asleep := asleep_threadBlock (inv.ready.pushWaiter sema) idle blocks
    refine .enqueue sema asleep ?_
    obtain ⟨next, swapped⟩ := switched_of_schedule blocks
    intro o
    change (k.semaphore o).waiters = _
    rw [swapped.semaphore]
    by_cases same : o = sema
    · simp [pushWaiter, same]
    · simp [pushWaiter, same]
  | blockAgain sema zero blocks =>
    obtain ⟨asleep, semaphore⟩ := inv.blockAgain code blocks
    refine .again sema rest rfl code zero asleep fun o => ?_
    change (k.semaphore o).waiters = _
    rw [semaphore]
  | wake sema highest wakes =>
    rcases semaUp_cases wakes with ⟨_, rfl⟩ | ⟨w, unblocked, mem, _, woken, rfl⟩
    · refine .same moved fun o => ?_
      by_cases same : o = sema
      · simp [incrementValue, same]
      · simp [incrementValue, same]
    · obtain ⟨_, made⟩ := madeReady_of_threadUnblock woken
      refine .wake sema w mem ?_ fun o => ?_
      · have woke : Threads.asleep unblocked (update s.code s.current left) =
            update (Threads.asleep (s.removeWaiter sema w) _) w none :=
          asleep_madeReady made
        rw [← moved]
        exact woke
      · by_cases same : o = sema
        · simp [incrementValue, made.semaphore, removeWaiter, same]
        · simp [incrementValue, made.semaphore, removeWaiter, same]
  | create priority makes =>
    obtain ⟨asleep, semaphore⟩ := inv.createThread left makes
    refine .same asleep fun sema => ?_
    change (k.semaphore sema).waiters = _
    rw [semaphore]
  | idle blocks =>
    refine .same ?_ ?_
    · refine (asleep_threadBlock inv.ready idle blocks).trans ?_
      exact update_eq_self_iff.mpr inv.asleep_current.symm
    · obtain ⟨next, swapped⟩ := switched_of_schedule blocks
      intro o
      change (k.semaphore o).waiters = _
      rw [swapped.semaphore]
      rfl

theorem sleepStep {e : Event} (ran : Threads.step s e = some s') : SleepStep s e s' := by
  cases e with
  | start op =>
    obtain ⟨_, rfl⟩ := code_of_start ran
    exact .same (asleep_moveCode inv.awake _) fun _ => rfl
  | run =>
    obtain ⟨instr, rest, k, left, code, eff, rfl⟩ := execute_of_run ran
    exact inv.sleepStep_of_outcome code (outcome_of_execute eff)
  | timer =>
    obtain ⟨k, yields, rfl⟩ := threadYield_of_timer ran
    have idle : waitsOf (s.code s.idleThread) = none := by
      rw [inv.idleCode]
      rfl
    refine .same (asleep_threadYield inv.ready idle yields) ?_
    obtain ⟨next, moved⟩ := switched_of_schedule yields
    intro sema
    change (k.semaphore sema).waiters = _
    rw [moved.semaphore, (madeReady_queueCurrent s.toKernel).semaphore]

end MachineInvariant

/-- Every queued thread sleeps on the semaphore that queues it, and is queued once. -/
structure WaitersInvariant (m : Machine) : Prop where
  asleep : ∀ sema, ∀ t ∈ (m.semaphore sema).waiters, m.asleep t = some sema
  nodup : ∀ sema, (m.semaphore sema).waiters.Nodup

theorem waitersInvariant_boot (values : Nat → Nat) : WaitersInvariant (boot values) := by
  constructor
  · intro sema t mem
    cases sema <;> cases mem
  · intro sema
    cases sema <;> exact nodup_nil

theorem WaitersInvariant.congr {s s' : Machine} (waiters : WaitersInvariant s)
    (asleep : s'.asleep = s.asleep)
    (queues : ∀ sema, (s'.semaphore sema).waiters = (s.semaphore sema).waiters) :
    WaitersInvariant s' := by
  constructor
  · intro sema
    rw [queues, asleep]
    exact waiters.asleep sema
  · intro sema
    rw [queues]
    exact waiters.nodup sema

theorem WaitersInvariant.current_not_mem {m : Machine} (waiters : WaitersInvariant m)
    (inv : MachineInvariant m) (sema : SemaRef) :
    m.current ∉ (m.semaphore sema).waiters := by
  intro mem
  have sleeps := waiters.asleep sema m.current mem
  rw [inv.asleep_current] at sleeps
  cases sleeps

theorem WaitersInvariant.step {s s' : Machine} {e : Event}
    (waiters : WaitersInvariant s) (inv : MachineInvariant s)
    (ran : Threads.step s e = some s') : WaitersInvariant s' := by
  have absent := waiters.current_not_mem inv
  cases inv.sleepStep ran with
  | same asleep queues => exact waiters.congr asleep queues
  | enqueue sema asleep queues =>
    constructor
    · intro o t mem
      rw [queues] at mem
      rw [asleep]
      rcases mem_append.mp mem with before_mem | new
      · have ne : t ≠ s.current := by
          rintro rfl
          exact absent o before_mem
        rw [update_of_ne ne]
        exact waiters.asleep o t before_mem
      · split at new
        · rename_i same
          obtain rfl := mem_singleton.mp new
          rw [update_self, same]
        · cases new
    · intro o
      rw [queues]
      split
      · exact nodup_append.mpr ⟨waiters.nodup o, nodup_singleton _, by
          rintro fst first_mem snd second_mem rfl
          exact absent o (mem_singleton.mp second_mem ▸ first_mem)⟩
      · rw [append_nil]
        exact waiters.nodup o
  | again sema rest _ _ _ asleep queues =>
    constructor
    · intro o t mem
      rw [queues] at mem
      have ne : t ≠ s.current := by
        rintro rfl
        exact absent o mem
      rw [asleep, update_of_ne ne]
      exact waiters.asleep o t mem
    · intro o
      rw [queues]
      exact waiters.nodup o
  | wake sema w mem asleep queues =>
    constructor
    · intro o t queued
      rw [queues] at queued
      rw [asleep]
      split at queued
      · obtain ⟨ne, queued⟩ := (waiters.nodup o).mem_erase_iff.mp queued
        rw [update_of_ne ne]
        exact waiters.asleep o t queued
      · rename_i different
        have ne : t ≠ w := by
          rintro rfl
          have fst := waiters.asleep sema t mem
          rw [waiters.asleep o t queued] at fst
          exact different (Option.some.inj fst)
        rw [update_of_ne ne]
        exact waiters.asleep o t queued
    · intro o
      rw [queues]
      split
      · exact (waiters.nodup o).erase w
      · exact waiters.nodup o

/-! ## Who is blocked -/

namespace ReadyInvariant

variable {k s' : Kernel} {t : Tid}

/-- A switch takes a thread that was ready, or the idle thread. -/
theorem blocked_switched {next : Tid} (queue : ReadyQueue k)
    (moved : Kernel.Switched k s' next) (notIdle : t ≠ k.idleThread) :
    s'.status t = .blocked ↔ k.status t = .blocked := by
  rw [moved.status]
  split
  · rename_i same
    subst same
    have ready := (queue.next_of_switched moved).resolve_right notIdle
    simp [ready]
  · rfl

theorem blocked_threadYield (ready : ReadyInvariant k)
    (yields : k.threadYield = some s') (notIdle : t ≠ k.idleThread) :
    s'.status t = .blocked ↔ k.status t = .blocked := by
  obtain ⟨next, moved⟩ := switched_of_schedule yields
  have made := madeReady_queueCurrent k
  rw [blocked_switched ready.queueCurrent moved (made.idleThread ▸ notIdle), made.status]
  split
  · rename_i same
    simp [same, ready.running]
  · rfl

theorem blocked_threadBlock (ready : ReadyInvariant k)
    (blocks : k.threadBlock = some s') (notIdle : t ≠ k.idleThread) :
    s'.status t = .blocked ↔ k.status t = .blocked ∨ t = k.current := by
  obtain ⟨next, moved⟩ := switched_of_schedule blocks
  rw [blocked_switched ready.blockCurrent moved notIdle, status_setStatus]
  split
  · rename_i same
    simp [same]
  · rename_i o
    simp [o]

end ReadyInvariant

/-- A thread between operations is blocked and unblocked by none of the operations of others. -/
theorem MachineInvariant.blocked_step {s s' : Machine} {e : Event} {t : Tid}
    (inv : MachineInvariant s) (waiters : WaitersInvariant s)
    (born : t < s.threads) (mid : s.code t = [])
    (paused : t ≠ s.current ∨ e = .timer)
    (ran : Threads.step s e = some s') :
    s'.status t = .blocked ↔ s.status t = .blocked := by
  have notIdle : t ≠ s.idleThread := by
    rintro rfl
    rw [inv.idleCode] at mid
    cases mid
  cases e with
  | start op =>
    obtain ⟨_, rfl⟩ := code_of_start ran
    rfl
  | timer =>
    obtain ⟨k, yields, rfl⟩ := threadYield_of_timer ran
    exact inv.ready.blocked_threadYield yields notIdle
  | run =>
    obtain ⟨instr, rest, k, left, code, eff, rfl⟩ := execute_of_run ran
    have o : t ≠ s.current := paused.resolve_right (by simp)
    change k.status t = .blocked ↔ _
    cases outcome_of_execute eff with
    | quiet _ quiet => rw [quiet.status]
    | update target masked =>
      have status := setThread_status_of_eq s.toKernel target
        { s.thread target with priority := s.activePriority target } rfl
      exact (congrArg (· t = .blocked) status).to_iff
    | yield _ yields => exact inv.ready.blocked_threadYield yields notIdle
    | enqueue sema _ blocks =>
      rw [(inv.ready.pushWaiter sema).blocked_threadBlock blocks notIdle]
      exact or_iff_left o
    | blockAgain _ _ blocks | idle blocks =>
      rw [inv.ready.blocked_threadBlock blocks notIdle]
      exact or_iff_left o
    | wake sema _ wakes =>
      rcases semaUp_cases wakes with ⟨_, rfl⟩ | ⟨w, unblocked, mem, _, woken, rfl⟩
      · rfl
      · have asleep := waiters.asleep sema w mem
        have awake : t ≠ w := by
          rintro rfl
          rw [Machine.asleep, Threads.asleep, mid] at asleep
          split at asleep <;> cases asleep
        have status := (madeReady_of_threadUnblock woken).2.status t
        rw [if_neg awake] at status
        exact (congrArg (· = .blocked) status).to_iff
    | create priority makes =>
      unfold Kernel.createThread at makes
      split at makes
      · have made := (madeReady_of_threadUnblock makes).2
        have old : t ≠ s.threads := Nat.ne_of_lt born
        rw [made.status, if_neg old]
        exact (congrArg (· = .blocked) ((status_setThread _ _ _ _).trans (if_neg old))).to_iff
      · cases makes

end Pintos.Threads
