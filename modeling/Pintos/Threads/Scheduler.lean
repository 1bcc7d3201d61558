import Pintos.Threads.ReadyList

/-!
# The most urgent thread runs

`next_thread_to_run` takes the head of the ready list, so it takes a most urgent thread exactly as
long as the list is sorted.  The two insertion loops keep it sorted.  A donation to a queued thread
changes a priority inside the list without moving the thread; a run in which no such recomputation
passes a neighbour always schedules a most urgent thread.
-/

namespace Pintos.Threads

open Kernel

/-- `next_thread_to_run` takes a thread of maximal effective priority from a non-empty list. -/
def TakesMostUrgent (k : Kernel) : Prop :=
  k.readyList ≠ [] → ∀ t ∈ k.readyList, k.priority t ≤ k.priority k.nextThreadToRun.1

/-- Both calls of `next_thread_to_run` do: from `thread_block`, and from `thread_yield` after the
running thread has been queued. -/
def SchedulesMostUrgent (m : Machine) : Prop :=
  TakesMostUrgent m.toKernel ∧ TakesMostUrgent m.toKernel.queueCurrent

/-- If the thread is queued, the priority `updateActivePriority` gives it exceeds no priority queued
in front of it and is exceeded by none queued behind it. -/
def Kernel.FitsPlace (k : Kernel) (t : Tid) : Prop :=
  k.readyList.Pairwise fun front back =>
    (back = t → k.activePriority t ≤ k.priority front) ∧
      (front = t → k.priority back ≤ k.activePriority t)

instance (k : Kernel) (t : Tid) : Decidable (k.FitsPlace t) :=
  inferInstanceAs (Decidable (List.Pairwise _ _))

/-- A priority that this step recomputes fits its thread's place in the ready list. -/
def UpdateKeepsPlace (m : Machine) : Event → Prop
  | .run =>
    match m.code m.current with
    | .updateActivePriority t _ :: _ => m.FitsPlace t
    | _ => True
  | _ => True

/-- The thread whose priority this step recomputes. -/
def Machine.recomputed (m : Machine) : Event → Option Tid
  | .run =>
    match m.code m.current with
    | .updateActivePriority t _ :: _ => some t
    | _ => none
  | _ => none

theorem updateKeepsPlace_iff (m : Machine) (e : Event) :
    (m.recomputed e).all (fun t => decide (m.FitsPlace t)) = true ↔ UpdateKeepsPlace m e := by
  unfold Machine.recomputed UpdateKeepsPlace
  cases e with
  | run =>
    rcases m.code m.current with _ | ⟨instr, _⟩
    · simp
    · cases instr <;> simp
  | _ => simp

instance (m : Machine) (e : Event) : Decidable (UpdateKeepsPlace m e) :=
  decidable_of_iff _ (updateKeepsPlace_iff m e)

/-- The ready list is sorted by non-increasing priority. -/
def ReadySorted (k : Kernel) : Prop :=
  k.readyList.Pairwise fun front back => k.priority back ≤ k.priority front

namespace ReadySorted

variable {k s' : Kernel} {t : Tid}

theorem takesMostUrgent (sorted : ReadySorted k) : TakesMostUrgent k := by
  intro ne_nil t mem
  unfold nextThreadToRun
  cases list : k.readyList with
  | nil => exact (ne_nil list).elim
  | cons next rest =>
    unfold ReadySorted at sorted
    rw [list] at sorted mem
    rcases List.mem_cons.mp mem with rfl | later
    · exact le_rfl
    · exact List.rel_of_pairwise_cons sorted later

variable (sorted : ReadySorted k)
include sorted

theorem insertUnblocked (t : Tid) : (k.insertUnblocked t).Pairwise fun front back =>
      k.priority back ≤ k.priority front := by
  refine pairwise_orderedInsert ?_ ?_ sorted
  · intro queued _ goes
    exact (not_le.mp goes).le
  · intro queued _ stops
    exact ⟨stops, fun _ order => order.trans stops⟩

theorem insertYielding (t : Tid) : (k.insertYielding t).Pairwise fun front back =>
      k.priority back ≤ k.priority front := by
  refine pairwise_orderedInsert ?_ ?_ sorted
  · intro queued _ goes
    exact not_lt.mp goes
  · intro queued _ stops
    exact ⟨le_of_lt stops, fun _ order => order.trans (le_of_lt stops)⟩

theorem madeReady (made : Kernel.MadeReady k s' t) : ReadySorted s' := by
  unfold ReadySorted
  rw [made.priority]
  rcases made.readyList with ⟨same, _⟩ | inserted | inserted
  · rw [same]
    exact sorted
  · rw [inserted]
    exact sorted.insertUnblocked t
  · rw [inserted]
    exact sorted.insertYielding t

theorem switched {next : Tid} (moved : Kernel.Switched k s' next) : ReadySorted s' := by
  unfold ReadySorted at sorted ⊢
  rw [moved.priority]
  rcases moved.readyList with list | ⟨_, empty, _⟩
  · rw [list] at sorted
    exact sorted.of_cons
  · rw [empty]
    exact List.Pairwise.nil

theorem threadYield (ran : k.threadYield = some s') : ReadySorted s' := by
  obtain ⟨next, moved⟩ := switched_of_schedule ran
  exact (sorted.madeReady (madeReady_queueCurrent k)).switched moved

theorem congr (readyList : s'.readyList = k.readyList)
    (prio : ∀ t ∈ k.readyList, s'.priority t = k.priority t) :
    ReadySorted s' := by
  unfold ReadySorted at sorted ⊢
  rw [readyList]
  refine sorted.imp_of_mem ?_
  intro front back front_mem back_mem order
  rw [prio front front_mem, prio back back_mem]
  exact order

theorem threadBlock (ran : k.threadBlock = some s') : ReadySorted s' := by
  obtain ⟨next, moved⟩ := switched_of_schedule ran
  refine (sorted.congr ?_ ?_).switched moved
  · rfl
  · intro t _
    rw [priority_setStatus]

theorem semaUp {sema : SemaRef} {highest : Int}
    (ran : k.semaUp sema = some (highest, s')) : ReadySorted s' := by
  rcases semaUp_cases ran with ⟨_, rfl⟩ | ⟨w, unblocked, _, _, woken, rfl⟩
  · exact sorted.congr rfl fun _ _ => rfl
  · obtain ⟨_, made⟩ := madeReady_of_threadUnblock woken
    have gone : ReadySorted (k.removeWaiter sema w) := sorted.congr rfl fun _ _ => rfl
    exact (gone.madeReady made).congr rfl fun _ _ => rfl

theorem createThread {prio : Int} (inv : ReadyInvariant k)
    (ran : k.createThread prio = some s') : ReadySorted s' := by
  unfold Kernel.createThread at ran
  split at ran
  · obtain ⟨_, made⟩ := Kernel.madeReady_of_threadUnblock ran
    refine ReadySorted.madeReady ?_ made
    refine sorted.congr rfl fun t mem => ?_
    have born : t ≠ k.threads := by
      rintro rfl
      have ready := inv.ready _ mem
      rw [inv.unborn _ le_rfl] at ready
      cases ready
    simp [Kernel.priority, born]
  · cases ran

/-- A recomputed priority that fits its place keeps the list sorted. -/
theorem update (fits : k.FitsPlace t) : ReadySorted (k.assignActivePriority t) := by
  refine (List.Pairwise.and sorted fits).imp ?_
  rintro front back ⟨order, in_front, behind⟩
  rw [priority_assignActivePriority, priority_assignActivePriority]
  split
  · rename_i back_eq
    split
    · exact le_rfl
    · exact in_front back_eq
  · split
    · rename_i front_eq
      exact behind front_eq
    · exact order

end ReadySorted

/-- The machine keeps a sorted ready list while recomputed priorities fit their place. -/
theorem ReadySorted.step {s s' : Machine} {e : Event}
    (sorted : ReadySorted s.toKernel) (inv : ReadyInvariant s.toKernel)
    (cond : UpdateKeepsPlace s e)
    (ran : Threads.step s e = some s') : ReadySorted s'.toKernel := by
  cases e with
  | start op =>
    obtain ⟨_, rfl⟩ := code_of_start ran
    exact sorted
  | run =>
    obtain ⟨instr, rest, k, left, code, eff, rfl⟩ := execute_of_run ran
    cases outcome_of_execute eff with
    | quiet _ quiet =>
      exact sorted.congr quiet.readyList fun t _ => congrFun quiet.priority t
    | update t masked =>
      rw [UpdateKeepsPlace, code] at cond
      exact sorted.update cond
    | yield _ yields => exact sorted.threadYield yields
    | enqueue sema _ blocks =>
      have queued : ReadySorted (s.toKernel.pushWaiter sema) := sorted.congr rfl fun _ _ => rfl
      exact queued.threadBlock blocks
    | blockAgain _ _ blocks | idle blocks => exact sorted.threadBlock blocks
    | wake _ _ wakes => exact sorted.semaUp wakes
    | create _ makes => exact sorted.createThread inv makes
  | timer =>
    obtain ⟨k, yields, rfl⟩ := threadYield_of_timer ran
    exact sorted.threadYield yields

/-- In a run whose recomputed priorities all fit their place in the ready list, the scheduler always
takes a most urgent thread. -/
theorem schedulesMostUrgent_of_updateKeepsPlace (values : Nat → Nat) (events : List Event)
    (condition : Execution.Meets step UpdateKeepsPlace (boot values) events) :
    Execution.Along step SchedulesMostUrgent (boot values) events := by
  let inv : Machine → Prop := fun machine =>
    ReadyInvariant machine.toKernel ∧ ReadySorted machine.toKernel
  have start : inv (boot values) := ⟨readyInvariant_boot values, List.Pairwise.nil⟩
  refine Execution.along_of_meets start ?_ ?_ condition
  · rintro old event after ⟨ready, sorted⟩ place ran
    exact ⟨ready.step ran, sorted.step ready place ran⟩
  · rintro machine ⟨ready, sorted⟩
    exact ⟨sorted.takesMostUrgent,
      (sorted.madeReady (Kernel.madeReady_queueCurrent machine.toKernel)).takesMostUrgent⟩

/-- `main` takes a lock and creates a thread of priority 63 that waits for it, so that `main`, alone
in the ready list, gets a donation. -/
theorem schedulesMostUrgent_single_donation :
    let events : List Event := .start (.lockAcquire 1) :: List.replicate 4 .run ++
      .start (.threadCreate 63) :: List.replicate 10 .run ++
      .start (.lockAcquire 1) :: List.replicate 4 .run
    (Execution.run step (boot fun _ => 0) events).isSome ∧
      Execution.Meets step UpdateKeepsPlace (boot fun _ => 0) events ∧
      Execution.Along step SchedulesMostUrgent (boot fun _ => 0) events := by
  intro events
  have cond : Execution.Meets step UpdateKeepsPlace (boot fun _ => 0) events := by decide
  exact ⟨by decide, cond, schedulesMostUrgent_of_updateKeepsPlace _ _ cond⟩

/-- `main` takes a lock and creates a thread of priority 40, which creates one of priority 63; that
one waits for the lock and donates to `main`, which is queued behind the thread of priority 40. -/
def donationToQueued : List Event :=
  .start (.lockAcquire 1) :: List.replicate 4 .run ++
    .start (.threadCreate 40) :: List.replicate 10 .run ++
    .start (.threadCreate 63) :: List.replicate 10 .run ++
    .start (.lockAcquire 1) :: List.replicate 3 .run

/-- After the donation the scheduler would take the thread of priority 40 before `main`. -/
theorem donationToQueued_misorders :
    ∃ final, Execution.run step (boot fun _ => 0) donationToQueued = some final ∧
      ¬ SchedulesMostUrgent final := by
  refine ⟨(Execution.run step (boot fun _ => 0) donationToQueued).get (by decide), ?_, ?_⟩
  · rw [Option.some_get]
  · rintro ⟨blocking, -⟩
    have misordered := blocking (by decide) 1 (by decide)
    revert misordered
    decide

end Pintos.Threads
