import Pintos.Threads.Asleep

/-!
# Waiters of a semaphore

`sema_down` queues its thread once, before the loop that blocks it.  A thread that is woken and
finds the value taken again blocks without being queued.  This file proves that this is the only
way in which a blocked thread leaves the queue of its semaphore: a run keeps every waiter queued
exactly when each woken thread finds a positive value.
-/

namespace Pintos.Threads

open Function

/-- Every thread blocked inside `sema_down` is queued exactly once. -/
def NoLostWaiter (m : Machine) : Prop :=
  ∀ t sema, m.asleep t = some sema → (m.semaphore sema).waiters.count t = 1

/-- A thread that returns from `thread_block` inside `sema_down` finds a positive value. -/
def RetestSucceeds (m : Machine) (e : Event) : Prop :=
  ∀ sema, e = .run → waitsOf (m.code m.current) = some sema → 0 < (m.semaphore sema).value

/-- Sleepers are queued and queued threads sleep. -/
structure QueueInvariant (m : Machine) : Prop where
  base : MachineInvariant m
  waiters : WaitersInvariant m
  queued : ∀ t sema, m.asleep t = some sema → t ∈ (m.semaphore sema).waiters

namespace QueueInvariant

variable {s s' : Machine} {e : Event} (inv : QueueInvariant s)
include inv

theorem noLostWaiter : NoLostWaiter s := fun t sema sleeps =>
    List.count_eq_one_of_mem (inv.waiters.nodup sema) (inv.queued t sema sleeps)

/-- A step after which the woken thread has found a positive value keeps sleepers queued. -/
theorem step (cond : RetestSucceeds s e)
    (ran : Threads.step s e = some s') : QueueInvariant s' := by
  refine ⟨inv.base.step ran, inv.waiters.step inv.base ran, ?_⟩
  intro t sema sleeps
  cases inv.base.sleepStep ran with
  | same asleep queues =>
    rw [asleep] at sleeps
    rw [queues]
    exact inv.queued t sema sleeps
  | enqueue entered asleep queues =>
    rw [queues]
    by_cases cur : t = s.current
    · rw [asleep, cur, update_self] at sleeps
      rw [if_pos (Option.some.inj sleeps).symm, cur]
      exact List.mem_append_right _ List.mem_cons_self
    · rw [asleep, update_of_ne cur] at sleeps
      exact List.mem_append_left _ (inv.queued t sema sleeps)
  | again entered rest runs code zero _ _ =>
    have pos := cond entered runs (by rw [code]; rfl)
    omega
  | wake raised w _ asleep queues =>
    rw [asleep] at sleeps
    have o : t ≠ w := by
      rintro rfl
      rw [update_self] at sleeps
      cases sleeps
    rw [update_of_ne o] at sleeps
    have mem := inv.queued t sema sleeps
    rw [queues]
    split
    · exact (List.mem_erase_of_ne o).mpr mem
    · exact mem

/-- A woken thread that finds a zero value blocks outside the queue. -/
theorem retest_of_noLostWaiter (ran : Threads.step s e = some s')
    (kept : NoLostWaiter s') : RetestSucceeds s e := by
  rintro sema rfl waits
  by_contra zero
  obtain ⟨instr, rest, k, left, code, eff, rfl⟩ := execute_of_run ran
  obtain rfl : instr = .semaDownTest sema := by
    rw [code] at waits
    cases instr <;> simp [waitsOf] at waits
    rw [waits]
  simp only [execute, zero, if_false] at eff
  obtain ⟨blocked, blocks, eq⟩ := Option.map_eq_some_iff.mp eff
  obtain ⟨rfl, rfl⟩ := Prod.mk.inj eq
  obtain ⟨asleep, semaphore⟩ := inv.base.blockAgain code blocks
  have once := kept s.current sema (by
    refine (congrFun asleep s.current).trans ?_
    rw [update_self])
  change (blocked.semaphore sema).waiters.count s.current = 1 at once
  rw [semaphore] at once
  have absent := inv.waiters.current_not_mem inv.base sema
  rw [List.count_eq_zero_of_not_mem absent] at once
  cases once

end QueueInvariant

/-- A run keeps every blocked waiter queued exactly once if and only if every woken thread finds a
positive value when it is scheduled. -/
theorem noLostWaiter_iff_retestSucceeds (values : Nat → Nat) (events : List Event) :
    Execution.Along step NoLostWaiter (boot values) events ↔
      Execution.Meets step RetestSucceeds (boot values) events := by
  have start : QueueInvariant (boot values) := by
    refine ⟨machineInvariant_boot values, waitersInvariant_boot values, ?_⟩
    intro thread sema sleeps
    by_cases idle : thread = 0 <;> simp [Machine.asleep, asleep, boot, idle, waitsOf] at sleeps
  constructor
  · exact Execution.meets_of_along start (fun inv cond ran => inv.step cond ran)
      (fun inv ran kept => inv.retest_of_noLostWaiter ran kept)
  · exact Execution.along_of_meets start (fun inv cond ran => inv.step cond ran)
      (fun inv => inv.noLostWaiter)

/-- `main` creates a thread of priority 20 that waits on semaphore 0, wakes it, takes the unit back
before the thread is scheduled, and then blocks itself. -/
def stolenUnit : List Event :=
  .start (.threadCreate 20) :: List.replicate 10 .run ++
    .start (.threadSetPriority 20 0) :: List.replicate 3 .run ++
    [.start .threadYield, .run, .start (.semaDown 0), .run] ++
    .start (.threadSetPriority 31 0) :: List.replicate 3 .run ++
    [.start (.semaUp 0), .run, .run, .start (.semaTryDown 0), .run, .start (.semaDown 1), .run, .run]

/-- The created thread ends blocked in `sema_down` and in no queue. -/
theorem stolenUnit_loses_waiter :
    ∃ final, Execution.run step (boot fun _ => 0) stolenUnit = some final ∧
      ¬ NoLostWaiter final := by
  refine ⟨(Execution.run step (boot fun _ => 0) stolenUnit).get (by decide), ?_, ?_⟩
  · rw [Option.some_get]
  · intro kept
    have queued := kept 2 (.sema 0) (by decide)
    revert queued
    decide

end Pintos.Threads
