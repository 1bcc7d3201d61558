import Pintos.Lib.Execution
import Pintos.Threads.Kernel

/-!
# Threads of equal priority

`thread_yield` queues a thread behind the threads of its priority, `thread_unblock` in front of them.
The ready list is sorted all the same, but threads of equal priority are taken in the order in which
they became ready only as long as no thread is unblocked while one of its priority is queued.
-/

namespace Pintos.Threads

open Execution Function Option Kernel

/-- The kernel with the time at which each thread became ready last. -/
structure Arrivals extends Kernel where
  arrived : Tid → Nat
  clock : Nat

/-- A call on the ready list; the thread that calls `thread_block` leaves the CPU to the thread that
`next_thread_to_run` takes. -/
inductive QueueCall
  | threadUnblock (t : Tid)
  | threadYield
  | threadBlock

namespace Arrivals

/-- The thread has become ready. -/
def arrive (s : Arrivals) (t : Tid) (k : Kernel) : Arrivals :=
  ⟨k, update s.arrived t s.clock, s.clock + 1⟩

def step (s : Arrivals) : QueueCall → Option Arrivals
  | .threadUnblock t => (s.toKernel.threadUnblock t).map (s.arrive t)
  | .threadYield => s.toKernel.threadYield.map (s.arrive s.current)
  | .threadBlock => s.toKernel.threadBlock.map ({ s with toKernel := · })

/-- The ready list, of which `next_thread_to_run` takes the head, is sorted by priority, and threads
of equal priority stand in it in the order in which they became ready. -/
def Fifo (s : Arrivals) : Prop :=
  s.readyList.Pairwise fun front back => s.priority back ≤ s.priority front ∧
    (s.priority back = s.priority front → s.arrived front < s.arrived back)

/-- No thread of the priority of an unblocked thread is queued. -/
def UnblocksAlone (s : Arrivals) : QueueCall → Prop
  | .threadUnblock t => ∀ queued ∈ s.readyList, s.priority queued ≠ s.priority t
  | _ => True

/-- The queued threads are ready and have arrived, in order. -/
structure Queued (s : Arrivals) : Prop where
  fifo : s.Fifo
  ready : ∀ t ∈ s.readyList, s.status t = .ready
  past : ∀ t ∈ s.readyList, s.arrived t < s.clock

/-- Also, the running thread is not queued. -/
structure Invariant (s : Arrivals) : Prop extends Queued s where
  running : s.status s.current = .running

variable {s s' : Arrivals} {k : Kernel} {t : Tid} {call : QueueCall}

/-- The inserted element comes before all at which the loop would stop. -/
theorem rel_of_pairwise_orderedInsert {relation stop : Tid → Tid → Prop} [DecidableRel stop]
    {other : Tid} {list : List Tid} (stops : stop t other) (mem : other ∈ list)
    (sorted : (list.orderedInsert stop t).Pairwise relation) : relation t other := by
  induction list with
  | nil => cases mem
  | cons head tail ih =>
    rw [List.orderedInsert] at sorted
    split at sorted
    · exact List.rel_of_pairwise_cons sorted mem
    · rename_i goes
      rcases List.mem_cons.mp mem with rfl | later
      · exact (goes stops).elim
      · exact ih later sorted.of_cons

theorem readyList_of_threadUnblock {s : Kernel} (unblocks : s.threadUnblock t = some k) :
    k.readyList = s.insertUnblocked t := by
  rw [threadUnblock, if_pos (madeReady_of_threadUnblock unblocks).1] at unblocks
  rw [← some.inj unblocks]

namespace Queued

variable (queued : Queued s)
include queued

theorem nodup : s.readyList.Nodup := by
  refine queued.fifo.imp ?_
  rintro front back ⟨-, later⟩ rfl
  exact lt_irrefl _ (later rfl)

/-- A thread that was not ready is queued, and the others stay as they were. -/
theorem arrived_of_mem {other : Tid} (idle : s.status t ≠ .ready) (mem : other ∈ s.readyList) :
    update s.arrived t s.clock other = s.arrived other := by
  refine update_of_ne ?_ _ _
  rintro rfl
  exact idle (queued.ready other mem)

section

variable (made : Kernel.MadeReady s.toKernel k t) (idle : s.status t ≠ .ready)
include made idle

theorem madeReady (fifo : (s.arrive t k).Fifo) : Queued (s.arrive t k) := by
  have members : ∀ other ∈ k.readyList, other = t ∨ other ∈ s.readyList := by
    intro other mem
    rcases made.perm with same | perm
    · exact .inr (same ▸ mem)
    · exact List.mem_cons.mp (perm.mem_iff.mp mem)
  refine ⟨fifo, ?_, ?_⟩
  · intro other mem
    refine (made.status other).trans ?_
    split
    · rfl
    · next ne => exact queued.ready other ((members other mem).resolve_left ne)
  · intro other mem
    change update s.arrived t s.clock other < s.clock + 1
    rcases members other mem with rfl | listed
    · rw [update_self]
      exact Nat.lt_succ_self _
    · rw [queued.arrived_of_mem idle listed]
      exact Nat.lt_succ_of_lt (queued.past other listed)

/-- A thread that is inserted in front of the less urgent ones comes last of its priority. -/
theorem insert {stop : Tid → Tid → Prop} [DecidableRel stop]
    (inserted : k.readyList = s.readyList.orderedInsert stop t)
    (precedes : ∀ other ∈ s.readyList, stop t other → s.priority other < s.priority t)
    (follows : ∀ other ∈ s.readyList, ¬ stop t other → s.priority t ≤ s.priority other) :
    Queued (s.arrive t k) := by
  refine queued.madeReady made idle ?_
  unfold arrive Fifo
  dsimp only
  rw [inserted, made.priority]
  refine pairwise_orderedInsert ?_ ?_ (queued.fifo.imp_of_mem ?_)
  · intro other mem goes
    refine ⟨follows other mem goes, fun _ => ?_⟩
    rw [queued.arrived_of_mem idle mem, update_self]
    exact queued.past other mem
  · intro other mem stops
    have less := precedes other mem stops
    refine ⟨⟨less.le, fun same => (less.ne same).elim⟩, fun later behind => ?_⟩
    have below := lt_of_le_of_lt behind.1 less
    exact ⟨below.le, fun same => (below.ne same).elim⟩
  · intro front back front_in back_in order
    refine ⟨order.1, fun same => ?_⟩
    rw [queued.arrived_of_mem idle front_in, queued.arrived_of_mem idle back_in]
    exact order.2 same

end

/-- The head of the ready list, or the idle thread, is taken. -/
theorem switched {next : Tid} (switched : Kernel.Switched s.toKernel k next) :
    Invariant { s with toKernel := k } := by
  have nodup := queued.nodup
  have fifo := queued.fifo
  unfold Fifo at fifo
  have kept : k.readyList.Sublist s.readyList ∧ next ∉ k.readyList := by
    rcases switched.readyList with list | ⟨_, empty, _⟩
    · rw [list] at nodup ⊢
      exact ⟨List.sublist_cons_self _ _, (List.nodup_cons.mp nodup).1⟩
    · simp [empty]
  refine ⟨⟨?_, ?_, fun t mem => queued.past t (kept.1.subset mem)⟩, ?_⟩
  · unfold Fifo
    dsimp only
    rw [switched.priority]
    exact fifo.sublist kept.1
  · intro t mem
    have ne : t ≠ next := by
      rintro rfl
      exact kept.2 mem
    refine (switched.status t).trans ?_
    rw [if_neg ne]
    exact queued.ready t (kept.1.subset mem)
  · refine (switched.status _).trans (if_pos switched.current)

end Queued

namespace Invariant

variable (invariant : Invariant s)
include invariant

theorem step (alone : s.UnblocksAlone call) (ran : s.step call = some s') : Invariant s' := by
  cases call with
  | threadUnblock t =>
    obtain ⟨k, unblocks, rfl⟩ := map_eq_some_iff.mp ran
    obtain ⟨blocked, made⟩ := madeReady_of_threadUnblock unblocks
    have inserted := readyList_of_threadUnblock unblocks
    refine ⟨invariant.insert made (by rw [blocked]; simp) inserted ?_ ?_, ?_⟩
    · intro other mem stops
      exact lt_of_le_of_ne stops (alone other mem)
    · intro other mem goes
      exact (not_le.mp goes).le
    · have other : s.current ≠ t := by
        rintro rfl
        rw [invariant.running] at blocked
        cases blocked
      change k.status k.current = .running
      rw [made.status, made.current, if_neg other]
      exact invariant.running
  | threadYield =>
    obtain ⟨k, yields, rfl⟩ := map_eq_some_iff.mp ran
    obtain ⟨next, switched⟩ := switched_of_schedule yields
    have made := madeReady_queueCurrent s.toKernel
    have idle : s.status s.current ≠ .ready := by
      rw [invariant.running]
      simp
    suffices queued : Queued (s.arrive s.current s.queueCurrent) from
      queued.switched switched
    by_cases is_idle : s.current = s.idleThread
    · refine invariant.madeReady made idle ?_
      have same : s.queueCurrent.readyList = s.readyList := by simp [queueCurrent, is_idle]
      unfold arrive Fifo
      dsimp only
      rw [same, made.priority]
      refine invariant.fifo.imp_of_mem ?_
      intro front back front_in back_in order
      rw [invariant.arrived_of_mem idle front_in, invariant.arrived_of_mem idle back_in]
      exact order
    · refine invariant.insert made idle (by simp [queueCurrent, is_idle]; rfl) ?_ ?_
      · exact fun _ _ stops => stops
      · exact fun _ _ goes => not_lt.mp goes
  | threadBlock =>
    obtain ⟨k, blocks, rfl⟩ := map_eq_some_iff.mp ran
    obtain ⟨next, switched⟩ := switched_of_schedule blocks
    have queued : Queued { s with toKernel := s.setStatus s.current .blocked } := by
      refine ⟨?_, ?_, invariant.past⟩
      · unfold Fifo
        dsimp only
        rw [priority_setStatus]
        exact invariant.fifo
      · intro t mem
        have ne : t ≠ s.current := by
          rintro rfl
          have ready := invariant.ready _ mem
          rw [invariant.running] at ready
          cases ready
        change (s.setStatus s.current .blocked).status t = .ready
        rw [status_setStatus, if_neg ne]
        exact invariant.ready t mem
    exact queued.switched switched

/-- An unblocked thread overtakes the queued threads of its priority. -/
theorem unblocksAlone (ran : s.step call = some s') (fifo : s'.Fifo) : s.UnblocksAlone call := by
  cases call with
  | threadYield | threadBlock => trivial
  | threadUnblock t =>
    intro other mem same
    obtain ⟨k, unblocks, rfl⟩ := map_eq_some_iff.mp ran
    obtain ⟨blocked, made⟩ := madeReady_of_threadUnblock unblocks
    have inserted := readyList_of_threadUnblock unblocks
    unfold arrive Fifo at fifo
    dsimp only at fifo
    rw [inserted, made.priority] at fifo
    have order := rel_of_pairwise_orderedInsert (show s.priority other ≤ s.priority t from
      same.le) mem fifo
    have earlier := order.2 same
    rw [update_self, invariant.arrived_of_mem (by rw [blocked]; simp) mem] at earlier
    exact absurd (invariant.past other mem) (Nat.lt_asymm earlier)

end Invariant

def start (k : Kernel) : Arrivals := ⟨{ k with readyList := [] }, fun _ => 0, 0⟩

/-- Threads of equal priority are queued in the order in which they became ready, in every state of a
run, exactly if no thread is unblocked while one of its priority is queued. -/
theorem fifo_iff_unblocksAlone (k : Kernel) (running : k.status k.current = .running)
    (calls : List QueueCall) :
    Along step Fifo (start k) calls ↔ Meets step UnblocksAlone (start k) calls := by
  have invariant : Invariant (start k) :=
    ⟨⟨by simp [start, Fifo], by simp [start], by simp [start]⟩, running⟩
  constructor
  · exact meets_of_along invariant Invariant.step Invariant.unblocksAlone
  · exact along_of_meets invariant Invariant.step fun invariant => invariant.fifo

/-- Three threads of equal priority: thread 1 runs, and 2 and 3 are blocked. -/
def peers : Kernel where
  thread t := ⟨if t = 1 then .running else .blocked, 31, 31, [], none⟩
  threads := 4
  current := 1
  idleThread := 0
  readyList := []
  readyThreads := 0
  semaphore _ := ⟨0, []⟩
  holder _ := none

instance (s : Arrivals) : (call : QueueCall) → Decidable (s.UnblocksAlone call)
  | .threadUnblock _ => inferInstanceAs (Decidable (∀ queued ∈ s.readyList, _))
  | .threadYield | .threadBlock => isTrue trivial

/-- Thread 2 is unblocked, and takes turns with thread 1. -/
theorem fifo_taking_turns :
    Along step Fifo (start peers) [.threadUnblock 2, .threadYield, .threadYield, .threadBlock] :=
  (fifo_iff_unblocksAlone peers rfl _).mpr (by decide)

/-- Thread 2 becomes ready before thread 3, but thread 3 is taken first. -/
theorem unblocked_overtakes :
    ∃ s s', run step (start peers) [.threadUnblock 2, .threadUnblock 3] = some s ∧
      s.readyList = [3, 2] ∧ s.priority 2 = s.priority 3 ∧
      s.arrived 2 < s.arrived 3 ∧ ¬ s.Fifo ∧
      s.step .threadBlock = some s' ∧ s'.current = 3 := by
  refine ⟨_, _, rfl, rfl, rfl, by decide, ?_, rfl, rfl⟩
  intro fifo
  exact absurd ((List.rel_of_pairwise_cons fifo List.mem_cons_self).2 rfl) (by decide)

end Arrivals

end Pintos.Threads
