import Pintos.Threads.Asleep
import Pintos.Threads.Donors
import Pintos.Threads.Locks

/-!
# What holds of threads, semaphores and locks

The invariants of the machine in one structure, for the components that run on top of it.
-/

namespace Pintos.Threads

open Function Kernel

/-! ## Priorities -/

namespace Kernel

theorem priMin_le_activePriority (k : Kernel) (t : Tid) : priMin ≤ k.activePriority t := by
  have start := (le_foldl_raiseDonated k (k.thread t).donors priMin).1
  unfold activePriority highestDonated
  split
  · exact start
  · omega

theorem exists_highestWaiter {k : Kernel} (valid : ∀ t, priMin ≤ k.priority t)
    {waiters : List Tid} (ne_nil : waiters ≠ []) :
    ∃ w highest, k.highestWaiter waiters = (some w, highest) := by
  have keeps : ∀ (list : List Tid) (best : Option Tid × Int), best.1 ≠ none →
      (list.foldl k.searchWaiter best).1 ≠ none := by
    intro list
    induction list with
    | nil => exact fun _ found => found
    | cons head tail ih =>
      intro best found
      rw [List.foldl_cons]
      refine ih _ ?_
      unfold searchWaiter
      split
      · simp
      · exact found
  obtain ⟨fst, others, rfl⟩ := List.exists_cons_of_ne_nil ne_nil
  have found : (k.highestWaiter (fst :: others)).1 ≠ none := by
    unfold highestWaiter
    rw [List.foldl_cons]
    refine keeps others _ ?_
    have pos := valid fst
    unfold searchWaiter
    rw [if_pos (show priMin - 1 < k.priority fst by omega)]
    simp
  obtain ⟨w, is_waiter⟩ := Option.ne_none_iff_exists'.mp found
  exact ⟨w, (k.highestWaiter (fst :: others)).2, Prod.ext is_waiter rfl⟩

theorem exists_semaUp {k : Kernel} (valid : ∀ t, priMin ≤ k.priority t) {sema : SemaRef}
    (blocked : ∀ t ∈ (k.semaphore sema).waiters, k.status t = .blocked) :
    ∃ highest s', k.semaUp sema = some (highest, s') := by
  unfold semaUp
  cases list : (k.semaphore sema).waiters with
  | nil => exact ⟨_, _, rfl⟩
  | cons fst others =>
    obtain ⟨w, highest, found⟩ := exists_highestWaiter valid (List.cons_ne_nil fst others)
    have mem := highestWaiter_mem found
    rw [← list] at mem
    have sleeps : (k.removeWaiter sema w).status w = .blocked := blocked w mem
    simp only [found, threadUnblock, if_pos sleeps, Option.map_some]
    exact ⟨_, _, rfl⟩

theorem exists_threadYield (k : Kernel) : ∃ s', k.threadYield = some s' := by
  have ready : k.queueCurrent.status k.queueCurrent.current = .ready := by
    have made := madeReady_queueCurrent k
    rw [made.status, made.current, if_pos rfl]
  unfold threadYield schedule
  rw [if_neg (by rw [ready]; simp)]
  exact ⟨_, rfl⟩

end Kernel

theorem Outcome.priorities {k s' : Kernel} {rest code : List Instr} {instr : Instr}
    (out : Outcome k rest instr s' code)
    (valid : ∀ t, priMin ≤ k.priority t) (t : Tid) :
    priMin ≤ s'.priority t := by
  cases out with
  | quiet _ quiet =>
    rw [quiet.priority]
    exact valid t
  | update target masked =>
    rw [priority_assignActivePriority]
    split
    · exact k.priMin_le_activePriority target
    · exact valid t
  | yield _ yields =>
    obtain ⟨next, moved⟩ := switched_of_schedule yields
    rw [moved.priority, (madeReady_queueCurrent k).priority]
    exact valid t
  | enqueue _ _ blocks | blockAgain _ _ blocks | idle blocks =>
    obtain ⟨next, moved⟩ := switched_of_schedule blocks
    rw [moved.priority, priority_setStatus]
    exact valid t
  | wake sema _ wakes =>
    rcases semaUp_cases wakes with ⟨_, rfl⟩ | ⟨w, unblocked, _, _, woken, rfl⟩
    · exact valid t
    · have prio := (madeReady_of_threadUnblock woken).2.priority
      exact (congrFun prio t).symm ▸ valid t
  | create prio makes =>
    unfold Kernel.createThread at makes
    split at makes
    · rename_i range
      rw [(Kernel.madeReady_of_threadUnblock makes).2.priority]
      simp only [Kernel.priority, Kernel.setThread_thread, update_apply]
      split
      · exact range.1
      · exact valid t
    · cases makes

/-! ## Invariant -/

/-- What holds of threads, semaphores and locks. -/
structure SoundBase (m : Machine) : Prop extends MachineInvariant m where
  waiters : WaitersInvariant m
  locks : ∃ past inside, LockInvariant ⟨m, past, inside⟩
  priorities : ∀ t, priMin ≤ m.priority t

theorem soundBase_boot (values : Nat → Nat) : SoundBase (boot values) where
  toMachineInvariant := machineInvariant_boot values
  waiters := waitersInvariant_boot values
  locks := ⟨_, _, lockInvariant_boot values⟩
  priorities t := by
    simp only [priority, boot]
    split <;> decide

namespace SoundBase

variable {s s' : Machine} {e : Event}

theorem step (sound : SoundBase s) (ran : Threads.step s e = some s') : SoundBase s' where
  toMachineInvariant := sound.toMachineInvariant.step ran
  waiters := sound.waiters.step sound.toMachineInvariant ran
  locks := by
    obtain ⟨past, inside, locks⟩ := sound.locks
    have recorded := toMachine_watch ⟨s, past, inside⟩ e
    rw [ran] at recorded
    obtain ⟨watched, watches, rfl⟩ := Option.map_eq_some_iff.mp recorded
    exact ⟨watched.past, watched.inside, locks.watch watches⟩
  priorities := by
    cases e with
    | start op =>
      obtain ⟨_, rfl⟩ := code_of_start ran
      exact sound.priorities
    | run =>
      obtain ⟨instr, rest, k, left, _, eff, rfl⟩ := execute_of_run ran
      exact (outcome_of_execute eff).priorities sound.priorities
    | timer =>
      obtain ⟨k, yields, rfl⟩ := threadYield_of_timer ran
      intro t
      have out : Outcome s.toKernel [] .threadYield k [] := .yield (by simp) yields
      exact out.priorities sound.priorities t

theorem load (sound : SoundBase s) {loaded : List Instr}
    (mid : s.code s.current = []) (stage : Stage loaded none none) :
    SoundBase { s with code := update s.code s.current loaded } where
  __ := sound
  idleCode := by
    have o := sound.current_ne_idle (by rw [mid]; simp)
    exact (update_of_ne o.symm _ _).trans sound.idleCode
  unbornCode t created := by
    have o : t ≠ s.current := by
      rintro rfl
      exact (Nat.not_le.mpr sound.ready.born) created
    exact (update_of_ne o _ _).trans (sound.unbornCode t created)
  waiters := sound.waiters.congr (asleep_moveCode sound.awake loaded) fun _ => rfl
  locks := by
    obtain ⟨past, inside, locks⟩ := sound.locks
    exact ⟨past, inside, locks.load (SameUnits.refl _).sameLocks mid stage⟩

/-- A thread that has a lock stays its holder while others run, and while it runs sections that have
no part in moving units of locks. -/
theorem holder_step (sound : SoundBase s) {lock : LockId} {t : Tid}
    (ran : Threads.step s e = some s')
    (holds : s.holder lock = some t)
    (kept : t ≠ s.current ∨ ∀ instr ∈ s.code t, instr.lockFree) :
    s'.holder lock = some t := by
  cases e with
  | start op =>
    obtain ⟨_, rfl⟩ := code_of_start ran
    exact holds
  | run =>
    obtain ⟨instr, rest, k, left, code, eff, rfl⟩ := execute_of_run ran
    obtain ⟨past, inside, locks⟩ := sound.locks
    have placed := locks.placed s.current
    change Placed past inside s.current (s.code s.current) at placed
    rw [code] at placed
    refine (unitEffect_of_execute eff).holder_of_holds locks.accounted placed holds ?_
    rcases kept with o | free
    · exact .inl o
    · by_cases same : t = s.current
      · subst same
        exact .inr (free instr (by rw [code]; exact List.mem_cons_self))
      · exact .inl same
  | timer =>
    obtain ⟨k, yields, rfl⟩ := threadYield_of_timer ran
    exact ((SameUnits.threadYield yields).holder ▸ holds :)

end SoundBase

end Pintos.Threads
