import Pintos.Lib.Chain
import Pintos.Threads.Donation

/-!
# Chains of donations

`updateActivePriority` calls itself on the thread that its argument donated to.  A donation is
recalled only by the donor when it finally has the lock, so these links outlive the reason for them,
and a chain of them may close to a circle although nobody is deadlocked.
-/

namespace Pintos.Threads

open Function Option Kernel

/-- The thread on which `updateActivePriority` calls itself: `donees.thread`. -/
def Kernel.donee (kernel : Kernel) (thread : Tid) : Option Tid :=
  (kernel.thread thread).donees.map PriorityLock.thread

/-- Every call of `updateActivePriority` that a thread is about to make follows a chain of links
that ends, and so never comes back to a thread. -/
def UpdatesEnd (m : Machine) : Prop :=
  ∀ t target masked rest, m.code t = .updateActivePriority target masked :: rest →
      Chain.Ends m.donee target

/-- The first thread is blocked on a lock that the second one holds. -/
def Machine.BlockedOn (m : Machine) (w holder : Tid) : Prop :=
  ∃ lock, m.waitedLock w = some lock ∧ m.holder lock = some holder

/-- Some thread waits for itself. -/
def Deadlocked (m : Machine) : Prop :=
  ∃ t, Relation.TransGen m.BlockedOn t t

/-- When `lock_acquire` registers a donation, the links that start at the lock holder do not lead to
the donor. -/
def NewLinkFits (m : Machine) : Event → Prop
  | .run => ∀ lock target rest, m.code m.current = .acquireDonate lock target :: rest →
        ¬ Chain.Leads m.donee target m.current
  | _ => True

/-! ## Links and steps -/

/-- How a section changes the links. -/
inductive LinkEffect (k : Kernel) : Instr → Kernel → Prop
  | same {instr after} (other : ∀ lock target, instr ≠ .acquireDonate lock target)
      (donee : after.donee = k.donee) : LinkEffect k instr after
  | remove {instr after} (other : ∀ lock target, instr ≠ .acquireDonate lock target) (t : Tid)
      (donee : after.donee = update k.donee t none) :
      LinkEffect k instr after
  | add {after} (lock : LockId) (target : Tid)
      (donee : after.donee = update k.donee k.current (some target)) :
      LinkEffect k (.acquireDonate lock target) after

section Donee

variable {k s' : Kernel}

theorem donee_setThread (t : Tid) (record : Thread) : (k.setThread t record).donee =
      update k.donee t (record.donees.map PriorityLock.thread) := by
  funext o
  by_cases same : o = t
  · subst same
    simp [donee]
  · simp [donee, same]

theorem donee_setThread_of_eq {t : Tid} {record : Thread}
    (same : record.donees = (k.thread t).donees) :
    (k.setThread t record).donee = k.donee := by
  rw [donee_setThread, same]
  exact update_eq_self t k.donee

theorem donee_switched {next : Tid} (moved : Kernel.Switched k s' next) : s'.donee = k.donee := by
  have same : s'.donee = (k.setThread next { k.thread next with status := .running }).donee := by
    unfold donee
    rw [moved.thread]
    rfl
  exact same.trans (donee_setThread_of_eq rfl)

theorem donee_madeReady {t : Tid} (made : Kernel.MadeReady k s' t) : s'.donee = k.donee := by
  have same : s'.donee = (k.setThread t { k.thread t with status := .ready }).donee := by
    unfold donee
    rw [made.record]
    rfl
  exact same.trans (donee_setThread_of_eq rfl)

theorem donee_threadYield (yields : k.threadYield = some s') : s'.donee = k.donee := by
  obtain ⟨next, moved⟩ := switched_of_schedule yields
  rw [donee_switched moved, donee_madeReady (madeReady_queueCurrent k)]

theorem donee_threadBlock (blocks : k.threadBlock = some s') : s'.donee = k.donee := by
  obtain ⟨next, moved⟩ := switched_of_schedule blocks
  rw [donee_switched moved]
  exact donee_setThread_of_eq rfl

theorem donee_semaUp {sema : SemaRef} {highest : Int}
    (wakes : k.semaUp sema = some (highest, s')) : s'.donee = k.donee := by
  rcases semaUp_cases wakes with ⟨_, rfl⟩ | ⟨w, unblocked, _, _, woken, rfl⟩
  · rfl
  · have made := (madeReady_of_threadUnblock woken).2
    exact @donee_madeReady (k.removeWaiter sema w) unblocked w made

theorem donee_createThread {prio : Int} (makes : k.createThread prio = some s') :
    s'.donee = update k.donee k.threads none := by
  unfold createThread at makes
  split at makes
  · rw [donee_madeReady (madeReady_of_threadUnblock makes).2]
    exact donee_setThread _ _
  · cases makes

theorem donee_registerDonor {lock : LockId} {target : Tid}
    (adds : k.registerDonor lock target = some s') :
    s'.donee = update k.donee k.current (some target) := by
  unfold registerDonor at adds
  split at adds
  · cases adds
    have donors : (k.setThread target { k.thread target with
        donors := (k.thread target).donors ++ [⟨lock, k.current⟩] }).donee =
          k.donee := donee_setThread_of_eq rfl
    rw [donee_setThread, donors]
    rfl
  · cases adds

theorem donee_releaseDonors (lock : LockId) : (k.releaseDonors lock).2.donee = k.donee := by
  unfold releaseDonors
  simp only
  split
  · split <;> exact donee_setThread_of_eq rfl
  · rfl

end Donee

theorem linkEffect_of_execute {k s' : Kernel} {rest code : List Instr} {instr : Instr}
    (ran : execute k rest instr = some (s', code)) :
    LinkEffect k instr s' := by
  have mapped : ∀ {res : Option Kernel} {left : List Instr},
      res.map (·, left) = some (s', code) → res = some s' := by
    intro res left mapped
    obtain ⟨kept, works, eq⟩ := map_eq_some_iff.mp mapped
    exact works.trans (congrArg some (Prod.mk.inj eq).1)
  have kept : ∀ {kept : Kernel} {left : List Instr}, some (kept, left) = some (s', code) →
      kept = s' := fun eq => (Prod.mk.inj (some.inj eq)).1
  cases instr with
  | semaDown sema =>
    simp only [execute] at ran
    split at ran
    · obtain rfl := kept ran
      exact .same (by simp) rfl
    · exact .same (by simp) (@donee_threadBlock (k.pushWaiter sema) s' (mapped ran))
  | semaDownTest sema =>
    simp only [execute] at ran
    split at ran
    · obtain rfl := kept ran
      exact .same (by simp) rfl
    · exact .same (by simp) (donee_threadBlock (mapped ran))
  | semaTryDown sema =>
    simp only [execute] at ran
    split at ran <;> obtain rfl := kept ran <;> exact .same (by simp) rfl
  | semaUp sema =>
    obtain ⟨⟨highest, raised⟩, wakes, eq⟩ := map_eq_some_iff.mp ran
    cases eq
    exact .same (by simp) (donee_semaUp wakes)
  | yieldUnlessAbove | yieldIfBelow | yieldIfBehind =>
    simp only [execute] at ran
    split at ran
    · exact .same (by simp) (donee_threadYield (mapped ran))
    · obtain rfl := kept ran
      exact .same (by simp) rfl
  | threadYield => exact .same (by simp) (donee_threadYield (mapped ran))
  | acquireTest lock =>
    simp only [execute] at ran
    split at ran
    · cases ran
    · split at ran <;> obtain rfl := kept ran <;> exact .same (by simp) rfl
  | acquireDonate lock target => exact .add lock target (donee_registerDonor (mapped ran))
  | updateActivePriority t masked =>
    simp only [execute] at ran
    split at ran <;> obtain rfl := kept ran <;> exact .same (by simp) (donee_setThread_of_eq rfl)
  | takeLock lock | dropLock lock =>
    obtain rfl := kept ran
    exact .same (by simp) rfl
  | recallDonation =>
    obtain rfl := kept ran
    exact .remove (by simp) k.current (donee_setThread _ _)
  | tryAcquire lock =>
    simp only [execute] at ran
    split at ran
    · cases ran
    · split at ran <;> obtain rfl := kept ran <;> exact .same (by simp) rfl
  | releaseDonors lock =>
    simp only [execute] at ran
    split at ran
    · split at ran <;> obtain rfl := kept ran <;> exact .same (by simp) (donee_releaseDonors lock)
    · cases ran
  | createThread prio =>
    exact .remove (by simp) k.threads (donee_createThread (mapped ran))
  | setNativePriority prio =>
    obtain rfl := kept ran
    exact .same (by simp) (donee_setThread_of_eq rfl)
  | idleBlock => exact .same (by simp) (donee_threadBlock (mapped ran))

/-- All chains of links end. -/
def LinksEnd (m : Machine) : Prop :=
  ∀ t, Chain.Ends m.donee t

theorem linksEnd_boot (values : Nat → Nat) : LinksEnd (boot values) := by
  intro t
  refine .stop ?_
  change ((if t = 1 then initThread .running priDefault else
    initThread .blocked priDefault).donees.map PriorityLock.thread) = none
  split <;> rfl

variable {s s' : Machine} {e : Event}

/-- A step that adds no link closing a circle keeps the ends of all chains. -/
theorem LinksEnd.step (ends : LinksEnd s) (fits : NewLinkFits s e)
    (ran : Threads.step s e = some s') : LinksEnd s' := by
  intro t
  cases e with
  | start op =>
    obtain ⟨_, rfl⟩ := code_of_start ran
    exact ends t
  | run =>
    obtain ⟨instr, rest, k, left, code, eff, rfl⟩ := execute_of_run ran
    change Chain.Ends k.donee t
    cases linkEffect_of_execute eff with
    | same _ donee =>
      rw [donee]
      exact ends t
    | remove _ element donee =>
      rw [donee]
      exact (ends t).remove
    | add lock target donee =>
      rw [donee]
      exact Chain.Ends.add (fits lock target rest code) (ends target) (ends t)
  | timer =>
    obtain ⟨k, yields, rfl⟩ := threadYield_of_timer ran
    change Chain.Ends k.donee t
    rw [donee_threadYield yields]
    exact ends t

/-- A link that closes a circle is followed by the next section. -/
theorem newLinkFits_of_updatesEnd (ran : Threads.step s e = some s')
    (ends : UpdatesEnd s') : NewLinkFits s e := by
  cases e with
  | start op => trivial
  | timer => trivial
  | run =>
    intro lock target rest code leads
    obtain ⟨instr, others, k, left, head, eff, rfl⟩ := execute_of_run ran
    rw [code] at head
    obtain ⟨rfl, rfl⟩ := List.cons.inj head
    obtain ⟨known, adds, eq⟩ := map_eq_some_iff.mp eff
    cases eq
    have endless := Chain.not_ends_of_leads leads
    rw [← donee_registerDonor adds] at endless
    exact endless (ends s.current target false rest (update_self ..))

/-- The calls of `updateActivePriority` end in all states of a run exactly if no donation of the run
closes a circle of links. -/
theorem updatesEnd_iff_newLinksFit (values : Nat → Nat) (events : List Event) :
    Execution.Along step UpdatesEnd (boot values) events ↔
      Execution.Meets step NewLinkFits (boot values) events := by
  constructor
  · exact Execution.meets_of_along (linksEnd_boot values) (fun ends fits ran => ends.step fits ran)
      (fun _ ran ends => newLinkFits_of_updatesEnd ran ends)
  · exact Execution.along_of_meets (linksEnd_boot values) (fun ends fits ran => ends.step fits ran)
      (fun ends _ target _ _ _ => ends target)

theorem not_deadlocked {m : Machine} (inv : MachineInvariant m)
    (free : ∀ t < m.threads, m.waitedLock t = none) :
    ¬ Deadlocked m := by
  rintro ⟨t, cycle⟩
  obtain ⟨holder, ⟨lock, waits, _⟩, _⟩ := Relation.TransGen.head'_iff.mp cycle
  by_cases born : t < m.threads
  · rw [free t born] at waits
    cases waits
  · unfold Machine.waitedLock waitedLock asleep at waits
    rw [inv.unbornCode t (Nat.not_lt.mp born)] at waits
    split at waits <;> cases waits

/-- `main` (31) acquires lock 1 and creates a thread (40), which runs and waits for lock 1, donating
to `main`.  `main` raises its own priority to 40 and releases the lock.  The woken thread becomes the
holder and is preempted before it recalls its donation.  `main` raises its priority to 63 and
acquires lock 1 again, donating to the holder. -/
def staleLink : List Event :=
  .start (.lockAcquire 1) :: List.replicate 4 .run ++
  .start (.threadCreate 40) :: List.replicate 10 .run ++
  .start (.lockAcquire 1) :: List.replicate 4 .run ++
  .start (.threadSetPriority 40 0) :: List.replicate 3 .run ++
  .start (.lockRelease 1) :: List.replicate 4 .run ++
  [.run, .run, .timer] ++
  .start (.threadSetPriority 63 0) :: List.replicate 3 .run ++
  .start (.lockAcquire 1) :: List.replicate 2 .run

/-- Nobody is deadlocked, nobody even waits for a lock, and the call of `updateActivePriority` does
not end. -/
theorem staleLink_never_ends :
    ∃ final, Execution.run step (boot fun _ => 0) staleLink = some final ∧ ¬ Deadlocked final ∧
      ¬ UpdatesEnd final := by
  have execution : Execution.run step (boot fun _ => 0) staleLink =
      some ((Execution.run step (boot fun _ => 0) staleLink).get (by decide)) := by
    rw [some_get]
  refine ⟨_, execution, ?_, ?_⟩
  · refine not_deadlocked ?_ (by decide)
    exact Execution.run_invariant (machineInvariant_boot fun _ => 0)
      (fun inv ran => inv.step ran) execution
  · intro ends
    have chain := ends 1 2 false [.semaDown (.ofLock 1), .takeLock 1, .recallDonation] (by decide)
    exact @Chain.Ends.not_return _ _ _ chain 1 (by decide) (.single (by decide))

end Pintos.Threads
