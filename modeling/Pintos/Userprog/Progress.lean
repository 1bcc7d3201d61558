import Pintos.Userprog.Outcomes

/-!
# Progress

A thread in `process_execute` or `process_wait` that is not blocked goes on, as long as the page of its
child is there; one that is blocked is in the queue of a child that has not raised the semaphore yet;
and a process that ends goes on until it is gone.
-/

namespace Pintos.Userprog

open Function Option Processes

/-- The number of own steps that a thread in `process_execute` or `process_wait`, or one that starts or
ends, has at most still to take. -/
def Place.rank : Place → Nat
  | .created _ | .looking _ => 7
  | .down _ .enter => 6
  | .down _ .blocked => 5
  | .down _ .retest => 4
  | .collecting _ => 3
  | .marking _ => 2
  | .reading _ | .answering _ => 1
  | .refused => 4
  | .exiting => 3
  | .signalling => 2
  | .started | .dying => 1
  | .user | .loading | .nullPath _ => 0

/-- A child at this section has raised the semaphore. -/
def Place.raised (place : Place) : Signal → Bool
  | .exec _ => !place.unannounced
  | .wait _ => place = .dying

namespace Processes

/-- The next section of the thread can run, and brings it closer to its end. -/
def Proceeds (s : Processes) (tid : Tid) (place : Place) : Prop :=
  ∃ s', s.step (.run tid) = some s' ∧ ((s'.place tid).map Place.rank).getD 0 < place.rank

/-- The thread is blocked until the child raises the semaphore. -/
def WaitsFor (s : Processes) (tid : Tid) (signal : Signal) : Prop :=
  s.place tid = some (.down signal .blocked) ∧ (s.sema signal).waiters = [tid] ∧
    ∃ place, s.place signal.child = some place ∧ place.raised signal = false

/-- The page of a child is there while some thread is inside `sema_down` on a semaphore of the kind in
it. -/
def Held (s : Processes) (kind : Signal → Prop) : Prop :=
  ∀ parent signal stage, kind signal → s.place parent = some (.down signal stage) →
    s.place signal.child ≠ none

variable {s s' : Processes} {tid parent child : Tid} {sig : Signal} {kind : Signal → Prop}
  {place : Place} {stage : Stage}

theorem Proceeds.of_move {new : Place} {moved : Processes} (here : s.place tid = some place)
    (ran : s.execute tid place = some moved) (arrives : moved.place tid = some new)
    (lower : new.rank < place.rank) : s.Proceeds tid place := by
  refine ⟨moved, ?_, ?_⟩
  · simp only [step, here, bind_some, ran]
  · simpa [arrives] using lower

theorem Signals.exists_semaUp (signals : Signals s) (tid : Tid) (sig : Signal) (new : Place) :
    ∃ raised, s.semaUp tid sig new = some raised ∧ raised.place tid = some new := by
  unfold Processes.semaUp
  cases waiters : (s.sema sig).waiters with
  | nil => exact ⟨_, rfl, update_self _ _ _⟩
  | cons w rest =>
    have blocked := signals.queued w sig (by rw [waiters]; exact List.mem_cons_self)
    simp only [blocked, if_true]
    exact ⟨_, rfl, update_self _ _ _⟩

theorem Family.starts (family : Family s) (here : s.place tid = some .started) :
    s.Proceeds tid .started := by
  obtain ⟨raised, ran, arrives⟩ := family.signals.exists_semaUp tid (.exec tid) .user
  exact .of_move here ran arrives (by decide)

theorem Family.ends (family : Family s) (here : s.place tid = some place) (o : tid ≠ mainTid)
    (ending : place.ending = true) : s.Proceeds tid place := by
  cases place with
  | refused =>
    obtain ⟨raised, ran, arrives⟩ := family.signals.exists_semaUp tid (.exec tid) .exiting
    exact .of_move here ran arrives (by decide)
  | exiting =>
    obtain ⟨listed, kept⟩ := family.lists.own tid _ here o (by simp)
    obtain ⟨status, found⟩ := ne_none_iff_exists'.mp kept
    have read : s.threadGetExitStatus tid = some status := by
      unfold threadGetExitStatus
      rw [if_pos listed, found]
    exact .of_move here (map_eq_some_iff.mpr ⟨status, read, rfl⟩) (update_self _ _ _) (by decide)
  | signalling =>
    obtain ⟨raised, ran, arrives⟩ := family.signals.exists_semaUp tid (.wait tid) .dying
    exact .of_move here ran arrives (by decide)
  | dying =>
    refine ⟨s.threadExit tid, ?_, ?_⟩
    · simp only [Processes.step, here, bind_some, Processes.execute]
    · simp [threadExit, Place.rank]
  | _ => cases ending

theorem Family.waitsFor (family : Family s) (here : s.place tid = some (.down sig .blocked)) :
    s.WaitsFor tid sig := by
  refine ⟨here, ?_, ?_⟩
  · have mem := family.signals.asleep tid sig here
    cases waiters : (s.sema sig).waiters with
    | nil =>
      rw [waiters] at mem
      cases mem
    | cons w rest =>
      obtain rfl := family.signals.single family.lists waiters
      rw [waiters] at mem
      obtain rfl : tid = w := by simpa using mem
      rfl
  · cases sig with
    | exec child =>
      obtain ⟨place, found, untold⟩ := family.signals.execSleep tid child here
      exact ⟨place, found, by simp [Place.raised, untold]⟩
    | wait child =>
      obtain ⟨place, found, lives⟩ := family.signals.waitSleep tid child here
      exact ⟨place, found, by simp [Place.raised, lives]⟩

theorem exists_status (kept : s.exitStatus child ≠ none) :
    ∃ status, s.exitStatus child = some status :=
  ne_none_iff_exists'.mp kept

/-- A thread inside `sema_down` goes on or is blocked, if the page of the child is there. -/
theorem Family.proceeds_down (family : Family s) (here : s.place tid = some (.down sig stage))
    (alive : s.place sig.child ≠ none) :
    s.WaitsFor tid sig ∨ s.Proceeds tid (.down sig stage) := by
  obtain ⟨place, found⟩ := ne_none_iff_exists'.mp alive
  have lower : (afterDown sig).rank < 4 := by
    cases sig <;> simp [Place.rank]
  cases stage with
  | enter =>
    right
    by_cases pos : 0 < (s.sema sig).value
    · have taken : s.execute tid (.down sig .enter) = some ((s.setSema sig
          { s.sema sig with value := (s.sema sig).value - 1 }).setPlace tid
            (some (afterDown sig))) := by
        simp only [Processes.execute, Processes.semaDown, found, if_pos pos]
      exact .of_move here taken (update_self _ _ _) (lower.trans (by simp [Place.rank]))
    · have blocked : s.execute tid (.down sig .enter) = some ((s.setSema sig
          { s.sema sig with waiters := (s.sema sig).waiters ++ [tid] }).setPlace tid
            (some (.down sig .blocked))) := by
        simp only [Processes.execute, Processes.semaDown, found, if_neg pos]
      exact .of_move here blocked (update_self _ _ _) (by simp [Place.rank])
  | blocked => exact .inl (family.waitsFor here)
  | retest =>
    right
    have pos := family.positive here found
    have taken : s.execute tid (.down sig .retest) = some ((s.setSema sig
        { s.sema sig with value := (s.sema sig).value - 1 }).setPlace tid
          (some (afterDown sig))) := by
      simp only [Processes.execute, Processes.semaDownTest, found, if_pos pos]
    exact .of_move here taken (update_self _ _ _) lower

/-- A thread whose child has left while it was inside `sema_down` cannot go on. -/
theorem not_proceeds_down (here : s.place tid = some (.down sig stage))
    (gone : s.place sig.child = none) :
    ¬ (s.WaitsFor tid sig ∨ s.Proceeds tid (.down sig stage)) := by
  rintro (⟨_, _, place, found, _⟩ | ⟨s', ran, _⟩)
  · rw [gone] at found
    cases found
  · simp only [step, here, bind_some] at ran
    cases stage with
    | enter => simp [execute, semaDown, gone] at ran
    | blocked => cases ran
    | retest => simp [execute, semaDownTest, gone] at ran

/-! ## Pages in use -/

section

variable (held : Held s kind)
include held

/-- A thread moves, and if it enters `sema_down` then its child is there. -/
theorem Held.move {new : Place}
    (alive : ∀ sig stage, new = .down sig stage → s.place sig.child ≠ none) :
    Held (s.setPlace tid (some new)) kind := by
  intro parent sig stage fits found
  have old := held parent sig stage fits
  have enters := alive sig stage
  grind

theorem Held.semaUp {new : Place} (signals : Signals s) (out : ∀ sig stage, new ≠ .down sig stage)
    (raised : s.semaUp tid sig new = some s') : Held s' kind := by
  unfold Processes.semaUp at raised
  split at raised
  · cases raised
    exact held.move fun sig stage same => absurd same (out sig stage)
  · split at raised
    · rename_i w rest waiters blocked
      cases raised
      have woken : Held (s.setPlace w (some (.down sig .retest))) kind := by
        refine held.move fun o stage same => ?_
        obtain ⟨rfl, _⟩ : sig = o ∧ _ := by simpa using same
        cases sig with
        | exec child =>
          obtain ⟨place, found, _⟩ := signals.execSleep w child blocked
          simp [found]
        | wait child =>
          obtain ⟨place, found, _⟩ := signals.waitSleep w child blocked
          simp [found]
      exact woken.move fun sig stage same => absurd same (out sig stage)
    · cases raised

theorem Held.down (ran : s.execute tid (.down sig stage) = some s') : Held s' kind := by
  have leaves : ∀ o next, afterDown sig ≠ .down o next := by
    cases sig <;> simp
  have blocks : s.place sig.child ≠ none → ∀ o next,
      Place.down sig .blocked = .down o next → s.place o.child ≠ none := by
    intro alive o next same
    obtain ⟨rfl, _⟩ : sig = o ∧ _ := by simpa using same
    exact alive
  cases stage with
  | enter =>
    simp only [execute, semaDown] at ran
    split at ran
    · cases ran
    · rename_i place found
      split at ran
      · cases ran
        exact held.move fun o next same => absurd same (leaves o next)
      · cases ran
        exact held.move (blocks (by simp [found]))
  | blocked => cases ran
  | retest =>
    simp only [execute, semaDownTest] at ran
    split at ran
    · cases ran
    · rename_i place found
      split at ran
      · cases ran
        exact held.move fun o next same => absurd same (leaves o next)
      · cases ran
        exact held.move (blocks (by simp [found]))

theorem Held.enter (found : s.place sig.child = some place) :
    Held (s.setPlace tid (some (.down sig .enter))) kind := by
  refine held.move fun o stage same => ?_
  obtain ⟨rfl, _⟩ : sig = o ∧ _ := by simpa using same
  simp [found]

theorem Held.execute (signals : Signals s)
    (fits : place = .dying → ∀ parent sig stage, kind sig → sig.child = tid →
      s.place parent ≠ some (.down sig stage))
    (ran : s.execute tid place = some s') : Held s' kind := by
  cases place with
  | user | loading | nullPath named => cases ran
  | refused | started | signalling => exact held.semaUp signals (by simp) ran
  | exiting | reading child | marking child | answering child =>
    obtain ⟨status, found, rfl⟩ := map_eq_some_iff.mp ran
    exact held.move (by simp)
  | dying =>
    cases ran
    have outside := fits rfl
    intro parent sig stage good found
    have before := held parent sig stage good
    have other := outside parent sig stage good
    unfold threadExit at found ⊢
    grind
  | created child =>
    simp only [execute] at ran
    split at ran
    · cases ran
      exact held.move (by simp)
    · rename_i found
      cases ran
      exact held.enter found
  | down sig stage => exact held.down ran
  | looking child =>
    simp only [execute] at ran
    split at ran
    · cases ran
      exact held.move (by simp)
    · rename_i found
      cases ran
      exact held.enter found
  | collecting child =>
    simp only [execute] at ran
    split at ran
    · cases ran
      exact held.move (by simp)
    · cases ran

/-- Pages stay in place as long as no thread leaves while another one uses its semaphore. -/
theorem Held.step {e : ProcessEvent} (family : Family s)
    (fits : ∀ tid, e = .run tid → s.place tid = some .dying → ∀ parent sig stage,
      kind sig → sig.child = tid → s.place parent ≠ some (.down sig stage))
    (ran : s.step e = some s') : Held s' kind := by
  cases e with
  | exec tid cmdline opens argument page =>
    simp only [Processes.step] at ran
    split at ran
    · cases ran
      have made : Held (s.threadCreate tid) kind := by
        intro parent sig stage good found
        have old := held parent sig stage good
        grind
      unfold Processes.processExecute
      repeat' split
      all_goals first | exact made | exact held.move (by simp)
    · cases ran
  | wait tid child =>
    simp only [Processes.step] at ran
    split at ran
    · split at ran <;>
      · cases ran
        exact held.move (by simp)
    · cases ran
  | exit tid status | kill tid =>
    simp only [Processes.step] at ran
    split at ran
    · obtain ⟨given, assigns, rfl⟩ := map_eq_some_iff.mp ran
      obtain ⟨_, _, rfl⟩ := map_eq_some_iff.mp assigns
      exact held.move (by simp)
    · cases ran
  | exception tid =>
    simp only [Processes.step] at ran
    split at ran
    · cases ran
      exact held.move (by simp)
    · cases ran
  | load tid ok =>
    simp only [Processes.step] at ran
    split at ran
    · split at ran
      · cases ran
        exact held.move (by simp)
      · obtain ⟨given, assigns, rfl⟩ := map_eq_some_iff.mp ran
        obtain ⟨_, _, rfl⟩ := map_eq_some_iff.mp assigns
        exact held.move (by simp)
    · cases ran
  | run tid =>
    obtain ⟨place, here, ran⟩ := bind_eq_some_iff.mp ran
    exact held.execute family.signals (fun dying => fits tid rfl (dying ▸ here)) ran

end

theorem held_init (kind : Signal → Prop) : Held init kind := by
  intro parent sig stage _ found
  simp only [init] at found
  split at found
  · cases found
  · cases found

/-- In every interleaving a blocked thread is the only waiter of a child that is there and has not
signalled yet, a process that ends goes on until it is gone, and a status tells how it ended. -/
theorem family_in_every_run (events : List ProcessEvent) :
    Execution.Along step (fun s =>
        (∀ tid signal, s.place tid = some (.down signal .blocked) → s.WaitsFor tid signal) ∧
        (∀ tid place, s.place tid = some place → tid ≠ mainTid → place.ending = true →
          s.Proceeds tid place) ∧
        ∀ tid status, s.exitStatus tid = some status → status = statusWord (s.endings tid))
      init events :=
  Execution.along_of_invariant family_init (·.step ·)
    (fun family => ⟨fun _ _ here => family.waitsFor here,
      fun _ _ here o ending => family.ends here o ending, family.statuses.status⟩) events

end Processes

end Pintos.Userprog
