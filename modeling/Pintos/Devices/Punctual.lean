import Pintos.Devices.Sleepers
import Pintos.Threads.Sound

/-!
# Sleepers are punctual

After every tick the sleep queue holds back exactly the threads that are not due yet, provided that
no thread in `timer_sleep` is overtaken at the place it looks at: nobody unlinks the entry it points
to, and nobody inserts an entry there that is due later than its own.
-/

namespace Pintos.Devices

open Threads Option

/-- An entry due at the time of `new`, put in front of the pointer, does not mislead a thread there. -/
def Clock.leadsRight (clock : Clock) (new : ElemId) (cursor : Option ElemId) (t : Tid) : Prop :=
  (clock.place t).target = some cursor → ∀ other ∈ (clock.place t).own,
    (clock.elem new).wakeTicks ≤ (clock.elem other).wakeTicks

instance (clock : Clock) (new : ElemId) (cursor : Option ElemId) (t : Tid) :
    Decidable (clock.leadsRight new cursor t) :=
  inferInstanceAs (Decidable (_ → _))

/-- What the running thread does to the queue lets the other threads in `timer_sleep` go on. -/
def Clock.spares (clock : Clock) (t : Tid) : Prop :=
  match clock.place clock.current with
  | .unlink _ elem => (clock.place t).refersTo elem = false
  | .test new none => clock.leadsRight new none t
  | .insert new elem => clock.leadsRight new (some elem) t
  | _ => True

instance (clock : Clock) (t : Tid) : Decidable (clock.spares t) := by
  unfold Clock.spares
  split <;> infer_instance

/-- When a thread unlinks an entry, no other thread in `timer_sleep` points to it; when it inserts its
own, no other thread with an earlier `wakeTicks` looks at that place. -/
def PositionsFit (clock : Clock) : ClockEvent → Prop
  | .advance => ∀ t < clock.threads, t ≠ clock.current → clock.spares t
  | _ => True

instance (clock : Clock) : (e : ClockEvent) → Decidable (PositionsFit clock e)
  | .advance => inferInstanceAs (Decidable (∀ t < clock.threads, _ → clock.spares t))
  | .base _ | .tick _ | .sleep _ => isTrue trivial

/-- The thread of an entry is blocked for this entry. -/
def Clock.blockedIn (clock : Clock) (elem : ElemId) : Prop :=
  clock.place (clock.elem elem).currentThread = .asleep elem ∧
    clock.status (clock.elem elem).currentThread = .blocked

instance (clock : Clock) (elem : ElemId) : Decidable (clock.blockedIn elem) :=
  inferInstanceAs (Decidable (_ ∧ _))

/-- Sleepers are neither early, late nor forgotten. -/
structure Punctual (clock : Clock) : Prop where
  /-- A timer interrupt goes through, and then the queue holds back exactly who is not due. -/
  tick : ∀ yields, clock.interruptible → ∃ s', clockStep clock (.tick yields) = some s' ∧
    ∀ elem ∈ s'.sleepQueue, s'.blockedIn elem ↔ s'.ticks < (s'.elem elem).wakeTicks
  /-- Who is blocked in `timer_sleep` is in the queue. -/
  queued : ∀ t elem, clock.place t = .asleep elem → clock.status t = .blocked →
    elem ∈ clock.sleepQueue ∧ (clock.elem elem).currentThread = t
  /-- Who is blocked has not been unblocked yet, and who comes back has been, once. -/
  once : ∀ t elem, clock.place t = .asleep elem →
    clock.unblocks elem = if clock.status t = .blocked then 0 else 1
  atMostOnce : ∀ elem, clock.unblocks elem ≤ 1
  /-- No thread in `timer_sleep` points to an entry that was unlinked. -/
  pointers : ∀ t elem, (clock.place t).refersTo elem → elem ∈ clock.sleepQueue

namespace SleepInvariant

variable {s s' : Clock} {e : ClockEvent} (inv : SleepInvariant s)
include inv

theorem advance (fits : PositionsFit s .advance) (ran : s.advance = some s') :
    SleepInvariant s' := by
  have spared : ∀ t, t ≠ s.current → s.place t ≠ .outside → s.spares t :=
    fun t o inside => fits t (inv.calling t inside).1 o
  have place := inv.places s.current
  have mid : s.place s.current ≠ .outside → s.code s.current = [] :=
    fun inside => (inv.calling _ inside).2
  unfold Clock.advance at ran
  unfold Clock.spares at spared
  generalize s.place s.current = here at place mid ran spared
  cases place with
  | outside => cases ran
  | first scans =>
    cases ran
    exact inv.setPlace (mid (by simp)) (.test scans ⟨Cursor.valid_head _, by simp⟩)
  | @test new cursor scans passed =>
    cases cursor with
    | none =>
      refine inv.insertAndBlock (mid (by simp)) scans passed
        (fun elem none => nomatch none) (fun t o target entry own => ?_) ran
      refine spared t o (fun outside => ?_) target entry own
      rw [outside] at target
      cases target
    | some elem =>
      have inside := passed.valid elem rfl
      simp only [if_pos inside] at ran
      split at ran
      · rename_i marked
        cases ran
        exact inv.setPlace (mid (by simp)) (.unlink scans passed marked)
      · cases ran
        exact inv.setPlace (mid (by simp)) (.compare scans passed)
  | @unlink new elem scans passed marked =>
    have inside := passed.valid elem rfl
    simp only [if_pos inside] at ran
    cases ran
    refine inv.unlink (mid (by simp)) scans passed marked fun t o refers => ?_
    have spare : (s.place t).refersTo elem = false := spared t o fun outside => by
        simp [outside, Place.refersTo, Place.target] at refers
    rw [refers] at spare
    cases spare
  | @compare new elem scans passed =>
    have inside := passed.valid elem rfl
    simp only [if_pos inside] at ran
    split at ran
    · rename_i later
      cases ran
      exact inv.setPlace (mid (by simp)) (.insert scans passed later)
    · rename_i no_later
      cases ran
      exact inv.setPlace (mid (by simp)) (.next scans passed (Int.not_lt.mp no_later))
  | @insert new elem scans passed later =>
    have inside := passed.valid elem rfl
    simp only [if_pos inside] at ran
    refine inv.insertAndBlock (mid (by simp)) scans passed ?_ (fun t o target entry own => ?_) ran
    · intro found same
      cases same
      exact later
    · refine spared t o (fun outside => ?_) target entry own
      rw [outside] at target
      cases target
  | head scans =>
    cases ran
    exact inv.setPlace (mid (by simp)) (.test scans ⟨Cursor.valid_head _, by simp⟩)
  | @next new elem scans passed no_later =>
    have inside := passed.valid elem rfl
    simp only [if_pos inside] at ran
    cases ran
    refine inv.setPlace (mid (by simp)) (.test scans ⟨Cursor.valid_after _ _, fun o mem => ?_⟩)
    rcases Cursor.mem_before_after inv.nodup inside mem with prev | rfl
    · exact passed.earlier o prev
    · exact no_later
  | asleep =>
    cases ran
    exact inv.setPlace (mid (by simp)) .outside

/-- A timer interrupt goes through and marks every entry that is due. -/
theorem tick (enabled : s.interruptible) (yields : Bool) :
    ∃ s', s.tick yields = some s' ∧ SleepInvariant s' ∧
      ∀ elem ∈ s'.sleepQueue, (s'.elem elem).wakeTicks ≤ s'.ticks →
        (s'.elem elem).removeFlag = true := by
  have later : SleepInvariant { s with ticks := s.ticks + 1 } := { inv with
      due := fun elem mem marked => (inv.due elem mem marked).trans
        (show s.ticks ≤ s.ticks + 1 by omega) }
  obtain ⟨woken, loops, kept, keeps, marked⟩ := later.wakeLoop (fun elem mem => mem) inv.sorted
  have all : ∀ elem ∈ woken.sleepQueue, (woken.elem elem).wakeTicks ≤ woken.ticks →
      (woken.elem elem).removeFlag = true := by
    intro elem mem due
    rw [keeps.sleepQueue] at mem
    rw [keeps.wakeTicks, keeps.ticks] at due
    exact marked elem mem due
  unfold Clock.tick
  rw [if_pos enabled]
  change ∃ s', (Clock.wakeLoop _ _).bind _ = some s' ∧ _
  rw [loops]
  cases yields with
  | false => exact ⟨woken, rfl, kept, all⟩
  | true =>
    have enabledAfter : woken.toMachine.interruptible ∧ woken.admits .timer := by
      have both := enabled
      simp only [Clock.interruptible, Bool.and_eq_true] at both
      unfold Machine.interruptible Clock.admits Clock.resuming
      rw [keeps.code, keeps.current, keeps.place]
      exact both
    obtain ⟨yielded, switches⟩ := Kernel.exists_threadYield woken.toKernel
    have steps : woken.machineStep .timer =
        some { woken with toMachine := { yielded with code := woken.code } } := by
      simp only [Clock.machineStep, Threads.step, if_pos enabledAfter.1, switches, map_some]
    exact ⟨_, steps, kept.machineStep enabledAfter.2 steps, all⟩

theorem step (fits : PositionsFit s e) (ran : clockStep s e = some s') : SleepInvariant s' := by
  cases e with
  | base e =>
    simp only [clockStep] at ran
    split at ran
    · rename_i ok
      exact inv.machineStep ok ran
    · cases ran
  | tick yields =>
    by_cases enabled : s.interruptible
    · obtain ⟨next, ticks, kept, _⟩ := inv.tick enabled yields
      obtain rfl := some.inj (ticks.symm.trans ran)
      exact kept
    · simp only [clockStep, Clock.tick, if_neg enabled] at ran
      cases ran
  | sleep ticks =>
    simp only [clockStep] at ran
    split at ran
    · rename_i both
      cases ran
      exact inv.timerSleep ticks both.1
    · cases ran
  | advance => exact inv.advance fits ran

theorem blockedIn_iff {elem : ElemId} (mem : elem ∈ s.sleepQueue) :
    s.blockedIn elem ↔ (s.elem elem).removeFlag = false := by
  constructor
  · rintro ⟨place, blocked⟩
    have fits := inv.places (s.elem elem).currentThread
    rw [place] at fits
    cases fits with
    | asleep _ _ woken =>
      refine Bool.eq_false_iff.mpr fun marked => ?_
      exact woken marked blocked
  · intro plain
    exact ⟨inv.sleeping elem mem plain, inv.blocked_owner mem plain⟩

theorem punctual : Punctual s where
  tick yields enabled := by
    obtain ⟨s', ticks, kept, marked⟩ := inv.tick enabled yields
    refine ⟨s', ticks, fun elem mem => ?_⟩
    rw [kept.blockedIn_iff mem]
    constructor
    · intro plain
      by_contra due
      rw [marked elem mem (Int.not_lt.mp due)] at plain
      cases plain
    · intro early
      refine Bool.eq_false_iff.mpr fun flag => ?_
      exact absurd (kept.due elem mem flag) (Int.not_le.mpr early)
  queued t elem place blocked := by
    have fits := inv.places t
    rw [place] at fits
    cases fits with
    | asleep owner _ woken sleeps =>
      refine ⟨(sleeps (Bool.eq_false_iff.mpr fun marked => ?_)).1, owner⟩
      exact woken marked blocked
  once t elem place := by
    have fits := inv.places t
    rw [place] at fits
    rw [inv.counts]
    cases fits with
    | asleep _ _ woken sleeps =>
      cases flag : (s.elem elem).removeFlag with
      | true => rw [if_pos rfl, if_neg (woken flag)]
      | false => rw [if_neg (by simp), if_pos (sleeps flag).2]
  atMostOnce elem := by
    rw [inv.counts]
    split <;> simp
  pointers t elem refers := (inv.places t).mem_of_refersTo refers

end SleepInvariant

/-- If no thread is overtaken at the place it looks at, sleepers are neither early, late nor
forgotten. -/
theorem punctual_of_positionsFit (values : Nat → Nat) (events : List ClockEvent)
    (fits : Execution.Meets clockStep PositionsFit (clockBoot values) events) :
    Execution.Along clockStep Punctual (clockBoot values) events :=
  Execution.along_of_meets (sleepInvariant_boot values) SleepInvariant.step
    SleepInvariant.punctual fits

/-- `main` creates a thread of its own priority. -/
def createPeer : List ClockEvent :=
  .base (.start (.threadCreate 31)) :: List.replicate 10 (.base .run)

/-- `main` sleeps, then its peer for a shorter time; the peer's entry goes in front. -/
theorem punctual_two_sleepers :
    let events : List ClockEvent := createPeer ++ [.sleep 2, .advance, .advance, .sleep 1, .advance,
      .advance, .advance, .advance, .tick false, .tick false]
    (Execution.run clockStep (clockBoot fun _ => 0) events).isSome ∧
      Execution.Meets clockStep PositionsFit (clockBoot fun _ => 0) events ∧
      Execution.Along clockStep Punctual (clockBoot fun _ => 0) events := by
  intro events
  have cond : Execution.Meets clockStep PositionsFit (clockBoot fun _ => 0) events := by
    decide +kernel
  exact ⟨by decide +kernel, cond, punctual_of_positionsFit _ _ cond⟩

/-- `main` calls `timer_sleep (2)` and finds the queue empty.  A tick switches to its peer, which
calls `timer_sleep (100)` and blocks in the queue.  `main` goes on and inserts itself at the end. -/
def overtaken : List ClockEvent :=
  createPeer ++ [.sleep 2, .advance, .tick true, .sleep 100, .advance, .advance, .advance]

/-- At the next tick `main` is due but stays blocked behind its peer. -/
theorem overtaken_sleeps_on :
    ∃ before after, Execution.run clockStep (clockBoot fun _ => 0) overtaken = some before ∧
      clockStep before (.tick false) = some after ∧ 0 ∈ after.sleepQueue ∧ after.blockedIn 0 ∧
      (after.elem 0).currentThread = 1 ∧ (after.elem 0).wakeTicks ≤ after.ticks ∧
      ¬ Punctual before := by
  let before := (Execution.run clockStep (clockBoot fun _ => 0) overtaken).get (by decide +kernel)
  let after := (clockStep before (.tick false)).get (by decide +kernel)
  have ticks : clockStep before (.tick false) = some after := (some_get _).symm
  have facts : 0 ∈ after.sleepQueue ∧ after.blockedIn 0 ∧ (after.elem 0).currentThread = 1 ∧
      (after.elem 0).wakeTicks ≤ after.ticks := by
    decide +kernel
  obtain ⟨member, blocked, owner, due⟩ := facts
  refine ⟨before, after, (some_get _).symm, ticks, member, blocked, owner, due, ?_⟩
  intro punctual
  obtain ⟨next, is_next, exactly⟩ := punctual.tick false (by decide +kernel)
  obtain rfl := some.inj (ticks.symm.trans is_next)
  exact absurd ((exactly 0 member).mp blocked) (Int.not_lt.mpr due)

end Pintos.Devices
