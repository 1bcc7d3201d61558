import Pintos.Userprog.Statuses

/-!
# Signals between processes

When a child has raised `exec_sema` or `wait_sema`, and who is blocked on it.
-/

namespace Pintos.Userprog

namespace Processes

variable {s s' : Processes} {tid c : Tid} {sig : Signal} {stage : Stage} {place : Place}

/-- The two semaphores of a child are zero until it raises them, and then one until the parent takes
the unit; who is in the queue is blocked, and was not woken yet. -/
structure Signals (s : Processes) : Prop where
  queued : ∀ tid sig, tid ∈ (s.sema sig).waiters →
    s.place tid = some (.down sig .blocked)
  asleep : ∀ tid sig, s.place tid = some (.down sig .blocked) →
    tid ∈ (s.sema sig).waiters
  nodup : ∀ sig, (s.sema sig).waiters.Nodup
  execLow : ∀ c place, s.place c = some place → place.unannounced = true →
    (s.sema (.exec c)).value = 0
  waitLow : ∀ c place, s.place c = some place → place ≠ .dying →
    (s.sema (.wait c)).value = 0
  execSleep : ∀ tid c, s.place tid = some (.down (.exec c) .blocked) →
    ∃ place, s.place c = some place ∧ place.unannounced = true
  waitSleep : ∀ tid c, s.place tid = some (.down (.wait c) .blocked) →
    ∃ place, s.place c = some place ∧ place ≠ .dying
  execHigh : ∀ tid c place childPlace, s.place tid = some place → place.armedFor = some c →
    s.place c = some childPlace → childPlace.unannounced = false →
    0 < (s.sema (.exec c)).value
  waitHigh : ∀ tid c place, s.place tid = some place → place.closing = false →
    place.passedFor ≠ some c → c ∈ s.childList tid → c ∉ s.waitList tid →
    s.place c = some .dying → 0 < (s.sema (.wait c)).value
  execTest : ∀ tid c place, s.place tid = some (.down (.exec c) .retest) →
    s.place c = some place → place.unannounced = false
  execRead : ∀ tid c place, s.place tid = some (.reading c) → s.place c = some place →
    place.unannounced = false
  waitTest : ∀ tid c place, s.place tid = some (.down (.wait c) .retest) →
    s.place c = some place → place = .dying

attribute [grind →] Signals.queued Signals.asleep Signals.execLow Signals.waitLow Signals.execSleep
  Signals.waitSleep Signals.execHigh Signals.waitHigh Signals.execTest Signals.execRead
  Signals.waitTest

variable (signals : Signals s)
include signals

theorem Signals.move {old new : Place} (here : s.place tid = some old) (alive : old ≠ .dying)
    (lives : new ≠ .dying) (closing : new.closing = old.closing)
    (untold : new.unannounced = old.unannounced) (awake : old.asleepOn = none)
    (wakes : new.asleepOn = none) (untested : ∀ sig, new ≠ .down sig .retest)
    (unread : ∀ c, new ≠ .reading c)
    (armed : ∀ c, new.armedFor = some c → old.armedFor = some c)
    (passes : ∀ c, old.passedFor = some c →
      new.passedFor = some c) : Signals (s.setPlace tid (some new)) := by
  constructor
  case nodup => exact signals.nodup
  all_goals grind

/-- A thread goes on to a section that has nothing to do with a child. -/
theorem Signals.moveAlone {old new : Place} (here : s.place tid = some old) (alive : old ≠ .dying)
    (lives : new ≠ .dying) (closing : new.closing = old.closing)
    (untold : new.unannounced = old.unannounced) (awake : old.asleepOn = none)
    (unpassed : old.passedFor = none) (childless : new.childless = true) :
    Signals (s.setPlace tid (some new)) := by
  refine signals.move here alive lives closing untold awake ?_ ?_ ?_ ?_ ?_
  case refine_5 => simp [unpassed]
  all_goals cases new <;> simp_all [Place.childless, Place.asleepOn, Place.armedFor]

theorem Signals.threadMarkWaited (here : s.place tid = some (.marking c))
    (marked : s.threadMarkWaited tid c = some s') : Signals s' := by
  obtain ⟨status, found, rfl⟩ := Option.map_eq_some_iff.mp marked
  clear marked
  have passes : (Place.marking c).passedFor = some c := rfl
  have told : (Place.marking c).unannounced = false := rfl
  constructor
  case nodup => exact signals.nodup
  all_goals grind

theorem Signals.processExit (here : s.place tid = some .exiting)
    (exits : s.processExit tid = some s') : Signals s' := by
  obtain ⟨status, found, rfl⟩ := Option.map_eq_some_iff.mp exits
  clear exits
  constructor
  case nodup => exact signals.nodup
  all_goals grind

theorem Signals.threadExit (lists : Lists s) (here : s.place tid = some .dying) :
    Signals (s.threadExit tid) := by
  have empty : s.waitList tid = [] := lists.closed tid _ here rfl
  unfold Processes.threadExit
  simp only [empty, List.not_mem_nil, not_false_eq_true, decide_true, List.filter_true,
    Function.update_eq_self]
  constructor
  case nodup => exact signals.nodup
  all_goals grind

theorem Signals.threadCreate (lists : Lists s) (here : s.place tid = some .user) :
    Signals (s.threadCreate tid) := by
  have fresh := lists.fresh
  have unborn := lists.unborn
  have o : tid ≠ s.nextTid := by grind
  constructor
  case nodup =>
    have nodup := signals.nodup
    grind
  all_goals grind

theorem Signals.single {w : Tid} {rest : List Tid} (lists : Lists s)
    (waiters : (s.sema sig).waiters = w :: rest) : rest = [] := by
  have blocked : ∀ tid ∈ (s.sema sig).waiters, sig.child ∈ s.childList tid := by
    intro tid mem
    have place := signals.queued tid sig mem
    cases sig with
    | exec c => exact (lists.execChild tid c _ place rfl).1
    | wait c => exact (lists.waiting tid c _ place rfl).1
  have nodup := signals.nodup sig
  rw [waiters] at blocked nodup
  refine List.eq_nil_iff_forall_not_mem.mpr fun o mem => ?_
  have same := lists.unique w o sig.child (blocked w List.mem_cons_self)
    (blocked o (List.mem_cons_of_mem _ mem))
  subst same
  exact (List.nodup_cons.mp nodup).1 mem

/-- A waiter leaves the queue, as if it had not entered it yet. -/
theorem Signals.unqueue {w : Tid} (waiters : (s.sema sig).waiters = [w]) :
    Signals ((s.setSema sig ⟨(s.sema sig).value, []⟩).setPlace w (some (.down sig .enter))) := by
  have here := signals.queued w sig (by rw [waiters]; exact List.mem_cons_self)
  have nodup := signals.nodup
  have armed : (Place.down sig .blocked).armedFor = (Place.down sig .enter).armedFor := by
    cases sig <;> rfl
  have unpassed : (Place.down sig .blocked).passedFor = none := by
    cases sig <;> rfl
  have told : (Place.down sig .blocked).unannounced = false := rfl
  have closing : (Place.down sig .blocked).closing = false := rfl
  constructor <;> grind

theorem Signals.announce {old new : Place} (here : s.place tid = some old)
    (untold : old.unannounced = true) (told : new.unannounced = false)
    (lives : new ≠ .dying) (awake : new.asleepOn = none) (unarmed : new.armedFor = none)
    (untested : ∀ sig, new ≠ .down sig .retest) (unread : ∀ c, new ≠ .reading c)
    (waiters : (s.sema (.exec tid)).waiters = []) :
    Signals ((s.setSema (.exec tid) ⟨(s.sema (.exec tid)).value + 1, []⟩).setPlace tid
      (some new)) := by
  have nodup := signals.nodup
  have was : old.closing = false ∧ old.passedFor = none := by
    cases old <;> simp_all [Place.unannounced, Place.closing, Place.passedFor]
  constructor <;> grind

theorem Signals.signalled (here : s.place tid = some .signalling)
    (waiters : (s.sema (.wait tid)).waiters = []) :
    Signals ((s.setSema (.wait tid) ⟨(s.sema (.wait tid)).value + 1, []⟩).setPlace tid
      (some .dying)) := by
  have nodup := signals.nodup
  constructor <;> grind

theorem Signals.wake (here : s.place tid = some (.down sig .enter))
    (exec : ∀ c place, sig = .exec c → s.place c = some place → place.unannounced = false)
    (wait : ∀ c place, sig = .wait c → s.place c = some place → place = .dying) :
    Signals (s.setPlace tid (some (.down sig .retest))) := by
  have nodup := signals.nodup
  have armed : (Place.down sig .enter).armedFor = (Place.down sig .retest).armedFor := by
    cases sig <;> rfl
  have unpassed : (Place.down sig .enter).passedFor = none := by
    cases sig <;> rfl
  have told : (Place.down sig .enter).unannounced = false := rfl
  have closing : (Place.down sig .enter).closing = false := rfl
  constructor <;> grind

theorem Signals.takeExec (lists : Lists s) (here : s.place tid = some (.down (.exec c) stage))
    (awake : stage ≠ .blocked) (pos : 0 < (s.sema (.exec c)).value) :
    Signals ((s.setSema (.exec c) { s.sema (.exec c) with
      value := (s.sema (.exec c)).value - 1 }).setPlace tid (some (.reading c))) := by
  have alone : ∀ o place, s.place o = some place → place.armedFor = some c → o = tid := by
    intro o place there armed
    exact lists.unique o tid c
      (lists.execChild o c place there (Place.execsFor_of_armedFor armed)).1
      (lists.downExec here).1
  clear lists
  have armed : (Place.down (.exec c) stage).armedFor = some c := rfl
  have told : (Place.down (.exec c) stage).unannounced = false := rfl
  have nodup := signals.nodup
  constructor
  case nodup => grind
  all_goals
    clear nodup
    grind

theorem Signals.takeWait (lists : Lists s) (here : s.place tid = some (.down (.wait c) stage))
    (awake : stage ≠ .blocked) (pos : 0 < (s.sema (.wait c)).value) :
    Signals ((s.setSema (.wait c) { s.sema (.wait c) with
      value := (s.sema (.wait c)).value - 1 }).setPlace tid (some (.collecting c))) := by
  have alone : ∀ o, c ∈ s.childList o → o = tid :=
    fun o listed => lists.unique o tid c listed (lists.downWait here).1
  clear lists
  have told : (Place.down (.wait c) stage).unannounced = false := rfl
  have nodup := signals.nodup
  constructor
  case nodup => grind
  all_goals
    clear nodup
    grind

theorem Signals.take (lists : Lists s) (here : s.place tid = some (.down sig stage))
    (awake : stage ≠ .blocked) (pos : 0 < (s.sema sig).value) :
    Signals ((s.setSema sig { s.sema sig with value := (s.sema sig).value - 1 }).setPlace tid
      (some (afterDown sig))) := by
  cases sig with
  | exec c => exact signals.takeExec lists here awake pos
  | wait c => exact signals.takeWait lists here awake pos

theorem Signals.sleepExec (here : s.place tid = some (.down (.exec c) .enter))
    (alive : s.place c = some place) (untold : place.unannounced = true)
    (unqueued : tid ∉ (s.sema (.exec c)).waiters) : Signals ((s.setSema (.exec c)
      { s.sema (.exec c) with waiters := (s.sema (.exec c)).waiters ++ [tid] }).setPlace tid
        (some (.down (.exec c) .blocked))) := by
  have nodup := signals.nodup
  constructor
  case nodup => grind
  all_goals
    clear nodup
    grind

theorem Signals.sleepWait (here : s.place tid = some (.down (.wait c) .enter))
    (alive : s.place c = some place) (lives : place ≠ .dying)
    (unqueued : tid ∉ (s.sema (.wait c)).waiters) : Signals ((s.setSema (.wait c)
      { s.sema (.wait c) with waiters := (s.sema (.wait c)).waiters ++ [tid] }).setPlace tid
        (some (.down (.wait c) .blocked))) := by
  have nodup := signals.nodup
  constructor
  case nodup => grind
  all_goals
    clear nodup
    grind

theorem Signals.sleep (lists : Lists s) (here : s.place tid = some (.down sig .enter))
    (alive : s.place sig.child = some place) (zero : (s.sema sig).value = 0) :
    Signals ((s.setSema sig
      { s.sema sig with waiters := (s.sema sig).waiters ++ [tid] }).setPlace tid
        (some (.down sig .blocked))) := by
  have unqueued : tid ∉ (s.sema sig).waiters := by
    intro mem
    have blocked := signals.queued tid sig mem
    rw [here] at blocked
    cases blocked
  cases sig with
  | exec c =>
    refine signals.sleepExec here alive ?_ unqueued
    by_contra announced
    have pos := signals.execHigh tid c _ place here rfl alive (by simpa using announced)
    omega
  | wait c =>
    obtain ⟨listed, unwaited⟩ := lists.downWait here
    refine signals.sleepWait here alive ?_ unqueued
    rintro rfl
    have pos := signals.waitHigh tid c _ here rfl (by simp [Place.passedFor]) listed unwaited alive
    omega

end Processes

end Pintos.Userprog
