import Pintos.Userprog.Signals

/-!
# Families of processes

The lists, the statuses and the semaphores are consistent in every state that any interleaving of
exec, wait and termination reaches.
-/

namespace Pintos.Userprog

open Function Option Processes

namespace Processes

variable {s s' : Processes} {tid : Tid} {sig : Signal} {old new place : Place}

/-- What holds in every state. -/
structure Family (s : Processes) : Prop where
  lists : Lists s
  statuses : Statuses s
  signals : Signals s

/-- What a thread needs to go on from one section to another without a semaphore. -/
structure Moves (s : Processes) (tid : Tid) (old new : Place) : Prop where
  alive : old ≠ .dying
  lives : new ≠ .dying
  loading : old ≠ .loading
  later : new ≠ .loading
  ending : new.ending = old.ending
  closing : new.closing = old.closing
  unannounced : new.unannounced = old.unannounced
  awake : old.asleepOn = none
  wakes : new.asleepOn = none
  untested : ∀ sig, new ≠ .down sig .retest
  unread : ∀ child, new ≠ .reading child
  unanswered : ∀ child, new ≠ .answering child
  armed : ∀ child, new.armedFor = some child → old.armedFor = some child
  keeps : ∀ child, old.passedFor = some child → new.passedFor = some child
  executes : ∀ child, new.execsFor = some child → child ∈ s.childList tid ∧ child ∉ s.waitList tid
  waits : ∀ child, new.waitsFor = some child → child ∈ s.childList tid ∧ child ∉ s.waitList tid
  passes : ∀ child place, new.passedFor = some child → s.place child = some place → place = .dying

theorem Family.move (family : Family s) (here : s.place tid = some old)
    (moves : Moves s tid old new) : Family (s.setPlace tid (some new)) where
  lists := family.lists.move here moves.alive moves.closing moves.executes moves.waits moves.passes
    moves.unanswered
  statuses := family.statuses.move here moves.ending moves.loading moves.later
  signals := family.signals.move here moves.alive moves.lives moves.closing moves.unannounced
    moves.awake moves.wakes moves.untested moves.unread moves.armed moves.keeps

theorem Family.record (family : Family s) (execs : List ExecRecord) (waits : List WaitRecord) :
    Family { s with execs, waits } where
  lists := { family.lists with }
  statuses := { family.statuses with }
  signals := { family.signals with }

theorem Moves.toUser (alive : old ≠ .dying) (loading : old ≠ .loading) (ending : old.ending = false)
    (untold : old.unannounced = false) (awake : old.asleepOn = none)
    (unpassed : old.passedFor = none) : Moves s tid old .user := by
  have closing : old.closing = false := by
    cases old <;> simp_all [Place.ending, Place.closing]
  constructor <;> grind

theorem Family.threadCreate (family : Family s) (here : s.place tid = some .user) :
    Family (s.threadCreate tid) where
  lists := family.lists.threadCreate here
  statuses := family.statuses.threadCreate family.lists here
  signals := family.signals.threadCreate family.lists here

theorem Family.processExecute {cmdline : Filesys.CString} {opens : Filesys.CString → Bool}
    {argument page : Bool} (family : Family s) (here : s.place tid = some .user) :
    Family (s.processExecute tid cmdline opens argument page) := by
  have gives := family.move here (.toUser (by simp) (by simp) rfl rfl rfl rfl)
  unfold Processes.processExecute
  split
  · split
    · refine family.move here ?_
      constructor <;> grind
    · split
      · split
        · exact family.threadCreate here
        · exact gives.record _ _
      · split
        · exact gives.record _ _
        · exact gives.record _ _
  · exact gives.record _ _

/-- `sema_up` moves a waiter, if there is one, and the caller. -/
theorem Lists.semaUp (lists : Lists s) (here : s.place tid = some old) (awake : old.asleepOn = none)
    (move : ∀ {s}, Lists s → s.place tid = some old → Lists (s.setPlace tid (some new)))
    (raised : s.semaUp tid sig new = some s') : Lists s' := by
  unfold Processes.semaUp at raised
  split at raised
  · cases raised
    exact { move lists here with }
  · split at raised
    · rename_i w rest waiters blocked
      cases raised
      have o : tid ≠ w := by
        rintro rfl
        rw [here] at blocked
        cases blocked
        cases awake
      have woken : Lists (s.setPlace w (some (.down sig .retest))) := by
        refine lists.move blocked (by simp) rfl (fun child runs => ?_) (fun child waits => ?_)
          (fun child place passes => ?_) (by simp)
        · exact lists.execChild w child _ blocked (by cases sig <;> exact runs)
        · exact lists.waiting w child _ blocked (by cases sig <;> exact waits)
        · cases sig <;> cases passes
      exact { move woken ((update_of_ne o _ _).trans here) with }
    · cases raised

theorem Statuses.semaUp (statuses : Statuses s) (here : s.place tid = some old)
    (awake : old.asleepOn = none) (ending : new.ending = old.ending) (loading : old ≠ .loading)
    (later : new ≠ .loading) (raised : s.semaUp tid sig new = some s') : Statuses s' := by
  unfold Processes.semaUp at raised
  split at raised
  · cases raised
    exact { statuses.move here ending loading later with }
  · split at raised
    · rename_i w rest waiters blocked
      cases raised
      have o : tid ≠ w := by
        rintro rfl
        rw [here] at blocked
        cases blocked
        cases awake
      have woken : Statuses (s.setPlace w (some (.down sig .retest))) :=
        statuses.move blocked rfl (by simp) (by simp)
      exact { woken.move ((update_of_ne o _ _).trans here) ending loading later with }
    · cases raised

/-- Raising a semaphore with a waiter is raising it without one, before the waiter enters the
queue. -/
theorem Signals.semaUp (signals : Signals s) (lists : Lists s) (here : s.place tid = some old)
    (awake : old.asleepOn = none) (child : sig.child = tid)
    (exec : ∀ child, sig = .exec child → new.unannounced = false)
    (wait : ∀ child, sig = .wait child → new = .dying)
    (raise : ∀ {s}, Signals s → s.place tid = some old → (s.sema sig).waiters = [] →
      Signals ((s.setSema sig ⟨(s.sema sig).value + 1, []⟩).setPlace tid (some new)))
    (raised : s.semaUp tid sig new = some s') : Signals s' := by
  unfold Processes.semaUp at raised
  split at raised
  · rename_i waiters
    cases raised
    exact raise signals here waiters
  · split at raised
    · rename_i w rest waiters blocked
      obtain rfl := signals.single lists waiters
      cases raised
      have o : tid ≠ w := by
        rintro rfl
        rw [here] at blocked
        cases blocked
        cases awake
      have out := signals.unqueue waiters
      have told := raise out ((update_of_ne o _ _).trans here) (by simp)
      have waits : (update (update s.place w (some (.down sig .enter))) tid
          (some new)) w = some (.down sig .enter) := by
        rw [update_of_ne o.symm, update_self]
      have woken := told.wake waits ?_ ?_
      · have places : update (update (update s.place w
            (some (.down sig .enter))) tid (some new)) w (some (.down sig .retest)) =
            update (update s.place w (some (.down sig .retest))) tid (some new) := by
          rw [update_comm o, update_idem]
        have semas : update (update s.sema sig ⟨(s.sema sig).value, []⟩) sig
            ⟨(update s.sema sig ⟨(s.sema sig).value, []⟩ sig).value + 1, []⟩ =
            update s.sema sig ⟨(s.sema sig).value + 1, []⟩ := by
          rw [update_self, update_idem]
        rw [setPlace, setPlace, setSema, ← places, ← semas]
        exact woken
      · rintro raiser place rfl found
        obtain rfl : raiser = tid := child
        obtain rfl : new = place := by simpa using found
        exact exec raiser rfl
      · rintro raiser place rfl found
        obtain rfl : raiser = tid := child
        obtain rfl : new = place := by simpa using found
        exact wait raiser rfl
    · cases raised

/-- `start_process` tells the parent that `load` has returned. -/
theorem Family.announce (family : Family s) (here : s.place tid = some old)
    (untold : old.unannounced = true) (loading : old ≠ .loading)
    (next : new = .user ∨ new = .exiting) (ending : new.ending = old.ending)
    (raised : s.semaUp tid (.exec tid) new = some s') : Family s' := by
  have awake : old.asleepOn = none := by
    cases old <;> simp_all [Place.unannounced, Place.asleepOn]
  have later : new ≠ .loading := by
    rcases next with rfl | rfl <;> simp
  have closing : old.closing = false ∧ old ≠ .dying := by
    cases old <;> simp_all [Place.unannounced, Place.closing]
  have told : new.unannounced = false ∧ new ≠ .dying ∧ new.asleepOn = none ∧
      new.armedFor = none ∧ new.closing = false ∧ new.childless = true ∧
      (∀ sig, new ≠ .down sig .retest) ∧ ∀ child, new ≠ .reading child := by
    rcases next with rfl | rfl <;> simp [Place.unannounced, Place.asleepOn, Place.armedFor,
      Place.closing, Place.childless]
  obtain ⟨heard, lives, wakes, unarmed, opens, childless, untested, unread⟩ := told
  refine ⟨?_, ?_, ?_⟩
  · refine family.lists.semaUp here awake (fun {s} lists here => ?_) raised
    exact lists.moveAlone here closing.2 (by rw [opens, closing.1]) childless
  · exact family.statuses.semaUp here awake ending loading later raised
  · refine family.signals.semaUp family.lists here awake rfl (fun _ _ => heard)
      (fun _ o => by cases o)
      (fun {s} signals here waiters => ?_) raised
    exact signals.announce here untold heard lives wakes unarmed untested unread waiters

theorem Family.signalled (family : Family s) (here : s.place tid = some .signalling)
    (raised : s.semaUp tid (.wait tid) .dying = some s') : Family s' := by
  refine ⟨?_, ?_, ?_⟩
  · refine family.lists.semaUp here rfl (fun {s} lists here => ?_) raised
    exact lists.moveAlone here (by simp) rfl rfl
  · exact family.statuses.semaUp here rfl (by rfl) (by simp) (by simp) raised
  · exact family.signals.semaUp family.lists here rfl rfl (fun _ o => by cases o) (fun _ _ => rfl)
      (fun signals here waiters => signals.signalled here waiters) raised

theorem Lists.down {stage : Stage} (lists : Lists s) (here : s.place tid = some (.down sig stage))
    (next : new = afterDown sig ∨ new = .down sig .blocked)
    (ended : ∀ child place, new = .collecting child → s.place child = some place → place = .dying) :
    Lists (s.setPlace tid (some new)) := by
  refine lists.move here (by simp) ?_ ?_ ?_ ?_ ?_
  · rcases next with rfl | rfl <;> cases sig <;> rfl
  · intro child runs
    refine lists.execChild tid child _ here ?_
    rcases next with rfl | rfl <;> cases sig <;> exact runs
  · intro child waits
    refine lists.waiting tid child _ here ?_
    rcases next with rfl | rfl <;> cases sig <;> exact waits
  · intro child place passes found
    refine ended child place ?_ found
    rcases next with rfl | rfl
    · cases sig with
      | exec raiser => cases passes
      | wait raiser =>
        cases passes
        rfl
    · cases sig <;> cases passes
  · intro child
    rcases next with rfl | rfl
    · cases sig <;> simp
    · simp

/-- A raised `wait_sema` was raised by a child that is about to leave. -/
theorem Signals.ended {child : Tid} (signals : Signals s)
    (pos : 0 < (s.sema (.wait child)).value) (found : s.place child = some place) :
    place = .dying := by
  by_contra lives
  have zero := signals.waitLow child place found lives
  omega

section

variable (family : Family s)
include family

theorem Family.take {stage : Stage} (here : s.place tid = some (.down sig stage))
    (awake : stage ≠ .blocked) (pos : 0 < (s.sema sig).value) :
    Family ((s.setSema sig { s.sema sig with value := (s.sema sig).value - 1 }).setPlace tid
      (some (afterDown sig))) where
  lists := by
    refine { family.lists.down here (.inl rfl) fun child place adds found => ?_ with }
    cases sig with
    | exec raiser => cases adds
    | wait raiser =>
      cases adds
      exact family.signals.ended pos found
  statuses := by
    have ending : (afterDown sig).ending = (Place.down sig stage).ending := by
      cases sig <;> rfl
    exact { family.statuses.move here ending (by simp) (by cases sig <;> simp) with }
  signals := family.signals.take family.lists here awake pos

theorem Family.semaDown (here : s.place tid = some (.down sig .enter))
    (lowered : s.semaDown tid sig = some s') : Family s' := by
  unfold Processes.semaDown at lowered
  split at lowered
  · cases lowered
  · rename_i place alive
    split at lowered
    · rename_i pos
      cases lowered
      exact family.take here (by simp) pos
    · rename_i zero
      cases lowered
      exact
        { lists := { family.lists.down here (.inr rfl) nofun with }
          statuses := { family.statuses.move here (by rfl) (by simp) (by simp) with }
          signals := family.signals.sleep family.lists here alive (by omega) }

theorem Family.positive (here : s.place tid = some (.down sig .retest))
    (alive : s.place sig.child = some place) : 0 < (s.sema sig).value := by
  cases sig with
  | exec child =>
    have told := family.signals.execTest tid child place here alive
    exact family.signals.execHigh tid child _ place here rfl alive told
  | wait child =>
    obtain rfl := family.signals.waitTest tid child place here alive
    obtain ⟨listed, unwaited⟩ := family.lists.downWait here
    exact family.signals.waitHigh tid child _ here rfl (by simp [Place.passedFor]) listed unwaited
      alive

theorem Family.semaDownTest (here : s.place tid = some (.down sig .retest))
    (lowered : s.semaDownTest tid sig = some s') : Family s' := by
  unfold Processes.semaDownTest at lowered
  split at lowered
  · cases lowered
  · rename_i place alive
    have pos := family.positive here alive
    rw [if_pos pos] at lowered
    cases lowered
    exact family.take here (by simp) pos

theorem Family.execute (here : s.place tid = some place)
    (ran : s.execute tid place = some s') : Family s' := by
  cases place with
  | user | loading | nullPath named => cases ran
  | refused => exact family.announce here rfl (by simp) (.inr rfl) rfl ran
  | started => exact family.announce here rfl (by simp) (.inl rfl) rfl ran
  | exiting =>
    exact ⟨family.lists.processExit here ran, family.statuses.processExit here ran,
      family.signals.processExit here ran⟩
  | signalling => exact family.signalled here ran
  | dying =>
    cases ran
    exact ⟨family.lists.threadExit here, family.statuses.threadExit here,
      family.signals.threadExit family.lists here⟩
  | created child =>
    have listed := family.lists.execChild tid child _ here rfl
    simp only [execute] at ran
    split at ran
    · cases ran
      exact (family.move here (.toUser (by simp) (by simp) rfl rfl rfl rfl)).record _ _
    · cases ran
      refine family.move here ?_
      constructor <;> grind
  | down sig stage =>
    cases stage with
    | enter => exact family.semaDown here ran
    | blocked => cases ran
    | retest => exact family.semaDownTest here ran
  | reading child =>
    obtain ⟨status, found, rfl⟩ := map_eq_some_iff.mp ran
    exact (family.move here (.toUser (by simp) (by simp) rfl rfl rfl rfl)).record _ _
  | looking child =>
    have listed := family.lists.waiting tid child _ here rfl
    simp only [execute] at ran
    split at ran
    · cases ran
      refine family.move here ?_
      constructor <;> grind
    · cases ran
      refine family.move here ?_
      constructor <;> grind
  | collecting child =>
    have listed := family.lists.waiting tid child _ here rfl
    have ended := fun place => family.lists.passed tid child _ place here rfl
    simp only [execute] at ran
    split at ran
    · cases ran
      refine family.move here ?_
      constructor <;> grind
    · cases ran
  | marking child =>
    exact ⟨family.lists.threadMarkWaited here ran, family.statuses.threadMarkWaited here ran,
      family.signals.threadMarkWaited here ran⟩
  | answering child =>
    obtain ⟨status, found, rfl⟩ := map_eq_some_iff.mp ran
    exact (family.move here (.toUser (by simp) (by simp) rfl rfl rfl rfl)).record _ _

theorem Family.endProcess {status : Int} {ending : Ending} (here : s.place tid = some .user)
    (word : statusWord (some ending) = status) (started : ending ≠ .refused)
    (ended : s.endProcess tid status ending = some s') : Family s' := by
  obtain ⟨given, assigns, rfl⟩ := map_eq_some_iff.mp ended
  obtain ⟨_, _, rfl⟩ := map_eq_some_iff.mp assigns
  refine ⟨?_, family.statuses.endProcess here word started, ?_⟩
  · exact { (family.lists.setStatus tid status).moveAlone here (by simp) (by rfl) (by rfl) with }
  · exact { family.signals.moveAlone here (by simp) (by simp) (by rfl) (by rfl) rfl rfl (by rfl) with }

theorem Family.step {e : ProcessEvent} (ran : s.step e = some s') : Family s' := by
  cases e with
  | exec tid cmdline opens argument page =>
    simp only [Processes.step] at ran
    split at ran
    · rename_i here
      cases ran
      exact family.processExecute here
    · cases ran
  | wait tid child =>
    simp only [Processes.step] at ran
    split at ran
    · rename_i here
      split at ran
      · rename_i listed
        cases ran
        refine family.move here ?_
        constructor <;> grind
      · cases ran
        exact (family.move here (.toUser (by simp) (by simp) rfl rfl rfl rfl)).record _ _
    · cases ran
  | exit tid status =>
    simp only [Processes.step] at ran
    split at ran
    · rename_i here
      exact family.endProcess here rfl (by simp) ran
    · cases ran
  | kill tid =>
    simp only [Processes.step] at ran
    split at ran
    · rename_i here
      exact family.endProcess here rfl (by simp) ran
    · cases ran
  | exception tid =>
    simp only [Processes.step] at ran
    split at ran
    · rename_i here
      cases ran
      refine ⟨?_, family.statuses.exception here.1, ?_⟩
      · exact { family.lists.moveAlone here.1 (by simp) (by rfl) (by rfl) with }
      · exact { family.signals.moveAlone here.1 (by simp) (by simp) (by rfl) (by rfl) rfl rfl (by rfl) with }
    · cases ran
  | load tid ok =>
    simp only [Processes.step] at ran
    split at ran
    · rename_i here
      split at ran
      · cases ran
        refine ⟨?_, family.statuses.load here, ?_⟩
        · exact { family.lists.moveAlone here (by simp) (by rfl) (by rfl) with }
        · exact { family.signals.moveAlone here (by simp) (by simp) (by rfl) (by rfl) rfl rfl (by rfl) with }
      · obtain ⟨given, assigns, rfl⟩ := map_eq_some_iff.mp ran
        obtain ⟨_, _, rfl⟩ := map_eq_some_iff.mp assigns
        refine ⟨?_, family.statuses.refuse tid, ?_⟩
        · exact { (family.lists.setStatus tid (-1)).moveAlone here (by simp) (by rfl) (by rfl)
            with }
        · exact { family.signals.moveAlone here (by simp) (by simp) (by rfl) (by rfl) rfl rfl (by rfl) with }
    · cases ran
  | run tid =>
    obtain ⟨place, here, ran⟩ := bind_eq_some_iff.mp ran
    exact family.execute here ran

end

theorem family_init : Family init := by
  have main : ∀ tid place, init.place tid = some place → tid = mainTid ∧ place = .user := by
    intro tid place found
    simp only [init] at found
    split at found
    · rename_i same
      exact ⟨same, (some.inj found).symm⟩
    · cases found
  refine ⟨?_, ?_, ?_⟩ <;> constructor <;> grind [init]

end Processes

end Pintos.Userprog
