import Pintos.Userprog.Families

/-!
# What a step does to the records

Most steps only move threads on.  The others make a process, mark a child as waited for, free the
statuses of the children, or return from `process_execute` or `process_wait`.
-/

namespace Pintos.Userprog

open Function Option Processes

namespace Processes

variable {s s' : Processes} {tid : Tid}

/-- A thread stays inside or outside of the calls that are recorded. -/
structure SameCall (old new : Place) : Prop where
  closing : new.closing = false → old.closing = false
  execsFor : ∀ child, old.execsFor = some child → new.execsFor = some child
  answering : ∀ child, old ≠ .answering child ∧ new ≠ .answering child
  nullPath : ∀ named, new ≠ .nullPath named

theorem SameCall.outside {old new : Place} (closing : old.closing = false)
    (execsFor : old.execsFor = none)
    (answering : ∀ child, old ≠ .answering child ∧ new ≠ .answering child)
    (nullPath : ∀ named, new ≠ .nullPath named) : SameCall old new :=
  ⟨fun _ => closing, fun child calls => absurd (execsFor.symm.trans calls) (by simp), answering,
    nullPath⟩

/-- Threads move on, and endings are settled once. -/
structure Quiet (s s' : Processes) : Prop where
  childList : s'.childList = s.childList
  waitList : s'.waitList = s.waitList
  execs : s'.execs = s.execs
  waits : s'.waits = s.waits
  endings : ∀ child ending, s.endings child = some ending → s'.endings child = some ending
  loads : ∀ child success, s.loads child = some success → s'.loads child = some success
  place : ∀ t new, s'.place t = some new →
    ∃ old, s.place t = some old ∧ (old = new ∨ SameCall old new)

/-- What a step does. -/
inductive Outcome (s s' : Processes) (e : ProcessEvent) : Prop
  | quiet (quiet : Quiet s s')
  /-- `process_execute` finds no token in its copy of the command line. -/
  | crashes (tid : Tid) (named : Bool) (here : s.place tid = some .user)
      (calls : ∃ cmdline opens page, e = .exec tid cmdline opens true page ∧
        namesFile opens cmdline = named ∧ namesFile opens (tmpfilename cmdline) = false)
      (eq : s' = s.setPlace tid (some (.nullPath named)))
  /-- `process_execute` returns without a thread. -/
  | fails (tid : Tid) (attempt : Attempt) (here : s.place tid = some .user)
      (childless : ∀ child, attempt ≠ .thread child)
      (calls : attempt = .notOpened → ∃ cmdline opens page,
        e = .exec tid cmdline opens true page ∧
        namesFile opens cmdline = true ∧ namesFile opens (tmpfilename cmdline) = false)
      (eq : s' = s.returnExec tid attempt none)
  | creates (tid : Tid) (here : s.place tid = some .user) (eq : s' = s.threadCreate tid)
  /-- `process_execute` does not find its child any more. -/
  | misses (tid child : Tid) (runs : e = .run tid) (here : s.place tid = some (.created child))
      (gone : s.place child = none) (eq : s' = s.returnExec tid (.thread child) (some child))
  /-- `process_execute` reads the status. -/
  | reads (tid child : Tid) (status : Int) (runs : e = .run tid)
      (here : s.place tid = some (.reading child))
      (read : s.exitStatus child = some status)
      (eq : s' = s.returnExec tid (.thread child) (if status = -1 then none else some child))
  /-- `process_wait` refuses to wait. -/
  | rejects (tid child : Tid) (here : s.place tid = some .user)
      (unfit : child ∈ s.childList tid → child ∈ s.waitList tid)
      (eq : s' = s.returnWait tid child (-1))
  | marks (tid child : Tid) (here : s.place tid = some (.marking child))
      (eq : s.threadMarkWaited tid child = some s')
  /-- `process_wait` returns the status. -/
  | answers (tid child : Tid) (status : Int) (runs : e = .run tid)
      (here : s.place tid = some (.answering child))
      (read : s.exitStatus child = some status) (eq : s' = s.returnWait tid child status)
  | closes (tid : Tid) (here : s.place tid = some .exiting)
      (eq : s.processExit tid = some s')

theorem SameCall.ofUser {new : Place} (unanswered : ∀ child, new ≠ .answering child)
    (opens : ∀ named, new ≠ .nullPath named) : SameCall .user new :=
  ⟨fun _ => rfl, nofun, fun child => ⟨nofun, unanswered child⟩, opens⟩

theorem Quiet.move {old new : Place} (here : s.place tid = some old) (same : SameCall old new) :
    Quiet s (s.setPlace tid (some new)) where
  childList := rfl
  waitList := rfl
  execs := rfl
  waits := rfl
  endings _ _ found := found
  loads _ _ found := found
  place t place found := by
    by_cases eq : t = tid
    · subst eq
      obtain rfl : new = place := by simpa using found
      exact ⟨old, here, .inr same⟩
    · exact ⟨place, (update_of_ne eq _ _).symm.trans found, .inl rfl⟩

theorem Quiet.trans {mid : Processes} (fst : Quiet s mid) (snd : Quiet mid s') :
    Quiet s s' where
  childList := snd.childList.trans fst.childList
  waitList := snd.waitList.trans fst.waitList
  execs := snd.execs.trans fst.execs
  waits := snd.waits.trans fst.waits
  endings child ending found := snd.endings child ending (fst.endings child ending found)
  loads child success found := snd.loads child success (fst.loads child success found)
  place t new found := by
    obtain ⟨middlePlace, between, later⟩ := snd.place t new found
    obtain ⟨old, was, prev⟩ := fst.place t middlePlace between
    refine ⟨old, was, ?_⟩
    rcases later with rfl | later
    · exact prev
    · rcases prev with rfl | prev
      · exact .inr later
      · exact .inr
          { closing := fun closing => prev.closing (later.closing closing)
            execsFor := fun child runs => later.execsFor child (prev.execsFor child runs)
            answering := fun child => ⟨(prev.answering child).1, (later.answering child).2⟩
            nullPath := later.nullPath }

theorem Quiet.setSema (signal : Signal) (sema : Threads.Semaphore) :
    Quiet s (s.setSema signal sema) :=
  ⟨rfl, rfl, rfl, rfl, fun _ _ found => found, fun _ _ found => found,
    fun _ new found => ⟨new, found, .inl rfl⟩⟩

theorem Quiet.setStatus (status : Option Int) : Quiet s (s.setStatus tid status) :=
  ⟨rfl, rfl, rfl, rfl, fun _ _ found => found, fun _ _ found => found,
    fun _ new found => ⟨new, found, .inl rfl⟩⟩

theorem Quiet.setEnding {ending : Ending} (unended : s.endings tid = none) :
    Quiet s (s.setEnding tid ending) where
  childList := rfl
  waitList := rfl
  execs := rfl
  waits := rfl
  endings child old found := by
    have o : child ≠ tid := by
      rintro rfl
      rw [unended] at found
      cases found
    exact (update_of_ne o _ _).trans found
  loads _ _ found := found
  place _ new found := ⟨new, found, .inl rfl⟩

theorem Quiet.setLoad {ok : Bool} (loading : s.loads tid = none) : Quiet s (s.setLoad tid ok) where
  childList := rfl
  waitList := rfl
  execs := rfl
  waits := rfl
  endings _ _ found := found
  loads child old found := by
    have o : child ≠ tid := by
      rintro rfl
      rw [loading] at found
      cases found
    exact (update_of_ne o _ _).trans found
  place _ new found := ⟨new, found, .inl rfl⟩

theorem Quiet.semaUp {signal : Signal} {old new : Place} (here : s.place tid = some old)
    (awake : old.asleepOn = none) (same : SameCall old new)
    (raised : s.semaUp tid signal new = some s') : Quiet s s' := by
  unfold Processes.semaUp at raised
  split at raised
  · cases raised
    exact (Quiet.setSema signal _).trans (Quiet.move here same)
  · split at raised
    · rename_i w rest waiters blocked
      cases raised
      have o : tid ≠ w := by
        rintro rfl
        rw [here] at blocked
        cases blocked
        cases awake
      have woken : SameCall (.down signal .blocked) (.down signal .retest) :=
        ⟨fun _ => rfl, fun child runs => by cases signal <;> exact runs, by simp, by simp⟩
      refine ((Quiet.setSema signal _).trans (Quiet.move blocked woken)).trans (Quiet.move ?_ same)
      exact (update_of_ne o _ _).trans here
    · cases raised

theorem Quiet.threadExit (empty : s.waitList tid = []) : Quiet s (s.threadExit tid) where
  childList := by simp [Processes.threadExit, empty]
  waitList := rfl
  execs := rfl
  waits := rfl
  endings _ _ found := found
  loads _ _ found := found
  place t new found := by
    by_cases eq : t = tid
    · subst eq
      simp [threadExit] at found
    · exact ⟨new, (update_of_ne eq _ _).symm.trans found, .inl rfl⟩

theorem outcome_of_execute {place : Place} (lists : Lists s) (here : s.place tid = some place)
    (ran : s.execute tid place = some s') : Outcome s s' (.run tid) := by
  cases place with
  | user | loading | nullPath named => cases ran
  | refused => exact .quiet (.semaUp here rfl (.outside rfl rfl (by simp) (by simp)) ran)
  | started => exact .quiet (.semaUp here rfl (.outside rfl rfl (by simp) (by simp)) ran)
  | exiting => exact .closes tid here ran
  | signalling =>
    exact .quiet (.semaUp here rfl
      ⟨(fun same => by cases same), (fun _ same => by cases same), by simp, by simp⟩ ran)
  | dying =>
    cases ran
    exact .quiet (.threadExit (lists.closed tid _ here rfl))
  | created child =>
    simp only [execute] at ran
    split at ran
    · rename_i gone
      exact .misses tid child rfl here gone (some.inj ran).symm
    · cases ran
      exact .quiet (.move here ⟨fun _ => rfl, fun _ runs => runs, by simp, by simp⟩)
  | down signal stage =>
    have takes : ∀ {sema : Threads.Semaphore},
        Quiet s ((s.setSema signal sema).setPlace tid (some (afterDown signal))) := by
      intro sema
      refine (Quiet.setSema signal sema).trans (Quiet.move here ?_)
      cases signal with
      | exec child => exact ⟨fun _ => rfl, fun _ runs => runs, by simp, by simp⟩
      | wait child => exact .outside rfl rfl (by simp) (by simp)
    have sleeps : SameCall (.down signal stage) (.down signal .blocked) :=
      ⟨fun _ => rfl, fun child runs => by cases signal <;> exact runs, by simp, by simp⟩
    cases stage with
    | enter =>
      simp only [execute, semaDown] at ran
      split at ran
      · cases ran
      · split at ran
        · cases ran
          exact .quiet takes
        · cases ran
          exact .quiet ((Quiet.setSema signal _).trans (Quiet.move here sleeps))
    | blocked => cases ran
    | retest =>
      simp only [execute, semaDownTest] at ran
      split at ran
      · cases ran
      · split at ran
        · cases ran
          exact .quiet takes
        · cases ran
          exact .quiet (Quiet.move here sleeps)
  | reading child =>
    obtain ⟨status, found, rfl⟩ := map_eq_some_iff.mp ran
    unfold threadGetExitStatus at found
    split at found
    · exact .reads tid child status rfl here found rfl
    · cases found
  | looking child =>
    simp only [execute] at ran
    split at ran
    · cases ran
      exact .quiet (.move here (.outside rfl rfl (by simp) (by simp)))
    · cases ran
      exact .quiet (.move here (.outside rfl rfl (by simp) (by simp)))
  | collecting child =>
    simp only [execute] at ran
    split at ran
    · cases ran
      exact .quiet (.move here (.outside rfl rfl (by simp) (by simp)))
    · cases ran
  | marking child => exact .marks tid child here ran
  | answering child =>
    obtain ⟨status, found, rfl⟩ := map_eq_some_iff.mp ran
    exact .answers tid child status rfl here found rfl

theorem Quiet.endProcess {status : Int} {ending : Ending} (here : s.place tid = some .user)
    (unended : s.endings tid = none) (ended : s.endProcess tid status ending = some s') :
    Quiet s s' := by
  obtain ⟨given, assigns, rfl⟩ := map_eq_some_iff.mp ended
  obtain ⟨_, _, rfl⟩ := map_eq_some_iff.mp assigns
  refine ((Quiet.setStatus (some status)).trans (Quiet.setEnding unended)).trans
    (Quiet.move here (.ofUser (by simp) (by simp)))

theorem outcome_of_processExecute {cmdline : Filesys.CString} {opens : Filesys.CString → Bool}
    {argument page : Bool} (here : s.place tid = some .user) :
    Outcome s (s.processExecute tid cmdline opens argument page)
      (.exec tid cmdline opens argument page) := by
  unfold processExecute
  split
  · rename_i given
    subst given
    cases token : firstToken (tmpfilename cmdline) with
    | none =>
      have unnamed : namesFile opens (tmpfilename cmdline) = false := by
        simp only [namesFile, token]
      exact .crashes tid _ here ⟨cmdline, opens, page, rfl, rfl, unnamed⟩ rfl
    | some name =>
      dsimp only
      split
      · split
        · exact .creates tid here rfl
        · exact .fails tid .noThread here nofun nofun rfl
      · rename_i closed
        have unnamed : namesFile opens (tmpfilename cmdline) = false := by
          simpa only [namesFile, token, Bool.not_eq_true] using closed
        split
        · rename_i named
          exact .fails tid .notOpened here nofun
            (fun _ => ⟨cmdline, opens, page, rfl, named, unnamed⟩) rfl
        · exact .fails tid .absent here nofun nofun rfl
  · exact .fails tid .noThread here nofun nofun rfl

theorem Family.outcome {e : ProcessEvent} (family : Family s)
    (ran : s.step e = some s') : Outcome s s' e := by
  cases e with
  | exec tid cmdline opens argument page =>
    simp only [Processes.step] at ran
    split at ran
    · rename_i here
      cases ran
      exact outcome_of_processExecute here
    · cases ran
  | wait tid child =>
    simp only [Processes.step] at ran
    split at ran
    · rename_i here
      split at ran
      · cases ran
        exact .quiet (.move here (.ofUser (by simp) (by simp)))
      · rename_i unfit
        refine .rejects tid child here (fun listed => ?_) (some.inj ran).symm
        by_contra unwaited
        exact unfit ⟨listed, unwaited⟩
    · cases ran
  | exit tid status =>
    simp only [Processes.step] at ran
    split at ran
    · rename_i here
      exact .quiet (.endProcess here (family.statuses.unended tid _ here rfl) ran)
    · cases ran
  | kill tid =>
    simp only [Processes.step] at ran
    split at ran
    · rename_i here
      exact .quiet (.endProcess here (family.statuses.unended tid _ here rfl) ran)
    · cases ran
  | exception tid =>
    simp only [Processes.step] at ran
    split at ran
    · rename_i here
      cases ran
      exact .quiet ((Quiet.setEnding (family.statuses.unended tid _ here.1 rfl)).trans
        (Quiet.move here.1 (.ofUser (by simp) (by simp))))
    · cases ran
  | load tid ok =>
    simp only [Processes.step] at ran
    split at ran
    · rename_i here
      have loading := family.statuses.loading tid here
      split at ran
      · cases ran
        exact .quiet ((Quiet.setLoad loading).trans
          (Quiet.move here (.outside rfl rfl (by simp) (by simp))))
      · obtain ⟨given, assigns, rfl⟩ := map_eq_some_iff.mp ran
        obtain ⟨_, _, rfl⟩ := map_eq_some_iff.mp assigns
        have unended := family.statuses.unended tid _ here rfl
        exact .quiet ((((Quiet.setStatus (some (-1))).trans (Quiet.setLoad loading)).trans
          (Quiet.setEnding unended)).trans (Quiet.move here (.outside rfl rfl (by simp) (by simp))))
    · cases ran
  | run tid =>
    obtain ⟨place, here, ran⟩ := bind_eq_some_iff.mp ran
    exact outcome_of_execute family.lists here ran

end Processes

end Pintos.Userprog
