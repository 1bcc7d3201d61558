import Pintos.Shell.Machine

/-!
# At most one foreground job

`waitfg` finds its job by pid, in the first slot that has it.  As long as `fork` never returns a pid
that is still in the job list, pids are distinct there, and no command is read before the foreground
job has gone or has been stopped.
-/

namespace Pintos.Shell

open Execution FirstMatch Jobs Option

/-- The job that may be in the foreground at this point. -/
def Control.foreground : Control → Option Int
  | .unblocking child false _ => some child
  | .waitTest pid => some pid
  | .waitState pid => some pid
  | .resuming .fg _ pid => some pid
  | _ => none

/-- Pids are distinct and no job but this one is in the foreground. -/
structure Jobs.Front (jobs : Jobs) (foreground : Option Int) : Prop where
  distinct : jobs.slots.Pairwise PidsDiffer
  only : ∀ job ∈ jobs.slots, job.state = .fg → foreground = some job.pid

namespace Jobs

variable {jobs : Jobs} {foreground : Option Int} {pid : Int}

section

variable (front : jobs.Front foreground)
include front

theorem Front.deletejob : (jobs.deletejob pid).Front foreground where
  distinct := pidsDiffer_deletejob front.distinct
  only job mem is_fg := by
    rcases mem_deletejob mem with old | rfl
    · exact front.only job old is_fg
    · cases is_fg

theorem Front.stop : (jobs.setState pid .st).Front foreground where
  distinct := pidsDiffer_setState front.distinct
  only job mem is_fg := by
    rcases mem_setState mem with old | ⟨_, _, _, rfl⟩
    · exact front.only job old is_fg
    · cases is_fg

theorem Front.report (report : Report) : (jobs.report report).Front foreground := by
  unfold Jobs.report
  split
  · exact front.deletejob
  · split
    · exact front.deletejob
    · split
      · exact front.stop
      · exact front

end

theorem Front.move (front : jobs.Front none) (verb : Verb) :
    (jobs.setState pid verb.state).Front (if verb = .fg then some pid else none) where
  distinct := pidsDiffer_setState front.distinct
  only job mem is_fg := by
    rcases mem_setState mem with old | ⟨old, _, same, rfl⟩
    · cases front.only job old is_fg
    · cases verb with
      | fg => exact congrArg some same.symm
      | bg => cases is_fg

/-- A job with a new pid is added while none is in the foreground. -/
theorem Front.addjob {background : Bool} {cmdline : String} (front : jobs.Front none)
    (fresh : ∀ job ∈ jobs.slots, job.pid ≠ pid) :
    (jobs.addjob pid (if background then .bg else .fg) cmdline).1.Front
      (if background then none else some pid) := by
  have same : jobs.Front (if background then none else some pid) :=
    ⟨front.distinct, fun job mem is_fg => by cases front.only job mem is_fg⟩
  unfold Jobs.addjob
  split
  · next pos =>
    split
    · refine ⟨pidsDiffer_insert pos front.distinct fresh, fun job mem is_fg => ?_⟩
      rcases mem_insert pos mem with old | rfl
      · cases front.only job old is_fg
      · cases background with
        | true => cases is_fg
        | false => rfl
    · exact same
  · exact same

/-- With the pid that `waitfg` waits for gone from the list, no job is in the foreground. -/
theorem Front.none_of_gone (front : jobs.Front (some pid)) (gone : jobs.getjobpid pid = none) :
    jobs.Front none := by
  refine ⟨front.distinct, fun job mem is_fg => ?_⟩
  have found := getjobpid_of_pairwise front.distinct mem (listed_of_fg mem is_fg)
  rw [← some.inj (front.only job mem is_fg), gone] at found
  cases found

/-- With the job that `waitfg` waits for not in the foreground, none is. -/
theorem Front.none_of_state {job : Job} (front : jobs.Front (some pid))
    (found : jobs.getjobpid pid = some job) (not_fg : job.state ≠ .fg) : jobs.Front none := by
  refine ⟨front.distinct, fun o mem is_fg => ?_⟩
  have other_found := getjobpid_of_pairwise front.distinct mem (listed_of_fg mem is_fg)
  rw [← some.inj (front.only o mem is_fg), found] at other_found
  cases other_found
  exact (not_fg is_fg).elim

end Jobs

namespace Msh

/-- The invariant: the foreground job is the one that the shell waits for, and the child that is
going to be added is new. -/
structure Single (shell : Msh) : Prop where
  front : shell.jobs.Front shell.control.foreground
  fresh : ∀ child background cmdline, shell.control = .adding child background cmdline →
    ∀ job ∈ shell.jobs.slots, job.pid ≠ child

/-- `fork` does not return the pid of a job in the list. -/
def ForkFits (shell : Msh) : Event → Prop
  | .fork pid => ∀ job ∈ shell.jobs.slots, job.pid ≠ pid
  | _ => True

instance (shell : Msh) : (e : Event) → Decidable (shell.ForkFits e)
  | .fork pid => inferInstanceAs (Decidable (∀ job ∈ shell.jobs.slots, job.pid ≠ pid))
  | .command _ _ _ => isTrue trivial
  | .eof => isTrue trivial
  | .advance => isTrue trivial
  | .sigchld _ => isTrue trivial
  | .sigint => isTrue trivial
  | .sigtstp => isTrue trivial

/-- No two entries of the job list are in the foreground. -/
def AtMostOneForeground (shell : Msh) : Prop :=
  shell.jobs.slots.Pairwise fun first second => ¬ (first.state = .fg ∧ second.state = .fg)

instance (shell : Msh) : Decidable shell.AtMostOneForeground :=
  inferInstanceAs (Decidable (List.Pairwise _ _))

variable {shell s' : Msh} {e : Event}

theorem Single.atMostOneForeground (single : shell.Single) : shell.AtMostOneForeground := by
  refine single.front.distinct.imp_of_mem ?_
  rintro fst snd first_member second_member differ ⟨first_fg, second_fg⟩
  have same := (single.front.only fst first_member first_fg).symm.trans
    (single.front.only snd second_member second_fg)
  exact differ (listed_of_fg first_member first_fg) (listed_of_fg second_member second_fg)
    (some.inj same)

/-- The invariant at a point where no child is going to be added. -/
theorem single_of_front (front : shell.jobs.Front shell.control.foreground)
    (apart : ∀ child bg cmdline, shell.control ≠ .adding child bg cmdline) :
    shell.Single :=
  ⟨front, fun child bg cmdline adding => (apart child bg cmdline adding).elim⟩

theorem Single.eval {argv : List String} {background : Bool} {cmdline : String}
    (single : shell.Single) (idle : shell.control = .prompt) :
    (shell.eval argv background cmdline).Single := by
  have front := single.front
  rw [idle] at front
  have moved : ∀ verb, (shell.doBgfg verb argv).Single := by
    intro verb
    unfold doBgfg
    dsimp only
    repeat' split
    all_goals exact single_of_front front nofun
  unfold Msh.eval
  split
  · exact single
  · split
    · exact single_of_front front nofun
    · split
      · refine single_of_front (show shell.jobs.Front shell.control.foreground from single.front) ?_
        intro child background cmdline adding
        cases idle.symm.trans adding
      · split
        · exact moved .bg
        · split
          · exact moved .fg
          · exact single_of_front front nofun

theorem Single.fork {pid : Int} {bg : Bool} {cmdline : String} (single : shell.Single)
    (forking : shell.control = .forking bg cmdline)
    (fits : ∀ job ∈ shell.jobs.slots, job.pid ≠ pid)
    (forks : shell.fork pid bg cmdline = some s') : s'.Single := by
  have front := single.front
  rw [forking] at front
  unfold Msh.fork at forks
  split at forks
  · cases forks
    refine ⟨front, ?_⟩
    intro child _ _ adding
    cases adding
    exact fits
  · split at forks
    · cases forks
      refine ⟨front, ?_⟩
      intro child _ _ adding
      cases adding
      exact fits
    · cases forks

theorem Single.deref {found : Option Job} {next : Job → Msh} (single : shell.Single)
    (goes : ∀ job, found = some job → (next job).Single) :
    (shell.deref found next).Single := by
  cases found with
  | none => exact ⟨single.front, single.fresh⟩
  | some job => exact goes job rfl

/-- One step of `eval`, `waitfg` or `do_bgfg` keeps the invariant. -/
theorem Single.advance (single : shell.Single) (steps : shell.advance = some s') : s'.Single := by
  have front := single.front
  unfold Msh.advance at steps
  split at steps
  case h_1 => cases steps
  case h_2 => cases steps
  case h_3 child bg cmdline adding =>
    cases steps
    rw [adding] at front
    have added := @Front.addjob _ child bg cmdline front (single.fresh child bg cmdline adding)
    rw [← (addjob_fields shell child _ cmdline).1] at added
    refine single_of_front ?_ nofun
    cases bg <;> exact added
  case h_4 child bg cmdline unblocking =>
    cases steps
    rw [unblocking] at front
    cases bg <;> exact single_of_front front nofun
  case h_5 announcing =>
    cases steps
    rw [announcing] at front
    exact single_of_front front nofun
  case h_6 pid waits =>
    cases steps
    rw [waits] at front
    cases found : shell.jobs.getjobpid pid with
    | none => exact single_of_front (front.none_of_gone found) nofun
    | some job => exact single_of_front front nofun
  case h_7 pid waits =>
    cases steps
    rw [waits] at front
    refine single.deref fun job found => ?_
    by_cases is_fg : job.state = .fg
    · rw [if_pos is_fg]
      exact single_of_front front nofun
    · rw [if_neg is_fg]
      exact single_of_front (front.none_of_state found is_fg) nofun
  case h_8 number testing =>
    cases steps
    rw [testing] at front
    split <;> exact single_of_front front nofun
  case h_9 number testing =>
    cases steps
    rw [testing] at front
    split <;> exact single_of_front front nofun
  case h_10 resolving =>
    cases steps
    rw [resolving] at front
    exact single.deref fun job _ => single_of_front front nofun
  case h_11 verb number pid sets =>
    cases steps
    rw [sets] at front
    refine single.deref fun job _ => single_of_front ?_ nofun
    have moved := @Front.move _ pid front verb
    cases verb <;> exact moved
  case h_12 resuming =>
    cases steps
    rw [resuming] at front
    exact single_of_front front nofun
  case h_13 resuming =>
    cases steps
    rw [resuming] at front
    exact single_of_front front nofun
  case h_14 resuming =>
    cases steps
    rw [resuming] at front
    exact single_of_front front nofun
  case h_15 reading =>
    cases steps
    rw [reading] at front
    exact single.deref fun job _ => single_of_front front nofun
  case h_16 reading =>
    cases steps
    rw [reading] at front
    exact single.deref fun job _ => single_of_front front nofun
  case h_17 => cases steps

theorem Single.sigtstp (single : shell.Single) : shell.sigtstpHandler.Single := by
  unfold sigtstpHandler
  dsimp only
  split
  · split
    · exact ⟨single.front, single.fresh⟩
    · refine ⟨single.front.stop, fun child bg cmdline adding job mem => ?_⟩
      rcases mem_setState mem with old | ⟨old, old_member, _, rfl⟩
      · exact single.fresh child bg cmdline adding job old
      · exact single.fresh child bg cmdline adding old old_member
  · exact single

theorem Single.step (single : shell.Single) (fits : shell.ForkFits e)
    (steps : shell.step e = some s') : s'.Single := by
  cases taken_of_step steps with
  | command idle => exact single.eval idle
  | eof idle =>
    have front := single.front
    rw [idle] at front
    exact single_of_front front nofun
  | fork forking forks => exact single.fork forking fits forks
  | advance goes => exact single.advance goes
  | sigchld woken handles =>
    have kept : ∀ (jobs : Jobs) report, jobs.Front shell.control.foreground →
        (jobs.report report).Front shell.control.foreground := fun _ report front =>
      front.report report
    obtain ⟨front, control⟩ := sigchldHandler_preserves kept single.front handles
    refine single_of_front (control ▸ front) fun child bg cmdline adding => ?_
    rw [← control, adding] at woken
    cases woken
  | sigint =>
    unfold sigintHandler
    split <;> exact ⟨single.front, single.fresh⟩
  | sigtstp => exact single.sigtstp

theorem single_start : start.Single := by
  refine single_of_front ⟨?_, fun job mem is_fg => ?_⟩ nofun
  · apply List.pairwise_of_forall_mem_list
    intro fst mem _ _ listed
    rw [List.eq_of_mem_replicate mem] at listed
    exact (listed rfl).elim
  · rw [List.eq_of_mem_replicate mem] at is_fg
    cases is_fg

/-- As long as `fork` never returns a pid that is still in the job list, at most one job is in the
foreground. -/
theorem oneForeground_of_forkFits {events : List Event} (fits : Meets step ForkFits start events) :
    Along step AtMostOneForeground start events :=
  along_of_meets single_start (fun single fits steps => single.step fits steps)
    (fun single => single.atMostOneForeground) fits

theorem oneForeground_of_forkFits_stopped : Along step AtMostOneForeground start
    [.command ["./a"] false "./a\n", .fork 10, .advance, .advance, .advance, .sigtstp, .advance,
      .command ["./b"] false "./b\n", .fork 11, .advance] :=
  oneForeground_of_forkFits (by decide +kernel)

/-- A background job is killed and stays in the list; its pid is used again by a foreground job, which
`waitfg` takes for the old one, and by the next command two jobs are in the foreground. -/
theorem two_foreground_jobs : ∃ shell, run step start
      [.command ["./a"] true "./a &\n", .fork 10, .advance, .advance, .advance,
        .sigchld [⟨10, .signaled 9⟩],
        .command ["./b"] false "./b\n", .fork 10, .advance, .advance, .advance, .advance,
        .command ["./c"] false "./c\n", .fork 11, .advance] = some shell ∧
      (shell.jobs.slots.map fun job => (job.pid, job.state)).take 3 =
        [(10, .bg), (10, .fg), (11, .fg)] ∧ ¬ shell.AtMostOneForeground := by
  have runs : ((run step start
      [.command ["./a"] true "./a &\n", .fork 10, .advance, .advance, .advance,
        .sigchld [⟨10, .signaled 9⟩],
        .command ["./b"] false "./b\n", .fork 10, .advance, .advance, .advance, .advance,
        .command ["./c"] false "./c\n", .fork 11, .advance]).map fun shell =>
      ((shell.jobs.slots.map fun job => (job.pid, job.state)).take 3,
        decide shell.AtMostOneForeground)) =
      some ([(10, .bg), (10, .fg), (11, .fg)], false) := by
    decide +kernel
  obtain ⟨shell, got, values⟩ := map_eq_some_iff.mp runs
  obtain ⟨entries, clash⟩ := Prod.mk.inj values
  exact ⟨shell, got, entries, of_decide_eq_false clash⟩

end Msh

end Pintos.Shell
