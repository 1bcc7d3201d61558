import Pintos.Shell.Machine

/-!
# Null pointers

`do_bgfg` and `waitfg` test a lookup and then repeat it, and `sigchld_handler` dereferences the lookup
of any child that was stopped.  No null pointer is dereferenced as long as every run of
`sigchld_handler` finds the jobs it needs and leaves the one that the interrupted code has tested.
-/

namespace Pintos.Shell

open Execution Jobs Option

/-- The lookup that the code has tested and is going to dereference succeeds. -/
def Control.Backed (jobs : Jobs) : Control → Prop
  | .waitState pid => (jobs.getjobpid pid).isSome
  | .resolving _ number => (jobs.getjobjid number).isSome
  | .setting _ _ pid => (jobs.getjobpid pid).isSome
  | .resuming .bg _ pid => (jobs.getjobpid pid).isSome
  | .readingJid pid => (jobs.getjobpid pid).isSome
  | .readingLine _ pid => (jobs.getjobpid pid).isSome
  | _ => True

instance (jobs : Jobs) (control : Control) : Decidable (control.Backed jobs) := by
  unfold Control.Backed
  split <;> infer_instance

/-- Each child that is reported as stopped by `SIGTSTP`, or killed by it, has a job at that time. -/
def Jobs.Known : Jobs → List Report → Prop
  | _, [] => True
  | jobs, report :: reports => ¬ jobs.Unknown report ∧ (jobs.report report).Known reports

instance Jobs.Known.decidable : (jobs : Jobs) → (reports : List Report) →
    Decidable (jobs.Known reports)
  | _, [] => isTrue trivial
  | jobs, report :: reports =>
    have := Known.decidable (jobs.report report) reports
    inferInstanceAs (Decidable (_ ∧ _))

namespace Msh

/-- A run of `sigchld_handler` knows the jobs of the children that were stopped, and does not delete
the job that the interrupted code has looked up and will look up again. -/
def HandlerFits (shell : Msh) : Event → Prop
  | .sigchld reports =>
    shell.jobs.Known reports ∧ shell.control.Backed (reports.foldl Jobs.report shell.jobs)
  | _ => True

instance (shell : Msh) : (e : Event) → Decidable (shell.HandlerFits e)
  | .sigchld _ => inferInstanceAs (Decidable (_ ∧ _))
  | .fork _ => isTrue trivial
  | .command _ _ _ => isTrue trivial
  | .eof => isTrue trivial
  | .advance => isTrue trivial
  | .sigint => isTrue trivial
  | .sigtstp => isTrue trivial

/-- The invariant: nothing has been dereferenced in vain and the next lookup succeeds. -/
structure Safe (shell : Msh) : Prop where
  alive : shell.crashed = false
  backed : shell.control.Backed shell.jobs

variable {shell s' : Msh} {e : Event}

/-- The handler goes through all reports if it knows the jobs. -/
theorem sigchldHandler_known {msg : String} {reports : List Report}
    (known : shell.jobs.Known reports) (handles : shell.sigchldHandler msg reports = some s') :
    s'.jobs = reports.foldl Jobs.report shell.jobs ∧ s'.control = shell.control ∧
      s'.crashed = shell.crashed := by
  induction reports generalizing shell msg with
  | nil =>
    cases handles
    exact ⟨rfl, rfl, rfl⟩
  | cons report reports ih =>
    simp only [sigchldHandler] at handles
    split at handles
    · obtain ⟨reaped, is_reaped⟩ : ∃ reaped, reaped = if report.status.reaps then
          { shell with children := shell.children.filter fun pid => pid ≠ report.pid }
        else shell := ⟨_, rfl⟩
      have same : reaped.jobs = shell.jobs ∧ reaped.control = shell.control ∧
          reaped.crashed = shell.crashed := by
        rw [is_reaped]
        split <;> exact ⟨rfl, rfl, rfl⟩
      rw [← is_reaped, same.1, if_neg known.1] at handles
      obtain ⟨jobs, control, crashed⟩ := ih known.2 handles
      exact ⟨jobs, control.trans same.2.1, crashed.trans same.2.2⟩
    · cases handles

theorem safe_of_deref {found : Option Job} {next : Job → Msh} (here : found.isSome)
    (goes : ∀ job, found = some job → (next job).Safe) : (shell.deref found next).Safe := by
  cases found with
  | none => cases here
  | some job => exact goes job rfl

theorem Safe.eval {argv : List String} {background : Bool} {cmdline : String} (safe : shell.Safe) :
    (shell.eval argv background cmdline).Safe := by
  have moved : ∀ verb, (shell.doBgfg verb argv).Safe := by
    intro verb
    unfold doBgfg
    dsimp only
    repeat' split
    all_goals exact ⟨safe.alive, trivial⟩
  unfold Msh.eval
  split
  · exact safe
  · split
    · exact ⟨safe.alive, trivial⟩
    · split
      · exact ⟨safe.alive, safe.backed⟩
      · split
        · exact moved .bg
        · split
          · exact moved .fg
          · exact ⟨safe.alive, trivial⟩

theorem Safe.advance (safe : shell.Safe) (steps : shell.advance = some s') : s'.Safe := by
  have backed := safe.backed
  unfold Msh.advance at steps
  split at steps
  case h_1 => cases steps
  case h_2 => cases steps
  case h_3 child background cmdline _ =>
    cases steps
    refine ⟨?_, trivial⟩
    exact (addjob_fields shell child _ cmdline).2.2.trans safe.alive
  case h_4 child background cmdline _ =>
    cases steps
    cases background <;> exact ⟨safe.alive, trivial⟩
  case h_5 =>
    cases steps
    exact ⟨safe.alive, trivial⟩
  case h_6 pid _ =>
    cases steps
    by_cases found : (shell.jobs.getjobpid pid).isSome
    · rw [if_pos found]
      exact ⟨safe.alive, found⟩
    · rw [if_neg found]
      exact ⟨safe.alive, trivial⟩
  case h_7 pid waits =>
    cases steps
    rw [waits] at backed
    refine safe_of_deref backed fun job _ => ?_
    split <;> exact ⟨safe.alive, trivial⟩
  case h_8 number _ =>
    cases steps
    split
    · next found => exact ⟨safe.alive, isSome_iff_exists.mpr ⟨_, found⟩⟩
    · exact ⟨safe.alive, trivial⟩
  case h_9 number _ =>
    cases steps
    split
    · next found => exact ⟨safe.alive, isSome_iff_exists.mpr ⟨_, found⟩⟩
    · exact ⟨safe.alive, trivial⟩
  case h_10 resolving =>
    cases steps
    rw [resolving] at backed
    refine safe_of_deref backed fun job found => ⟨safe.alive, ?_⟩
    have mem := (mem_of_getjobjid found).1
    have pos := pos_of_listed mem (listed_of_getjobjid found)
    exact isSome_getjobpid.mpr ⟨pos, job, mem, rfl⟩
  case h_11 verb number pid sets =>
    cases steps
    rw [sets] at backed
    refine safe_of_deref backed fun job _ => ⟨safe.alive, ?_⟩
    cases verb with
    | fg => trivial
    | bg => exact getjobpid_setState backed
  case h_12 =>
    cases steps
    exact ⟨safe.alive, trivial⟩
  case h_13 resuming =>
    cases steps
    rw [resuming] at backed
    exact ⟨safe.alive, backed⟩
  case h_14 resuming =>
    cases steps
    rw [resuming] at backed
    exact ⟨safe.alive, backed⟩
  case h_15 reading =>
    cases steps
    rw [reading] at backed
    exact safe_of_deref backed fun job _ => ⟨safe.alive, backed⟩
  case h_16 reading =>
    cases steps
    rw [reading] at backed
    exact safe_of_deref backed fun job _ => ⟨safe.alive, trivial⟩
  case h_17 => cases steps

theorem isSome_getjobpid_fgpid {jobs : Jobs} (front : jobs.fgpid ≠ 0) :
    (jobs.getjobpid jobs.fgpid).isSome := by
  unfold fgpid at front ⊢
  split at front
  · next job found =>
      have mem := List.mem_of_find?_eq_some found
      exact isSome_getjobpid.mpr ⟨pos_of_listed mem front, job, mem, rfl⟩
  · exact (front rfl).elim

theorem backed_setState {jobs : Jobs} {control : Control} {pid : Int} {state : JobState}
    (backed : control.Backed jobs) : control.Backed (jobs.setState pid state) := by
  unfold Control.Backed at backed ⊢
  split
  · exact getjobpid_setState backed
  · exact getjobjid_setState backed
  · exact getjobpid_setState backed
  · exact getjobpid_setState backed
  · exact getjobpid_setState backed
  · exact getjobpid_setState backed
  · trivial

theorem Safe.sigtstp (safe : shell.Safe) : shell.sigtstpHandler.Safe := by
  unfold sigtstpHandler
  dsimp only
  split
  · next front =>
      have here := isSome_getjobpid_fgpid front
      split
      · next missing =>
          rw [missing] at here
          cases here
      · exact ⟨safe.alive, backed_setState safe.backed⟩
  · exact safe

theorem Safe.step (safe : shell.Safe) (fits : shell.HandlerFits e)
    (steps : shell.step e = some s') : s'.Safe := by
  cases taken_of_step steps with
  | command idle => exact safe.eval
  | eof idle => exact ⟨safe.alive, trivial⟩
  | fork forking forks =>
    unfold Msh.fork at forks
    split at forks
    · cases forks
      exact ⟨safe.alive, trivial⟩
    · split at forks
      · cases forks
        exact ⟨safe.alive, trivial⟩
      · cases forks
  | advance goes => exact safe.advance goes
  | sigchld woken handles =>
    obtain ⟨known, backed⟩ := fits
    obtain ⟨jobs, control, crashed⟩ := sigchldHandler_known known handles
    refine ⟨crashed.trans safe.alive, ?_⟩
    rw [jobs, control]
    exact backed
  | sigint =>
    unfold sigintHandler
    split <;> exact ⟨safe.alive, safe.backed⟩
  | sigtstp => exact safe.sigtstp

theorem safe_start : start.Safe := ⟨rfl, trivial⟩

/-- No null pointer is dereferenced as long as every run of `sigchld_handler` knows the jobs of the
stopped children and leaves the job that the interrupted code has tested. -/
theorem survives_of_handlerFits {events : List Event} (fits : Meets step HandlerFits start events) :
    Along step (fun shell => shell.crashed = false) start events :=
  along_of_meets safe_start (fun safe fits steps => safe.step fits steps)
    (fun safe => safe.alive) fits

theorem survives_of_handlerFits_stopped : Along step (fun shell => shell.crashed = false) start
    [.command ["./a"] false "./a\n", .fork 10, .advance, .advance, .advance,
      .sigchld [⟨10, .stopped 20⟩], .advance, .command ["bg", "%1"] true "bg %1\n", .advance,
      .advance, .advance, .sigtstp, .advance, .advance, .sigchld [⟨10, .exited 0⟩]] :=
  survives_of_handlerFits (by decide +kernel)

/-- A background job ends between the test and the second lookup of its job id by `bg`. -/
theorem bg_dereferences_null : ∃ shell, run step start
      [.command ["./a"] true "./a &\n", .fork 10, .advance, .advance, .advance,
        .command ["bg", "%1"] false "bg %1\n", .advance, .sigchld [⟨10, .exited 0⟩], .advance] =
          some shell ∧ shell.crashed = true := by
  have runs : ((run step start
      [.command ["./a"] true "./a &\n", .fork 10, .advance, .advance, .advance,
        .command ["bg", "%1"] false "bg %1\n", .advance, .sigchld [⟨10, .exited 0⟩], .advance]).map
      fun shell => shell.crashed) = some true := by
    decide +kernel
  exact map_eq_some_iff.mp runs

end Msh

end Pintos.Shell
