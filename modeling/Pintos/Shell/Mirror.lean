import Pintos.Shell.Machine

/-!
# The job list and the children

What the job list should say about a child follows from the reports about it: a job is there until
its process is reaped, and it is stopped if the last report was a stop that no `bg` or `fg` has
followed.  The shell keeps this for reports of exits, of kills by `SIGINT` and of stops by `SIGTSTP`.
-/

namespace Pintos.Shell

open Function Execution FirstMatch Jobs Option

/-- For each pid, whether there is a job that `addjob` has accepted and whose process has not been
reaped, and if so whether it counts as stopped. -/
abbrev Fate := Int → Option Bool

/-- A report about a child. -/
def Fate.report (fate : Fate) (report : Report) : Fate :=
  update fate report.pid (if report.status.reaps then none else (fate report.pid).map fun _ => true)

/-- The reports that a run of `sigchld_handler` goes through. -/
def Fate.reports : Jobs → Fate → List Report → Fate
  | _, fate, [] => fate
  | jobs, fate, report :: reports =>
    if jobs.Unknown report then fate.report report
    else Fate.reports (jobs.report report) (fate.report report) reports

/-- The shell with the fates of its jobs. -/
structure Tracked where
  shell : Msh
  fate : Fate

namespace Tracked

/-- What an event means for the fates. -/
def fateAfter (tracked : Tracked) : Event → Fate
  | .advance =>
    match tracked.shell.control with
    | .adding child background cmdline =>
      if (tracked.shell.jobs.addjob child (if background then .bg else .fg) cmdline).2 then
        update tracked.fate child (some false)
      else
        tracked.fate
    | .setting _ _ pid =>
      update tracked.fate pid ((tracked.fate pid).map fun _ => false)
    | _ => tracked.fate
  | .sigchld reports => Fate.reports tracked.shell.jobs tracked.fate reports
  | _ => tracked.fate

def step (tracked : Tracked) (event : Event) : Option Tracked :=
  (tracked.shell.step event).map fun after => ⟨after, tracked.fateAfter event⟩

/-- The shell before the first command. -/
def start : Tracked := ⟨.start, fun _ => none⟩

end Tracked

/-- The list has the jobs of the children that have not been reaped, and those jobs are stopped that
count as stopped. -/
structure Jobs.Mirrors (jobs : Jobs) (fate : Fate) : Prop where
  listed : ∀ pid, (∃ job ∈ jobs.slots, job.Listed ∧ job.pid = pid) ↔ (fate pid).isSome
  stopped : ∀ job ∈ jobs.slots, job.Listed → (job.state = .st ↔ fate job.pid = some true)

/-- The report is one that the handler treats as it should: a child with a job is not killed by a
signal other than `SIGINT` and not stopped by one other than `SIGTSTP`, unless it is stopped already
and the signal is not `SIGINT`. -/
def Jobs.ReportFits (jobs : Jobs) (report : Report) : Prop :=
  match jobs.getjobpid report.pid, report.status with
  | none, _ => True
  | some _, .exited _ => True
  | some _, .signaled signal => signal = sigInt
  | some job, .stopped signal => signal = sigTstp ∨ signal ≠ sigInt ∧ job.state = .st

instance (jobs : Jobs) (report : Report) : Decidable (jobs.ReportFits report) := by
  unfold Jobs.ReportFits
  split <;> infer_instance

/-- All reports of a run of the handler fit. -/
def Jobs.ReportsFit : Jobs → List Report → Prop
  | _, [] => True
  | jobs, report :: reports => jobs.ReportFits report ∧ (jobs.report report).ReportsFit reports

instance Jobs.ReportsFit.decidable : (jobs : Jobs) → (reports : List Report) →
    Decidable (jobs.ReportsFit reports)
  | _, [] => isTrue trivial
  | jobs, report :: reports =>
    have := ReportsFit.decidable (jobs.report report) reports
    inferInstanceAs (Decidable (_ ∧ _))

/-- The reports fit, and ctrl-z is not typed while there is a foreground job. -/
def Tracked.MirrorFits (tracked : Tracked) : Event → Prop
  | .sigchld reports => tracked.shell.jobs.ReportsFit reports
  | .sigtstp => tracked.shell.jobs.fgpid = 0
  | _ => True

instance (tracked : Tracked) : (e : Event) → Decidable (tracked.MirrorFits e)
  | .sigchld reports => ReportsFit.decidable tracked.shell.jobs reports
  | .sigtstp => inferInstanceAs (Decidable (_ = _))
  | .fork _ => isTrue trivial
  | .command _ _ _ => isTrue trivial
  | .eof => isTrue trivial
  | .advance => isTrue trivial
  | .sigint => isTrue trivial

namespace Jobs

variable {jobs : Jobs} {fate : Fate} {pid : Int} {s : JobState}

/-- With distinct pids as well. -/
structure Follows (jobs : Jobs) (fate : Fate) : Prop extends jobs.Mirrors fate where
  distinct : jobs.slots.Pairwise PidsDiffer

theorem Mirrors.isSome_iff (mirrors : jobs.Mirrors fate) :
    (fate pid).isSome ↔ (jobs.getjobpid pid).isSome := by
  rw [← mirrors.listed, isSome_getjobpid]
  constructor
  · rintro ⟨job, mem, listed, rfl⟩
    exact ⟨pos_of_listed mem listed, job, mem, rfl⟩
  · rintro ⟨pos, job, mem, same⟩
    refine ⟨job, mem, ?_, same⟩
    intro zero
    omega

theorem Mirrors.fate_eq_none (mirrors : jobs.Mirrors fate) (missing : jobs.getjobpid pid = none) :
    fate pid = none := by
  cases is_fate : fate pid with
  | none => rfl
  | some stopped =>
    have found := mirrors.isSome_iff.mp (isSome_iff_exists.mpr ⟨_, is_fate⟩)
    rw [missing] at found
    cases found

variable (fol : jobs.Follows fate)
include fol

theorem Follows.deletejob : (jobs.deletejob pid).Follows (update fate pid none) := by
  refine ⟨⟨fun o => ?_, fun job mem listed => ?_⟩, pidsDiffer_deletejob fol.distinct⟩
  · by_cases same : o = pid
    · rw [same, update_self]
      refine iff_of_false ?_ (by simp)
      rintro ⟨job, mem, listed, is_pid⟩
      exact (mem_deletejob_of_listed fol.distinct mem listed).2 is_pid
    · rw [update_of_ne same, ← fol.listed]
      constructor
      · rintro ⟨job, mem, listed, is_other⟩
        exact ⟨job, (mem_deletejob_of_listed fol.distinct mem listed).1, listed, is_other⟩
      · rintro ⟨job, mem, listed, rfl⟩
        exact ⟨job, mem_deletejob_of_ne mem same, listed, rfl⟩
  · obtain ⟨old, o⟩ := mem_deletejob_of_listed fol.distinct mem listed
    rw [update_of_ne o]
    exact fol.stopped job old listed

theorem Follows.setState (here : (fate pid).isSome) :
    (jobs.setState pid s).Follows (update fate pid (some (s = .st))) := by
  refine ⟨⟨fun o => ?_, fun job mem listed => ?_⟩, pidsDiffer_setState fol.distinct⟩
  · have same_pids : (∃ job ∈ (jobs.setState pid s).slots, job.Listed ∧ job.pid = o) ↔
        ∃ job ∈ jobs.slots, job.Listed ∧ job.pid = o := by
      constructor
      · rintro ⟨job, mem, listed, is_other⟩
        rcases mem_setState mem with old | ⟨old, old_member, _, rfl⟩
        · exact ⟨job, old, listed, is_other⟩
        · exact ⟨old, old_member, listed, is_other⟩
      · rintro ⟨job, mem, listed, is_other⟩
        obtain ⟨kept, kept_member, same_pid, _⟩ := @exists_mem_setState jobs job pid s mem
        refine ⟨kept, kept_member, ?_, same_pid.trans is_other⟩
        rwa [Job.Listed, same_pid]
    rw [same_pids, fol.listed]
    by_cases same : o = pid
    · rw [same, update_self]
      exact iff_of_true here rfl
    · rw [update_of_ne same]
  · rcases mem_setState_of_listed fol.distinct mem listed with ⟨old, o⟩ | ⟨same, is_state⟩
    · rw [update_of_ne o]
      exact fol.stopped job old listed
    · rw [same, update_self, is_state]
      simp

theorem Follows.insert {background : Bool} {cmdline : String} (pos : 1 ≤ pid)
    (room : jobs.HasRoom) (fresh : fate pid = none) :
    (jobs.insert pid (if background then .bg else .fg) cmdline pos).Follows
      (update fate pid (some false)) := by
  have new_pid : ∀ job ∈ jobs.slots, job.pid ≠ pid := by
    rintro job mem rfl
    have listed : job.Listed := by
      intro zero
      omega
    have here := (fol.listed job.pid).mp ⟨job, mem, listed, rfl⟩
    rw [fresh] at here
    cases here
  refine ⟨⟨fun o => ?_, fun job mem listed => ?_⟩, pidsDiffer_insert pos fol.distinct new_pid⟩
  · by_cases same : o = pid
    · rw [same, update_self]
      refine iff_of_true ?_ rfl
      obtain ⟨slot, mem, free⟩ := room
      obtain ⟨_, _, _, new⟩ := @exists_mem_updateFirst Job (fun job => job.pid = 0) _
        (fun _ => ⟨pid, jobs.nextjid, if background then .bg else .fg, cmdline⟩) jobs.slots slot
        mem free
      exact ⟨_, new, show pid ≠ 0 by omega, rfl⟩
    · rw [update_of_ne same, ← fol.listed]
      constructor
      · rintro ⟨job, mem, listed, is_other⟩
        rcases mem_insert pos mem with old | rfl
        · exact ⟨job, old, listed, is_other⟩
        · exact (same is_other.symm).elim
      · rintro ⟨job, mem, listed, is_other⟩
        exact ⟨job, mem_updateFirst_of_not mem listed, listed, is_other⟩
  · rcases mem_insert pos mem with old | rfl
    · rw [update_of_ne (new_pid job old)]
      exact fol.stopped job old listed
    · rw [update_self]
      cases background <;> simp

theorem Follows.report_missing {report : Report} (missing : jobs.getjobpid report.pid = none) :
    fate.report report = fate := by
  unfold Fate.report
  rw [fol.fate_eq_none missing, map_none, ite_self]
  exact update_eq_self_iff.mpr (fol.fate_eq_none missing).symm

/-- A report that fits, and for which the handler knows the job if it needs it. -/
theorem Follows.report {report : Report} (fits : jobs.ReportFits report)
    (known : ¬ jobs.Unknown report) : (jobs.report report).Follows (fate.report report) := by
  have deleted : (jobs.deletejob report.pid).Follows (update fate report.pid none) := fol.deletejob
  unfold ReportFits at fits
  split at fits
  · next missing =>
      have gone := fol.fate_eq_none missing
      rw [fol.report_missing missing]
      rw [update_eq_self_iff.mpr gone.symm] at deleted
      unfold Jobs.report
      split
      · exact deleted
      · split
        · exact deleted
        · next signal is_signal _ =>
            split
            · next is_tstp => exact (known ⟨is_tstp ▸ is_signal, missing⟩).elim
            · exact fol
  · next code _ status =>
      simp only [Jobs.report, Fate.report, status, WaitStatus.signal, WaitStatus.reaps, if_true]
      exact deleted
  · next signal _ status =>
      simp only [Jobs.report, Fate.report, status, WaitStatus.signal, WaitStatus.reaps, if_true, fits]
      exact deleted
  · next job signal found status =>
      have here : (fate report.pid).isSome := by
        rw [fol.isSome_iff, found]
        rfl
      obtain ⟨stopped, is_fate⟩ := isSome_iff_exists.mp here
      have is_report : fate.report report = update fate report.pid (some true) := by
        simp [Fate.report, status, WaitStatus.reaps, is_fate]
      rw [is_report]
      rcases fits with rfl | ⟨not_int, is_st⟩
      · have moved := @Follows.setState _ _ _ .st fol here
        simpa [Jobs.report, status, WaitStatus.signal, sigTstp, sigInt] using moved
      · obtain ⟨mem, same, pos⟩ := mem_of_getjobpid found
        have listed : job.Listed := by
          intro zero
          omega
        have counts := (fol.stopped job mem listed).mp is_st
        rw [same] at counts
        rw [update_eq_self_iff.mpr counts.symm]
        unfold Jobs.report
        simp only [status, WaitStatus.signal, not_int, if_false]
        split
        · next is_tstp =>
            have moved := @Follows.setState _ _ _ .st fol here
            rw [decide_eq_true rfl, update_eq_self_iff.mpr counts.symm] at moved
            exact moved
        · exact fol

end Jobs

namespace Tracked

/-- The invariant: the list mirrors the children, a job that is not reaped is one of a child, and the
child that is going to be added has no job. -/
structure Faithful (tracked : Tracked) : Prop where
  follows : tracked.shell.jobs.Follows tracked.fate
  unreaped : ∀ pid, (tracked.fate pid).isSome → pid ∈ tracked.shell.children
  fresh : ∀ child background cmdline, tracked.shell.control = .adding child background cmdline →
    tracked.fate child = none ∧ (1 ≤ child → child ∈ tracked.shell.children)

variable {track s' : Tracked} {e : Event} {shell last : Msh} {fate : Fate}
  {background : Bool} {cmdline : String}

theorem unreaped_report {children : List Int} {report : Report}
    (unreaped : ∀ pid, (fate pid).isSome → pid ∈ children) (pid : Int)
    (here : (fate.report report pid).isSome) :
    pid ∈ if report.status.reaps then children.filter fun o => o ≠ report.pid
      else children := by
  unfold Fate.report at here
  by_cases same : pid = report.pid
  · rw [same, update_self] at here
    split at here
    · cases here
    · next kept =>
        rw [if_neg kept, same]
        exact unreaped report.pid (by simpa using here)
  · rw [update_of_ne same] at here
    split
    · simpa [same] using unreaped pid here
    · exact unreaped pid here

theorem follows_sigchldHandler {msg : String} {reports : List Report}
    (follows : shell.jobs.Follows fate) (unreaped : ∀ pid, (fate pid).isSome → pid ∈ shell.children)
    (fits : shell.jobs.ReportsFit reports) (handles : shell.sigchldHandler msg reports = some last) :
    last.jobs.Follows (Fate.reports shell.jobs fate reports) ∧
      (∀ pid, (Fate.reports shell.jobs fate reports pid).isSome → pid ∈ last.children) ∧
      last.control = shell.control := by
  induction reports generalizing shell fate msg with
  | nil =>
    cases handles
    exact ⟨follows, unreaped, rfl⟩
  | cons report reports ih =>
    simp only [Msh.sigchldHandler] at handles
    split at handles
    · obtain ⟨reaped, is_reaped⟩ : ∃ reaped, reaped = if report.status.reaps then
          { shell with children := shell.children.filter fun pid => pid ≠ report.pid }
        else shell := ⟨_, rfl⟩
      have same : reaped.jobs = shell.jobs ∧ reaped.control = shell.control := by
        rw [is_reaped]
        split <;> exact ⟨rfl, rfl⟩
      have children : ∀ pid, (fate.report report pid).isSome → pid ∈ reaped.children := by
        intro pid here
        have mem := unreaped_report unreaped pid here
        rw [is_reaped]
        split <;> simp_all
      rw [← is_reaped, same.1] at handles
      simp only [Fate.reports]
      split at handles
      · next unknown =>
          cases handles
          rw [if_pos unknown]
          refine ⟨?_, children, same.2⟩
          rw [follows.report_missing unknown.2]
          exact same.1 ▸ follows
      · next known =>
          rw [if_neg known]
          have told := follows.report fits.1 known
          obtain ⟨follows, unreaped, control⟩ :=
            ih (by exact told) (by exact children) (by exact fits.2) handles
          exact ⟨follows, unreaped, control.trans same.2⟩
    · cases handles

/-- The invariant at a point where no child is going to be added. -/
theorem faithful_of_follows (follows : shell.jobs.Follows fate)
    (unreaped : ∀ pid, (fate pid).isSome → pid ∈ shell.children)
    (apart : ∀ child bg cmdline, shell.control ≠ .adding child bg cmdline) :
    (Tracked.mk shell fate).Faithful :=
  ⟨follows, unreaped, fun child bg cmdline adding => (apart child bg cmdline adding).elim⟩

section

variable (right : (Tracked.mk shell fate).Faithful)
include right

theorem Faithful.eval {argv : List String} (idle : shell.control = .prompt) :
    (Tracked.mk (shell.eval argv background cmdline) fate).Faithful := by
  have apart : ∀ child background cmdline, shell.control ≠ .adding child background cmdline := by
    intro child background cmdline adding
    cases idle.symm.trans adding
  have moved : ∀ verb, (Tracked.mk (shell.doBgfg verb argv) fate).Faithful := by
    intro verb
    unfold Msh.doBgfg
    dsimp only
    repeat' split
    all_goals exact faithful_of_follows right.follows right.unreaped nofun
  unfold Msh.eval
  split
  · exact right
  · split
    · exact faithful_of_follows right.follows right.unreaped nofun
    · split
      · exact faithful_of_follows right.follows right.unreaped apart
      · split
        · exact moved .bg
        · split
          · exact moved .fg
          · exact faithful_of_follows right.follows right.unreaped nofun

theorem Faithful.fork {pid : Int} (forks : shell.fork pid background cmdline = some last) :
    (Tracked.mk last fate).Faithful := by
  unfold Msh.fork at forks
  split at forks
  · next failed =>
      cases forks
      refine ⟨right.follows, right.unreaped, ?_⟩
      intro child _ _ adding
      cases adding
      refine ⟨right.follows.fate_eq_none ?_, fun pos => by omega⟩
      rw [failed]
      rfl
  · split at forks
    · next new =>
        cases forks
        refine ⟨right.follows, fun o here => List.mem_cons_of_mem _ (right.unreaped o here), ?_⟩
        intro child _ _ adding
        cases adding
        refine ⟨?_, fun _ => List.mem_cons_self ..⟩
        by_contra some_fate
        exact new.2 (right.unreaped pid (isSome_iff_ne_none.mpr some_fate))
    · cases forks

theorem Faithful.addjob {child : Int} (adding : shell.control = .adding child background cmdline) :
    (Tracked.mk ((shell.addjob child (if background then .bg else .fg) cmdline).goto
      (.unblocking child background cmdline))
      (if (shell.jobs.addjob child (if background then .bg else .fg) cmdline).2 then
        update fate child (some false) else fate)).Faithful := by
  obtain ⟨fresh, is_child⟩ := right.fresh child background cmdline adding
  obtain ⟨jobs, children, _⟩ :=
    Msh.addjob_fields shell child (if background then .bg else .fg) cmdline
  refine faithful_of_follows ?_ ?_ nofun
  · change Jobs.Follows (shell.addjob child _ cmdline).jobs _
    rw [jobs]
    unfold Jobs.addjob
    split
    · next pos =>
        split
        · next room => exact right.follows.insert pos room fresh
        · exact right.follows
    · exact right.follows
  · change ∀ pid, _ → pid ∈ (shell.addjob child _ cmdline).children
    rw [children]
    unfold Jobs.addjob
    intro pid here
    split at here
    · next pos =>
        by_cases same : pid = child
        · rw [same]
          exact is_child pos
        · split at here
          · rw [if_pos rfl, update_of_ne same] at here
            exact right.unreaped pid here
          · exact right.unreaped pid here
    · exact right.unreaped pid here

theorem Faithful.move {verb : Verb} {number : Option Int} {pid : Int} :
    (Tracked.mk (shell.deref (shell.jobs.getjobpid pid) fun _ =>
      { shell with jobs := shell.jobs.setState pid verb.state }.goto (.resuming verb number pid))
      (update fate pid ((fate pid).map fun _ => false))).Faithful := by
  cases found : shell.jobs.getjobpid pid with
  | none =>
    have missing : fate pid = none := right.follows.fate_eq_none found
    rw [missing, map_none, update_eq_self_iff.mpr missing.symm]
    exact ⟨right.follows, right.unreaped, right.fresh⟩
  | some job =>
    have here : (fate pid).isSome := by
      rw [right.follows.isSome_iff, found]
      rfl
    obtain ⟨stopped, is_fate⟩ := isSome_iff_exists.mp here
    have moved := @Follows.setState _ _ _ verb.state right.follows here
    have runs : decide (verb.state = .st) = false := by
      cases verb <;> rfl
    rw [runs] at moved
    rw [is_fate, map_some]
    refine faithful_of_follows moved ?_ nofun
    intro o other_present
    by_cases same : o = pid
    · rw [same]
      exact right.unreaped pid here
    · rw [update_of_ne same] at other_present
      exact right.unreaped o other_present

theorem Faithful.deref {found : Option Job} {next : Job → Msh}
    (goes : ∀ job, (Tracked.mk (next job) fate).Faithful) :
    (Tracked.mk (shell.deref found next) fate).Faithful := by
  cases found with
  | none => exact ⟨right.follows, right.unreaped, right.fresh⟩
  | some job => exact goes job

end

/-- One step of `eval`, `waitfg` or `do_bgfg` keeps the invariant. -/
theorem Faithful.advance (right : track.Faithful) (steps : track.shell.advance = some last) :
    (Tracked.mk last (track.fateAfter .advance)).Faithful := by
  have same : (Tracked.mk track.shell track.fate).Faithful := right
  have apart : ∀ o : Msh, o.jobs = track.shell.jobs → o.children = track.shell.children →
        (∀ child bg cmdline, o.control ≠ .adding child bg cmdline) →
          (Tracked.mk o track.fate).Faithful := by
    intro o jobs children control
    exact faithful_of_follows (jobs ▸ right.follows) (children ▸ right.unreaped) control
  unfold Msh.advance at steps
  split at steps <;> simp only [fateAfter, *]
  case h_1 => cases steps
  case h_2 => cases steps
  case h_3 child bg cmdline adding =>
    cases steps
    exact same.addjob adding
  case h_4 child bg cmdline _ =>
    cases steps
    cases bg <;> exact apart _ rfl rfl nofun
  case h_5 =>
    cases steps
    exact apart _ rfl rfl nofun
  case h_6 =>
    cases steps
    split <;> exact apart _ rfl rfl nofun
  case h_7 =>
    cases steps
    refine same.deref fun job => ?_
    split <;> exact apart _ rfl rfl nofun
  case h_8 =>
    cases steps
    split <;> exact apart _ rfl rfl nofun
  case h_9 =>
    cases steps
    split <;> exact apart _ rfl rfl nofun
  case h_10 =>
    cases steps
    exact same.deref fun job => apart _ rfl rfl nofun
  case h_11 =>
    cases steps
    exact same.move
  case h_12 =>
    cases steps
    exact apart _ rfl rfl nofun
  case h_13 =>
    cases steps
    exact apart _ rfl rfl nofun
  case h_14 =>
    cases steps
    exact apart _ rfl rfl nofun
  case h_15 =>
    cases steps
    exact same.deref fun job => apart _ rfl rfl nofun
  case h_16 =>
    cases steps
    exact same.deref fun job => apart _ rfl rfl nofun
  case h_17 => cases steps

theorem Faithful.step (right : track.Faithful) (fits : track.MirrorFits e)
    (steps : track.step e = some s') : s'.Faithful := by
  obtain ⟨last, taken, rfl⟩ := map_eq_some_iff.mp steps
  cases Msh.taken_of_step taken with
  | command idle => exact right.eval idle
  | eof idle => exact faithful_of_follows right.follows right.unreaped nofun
  | fork forking forks => exact right.fork forks
  | advance goes => exact right.advance goes
  | sigchld woken handles =>
    obtain ⟨follows, unreaped, control⟩ :=
      follows_sigchldHandler right.follows right.unreaped fits handles
    refine faithful_of_follows follows unreaped fun child bg cmdline adding => ?_
    rw [← control, adding] at woken
    cases woken
  | sigint =>
    unfold Msh.sigintHandler
    split <;> exact ⟨right.follows, right.unreaped, right.fresh⟩
  | sigtstp =>
    have idle : track.shell.sigtstpHandler = track.shell := by
      rw [Msh.sigtstpHandler, if_neg fun front => front fits]
    rw [idle]
    exact right

theorem faithful_start : start.Faithful := by
  have clear : ∀ job ∈ Jobs.initjobs.slots, ¬ job.Listed := by
    intro job mem listed
    rw [List.eq_of_mem_replicate mem] at listed
    exact listed rfl
  refine faithful_of_follows ⟨⟨fun pid => ?_, fun job mem listed => ?_⟩, ?_⟩ nofun nofun
  · refine iff_of_false ?_ nofun
    rintro ⟨job, mem, listed, _⟩
    exact clear job mem listed
  · exact (clear job mem listed).elim
  · apply List.pairwise_of_forall_mem_list
    intro fst mem _ _ listed
    exact (clear fst mem listed).elim

/-- The job list mirrors the children as long as no child with a job is killed by a signal other than
`SIGINT` or stopped by one other than `SIGTSTP`, and ctrl-z is not typed while there is a foreground
job. -/
theorem mirrors_of_mirrorFits {events : List Event} (fits : Meets step MirrorFits start events) :
    Along step (fun tracked => tracked.shell.jobs.Mirrors tracked.fate) start events :=
  along_of_meets faithful_start (fun right fits steps => right.step fits steps)
    (fun right => right.follows.toMirrors) fits

theorem mirrors_of_mirrorFits_stopped :
    Along step (fun tracked => tracked.shell.jobs.Mirrors tracked.fate) start
      [.command ["./a"] false "./a\n", .fork 10, .advance, .advance, .sigint,
        .sigchld [⟨10, .stopped 20⟩, ⟨10, .stopped 19⟩], .advance, .advance, .sigtstp,
        .command ["bg", "%1"] true "bg %1\n", .advance, .advance, .advance, .advance, .advance,
        .sigchld [⟨10, .signaled 2⟩]] :=
  mirrors_of_mirrorFits (by decide +kernel)

/-- A background job is killed by `SIGKILL`: its process is reaped and its job stays in the list. -/
theorem killed_job_stays : ∃ tracked, run step start
      [.command ["./a"] true "./a &\n", .fork 10, .advance, .advance, .advance,
        .sigchld [⟨10, .signaled 9⟩]] = some tracked ∧
      (tracked.shell.jobs.getjobpid 10 = some ⟨10, 1, .bg, "./a &\n"⟩ ∧ tracked.fate 10 = none) ∧
      ¬ tracked.shell.jobs.Mirrors tracked.fate := by
  have runs : ((run step start
      [.command ["./a"] true "./a &\n", .fork 10, .advance, .advance, .advance,
        .sigchld [⟨10, .signaled 9⟩]]).map fun tracked =>
      (tracked.shell.jobs.getjobpid 10, tracked.fate 10)) =
      some (some ⟨10, 1, .bg, "./a &\n"⟩, none) := by
    decide +kernel
  obtain ⟨tracked, got, values⟩ := map_eq_some_iff.mp runs
  obtain ⟨found, reaped⟩ := Prod.mk.inj values
  refine ⟨tracked, got, ⟨found, reaped⟩, fun mirrors => ?_⟩
  have here : (tracked.fate 10).isSome := mirrors.isSome_iff.mpr (found ▸ rfl)
  rw [reaped] at here
  cases here

end Tracked

end Pintos.Shell
