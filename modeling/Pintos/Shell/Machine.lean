import Pintos.Shell.Jobs

/-!
# The shell and its signal handlers

The shell reads a command line, forks a child and waits for it in the foreground, or moves a job with
`bg` and `fg`.  Every lookup in the job list is a step of its own, so that a signal handler may run
between any two of them.  `SIGCHLD` is blocked from before the fork until the job has been added.
-/

namespace Pintos.Shell

open Option

abbrev sigInt : Nat := 2

abbrev sigTstp : Nat := 20

abbrev sigCont : Nat := 18

/-- What the shell does to the world outside. -/
inductive Effect
  | print (text : String)
  | kill (pid : Int) (signal : Nat)

/-! ## Children -/

/-- A status that `waitpid` stores: `WIFEXITED`, `WIFSIGNALED` or `WIFSTOPPED`. -/
inductive WaitStatus
  | exited (code : Nat)
  | signaled (signal : Nat)
  | stopped (signal : Nat)
  deriving DecidableEq

namespace WaitStatus

/-- The child is gone. -/
def reaps : WaitStatus → Bool
  | exited _ => true
  | signaled _ => true
  | stopped _ => false

/-- `WTERMSIG` or `WSTOPSIG`. -/
def signal : WaitStatus → Option Nat
  | exited _ => none
  | signaled signal => some signal
  | stopped signal => some signal

end WaitStatus

/-- What a call of `waitpid` in `sigchld_handler` returns. -/
structure Report where
  pid : Int
  status : WaitStatus
  deriving DecidableEq

/-- The job list after a report.  A child that was killed and one that was stopped are treated
alike. -/
def Jobs.report (jobs : Jobs) (report : Report) : Jobs :=
  match report.status.signal with
  | none => jobs.deletejob report.pid
  | some signal =>
    if signal = sigInt then jobs.deletejob report.pid
    else if signal = sigTstp then jobs.setState report.pid .st
    else jobs

/-- The text in `msg` after a report; other reports leave the last one there. -/
def Jobs.message (jobs : Jobs) (msg : String) (report : Report) : String :=
  let job := "Job [" ++ toString (jobs.pid2jid report.pid) ++ "] (" ++ toString report.pid ++ ") "
  match report.status.signal with
  | none => msg
  | some signal =>
    if signal = sigInt then job ++ "terminated by signal " ++ toString signal ++ "\n"
    else if signal = sigTstp then job ++ "stopped by signal " ++ toString signal ++ "\n"
    else msg

/-- The report makes the handler dereference `getjobpid` of a child without a job. -/
def Jobs.Unknown (jobs : Jobs) (report : Report) : Prop :=
  report.status.signal = some sigTstp ∧ jobs.getjobpid report.pid = none

instance (jobs : Jobs) (report : Report) : Decidable (jobs.Unknown report) :=
  inferInstanceAs (Decidable (_ ∧ _))

/-! ## The state -/

/-- The built-in commands that move a job. -/
inductive Verb
  | fg
  | bg
  deriving DecidableEq

/-- The state that a job is moved to. -/
def Verb.state : Verb → JobState
  | fg => .fg
  | bg => .bg

/-- The argument of `bg` and `fg`. -/
inductive Target
  | jid (number : Int)
  | pid (number : Int)
  deriving DecidableEq

/-- Where the shell is. -/
inductive Control
  /-- In the loop of `main`, before the next command line. -/
  | prompt
  /-- In `eval`, with `SIGCHLD` blocked, before `fork`. -/
  | forking (background : Bool) (cmdline : String)
  /-- After `fork`, before `addjob`. -/
  | adding (child : Int) (background : Bool) (cmdline : String)
  /-- After `addjob`, before `SIGCHLD` is unblocked. -/
  | unblocking (child : Int) (background : Bool) (cmdline : String)
  /-- Before the notification of a background job. -/
  | announcing (child : Int) (cmdline : String)
  /-- In `waitfg`, before the test of the loop. -/
  | waitTest (pid : Int)
  /-- In `waitfg`, before the state of the job is looked up. -/
  | waitState (pid : Int)
  /-- In `do_bgfg`, before the test that the job exists. -/
  | testing (verb : Verb) (argument : String) (target : Target)
  /-- Before the pid of a job is looked up by its job id. -/
  | resolving (verb : Verb) (jid : Int)
  /-- Before the state of the job is set. -/
  | setting (verb : Verb) (jid : Option Int) (pid : Int)
  /-- Before `SIGCONT` is sent. -/
  | resuming (verb : Verb) (jid : Option Int) (pid : Int)
  /-- Before the job id is looked up for the notification. -/
  | readingJid (pid : Int)
  /-- Before the command line is looked up for the notification. -/
  | readingLine (jid pid : Int)
  /-- After `exit`. -/
  | exited
  deriving DecidableEq

/-- `SIGCHLD` is blocked. -/
def Control.blocked : Control → Bool
  | .forking _ _ => true
  | .adding _ _ _ => true
  | .unblocking _ _ _ => true
  | _ => false

/-- The shell and its children. -/
structure Msh where
  jobs : Jobs
  /-- The children that have not been reaped. -/
  children : List Int
  control : Control
  /-- A null pointer has been dereferenced. -/
  crashed : Bool
  effects : List Effect

namespace Msh

def start : Msh := ⟨.initjobs, [], .prompt, false, []⟩

def print (shell : Msh) (text : String) : Msh :=
  { shell with effects := shell.effects ++ [.print text] }

def kill (shell : Msh) (pid : Int) (signal : Nat) : Msh :=
  { shell with effects := shell.effects ++ [.kill pid signal] }

def goto (shell : Msh) (control : Control) : Msh := { shell with control }

def crash (shell : Msh) : Msh := { shell with crashed := true }

/-- The text `[jid] (pid) cmdline`. -/
def notification (jid pid : Int) (cmdline : String) : String :=
  "[" ++ toString jid ++ "] (" ++ toString pid ++ ") " ++ cmdline

/-! ## Signal handlers -/

/-- The loop of `sigchld_handler`, for the reports that `waitpid` returns. -/
def sigchldHandler : Msh → String → List Report → Option Msh
  | shell, _, [] => some shell
  | shell, msg, report :: reports =>
    if report.pid ∈ shell.children then
      let reaped := if report.status.reaps then
          { shell with children := shell.children.filter fun pid => pid ≠ report.pid }
        else
          shell
      if reaped.jobs.Unknown report then
        some reaped.crash
      else
        let msg := reaped.jobs.message msg report
        sigchldHandler ({ reaped with jobs := reaped.jobs.report report }.print msg) msg reports
    else
      none

def sigintHandler (shell : Msh) : Msh :=
  if shell.jobs.fgpid ≠ 0 then shell.kill (shell.jobs.fgpid * -1) sigInt else shell

def sigtstpHandler (shell : Msh) : Msh :=
  let fgPid := shell.jobs.fgpid
  if fgPid ≠ 0 then
    match shell.jobs.getjobpid fgPid with
    | none => shell.crash
    | some _ => { shell with jobs := shell.jobs.setState fgPid .st }.kill (fgPid * -1) sigTstp
  else
    shell

/-! ## Commands -/

def atoi (text : List Char) : Int :=
  match text.dropWhile Char.isWhitespace with
  | '-' :: digits => -number digits
  | '+' :: digits => number digits
  | digits => number digits
where
  /-- The number that the leading digits stand for. -/
  number (digits : List Char) : Int :=
    (digits.takeWhile Char.isDigit).foldl (fun value digit => 10 * value + (digit.toNat - 48)) 0

/-- The start of `do_bgfg`, which reads its argument. -/
def doBgfg (shell : Msh) (verb : Verb) (argv : List String) : Msh :=
  let name := argv.headD ""
  match argv.tail with
  | [] => (shell.print (name ++ " command requires PID or %jobid argument\n")).goto .prompt
  | argument :: _ =>
    match argument.toList with
    | '%' :: digits =>
      if atoi digits = 0 then
        (shell.print (name ++ ": argument must be a PID or %jobid\n")).goto .prompt
      else
        shell.goto (.testing verb argument (.jid (atoi digits)))
    | digits =>
      if atoi digits = 0 then
        (shell.print (name ++ ": argument must be a PID or %jobid\n")).goto .prompt
      else
        shell.goto (.testing verb argument (.pid (atoi digits)))

/-- The line that `listjobs` prints for the job in a slot. -/
def jobLine (job : Job) (slot : Nat) : String :=
  "[" ++ toString job.jid ++ "] (" ++ toString job.pid ++ ") " ++ (match job.state with
    | .bg => "Running "
    | .fg => "Foreground "
    | .st => "Stopped "
    | .undef => "listjobs: Internal error: job[" ++ toString slot ++ "].state=0 ") ++ job.cmdline

def listjobs (jobs : Jobs) : String :=
  String.join ((jobs.slots.zipIdx.filter fun slot => slot.1.pid ≠ 0).map fun slot =>
    jobLine slot.1 slot.2)

/-- `eval` and `builtin_cmd`, up to the first system call or lookup, for what `parseline` has made of
the command line. -/
def eval (shell : Msh) (argv : List String) (background : Bool) (cmdline : String) : Msh :=
  match argv with
  | [] => shell
  | name :: _ =>
    if name = "quit" then shell.goto .exited
    else if name = "jobs" then shell.print (listjobs shell.jobs)
    else if name = "bg" then shell.doBgfg .bg argv
    else if name = "fg" then shell.doBgfg .fg argv
    else shell.goto (.forking background cmdline)

/-- `fork` returns a new pid, or fails with `-1`. -/
def fork (shell : Msh) (pid : Int) (background : Bool) (cmdline : String) : Option Msh :=
  if pid = -1 then
    some (shell.goto (.adding pid background cmdline))
  else if 1 ≤ pid ∧ pid ∉ shell.children then
    some ({ shell with children := pid :: shell.children }.goto (.adding pid background cmdline))
  else
    none

/-- `addjob` and its message. -/
def addjob (shell : Msh) (pid : Int) (state : JobState) (cmdline : String) : Msh :=
  let (jobs, added) := shell.jobs.addjob pid state cmdline
  let shell := { shell with jobs }
  if added ∨ pid < 1 then shell else shell.print "Tried to create too many jobs\n"

/-- The step that follows a lookup, which crashes if the lookup has returned a null pointer. -/
def deref (shell : Msh) (found : Option Job) (next : Job → Msh) : Msh :=
  match found with
  | none => shell.crash
  | some job => next job

/-- The next step of `eval`, `waitfg` and `do_bgfg`. -/
def advance (shell : Msh) : Option Msh :=
  match shell.control with
  | .prompt => none
  | .forking _ _ => none
  | .adding child background cmdline =>
    some ((shell.addjob child (if background then .bg else .fg) cmdline).goto
      (.unblocking child background cmdline))
  | .unblocking child background cmdline =>
    some (shell.goto (if background then .announcing child cmdline else .waitTest child))
  | .announcing child cmdline =>
    some ((shell.print (notification (shell.jobs.pid2jid child) child cmdline)).goto .prompt)
  | .waitTest pid =>
    some (shell.goto (if (shell.jobs.getjobpid pid).isSome then .waitState pid else .prompt))
  | .waitState pid =>
    some (shell.deref (shell.jobs.getjobpid pid) fun job =>
      shell.goto (if job.state = .fg then .waitTest pid else .prompt))
  | .testing verb argument (.jid number) =>
    some (match shell.jobs.getjobjid number with
      | some _ => shell.goto (.resolving verb number)
      | none => (shell.print (argument ++ ": No such job\n")).goto .prompt)
  | .testing verb argument (.pid number) =>
    some (match shell.jobs.getjobpid number with
      | some _ => shell.goto (.setting verb none number)
      | none => (shell.print ("(" ++ argument ++ "): No such process\n")).goto .prompt)
  | .resolving verb number =>
    some (shell.deref (shell.jobs.getjobjid number) fun job =>
      shell.goto (.setting verb (some number) job.pid))
  | .setting verb number pid =>
    some (shell.deref (shell.jobs.getjobpid pid) fun _ =>
      { shell with jobs := shell.jobs.setState pid verb.state }.goto (.resuming verb number pid))
  | .resuming .fg _ pid => some ((shell.kill (pid * -1) sigCont).goto (.waitTest pid))
  | .resuming .bg (some number) pid =>
    some ((shell.kill (pid * -1) sigCont).goto (.readingLine number pid))
  | .resuming .bg none pid => some ((shell.kill (pid * -1) sigCont).goto (.readingJid pid))
  -- C leaves open which of the two lookups in the arguments of `printf` comes first.
  | .readingJid pid =>
    some (shell.deref (shell.jobs.getjobpid pid) fun job => shell.goto (.readingLine job.jid pid))
  | .readingLine number pid =>
    some (shell.deref (shell.jobs.getjobpid pid) fun job =>
      (shell.print (notification number pid job.cmdline)).goto .prompt)
  | .exited => none

/-! ## Steps -/

end Msh

inductive Event
  /-- The command line is read; `parseline` has split it into `argv`. -/
  | command (argv : List String) (background : Bool) (cmdline : String)
  /-- The end of the input. -/
  | eof
  /-- `fork` returns. -/
  | fork (pid : Int)
  /-- The shell takes its next step. -/
  | advance
  /-- `sigchld_handler` runs and `waitpid` returns these reports. -/
  | sigchld (reports : List Report)
  /-- ctrl-c. -/
  | sigint
  /-- ctrl-z. -/
  | sigtstp

namespace Msh

/-- One event; `none` if it cannot happen now. -/
def step (shell : Msh) (event : Event) : Option Msh :=
  if shell.crashed ∨ shell.control = .exited then
    none
  else
    match event with
    | .command argv background cmdline =>
      if shell.control = .prompt then some (shell.eval argv background cmdline) else none
    | .eof => if shell.control = .prompt then some (shell.goto .exited) else none
    | .fork pid =>
      match shell.control with
      | .forking background cmdline => shell.fork pid background cmdline
      | _ => none
    | .advance => shell.advance
    | .sigchld reports =>
      if shell.control.blocked then none else shell.sigchldHandler "" reports
    | .sigint => some shell.sigintHandler
    | .sigtstp => some shell.sigtstpHandler

/-- The events of a running shell and what they do. -/
inductive Taken (shell : Msh) : Event → Msh → Prop
  | command {argv : List String} {background : Bool} {cmdline : String}
      (idle : shell.control = .prompt) :
      Taken shell (.command argv background cmdline) (shell.eval argv background cmdline)
  | eof (idle : shell.control = .prompt) : Taken shell .eof (shell.goto .exited)
  | fork {pid : Int} {background : Bool} {cmdline : String} {s' : Msh}
      (forking : shell.control = .forking background cmdline)
      (forks : shell.fork pid background cmdline = some s') : Taken shell (.fork pid) s'
  | advance {s' : Msh} (advances : shell.advance = some s') : Taken shell .advance s'
  | sigchld {reports : List Report} {s' : Msh} (unblocked : shell.control.blocked = false)
      (handles : shell.sigchldHandler "" reports = some s') :
      Taken shell (.sigchld reports) s'
  | sigint : Taken shell .sigint shell.sigintHandler
  | sigtstp : Taken shell .sigtstp shell.sigtstpHandler

variable {shell s' : Msh} {e : Event}

theorem taken_of_step (steps : shell.step e = some s') : shell.Taken e s' := by
  unfold step at steps
  split at steps
  · cases steps
  · cases e with
    | command argv bg cmdline =>
      dsimp only at steps
      split at steps
      · next idle =>
          cases steps
          exact .command idle
      · cases steps
    | eof =>
      dsimp only at steps
      split at steps
      · next idle =>
          cases steps
          exact .eof idle
      · cases steps
    | fork pid =>
      dsimp only at steps
      split at steps
      · next forking => exact .fork forking steps
      · cases steps
    | advance => exact .advance steps
    | sigchld reports =>
      dsimp only at steps
      split at steps
      · cases steps
      · next unblocked => exact .sigchld (Bool.not_eq_true _ ▸ unblocked) steps
    | sigint =>
      cases steps
      exact .sigint
    | sigtstp =>
      cases steps
      exact .sigtstp

theorem addjob_fields (shell : Msh) (pid : Int) (state : JobState) (cmdline : String) :
    (shell.addjob pid state cmdline).jobs = (shell.jobs.addjob pid state cmdline).1 ∧
      (shell.addjob pid state cmdline).children = shell.children ∧
      (shell.addjob pid state cmdline).crashed = shell.crashed := by
  unfold addjob
  dsimp only
  split <;> exact ⟨rfl, rfl, rfl⟩

/-- What every report keeps in the job list, a run of `sigchld_handler` keeps. -/
theorem sigchldHandler_preserves {property : Jobs → Prop} {msg : String} {reports : List Report}
    (kept : ∀ jobs report, property jobs → property (Jobs.report jobs report))
    (holds : property shell.jobs) (handles : shell.sigchldHandler msg reports = some s') :
    property s'.jobs ∧ s'.control = shell.control := by
  induction reports generalizing shell msg with
  | nil =>
    cases handles
    exact ⟨holds, rfl⟩
  | cons report reports ih =>
    simp only [sigchldHandler] at handles
    split at handles
    · obtain ⟨reaped, is_reaped⟩ : ∃ reaped, reaped = if report.status.reaps then
          { shell with children := shell.children.filter fun pid => pid ≠ report.pid }
        else shell := ⟨_, rfl⟩
      have same : reaped.jobs = shell.jobs ∧ reaped.control = shell.control := by
        rw [is_reaped]
        split <;> exact ⟨rfl, rfl⟩
      rw [← is_reaped] at handles
      split at handles
      · cases handles
        exact ⟨show property reaped.jobs from same.1 ▸ holds, same.2⟩
      · have told : property (reaped.jobs.report report) := kept _ report (same.1 ▸ holds)
        obtain ⟨done, control⟩ := ih told handles
        exact ⟨done, control.trans same.2⟩
    · cases handles

end Msh

end Pintos.Shell
