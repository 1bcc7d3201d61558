import Pintos.Filesys.Path
import Pintos.Lib.Execution
import Pintos.Threads.Kernel

/-!
# Processes

`process_execute`, `start_process`, `process_wait` and `process_exit`, with the lists of exit statuses
of `thread.c`, as sections of code that any threads interleave in any way.  A thread is named by its
tid, which is never used twice; so are its page and its `struct exit_status`.  A page that was freed
cannot be used any more: a section that reads or writes it has no effect, like one that reads through
a null pointer.  All processes have the same priority, so `sema_up` wakes the first waiter.
-/

namespace Pintos.Userprog

open Function

open Filesys (CString)
open Threads (Semaphore)

abbrev Tid := Nat

/-- A semaphore in the page of a child by which it signals its parent. -/
inductive Signal
  /-- `child->exec_sema`. -/
  | exec (child : Tid)
  /-- `child->wait_sema`. -/
  | wait (child : Tid)
  deriving DecidableEq

abbrev Signal.child : Signal → Tid
  | exec child => child
  | wait child => child

/-- Where a thread is in `sema_down`. -/
inductive Stage
  | enter
  | blocked
  /-- Woken, before the loop tests the value again. -/
  | retest
  deriving DecidableEq

/-- The next section of a thread. -/
inductive Place
  /-- Between system calls. -/
  | user
  /-- In `load`, called by `start_process`. -/
  | loading
  /-- `start_process` after a failed `load`, with the status assigned. -/
  | refused
  /-- `start_process` after `load` succeeded. -/
  | started
  /-- The start of `process_exit`. -/
  | exiting
  /-- `process_exit` before `sema_up (&cur->wait_sema)`. -/
  | signalling
  /-- The rest of `thread_exit`. -/
  | dying
  /-- `process_execute` has called `filesys_open (NULL)`, for a command line whose first token names a
  file or not. -/
  | nullPath (named : Bool)
  /-- `process_execute` before `thread_by_tid`. -/
  | created (child : Tid)
  /-- `sema_down`, called by `process_execute` or `process_wait`. -/
  | down (signal : Signal) (stage : Stage)
  /-- `process_execute` before it reads the status of the child. -/
  | reading (child : Tid)
  /-- `process_wait` before `thread_by_tid`. -/
  | looking (child : Tid)
  /-- `process_wait` before `thread_get_exit_status`. -/
  | collecting (child : Tid)
  /-- `process_wait` before `thread_mark_waited`. -/
  | marking (child : Tid)
  /-- `process_wait` before it returns the status. -/
  | answering (child : Tid)
  deriving DecidableEq

/-- How a process ended. -/
inductive Ending
  /-- The system call `exit`. -/
  | exited (status : Int)
  /-- `terminate_thread` or `kill_process`. -/
  | killed
  /-- `kill` of `exception.c`. -/
  | exception
  /-- `load` returned false. -/
  | refused
  deriving DecidableEq

/-- What `wait` has to return for a process that ended so. -/
def Ending.answer : Ending → Int
  | exited status => status
  | _ => -1

/-- What became of the thread that `process_execute` was asked for. -/
inductive Attempt
  /-- The first token of the command line names no file. -/
  | absent
  /-- It names one, but the first token of the copy in `tmpfilename` does not. -/
  | notOpened
  /-- There was no page for the thread or for its argument. -/
  | noThread
  | thread (child : Tid)
  deriving DecidableEq

/-- A call of `process_execute` that has returned; `TID_ERROR` is `none`. -/
structure ExecRecord where
  parent : Tid
  attempt : Attempt
  result : Option Tid
  deriving DecidableEq

/-- A call of `process_wait` that has returned.  `first` says that the child was returned by an earlier
`process_execute` of the parent, and that no earlier `process_wait` has `first`. -/
structure WaitRecord where
  parent : Tid
  child : Tid
  first : Bool
  answer : Int
  deriving DecidableEq

/-- An earlier `process_execute` of the parent has returned the child. -/
def returned (execs : List ExecRecord) (parent child : Tid) : Bool :=
  execs.any fun record => record.parent = parent ∧ record.result = some child

/-- An earlier `process_wait` of the parent for the child was the first one. -/
def waited (waits : List WaitRecord) (parent child : Tid) : Bool :=
  waits.any fun record => record.parent = parent ∧ record.child = child ∧ record.first

/-- The data of `thread.c` and `process.c`, and what has happened so far. -/
structure Processes where
  nextTid : Tid
  /-- `none` for a thread that is not in `all_list`; its page is free then. -/
  place : Tid → Option Place
  sema : Signal → Semaphore
  childList : Tid → List Tid
  waitList : Tid → List Tid
  exitList : List Tid
  /-- `es->status`, `none` after `free (es)`. -/
  exitStatus : Tid → Option Int
  /-- What `load` has returned. -/
  loads : Tid → Option Bool
  endings : Tid → Option Ending
  execs : List ExecRecord
  waits : List WaitRecord

inductive ProcessEvent
  /-- `process_execute` up to `thread_create`.  The names that `filesys_open` opens, and whether there
  are pages for the argument and for the thread. -/
  | exec (tid : Tid) (cmdline : CString) (opens : CString → Bool) (argument page : Bool)
  /-- `process_wait` up to its first two tests. -/
  | wait (tid child : Tid)
  /-- `sysexit_handler`. -/
  | exit (tid : Tid) (status : Int)
  /-- `terminate_thread` or `kill_process`. -/
  | kill (tid : Tid)
  /-- `kill` of `exception.c`. -/
  | exception (tid : Tid)
  /-- `load` returns. -/
  | load (tid : Tid) (success : Bool)
  /-- The next section. -/
  | run (tid : Tid)

/-- The first token that `strtok_r (text, " ", ...)` finds. -/
def firstToken (text : CString) : Option CString :=
  (Tokens.tokens 32 text).head?

/-- `strlcpy (tmpfilename, file_name, 16)`. -/
def tmpfilename (cmdline : CString) : CString := cmdline.take 15

/-- The first token of the command line names a file. -/
def namesFile (opens : CString → Bool) (cmdline : CString) : Bool :=
  match firstToken cmdline with
  | none => false
  | some name => opens name

abbrev mainTid : Tid := 1

namespace Processes

abbrev setPlace (s : Processes) (tid : Tid) (place : Option Place) : Processes :=
  { s with place := update s.place tid place }

abbrev setSema (s : Processes) (signal : Signal) (semaphore : Semaphore) : Processes :=
  { s with sema := update s.sema signal semaphore }

abbrev setStatus (s : Processes) (tid : Tid) (status : Option Int) : Processes :=
  { s with exitStatus := update s.exitStatus tid status }

abbrev setEnding (s : Processes) (tid : Tid) (ending : Ending) : Processes :=
  { s with endings := update s.endings tid (some ending) }

abbrev setLoad (s : Processes) (tid : Tid) (success : Bool) : Processes :=
  { s with loads := update s.loads tid (some success) }

/-- `thread_get_exit_status`: the thread if it is in `exit_list`, to be read. -/
def threadGetExitStatus (s : Processes) (tid : Tid) : Option Int :=
  if tid ∈ s.exitList then s.exitStatus tid else none

def threadSetExitStatus (s : Processes) (tid : Tid) (status : Int) : Option Processes :=
  (s.threadGetExitStatus tid).map fun _ => s.setStatus tid (some status)

/-- `process_execute` returns. -/
abbrev returnExec (s : Processes) (parent : Tid) (attempt : Attempt) (result : Option Tid) :
    Processes :=
  { s.setPlace parent (some .user) with execs := ⟨parent, attempt, result⟩ :: s.execs }

/-- `process_wait` returns. -/
abbrev returnWait (s : Processes) (parent child : Tid) (answer : Int) : Processes :=
  { s.setPlace parent (some .user) with
    waits :=
      ⟨parent, child, returned s.execs parent child && !waited s.waits parent child, answer⟩ :: s.waits }

/-- `thread_create`, called by `process_execute`. -/
abbrev threadCreate (s : Processes) (parent : Tid) : Processes :=
  { s with
    nextTid := s.nextTid + 1
    place := update (update s.place parent (some (.created s.nextTid))) s.nextTid (some .loading)
    sema := update (update s.sema (.exec s.nextTid) ⟨0, []⟩) (.wait s.nextTid) ⟨0, []⟩
    childList := update (update s.childList s.nextTid []) parent (s.childList parent ++ [s.nextTid])
    waitList := update s.waitList s.nextTid []
    exitList := s.exitList ++ [s.nextTid]
    exitStatus := update s.exitStatus s.nextTid (some 0)
    loads := update s.loads s.nextTid none
    endings := update s.endings s.nextTid none }

/-- `process_execute` up to `thread_create`. -/
def processExecute (s : Processes) (tid : Tid) (cmdline : CString) (opens : CString → Bool)
    (argument page : Bool) : Processes :=
  if argument then
    match firstToken (tmpfilename cmdline) with
    | none => s.setPlace tid (some (.nullPath (namesFile opens cmdline)))
    | some name =>
      if opens name then
        if page then s.threadCreate tid else s.returnExec tid .noThread none
      else if namesFile opens cmdline then
        s.returnExec tid .notOpened none
      else
        s.returnExec tid .absent none
  else
    s.returnExec tid .noThread none

/-- `sema_up`, then the caller goes on at its next section. -/
def semaUp (s : Processes) (tid : Tid) (signal : Signal) (next : Place) : Option Processes :=
  match (s.sema signal).waiters with
  | [] =>
    some ((s.setSema signal ⟨(s.sema signal).value + 1, []⟩).setPlace tid (some next))
  | waiter :: rest =>
    if s.place waiter = some (.down signal .blocked) then
      some (((s.setSema signal ⟨(s.sema signal).value + 1, rest⟩).setPlace waiter
        (some (.down signal .retest))).setPlace tid (some next))
    else
      none

/-- What follows after `sema_down`. -/
abbrev afterDown : Signal → Place
  | .exec child => .reading child
  | .wait child => .collecting child

/-- `sema_down` from its start. -/
def semaDown (s : Processes) (tid : Tid) (signal : Signal) : Option Processes :=
  match s.place signal.child with
  | none => none
  | some _ =>
    if 0 < (s.sema signal).value then
      some ((s.setSema signal { s.sema signal with value := (s.sema signal).value - 1 }).setPlace tid
        (some (afterDown signal)))
    else
      some ((s.setSema signal
        { s.sema signal with waiters := (s.sema signal).waiters ++ [tid] }).setPlace tid
        (some (.down signal .blocked)))

/-- The loop test of `sema_down` after `thread_block` returned. -/
def semaDownTest (s : Processes) (tid : Tid) (signal : Signal) : Option Processes :=
  match s.place signal.child with
  | none => none
  | some _ =>
    if 0 < (s.sema signal).value then
      some ((s.setSema signal { s.sema signal with value := (s.sema signal).value - 1 }).setPlace tid
        (some (afterDown signal)))
    else
      some (s.setPlace tid (some (.down signal .blocked)))

/-- `process_exit` up to `sema_up`: it prints the status and frees the statuses of the children that
were waited for. -/
def processExit (s : Processes) (tid : Tid) : Option Processes :=
  (s.threadGetExitStatus tid).map fun _ =>
    { s with
      place := update s.place tid (some .signalling)
      exitStatus := fun child => if child ∈ s.waitList tid then none else s.exitStatus child
      waitList := update s.waitList tid [] }

/-- `thread_clear_child_exit_status`, and the rest of `thread_exit`. -/
def threadExit (s : Processes) (tid : Tid) : Processes :=
  { s with
    place := update s.place tid none
    exitList := s.exitList.filter (· ∉ s.waitList tid)
    childList := update s.childList tid ((s.childList tid).filter (· ∉ s.waitList tid)) }

def threadMarkWaited (s : Processes) (tid child : Tid) : Option Processes :=
  (s.exitStatus child).map fun _ =>
    { s with
      place := update s.place tid (some (.answering child))
      exitList := s.exitList.erase child
      waitList := update s.waitList tid (child :: s.waitList tid) }

/-- The next section of a thread. -/
def execute (s : Processes) (tid : Tid) : Place → Option Processes
  | .user | .loading | .nullPath _ => none
  | .refused => s.semaUp tid (.exec tid) .exiting
  | .started => s.semaUp tid (.exec tid) .user
  | .exiting => s.processExit tid
  | .signalling => s.semaUp tid (.wait tid) .dying
  | .dying => some (s.threadExit tid)
  | .created child =>
    match s.place child with
    | none => some (s.returnExec tid (.thread child) (some child))
    | some _ => some (s.setPlace tid (some (.down (.exec child) .enter)))
  | .down signal .enter => s.semaDown tid signal
  | .down _ .blocked => none
  | .down signal .retest => s.semaDownTest tid signal
  | .reading child =>
    (s.threadGetExitStatus child).map fun status =>
      s.returnExec tid (.thread child) (if status = -1 then none else some child)
  | .looking child =>
    match s.place child with
    | none => some (s.setPlace tid (some (.collecting child)))
    | some _ => some (s.setPlace tid (some (.down (.wait child) .enter)))
  | .collecting child =>
    if child ∈ s.exitList then some (s.setPlace tid (some (.marking child))) else none
  | .marking child => s.threadMarkWaited tid child
  | .answering child => (s.exitStatus child).map fun status => s.returnWait tid child status

/-- A process ends: its status is assigned, and `thread_exit` is called. -/
def endProcess (s : Processes) (tid : Tid) (status : Int) (ending : Ending) : Option Processes :=
  (s.threadSetExitStatus tid status).map fun assigned =>
    (assigned.setEnding tid ending).setPlace tid (some .exiting)

def step (s : Processes) : ProcessEvent → Option Processes
  | .exec tid cmdline opens argument page =>
    if s.place tid = some .user then some (s.processExecute tid cmdline opens argument page)
    else none
  | .wait tid child =>
    if s.place tid = some .user then
      if child ∈ s.childList tid ∧ child ∉ s.waitList tid then
        some (s.setPlace tid (some (.looking child)))
      else
        some (s.returnWait tid child (-1))
    else
      none
  | .exit tid status =>
    if s.place tid = some .user then s.endProcess tid status (.exited status) else none
  | .kill tid => if s.place tid = some .user then s.endProcess tid (-1) .killed else none
  | .exception tid =>
    if s.place tid = some .user ∧ tid ≠ mainTid then
      some ((s.setEnding tid .exception).setPlace tid (some .exiting))
    else
      none
  | .load tid success =>
    if s.place tid = some .loading then
      if success then
        some ((s.setLoad tid true).setPlace tid (some .started))
      else
        (s.threadSetExitStatus tid (-1)).map fun assigned =>
          ((assigned.setLoad tid false).setEnding tid .refused).setPlace tid (some .refused)
    else
      none
  | .run tid => (s.place tid).bind (s.execute tid)

def init : Processes where
  nextTid := 2
  place tid := if tid = mainTid then some .user else none
  sema _ := ⟨0, []⟩
  childList _ := []
  waitList _ := []
  exitList := []
  exitStatus _ := none
  loads _ := none
  endings _ := none
  execs := []
  waits := []

end Processes

end Pintos.Userprog
