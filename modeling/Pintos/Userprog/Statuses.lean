import Pintos.Userprog.Processes

/-!
# Exit statuses

Which lists a status is in, and what it says, for every step that a thread can take.
-/

namespace Pintos.Userprog

open Threads (Semaphore)

namespace Place

/-- It is settled how the process ends. -/
def ending : Place → Bool
  | .refused | .exiting | .signalling | .dying => true
  | .user | .loading | .started | .nullPath _ | .created _ | .down _ _ | .reading _ | .looking _
  | .collecting _ | .marking _ | .answering _ => false

/-- `exec_sema` was not raised yet. -/
def unannounced : Place → Bool
  | .loading | .refused | .started => true
  | .user | .exiting | .signalling | .dying | .nullPath _ | .created _ | .down _ _ | .reading _
  | .looking _ | .collecting _ | .marking _ | .answering _ => false

/-- The statuses of the children that were waited for are freed. -/
def closing : Place → Bool
  | .signalling | .dying => true
  | .user | .loading | .refused | .started | .exiting | .nullPath _ | .created _ | .down _ _ | .reading _
  | .looking _ | .collecting _ | .marking _ | .answering _ => false

/-- The child that `process_execute` has made. -/
def execsFor : Place → Option Tid
  | .created child | .down (.exec child) _ | .reading child => some child
  | .user | .loading | .refused | .started | .exiting | .signalling | .dying | .nullPath _
  | .down (.wait _) _ | .looking _ | .collecting _ | .marking _ | .answering _ => none

/-- The child that `process_wait` was called for and has not marked yet. -/
def waitsFor : Place → Option Tid
  | .looking child | .down (.wait child) _ | .collecting child | .marking child => some child
  | .user | .loading | .refused | .started | .exiting | .signalling | .dying | .nullPath _ | .created _
  | .down (.exec _) _ | .reading _ | .answering _ => none

/-- The child that `process_wait` knows to have ended. -/
def passedFor : Place → Option Tid
  | .collecting child | .marking child => some child
  | .user | .loading | .refused | .started | .exiting | .signalling | .dying | .nullPath _ | .created _
  | .down _ _ | .reading _ | .looking _ | .answering _ => none

/-- The child whose `exec_sema` was not taken yet. -/
def armedFor : Place → Option Tid
  | .created child | .down (.exec child) _ => some child
  | .user | .loading | .refused | .started | .exiting | .signalling | .dying | .nullPath _
  | .down (.wait _) _ | .reading _ | .looking _ | .collecting _ | .marking _ | .answering _ => none

/-- The section has nothing to do with a child. -/
def childless : Place → Bool
  | .user | .loading | .refused | .started | .exiting | .signalling | .dying | .nullPath _ => true
  | .created _ | .down _ _ | .reading _ | .looking _ | .collecting _ | .marking _ | .answering _ =>
    false

/-- In `thread_block`. -/
def asleepOn : Place → Option Signal
  | .down signal .blocked => some signal
  | .user | .loading | .refused | .started | .exiting | .signalling | .dying | .nullPath _ | .created _
  | .down _ .enter | .down _ .retest | .reading _ | .looking _ | .collecting _ | .marking _
  | .answering _ => none

attribute [grind =] ending unannounced closing execsFor waitsFor passedFor armedFor asleepOn

@[grind →]
theorem waitsFor_of_passedFor {place : Place} {child : Tid} (passes : place.passedFor = some child) :
    place.waitsFor = some child := by
  cases place <;> first | exact passes | cases passes

@[grind →]
theorem execsFor_of_armedFor {place : Place} {child : Tid} (armed : place.armedFor = some child) :
    place.execsFor = some child := by
  unfold armedFor at armed
  split at armed <;> first | exact armed | cases armed

end Place

/-- What is in the status of a process that ended so, or has not ended yet. -/
def statusWord : Option Ending → Int
  | some (.exited status) => status
  | some .killed => -1
  | some .refused => -1
  | some .exception => 0
  | none => 0

namespace Processes

/-- The lists of children and statuses. -/
structure Lists (s : Processes) : Prop where
  born : ∀ tid place, s.place tid = some place → tid < s.nextTid
  childBorn : ∀ parent child, child ∈ s.childList parent → child < s.nextTid
  parentBorn : ∀ parent child, child ∈ s.childList parent → parent < s.nextTid
  unique : ∀ parent other child, child ∈ s.childList parent → child ∈ s.childList other →
    parent = other
  waitChild : ∀ parent child, child ∈ s.waitList parent → child ∈ s.childList parent
  waitEnded : ∀ parent child place, child ∈ s.waitList parent → s.place child = some place →
    place = .dying
  closed : ∀ parent place, s.place parent = some place → place.closing = true →
    s.waitList parent = []
  listed : ∀ parent child place, child ∈ s.childList parent → s.place parent = some place →
    place.closing = false → child ∉ s.waitList parent → child ∈ s.exitList
  kept : ∀ parent child place, child ∈ s.childList parent → s.place parent = some place →
    place.closing = false → s.exitStatus child ≠ none
  own : ∀ child place, s.place child = some place → child ≠ mainTid → place ≠ .dying →
    child ∈ s.exitList ∧ s.exitStatus child ≠ none
  execChild : ∀ parent child place, s.place parent = some place → place.execsFor = some child →
    child ∈ s.childList parent ∧ child ∉ s.waitList parent
  waiting : ∀ parent child place, s.place parent = some place → place.waitsFor = some child →
    child ∈ s.childList parent ∧ child ∉ s.waitList parent
  passed : ∀ parent child place childPlace, s.place parent = some place →
    place.passedFor = some child → s.place child = some childPlace → childPlace = .dying
  answered : ∀ parent child, s.place parent = some (.answering child) → child ∈ s.waitList parent

attribute [grind →] Lists.born Lists.childBorn Lists.parentBorn Lists.unique Lists.waitChild
  Lists.waitEnded Lists.closed Lists.listed Lists.kept Lists.own Lists.execChild Lists.waiting Lists.passed Lists.answered

variable {s s' : Processes} {tid c : Tid}

section

variable (lists : Lists s)
include lists

@[grind →]
theorem Lists.downExec {stage : Stage} (here : s.place tid = some (.down (.exec c) stage)) :
    c ∈ s.childList tid ∧ c ∉ s.waitList tid :=
  lists.execChild tid c _ here rfl

@[grind →]
theorem Lists.reading (here : s.place tid = some (.reading c)) :
    c ∈ s.childList tid ∧ c ∉ s.waitList tid :=
  lists.execChild tid c _ here rfl

@[grind →]
theorem Lists.downWait {stage : Stage} (here : s.place tid = some (.down (.wait c) stage)) :
    c ∈ s.childList tid ∧ c ∉ s.waitList tid :=
  lists.waiting tid c _ here rfl

theorem Lists.move {old new : Place} (here : s.place tid = some old) (alive : old ≠ .dying)
    (closing : new.closing = old.closing) (runs : ∀ c, new.execsFor = some c →
      c ∈ s.childList tid ∧ c ∉ s.waitList tid)
    (waits : ∀ c, new.waitsFor = some c → c ∈ s.childList tid ∧ c ∉ s.waitList tid)
    (passes : ∀ c place, new.passedFor = some c → s.place c = some place → place = .dying)
    (unanswered : ∀ c, new ≠ .answering c) : Lists (s.setPlace tid (some new)) := by
  constructor <;> grind

theorem Lists.moveAlone {old new : Place} (here : s.place tid = some old) (alive : old ≠ .dying)
    (closing : new.closing = old.closing) (childless : new.childless = true) :
    Lists (s.setPlace tid (some new)) := by
  refine lists.move here alive closing ?_ ?_ ?_ ?_
  all_goals cases new <;> simp_all [Place.childless, Place.execsFor, Place.waitsFor, Place.passedFor]

theorem Lists.setStatus (tid : Tid) (status : Int) : Lists (s.setStatus tid (some status)) :=
  { lists with
    kept := by grind
    own := by grind }

theorem Lists.threadMarkWaited (here : s.place tid = some (.marking c))
    (marked : s.threadMarkWaited tid c = some s') : Lists s' := by
  obtain ⟨status, found, rfl⟩ := Option.map_eq_some_iff.mp marked
  clear marked
  have waits : (Place.marking c).waitsFor = some c := rfl
  have passes : (Place.marking c).passedFor = some c := rfl
  have o : tid ≠ c := by grind
  constructor <;> grind

theorem Lists.processExit (here : s.place tid = some .exiting)
    (exits : s.processExit tid = some s') : Lists s' := by
  obtain ⟨status, found, rfl⟩ := Option.map_eq_some_iff.mp exits
  clear exits
  constructor <;> grind

theorem Lists.threadExit (here : s.place tid = some .dying) : Lists (s.threadExit tid) := by
  have empty : s.waitList tid = [] := lists.closed tid _ here rfl
  unfold Processes.threadExit
  simp only [empty, List.not_mem_nil, not_false_eq_true, decide_true, List.filter_true,
    Function.update_eq_self]
  constructor <;> grind

theorem Lists.fresh : s.place s.nextTid = none := by
  cases found : s.place s.nextTid with
  | none => rfl
  | some place => exact absurd (lists.born _ _ found) (Nat.lt_irrefl _)

theorem Lists.unborn (parent : Tid) : s.nextTid ∉ s.childList parent :=
  fun mem => Nat.lt_irrefl _ (lists.childBorn parent _ mem)

theorem Lists.orphan (c : Tid) : c ∉ s.childList s.nextTid :=
  fun mem => Nat.lt_irrefl _ (lists.parentBorn _ c mem)

theorem Lists.threadCreate (here : s.place tid = some .user) : Lists (s.threadCreate tid) := by
  have fresh := lists.fresh
  have unborn := lists.unborn
  have orphan := lists.orphan
  have o : tid ≠ s.nextTid := by grind
  constructor <;> grind

end

/-! ## Endings -/

/-- What the statuses say. -/
structure Statuses (s : Processes) : Prop where
  status : ∀ tid status, s.exitStatus tid = some status → status = statusWord (s.endings tid)
  ended : ∀ tid place, s.place tid = some place → place.ending = true → s.endings tid ≠ none
  unended : ∀ tid place, s.place tid = some place → place.ending = false → s.endings tid = none
  gone : ∀ parent c, c ∈ s.childList parent → s.place c = none → s.endings c ≠ none
  loading : ∀ tid, s.place tid = some .loading → s.loads tid = none
  loaded : ∀ parent c, c ∈ s.childList parent → s.place c ≠ some .loading →
    s.loads c ≠ none
  refused : ∀ tid, s.loads tid = some false → s.endings tid = some .refused
  failed : ∀ tid, s.endings tid = some .refused → s.loads tid = some false

attribute [grind →] Statuses.status Statuses.ended Statuses.unended Statuses.gone Statuses.loading
  Statuses.loaded Statuses.refused Statuses.failed

variable (statuses : Statuses s)
include statuses

theorem Statuses.move {old new : Place} (here : s.place tid = some old)
    (ending : new.ending = old.ending) (loading : old ≠ .loading) (later : new ≠ .loading) :
    Statuses (s.setPlace tid (some new)) := by
  constructor <;> grind

theorem Statuses.threadMarkWaited (here : s.place tid = some (.marking c))
    (marked : s.threadMarkWaited tid c = some s') : Statuses s' := by
  obtain ⟨status, found, rfl⟩ := Option.map_eq_some_iff.mp marked
  clear marked
  constructor <;> grind

theorem Statuses.processExit (here : s.place tid = some .exiting)
    (exits : s.processExit tid = some s') : Statuses s' := by
  obtain ⟨status, found, rfl⟩ := Option.map_eq_some_iff.mp exits
  clear exits
  constructor <;> grind

theorem Statuses.threadExit (here : s.place tid = some .dying) : Statuses (s.threadExit tid) := by
  unfold Processes.threadExit
  constructor <;> grind

theorem Statuses.threadCreate (lists : Lists s) (here : s.place tid = some .user) :
    Statuses (s.threadCreate tid) := by
  have fresh := lists.fresh
  have unborn := lists.unborn
  have o : tid ≠ s.nextTid := by grind
  have zero : statusWord none = 0 := rfl
  constructor <;> grind

theorem Statuses.load (here : s.place tid = some .loading) :
    Statuses ((s.setLoad tid true).setPlace tid (some .started)) := by
  constructor <;> grind

theorem Statuses.refuse (tid : Tid) :
    Statuses ((((s.setStatus tid (some (-1))).setLoad tid false).setEnding tid .refused).setPlace tid
      (some .refused)) := by
  have word : statusWord (some .refused) = -1 := rfl
  constructor <;> grind

theorem Statuses.exception (here : s.place tid = some .user) :
    Statuses ((s.setEnding tid .exception).setPlace tid (some .exiting)) := by
  have word : statusWord (some .exception) = 0 := rfl
  have runs : statusWord none = 0 := rfl
  constructor <;> grind

theorem Statuses.endProcess {status : Int} {ending : Ending} (here : s.place tid = some .user)
    (word : statusWord (some ending) = status) (started : ending ≠ .refused) :
    Statuses (((s.setStatus tid (some status)).setEnding tid ending).setPlace tid
      (some .exiting)) := by
  constructor <;> grind

end Processes

end Pintos.Userprog
