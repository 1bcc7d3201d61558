import Mathlib.Algebra.Group.Int.Defs
import Pintos.Lib.Execution
import Pintos.Lib.FirstMatch

/-!
# The job list of the shell

The job list is an array of sixteen slots with a counter for job ids.  The counter starts again at
one when it passes the number of slots, and is set past all ids when a job is deleted.  Job ids stay
distinct exactly as long as no job is added while the counter stands at an id in use.
-/

namespace Pintos.Shell

open Execution FirstMatch Option List

abbrev maxJobs : Nat := 16

/-- `UNDEF`, `FG`, `BG` and `ST`. -/
inductive JobState
  | undef
  | fg
  | bg
  | st
  deriving DecidableEq

structure Job where
  pid : Int
  jid : Int
  state : JobState
  cmdline : String
  deriving DecidableEq

/-- `clearjob`. -/
def Job.clear : Job := ⟨0, 0, .undef, ""⟩

/-- The slot is taken. -/
abbrev Job.Listed (job : Job) : Prop := job.pid ≠ 0

/-- The array `jobs` and `nextjid`.  A slot is clear or has a positive pid. -/
structure Jobs where
  slots : List Job
  nextjid : Int
  size : slots.length = maxJobs
  valid : ∀ job ∈ slots, job = .clear ∨ 1 ≤ job.pid

namespace Jobs

/-- `initjobs`, at the start of the program. -/
def initjobs : Jobs where
  slots := List.replicate maxJobs .clear
  nextjid := 1
  size := List.length_replicate
  valid _ listed := .inl (List.eq_of_mem_replicate listed)

def maxjid (slots : List Job) : Int :=
  slots.foldl (fun max job => if job.jid > max then job.jid else max) 0

/-- The successor of an `int`, which wraps around. -/
def increment (number : Int) : Int := if number = 2 ^ 31 - 1 then -2 ^ 31 else number + 1

/-- There is a free slot. -/
def HasRoom (jobs : Jobs) : Prop := ∃ job ∈ jobs.slots, job.pid = 0

instance (jobs : Jobs) : Decidable jobs.HasRoom :=
  inferInstanceAs (Decidable (∃ job ∈ jobs.slots, job.pid = 0))

/-- The list after `addjob` has found a free slot. -/
def insert (jobs : Jobs) (pid : Int) (state : JobState) (cmdline : String) (positive : 1 ≤ pid) :
    Jobs where
  slots := updateFirst (fun job => job.pid = 0) (fun _ => ⟨pid, jobs.nextjid, state, cmdline⟩)
    jobs.slots
  nextjid := if increment jobs.nextjid > maxJobs then 1 else increment jobs.nextjid
  size := by rw [length_updateFirst, jobs.size]
  valid job listed := by
    rcases mem_updateFirst listed with old | ⟨_, _, _, rfl⟩
    · exact jobs.valid job old
    · exact .inr positive

/-- `addjob`: the list and whether the job was added. -/
def addjob (jobs : Jobs) (pid : Int) (state : JobState) (cmdline : String) : Jobs × Bool :=
  if positive : 1 ≤ pid then
    if jobs.HasRoom then (jobs.insert pid state cmdline positive, true) else (jobs, false)
  else
    (jobs, false)

def deletejob (jobs : Jobs) (pid : Int) : Jobs :=
  if 1 ≤ pid ∧ ∃ job ∈ jobs.slots, job.pid = pid then
    { slots := updateFirst (fun job => job.pid = pid) (fun _ => .clear) jobs.slots
      nextjid := increment
        (maxjid (updateFirst (fun job => job.pid = pid) (fun _ => .clear) jobs.slots))
      size := by rw [length_updateFirst, jobs.size]
      valid := by
        intro job listed
        rcases mem_updateFirst listed with old | ⟨_, _, _, rfl⟩
        · exact jobs.valid job old
        · exact .inl rfl }
  else
    jobs

def fgpid (jobs : Jobs) : Int :=
  match jobs.slots.find? fun job => job.state = .fg with
  | some job => job.pid
  | none => 0

def getjobpid (jobs : Jobs) (pid : Int) : Option Job :=
  if pid < 1 then none else jobs.slots.find? fun job => job.pid = pid

def getjobjid (jobs : Jobs) (jid : Int) : Option Job :=
  if jid < 1 then none else jobs.slots.find? fun job => job.jid = jid

def pid2jid (jobs : Jobs) (pid : Int) : Int :=
  match jobs.getjobpid pid with
  | some job => job.jid
  | none => 0

/-- The assignment of a state through the pointer that `getjobpid` has returned. -/
def setState (jobs : Jobs) (pid : Int) (state : JobState) : Jobs where
  slots := updateFirst (fun job => 1 ≤ pid ∧ job.pid = pid) (fun job => { job with state })
    jobs.slots
  nextjid := jobs.nextjid
  size := by rw [length_updateFirst, jobs.size]
  valid job listed := by
    rcases mem_updateFirst listed with old | ⟨_, _, ⟨positive, rfl⟩, rfl⟩
    · exact jobs.valid job old
    · exact .inr positive

variable {jobs : Jobs} {job : Job} {pid jid : Int} {state : JobState} {cmdline : String}

/-! ## Lookups -/

theorem pos_of_listed (mem : job ∈ jobs.slots) (listed : job.Listed) : 1 ≤ job.pid := by
  rcases jobs.valid job mem with rfl | pos
  · exact (listed rfl).elim
  · exact pos

theorem listed_of_fg (mem : job ∈ jobs.slots) (is_fg : job.state = .fg) : job.Listed := by
  rcases jobs.valid job mem with rfl | pos
  · cases is_fg
  · exact Int.ne_of_gt pos

theorem isSome_getjobpid :
    (jobs.getjobpid pid).isSome ↔ 1 ≤ pid ∧ ∃ job ∈ jobs.slots, job.pid = pid := by
  unfold getjobpid
  split
  · next small => simp [Int.not_le.mpr small]
  · next large =>
      have pos : 1 ≤ pid := by omega
      simp [find?_isSome, pos]

theorem isSome_getjobjid :
    (jobs.getjobjid jid).isSome ↔ 1 ≤ jid ∧ ∃ job ∈ jobs.slots, job.jid = jid := by
  unfold getjobjid
  split
  · next small => simp [Int.not_le.mpr small]
  · next large =>
      have pos : 1 ≤ jid := by omega
      simp [find?_isSome, pos]

theorem mem_of_getjobpid (found : jobs.getjobpid pid = some job) :
    job ∈ jobs.slots ∧ job.pid = pid ∧ 1 ≤ pid := by
  unfold getjobpid at found
  split at found
  · cases found
  · next large =>
      have passes := find?_some found
      exact ⟨mem_of_find?_eq_some found, by simpa using passes, by omega⟩

theorem mem_of_getjobjid (found : jobs.getjobjid jid = some job) :
    job ∈ jobs.slots ∧ job.jid = jid ∧ 1 ≤ jid := by
  unfold getjobjid at found
  split at found
  · cases found
  · next large =>
      have passes := find?_some found
      exact ⟨mem_of_find?_eq_some found, by simpa using passes, by omega⟩

theorem listed_of_getjobjid (found : jobs.getjobjid jid = some job) : job.Listed := by
  obtain ⟨mem, same, pos⟩ := mem_of_getjobjid found
  rcases jobs.valid job mem with rfl | positive_pid
  · simp only [Job.clear] at same
    omega
  · exact Int.ne_of_gt positive_pid

/-! ## What the operations leave in the slots -/

theorem mem_insert (pos : 1 ≤ pid) (mem : job ∈ (jobs.insert pid state cmdline pos).slots) :
    job ∈ jobs.slots ∨ job = ⟨pid, jobs.nextjid, state, cmdline⟩ := by
  rcases mem_updateFirst mem with old | ⟨_, _, _, rfl⟩
  · exact .inl old
  · exact .inr rfl

theorem mem_deletejob (mem : job ∈ (jobs.deletejob pid).slots) :
    job ∈ jobs.slots ∨ job = .clear := by
  unfold deletejob at mem
  split at mem
  · rcases mem_updateFirst mem with old | ⟨_, _, _, rfl⟩
    · exact .inl old
    · exact .inr rfl
  · exact .inl mem

theorem mem_setState (mem : job ∈ (jobs.setState pid state).slots) :
    job ∈ jobs.slots ∨ ∃ old ∈ jobs.slots, old.pid = pid ∧ job = { old with state } := by
  rcases mem_updateFirst mem with old | ⟨old, old_member, ⟨_, same⟩, rfl⟩
  · exact .inl old
  · exact .inr ⟨old, old_member, same, rfl⟩

/-- Setting a state leaves a job with the same pid and job id in place of every job. -/
theorem exists_mem_setState (mem : job ∈ jobs.slots) :
    ∃ kept ∈ (jobs.setState pid state).slots, kept.pid = job.pid ∧ kept.jid = job.jid := by
  have here : job ∈ (jobs.setState pid state).slots ∨
      { job with state } ∈ (jobs.setState pid state).slots := mem_or_change_mem_updateFirst mem
  rcases here with kept | new
  · exact ⟨job, kept, rfl, rfl⟩
  · exact ⟨_, new, rfl, rfl⟩

theorem getjobpid_setState {o : Int} (found : (jobs.getjobpid o).isSome) :
    ((jobs.setState pid state).getjobpid o).isSome := by
  obtain ⟨pos, job, mem, same⟩ := isSome_getjobpid.mp found
  obtain ⟨kept, kept_member, same_pid, _⟩ := exists_mem_setState mem
  exact isSome_getjobpid.mpr ⟨pos, kept, kept_member, same_pid.trans same⟩

theorem getjobjid_setState (found : (jobs.getjobjid jid).isSome) :
    ((jobs.setState pid state).getjobjid jid).isSome := by
  obtain ⟨pos, job, mem, same⟩ := isSome_getjobjid.mp found
  obtain ⟨kept, kept_member, _, same_jid⟩ := exists_mem_setState mem
  exact isSome_getjobjid.mpr ⟨pos, kept, kept_member, same_jid.trans same⟩

/-! ## Job ids -/

/-- Two slots that are taken have different job ids. -/
abbrev JidsDiffer (first second : Job) : Prop :=
  first.Listed → second.Listed → first.jid ≠ second.jid

/-- Two slots that are taken have different pids. -/
abbrev PidsDiffer (first second : Job) : Prop :=
  first.Listed → second.Listed → first.pid ≠ second.pid

instance : Std.Symm JidsDiffer :=
  ⟨fun _ _ differ second_listed first_listed => (differ first_listed second_listed).symm⟩

instance : Std.Symm PidsDiffer :=
  ⟨fun _ _ differ second_listed first_listed => (differ first_listed second_listed).symm⟩

/-- Job ids are positive and distinct, and lead back to the job of a pid if pids are distinct. -/
structure JidsSound (jobs : Jobs) : Prop where
  distinct : jobs.slots.Pairwise JidsDiffer
  positive : ∀ job ∈ jobs.slots, job.Listed → 1 ≤ job.jid
  found : jobs.slots.Pairwise PidsDiffer → ∀ job ∈ jobs.slots, job.Listed →
    jobs.getjobjid (jobs.pid2jid job.pid) = some job

theorem getjobpid_of_pairwise (ne : jobs.slots.Pairwise PidsDiffer)
    (mem : job ∈ jobs.slots) (listed : job.Listed) : jobs.getjobpid job.pid = some job := by
  have pos := pos_of_listed mem listed
  obtain ⟨o, found⟩ : ∃ o, jobs.getjobpid job.pid = some o :=
    isSome_iff_exists.mp (isSome_getjobpid.mpr ⟨pos, job, mem, rfl⟩)
  obtain ⟨other_member, same, _⟩ := mem_of_getjobpid found
  have other_listed : o.Listed := by rwa [Job.Listed, same]
  rcases eq_or_related ne mem other_member with rfl | differ
  · exact found
  · exact (differ listed other_listed same.symm).elim

theorem getjobjid_of_pairwise (ne : jobs.slots.Pairwise JidsDiffer)
    (pos : 1 ≤ job.jid) (mem : job ∈ jobs.slots) (listed : job.Listed) :
    jobs.getjobjid job.jid = some job := by
  obtain ⟨o, found⟩ : ∃ o, jobs.getjobjid job.jid = some o :=
    isSome_iff_exists.mp (isSome_getjobjid.mpr ⟨pos, job, mem, rfl⟩)
  obtain ⟨other_member, same, _⟩ := mem_of_getjobjid found
  have other_listed := listed_of_getjobjid found
  rcases eq_or_related ne mem other_member with rfl | differ
  · exact found
  · exact (differ listed other_listed same.symm).elim

theorem jidsSound_of_distinct (distinct : jobs.slots.Pairwise JidsDiffer)
    (positive : ∀ job ∈ jobs.slots, job.Listed → 1 ≤ job.jid) : jobs.JidsSound where
  distinct := distinct
  positive := positive
  found pids_distinct job mem listed := by
    rw [pid2jid, getjobpid_of_pairwise pids_distinct mem listed]
    exact getjobjid_of_pairwise distinct (positive job mem listed) mem listed

theorem pidsDiffer_insert (pos : 1 ≤ pid) (ne : jobs.slots.Pairwise PidsDiffer)
    (fresh : ∀ job ∈ jobs.slots, job.pid ≠ pid) :
    (jobs.insert pid state cmdline pos).slots.Pairwise PidsDiffer := by
  apply pairwise_updateFirst ne
  intro _ _ _ o mem _ _ _
  exact (fresh o mem).symm

section

variable (distinct : jobs.slots.Pairwise PidsDiffer)
include distinct

theorem pidsDiffer_deletejob : (jobs.deletejob pid).slots.Pairwise PidsDiffer := by
  unfold deletejob
  split
  · apply pairwise_updateFirst distinct
    intro _ _ _ _ _ _ clear_listed
    exact (clear_listed rfl).elim
  · exact distinct

theorem pidsDiffer_setState : (jobs.setState pid state).slots.Pairwise PidsDiffer :=
  pairwise_updateFirst distinct fun _ _ _ _ _ differ => differ

/-- With distinct pids a pid is gone from the list when its job has been deleted. -/
theorem mem_deletejob_of_listed (mem : job ∈ (jobs.deletejob pid).slots) (listed : job.Listed) :
    job ∈ jobs.slots ∧ job.pid ≠ pid := by
  unfold deletejob at mem
  split at mem
  · next present =>
      have unique : jobs.slots.Pairwise fun fst snd =>
          ¬ (fst.pid = pid ∧ snd.pid = pid) := by
        refine distinct.imp ?_
        rintro fst snd differ ⟨rfl, same⟩
        refine differ ?_ ?_ same.symm <;> intro zero <;> omega
      rcases mem_updateFirst_of_unique unique mem with old | ⟨_, _, _, rfl⟩
      · exact old
      · exact (listed rfl).elim
  · next missing =>
      refine ⟨mem, fun same => missing ?_⟩
      rw [← same]
      exact ⟨pos_of_listed mem listed, job, mem, rfl⟩

end

theorem mem_deletejob_of_ne (mem : job ∈ jobs.slots) (o : job.pid ≠ pid) :
    job ∈ (jobs.deletejob pid).slots := by
  unfold deletejob
  split
  · exact mem_updateFirst_of_not mem o
  · exact mem

/-- With distinct pids only the job of the pid changes its state. -/
theorem mem_setState_of_listed (ne : jobs.slots.Pairwise PidsDiffer)
    (mem : job ∈ (jobs.setState pid state).slots) (listed : job.Listed) :
    (job ∈ jobs.slots ∧ job.pid ≠ pid) ∨ job.pid = pid ∧ job.state = state := by
  have unique : jobs.slots.Pairwise fun fst snd =>
      ¬ ((1 ≤ pid ∧ fst.pid = pid) ∧ 1 ≤ pid ∧ snd.pid = pid) := by
    refine ne.imp ?_
    rintro fst snd differ ⟨⟨pos, rfl⟩, _, same⟩
    refine differ ?_ ?_ same.symm <;> intro zero <;> omega
  rcases mem_updateFirst_of_unique unique mem with ⟨old, fails⟩ | ⟨_, _, ⟨_, same⟩, rfl⟩
  · refine .inl ⟨old, fun same => fails ⟨?_, same⟩⟩
    rw [← same]
    exact pos_of_listed old listed
  · exact .inr ⟨same, rfl⟩

/-- A call that changes the job list. -/
inductive Call
  | addjob (pid : Int) (state : JobState) (cmdline : String)
  | deletejob (pid : Int)

/-- The job list after a call. -/
def step (jobs : Jobs) : Call → Option Jobs
  | .addjob pid state cmdline => some (jobs.addjob pid state cmdline).1
  | .deletejob pid => some (jobs.deletejob pid)

/-- If a job is going to be added, the counter is positive and not at a job id in use. -/
def CounterFits (jobs : Jobs) : Call → Prop
  | .addjob pid _ _ => 1 ≤ pid → jobs.HasRoom →
      1 ≤ jobs.nextjid ∧ ∀ job ∈ jobs.slots, job.Listed → job.jid ≠ jobs.nextjid
  | .deletejob _ => True

theorem jidsSound_insert (sound : jobs.JidsSound) (pos : 1 ≤ pid) (counter : 1 ≤ jobs.nextjid)
    (unused : ∀ job ∈ jobs.slots, job.Listed → job.jid ≠ jobs.nextjid) :
    (jobs.insert pid state cmdline pos).JidsSound := by
  apply jidsSound_of_distinct
  · apply pairwise_updateFirst sound.distinct
    intro old _ _ o other_member _ _ other_listed
    exact (unused o other_member other_listed).symm
  · intro job mem listed
    rcases mem_updateFirst mem with old | ⟨_, _, _, rfl⟩
    · exact sound.positive job old listed
    · exact counter

theorem jidsSound_deletejob (sound : jobs.JidsSound) : (jobs.deletejob pid).JidsSound := by
  unfold deletejob
  split
  · apply jidsSound_of_distinct
    · apply pairwise_updateFirst sound.distinct
      intro _ _ _ _ _ _ clear_listed
      exact (clear_listed rfl).elim
    · intro job mem listed
      rcases mem_updateFirst mem with old | ⟨_, _, _, rfl⟩
      · exact sound.positive job old listed
      · exact (listed rfl).elim
  · exact sound

theorem counterFits_of_insert (room : jobs.HasRoom) (pos : 1 ≤ pid)
    (sound : (jobs.insert pid state cmdline pos).JidsSound) :
    1 ≤ jobs.nextjid ∧ ∀ job ∈ jobs.slots, job.Listed → job.jid ≠ jobs.nextjid := by
  have listed : (⟨pid, jobs.nextjid, state, cmdline⟩ : Job).Listed := by
    change pid ≠ 0
    omega
  obtain ⟨slot, mem, free⟩ := room
  have new : ⟨pid, jobs.nextjid, state, cmdline⟩ ∈ (jobs.insert pid state cmdline pos).slots := by
    obtain ⟨_, _, _, new⟩ := @exists_mem_updateFirst Job (fun job => job.pid = 0) _
      (fun _ => ⟨pid, jobs.nextjid, state, cmdline⟩) jobs.slots slot mem free
    exact new
  obtain ⟨_, _, _, apart⟩ := related_of_pairwise_updateFirst sound.distinct mem free
  refine ⟨sound.positive _ new listed, fun job job_member job_listed => ?_⟩
  exact (apart job job_member job_listed listed job_listed).symm

theorem jidsSound_step_iff {call : Call} {s' : Jobs} (sound : jobs.JidsSound)
    (steps : jobs.step call = some s') : s'.JidsSound ↔ jobs.CounterFits call := by
  cases call with
  | addjob pid state cmdline =>
    cases steps
    unfold addjob CounterFits
    split
    · next pos =>
        split
        · next room =>
            constructor
            · exact fun kept _ _ => counterFits_of_insert room pos kept
            · intro fits
              obtain ⟨counter, unused⟩ := fits pos room
              exact jidsSound_insert sound pos counter unused
        · next full => exact iff_of_true sound fun _ room => (full room).elim
    · next negative => exact iff_of_true sound fun pos => (negative pos).elim
  | deletejob pid =>
    cases steps
    exact iff_of_true (jidsSound_deletejob sound) trivial

theorem jidsSound_initjobs : initjobs.JidsSound := by
  apply jidsSound_of_distinct
  · apply pairwise_of_forall_mem_list
    intro fst mem _ _ listed
    rw [eq_of_mem_replicate mem] at listed
    exact (listed rfl).elim
  · intro job mem listed
    rw [eq_of_mem_replicate mem] at listed
    exact (listed rfl).elim

end Jobs

end Pintos.Shell
