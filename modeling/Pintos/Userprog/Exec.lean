import Pintos.Userprog.Progress

/-!
# What exec reports

`process_execute` infers the result of `load` from the exit status of the child.  It is right, and
returns, exactly if the first 15 characters of the command line already name a file, the child is
still there if its `load` failed, has not assigned -1 to its status for another reason, and does not
leave while the parent uses its page.
-/

namespace Pintos.Userprog

open Function Option List

/-- For a command line whose first token names a file, `TID_ERROR` says that there is no thread or that
its `load` returned false. -/
def ExecRecord.Correct (loads : Tid → Option Bool) (record : ExecRecord) : Prop :=
  record.attempt ≠ .absent → (record.result = none ↔ record.attempt = .noThread ∨
        ∃ child, record.attempt = .thread child ∧ loads child = some false)

theorem ExecRecord.Correct.mono {record : ExecRecord} {loads later : Tid → Option Bool}
    (correct : record.Correct loads)
    (same : ∀ child, record.attempt = .thread child → later child = loads child) :
    record.Correct later := by
  intro named
  rw [correct named]
  refine or_congr_right (exists_congr fun child => and_congr_right fun t => ?_)
  rw [same child t]

namespace Processes

/-- The results so far are right, a thread in `process_execute` goes on unless it waits for a child whose
`load` has not returned yet, and a child whose `load` has returned tells its parent. -/
structure ExecSound (s : Processes) : Prop where
  results : ∀ record ∈ s.execs, record.Correct s.loads
  proceeds : ∀ tid place child, s.place tid = some place → place.execsFor = some child →
    s.WaitsFor tid (.exec child) ∨ s.Proceeds tid place
  tells : ∀ tid place, s.place tid = some place → tid ≠ mainTid → place.unannounced = true →
    place ≠ .loading → s.Proceeds tid place
  opens : ∀ tid, s.place tid ≠ some (.nullPath true)

/-- If the first token of the command line names a file, so does the first token of its first 15
characters; a child whose `load` failed is still there when its parent looks for it; a child whose
`load` succeeded has not assigned -1 to its status when its parent reads it; and a thread leaves only
if nobody is inside `sema_down` on its `exec_sema`. -/
def execFits (s : Processes) : ProcessEvent → Prop
  | .exec _ cmdline opens argument _ =>
    argument = true → namesFile opens cmdline = true → namesFile opens (tmpfilename cmdline) = true
  | .run tid =>
    (s.place tid = some .dying → ∀ parent stage, s.place parent ≠ some (.down (.exec tid) stage)) ∧
    (∀ child, s.place tid = some (.created child) → s.place child = none →
      s.loads child ≠ some false) ∧
    ∀ child, s.place tid = some (.reading child) → s.loads child = some true →
      s.exitStatus child ≠ some (-1)
  | _ => True

/-- The semaphore is the `exec_sema` of a child. -/
def IsExec (signal : Signal) : Prop := ∃ child, signal = .exec child

/-- What holds for as long as the steps fit. -/
structure ExecInvariant (s : Processes) : Prop where
  family : Family s
  made : ∀ record ∈ s.execs, ∀ child, record.attempt = .thread child →
    child ∈ s.childList record.parent ∧ s.loads child ≠ none
  results : ∀ record ∈ s.execs, record.Correct s.loads
  held : Held s IsExec
  opens : ∀ tid, s.place tid ≠ some (.nullPath true)

variable {s s' : Processes} {tid parent c : Tid} {e : ProcessEvent}

/-! ## Progress -/

/-- A thread in `process_execute` that is not blocked goes on. -/
theorem ExecInvariant.proceeds {place : Place} (inv : ExecInvariant s)
    (here : s.place tid = some place) (runs : place.execsFor = some c) :
    s.WaitsFor tid (.exec c) ∨ s.Proceeds tid place := by
  obtain ⟨family, _, _, held, _⟩ := inv
  obtain ⟨listed, unwaited⟩ := family.lists.execChild tid c place here runs
  cases place with
  | created o =>
    right
    cases found : s.place o with
    | none =>
      have moved : s.execute tid (.created o) = some (s.returnExec tid (.thread o) (some o)) := by
        simp only [Processes.execute, found]
      exact .of_move here moved (update_self _ _ _) (by simp [Place.rank])
    | some place =>
      have moved : s.execute tid (.created o) =
          some (s.setPlace tid (some (.down (.exec o) .enter))) := by
        simp only [Processes.execute, found]
      exact .of_move here moved (update_self _ _ _) (by simp [Place.rank])
  | down signal stage =>
    cases signal with
    | exec o =>
      obtain rfl := some.inj runs
      exact family.proceeds_down here (held tid _ stage ⟨o, rfl⟩ here)
    | wait o => cases runs
  | reading o =>
    obtain rfl := some.inj runs
    have mem := family.lists.listed tid o _ listed here rfl unwaited
    obtain ⟨status, found⟩ := exists_status (family.lists.kept tid o _ listed here rfl)
    have read : s.threadGetExitStatus o = some status := by
      unfold Processes.threadGetExitStatus
      rw [if_pos mem, found]
    exact .inr (.of_move here (map_eq_some_iff.mpr ⟨status, read, rfl⟩)
      (update_self _ _ _) (by simp [Place.rank]))
  | _ => cases runs

theorem ExecInvariant.sound (inv : ExecInvariant s) : ExecSound s where
  __ := inv
  proceeds _ _ _ here executes := inv.proceeds here executes
  tells tid place here other untold returned := by
    cases place with
    | refused => exact inv.family.ends here other rfl
    | started => exact inv.family.starts here
    | loading => exact absurd rfl returned
    | _ => cases untold

/-! ## Results -/

theorem correct_miss (loads : Tid → Option Bool) (tid c : Tid) :
    ExecRecord.Correct loads ⟨tid, .thread c, some c⟩ ↔ loads c ≠ some false := by
  simp [ExecRecord.Correct]

/-- When `process_execute` reads the status, `load` has returned. -/
theorem Family.loaded (family : Family s) (here : s.place tid = some (.reading c)) :
    s.loads c ≠ none := by
  refine family.statuses.loaded tid c (family.lists.reading here).1 fun loading => ?_
  have told := family.signals.execRead tid c _ here loading
  cases told

theorem ExecInvariant.correct_read {status : Int} (inv : ExecInvariant s)
    (here : s.place tid = some (.reading c)) (read : s.exitStatus c = some status) :
    ExecRecord.Correct s.loads ⟨tid, .thread c, if status = -1 then none else some c⟩ ↔
      (s.loads c = some true → s.exitStatus c ≠ some (-1)) := by
  obtain ⟨family, _, _, _, _⟩ := inv
  have word := family.statuses.status c status read
  obtain ⟨ok, loads⟩ := ne_none_iff_exists'.mp (family.loaded here)
  rw [read]
  cases ok with
  | true =>
    by_cases failed : status = -1
    · simp [ExecRecord.Correct, failed, loads]
    · simp [ExecRecord.Correct, failed, loads]
  | false =>
    have refused := family.statuses.refused c loads
    rw [refused] at word
    obtain rfl : status = -1 := word
    simp [ExecRecord.Correct, loads]

/-! ## Steps -/

theorem ExecInvariant.made_step (inv : ExecInvariant s) (out : Outcome s s' e) :
    ∀ record ∈ s'.execs, ∀ c, record.attempt = .thread c →
      c ∈ s'.childList record.parent ∧ s'.loads c ≠ none := by
  have old := inv.made
  cases out with
  | quiet quiet =>
    intro record mem c t
    rw [quiet.execs] at mem
    obtain ⟨listed, loaded⟩ := old record mem c t
    obtain ⟨ok, loads⟩ := ne_none_iff_exists'.mp loaded
    rw [quiet.childList, quiet.loads c ok loads]
    exact ⟨listed, by simp⟩
  | fails tid attempt here childless calls eq =>
    subst eq
    intro record mem c t
    rcases mem_cons.mp mem with rfl | mem
    · exact absurd t (childless c)
    · exact old record mem c t
  | creates tid here eq =>
    subst eq
    intro record mem c t
    have listed := old record mem c t
    have orphan := inv.family.lists.orphan c
    have unborn := inv.family.lists.unborn
    grind
  | misses tid c runs here gone eq =>
    subst eq
    intro record mem o t
    rcases mem_cons.mp mem with rfl | mem
    · obtain rfl : c = o := by simpa using t
      have listed := (inv.family.lists.execChild tid c _ here rfl).1
      exact ⟨listed, inv.family.statuses.loaded tid c listed (by simp [gone])⟩
    · exact old record mem o t
  | reads tid c status runs here read eq =>
    subst eq
    intro record mem o t
    rcases mem_cons.mp mem with rfl | mem
    · obtain rfl : c = o := by simpa using t
      exact ⟨(inv.family.lists.reading here).1, inv.family.loaded here⟩
    · exact old record mem o t
  | crashes tid named here calls eq | rejects tid c here unfit eq
  | answers tid c status runs here read eq =>
    subst eq
    exact old
  | marks tid c here eq | closes tid here eq =>
    obtain ⟨_, _, rfl⟩ := map_eq_some_iff.mp eq
    exact old

/-- `process_execute` returns without a thread: the result is right unless the file was not found under
the shortened name. -/
theorem correct_fail (loads : Tid → Option Bool) (tid : Tid) (attempt : Attempt)
    (childless : ∀ c, attempt ≠ .thread c) :
    ExecRecord.Correct loads ⟨tid, attempt, none⟩ ↔ attempt ≠ .notOpened := by
  cases attempt with
  | thread c => exact absurd rfl (childless c)
  | _ => simp [ExecRecord.Correct]

section

variable (inv : ExecInvariant s)
include inv

theorem ExecInvariant.results_step (fits : s.execFits e) (out : Outcome s s' e) :
    ∀ record ∈ s'.execs, record.Correct s'.loads := by
  have old := inv.results
  cases out with
  | quiet quiet =>
    intro record mem
    rw [quiet.execs] at mem
    refine (old record mem).mono fun c t => ?_
    obtain ⟨ok, loads⟩ := ne_none_iff_exists'.mp (inv.made record mem c t).2
    rw [loads, quiet.loads c ok loads]
  | fails tid attempt here childless calls eq =>
    subst eq
    intro record mem
    rcases mem_cons.mp mem with rfl | mem
    · refine (correct_fail s.loads tid attempt childless).mpr fun notOpened => ?_
      obtain ⟨cmdline, opens, page, rfl, named, unnamed⟩ := calls notOpened
      rw [fits rfl named] at unnamed
      cases unnamed
    · exact old record mem
  | creates tid here eq =>
    subst eq
    intro record mem
    refine (old record mem).mono fun c t => ?_
    have listed := (inv.made record mem c t).1
    refine update_of_ne ?_ _ _
    rintro rfl
    exact inv.family.lists.unborn _ listed
  | misses tid c runs here gone eq =>
    subst eq runs
    intro record mem
    rcases mem_cons.mp mem with rfl | mem
    · exact (correct_miss s.loads tid c).mpr (fits.2.1 c here gone)
    · exact old record mem
  | reads tid c status runs here read eq =>
    subst eq runs
    intro record mem
    rcases mem_cons.mp mem with rfl | mem
    · exact (inv.correct_read here read).mpr (fits.2.2 c here)
    · exact old record mem
  | crashes tid named here calls eq | rejects tid c here unfit eq
  | answers tid c status runs here read eq =>
    subst eq
    exact old
  | marks tid c here eq | closes tid here eq =>
    obtain ⟨_, _, rfl⟩ := map_eq_some_iff.mp eq
    exact old

theorem ExecInvariant.opens_step (fits : s.execFits e) (out : Outcome s s' e)
    (t : Tid) : s'.place t ≠ some (.nullPath true) := by
  have was := inv.opens t
  cases out with
  | quiet quiet =>
    intro found
    obtain ⟨old, prev, same⟩ := quiet.place t _ found
    rcases same with rfl | same
    · exact was prev
    · exact same.nullPath true rfl
  | crashes tid named here calls eq =>
    obtain ⟨cmdline, opens, page, rfl, rfl, unnamed⟩ := calls
    subst eq
    intro found
    by_cases equal : t = tid
    · subst equal
      have named : namesFile opens cmdline = true := by simpa using found
      rw [fits rfl named] at unnamed
      cases unnamed
    · exact was ((update_of_ne equal _ _).symm.trans found)
  | fails tid attempt here childless calls eq | creates tid here eq
  | misses tid c runs here gone eq | reads tid c status runs here read eq
  | rejects tid c here unfit eq | answers tid c status runs here read eq =>
    subst eq
    grind
  | marks tid c here eq | closes tid here eq =>
    obtain ⟨_, _, rfl⟩ := map_eq_some_iff.mp eq
    grind

theorem ExecInvariant.step (fits : s.execFits e) (ran : s.step e = some s') : ExecInvariant s' where
  family := inv.family.step ran
  made := inv.made_step (inv.family.outcome ran)
  results := inv.results_step fits (inv.family.outcome ran)
  held := by
    refine inv.held.step inv.family ?_ ran
    rintro tid rfl dying parent _ stage ⟨c, rfl⟩ rfl
    exact fits.1 dying parent stage
  opens := inv.opens_step fits (inv.family.outcome ran)

/-- A step after which everything is still right was a fitting one. -/
theorem ExecInvariant.execFits (ran : s.step e = some s') (sound : ExecSound s') :
    s.execFits e := by
  cases e with
  | exec tid cmdline opens argument page =>
    rintro rfl named
    by_contra closed
    simp only [Processes.step] at ran
    split at ran
    · cases ran
      have safe := sound.opens tid
      have results := sound.results
      unfold Processes.processExecute at safe results
      cases token : firstToken (tmpfilename cmdline) with
      | none => simp [token, named] at safe
      | some name =>
        have shut : opens name = false := by
          simpa only [namesFile, token, Bool.not_eq_true] using closed
        simp only [token, shut, named, if_true] at results
        have right := results _ mem_cons_self
        exact (correct_fail _ tid .notOpened (by simp)).mp right rfl
    · cases ran
  | run tid =>
    obtain ⟨place, here, ran⟩ := bind_eq_some_iff.mp ran
    refine ⟨?_, ?_, ?_⟩
    · intro dying parent stage waiting
      obtain rfl : place = .dying := some.inj (here.symm.trans dying)
      cases ran
      have o : parent ≠ tid := by
        rintro rfl
        rw [here] at waiting
        cases waiting
      have waits : (s.threadExit tid).place parent = some (.down (.exec tid) stage) :=
        (update_of_ne o _ _).trans waiting
      exact not_proceeds_down waits (update_self _ _ _) (sound.proceeds parent _ tid waits rfl)
    · intro c made gone
      obtain rfl : place = .created c := some.inj (here.symm.trans made)
      simp only [Processes.execute, gone] at ran
      cases ran
      exact (correct_miss s.loads tid c).mp (sound.results _ mem_cons_self)
    · intro c reading
      obtain rfl : place = .reading c := some.inj (here.symm.trans reading)
      obtain ⟨status, read, rfl⟩ := map_eq_some_iff.mp ran
      have found : s.exitStatus c = some status := by
        unfold Processes.threadGetExitStatus at read
        split at read
        · exact read
        · cases read
      exact (inv.correct_read here found).mp (sound.results _ mem_cons_self)
  | _ => trivial

end

theorem execInvariant_init : ExecInvariant init where
  family := family_init
  made := nofun
  results := nofun
  held := held_init IsExec
  opens tid := by
    simp only [init]
    split <;> simp

/-- Along a run of any processes every `process_execute` returns what it should exactly if every step
fits. -/
theorem execSound_iff_execFits (events : List ProcessEvent) :
    Execution.Along step ExecSound init events ↔ Execution.Meets step execFits init events := by
  constructor
  · exact Execution.meets_of_along execInvariant_init (fun inv fits ran => inv.step fits ran)
      (fun inv ran sound => inv.execFits ran sound)
  · exact Execution.along_of_meets execInvariant_init (fun inv fits ran => inv.step fits ran)
      (fun inv => inv.sound)

/-- The child fails to load and is gone before the parent looks for it. -/
theorem failed_load_reported_as_success : ∃ final, Execution.run step init
      [.exec 1 [120] (fun _ => true) true true, .load 2 false, .run 2, .run 2, .run 2, .run 2,
        .run 1] = some final ∧ ¬ ExecSound final := by
  have ends : ((Execution.run step init
      [.exec 1 [120] (fun _ => true) true true, .load 2 false, .run 2, .run 2, .run 2, .run 2,
        .run 1]).map fun s => (s.execs, s.loads 2)) =
          some ([⟨1, .thread 2, some 2⟩], some false) := by
    decide +kernel
  obtain ⟨final, execution, res⟩ := map_eq_some_iff.mp ends
  obtain ⟨execs, loads⟩ := Prod.mk.inj res
  refine ⟨final, execution, fun sound => ?_⟩
  have right := sound.results ⟨1, .thread 2, some 2⟩ (by rw [execs]; exact List.mem_cons_self)
  exact (correct_miss final.loads 1 2).mp right loads

end Processes

end Pintos.Userprog
