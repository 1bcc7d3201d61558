import Pintos.Userprog.Progress

/-!
# The wait protocol

`process_wait` returns the right status, once for each child, and it returns whenever the child has
ended, exactly if nobody waits for a child that was ended by `kill` of `exception.c`, and no child
leaves between the lookup of its page by `process_wait` and the end of `sema_down`.
-/

namespace Pintos.Userprog

open Function Option

/-- The first `process_wait` for a child returns what it should, any other one returns -1. -/
def WaitRecord.Correct (endings : Tid → Option Ending) (record : WaitRecord) : Prop :=
  if record.first then
    ∃ ending, endings record.child = some ending ∧ record.answer = ending.answer
  else
    record.answer = -1

theorem WaitRecord.Correct.mono {record : WaitRecord} {endings later : Tid → Option Ending}
    (correct : record.Correct endings)
    (kept : ∀ child ending, endings child = some ending → later child = some ending) :
    record.Correct later := by
  unfold WaitRecord.Correct at correct ⊢
  split
  · rename_i fst
    rw [if_pos fst] at correct
    obtain ⟨ending, ended, same⟩ := correct
    exact ⟨ending, kept _ ending ended, same⟩
  · rename_i later
    rw [if_neg later] at correct
    exact correct

namespace Processes

/-- The wait protocol: the answers so far are right, a thread in `process_wait` goes on unless it waits
for a child that has not signalled yet, and a process that ends goes on until it is gone. -/
structure WaitSound (s : Processes) : Prop where
  answers : ∀ record ∈ s.waits, record.Correct s.endings
  proceeds : ∀ tid place child, s.place tid = some place →
    place.waitsFor = some child ∨ place = .answering child →
    s.WaitsFor tid (.wait child) ∨ s.Proceeds tid place
  ends : ∀ tid place, s.place tid = some place → tid ≠ mainTid → place.ending = true →
    s.Proceeds tid place

/-- A thread leaves only if nobody is inside `sema_down` on its `wait_sema`, and `process_wait` returns
the status of a child only if `kill` of `exception.c` did not end it. -/
def waitFits (s : Processes) : ProcessEvent → Prop
  | .run tid =>
    (s.place tid = some .dying → ∀ parent stage, s.place parent ≠ some (.down (.wait tid) stage)) ∧
    ∀ child, s.place tid = some (.answering child) → s.endings child ≠ some .exception
  | _ => True

/-- How the records and the lists belong together. -/
structure WaitHistory (s : Processes) : Prop where
  returnedChild : ∀ parent child, returned s.execs parent child = true → child ∈ s.childList parent
  waitedReturned : ∀ parent child, waited s.waits parent child = true →
    returned s.execs parent child = true
  unreturned : ∀ parent child place, child ∈ s.childList parent → s.place parent = some place →
    place.execsFor ≠ some child → returned s.execs parent child = false →
    ∃ ending, s.endings child = some ending ∧ statusWord (some ending) = -1
  waitedListed : ∀ parent child place, waited s.waits parent child = true → s.place parent = some place →
    place.closing = false → child ∈ s.waitList parent ∧ place ≠ .answering child
  listedWaited : ∀ parent child place, child ∈ s.waitList parent → s.place parent = some place →
    place ≠ .answering child → returned s.execs parent child = true → waited s.waits parent child = true

attribute [grind →] WaitHistory.returnedChild WaitHistory.waitedReturned WaitHistory.unreturned
  WaitHistory.waitedListed WaitHistory.listedWaited

variable {s s' : Processes} {tid p c : Tid} {e : ProcessEvent} {status : Int}

@[grind =]
theorem returned_cons (record : ExecRecord) (execs : List ExecRecord) (p c : Tid) :
    returned (record :: execs) p c = (decide (record.parent = p ∧ record.result = some c) ||
        returned execs p c) := rfl

@[grind =]
theorem waited_cons (record : WaitRecord) (waits : List WaitRecord) (p c : Tid) :
    waited (record :: waits) p c = (decide (record.parent = p ∧ record.child = c ∧ record.first) ||
        waited waits p c) := rfl

section

variable (history : WaitHistory s)
include history

theorem WaitHistory.quiet (quiet : Quiet s s') : WaitHistory s' := by
  have execs := quiet.execs
  have waits := quiet.waits
  have childList := quiet.childList
  have waitList := quiet.waitList
  constructor
  · intro p c was
    rw [execs] at was
    rw [childList]
    exact history.returnedChild p c was
  · intro p c was
    rw [waits] at was
    rw [execs]
    exact history.waitedReturned p c was
  · intro p c place listed found out was
    rw [childList] at listed
    rw [execs] at was
    obtain ⟨old, before, same⟩ := quiet.place p place found
    have prev : old.execsFor ≠ some c := by
      rcases same with rfl | same
      · exact out
      · exact fun runs => out (same.execsFor c runs)
    obtain ⟨ending, ended, word⟩ := history.unreturned p c old listed before prev was
    exact ⟨ending, quiet.endings c ending ended, word⟩
  · intro p c place was found closing
    rw [waits] at was
    rw [waitList]
    obtain ⟨old, before, same⟩ := quiet.place p place found
    rcases same with rfl | same
    · exact history.waitedListed p c old was before closing
    · have listed := history.waitedListed p c old was before (same.closing closing)
      exact ⟨listed.1, (same.answering c).2⟩
  · intro p c place listed found unanswered was
    rw [waitList] at listed
    rw [execs] at was
    rw [waits]
    obtain ⟨old, before, same⟩ := quiet.place p place found
    rcases same with rfl | same
    · exact history.listedWaited p c old listed before unanswered was
    · exact history.listedWaited p c old listed before (same.answering c).1 was

theorem WaitHistory.crashes {named : Bool} (here : s.place tid = some .user) :
    WaitHistory (s.setPlace tid (some (.nullPath named))) := by
  constructor <;> grind

theorem WaitHistory.fails {attempt : Attempt} (here : s.place tid = some .user) :
    WaitHistory (s.returnExec tid attempt none) := by
  constructor <;> grind

theorem WaitHistory.creates (lists : Lists s) (here : s.place tid = some .user) :
    WaitHistory (s.threadCreate tid) := by
  have fresh := lists.fresh
  have unborn := lists.unborn
  have orphan := lists.orphan
  have o : tid ≠ s.nextTid := by grind
  constructor <;> grind

theorem WaitHistory.misses (lists : Lists s) (here : s.place tid = some (.created c)) :
    WaitHistory (s.returnExec tid (.thread c) (some c)) := by
  have runs : (Place.created c).execsFor = some c := rfl
  constructor <;> grind

theorem WaitHistory.reads (lists : Lists s) (statuses : Statuses s)
    (here : s.place tid = some (.reading c)) (read : s.exitStatus c = some status) :
    WaitHistory (s.returnExec tid (.thread c) (if status = -1 then none else some c)) := by
  have runs : (Place.reading c).execsFor = some c := rfl
  have ended : status = -1 → ∃ ending, s.endings c = some ending ∧
      statusWord (some ending) = -1 := by
    intro failed
    have word := statuses.status c status read
    cases found : s.endings c with
    | none =>
      rw [failed, found] at word
      cases word
    | some ending =>
      rw [failed, found] at word
      exact ⟨ending, rfl, word.symm⟩
  have others : ∀ o, o ≠ c → (Place.reading c).execsFor ≠ some o := by
    intro o ne executing
    exact ne (some.inj executing).symm
  constructor
  case unreturned =>
    intro p o place listed found out unreturned
    by_cases same : o = c
    · grind
    · have ne := others o same
      grind
  all_goals grind

theorem WaitHistory.rejects (here : s.place tid = some .user)
    (unfit : c ∈ s.childList tid → c ∈ s.waitList tid) :
    WaitHistory (s.returnWait tid c (-1)) := by
  constructor <;> grind

theorem WaitHistory.marks (lists : Lists s) (here : s.place tid = some (.marking c))
    (marked : s.threadMarkWaited tid c = some s') : WaitHistory s' := by
  obtain ⟨status, found, rfl⟩ := map_eq_some_iff.mp marked
  clear marked
  have waits : (Place.marking c).waitsFor = some c := rfl
  constructor <;> grind

theorem WaitHistory.answers (lists : Lists s) (here : s.place tid = some (.answering c)) :
    WaitHistory (s.returnWait tid c status) := by
  constructor <;> grind

theorem WaitHistory.closes (here : s.place tid = some .exiting)
    (closed : s.processExit tid = some s') : WaitHistory s' := by
  obtain ⟨status, found, rfl⟩ := map_eq_some_iff.mp closed
  clear closed
  constructor <;> grind

theorem WaitHistory.step (family : Family s) (out : Outcome s s' e) : WaitHistory s' := by
  cases out with
  | quiet quiet => exact history.quiet quiet
  | crashes tid named here _ eq => exact eq ▸ history.crashes here
  | fails tid attempt here _ _ eq => exact eq ▸ history.fails here
  | creates tid here eq => exact eq ▸ history.creates family.lists here
  | misses tid c _ here _ eq => exact eq ▸ history.misses family.lists here
  | reads tid c status _ here read eq =>
    exact eq ▸ history.reads family.lists family.statuses here read
  | rejects tid c here unfit eq => exact eq ▸ history.rejects here unfit
  | marks tid c here eq => exact history.marks family.lists here eq
  | answers tid c status _ here _ eq => exact eq ▸ history.answers family.lists here
  | closes tid here eq => exact history.closes here eq

end

/-! ## The protocol -/

/-- The semaphore is the `wait_sema` of a child. -/
def IsWait (signal : Signal) : Prop := ∃ c, signal = .wait c

/-- What holds for as long as the steps fit. -/
structure WaitInvariant (s : Processes) : Prop where
  family : Family s
  history : WaitHistory s
  answers : ∀ record ∈ s.waits, record.Correct s.endings
  held : Held s IsWait

section

variable (inv : WaitInvariant s)
include inv

theorem WaitInvariant.proceeds {place : Place} (here : s.place tid = some place)
    (waits : place.waitsFor = some c ∨ place = .answering c) :
    s.WaitsFor tid (.wait c) ∨ s.Proceeds tid place := by
  obtain ⟨family, _, _, held⟩ := inv
  rcases waits with waits | rfl
  · obtain ⟨listed, unwaited⟩ := family.lists.waiting tid c place here waits
    cases place with
    | looking o =>
      right
      cases found : s.place o with
      | none =>
        have moved : s.execute tid (.looking o) = some (s.setPlace tid (some (.collecting o))) := by
          simp only [Processes.execute, found]
        exact .of_move here moved (update_self _ _ _) (by simp [Place.rank])
      | some place =>
        have moved : s.execute tid (.looking o) =
            some (s.setPlace tid (some (.down (.wait o) .enter))) := by
          simp only [Processes.execute, found]
        exact .of_move here moved (update_self _ _ _) (by simp [Place.rank])
    | down signal stage =>
      cases signal with
      | exec o => cases waits
      | wait o =>
        obtain rfl := some.inj waits
        exact family.proceeds_down here (held tid _ stage ⟨o, rfl⟩ here)
    | collecting o =>
      obtain rfl := some.inj waits
      have mem := family.lists.listed tid o _ listed here rfl unwaited
      exact .inr (.of_move here (if_pos mem) (update_self _ _ _) (by simp [Place.rank]))
    | marking o =>
      obtain rfl := some.inj waits
      obtain ⟨status, found⟩ := exists_status (family.lists.kept tid o _ listed here rfl)
      exact .inr (.of_move here (map_eq_some_iff.mpr ⟨status, found, rfl⟩)
        (update_self _ _ _) (by simp [Place.rank]))
    | _ => cases waits
  · have listed := family.lists.waitChild tid c (family.lists.answered tid c here)
    obtain ⟨status, found⟩ := exists_status (family.lists.kept tid c _ listed here rfl)
    exact .inr (.of_move here (map_eq_some_iff.mpr ⟨status, found, rfl⟩)
      (update_self _ _ _) (by simp [Place.rank]))

theorem WaitInvariant.sound : WaitSound s where
  answers := inv.answers
  proceeds _ _ _ here waiting := inv.proceeds here waiting
  ends _ _ here other ending := inv.family.ends here other ending

/-- The status that `process_wait` returns is the right one, unless `kill` of `exception.c` ended the
child. -/
theorem WaitInvariant.correct_answer (here : s.place tid = some (.answering c))
    (read : s.exitStatus c = some status) (unexceptional : s.endings c ≠ some .exception) :
    WaitRecord.Correct s.endings
      ⟨tid, c, returned s.execs tid c && !waited s.waits tid c, status⟩ := by
  obtain ⟨family, history, _, _⟩ := inv
  have marked := family.lists.answered tid c here
  have listed := family.lists.waitChild tid c marked
  have word := family.statuses.status c status read
  have unwaited : waited s.waits tid c = false := by
    by_contra was
    exact (history.waitedListed tid c _ (by simpa using was) here rfl).2 rfl
  have ended : s.endings c ≠ none := by
    cases found : s.place c with
    | none => exact family.statuses.gone tid c listed found
    | some place =>
      obtain rfl := family.lists.waitEnded tid c place marked found
      exact family.statuses.ended c _ found rfl
  obtain ⟨ending, ends⟩ := ne_none_iff_exists'.mp ended
  unfold WaitRecord.Correct
  cases was : returned s.execs tid c with
  | false =>
    obtain ⟨other, others, failed⟩ := history.unreturned tid c _ listed here (by simp
      [Place.execsFor]) was
    rw [others] at word
    simpa [word] using failed
  | true =>
    simp only [unwaited, Bool.not_false, Bool.and_true, if_true]
    refine ⟨ending, ends, ?_⟩
    rw [word, ends]
    cases ending with
    | exception => exact absurd ends unexceptional
    | _ => rfl

/-- A child that `kill` ended has status 0, and the answer 0 is wrong. -/
theorem WaitInvariant.wrong_answer (here : s.place tid = some (.answering c))
    (read : s.exitStatus c = some status) (exceptional : s.endings c = some .exception) :
    ¬ WaitRecord.Correct s.endings
      ⟨tid, c, returned s.execs tid c && !waited s.waits tid c, status⟩ := by
  obtain ⟨family, history, _, _⟩ := inv
  have listed := family.lists.waitChild tid c (family.lists.answered tid c here)
  have word := family.statuses.status c status read
  rw [exceptional] at word
  obtain rfl : status = 0 := word
  unfold WaitRecord.Correct
  split
  · rintro ⟨ending, ends, same⟩
    rw [exceptional] at ends
    cases ends
    cases same
  · intro same
    cases same

end

/-- A child that was waited for first is a child of the parent. -/
theorem WaitHistory.first_child {record : WaitRecord} (history : WaitHistory s)
    (mem : record ∈ s.waits) (fst : record.first = true) :
    record.child ∈ s.childList record.parent := by
  have was : waited s.waits record.parent record.child = true :=
    List.any_eq_true.mpr ⟨record, mem, by simp [fst]⟩
  exact history.returnedChild _ _ (history.waitedReturned _ _ was)

theorem WaitHistory.correct_reject (history : WaitHistory s) (here : s.place tid = some .user)
    (unfit : c ∈ s.childList tid → c ∈ s.waitList tid) : WaitRecord.Correct s.endings
      ⟨tid, c, returned s.execs tid c && !waited s.waits tid c, -1⟩ := by
  have later : (returned s.execs tid c && !waited s.waits tid c) = false := by
    cases was : returned s.execs tid c with
    | false => rfl
    | true =>
      have listed := unfit (history.returnedChild tid c was)
      simp [history.listedWaited tid c _ listed here (by simp) was]
  simp [WaitRecord.Correct, later]

theorem WaitInvariant.answers_step (inv : WaitInvariant s) (out : Outcome s s' e)
    (fits : s.waitFits e) : ∀ record ∈ s'.waits, record.Correct s'.endings := by
  have old := inv.answers
  cases out with
  | quiet quiet =>
    rw [quiet.waits]
    exact fun record mem => (old record mem).mono quiet.endings
  | crashes _ _ _ _ eq | fails _ _ _ _ _ eq | misses _ _ _ _ _ eq | reads _ _ _ _ _ _ eq =>
    subst eq
    exact old
  | creates tid here eq =>
    subst eq
    intro record mem
    have correct := old record mem
    unfold WaitRecord.Correct at correct ⊢
    split
    · rename_i fst
      rw [if_pos fst] at correct
      have listed := inv.history.first_child mem fst
      have o : record.child ≠ s.nextTid := by
        intro same
        exact inv.family.lists.unborn _ (same ▸ listed)
      simpa only [update_of_ne o] using correct
    · rename_i later
      rw [if_neg later] at correct
      exact correct
  | rejects tid c here unfit eq =>
    subst eq
    intro record mem
    rcases List.mem_cons.mp mem with rfl | mem
    · exact inv.history.correct_reject here unfit
    · exact old record mem
  | marks tid c here eq =>
    obtain ⟨_, _, rfl⟩ := map_eq_some_iff.mp eq
    exact old
  | answers tid c status runs here read eq =>
    subst runs
    have unexceptional := fits.2 c here
    subst eq
    intro record mem
    rcases List.mem_cons.mp mem with rfl | mem
    · exact inv.correct_answer here read unexceptional
    · exact old record mem
  | closes tid here eq =>
    obtain ⟨_, _, rfl⟩ := map_eq_some_iff.mp eq
    exact old

theorem WaitInvariant.step (inv : WaitInvariant s) (fits : s.waitFits e)
    (ran : s.step e = some s') : WaitInvariant s' where
  family := inv.family.step ran
  history := inv.history.step inv.family (inv.family.outcome ran)
  answers := inv.answers_step (inv.family.outcome ran) fits
  held := by
    refine inv.held.step inv.family ?_ ran
    rintro tid rfl dying p _ stage ⟨c, rfl⟩ rfl
    exact fits.1 dying p stage

/-- A step after which the protocol still works was a fitting one. -/
theorem WaitInvariant.waitFits (inv : WaitInvariant s) (ran : s.step e = some s')
    (sound : WaitSound s') : s.waitFits e := by
  cases e with
  | run tid =>
    obtain ⟨place, here, ran⟩ := bind_eq_some_iff.mp ran
    constructor
    · intro dying p stage waiting
      obtain rfl : place = .dying := some.inj (here.symm.trans dying)
      cases ran
      have o : p ≠ tid := by
        rintro rfl
        rw [here] at waiting
        cases waiting
      have waits : (s.threadExit tid).place p = some (.down (.wait tid) stage) :=
        (update_of_ne o _ _).trans waiting
      exact not_proceeds_down waits (update_self _ _ _) (sound.proceeds p _ tid waits (.inl rfl))
    · intro c answering exceptional
      obtain rfl : place = .answering c := some.inj (here.symm.trans answering)
      obtain ⟨status, read, rfl⟩ := map_eq_some_iff.mp ran
      exact inv.wrong_answer here read exceptional (sound.answers _ List.mem_cons_self)
  | _ => trivial

theorem waitInvariant_init : WaitInvariant init where
  family := family_init
  history := ⟨nofun, nofun, nofun, nofun, nofun⟩
  answers := nofun
  held := held_init IsWait

/-- Along a run of any processes the wait protocol works exactly if every step fits. -/
theorem waitSound_iff_waitFits (events : List ProcessEvent) :
    Execution.Along step WaitSound init events ↔ Execution.Meets step waitFits init events := by
  constructor
  · exact Execution.meets_of_along waitInvariant_init (fun inv fits ran => inv.step fits ran)
      (fun inv ran sound => inv.waitFits ran sound)
  · exact Execution.along_of_meets waitInvariant_init (fun inv fits ran => inv.step fits ran)
      (fun inv => inv.sound)

/-- A child that divides by zero, and its parent, which waits for it afterwards. -/
theorem dividing_child_answers_zero : ∃ final, Execution.run step init
      [.exec 1 [120] (fun _ => true) true true, .load 2 true, .run 2, .run 1, .run 1, .run 1,
        .exception 2, .run 2, .run 2, .run 2, .wait 1 2, .run 1, .run 1, .run 1, .run 1] =
        some final ∧ ¬ WaitSound final := by
  have ends : ((Execution.run step init
      [.exec 1 [120] (fun _ => true) true true, .load 2 true, .run 2, .run 1, .run 1, .run 1,
        .exception 2, .run 2, .run 2, .run 2, .wait 1 2, .run 1, .run 1, .run 1, .run 1]).map
          fun s => (s.waits, s.endings 2)) = some ([⟨1, 2, true, 0⟩], some .exception) := by
    decide +kernel
  obtain ⟨final, execution, res⟩ := map_eq_some_iff.mp ends
  obtain ⟨waits, ending⟩ := Prod.mk.inj res
  refine ⟨final, execution, fun sound => ?_⟩
  obtain ⟨o, ended, answer⟩ : ∃ o, final.endings 2 = some o ∧ (0 : Int) = o.answer :=
    sound.answers ⟨1, 2, true, 0⟩ (by rw [waits]; exact List.mem_cons_self)
  rw [ending] at ended
  cases ended
  cases answer

end Processes

end Pintos.Userprog
