import Mathlib.Data.List.Induction
import Pintos.Threads.Frames

/-!
# The invariant of a condition variable

Signals, waits and broadcasts of one condition variable in every interleaving.  The lock makes the
queue belong to one thread at a time, and the semaphore in the frame of a waiter has value one from
its signal until the waiter has passed it.
-/

namespace Pintos.Threads

open Function Option List

variable {queue : List Tid} {seen : List Int}

/-! ## The search of `cond_signal` -/

/-- One round of the search, with the priority that it reads. -/
def better (best : Option Tid × Int) (read : Tid × Int) : Option Tid × Int :=
  if best.2 < read.2 then (some read.1, read.2) else best

/-- The result of a search that has read the given priorities. -/
def bestOf (reads : List (Tid × Int)) : Option Tid × Int :=
  reads.foldl better (none, priMin - 1)

/-- The waiter is the first in the queue whose priority, as read, is greatest. -/
def EarliestMost (queue : List Tid) (seen : List Int) (w : Tid) : Prop :=
  ∃ (i : Nat) (most : Int), queue[i]? = some w ∧ seen[i]? = some most ∧
    (∀ priority ∈ seen, priority ≤ most) ∧
    ∀ earlier < i, ∀ priority, seen[earlier]? = some priority → priority < most

theorem bestOf_spec {reads : List (Tid × Int)} (ne_nil : reads ≠ [])
    (valid : ∀ read ∈ reads, priMin ≤ read.2) :
    ∃ (i : Nat) (read : Tid × Int), reads[i]? = some read ∧ bestOf reads = (some read.1, read.2) ∧
      (∀ o ∈ reads, o.2 ≤ read.2) ∧
      ∀ prev < i, ∀ o : Tid × Int, reads[prev]? = some o → o.2 < read.2 := by
  induction reads using reverseRecOn with
  | nil => exact (ne_nil rfl).elim
  | append_singleton reads last ih =>
    have lastValid := valid last (by simp)
    have found : (reads ++ [last])[reads.length]? = some last := by simp
    have fold : bestOf (reads ++ [last]) = better (bestOf reads) last := by
      simp [bestOf]
    by_cases empty : reads = []
    · subst empty
      refine ⟨0, last, rfl, ?_, by simp, by simp⟩
      rw [fold]
      exact if_pos (show priMin - 1 < last.2 by omega)
    · obtain ⟨i, read, is_read, best, most, fst⟩ :=
        ih empty fun read mem => valid read (mem_append_left _ mem)
      rw [fold, best]
      have inside : i < reads.length := (List.getElem?_eq_some_iff.mp is_read).1
      by_cases higher : read.2 < last.2
      · refine ⟨reads.length, last, found, if_pos higher, ?_, fun prev old o is_other => ?_⟩
        · intro o mem
          rcases mem_append.mp mem with mem | mem
          · exact (most o mem).trans higher.le
          · rw [mem_singleton.mp mem]
        · rw [getElem?_append_left old] at is_other
          exact (most o (mem_of_getElem? is_other)).trans_lt higher
      · refine ⟨i, read, ?_, if_neg higher, ?_, fun prev old o is_other => ?_⟩
        · rw [getElem?_append_left inside]
          exact is_read
        · intro o mem
          rcases mem_append.mp mem with mem | mem
          · exact most o mem
          · rw [mem_singleton.mp mem]
            omega
        · rw [getElem?_append_left (old.trans inside)] at is_other
          exact fst prev old o is_other

theorem earliestMost_of_search (ne_nil : queue ≠ []) (len : seen.length = queue.length)
    (valid : ∀ prio ∈ seen, priMin ≤ prio) :
    ∃ w, (bestOf (queue.zip seen)).1 = some w ∧ EarliestMost queue seen w := by
  have zipped : queue.zip seen ≠ [] := by
    intro empty
    have none := congrArg List.length empty
    rw [length_zip, len, Nat.min_self] at none
    exact ne_nil (length_eq_zero_iff.mp none)
  obtain ⟨i, ⟨w, most⟩, is_read, best, all, fst⟩ :=
    bestOf_spec zipped fun read mem => valid read.2 (of_mem_zip mem).2
  obtain ⟨is_waiter, is_most⟩ := getElem?_zip_eq_some.mp is_read
  refine ⟨w, by rw [best], i, most, is_waiter, is_most, ?_, ?_⟩
  · intro prio mem
    obtain ⟨place, is_priority⟩ := mem_iff_getElem?.mp mem
    have bound : place < queue.length := by
      rw [← len]
      exact (List.getElem?_eq_some_iff.mp is_priority).1
    have pair : (queue.zip seen)[place]? = some (queue[place], prio) :=
      getElem?_zip_eq_some.mpr ⟨getElem?_eq_getElem bound, is_priority⟩
    exact all _ (mem_of_getElem? pair)
  · intro prev old prio is_priority
    have bound : prev < queue.length := by
      rw [← len]
      exact (List.getElem?_eq_some_iff.mp is_priority).1
    exact fst prev old (queue[prev], prio)
      (getElem?_zip_eq_some.mpr ⟨getElem?_eq_getElem bound, is_priority⟩)

theorem EarliestMost.mem {w : Tid} (chosen : EarliestMost queue seen w) : w ∈ queue := by
  obtain ⟨i, most, is_waiter, _⟩ := chosen
  exact mem_of_getElem? is_waiter

theorem bestOf_next {w : Tid} (k : Kernel) (next : queue[seen.length]? = some w) :
    k.searchWaiter (bestOf (queue.zip seen)) w = bestOf (queue.zip (seen ++ [k.priority w])) := by
  obtain ⟨bound, is_waiter⟩ := List.getElem?_eq_some_iff.mp next
  obtain ⟨front, back, rfl, len⟩ : ∃ front back, queue = front ++ w :: back ∧
      front.length = seen.length := by
    refine ⟨queue.take seen.length, queue.drop (seen.length + 1), ?_, ?_⟩
    · rw [← is_waiter, ← List.drop_eq_getElem_cons bound, List.take_append_drop]
    · rw [List.length_take, Nat.min_eq_left bound.le]
  have old : (front ++ w :: back).zip seen = front.zip seen := by
    have zipped := @List.zip_append _ _ front (w :: back) seen [] len
    simpa using zipped
  rw [List.zip_append len, old]
  simp only [List.zip_cons_cons, List.zip_nil_right, bestOf, List.foldl_append]
  rfl

/-! ## Where a thread is in its control sections -/

/-- The code of a thread inside `cond_broadcast`. -/
inductive LoopCode : List Instr → Prop
  | nil : LoopCode []
  | raise (w : Tid) : LoopCode (raiseCode w)
  | yield (highest : Int) : LoopCode [.yieldUnlessAbove highest]

/-- The number of sections of a thread inside `cond_broadcast` up to the loop test. -/
def codeWork : List Instr → Nat
  | [] => 0
  | .semaUp _ :: _ => 2
  | _ => 1

/-- What follows a call of `cond_signal`: nothing, or the loop of a `cond_broadcast` whose caller has
the lock. -/
inductive Loop (lock : LockId) (m : Monitor) (t : Tid) : List Control → Prop
  | once : Loop lock m t []
  | broadcast (holds : m.holder lock = some t) : Loop lock m t [.broadcast]

/-- The control sections a thread still has to run, and what holds there. -/
inductive ControlState (lock : LockId) (m : Monitor) (t : Tid) : List Control → Prop
  | none : ControlState lock m t []
  | push (between : m.code t = []) : ControlState lock m t [.push]
  | test {rest} (between : m.code t = []) (loop : Loop lock m t rest) :
      ControlState lock m t (.test :: rest)
  | search {i best rest} (between : m.code t = [])
      (loop : Loop lock m t rest) (holds : m.holder lock = some t)
      (nonempty : m.queue ≠ []) (progress : m.seen.length = i)
      (bound : i ≤ m.queue.length)
      (valid : ∀ priority ∈ m.seen, priMin ≤ priority)
      (found : best = bestOf (m.queue.zip m.seen)) :
      ControlState lock m t (.search i best :: rest)
  | remove {w rest} (between : m.code t = [])
      (loop : Loop lock m t rest) (holds : m.holder lock = some t)
      (complete : m.seen.length = m.queue.length)
      (chosen : EarliestMost m.queue m.seen w) :
      ControlState lock m t (.remove (some w) :: rest)
  | broadcast (holds : m.holder lock = some t) (code : LoopCode (m.code t)) :
      ControlState lock m t [.broadcast]

section ControlState

variable {lock : LockId} {s s' : Monitor} {t : Tid} {control : List Control}

theorem LoopCode.lockFree {code : List Instr} (loop : LoopCode code) :
    ∀ instr ∈ code, instr.lockFree := by
  cases loop <;> simp [raiseCode, Instr.lockFree, frameSema]

theorem Loop.carry (loop : Loop lock s t control)
    (kept : s.holder lock = some t → s'.holder lock = some t) :
    Loop lock s' t control := by
  cases loop with
  | once => exact .once
  | broadcast holds => exact .broadcast (kept holds)

theorem Loop.state (loop : Loop lock s t control) (code : LoopCode (s.code t)) :
    ControlState lock s t control := by
  cases loop with
  | once => exact .none
  | broadcast holds => exact .broadcast holds code

/-- A thread keeps its place while others run: the queue belongs to the holder of the lock. -/
theorem ControlState.carry (state : ControlState lock s t control) (code : s'.code t = s.code t)
    (kept : s.holder lock = some t →
      s'.holder lock = some t ∧ s'.queue = s.queue ∧ s'.seen = s.seen) :
    ControlState lock s' t control := by
  have keeps := fun holds => (kept holds).1
  cases state with
  | none => exact .none
  | push mid => exact .push (code.trans mid)
  | test mid loop => exact .test (code.trans mid) (loop.carry keeps)
  | search mid loop holds ne_nil progress bound valid found =>
    obtain ⟨stays, queue, seen⟩ := kept holds
    refine .search (code.trans mid) (loop.carry keeps) stays ?_ ?_ ?_ ?_ ?_ <;>
      simpa only [queue, seen]
  | remove mid loop holds whole chosen =>
    obtain ⟨stays, queue, seen⟩ := kept holds
    refine .remove (code.trans mid) (loop.carry keeps) stays ?_ ?_ <;> simpa only [queue, seen]
  | broadcast holds loopCode => exact .broadcast (keeps holds) (code ▸ loopCode)

/-- Inside an operation of the condition variable a thread runs no code that moves locks. -/
theorem ControlState.loopCode (state : ControlState lock s t control)
    (inside : control ≠ []) : LoopCode (s.code t) := by
  cases state with
  | none => exact (inside rfl).elim
  | push mid | test mid | search mid | remove mid =>
    rw [mid]
    exact .nil
  | broadcast _ code => exact code

end ControlState

/-- What a step is: a step of the machine, the start of an operation of the condition variable, or a
control section. -/
inductive MonitorTaken (lock : LockId) (s : Monitor) : MonitorEvent → Monitor → Prop
  | base {event m} (admitted : s.admits event) (steps : step s.toMachine event = some m) :
      MonitorTaken lock s (.base event)
        { m with queue := s.queue, control := s.control, seen := s.seen }
  | begin {event} (first : Control) (between : s.code s.current = [])
      (outside : s.control s.current = [])
      (state : ControlState lock s s.current [first]) :
      MonitorTaken lock s event (s.setControl [first])
  | control {after} (between : s.code s.current = [])
      (runs : s.runControl lock = some after) : MonitorTaken lock s .control after

theorem taken_of_begin {lock : LockId} {s s' : Monitor} {e : MonitorEvent} {fst : Control}
    (state : s.code s.current = [] → ControlState lock s s.current [fst])
    (ran : s.begin fst = some s') : MonitorTaken lock s e s' := by
  unfold Monitor.begin at ran
  split at ran
  · rename_i both
    cases ran
    exact .begin fst both.1 both.2 (state both.1)
  · cases ran

theorem taken_of_monitorStep {lock : LockId} {s s' : Monitor} {e : MonitorEvent}
    (ran : monitorStep lock s e = some s') :
    MonitorTaken lock s e s' := by
  cases e with
  | base e =>
    simp only [monitorStep] at ran
    split at ran
    · rename_i ok
      obtain ⟨m, steps, rfl⟩ := map_eq_some_iff.mp ran
      exact .base ok steps
    · cases ran
  | condWait => exact taken_of_begin (fun mid => .push mid) ran
  | condSignal => exact taken_of_begin (fun mid => .test mid .once) ran
  | condBroadcast =>
    simp only [monitorStep] at ran
    split at ran
    · rename_i holds
      refine taken_of_begin (fun mid => .broadcast holds ?_) ran
      rw [mid]
      exact .nil
    · cases ran
  | control =>
    simp only [monitorStep] at ran
    split at ran
    · rename_i mid
      exact .control mid ran
    · cases ran

/-! ## Invariant -/

/-- The queue, the semaphores in frames and the place of every thread agree. -/
structure MonitorInvariant (lock : LockId) (m : Monitor) : Prop extends SoundBase m.toMachine where
  shapes : ∀ t, FrameCode t (m.code t)
  states : ∀ t, ControlState lock m t (m.control t)
  raising : ∀ t w, m.code t = raiseCode w → m.holder lock = some t ∧ Pends w (m.code w) ∧
      w ∉ m.queue ∧ (m.semaphore (frameSema w)).value = 0
  nodup : m.queue.Nodup
  queued : ∀ t ∈ m.queue, Pends t (m.code t) ∧ (m.semaphore (frameSema t)).value = 0
  signalled : ∀ t, Pends t (m.code t) → t ∉ m.queue → (m.semaphore (frameSema t)).value = 1 ∨
      ∃ signaller, m.code signaller = raiseCode t

def monitorBoot (values : Nat → Nat) : Monitor where
  toMachine := boot values
  queue := []
  control _ := []
  seen := []

theorem monitorInvariant_boot (lock : LockId) (values : Nat → Nat) :
    MonitorInvariant lock (monitorBoot values) := by
  have code : ∀ t, (monitorBoot values).code t = [] ∨
      (monitorBoot values).code t = [.idleBlock] := by
    intro t
    change (if t = 0 then [Instr.idleBlock] else []) = [] ∨
      (if t = 0 then [Instr.idleBlock] else []) = [.idleBlock]
    split
    · exact .inr rfl
    · exact .inl rfl
  refine ⟨soundBase_boot values, fun t => ?_, fun _ => .none, fun t w raises => ?_,
    nodup_nil, fun t mem => ?_, fun t pends _ => ?_⟩
  · rcases code t with empty | idle
    · rw [empty]
      exact .clear (by simp [Clear])
    · rw [idle]
      exact .idle
  · rcases code t with empty | idle
    · rw [empty] at raises
      cases raises
    · rw [idle] at raises
      cases raises
  · cases mem
  · rcases code t with empty | idle
    · rw [empty] at pends
      obtain ⟨_, mem, _⟩ := pends
      cases mem
    · rw [idle] at pends
      exact (not_pends_idle pends).elim

namespace MonitorInvariant

variable {lock : LockId} {s : Monitor} {m : Machine} {e : Event}

theorem not_pends_of_between (mid : s.code s.current = []) :
    ¬ Pends s.current (s.code s.current) := by
  rw [mid]
  rintro ⟨_, mem, _⟩
  cases mem

/-- Only the holder of the lock raises the semaphore of a waiter. -/
theorem raiser_unique (inv : MonitorInvariant lock s) {t w : Tid}
    (raises : s.code t = raiseCode w) {holder : Tid}
    (holds : s.holder lock = some holder) : t = holder := by
  have o := (inv.raising t w raises).1
  rw [holds] at o
  exact (some.inj o).symm

theorem loopCode_run {s' : Machine} (loop : LoopCode (m.code m.current))
    (ran : step m .run = some s') : LoopCode (s'.code m.current) ∧
      codeWork (s'.code m.current) < codeWork (m.code m.current) := by
  obtain ⟨instr, rest, k, left, code, eff, rfl⟩ := execute_of_run ran
  change LoopCode (update m.code m.current left m.current) ∧
    codeWork (update m.code m.current left m.current) < _
  rw [update_self, code]
  rw [code] at loop
  generalize whole : instr :: rest = list at loop
  cases loop with
  | nil => cases whole
  | raise w =>
    obtain ⟨rfl, rfl⟩ := cons.inj whole
    obtain ⟨⟨highest, raised⟩, wakes, eq⟩ := map_eq_some_iff.mp eff
    cases eq
    exact ⟨.yield highest, Nat.one_lt_two⟩
  | yield highest =>
    obtain ⟨rfl, rfl⟩ := cons.inj whole
    have left_eq : left = [] := by
      simp only [execute] at eff
      split at eff
      · obtain ⟨yielded, _, eq⟩ := map_eq_some_iff.mp eff
        exact (Prod.mk.inj eq).2.symm
      · exact (Prod.mk.inj (some.inj eff)).2.symm
    rw [left_eq]
    exact ⟨.nil, Nat.zero_lt_one⟩

variable (inv : MonitorInvariant lock s)
include inv

theorem states_step (ok : s.admits e)
    (ran : step s.toMachine e = some m) (t : Tid) : ControlState lock
      { m with queue := s.queue, control := s.control, seen := s.seen } t
      (s.control t) := by
  have state := inv.states t
  by_cases out : s.control t = []
  · rw [out]
    exact .none
  have free := (state.loopCode out).lockFree
  have kept : s.holder lock = some t → m.holder lock = some t :=
    fun holds => inv.toSoundBase.holder_step ran holds (.inr free)
  by_cases cur : t = s.current
  · subst cur
    cases e with
    | start op =>
      have none : s.control s.current = [] := by
        have both := ok
        simp only [Monitor.admits, Bool.and_eq_true, decide_eq_true_eq] at both
        exact both.2
      exact (out none).elim
    | timer =>
      refine state.carry ?_ fun holds => ⟨kept holds, rfl, rfl⟩
      obtain ⟨k, _, rfl⟩ := threadYield_of_timer ran
      rfl
    | run =>
      -- only the loop of a broadcast has code to run
      have runs : s.code s.current ≠ [] := by
        obtain ⟨instr, rest, _, _, code, _, _⟩ := execute_of_run ran
        rw [code]
        simp
      revert out state
      generalize s.control s.current = control
      intro state out
      cases state with
      | none => exact (out rfl).elim
      | push mid | test mid | search mid | remove mid =>
        exact (runs mid).elim
      | broadcast holds loop =>
        exact .broadcast (kept holds) (loopCode_run loop ran).1
  · exact state.carry (code_of_step ran (.inl cur)) fun holds => ⟨kept holds, rfl, rfl⟩

theorem frameShapes (ok : s.admits e) (ran : step s.toMachine e = some m) :
    (∀ t, FrameCode t (m.code t)) ∧ FrameStep s.toMachine m := by
  refine frameStep_of_step inv.shapes ?_ ran
  rintro op rfl
  have both := ok
  simp only [Monitor.admits, Bool.and_eq_true] at both
  exact both.1

theorem frameStep (ok : s.admits e) (ran : step s.toMachine e = some m) : FrameStep s.toMachine m :=
  (inv.frameShapes ok ran).2

theorem base (ok : s.admits e) (ran : step s.toMachine e = some m) : MonitorInvariant lock
      { m with queue := s.queue, control := s.control, seen := s.seen } := by
  have holds : ∀ {t w}, s.code t = raiseCode w → m.holder lock = some t := by
    intro t w raises
    refine inv.toSoundBase.holder_step ran (inv.raising t w raises).1 (.inr ?_)
    rw [raises]
    exact (LoopCode.raise w).lockFree
  obtain ⟨shapes, frame⟩ := inv.frameShapes ok ran
  have sound := inv.toSoundBase.step ran
  have states := inv.states_step ok ran
  cases frame with
  | quiet pends value raises =>
    refine ⟨sound, shapes, states, fun t w raise => ?_, inv.nodup,
      fun t mem => ?_, fun t waits absent => ?_⟩
    · have prev := (raises t w).mp raise
      obtain ⟨_, waits, absent, zero⟩ := inv.raising t w prev
      exact ⟨holds prev, (pends w).mpr waits, absent, (value w).trans zero⟩
    · obtain ⟨waits, zero⟩ := inv.queued t mem
      exact ⟨(pends t).mpr waits, (value t).trans zero⟩
    · rcases inv.signalled t ((pends t).mp waits) absent with one | ⟨raiser, raise⟩
      · exact .inl ((value t).trans one)
      · exact .inr ⟨raiser, (raises raiser t).mpr raise⟩
  | pass pends passed pos value raises =>
    have others : ∀ {t}, (s.semaphore (frameSema t)).value = 0 → t ≠ s.current := by
      rintro t zero rfl
      exact (Nat.ne_of_gt pos) zero
    refine ⟨sound, shapes, states, fun t w raise => ?_, inv.nodup,
      fun t mem => ?_, fun t waits absent => ?_⟩
    · have prev := (raises t w).mp raise
      obtain ⟨_, waits, absent, zero⟩ := inv.raising t w prev
      refine ⟨holds prev, (passed w).mpr ⟨others zero, waits⟩, absent, ?_⟩
      exact ((value w).trans (if_neg (others zero))).trans zero
    · obtain ⟨waits, zero⟩ := inv.queued t mem
      refine ⟨(passed t).mpr ⟨others zero, waits⟩, ?_⟩
      exact ((value t).trans (if_neg (others zero))).trans zero
    · obtain ⟨o, prev⟩ := (passed t).mp waits
      rcases inv.signalled t prev absent with one | ⟨raiser, raise⟩
      · exact .inl (((value t).trans (if_neg o)).trans one)
      · exact .inr ⟨raiser, (raises raiser t).mpr raise⟩
  | raise w highest code left pends value raises =>
    obtain ⟨holder, _, absent, zero⟩ := inv.raising _ _ code
    refine ⟨sound, shapes, states, fun t o raise => ?_, inv.nodup,
      fun t mem => ?_, fun t waits out => ?_⟩
    · obtain ⟨apart, prev⟩ := (raises t o).mp raise
      exact (apart (inv.raiser_unique prev holder)).elim
    · obtain ⟨waits, none⟩ := inv.queued t mem
      have o : t ≠ w := by
        rintro rfl
        exact absent mem
      exact ⟨(pends t).mpr waits, ((value t).trans (if_neg o)).trans none⟩
    · by_cases same : t = w
      · subst same
        refine .inl (((value t).trans (if_pos rfl)).trans ?_)
        rw [zero]
      · rcases inv.signalled t ((pends t).mp waits) out with
          one | ⟨raiser, raise⟩
        · exact .inl (((value t).trans (if_neg same)).trans one)
        · refine .inr ⟨raiser, (raises raiser t).mpr ⟨?_, raise⟩⟩
          rintro rfl
          rw [code] at raise
          simp only [raiseCode, cons.injEq, Instr.semaUp.injEq, frameSema_inj, and_true] at raise
          exact same raise.symm

theorem setControl {control : List Control} (state : ControlState lock s s.current control) :
    MonitorInvariant lock (s.setControl control) := by
  refine ⟨inv.toSoundBase, inv.shapes, ?_, inv.raising, inv.nodup, inv.queued, inv.signalled⟩
  refine (forall_update_iff s.control (ControlState lock _)).mpr ⟨?_, fun t _ => ?_⟩
  · exact state.carry rfl fun holds => ⟨holds, rfl, rfl⟩
  · exact (inv.states t).carry rfl fun holds => ⟨holds, rfl, rfl⟩

/-- What the holder of the lock does leaves the other threads in their states. -/
theorem states_update {control : List Control} {m : Monitor} (holds : s.holder lock = some s.current)
    (code : ∀ t ≠ s.current, m.code t = s.code t) (state : ControlState lock m s.current control) :
    ∀ t, ControlState lock m t (update s.control s.current control t) := by
  refine (forall_update_iff s.control (ControlState lock m)).mpr ⟨state, fun t ne => ?_⟩
  refine (inv.states t).carry (code t ne) fun o => ?_
  rw [holds] at o
  exact (ne (some.inj o).symm).elim

theorem no_raiser (mid : s.code s.current = []) (holds : s.holder lock = some s.current)
    (t w : Tid) : s.code t ≠ raiseCode w := by
  intro raises
  rw [inv.raiser_unique raises holds, mid] at raises
  cases raises

theorem setSeen {control : List Control} {seen : List Int} (holds : s.holder lock = some s.current)
    (state : ControlState lock { s with seen } s.current control) :
    MonitorInvariant lock { s.setControl control with seen } := by
  refine ⟨inv.toSoundBase, inv.shapes, ?_, inv.raising, inv.nodup, inv.queued, inv.signalled⟩
  exact inv.states_update holds (fun _ _ => rfl) (state.carry rfl fun holds => ⟨holds, rfl, rfl⟩)

theorem push (mid : s.code s.current = [])
    (holds : s.holder lock = some s.current) : MonitorInvariant lock
      { s.toKernel.setSemaphore (frameSema s.current) ⟨0, []⟩ with
        code := update s.code s.current (Monitor.waitCode lock s.current)
        queue := s.queue ++ [s.current]
        control := update s.control s.current []
        seen := s.seen } := by
  have awake := not_pends_of_between mid
  have absent : s.current ∉ s.queue := fun mem => awake (inv.queued _ mem).1
  have waitClear : Clear (lockAcquire lock) := by simp [Clear, lockAcquire, Instr.framed]
  have value : ∀ {t}, t ≠ s.current →
      ((s.toKernel.setSemaphore (frameSema s.current) ⟨0, []⟩).semaphore
        (frameSema t)).value = (s.semaphore (frameSema t)).value := by
    intro t o
    have ne : frameSema t ≠ frameSema s.current := fun eq => o (frameSema_inj.mp eq)
    simp [ne]
  have noRaiser := inv.no_raiser mid holds
  have stage : Stage (Monitor.waitCode lock s.current) none none :=
    .release (.free rfl (stage_lockAcquire lock .nil))
  have waits : Pends s.current (Monitor.waitCode lock s.current) :=
    ⟨.semaDown (frameSema s.current), by simp [Monitor.waitCode], .inl rfl⟩
  refine ⟨(inv.toSoundBase.init s.current).load mid stage, ?_, ?_, ?_, ?_, ?_, ?_⟩
  · refine (forall_update_iff s.code FrameCode).mpr ⟨?_, fun t _ => inv.shapes t⟩
    exact .waiting [.releaseDonors lock] (lockAcquire lock) (.inl rfl)
      (by simp [Clear, Instr.framed]) waitClear
  · exact inv.states_update holds (fun t ne => update_of_ne ne _ _) .none
  · intro t w raises
    change update s.code s.current _ t = _ at raises
    by_cases same : t = s.current
    · rw [same, update_self] at raises
      exact (waits.ne_raiseCode w raises).elim
    · rw [update_of_ne same] at raises
      exact (noRaiser _ _ raises).elim
  · exact nodup_append.mpr ⟨inv.nodup, nodup_singleton _, by
      rintro fst first_mem snd second_mem rfl
      exact absent (mem_singleton.mp second_mem ▸ first_mem)⟩
  · intro t mem
    by_cases same : t = s.current
    · subst same
      refine ⟨?_, by simp⟩
      change Pends _ (update s.code s.current _ s.current)
      rw [update_self]
      exact waits
    · have prev : t ∈ s.queue := by
        simpa [same] using mem
      obtain ⟨pends, zero⟩ := inv.queued t prev
      refine ⟨?_, (value same).trans zero⟩
      change Pends _ (update s.code s.current _ t)
      rw [update_of_ne same]
      exact pends
  · intro t pends out
    have o : t ≠ s.current ∧ t ∉ s.queue := by
      simpa [not_or, and_comm] using out
    change Pends _ (update s.code s.current _ t) at pends
    rw [update_of_ne o.1] at pends
    rcases inv.signalled t pends o.2 with one | ⟨raiser, raises⟩
    · exact .inl ((value o.1).trans one)
    · exact (noRaiser _ _ raises).elim

theorem remove {w : Tid} {rest : List Control} (mid : s.code s.current = [])
    (holds : s.holder lock = some s.current) (mem : w ∈ s.queue)
    (loop : Loop lock s s.current rest) : MonitorInvariant lock { s.setControl rest with
        queue := s.queue.erase w
        code := update s.code s.current [.semaUp (frameSema w)] } := by
  have awake := not_pends_of_between mid
  have noRaiser := inv.no_raiser mid holds
  have others : ∀ {t}, Pends t (s.code t) → t ≠ s.current := by
    rintro t pends rfl
    exact awake pends
  have pendsAfter : ∀ {t}, Pends t (s.code t) →
      Pends t (update s.code s.current [.semaUp (frameSema w)] t) := by
    intro t pends
    rw [update_of_ne (others pends)]
    exact pends
  have mem_erase : ∀ {t}, t ∈ s.queue.erase w ↔ t ≠ w ∧ t ∈ s.queue := inv.nodup.mem_erase_iff
  have raised : update s.code s.current [.semaUp (frameSema w)]
      s.current = raiseCode w := update_self ..
  refine ⟨inv.toSoundBase.load mid (.free rfl .nil), ?_, ?_, ?_,
    inv.nodup.erase w, fun t queued => ?_, fun t pends out => ?_⟩
  · exact (forall_update_iff s.code FrameCode).mpr ⟨.raising w, fun t _ => inv.shapes t⟩
  · refine inv.states_update holds (fun t ne => update_of_ne ne _ _)
      (Loop.state (loop.carry fun holds => holds) ?_)
    change LoopCode (update s.code s.current _ s.current)
    rw [raised]
    exact .raise w
  · intro t o raises
    change update s.code s.current _ t = _ at raises
    by_cases same : t = s.current
    · rw [same, raised] at raises
      obtain rfl : w = o := by
        simpa [raiseCode, frameSema_inj] using raises
      obtain ⟨pends, zero⟩ := inv.queued w mem
      exact ⟨same ▸ holds, pendsAfter pends, fun still => (mem_erase.mp still).1 rfl, zero⟩
    · rw [update_of_ne same] at raises
      exact (noRaiser _ _ raises).elim
  · obtain ⟨pends, zero⟩ := inv.queued t (mem_erase.mp queued).2
    exact ⟨pendsAfter pends, zero⟩
  · by_cases cur : t = s.current
    · subst cur
      change Pends _ (update s.code s.current _ s.current) at pends
      rw [raised] at pends
      exact (not_pends_raiseCode w pends).elim
    · change Pends _ (update s.code s.current _ t) at pends
      rw [update_of_ne cur] at pends
      by_cases same : t = w
      · subst same
        exact .inr ⟨s.current, raised⟩
      · rcases inv.signalled t pends fun queued => out (mem_erase.mpr ⟨same, queued⟩)
          with one | ⟨raiser, raises⟩
        · exact .inl one
        · exact (noRaiser _ _ raises).elim

end MonitorInvariant

/-- What a control section does, with what holds before it. -/
inductive ControlEffect (lock : LockId) (s : Monitor) : Monitor → Prop
  | push (control : s.control s.current = [.push]) (holds : s.holder lock = some s.current) :
      ControlEffect lock s { s.toKernel.setSemaphore (frameSema s.current) ⟨0, []⟩ with
          code := update s.code s.current (Monitor.waitCode lock s.current)
          queue := s.queue ++ [s.current]
          control := update s.control s.current []
          seen := s.seen }
  | nobody {rest} (control : s.control s.current = .test :: rest)
      (loop : Loop lock s s.current rest) (empty : s.queue = []) :
      ControlEffect lock s (s.setControl rest)
  | start {rest} (control : s.control s.current = .test :: rest) (loop : Loop lock s s.current rest)
      (holds : s.holder lock = some s.current) (nonempty : s.queue ≠ []) :
      ControlEffect lock s { s.setControl (.search 0 (none, priMin - 1) :: rest) with seen := [] }
  | round {rest w} (control : s.control s.current =
        .search s.seen.length (bestOf (s.queue.zip s.seen)) :: rest)
      (loop : Loop lock s s.current rest)
      (holds : s.holder lock = some s.current)
      (valid : ∀ priority ∈ s.seen, priMin ≤ priority)
      (next : s.queue[s.seen.length]? = some w) :
      ControlEffect lock s { s.setControl (.search (s.seen.length + 1)
            (bestOf (s.queue.zip (s.seen ++ [s.priority w]))) :: rest) with
          seen := s.seen ++ [s.priority w] }
  | found {rest w} (control : s.control s.current =
        .search s.seen.length (bestOf (s.queue.zip s.seen)) :: rest)
      (loop : Loop lock s s.current rest)
      (holds : s.holder lock = some s.current)
      (complete : s.seen.length = s.queue.length)
      (chosen : EarliestMost s.queue s.seen w) :
      ControlEffect lock s (s.setControl (.remove (some w) :: rest))
  | remove {rest w} (control : s.control s.current = .remove (some w) :: rest)
      (loop : Loop lock s s.current rest)
      (holds : s.holder lock = some s.current)
      (complete : s.seen.length = s.queue.length)
      (chosen : EarliestMost s.queue s.seen w) :
      ControlEffect lock s { s.setControl rest with
          queue := s.queue.erase w
          code := update s.code s.current [.semaUp (frameSema w)] }
  | finish (control : s.control s.current = [.broadcast]) (empty : s.queue = []) :
      ControlEffect lock s (s.setControl [])
  | again (control : s.control s.current = [.broadcast])
      (holds : s.holder lock = some s.current) (nonempty : s.queue ≠ []) :
      ControlEffect lock s (s.setControl [.test, .broadcast])

namespace MonitorInvariant

variable {lock : LockId} {s s' : Monitor} {e : MonitorEvent} (inv : MonitorInvariant lock s)
include inv

theorem controlEffect (ran : s.runControl lock = some s') : ControlEffect lock s s' := by
  have state := inv.states s.current
  unfold Monitor.runControl at ran
  generalize control : s.control s.current = sections at state ran
  cases state with
  | none => cases ran
  | push mid =>
    simp only at ran
    split at ran
    · rename_i holds
      cases ran
      exact .push control holds
    · cases ran
  | test mid loop =>
    simp only at ran
    split at ran
    · rename_i holds
      split at ran
      · rename_i empty
        cases ran
        exact .nobody control loop empty
      · rename_i ne_nil
        cases ran
        exact .start control loop holds ne_nil
    · cases ran
  | search mid loop holds ne_nil progress bound valid found =>
    subst progress found
    simp only at ran
    split at ran
    · rename_i w next
      cases ran
      rw [bestOf_next s.toKernel next]
      exact .round control loop holds valid next
    · rename_i none
      cases ran
      have whole : s.seen.length = s.queue.length :=
        le_antisymm bound (getElem?_eq_none_iff.mp none)
      obtain ⟨w, is_best, chosen⟩ := earliestMost_of_search ne_nil whole valid
      rw [is_best]
      exact .found control loop holds whole chosen
  | remove mid loop holds whole chosen =>
    cases ran
    exact .remove control loop holds whole chosen
  | broadcast holds code =>
    simp only at ran
    split at ran
    · rename_i empty
      cases ran
      exact .finish control empty
    · rename_i ne_nil
      cases ran
      exact .again control holds ne_nil

theorem control (mid : s.code s.current = [])
    (ran : s.runControl lock = some s') : MonitorInvariant lock s' := by
  have resting : LoopCode (s.code s.current) := by
    rw [mid]
    exact .nil
  cases inv.controlEffect ran with
  | push _ holds => exact inv.push mid holds
  | nobody _ loop => exact inv.setControl (loop.state resting)
  | start _ loop holds ne_nil =>
    refine inv.setSeen holds (.search mid (loop.carry id) holds ne_nil rfl
      (Nat.zero_le _) (by simp) ?_)
    simp [bestOf]
  | @round rest w _ loop holds valid next =>
    have bound := (List.getElem?_eq_some_iff.mp next).1
    refine inv.setSeen holds (.search mid (loop.carry id) holds ?_ (by simp) bound ?_ rfl)
    · intro empty
      change s.queue = [] at empty
      rw [empty] at bound
      cases bound
    · intro prio mem
      rcases mem_append.mp mem with mem | mem
      · exact valid prio mem
      · rw [mem_singleton.mp mem]
        exact inv.priorities w
  | found _ loop holds whole chosen =>
    exact inv.setControl (.remove mid loop holds whole chosen)
  | remove _ loop holds whole chosen => exact inv.remove mid holds chosen.mem loop
  | finish => exact inv.setControl .none
  | again _ holds => exact inv.setControl (.test mid (.broadcast holds))

theorem step (ran : monitorStep lock s e = some s') : MonitorInvariant lock s' := by
  cases taken_of_monitorStep ran with
  | base ok steps => exact inv.base ok steps
  | begin fst _ _ state => exact inv.setControl state
  | control mid runs => exact inv.control mid runs

end MonitorInvariant

end Pintos.Threads
