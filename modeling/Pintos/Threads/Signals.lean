import Mathlib.Tactic.Ring
import Pintos.Threads.Conditions

/-!
# Condition variables lose no signal

Every `cond_signal` that finds waiters removes exactly one of them, the first of greatest priority,
and the semaphore in the frame of that waiter has value one until the waiter passes it.
`cond_broadcast` goes on until the queue is empty, and ends.
-/

namespace Pintos.Threads

open Function List Nat

/-- The event is a step of the thread itself and no interrupt. -/
def OwnStep (t : Tid) (m : Monitor) (e : MonitorEvent) : Prop :=
  m.current = t ∧ e ≠ .base .timer

/-- If the thread runs, a step of its own is possible. -/
def CanProceed (lock : LockId) (t : Tid) (m : Monitor) : Prop :=
  m.current = t → ∃ e, OwnStep t m e ∧ (monitorStep lock m e).isSome

/-- A bound on the own steps of a thread up to the end of its operation. -/
def Monitor.work (monitor : Monitor) (thread : Tid) : Nat :=
  match monitor.control thread with
  | [] => 0
  | .push :: _ => 1
  | .test :: _ => max 2 (monitor.queue.length * (monitor.queue.length + 6))
  | .search index _ :: _ => monitor.queue.length * (monitor.queue.length + 6) - 1 - index
  | .remove _ :: _ =>
    monitor.queue.length * (monitor.queue.length + 6) - 2 - monitor.queue.length
  | .broadcast :: _ =>
    monitor.queue.length * (monitor.queue.length + 6) + 1 + codeWork (monitor.code thread)

theorem seven_mul_le {len : Nat} (pos : 0 < len) : 7 * len ≤ len * (len + 6) := by
  rw [mul_comm]
  exact mul_le_mul_left len (by omega)

/-! ## Control sections -/

namespace ControlEffect

variable {lock : LockId} {s s' : Monitor} (effect : ControlEffect lock s s')
include effect

theorem holder : s'.holder = s.holder := by
  cases effect <;> rfl

theorem elsewhere {t : Tid} (o : t ≠ s.current) :
    s'.control t = s.control t ∧ s'.code t = s.code t ∧
      (s'.semaphore (frameSema t)).value = (s.semaphore (frameSema t)).value := by
  have ne : frameSema t ≠ frameSema s.current := fun equal => o (frameSema_inj.mp equal)
  cases effect <;> simp [Monitor.setControl, o, ne]

/-- Only the holder of the lock changes the queue or searches it. -/
theorem unowned (o : s.holder lock ≠ some s.current) : s'.queue = s.queue ∧ s'.seen = s.seen := by
  cases effect with
  | push _ holds | again _ holds => exact (o holds).elim
  | start _ _ holds | round _ _ holds | found _ _ holds | remove _ _ holds =>
    exact (o holds).elim
  | nobody | finish => exact ⟨rfl, rfl⟩

theorem work (mid : s.code s.current = []) : s'.work s.current < s.work s.current := by
  cases effect with
  | push control => simp [Monitor.work, control]
  | nobody control loop empty =>
    cases loop <;> simp [Monitor.work, Monitor.setControl, control, empty, mid, codeWork]
  | start control loop holds ne_nil =>
    have bound := seven_mul_le (length_pos_of_ne_nil ne_nil)
    have pos := length_pos_of_ne_nil ne_nil
    simp only [Monitor.work, Monitor.setControl, update_self, control]
    omega
  | round control loop holds valid next =>
    have inside := (List.getElem?_eq_some_iff.mp next).1
    have bound := seven_mul_le (zero_lt_of_lt inside)
    simp only [Monitor.work, Monitor.setControl, update_self, control]
    omega
  | found control loop holds complete chosen =>
    have pos := length_pos_of_mem chosen.mem
    have bound := seven_mul_le pos
    simp only [Monitor.work, Monitor.setControl, update_self, control]
    omega
  | remove control loop holds complete chosen =>
    have pos := length_pos_of_mem chosen.mem
    have bound := seven_mul_le pos
    have shorter := length_erase_of_mem chosen.mem
    cases loop with
    | once =>
      simp only [Monitor.work, Monitor.setControl, update_self, control]
      omega
    | broadcast =>
      simp only [Monitor.work, Monitor.setControl, update_self, control, shorter, codeWork]
      obtain ⟨left, length⟩ : ∃ left, s.queue.length = left + 1 :=
        Nat.exists_eq_add_of_lt pos |>.imp fun _ equal => by omega
      rw [length, Nat.add_sub_cancel]
      have expanded : (left + 1) * (left + 1 + 6) = left * (left + 6) + 2 * left + 7 := by ring
      omega
  | finish control empty => simp [Monitor.work, Monitor.setControl, control]
  | again control holds ne_nil =>
    have bound := seven_mul_le (length_pos_of_ne_nil ne_nil)
    have pos := length_pos_of_ne_nil ne_nil
    simp only [Monitor.work, Monitor.setControl, update_self, control]
    omega

end ControlEffect

/-! ## Steps while a thread is inside an operation -/

/-- What a step means for a thread that has the lock and is inside an operation of the condition
variable. -/
inductive InsideStep (lock : LockId) (t : Tid) (s : Monitor) (e : MonitorEvent)
    (s' : Monitor) : Prop
  | other (elsewhere : ¬ OwnStep t s e) (control : s'.control t = s.control t)
      (queue : s'.queue = s.queue) (seen : s'.seen = s.seen)
      (code : s'.code t = s.code t)
  | run (own : OwnStep t s e) (looping : s.control t = [.broadcast])
      (control : s'.control t = [.broadcast]) (queue : s'.queue = s.queue)
      (shorter : codeWork (s'.code t) < codeWork (s.code t))
  | control (current : s.current = t) (between : s.code t = []) (effect : ControlEffect lock s s')

namespace MonitorInvariant

variable {lock : LockId} {s s' : Monitor} {e : MonitorEvent} {t : Tid}

section

variable (inv : MonitorInvariant lock s)
include inv

theorem insideStep_base {e : Event} {m : Machine} (inside : s.control t ≠ []) (ok : s.admits e) (ran : Threads.step s.toMachine e = some m) :
    InsideStep lock t s (.base e)
      { m with queue := s.queue, control := s.control, seen := s.seen } := by
  by_cases cur : s.current = t
  · subst cur
    cases e with
    | start op =>
      have none : s.control s.current = [] := by
        have both := ok
        simp only [Monitor.admits, Bool.and_eq_true, decide_eq_true_eq] at both
        exact both.2
      exact (inside none).elim
    | timer =>
      refine .other (fun own => own.2 rfl) rfl rfl rfl ?_
      obtain ⟨k, _, rfl⟩ := threadYield_of_timer ran
      rfl
    | run =>
      have loop := (inv.states s.current).loopCode inside
      have shorter := (loopCode_run loop ran).2
      have looping : s.control s.current = [.broadcast] := by
        have state := inv.states s.current
        generalize s.control s.current = control at state inside
        cases state with
        | none => exact (inside rfl).elim
        | push mid | test mid | search mid | remove mid =>
          rw [mid] at shorter
          cases shorter
        | broadcast => rfl
      exact .run ⟨rfl, by simp⟩ looping looping rfl shorter
  · exact .other (fun own => cur own.1) rfl rfl rfl
      (code_of_step ran (.inl fun same => cur same.symm))

/-- While a thread has the lock and is inside an operation, only its own steps change the queue. -/
theorem insideStep (inside : s.control t ≠ []) (holds : s.holder lock = some t)
    (ran : monitorStep lock s e = some s') :
    s'.holder lock = some t ∧ InsideStep lock t s e s' := by
  cases taken_of_monitorStep ran with
  | base ok steps =>
    have free := ((inv.states t).loopCode inside).lockFree
    exact ⟨inv.toSoundBase.holder_step steps holds (.inr free), inv.insideStep_base inside ok steps⟩
  | begin fst _ out =>
    have o : t ≠ s.current := by
      rintro rfl
      exact inside out
    exact ⟨holds, .other (fun own => o own.1.symm) (update_of_ne o _ _) rfl rfl rfl⟩
  | control mid runs =>
    have eff := inv.controlEffect runs
    refine ⟨eff.holder ▸ holds, ?_⟩
    by_cases cur : s.current = t
    · exact .control cur (cur ▸ mid) eff
    · have ne : s.holder lock ≠ some s.current := by
        rw [holds]
        exact fun eq => cur (Option.some.inj eq).symm
      obtain ⟨queue, seen⟩ := eff.unowned ne
      obtain ⟨control, code, _⟩ := eff.elsewhere fun same => cur same.symm
      exact .other (fun own => cur own.1) control queue seen code

theorem work_pos (inside : s.control t ≠ []) : 0 < s.work t := by
  have state := inv.states t
  unfold Monitor.work
  generalize s.control t = control at state inside
  cases state with
  | none => exact (inside rfl).elim
  | push => exact one_pos
  | test => exact lt_of_lt_of_le two_pos (le_max_left _ _)
  | search _ _ _ ne_nil _ bound =>
    have pos := length_pos_of_ne_nil ne_nil
    have enough := seven_mul_le pos
    simp only
    omega
  | remove _ _ _ _ chosen =>
    have pos := length_pos_of_mem chosen.mem
    have enough := seven_mul_le pos
    simp only
    omega
  | broadcast =>
    simp only
    omega

theorem exists_semaUp (sema : SemaRef) :
    ∃ highest raised, s.semaUp sema = some (highest, raised) := by
  refine Kernel.exists_semaUp inv.priorities fun o mem => ?_
  have asleep := inv.waiters.asleep _ _ mem
  by_contra awake
  rw [Machine.asleep, asleep_of_not_blocked awake] at asleep
  cases asleep

end

theorem canProceed_of_code {instr : Instr} {rest : List Instr}
    (code : s.code s.current = instr :: rest)
    (runs : (execute s.toKernel rest instr).isSome) : CanProceed lock s.current s :=
  fun _ => ⟨.base .run, ⟨rfl, by simp⟩, by
    simpa [monitorStep, Monitor.admits, Threads.step, code] using runs⟩

theorem canProceed_of_control (mid : s.code s.current = [])
    (runs : (s.runControl lock).isSome) : CanProceed lock s.current s :=
  fun _ => ⟨.control, ⟨rfl, by simp⟩, by simpa [monitorStep, mid] using runs⟩

variable (inv : MonitorInvariant lock s)
include inv

theorem canProceed_of_raise {w : Tid} (raises : s.code t = raiseCode w) : CanProceed lock t s := by
  rintro rfl
  obtain ⟨highest, raised, wakes⟩ := inv.exists_semaUp (frameSema w)
  exact canProceed_of_code raises (by simp [execute, wakes]) rfl

/-- A thread that has the lock and is inside an operation can run its next section. -/
theorem canProceed (inside : s.control t ≠ []) (holds : s.holder lock = some t) :
    CanProceed lock t s := by
  by_cases cur : s.current = t
  swap
  · exact fun same => (cur same).elim
  subst cur
  have state := inv.states s.current
  generalize control : s.control s.current = sections at state inside
  cases state with
  | none => exact (inside rfl).elim
  | push mid => exact canProceed_of_control mid (by simp [Monitor.runControl, control, holds])
  | test mid =>
    refine canProceed_of_control mid ?_
    by_cases empty : s.queue = [] <;> simp [Monitor.runControl, control, holds, empty]
  | search mid =>
    refine canProceed_of_control mid ?_
    simp only [Monitor.runControl, control]
    split <;> rfl
  | remove mid => exact canProceed_of_control mid (by simp [Monitor.runControl, control])
  | broadcast _ loop =>
    generalize code : s.code s.current = list at loop
    cases loop with
    | nil =>
      refine canProceed_of_control code ?_
      by_cases empty : s.queue = [] <;> simp [Monitor.runControl, control, empty]
    | raise w => exact inv.canProceed_of_raise code
    | yield highest =>
      obtain ⟨yielded, yields⟩ := Kernel.exists_threadYield s.toKernel
      refine canProceed_of_code code ?_
      by_cases behind : s.priority s.current ≤ highest <;> simp [execute, yields, behind]

/-- A waiter whose semaphore has been raised has left the queue. -/
theorem signalled_of_positive (waits : Pends t (s.code t))
    (pos : 0 < (s.semaphore (frameSema t)).value) :
    t ∉ s.queue ∧ (s.semaphore (frameSema t)).value = 1 := by
  have absent : t ∉ s.queue := by
    intro mem
    rw [(inv.queued _ mem).2] at pos
    cases pos
  refine ⟨absent, ?_⟩
  rcases inv.signalled _ waits absent with one | ⟨raiser, raises⟩
  · exact one
  · rw [(inv.raising _ _ raises).2.2.2] at pos
    cases pos

/-- The semaphore of a waiter outside the queue keeps its unit until the waiter passes it. -/
theorem waiter_step (waits : Pends t (s.code t)) (ran : monitorStep lock s e = some s') :
    (t = s.current ∧ t ∉ s.queue ∧ ¬ Pends t (s'.code t) ∧ (s.semaphore (frameSema t)).value = 1 ∧
        (s'.semaphore (frameSema t)).value = 0) ∨
      Pends t (s'.code t) ∧ (t ∉ s.queue → t ∉ s'.queue ∧ ((s.semaphore (frameSema t)).value = 1 →
          (s'.semaphore (frameSema t)).value = 1)) := by
  cases taken_of_monitorStep ran with
  | begin => exact .inr ⟨waits, fun absent => ⟨absent, id⟩⟩
  | control mid runs =>
    have o : t ≠ s.current := by
      rintro rfl
      exact not_pends_of_between mid waits
    have eff := inv.controlEffect runs
    obtain ⟨_, code, value⟩ := eff.elsewhere o
    refine .inr ⟨code ▸ waits, fun absent => ⟨?_, fun one => value.trans one⟩⟩
    cases eff with
    | push => simpa [o] using absent
    | remove => exact fun mem => absent (mem_of_mem_erase mem)
    | _ => exact absent
  | base ok steps =>
    cases inv.frameStep ok steps with
    | quiet pends value =>
      exact .inr ⟨(pends t).mpr waits, fun absent => ⟨absent, fun one => (value t).trans one⟩⟩
    | raise w highest code left pends value =>
      refine .inr ⟨(pends t).mpr waits, fun absent => ⟨absent, fun one => ?_⟩⟩
      have o : t ≠ w := by
        rintro rfl
        have zero := (inv.raising _ _ code).2.2.2
        rw [one] at zero
        cases zero
      exact ((value t).trans (if_neg o)).trans one
    | pass _ passed pos value =>
      by_cases same : t = s.current
      · subst same
        obtain ⟨absent, one⟩ := inv.signalled_of_positive waits pos
        refine .inl ⟨rfl, absent, fun still => ((passed _).mp still).1 rfl, one, ?_⟩
        exact (value _).trans (by rw [if_pos rfl, one])
      · exact .inr ⟨(passed t).mpr ⟨same, waits⟩, fun absent =>
          ⟨absent, fun one => ((value t).trans (if_neg same)).trans one⟩⟩

theorem fresh_step (awake : ¬ Pends t (s.code t)) (ran : monitorStep lock s e = some s')
    (waits : Pends t (s'.code t)) : t ∈ s'.queue := by
  cases taken_of_monitorStep ran with
  | begin => exact (awake waits).elim
  | control mid runs =>
    have eff := inv.controlEffect runs
    by_cases cur : t = s.current
    · subst cur
      cases eff with
      | push => simp
      | remove =>
        simp only [update_self] at waits
        exact (not_pends_raiseCode _ waits).elim
      | _ => exact (awake waits).elim
    · rw [(eff.elsewhere cur).2.1] at waits
      exact (awake waits).elim
  | base ok steps =>
    cases inv.frameStep ok steps with
    | quiet pends => exact (awake ((pends t).mp waits)).elim
    | raise _ _ _ _ pends => exact (awake ((pends t).mp waits)).elim
    | pass _ passed => exact (awake ((passed t).mp waits).2).elim

/-- The next own step of a signaller that has removed a waiter raises the waiter's semaphore. -/
theorem raise_step {w : Tid} (raises : s.code t = raiseCode w)
    (ran : monitorStep lock s e = some s') :
    (OwnStep t s e → (s'.semaphore (frameSema w)).value = 1) ∧
      (¬ OwnStep t s e → s'.code t = raiseCode w) := by
  have busy : s.code s.current = [] → t ≠ s.current := by
    rintro mid rfl
    rw [mid] at raises
    cases raises
  cases taken_of_monitorStep ran with
  | begin fst mid => exact ⟨fun own => (busy mid own.1.symm).elim, fun _ => raises⟩
  | control mid runs =>
    refine ⟨fun own => (busy mid own.1.symm).elim, fun _ => ?_⟩
    exact ((inv.controlEffect runs).elsewhere (busy mid)).2.1.trans raises
  | @base e m ok steps =>
    by_cases cur : t = s.current
    swap
    · exact ⟨fun own => (cur own.1.symm).elim, fun _ => (code_of_step steps (.inl cur)).trans raises⟩
    subst cur
    cases e with
    | start op =>
      obtain ⟨mid, _⟩ := code_of_start steps
      exact (busy mid rfl).elim
    | timer =>
      refine ⟨fun own => (own.2 rfl).elim, fun _ => ?_⟩
      obtain ⟨k, _, rfl⟩ := threadYield_of_timer steps
      exact raises
    | run =>
      refine ⟨fun _ => ?_, fun stays => (stays ⟨rfl, by simp⟩).elim⟩
      have shorter := (loopCode_run (by rw [raises]; exact .raise w) steps).2
      cases inv.frameStep ok steps with
      | quiet _ _ kept | pass _ _ _ _ kept =>
        rw [(kept _ _).mpr raises, raises] at shorter
        exact (lt_irrefl _ shorter).elim
      | raise o highest raised left pends value =>
        obtain rfl : w = o := by
          simpa [raiseCode, frameSema_inj] using raises.symm.trans raised
        refine (value w).trans ?_
        rw [if_pos rfl, (inv.raising _ _ raises).2.2.2]

end MonitorInvariant

/-! ## One signal -/

/-- A thread has taken a waiter of the given queue off the list, chosen by the priorities read, and is
about to call `sema_up`. -/
def Removed (queue : List Tid) (reads : List Int) (t : Tid) (rest : List Control)
    (m : Monitor) : Prop :=
  ∃ w, EarliestMost queue reads w ∧ m.queue = queue.erase w ∧
    m.code t = raiseCode w ∧ m.control t = rest

/-- A thread is inside `cond_signal` on a nonempty queue, and what it has read so far is as
expected. -/
structure Signalling (lock : LockId) (queue : List Tid) (expected : List Int → Prop) (t : Tid)
    (rest : List Control) (m : Monitor) : Prop extends MonitorInvariant lock m where
  holds : m.holder lock = some t
  queue_eq : m.queue = queue
  nonempty : queue ≠ []
  place : m.control t = .test :: rest ∨
    expected m.seen ∧ ((∃ i best, m.control t = .search i best :: rest) ∨
      ∃ best, m.control t = .remove best :: rest)

namespace Signalling

variable {lock : LockId} {queue : List Tid} {expected : List Int → Prop} {t : Tid}
  {rest : List Control} {s s' : Monitor} {e : MonitorEvent}
  (signalling : Signalling lock queue expected t rest s)
include signalling

theorem inside : s.control t ≠ [] := by
  rcases signalling.place with test | ⟨_, ⟨_, _, search⟩ | ⟨_, remove⟩⟩
  · simp [test]
  · simp [search]
  · simp [remove]

/-- The thread goes on until it removes a waiter, and nobody else touches the queue. -/
theorem step (start : expected []) (read : ∀ w, expected s.seen → queue[s.seen.length]? = some w →
      expected (s.seen ++ [s.priority w]))
    (ran : monitorStep lock s e = some s') :
    (expected s'.seen ∧ s'.seen.length = queue.length ∧ Removed queue s'.seen t rest s') ∨
      Signalling lock queue expected t rest s' ∧ s'.work t ≤ s.work t ∧
        (OwnStep t s e → s'.work t < s.work t) := by
  have inv := signalling.toMonitorInvariant.step ran
  obtain ⟨holds, taken⟩ := signalling.insideStep signalling.inside signalling.holds ran
  obtain rfl := signalling.queue_eq
  cases taken with
  | other elsewhere control same seen code =>
    have work : s'.work t = s.work t := by
      unfold Monitor.work
      rw [control, same, code]
    refine .inr ⟨⟨inv, holds, same, signalling.nonempty, ?_⟩, work.le,
      fun own => (elsewhere own).elim⟩
    rw [control, seen]
    exact signalling.place
  | run own looping =>
    rcases signalling.place with test | ⟨_, ⟨_, _, search⟩ | ⟨_, remove⟩⟩
    · simp [test] at looping
    · simp [search] at looping
    · simp [remove] at looping
  | control current between effect =>
    subst current
    have lower := effect.work between
    have goesOn : ∀ {first}, s'.queue = s.queue → s'.control s.current = first :: rest →
        (expected s'.seen ∧ ((∃ i best, first = .search i best) ∨ ∃ best, first = .remove best)) →
        Signalling lock s.queue expected s.current rest s' := by
      intro first same control later
      refine ⟨inv, holds, same, signalling.nonempty, .inr ⟨later.1, ?_⟩⟩
      rcases later.2 with ⟨i, best, rfl⟩ | ⟨best, rfl⟩
      · exact .inl ⟨i, best, control⟩
      · exact .inr ⟨best, control⟩
    have place := signalling.place
    cases effect with
    | push control | finish control | again control =>
      simp [control] at place
    | nobody control loop empty => exact (signalling.nonempty empty).elim
    | start control =>
      obtain rfl : _ = rest := by simpa [control] using place
      exact .inr ⟨goesOn rfl (update_self ..) ⟨start, .inl ⟨_, _, rfl⟩⟩, lower.le, fun _ => lower⟩
    | round control loop holds valid next =>
      obtain ⟨fits, rfl⟩ : expected s.seen ∧ _ = rest := by simpa [control] using place
      exact .inr ⟨goesOn rfl (update_self ..) ⟨read _ fits next, .inl ⟨_, _, rfl⟩⟩,
        lower.le, fun _ => lower⟩
    | found control =>
      obtain ⟨fits, rfl⟩ : expected s.seen ∧ _ = rest := by simpa [control] using place
      exact .inr ⟨goesOn rfl (update_self ..) ⟨fits, .inr ⟨_, rfl⟩⟩, lower.le, fun _ => lower⟩
    | remove control loop holds complete chosen =>
      obtain ⟨fits, rfl⟩ : expected s.seen ∧ _ = rest := by simpa [control] using place
      exact .inl ⟨fits, complete, _, chosen, rfl, update_self .., update_self ..⟩

end Signalling

/-! ## Broadcasts -/

theorem ControlState.holds_of_broadcast {lock : LockId} {m : Monitor} {t : Tid}
    {control : List Control} (state : ControlState lock m t control)
    (looping : .broadcast ∈ control) : m.holder lock = some t := by
  cases state with
  | none | push => simp at looping
  | test _ loop =>
    cases loop with
    | once => simp at looping
    | broadcast holds => exact holds
  | search _ _ holds | remove _ _ holds | broadcast holds => exact holds

theorem MonitorInvariant.broadcast_step {lock : LockId} {s s' : Monitor}
    {e : MonitorEvent} {t : Tid} (inv : MonitorInvariant lock s)
    (looping : .broadcast ∈ s.control t)
    (ran : monitorStep lock s e = some s') :
    (s'.control t = [] ∧ s'.queue = []) ∨ .broadcast ∈ s'.control t ∧ s'.work t ≤ s.work t ∧
        (OwnStep t s e → s'.work t < s.work t) := by
  have inside : s.control t ≠ [] := ne_nil_of_mem looping
  have holds := (inv.states t).holds_of_broadcast looping
  cases (inv.insideStep inside holds ran).2 with
  | other apart control same seen code =>
    have work : s'.work t = s.work t := by
      unfold Monitor.work
      rw [control, same, code]
    exact .inr ⟨control ▸ looping, work.le, fun own => (apart own).elim⟩
  | run own before_eq after_eq same shorter =>
    have lower : s'.work t < s.work t := by
      unfold Monitor.work
      rw [before_eq, after_eq, same]
      exact Nat.add_lt_add_left shorter _
    exact .inr ⟨by simp [after_eq], lower.le, fun _ => lower⟩
  | control cur mid eff =>
    subst cur
    have lower := eff.work mid
    have goesOn : .broadcast ∈ s'.control s.current → .broadcast ∈ s'.control s.current ∧
          s'.work s.current ≤ s.work s.current ∧
          (OwnStep s.current s e → s'.work s.current < s.work s.current) :=
      fun still => ⟨still, lower.le, fun _ => lower⟩
    cases eff with
    | push control => simp [control] at looping
    | finish control empty => exact .inl ⟨update_self .., empty⟩
    | nobody control | start control | round control | found control | remove control
    | again control =>
      refine .inr (goesOn ?_)
      revert looping
      simp [Monitor.setControl, control]

/-! ## Result -/

/-- Nothing is lost between signals and waiters. -/
structure Faithful (lock : LockId) (m : Monitor) : Prop where
  /-- No thread in the queue has passed its `sema_down`. -/
  queued : ∀ t ∈ m.queue, Pends t (m.code t)
  /-- Who waits outside the queue has been signalled, or the signaller is about to call `sema_up`. -/
  signalled : ∀ t, Pends t (m.code t) → t ∉ m.queue → (m.semaphore (frameSema t)).value = 1 ∨
      ∃ signaller, m.code signaller = raiseCode t
  /-- The signaller does so in its next step. -/
  raises : ∀ signaller w, m.code signaller = raiseCode w →
    CanProceed lock signaller m ∧ ∀ e next, monitorStep lock m e = some next →
      (OwnStep signaller m e → (next.semaphore (frameSema w)).value = 1) ∧
        (¬ OwnStep signaller m e → next.code signaller = raiseCode w)
  /-- Who waits passes the semaphore with its one unit, and until then the unit stays. -/
  passes : ∀ t e next, Pends t (m.code t) → monitorStep lock m e = some next →
    (t = m.current ∧ t ∉ m.queue ∧ ¬ Pends t (next.code t) ∧ (m.semaphore (frameSema t)).value = 1 ∧
        (next.semaphore (frameSema t)).value = 0) ∨
      Pends t (next.code t) ∧ (t ∉ m.queue → t ∉ next.queue ∧
        ((m.semaphore (frameSema t)).value = 1 → (next.semaphore (frameSema t)).value = 1))
  /-- A thread waits again only from a new place in the queue. -/
  fresh : ∀ t e next, ¬ Pends t (m.code t) →
    monitorStep lock m e = some next → Pends t (next.code t) →
    t ∈ next.queue
  /-- A signal to a nonempty queue removes one waiter, the first of greatest priority as read. -/
  signal : ∀ t rest, m.control t = .test :: rest → m.holder lock = some t → m.queue ≠ [] → ∀ events,
    Execution.Within (monitorStep lock) (OwnStep t) (fun s => Removed m.queue s.seen t rest s)
      (fun s => s.queue = m.queue ∧ CanProceed lock t s)
      (m.work t) m events
  /-- While no priority in the queue changes, these are the priorities of the waiters. -/
  steady : ∀ t rest, m.control t = .test :: rest → m.holder lock = some t → m.queue ≠ [] → ∀ events,
    Execution.Within (monitorStep lock) (OwnStep t)
      (fun s => (∃ w ∈ m.queue, s.priority w ≠ m.priority w) ∨
        Removed m.queue (m.queue.map m.priority) t rest s)
      (fun s => s.queue = m.queue ∧ CanProceed lock t s)
      (m.work t) m events
  /-- A broadcast ends with the queue empty. -/
  broadcast : ∀ t, .broadcast ∈ m.control t → ∀ events,
    Execution.Within (monitorStep lock) (OwnStep t) (fun s => s.control t = [] ∧ s.queue = [])
      (CanProceed lock t) (m.work t) m events

namespace MonitorInvariant

variable {lock : LockId} {m : Monitor} {t : Tid} {rest : List Control}
  (inv : MonitorInvariant lock m)
include inv

theorem signalling (expected : List Int → Prop) (control : m.control t = .test :: rest)
    (holds : m.holder lock = some t) (ne_nil : m.queue ≠ []) :
    Signalling lock m.queue expected t rest m :=
  ⟨inv, holds, rfl, ne_nil, .inl control⟩

theorem signal_within (control : m.control t = .test :: rest)
    (holds : m.holder lock = some t) (ne_nil : m.queue ≠ [])
    (evs : List MonitorEvent) : Execution.Within (monitorStep lock) (OwnStep t)
      (fun state => Removed m.queue state.seen t rest state)
      (fun state => state.queue = m.queue ∧ CanProceed lock t state)
      (m.work t) m evs := by
  have start := inv.signalling (fun _ => True) control holds ne_nil
  have kept : ∀ {old e s'}, Signalling lock m.queue (fun _ => True) t rest old →
      monitorStep lock old e = some s' →
      Removed m.queue s'.seen t rest s' ∨ Signalling lock m.queue (fun _ => True) t rest s' ∧
        s'.work t ≤ old.work t ∧
        (OwnStep t old e → s'.work t < old.work t) := by
    intro old e s' raises ran
    rcases raises.step trivial (fun _ _ _ => trivial) ran with ⟨_, _, removed⟩ | goesOn
    · exact .inl removed
    · exact .inr goesOn
  exact Execution.within_of_variant (fun raises => ⟨raises.queue_eq,
      raises.canProceed raises.inside raises.holds⟩)
    kept (fun raises => raises.work_pos raises.inside) start le_rfl evs

theorem steady_within (control : m.control t = .test :: rest)
    (holds : m.holder lock = some t) (ne_nil : m.queue ≠ [])
    (evs : List MonitorEvent) : Execution.Within (monitorStep lock) (OwnStep t)
      (fun state => (∃ w ∈ m.queue, state.priority w ≠ m.priority w) ∨
        Removed m.queue (m.queue.map m.priority) t rest state)
      (fun state => state.queue = m.queue ∧ CanProceed lock t state)
      (m.work t) m evs := by
  let reads := m.queue.map m.priority
  have start := inv.signalling (fun seen => seen = reads.take seen.length) control holds ne_nil
  have kept : ∀ {old e s'},
      Signalling lock m.queue (fun seen => seen = reads.take seen.length) t rest old ∧
        (∀ w ∈ m.queue, old.priority w = m.priority w) →
      monitorStep lock old e = some s' →
      ((∃ w ∈ m.queue, s'.priority w ≠ m.priority w) ∨ Removed m.queue reads t rest s') ∨
      (Signalling lock m.queue (fun seen => seen = reads.take seen.length) t rest s' ∧
        ∀ w ∈ m.queue, s'.priority w = m.priority w) ∧
        s'.work t ≤ old.work t ∧
        (OwnStep t old e → s'.work t < old.work t) := by
    rintro old e s' ⟨raises, same⟩ ran
    have stepped := raises.step rfl (fun w fits next => ?_) ran
    · rcases stepped with ⟨fits, whole, removed⟩ | ⟨goesOn, work⟩
      · have all : s'.seen = reads := by
          rw [fits, whole]
          exact take_of_length_le (by simp [reads])
        exact .inl (.inr (all ▸ removed))
      · by_cases new : ∃ w ∈ m.queue, s'.priority w ≠ m.priority w
        · exact .inl (.inl new)
        · push Not at new
          exact .inr ⟨⟨goesOn, new⟩, work⟩
    · have read : reads[old.seen.length]? = some (old.priority w) := by
        rw [getElem?_map, next, Option.map_some, same w (mem_of_getElem? next)]
      rw [length_append, length_singleton, take_add_one, ← fits, read]
      rfl
  exact Execution.within_of_variant
    (fun both => ⟨both.1.queue_eq, both.1.canProceed both.1.inside both.1.holds⟩) kept
    (fun both => both.1.work_pos both.1.inside) ⟨start, fun _ _ => rfl⟩ le_rfl evs

theorem broadcast_within (looping : .broadcast ∈ m.control t)
    (evs : List MonitorEvent) : Execution.Within (monitorStep lock) (OwnStep t)
      (fun state => state.control t = [] ∧ state.queue = [])
      (CanProceed lock t) (m.work t) m evs := by
  have kept : ∀ {old e s'}, MonitorInvariant lock old ∧ .broadcast ∈ old.control t →
      monitorStep lock old e = some s' →
      (s'.control t = [] ∧ s'.queue = []) ∨ (MonitorInvariant lock s' ∧ .broadcast ∈ s'.control t) ∧
        s'.work t ≤ old.work t ∧
        (OwnStep t old e → s'.work t < old.work t) := by
    rintro old e s' ⟨inv, looping⟩ ran
    rcases inv.broadcast_step looping ran with done | ⟨goesOn, work⟩
    · exact .inl done
    · exact .inr ⟨⟨inv.step ran, goesOn⟩, work⟩
  exact Execution.within_of_variant (fun both => both.1.canProceed (ne_nil_of_mem both.2)
      ((both.1.states t).holds_of_broadcast both.2))
    kept (fun both => both.1.work_pos (ne_nil_of_mem both.2)) ⟨inv, looping⟩ le_rfl evs

theorem faithful : Faithful lock m where
  queued t mem := (inv.queued t mem).1
  signalled := inv.signalled
  raises _ _ raises := ⟨inv.canProceed_of_raise raises, fun _ _ ran => inv.raise_step raises ran⟩
  passes _ _ _ waits ran := inv.waiter_step waits ran
  fresh _ _ _ awake ran waits := inv.fresh_step awake ran waits
  signal _ _ control holds nonempty := inv.signal_within control holds nonempty
  steady _ _ control holds nonempty := inv.steady_within control holds nonempty
  broadcast _ looping := inv.broadcast_within looping

end MonitorInvariant

/-- Condition variables lose no signal, in any interleaving of waits, signals and broadcasts with any
other use of semaphores, locks, threads and priorities. -/
theorem conditions_lose_no_signal (lock : LockId) (values : Nat → Nat)
    (events : List MonitorEvent) :
    Execution.Along (monitorStep lock) (Faithful lock) (monitorBoot values) events :=
  Execution.along_of_invariant (monitorInvariant_boot lock values)
    MonitorInvariant.step MonitorInvariant.faithful events

/-- Also with condition variables in use, a thread that takes a lock finds it free and is the only one to
take it, the semaphore of a lock that a thread has is 0, and only that thread drops the lock. -/
theorem monitor_excludes (lock : LockId) (values : Nat → Nat) (events : List MonitorEvent) :
    Execution.Along (monitorStep lock) (fun m => ∀ l t,
        (m.holder l = some t → (m.semaphore (.ofLock l)).value = 0) ∧
        (∀ rest, m.code t = .dropLock l :: rest → m.holder l = some t) ∧
        ∀ rest, m.code t = .takeLock l :: rest → m.holder l = none ∧
          (m.semaphore (.ofLock l)).value = 0 ∧
          ∀ o more, m.code o = .takeLock l :: more → o = t)
      (monitorBoot values) events := by
  refine Execution.along_of_invariant (monitorInvariant_boot lock values) MonitorInvariant.step ?_
    events
  intro m inv l t
  obtain ⟨past, inside, acc, placed⟩ := inv.locks
  have takes : ∀ {o more}, m.code o = .takeLock l :: more → o ∈ past l ∧ o ∉ inside l := by
    intro o more code
    obtain ⟨_, _, stage, owns⟩ := placed o
    rw [code] at stage
    cases stage with
    | free free => cases free
    | down down => simp at down
    | taking => exact ⟨(owns.past l).mpr (.inr rfl), owns.outside l rfl⟩
  refine ⟨fun has => (acc.past_eq_singleton (acc.subset l ((acc.holder l t).mp has))).2,
    fun rest code => ?_, fun rest code => ?_⟩
  · obtain ⟨_, _, stage, owns⟩ := placed t
    rw [code] at stage
    cases stage with
    | free free => cases free
    | down down => simp at down
    | dropping => exact (acc.holder l t).mpr (owns.releasing l rfl)
  · obtain ⟨only, zero⟩ := acc.past_eq_singleton (takes code).1
    have alone : ∀ {o}, o ∈ past l → o = t := fun mem => Finset.mem_singleton.mp (only ▸ mem)
    refine ⟨Option.eq_none_iff_forall_ne_some.mpr fun o has => ?_, zero, fun o _ also =>
      alone (takes also).1⟩
    have mem := (acc.holder l o).mp has
    exact (takes code).2 (alone (acc.subset l mem) ▸ mem)

end Pintos.Threads
