import Pintos.Threads.Monitor

/-!
# Semaphores in the frames of `cond_wait`

The code of a thread mentions a semaphore in a frame in two situations only: its own, once, while it
has not passed the `sema_down` of its `cond_wait`, or another's, when it is about to call `sema_up`
for a signal.  How a step of the machine changes this and the values of these semaphores.
-/

namespace Pintos.Threads

open Function List

/-- The section operates on a semaphore in a frame. -/
def Instr.framed : Instr → Bool
  | .semaDown (.sema index) | .semaDownTest (.sema index) | .semaTryDown (.sema index)
  | .semaUp (.sema index) => index % 2 = 0
  | _ => false

/-- Code without semaphores in frames, and not the code of the idle thread. -/
def Clear (code : List Instr) : Prop :=
  ∀ instr ∈ code, instr.framed = false ∧ instr ≠ .idleBlock

/-- The section belongs to the `sema_down` of the thread's `cond_wait`. -/
def Downs (t : Tid) (instr : Instr) : Prop :=
  instr = .semaDown (frameSema t) ∨ instr = .semaDownTest (frameSema t)

/-- The code has still to pass the `sema_down` of the thread's `cond_wait`. -/
def Pends (t : Tid) (code : List Instr) : Prop :=
  ∃ instr ∈ code, Downs t instr

/-- The code is about to call `sema_up` on the semaphore of a signalled waiter. -/
def raiseCode (waiter : Tid) : List Instr := [.semaUp (frameSema waiter)]

/-- The situations in which the code of a thread mentions semaphores in frames. -/
inductive FrameCode (t : Tid) : List Instr → Prop
  | clear {code} (clear : Clear code) : FrameCode t code
  | idle : FrameCode t [.idleBlock]
  | waiting {instr} (front back : List Instr) (down : Downs t instr) (frontClear : Clear front)
      (backClear : Clear back) : FrameCode t (front ++ instr :: back)
  | raising (w : Tid) : FrameCode t (raiseCode w)

section Clear

variable {code front rest : List Instr} {instr : Instr} {t : Tid}

theorem Clear.append (fst : Clear front) (snd : Clear rest) : Clear (front ++ rest) := by
  intro instr mem
  rcases mem_append.mp mem with mem | mem
  · exact fst instr mem
  · exact snd instr mem

theorem Clear.tail (clear : Clear (instr :: rest)) : Clear rest :=
  fun o mem => clear o (mem_cons_of_mem _ mem)

theorem Downs.framed (down : Downs t instr) : instr.framed = true := by
  rcases down with rfl | rfl <;> simp [Instr.framed, frameSema]

theorem Clear.not_pends (clear : Clear code) : ¬ Pends t code := by
  rintro ⟨instr, mem, down⟩
  have framed := down.framed
  rw [(clear instr mem).1] at framed
  cases framed

theorem Clear.ne_raiseCode (clear : Clear code) (w : Tid) : code ≠ raiseCode w := by
  rintro rfl
  have unframed := (clear _ mem_cons_self).1
  simp [Instr.framed, frameSema] at unframed

theorem pends_middle (down : Downs t instr) : Pends t (front ++ instr :: rest) :=
  ⟨instr, by simp, down⟩

theorem not_pends_idle : ¬ Pends t [.idleBlock] := by
  rintro ⟨instr, mem, down⟩
  obtain rfl := mem_singleton.mp mem
  rcases down with eq | eq <;> cases eq

theorem not_pends_raiseCode (w : Tid) : ¬ Pends t (raiseCode w) := by
  rintro ⟨instr, mem, down⟩
  obtain rfl := mem_singleton.mp mem
  rcases down with eq | eq <;> cases eq

theorem Pends.ne_raiseCode (pends : Pends t code) (w : Tid) : code ≠ raiseCode w := by
  rintro rfl
  exact not_pends_raiseCode w pends

theorem clear_of_unitFree (frees : ∀ instr ∈ code, instr.unitFree) : Clear code := by
  intro instr mem
  have free := frees instr mem
  constructor
  · cases instr <;> first | rfl | cases free
  · rintro rfl
    cases free

theorem clear_sections {op : Op} (shared : op.shared) : Clear op.sections := by
  intro instr mem
  cases op <;> simp [Op.sections, lockAcquire, Op.shared] at mem shared <;> first
      | (obtain rfl := mem; simp [Instr.framed, shared])
      | (rcases mem with rfl | rfl | rfl | rfl <;> simp [Instr.framed])
      | (rcases mem with rfl | rfl | rfl | rfl | rfl | rfl <;> simp [Instr.framed])

end Clear

section Effect

variable {k s' : Kernel} {rest left : List Instr} {op : Instr}

theorem value_setSemaphore_of_unframed {sema : SemaRef} {semaphore : Semaphore}
    (unframed : ∀ t, frameSema t ≠ sema) (t : Tid) :
    ((k.setSemaphore sema semaphore).semaphore (frameSema t)).value =
      (k.semaphore (frameSema t)).value := by
  simp [unframed t]

theorem frameSema_ne_of_unframed {sema : SemaRef}
    (unframed : (Instr.semaUp sema).framed = false) (t : Tid) : frameSema t ≠ sema := by
  rintro rfl
  simp [Instr.framed, frameSema] at unframed

/-- A section without semaphores in frames keeps their values and leaves code without them in front
of the rest. -/
theorem UnitEffect.clear (eff : UnitEffect k rest op s' left)
    (unframed : op.framed = false) (notIdle : op ≠ .idleBlock) :
    (∃ front, left = front ++ rest ∧ Clear front) ∧ ∀ t, (s'.semaphore (frameSema t)).value =
        (k.semaphore (frameSema t)).value := by
  have o : ∀ {sema : SemaRef}, (Instr.semaUp sema).framed = op.framed →
      ∀ t, frameSema t ≠ sema := by
    intro sema same
    exact frameSema_ne_of_unframed (same.trans unframed)
  cases eff with
  | free front free frees same =>
    exact ⟨⟨front, rfl, clear_of_unitFree frees⟩, fun t => same.value _⟩
  | idle => exact (notIdle rfl).elim
  | wait sema down zero same =>
    have framed : (Instr.semaDownTest sema).framed = op.framed := by
      rcases down with rfl | rfl <;> cases sema <;> rfl
    refine ⟨⟨[.semaDownTest sema], rfl, ?_⟩, fun t => same.value _⟩
    rintro _ (_ | ⟨_, impossible⟩)
    · exact ⟨framed.trans unframed, by simp⟩
    · cases impossible
  | pass sema down pos =>
    have framed : (Instr.semaUp sema).framed = op.framed := by
      rcases down with rfl | rfl <;> cases sema <;> rfl
    exact ⟨⟨[], rfl, by simp [Clear]⟩, value_setSemaphore_of_unframed (o framed)⟩
  | tryPass sema pos =>
    have framed : (Instr.semaUp sema).framed = (Instr.semaTryDown sema).framed := by
      cases sema <;> rfl
    exact ⟨⟨[], rfl, by simp [Clear]⟩, value_setSemaphore_of_unframed (o framed)⟩
  | tryFail | tryLeave => exact ⟨⟨[], rfl, by simp [Clear]⟩, fun _ => rfl⟩
  | raise sema highest same =>
    refine ⟨⟨[.yieldUnlessAbove highest], rfl, by simp [Clear, Instr.framed]⟩, fun t => ?_⟩
    exact (same.value _).trans (value_setSemaphore_of_unframed (o rfl) t)
  | tryTake lock pos =>
    exact ⟨⟨[.takeLock lock], rfl, by simp [Clear, Instr.framed]⟩,
      value_setSemaphore_of_unframed fun t => by simp [frameSema]⟩
  | take lock | drop lock => exact ⟨⟨[], rfl, by simp [Clear]⟩, fun _ => rfl⟩
  | release lock front back frees backFrees holds same =>
    refine ⟨⟨front ++ .dropLock lock :: .semaUp (.ofLock lock) :: back, by simp, ?_⟩,
      fun t => same.value _⟩
    refine (clear_of_unitFree frees).append ?_
    rintro _ (_ | ⟨_, _ | ⟨_, mem⟩⟩)
    · simp [Instr.framed]
    · simp [Instr.framed]
    · exact clear_of_unitFree backFrees _ mem

/-- What a section does to semaphores in frames and to its thread's place in `cond_wait`. -/
inductive FrameEffect (k s' : Kernel) (t : Tid) (code left : List Instr) : Prop
  | quiet (pends : Pends t left ↔ Pends t code)
      (value : ∀ other, (s'.semaphore (frameSema other)).value =
        (k.semaphore (frameSema other)).value)
      (s : ∀ w, code ≠ raiseCode w) (later : ∀ w, left ≠ raiseCode w)
  | pass (pends : Pends t code) (passed : Clear left)
      (positive : 0 < (k.semaphore (frameSema t)).value)
      (after_eq : s' = k.decrementValue (frameSema t))
  | raise (w : Tid) (highest : Int) (code_eq : code = raiseCode w)
      (left_eq : left = [.yieldUnlessAbove highest])
      (same : SameUnits (k.incrementValue (frameSema w)) s')

theorem UnitEffect.frame (eff : UnitEffect k rest op s' left) {t : Tid}
    (shape : FrameCode t (op :: rest)) :
    FrameCode t left ∧ FrameEffect k s' t (op :: rest) left := by
  generalize whole : op :: rest = code at shape
  cases shape with
  | clear clear =>
    subst whole
    obtain ⟨unframed, notIdle⟩ := clear op mem_cons_self
    obtain ⟨⟨front, rfl, frontClear⟩, value⟩ := eff.clear unframed notIdle
    have leftClear := frontClear.append clear.tail
    exact ⟨.clear leftClear, .quiet (iff_of_false leftClear.not_pends clear.not_pends) value
      clear.ne_raiseCode leftClear.ne_raiseCode⟩
  | idle =>
    obtain ⟨rfl, rfl⟩ := cons.inj whole
    cases eff with
    | free _ free => cases free
    | idle same =>
      exact ⟨.idle, .quiet Iff.rfl (fun o => same.value _) (by simp [raiseCode])
        (by simp [raiseCode])⟩
    | wait _ down | pass _ down => rcases down with eq | eq <;> cases eq
  | raising w =>
    obtain ⟨rfl, rfl⟩ := cons.inj whole
    cases eff with
    | free _ free => cases free
    | wait _ down | pass _ down => rcases down with eq | eq <;> cases eq
    | raise sema highest same =>
      exact ⟨.clear (by simp [Clear, Instr.framed]), .raise w highest rfl rfl same⟩
  | @waiting waitSection front back down frontClear backClear =>
    cases front with
    | nil =>
      obtain ⟨rfl, rfl⟩ := cons.inj whole
      have pends : Pends t (op :: rest) := ⟨op, mem_cons_self, down⟩
      have sema_eq : ∀ {sema : SemaRef}, op = .semaDown sema ∨ op = .semaDownTest sema →
          sema = frameSema t := by
        intro sema o
        rcases down with rfl | rfl <;> rcases o with eq | eq <;> cases eq <;> rfl
      cases eff with
      | wait sema o zero same =>
        obtain rfl := sema_eq o
        have waits : Pends t (.semaDownTest (frameSema t) :: rest) := ⟨_, mem_cons_self, .inr rfl⟩
        exact ⟨.waiting [] rest (.inr rfl) (by simp [Clear]) backClear,
          .quiet (iff_of_true waits pends) (fun o => same.value _) pends.ne_raiseCode
            waits.ne_raiseCode⟩
      | pass sema o pos =>
        obtain rfl := sema_eq o
        exact ⟨.clear backClear, .pass pends backClear pos rfl⟩
      | free _ free => rcases down with rfl | rfl <;> cases free
      | _ => rcases down with eq | eq <;> cases eq
    | cons fst front =>
      obtain ⟨rfl, rfl⟩ := cons.inj whole
      obtain ⟨unframed, notIdle⟩ := frontClear op mem_cons_self
      obtain ⟨⟨new, rfl, newClear⟩, value⟩ := eff.clear unframed notIdle
      have still : Pends t (new ++ (front ++ waitSection :: back)) := by
        rw [← append_assoc]
        exact pends_middle down
      have pends : Pends t (op :: front ++ waitSection :: back) := pends_middle down
      refine ⟨?_, .quiet (iff_of_true still pends) value pends.ne_raiseCode still.ne_raiseCode⟩
      have shape := FrameCode.waiting (new ++ front) back down
        (newClear.append frontClear.tail) backClear
      rwa [append_assoc] at shape

end Effect

/-- What a step of the machine does to semaphores in frames and to places in `cond_wait`. -/
inductive FrameStep (s s' : Machine) : Prop
  | quiet (pends : ∀ t, Pends t (s'.code t) ↔ Pends t (s.code t))
      (value : ∀ t, (s'.semaphore (frameSema t)).value = (s.semaphore (frameSema t)).value)
      (raises : ∀ t w, s'.code t = raiseCode w ↔ s.code t = raiseCode w)
  | pass (pends : Pends s.current (s.code s.current)) (passed : ∀ t, Pends t (s'.code t) ↔
        t ≠ s.current ∧ Pends t (s.code t))
      (positive : 0 < (s.semaphore (frameSema s.current)).value)
      (value : ∀ t, (s'.semaphore (frameSema t)).value =
        if t = s.current then (s.semaphore (frameSema t)).value - 1
        else (s.semaphore (frameSema t)).value)
      (raises : ∀ t w, s'.code t = raiseCode w ↔ s.code t = raiseCode w)
  | raise (w : Tid) (highest : Int) (code : s.code s.current = raiseCode w)
      (left : s'.code s.current = [.yieldUnlessAbove highest])
      (pends : ∀ t, Pends t (s'.code t) ↔ Pends t (s.code t))
      (value : ∀ t, (s'.semaphore (frameSema t)).value =
        if t = w then (s.semaphore (frameSema t)).value + 1
        else (s.semaphore (frameSema t)).value)
      (raises : ∀ t other, s'.code t = raiseCode other ↔ t ≠ s.current ∧ s.code t = raiseCode other)

section Step

variable {s s' : Machine} {left : List Instr}

theorem pends_update (pends : Pends s.current left ↔ Pends s.current (s.code s.current)) :
    ∀ t, Pends t (update s.code s.current left t) ↔ Pends t (s.code t) :=
  (forall_update_iff s.code fun t code => Pends t code ↔ Pends t (s.code t)).mpr
    ⟨pends, fun _ _ => Iff.rfl⟩

theorem raises_update (raises : ∀ w, left = raiseCode w ↔ s.code s.current = raiseCode w) :
    ∀ t w, update s.code s.current left t = raiseCode w ↔ s.code t = raiseCode w :=
  (forall_update_iff s.code fun t code => ∀ w, code = raiseCode w ↔ s.code t = raiseCode w).mpr
    ⟨raises, fun _ _ _ => Iff.rfl⟩

theorem frameStep_of_step {e : Event} (shapes : ∀ t, FrameCode t (s.code t))
    (shared : ∀ op, e = .start op → op.shared)
    (ran : step s e = some s') :
    (∀ t, FrameCode t (s'.code t)) ∧ FrameStep s s' := by
  cases e with
  | start op =>
    obtain ⟨empty, rfl⟩ := code_of_start ran
    have clear := clear_sections (shared op rfl)
    refine ⟨(forall_update_iff s.code FrameCode).mpr ⟨.clear clear, fun t _ => shapes t⟩,
      .quiet (pends_update ?_) (fun _ => rfl) (raises_update fun w => ?_)⟩
    · exact iff_of_false clear.not_pends (by rw [empty]; simp [Pends])
    · exact iff_of_false (clear.ne_raiseCode w) (by rw [empty]; simp [raiseCode])
  | timer =>
    obtain ⟨k, yields, rfl⟩ := threadYield_of_timer ran
    exact ⟨shapes, .quiet (fun _ => Iff.rfl)
      (fun t => (SameUnits.threadYield yields).value _) fun _ _ => Iff.rfl⟩
  | run =>
    obtain ⟨instr, rest, k, left, code, eff, rfl⟩ := execute_of_run ran
    have shape := shapes s.current
    rw [code] at shape
    obtain ⟨leftShape, frame⟩ := (unitEffect_of_execute eff).frame shape
    rw [← code] at frame
    refine ⟨(forall_update_iff s.code FrameCode).mpr ⟨leftShape, fun t _ => shapes t⟩, ?_⟩
    cases frame with
    | quiet pends value prev later =>
      exact .quiet (pends_update pends) value (raises_update fun w =>
        iff_of_false (later w) (prev w))
    | pass pends passed pos after_eq =>
      subst after_eq
      refine .pass pends ((forall_update_iff s.code fun t code => Pends t code ↔
          t ≠ s.current ∧ Pends t (s.code t)).mpr ⟨?_, ?_⟩) pos (fun t => ?_)
        (raises_update fun w =>
          iff_of_false (passed.ne_raiseCode w) (pends.ne_raiseCode w))
      · exact iff_of_false passed.not_pends fun both => both.1 rfl
      · exact fun t o => (and_iff_right o).symm
      · by_cases same : t = s.current
        · subst same
          simp [Kernel.decrementValue]
        · have o : frameSema t ≠ frameSema s.current := fun eq => same (frameSema_inj.mp eq)
          simp [Kernel.decrementValue, o, same]
    | raise w highest code_eq left_eq same =>
      subst left_eq
      refine .raise w highest code_eq (update_self ..) (pends_update ?_) (fun t => ?_)
        ((forall_update_iff s.code fun t code => ∀ o, code = raiseCode o ↔
          t ≠ s.current ∧ s.code t = raiseCode o).mpr ⟨?_, ?_⟩)
      · exact iff_of_false (Clear.not_pends (by simp [Clear, Instr.framed]))
          (code_eq ▸ not_pends_raiseCode w)
      · refine (same.value _).trans ?_
        by_cases eq : t = w
        · subst eq
          simp [Kernel.incrementValue]
        · have o : frameSema t ≠ frameSema w := fun same => eq (frameSema_inj.mp same)
          simp [Kernel.incrementValue, o, eq]
      · exact fun w => iff_of_false (by simp [raiseCode]) fun both => both.1 rfl
      · exact fun t o w => (and_iff_right o).symm

end Step

end Pintos.Threads
