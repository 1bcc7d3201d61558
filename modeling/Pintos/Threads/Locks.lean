import Mathlib.Data.Finset.Card
import Pintos.Threads.Effects

/-!
# Mutual exclusion of locks

A lock is a semaphore and a holder field that are written in separate steps, so a thread may own
the unit of a lock without being its holder, on the way in and on the way out.  The machine is
watched: for each lock the history records which threads are past its `sema_down` and not yet past
its `sema_up`, and which threads are between the end of an acquire and the release.
-/

namespace Pintos.Threads

open Function Option Kernel

/-- The machine with what its history says about each lock. -/
structure Watched extends Machine where
  /-- The threads past `sema_down` and not yet past `sema_up`. -/
  past : LockId → Finset Tid
  /-- The threads that completed an acquire and have not released the lock.  The interval runs from
  the assignment of the holder to its removal, so it contains all the time from the return of
  `lock_acquire` or `lock_try_acquire` to the call of `lock_release`. -/
  inside : LockId → Finset Tid

/-- Who is past `sema_down` after a section. -/
def pastAfter (kernel : Kernel) (past : LockId → Finset Tid) : Instr → LockId → Finset Tid
  | .semaDown (.ofLock lock) | .semaDownTest (.ofLock lock) | .semaTryDown (.ofLock lock)
  | .tryAcquire lock =>
    if 0 < (kernel.semaphore (.ofLock lock)).value then
      update past lock (insert kernel.current (past lock))
    else
      past
  | .semaUp (.ofLock lock) => update past lock ((past lock).erase kernel.current)
  | _ => past

/-- Who has the lock after a section. -/
def insideAfter (kernel : Kernel) (inside : LockId → Finset Tid) : Instr → LockId → Finset Tid
  | .takeLock lock => update inside lock (insert kernel.current (inside lock))
  | .dropLock lock => update inside lock ((inside lock).erase kernel.current)
  | _ => inside

def watch (watched : Watched) (event : Event) : Option Watched :=
  (step watched.toMachine event).map fun after =>
    match event, watched.code watched.current with
    | .run, instr :: _ =>
      { after with
        past := pastAfter watched.toKernel watched.past instr
        inside := insideAfter watched.toKernel watched.inside instr }
    | _, _ => { after with past := watched.past, inside := watched.inside }

def watchedBoot (values : Nat → Nat) : Watched where
  toMachine := boot values
  past _ := ∅
  inside _ := ∅

theorem toMachine_watch (watched : Watched) (e : Event) :
    (watch watched e).map Watched.toMachine = step watched.toMachine e := by
  unfold watch
  rw [map_map]
  refine (congrArg (fun f => Option.map f _) (funext fun s' => ?_)).trans Option.map_id'
  simp only [Function.comp_apply]
  split <;> rfl

theorem toMachine_run (evs : List Event) (watched : Watched) :
    (Execution.run watch watched evs).map Watched.toMachine =
      Execution.run step watched.toMachine evs := by
  induction evs generalizing watched with
  | nil => rfl
  | cons e evs ih =>
    rw [Execution.run_cons, Execution.run_cons, ← toMachine_watch watched e]
    cases watch watched e with
    | none => rfl
    | some next => exact ih next

/-- A lock has one unit: it lies in the semaphore or belongs to one thread, and a thread that has
the lock is its holder. -/
structure Exclusive (watched : Watched) (lock : LockId) : Prop where
  atMostOne : (watched.inside lock).card ≤ 1
  holder : ∀ t ∈ watched.inside lock, watched.holder lock = some t
  unit : (watched.semaphore (.ofLock lock)).value + (watched.past lock).card = 1

/-- A section that does not move the unit of a lock and is no part of moving it. -/
def Instr.lockFree : Instr → Bool
  | .semaDown (.ofLock _) | .semaDownTest (.ofLock _) | .semaTryDown (.ofLock _)
  | .semaUp (.ofLock _) | .takeLock _ | .tryAcquire _ | .releaseDonors _ | .dropLock _
  | .idleBlock => false
  | _ => true

theorem Instr.lockFree_of_unitFree {instr : Instr} (free : instr.unitFree) : instr.lockFree := by
  cases instr <;> first | rfl | cases free

/-! ## Where a thread is -/

/-- The code of a thread that owns the unit of `transit` without having that lock, and is in the
middle of releasing `releasing`. -/
inductive Stage : List Instr → (transit releasing : Option LockId) → Prop
  | nil : Stage [] none none
  | free {instr rest releasing} (free : instr.lockFree) (stage : Stage rest none releasing) :
      Stage (instr :: rest) none releasing
  | idle : Stage [.idleBlock] none none
  | down {instr lock rest}
      (down : instr = .semaDown (.ofLock lock) ∨ instr = .semaDownTest (.ofLock lock))
      (stage : Stage rest none none) : Stage (instr :: .takeLock lock :: rest) none none
  | trying {lock rest} (stage : Stage rest none none) : Stage (.tryAcquire lock :: rest) none none
  | taking {lock rest} (stage : Stage rest none none) :
      Stage (.takeLock lock :: rest) (some lock) none
  | release {lock rest} (stage : Stage rest none none) :
      Stage (.releaseDonors lock :: rest) none none
  | dropping {lock rest} (stage : Stage rest none none) :
      Stage (.dropLock lock :: .semaUp (.ofLock lock) :: rest) none (some lock)
  | raising {lock rest} (stage : Stage rest none none) :
      Stage (.semaUp (.ofLock lock) :: rest) (some lock) none

variable {rest : List Instr} {releasing : Option LockId} {instr : Instr}

theorem Stage.append {front : List Instr} (frees : ∀ instr ∈ front, instr.lockFree)
    (stage : Stage rest none releasing) : Stage (front ++ rest) none releasing := by
  induction front with
  | nil => exact stage
  | cons instr front ih =>
    exact .free (frees instr List.mem_cons_self)
      (ih fun instr mem => frees instr (List.mem_cons_of_mem _ mem))

theorem stage_lockAcquire (lock : LockId) (stage : Stage rest none none) :
    Stage (lockAcquire lock ++ rest) none none :=
  .free rfl (.down (.inl rfl) (.free rfl stage))

theorem stage_sections (op : Op) : Stage op.sections none none := by
  cases op with
  | lockAcquire lock => exact stage_lockAcquire lock .nil
  | lockTryAcquire lock => exact .trying .nil
  | lockRelease lock => exact .release .nil
  | threadCreate prio =>
    exact stage_lockAcquire tidLock (.release (.free rfl .nil))
  | threadSetPriority prio stray => exact .free rfl (.free rfl .nil)
  | _ => exact .free rfl .nil

/-- A section without part in moving units comes before code at the same stage. -/
theorem Stage.of_free {transit : Option LockId} (free : instr.lockFree)
    (stage : Stage (instr :: rest) transit releasing) :
    transit = none ∧ Stage rest none releasing := by
  cases stage with
  | free _ stage => exact ⟨rfl, stage⟩
  | down down => rcases down with rfl | rfl <;> cases free
  | _ => cases free

theorem Stage.of_down {lock : LockId} {transit : Option LockId}
    (down : instr = .semaDown (.ofLock lock) ∨ instr = .semaDownTest (.ofLock lock))
    (stage : Stage (instr :: rest) transit releasing) : transit = none ∧ releasing = none ∧
      ∃ later, rest = .takeLock lock :: later ∧ Stage later none none := by
  cases stage with
  | free free => rcases down with rfl | rfl <;> cases free
  | down o stage =>
    rcases down with rfl | rfl <;> rcases o with eq | eq <;> cases eq <;>
      exact ⟨rfl, rfl, _, rfl, stage⟩
  | _ => rcases down with eq | eq <;> cases eq

/-- A thread owns the units of the locks it has and of the one in transit. -/
structure Owns (past inside : LockId → Finset Tid) (t : Tid)
    (transit releasing : Option LockId) : Prop where
  past : ∀ lock, t ∈ past lock ↔ t ∈ inside lock ∨ transit = some lock
  outside : ∀ lock, transit = some lock → t ∉ inside lock
  releasing : ∀ lock, releasing = some lock → t ∈ inside lock

/-- The code of a thread agrees with what the history says about it. -/
def Placed (past inside : LockId → Finset Tid) (t : Tid) (code : List Instr) : Prop :=
  ∃ transit releasing, Stage code transit releasing ∧ Owns past inside t transit releasing

/-- The units and holders of all locks are accounted for. -/
structure Accounted (k : Kernel) (past inside : LockId → Finset Tid) : Prop where
  unit : ∀ lock, (k.semaphore (.ofLock lock)).value + (past lock).card = 1
  holder : ∀ lock t, k.holder lock = some t ↔ t ∈ inside lock
  subset : ∀ lock, inside lock ⊆ past lock

namespace Accounted

variable {k s' : Kernel} {past inside : LockId → Finset Tid} {lock : LockId}
  (acc : Accounted k past inside)
include acc

theorem same (same : SameLocks k s') : Accounted s' past inside where
  unit lock := by
    rw [same.value]
    exact acc.unit lock
  holder lock t := by
    rw [same.holder]
    exact acc.holder lock t
  subset := acc.subset

/-- Nobody owns the unit of a lock while it lies in the semaphore. -/
theorem past_eq_empty (pos : 0 < (k.semaphore (.ofLock lock)).value) : past lock = ∅ := by
  have unit := acc.unit lock
  exact Finset.card_eq_zero.mp (by omega)

theorem outside (pos : 0 < (k.semaphore (.ofLock lock)).value) (t : Tid) : t ∉ inside lock := by
  intro mem
  have owner := acc.subset lock mem
  rw [acc.past_eq_empty pos] at owner
  cases owner

/-- A thread that owns the unit of a lock is the only one, and the semaphore has none. -/
theorem past_eq_singleton {t : Tid} (mem : t ∈ past lock) :
    past lock = {t} ∧ (k.semaphore (.ofLock lock)).value = 0 := by
  have unit := acc.unit lock
  have pos := Finset.card_pos.mpr ⟨t, mem⟩
  obtain ⟨owner, only⟩ := Finset.card_eq_one.mp (show (past lock).card = 1 by omega)
  rw [only] at mem ⊢
  rw [Finset.mem_singleton.mp mem]
  rw [only, Finset.card_singleton] at unit
  exact ⟨rfl, by omega⟩

theorem pass (pos : 0 < (k.semaphore (.ofLock lock)).value) :
    Accounted (k.decrementValue (.ofLock lock))
      (update past lock (insert k.current (past lock))) inside := by
  have empty := acc.past_eq_empty pos
  refine ⟨fun o => ?_, acc.holder, ?_⟩
  · by_cases same : o = lock
    · subst same
      have unit := acc.unit o
      rw [empty, Finset.card_empty] at unit
      have last : (k.semaphore (.ofLock o)).value = 1 := unit
      simp [decrementValue, empty, last]
    · simpa [decrementValue, same] using acc.unit o
  · exact (forall_update_iff past fun o past => inside o ⊆ past).mpr
      ⟨(acc.subset lock).trans (Finset.subset_insert _ _), fun o _ => acc.subset o⟩

theorem take (owner : k.current ∈ past lock) (out : k.current ∉ inside lock) :
    Accounted (k.setHolder lock (some k.current)) past
      (update inside lock (insert k.current (inside lock))) := by
  have only := (acc.past_eq_singleton owner).1
  have nobody : inside lock = ∅ := by
    refine Finset.eq_empty_of_forall_notMem fun t mem => out ?_
    have owns := acc.subset lock mem
    rw [only, Finset.mem_singleton] at owns
    exact owns ▸ mem
  refine ⟨acc.unit, fun o t => ?_, ?_⟩
  · by_cases same : o = lock
    · subst same
      simp [setHolder, nobody, eq_comm]
    · simpa [setHolder, same] using acc.holder o t
  · exact (forall_update_iff inside fun o inside => inside ⊆ past o).mpr
      ⟨by simp [nobody, owner], fun o _ => acc.subset o⟩

theorem drop (mem : k.current ∈ inside lock) : Accounted (k.setHolder lock none) past
      (update inside lock ((inside lock).erase k.current)) := by
  have only := (acc.past_eq_singleton (acc.subset lock mem)).1
  have nobody : (inside lock).erase k.current = ∅ := by
    refine Finset.eq_empty_of_forall_notMem fun t remains => ?_
    obtain ⟨o, stays⟩ := Finset.mem_erase.mp remains
    have owns := acc.subset lock stays
    rw [only, Finset.mem_singleton] at owns
    exact o owns
  refine ⟨acc.unit, fun o t => ?_, ?_⟩
  · by_cases same : o = lock
    · subst same
      simp [setHolder, nobody]
    · simpa [setHolder, same] using acc.holder o t
  · exact (forall_update_iff inside fun o inside => inside ⊆ past o).mpr
      ⟨by simp [nobody], fun o _ => acc.subset o⟩

theorem raise (owner : k.current ∈ past lock) (out : k.current ∉ inside lock) :
    Accounted (k.incrementValue (.ofLock lock))
      (update past lock ((past lock).erase k.current)) inside := by
  obtain ⟨only, zero⟩ := acc.past_eq_singleton owner
  refine ⟨fun o => ?_, acc.holder, ?_⟩
  · by_cases same : o = lock
    · subst same
      simp [incrementValue, only, zero]
    · simpa [incrementValue, same] using acc.unit o
  · exact (forall_update_iff past fun o past => inside o ⊆ past).mpr
      ⟨Finset.subset_erase.mpr ⟨acc.subset lock, out⟩, fun o _ => acc.subset o⟩

end Accounted

namespace Owns

variable {past inside : LockId → Finset Tid} {t : Tid} {lock : LockId}

theorem pass (owns : Owns past inside t none none) (outside : t ∉ inside lock) :
    Owns (update past lock (insert t (past lock))) inside t (some lock) none where
  past o := by
    by_cases same : o = lock
    · subst same
      simp
    · simpa [same, Ne.symm same] using owns.past o
  outside o transit := some.inj transit ▸ outside
  releasing o impossible := by cases impossible

theorem take (owns : Owns past inside t (some lock) none) :
    Owns past (update inside lock (insert t (inside lock))) t none none where
  past o := by
    by_cases same : o = lock
    · subst same
      simp [owns.past]
    · simpa [same, Ne.symm same] using owns.past o
  outside o impossible := by cases impossible
  releasing o impossible := by cases impossible

theorem drop (owns : Owns past inside t none (some lock)) :
    Owns past (update inside lock ((inside lock).erase t)) t (some lock) none where
  past o := by
    by_cases same : o = lock
    · subst same
      simp [owns.past, owns.releasing o rfl]
    · simpa [same, Ne.symm same] using owns.past o
  outside o transit := by
    cases transit
    simp
  releasing o impossible := by cases impossible

theorem raise (owns : Owns past inside t (some lock) none) :
    Owns (update past lock ((past lock).erase t)) inside t none none where
  past o := by
    by_cases same : o = lock
    · subst same
      simp [owns.outside o rfl]
    · simpa [same, Ne.symm same] using owns.past o
  outside o impossible := by cases impossible
  releasing o impossible := by cases impossible

end Owns

theorem pastAfter_free {instr : Instr} (free : instr.lockFree) (k : Kernel)
    (past : LockId → Finset Tid) : pastAfter k past instr = past := by
  unfold pastAfter
  split <;> first | rfl | cases free

theorem insideAfter_free {instr : Instr} (free : instr.lockFree) (k : Kernel)
    (inside : LockId → Finset Tid) : insideAfter k inside instr = inside := by
  unfold insideAfter
  split <;> first | rfl | cases free

theorem mem_update_iff {sets : LockId → Finset Tid} {new : Finset Tid} {t : Tid}
    {lock : LockId} (same : t ∈ new ↔ t ∈ sets lock) (o : LockId) :
    t ∈ update sets lock new o ↔ t ∈ sets o := by
  rw [update_apply]
  split
  · rename_i eq
    rw [eq, same]
  · rfl

section Others

variable {k : Kernel} {t : Tid} (other : t ≠ k.current)
  (sets : LockId → Finset Tid) (op : Instr) (lock : LockId)

include other

theorem mem_pastAfter_of_ne : t ∈ pastAfter k sets op lock ↔ t ∈ sets lock := by
  unfold pastAfter
  split
  case h_6 => rfl
  case h_5 => exact mem_update_iff (by simp [other]) lock
  all_goals split
  all_goals first | rfl | exact mem_update_iff (by simp [other]) lock

theorem mem_insideAfter_of_ne : t ∈ insideAfter k sets op lock ↔ t ∈ sets lock := by
  unfold insideAfter
  split
  · exact mem_update_iff (by simp [other]) lock
  · exact mem_update_iff (by simp [other]) lock
  · rfl

end Others

/-- A section of another thread leaves a thread at its place. -/
theorem Placed.other {k : Kernel} {past inside : LockId → Finset Tid} {t : Tid}
    {code : List Instr} (placed : Placed past inside t code) (o : t ≠ k.current)
    (instr : Instr) :
    Placed (pastAfter k past instr) (insideAfter k inside instr) t code := by
  obtain ⟨transit, releasing, stage, owns⟩ := placed
  refine ⟨transit, releasing, stage, ?_, ?_, ?_⟩ <;>
    simp only [mem_pastAfter_of_ne o, mem_insideAfter_of_ne o]
  · exact owns.past
  · exact owns.outside
  · exact owns.releasing

section Section

variable {k s' : Kernel} {rest code : List Instr} {op : Instr}
  {past inside : LockId → Finset Tid}

/-- A section without part in moving units of locks keeps the account and the place. -/
theorem accounted_of_free {front : List Instr} (counted : Accounted k past inside)
    (placed : Placed past inside k.current (op :: rest)) (free : op.lockFree)
    (frees : ∀ op ∈ front, op.lockFree) (same : SameLocks k s') :
    Accounted s' (pastAfter k past op) (insideAfter k inside op) ∧
      Placed (pastAfter k past op) (insideAfter k inside op) k.current (front ++ rest) := by
  obtain ⟨transit, releasing, stage, owns⟩ := placed
  obtain ⟨rfl, later⟩ := stage.of_free free
  rw [pastAfter_free free, insideAfter_free free]
  exact ⟨counted.same same, none, releasing, later.append frees, owns⟩

/-- Every section keeps the account of all locks and the place of its thread. -/
theorem UnitEffect.accounted (eff : UnitEffect k rest op s' code)
    (counted : Accounted k past inside)
    (placed : Placed past inside k.current (op :: rest)) :
    Accounted s' (pastAfter k past op) (insideAfter k inside op) ∧
      Placed (pastAfter k past op) (insideAfter k inside op) k.current code := by
  have ofFree := fun (front : List Instr) (frees : ∀ op ∈ front, op.lockFree)
    (free : op.lockFree) (same : SameLocks k s') =>
      accounted_of_free counted placed free frees same
  obtain ⟨transit, releasing, stage, owns⟩ := placed
  cases eff with
  | free front free frees same =>
    exact ofFree front (fun op mem => Instr.lockFree_of_unitFree (frees op mem))
      (Instr.lockFree_of_unitFree free) same.sameLocks
  | idle same =>
    cases stage with
    | free free => cases free
    | idle => exact ⟨counted.same same.sameLocks, none, none, .idle, owns⟩
    | down down => rcases down with eq | eq <;> cases eq
  | wait sema down zero same =>
    cases sema with
    | sema i =>
      have free : op.lockFree := by rcases down with rfl | rfl <;> rfl
      exact ofFree [_] (by simp [Instr.lockFree]) free same.sameLocks
    | ofLock lock =>
      obtain ⟨rfl, rfl, later, rfl, after⟩ := stage.of_down down
      have nothing : pastAfter k past op = past ∧ insideAfter k inside op = inside := by
        rcases down with rfl | rfl <;> simp [pastAfter, insideAfter, zero]
      rw [nothing.1, nothing.2]
      exact ⟨counted.same same.sameLocks, none, none, .down (.inr rfl) after, owns⟩
  | pass sema down pos =>
    cases sema with
    | sema i =>
      have free : op.lockFree := by rcases down with rfl | rfl <;> rfl
      exact ofFree [] (by simp) free (sameLocks_setSemaphore k i _)
    | ofLock lock =>
      obtain ⟨rfl, rfl, later, rfl, after⟩ := stage.of_down down
      have new : pastAfter k past op = update past lock (insert k.current (past lock)) ∧
          insideAfter k inside op = inside := by
        rcases down with rfl | rfl <;> simp [pastAfter, insideAfter, pos]
      rw [new.1, new.2]
      exact ⟨counted.pass pos, some lock, none, .taking after, owns.pass (counted.outside pos _)⟩
  | tryPass sema pos =>
    cases sema with
    | sema i => exact ofFree [] (by simp) rfl (sameLocks_setSemaphore k i _)
    | ofLock lock =>
      cases stage with
      | free free => cases free
      | down down => rcases down with eq | eq <;> cases eq
  | tryFail sema zero =>
    cases sema with
    | sema i => exact ofFree [] (by simp) rfl (SameUnits.refl k).sameLocks
    | ofLock lock =>
      cases stage with
      | free free => cases free
      | down down => rcases down with eq | eq <;> cases eq
  | raise sema highest same =>
    cases sema with
    | sema i =>
      have raised := sameLocks_setSemaphore k i { k.semaphore (.sema i) with
          value := (k.semaphore (.sema i)).value + 1 }
      exact ofFree [_] (by simp [Instr.lockFree]) rfl
        ⟨same.holder, fun lock => (same.value (.ofLock lock)).trans (raised.value lock)⟩
    | ofLock lock =>
      cases stage with
      | free free => cases free
      | down down => rcases down with eq | eq <;> cases eq
      | raising after =>
        have owner := (owns.past lock).mpr (.inr rfl)
        exact ⟨(counted.raise owner (owns.outside lock rfl)).same same.sameLocks, none, none,
          .free rfl after, owns.raise⟩
  | tryTake lock pos =>
    cases stage with
    | free free => cases free
    | down down => rcases down with eq | eq <;> cases eq
    | trying after =>
      simp only [pastAfter, insideAfter, if_pos pos]
      exact ⟨counted.pass pos, some lock, none, .taking after, owns.pass (counted.outside pos _)⟩
  | tryLeave lock zero =>
    cases stage with
    | free free => cases free
    | down down => rcases down with eq | eq <;> cases eq
    | trying after =>
      simp only [pastAfter, insideAfter, zero, lt_irrefl, if_false]
      exact ⟨counted, none, none, after, owns⟩
  | take lock =>
    cases stage with
    | free free => cases free
    | down down => rcases down with eq | eq <;> cases eq
    | taking after =>
      have owner := (owns.past lock).mpr (.inr rfl)
      exact ⟨counted.take owner (owns.outside lock rfl), none, none, after, owns.take⟩
  | release lock front back frees backFrees holds same =>
    cases stage with
    | free free => cases free
    | down down => rcases down with eq | eq <;> cases eq
    | release after =>
      have mem := (counted.holder lock k.current).mp holds
      have later := after.append fun op mem =>
        Instr.lockFree_of_unitFree (backFrees op mem)
      refine ⟨counted.same same.sameLocks, none, some lock,
        .append (fun op mem => Instr.lockFree_of_unitFree (frees op mem))
          (.dropping later), owns.past, owns.outside, ?_⟩
      rintro o eq
      exact some.inj eq ▸ mem
  | drop lock =>
    cases stage with
    | free free => cases free
    | down down => rcases down with eq | eq <;> cases eq
    | dropping after =>
      exact ⟨counted.drop (owns.releasing lock rfl), some lock, none, .raising after, owns.drop⟩

/-- A thread that has a lock stays its holder while others run, and while it runs sections that have
no part in moving units of locks. -/
theorem UnitEffect.holder_of_holds {t : Tid} {lock : LockId}
    (eff : UnitEffect k rest op s' code) (counted : Accounted k past inside)
    (placed : Placed past inside k.current (op :: rest))
    (holds : k.holder lock = some t) (kept : t ≠ k.current ∨ op.lockFree) :
    s'.holder lock = some t := by
  obtain ⟨accountedAfter, _⟩ := eff.accounted counted placed
  refine (accountedAfter.holder lock t).mpr ?_
  have mem := (counted.holder lock t).mp holds
  rcases kept with o | free
  · exact (mem_insideAfter_of_ne o inside op lock).mpr mem
  · rw [insideAfter_free free]
    exact mem

end Section

/-- The account of all locks, and the place of every thread. -/
structure LockInvariant (watched : Watched) : Prop where
  accounted : Accounted watched.toKernel watched.past watched.inside
  placed : ∀ t, Placed watched.past watched.inside t (watched.code t)

theorem lockInvariant_boot (values : Nat → Nat) : LockInvariant (watchedBoot values) := by
  refine ⟨⟨fun _ => rfl, by simp [watchedBoot, boot], fun _ => subset_rfl⟩, fun t => ?_⟩
  refine ⟨none, none, ?_, by simp [watchedBoot], by simp, by simp⟩
  change Stage (if t = 0 then [.idleBlock] else []) none none
  split
  · exact .idle
  · exact .nil

theorem LockInvariant.load {watched : Watched} {k : Kernel} {loaded : List Instr}
    (inv : LockInvariant watched) (same : SameLocks watched.toKernel k)
    (mid : watched.code watched.current = []) (stage : Stage loaded none none) : LockInvariant
      { k with
        code := update watched.code watched.current loaded
        past := watched.past
        inside := watched.inside } := by
  obtain ⟨transit, releasing, resting, owns⟩ := inv.placed watched.current
  rw [mid] at resting
  cases resting
  exact ⟨inv.accounted.same same, (forall_update_iff watched.code (Placed _ _)).mpr
    ⟨⟨none, none, stage, owns⟩, fun t _ => inv.placed t⟩⟩

theorem LockInvariant.watch {s s' : Watched} {e : Event}
    (inv : LockInvariant s) (ran : Threads.watch s e = some s') :
    LockInvariant s' := by
  obtain ⟨m, steps, recorded⟩ := map_eq_some_iff.mp ran
  cases e with
  | start op =>
    obtain ⟨empty, rfl⟩ := code_of_start steps
    obtain rfl := recorded
    exact inv.load (SameUnits.refl _).sameLocks empty (stage_sections op)
  | run =>
    obtain ⟨instr, rest, k, left, code, eff, rfl⟩ := execute_of_run steps
    simp only [code] at recorded
    obtain rfl := recorded
    have placed := inv.placed s.current
    rw [code] at placed
    obtain ⟨counted, moved⟩ := (unitEffect_of_execute eff).accounted inv.accounted placed
    exact ⟨counted, (forall_update_iff s.code (Placed _ _)).mpr
      ⟨moved, fun t ne => (inv.placed t).other ne instr⟩⟩
  | timer =>
    obtain ⟨k, yields, rfl⟩ := threadYield_of_timer steps
    obtain rfl := recorded
    exact ⟨inv.accounted.same (SameUnits.threadYield yields).sameLocks, inv.placed⟩

theorem LockInvariant.exclusive {watched : Watched} (inv : LockInvariant watched)
    (lock : LockId) : Exclusive watched lock where
  atMostOne := by
    have subset := Finset.card_le_card (inv.accounted.subset lock)
    have unit := inv.accounted.unit lock
    omega
  holder t mem := (inv.accounted.holder lock t).mpr mem
  unit := inv.accounted.unit lock

/-- In every state of every run, at most one thread has a given lock, that thread is its holder,
and the value of its semaphore with the threads past `sema_down` and not yet past `sema_up` is
one. -/
theorem locks_exclude (values : Nat → Nat) (events : List Event) :
    Execution.Along watch (fun watched => ∀ lock, Exclusive watched lock) (watchedBoot values)
      events :=
  Execution.along_of_invariant (lockInvariant_boot values) (fun inv ran => inv.watch ran)
    (fun inv lock => inv.exclusive lock) events

end Pintos.Threads
