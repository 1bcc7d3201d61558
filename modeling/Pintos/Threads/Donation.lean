import Pintos.Threads.Asleep
import Pintos.Threads.Donors
import Pintos.Threads.Effects

/-!
# Exact priority donation

A run in which each effective priority is the greatest of the native priority and the priorities of
the threads blocked in `lock_acquire` on a lock the thread holds.  The source keeps this only under
conditions on the donor arrays, which `DonationFits` states for each step.  States in which some
thread is inside the bookkeeping of an operation are not judged.
-/

namespace Pintos.Threads

open Function Option Kernel

/-- The lock that a semaphore belongs to. -/
def lockOf : Option SemaRef → Option LockId
  | some (.ofLock lock) => some lock
  | _ => none

/-- The lock in whose `lock_acquire` a thread is blocked. -/
def waitedLock (kernel : Kernel) (code : Tid → List Instr) (thread : Tid) : Option LockId :=
  lockOf (asleep kernel code thread)

def Machine.waitedLock (machine : Machine) : Tid → Option LockId :=
  Threads.waitedLock machine.toKernel machine.code

/-- The code does not continue inside the bookkeeping of `lock_acquire`, `lock_try_acquire`,
`lock_release` or `thread_set_priority`. -/
def settled : List Instr → Bool
  | .acquireDonate _ _ :: _ => false
  | .updateActivePriority _ _ :: _ => false
  | .semaDown (.ofLock _) :: _ => false
  | .takeLock _ :: _ => false
  | .dropLock _ :: _ => false
  | .semaUp (.ofLock _) :: _ => false
  | _ => true

/-- When no thread is inside the bookkeeping of an operation, every effective priority is the
greatest of the native priority and the priorities of the threads blocked in `lock_acquire` on a
lock the thread holds. -/
def DonationExact (machine : Machine) : Prop :=
  (∀ t < machine.threads, settled (machine.code t)) →
    ∀ t, IsGreatest (Donations.due machine.toKernel machine.waitedLock t) (machine.priority t)

namespace Machine

variable (m : Machine)

/-- A holder whose donor array is full is at least as urgent as the thread that wants the lock. -/
def FullArrayFits (lock : LockId) : Prop :=
  ∀ holder ∈ m.holder lock, priDepth ≤ (m.thread holder).donors.length →
    m.priority m.current ≤ m.priority holder

/-- A recomputed priority does not rise above that of the holder of a lock for which the thread
waits without being a donor. -/
def RiseFits (t : Tid) : Prop :=
  ∀ lock ∈ m.waitedLock t, ∀ holder ∈ m.holder lock, ⟨lock, t⟩ ∈ (m.thread holder).donors ∨
      m.activePriority t ≤ m.priority holder

/-- A recomputed priority does not fall below that of a thread that waits for a lock of the thread
without being a donor, unless the thread is about to release that lock. -/
def FallFits (t : Tid) (rest : List Instr) : Prop :=
  ∀ w < m.threads, ∀ lock ∈ m.waitedLock w,
    m.holder lock = some t ∧ rest.head? ≠ some (.dropLock lock) → ⟨lock, w⟩ ∈ (m.thread t).donors ∨
        m.priority w ≤ m.activePriority t

/-- The thread that takes a lock is at least as urgent as every thread still waiting for it. -/
def TakerFits (lock : LockId) : Prop :=
  ∀ w < m.threads, m.waitedLock w = some lock → m.priority w ≤ m.priority m.current

/-- A woken thread that finds its lock taken again is not more urgent than the new holder. -/
def RetestFits (lock : LockId) : Prop :=
  (m.semaphore (.ofLock lock)).value = 0 → ∀ holder ∈ m.holder lock,
    m.priority m.current ≤ m.priority holder

end Machine

/-- The condition on the state before each step under which donation stays exact.  The timer
interrupts no bookkeeping. -/
def DonationFits (machine : Machine) : Event → Prop
  | .start _ => True
  | .timer => settled (machine.code machine.current)
  | .run =>
    match machine.code machine.current with
    | .acquireTest lock :: _ => machine.FullArrayFits lock
    | .updateActivePriority t _ :: rest =>
      machine.RiseFits t ∧ machine.FallFits t rest
    | .takeLock lock :: _ => machine.TakerFits lock
    | .semaDownTest (.ofLock lock) :: _ => machine.RetestFits lock
    | .releaseDonors lock :: _ => Donations.Returnable machine.toKernel lock
    | _ => True

section Decidable

variable (m : Machine)

instance (lock : LockId) : Decidable (m.FullArrayFits lock) := by
  unfold Machine.FullArrayFits
  infer_instance

instance (t : Tid) : Decidable (m.RiseFits t) := by
  unfold Machine.RiseFits
  infer_instance

instance (t : Tid) (rest : List Instr) : Decidable (m.FallFits t rest) := by
  unfold Machine.FallFits
  infer_instance

instance (lock : LockId) : Decidable (m.TakerFits lock) := by
  unfold Machine.TakerFits
  infer_instance

instance (lock : LockId) : Decidable (m.RetestFits lock) := by
  unfold Machine.RetestFits
  infer_instance

instance (k : Kernel) (lock : LockId) : Decidable (Donations.Returnable k lock) := by
  unfold Donations.Returnable
  infer_instance

instance (e : Event) : Decidable (DonationFits m e) := by
  unfold DonationFits
  split
  · infer_instance
  · infer_instance
  · split <;> infer_instance

end Decidable

/-! ## Who waits for which lock -/

section WaitedLock

variable {k s' : Kernel} {code : Tid → List Instr}

theorem waitedLock_of_asleep {s : Tid → Option SemaRef} {t : Tid} {sema : Option SemaRef}
    (new : asleep s' code = update s t sema) : waitedLock s' code =
      update (fun o => lockOf (s o)) t (lockOf sema) := by
  funext o
  unfold waitedLock
  rw [new]
  by_cases same : o = t
  · simp [same]
  · simp [same]

theorem waitedLock_congr {fst : Tid → List Instr} (same : asleep s' code = asleep k fst) :
    waitedLock s' code = waitedLock k fst := by
  unfold waitedLock
  rw [same]

end WaitedLock

/-- At most one unit per lock, none while it is held, and holders that exist. -/
structure LockUnits (k : Kernel) : Prop where
  held : ∀ lock t, k.holder lock = some t → (k.semaphore (.ofLock lock)).value = 0
  atMostOne : ∀ lock, (k.semaphore (.ofLock lock)).value ≤ 1
  born : ∀ lock t, k.holder lock = some t → t < k.threads

/-- A section outside the bookkeeping, whatever follows it. -/
def Instr.plain : Instr → Bool
  | .semaDown (.sema _) => true
  | .semaDownTest (.sema _) => true
  | .semaTryDown (.sema _) => true
  | .semaUp (.sema _) => true
  | .yieldUnlessAbove _ => true
  | .threadYield => true
  | .recallDonation => true
  | .tryAcquire _ => true
  | .releaseDonors _ => true
  | .createThread _ => true
  | .yieldIfBelow _ => true
  | .setNativePriority _ => true
  | .yieldIfBehind _ => true
  | .idleBlock => true
  | _ => false

/-- Code that continues outside the bookkeeping of every operation. -/
inductive Calm : List Instr → Prop
  | nil : Calm []
  | plain {instr rest} (plain : instr.plain) (calm : Calm rest) : Calm (instr :: rest)
  | acquire {lock rest} (calm : Calm rest) :
      Calm (.acquireTest lock :: .semaDown (.ofLock lock) :: .takeLock lock :: rest)
  | retest {lock rest} (calm : Calm rest) :
      Calm (.semaDownTest (.ofLock lock) :: .takeLock lock :: rest)

theorem calm_sections (op : Op) : Calm op.sections := by
  cases op with
  | lockAcquire lock => exact .acquire (.plain rfl .nil)
  | threadCreate prio => exact .acquire (.plain rfl (.plain rfl (.plain rfl .nil)))
  | threadSetPriority prio stray => exact .plain rfl (.plain rfl .nil)
  | _ => exact .plain rfl .nil

/-- Where the running thread is, and what holds there. -/
inductive Phase (k : Kernel) (waited : Tid → Option LockId) : List Instr → Prop
  | calm {code} (calm : Calm code) (donations : Donations k waited none) : Phase k waited code
  /-- `lock_acquire` is about to register a donation. -/
  | donating {lock target rest} (calm : Calm rest) (donations : Donations k waited none)
      (holds : k.holder lock = some target) (other : k.current ≠ target) :
      Phase k waited
        (.acquireDonate lock target :: .semaDown (.ofLock lock) :: .takeLock lock :: rest)
  /-- `lock_acquire` passes its donation on. -/
  | joining {lock target t masked rest} (calm : Calm rest) (holds : k.holder lock = some target)
      (member : ⟨lock, k.current⟩ ∈ (k.thread target).donors)
      (donations : Donations k (update waited k.current (some lock)) (some t)) :
      Phase k waited (.updateActivePriority t masked :: .semaDown (.ofLock lock) ::
        .takeLock lock :: rest)
  /-- `lock_acquire` is about to wait. -/
  | entering {lock rest} (calm : Calm rest)
      (donations : Donations k (update waited k.current (some lock)) none) :
      Phase k waited (.semaDown (.ofLock lock) :: .takeLock lock :: rest)
  /-- The unit of the lock is taken, its holder not yet assigned. -/
  | taking {lock rest} (calm : Calm rest) (free : k.holder lock = none)
      (zero : (k.semaphore (.ofLock lock)).value = 0)
      (donations : Donations k waited none) :
      Phase k waited (.takeLock lock :: rest)
  /-- `thread_set_priority` updates effective priorities. -/
  | updating {t masked rest} (calm : Calm rest) (donations : Donations k waited (some t)) :
      Phase k waited (.updateActivePriority t masked :: rest)
  /-- `lock_release` updates effective priorities. -/
  | returning {lock t masked rest} (calm : Calm rest) (holds : k.holder lock = some k.current)
      (donations : Donations k (Donations.withoutLock waited lock) (some t)) :
      Phase k waited (.updateActivePriority t masked :: .dropLock lock ::
        .semaUp (.ofLock lock) :: rest)
  /-- `lock_release` has returned the donations. -/
  | dropping {lock rest} (calm : Calm rest) (holds : k.holder lock = some k.current)
      (donations : Donations k (Donations.withoutLock waited lock) none) :
      Phase k waited (.dropLock lock :: .semaUp (.ofLock lock) :: rest)
  /-- `lock_release` is about to wake a waiter. -/
  | raising {lock rest} (calm : Calm rest) (free : k.holder lock = none)
      (zero : (k.semaphore (.ofLock lock)).value = 0)
      (donations : Donations k waited none) :
      Phase k waited (.semaUp (.ofLock lock) :: rest)

theorem Phase.calm_of_settled {k : Kernel} {waited : Tid → Option LockId} {code : List Instr}
    (phase : Phase k waited code) (out : settled code) :
    Calm code ∧ Donations k waited none := by
  cases phase with
  | calm calm given => exact ⟨calm, given⟩
  | _ => cases out

/-- What the run so far has established about locks and donations. -/
structure DonationState (k : Kernel) (code : Tid → List Instr) : Prop where
  locks : LockUnits k
  others : ∀ t, t ≠ k.current → Calm (code t)
  phase : Phase k (waitedLock k code) (code k.current)

theorem DonationState.ofCalm {k : Kernel} {code : Tid → List Instr} (locks : LockUnits k)
    (calm : ∀ t, Calm (code t))
    (given : Donations k (waitedLock k code) none) : DonationState k code :=
  ⟨locks, fun t _ => calm t, .calm (calm k.current) given⟩

namespace LockUnits

variable {k s' : Kernel} {lock : LockId} (locks : LockUnits k)
include locks

theorem congr (same : SameLocks k s') (threads : k.threads ≤ s'.threads) : LockUnits s' where
  held lock t holds := by
    rw [same.holder] at holds
    rw [same.value]
    exact locks.held lock t holds
  atMostOne lock := by
    rw [same.value]
    exact locks.atMostOne lock
  born lock t holds := by
    rw [same.holder] at holds
    exact (locks.born lock t holds).trans_le threads

theorem threadYield (yields : k.threadYield = some s') : LockUnits s' := by
  obtain ⟨next, moved⟩ := switched_of_schedule yields
  exact locks.congr (SameUnits.threadYield yields).sameLocks
    (moved.threads.trans (madeReady_queueCurrent k).threads).ge

theorem threadBlock (blocks : k.threadBlock = some s') : LockUnits s' := by
  obtain ⟨next, moved⟩ := switched_of_schedule blocks
  exact locks.congr (SameUnits.threadBlock blocks).sameLocks moved.threads.ge

theorem decrement (lock : LockId) : LockUnits (k.decrementValue (.ofLock lock)) := by
  have value : ∀ o, ((k.decrementValue (.ofLock lock)).semaphore (.ofLock o)).value ≤
      (k.semaphore (.ofLock o)).value := by
    intro o
    by_cases same : o = lock
    · simp [decrementValue, same]
    · simp [decrementValue, same]
  refine ⟨?_, ?_, locks.born⟩
  · intro o t holds
    have := value o
    have := locks.held o t holds
    omega
  · intro o
    exact (value o).trans (locks.atMostOne o)

/-- A lock with a unit has no holder, and its unit is its last. -/
theorem take_unit (pos : 0 < (k.semaphore (.ofLock lock)).value) : k.holder lock = none ∧
      ((k.decrementValue (.ofLock lock)).semaphore (.ofLock lock)).value = 0 := by
  constructor
  · cases holds : k.holder lock with
    | none => rfl
    | some t =>
      have := locks.held lock t holds
      omega
  · have := locks.atMostOne lock
    simp only [decrementValue, setSemaphore_semaphore, update_self]
    omega

theorem increment (free : k.holder lock = none) (zero : (k.semaphore (.ofLock lock)).value = 0) :
    LockUnits (k.incrementValue (.ofLock lock)) := by
  refine ⟨?_, ?_, locks.born⟩
  · intro o t holds
    have ne : o ≠ lock := by
      rintro rfl
      change k.holder o = some t at holds
      rw [free] at holds
      cases holds
    simpa [incrementValue, ne] using locks.held o t holds
  · intro o
    by_cases same : o = lock
    · simp [incrementValue, same, zero]
    · simpa [incrementValue, same] using locks.atMostOne o

theorem takeLock (zero : (k.semaphore (.ofLock lock)).value = 0) (born : k.current < k.threads) :
    LockUnits (k.setHolder lock (some k.current)) := by
  refine ⟨?_, locks.atMostOne, ?_⟩
  · intro o t holds
    rcases update_some_cases holds with ⟨rfl, _⟩ | ⟨_, holds⟩
    · exact zero
    · exact locks.held o t holds
  · intro o t holds
    rcases update_some_cases holds with ⟨_, rfl⟩ | ⟨_, holds⟩
    · exact born
    · exact locks.born o t holds

theorem dropLock (lock : LockId) : LockUnits (k.setHolder lock none) := by
  have kept : ∀ {o t}, (k.setHolder lock none).holder o = some t → k.holder o = some t := by
    intro o t holds
    change update k.holder lock none o = some t at holds
    by_cases same : o = lock
    · subst same
      rw [update_self] at holds
      cases holds
    · rwa [update_of_ne same] at holds
  exact ⟨fun o t holds => locks.held o t (kept holds), locks.atMostOne,
    fun o t holds => locks.born o t (kept holds)⟩

end LockUnits

/-! ## Steps of the machine -/

section Steps

variable {k s' : Kernel} {code : Tid → List Instr}

theorem calm_update {cur : Tid} {left : List Instr}
    (others : ∀ t, t ≠ cur → Calm (code t)) (calm : Calm left) :
    ∀ t, Calm (update code cur left t) :=
  (forall_update_iff code fun _ => Calm).mpr ⟨calm, others⟩

/-- A switch by `thread_yield` when every thread is outside the bookkeeping. -/
theorem DonationState.yield (ready : ReadyInvariant k)
    (idle : waitsOf (code k.idleThread) = none) (locks : LockUnits k)
    (calm : ∀ t, Calm (code t)) (given : Donations k (waitedLock k code) none)
    (yields : k.threadYield = some s') : DonationState s' code := by
  refine .ofCalm (locks.threadYield yields) calm ?_
  rw [waitedLock_congr (MachineInvariant.asleep_threadYield ready idle yields)]
  exact given.congr (.ofThreadYield yields)

theorem DonationState.block {left : List Instr} (ready : ReadyInvariant k)
    (idle : waitsOf (update code k.current left k.idleThread) = none)
    (locks : LockUnits k) (others : ∀ t, t ≠ k.current → Calm (code t))
    (calm : Calm left)
    (given : Donations k (update (waitedLock k code) k.current (lockOf (waitsOf left))) none)
    (blocks : k.threadBlock = some s') :
    DonationState s' (update code k.current left) := by
  refine .ofCalm (locks.threadBlock blocks) (calm_update others calm) ?_
  rw [waitedLock_of_asleep (MachineInvariant.asleep_threadBlock ready idle blocks)]
  exact given.congr (.ofThreadBlock blocks)

end Steps

namespace DonationState

variable {s : Machine} {s' : Kernel} {left rest : List Instr} {lock : LockId} {t : Tid}
  {masked : Bool}

section

variable (base : MachineInvariant s)
include base

theorem waited_current : s.waitedLock s.current = none := by
  change lockOf (s.asleep s.current) = none
  rw [base.asleep_current]
  rfl

theorem born_of_waited (waits : s.waitedLock t = some lock) : t < s.threads := by
  by_contra unborn
  have empty := base.unbornCode t (Nat.not_lt.mp unborn)
  change lockOf (asleep s.toKernel s.code t) = some lock at waits
  unfold asleep at waits
  rw [empty] at waits
  change lockOf (if _ then none else none) = some lock at waits
  rw [ite_self] at waits
  cases waits

end

section

variable (state : DonationState s.toKernel s.code) (base : MachineInvariant s)
include state base

theorem stay (status : s'.status = s.status) (cur : s'.current = s.current)
    (locks : LockUnits s') (phase : Phase s' s.waitedLock left) :
    DonationState s' (update s.code s.current left) := by
  have waited : waitedLock s' (update s.code s.current left) = s.waitedLock :=
    waitedLock_congr ((asleep_congr status).trans (asleep_moveCode base.awake left))
  refine ⟨locks, ?_, ?_⟩
  · intro t ne
    rw [cur] at ne
    rw [update_of_ne ne]
    exact state.others t ne
  · rw [waited, cur, update_self]
    exact phase

theorem yieldCalm (calm : Calm left)
    (idle : waitsOf (update s.code s.current left s.idleThread) = none)
    (given : Donations s.toKernel s.waitedLock none)
    (yields : s.toKernel.threadYield = some s') :
    DonationState s' (update s.code s.current left) := by
  have moved : waitedLock s.toKernel (update s.code s.current left) =
      s.waitedLock := waitedLock_congr (asleep_moveCode base.awake left)
  refine .yield base.ready idle state.locks (calm_update state.others calm) ?_ yields
  rw [moved]
  exact given

theorem acquireTest (calm : Calm rest) (given : Donations s.toKernel s.waitedLock none)
    (fits : s.FullArrayFits lock)
    (eff : execute s.toKernel (.semaDown (.ofLock lock) :: .takeLock lock :: rest)
      (.acquireTest lock) = some (s', left)) :
    DonationState s' (update s.code s.current left) := by
  simp only [execute] at eff
  split at eff
  · cases eff
  · rename_i not_held
    split at eff
    · rename_i no_target
      cases eff
      refine state.stay base rfl rfl state.locks (.entering calm ?_)
      refine given.enter (waited_current base) ?_
      intro holder holds
      unfold donationTarget at no_target
      rw [holds] at no_target
      simp only at no_target
      split at no_target
      · cases no_target
      · rename_i refused
        by_cases below : (s.thread holder).nativePriority < s.priority s.current
        · exact fits holder holds (Nat.not_lt.mp fun room => refused ⟨below, room⟩)
        · have own := (isGreatest_activePriority (given.native holder)).2 (.inl rfl)
          rw [← given.exact holder (by simp)] at own
          exact (not_lt.mp below).trans own
    · rename_i target found
      cases eff
      unfold donationTarget at found
      split at found
      · cases found
      · rename_i holder holds
        split at found
        · cases found
          refine state.stay base rfl rfl state.locks (.donating calm given holds ?_)
          intro same
          exact not_held (by rw [holds, same])
        · cases found

theorem acquireDonate {target : Tid} (calm : Calm rest)
    (given : Donations s.toKernel s.waitedLock none)
    (holds : s.holder lock = some target) (o : s.current ≠ target)
    (eff : execute s.toKernel (.semaDown (.ofLock lock) :: .takeLock lock :: rest)
      (.acquireDonate lock target) = some (s', left)) :
    DonationState s' (update s.code s.current left) := by
  obtain ⟨known, adds, eq⟩ := map_eq_some_iff.mp eff
  obtain ⟨rfl, rfl⟩ := Prod.mk.inj eq
  obtain ⟨joined, mem⟩ := given.register (waited_current base) holds o adds
  have quiet := Quiet.registerDonor s.toKernel adds
  have same := SameUnits.registerDonor adds
  refine state.stay base quiet.status quiet.current ?_ ?_
  · exact state.locks.congr same.sameLocks quiet.threads.ge
  · rw [← quiet.current] at mem joined
    exact .joining calm (by rw [same.holder]; exact holds) mem joined

/-- `updateActivePriority` assigns one priority and goes on with the donee. -/
theorem assigned {waited : Tid → Option LockId}
    (updated : Donations (s.assignActivePriority t) waited
      ((s.thread t).donees.map PriorityLock.thread))
    (last : Donations (s.assignActivePriority t) waited none →
      Phase (s.assignActivePriority t) s.waitedLock rest)
    (next : ∀ {donee}, Donations (s.assignActivePriority t) waited (some donee) →
      Phase (s.assignActivePriority t) s.waitedLock (.updateActivePriority donee masked :: rest))
    (eff : execute s.toKernel rest (.updateActivePriority t masked) = some (s', left)) :
    DonationState s' (update s.code s.current left) := by
  have status : (s.assignActivePriority t).status = s.status :=
    setThread_status_of_eq s.toKernel t _ rfl
  have locks : LockUnits (s.assignActivePriority t) := state.locks.congr ⟨rfl, fun _ => rfl⟩ le_rfl
  simp only [execute] at eff
  split at eff
  · rename_i none_left
    cases eff
    rw [none_left] at updated
    exact state.stay base status rfl locks (last updated)
  · rename_i donee found
    cases eff
    rw [found] at updated
    exact state.stay base status rfl locks (next updated)

/-- `updateActivePriority` in the course of `thread_set_priority`. -/
theorem updateActivePriority (calm : Calm rest) (given : Donations s.toKernel s.waitedLock (some t))
    (rise : s.RiseFits t) (fall : s.FallFits t rest)
    (out : ∀ lock, rest.head? ≠ some (.dropLock lock))
    (eff : execute s.toKernel rest (.updateActivePriority t masked) =
      some (s', left)) : DonationState s' (update s.code s.current left) := by
  have updated := given.update (fun lock holder waits holds => rise lock waits holder holds)
    fun w lock waits holds =>
      fall w (born_of_waited base waits) lock waits ⟨holds, out lock⟩
  exact state.assigned base updated (.calm calm) (.updating calm) eff

theorem updateJoining {target : Tid} (calm : Calm rest) (holds : s.holder lock = some target)
    (mem : ⟨lock, s.current⟩ ∈ (s.thread target).donors)
    (given : Donations s.toKernel (update s.waitedLock s.current (some lock)) (some t))
    (rise : s.RiseFits t)
    (fall : s.FallFits t (.semaDown (.ofLock lock) :: .takeLock lock :: rest))
    (eff : execute s.toKernel (.semaDown (.ofLock lock) :: .takeLock lock :: rest)
      (.updateActivePriority t masked) = some (s', left)) :
    DonationState s' (update s.code s.current left) := by
  have donors : ((s.assignActivePriority t).thread target).donors = (s.thread target).donors :=
    setThread_field s.toKernel t _ Thread.donors (by rfl) target
  -- The running thread counts as waiting, and it is a donor of the holder it waits for.
  have known : ∀ {queue holder}, update s.waitedLock s.current (some lock) s.current = some queue →
      s.holder queue = some holder →
      ⟨queue, s.current⟩ ∈ (s.thread holder).donors := by
    intro queue holder waits held
    rw [update_self] at waits
    cases waits
    obtain rfl : target = holder := some.inj (holds.symm.trans held)
    exact mem
  have updated := given.update (by
      intro queue holder waits held
      by_cases cur : t = s.current
      · subst cur
        exact .inl (known waits held)
      · rw [update_of_ne cur] at waits
        exact rise queue waits holder held)
    (by
      intro w queue waits held
      by_cases cur : w = s.current
      · subst cur
        exact .inl (known waits held)
      · rw [update_of_ne cur] at waits
        exact fall w (born_of_waited base waits) queue waits ⟨held, by simp⟩)
  exact state.assigned base updated (.entering calm)
    (.joining calm holds (by rw [donors]; exact mem)) eff

theorem updateReturning (calm : Calm rest) (holds : s.holder lock = some s.current)
    (given : Donations s.toKernel (Donations.withoutLock s.waitedLock lock) (some t))
    (rise : s.RiseFits t)
    (fall : s.FallFits t (.dropLock lock :: .semaUp (.ofLock lock) :: rest))
    (eff : execute s.toKernel (.dropLock lock :: .semaUp (.ofLock lock) :: rest)
      (.updateActivePriority t masked) = some (s', left)) :
    DonationState s' (update s.code s.current left) := by
  have updated := given.update (by
      intro queue holder waits held
      exact rise queue (Donations.withoutLock_eq_some.mp waits).1 holder held)
    (by
      intro w queue waits held
      obtain ⟨waits, ne⟩ := Donations.withoutLock_eq_some.mp waits
      refine fall w (born_of_waited base waits) queue waits ⟨held, ?_⟩
      simpa using ne.symm)
  exact state.assigned base updated (.dropping calm holds) (.returning calm holds) eff

theorem takeUnit (calm : Calm rest) (given : Donations s.toKernel s.waitedLock none)
    (pos : 0 < (s.semaphore (.ofLock lock)).value) :
    DonationState (s.decrementValue (.ofLock lock))
      (update s.code s.current (.takeLock lock :: rest)) := by
  obtain ⟨free, zero⟩ := state.locks.take_unit pos
  refine state.stay base rfl rfl (state.locks.decrement lock) ?_
  exact .taking calm free zero (given.congr ⟨fun _ => rfl, rfl, fun _ => rfl, fun _ => rfl, rfl⟩)

theorem wait {sema : SemaRef} (calm : Calm left)
    (idle : waitsOf (update s.code s.current left s.idleThread) = none)
    (given : Donations s.toKernel (update s.waitedLock s.current (lockOf (waitsOf left))) none)
    (blocks : (s.pushWaiter sema).threadBlock = some s') :
    DonationState s' (update s.code s.current left) := by
  have same : SameDonations s.toKernel (s.pushWaiter sema) :=
    ⟨fun _ => rfl, rfl, fun _ => rfl, fun _ => rfl, rfl⟩
  have locks := state.locks.congr (SameUnits.pushWaiter s.toKernel sema).sameLocks le_rfl
  have final := DonationState.block (base.ready.pushWaiter sema) idle locks state.others calm
    (given.congr same) blocks
  exact final

theorem enterLock (calm : Calm rest) (given : Donations s.toKernel
      (update s.waitedLock s.current (some lock)) none)
    (idle : waitsOf (update s.code s.current left s.idleThread) = none)
    (eff : execute s.toKernel (.takeLock lock :: rest) (.semaDown (.ofLock lock)) =
      some (s', left)) : DonationState s' (update s.code s.current left) := by
  simp only [execute] at eff
  split at eff
  · rename_i pos
    cases eff
    have free := (state.locks.take_unit pos).1
    have left_lock : Donations s.toKernel (update
        (update s.waitedLock s.current (some lock)) s.current none) none := by
      refine given.leave ?_
      intro queue waits
      rw [update_self] at waits
      rw [← some.inj waits]
      exact free
    rw [update_idem, update_eq_self_iff.mpr (waited_current base).symm] at left_lock
    exact state.takeUnit base calm left_lock pos
  · obtain ⟨blocked, blocks, eq⟩ := map_eq_some_iff.mp eff
    cases eq
    exact state.wait base (.retest calm) idle given blocks

theorem retestLock (calm : Calm rest)
    (given : Donations s.toKernel s.waitedLock none) (fits : s.RetestFits lock)
    (idle : waitsOf (update s.code s.current left s.idleThread) = none)
    (eff : execute s.toKernel (.takeLock lock :: rest) (.semaDownTest (.ofLock lock)) =
      some (s', left)) : DonationState s' (update s.code s.current left) := by
  simp only [execute] at eff
  split at eff
  · rename_i pos
    cases eff
    exact state.takeUnit base calm given pos
  · rename_i zero
    obtain ⟨blocked, blocks, eq⟩ := map_eq_some_iff.mp eff
    cases eq
    refine DonationState.block base.ready idle state.locks state.others (.retest calm) ?_ blocks
    exact given.enter (waited_current base) fun holder holds =>
      fits (Nat.eq_zero_of_not_pos zero) holder holds

theorem releaseDonors (calm : Calm rest) (given : Donations s.toKernel s.waitedLock none)
    (returnable : Donations.Returnable s.toKernel lock)
    (eff : execute s.toKernel rest (.releaseDonors lock) = some (s', left)) :
    DonationState s' (update s.code s.current left) := by
  simp only [execute] at eff
  split at eff
  · rename_i holds
    have freed := given.release holds returnable
    have quiet := Quiet.releaseDonors s.toKernel lock
    have same := SameUnits.releaseDonors s.toKernel lock
    have locks := state.locks.congr same.sameLocks quiet.threads.ge
    have still : (s.releaseDonors lock).2.holder lock = some (s.releaseDonors lock).2.current := by
      rw [same.holder, quiet.current]
      exact holds
    cases flag : (s.releaseDonors lock).1 with
    | true =>
      rw [flag, if_pos rfl] at freed
      simp only [flag, if_true] at eff
      cases eff
      exact state.stay base quiet.status quiet.current locks
        (.returning (.plain rfl calm) still freed)
    | false =>
      rw [flag] at freed
      simp only [flag, Bool.false_eq_true, if_false] at eff
      cases eff
      exact state.stay base quiet.status quiet.current locks (.dropping calm still freed)
  · cases eff

/-- `sema_up` wakes a thread that waits for no lock, or for one without holder. -/
theorem wake {sema : SemaRef} {highest : Int} (waiters : WaitersInvariant s) (calm : Calm rest)
    (free : ∀ lock, sema = .ofLock lock → s.holder lock = none ∧
      (s.semaphore (.ofLock lock)).value = 0)
    (given : Donations s.toKernel s.waitedLock none)
    (wakes : s.toKernel.semaUp sema = some (highest, s')) : DonationState s'
      (update s.code s.current (.yieldUnlessAbove highest :: rest)) := by
  have raised : LockUnits (s.incrementValue sema) := by
    cases sema with
    | sema i => exact state.locks.congr (sameLocks_setSemaphore _ i _) le_rfl
    | ofLock lock => exact state.locks.increment (free lock rfl).1 (free lock rfl).2
  have units := (SameUnits.semaUp wakes).sameLocks
  have same := SameDonations.ofSemaUp wakes
  have quiet : Calm (.yieldUnlessAbove highest :: rest) := .plain rfl calm
  have moved : asleep s.toKernel (update s.code s.current (.yieldUnlessAbove highest :: rest)) =
        s.asleep := asleep_moveCode base.awake _
  rcases semaUp_cases wakes with ⟨_, rfl⟩ | ⟨w, unblocked, mem, _, woken, rfl⟩
  · exact state.stay base rfl rfl raised (.calm quiet (given.congr same))
  · obtain ⟨_, made⟩ := madeReady_of_threadUnblock woken
    refine .ofCalm (raised.congr units made.threads.ge) (calm_update state.others quiet) ?_
    have woke : asleep (unblocked.incrementValue sema)
        (update s.code s.current (.yieldUnlessAbove highest :: rest)) = update s.asleep w none := by
      have woken_only : asleep unblocked
          (update s.code s.current (.yieldUnlessAbove highest :: rest)) =
            update (asleep (s.removeWaiter sema w) _) w none :=
        asleep_madeReady made
      rw [← moved]
      exact woken_only
    rw [waitedLock_of_asleep woke]
    refine Donations.congr (given.leave ?_) same
    intro lock waits
    change lockOf (s.asleep w) = some lock at waits
    rw [waiters.asleep sema w mem] at waits
    cases sema with
    | sema i => cases waits
    | ofLock queue =>
      rw [← some.inj waits]
      exact (free queue rfl).1

theorem createThread {prio : Int} (calm : Calm rest)
    (given : Donations s.toKernel s.waitedLock none)
    (makes : s.toKernel.createThread prio = some s') : DonationState s'
      (update s.code s.current (.yieldIfBelow s.threads :: rest)) := by
  obtain ⟨asleep, _⟩ := base.createThread (.yieldIfBelow s.threads :: rest) makes
  have unborn : s.waitedLock s.threads = none := by
    cases waits : s.waitedLock s.threads with
    | none => rfl
    | some lock => exact (Nat.lt_irrefl _ (born_of_waited base waits)).elim
  have holders : ∀ lock, s.holder lock ≠ some s.threads := by
    intro lock holds
    exact Nat.lt_irrefl _ (state.locks.born lock _ holds)
  have out : Outcome s.toKernel rest (.createThread prio) s' [] := .create prio makes
  refine .ofCalm ?_ (calm_update state.others (.plain rfl calm)) ?_
  · exact state.locks.congr (SameUnits.createThread makes).sameLocks out.threads_le
  · rw [waitedLock_congr asleep]
    exact given.createThread unborn holders makes

theorem plain {instr : Instr} (waiters : WaitersInvariant s)
    (plain : instr.plain) (calm : Calm rest)
    (given : Donations s.toKernel s.waitedLock none)
    (returnable : ∀ lock, instr = .releaseDonors lock → Donations.Returnable s.toKernel lock)
    (idle : waitsOf (update s.code s.current left s.idleThread) = none)
    (eff : execute s.toKernel rest instr = some (s', left)) :
    DonationState s' (update s.code s.current left) := by
  have keep : ∀ {kept : Kernel}, some (kept, rest) = some (s', left) →
      kept.status = s.status → kept.current = s.current → LockUnits kept →
      Donations kept s.waitedLock none →
      DonationState s' (update s.code s.current left) := by
    intro kept eq status cur locks given
    cases eq
    exact state.stay base status cur locks (.calm calm given)
  have yield : s.toKernel.threadYield.map (·, rest) = some (s', left) →
      DonationState s' (update s.code s.current left) := by
    intro mapped
    obtain ⟨yielded, yields, eq⟩ := map_eq_some_iff.mp mapped
    cases eq
    exact state.yieldCalm base calm idle given yields
  have taken : ∀ {i semaphore}, some (s.setSemaphore (.sema i) semaphore, rest) = some (s', left) →
      DonationState s' (update s.code s.current left) := fun eff =>
    keep eff rfl rfl (state.locks.congr (sameLocks_setSemaphore ..) le_rfl)
      (given.congr ⟨fun _ => rfl, rfl, fun _ => rfl, fun _ => rfl, rfl⟩)
  have clean : update s.waitedLock s.current none = s.waitedLock :=
    update_eq_self_iff.mpr (waited_current base).symm
  cases instr with
  | semaDown sema =>
    cases sema with
    | ofLock lock => cases plain
    | sema i =>
      simp only [execute] at eff
      split at eff
      · exact taken eff
      · obtain ⟨blocked, blocks, eq⟩ := map_eq_some_iff.mp eff
        cases eq
        rw [← clean] at given
        exact state.wait base (.plain rfl calm) idle given blocks
  | semaDownTest sema =>
    cases sema with
    | ofLock lock => cases plain
    | sema i =>
      simp only [execute] at eff
      split at eff
      · exact taken eff
      · obtain ⟨blocked, blocks, eq⟩ := map_eq_some_iff.mp eff
        cases eq
        rw [← clean] at given
        exact DonationState.block base.ready idle state.locks state.others (.plain rfl calm)
          given blocks
  | semaTryDown sema =>
    cases sema with
    | ofLock lock => cases plain
    | sema i =>
      simp only [execute] at eff
      split at eff
      · exact taken eff
      · exact keep eff rfl rfl state.locks given
  | semaUp sema =>
    cases sema with
    | ofLock lock => cases plain
    | sema i =>
      obtain ⟨⟨highest, raised⟩, wakes, eq⟩ := map_eq_some_iff.mp eff
      cases eq
      exact state.wake base waiters calm (fun lock same => by cases same) given wakes
  | yieldUnlessAbove highest =>
    simp only [execute] at eff
    split at eff
    · exact yield eff
    · exact keep eff rfl rfl state.locks given
  | threadYield => exact yield eff
  | recallDonation =>
    refine keep eff ?_ rfl ?_ (given.clearDonees (waited_current base))
    · exact setThread_status_of_eq s.toKernel s.current _ rfl
    · exact state.locks.congr ⟨rfl, fun _ => rfl⟩ le_rfl
  | tryAcquire lock =>
    simp only [execute] at eff
    split at eff
    · cases eff
    · split at eff
      · rename_i pos
        cases eff
        exact state.takeUnit base calm given pos
      · exact keep eff rfl rfl state.locks given
  | releaseDonors lock =>
    exact state.releaseDonors base calm given (returnable lock rfl) eff
  | createThread prio =>
    obtain ⟨made, makes, eq⟩ := map_eq_some_iff.mp eff
    cases eq
    exact state.createThread base calm given makes
  | yieldIfBelow t =>
    simp only [execute] at eff
    split at eff
    · exact yield eff
    · exact keep eff rfl rfl state.locks given
  | setNativePriority prio =>
    cases eff
    refine state.stay base ?_ rfl ?_ (.updating calm (given.setNativePriority prio))
    · exact setThread_status_of_eq s.toKernel s.current _ rfl
    · exact state.locks.congr ⟨rfl, fun _ => rfl⟩ le_rfl
  | yieldIfBehind stray =>
    simp only [execute] at eff
    split at eff
    · exact yield eff
    · exact keep eff rfl rfl state.locks given
  | idleBlock =>
    obtain ⟨blocked, blocks, eq⟩ := map_eq_some_iff.mp eff
    cases eq
    rw [← clean] at given
    exact DonationState.block base.ready idle state.locks state.others (.plain rfl .nil)
      given blocks
  | acquireTest | acquireDonate | updateActivePriority | takeLock | dropLock => cases plain

end

theorem run {instr : Instr} (state : DonationState s.toKernel s.code)
    (base : MachineInvariant s) (waiters : WaitersInvariant s)
    (code : s.code s.current = instr :: rest) (fits : DonationFits s .run)
    (eff : execute s.toKernel rest instr = some (s', left)) :
    DonationState s' (update s.code s.current left) := by
  have idle : waitsOf (update s.code s.current left s.idleThread) = none := by
    rw [base.idleCode_after code (outcome_of_execute eff)]
    rfl
  have phase := state.phase
  change Phase s.toKernel s.waitedLock _ at phase
  rw [code] at phase
  simp only [DonationFits, code] at fits
  cases phase with
  | calm calm given =>
    cases calm with
    | plain plain calm =>
      refine state.plain base waiters plain calm given ?_ idle eff
      rintro lock rfl
      exact fits
    | acquire calm => exact state.acquireTest base calm given fits eff
    | retest calm => exact state.retestLock base calm given fits idle eff
  | donating calm given holds o =>
    exact state.acquireDonate base calm given holds o eff
  | joining calm holds mem given =>
    exact state.updateJoining base calm holds mem given fits.1 fits.2 eff
  | entering calm given => exact state.enterLock base calm given idle eff
  | taking calm free zero given =>
    cases eff
    refine state.stay base rfl rfl (state.locks.takeLock zero base.ready.born) (.calm calm ?_)
    exact given.takeLock free fun w waits =>
      fits w (born_of_waited base waits) waits
  | updating calm given =>
    refine state.updateActivePriority base calm given fits.1 fits.2 ?_ eff
    intro lock head
    cases calm with
    | nil => cases head
    | plain plain _ =>
      cases head
      cases plain
    | acquire => cases head
    | retest => cases head
  | returning calm holds given =>
    exact state.updateReturning base calm holds given fits.1 fits.2 eff
  | dropping calm holds given =>
    cases eff
    refine state.stay base rfl rfl (state.locks.dropLock _) (.raising calm ?_ ?_ ?_)
    · exact update_self _ _ _
    · exact state.locks.held _ _ holds
    · exact given.dropLock
  | raising calm free zero given =>
    obtain ⟨⟨highest, raised⟩, wakes, eq⟩ := map_eq_some_iff.mp eff
    cases eq
    refine state.wake base waiters calm ?_ given wakes
    intro lock same
    cases same
    exact ⟨free, zero⟩

theorem step {m : Machine} {e : Event} (state : DonationState s.toKernel s.code)
    (base : MachineInvariant s) (waiters : WaitersInvariant s)
    (fits : DonationFits s e) (ran : Threads.step s e = some m) :
    DonationState m.toKernel m.code := by
  cases e with
  | start op =>
    obtain ⟨empty, rfl⟩ := code_of_start ran
    have phase := state.phase
    rw [empty] at phase
    obtain ⟨-, given⟩ := phase.calm_of_settled rfl
    exact state.stay base rfl rfl state.locks (.calm (calm_sections op) given)
  | run =>
    obtain ⟨instr, rest, k, left, code, eff, rfl⟩ := execute_of_run ran
    exact state.run base waiters code fits eff
  | timer =>
    obtain ⟨k, yields, rfl⟩ := threadYield_of_timer ran
    obtain ⟨calm, given⟩ := state.phase.calm_of_settled fits
    have all : ∀ t, Calm (s.code t) := by
      intro t
      by_cases same : t = s.current
      · rw [same]
        exact calm
      · exact state.others t same
    refine DonationState.yield base.ready ?_ state.locks all given yields
    rw [base.idleCode]
    rfl

end DonationState

theorem donationState_boot (values : Nat → Nat) :
    DonationState (boot values).toKernel (boot values).code := by
  have record : ∀ t, ∃ status, (boot values).thread t = initThread status priDefault := by
    intro t
    by_cases main : t = 1
    · exact ⟨.running, by simp [boot, main]⟩
    · exact ⟨.blocked, by simp [boot, main]⟩
  have no_donor : ∀ t donor, donor ∉ ((boot values).thread t).donors := by
    intro t donor mem
    obtain ⟨status, eq⟩ := record t
    rw [eq] at mem
    cases mem
  refine .ofCalm ⟨?_, ?_, ?_⟩ ?_ ⟨?_, ?_, ?_, ?_, ?_, ?_, ?_⟩
  · intro lock t holds
    cases holds
  · intro lock
    exact le_rfl
  · intro lock t holds
    cases holds
  · intro t
    by_cases idle : t = 0
    · simpa [boot, idle] using Calm.plain rfl .nil
    · simpa [boot, idle] using Calm.nil
  · intro t
    obtain ⟨status, eq⟩ := record t
    rw [eq]
    exact (by decide : priMin ≤ priDefault)
  · exact fun t donor mem => (no_donor t donor mem).elim
  · exact fun t donor mem => (no_donor t donor mem).elim
  · exact fun t donor mem => (no_donor t donor mem).elim
  · exact fun t donor mem => (no_donor t donor mem).elim
  · intro t _
    obtain ⟨status, eq⟩ := record t
    unfold priority activePriority highestDonated
    rw [eq]
    rfl
  · intro w lock t _ holds
    cases holds

/-- In a run whose steps all fit, every effective priority is exact whenever no thread is inside the
bookkeeping of an operation. -/
theorem donationExact_of_donationFits (values : Nat → Nat) (events : List Event)
    (condition : Execution.Meets step DonationFits (boot values) events) :
    Execution.Along step DonationExact (boot values) events := by
  let inv : Machine → Prop := fun machine =>
    MachineInvariant machine ∧ WaitersInvariant machine ∧
      DonationState machine.toKernel machine.code
  have start : inv (boot values) :=
    ⟨machineInvariant_boot values, waitersInvariant_boot values, donationState_boot values⟩
  refine Execution.along_of_meets start ?_ ?_ condition
  · rintro old event after ⟨base, waiters, state⟩ fits ran
    exact ⟨base.step ran, waiters.step base ran, state.step base waiters fits ran⟩
  · rintro machine ⟨base, waiters, state⟩ settled thread
    have out := settled machine.current base.ready.born
    exact (state.phase.calm_of_settled out).2.isGreatest_due thread

/-- `main` takes a lock and creates a thread of priority 63, which waits for the lock; `main`
releases the lock and the thread takes it. -/
theorem donationExact_single_donor :
    let events : List Event := .start (.lockAcquire 1) :: List.replicate 4 .run ++
      .start (.threadCreate 63) :: List.replicate 10 .run ++
      .start (.lockAcquire 1) :: List.replicate 4 .run ++
      .start (.lockRelease 1) :: List.replicate 8 .run
    (Execution.run step (boot fun _ => 0) events).isSome ∧
      Execution.Meets step DonationFits (boot fun _ => 0) events ∧
      Execution.Along step DonationExact (boot fun _ => 0) events := by
  intro events
  have cond : Execution.Meets step DonationFits (boot fun _ => 0) events := by decide
  exact ⟨by decide, cond, donationExact_of_donationFits _ _ cond⟩

/-- `main` holds a lock for which a thread of the same priority waits without donating; then `main`
lowers its own priority. -/
def loweredHolder : List Event :=
  .start (.lockAcquire 1) :: List.replicate 4 .run ++
    .start (.threadCreate 40) :: List.replicate 10 .run ++
    .start (.threadSetPriority 31 0) :: List.replicate 3 .run ++
    .start (.lockAcquire 1) :: List.replicate 2 .run ++
    .start (.threadSetPriority 20 0) :: List.replicate 3 .run

/-- The waiting thread has priority 31, `main` runs at priority 20. -/
theorem loweredHolder_not_exact :
    ∃ final, Execution.run step (boot fun _ => 0) loweredHolder = some final ∧
      ¬ DonationExact final := by
  refine ⟨(Execution.run step (boot fun _ => 0) loweredHolder).get (by decide), ?_, ?_⟩
  · rw [some_get]
  · intro exact
    have max := exact (by decide) 1
    have bound := max.2 (.inr ⟨2, 1, by decide, by decide, rfl⟩)
    revert bound
    decide

end Pintos.Threads
