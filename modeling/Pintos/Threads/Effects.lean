import Pintos.Threads.Machine

/-!
# What sections do to semaphores and locks

One inversion of `execute` that says how a section moves units of semaphores and assigns holders of
locks, and with which code it leaves its thread.
-/

namespace Pintos.Threads

open Option Kernel

/-- The holders of locks and the values of semaphores are the same. -/
structure SameUnits (s s' : Kernel) : Prop where
  holder : s'.holder = s.holder
  value : ∀ sema, (s'.semaphore sema).value = (s.semaphore sema).value

namespace SameUnits

variable {s s' : Kernel}

theorem refl (k : Kernel) : SameUnits k k := ⟨rfl, fun _ => rfl⟩

theorem trans {mid : Kernel} (fst : SameUnits s mid) (snd : SameUnits mid s') : SameUnits s s' :=
  ⟨snd.holder.trans fst.holder, fun sema => (snd.value sema).trans (fst.value sema)⟩

theorem of_semaphore (holder : s'.holder = s.holder)
    (sema : s'.semaphore = s.semaphore) : SameUnits s s' :=
  ⟨holder, fun _ => by rw [sema]⟩

theorem threadYield (yields : s.threadYield = some s') : SameUnits s s' := by
  obtain ⟨next, moved⟩ := switched_of_schedule yields
  have made := madeReady_queueCurrent s
  exact (of_semaphore made.holder made.semaphore).trans (of_semaphore moved.holder moved.semaphore)

theorem threadBlock (blocks : s.threadBlock = some s') : SameUnits s s' := by
  obtain ⟨next, moved⟩ := switched_of_schedule blocks
  exact of_semaphore moved.holder moved.semaphore

theorem pushWaiter (k : Kernel) (sema : SemaRef) : SameUnits k (k.pushWaiter sema) := by
  refine ⟨rfl, fun o => ?_⟩
  by_cases same : o = sema
  · simp [Kernel.pushWaiter, same]
  · simp [Kernel.pushWaiter, same]

theorem registerDonor {lock : LockId} {target : Tid}
    (adds : s.registerDonor lock target = some s') : SameUnits s s' := by
  unfold Kernel.registerDonor at adds
  split at adds
  · cases adds
    exact of_semaphore rfl rfl
  · cases adds

theorem createThread {prio : Int} (makes : s.createThread prio = some s') : SameUnits s s' := by
  unfold Kernel.createThread at makes
  split at makes
  · obtain ⟨_, made⟩ := madeReady_of_threadUnblock makes
    exact of_semaphore made.holder made.semaphore
  · cases makes

theorem releaseDonors (k : Kernel) (lock : LockId) : SameUnits k (k.releaseDonors lock).2 := by
  unfold Kernel.releaseDonors
  simp only
  split
  · split <;> exact of_semaphore rfl rfl
  · exact refl k

/-- `sema_up` raises the value of its semaphore by one and touches no other unit. -/
theorem semaUp {sema : SemaRef} {highest : Int} (wakes : s.semaUp sema = some (highest, s')) :
    SameUnits (s.incrementValue sema) s' := by
  rcases semaUp_cases wakes with ⟨_, rfl⟩ | ⟨w, unblocked, _, _, woken, rfl⟩
  · exact refl _
  · obtain ⟨_, made⟩ := madeReady_of_threadUnblock woken
    refine ⟨made.holder, fun o => ?_⟩
    by_cases same : o = sema
    · simp [incrementValue, made.semaphore, removeWaiter, same]
    · simp [incrementValue, made.semaphore, removeWaiter, same]

end SameUnits

/-- The holders and units of all locks are the same. -/
structure SameLocks (s s' : Kernel) : Prop where
  holder : s'.holder = s.holder
  value : ∀ lock, (s'.semaphore (.ofLock lock)).value = (s.semaphore (.ofLock lock)).value

theorem SameUnits.sameLocks {s s' : Kernel} (same : SameUnits s s') : SameLocks s s' :=
  ⟨same.holder, fun lock => same.value (.ofLock lock)⟩

theorem sameLocks_setSemaphore (k : Kernel) (i : Nat) (semaphore : Semaphore) :
    SameLocks k (k.setSemaphore (.sema i) semaphore) :=
  ⟨rfl, fun lock => by simp⟩

/-- A section that does not move a unit of a semaphore and is no part of moving one. -/
def Instr.unitFree : Instr → Bool
  | .semaDown _ | .semaDownTest _ | .semaTryDown _ | .semaUp _ | .takeLock _ | .tryAcquire _
  | .releaseDonors _ | .dropLock _ | .idleBlock => false
  | _ => true

/-- What a section can do to semaphores and locks, with the code its thread is left with. -/
inductive UnitEffect (k : Kernel) (rest : List Instr) : Instr → Kernel → List Instr → Prop
  | free {instr after} (front : List Instr) (free : instr.unitFree)
      (frees : ∀ instr ∈ front, instr.unitFree) (same : SameUnits k after) :
      UnitEffect k rest instr after (front ++ rest)
  | idle {after} (same : SameUnits k after) : UnitEffect k rest .idleBlock after [.idleBlock]
  | wait {instr after} (sema : SemaRef) (down : instr = .semaDown sema ∨ instr = .semaDownTest sema)
      (zero : (k.semaphore sema).value = 0) (same : SameUnits k after) :
      UnitEffect k rest instr after (.semaDownTest sema :: rest)
  | pass {instr} (sema : SemaRef) (down : instr = .semaDown sema ∨ instr = .semaDownTest sema)
      (positive : 0 < (k.semaphore sema).value) :
      UnitEffect k rest instr (k.decrementValue sema) rest
  | tryPass (sema : SemaRef) (positive : 0 < (k.semaphore sema).value) :
      UnitEffect k rest (.semaTryDown sema) (k.decrementValue sema) rest
  | tryFail (sema : SemaRef) (zero : (k.semaphore sema).value = 0) :
      UnitEffect k rest (.semaTryDown sema) k rest
  | raise {after} (sema : SemaRef) (highest : Int)
      (same : SameUnits (k.incrementValue sema) after) :
      UnitEffect k rest (.semaUp sema) after (.yieldUnlessAbove highest :: rest)
  | tryTake (lock : LockId) (positive : 0 < (k.semaphore (.ofLock lock)).value) :
      UnitEffect k rest (.tryAcquire lock) (k.decrementValue (.ofLock lock))
        (.takeLock lock :: rest)
  | tryLeave (lock : LockId) (zero : (k.semaphore (.ofLock lock)).value = 0) :
      UnitEffect k rest (.tryAcquire lock) k rest
  | take (lock : LockId) :
      UnitEffect k rest (.takeLock lock) (k.setHolder lock (some k.current)) rest
  | release {after} (lock : LockId) (front back : List Instr)
      (frees : ∀ instr ∈ front, instr.unitFree) (backFrees : ∀ instr ∈ back, instr.unitFree)
      (holds : k.holder lock = some k.current) (same : SameUnits k after) :
      UnitEffect k rest (.releaseDonors lock) after
        (front ++ .dropLock lock :: .semaUp (.ofLock lock) :: (back ++ rest))
  | drop (lock : LockId) : UnitEffect k rest (.dropLock lock) (k.setHolder lock none) rest

theorem unitEffect_of_execute {k s' : Kernel} {rest code : List Instr} {instr : Instr}
    (ran : execute k rest instr = some (s', code)) :
    UnitEffect k rest instr s' code := by
  have keep : ∀ {kept : Kernel} (front : List Instr),
      some (kept, front ++ rest) = some (s', code) → instr.unitFree →
      (∀ instr ∈ front, instr.unitFree) → SameUnits k kept →
      UnitEffect k rest instr s' code := by
    intro kept front eq free frees same
    cases eq
    exact .free front free frees same
  have yield : instr.unitFree → k.threadYield.map (·, rest) = some (s', code) →
      UnitEffect k rest instr s' code := by
    intro free mapped
    obtain ⟨yielded, yields, eq⟩ := map_eq_some_iff.mp mapped
    exact keep [] (congrArg some eq) free (by simp) (.threadYield yields)
  have mapped : ∀ {res : Option Kernel} {left : List Instr},
      res.map (·, left) = some (s', code) → res = some s' ∧ left = code := by
    intro res left mapped
    obtain ⟨kept, works, eq⟩ := map_eq_some_iff.mp mapped
    cases eq
    exact ⟨works, rfl⟩
  cases instr with
  | semaDown sema =>
    simp only [execute] at ran
    split at ran
    · rename_i pos
      cases ran
      exact .pass sema (.inl rfl) pos
    · rename_i zero
      obtain ⟨blocks, rfl⟩ := mapped ran
      exact .wait sema (.inl rfl) (Nat.eq_zero_of_not_pos zero)
        ((SameUnits.pushWaiter k sema).trans (.threadBlock blocks))
  | semaDownTest sema =>
    simp only [execute] at ran
    split at ran
    · rename_i pos
      cases ran
      exact .pass sema (.inr rfl) pos
    · rename_i zero
      obtain ⟨blocks, rfl⟩ := mapped ran
      exact .wait sema (.inr rfl) (Nat.eq_zero_of_not_pos zero) (.threadBlock blocks)
  | semaTryDown sema =>
    simp only [execute] at ran
    split at ran
    · rename_i pos
      cases ran
      exact .tryPass sema pos
    · rename_i zero
      cases ran
      exact .tryFail sema (Nat.eq_zero_of_not_pos zero)
  | semaUp sema =>
    obtain ⟨⟨highest, raised⟩, wakes, eq⟩ := map_eq_some_iff.mp ran
    cases eq
    exact .raise sema highest (.semaUp wakes)
  | yieldUnlessAbove | yieldIfBelow | yieldIfBehind =>
    simp only [execute] at ran
    split at ran
    · exact yield rfl ran
    · exact keep [] ran rfl (by simp) (.refl k)
  | threadYield => exact yield rfl ran
  | acquireTest lock =>
    simp only [execute] at ran
    split at ran
    · cases ran
    · split at ran
      · exact keep [] ran rfl (by simp) (.refl k)
      · exact keep [_] ran rfl (by simp [Instr.unitFree]) (.refl k)
  | acquireDonate lock target =>
    obtain ⟨adds, rfl⟩ := mapped ran
    exact .free [_] rfl (by simp [Instr.unitFree]) (.registerDonor adds)
  | updateActivePriority t masked =>
    simp only [execute] at ran
    split at ran
    · exact keep [] ran rfl (by simp) (.of_semaphore rfl rfl)
    · exact keep [_] ran rfl (by simp [Instr.unitFree]) (.of_semaphore rfl rfl)
  | takeLock lock =>
    cases ran
    exact .take lock
  | recallDonation => exact keep [] ran rfl (by simp) (.of_semaphore rfl rfl)
  | tryAcquire lock =>
    simp only [execute] at ran
    split at ran
    · cases ran
    · split at ran
      · rename_i pos
        cases ran
        exact .tryTake lock pos
      · rename_i zero
        cases ran
        exact .tryLeave lock (Nat.eq_zero_of_not_pos zero)
  | releaseDonors lock =>
    simp only [execute] at ran
    split at ran
    · rename_i holds
      split at ran
      · cases ran
        exact .release lock [.updateActivePriority _ _] [.threadYield] (by simp [Instr.unitFree])
          (by simp [Instr.unitFree]) holds (.releaseDonors k lock)
      · cases ran
        exact .release lock [] [] (by simp) (by simp) holds (.releaseDonors k lock)
    · cases ran
  | dropLock lock =>
    cases ran
    exact .drop lock
  | createThread prio =>
    obtain ⟨makes, rfl⟩ := mapped ran
    exact .free [_] rfl (by simp [Instr.unitFree]) (.createThread makes)
  | setNativePriority prio =>
    exact keep [_] ran rfl (by simp [Instr.unitFree]) (.of_semaphore rfl rfl)
  | idleBlock =>
    obtain ⟨blocks, rfl⟩ := mapped ran
    exact .idle (.threadBlock blocks)

end Pintos.Threads
