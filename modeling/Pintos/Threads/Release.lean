import Pintos.Threads.Donors

/-!
# Returned donations

What the bookkeeping of `lock_release` leaves in the `donors` array, entry by entry.  The loop fills
the place of a donor of the lock with a copy of the last donor of another lock, which stays where it
was.  The donations are returned exactly if no donor of another lock comes after one of the lock.
-/

namespace Pintos.Threads

open Function Option List

namespace Kernel

/-- `updateActivePriority` with its recursive calls, `fuel` of them at most. -/
def updateActivePriority : Nat → Kernel → Tid → Kernel
  | 0, kernel, thread => kernel.assignActivePriority thread
  | fuel + 1, kernel, thread =>
    let after := kernel.assignActivePriority thread
    match (kernel.thread thread).donees with
    | some donee => updateActivePriority fuel after donee.thread
    | none => after

/-- `lock_release` up to the assignment of `lock->holder`. -/
def returnDonors (fuel : Nat) (kernel : Kernel) (lock : LockId) : Kernel :=
  let result := kernel.releaseDonors lock
  if result.1 then updateActivePriority fuel result.2 kernel.current else result.2

/-- The donors of the running thread. -/
def ownDonors (kernel : Kernel) : List PriorityLock := (kernel.thread kernel.current).donors

/-- The donors of other locks. -/
def otherDonors (lock : LockId) (donors : List PriorityLock) : List PriorityLock :=
  donors.filter fun donor => donor.lock ≠ lock

/-- A running thread: it donates to nobody, and its priority is the greatest of its own and those of
its donors. -/
structure Running (k : Kernel) : Prop where
  native : priMin ≤ (k.thread k.current).nativePriority
  donees : (k.thread k.current).donees = none
  greatest : IsGreatest (k.offered k.current) (k.priority k.current)

/-- Exactly the donors of other locks remain, and the priority is the greatest that is left. -/
def DonorsReturned (k : Kernel) (lock : LockId) (s' : Kernel) : Prop :=
  s'.ownDonors.Perm (otherDonors lock k.ownDonors) ∧
    IsGreatest (s'.offered s'.current) (s'.priority s'.current)

/-- The donors of the lock come last, and there is none unless the thread is boosted. -/
def ReturnFits (k : Kernel) (lock : LockId) : Prop :=
  otherDonors lock k.ownDonors <+: k.ownDonors ∧
    ((k.thread k.current).nativePriority < k.priority k.current ∨
      ∀ donor ∈ k.ownDonors, donor.lock ≠ lock)

variable {k : Kernel} {lock : LockId} {donors front back : List PriorityLock}

theorem donorHasLock_eq_false {i : Nat} {donor : PriorityLock}
    (found : donors[i]? = some donor) (o : donor.lock ≠ lock) :
    donorHasLock donors lock i = false := by
  rw [donorHasLock, found]
  simpa using o

theorem returnDonations_keeps (fuel i stop : Nat) {index : Nat} {donor : PriorityLock}
    (found : donors[index]? = some donor) (o : donor.lock ≠ lock) :
    (returnDonations lock fuel i stop donors).2[index]? = some donor := by
  induction fuel generalizing i stop donors with
  | zero => exact found
  | succ fuel ih =>
    rw [returnDonations]
    split
    · split
      · rename_i has
        dsimp only
        split
        · exact found
        · apply ih
          have ne : i ≠ index := by
            rintro rfl
            rw [donorHasLock_eq_false found o] at has
            cases has
          unfold copyDonor
          split
          · rwa [getElem?_set_ne ne]
          · exact found
      · exact ih (i + 1) stop found
    · exact found

/-- If there are as many donors of other locks as places before the last one of them, they come
first. -/
theorem otherDonors_leading {size : Nat} (count : (otherDonors lock donors).length = size)
    (s : ∀ i donor, donors[i]? = some donor → donor.lock ≠ lock → i < size) :
    otherDonors lock donors <+: donors := by
  have rest : otherDonors lock (donors.drop size) = [] := by
    refine filter_eq_nil_iff.mpr fun donor mem => ?_
    obtain ⟨i, found⟩ := mem_iff_getElem?.mp mem
    rw [getElem?_drop] at found
    intro o
    have := s _ donor found (by simpa using o)
    omega
  have split : otherDonors lock donors = otherDonors lock (donors.take size) := by
    conv_lhs => rw [← take_append_drop size donors]
    rw [otherDonors, filter_append]
    exact (congrArg _ rest).trans (append_nil _)
  have short : (donors.take size).length ≤ size := length_take_le size donors
  rw [split] at count ⊢
  have most := length_filter_le (fun donor : PriorityLock => donor.lock ≠ lock) (donors.take size)
  have all := length_filter_eq_length_iff.mp (Nat.le_antisymm most (short.trans count.ge))
  rw [otherDonors, filter_eq_self.mpr all]
  exact take_prefix size donors

/-- If the donors of the lock come last, the loop stops in front of them. -/
theorem returnDonations_of_last (others : ∀ donor ∈ front, donor.lock ≠ lock)
    (same : ∀ donor ∈ back, donor.lock = lock) {fuel i : Nat} (le : i ≤ front.length)
    (enough : (front ++ back).length ≤ i + fuel) :
    returnDonations lock fuel i (front ++ back).length (front ++ back) =
      (front.length, front ++ back) := by
  have has : ∀ index, front.length ≤ index → index < (front ++ back).length →
      donorHasLock (front ++ back) lock index = true := by
    intro index above inside
    refine donorHasLock_eq_true.mpr ⟨_, getElem?_eq_getElem inside, ?_⟩
    rw [getElem_append_right above]
    exact same _ (getElem_mem _)
  rw [length_append] at *
  induction fuel generalizing i with
  | zero =>
    obtain rfl : i = front.length := by omega
    rfl
  | succ fuel ih =>
    rw [returnDonations]
    rcases Nat.lt_or_ge i front.length with below | above
    · have found : (front ++ back)[i]? = some front[i] := by
        rw [getElem?_append_left below, getElem?_eq_getElem below]
      have o := donorHasLock_eq_false found (others _ (getElem_mem below))
      rw [if_pos (by omega), o]
      exact ih below (by omega)
    · obtain rfl : i = front.length := by omega
      split
      · next inside =>
          obtain ⟨lower, upper, -, -⟩ := lastOtherDonor_spec (front ++ back) lock front.length
            (front.length + back.length - 1) (by omega)
          rw [if_pos (has _ le_rfl (by omega))]
          dsimp only
          rw [if_pos (has _ lower (by omega))]
      · rfl

/-- The loop on the whole array. -/
def returned (k : Kernel) (lock : LockId) : Nat × List PriorityLock :=
  returnDonations lock k.ownDonors.length 0 k.ownDonors.length k.ownDonors

theorem returned_returning (k : Kernel) (lock : LockId) :
    Returning lock k.ownDonors (k.returned lock).1 (k.returned lock).1 (k.returned lock).2 := by
  refine returnDonations_returning _ ⟨rfl, Nat.zero_le _, le_rfl, by omega, ?_, fun _ _ => Iff.rfl, rfl⟩
    (by omega)
  intro i donor above found
  rw [getElem?_eq_none above] at found
  cases found

section

variable (running : Running k)
include running

/-- The assignment of `updateActivePriority` gives the greatest priority that is left. -/
theorem Running.isGreatest_assign (kept : List PriorityLock) : let s' := (k.setThread k.current
      { k.thread k.current with donors := kept }).assignActivePriority k.current
    IsGreatest (s'.offered s'.current) (s'.priority s'.current) := by
  intro s'
  obtain ⟨mid, is_middle⟩ : ∃ mid, mid = k.setThread k.current
    { k.thread k.current with donors := kept } := ⟨_, rfl⟩
  have record : mid.thread k.current =
      { k.thread k.current with donors := kept } := by simp [is_middle]
  have max := @isGreatest_activePriority mid k.current (by
    rw [record]
    exact running.native)
  have native : (s'.thread k.current).nativePriority =
      (mid.thread k.current).nativePriority := by simp [s', assignActivePriority, record]
  have donors : (s'.thread k.current).donors = (mid.thread k.current).donors := by
    simp [s', assignActivePriority, record]
  have prio : ∀ o, s'.priority o = if o = k.current then
      mid.activePriority k.current else mid.priority o := by
    intro o
    rw [is_middle]
    exact priority_assignActivePriority _ k.current o
  change IsGreatest (s'.offered k.current) (s'.priority k.current)
  rw [prio, if_pos rfl]
  unfold offered at max ⊢
  rw [native, donors]
  constructor
  · rcases max.1 with own | ⟨donor, mem, same⟩
    · exact .inl own
    · refine .inr ⟨donor, mem, ?_⟩
      rw [prio]
      split
      · rfl
      · exact same
  · rintro value (rfl | ⟨donor, mem, rfl⟩)
    · exact max.2 (.inl rfl)
    · rw [prio]
      split
      · exact le_rfl
      · exact max.2 (.inr ⟨donor, mem, rfl⟩)

variable (boosted : (k.thread k.current).nativePriority < k.priority k.current)
include boosted

theorem Running.returnDonors_eq (fuel : Nat) (lock : LockId) : k.returnDonors fuel lock =
      if (k.returned lock).1 < k.ownDonors.length then
        (k.setThread k.current { k.thread k.current with
          donors := (k.returned lock).2.take (k.returned lock).1 }).assignActivePriority
            k.current
      else
        k.setThread k.current { k.thread k.current with donors := (k.returned lock).2 } := by
  have freed : k.releaseDonors lock = if (k.returned lock).1 < k.ownDonors.length then
      (true, k.setThread k.current { k.thread k.current with
        donors := (k.returned lock).2.take (k.returned lock).1 })
    else
      (false, k.setThread k.current
        { k.thread k.current with donors := (k.returned lock).2 }) := if_pos boosted
  rw [returnDonors, freed]
  split
  · dsimp only
    rw [if_pos rfl]
    cases fuel with
    | zero => rfl
    | succ fuel =>
      simp [updateActivePriority, running.donees]
  · rfl

theorem Running.ownDonors_returnDonors (fuel : Nat) (lock : LockId) :
    (k.returnDonors fuel lock).ownDonors = (k.returned lock).2.take (k.returned lock).1 := by
  rw [running.returnDonors_eq boosted]
  have len := (returned_returning k lock).length
  split
  · simp [ownDonors, assignActivePriority, setThread]
  · rw [take_of_length_le (by omega)]
    simp [ownDonors, setThread]

/-- Donors of the lock that come last are dropped, and the priority is computed again. -/
theorem Running.donorsReturned (fuel : Nat)
    (is_front : otherDonors lock k.ownDonors <+: k.ownDonors) :
    k.DonorsReturned lock (k.returnDonors fuel lock) := by
  have kept := prefix_iff_eq_take.mp is_front
  obtain ⟨back, split⟩ := is_front
  have others : ∀ donor ∈ otherDonors lock k.ownDonors, donor.lock ≠ lock := by
    intro donor mem
    simpa using (mem_filter.mp mem).2
  have same : ∀ donor ∈ back, donor.lock = lock := by
    have again : otherDonors lock (otherDonors lock k.ownDonors ++ back) =
        otherDonors lock k.ownDonors := by rw [split]
    rw [otherDonors, filter_append, filter_eq_self.mpr (by simpa using others)] at again
    simpa using filter_eq_nil_iff.mp (append_right_eq_self.mp again)
  have stops : k.returned lock = ((otherDonors lock k.ownDonors).length, k.ownDonors) := by
    have runs := returnDonations_of_last others same (Nat.zero_le _) (Nat.le_add_left _ 0)
    rwa [split] at runs
  constructor
  · rw [running.ownDonors_returnDonors boosted, stops, ← kept]
  · rw [running.returnDonors_eq boosted]
    split
    · exact running.isGreatest_assign _
    · have unchanged : k.setThread k.current { k.thread k.current with
          donors := (k.returned lock).2 } = k := by
        rw [stops]
        exact congrArg (fun thread => { k with thread }) (update_eq_self _ _)
      rw [unchanged]
      exact running.greatest

end

/-- `lock_release` returns exactly the donations of the lock if the donors of other locks come before
them. -/
theorem donorsReturned_iff_returnFits (running : Running kernel) (fuel : Nat) (lock : LockId) :
    kernel.DonorsReturned lock (kernel.returnDonors fuel lock) ↔ kernel.ReturnFits lock := by
  by_cases boosted : (kernel.thread kernel.current).nativePriority < kernel.priority kernel.current
  · have final := returned_returning kernel lock
    constructor
    · rintro ⟨perm, -⟩
      rw [running.ownDonors_returnDonors boosted] at perm
      refine ⟨otherDonors_leading perm.length_eq.symm ?_, .inl boosted⟩
      intro index donor found o
      rw [List.length_take, final.length, Nat.min_eq_left final.stop_le]
      by_contra beyond
      exact o (final.back index donor (Nat.not_lt.mp beyond) (returnDonations_keeps _ _ _ found o))
    · rintro ⟨is_front, -⟩
      exact running.donorsReturned boosted fuel is_front
  · have freed : kernel.releaseDonors lock = (false, kernel) := if_neg boosted
    have same : kernel.returnDonors fuel lock = kernel := by
      rw [returnDonors, freed]
      rfl
    rw [same]
    constructor
    · rintro ⟨perm, -⟩
      have all := List.length_filter_eq_length_iff.mp perm.length_eq.symm
      refine ⟨?_, .inr (by simpa using all)⟩
      exact ⟨[], (List.append_nil _).trans (List.filter_eq_self.mpr all)⟩
    · rintro ⟨-, impossible | all⟩
      · exact (boosted impossible).elim
      · refine ⟨?_, running.greatest⟩
        rw [otherDonors, List.filter_eq_self.mpr (by simpa using all)]

/-- Thread 1 of native priority 31 holds the locks 0 and 1, for which the threads 2 and 3 of
priorities 40 and 35 wait. -/
def twoDonors (donors : List PriorityLock) : Kernel where
  thread
    | 1 => ⟨.running, 31, 40, donors, none⟩
    | 2 => ⟨.blocked, 40, 40, [], some ⟨0, 1⟩⟩
    | _ => ⟨.blocked, 35, 35, [], some ⟨1, 1⟩⟩
  threads := 4
  current := 1
  idleThread := 0
  readyList := []
  readyThreads := 0
  semaphore _ := ⟨0, []⟩
  holder _ := some 1

theorem running_twoDonors (perm : donors.Perm [⟨0, 2⟩, ⟨1, 3⟩]) : Running (twoDonors donors) := by
  have members : ∀ donor, donor ∈ donors ↔ donor = ⟨0, 2⟩ ∨ donor = ⟨1, 3⟩ := by
    intro donor
    simp [perm.mem_iff]
  refine ⟨show (0 : Int) ≤ 31 by decide, rfl, .inr ⟨⟨0, 2⟩, (members _).mpr (.inl rfl), rfl⟩, ?_⟩
  rintro prio (rfl | ⟨donor, mem, rfl⟩)
  · exact show (31 : Int) ≤ 40 by decide
  · rcases (members donor).mp mem with rfl | rfl
    · exact le_refl (40 : Int)
    · exact show (35 : Int) ≤ 40 by decide

/-- The donation for lock 0 is returned if it comes last. -/
theorem donorsReturned_last :
    DonorsReturned (twoDonors [⟨1, 3⟩, ⟨0, 2⟩]) 0 (returnDonors 0 (twoDonors [⟨1, 3⟩, ⟨0, 2⟩]) 0) :=
  (donorsReturned_iff_returnFits (running_twoDonors (.swap _ _ _)) 0 0).mpr
    ⟨⟨[⟨0, 2⟩], rfl⟩, .inl (by decide)⟩

/-- If it comes first, the other donor is entered twice and the priority stays. -/
theorem donor_entered_twice : Running (twoDonors [⟨0, 2⟩, ⟨1, 3⟩]) ∧
      ∀ fuel, (returnDonors fuel (twoDonors [⟨0, 2⟩, ⟨1, 3⟩]) 0).ownDonors = [⟨1, 3⟩, ⟨1, 3⟩] ∧
        (returnDonors fuel (twoDonors [⟨0, 2⟩, ⟨1, 3⟩]) 0).priority 1 = 40 ∧
        ¬ DonorsReturned (twoDonors [⟨0, 2⟩, ⟨1, 3⟩]) 0
          (returnDonors fuel (twoDonors [⟨0, 2⟩, ⟨1, 3⟩]) 0) := by
  refine ⟨running_twoDonors .rfl, fun fuel => ⟨rfl, rfl, ?_⟩⟩
  rintro ⟨perm, -⟩
  exact absurd (show 2 = 1 from perm.length_eq) (by decide)

end Kernel

end Pintos.Threads
