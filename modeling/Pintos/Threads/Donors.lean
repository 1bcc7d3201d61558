import Mathlib.Order.Bounds.Basic
import Pintos.Threads.Kernel

/-!
# Donors

The loops over the `donors` array: `updateActivePriority` computes a greatest element, and
`lock_release` keeps exactly the donors of the other locks.  On top of them stands the invariant
that ties the array, the `donees` field, the lock holders and the waiting threads together.
-/

namespace Pintos.Threads

open Function Option List Kernel

/-! ## The loop of `updateActivePriority` -/

namespace Kernel

variable {k : Kernel}

/-- The priorities `updateActivePriority` looks at. -/
def offered (kernel : Kernel) (thread : Tid) : Set Int :=
  insert (kernel.thread thread).nativePriority
    {priority | ∃ donor ∈ (kernel.thread thread).donors, kernel.priority donor.thread = priority}

theorem le_foldl_raiseDonated (k : Kernel) (donors : List PriorityLock) (start : Int) :
    start ≤ donors.foldl k.raiseDonated start ∧
      ∀ donor ∈ donors, k.priority donor.thread ≤ donors.foldl k.raiseDonated start := by
  induction donors generalizing start with
  | nil => simp
  | cons head tail ih =>
    obtain ⟨above, all⟩ := ih (k.raiseDonated start head)
    rw [foldl_cons]
    have raised : start ≤ k.raiseDonated start head ∧
        k.priority head.thread ≤ k.raiseDonated start head := by
      unfold raiseDonated
      split <;> omega
    refine ⟨raised.1.trans above, ?_⟩
    intro donor mem
    rcases mem_cons.mp mem with rfl | mem
    · exact raised.2.trans above
    · exact all donor mem

theorem foldl_raiseDonated_mem (k : Kernel) (donors : List PriorityLock) (start : Int) :
    donors.foldl k.raiseDonated start = start ∨
      ∃ donor ∈ donors, k.priority donor.thread = donors.foldl k.raiseDonated start := by
  induction donors generalizing start with
  | nil => exact .inl rfl
  | cons head tail ih =>
    rw [foldl_cons]
    rcases ih (k.raiseDonated start head) with kept | ⟨donor, mem, eq⟩
    · rw [kept]
      unfold raiseDonated
      split
      · exact .inr ⟨head, mem_cons_self, rfl⟩
      · exact .inl rfl
    · exact .inr ⟨donor, mem_cons_of_mem head mem, eq⟩

/-- `updateActivePriority` assigns the greatest priority it looks at. -/
theorem isGreatest_activePriority {t : Tid} (native : priMin ≤ (k.thread t).nativePriority) :
    IsGreatest (k.offered t) (k.activePriority t) := by
  obtain ⟨-, all⟩ := le_foldl_raiseDonated k (k.thread t).donors priMin
  unfold activePriority highestDonated
  constructor
  · split
    · rename_i donated
      rcases foldl_raiseDonated_mem k (k.thread t).donors priMin with
        start | found
      · omega
      · exact .inr found
    · exact .inl rfl
  · rintro prio (rfl | ⟨donor, mem, rfl⟩)
    · split <;> omega
    · have bound := all donor mem
      split <;> omega

theorem activePriority_congr {s' : Kernel} {t : Tid}
    (native : (s'.thread t).nativePriority = (k.thread t).nativePriority)
    (donors : (s'.thread t).donors = (k.thread t).donors)
    (prio : ∀ donor ∈ (k.thread t).donors, s'.priority donor.thread = k.priority donor.thread) :
    s'.activePriority t = k.activePriority t := by
  have folds : ∀ (list : List PriorityLock) (start : Int),
      (∀ donor ∈ list, s'.priority donor.thread = k.priority donor.thread) →
      list.foldl s'.raiseDonated start = list.foldl k.raiseDonated start := by
    intro list
    induction list with
    | nil => exact fun _ _ => rfl
    | cons head tail ih =>
      intro start same
      have step : s'.raiseDonated start head = k.raiseDonated start head := by
        unfold raiseDonated
        rw [same head mem_cons_self]
      rw [foldl_cons, foldl_cons, step]
      exact ih _ fun donor mem => same donor (mem_cons_of_mem head mem)
  unfold activePriority highestDonated
  rw [native, donors, folds _ priMin prio]

end Kernel

/-! ## The loop of `lock_release` -/

namespace Kernel

variable {donors original : List PriorityLock} {lock : LockId} {stop i : Nat}

theorem donorHasLock_eq_true {i : Nat} :
    donorHasLock donors lock i = true ↔ ∃ donor, donors[i]? = some donor ∧ donor.lock = lock := by
  unfold donorHasLock
  cases donors[i]? with
  | none => simp
  | some donor => simp

theorem lock_of_donorHasLock {donor : PriorityLock} (found : donors[i]? = some donor)
    (has : donorHasLock donors lock i = true) : donor.lock = lock := by
  obtain ⟨here, at_i, lock_eq⟩ := donorHasLock_eq_true.mp has
  rwa [some.inj (found.symm.trans at_i)]

theorem lock_ne_of_donorHasLock {donor : PriorityLock} (found : donors[i]? = some donor)
    (o : donorHasLock donors lock i = false) : donor.lock ≠ lock := by
  intro same
  rw [donorHasLock_eq_true.mpr ⟨donor, found, same⟩] at o
  cases o

/-- The inner loop stops at `i` or at the last donor of another lock. -/
theorem lastOtherDonor_spec (donors : List PriorityLock) (lock : LockId) (i j : Nat) (le : i ≤ j) :
    i ≤ lastOtherDonor donors lock i j ∧ lastOtherDonor donors lock i j ≤ j ∧
      (∀ index, lastOtherDonor donors lock i j < index → index ≤ j →
        donorHasLock donors lock index = true) ∧
      (donorHasLock donors lock (lastOtherDonor donors lock i j) = true →
        lastOtherDonor donors lock i j = i) := by
  induction j with
  | zero =>
    rw [lastOtherDonor]
    refine ⟨le, le_rfl, ?_, ?_⟩
    · intro index above below
      omega
    · intro _
      omega
  | succ j ih =>
    rw [lastOtherDonor]
    split
    · rename_i moves
      obtain ⟨lower, upper, skipped, stopped⟩ := ih (by omega)
      refine ⟨lower, by omega, ?_, stopped⟩
      intro index above below
      by_cases last : index = j + 1
      · rw [last]
        exact moves.1
      · exact skipped index above (by omega)
    · rename_i stays
      refine ⟨le, le_rfl, ?_, ?_⟩
      · intro index above below
        omega
      · intro has
        by_contra ne
        exact stays ⟨has, by omega⟩

/-- The state of the outer loop: donors of other locks in front of `i`, donors of this lock from
`stop` on. -/
structure Returning (lock : LockId) (original : List PriorityLock) (i stop : Nat)
    (donors : List PriorityLock) : Prop where
  length : donors.length = original.length
  le_stop : i ≤ stop
  stop_le : stop ≤ original.length
  front : ∀ index donor, index < i → donors[index]? = some donor → donor.lock ≠ lock
  back : ∀ index donor, stop ≤ index → donors[index]? = some donor → donor.lock = lock
  others : ∀ donor, donor.lock ≠ lock → (donor ∈ donors ↔ donor ∈ original)
  last : donors[original.length - 1]? = original[original.length - 1]?

section

variable (s : Returning lock original i stop donors)
include s

theorem Returning.advance (below : i < stop) (o : donorHasLock donors lock i = false) :
    Returning lock original (i + 1) stop donors where
  __ := s
  le_stop := below
  front index donor lt found := by
    rcases Nat.lt_succ_iff_lt_or_eq.mp lt with lt | rfl
    · exact s.front index donor lt found
    · exact lock_ne_of_donorHasLock found o

/-- Overwriting a donor of the lock by the last donor of another lock. -/
theorem Returning.copy {j : Nat} (lower : i ≤ j) (upper : j < stop)
    (skipped : ∀ index, j < index → index ≤ stop - 1 → donorHasLock donors lock index = true)
    (has : donorHasLock donors lock i = true) (o : donorHasLock donors lock j = false) :
    Returning lock original (i + 1) (j + 1) (copyDonor donors i j) := by
  have strict : i < j := by
    rcases Nat.eq_or_lt_of_le lower with rfl | lt
    · rw [has] at o
      cases o
    · exact lt
  have in_range : j < donors.length := by
    have := s.length
    have := s.stop_le
    omega
  obtain ⟨copied, found⟩ : ∃ copied, donors[j]? = some copied :=
    ⟨donors[j], getElem?_eq_getElem in_range⟩
  have copied_other := lock_ne_of_donorHasLock found o
  obtain ⟨replaced, at_i, replaced_lock⟩ := donorHasLock_eq_true.mp has
  have copy_eq : copyDonor donors i j = donors.set i copied := by
    unfold copyDonor
    rw [found]
  rw [copy_eq]
  refine ⟨?_, by omega, ?_, ?_, ?_, ?_, ?_⟩
  · rw [length_set, s.length]
  · have := s.stop_le
    omega
  · intro index donor lt at_index
    by_cases same : index = i
    · subst same
      rw [getElem?_set_self (by omega)] at at_index
      rw [← some.inj at_index]
      exact copied_other
    · rw [getElem?_set_ne (Ne.symm same)] at at_index
      exact s.front index donor (by omega) at_index
  · intro index donor le at_index
    rw [getElem?_set_ne (by omega)] at at_index
    by_cases inside : index ≤ stop - 1
    · exact lock_of_donorHasLock at_index (skipped index (by omega) inside)
    · exact s.back index donor (by omega) at_index
  · intro donor donor_other
    rw [← s.others donor donor_other]
    constructor
    · intro mem
      rcases mem_or_eq_of_mem_set mem with mem | rfl
      · exact mem
      · exact mem_of_getElem? found
    · intro mem
      obtain ⟨index, at_index⟩ := mem_iff_getElem?.mp mem
      have ne : index ≠ i := by
        rintro rfl
        rw [at_i] at at_index
        rw [← some.inj at_index] at donor_other
        exact donor_other replaced_lock
      exact mem_iff_getElem?.mpr ⟨index, by rwa [getElem?_set_ne (Ne.symm ne)]⟩
  · rw [getElem?_set_ne (by have := s.stop_le; omega)]
    exact s.last

/-- When the loop ends, the donors in front of the final `i` are those of other locks. -/
theorem Returning.finish (le : stop ≤ i ∨ ∀ index donor, i ≤ index →
      donors[index]? = some donor → donor.lock = lock) : Returning lock original i i donors where
  __ := s
  le_stop := le_rfl
  stop_le := s.le_stop.trans s.stop_le
  back index donor above found := by
    rcases le with le | all
    · exact s.back index donor (le.trans above) found
    · exact all index donor above found

end

theorem returnDonations_returning (fuel : Nat) (state : Returning lock original i stop donors)
    (enough : stop ≤ i + fuel) : Returning lock original (returnDonations lock fuel i stop donors).1
      (returnDonations lock fuel i stop donors).1 (returnDonations lock fuel i stop donors).2 := by
  induction fuel generalizing i stop donors with
  | zero => exact state.finish (.inl enough)
  | succ fuel ih =>
    rw [returnDonations]
    split
    · rename_i below
      cases has : donorHasLock donors lock i with
      | false =>
        exact ih (state.advance below has) (by omega)
      | true =>
        obtain ⟨lower, upper, skipped, stopped⟩ :=
          lastOtherDonor_spec donors lock i (stop - 1) (by omega)
        simp only [if_true]
        cases found : donorHasLock donors lock (lastOtherDonor donors lock i (stop - 1)) with
        | false =>
          exact ih (state.copy lower (by omega) skipped has found) (by omega)
        | true =>
          have ends := stopped found
          refine state.finish (.inr ?_)
          intro index donor above at_i
          have all : index < stop → donorHasLock donors lock index = true := by
            intro inside
            rcases Nat.eq_or_lt_of_le above with rfl | lt
            · exact has
            · exact skipped index (by omega) (by omega)
          by_cases inside : index < stop
          · exact lock_of_donorHasLock at_i (all inside)
          · exact state.back index donor (by omega) at_i
    · rename_i above
      exact state.finish (.inl (by omega))

/-- The donors in front of the final `i` are the donors of other locks. -/
theorem Returning.mem_take (state : Returning lock original i i donors) (donor : PriorityLock) :
    donor ∈ donors.take i ↔ donor ∈ original ∧ donor.lock ≠ lock := by
  constructor
  · intro mem
    obtain ⟨index, at_i⟩ := mem_iff_getElem?.mp mem
    rw [getElem?_take] at at_i
    split at at_i
    · rename_i lt
      have o := state.front index donor lt at_i
      exact ⟨(state.others donor o).mp (mem_of_getElem? at_i), o⟩
    · cases at_i
  · rintro ⟨mem, o⟩
    obtain ⟨index, at_i⟩ := mem_iff_getElem?.mp ((state.others donor o).mpr mem)
    have lt : index < i := by
      by_contra above
      exact o (state.back index donor (by omega) at_i)
    exact mem_iff_getElem?.mpr ⟨index, by rwa [getElem?_take, if_pos lt]⟩

/-- What `lock_release` does to the donors of the current thread. -/
theorem releaseDonors_spec (k : Kernel) (lock : LockId)
    (boosted : (k.thread k.current).nativePriority <
      (k.thread k.current).priority) : ∃ kept : List PriorityLock,
      (∀ donor, donor ∈ kept ↔ donor ∈ (k.thread k.current).donors ∧ donor.lock ≠ lock) ∧
      (k.releaseDonors lock).2 = k.setThread k.current { k.thread k.current with donors := kept } ∧
      ((k.releaseDonors lock).1 = false →
        ∀ donor, (k.thread k.current).donors.getLast? = some donor → donor.lock ≠ lock) := by
  obtain ⟨donors, donors_eq⟩ : ∃ donors, donors = (k.thread k.current).donors := ⟨_, rfl⟩
  have start : Returning lock donors 0 donors.length donors := by
    refine ⟨rfl, Nat.zero_le _, le_rfl, by omega, ?_, fun _ _ => Iff.rfl, rfl⟩
    intro i donor above found
    rw [getElem?_eq_none above] at found
    cases found
  have final := returnDonations_returning donors.length start (by omega)
  refine ⟨(returnDonations lock donors.length 0 donors.length donors).2.take
    (returnDonations lock donors.length 0 donors.length donors).1, ?_, ?_, ?_⟩
  · rw [← donors_eq]
    exact final.mem_take
  · unfold releaseDonors
    rw [if_pos boosted, ← donors_eq]
    simp only
    split
    · rfl
    · rename_i all
      rw [take_of_length_le (by rw [final.length]; omega)]
  · unfold releaseDonors
    rw [if_pos boosted, ← donors_eq]
    simp only
    split
    · intro trimmed
      cases trimmed
    · rename_i all
      intro _ donor last
      rw [getLast?_eq_getElem?] at last
      have ne_nil : 0 < donors.length := by
        by_contra empty
        rw [getElem?_eq_none (by omega)] at last
        cases last
      exact final.front (donors.length - 1) donor (by omega) (final.last.trans last)

end Kernel

/-! ## Donors, donees and waiting threads -/

/-- Nothing that donations depend on has changed. -/
structure SameDonations (s s' : Kernel) : Prop where
  native : ∀ t, (s'.thread t).nativePriority = (s.thread t).nativePriority
  priority : s'.priority = s.priority
  donors : ∀ t, (s'.thread t).donors = (s.thread t).donors
  donees : ∀ t, (s'.thread t).donees = (s.thread t).donees
  holder : s'.holder = s.holder

namespace SameDonations

variable {s mid s' : Kernel}

theorem trans (fst : SameDonations s mid) (snd : SameDonations mid s') : SameDonations s s' where
  native t := (snd.native t).trans (fst.native t)
  priority := snd.priority.trans fst.priority
  donors t := (snd.donors t).trans (fst.donors t)
  donees t := (snd.donees t).trans (fst.donees t)
  holder := snd.holder.trans fst.holder

theorem ofStatus {t : Tid} {status : ThreadStatus} (record : s'.thread = update s.thread t
      { s.thread t with status }) (holder : s'.holder = s.holder) :
    SameDonations s s' := by
  have kept {α : Type} (field : Thread → α)
      (same : field { s.thread t with status } = field (s.thread t)) (o : Tid) :
      field (s'.thread o) = field (s.thread o) := by
    rw [record]
    exact update_field field same o
  exact ⟨kept Thread.nativePriority rfl, funext (kept Thread.priority rfl), kept Thread.donors rfl,
    kept Thread.donees rfl, holder⟩

theorem ofSwitched {next : Tid} (moved : Kernel.Switched s s' next) : SameDonations s s' :=
  ofStatus moved.thread moved.holder

theorem ofMadeReady {t : Tid} (made : Kernel.MadeReady s s' t) : SameDonations s s' :=
  ofStatus made.record made.holder

theorem ofThreadYield (ran : s.threadYield = some s') : SameDonations s s' := by
  obtain ⟨next, moved⟩ := switched_of_schedule ran
  exact (ofMadeReady (madeReady_queueCurrent s)).trans (ofSwitched moved)

theorem ofThreadBlock (ran : s.threadBlock = some s') : SameDonations s s' := by
  obtain ⟨next, moved⟩ := switched_of_schedule ran
  have blocked : SameDonations s (s.setStatus s.current .blocked) := ofStatus rfl rfl
  exact blocked.trans (ofSwitched moved)

theorem ofSemaUp {sema : SemaRef} {highest : Int}
    (ran : s.semaUp sema = some (highest, s')) : SameDonations s s' := by
  rcases semaUp_cases ran with ⟨_, rfl⟩ | ⟨w, unblocked, _, _, woken, rfl⟩
  · exact ⟨fun _ => rfl, rfl, fun _ => rfl, fun _ => rfl, rfl⟩
  · have made := ofMadeReady (madeReady_of_threadUnblock woken).2
    exact ⟨made.native, made.priority, made.donors, made.donees, made.holder⟩

end SameDonations

/-- The donations agree with the lock holders and with who waits for which lock.  Every donor waits
for a lock of the thread it donates to and names that thread as its donee; a waiting thread that is
no donor is not more urgent than the holder; every priority is up to date, except that of the
pending thread. -/
structure Donations (k : Kernel) (waited : Tid → Option LockId) (pending : Option Tid) : Prop where
  native : ∀ t, priMin ≤ (k.thread t).nativePriority
  waits : ∀ t, ∀ donor ∈ (k.thread t).donors, waited donor.thread = some donor.lock
  holds : ∀ t, ∀ donor ∈ (k.thread t).donors, k.holder donor.lock = some t
  other : ∀ t, ∀ donor ∈ (k.thread t).donors, donor.thread ≠ t
  linked : ∀ t, ∀ donor ∈ (k.thread t).donors, (k.thread donor.thread).donees = some ⟨donor.lock, t⟩
  exact : ∀ t, pending ≠ some t → k.priority t = k.activePriority t
  covered : ∀ w lock t, waited w = some lock → k.holder lock = some t →
    ⟨lock, w⟩ ∈ (k.thread t).donors ∨ k.priority w ≤ k.priority t

namespace Donations

variable {k s' : Kernel} {waited : Tid → Option LockId} {pending : Option Tid}
  {lock : LockId} {t w : Tid}

/-- The priorities that should reach a thread: its own and those of the threads that wait for a
lock it holds. -/
def due (kernel : Kernel) (waited : Tid → Option LockId) (thread : Tid) : Set Int :=
  insert (kernel.thread thread).nativePriority
    {priority | ∃ w lock, waited w = some lock ∧ kernel.holder lock = some thread ∧
      kernel.priority w = priority}

/-- With no update pending every priority is the greatest one due. -/
theorem isGreatest_due (given : Donations k waited none) (t : Tid) :
    IsGreatest (due k waited t) (k.priority t) := by
  have max := isGreatest_activePriority (given.native t)
  rw [← given.exact t (by simp)] at max
  constructor
  · rcases max.1 with native | ⟨donor, mem, eq⟩
    · exact .inl native
    · exact .inr ⟨donor.thread, donor.lock, given.waits t donor mem, given.holds t donor mem, eq⟩
  · rintro prio (rfl | ⟨w, lock, waits, holds, rfl⟩)
    · exact max.2 (.inl rfl)
    · rcases given.covered w lock t waits holds with mem | below
      · exact max.2 (.inr ⟨⟨lock, w⟩, mem, rfl⟩)
      · exact below

/-- What holds of a donor of a thread. -/
structure Donor (k : Kernel) (waited : Tid → Option LockId) (t : Tid)
    (donor : PriorityLock) : Prop where
  waits : waited donor.thread = some donor.lock
  holds : k.holder donor.lock = some t
  other : donor.thread ≠ t
  linked : (k.thread donor.thread).donees = some ⟨donor.lock, t⟩

theorem donor {donor : PriorityLock} (given : Donations k waited pending)
    (mem : donor ∈ (k.thread t).donors) : Donor k waited t donor :=
  ⟨given.waits t donor mem, given.holds t donor mem,
    given.other t donor mem, given.linked t donor mem⟩

/-- A change of no priority, which leaves alone what the priorities depend on, except for the thread
that is pending. -/
theorem revise {waited' : Tid → Option LockId} {pending' : Option Tid}
    (given : Donations k waited pending) (prio : s'.priority = k.priority)
    (native : ∀ t, priMin ≤ (s'.thread t).nativePriority)
    (kept : ∀ t, pending' ≠ some t → pending ≠ some t ∧
      (s'.thread t).nativePriority = (k.thread t).nativePriority ∧
      (s'.thread t).donors = (k.thread t).donors)
    (donor : ∀ t, ∀ donor ∈ (s'.thread t).donors, Donor s' waited' t donor)
    (covered : ∀ w lock t, waited' w = some lock →
      s'.holder lock = some t → ⟨lock, w⟩ ∈ (s'.thread t).donors ∨
        k.priority w ≤ k.priority t) : Donations s' waited' pending' where
  native := native
  waits t other mem := (donor t other mem).waits
  holds t other mem := (donor t other mem).holds
  other t other mem := (donor t other mem).other
  linked t other mem := (donor t other mem).linked
  exact t settled := by
    obtain ⟨exact, same_native, same_donors⟩ := kept t settled
    rw [prio, activePriority_congr same_native same_donors
      fun donor _ => congrFun prio donor.thread]
    exact given.exact t exact
  covered := by
    rw [prio]
    exact covered

section

variable (donations : Donations k waited pending)
include donations

theorem congr (same : SameDonations k s') : Donations s' waited pending := by
  refine donations.revise same.priority ?_
    (fun t settled => ⟨settled, same.native t, same.donors t⟩) ?_ ?_
  · intro t
    rw [same.native]
    exact donations.native t
  · intro t donor mem
    rw [same.donors] at mem
    obtain ⟨waits, holds, o, link⟩ := donations.donor mem
    exact ⟨waits, by rw [same.holder, holds], o, by rw [same.donees, link]⟩
  · intro w lock t
    rw [same.holder, same.donors]
    exact donations.covered w lock t

theorem ne_of_idle {donor : PriorityLock} (idle : waited w = none)
    (mem : donor ∈ (k.thread t).donors) : donor.thread ≠ w := by
  rintro rfl
  have waits := donations.waits t donor mem
  rw [idle] at waits
  cases waits

/-- A thread that waits for a lock without holder may stop waiting. -/
theorem leave (free : ∀ lock, waited w = some lock → k.holder lock = none) :
    Donations k (update waited w none) pending where
  __ := donations
  waits t donor mem := by
    have ne : donor.thread ≠ w := by
      rintro rfl
      have holds := donations.holds t donor mem
      rw [free donor.lock (donations.waits t donor mem)] at holds
      cases holds
    rw [update_of_ne ne]
    exact donations.waits t donor mem
  covered other lock t waits holds := by
    have ne : other ≠ w := by
      rintro rfl
      rw [update_self] at waits
      cases waits
    rw [update_of_ne ne] at waits
    exact donations.covered other lock t waits holds

/-- A thread that waits for nothing may start to wait for a lock whose holder is at least as
urgent. -/
theorem enter (idle : waited w = none) (below : ∀ t, k.holder lock = some t →
      k.priority w ≤ k.priority t) :
    Donations k (update waited w (some lock)) pending where
  __ := donations
  waits t donor mem := by
    rw [update_of_ne (donations.ne_of_idle idle mem)]
    exact donations.waits t donor mem
  covered o queue t waits holds := by
    by_cases same : o = w
    · subst same
      rw [update_self] at waits
      cases waits
      exact .inr (below t holds)
    · rw [update_of_ne same] at waits
      exact donations.covered o queue t waits holds

end

/-- `updateActivePriority` for the pending thread, whose donee becomes pending. -/
theorem update (given : Donations k waited (some t))
    (up : ∀ lock holder, waited t = some lock → k.holder lock = some holder →
      ⟨lock, t⟩ ∈ (k.thread holder).donors ∨ k.activePriority t ≤ k.priority holder)
    (down : ∀ w lock, waited w = some lock → k.holder lock = some t →
      ⟨lock, w⟩ ∈ (k.thread t).donors ∨ k.priority w ≤ k.activePriority t) :
    Donations (k.assignActivePriority t) waited ((k.thread t).donees.map PriorityLock.thread) := by
  have native : ∀ o, ((k.assignActivePriority t).thread o).nativePriority =
      (k.thread o).nativePriority :=
    setThread_field k t _ Thread.nativePriority (by rfl)
  have donors : ∀ o, ((k.assignActivePriority t).thread o).donors = (k.thread o).donors :=
    setThread_field k t _ Thread.donors (by rfl)
  have donees : ∀ o, ((k.assignActivePriority t).thread o).donees = (k.thread o).donees :=
    setThread_field k t _ Thread.donees (by rfl)
  constructor
  · simpa only [native] using given.native
  · simpa only [donors] using given.waits
  · intro o
    rw [donors]
    exact given.holds o
  · simpa only [donors] using given.other
  · simpa only [donors, donees] using given.linked
  · intro o settled
    have unaffected : ∀ donor ∈ (k.thread o).donors,
        (k.assignActivePriority t).priority donor.thread = k.priority donor.thread := by
      intro donor mem
      rw [priority_assignActivePriority, if_neg]
      intro same
      have link := given.linked o donor mem
      rw [same] at link
      rw [link] at settled
      exact settled rfl
    rw [activePriority_congr (native o) (donors o) unaffected, priority_assignActivePriority]
    split
    · rename_i same
      rw [same]
    · rename_i ne
      exact given.exact o fun same => ne (some.inj same).symm
  · intro w lock holder waits holds
    rw [donors, priority_assignActivePriority, priority_assignActivePriority]
    by_cases waiter_eq : w = t
    · subst waiter_eq
      rw [if_pos rfl]
      split
      · exact .inr le_rfl
      · exact up lock holder waits holds
    · rw [if_neg waiter_eq]
      split
      · rename_i holder_eq
        subst holder_eq
        exact down w lock waits holds
      · exact given.covered w lock holder waits holds

/-- `lock_acquire` makes the current thread a donor of the holder and starts to wait. -/
theorem register {target : Tid} (given : Donations k waited none)
    (idle : waited k.current = none) (holds : k.holder lock = some target)
    (ne : k.current ≠ target) (ran : k.registerDonor lock target = some s') :
    Donations s' (Function.update waited k.current (some lock)) (some target) ∧
      ⟨lock, k.current⟩ ∈ (s'.thread target).donors := by
  unfold registerDonor at ran
  split at ran
  · cases ran
    set known := k.setThread target { k.thread target with
      donors := (k.thread target).donors ++ [⟨lock, k.current⟩] } with registered_eq
    set final := known.setThread k.current
      { known.thread k.current with donees := some ⟨lock, target⟩ } with final_eq
    have native : ∀ t, (final.thread t).nativePriority = (k.thread t).nativePriority := fun t =>
      (setThread_field known k.current _ Thread.nativePriority (by rfl) t).trans
        (setThread_field k target _ Thread.nativePriority (by rfl) t)
    have prio : final.priority = k.priority := funext fun t =>
      (setThread_field known k.current _ Thread.priority (by rfl) t).trans
        (setThread_field k target _ Thread.priority (by rfl) t)
    have donors : ∀ t, (final.thread t).donors =
        if t = target then (k.thread target).donors ++ [⟨lock, k.current⟩]
        else (k.thread t).donors := by
      intro t
      refine (setThread_field known k.current _ Thread.donors (by rfl) t).trans ?_
      rw [registered_eq, setThread_thread, update_apply]
      split <;> rfl
    have donees : ∀ t, (final.thread t).donees = if t = k.current then some ⟨lock, target⟩
        else (k.thread t).donees := by
      intro t
      rw [final_eq, setThread_thread, update_apply]
      split
      · rfl
      · exact setThread_field k target _ Thread.donees (by rfl) t
    have mem_iff : ∀ {t donor}, donor ∈ (final.thread t).donors ↔ donor ∈ (k.thread t).donors ∨
          t = target ∧ donor = ⟨lock, k.current⟩ := by
      intro t donor
      rw [donors]
      split
      · rename_i same
        simp [same]
      · rename_i o
        simp [o]
    refine ⟨given.revise prio (fun t => native t ▸ given.native t)
      (fun t settled => ⟨by simp, native t, ?_⟩) ?_ ?_, mem_iff.mpr (.inr ⟨rfl, rfl⟩)⟩
    · rw [donors, if_neg]
      exact fun same => settled (by rw [same])
    · intro t donor mem
      rcases mem_iff.mp mem with mem | ⟨rfl, rfl⟩
      · obtain ⟨waits, holder, o, link⟩ := given.donor mem
        have idle_ne := given.ne_of_idle idle mem
        exact ⟨by rw [update_of_ne idle_ne, waits], holder, o, by rw [donees, if_neg idle_ne, link]⟩
      · exact ⟨update_self .., holds, ne, by rw [donees, if_pos rfl]⟩
    · intro w queue t waits holder
      rw [mem_iff]
      by_cases cur : w = k.current
      · subst cur
        rw [update_self] at waits
        cases waits
        exact .inl (.inr ⟨some.inj (holder.symm.trans holds), rfl⟩)
      · rw [update_of_ne cur] at waits
        exact (given.covered w queue t waits holder).imp_left .inl
  · cases ran

theorem clearDonees (given : Donations k waited pending)
    (idle : waited k.current = none) : Donations k.clearDonees waited pending := by
  have native : ∀ t, (k.clearDonees.thread t).nativePriority = (k.thread t).nativePriority :=
    setThread_field k k.current _ Thread.nativePriority (by rfl)
  have donors : ∀ t, (k.clearDonees.thread t).donors = (k.thread t).donors :=
    setThread_field k k.current _ Thread.donors (by rfl)
  refine given.revise (funext (setThread_field k k.current _ Thread.priority (by rfl)))
    (fun t => native t ▸ given.native t)
    (fun t settled => ⟨settled, native t, donors t⟩) ?_ ?_
  · intro t donor mem
    rw [donors] at mem
    obtain ⟨waits, holds, o, link⟩ := given.donor mem
    refine ⟨waits, holds, o, ?_⟩
    rw [Kernel.clearDonees, Kernel.setThread_thread, update_of_ne (given.ne_of_idle idle mem), link]
  · intro w lock t
    rw [donors]
    exact given.covered w lock t

/-- An update that would change nothing is no longer pending. -/
theorem settle (given : Donations k waited (some t)) (exact : k.priority t = k.activePriority t) :
    Donations k waited none where
  __ := given
  exact o _ := by
    by_cases same : t = o
    · rw [← same]
      exact exact
    · exact given.exact o fun eq => same (some.inj eq)

/-- `thread_set_priority` leaves the priority of the current thread to be updated. -/
theorem setNativePriority (given : Donations k waited none) (prio : Int) :
    Donations (k.setNativePriority prio) waited (some k.current) := by
  have donors : ∀ t, ((k.setNativePriority prio).thread t).donors = (k.thread t).donors :=
    setThread_field k k.current _ Thread.donors (by rfl)
  have donees : ∀ t, ((k.setNativePriority prio).thread t).donees = (k.thread t).donees :=
    setThread_field k k.current _ Thread.donees (by rfl)
  refine given.revise (funext (setThread_field k k.current _ Thread.priority (by rfl))) ?_
    (fun t settled => ⟨by simp, ?_, donors t⟩) ?_ ?_
  · intro t
    rw [Kernel.setNativePriority, Kernel.setThread_thread, update_apply]
    split
    · exact priMin_le_clampPriority prio
    · exact given.native t
  · rw [Kernel.setNativePriority, Kernel.setThread_thread, update_of_ne]
    exact fun same => settled (by rw [same])
  · intro t donor mem
    rw [donors] at mem
    obtain ⟨waits, holds, o, link⟩ := given.donor mem
    exact ⟨waits, holds, o, by rw [donees, link]⟩
  · intro w lock t
    rw [donors]
    exact given.covered w lock t

/-- Who waits, when the waiters of one lock no longer count. -/
def withoutLock (waited : Tid → Option LockId) (lock : LockId) (thread : Tid) : Option LockId :=
  if waited thread = some lock then none else waited thread

theorem withoutLock_eq_some {o : LockId} :
    withoutLock waited lock t = some o ↔ waited t = some o ∧ o ≠ lock := by
  unfold withoutLock
  split
  · rename_i same
    rw [same]
    simp only [reduceCtorEq, false_iff, not_and, not_not]
    exact fun eq => (some.inj eq).symm
  · rename_i ne
    constructor
    · intro waits
      refine ⟨waits, ?_⟩
      rintro rfl
      exact ne waits
    · exact And.left

/-- The holder of a lock gives back the donations that came through it. -/
theorem withdraw {kept : List PriorityLock} (given : Donations k waited none)
    (holds : k.holder lock = some k.current) (members : ∀ donor, donor ∈ kept ↔
      donor ∈ (k.thread k.current).donors ∧ donor.lock ≠ lock) :
    Donations (k.setThread k.current { k.thread k.current with donors := kept })
      (withoutLock waited lock) (some k.current) := by
  set final := k.setThread k.current { k.thread k.current with donors := kept } with final_eq
  have native : ∀ t, (final.thread t).nativePriority = (k.thread t).nativePriority :=
    setThread_field k k.current _ Thread.nativePriority (by rfl)
  have donees : ∀ t, (final.thread t).donees = (k.thread t).donees :=
    setThread_field k k.current _ Thread.donees (by rfl)
  have donors : ∀ t, (final.thread t).donors =
      if t = k.current then kept else (k.thread t).donors := by
    intro t
    rw [final_eq, setThread_thread, update_apply]
    split <;> rfl
  have mem_iff : ∀ t donor, donor ∈ (final.thread t).donors ↔
      donor ∈ (k.thread t).donors ∧ donor.lock ≠ lock := by
    intro t donor
    rw [donors]
    split
    · rename_i same
      rw [same]
      exact members donor
    · rename_i ne
      refine (and_iff_left_of_imp fun mem => ?_).symm
      rintro rfl
      have holder := given.holds t donor mem
      rw [holds] at holder
      exact ne (some.inj holder).symm
  refine given.revise (funext (setThread_field k k.current _ Thread.priority (by rfl)))
    (fun t => native t ▸ given.native t)
    (fun t settled => ⟨by simp, native t, ?_⟩) ?_ ?_
  · rw [donors, if_neg]
    exact fun same => settled (by rw [same])
  · intro t donor mem
    obtain ⟨mem, ne⟩ := (mem_iff t donor).mp mem
    obtain ⟨waits, holder, o, link⟩ := given.donor mem
    exact ⟨withoutLock_eq_some.mpr ⟨waits, ne⟩, holder, o, by rw [donees, link]⟩
  · intro w queue t waits holder
    obtain ⟨waits, ne⟩ := withoutLock_eq_some.mp waits
    refine (given.covered w queue t waits holder).imp_left fun mem => ?_
    exact (mem_iff t _).mpr ⟨mem, ne⟩

/-- What `lock_release` needs to know about the donors of the current thread: if some of them came
through the lock, the current thread runs above its native priority, and the last of the array came
through the lock or a donor of another lock is as urgent as the current thread. -/
def Returnable (k : Kernel) (lock : LockId) : Prop :=
  (∃ donor ∈ (k.thread k.current).donors, donor.lock = lock) →
    (k.thread k.current).nativePriority < k.priority k.current ∧
      ((k.thread k.current).donors.getLast?.map PriorityLock.lock = some lock ∨
        ∃ donor ∈ (k.thread k.current).donors, donor.lock ≠ lock ∧
          k.priority donor.thread = k.priority k.current)

theorem release (given : Donations k waited none)
    (holds : k.holder lock = some k.current) (returnable : Returnable k lock) :
    Donations (k.releaseDonors lock).2 (withoutLock waited lock)
      (if (k.releaseDonors lock).1 then some k.current else none) := by
  by_cases boosted : (k.thread k.current).nativePriority < (k.thread k.current).priority
  · obtain ⟨kept, members, final, last⟩ := releaseDonors_spec k lock boosted
    have withdrawn := given.withdraw holds members
    rw [← final] at withdrawn
    cases flag : (k.releaseDonors lock).1 with
    | true => exact withdrawn
    | false =>
      refine withdrawn.settle ?_
      have prio : (k.releaseDonors lock).2.priority = k.priority := by
        rw [final]
        exact funext (setThread_field k k.current _ Thread.priority (by rfl))
      have record : (k.releaseDonors lock).2.thread k.current =
          { k.thread k.current with donors := kept } := by
        rw [final, setThread_thread, update_self]
      have native : priMin ≤ ((k.releaseDonors lock).2.thread k.current).nativePriority := by
        rw [record]
        exact given.native k.current
      have old := isGreatest_activePriority (given.native k.current)
      rw [← given.exact k.current (by simp)] at old
      refine IsGreatest.unique ?_ (isGreatest_activePriority native)
      unfold offered
      rw [record, prio]
      have attained : ∃ donor ∈ kept, k.priority donor.thread = k.priority k.current := by
        by_cases through : ∃ donor ∈ (k.thread k.current).donors, donor.lock = lock
        · rcases (returnable through).2 with is_last | ⟨donor, mem, ne, eq⟩
          · obtain ⟨donor, found, same⟩ := map_eq_some_iff.mp is_last
            exact (last flag donor found same).elim
          · exact ⟨donor, (members donor).mpr ⟨mem, ne⟩, eq⟩
        · rcases old.1 with eq | ⟨donor, mem, eq⟩
          · change k.priority k.current = _ at eq
            unfold Kernel.priority at eq
            omega
          · refine ⟨donor, (members donor).mpr ⟨mem, ?_⟩, eq⟩
            exact fun same => through ⟨donor, mem, same⟩
      constructor
      · exact .inr attained
      · rintro offer (rfl | ⟨donor, mem, rfl⟩)
        · exact old.2 (.inl rfl)
        · exact old.2 (.inr ⟨donor, ((members donor).mp mem).1, rfl⟩)
  · have unchanged : k.releaseDonors lock = (false, k) := by
      unfold releaseDonors
      exact if_neg boosted
    rw [unchanged]
    have none_through : ∀ donor, donor ∈ (k.thread k.current).donors ↔
        donor ∈ (k.thread k.current).donors ∧ donor.lock ≠ lock := by
      intro donor
      refine ⟨fun mem => ⟨mem, fun same => ?_⟩, And.left⟩
      exact boosted (returnable ⟨donor, mem, same⟩).1
    have withdrawn := given.withdraw holds none_through
    have same : k.setThread k.current { k.thread k.current with
        donors := (k.thread k.current).donors } = k := by
      unfold setThread
      rw [update_eq_self]
    rw [same] at withdrawn
    exact withdrawn.settle (given.exact k.current (by simp))

/-- `lock->holder = NULL`, once the donations through the lock are returned. -/
theorem dropLock (given : Donations k (withoutLock waited lock) pending) :
    Donations (k.setHolder lock none) waited pending where
  __ := given
  waits t donor mem := (withoutLock_eq_some.mp (given.waits t donor mem)).1
  holds t donor mem := by
    obtain ⟨-, ne⟩ := withoutLock_eq_some.mp (given.waits t donor mem)
    exact (update_of_ne ne _ _).trans (given.holds t donor mem)
  covered w queue t waits holds := by
    have ne : queue ≠ lock := by
      rintro rfl
      have free : (k.setHolder queue none).holder queue = none := update_self _ _ _
      rw [free] at holds
      cases holds
    refine given.covered w queue t ?_ ?_
    · exact withoutLock_eq_some.mpr ⟨waits, ne⟩
    · rw [← holds]
      exact (update_of_ne ne _ _).symm

/-- `lock->holder = thread_current ()`, when no waiter of the lock is more urgent. -/
theorem takeLock (given : Donations k waited pending) (free : k.holder lock = none)
    (below : ∀ w, waited w = some lock → k.priority w ≤ k.priority k.current) :
    Donations (k.setHolder lock (some k.current)) waited pending where
  __ := given
  holds t donor mem := by
    have held := given.holds t donor mem
    have ne : donor.lock ≠ lock := by
      intro same
      rw [same, free] at held
      cases held
    exact (update_of_ne ne _ _).trans held
  covered w queue t waits holds := by
    by_cases same : queue = lock
    · subst same
      have held : (k.setHolder queue (some k.current)).holder queue =
          some k.current := update_self _ _ _
      rw [held] at holds
      rw [← some.inj holds]
      exact .inr (below w waits)
    · refine given.covered w queue t waits ?_
      rw [← holds]
      exact (update_of_ne same _ _).symm

/-- A thread that neither waits nor holds a lock may get a new record without donors. -/
theorem reset {record : Thread} (given : Donations k waited none)
    (idle : waited t = none) (free : ∀ lock, k.holder lock ≠ some t)
    (donors : record.donors = []) (eq : record.priority = record.nativePriority)
    (native : priMin ≤ record.nativePriority) :
    Donations (k.setThread t record) waited none := by
  have old : ∀ {other}, other ≠ t → (k.setThread t record).thread other = k.thread other :=
    fun ne => update_of_ne ne _ _
  have new : (k.setThread t record).thread t = record := update_self _ _ _
  have prio : ∀ {other}, other ≠ t → (k.setThread t record).priority other = k.priority other :=
    fun ne => congrArg Thread.priority (old ne)
  have member_old : ∀ {other donor}, donor ∈ ((k.setThread t record).thread other).donors →
        other ≠ t ∧ donor ∈ (k.thread other).donors := by
    intro other donor mem
    by_cases fresh : other = t
    · rw [fresh, new, donors] at mem
      cases mem
    · rw [old fresh] at mem
      exact ⟨fresh, mem⟩
  constructor
  · intro other
    by_cases fresh : other = t
    · rw [fresh, new]
      exact native
    · rw [old fresh]
      exact given.native other
  · intro other donor mem
    exact given.waits other donor (member_old mem).2
  · intro other donor mem
    exact given.holds other donor (member_old mem).2
  · intro other donor mem
    exact given.other other donor (member_old mem).2
  · intro other donor mem
    obtain ⟨-, mem⟩ := member_old mem
    rw [old (given.ne_of_idle idle mem)]
    exact given.linked other donor mem
  · intro other _
    by_cases fresh : other = t
    · subst fresh
      refine IsGreatest.unique ?_ (isGreatest_activePriority (by rw [new]; exact native))
      unfold Kernel.offered Kernel.priority
      rw [new, donors, eq]
      simp
    · rw [prio fresh, activePriority_congr (congrArg Thread.nativePriority (old fresh))
        (congrArg Thread.donors (old fresh))
        fun donor mem => prio (given.ne_of_idle idle mem)]
      exact given.exact other (by simp)
  · intro w lock other waits holds
    have waiter_old : w ≠ t := by
      rintro rfl
      rw [idle] at waits
      cases waits
    have other_old : other ≠ t := by
      rintro rfl
      exact free lock holds
    rw [old other_old, prio waiter_old, prio other_old]
    exact given.covered w lock other waits holds

theorem createThread {prio : Int} (given : Donations k waited none)
    (unborn : waited k.threads = none)
    (holders : ∀ lock, k.holder lock ≠ some k.threads)
    (ran : k.createThread prio = some s') : Donations s' waited none := by
  unfold Kernel.createThread at ran
  split at ran
  · rename_i range
    have same := SameDonations.ofMadeReady (madeReady_of_threadUnblock ran).2
    have fresh : Donations (k.setThread k.threads ⟨.blocked, prio, prio, [], none⟩) waited none :=
      given.reset unborn holders rfl rfl range.1
    exact fresh.congr ⟨same.native, same.priority, same.donors, same.donees, same.holder⟩
  · cases ran

end Donations

end Pintos.Threads
