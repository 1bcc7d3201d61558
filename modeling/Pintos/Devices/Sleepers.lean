import Pintos.Devices.SleepQueue

/-!
# The invariant of the sleep queue

`timer_wake` stops at the first entry that is not due and so relies on a sorted queue.  A thread looks
for its place in the queue with interrupts enabled; the place stays right as long as nobody unlinks
the entry it points to, or puts a later entry right in front of it.
-/

namespace Pintos.Devices

open Function Threads Option List Nat

/-! ## Places -/

/-- The thread has an entry of its own that is not in the queue yet. -/
structure Scanning (k : Kernel) (list : SleepList) (t : Tid) (new : ElemId) : Prop where
  owner : (list.elem new).currentThread = t
  allocated : new < list.elems
  absent : new ∉ list.sleepQueue
  unmarked : (list.elem new).removeFlag = false
  awake : k.status t ≠ .blocked

/-- The pointer may be used and all entries in front of it are due no later. -/
structure Passed (list : SleepList) (new : ElemId) (cursor : Option ElemId) : Prop where
  valid : Cursor.Valid list.sleepQueue cursor
  earlier : ∀ other ∈ Cursor.before list.sleepQueue cursor,
    (list.elem other).wakeTicks ≤ (list.elem new).wakeTicks

/-- The place of a thread in `timer_sleep` agrees with the queue. -/
inductive PlaceFits (k : Kernel) (list : SleepList) (t : Tid) : Place → Prop
  | outside : PlaceFits k list t .outside
  | first {new} (scanning : Scanning k list t new) : PlaceFits k list t (.first new)
  | test {new cursor} (scanning : Scanning k list t new)
      (passed : Passed list new cursor) : PlaceFits k list t (.test new cursor)
  | unlink {new elem} (scanning : Scanning k list t new)
      (passed : Passed list new (some elem)) (marked : (list.elem elem).removeFlag) :
      PlaceFits k list t (.unlink new elem)
  | compare {new elem} (scanning : Scanning k list t new)
      (passed : Passed list new (some elem)) : PlaceFits k list t (.compare new elem)
  | insert {new elem} (scanning : Scanning k list t new) (passed : Passed list new (some elem))
      (later : (list.elem new).wakeTicks < (list.elem elem).wakeTicks) :
      PlaceFits k list t (.insert new elem)
  | head {new} (scanning : Scanning k list t new) : PlaceFits k list t (.next new none)
  | next {new elem} (scanning : Scanning k list t new) (passed : Passed list new (some elem))
      (here : (list.elem elem).wakeTicks ≤ (list.elem new).wakeTicks) :
      PlaceFits k list t (.next new (some elem))
  | asleep {new} (owner : (list.elem new).currentThread = t) (allocated : new < list.elems)
      (woken : (list.elem new).removeFlag = true → k.status t ≠ .blocked)
      (sleeps : (list.elem new).removeFlag = false →
        new ∈ list.sleepQueue ∧ k.status t = .blocked) :
      PlaceFits k list t (.asleep new)

/-- The queue is sorted, and every thread and every entry is where it should be. -/
structure SleepInvariant (clock : Clock) : Prop extends MachineInvariant clock.toMachine where
  waiters : WaitersInvariant clock.toMachine
  calling : ∀ t, clock.place t ≠ .outside → t < clock.threads ∧ clock.code t = []
  places : ∀ t, PlaceFits clock.toKernel clock.toSleepList t (clock.place t)
  allocated : ∀ elem ∈ clock.sleepQueue, elem < clock.elems
  sleeping : ∀ elem ∈ clock.sleepQueue, (clock.elem elem).removeFlag = false →
    clock.place (clock.elem elem).currentThread = .asleep elem
  due : ∀ elem ∈ clock.sleepQueue, (clock.elem elem).removeFlag = true →
    (clock.elem elem).wakeTicks ≤ clock.ticks
  nodup : clock.sleepQueue.Nodup
  sorted : clock.sleepQueue.Pairwise fun first second =>
    (clock.elem first).wakeTicks ≤ (clock.elem second).wakeTicks
  blank : ∀ elem, clock.elems ≤ elem → (clock.elem elem).removeFlag = false
  counts : ∀ elem, clock.unblocks elem = if (clock.elem elem).removeFlag then 1 else 0

theorem sleepInvariant_boot (values : Nat → Nat) : SleepInvariant (clockBoot values) where
  toMachineInvariant := machineInvariant_boot values
  waiters := waitersInvariant_boot values
  calling _ inside := (inside rfl).elim
  places _ := .outside
  allocated _ mem := nomatch mem
  sleeping _ mem := nomatch mem
  due _ mem := nomatch mem
  nodup := nodup_nil
  sorted := .nil
  blank _ _ := rfl
  counts _ := rfl

/-! ## What a step keeps for other threads -/

/-- Entries keep their owners and times, and are marked but not unmarked. -/
structure KeepsElems (s s' : SleepList) : Prop where
  owner : ∀ elem < s.elems, (s'.elem elem).currentThread = (s.elem elem).currentThread
  wakeTicks : ∀ elem < s.elems, (s'.elem elem).wakeTicks = (s.elem elem).wakeTicks
  marked : ∀ elem < s.elems, (s.elem elem).removeFlag = true → (s'.elem elem).removeFlag = true
  elems : s.elems ≤ s'.elems

section Carry

variable {k changed : Kernel} {s s' : SleepList} {t : Tid} {place : Place}

theorem KeepsElems.of_eq (elem : s'.elem = s.elem) (elems : s'.elems = s.elems) :
    KeepsElems s s' := by
  constructor
  · simp [elem]
  · simp [elem]
  · simp [elem]
  · exact elems.ge

theorem PlaceFits.own_spec {new : ElemId} (fits : PlaceFits k s t place)
    (own : place.own = some new) :
    (s.elem new).currentThread = t ∧ new < s.elems := by
  cases fits with
  | outside => cases own
  | first scans | test scans | unlink scans | compare scans | insert scans
  | head scans | next scans =>
    cases own
    exact ⟨scans.owner, scans.allocated⟩
  | asleep owner taken =>
    cases own
    exact ⟨owner, taken⟩

theorem PlaceFits.mem_of_refersTo {elem : ElemId} (fits : PlaceFits k s t place)
    (refers : place.refersTo elem) : elem ∈ s.sleepQueue := by
  cases fits with
  | outside | first | asleep | head => simp [Place.refersTo, Place.target] at refers
  | test _ passed | unlink _ passed | compare _ passed | insert _ passed | next _ passed =>
    refine passed.valid elem ?_
    simpa [Place.refersTo, Place.target] using refers

theorem Passed.congr {new : ElemId} {cursor : Option ElemId} (passed : Passed s new cursor)
    (queue : s'.sleepQueue = s.sleepQueue) (keeps : KeepsElems s s')
    (taken : ∀ elem ∈ s.sleepQueue, elem < s.elems) (owned : new < s.elems) :
    Passed s' new cursor := by
  refine ⟨queue ▸ passed.valid, fun o mem => ?_⟩
  rw [queue] at mem
  rw [keeps.wakeTicks new owned, keeps.wakeTicks o (taken o (Cursor.mem_of_mem_before mem))]
  exact passed.earlier o mem

/-- The pointer of a place, at an entry or at the end of the queue. -/
def Place.points (place : Place) (cursor : Option ElemId) : Prop :=
  place.target = some cursor ∨ ∃ new elem, place = .next new (some elem) ∧ cursor = some elem

/-- A thread keeps its place when its own entry, its status and the entries in front of its pointer
are as before. -/
theorem PlaceFits.carry (fits : PlaceFits k s t place) (keeps : KeepsElems s s')
    (own : ∀ new, place.own = some new → (s'.elem new).removeFlag = (s.elem new).removeFlag ∧
        ((s.elem new).removeFlag = false → (new ∈ s'.sleepQueue ↔ new ∈ s.sleepQueue)))
    (status : changed.status t = .blocked ↔ k.status t = .blocked)
    (passed : ∀ new cursor, place.own = some new → place.points cursor → Passed s new cursor →
      Passed s' new cursor)
    (taken : ∀ elem ∈ s.sleepQueue, elem < s.elems) :
    PlaceFits changed s' t place := by
  have pointed : ∀ {elem}, place.refersTo elem → elem < s.elems :=
    fun refers => taken _ (fits.mem_of_refersTo refers)
  have scans : ∀ {new}, place.own = some new → Scanning k s t new → Scanning changed s' t new := by
    intro new is_own scanning
    obtain ⟨flag, mem⟩ := own new is_own
    exact ⟨(keeps.owner new scanning.allocated).trans scanning.owner,
      scanning.allocated.trans_le keeps.elems,
      fun inside => scanning.absent ((mem scanning.unmarked).mp inside),
      flag.trans scanning.unmarked, fun blocked => scanning.awake (status.mp blocked)⟩
  cases fits with
  | outside => exact .outside
  | first scanning => exact .first (scans rfl scanning)
  | test scanning s => exact .test (scans rfl scanning) (passed _ _ rfl (.inl rfl) s)
  | @unlink new elem scanning s marked =>
    exact .unlink (scans rfl scanning) (passed _ _ rfl (.inl rfl) s)
      (keeps.marked elem (pointed (by simp [Place.refersTo, Place.target])) marked)
  | compare scanning s =>
    exact .compare (scans rfl scanning) (passed _ _ rfl (.inl rfl) s)
  | @insert new elem scanning s later =>
    refine .insert (scans rfl scanning) (passed _ _ rfl (.inl rfl) s) ?_
    rw [keeps.wakeTicks new scanning.allocated,
      keeps.wakeTicks elem (pointed (by simp [Place.refersTo, Place.target]))]
    exact later
  | head scanning => exact .head (scans rfl scanning)
  | @next new elem scanning s here =>
    refine .next (scans rfl scanning) (passed _ _ rfl (.inr ⟨_, _, rfl, rfl⟩) s) ?_
    rw [keeps.wakeTicks new scanning.allocated,
      keeps.wakeTicks elem (pointed (by simp [Place.refersTo]))]
    exact here
  | @asleep new owner taken woken sleeps =>
    obtain ⟨flag, mem⟩ := own new rfl
    refine .asleep ((keeps.owner new taken).trans owner) (taken.trans_le keeps.elems) ?_ ?_
    · intro marked
      rw [flag] at marked
      exact fun blocked => woken marked (status.mp blocked)
    · intro plain
      rw [flag] at plain
      obtain ⟨inside, blocked⟩ := sleeps plain
      exact ⟨(mem plain).mpr inside, status.mpr blocked⟩

/-- While the queue and the entries stay as they are, places stay right. -/
theorem PlaceFits.congr (fits : PlaceFits k s t place)
    (queue : s'.sleepQueue = s.sleepQueue) (keeps : KeepsElems s s')
    (flags : ∀ elem < s.elems, (s'.elem elem).removeFlag = (s.elem elem).removeFlag)
    (status : changed.status t = .blocked ↔ k.status t = .blocked)
    (taken : ∀ elem ∈ s.sleepQueue, elem < s.elems) :
    PlaceFits changed s' t place := by
  refine fits.carry keeps (fun new own => ?_) status (fun new cursor own _ passed => ?_) taken
  · exact ⟨flags new (fits.own_spec own).2, fun _ => by rw [queue]⟩
  · exact passed.congr queue keeps taken (fits.own_spec own).2

end Carry

/-! ## Steps -/

namespace SleepInvariant

variable {s : Clock} {elem : ElemId} {place : Place} (inv : SleepInvariant s)
include inv

theorem owner_ne_current (mem : elem ∈ s.sleepQueue) (plain : (s.elem elem).removeFlag = false) :
    (s.elem elem).currentThread ≠ s.current := by
  intro same
  have place := inv.sleeping elem mem plain
  have fits := inv.places (s.elem elem).currentThread
  rw [place] at fits
  cases fits with
  | asleep _ _ _ sleeps =>
    refine inv.awake ?_
    rw [← same]
    exact (sleeps plain).2

/-- A thread that moves on in `timer_sleep` is still the only one that does. -/
theorem calling_update (mid : s.code s.current = []) {t : Tid}
    (inside : update s.place s.current place t ≠ .outside) :
    t < s.threads ∧ s.code t = [] := by
  by_cases same : t = s.current
  · subst same
    exact ⟨inv.ready.born, mid⟩
  · rw [update_of_ne same] at inside
    exact inv.calling t inside

theorem sleeping_update (mem : elem ∈ s.sleepQueue) (plain : (s.elem elem).removeFlag = false) :
    update s.place s.current place (s.elem elem).currentThread = .asleep elem := by
  rw [update_of_ne (inv.owner_ne_current mem plain)]
  exact inv.sleeping elem mem plain

theorem machineStep {e : Event} {s' : Clock} (ok : s.admits e)
    (ran : s.machineStep e = some s') : SleepInvariant s' := by
  obtain ⟨m, steps, rfl⟩ := map_eq_some_iff.mp ran
  have paused : ∀ t, s.place t ≠ .outside → t ≠ s.current ∨ e = .timer := by
    intro t inside
    by_cases same : t = s.current
    · subst same
      cases e with
      | start op => exact (inside (by simpa [Clock.admits] using ok)).elim
      | run =>
        obtain ⟨instr, rest, _, _, code, _, _⟩ := execute_of_run steps
        rw [(inv.calling _ inside).2] at code
        cases code
      | timer => exact .inr rfl
    · exact .inl same
  refine ⟨inv.toMachineInvariant.step steps,
    inv.waiters.step inv.toMachineInvariant steps, fun t inside => ?_,
    fun t => ?_, inv.allocated, inv.sleeping, inv.due, inv.nodup,
    inv.sorted, inv.blank, inv.counts⟩
  · obtain ⟨born, mid⟩ := inv.calling t inside
    exact ⟨born.trans_le (threads_le_step steps), (code_of_step steps (paused t inside)).trans mid⟩
  · by_cases out : s.place t = .outside
    · change PlaceFits _ _ t (s.place t)
      rw [out]
      exact .outside
    · obtain ⟨born, mid⟩ := inv.calling t out
      exact (inv.places t).congr rfl (.of_eq rfl rfl) (fun _ _ => rfl)
        (inv.toMachineInvariant.blocked_step inv.waiters born mid
          (paused t out) steps) inv.allocated

theorem setPlace (mid : s.code s.current = [])
    (fits : PlaceFits s.toKernel s.toSleepList s.current place) :
    SleepInvariant (s.setPlace place) := by
  refine ⟨inv.toMachineInvariant, inv.waiters, fun _ => inv.calling_update mid,
    ?_, inv.allocated, fun elem => inv.sleeping_update, inv.due,
    inv.nodup, inv.sorted, inv.blank, inv.counts⟩
  exact (forall_update_iff s.place (PlaceFits _ _)).mpr ⟨fits, fun t _ => inv.places t⟩

theorem timerSleep (ticks : Int) (mid : s.code s.current = []) :
    SleepInvariant (s.timerSleep ticks) := by
  have old : ∀ elem < s.elems, (s.timerSleep ticks).elem elem = s.elem elem :=
    fun elem taken => update_of_ne (Nat.ne_of_lt taken) _ _
  have queued : ∀ elem ∈ s.sleepQueue, (s.timerSleep ticks).elem elem = s.elem elem :=
    fun elem mem => old elem (inv.allocated elem mem)
  have made : (s.timerSleep ticks).elem s.elems =
      ⟨s.ticks + ticks, s.current, false⟩ := update_self ..
  have keeps : KeepsElems s.toSleepList (s.timerSleep ticks).toSleepList := by
    refine ⟨fun elem taken => ?_, fun elem taken => ?_, fun elem taken => ?_, le_succ _⟩
    · rw [old elem taken]
    · rw [old elem taken]
    · rw [old elem taken]
      exact id
  refine ⟨inv.toMachineInvariant, inv.waiters, fun _ => inv.calling_update mid,
    ?_, fun elem mem => (inv.allocated elem mem).trans (lt_succ_self _),
    fun elem mem plain => ?_, fun elem mem marked => ?_, inv.nodup, ?_,
    fun elem beyond => ?_, fun elem => ?_⟩
  · refine (forall_update_iff s.place (PlaceFits _ _)).mpr ⟨?_, fun t _ => ?_⟩
    · refine .first ⟨by rw [made], lt_succ_self _, fun mem => ?_, by rw [made], inv.awake⟩
      exact lt_irrefl _ (inv.allocated _ mem)
    · exact (inv.places t).congr rfl keeps
        (fun elem taken => by rw [old elem taken]) Iff.rfl inv.allocated
  · rw [queued elem mem] at plain ⊢
    exact inv.sleeping_update mem plain
  · rw [queued elem mem] at marked ⊢
    exact inv.due elem mem marked
  · refine inv.sorted.imp_of_mem fun fst snd ordered => ?_
    rwa [queued _ fst, queued _ snd]
  · have o : elem ≠ s.elems := ne_of_gt beyond
    rw [show (s.timerSleep ticks).elem elem = s.elem elem from update_of_ne o _ _]
    exact inv.blank elem (le_of_succ_le beyond)
  · change s.unblocks elem = _
    rw [inv.counts]
    by_cases same : elem = s.elems
    · subst same
      rw [made, inv.blank _ le_rfl]
    · rw [show (s.timerSleep ticks).elem elem = s.elem elem from update_of_ne same _ _]

theorem insertAndBlock {s' : Clock} {new : ElemId} {cursor : Option ElemId}
    (mid : s.code s.current = [])
    (scans : Scanning s.toKernel s.toSleepList s.current new)
    (passed : Passed s.toSleepList new cursor) (ahead : ∀ elem, cursor = some elem →
      (s.elem new).wakeTicks < (s.elem elem).wakeTicks)
    (fits : ∀ t, t ≠ s.current → (s.place t).target = some cursor →
      ∀ o, (s.place t).own = some o → (s.elem new).wakeTicks ≤ (s.elem o).wakeTicks)
    (ran : s.insertAndBlock new cursor = some s') : SleepInvariant s' := by
  obtain ⟨blocked, blocks, rfl⟩ := map_eq_some_iff.mp ran
  have notIdle : ∀ {t}, s.code t = [] → t ≠ s.idleThread := by
    rintro t empty rfl
    rw [inv.idleCode] at empty
    cases empty
  have code : update s.code s.current [] = s.code := update_eq_self_iff.mpr mid.symm
  obtain ⟨next, moved⟩ := Kernel.switched_of_schedule blocks
  refine ⟨⟨inv.ready.threadBlock blocks, ?_, fun t unborn => ?_⟩, ?_,
    fun t inside => ?_, ?_, fun elem mem => ?_, fun elem mem plain => ?_,
    fun elem mem marked => ?_, Cursor.nodup_insertBefore inv.nodup scans.absent, ?_,
    inv.blank, inv.counts⟩
  · exact (congrArg s.code moved.idleThread).trans inv.idleCode
  · exact inv.unbornCode t (moved.threads ▸ unborn)
  · refine inv.waiters.congr ?_ fun sema => by
      exact congrArg (fun semaphore => (semaphore sema).waiters) moved.semaphore
    have idle : waitsOf (update s.code s.current [] s.idleThread) = none := by
      rw [code, inv.idleCode]
      rfl
    have asleep := MachineInvariant.asleep_threadBlock inv.ready idle blocks
    rw [code] at asleep
    refine asleep.trans (update_eq_self_iff.mpr ?_)
    exact inv.asleep_current.symm
  · obtain ⟨born, empty⟩ := inv.calling_update mid inside
    exact ⟨moved.threads ▸ born, empty⟩
  · refine (forall_update_iff s.place (PlaceFits _ _)).mpr ⟨?_, fun t same => ?_⟩
    · refine .asleep scans.owner scans.allocated (fun marked => ?_) fun _ =>
        ⟨Cursor.mem_insertBefore.mpr (.inl rfl), ?_⟩
      · exact absurd (scans.unmarked.symm.trans marked) (by simp)
      · exact (inv.ready.blocked_threadBlock blocks (notIdle mid)).mpr (.inr rfl)
    · by_cases out : s.place t = .outside
      · rw [out]
        exact .outside
      have status := inv.ready.blocked_threadBlock blocks (notIdle (inv.calling t out).2)
      rw [or_iff_left same] at status
      have place := inv.places t
      refine place.carry (.of_eq rfl rfl) (fun o own => ⟨rfl, fun _ => ?_⟩) status
        (fun o pointer own points behind => ⟨fun elem here => ?_, fun elem mem => ?_⟩)
        inv.allocated
      · refine Cursor.mem_insertBefore.trans (or_iff_right ?_)
        rintro rfl
        exact same ((place.own_spec own).1.symm.trans scans.owner)
      · exact Cursor.mem_insertBefore.mpr (.inr (behind.valid elem here))
      · rcases Cursor.mem_before_insertBefore passed.valid behind.valid scans.absent mem with
          inside | ⟨rfl, rfl | ⟨there, here, inside⟩⟩
        · exact behind.earlier elem inside
        · rcases points with target | ⟨next, here, is_next, rfl⟩
          · exact fits t same target o own
          · rw [is_next] at place own
            cases own
            cases place with
            | next _ _ no_later => exact (ahead here rfl).le.trans no_later
        · exact (ahead there here).le.trans (behind.earlier there inside)
  · rcases Cursor.mem_insertBefore.mp mem with rfl | inside
    · exact scans.allocated
    · exact inv.allocated elem inside
  · rcases Cursor.mem_insertBefore.mp mem with rfl | inside
    · change update s.place s.current _ (s.elem elem).currentThread = _
      rw [scans.owner, update_self]
    · exact inv.sleeping_update inside plain
  · rcases Cursor.mem_insertBefore.mp mem with rfl | inside
    · exact absurd (scans.unmarked.symm.trans marked) (by simp)
    · exact inv.due elem inside marked
  · exact Cursor.pairwise_insertBefore le_trans inv.sorted passed.earlier
      fun elem here => (ahead elem here).le

/-- `list_remove` of a marked entry that no other thread points to. -/
theorem unlink {new : ElemId} (mid : s.code s.current = [])
    (scanning : Scanning s.toKernel s.toSleepList s.current new)
    (passed : Passed s.toSleepList new (some elem)) (marked : (s.elem elem).removeFlag)
    (fits : ∀ t, t ≠ s.current → ¬ (s.place t).refersTo elem) :
    SleepInvariant { s.setPlace (.next new (Cursor.prior s.sleepQueue elem)) with
        sleepQueue := s.sleepQueue.erase elem } := by
  have subset : ∀ {other}, other ∈ s.sleepQueue.erase elem → other ∈ s.sleepQueue :=
    fun mem => mem_of_mem_erase mem
  refine ⟨inv.toMachineInvariant, inv.waiters, fun _ => inv.calling_update mid,
    ?_, fun other mem => inv.allocated other (subset mem),
    fun other mem => inv.sleeping_update (subset mem),
    fun other mem => inv.due other (subset mem), inv.nodup.erase elem,
    inv.sorted.sublist erase_sublist, inv.blank, inv.counts⟩
  · refine (forall_update_iff s.place (PlaceFits _ _)).mpr ⟨?_, fun t same => ?_⟩
    · have scans : Scanning s.toKernel { s.toSleepList with sleepQueue := s.sleepQueue.erase elem }
          s.current new :=
        ⟨scanning.owner, scanning.allocated, fun mem => scanning.absent (subset mem),
          scanning.unmarked, scanning.awake⟩
      cases prior : Cursor.prior s.sleepQueue elem with
      | none => exact .head scans
      | some last =>
        have inside := Cursor.mem_before_of_prior prior
        have other : last ≠ elem := by
          rintro rfl
          exact Cursor.not_mem_before_self _ _ inside
        refine .next scans ⟨fun found here => ?_, fun found mem => ?_⟩ (passed.earlier last inside)
        · cases here
          exact (mem_erase_of_ne other).mpr (Cursor.mem_of_mem_before inside)
        · have prev := Cursor.mem_before_erase (fun same => other (some.inj same)) mem
          exact passed.earlier found (Cursor.before_trans inside prev)
    · have place := inv.places t
      have away : ∀ {cursor}, (s.place t).points cursor → cursor ≠ some elem := by
        rintro cursor points rfl
        refine fits t same ?_
        rcases points with target | ⟨next, here, is_next, here_eq⟩
        · unfold Place.refersTo
          split
          · rename_i is_next
            rw [is_next] at target
            cases target
          · simpa using target
        · cases here_eq
          simp [is_next, Place.refersTo]
      refine place.carry (.of_eq rfl rfl) (fun other own => ⟨rfl, fun plain => ?_⟩) Iff.rfl
        (fun other pointer own points behind => ⟨fun found here => ?_, fun found mem => ?_⟩)
        inv.allocated
      · refine mem_erase_of_ne ?_
        rintro rfl
        rw [plain] at marked
        cases marked
      · refine (mem_erase_of_ne ?_).mpr (behind.valid found here)
        rintro rfl
        exact away points here
      · exact behind.earlier found (Cursor.mem_before_erase (away points) mem)

/-- The owner of an unmarked entry in the queue is asleep for it. -/
theorem blocked_owner (mem : elem ∈ s.sleepQueue) (plain : (s.elem elem).removeFlag = false) :
    s.status (s.elem elem).currentThread = .blocked := by
  have fits := inv.places (s.elem elem).currentThread
  rw [inv.sleeping elem mem plain] at fits
  cases fits with
  | asleep _ _ _ sleeps => exact (sleeps plain).2

end SleepInvariant

/-! ## Ticks -/

/-- What rounds of `timer_wake` keep. -/
structure Woken (s s' : Clock) : Prop where
  sleepQueue : s'.sleepQueue = s.sleepQueue
  ticks : s'.ticks = s.ticks
  place : s'.place = s.place
  code : s'.code = s.code
  current : s'.current = s.current
  wakeTicks : ∀ elem, (s'.elem elem).wakeTicks = (s.elem elem).wakeTicks
  marked : ∀ elem, (s.elem elem).removeFlag = true → (s'.elem elem).removeFlag = true

theorem Woken.refl (clock : Clock) : Woken clock clock :=
  ⟨rfl, rfl, rfl, rfl, rfl, fun _ => rfl, fun _ => id⟩

theorem Woken.trans {fst snd third : Clock} (s : Woken fst snd)
    (s' : Woken snd third) : Woken fst third where
  sleepQueue := s'.sleepQueue.trans s.sleepQueue
  ticks := s'.ticks.trans s.ticks
  place := s'.place.trans s.place
  code := s'.code.trans s.code
  current := s'.current.trans s.current
  wakeTicks elem := (s'.wakeTicks elem).trans (s.wakeTicks elem)
  marked elem marked := s'.marked elem (s.marked elem marked)

namespace SleepInvariant

variable {s : Clock} (inv : SleepInvariant s)
include inv

theorem wake {elem : ElemId} {woken : Kernel} (mem : elem ∈ s.sleepQueue)
    (due : (s.elem elem).wakeTicks ≤ s.ticks)
    (plain : (s.elem elem).removeFlag = false)
    (unblocks : s.toKernel.threadUnblock (s.elem elem).currentThread = some woken) :
    SleepInvariant { s with
        toMachine := { woken with code := s.code }
        toSleepList := s.toSleepList.mark elem
        unblocks := update s.unblocks elem (s.unblocks elem + 1) } := by
  obtain ⟨blocked, made⟩ := Kernel.madeReady_of_threadUnblock unblocks
  have calls := inv.sleeping elem mem plain
  obtain ⟨born, empty⟩ := inv.calling (s.elem elem).currentThread (by simp [calls])
  have flag : ∀ {found}, found ≠ elem → ((s.toSleepList.mark elem).elem found).removeFlag =
      (s.elem found).removeFlag := by
    intro found ne
    rw [SleepList.removeFlag_mark, if_neg ne]
  have keeps : KeepsElems s.toSleepList (s.toSleepList.mark elem) := by
    refine ⟨by simp, by simp, fun found _ marked => ?_, le_rfl⟩
    rw [SleepList.removeFlag_mark]
    split
    · rfl
    · exact marked
  refine ⟨⟨inv.ready.madeReady blocked born made, ?_, fun t unborn => ?_⟩, ?_,
    fun t inside => ?_, fun t => ?_, inv.allocated, fun found inside clear => ?_,
    fun found inside marked => ?_, inv.nodup, ?_, fun found beyond => ?_, fun found => ?_⟩
  · exact (congrArg s.code made.idleThread).trans inv.idleCode
  · exact inv.unbornCode t (made.threads ▸ unborn)
  · refine inv.waiters.congr ?_ fun sema => by
      exact congrArg (fun semaphore => (semaphore sema).waiters) made.semaphore
    refine (asleep_madeReady made).trans (update_eq_self_iff.mpr ?_)
    unfold asleep
    rw [empty]
    exact (ite_self _).symm
  · obtain ⟨born, empty⟩ := inv.calling t inside
    exact ⟨made.threads ▸ born, empty⟩
  · have place := inv.places t
    change PlaceFits woken (s.toSleepList.mark elem) t (s.place t)
    by_cases owner : t = (s.elem elem).currentThread
    · subst owner
      rw [calls]
      refine .asleep (by simp) (inv.allocated elem mem) (fun _ => ?_) fun clear => ?_
      · rw [made.status, if_pos rfl]
        simp
      · rw [SleepList.removeFlag_mark, if_pos rfl] at clear
        cases clear
    · have away : ∀ {new}, (s.place t).own = some new → new ≠ elem := by
        rintro new own rfl
        exact owner (place.own_spec own).1.symm
      refine place.carry keeps (fun new own => ⟨flag (away own), fun _ => Iff.rfl⟩) ?_
        (fun new cursor own _ passed => passed.congr rfl keeps inv.allocated
          (place.own_spec own).2) inv.allocated
      rw [made.status, if_neg owner]
  · have ne : found ≠ elem := by
      rintro rfl
      rw [SleepList.removeFlag_mark, if_pos rfl] at clear
      cases clear
    rw [flag ne] at clear
    rw [SleepList.currentThread_mark]
    exact inv.sleeping found inside clear
  · rw [SleepList.wakeTicks_mark]
    by_cases here : found = elem
    · subst here
      exact due
    · rw [flag here] at marked
      exact inv.due found inside marked
  · refine inv.sorted.imp fun ordered => ?_
    rwa [SleepList.wakeTicks_mark, SleepList.wakeTicks_mark]
  · have ne : found ≠ elem := by
      rintro rfl
      exact not_lt.mpr beyond (inv.allocated found mem)
    rw [flag ne]
    exact inv.blank found beyond
  · change update s.unblocks elem _ found = _
    by_cases here : found = elem
    · subst here
      rw [SleepList.removeFlag_mark, update_self, inv.counts, plain, if_pos rfl]
      rfl
    · rw [flag here, update_of_ne here]
      exact inv.counts found

theorem wakeElem {elem : ElemId} (mem : elem ∈ s.sleepQueue)
    (due : (s.elem elem).wakeTicks ≤ s.ticks) :
    ∃ s', s.wakeElem elem = some s' ∧ SleepInvariant s' ∧ Woken s s' ∧
      (s'.elem elem).removeFlag = true := by
  unfold Clock.wakeElem
  cases flag : (s.elem elem).removeFlag with
  | true => exact ⟨s, rfl, inv, .refl s, flag⟩
  | false =>
    obtain ⟨woken, unblocks⟩ : ∃ woken,
        s.toKernel.threadUnblock (s.elem elem).currentThread = some woken :=
      ⟨_, if_pos (inv.blocked_owner mem flag)⟩
    have made := (Kernel.madeReady_of_threadUnblock unblocks).2
    rw [if_neg (by simp), unblocks]
    refine ⟨_, rfl, inv.wake mem due flag unblocks,
      ⟨rfl, rfl, rfl, rfl, made.current, fun found => SleepList.wakeTicks_mark _ _ _,
        fun found marked => ?_⟩, ?_⟩
    · exact (SleepList.removeFlag_mark _ _ _).trans (by rw [marked, ite_self])
    · exact (SleepList.removeFlag_mark _ _ _).trans (if_pos rfl)

/-- `timer_wake` marks every entry that is due, because the queue is sorted. -/
theorem wakeLoop {rest : List ElemId} (inside : ∀ elem ∈ rest, elem ∈ s.sleepQueue)
    (sorted : rest.Pairwise fun fst snd =>
      (s.elem fst).wakeTicks ≤ (s.elem snd).wakeTicks) :
    ∃ s', s.wakeLoop rest = some s' ∧ SleepInvariant s' ∧ Woken s s' ∧
      ∀ elem ∈ rest, (s.elem elem).wakeTicks ≤ s.ticks → (s'.elem elem).removeFlag = true := by
  induction rest generalizing s with
  | nil => exact ⟨s, rfl, inv, .refl s, fun _ mem => nomatch mem⟩
  | cons elem rest ih =>
    obtain ⟨fst, later⟩ := pairwise_cons.mp sorted
    unfold Clock.wakeLoop
    split
    · rename_i due
      obtain ⟨mid, woken, kept, keeps, marked⟩ := inv.wakeElem (inside elem mem_cons_self) due
      obtain ⟨s', loops, kept, keepsOn, markedRest⟩ := ih kept
        (fun o mem => keeps.sleepQueue ▸ inside o (mem_cons_of_mem elem mem))
        (later.imp fun ordered => by rwa [keeps.wakeTicks, keeps.wakeTicks])
      refine ⟨s', by rw [woken]; exact loops, kept, keeps.trans keepsOn, fun o mem dueOther => ?_⟩
      rcases mem_cons.mp mem with rfl | mem
      · exact keepsOn.marked o marked
      · refine markedRest o mem ?_
        rwa [keeps.wakeTicks, keeps.ticks]
    · rename_i early
      refine ⟨s, rfl, inv, .refl s, fun o mem due => ?_⟩
      rcases mem_cons.mp mem with rfl | mem
      · exact (early due).elim
      · exact (early ((fst o mem).trans due)).elim

end SleepInvariant

end Pintos.Devices
