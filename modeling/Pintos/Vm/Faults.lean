import Pintos.Vm.Sweeps

/-!
# Page faults

`page_fault` and `extend_stack` of `exception.c`.  After a write to a page that is not there,
`extend_stack` sweeps over all pages from the faulting page up to the page of the frame pointer.
-/

namespace Pintos.Vm

open Option Memory

/-- What `page_fault` reads of the interrupt frame and of CR2. -/
structure Fault where
  faultAddr : Nat
  framePointer : Nat
  notPresent : Bool
  write : Bool
  user : Bool

/-- The process goes on, or `kill_process` ends it. -/
inductive Outcome
  | resumed
  | killed
  deriving DecidableEq

namespace Memory

def extendStack (memory : Memory) (tid : Nat) (fault : Fault) (chances : Nat → Chance) :
    Option (Memory × Outcome) :=
  if fault.framePointer = 0 then
    none
  else do
    let (memory, success) ← sweep tid chances memory false
      (sweepPages (pageOf fault.faultAddr) (pageOf fault.framePointer))
    some (memory, if success then .resumed else .killed)

def pageFault (memory : Memory) (tid : Nat) (fault : Fault) (first : Chance)
    (chances : Nat → Chance) : Option (Memory × Outcome) :=
  match fault.notPresent, fault.write, fault.user with
  | true, true, _ => do
      let (memory, success) ← memory.loadPage tid fault.faultAddr first
      if success then some (memory, .resumed) else memory.extendStack tid fault chances
  | true, false, _ | false, false, true => do
      let (memory, success) ← memory.loadPage tid fault.faultAddr first
      some (memory, if success then .resumed else .killed)
  | false, true, _ | false, false, false => some (memory, .killed)

/-- A write by the process itself; the processor finds the page present or not. -/
def userWrite (memory : Memory) (tid faultAddr framePointer : Nat) : Fault where
  faultAddr
  framePointer
  notPresent := (memory.pagedir (tid, pageOf faultAddr)).isNone
  write := true
  user := true

end Memory

open Memory

/-! ## Extension of the stack -/

/-- The pages from the faulting page up to the frame pointer, as far as they can have entries. -/
def extension (fault : Fault) : List Nat :=
  Settled.userPages (sweepPages (pageOf fault.faultAddr) (pageOf fault.framePointer))

/-- None of the pages is there, and the pool has room for all of them. -/
def ExtensionFits (m : Memory) (tid : Nat) (fault : Fault) : Prop :=
  fault.framePointer ≠ 0 ∧ ((extension fault).length ≤ 1 ∨
    (extension fault).length ≤ m.free.card ∧
      ∀ page ∈ extension fault, m.pagedir (tid, page) = none)

namespace Settled

variable {m s' : Memory} {tid : Nat} {f : Fault}

section

variable (settled : Settled m)
include settled

theorem resident_iff_mapped {page : Nat} :
    ¬ Resident m tid page ↔ m.pagedir (tid, page) = none := by
  rw [settled.toConsistent.resident_iff, not_not]

/-- The extension of the stack registers and loads only pages of its range. -/
theorem extendStack_swept {chances : Nat → Chance} {out : Outcome} (run : m.alive tid = true)
    (runs : m.extendStack tid f chances = some (s', out)) :
    Swept m s' tid (sweepPages (pageOf f.faultAddr) (pageOf f.framePointer)) := by
  unfold extendStack at runs
  split at runs
  · cases runs
  · obtain ⟨⟨final, ok⟩, swept, done⟩ := bind_eq_some_iff.mp runs
    obtain ⟨rfl, _⟩ : final = s' ∧ _ := by simpa using done
    exact (settled.sweep run (fun page => pageOf_sweepPages (pageOf_pageOf _)) swept).1

/-- An extension that fits makes the faulting page resident, or ends the process. -/
theorem extendStack_fits (runs : m.alive tid = true)
    (absent : ¬ Resident m tid (pageOf f.faultAddr))
    (nothing : pageOf f.faultAddr = 0 → m.getPageEntry tid (pageOf f.faultAddr) = none)
    (fits : ExtensionFits m tid f) (chances : Nat → Chance) :
    ∃ s' out, m.extendStack tid f chances = some (s', out) ∧
      (out = .resumed → Resident s' tid (pageOf f.faultAddr)) := by
  obtain ⟨ne, fits⟩ := fits
  unfold extendStack
  rw [if_neg ne]
  have align := @pageOf_sweepPages (pageOf f.faultAddr) (pageOf f.framePointer)
  have nodup := sweepPages_nodup (pageOf f.faultAddr) (pageOf f.framePointer)
  have bounds := @mem_sweepPages_bounds (pageOf f.faultAddr) (pageOf f.framePointer)
  unfold extension at fits
  rcases sweepPages_cases (pageOf f.faultAddr) (pageOf f.framePointer) with
    empty | ⟨rest, split⟩
  · rw [empty]
    exact ⟨m, .killed, rfl, nofun⟩
  · rw [split] at align nodup bounds fits ⊢
    have page_aligned := pageOf_pageOf f.faultAddr
    by_cases user : pageOf f.faultAddr < physBase ∧ pageOf f.faultAddr ≠ 0
    · have nonzero : ∀ page ∈ pageOf f.faultAddr :: rest, page ≠ 0 := by
        intro page mem zero
        have := bounds mem
        omega
      obtain ⟨s', ok, swept, there⟩ := settled.sweep_first runs
        (fun page mem => align page_aligned mem) nonzero nodup user.1 absent
        (fits.imp_right (And.imp_right fun free page mem =>
          settled.resident_iff_mapped.mpr (free page mem))) chances
      refine ⟨s', _, by rw [swept]; rfl, fun resumed => there ?_⟩
      cases ok with
      | true => rfl
      | false => cases resumed
    · refine ⟨m, .killed, ?_, nofun⟩
      rw [settled.sweep_refused page_aligned user nothing]
      rfl

/-- An extension that does not fit can fail an assertion or lose the faulting page. -/
theorem extendStack_unfit (run : m.alive tid = true)
    (absent : ¬ Resident m tid (pageOf f.faultAddr))
    (unfit : ¬ ExtensionFits m tid f) :
    ∃ chances, ∀ s' outcome, m.extendStack tid f chances = some (s', outcome) →
      outcome = .resumed ∧ ¬ Resident s' tid (pageOf f.faultAddr) := by
  by_cases null : f.framePointer = 0
  · refine ⟨fun _ => reading (evicting 0), fun s' outcome runs => ?_⟩
    simp [extendStack, null] at runs
  · have several : 2 ≤ (extension f).length := by
      by_contra single
      exact unfit ⟨null, .inl (by omega)⟩
    have crowded : m.free.card < (extension f).length ∨
        ∃ page ∈ extension f, Resident m tid page := by
      by_contra fits
      obtain ⟨room, absent⟩ := not_or.mp fits
      refine unfit ⟨null, .inr ⟨by omega, fun page mem => ?_⟩⟩
      exact settled.resident_iff_mapped.mp fun there => absent ⟨page, mem, there⟩
    have align := @pageOf_sweepPages (pageOf f.faultAddr) (pageOf f.framePointer)
    have nodup := sweepPages_nodup (pageOf f.faultAddr) (pageOf f.framePointer)
    unfold extension at several crowded
    simp only [extendStack, if_neg null]
    rcases sweepPages_cases (pageOf f.faultAddr) (pageOf f.framePointer) with
      empty | ⟨rest, split⟩
    · simp [empty, userPages] at several
    · rw [split] at align nodup several crowded ⊢
      by_cases user : pageOf f.faultAddr < physBase ∧ pageOf f.faultAddr ≠ 0
      · rw [userPages_cons user, List.length_cons] at several crowded
        obtain ⟨chances, loses⟩ := settled.sweep_first_unfit run
          (fun page mem => align (pageOf_pageOf f.faultAddr) mem) nodup user absent
          (by omega) (crowded.imp_right fun crowd => by
            obtain ⟨page, mem, there⟩ := crowd
            exact ⟨page, (List.mem_cons.mp mem).resolve_left fun same => absent (same ▸ there),
              there⟩)
        refine ⟨chances, fun s' outcome runs => ?_⟩
        obtain ⟨⟨final, ok⟩, swept, done⟩ := bind_eq_some_iff.mp runs
        obtain ⟨rfl, gone⟩ := loses final ok swept
        obtain ⟨rfl, rfl⟩ : final = s' ∧ Outcome.resumed = outcome := by simpa using done
        exact ⟨rfl, gone⟩
      · simp [userPages_cons_none user] at several

end

/-- A load that failed for want of bytes leaves the same pages in place, if the pool had room. -/
theorem resident_iff_of_failed {e fp page : Nat}
    (absent : ∀ entry, m.entries e = some entry → entry.frame = none)
    (meets : Links.Loaded m s' e fp false) (room : m.free.Nonempty) :
    Resident s' tid page ↔ Resident m tid page := by
  obtain ⟨failed, failed_eq, failed_none⟩ := meets.absent rfl
  constructor
  · rintro ⟨place, snd, frame, snd_eq, owner, there, placed⟩
    have ne : place ≠ e := by
      rintro rfl
      grind
    exact ⟨place, snd, frame, meets.inside place snd ne snd_eq (by simp [placed]),
      owner, there, placed⟩
  · rintro ⟨place, snd, frame, snd_eq, owner, there, placed⟩
    have ne : place ≠ e := by
      rintro rfl
      grind
    exact ⟨place, snd, frame, (meets.kept room place ne).trans snd_eq, owner, there, placed⟩

theorem extensionFits_iff {e fp : Nat} (settled : Settled m)
    (absent : ∀ entry, m.entries e = some entry → entry.frame = none)
    (meets : Links.Loaded m s' e fp false) :
    ExtensionFits s' tid f ↔ ExtensionFits m tid f := by
  have same := meets.freed rfl
  have after_settled := settled.loaded meets
  unfold ExtensionFits
  refine and_congr_right fun _ => ?_
  by_cases single : (extension f).length ≤ 1
  · exact iff_of_true (.inl single) (.inl single)
  · refine or_congr_right ?_
    have enough : (extension f).length ≤ s'.free.card ↔
        (extension f).length ≤ m.free.card := by omega
    rw [enough]
    refine and_congr_right fun fits => forall₂_congr fun page _ => ?_
    have room : m.free.Nonempty := Finset.card_pos.mp (by omega)
    rw [← after_settled.resident_iff_mapped, ← settled.resident_iff_mapped,
      resident_iff_of_failed absent meets room]

end Settled

/-! ## Faults -/

/-- `page_fault` returns with the page in place or ends the process, and registers and loads no page
outside the range from the faulting page up to the frame pointer. -/
def FaultHandled (m : Memory) (tid : Nat) (fault : Fault) (first : Chance)
    (chances : Nat → Chance) : Prop :=
  ∃ s' outcome, m.pageFault tid fault first chances = some (s', outcome) ∧
    (outcome = .resumed → s'.pagedir (tid, pageOf fault.faultAddr) ≠ none) ∧
    ∀ e entry, s'.entries e = some entry →
      (m.entries e = none ∨ entry.frame.isSome ∧ m.entries e ≠ some entry) →
      entry.tid = tid ∧ (entry.uaddr = pageOf fault.faultAddr ∨
        pageOf fault.faultAddr ≤ entry.uaddr ∧ entry.uaddr < pageOf fault.framePointer)

/-- The page can be loaded for sure, or the stack can be extended. -/
def FaultFits (m : Memory) (tid : Nat) (fault : Fault) : Prop :=
  fault.notPresent = true →
    match m.getPageEntry tid fault.faultAddr with
    | none => ExtensionFits m tid fault
    | some e => pageOf fault.faultAddr ≠ 0 ∧
        ((∀ entry, m.entries e = some entry →
          entry.swap ≠ none ∨ entry.file = none ∨ entry.readBytes = 0) ∨
          ExtensionFits m tid fault)

namespace Settled

variable {m s' : Memory} {tid : Nat} {f : Fault}

theorem in_range (swept : Swept m s' tid
      (pageOf f.faultAddr :: sweepPages (pageOf f.faultAddr) (pageOf f.framePointer)))
    {e : Nat} {entry : PageEntry} (entry_eq : s'.entries e = some entry)
    (hit : m.entries e = none ∨ entry.frame.isSome ∧ m.entries e ≠ some entry) :
    entry.tid = tid ∧ (entry.uaddr = pageOf f.faultAddr ∨
      pageOf f.faultAddr ≤ entry.uaddr ∧ entry.uaddr < pageOf f.framePointer) := by
  have inside : entry.tid = tid ∧ entry.uaddr ∈ pageOf f.faultAddr ::
      sweepPages (pageOf f.faultAddr) (pageOf f.framePointer) := by
    rcases hit with fresh | ⟨placed, new⟩
    · exact swept.registered e entry entry_eq fresh
    · exact (swept.loaded e entry entry_eq placed).resolve_left new
  refine ⟨inside.1, ?_⟩
  rcases List.mem_cons.mp inside.2 with fst | later
  · exact .inl fst
  · exact .inr (mem_sweepPages_bounds later)

theorem extendStack_iff (settled : Settled m) (run : m.alive tid = true)
    (absent : ¬ Resident m tid (pageOf f.faultAddr))
    (nothing : pageOf f.faultAddr = 0 → m.getPageEntry tid (pageOf f.faultAddr) = none) :
    (∀ chances, ∃ s' out, m.extendStack tid f chances = some (s', out) ∧
      (out = .resumed → Resident s' tid (pageOf f.faultAddr))) ↔
      ExtensionFits m tid f := by
  constructor
  · intro handled
    by_contra unfit
    obtain ⟨chances, loses⟩ := settled.extendStack_unfit run absent unfit
    obtain ⟨s', out, runs, there⟩ := handled chances
    obtain ⟨resumed, gone⟩ := loses s' out runs
    exact gone (there resumed)
  · intro fits
    exact settled.extendStack_fits run absent nothing fits

theorem getPageEntry_pageOf (tid uaddr : Nat) :
    m.getPageEntry tid (pageOf uaddr) = m.getPageEntry tid uaddr := by
  unfold getPageEntry
  rw [pageOf_pageOf]

theorem registered_of_getPageEntry {e uaddr : Nat} (settled : Settled m)
    (found : m.getPageEntry tid uaddr = some e) :
    ∃ entry, Registered m m tid (pageOf uaddr) e entry := by
  obtain ⟨_, entry, entry_eq, owner, there⟩ := settled.getPageEntry_some found
  exact ⟨entry, settled, rfl, entry_eq, owner, there, .inl entry_eq, fun _ _ => rfl, rfl⟩

/-- The fault is handled if what follows the load of the page is. -/
theorem faultHandled_of_extendStack {mid : Memory} {fst : Chance} {chances : Nat → Chance}
    (settled : Settled mid) (run : mid.alive tid = true)
    (free : f.notPresent = true) (wrote : f.write = true)
    (loads : m.loadPage tid f.faultAddr fst = some (mid, false))
    (swept : Swept m mid tid [pageOf f.faultAddr]) :
    FaultHandled m tid f fst chances ↔ ∃ s' out, mid.extendStack tid f chances = some (s', out) ∧
        (out = .resumed → Resident s' tid (pageOf f.faultAddr)) := by
  have runs : m.pageFault tid f fst chances = mid.extendStack tid f chances := by
    simp [pageFault, free, wrote, loads]
  unfold FaultHandled
  rw [runs]
  constructor
  · rintro ⟨s', out, grown, there, _⟩
    have later := settled.extendStack_swept run grown
    exact ⟨s', out, grown, fun resumed =>
      later.settled.toConsistent.resident_iff.mpr (there resumed)⟩
  · rintro ⟨s', out, grown, there⟩
    have later := settled.extendStack_swept run grown
    refine ⟨s', out, grown, fun resumed =>
      later.settled.toConsistent.resident_iff.mp (there resumed), fun e entry entry_eq hit => ?_⟩
    exact in_range ((swept.mono (by simp)).trans (later.mono (by simp))) entry_eq hit

theorem faultHandled_unregistered (settled : Settled m) (runs : m.alive tid = true)
    (free : f.notPresent = true) (wrote : f.write = true)
    (absent : ¬ Resident m tid (pageOf f.faultAddr))
    (nothing : m.getPageEntry tid f.faultAddr = none) :
    (∀ fst chances, FaultHandled m tid f fst chances) ↔ ExtensionFits m tid f := by
  have loads (fst : Chance) : m.loadPage tid f.faultAddr fst = some (m, false) := by
    simp [loadPage, nothing]
  rw [← settled.extendStack_iff runs absent fun _ => (getPageEntry_pageOf _ _).trans nothing]
  constructor
  · intro handled chances
    exact (settled.faultHandled_of_extendStack runs free wrote (loads (chances 0))
      (.refl settled tid _)).mp (handled (chances 0) chances)
  · intro handled fst chances
    exact (settled.faultHandled_of_extendStack runs free wrote (loads fst)
      (.refl settled tid _)).mpr (handled chances)

theorem faultHandled_registered {e : Nat} {entry : PageEntry} (settled : Settled m)
    (run : m.alive tid = true) (free : f.notPresent = true)
    (wrote : f.write = true) (absent : ¬ Resident m tid (pageOf f.faultAddr))
    (found : m.getPageEntry tid f.faultAddr = some e)
    (known : Registered m m tid (pageOf f.faultAddr) e entry)
    (nonzero : pageOf f.faultAddr ≠ 0) :
    (∀ fst chances, FaultHandled m tid f fst chances) ↔
      (entry.swap ≠ none ∨ entry.file = none ∨ entry.readBytes = 0) ∨ ExtensionFits m tid f := by
  have unplaced := known.unplaced absent
  have alone : ∀ o, m.entries e = some o → o.frame = none := by
    intro o other_eq
    obtain rfl := some.inj (known.entry_eq.symm.trans other_eq)
    exact unplaced
  constructor
  · intro handled
    by_contra unfit
    obtain ⟨uncertain, unfit⟩ := not_or.mp unfit
    obtain ⟨no_slot, uncertain⟩ := not_or.mp uncertain
    obtain ⟨backed, long⟩ := not_or.mp uncertain
    obtain ⟨file, file_eq⟩ := ne_none_iff_exists'.mp backed
    obtain ⟨final, ok, fp, loads, out, meets, _⟩ :=
      known.load nonzero unplaced (missing (evicting 0))
    obtain rfl : ok = false :=
      out.mpr ⟨not_not.mp no_slot, file, file_eq, Nat.pos_of_ne_zero long, Ne.symm long⟩
    have settles := settled.loaded meets
    have runs := meets.same.alive ▸ run
    refine unfit ((settled.extensionFits_iff alone meets).mp ?_)
    rw [← settles.extendStack_iff runs (known.not_resident_of_failed meets)
      fun zero => absurd zero nonzero]
    intro chances
    exact (settles.faultHandled_of_extendStack runs free wrote
      (by rw [loadPage, found]; exact loads) (known.swept_loaded meets)).mp
      (handled _ chances)
  · intro fits fst chances
    obtain ⟨final, ok, fp, loads, out, meets, _⟩ := known.load nonzero unplaced fst
    have settles := settled.loaded meets
    have runs := meets.same.alive ▸ run
    have swept := known.swept_loaded meets
    cases ok with
    | true =>
      refine ⟨final, .resumed, ?_, fun _ => ?_, fun o snd snd_eq hit =>
        in_range (swept.mono (by simp)) snd_eq hit⟩
      · simp [pageFault, free, wrote, loadPage, found, loads]
      · rw [← settles.toConsistent.resident_iff]
        exact known.resident_of_loaded meets
    | false =>
      have short := out.mp rfl
      obtain ⟨no_slot, file, file_eq, long, _⟩ := short
      have room := fits.resolve_left (by simp [no_slot, file_eq, Nat.ne_of_gt long])
      refine (settles.faultHandled_of_extendStack runs free wrote
        (by rw [loadPage, found]; exact loads) swept).mpr ?_
      refine (settles.extendStack_iff runs (known.not_resident_of_failed meets)
        fun zero => absurd zero nonzero).mpr ?_ chances
      exact (settled.extensionFits_iff alone meets).mpr room

theorem loadPage {uaddr : Nat} {chance : Chance} {ok : Bool} (settled : Settled m)
    (loaded : m.loadPage tid uaddr chance = some (s', ok)) :
    Settled s' ∧ s'.alive = m.alive := by
  unfold Memory.loadPage at loaded
  split at loaded
  · exact settled.loadPageEntry loaded
  · obtain ⟨rfl, _⟩ : m = s' ∧ _ := by simpa using loaded
    exact ⟨settled, rfl⟩

theorem pageFault {fst : Chance} {chances : Nat → Chance} {out : Outcome}
    (settled : Settled m) (run : m.alive tid = true)
    (runs : m.pageFault tid f fst chances = some (s', out)) : Settled s' := by
  unfold Memory.pageFault at runs
  split at runs
  · obtain ⟨⟨mid, ok⟩, loaded, done⟩ := bind_eq_some_iff.mp runs
    obtain ⟨settles, alive⟩ := settled.loadPage loaded
    cases ok with
    | true =>
      obtain ⟨rfl, _⟩ : mid = s' ∧ _ := by simpa using done
      exact settles
    | false => exact (settles.extendStack_swept (alive ▸ run) (by simpa using done)).settled
  · obtain ⟨⟨mid, ok⟩, loaded, done⟩ := bind_eq_some_iff.mp runs
    obtain ⟨rfl, _⟩ : mid = s' ∧ _ := by simpa using done
    exact (settled.loadPage loaded).1
  · obtain ⟨⟨mid, ok⟩, loaded, done⟩ := bind_eq_some_iff.mp runs
    obtain ⟨rfl, _⟩ : mid = s' ∧ _ := by simpa using done
    exact (settled.loadPage loaded).1
  all_goals
    obtain ⟨rfl, _⟩ : m = s' ∧ _ := by simpa using runs
    exact settled

/-- A machine with eight pages of user memory and one process. -/
def oneProcess : Memory :=
  { Memory.init 8 16 (fun _ => Buffer.zeros) (fun _ => Buffer.zeros) with
    alive := Function.update (fun _ => false) 1 true }

theorem settled_oneProcess : Settled oneProcess :=
  @of_run oneProcess 8 16 (fun _ => Buffer.zeros) (fun _ => Buffer.zeros) [.start 1] (by decide)
    (by decide) rfl

end Settled

end Pintos.Vm
