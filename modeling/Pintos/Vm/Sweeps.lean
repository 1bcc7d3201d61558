import Pintos.Vm.Tables

/-!
# Sweeps

The loop of `extend_stack`, which registers and loads one page after the other.  It does so without
looking whether a page is there already, and without keeping the pages that it has loaded: a sweep goes
well exactly if none of its pages is there and the pool has room for all of them.
-/

namespace Pintos.Vm

open Function Option List Memory

namespace Memory

def loadPage (memory : Memory) (tid uaddr : Nat) (chance : Chance) : Option (Memory × Bool) :=
  match memory.getPageEntry tid uaddr with
  | some e => memory.loadPageEntry tid (some e) chance
  | none => some (memory, false)

/-- The addresses of the loop of `extend_stack`. -/
def sweepPages (bottom top : Nat) : List Nat :=
  (List.range ((top - bottom) / pageSize)).map fun index => bottom + index * pageSize

/-- The loop of `extend_stack`. -/
def sweep (tid : Nat) (chances : Nat → Chance) : Memory → Bool → List Nat → Option (Memory × Bool)
  | memory, success, [] => some (memory, success)
  | memory, success, addr :: rest => do
      let (memory, loaded) ← (memory.allocatePage tid addr).1.loadPageEntry tid
        (memory.allocatePage tid addr).2 (chances addr)
      if loaded then sweep tid chances memory true rest else some (memory, success)

end Memory

open Memory

/-- The tables between two calls, on a machine that can load pages. -/
structure Settled (m : Memory) : Prop extends Consistent m, Ready m where
  user : ∀ e entry, m.entries e = some entry → entry.uaddr < physBase

/-- A page of a process is in memory. -/
def Resident (m : Memory) (tid page : Nat) : Prop :=
  ∃ e entry fp, m.entries e = some entry ∧ entry.tid = tid ∧ entry.uaddr = page ∧
    entry.frame = some fp

theorem Consistent.resident_iff {m : Memory} (agrees : Consistent m) {tid page : Nat} :
    Resident m tid page ↔ m.pagedir (tid, page) ≠ none := by
  constructor
  · rintro ⟨e, entry, fp, entry_eq, rfl, rfl, placed⟩
    obtain ⟨frame, resides⟩ := agrees.links.owned e entry fp entry_eq placed
    rw [agrees.links.maps e entry fp frame resides (by simp)]
    exact Option.some_ne_none _
  · intro mapped
    obtain ⟨kpage, mapped⟩ := ne_none_iff_exists'.mp mapped
    obtain ⟨e, entry, fp, frame, resides, _, owner, there, _⟩ := agrees.links.backed _ _ _ mapped
    exact ⟨e, entry, fp, resides.1, owner, there, resides.2.2.1⟩

/-! ## Addresses -/

theorem pageOf_pageOf (uaddr : Nat) : pageOf (pageOf uaddr) = pageOf uaddr := by
  simp only [pageOf, pageSize]
  omega

theorem pageOf_sweepPages {bottom top page : Nat} (align : pageOf bottom = bottom)
    (swept : page ∈ sweepPages bottom top) : pageOf page = page := by
  obtain ⟨i, _, rfl⟩ := mem_map.mp swept
  unfold pageOf at align ⊢
  rw [Nat.add_mul_div_right _ _ (by decide), Nat.add_mul, align]

theorem mem_sweepPages_bounds {bottom top page : Nat} (swept : page ∈ sweepPages bottom top) :
    bottom ≤ page ∧ page < top := by
  obtain ⟨i, inside, rfl⟩ := mem_map.mp swept
  have inside := mem_range.mp inside
  simp only [pageSize] at inside ⊢
  omega

theorem sweepPages_nodup (bottom top : Nat) : (sweepPages bottom top).Nodup := by
  refine nodup_range.map fun fst snd same => ?_
  simp only [pageSize] at same
  omega

theorem sweepPages_cases (bottom top : Nat) :
    sweepPages bottom top = [] ∨ ∃ rest, sweepPages bottom top = bottom :: rest := by
  unfold sweepPages
  cases (top - bottom) / pageSize with
  | zero => exact .inl rfl
  | succ count =>
    rw [range_succ_eq_map, map_cons, Nat.zero_mul, Nat.add_zero]
    exact .inr ⟨_, rfl⟩

/-! ## Allocation of pages -/

/-- A page has an entry now, and nothing else has changed. -/
structure Registered (m s' : Memory) (tid page e : Nat) (entry : PageEntry) : Prop where
  settled : Settled s'
  alive : s'.alive = m.alive
  entry_eq : s'.entries e = some entry
  owner : entry.tid = tid
  there : entry.uaddr = page
  old : m.entries e = some entry ∨ m.entries e = none ∧ entry.frame = none
  others : ∀ other ≠ e, s'.entries other = m.entries other
  free : s'.free = m.free

namespace Settled

variable {m s' : Memory} {tid page : Nat}

section

variable (settled : Settled m)
include settled

/-- `allocate_page` finds or makes an entry for every user address. -/
theorem allocatePage_uaddr (runs : m.alive tid = true) (uaddr : Nat) :
    (∃ e entry, (m.allocatePage tid uaddr).2 = some e ∧
      Registered m (m.allocatePage tid uaddr).1 tid (pageOf uaddr) e entry) ∨
      m.allocatePage tid uaddr = (m, none) ∧ ¬ (uaddr < physBase ∧ uaddr ≠ 0) := by
  have agrees := settled.toConsistent.allocatePage runs uaddr
  unfold allocatePage at agrees ⊢
  cases found : m.getPageEntry tid uaddr with
  | some e =>
    obtain ⟨_, entry, entry_eq, owner, there⟩ := settled.getPageEntry_some found
    refine .inl ⟨e, entry, by simp [entry_eq, owner], settled, rfl, entry_eq, owner,
      there, .inl entry_eq, fun _ _ => rfl, rfl⟩
  | none =>
    simp only [found] at agrees ⊢
    by_cases user : uaddr < physBase ∧ uaddr ≠ 0
    · simp only [if_pos user] at agrees ⊢
      have fresh := (settled.links.fresh m.heapTop (Nat.le_refl _)).1
      refine .inl ⟨m.heapTop, newEntry tid uaddr, rfl, ⟨agrees, ?_, ?_⟩, rfl,
        update_self .., rfl, rfl, .inr ⟨fresh, rfl⟩, fun o ne => update_of_ne ne .., rfl⟩
      · exact ⟨settled.unpinned, settled.pool, settled.whole⟩
      · intro e entry entry_eq
        have old := settled.user e entry
        by_cases here : e = m.heapTop
        · subst here
          have same : some (newEntry tid uaddr) = some entry :=
            (update_self m.heapTop _ m.entries).symm.trans entry_eq
          cases same
          exact (Nat.div_mul_le_self uaddr pageSize).trans_lt user.1
        · exact old ((update_of_ne here ..).symm.trans entry_eq)
    · simp only [if_neg user]
      exact .inr ⟨trivial, user⟩

theorem allocatePage (runs : m.alive tid = true) (align : pageOf page = page) :
    (∃ e entry, (m.allocatePage tid page).2 = some e ∧
      Registered m (m.allocatePage tid page).1 tid page e entry) ∨
      m.allocatePage tid page = (m, none) ∧ ¬ (page < physBase ∧ page ≠ 0) := by
  have takes := settled.allocatePage_uaddr runs page
  rwa [align] at takes

theorem allocatePage_none (align : pageOf page = page) (refused : ¬ (page < physBase ∧ page ≠ 0))
    (nothing : page = 0 → m.getPageEntry tid page = none) :
    m.allocatePage tid page = (m, none) := by
  have nothing : m.getPageEntry tid page = none := by
    cases found : m.getPageEntry tid page with
    | none => rfl
    | some e =>
      obtain ⟨_, entry, entry_eq, _, there⟩ := settled.getPageEntry_some found
      have below := settled.user e entry entry_eq
      have is_zero : page = 0 := by omega
      rw [nothing is_zero] at found
      cases found
  unfold Memory.allocatePage
  simp only [nothing, if_neg refused]

theorem loaded {e fp : Nat} {ok : Bool} (meets : Links.Loaded m s' e fp ok) : Settled s' where
  toTables := settled.toTables.same meets.same
  links := meets.links
  unpinned := meets.unpinned settled.unpinned
  pool := meets.same.poolSize ▸ settled.pool
  whole := meets.same.swapSize ▸ settled.whole
  user e entry entry_eq := by
    have bare := meets.same.entries e
    rw [entry_eq, map_some] at bare
    obtain ⟨old, old_eq, same⟩ := map_eq_some_iff.mp bare.symm
    exact (PageEntry.uaddr_eq_of_bare same).symm.trans_lt (settled.user e old old_eq)

/-- Frames and entries that are freed do not unsettle the machine. -/
theorem freed (agrees : Consistent s') (freed : Freed m s')
    (fewer : ∀ e entry, s'.entries e = some entry → m.entries e = some entry) :
    Settled s' where
  toConsistent := agrees
  unpinned fp frame found := settled.unpinned fp frame (freed.frames fp frame found)
  pool := freed.poolSize ▸ settled.pool
  whole := freed.swapSize ▸ settled.whole
  user e entry entry_eq := settled.user e entry (fewer e entry entry_eq)

theorem loadPageEntry {pointer : Option Nat} {chance : Chance} {ok : Bool}
    (loaded : m.loadPageEntry tid pointer chance = some (s', ok)) :
    Settled s' ∧ s'.alive = m.alive := by
  cases pointer with
  | none =>
    obtain ⟨rfl, _⟩ : m = s' ∧ _ := by simpa [Memory.loadPageEntry] using loaded
    exact ⟨settled, rfl⟩
  | some e =>
    cases entry_eq : m.entries e with
    | none => simp [Memory.loadPageEntry, entry_eq] at loaded
    | some entry =>
      cases placed : entry.frame with
      | some fp => simp [Memory.loadPageEntry, entry_eq, placed] at loaded
      | none =>
        have gives := @Links.loadPageEntry _ e tid _ settled.links entry_eq placed chance
        obtain ⟨_, fp, meets, _⟩ := gives.post_of_eq loaded
        exact ⟨settled.loaded meets, meets.same.alive⟩

theorem step {call : MemoryCall} (ran : m.step call = some s') : Settled s' := by
  have agrees := settled.toConsistent.step ran
  cases call with
  | start tid =>
    obtain ⟨_, rfl⟩ : _ ∧ _ = s' := by simpa [Memory.step] using ran
    exact ⟨agrees, ⟨settled.unpinned, settled.pool, settled.whole⟩, settled.user⟩
  | allocatePage tid uaddr =>
    obtain ⟨runs, rfl⟩ : _ ∧ _ = s' := by simpa [Memory.step] using ran
    rcases settled.allocatePage_uaddr runs uaddr with ⟨_, _, _, known⟩ | ⟨refused, _⟩
    · exact known.settled
    · rw [refused]
      exact settled
  | describe tid uaddr writable file ofs readBytes =>
    obtain ⟨e, _, ran⟩ := bind_eq_some_iff.mp ran
    obtain ⟨entry, entry_eq, ran⟩ := bind_eq_some_iff.mp ran
    cases ran
    refine ⟨agrees, ⟨settled.unpinned, settled.pool, settled.whole⟩, ?_⟩
    have user := settled.user
    grind
  | loadPageEntry tid pointer chance =>
    obtain ⟨⟨_, ok⟩, loaded, rfl⟩ := map_eq_some_iff.mp ran
    exact (settled.loadPageEntry loaded).1
  | freePage tid uaddr =>
    obtain ⟨_, frees, _, freed, fewer⟩ := settled.toConsistent.freePage tid uaddr
    obtain rfl := some.inj (frees.symm.trans ran)
    exact settled.freed agrees freed fewer
  | pageTableDestroy tid =>
    obtain ⟨_, destroys, _, _, freed, fewer⟩ := settled.toConsistent.pageTableDestroy tid
    obtain rfl := some.inj (destroys.symm.trans ran)
    exact settled.freed agrees freed fewer
  | exit tid =>
    obtain ⟨destroyed, destroys, kept, _, freed, fewer⟩ := settled.toConsistent.pageTableDestroy tid
    obtain ⟨_, destroyed', exits⟩ := bind_eq_some_iff.mp ran
    obtain rfl := some.inj (destroys.symm.trans destroyed')
    cases exits
    have settles := settled.freed kept freed fewer
    exact ⟨agrees, ⟨settles.unpinned, settles.pool, settles.whole⟩, settles.user⟩
  | store kpage bytes =>
    cases ran
    exact ⟨agrees, ⟨settled.unpinned, settled.pool, settled.whole⟩, settled.user⟩

end

/-- The machine is settled in every state that is reached from boot. -/
theorem of_run {poolSize swapSize : Nat} {disk bytes : Nat → Buffer} {calls : List MemoryCall}
    (pool : 0 < poolSize) (whole : pageSectors ∣ swapSize)
    (execution : Execution.run Memory.step (.init poolSize swapSize disk bytes) calls =
      some m) : Settled m := by
  refine Execution.run_invariant ?_ (fun settled ran => settled.step ran) execution
  exact ⟨.init poolSize swapSize disk bytes, ⟨nofun, pool, whole⟩, nofun⟩

end Settled

/-! ## Sweeps -/

/-- The pages that a sweep may register or load. -/
structure Swept (m s' : Memory) (tid : Nat) (pages : List Nat) : Prop where
  settled : Settled s'
  alive : s'.alive = m.alive
  persists : ∀ e entry, m.entries e = some entry →
    ∃ later, s'.entries e = some later ∧ later.tid = entry.tid ∧ later.uaddr = entry.uaddr
  registered : ∀ e entry, s'.entries e = some entry → m.entries e = none →
    entry.tid = tid ∧ entry.uaddr ∈ pages
  loaded : ∀ e entry, s'.entries e = some entry → entry.frame.isSome →
    m.entries e = some entry ∨ entry.tid = tid ∧ entry.uaddr ∈ pages

namespace Swept

variable {m mid s' : Memory} {tid page : Nat} {pages rest : List Nat}

theorem refl (settled : Settled m) (tid : Nat) (pages : List Nat) : Swept m m tid pages where
  settled
  alive := rfl
  persists e entry entry_eq := ⟨entry, entry_eq, rfl, rfl⟩
  registered e entry entry_eq absent := by simp [absent] at entry_eq
  loaded e entry entry_eq _ := .inl entry_eq

theorem mono (swept : Swept m s' tid pages) (more : pages ⊆ rest) : Swept m s' tid rest :=
  { swept with
    registered := fun e entry entry_eq absent =>
      (swept.registered e entry entry_eq absent).imp_right (more ·)
    loaded := fun e entry entry_eq placed =>
      (swept.loaded e entry entry_eq placed).imp_right (And.imp_right (more ·)) }

theorem trans (fst : Swept m mid tid pages) (snd : Swept mid s' tid pages) :
    Swept m s' tid pages where
  settled := snd.settled
  alive := snd.alive.trans fst.alive
  persists e entry entry_eq := by
    obtain ⟨between, between_eq, same_tid, same⟩ := fst.persists e entry entry_eq
    obtain ⟨later, later_eq, later_tid, later_uaddr⟩ := snd.persists e between between_eq
    exact ⟨later, later_eq, later_tid.trans same_tid, later_uaddr.trans same⟩
  registered e entry entry_eq absent := by
    cases between_eq : mid.entries e with
    | none => exact snd.registered e entry entry_eq between_eq
    | some between =>
      obtain ⟨owner, there⟩ := fst.registered e between between_eq absent
      obtain ⟨later, later_eq, same_tid, same⟩ := snd.persists e between between_eq
      obtain rfl := some.inj (later_eq.symm.trans entry_eq)
      exact ⟨same_tid.trans owner, same ▸ there⟩
  loaded e entry entry_eq placed := by
    rcases snd.loaded e entry entry_eq placed with prev | here
    · exact fst.loaded e entry prev placed
    · exact .inr here

end Swept

namespace Registered

variable {m s' final : Memory} {tid page e : Nat} {pe : PageEntry}
  (registered : Registered m s' tid page e pe)
include registered

theorem swept : Swept m s' tid [page] where
  __ := registered
  persists o second second_eq := by
    have := registered.others o
    have := registered.old
    have := registered.entry_eq
    by_cases here : o = e
    · subst here
      exact ⟨pe, registered.entry_eq, by grind, by grind⟩
    · exact ⟨second, by grind, rfl, rfl⟩
  registered o second second_eq absent := by
    have := registered.others o
    have := registered.entry_eq
    have := registered.owner
    have := registered.there
    by_cases here : o = e
    · subst here
      simp
      grind
    · grind
  loaded o second second_eq placed := by
    have := registered.others o
    have := registered.old
    have := registered.entry_eq
    by_cases here : o = e
    · subst here
      grind
    · grind

theorem swept_loaded {fp : Nat} {ok : Bool} (meets : Links.Loaded s' final e fp ok) :
    Swept s' final tid [page] where
  settled := registered.settled.loaded meets
  alive := meets.same.alive
  persists o second second_eq := by
    have bare := meets.same.entries o
    rw [second_eq, map_some] at bare
    obtain ⟨later, later_eq, same⟩ := map_eq_some_iff.mp bare
    exact ⟨later, later_eq, PageEntry.tid_eq_of_bare same, PageEntry.uaddr_eq_of_bare same⟩
  registered o second second_eq absent := by
    have bare := meets.same.entries o
    simp [second_eq, absent] at bare
  loaded o second second_eq placed := by
    by_cases here : o = e
    · subst here
      have bare := meets.same.entries o
      rw [second_eq, registered.entry_eq, map_some, map_some, some.injEq] at bare
      have same_tid := PageEntry.tid_eq_of_bare bare
      have same_uaddr := PageEntry.uaddr_eq_of_bare bare
      exact .inr ⟨same_tid.trans registered.owner, by simp [same_uaddr, registered.there]⟩
    · exact .inl (meets.inside o second here second_eq placed)

theorem unplaced (absent : ¬ Resident m tid page) : pe.frame = none := by
  rcases registered.old with same | ⟨_, none⟩
  · cases placed : pe.frame with
    | none => rfl
    | some fp => exact absurd ⟨e, pe, fp, same, registered.owner, registered.there, placed⟩ absent
  · exact none

theorem still {place : Nat} {second : PageEntry} (second_eq : m.entries place = some second) :
    s'.entries place = some second := by
  by_cases here : place = e
  · subst here
    rcases registered.old with same | ⟨nothing, _⟩
    · exact registered.entry_eq.trans (same.symm.trans second_eq)
    · rw [nothing] at second_eq
      cases second_eq
  · exact (registered.others place here).trans second_eq

theorem not_resident (absent : pe.frame = none) : ¬ Resident m tid page := by
  rintro ⟨place, snd, fp, snd_eq, owner, there, placed⟩
  have after_eq := registered.still snd_eq
  have same := registered.settled.links.unique place snd e pe after_eq registered.entry_eq
    (owner.trans registered.owner.symm) (there.trans registered.there.symm)
  subst same
  rw [registered.entry_eq, some.injEq] at after_eq
  rw [← after_eq, absent] at placed
  cases placed

theorem resident_of_loaded {fp : Nat} (meets : Links.Loaded s' final e fp true) :
    Resident final tid page := by
  obtain ⟨loaded, loaded_eq, placed⟩ := meets.resident rfl
  obtain ⟨frame, placed⟩ := isSome_iff_exists.mp placed
  obtain ⟨later, later_eq, same_tid, same⟩ :=
    (registered.swept_loaded meets).persists e pe registered.entry_eq
  obtain rfl := some.inj (later_eq.symm.trans loaded_eq)
  exact ⟨e, later, frame, loaded_eq, same_tid.trans registered.owner,
    same.trans registered.there, placed⟩

/-- The page of an entry that could not be loaded is not there. -/
theorem not_resident_of_failed {fp : Nat} (meets : Links.Loaded s' final e fp false) :
    ¬ Resident final tid page := by
  have swept := registered.swept_loaded meets
  obtain ⟨failed, failed_eq, unplaced⟩ := meets.absent rfl
  obtain ⟨later, later_eq, same_tid, same_uaddr⟩ := swept.persists e pe registered.entry_eq
  obtain rfl := some.inj (later_eq.symm.trans failed_eq)
  rintro ⟨place, snd, frame, snd_eq, owner, there, placed⟩
  have same := swept.settled.links.unique place snd e later snd_eq failed_eq
    (owner.trans (same_tid.trans registered.owner).symm)
    (there.trans (same_uaddr.trans registered.there).symm)
  subst same
  rw [failed_eq, some.injEq] at snd_eq
  rw [← snd_eq, unplaced] at placed
  cases placed

theorem load_zero (zero : page = 0) (chance : Chance) :
    s'.loadPageEntry tid (some e) chance = none := by
  have there := registered.there.trans zero
  simp [loadPageEntry, allocateFrame, registered.entry_eq, there]

theorem load (nonzero : page ≠ 0) (absent : pe.frame = none) (chance : Chance) :
    ∃ final ok fp, s'.loadPageEntry tid (some e) chance = some (final, ok) ∧
      (ok = false ↔ Links.Short pe chance) ∧ Links.Loaded s' final e fp ok ∧
      (s'.free = ∅ → fp = chance.choose s'.evictable) := by
  have settled := registered.settled
  have gives := @Links.loadPageEntry _ e tid _ settled.links registered.entry_eq absent chance
  have there := registered.there
  obtain ⟨⟨final, ok⟩, runs, out, fp, meets, victim⟩ :=
    gives.exists_of ⟨settled.toReady, by omega, registered.owner⟩
  exact ⟨final, ok, fp, runs, out, meets, victim.1⟩

end Registered

namespace Settled

variable {m s' mid final : Memory} {tid page fp place : Nat} {chances : Nat → Chance}
  {rest pages : List Nat} {second pe : PageEntry} {success : Bool}

theorem sweep {res : Bool} (settled : Settled m) (runs : m.alive tid = true)
    (align : ∀ page ∈ pages, pageOf page = page)
    (swept : sweep tid chances m success pages = some (s', res)) :
    Swept m s' tid pages ∧ (success = true → res = true) := by
  induction pages generalizing m success with
  | nil =>
    obtain ⟨rfl, rfl⟩ : m = s' ∧ success = res := by simpa [sweep] using swept
    exact ⟨.refl settled tid [], id⟩
  | cons page rest ih =>
    obtain ⟨⟨final, loaded⟩, loads, goes⟩ := bind_eq_some_iff.mp swept
    have fst : Swept m final tid [page] := by
      rcases settled.allocatePage runs (align page mem_cons_self) with
        ⟨e, pe, taken, known⟩ | ⟨refused, _⟩
      · rw [taken] at loads
        cases placed : pe.frame with
        | some fp =>
          simp [Memory.loadPageEntry, known.entry_eq, placed] at loads
        | none =>
          have gives := @Links.loadPageEntry _ e tid _ known.settled.links
            known.entry_eq placed (chances page)
          obtain ⟨_, fp, meets, _⟩ := gives.post_of_eq loads
          exact known.swept.trans (known.swept_loaded meets)
      · rw [refused] at loads
        obtain ⟨rfl, rfl⟩ : m = final ∧ false = loaded := by
          simpa [Memory.loadPageEntry] using loads
        exact .refl settled tid [page]
    cases loaded with
    | false =>
      obtain ⟨rfl, rfl⟩ : final = s' ∧ success = res := by simpa using goes
      exact ⟨fst.mono (by simp), id⟩
    | true =>
      obtain ⟨later, still⟩ := ih fst.settled (fst.alive ▸ runs)
        (fun page mem => align page (mem_cons_of_mem _ mem)) (by simpa using goes)
      exact ⟨(fst.mono (by simp)).trans (later.mono (by simp)), fun _ => still rfl⟩

/-- The pages that a sweep reaches if all its loads succeed. -/
def userPages (pages : List Nat) : List Nat :=
  pages.takeWhile fun page => page < physBase ∧ page ≠ 0

theorem userPages_cons {page : Nat} (user : page < physBase ∧ page ≠ 0) :
    userPages (page :: rest) = page :: userPages rest := by
  rw [userPages, takeWhile_cons_of_pos (by simpa using user), userPages]

theorem userPages_cons_none {page : Nat} (refused : ¬ (page < physBase ∧ page ≠ 0)) :
    userPages (page :: rest) = [] := by
  rw [userPages, takeWhile_cons_of_neg (by simpa using refused)]

theorem sweep_refused (settled : Settled m) (align : pageOf page = page)
    (refused : ¬ (page < physBase ∧ page ≠ 0))
    (nothing : page = 0 → m.getPageEntry tid page = none) (ok : Bool) :
    Memory.sweep tid chances m ok (page :: rest) = some (m, ok) := by
  simp [Memory.sweep, settled.allocatePage_none align refused nothing, Memory.loadPageEntry]

/-- What is there after one page of a sweep was there before, or is that page. -/
theorem resident_of_loaded {e o : Nat} (known : Registered m mid tid page e pe)
    (meets : Links.Loaded mid final e fp success) (ne : o ≠ page)
    (inside : Resident final tid o) : Resident m tid o := by
  obtain ⟨place, snd, frame, snd_eq, owner, there, placed⟩ := inside
  have swept := known.swept.trans (known.swept_loaded meets)
  rcases swept.loaded place snd snd_eq (by simp [placed]) with old | ⟨_, here⟩
  · exact ⟨place, snd, frame, old, owner, there, placed⟩
  · exact absurd (there.symm.trans (mem_singleton.mp here)) ne

/-- A page that is there stays there while the pool has free pages. -/
theorem kept_of_loaded {e : Nat} (known : Registered m mid tid page e pe)
    (absent : pe.frame = none) (meets : Links.Loaded mid final e fp success)
    (room : m.free.Nonempty) (snd_eq : m.entries place = some second)
    (placed : second.frame.isSome) : final.entries place = some second := by
  have ne : place ≠ e := by
    rintro rfl
    rcases known.old with same | ⟨nothing, _⟩
    · grind
    · grind
  rw [meets.kept (known.free ▸ room) place ne, known.others place ne]
  exact snd_eq

/-- A sweep over pages that are not there, with enough free pages of the pool for them, returns and
leaves all pages in place. -/
theorem sweep_fits (settled : Settled m) (runs : m.alive tid = true)
    (align : ∀ page ∈ pages, pageOf page = page) (nonzero : ∀ page ∈ pages, page ≠ 0)
    (nodup : pages.Nodup) (enough : (userPages pages).length ≤ m.free.card)
    (absent : ∀ page ∈ userPages pages, ¬ Resident m tid page) :
    ∃ s', Memory.sweep tid chances m true pages = some (s', true) ∧
      ∀ e pe, m.entries e = some pe → pe.frame.isSome → s'.entries e = some pe := by
  induction pages generalizing m with
  | nil => exact ⟨m, rfl, fun _ _ entry_eq _ => entry_eq⟩
  | cons page rest ih =>
    have page_aligned := align page mem_cons_self
    have page_nonzero := nonzero page mem_cons_self
    by_cases user : page < physBase ∧ page ≠ 0
    · rw [userPages_cons user] at enough absent
      have room : m.free.Nonempty := Finset.card_pos.mp (by
        rw [length_cons] at enough
        omega)
      obtain ⟨e, pe, taken, known⟩ | ⟨_, refused⟩ := settled.allocatePage runs page_aligned
      · have unplaced := known.unplaced (absent page mem_cons_self)
        obtain ⟨final, ok, fp, loads, _, meets, _⟩ :=
          known.load page_nonzero unplaced (chances page)
        have swept := known.swept.trans (known.swept_loaded meets)
        cases ok with
        | false =>
          refine ⟨final, ?_, fun place snd snd_eq placed =>
            kept_of_loaded known unplaced meets room snd_eq placed⟩
          simp [Memory.sweep, taken, loads]
        | true =>
          obtain ⟨unlisted, rest_nodup⟩ := nodup_cons.mp nodup
          have fewer := meets.free rfl
          rw [known.free] at fewer
          obtain ⟨s', goes, kept⟩ := @ih final swept.settled (swept.alive ▸ runs)
            (fun page mem => align page (mem_cons_of_mem _ mem))
            (fun page mem => nonzero page (mem_cons_of_mem _ mem)) rest_nodup
            (by rw [length_cons] at enough; omega)
            (fun o mem there => by
              have in_rest := takeWhile_subset _ mem
              refine absent o (mem_cons_of_mem _ mem) ?_
              exact resident_of_loaded known meets (by grind) there)
          refine ⟨s', ?_, fun place snd snd_eq placed =>
            kept place snd (kept_of_loaded known unplaced meets room snd_eq placed) placed⟩
          simpa [Memory.sweep, taken, loads] using goes
      · exact absurd user refused
    · exact ⟨m, settled.sweep_refused page_aligned user (fun zero => absurd zero page_nonzero) true,
        fun _ _ entry_eq _ => entry_eq⟩

theorem sweep_first (settled : Settled m) (runs : m.alive tid = true)
    (align : ∀ o ∈ page :: rest, pageOf o = o)
    (nonzero : ∀ o ∈ page :: rest, o ≠ 0) (nodup : (page :: rest).Nodup)
    (user : page < physBase) (absent : ¬ Resident m tid page)
    (fits : (userPages (page :: rest)).length ≤ 1 ∨
      (userPages (page :: rest)).length ≤ m.free.card ∧
        ∀ o ∈ userPages (page :: rest), ¬ Resident m tid o)
    (chances : Nat → Chance) :
    ∃ s' ok, Memory.sweep tid chances m false (page :: rest) = some (s', ok) ∧
      (ok = true → Resident s' tid page) := by
  have page_nonzero := nonzero page mem_cons_self
  obtain ⟨unlisted, rest_nodup⟩ := nodup_cons.mp nodup
  rw [userPages_cons ⟨user, page_nonzero⟩, length_cons] at fits
  obtain ⟨e, pe, taken, known⟩ | ⟨_, refused⟩ :=
    settled.allocatePage runs (align page mem_cons_self)
  · have unplaced := known.unplaced absent
    obtain ⟨final, ok, fp, loads, _, meets, _⟩ := known.load page_nonzero unplaced (chances page)
    have swept := known.swept.trans (known.swept_loaded meets)
    cases ok with
    | false => exact ⟨final, false, by simp [Memory.sweep, taken, loads], nofun⟩
    | true =>
      have fewer := meets.free rfl
      rw [known.free] at fewer
      obtain ⟨loaded, loaded_eq, placed⟩ := meets.resident rfl
      obtain ⟨s', goes, kept⟩ := @sweep_fits final tid chances rest swept.settled
        (swept.alive ▸ runs)
        (fun o mem => align o (mem_cons_of_mem _ mem))
        (fun o mem => nonzero o (mem_cons_of_mem _ mem)) rest_nodup
        (by omega)
        (fun o mem inside => by
          have in_rest := takeWhile_subset _ mem
          rcases fits with single | ⟨_, others⟩
          · have pos := length_pos_of_mem mem
            omega
          · exact others o (mem_cons_of_mem _ mem)
              (resident_of_loaded known meets (by grind) inside))
      refine ⟨s', true, by simpa [Memory.sweep, taken, loads] using goes, fun _ => ?_⟩
      obtain ⟨frame, placed_eq⟩ := isSome_iff_exists.mp placed
      obtain ⟨later, later_eq, same_tid, same⟩ :=
        (known.swept_loaded meets).persists e pe known.entry_eq
      obtain rfl := some.inj (later_eq.symm.trans loaded_eq)
      exact ⟨e, later, frame, kept e later loaded_eq placed, same_tid.trans known.owner,
        same.trans known.there, placed_eq⟩
  · exact absurd ⟨user, page_nonzero⟩ refused

/-- The page in a frame that was chosen as a victim has gone. -/
theorem gone_of_victim {e : Nat} {later : PageEntry}
    (known : Registered m mid tid page e pe) (absent : pe.frame = none)
    (meets : Links.Loaded mid final e fp success)
    (snd_eq : m.entries place = some second) (placed : second.frame = some fp)
    (later_eq : final.entries place = some later) : later.frame = none := by
  have ne : place ≠ e := by
    rintro rfl
    rcases known.old with same | ⟨nothing, _⟩
    · grind
    · grind
  cases still : later.frame with
  | none => rfl
  | some frame =>
    have was := meets.inside place later ne later_eq (by simp [still])
    rw [known.others place ne, snd_eq, some.injEq] at was
    subst was
    exact absurd placed (meets.vacant place second ne later_eq)

/-- The policy that evicts one frame whenever it can. -/
def evicting (fp : Nat) : Policy where
  choose frames := if fp ∈ frames then fp else frames.headD 0
  chooses frames nonempty := by
    split
    · assumption
    · cases frames with
      | nil => exact absurd rfl nonempty
      | cons first rest => simp
  marked _ := false
  dirty := false

theorem choose_evicting (settled : Settled m) (snd_eq : m.entries place = some second)
    (placed : second.frame = some fp) : (evicting fp).choose m.evictable = fp := by
  obtain ⟨frame, resides⟩ := settled.links.owned place second fp snd_eq placed
  have listed : fp ∈ m.allFrames := (settled.links.listed fp).mpr (by simp [resides.2.1])
  have loose := settled.unpinned fp frame resides.2.1
  refine if_pos (mem_filter.mpr ⟨listed, ?_⟩)
  simp [resides.2.1, loose]

/-- Files are as long as expected. -/
def reading (policy : Policy) : Chance where
  toPolicy := policy
  fileRead _ _ size := (size, Buffer.zeros)

/-- Files are empty. -/
def missing (policy : Policy) : Chance where
  toPolicy := policy
  fileRead _ _ _ := (0, Buffer.zeros)

theorem not_short_reading (pe : PageEntry) (policy : Policy) :
    ¬ Links.Short pe (reading policy) := by
  simp [Links.Short, reading]

/-- A sweep over a page that is there, or over more pages than are free, fails an assertion or loses
the page in the frame that is evicted first. -/
theorem sweep_unfit {res : Bool} (evicts : ∀ page ∈ pages, chances page = reading (evicting fp))
    (settled : Settled m) (runs : m.alive tid = true)
    (align : ∀ page ∈ pages, pageOf page = page) (nodup : pages.Nodup)
    (snd_eq : m.entries place = some second) (placed : second.frame = some fp)
    (out : second.uaddr ∉ pages) (unfit : m.free.card < (userPages pages).length ∨
      ∃ page ∈ userPages pages, Resident m tid page)
    (swept : Memory.sweep tid chances m true pages = some (s', res)) :
    ∃ later, s'.entries place = some later ∧ later.frame = none := by
  induction pages generalizing m with
  | nil => simp [userPages] at unfit
  | cons page rest ih =>
    have page_aligned := align page mem_cons_self
    have rest_aligned : ∀ page ∈ rest, pageOf page = page :=
      fun page mem => align page (mem_cons_of_mem _ mem)
    by_cases user : page < physBase ∧ page ≠ 0
    · rw [userPages_cons user] at unfit
      obtain ⟨e, pe, taken, known⟩ | ⟨_, refused⟩ := settled.allocatePage runs page_aligned
      · cases unplaced : pe.frame with
        | some frame =>
          simp [Memory.sweep, taken, Memory.loadPageEntry, known.entry_eq, unplaced] at swept
        | none =>
          obtain ⟨final, ok, chosen, loads, outcome, meets, victim⟩ :=
            known.load user.2 unplaced (chances page)
          rw [evicts page mem_cons_self] at outcome victim
          obtain rfl : ok = true := by
            have := not_short_reading pe (evicting fp)
            grind
          have fst := known.swept.trans (known.swept_loaded meets)
          have goes : Memory.sweep tid chances final true rest = some (s', res) := by
            simpa [Memory.sweep, taken, loads] using swept
          by_cases room : m.free.Nonempty
          · have kept {o : Nat} {third : PageEntry} :=
              @kept_of_loaded m _ _ tid page _ o third _ _ _ known unplaced meets room
            refine ih (fun page mem => evicts page (mem_cons_of_mem _ mem))
              fst.settled (fst.alive ▸ runs) rest_aligned
              (nodup_cons.mp nodup).2 (kept snd_eq (by simp [placed]))
              (fun mem => out (mem_cons_of_mem _ mem)) ?_ goes
            have fewer := meets.free rfl
            have pos := Finset.card_pos.mpr room
            rw [known.free] at fewer
            rcases unfit with crowded | ⟨o, mem, inside⟩
            · rw [length_cons] at crowded
              exact .inl (by omega)
            · rcases mem_cons.mp mem with rfl | mem
              · exact absurd inside (known.not_resident unplaced)
              · obtain ⟨spot, third, frame, third_eq, owner, there, third_placed⟩ := inside
                exact .inr ⟨o, mem, spot, third, frame,
                  kept third_eq (by simp [third_placed]), owner, there, third_placed⟩
          · have full : _ = ∅ := Finset.not_nonempty_iff_eq_empty.mp room
            obtain rfl : chosen = fp := (victim (known.free.trans full)).trans
              (known.settled.choose_evicting (known.still snd_eq) placed)
            obtain ⟨mid, between_eq, _, same⟩ := fst.persists place second snd_eq
            have gone := gone_of_victim known unplaced meets snd_eq placed between_eq
            have later := (fst.settled.sweep (fst.alive ▸ runs) rest_aligned goes).1
            obtain ⟨last, last_eq, _, last_uaddr⟩ := later.persists place mid between_eq
            refine ⟨last, last_eq, ?_⟩
            cases still : last.frame with
            | none => rfl
            | some frame =>
              rcases later.loaded place last last_eq (by simp [still]) with old | ⟨_, swept⟩
              · rw [between_eq, some.injEq] at old
                rw [old, still] at gone
                cases gone
              · rw [last_uaddr, same] at swept
                exact absurd (mem_cons_of_mem _ swept) out
      · exact absurd user refused
    · simp [userPages_cons_none user] at unfit

theorem sweep_first_unfit (settled : Settled m) (runs : m.alive tid = true)
    (align : ∀ o ∈ page :: rest, pageOf o = o) (nodup : (page :: rest).Nodup)
    (user : page < physBase ∧ page ≠ 0) (absent : ¬ Resident m tid page)
    (several : 0 < (userPages rest).length)
    (unfit : m.free.card < (userPages rest).length + 1 ∨
      ∃ o ∈ userPages rest, Resident m tid o) : ∃ chances, ∀ s' res,
      Memory.sweep tid chances m false (page :: rest) = some (s', res) →
        res = true ∧ ¬ Resident s' tid page := by
  obtain ⟨unlisted, rest_nodup⟩ := nodup_cons.mp nodup
  have rest_aligned : ∀ o ∈ rest, pageOf o = o := fun o mem => align o (mem_cons_of_mem _ mem)
  obtain ⟨e, pe, taken, known⟩ | ⟨_, refused⟩ :=
    settled.allocatePage runs (align page mem_cons_self)
  · have unplaced := known.unplaced absent
    obtain ⟨final, ok, fp, loads, out, meets, _⟩ :=
      known.load user.2 unplaced (reading (evicting 0))
    obtain rfl : ok = true := by
      have := not_short_reading pe (evicting 0)
      grind
    have fst := known.swept.trans (known.swept_loaded meets)
    have fewer := meets.free rfl
    rw [known.free] at fewer
    obtain ⟨loaded, loaded_eq, placed⟩ := meets.resident rfl
    obtain ⟨frame, placed⟩ := isSome_iff_exists.mp placed
    obtain ⟨later, later_eq, same_tid, same_uaddr⟩ :=
      (known.swept_loaded meets).persists e pe known.entry_eq
    obtain rfl := some.inj (later_eq.symm.trans loaded_eq)
    have there : later.uaddr = page := same_uaddr.trans known.there
    have owner : later.tid = tid := same_tid.trans known.owner
    -- From the second page on the frame of the first one is the victim.
    refine ⟨update (fun _ => reading (evicting frame)) page (reading (evicting 0)),
      fun s' res swept => ?_⟩
    have evicts : ∀ o ∈ rest, update (fun _ => reading (evicting frame)) page
        (reading (evicting 0)) o = reading (evicting frame) :=
      fun o mem => update_of_ne (by rintro rfl; exact unlisted mem) ..
    have goes : Memory.sweep tid (update (fun _ => reading (evicting frame)) page
        (reading (evicting 0))) final true rest = some (s', res) := by
      simpa [Memory.sweep, taken, loads] using swept
    obtain ⟨rest_swept, still⟩ := fst.settled.sweep (fst.alive ▸ runs) rest_aligned goes
    have lost := sweep_unfit evicts fst.settled (fst.alive ▸ runs) rest_aligned rest_nodup
      later_eq placed (there ▸ unlisted) ?_ goes
    · refine ⟨still rfl, ?_⟩
      obtain ⟨last, last_eq, gone⟩ := lost
      obtain ⟨same, same_eq, last_tid, last_uaddr⟩ := rest_swept.persists e later later_eq
      obtain rfl := some.inj (same_eq.symm.trans last_eq)
      rintro ⟨place, snd, fp, snd_eq, second_owner, second_there, second_placed⟩
      have here := rest_swept.settled.links.unique place snd e same snd_eq last_eq
        (second_owner.trans (last_tid.trans owner).symm)
        (second_there.trans (last_uaddr.trans there).symm)
      subst here
      rw [last_eq, some.injEq] at snd_eq
      rw [← snd_eq, gone] at second_placed
      cases second_placed
    · by_cases crowded : m.free.card < (userPages rest).length + 1
      · exact .inl (by omega)
      · obtain ⟨o, mem, spot, third, fp, third_eq, third_owner, third_there, third_placed⟩ :=
          unfit.resolve_left crowded
        have room : m.free.Nonempty := Finset.card_pos.mp (by omega)
        have kept := kept_of_loaded known unplaced meets room third_eq (by simp [third_placed])
        exact .inr ⟨o, mem, spot, third, fp, kept, third_owner, third_there, third_placed⟩
  · exact absurd user refused

end Settled

end Pintos.Vm
