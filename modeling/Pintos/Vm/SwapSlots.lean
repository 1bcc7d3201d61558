import Mathlib.Data.List.Perm.Subperm
import Pintos.Lib.Returns
import Pintos.Vm.SwapTable

/-!
# Swap slots

Used slots stand before free ones in `swap_list`, since a slot enters in front when it is taken and at
the end when it is given back.  The last slot is therefore free whenever any is, and a slot is made
only while all others are in use.
-/

namespace Pintos.Vm

open Function Option List

variable {Page : Type}

/-- What holds of the swap table between two calls. -/
structure SwapInvariant (s : SwapRecord Page) : Prop where
  ordered : s.table.swapList.Pairwise fun first second => second.upage.isSome → first.upage.isSome
  distinct : (s.table.swapList.map SwapSlot.sector).Nodup
  aligned : ∀ slot ∈ s.table.swapList,
    pageSectors ∣ slot.sector ∧ slot.sector < s.table.nextSector
  made : s.table.nextSector = pageSectors * s.table.swapList.length
  fits : s.table.nextSector ≤ s.table.swapSize
  linked : ∀ page sector, ⟨sector, some page⟩ ∈ s.table.swapList ↔ s.swap page = some sector
  pushed : ∀ page, (s.pushed page).isSome = (s.swap page).isSome
  stored : ∀ page sector bytes, s.swap page = some sector → s.pushed page = some bytes →
    ∀ ofs < pageSize, s.table.disk (sector + ofs / 512) (ofs % 512) = bytes ofs
  peak : s.peak = s.table.swapList.length

/-- A slot that can be taken, with the rest of the list. -/
structure Room (table : SwapTable Page) (sector : Nat) (rest : List (SwapSlot Page)) (next : Nat) :
    Prop where
  taken : table.getFreeSlot = (some sector, { table with swapList := rest, nextSector := next })
  used : ∀ slot : SwapSlot Page, slot.upage.isSome → (slot ∈ rest ↔ slot ∈ table.swapList)
  ordered : rest.Pairwise fun first second => second.upage.isSome → first.upage.isSome
  distinct : (sector :: rest.map SwapSlot.sector).Nodup
  aligned : ∀ i ∈ sector :: rest.map SwapSlot.sector, pageSectors ∣ i ∧ i < next
  made : next = pageSectors * (rest.length + 1)
  below : sector < table.swapSize
  fits : sector + pageSectors ≤ table.swapSize → next ≤ table.swapSize
  counted : rest.length + 1 = table.swapList.length ∨
    rest.length = table.swapList.length ∧ ∀ slot ∈ rest, slot.upage.isSome

namespace SwapInvariant

variable {s : SwapRecord Page} {page : Page} {sec : Nat} {kpage : Buffer}

theorem init (swapSize : Nat) (disk : Nat → Buffer) (frame : Page → Option Buffer) :
    SwapInvariant (SwapRecord.init swapSize disk frame) where
  ordered := .nil
  distinct := .nil
  aligned := by simp [SwapRecord.init, SwapTable.swapInit]
  made := rfl
  fits := Nat.zero_le _
  linked := by simp [SwapRecord.init, SwapTable.swapInit]
  pushed _ := rfl
  stored := by simp [SwapRecord.init]
  peak := rfl

section

variable (inv : SwapInvariant s)
include inv

/-- If the last slot is in use, or there is none, then all are. -/
theorem all_used (last : ∀ slot, s.table.swapList.getLast? = some slot → slot.upage.isSome) :
    ∀ slot ∈ s.table.swapList, slot.upage.isSome := by
  have ordered := inv.ordered
  rcases eq_nil_or_concat' s.table.swapList with empty | ⟨front, final, split⟩
  · simp [empty]
  · rw [split] at ordered last ⊢
    have final_used : final.upage.isSome := last final (by simp)
    intro slot listed
    rcases mem_append.mp listed with early | late
    · exact (pairwise_append.mp ordered).2.2 slot early final (by simp) final_used
    · rwa [mem_singleton.mp late]

theorem getFreeSlot : (∃ sec rest next, Room s.table sec rest next) ∨
      s.table.getFreeSlot = (none, s.table) ∧ (∀ slot ∈ s.table.swapList, slot.upage.isSome) ∧
        s.table.nextSector = s.table.swapSize := by
  have ne := inv.distinct
  have align := inv.aligned
  have ordered := inv.ordered
  have made := inv.made
  have fits := inv.fits
  by_cases last : ∃ sec, s.table.swapList.getLast? = some ⟨sec, none⟩
  · obtain ⟨sec, last⟩ := last
    obtain ⟨rest, split⟩ := getLast?_eq_some_iff.mp last
    refine .inl ⟨sec, rest, s.table.nextSector, ?_⟩
    rw [split] at ne align ordered made
    refine ⟨?_, ?_, ?_, ?_, ?_, ?_, ?_, fun _ => fits, ?_⟩
    · rw [SwapTable.getFreeSlot, last, split]
      simp
    · intro slot in_use
      rw [split, mem_append, mem_singleton]
      refine ⟨.inl, fun listed => listed.resolve_right ?_⟩
      rintro rfl
      cases in_use
    · exact (pairwise_append.mp ordered).1
    · rw [map_append, map_singleton] at ne
      exact (perm_append_singleton sec _).nodup_iff.mp ne
    · intro i listed
      rw [List.mem_cons, List.mem_map] at listed
      rcases listed with rfl | ⟨slot, slot_listed, rfl⟩
      · exact align ⟨i, none⟩ (by simp)
      · exact align slot (by simp [slot_listed])
    · simpa using made
    · have := (align ⟨sec, none⟩ (by simp)).2
      simp only at this
      omega
    · simp [split]
  · have used := inv.all_used fun slot is_last => by
      rcases slot with ⟨sec, _ | page⟩
      · exact absurd ⟨sec, is_last⟩ last
      · rfl
    have taken : s.table.getFreeSlot = if s.table.nextSector < s.table.swapSize then
          (some s.table.nextSector, { s.table with nextSector := s.table.nextSector + pageSectors })
        else
          (none, s.table) := by
      rw [SwapTable.getFreeSlot]
      split
      · rename_i sec is_last
        exact absurd ⟨sec, is_last⟩ last
      · rfl
    by_cases room : s.table.nextSector < s.table.swapSize
    · refine .inl ⟨s.table.nextSector, s.table.swapList, s.table.nextSector + pageSectors, ?_⟩
      refine ⟨by rw [taken, if_pos room], fun _ _ => .rfl, ordered, ?_, ?_, ?_, room, id, ?_⟩
      · refine nodup_cons.mpr ⟨fun listed => ?_, ne⟩
        obtain ⟨slot, slot_listed, same⟩ := mem_map.mp listed
        have := (align slot slot_listed).2
        omega
      · intro i listed
        rw [List.mem_cons, List.mem_map] at listed
        rcases listed with rfl | ⟨slot, slot_listed, rfl⟩
        · exact ⟨⟨_, made⟩, by simp⟩
        · exact ⟨(align slot slot_listed).1, Nat.lt_add_right _ (align slot slot_listed).2⟩
      · rw [made, Nat.mul_add, Nat.mul_one]
      · exact .inr ⟨rfl, used⟩
    · exact .inr ⟨by rw [taken, if_neg room], used, by omega⟩

theorem apart {first snd : SwapSlot Page} (fst_mem : first ∈ s.table.swapList)
    (snd_mem : snd ∈ s.table.swapList) (o : first.sector ≠ snd.sector) :
    first.sector + pageSectors ≤ snd.sector ∨ snd.sector + pageSectors ≤ first.sector := by
  obtain ⟨first_index, first_eq⟩ := (inv.aligned first fst_mem).1
  obtain ⟨second_index, snd_eq⟩ := (inv.aligned snd snd_mem).1
  simp only [pageSectors] at first_eq snd_eq ⊢
  omega

theorem inside {slot : SwapSlot Page} (listed : slot ∈ s.table.swapList) :
    slot.sector + pageSectors ≤ s.table.swapSize := by
  obtain ⟨⟨i, eq⟩, below⟩ := inv.aligned slot listed
  have made := inv.made
  have fits := inv.fits
  simp only [pageSectors] at eq made ⊢
  omega

theorem slot_unique {first snd : SwapSlot Page} (fst_mem : first ∈ s.table.swapList)
    (snd_mem : snd ∈ s.table.swapList) (same : first.sector = snd.sector) :
    first = snd :=
  inj_on_of_nodup_map inv.distinct fst_mem snd_mem same

end

theorem inUse_le (swapping : Swapping Page) : swapping.inUse ≤ swapping.table.swapList.length :=
  countP_le_length

theorem inUse_of_full (inv : SwapInvariant s) (used : ∀ slot ∈ s.table.swapList, slot.upage.isSome)
    (full : s.table.nextSector = s.table.swapSize) :
    s.inUse = s.table.swapSize / pageSectors := by
  rw [Swapping.inUse, countP_eq_length.mpr used, ← full, inv.made]
  exact (Nat.mul_div_cancel_left _ (by decide)).symm

theorem setFrame (inv : SwapInvariant s) (frame : Page → Option Buffer) :
    SwapInvariant (s.record { s.toSwapping with frame } s.pushed) :=
  { inv with
    peak := by
      have counted := inUse_le { s.toSwapping with frame }
      have peak := inv.peak
      simp only [SwapRecord.record] at counted ⊢
      omega }

end SwapInvariant

/-! ## Taking a slot -/

/-- The table after a page has gone into the slot. -/
def SwapTable.occupied (table : SwapTable Page) (sector : Nat) (rest : List (SwapSlot Page))
    (next : Nat) (page : Page) (kpage : Buffer) : SwapTable Page where
  swapList := ⟨sector, some page⟩ :: rest
  nextSector := next
  swapSize := table.swapSize
  disk := (table.written sector pageSectors kpage).disk

namespace Room

variable {s : SwapRecord Page} {page : Page} {sec next : Nat} {kpage : Buffer}
  {rest : List (SwapSlot Page)} {table : SwapTable Page}

section

variable (room : Room table sec rest next)
include room

theorem sector_dvd : pageSectors ∣ sec := (room.aligned sec mem_cons_self).1

theorem inside (whole : pageSectors ∣ table.swapSize) : sec + pageSectors ≤ table.swapSize := by
  obtain ⟨i, sector_eq⟩ := room.sector_dvd
  obtain ⟨slots, size_eq⟩ := whole
  have below := room.below
  simp only [pageSectors] at sector_eq size_eq ⊢
  omega

theorem pushToSwap (inside : sec + pageSectors ≤ table.swapSize) : table.pushToSwap page kpage =
      some (table.occupied sec rest next page kpage, some sec) := by
  have wrote := @SwapTable.writeSwap_eq Page { table with swapList := rest, nextSector := next }
    sec kpage inside
  rw [SwapTable.pushToSwap, room.taken]
  simp only [wrote]
  rfl

theorem inside_of_pushToSwap {s' : SwapTable Page × Option Nat}
    (pushed : table.pushToSwap page kpage = some s') :
    sec + pageSectors ≤ table.swapSize := by
  rw [SwapTable.pushToSwap, room.taken] at pushed
  obtain ⟨_, wrote, _⟩ := bind_eq_some_iff.mp pushed
  have inside := SwapTable.writeSwap_inside wrote
  exact inside

end

theorem written_same (table : SwapTable Page) (sec : Nat) (kpage : Buffer) {ofs : Nat}
    (bounded : ofs < pageSize) :
    (table.written sec pageSectors kpage).disk (sec + ofs / 512) (ofs % 512) = kpage ofs := by
  simp only [SwapTable.written, pageSectors, pageSize] at bounded ⊢
  rw [if_pos (by omega), Nat.add_sub_cancel_left, Buffer.drop]
  congr 1
  omega

theorem written_other (table : SwapTable Page) {sec o : Nat} (kpage : Buffer) {ofs : Nat}
    (bounded : ofs < pageSize)
    (apart : o + pageSectors ≤ sec ∨ sec + pageSectors ≤ o) :
    (table.written sec pageSectors kpage).disk (o + ofs / 512) = table.disk (o + ofs / 512) := by
  simp only [SwapTable.written, pageSectors, pageSize] at bounded apart ⊢
  exact if_neg (by omega)

variable [DecidableEq Page]

theorem linked (room : Room s.table sec rest next) (inv : SwapInvariant s)
    (absent : s.swap page = none) (o : Page) (i : Nat) :
    ⟨i, some o⟩ ∈ SwapSlot.mk sec (some page) :: rest ↔
      update s.swap page (some sec) o = some i := by
  rw [mem_cons, room.used _ rfl, inv.linked]
  by_cases same : o = page
  · subst same
    rw [update_self, absent]
    simp [eq_comm]
  · rw [update_of_ne same]
    simp [same]

theorem occupied (room : Room s.table sec rest next) (inv : SwapInvariant s)
    (inside : sec + pageSectors ≤ s.table.swapSize) (absent : s.swap page = none) :
    SwapInvariant (s.record { s.toSwapping with
        table := s.table.occupied sec rest next page kpage
        swap := update s.swap page (some sec) }
      (update s.pushed page (some kpage))) where
  __ := room
  ordered := pairwise_cons.mpr ⟨fun _ _ _ => rfl, room.ordered⟩
  aligned slot listed := room.aligned slot.sector (mem_map_of_mem (f := SwapSlot.sector) listed)
  fits := room.fits inside
  linked := room.linked inv absent
  pushed o := by
    by_cases same : o = page
    · subst same
      simp [SwapRecord.record]
    · simpa [SwapRecord.record, same] using inv.pushed o
  stored o i bytes swapped out ofs bounded := by
    simp only [SwapRecord.record, SwapTable.occupied] at swapped out ⊢
    by_cases same : o = page
    · subst same
      rw [update_self, some.injEq] at swapped out
      subst swapped out
      exact written_same s.table sec kpage bounded
    · have listed := (room.linked inv absent o i).mpr swapped
      rw [update_of_ne same] at swapped out
      have in_rest : SwapSlot.mk i (some o) ∈ rest := by
        simpa [same] using listed
      have ne : i ≠ sec := by
        rintro rfl
        exact (nodup_cons.mp room.distinct).1 (mem_map_of_mem (f := SwapSlot.sector) in_rest)
      obtain ⟨pos, position_eq⟩ := room.sector_dvd
      obtain ⟨⟨place, place_eq⟩, _⟩ := inv.aligned _ ((room.used _ rfl).mp in_rest)
      rw [written_other s.table kpage bounded (by simp only [pageSectors] at *; omega)]
      exact inv.stored o i bytes swapped out ofs bounded
  peak := by
    have peak := inv.peak
    simp only [SwapRecord.record, SwapTable.occupied, Swapping.inUse, countP_cons,
      length_cons, isSome_some, if_true]
    have bounded : rest.countP (fun slot => slot.upage.isSome) ≤ rest.length := countP_le_length
    rcases room.counted with recycled | ⟨length_eq, used⟩
    · omega
    · have all := countP_eq_length.mpr used
      omega

end Room

/-! ## Giving a slot back -/

namespace SwapInvariant

variable {s : SwapRecord Page} {page : Page} {sec : Nat}

theorem rotate_eq (inv : SwapInvariant s) (moved : s.swap page = some sec) :
    ∃ front back, s.table.swapList = front ++ ⟨sec, some page⟩ :: back ∧
      (s.table.rotate sec).swapList = front ++ back ++ [⟨sec, none⟩] := by
  have listed := (inv.linked page sec).mpr moved
  obtain ⟨found, front, back, _, found_sector, split, erased⟩ :=
    exists_of_eraseP listed (p := fun slot => slot.sector == sec) (by simp)
  have found_listed : found ∈ s.table.swapList := by simp [split]
  obtain rfl := inv.slot_unique found_listed listed (by simpa using found_sector)
  exact ⟨front, back, split, by rw [SwapTable.rotate, erased]⟩

theorem table_freeSwap (inv : SwapInvariant s) (moved : s.swap page = some sec) :
    s.table.freeSwap sec = some (s.table.rotate sec, page) := by
  have listed := (inv.linked page sec).mpr moved
  have found : (s.table.swapList.find? fun slot => slot.sector == sec) = some ⟨sec, some page⟩ := by
    cases found : s.table.swapList.find? fun slot => slot.sector == sec with
    | none =>
      have none_matches := find?_eq_none.mp found _ listed
      simp at none_matches
    | some slot =>
      have same : slot.sector = sec := by simpa using find?_some found
      rw [inv.slot_unique (mem_of_find?_eq_some found) listed same]
  simp [SwapTable.freeSwap, found]

variable [DecidableEq Page]

theorem rotate_linked (inv : SwapInvariant s) {front back : List (SwapSlot Page)}
    (split : s.table.swapList = front ++ ⟨sec, some page⟩ :: back) (o : Page)
    (i : Nat) :
    ⟨i, some o⟩ ∈ front ++ back ++ [SwapSlot.mk sec none] ↔ update s.swap page none o = some i := by
  have link := inv.linked o i
  have ne := inv.distinct
  rw [split] at link ne
  by_cases same : o = page
  · subst same
    simp only [update_self, reduceCtorEq, iff_false]
    intro listed
    have remaining : SwapSlot.mk i (some o) ∈ front ++ back := by simpa using listed
    have moved : s.swap o = some sec := (inv.linked o sec).mp (by simp [split])
    have again : s.swap o = some i := link.mp (by
        rcases mem_append.mp remaining with early | late
        · simp [early]
        · simp [late])
    obtain rfl : sec = i := some.inj (moved.symm.trans again)
    rw [map_append, map_cons, nodup_middle] at ne
    refine (nodup_cons.mp ne).1 ?_
    rw [← map_append]
    exact mem_map_of_mem (f := SwapSlot.sector) remaining
  · rw [update_of_ne same, ← link]
    simp [same]

/-- The invariant after a page has come back, or has been dropped. -/
theorem rotate (inv : SwapInvariant s) (moved : s.swap page = some sec)
    (frame : Page → Option Buffer) :
    SwapInvariant (s.record
      { table := s.table.rotate sec
        swap := update s.swap page none
        frame }
      (update s.pushed page none)) := by
  obtain ⟨front, back, split, rotated⟩ := inv.rotate_eq moved
  have ordered := inv.ordered
  have sectors : ((front ++ back ++ [SwapSlot.mk sec (none : Option Page)]).map
      SwapSlot.sector).Perm (s.table.swapList.map SwapSlot.sector) := by
    rw [split]
    simp only [map_append, map_cons, map_nil]
    exact (perm_append_singleton sec _).trans perm_middle.symm
  have length_eq : (front ++ back ++ [SwapSlot.mk sec (none : Option Page)]).length =
      s.table.swapList.length := by
    simpa using sectors.length_eq
  refine ⟨?_, ?_, ?_, ?_, inv.fits, ?_, ?_, ?_, ?_⟩
  · simp only [SwapRecord.record, rotated]
    refine pairwise_append.mpr ⟨?_, pairwise_singleton _ _, by simp⟩
    rw [split] at ordered
    exact ordered.sublist (List.Sublist.append_left (sublist_cons_self _ _) _)
  · simp only [SwapRecord.record, rotated]
    exact sectors.nodup_iff.mpr inv.distinct
  · intro slot listed
    simp only [SwapRecord.record, rotated] at listed
    obtain ⟨old, old_listed, same⟩ :=
      mem_map.mp (sectors.mem_iff.mp (mem_map_of_mem (f := SwapSlot.sector) listed))
    rw [← same]
    exact inv.aligned old old_listed
  · simp only [SwapRecord.record, rotated, length_eq]
    exact inv.made
  · simp only [SwapRecord.record, rotated]
    exact inv.rotate_linked split
  · intro o
    by_cases same : o = page
    · subst same
      simp [SwapRecord.record]
    · simpa [SwapRecord.record, same] using inv.pushed o
  · intro o i bytes still_swapped out
    simp only [SwapRecord.record] at still_swapped out
    by_cases same : o = page
    · subst same
      simp at still_swapped
    · rw [update_of_ne same] at still_swapped out
      exact inv.stored o i bytes still_swapped out
  · have counted := inUse_le
      { table := s.table.rotate sec, swap := update s.swap page none, frame }
    have peak := inv.peak
    simp only [SwapRecord.record, rotated, length_eq] at counted ⊢
    omega

/-! ## Calls -/

variable {kpage : Buffer}

theorem pushToSwap_full (there : s.frame page = some kpage) (absent : s.swap page = none)
    (nothing : s.table.getFreeSlot = (none, s.table)) :
    s.toSwapping.pushToSwap page = some (s.toSwapping, false) := by
  have same : update s.swap page none = s.swap := by
    rw [← absent, update_eq_self]
  simp only [Swapping.pushToSwap, there, absent, SwapTable.pushToSwap, nothing,
    bind_eq_bind, bind_some, same]
  rfl

theorem pushToSwap_room {rest : List (SwapSlot Page)} {next : Nat}
    (room : Room s.table sec rest next)
    (inside : sec + pageSectors ≤ s.table.swapSize)
    (there : s.frame page = some kpage) (absent : s.swap page = none) :
    s.toSwapping.pushToSwap page = some ({ s.toSwapping with
          table := s.table.occupied sec rest next page kpage
          swap := update s.swap page (some sec) }, true) := by
  simp only [Swapping.pushToSwap, there, absent, room.pushToSwap inside]
  rfl

variable (inv : SwapInvariant s)
include inv

theorem getSwappedPage_eq (moved : s.swap page = some sec) :
    s.table.getSwappedPage page = some ⟨sec, some page⟩ := by
  have listed := (inv.linked page sec).mpr moved
  cases found : s.table.getSwappedPage page with
  | none =>
    have none_matches := find?_eq_none.mp found _ listed
    simp at none_matches
  | some slot =>
    have owner : slot.upage = some page := by simpa using find?_some found
    obtain ⟨i, owner'⟩ := slot
    subst owner
    have same := (inv.linked page i).mp (mem_of_find?_eq_some found)
    rw [moved, some.injEq] at same
    rw [same]

theorem getSwappedPage_none (absent : s.swap page = none) : s.table.getSwappedPage page = none := by
  refine find?_eq_none.mpr fun slot listed is_page => ?_
  obtain ⟨i, owner⟩ := slot
  obtain rfl : owner = some page := by simpa using is_page
  have moved := (inv.linked page i).mp listed
  rw [absent] at moved
  cases moved

theorem pullFromSwap (moved : s.swap page = some sec)
    (there : s.frame page = some kpage) :
    s.toSwapping.pullFromSwap page = some
      ({ table := s.table.rotate sec
         swap := update s.swap page none
         frame := update s.frame page (some fun ofs =>
          if ofs < pageSize then
            s.table.disk (sec + ofs / 512) (ofs % 512)
          else
            kpage ofs) }, true) := by
  have listed := (inv.linked page sec).mpr moved
  simp only [Swapping.pullFromSwap, inv.getSwappedPage_eq moved, there,
    SwapTable.readSwap_eq (inv.inside listed)]
  rfl

theorem freeSwap (moved : s.swap page = some sec) : s.toSwapping.freeSwap page = some
      { s.toSwapping with
        table := s.table.rotate sec
        swap := update s.swap page none } := by
  simp [Swapping.freeSwap, moved, inv.table_freeSwap moved]

theorem step {call : SwapCall Page} {s' : SwapRecord Page}
    (ran : s.step call = some s') :
    SwapInvariant s' ∧ s'.table.swapSize = s.table.swapSize := by
  cases call with
  | setFrame page frame =>
    cases ran
    exact ⟨inv.setFrame _, rfl⟩
  | pushToSwap page =>
    obtain ⟨⟨next, ok⟩, pushed, recorded⟩ := bind_eq_some_iff.mp ran
    cases recorded
    cases there : s.frame page with
    | none => simp [Swapping.pushToSwap, there] at pushed
    | some kpage =>
      cases absent : s.swap page with
      | some sec => simp [Swapping.pushToSwap, there, absent] at pushed
      | none =>
        rcases inv.getFreeSlot with ⟨sec, rest, place, room⟩ | ⟨nothing, _, _⟩
        · have inside : sec + pageSectors ≤ s.table.swapSize := by
            simp only [Swapping.pushToSwap, there, absent] at pushed
            obtain ⟨_, wrote, _⟩ := bind_eq_some_iff.mp pushed
            exact room.inside_of_pushToSwap wrote
          obtain ⟨rfl, rfl⟩ : _ ∧ _ := by
            simpa using (pushToSwap_room room inside there absent).symm.trans pushed
          exact ⟨room.occupied inv inside absent, rfl⟩
        · obtain ⟨rfl, rfl⟩ : _ ∧ _ := by
            simpa using (pushToSwap_full there absent nothing).symm.trans pushed
          exact ⟨inv.setFrame _, rfl⟩
  | pullFromSwap page =>
    obtain ⟨⟨next, ok⟩, pulled, recorded⟩ := bind_eq_some_iff.mp ran
    cases recorded
    cases moved : s.swap page with
    | none =>
      have nothing : s.pushed page = none := by
        simpa [moved] using inv.pushed page
      obtain ⟨rfl, rfl⟩ : _ ∧ _ := by
        simpa [Swapping.pullFromSwap, inv.getSwappedPage_none moved] using pulled
      rw [← nothing, update_eq_self]
      exact ⟨inv.setFrame _, rfl⟩
    | some sec =>
      cases there : s.frame page with
      | none =>
        simp [Swapping.pullFromSwap, there, inv.getSwappedPage_eq moved] at pulled
      | some kpage =>
        obtain ⟨rfl, rfl⟩ : _ ∧ _ := by
          simpa using (inv.pullFromSwap moved there).symm.trans pulled
        exact ⟨inv.rotate moved _, rfl⟩
  | freeSwap page =>
    obtain ⟨next, freed, recorded⟩ := bind_eq_some_iff.mp ran
    cases recorded
    cases moved : s.swap page with
    | none => simp [Swapping.freeSwap, moved] at freed
    | some sec =>
      obtain rfl := some.inj ((inv.freeSwap moved).symm.trans freed)
      exact ⟨inv.rotate moved _, rfl⟩

end SwapInvariant

/-! ## The table alone -/

/-- The table goes with the slots of the pages. -/
def SwapLinked (table : SwapTable Page) (swap : Page → Option Nat) : Prop :=
  ∃ s : SwapRecord Page, s.table = table ∧ s.swap = swap ∧ SwapInvariant s

namespace SwapLinked

variable {table : SwapTable Page} {swap : Page → Option Nat} {page : Page} {sec : Nat}

theorem swapInit (swapSize : Nat) (disk : Nat → Buffer) :
    SwapLinked (.swapInit Page swapSize disk) fun _ => none :=
  ⟨_, rfl, rfl, SwapInvariant.init swapSize disk fun _ => none⟩

theorem free (link : SwapLinked table swap) (moved : swap page = some sec) :
    table.freeSwap sec = some (table.rotate sec, page) := by
  obtain ⟨state, rfl, rfl, inv⟩ := link
  exact inv.table_freeSwap moved

variable [DecidableEq Page] (linked : SwapLinked table swap)
include linked

theorem push (absent : swap page = none) (kpage : Buffer) :
    Returns (pageSectors ∣ table.swapSize) (table.pushToSwap page kpage) fun res =>
      SwapLinked res.1 (update swap page res.2) ∧ res.1.swapSize = table.swapSize := by
  obtain ⟨state, rfl, rfl, inv⟩ := linked
  rcases inv.getFreeSlot with ⟨sec, rest, next, room⟩ | ⟨nothing, _, _⟩
  · by_cases inside : sec + pageSectors ≤ state.table.swapSize
    · have occupied := @Room.occupied _ _ page _ _ kpage _ _ room inv inside absent
      exact .of_eq (room.pushToSwap inside) ⟨⟨_, rfl, rfl, occupied⟩, rfl⟩
    · cases pushed : state.table.pushToSwap page kpage with
      | none => exact .of_none fun whole => inside (room.inside whole)
      | some res => exact absurd (room.inside_of_pushToSwap pushed) inside
  · have same : update state.swap page none = state.swap := by
      rw [← absent, update_eq_self]
    have runs : state.table.pushToSwap page kpage = some (state.table, none) := by
      rw [SwapTable.pushToSwap, nothing]
    refine .of_eq runs ⟨?_, rfl⟩
    rw [same]
    exact ⟨state, rfl, rfl, inv⟩

theorem pull (moved : swap page = some sec) (kpage : Buffer) :
    table.getSwappedPage page = some ⟨sec, some page⟩ ∧
      (table.readSwap sec kpage).isSome := by
  obtain ⟨state, rfl, rfl, inv⟩ := linked
  have listed := (inv.linked page sec).mpr moved
  refine ⟨inv.getSwappedPage_eq moved, ?_⟩
  rw [SwapTable.readSwap_eq (inv.inside listed)]
  rfl

theorem rotate (moved : swap page = some sec) :
    SwapLinked (table.rotate sec) (update swap page none) := by
  obtain ⟨state, rfl, rfl, inv⟩ := linked
  exact ⟨_, rfl, rfl, inv.rotate moved state.frame⟩

end SwapLinked

/-! ## Soundness -/

/-- What is expected of the swap table. -/
structure SwapSound [DecidableEq Page] (s : SwapRecord Page) : Prop where
  /-- A resident page can be pushed, and only a full device refuses it. -/
  pushes : ∀ page, (s.frame page).isSome → s.swap page = none →
    ∃ s' success, s.toSwapping.pushToSwap page = some (s', success) ∧
      (success = false → s.inUse = s.table.swapSize / pageSectors)
  /-- A page that is out comes back with the bytes last pushed for it. -/
  restores : ∀ page bytes, (s.frame page).isSome → s.pushed page = some bytes →
    ∃ s' restored, s.toSwapping.pullFromSwap page = some (s', true) ∧
      s'.frame page = some restored ∧ ∀ ofs < pageSize, restored ofs = bytes ofs
  /-- A page that is not out is not found. -/
  misses : ∀ page, s.pushed page = none →
    s.toSwapping.pullFromSwap page = some (s.toSwapping, false)
  /-- Exactly the pages that are out have slots, and a slot can be freed. -/
  frees : ∀ page, (s.pushed page).isSome ↔ (s.toSwapping.freeSwap page).isSome
  inside : ∀ slot ∈ s.table.swapList, slot.upage.isSome →
    slot.sector + pageSectors ≤ s.table.swapSize
  disjoint : s.table.swapList.Pairwise fun first second =>
    first.upage.isSome → second.upage.isSome →
      first.sector + pageSectors ≤ second.sector ∨ second.sector + pageSectors ≤ first.sector
  ordered : s.table.swapList.Pairwise fun first second =>
    second.upage.isSome → first.upage.isSome
  full : s.table.getFreeSlot.1 = none → s.inUse = s.table.swapSize / pageSectors
  peak : s.table.nextSector / pageSectors = s.peak

theorem SwapInvariant.sound [DecidableEq Page] {state : SwapRecord Page}
    (inv : SwapInvariant state) (whole : pageSectors ∣ state.table.swapSize) :
    SwapSound state where
  pushes page there absent := by
    obtain ⟨kpage, there⟩ := isSome_iff_exists.mp there
    rcases inv.getFreeSlot with ⟨sec, rest, next, room⟩ | ⟨nothing, used, full⟩
    · exact ⟨_, _, pushToSwap_room room (room.inside whole) there absent,
        fun failed => by cases failed⟩
    · exact ⟨_, _, pushToSwap_full there absent nothing,
        fun _ => inv.inUse_of_full used full⟩
  restores page bytes there out := by
    obtain ⟨kpage, there⟩ := isSome_iff_exists.mp there
    have moved := inv.pushed page
    rw [out] at moved
    obtain ⟨sec, moved⟩ := isSome_iff_exists.mp moved.symm
    refine ⟨_, _, inv.pullFromSwap moved there, update_self .., ?_⟩
    intro ofs bounded
    rw [if_pos bounded]
    exact inv.stored page sec bytes moved out ofs bounded
  misses page nothing := by
    have absent : state.swap page = none := by
      have hidden := inv.pushed page
      rw [nothing] at hidden
      simpa using hidden.symm
    simp [Swapping.pullFromSwap, inv.getSwappedPage_none absent]
  frees page := by
    rw [inv.pushed page]
    cases moved : state.swap page with
    | none => simp [Swapping.freeSwap, moved]
    | some sec => simp [inv.freeSwap moved]
  inside slot listed _ := inv.inside listed
  disjoint := by
    have ne := pairwise_map.mp inv.distinct
    refine ne.imp_of_mem fun fst_mem snd_mem o _ _ => ?_
    exact inv.apart fst_mem snd_mem o
  ordered := inv.ordered
  full nothing := by
    rcases inv.getFreeSlot with ⟨_, _, _, room⟩ | ⟨_, used, full⟩
    · rw [room.taken] at nothing
      cases nothing
    · exact inv.inUse_of_full used full
  peak := by
    rw [inv.peak, inv.made]
    exact Nat.mul_div_cancel_left _ (by decide)

/-- The swap table is sound along every sequence of calls, on a device of whole pages. -/
theorem swapSound_of_whole [DecidableEq Page] {swapSize : Nat} (whole : pageSectors ∣ swapSize)
    (disk : Nat → Buffer) (frame : Page → Option Buffer) (calls : List (SwapCall Page)) :
    Execution.Along SwapRecord.step SwapSound (.init swapSize disk frame) calls :=
  @Execution.along_of_invariant _ _ _
    (fun state => SwapInvariant state ∧ state.table.swapSize = swapSize) _ _
    ⟨SwapInvariant.init swapSize disk frame, rfl⟩
    (fun kept ran =>
      ⟨(kept.1.step ran).1, (kept.1.step ran).2.trans kept.2⟩)
    (fun kept => kept.1.sound (kept.2 ▸ whole)) calls

/-- A page goes out to a device of two pages and comes back. -/
theorem swapSound_two_pages : Execution.Along SwapRecord.step SwapSound
      (.init 16 (fun _ => Buffer.zeros) fun _ : Nat => some Buffer.zeros)
      [.pushToSwap 0, .pushToSwap 1, .freeSwap 1, .pullFromSwap 0] :=
  swapSound_of_whole (by decide) _ _ _

/-! ## The end of the device -/

/-- The next call stays on the device: `push_to_swap` can write the slot that it gets, and the slot of
a page that is out can be read. -/
structure SwapInside [DecidableEq Page] (s : SwapRecord Page) : Prop where
  writes : ∀ page kpage, (s.table.pushToSwap page kpage).isSome
  reads : ∀ page slot kpage, s.table.getSwappedPage page = some slot →
    (s.table.readSwap slot.sector kpage).isSome

theorem SwapInvariant.swapInside [DecidableEq Page] {state : SwapRecord Page}
    (inv : SwapInvariant state) (whole : pageSectors ∣ state.table.swapSize) : SwapInside state where
  writes page kpage := by
    rcases inv.getFreeSlot with ⟨sec, rest, next, room⟩ | ⟨nothing, _, _⟩
    · rw [room.pushToSwap (room.inside whole)]
      rfl
    · rw [SwapTable.pushToSwap, nothing]
      rfl
  reads page slot kpage found := by
    rw [SwapTable.readSwap_eq (inv.inside (mem_of_find?_eq_some found))]
    rfl

/-- A device that pages fill up without a panic consists of whole pages. -/
theorem SwapInvariant.whole {state : SwapRecord Nat} {page : Nat} (inv : SwapInvariant state)
    (used : ∀ slot ∈ state.table.swapList, slot.upage.isSome)
    (absent : ∀ later ≥ page, state.swap later = none)
    (there : ∀ page, state.frame page = some Buffer.zeros)
    (inside : ∀ calls, Execution.Along SwapRecord.step SwapInside state calls) :
    pageSectors ∣ state.table.swapSize := by
  -- the induction is on the sectors that are left; each push of a new page takes eight of them
  induction left : state.table.swapSize - state.table.nextSector using Nat.strong_induction_on
    generalizing state page with
  | _ sectors ih =>
    rcases inv.getFreeSlot with ⟨sec, rest, next, room⟩ | ⟨_, _, full⟩
    · obtain ⟨_, pushed⟩ := isSome_iff_exists.mp ((inside []).writes page Buffer.zeros)
      have fits := room.inside_of_pushToSwap pushed
      have runs := pushToSwap_room room fits (there page) (absent page (Nat.le_refl _))
      have more : rest.length = state.table.swapList.length ∧ ∀ slot ∈ rest, slot.upage.isSome := by
        refine room.counted.resolve_left fun fewer => ?_
        have subset : state.table.swapList ⊆ rest :=
          fun slot listed => (room.used slot (used slot listed)).mpr listed
        have le := (Nodup.subperm (.of_map _ inv.distinct) subset).length_le
        omega
      obtain ⟨s', ran, list, frame, swap, nextSector, size⟩ : ∃ s',
          state.step (.pushToSwap page) = some s' ∧
          s'.table.swapList = ⟨sec, some page⟩ :: rest ∧ s'.frame = state.frame ∧
          s'.swap = update state.swap page (some sec) ∧ s'.table.nextSector = next ∧
          s'.table.swapSize = state.table.swapSize := by
        rw [SwapRecord.step, runs]
        exact ⟨_, rfl, rfl, rfl, rfl, rfl, rfl⟩
      rw [← size]
      have made := inv.made
      have made' := room.made
      have next_fits := room.fits fits
      simp only [pageSectors, more.1] at made made'
      refine ih _ (show _ < sectors by omega) (inv.step ran).1 ?_ (show ∀ later ≥ page + 1, _ from ?_)
        (frame ▸ there) (fun calls => (inside (.pushToSwap page :: calls)).2 _ ran) rfl
      · rw [list]
        rintro slot (_ | ⟨_, listed⟩)
        · rfl
        · exact more.2 slot listed
      · intro later beyond
        rw [swap, update_of_ne (by omega)]
        exact absent later (by omega)
    · exact full ▸ ⟨_, inv.made⟩

/-- Swap stays on the device in every run exactly if the device consists of whole pages. -/
theorem swapInside_iff_whole (swapSize : Nat) (disk : Nat → Buffer) :
    (∀ (frame : Nat → Option Buffer) (calls : List (SwapCall Nat)),
      Execution.Along SwapRecord.step SwapInside (.init swapSize disk frame) calls) ↔
      pageSectors ∣ swapSize := by
  constructor
  · intro inside
    exact (SwapInvariant.init swapSize disk fun _ => some Buffer.zeros).whole
      (by simp [SwapRecord.init, SwapTable.swapInit])
      (show ∀ later ≥ 0, _ = none from fun _ _ => rfl) (fun _ => rfl) (inside _)
  · intro whole frame calls
    exact @Execution.along_of_invariant _ _ _
      (fun state => SwapInvariant state ∧ state.table.swapSize = swapSize) _ _
      ⟨SwapInvariant.init swapSize disk frame, rfl⟩
      (fun kept ran =>
        ⟨(kept.1.step ran).1, (kept.1.step ran).2.trans kept.2⟩)
      (fun kept => kept.1.swapInside (kept.2 ▸ whole)) calls

/-- The first page is to be written to a device of four sectors. -/
theorem swap_past_end : ¬ SwapInside (.init 4 (fun _ => Buffer.zeros) fun _ : Nat => some Buffer.zeros) :=
  fun inside => absurd (inside.writes 0 Buffer.zeros) (by decide)

end Pintos.Vm
