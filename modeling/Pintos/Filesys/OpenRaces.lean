import Pintos.Filesys.OpenCounts

/-!
# Races on the table of open inodes

`inode_close` does not take `open_sema`.  As long as no write of `open_cnt` is based on an outdated
value, and no inode is unlinked that another thread has meanwhile found or opened, every inode that a
thread has open is in the table and counted, and the table has one inode for every sector.
-/

namespace Pintos.Filesys

open Function Option List

variable {threads : Nat}

/-- Places, counters and the table agree. -/
structure TableInvariant (table : OpenTable threads) : Prop where
  sema : (table.openSema = 1 ∧ ∀ t, (table.place t).guarded = false) ∨
    (table.openSema = 0 ∧ ∃ owner, ∀ t, (table.place t).guarded = true ↔ t = owner)
  nodup : table.openInodes.Nodup
  listed : ∀ inode ∈ table.openInodes, inode < table.heapTop ∧
    ∃ node, table.inodes inode = some node ∧ node.openCnt = table.refs inode
  places : ∀ t, PlaceKnows table.toInodeList (table.place t)
  held : ∀ t, ∀ inode ∈ table.held t, inode ∈ table.openInodes
  apart : ∀ t sector inode, table.place t = .push sector inode →
    ∀ other, (table.place other).retires ≠ some inode
  blank : ∀ t inode, (∃ sector, table.place t = .setSector sector inode) ∨
    table.place t = .setCount inode → table.refs inode = 0
  unique : ∀ first ∈ table.openInodes, ∀ second ∈ table.openInodes,
    table.sectorOf first = table.sectorOf second → first = second ∨
      ∃ t sector, table.place t = .setSector sector first ∨ table.place t = .setSector sector second

theorem tableInvariant_init (threads : Nat) : TableInvariant (tableInit threads) where
  sema := .inl ⟨rfl, fun _ => rfl⟩
  nodup := nodup_nil
  listed _ mem := nomatch mem
  places _ := .idle
  held _ _ mem := nomatch mem
  apart _ _ _ place := nomatch place
  blank _ _ place := by
    rcases place with ⟨_, place⟩ | place <;> cases place
  unique _ mem := nomatch mem

/-- One thread moves to another place, and no other thread's place or inodes change. -/
structure Moves (s s' : OpenTable threads) (t : Fin threads) (new : TablePlace) : Prop where
  place : s'.place = update s.place t new
  held : ∀ other, other ≠ t → s'.held other = s.held other

namespace Moves

variable {s s' : OpenTable threads} {t o : Fin threads} {old new : TablePlace}
  (mv : Moves s s' t new)
include mv

theorem place_self : s'.place t = new := by
  rw [mv.place, update_self]

theorem place_of_ne (ne : o ≠ t) : s'.place o = s.place o := by
  rw [mv.place, update_of_ne ne]

theorem refs (inode : Ref) : s'.refs inode + s.share inode t = s.refs inode + s'.share inode t := by
  refine OpenTable.refs_update fun o ne => ?_
  unfold OpenTable.share
  rw [mv.place_of_ne ne, mv.held o ne]

theorem refs_eq {inode : Ref} (share : s'.share inode t = s.share inode t) :
    s'.refs inode = s.refs inode := by
  have sum := mv.refs inode
  omega

theorem share_eq (place : s.place t = old) (held : s'.held t = s.held t)
    (counted : new.counted = old.counted) (inode : Ref) : s'.share inode t = s.share inode t := by
  unfold OpenTable.share
  rw [mv.place_self, place, held, counted]

theorem knows {list : InodeList} (self : PlaceKnows list new)
    (others : ∀ o, o ≠ t → PlaceKnows list (s.place o)) (o : Fin threads) :
    PlaceKnows list (s'.place o) := by
  by_cases ne : o = t
  · rw [ne, mv.place_self]
    exact self
  · rw [mv.place_of_ne ne]
    exact others o ne

end Moves

namespace TableInvariant

variable {s s' : OpenTable threads} {t : Fin threads} {old new : TablePlace} {r : Ref}
  {sector : Nat} (inv : TableInvariant s)
include inv

theorem knows (place : s.place t = old) : PlaceKnows s.toInodeList old := place ▸ inv.places t

theorem mem_of_share (shares : 0 < s.share r t) : r ∈ s.openInodes := by
  unfold OpenTable.share at shares
  by_cases counted : (s.place t).counted = some r
  · exact (inv.places t).mem_of_counted counted
  · rw [if_neg counted] at shares
    exact inv.held t r (count_pos_iff.mp shares)

theorem refs_eq_zero (absent : r ∉ s.openInodes) : s.refs r = 0 := by
  by_contra some
  obtain ⟨t, shares⟩ := OpenTable.exists_share_of_refs_pos (pos_of_ne_zero some)
  exact absent (inv.mem_of_share shares)

/-- Only one thread at a time is in the guarded part of `inode_open`. -/
theorem lone {fst snd : Fin threads} (firstInside : (s.place fst).guarded = true)
    (secondInside : (s.place snd).guarded = true) : fst = snd := by
  rcases inv.sema with ⟨_, out⟩ | ⟨_, owner, inside⟩
  · rw [out fst] at firstInside
    cases firstInside
  · rw [(inside fst).mp firstInside, (inside snd).mp secondInside]

theorem setter_eq (inside : (s.place t).guarded = true) {o : Fin threads}
    {fst snd : Ref} (sets : s.place o = .setSector sector fst ∨
      s.place o = .setSector sector snd) : o = t := by
  refine inv.lone ?_ inside
  rcases sets with sets | sets <;> rw [sets] <;> rfl

theorem unguarded_of_ne (inside : (s.place t).guarded = true) {o : Fin threads}
    (ne : o ≠ t) : (s.place o).guarded = false := by
  refine Bool.eq_false_iff.mpr fun otherInside => ne ?_
  exact inv.lone otherInside inside

theorem sema_kept (moves : Moves s s' t new) (place : s.place t = old)
    (guarded : new.guarded = old.guarded) (openSema : s'.openSema = s.openSema) :
    (s'.openSema = 1 ∧ ∀ t, (s'.place t).guarded = false) ∨
      (s'.openSema = 0 ∧ ∃ owner, ∀ t, (s'.place t).guarded = true ↔ t = owner) := by
  have same : ∀ o, (s'.place o).guarded = (s.place o).guarded := by
    intro o
    by_cases ne : o = t
    · rw [ne, moves.place_self, place, guarded]
    · rw [moves.place_of_ne ne]
  simp only [same, openSema]
  exact inv.sema

/-- What stays true of inodes that are being set up, and of sectors, when the moving thread is at no
such place before and after, and inodes only leave the table. -/
theorem unique_kept (moves : Moves s s' t new) (place : s.place t = old)
    (apart : ∀ sec r, old ≠ .setSector sec r)
    (stays : ∀ r ∈ s'.openInodes, r ∈ s.openInodes)
    (sectors : ∀ r ∈ s'.openInodes, s'.sectorOf r = s.sectorOf r) :
    ∀ fst ∈ s'.openInodes, ∀ snd ∈ s'.openInodes, s'.sectorOf fst = s'.sectorOf snd → fst = snd ∨
        ∃ t sec, s'.place t = .setSector sec fst ∨ s'.place t = .setSector sec snd := by
  intro fst firstIn snd secondIn same
  rw [sectors fst firstIn, sectors snd secondIn] at same
  rcases inv.unique fst (stays fst firstIn) snd (stays snd secondIn) same with
    equal | ⟨other, sec, setting⟩
  · exact .inl equal
  · have ne : other ≠ t := by
      rintro rfl
      rw [place] at setting
      exact setting.elim (apart sec fst) (apart sec snd)
    refine .inr ⟨other, sec, ?_⟩
    rw [moves.place_of_ne ne]
    exact setting

theorem apart_kept (moves : Moves s s' t new) (plain : ∀ sec r, new ≠ .push sec r)
    (place : s.place t = old) (retires : ∀ r, new.retires = some r →
      old.retires = some r ∨ r ∈ s.openInodes) : ∀ t sec r, s'.place t = .push sec r →
      ∀ o, (s'.place o).retires ≠ some r := by
  intro pusher sec r pushing o leaves
  have pusherNe : pusher ≠ t := by
    rintro rfl
    rw [moves.place_self] at pushing
    exact plain sec r pushing
  rw [moves.place_of_ne pusherNe] at pushing
  by_cases ne : o = t
  · subst ne
    rw [moves.place_self] at leaves
    rcases retires r leaves with prev | listed
    · exact inv.apart pusher sec r pushing o (place ▸ prev)
    · cases inv.knows pushing with
      | push _ absent => exact absent listed
  · rw [moves.place_of_ne ne] at leaves
    exact inv.apart pusher sec r pushing o leaves

theorem blank_kept (moves : Moves s s' t new)
    (noSetting : ∀ r, (∃ sec, new = .setSector sec r) ∨ new = .setCount r → s'.refs r = 0)
    (fewer : ∀ r, s'.refs r ≤ s.refs r ∨ (s.place t).guarded = true) :
    ∀ t r, (∃ sec, s'.place t = .setSector sec r) ∨ s'.place t = .setCount r → s'.refs r = 0 := by
  intro setter r sets
  by_cases ne : setter = t
  · subst ne
    rw [moves.place_self] at sets
    exact noSetting r sets
  · rw [moves.place_of_ne ne] at sets
    have zero := inv.blank setter r sets
    have guarded : (s.place setter).guarded = true := by
      rcases sets with ⟨sec, sets⟩ | sets <;> rw [sets] <;> rfl
    rcases fewer r with less | inside
    · omega
    · exact (ne (inv.lone guarded inside)).elim

theorem keep (moves : Moves s s' t new) (place : s.place t = old)
    (list : s'.toInodeList = s.toInodeList)
    (share : ∀ r, s'.share r t = s.share r t)
    (knows : PlaceKnows s.toInodeList new)
    (held : ∀ r ∈ s'.held t, r ∈ s.openInodes)
    (plain : old.setsUp = false) (plainNew : new.setsUp = false)
    (retires : ∀ r, new.retires = some r → old.retires = some r)
    (sema : (s'.openSema = 1 ∧ ∀ t, (s'.place t).guarded = false) ∨
      (s'.openSema = 0 ∧ ∃ owner, ∀ t, (s'.place t).guarded = true ↔
        t = owner)) : TableInvariant s' where
  sema := sema
  nodup := by
    rw [list]
    exact inv.nodup
  listed r mem := by
    rw [list] at mem ⊢
    rw [moves.refs_eq (share r)]
    exact inv.listed r mem
  places := by
    rw [list]
    exact moves.knows knows fun o _ => inv.places o
  held o r mem := by
    rw [list]
    by_cases ne : o = t
    · subst ne
      exact held r mem
    · rw [moves.held o ne] at mem
      exact inv.held o r mem
  apart := inv.apart_kept moves (fun _ _ => TablePlace.ne_push plainNew) place
    fun r leaves => .inl (retires r leaves)
  blank := inv.blank_kept moves (fun r sets => by
      rcases sets with ⟨sec, sets⟩ | sets
      · exact (TablePlace.ne_setSector plainNew sets).elim
      · exact (TablePlace.ne_setCount plainNew sets).elim)
    fun r => .inl (moves.refs_eq (share r)).le
  unique := by
    refine inv.unique_kept moves place (fun _ _ => TablePlace.ne_setSector plain) ?_ ?_
    · rw [list]
      exact fun _ mem => mem
    · rw [list]
      exact fun _ _ => rfl

theorem writeCount (moves : Moves s s' t new) (place : s.place t = old) {node : OpenInode} {count : Int}
    (mem : r ∈ s.openInodes) (found : s.inodes r = some node)
    (list : s'.toInodeList = (s.setInode r { node with openCnt := count }).toInodeList)
    (counts : count = s'.refs r)
    (share : ∀ other, other ≠ r → s'.share other t = s.share other t)
    (held : s'.held t = s.held t) (knows : PlaceKnows s.toInodeList new)
    (plainNew : new.setsUp = false)
    (apart : ∀ sec r, old ≠ .setSector sec r)
    (retires : new.retires = none) (guarded : new.guarded = old.guarded)
    (fewer : s'.refs r ≤ s.refs r ∨ (s.place t).guarded = true)
    (openSema : s'.openSema = s.openSema) : TableInvariant s' := by
  have opened : s'.openInodes = s.openInodes := by
    rw [list]
    rfl
  have heapTop : s'.heapTop = s.heapTop := by
    rw [list]
    rfl
  have inodes : s'.inodes = update s.inodes r (some { node with openCnt := count }) := by
    rw [list]
    rfl
  have sectors : ∀ other, s'.sectorOf other = s.sectorOf other := by
    intro other
    unfold InodeList.sectorOf
    rw [inodes]
    by_cases same : other = r
    · subst same
      rw [update_self, found]
      rfl
    · rw [update_of_ne same]
  have carried : ∀ {place}, PlaceKnows s.toInodeList place → PlaceKnows s'.toInodeList place := by
    intro place prev
    have members : ∀ other, place.points = some other ∨ place.counted = some other →
        other ∈ s.openInodes → other ∈ s'.openInodes := by
      rw [opened]
      exact fun _ _ inside => inside
    cases inside : place.guarded with
    | false =>
      refine prev.carry_unguarded inside members (fun other leaves => ?_) heapTop.ge
      rw [opened]
      exact (prev.retires_spec leaves).2
    | true =>
      refine prev.carry_guarded inside members ?_ (fun other _ => sectors other) ?_ heapTop.ge
      · rw [opened]
        exact fun _ _ _ inside => inside
      · rintro sec other rfl
        cases prev with
        | push _ absent =>
          rw [inodes, update_of_ne]
          rintro rfl
          exact absent mem
  refine ⟨inv.sema_kept moves place guarded openSema, opened ▸ inv.nodup,
    fun other inside => ?_, moves.knows (carried knows) fun other _ => carried (inv.places other),
    fun other found inside => ?_,
    inv.apart_kept moves (fun _ _ => TablePlace.ne_push plainNew) place fun other leaves => ?_,
    inv.blank_kept moves (fun other sets => ?_) fun other => ?_,
    inv.unique_kept moves place apart ?_ fun other _ => sectors other⟩
  · rw [opened] at inside
    obtain ⟨taken, record, is_record, is_count⟩ := inv.listed other inside
    rw [heapTop, inodes]
    refine ⟨taken, ?_⟩
    by_cases same : other = r
    · subst same
      exact ⟨_, update_self .., counts⟩
    · rw [update_of_ne same, moves.refs_eq (share other same)]
      exact ⟨record, is_record, is_count⟩
  · rw [opened]
    by_cases ne : other = t
    · subst ne
      rw [held] at inside
      exact inv.held other found inside
    · rw [moves.held other ne] at inside
      exact inv.held other found inside
  · rw [retires] at leaves
    cases leaves
  · rcases sets with ⟨sec, sets⟩ | sets
    · exact (TablePlace.ne_setSector plainNew sets).elim
    · exact (TablePlace.ne_setCount plainNew sets).elim
  · by_cases same : other = r
    · subst same
      exact fewer
    · exact .inl (moves.refs_eq (share other same)).le
  · rw [opened]
    exact fun _ inside => inside

theorem allocate (place : s.place t = .allocate sector) :
    TableInvariant (s.allocateInode t sector) := by
  have moves : Moves s (s.allocateInode t sector) t
      (.push sector s.heapTop) := ⟨rfl, fun _ _ => rfl⟩
  have share := moves.share_eq place rfl rfl
  have old : ∀ r ∈ s.openInodes, update s.inodes s.heapTop (some ⟨0, 0⟩) r = s.inodes r :=
    fun r mem =>
      update_of_ne (Nat.ne_of_lt (inv.listed r mem).1) _ _
  have sectors : ∀ r ∈ s.openInodes,
      ((update s.inodes s.heapTop (some ⟨0, 0⟩)) r).map OpenInode.sector = s.sectorOf r := by
    intro r mem
    rw [old r mem]
    rfl
  have inside : (s.place t).guarded = true := congrArg TablePlace.guarded place
  refine ⟨inv.sema_kept moves place rfl rfl, inv.nodup, fun r mem => ?_,
    moves.knows ?_ fun o ne => ?_, fun o r mem => inv.held o r mem,
    fun pusher pushed r pushing o leaves => ?_,
    inv.blank_kept moves (fun r sets => ?_) fun r =>
      .inl (moves.refs_eq (share r)).le,
    inv.unique_kept moves place (by simp) (fun _ mem => mem) sectors⟩
  · obtain ⟨taken, node, is_node, counts⟩ := inv.listed r mem
    rw [moves.refs_eq (share r)]
    exact ⟨taken.trans (Nat.lt_succ_self _), node, (old r mem).trans is_node, counts⟩
  · cases inv.knows place with
    | allocate clear =>
      refine .push (Nat.lt_succ_self _) (fun mem => ?_) (update_self ..) fun r mem => ?_
      · exact lt_irrefl _ (inv.listed _ mem).1
      · exact (sectors r mem).trans_ne (clear r mem)
  · refine (inv.places o).carry_unguarded (inv.unguarded_of_ne inside ne)
      (fun _ _ mem => mem) (fun r leaves => ?_) (Nat.le_succ _)
    exact ((inv.places o).retires_spec leaves).2
  · have retiredOld : r < s.heapTop := by
      by_cases ne : o = t
      · subst ne
        rw [moves.place_self] at leaves
        cases leaves
      · rw [moves.place_of_ne ne] at leaves
        exact ((inv.places o).retires_spec leaves).1
    by_cases same : pusher = t
    · subst same
      rw [moves.place_self] at pushing
      cases pushing
      exact lt_irrefl _ retiredOld
    · rw [moves.place_of_ne same] at pushing
      exact same (inv.lone (by rw [pushing]; rfl) inside)
  · rcases sets with ⟨_, sets⟩ | sets <;> cases sets

theorem pushFront (place : s.place t = .push sector r) :
    TableInvariant (s.pushFront t sector r) := by
  have moves : Moves s (s.pushFront t sector r) t (.setSector sector r) := ⟨rfl, fun _ _ => rfl⟩
  have share := moves.share_eq place rfl rfl
  have inside : (s.place t).guarded = true := congrArg TablePlace.guarded place
  obtain ⟨taken, absent, fresh, clear⟩ : r < s.heapTop ∧ r ∉ s.openInodes ∧
      s.inodes r = some ⟨0, 0⟩ ∧
      ∀ o ∈ s.openInodes, s.sectorOf o ≠ some sector := by
    cases inv.knows place with
    | push taken absent fresh clear => exact ⟨taken, absent, fresh, clear⟩
  have zero : (s.pushFront t sector r).refs r = 0 :=
    (moves.refs_eq (share r)).trans (inv.refs_eq_zero absent)
  refine ⟨inv.sema_kept moves place rfl rfl,
    nodup_cons.mpr ⟨absent, inv.nodup⟩, fun o mem => ?_, moves.knows ?_ fun o ne => ?_,
    fun o found mem => mem_cons_of_mem r (inv.held o found mem),
    inv.apart_kept moves (by simp) place (fun _ leaves => nomatch leaves),
    inv.blank_kept moves (fun o sets => ?_) fun o =>
      .inl (moves.refs_eq (share o)).le, ?_⟩
  · rcases mem_cons.mp mem with rfl | mem
    · exact ⟨taken, ⟨0, 0⟩, fresh, by rw [zero]; rfl⟩
    · rw [moves.refs_eq (share o)]
      exact inv.listed o mem
  · refine .setSector mem_cons_self fun found mem o => ?_
    exact clear found ((mem_cons.mp mem).resolve_left o)
  · refine (inv.places o).carry_unguarded (inv.unguarded_of_ne inside ne)
      (fun _ _ mem => mem_cons_of_mem r mem) (fun found leaves mem => ?_) le_rfl
    rcases mem_cons.mp mem with rfl | mem
    · exact inv.apart t sector found place o leaves
    · exact ((inv.places o).retires_spec leaves).2 mem
  · rcases sets with ⟨_, sets⟩ | sets
    · cases sets
      exact zero
    · cases sets
  · intro fst firstIn snd secondIn same
    rcases mem_cons.mp firstIn with rfl | firstIn
    · exact .inr ⟨t, sector, .inl moves.place_self⟩
    rcases mem_cons.mp secondIn with rfl | secondIn
    · exact .inr ⟨t, sector, .inr moves.place_self⟩
    rcases inv.unique fst firstIn snd secondIn same with eq | ⟨o, _, sets⟩
    · exact .inl eq
    · rw [inv.setter_eq inside sets, place] at sets
      rcases sets with sets | sets <;> cases sets

theorem setSector {node : OpenInode} (place : s.place t = .setSector sector r)
    (found : s.inodes r = some node) : TableInvariant
      ((s.setInode r { node with sector }).setPlace t (.setCount r)) := by
  have moves : Moves s ((s.setInode r { node with sector }).setPlace t (.setCount r)) t
      (.setCount r) := ⟨rfl, fun _ _ => rfl⟩
  have share := moves.share_eq place rfl rfl
  have inside : (s.place t).guarded = true := congrArg TablePlace.guarded place
  obtain ⟨mem, clear⟩ : r ∈ s.openInodes ∧
      ∀ other ∈ s.openInodes, other ≠ r → s.sectorOf other ≠ some sector := by
    cases inv.knows place with
    | setSector mem clear => exact ⟨mem, clear⟩
  have sectors : ∀ other, (update s.inodes r (some { node with sector }) other).map
      OpenInode.sector = if other = r then some sector else s.sectorOf other := by
    intro other
    by_cases same : other = r
    · subst same
      simp
    · simp [same, InodeList.sectorOf]
  refine ⟨inv.sema_kept moves place rfl rfl, inv.nodup,
    fun other inList => ?_, moves.knows (.setCount mem) fun other ne => ?_,
    fun other held => inv.held other held, inv.apart_kept moves (by simp) place (fun _ leaves => nomatch leaves),
    inv.blank_kept moves (fun other sets => ?_) fun other =>
      .inl (moves.refs_eq (share other)).le, ?_⟩
  · obtain ⟨taken, record, is_record, counts⟩ := inv.listed other inList
    rw [moves.refs_eq (share other)]
    refine ⟨taken, ?_⟩
    by_cases same : other = r
    · subst same
      obtain rfl := some.inj (is_record.symm.trans found)
      exact ⟨_, update_self .., counts⟩
    · exact ⟨record, (update_of_ne same _ _).trans is_record, counts⟩
  · exact (inv.places other).carry_unguarded (inv.unguarded_of_ne inside ne) (fun _ _ mem => mem)
      (fun found leaves => ((inv.places other).retires_spec leaves).2) le_rfl
  · rcases sets with ⟨_, sets⟩ | sets
    · cases sets
    · cases sets
      rw [moves.refs_eq (share r)]
      exact inv.blank t r (.inl ⟨sector, place⟩)
  · intro first firstIn snd secondIn same
    change (update s.inodes r _ first).map OpenInode.sector =
      (update s.inodes r _ snd).map OpenInode.sector at same
    rw [sectors, sectors] at same
    by_cases firstSame : first = r
    · subst firstSame
      by_cases secondSame : snd = first
      · exact .inl secondSame.symm
      · rw [if_pos rfl, if_neg secondSame] at same
        exact (clear snd secondIn secondSame same.symm).elim
    · by_cases secondSame : snd = r
      · subst secondSame
        rw [if_neg firstSame, if_pos rfl] at same
        exact (clear first firstIn firstSame same).elim
      · rw [if_neg firstSame, if_neg secondSame] at same
        rcases inv.unique first firstIn snd secondIn same with equal | ⟨other, _, sets⟩
        · exact .inl equal
        · rw [inv.setter_eq inside sets, place] at sets
          rcases sets with sets | sets
          · cases sets
            exact (firstSame rfl).elim
          · cases sets
            exact (secondSame rfl).elim

/-- `list_remove` of an inode that has no references and to which no other thread points. -/
theorem remove (place : s.place t = .unlink r) (unused : s.refs r = 0)
    (alone : ∀ other, other ≠ t → (s.place other).points ≠ some r) :
    TableInvariant (s.remove t r) := by
  have moves : Moves s (s.remove t r) t (.closingDown r) := ⟨rfl, fun _ _ => rfl⟩
  have share := moves.share_eq place rfl rfl
  have mem : r ∈ s.openInodes := (inv.knows place).mem_of_points rfl
  have subset : ∀ {other}, other ∈ s.openInodes.erase r → other ∈ s.openInodes :=
    fun inside => mem_of_mem_erase inside
  have stays : ∀ {other}, other ≠ r → other ∈ s.openInodes → other ∈ s.openInodes.erase r :=
    fun ne inside => (mem_erase_of_ne ne).mpr inside
  have noShare : ∀ {other}, ¬ 0 < s.share r other := fun shares =>
    (ne_of_gt (OpenTable.refs_pos_of_share shares)) unused
  refine ⟨inv.sema_kept moves place rfl rfl, inv.nodup.erase r, fun other inside => ?_,
    moves.knows (.closingDown (inv.listed r mem).1 inv.nodup.not_mem_erase) fun other ne => ?_,
    fun other found inside => ?_, inv.apart_kept moves (by simp) place (fun other leaves => ?_),
    inv.blank_kept moves (fun other sets => ?_) fun other =>
      .inl (moves.refs_eq (share other)).le,
    inv.unique_kept moves place (by simp) (fun _ inside => subset inside) fun _ _ => rfl⟩
  · rw [moves.refs_eq (share other)]
    exact inv.listed other (subset inside)
  · have knows := inv.places other
    have members : ∀ found, (s.place other).points = some found ∨
        (s.place other).counted = some found → found ∈ s.openInodes →
        found ∈ s.openInodes.erase r := by
      intro found mentions inside
      refine stays ?_ inside
      rintro rfl
      rcases mentions with pointing | counting
      · exact alone other ne pointing
      · refine noShare (show 0 < s.share found other from ?_)
        unfold OpenTable.share
        rw [if_pos counting]
        exact Nat.succ_pos _
    cases inside : (s.place other).guarded with
    | false =>
      exact knows.carry_unguarded inside members
        (fun found leaves listed => (knows.retires_spec leaves).2 (subset listed)) le_rfl
    | true =>
      refine knows.carry_guarded inside members (fun cursor pointing found prev => ?_)
        (fun _ _ => rfl) (fun _ _ _ => rfl) le_rfl
      refine Cursor.mem_before_erase (fun here => ?_) prev
      exact alone other ne (pointing r here)
  · refine stays ?_ (inv.held other found inside)
    rintro rfl
    refine noShare (show 0 < s.share found other from ?_)
    unfold OpenTable.share
    exact Nat.add_pos_left (count_pos_iff.mpr inside) _
  · cases leaves
    exact .inr mem
  · rcases sets with ⟨_, sets⟩ | sets <;> cases sets

theorem freeInode (place : s.place t = .free r) : TableInvariant (s.freeInode t r) := by
  have moves : Moves s (s.freeInode t r) t .idle := ⟨rfl, fun _ _ => rfl⟩
  have share := moves.share_eq place rfl rfl
  have absent := ((inv.knows place).retires_spec rfl).2
  have kept : ∀ o ∈ s.openInodes, update s.inodes r none o = s.inodes o := by
    intro o mem
    refine update_of_ne ?_ _ _
    rintro rfl
    exact absent mem
  have sectors : ∀ o ∈ s.openInodes,
      (update s.inodes r none o).map OpenInode.sector = s.sectorOf o := by
    intro o mem
    rw [kept o mem]
    rfl
  refine ⟨inv.sema_kept moves place rfl rfl, inv.nodup,
    fun o inside => ?_, moves.knows .idle fun o ne => ?_,
    fun o held => inv.held o held, inv.apart_kept moves (by simp) place (fun _ leaves => nomatch leaves),
    inv.blank_kept moves (fun o sets => ?_) fun o =>
      .inl (moves.refs_eq (share o)).le,
    inv.unique_kept moves place (by simp) (fun _ inside => inside) sectors⟩
  · obtain ⟨taken, node, is_node, counts⟩ := inv.listed o inside
    rw [moves.refs_eq (share o)]
    exact ⟨taken, node, (kept o inside).trans is_node, counts⟩
  · have knows := inv.places o
    cases inside : (s.place o).guarded with
    | false =>
      exact knows.carry_unguarded inside (fun _ _ mem => mem)
        (fun found leaves => (knows.retires_spec leaves).2) le_rfl
    | true =>
      refine knows.carry_guarded inside (fun _ _ mem => mem) (fun _ _ _ prev => prev)
        sectors (fun sec found pushing => update_of_ne ?_ _ _) le_rfl
      rintro rfl
      exact inv.apart o sec found pushing t (congrArg TablePlace.retires place)
  · rcases sets with ⟨_, sets⟩ | sets <;> cases sets

end TableInvariant

/-! ## Result -/

/-- No write of `open_cnt` is based on an outdated value, and when an inode is unlinked, it has not
been opened again and no other thread points to it. -/
def OpenTable.fits (table : OpenTable threads) (t : Fin threads) : TablePlace → Prop
  | .store inode count | .closeStore inode count => ∀ node ∈ table.inodes inode, node.openCnt = count
  | .unlink inode => (∀ node ∈ table.inodes inode, node.openCnt = 0) ∧
      ∀ other, other ≠ t → (table.place other).points ≠ some inode
  | _ => True

instance (table : OpenTable threads) (t : Fin threads) :
    (place : TablePlace) → Decidable (table.fits t place)
  | .store _ _ | .closeStore _ _ => inferInstanceAs (Decidable (∀ node ∈ table.inodes _, _))
  | .unlink _ => inferInstanceAs (Decidable (_ ∧ ∀ _, _ → _))
  | .idle | .down _ | .first _ | .test _ _ | .next _ _ | .load _ | .allocate _ | .push _ _
  | .setSector _ _ | .setCount _ | .up _ | .closeLoad _ | .closingDown _ | .closingUp _
  | .free _ => isTrue trivial

/-- What a thread does next in `inode_open` or `inode_close` fits the table it finds. -/
def TableFits (table : OpenTable threads) : TableEvent threads → Prop
  | .advance t => table.fits t (table.place t)
  | _ => True

instance (table : OpenTable threads) : (e : TableEvent threads) → Decidable (TableFits table e)
  | .advance t => inferInstanceAs (Decidable (table.fits t (table.place t)))
  | .inodeOpen _ _ | .inodeClose _ _ | .outOfMemory _ => isTrue trivial

/-- Every inode that a thread has open is in the table and counted, and the table has one inode for
every sector. -/
structure TableSound (table : OpenTable threads) : Prop where
  /-- From the moment the caller receives an inode until it closes it. -/
  opened : ∀ t inode, inode ∈ table.held t ∨ table.place t = .up (some inode) →
    inode ∈ table.openInodes ∧ ∃ node, table.inodes inode = some node ∧ 1 ≤ node.openCnt
  /-- A new inode has no sector before the assignment to its field. -/
  unique : ∀ first ∈ table.openInodes, ∀ second ∈ table.openInodes,
    table.sectorOf first = table.sectorOf second → first = second ∨
      ∃ t sector, table.place t = .setSector sector first ∨ table.place t = .setSector sector second
  /-- The search of `inode_open` and the last `inode_close` use members of the table only. -/
  pointers : ∀ t inode, (table.place t).points = some inode → inode ∈ table.openInodes

namespace TableInvariant

variable {s s' : OpenTable threads} {t : Fin threads} {old new : TablePlace} {r : Ref}
  {e : TableEvent threads} (inv : TableInvariant s)
include inv

theorem exists_node (mem : r ∈ s.openInodes) :
    ∃ node, s.inodes r = some node ∧ node.openCnt = s.refs r :=
  (inv.listed r mem).2

theorem look (place : s.place t = old) (guarded : new.guarded = old.guarded)
    (counted : new.counted = old.counted) (plain : old.setsUp = false)
    (plainNew : new.setsUp = false) (retires : new.retires = none)
    (knows : PlaceKnows s.toInodeList new) : TableInvariant (s.setPlace t new) := by
  have moves : Moves s (s.setPlace t new) t new := ⟨rfl, fun _ _ => rfl⟩
  exact inv.keep moves place rfl (moves.share_eq place rfl counted) knows
    (fun r mem => inv.held t r mem) plain plainNew
    (fun _ leaves => nomatch retires.symm.trans leaves) (inv.sema_kept moves place guarded rfl)

theorem down {sec : Nat} (place : s.place t = .down sec) (pos : 0 < s.openSema) : TableInvariant
      { s.setPlace t (.first sec) with openSema := s.openSema - 1 } := by
  have moves : Moves s { s.setPlace t (.first sec) with openSema := s.openSema - 1 } t
      (.first sec) := ⟨rfl, fun _ _ => rfl⟩
  refine inv.keep moves place rfl (moves.share_eq place rfl rfl) (.first sec)
    (fun r mem => inv.held t r mem) rfl rfl (fun _ leaves => nomatch leaves) ?_
  rcases inv.sema with ⟨one, out⟩ | ⟨zero, _⟩
  · refine .inr ⟨by simp [one], t, fun o => ?_⟩
    by_cases same : o = t
    · subst same
      rw [moves.place_self]
      exact iff_of_true rfl rfl
    · rw [moves.place_of_ne same, out o]
      exact iff_of_false (by simp) same
  · omega

theorem up {res : Option Ref} (place : s.place t = .up res) : TableInvariant
      { s.setPlace t .idle with
        openSema := s.openSema + 1
        held := update s.held t (res.toList ++ s.held t) } := by
  have moves : Moves s { s.setPlace t .idle with
        openSema := s.openSema + 1
        held := update s.held t (res.toList ++ s.held t) } t
      .idle := ⟨rfl, fun _ ne => update_of_ne ne _ _⟩
  have inside : (s.place t).guarded = true := congrArg TablePlace.guarded place
  refine inv.keep moves place rfl (fun r => ?_) .idle (fun r mem => ?_) rfl rfl
    (fun _ leaves => nomatch leaves) ?_
  · rw [OpenTable.share_of_uncounted (by rw [moves.place_self]; rfl)]
    simp only [update_self, count_append]
    cases res with
    | none =>
      rw [OpenTable.share_of_uncounted (by rw [place]; rfl)]
      simp
    | some received =>
      rw [OpenTable.share_of_counted (by rw [place]; rfl)]
      by_cases same : r = received
      · subst same
        simp [add_comm]
      · simp [same, Ne.symm same]
  · simp only [update_self, mem_append, Option.mem_toList] at mem
    rcases mem with received | mem
    · exact (inv.knows place).mem_of_counted received
    · exact inv.held t r mem
  · rcases inv.sema with ⟨_, out⟩ | ⟨zero, owner, guards⟩
    · rw [out t] at inside
      cases inside
    · refine .inl ⟨by simp [zero], fun o => ?_⟩
      by_cases same : o = t
      · subst same
        rw [moves.place_self]
        rfl
      · rw [moves.place_of_ne same]
        exact inv.unguarded_of_ne inside same

theorem startClose (place : s.place t = .idle) (mem : r ∈ s.held t) :
    TableInvariant { s.setPlace t (.closeLoad r) with
        held := update s.held t ((s.held t).erase r) } := by
  have moves : Moves s { s.setPlace t (.closeLoad r) with
        held := update s.held t ((s.held t).erase r) } t
      (.closeLoad r) := ⟨rfl, fun _ ne => update_of_ne ne _ _⟩
  refine inv.keep moves place rfl (fun o => ?_)
    (.closeLoad (inv.held t r mem)) (fun o inside => ?_) rfl rfl
    (fun _ leaves => nomatch leaves) (inv.sema_kept moves place rfl rfl)
  · rw [OpenTable.share_of_counted (by rw [moves.place_self]; rfl),
      OpenTable.share_of_uncounted (by rw [place]; rfl)]
    simp only [update_self]
    by_cases same : o = r
    · subst same
      have pos := count_pos_iff.mpr mem
      rw [count_erase_self, if_pos rfl]
      omega
    · rw [count_erase_of_ne same, if_neg same, add_zero]
  · simp only [update_self] at inside
    exact inv.held t o (mem_of_mem_erase inside)

/-- `inode_reopen` and `inode->open_cnt = 1`: the thread gains a reference. -/
theorem gain {node : OpenInode} {count : Int} (mem : r ∈ s.openInodes)
    (found : s.inodes r = some node) (place : s.place t = old) (guarded : old.guarded = true)
    (uncounted : old.counted = none) (apart : ∀ sec r, old ≠ .setSector sec r)
    (counts : count = s.refs r + 1) : TableInvariant
      ((s.setInode r { node with openCnt := count }).setPlace t (.up (some r))) := by
  have moves : Moves s ((s.setInode r { node with openCnt := count }).setPlace t (.up (some r)))
      t (.up (some r)) := ⟨rfl, fun _ _ => rfl⟩
  have sum := moves.refs r
  have shares : ∀ o, OpenTable.share
      ((s.setInode r { node with openCnt := count }).setPlace t (.up (some r)))
      o t = s.share o t + if o = r then 1 else 0 := by
    intro o
    rw [OpenTable.share_of_counted (by rw [moves.place_self]; rfl),
      OpenTable.share_of_uncounted (place ▸ uncounted)]
    rfl
  rw [shares r, if_pos rfl] at sum
  refine inv.writeCount moves place mem found rfl ?_ (fun o ne => ?_) rfl
    (.up fun _ same => some.inj same ▸ mem) rfl apart rfl guarded.symm
    (.inr (place ▸ guarded)) rfl
  · omega
  · rw [shares o, if_neg ne, add_zero]

theorem lose {node : OpenInode} {count : Int} (place : s.place t = .closeStore r count)
    (found : s.inodes r = some node) (cur : node.openCnt = count) : TableInvariant
      ((s.setInode r { node with openCnt := count - 1 }).setPlace t
        (if count - 1 = 0 then .unlink r else .idle)) := by
  have mem : r ∈ s.openInodes := (inv.knows place).mem_of_counted rfl
  obtain ⟨record, is_record, counts⟩ := inv.exists_node mem
  obtain rfl := some.inj (is_record.symm.trans found)
  have moves : Moves s ((s.setInode r { record with openCnt := count - 1 }).setPlace t
        (if count - 1 = 0 then .unlink r else .idle)) t
      (if count - 1 = 0 then .unlink r else .idle) := ⟨rfl, fun _ _ => rfl⟩
  have uncounted : (if count - 1 = 0 then TablePlace.unlink r else .idle).counted = none := by
    split <;> rfl
  have shares : ∀ o, OpenTable.share ((s.setInode r { record with openCnt := count - 1 }).setPlace t
        (if count - 1 = 0 then .unlink r else .idle)) o t +
      (if o = r then 1 else 0) = s.share o t := by
    intro o
    rw [OpenTable.share_of_uncounted (by rw [moves.place_self]; exact uncounted),
      OpenTable.share_of_counted (by rw [place]; rfl)]
    rfl
  have sum := moves.refs r
  have share := shares r
  rw [if_pos rfl] at share
  refine inv.writeCount moves place mem found rfl ?_ (fun o ne => ?_) rfl ?_ ?_
    (by simp) ?_ ?_ (.inl (by omega)) rfl
  · omega
  · have other_share := shares o
    rw [if_neg ne] at other_share
    exact other_share
  · split
    · exact .unlink mem
    · exact .idle
  · split <;> rfl
  · split <;> rfl
  · split <;> rfl

theorem advance (fits : TableFits s (.advance t))
    (ran : s.advance t = some s') : TableInvariant s' := by
  unfold TableFits OpenTable.fits at fits
  unfold OpenTable.advance at ran
  cases place : s.place t with
  | idle =>
    rw [place] at ran
    cases ran
  | down sec =>
    simp only [place] at ran
    split at ran
    · rename_i pos
      cases ran
      exact inv.down place pos
    · cases ran
  | first sec =>
    simp only [place] at ran
    cases ran
    exact inv.look place rfl rfl rfl rfl rfl (.test (Cursor.valid_head _) (by simp))
  | test sec cursor =>
    cases inv.knows place with
    | test valid clear =>
      cases cursor with
      | none =>
        simp only [place] at ran
        cases ran
        rw [Cursor.before_end] at clear
        exact inv.look place rfl rfl rfl rfl rfl (.allocate clear)
      | some r =>
        have mem := valid r rfl
        simp only [place, if_pos mem] at ran
        obtain ⟨node, found, rfl⟩ := map_eq_some_iff.mp ran
        split
        · exact inv.look place rfl rfl rfl rfl rfl (.load mem)
        · rename_i ne
          refine inv.look place rfl rfl rfl rfl rfl (.next mem clear ?_)
          unfold InodeList.sectorOf
          rw [found]
          exact fun same => ne (some.inj same)
  | next sec r =>
    cases inv.knows place with
    | next mem clear here =>
      simp only [place, if_pos mem] at ran
      cases ran
      refine inv.look place rfl rfl rfl rfl rfl (.test (Cursor.valid_after _ _) fun o passed => ?_)
      rcases Cursor.mem_before_after inv.nodup mem passed with prev | rfl
      · exact clear o prev
      · exact here
  | load r =>
    simp only [place] at ran
    obtain ⟨node, _, rfl⟩ := map_eq_some_iff.mp ran
    exact inv.look place rfl rfl rfl rfl rfl (.store ((inv.knows place).mem_of_points rfl))
  | store r count =>
    simp only [place] at ran fits
    obtain ⟨node, found, rfl⟩ := map_eq_some_iff.mp ran
    have mem := (inv.knows place).mem_of_points rfl
    obtain ⟨record, is_record, counts⟩ := inv.exists_node mem
    obtain rfl := some.inj (is_record.symm.trans found)
    refine inv.gain mem found place rfl rfl (by simp) ?_
    rw [← fits record found, counts]
  | allocate sec =>
    simp only [place] at ran
    cases ran
    exact inv.allocate place
  | push sec r =>
    simp only [place] at ran
    cases ran
    exact inv.pushFront place
  | setSector sec r =>
    simp only [place] at ran
    obtain ⟨node, found, rfl⟩ := map_eq_some_iff.mp ran
    exact inv.setSector place found
  | setCount r =>
    simp only [place] at ran
    obtain ⟨node, found, rfl⟩ := map_eq_some_iff.mp ran
    refine inv.gain ((inv.knows place).mem_of_points rfl) found place rfl rfl (by simp) ?_
    rw [inv.blank t r (.inr place)]
    rfl
  | up res =>
    simp only [place] at ran
    cases ran
    exact inv.up place
  | closeLoad r =>
    simp only [place] at ran
    obtain ⟨node, _, rfl⟩ := map_eq_some_iff.mp ran
    exact inv.look place rfl rfl rfl rfl rfl (.closeStore ((inv.knows place).mem_of_counted rfl))
  | closeStore r count =>
    simp only [place] at ran fits
    obtain ⟨node, found, rfl⟩ := map_eq_some_iff.mp ran
    exact inv.lose place found (fits node found)
  | unlink r =>
    have mem := (inv.knows place).mem_of_points rfl
    simp only [place, if_pos mem] at ran fits
    cases ran
    obtain ⟨node, found, counts⟩ := inv.exists_node mem
    refine inv.remove place ?_ fits.2
    have zero := fits.1 node found
    omega
  | closingDown r =>
    cases inv.knows place with
    | closingDown taken absent =>
      simp only [place] at ran
      split at ran
      · cases ran
        have moves : Moves s { s.setPlace t (.closingUp r) with
              closingSema := s.closingSema - 1 } t (.closingUp r) :=
          ⟨rfl, fun _ _ => rfl⟩
        exact inv.keep moves place rfl (moves.share_eq place rfl rfl)
          (.closingUp taken absent) (fun r mem => inv.held t r mem) rfl rfl
          (fun _ same => same) (inv.sema_kept moves place rfl rfl)
      · cases ran
  | closingUp r =>
    cases inv.knows place with
    | closingUp taken absent =>
      simp only [place] at ran
      cases ran
      have moves : Moves s { s.setPlace t (.free r) with
            closingSema := s.closingSema + 1 } t (.free r) :=
        ⟨rfl, fun _ _ => rfl⟩
      exact inv.keep moves place rfl (moves.share_eq place rfl rfl)
        (.free taken absent) (fun r mem => inv.held t r mem) rfl rfl
        (fun _ same => same) (inv.sema_kept moves place rfl rfl)
  | free r =>
    simp only [place] at ran
    cases ran
    exact inv.freeInode place

theorem step (fits : TableFits s e) (ran : tableStep s e = some s') : TableInvariant s' := by
  cases e with
  | inodeOpen t sec =>
    simp only [tableStep] at ran
    split at ran
    · rename_i place
      cases ran
      exact inv.look place rfl rfl rfl rfl rfl (.down sec)
    · cases ran
  | inodeClose t r =>
    simp only [tableStep] at ran
    split at ran
    · rename_i both
      cases ran
      exact inv.startClose both.1 both.2
    · cases ran
  | advance t => exact inv.advance fits ran
  | outOfMemory t =>
    simp only [tableStep] at ran
    split at ran
    · rename_i sec place
      cases ran
      exact inv.look place rfl rfl rfl rfl rfl (.up fun _ none => nomatch none)
    · cases ran

theorem sound : TableSound s where
  opened t r has := by
    have shares : 0 < s.share r t := by
      unfold OpenTable.share
      rcases has with held | receiving
      · exact Nat.add_pos_left (count_pos_iff.mpr held) _
      · rw [receiving]
        exact Nat.add_pos_right _ (by simp [TablePlace.counted])
    have mem := inv.mem_of_share shares
    obtain ⟨node, found, counts⟩ := inv.exists_node mem
    have pos := OpenTable.refs_pos_of_share shares
    exact ⟨mem, node, found, by omega⟩
  unique := inv.unique
  pointers t r points := (inv.places t).mem_of_points points

end TableInvariant

/-- If no update of a counter is lost and no inode is unlinked that was found or opened again, every
inode that a thread has open stays in the table. -/
theorem tableSound_of_tableFits (threads : Nat) (events : List (TableEvent threads))
    (fits : Execution.Meets tableStep TableFits (tableInit threads) events) :
    Execution.Along tableStep TableSound (tableInit threads) events :=
  Execution.along_of_meets (tableInvariant_init threads) TableInvariant.step TableInvariant.sound fits

/-- Two threads open one sector and close it, one after the other. -/
theorem tableSound_two_openers :
    let events : List (TableEvent 2) := .inodeOpen 0 5 :: List.replicate 8 (.advance 0) ++
      .inodeOpen 1 5 :: List.replicate 6 (.advance 1) ++
      .inodeClose 0 0 :: List.replicate 2 (.advance 0) ++
      .inodeClose 1 0 :: List.replicate 6 (.advance 1)
    (Execution.run tableStep (tableInit 2) events).isSome ∧
      Execution.Meets tableStep TableFits (tableInit 2) events ∧
      Execution.Along tableStep TableSound (tableInit 2) events := by
  intro events
  have cond : Execution.Meets tableStep TableFits (tableInit 2) events := by decide +kernel
  exact ⟨by decide +kernel, cond, tableSound_of_tableFits _ _ cond⟩

/-- The first thread opens sector 5 and closes it; between its `--open_cnt` and its `list_remove` the
second thread opens the sector and finds the inode in the table. -/
def reopenedWhileClosing : List (TableEvent 2) :=
  .inodeOpen 0 5 :: List.replicate 8 (.advance 0) ++
    .inodeClose 0 0 :: List.replicate 2 (.advance 0) ++
    .inodeOpen 1 5 :: List.replicate 6 (.advance 1) ++
    List.replicate 4 (.advance 0)

/-- The second thread has an inode that is not in the table any more and was freed. -/
theorem reopenedWhileClosing_freed :
    ∃ final, Execution.run tableStep (tableInit 2) reopenedWhileClosing = some final ∧
      0 ∈ final.held 1 ∧ 0 ∉ final.openInodes ∧ final.inodes 0 = none ∧ ¬ TableSound final := by
  let final := (Execution.run tableStep (tableInit 2) reopenedWhileClosing).get (by decide +kernel)
  have facts : 0 ∈ final.held 1 ∧ 0 ∉ final.openInodes ∧ final.inodes 0 = none := by
    decide +kernel
  refine ⟨final, (some_get _).symm, facts.1, facts.2.1, facts.2.2, fun sound => ?_⟩
  exact facts.2.1 (sound.opened 1 0 (.inl facts.1)).1

end Pintos.Filesys
