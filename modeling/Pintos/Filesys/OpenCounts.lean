import Mathlib.Algebra.Order.BigOperators.Group.Finset
import Mathlib.Data.Fintype.Fin
import Pintos.Filesys.OpenTable

/-!
# Counting the references to open inodes

What a thread knows about the list at each place of `inode_open` and `inode_close`, and which
references to an inode `open_cnt` counts.
-/

namespace Pintos.Filesys

namespace TablePlace

variable {place : TablePlace}

/-- The thread is between `sema_down` and `sema_up` of `inode_open`. -/
def guarded : TablePlace → Bool
  | first _ | test _ _ | next _ _ | load _ | store _ _ | allocate _ | push _ _ | setSector _ _
  | setCount _ | up _ => true
  | _ => false

/-- The reference that a thread has inside a call and that `open_cnt` counts. -/
def counted : TablePlace → Option Ref
  | up result => result
  | closeLoad inode | closeStore inode _ => some inode
  | _ => none

/-- The member of the list that a thread points to inside a call without counting as a reference. -/
def points : TablePlace → Option Ref
  | test _ cursor => cursor
  | next _ inode | load inode | store inode _ | setSector _ inode | setCount inode
  | unlink inode => some inode
  | _ => none

/-- The inode that a thread has unlinked and is about to free. -/
def retires : TablePlace → Option Ref
  | closingDown inode | closingUp inode | free inode => some inode
  | _ => none

/-- The thread sets up a new inode. -/
def setsUp : TablePlace → Bool
  | push _ _ | setSector _ _ | setCount _ => true
  | _ => false

variable (plain : place.setsUp = false)
include plain

theorem ne_push {sec : Nat} {inode : Ref} : place ≠ push sec inode := by
  rintro rfl
  cases plain

theorem ne_setSector {sec : Nat} {inode : Ref} : place ≠ setSector sec inode := by
  rintro rfl
  cases plain

theorem ne_setCount {inode : Ref} : place ≠ setCount inode := by
  rintro rfl
  cases plain

end TablePlace

def InodeList.sectorOf (list : InodeList) (inode : Ref) : Option Nat :=
  (list.inodes inode).map OpenInode.sector

/-- What a thread knows about the list at its place. -/
inductive PlaceKnows (list : InodeList) : TablePlace → Prop
  | idle : PlaceKnows list .idle
  | down (sector : Nat) : PlaceKnows list (.down sector)
  | first (sector : Nat) : PlaceKnows list (.first sector)
  | test {sector cursor} (valid : Cursor.Valid list.openInodes cursor)
      (clear : ∀ inode ∈ Cursor.before list.openInodes cursor, list.sectorOf inode ≠ some sector) :
      PlaceKnows list (.test sector cursor)
  | next {sector inode} (member : inode ∈ list.openInodes)
      (clear : ∀ other ∈ Cursor.before list.openInodes (some inode),
        list.sectorOf other ≠ some sector)
      (here : list.sectorOf inode ≠ some sector) : PlaceKnows list (.next sector inode)
  | load {inode} (member : inode ∈ list.openInodes) : PlaceKnows list (.load inode)
  | store {inode count} (member : inode ∈ list.openInodes) : PlaceKnows list (.store inode count)
  | allocate {sector} (clear : ∀ inode ∈ list.openInodes, list.sectorOf inode ≠ some sector) :
      PlaceKnows list (.allocate sector)
  | push {sector inode} (allocated : inode < list.heapTop) (absent : inode ∉ list.openInodes)
      (fresh : list.inodes inode = some ⟨0, 0⟩)
      (clear : ∀ other ∈ list.openInodes, list.sectorOf other ≠ some sector) :
      PlaceKnows list (.push sector inode)
  | setSector {sector inode} (member : inode ∈ list.openInodes)
      (clear : ∀ other ∈ list.openInodes, other ≠ inode → list.sectorOf other ≠ some sector) :
      PlaceKnows list (.setSector sector inode)
  | setCount {inode} (member : inode ∈ list.openInodes) : PlaceKnows list (.setCount inode)
  | up {result} (member : ∀ inode, result = some inode → inode ∈ list.openInodes) :
      PlaceKnows list (.up result)
  | closeLoad {inode} (member : inode ∈ list.openInodes) : PlaceKnows list (.closeLoad inode)
  | closeStore {inode count} (member : inode ∈ list.openInodes) :
      PlaceKnows list (.closeStore inode count)
  | unlink {inode} (member : inode ∈ list.openInodes) : PlaceKnows list (.unlink inode)
  | closingDown {inode} (allocated : inode < list.heapTop) (absent : inode ∉ list.openInodes) :
      PlaceKnows list (.closingDown inode)
  | closingUp {inode} (allocated : inode < list.heapTop) (absent : inode ∉ list.openInodes) :
      PlaceKnows list (.closingUp inode)
  | free {inode} (allocated : inode < list.heapTop) (absent : inode ∉ list.openInodes) :
      PlaceKnows list (.free inode)

section Knows

variable {s s' : InodeList} {place : TablePlace} (knows : PlaceKnows s place)
include knows

theorem PlaceKnows.mem_of_points {inode : Ref} (points : place.points = some inode) :
    inode ∈ s.openInodes := by
  cases knows with
  | test valid => exact valid inode points
  | next mem | load mem | store mem | setSector mem | setCount mem
  | unlink mem =>
    cases points
    exact mem
  | _ => cases points

theorem PlaceKnows.mem_of_counted {inode : Ref} (counted : place.counted = some inode) :
    inode ∈ s.openInodes := by
  cases knows with
  | up mem => exact mem inode counted
  | closeLoad mem | closeStore mem =>
    cases counted
    exact mem
  | _ => cases counted

theorem PlaceKnows.retires_spec {inode : Ref} (retires : place.retires = some inode) :
    inode < s.heapTop ∧ inode ∉ s.openInodes := by
  cases knows with
  | closingDown taken absent | closingUp taken absent | free taken absent =>
    cases retires
    exact ⟨taken, absent⟩
  | _ => cases retires

/-- What a thread outside the guarded part of `inode_open` needs. -/
theorem PlaceKnows.carry_unguarded (out : place.guarded = false)
    (members : ∀ inode, place.points = some inode ∨ place.counted = some inode →
      inode ∈ s.openInodes → inode ∈ s'.openInodes)
    (retired : ∀ inode, place.retires = some inode → inode ∉ s'.openInodes)
    (heapTop : s.heapTop ≤ s'.heapTop) : PlaceKnows s' place := by
  cases knows with
  | idle => exact .idle
  | down sec => exact .down sec
  | closeLoad mem => exact .closeLoad (members _ (.inr rfl) mem)
  | closeStore mem => exact .closeStore (members _ (.inr rfl) mem)
  | unlink mem => exact .unlink (members _ (.inl rfl) mem)
  | closingDown taken => exact .closingDown (taken.trans_le heapTop) (retired _ rfl)
  | closingUp taken => exact .closingUp (taken.trans_le heapTop) (retired _ rfl)
  | free taken => exact .free (taken.trans_le heapTop) (retired _ rfl)
  | _ => cases out

/-- What the thread in the guarded part needs while others only take inodes out of the list. -/
theorem PlaceKnows.carry_guarded (inside : place.guarded = true)
    (members : ∀ inode, place.points = some inode ∨ place.counted = some inode →
      inode ∈ s.openInodes → inode ∈ s'.openInodes)
    (prev : ∀ cursor, (∀ inode, cursor = some inode → place.points = some inode) →
      ∀ inode ∈ Cursor.before s'.openInodes cursor, inode ∈ Cursor.before s.openInodes cursor)
    (sectors : ∀ inode ∈ s'.openInodes, s'.sectorOf inode = s.sectorOf inode)
    (fresh : ∀ sec inode, place = .push sec inode → s'.inodes inode = s.inodes inode)
    (heapTop : s.heapTop ≤ s'.heapTop) : PlaceKnows s' place := by
  have stays : ∀ inode ∈ s'.openInodes, inode ∈ s.openInodes := by
    intro inode mem
    have both := prev none (fun _ none => nomatch none) inode
    rw [Cursor.before_end, Cursor.before_end] at both
    exact both mem
  have clears : ∀ {sec cursor}, (∀ inode, cursor = some inode → place.points = some inode) →
      (∀ inode ∈ Cursor.before s.openInodes cursor, s.sectorOf inode ≠ some sec) →
      ∀ inode ∈ Cursor.before s'.openInodes cursor, s'.sectorOf inode ≠ some sec := by
    intro sec cursor pointed clear inode mem
    rw [sectors inode (Cursor.mem_of_mem_before mem)]
    exact clear inode (prev cursor pointed inode mem)
  cases knows with
  | first sec => exact .first sec
  | test valid clear =>
    exact .test (fun inode here => members inode (.inl here) (valid inode here))
      (clears (fun _ here => here) clear)
  | next mem clear here =>
    have kept := members _ (.inl rfl) mem
    refine .next kept (clears (fun _ same => same) clear) ?_
    rwa [sectors _ kept]
  | load mem => exact .load (members _ (.inl rfl) mem)
  | store mem => exact .store (members _ (.inl rfl) mem)
  | allocate clear =>
    refine .allocate fun inode mem => ?_
    rw [sectors inode mem]
    exact clear inode (stays inode mem)
  | push taken absent blank clear =>
    refine .push (taken.trans_le heapTop) (fun mem => absent (stays _ mem))
      ((fresh _ _ rfl).trans blank) fun inode mem => ?_
    rw [sectors inode mem]
    exact clear inode (stays inode mem)
  | setSector mem clear =>
    refine .setSector (members _ (.inl rfl) mem) fun inode inList o => ?_
    rw [sectors inode inList]
    exact clear inode (stays inode inList) o
  | setCount mem => exact .setCount (members _ (.inl rfl) mem)
  | up mem => exact .up fun inode res => members inode (.inr res) (mem inode res)
  | _ => cases inside

end Knows

/-! ## References -/

namespace OpenTable

variable {threads : Nat}

/-- The references of one thread to an inode that `open_cnt` counts. -/
def share (table : OpenTable threads) (inode : Ref) (thread : Fin threads) : Nat :=
  (table.held thread).count inode + if (table.place thread).counted = some inode then 1 else 0

/-- All references to an inode that `open_cnt` counts. -/
def refs (table : OpenTable threads) (inode : Ref) : Nat :=
  ∑ thread, table.share inode thread

variable {s s' : OpenTable threads} {t : Fin threads} {r : Ref}

theorem share_of_counted {found : Ref} (counted : (s.place t).counted = some found)
    (r : Ref) : s.share r t = (s.held t).count r + if r = found then 1 else 0 := by
  unfold share
  simp only [counted, Option.some.injEq, eq_comm]

theorem share_of_uncounted (uncounted : (s.place t).counted = none) (r : Ref) :
    s.share r t = (s.held t).count r := by
  unfold share
  simp [uncounted]

theorem refs_update (others : ∀ o, o ≠ t → s'.share r o = s.share r o) :
    s'.refs r + s.share r t = s.refs r + s'.share r t := by
  have split : ∀ table : OpenTable threads, table.refs r = table.share r t +
      ∑ o ∈ Finset.univ.erase t, table.share r o :=
    fun table => (Finset.add_sum_erase Finset.univ (table.share r) (Finset.mem_univ t)).symm
  have rest : ∑ o ∈ Finset.univ.erase t, s'.share r o = ∑ o ∈ Finset.univ.erase t, s.share r o :=
    Finset.sum_congr rfl fun o mem => others o (Finset.ne_of_mem_erase mem)
  rw [split s', split s, rest]
  omega

theorem refs_pos_of_share (shares : 0 < s.share r t) : 0 < s.refs r :=
  shares.trans_le (Finset.single_le_sum (fun _ _ => Nat.zero_le _) (Finset.mem_univ t))

theorem exists_share_of_refs_pos (pos : 0 < s.refs r) : ∃ t, 0 < s.share r t := by
  by_contra none
  push Not at none
  have zero : s.refs r = 0 := Finset.sum_eq_zero fun o _ => Nat.le_zero.mp (none o)
  omega

end OpenTable

end Pintos.Filesys
