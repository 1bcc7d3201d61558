import Mathlib.Data.List.Perm.Basic
import Mathlib.Data.List.Nodup

/-!
# Linked lists with cursors

A doubly linked list as the list of its entries, with pointers into it.  A pointer at an entry is
the entry itself; `none` is the end of the list where a pointer looks at the next entry, and the head
of the list where it looks at the entry just passed.
-/

namespace Cursor

open List

variable {α : Type*} [DecidableEq α]

/-- The entries in front of a pointer. -/
def before : List α → Option α → List α
  | [], _ => []
  | head :: tail, cursor => if cursor = some head then [] else head :: before tail cursor

/-- Insert an entry in front of a pointer. -/
def insertBefore : List α → Option α → α → List α
  | [], _, entry => [entry]
  | head :: tail, cursor, entry =>
    if cursor = some head then entry :: head :: tail else head :: insertBefore tail cursor entry

/-- The pointer behind an entry. -/
def after : List α → α → Option α
  | [], _ => none
  | head :: tail, entry => if entry = head then tail.head? else after tail entry

/-- The pointer behind an entry or behind the head of the list. -/
def next (list : List α) : Option α → Option α
  | none => list.head?
  | some entry => after list entry

/-- The entry in front of an entry, or the head of the list. -/
def prior (list : List α) (entry : α) : Option α :=
  (before list (some entry)).getLast?

/-- The pointer is at an entry of the list or at its end. -/
def Valid (list : List α) (cursor : Option α) : Prop :=
  ∀ entry, cursor = some entry → entry ∈ list

variable {list : List α} {cursor other : Option α} {entry new : α}

@[simp]
theorem before_end (list : List α) : before list none = list := by
  induction list with
  | nil => rfl
  | cons head tail ih => simp [before, ih]

@[simp]
theorem before_head (list : List α) : before list list.head? = [] := by
  cases list with
  | nil => rfl
  | cons head tail => simp [before]

theorem mem_of_mem_before (mem : entry ∈ before list cursor) : entry ∈ list := by
  induction list with
  | nil => exact mem
  | cons head tail ih =>
    rw [before] at mem
    split at mem
    · cases mem
    · rcases mem_cons.mp mem with rfl | later
      · exact mem_cons_self
      · exact mem_cons_of_mem head (ih later)

omit [DecidableEq α] in
theorem valid_head (list : List α) : Valid list list.head? := fun _ fst => mem_of_head? fst

theorem not_mem_before_self (list : List α) (entry : α) : entry ∉ before list (some entry) := by
  induction list with
  | nil => exact not_mem_nil
  | cons head tail ih =>
    rw [before]
    split
    · exact not_mem_nil
    · rename_i away
      rw [mem_cons, not_or]
      exact ⟨fun same => away (congrArg some same), ih⟩

theorem valid_after (list : List α) (entry : α) : Valid list (after list entry) := by
  induction list with
  | nil => exact fun _ found => nomatch found
  | cons head tail ih =>
    intro found hit
    rw [after] at hit
    split at hit
    · exact mem_cons_of_mem head (mem_of_head? hit)
    · exact mem_cons_of_mem head (ih found hit)

theorem mem_before_of_prior (found : prior list entry = some new) :
    new ∈ before list (some entry) :=
  mem_of_getLast? found

theorem insertBefore_perm (list : List α) (cursor : Option α) (entry : α) :
    (insertBefore list cursor entry).Perm (entry :: list) := by
  induction list with
  | nil => exact .refl _
  | cons head tail ih =>
    rw [insertBefore]
    split
    · exact .refl _
    · exact (ih.cons head).trans (.swap entry head tail)

theorem mem_insertBefore : new ∈ insertBefore list cursor entry ↔ new = entry ∨ new ∈ list := by
  rw [(insertBefore_perm list cursor entry).mem_iff, mem_cons]

theorem nodup_insertBefore (nodup : list.Nodup) (fresh : entry ∉ list) :
    (insertBefore list cursor entry).Nodup :=
  (insertBefore_perm list cursor entry).nodup_iff.mpr (nodup_cons.mpr ⟨fresh, nodup⟩)

/-- Inserting at the right place keeps a list sorted. -/
theorem pairwise_insertBefore {relation : α → α → Prop}
    (trans : ∀ {fst second third}, relation fst second → relation second third → relation fst third)
    (sorted : list.Pairwise relation) (passed : ∀ o ∈ before list cursor, relation o entry)
    (ahead : ∀ o, cursor = some o → relation entry o) :
    (insertBefore list cursor entry).Pairwise relation := by
  induction list with
  | nil => exact pairwise_singleton relation entry
  | cons head tail ih =>
    obtain ⟨fst, rest⟩ := pairwise_cons.mp sorted
    rw [before] at passed
    rw [insertBefore]
    split
    · rename_i here
      refine pairwise_cons.mpr ⟨fun o mem => ?_, sorted⟩
      rcases mem_cons.mp mem with rfl | later
      · exact ahead o here
      · exact trans (ahead head here) (fst o later)
    · rename_i apart
      rw [if_neg apart] at passed
      refine pairwise_cons.mpr ⟨fun o mem => ?_,
        ih rest fun o mem => passed o (mem_cons_of_mem head mem)⟩
      rcases mem_insertBefore.mp mem with rfl | later
      · exact passed head mem_cons_self
      · exact fst o later

/-- An insertion adds the entry in front of the pointers at its place and behind it, and of no
others. -/
theorem mem_before_insertBefore (valid : Valid list cursor) (otherValid : Valid list other)
    (fresh : entry ∉ list) (mem : new ∈ before (insertBefore list cursor entry) other) :
    new ∈ before list other ∨
      new = entry ∧ (cursor = other ∨ ∃ place, cursor = some place ∧ place ∈ before list other) := by
  induction list with
  | nil =>
    have ends : ∀ {pointer : Option α}, Valid [] pointer → pointer = none := by
      intro pointer valid
      exact Option.eq_none_iff_forall_ne_some.mpr fun place here =>
        not_mem_nil (valid place here)
    obtain rfl := ends valid
    obtain rfl := ends otherValid
    exact .inr ⟨by simpa [insertBefore] using mem, .inl rfl⟩
  | cons head tail ih =>
    have tailValid : ∀ {pointer : Option α}, Valid (head :: tail) pointer →
        pointer ≠ some head → Valid tail pointer := by
      intro pointer valid apart place here
      refine (mem_cons.mp (valid place here)).resolve_left ?_
      rintro rfl
      exact apart here
    rw [insertBefore] at mem
    split at mem
    · rename_i here
      subst here
      rw [before] at mem
      split at mem
      · cases mem
      · rcases mem_cons.mp mem with rfl | later
        · refine .inr ⟨rfl, ?_⟩
          by_cases same : other = some head
          · exact .inl same.symm
          · exact .inr ⟨head, rfl, by simp [before, same]⟩
        · exact .inl later
    · rename_i apart
      rw [before] at mem ⊢
      split at mem
      · cases mem
      · rename_i away
        rw [if_neg away]
        rcases mem_cons.mp mem with rfl | later
        · exact .inl mem_cons_self
        · rcases ih (tailValid valid apart) (tailValid otherValid away)
            (fun inTail => fresh (mem_cons_of_mem head inTail)) later with
            passed | ⟨rfl, same | ⟨place, here, ahead⟩⟩
          · exact .inl (mem_cons_of_mem head passed)
          · exact .inr ⟨rfl, .inl same⟩
          · exact .inr ⟨rfl, .inr ⟨place, here, mem_cons_of_mem head ahead⟩⟩

/-- Removing another entry puts nothing in front of a pointer. -/
theorem mem_before_erase {removed : α} (o : cursor ≠ some removed)
    (mem : entry ∈ before (list.erase removed) cursor) : entry ∈ before list cursor := by
  induction list with
  | nil => exact mem
  | cons head tail ih =>
    rw [before]
    by_cases same : head = removed
    · subst same
      rw [erase_cons_head] at mem
      rw [if_neg o]
      exact mem_cons_of_mem head mem
    · rw [erase_cons_tail (by simpa using same), before] at mem
      split at mem
      · cases mem
      · rename_i away
        rw [if_neg away]
        rcases mem_cons.mp mem with rfl | later
        · exact mem_cons_self
        · exact mem_cons_of_mem head (ih later)

/-- Moving a pointer on passes one entry. -/
theorem mem_before_after (nodup : list.Nodup) {passed : α} (inside : passed ∈ list)
    (mem : entry ∈ before list (after list passed)) :
    entry ∈ before list (some passed) ∨ entry = passed := by
  induction list with
  | nil => cases inside
  | cons head tail ih =>
    obtain ⟨fresh, rest⟩ := nodup_cons.mp nodup
    rw [after] at mem
    split at mem
    · rename_i same
      subst same
      have away : tail.head? ≠ some passed := fun here => fresh (mem_of_head? here)
      rw [before, if_neg away, before_head] at mem
      exact .inr (mem_singleton.mp mem)
    · rename_i o
      rw [before] at mem ⊢
      rw [if_neg fun same => o (Option.some.inj same)]
      split at mem
      · cases mem
      · rcases mem_cons.mp mem with rfl | later
        · exact .inl mem_cons_self
        · have inTail := (mem_cons.mp inside).resolve_left o
          exact (ih rest inTail later).imp_left (mem_cons_of_mem head)

/-- What is in front of an entry is in front of every pointer behind it. -/
theorem before_trans {passed : α} (behind : passed ∈ before list cursor)
    (mem : entry ∈ before list (some passed)) : entry ∈ before list cursor := by
  induction list with
  | nil => cases behind
  | cons head tail ih =>
    rw [before] at behind mem ⊢
    split at behind
    · cases behind
    · rename_i away
      rw [if_neg away]
      split at mem
      · cases mem
      · rename_i o
        have later := (mem_cons.mp behind).resolve_left fun same => o (congrArg some same)
        rcases mem_cons.mp mem with rfl | inTail
        · exact mem_cons_self
        · exact mem_cons_of_mem head (ih later inTail)

end Cursor
