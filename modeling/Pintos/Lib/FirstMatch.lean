import Mathlib.Data.List.Basic
import Mathlib.Data.List.Pairwise

/-!
# Changing the first match of a table

A table is a list of slots.  `updateFirst` changes the first slot that passes a test, which is what a
loop over an array does that stops at the slot it is looking for.
-/

namespace FirstMatch

open List

variable {α : Type*} (test : α → Prop) [DecidablePred test] (change : α → α)

/-- The table with its first slot that passes the test changed. -/
def updateFirst (table : List α) : List α :=
  table.replaceF fun slot => if test slot then some (change slot) else none

@[simp]
theorem length_updateFirst (table : List α) :
    (updateFirst test change table).length = table.length := length_replaceF

variable {test change} {table : List α} {slot : α} {relation : α → α → Prop}

/-- Either no slot passes the test, or the table splits at the slot that is changed. -/
theorem updateFirst_cases (test : α → Prop) [DecidablePred test] (change : α → α) (table : List α) :
    ((∀ slot ∈ table, ¬ test slot) ∧ updateFirst test change table = table) ∨
      ∃ front found back, (∀ slot ∈ front, ¬ test slot) ∧ test found ∧
        table = front ++ found :: back ∧
          updateFirst test change table = front ++ change found :: back := by
  by_cases none : ∀ slot ∈ table, ¬ test slot
  · refine .inl ⟨none, replaceF_of_forall_none ?_⟩
    intro slot listed
    exact if_neg (none slot listed)
  · push Not at none
    obtain ⟨slot, listed, passes⟩ := none
    obtain ⟨found, new, front, back, old, hit, split, res⟩ := exists_of_replaceF
        (p := fun slot => if test slot then some (change slot) else none) listed (if_pos passes)
    have found_passes : test found := by
      by_contra fails
      rw [if_neg fails] at hit
      cases hit
    rw [if_pos found_passes] at hit
    cases hit
    refine .inr ⟨front, found, back, ?_, found_passes, split, res⟩
    intro slot listed passes
    have fails := old slot listed
    rw [if_pos passes] at fails
    cases fails

/-- A slot of the new table was there before, or is the changed one. -/
theorem mem_updateFirst (listed : slot ∈ updateFirst test change table) :
    slot ∈ table ∨ ∃ old ∈ table, test old ∧ slot = change old := by
  rcases updateFirst_cases test change table with ⟨_, same⟩ | ⟨front, found, back, _, passes, rfl, new⟩
  · rw [same] at listed
    exact .inl listed
  · rw [new, mem_append, mem_cons] at listed
    rcases listed with early | rfl | late
    · exact .inl (mem_append_left _ early)
    · exact .inr ⟨found, by simp, passes, rfl⟩
    · exact .inl (mem_append_right _ (mem_cons_of_mem _ late))

/-- If at most one slot passes the test, none of the old ones is left that does. -/
theorem mem_updateFirst_of_unique (unique : table.Pairwise fun fst snd => ¬ (test fst ∧ test snd))
    (listed : slot ∈ updateFirst test change table) :
    (slot ∈ table ∧ ¬ test slot) ∨ ∃ old ∈ table, test old ∧ slot = change old := by
  rcases updateFirst_cases test change table with
    ⟨none, same⟩ | ⟨front, found, back, was, passes, rfl, new⟩
  · rw [same] at listed
    exact .inl ⟨listed, none slot listed⟩
  · rw [new, mem_append, mem_cons] at listed
    rw [pairwise_append, pairwise_cons] at unique
    rcases listed with early | rfl | late
    · exact .inl ⟨mem_append_left _ early, was slot early⟩
    · exact .inr ⟨found, by simp, passes, rfl⟩
    · refine .inl ⟨mem_append_right _ (mem_cons_of_mem _ late), fun also => ?_⟩
      exact unique.2.1.1 slot late ⟨passes, also⟩

theorem mem_updateFirst_of_not (listed : slot ∈ table) (fails : ¬ test slot) :
    slot ∈ updateFirst test change table := by
  rcases updateFirst_cases test change table with ⟨_, same⟩ | ⟨front, found, back, _, passes, rfl, new⟩
  · rw [same]
    exact listed
  · rw [new, mem_append, mem_cons]
    rw [mem_append, mem_cons] at listed
    rcases listed with early | rfl | late
    · exact .inl early
    · exact (fails passes).elim
    · exact .inr (.inr late)

theorem mem_or_change_mem_updateFirst (listed : slot ∈ table) :
    slot ∈ updateFirst test change table ∨ change slot ∈ updateFirst test change table := by
  rcases updateFirst_cases test change table with ⟨_, same⟩ | ⟨front, found, back, _, _, rfl, new⟩
  · rw [same]
    exact .inl listed
  · rw [new]
    rw [mem_append, mem_cons] at listed
    rcases listed with early | rfl | late
    · exact .inl (mem_append_left _ early)
    · exact .inr (by simp)
    · exact .inl (mem_append_right _ (mem_cons_of_mem _ late))

theorem exists_mem_updateFirst (listed : slot ∈ table) (passes : test slot) :
    ∃ found ∈ table, test found ∧ change found ∈ updateFirst test change table := by
  rcases updateFirst_cases test change table with ⟨none, _⟩ | ⟨front, found, back, _, fst, rfl, new⟩
  · exact (none slot listed passes).elim
  · refine ⟨found, by simp, fst, ?_⟩
    rw [new]
    simp

/-- A symmetric relation between any two slots is kept if the changed slot has it with the others. -/
theorem pairwise_updateFirst [Std.Symm relation] (pairs : table.Pairwise relation)
    (changed : ∀ old ∈ table, test old → ∀ o ∈ table, relation old o →
      relation (change old) o) : (updateFirst test change table).Pairwise relation := by
  rcases updateFirst_cases test change table with ⟨_, same⟩ | ⟨front, found, back, _, fst, rfl, new⟩
  · rw [same]
    exact pairs
  · rw [new]
    rw [pairwise_append, pairwise_cons] at pairs ⊢
    obtain ⟨early, ⟨here, late⟩, across⟩ := pairs
    have hit : found ∈ front ++ found :: back := by simp
    refine ⟨early, ⟨fun o listed => ?_, late⟩, fun o listed later later_listed => ?_⟩
    · exact changed found hit fst o (by simp [listed]) (here o listed)
    · rcases mem_cons.mp later_listed with rfl | beyond
      · have related := across o listed found (mem_cons_self ..)
        exact symm (changed found hit fst o (by simp [listed]) (symm related))
      · exact across o listed later (mem_cons_of_mem _ beyond)

/-- The changed slot has the relation with every slot that failed the test. -/
theorem related_of_pairwise_updateFirst [Std.Symm relation]
    (pairs : (updateFirst test change table).Pairwise relation) (listed : slot ∈ table)
    (passes : test slot) :
    ∃ found ∈ table, test found ∧ ∀ o ∈ table, ¬ test o → relation (change found) o := by
  rcases updateFirst_cases test change table with ⟨none, _⟩ | ⟨front, found, back, _, fst, rfl, new⟩
  · exact (none slot listed passes).elim
  · rw [new, pairwise_append, pairwise_cons] at pairs
    obtain ⟨_, ⟨here, _⟩, across⟩ := pairs
    refine ⟨found, by simp, fst, fun o other_listed fails => ?_⟩
    rw [mem_append, mem_cons] at other_listed
    rcases other_listed with early | rfl | late
    · exact symm (across o early _ (mem_cons_self ..))
    · exact (fails fst).elim
    · exact here o late

/-- Two slots of a table with the relation between any two of them are the same or related. -/
theorem eq_or_related [Std.Symm relation] (pairs : table.Pairwise relation) {first snd : α}
    (fst_mem : first ∈ table) (snd_mem : snd ∈ table) :
    first = snd ∨ relation first snd := by
  by_cases same : first = snd
  · exact .inl same
  · exact .inr (pairs.forall fst_mem snd_mem same)

end FirstMatch
