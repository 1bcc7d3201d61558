import Mathlib.Data.List.Nodup
import Mathlib.Data.List.Range
import Mathlib.Logic.Function.Basic

/-!
# Maps kept in slots

A table of slots, each of which is free or holds a key and a value.  It represents a map if its slots
hold the bindings of the map and no key stands in two of them.  A binding is added by filling a free
slot, old or new, and dropped by freeing its slot.
-/

namespace SlotMap

open Function Option

variable {Key Value : Type*}

/-- The slots below `count` hold the bindings of the map, each in one slot. -/
structure Represents (count : Nat) (slot : Nat → Option (Key × Value)) (map : Key → Option Value) :
    Prop where
  bound : ∀ key value, map key = some value ↔ ∃ i < count, slot i = some (key, value)
  single : ∀ first < count, ∀ second < count, ∀ key, (slot first).map Prod.fst = some key →
    (slot second).map Prod.fst = some key → first = second

/-- The keys in the slots from an index on, in the order of the slots. -/
def keysFrom (count : Nat) (slot : Nat → Option (Key × Value)) (start : Nat) : List Key :=
  (List.range' start (count - start)).filterMap fun index => (slot index).map Prod.fst

variable {count count' i : Nat} {slot slot' : Nat → Option (Key × Value)}
  {map : Key → Option Value} {key : Key} {value : Value}

/-- A table of free slots represents the empty map. -/
theorem represents_empty (free : ∀ i < count, slot i = none) :
    Represents count slot fun _ => none where
  bound key value := by
    constructor
    · intro impossible
      cases impossible
    · rintro ⟨i, below, held⟩
      rw [free i below] at held
      cases held
  single first first_below _ _ key holds := by
    rw [free first first_below] at holds
    cases holds

theorem Represents.value_eq (maps : Represents count slot map) (below : i < count)
    (held : slot i = some (key, value)) : map key = some value :=
  (maps.bound key value).mpr ⟨i, below, held⟩

theorem Represents.eq_none_iff (maps : Represents count slot map) :
    map key = none ↔ ∀ i < count, (slot i).map Prod.fst ≠ some key := by
  constructor
  · intro absent i below holds
    obtain ⟨⟨_, value⟩, held, rfl⟩ := map_eq_some_iff.mp holds
    rw [maps.value_eq below held] at absent
    cases absent
  · intro missing
    cases here : map key with
    | none => rfl
    | some value =>
      obtain ⟨i, below, held⟩ := (maps.bound key value).mp here
      exact (missing i below (by rw [held]; rfl)).elim

section Update

variable [DecidableEq Key]

/-- A free slot, old or new, is filled. -/
theorem Represents.fill (maps : Represents count slot map) (absent : map key = none)
    (free : i < count → slot i = none) (filled : slot' i = some (key, value))
    (others : ∀ o, o ≠ i → slot' o = slot o)
    (below_iff : ∀ o, o < count' ↔ o < count ∨ o = i) :
    Represents count' slot' (update map key (some value)) := by
  have missing := maps.eq_none_iff.mp absent
  have kept : ∀ o, o < count' → o ≠ i → o < count := by
    intro o below ne
    exact ((below_iff o).mp below).resolve_right ne
  constructor
  · intro wanted o
    by_cases same : wanted = key
    · subst same
      rw [update_self]
      constructor
      · intro is_value
        cases is_value
        exact ⟨i, (below_iff i).mpr (.inr rfl), filled⟩
      · rintro ⟨place, below, held⟩
        by_cases here : place = i
        · rw [here, filled] at held
          rw [(Prod.mk.inj (some.inj held)).2]
        · rw [others place here] at held
          exact (missing place (kept place below here) (by rw [held]; rfl)).elim
    · rw [update_of_ne same, maps.bound]
      constructor
      · rintro ⟨place, below, held⟩
        refine ⟨place, (below_iff place).mpr (.inl below), ?_⟩
        rw [others place ?_]
        · exact held
        · rintro rfl
          rw [free below] at held
          cases held
      · rintro ⟨place, below, held⟩
        by_cases here : place = i
        · rw [here, filled] at held
          exact (same (Prod.mk.inj (some.inj held)).1.symm).elim
        · rw [others place here] at held
          exact ⟨place, kept place below here, held⟩
  · intro fst fst_lt snd snd_lt wanted fst_holds snd_holds
    by_cases is_fst : fst = i <;> by_cases is_snd : snd = i
    · rw [is_fst, is_snd]
    · rw [is_fst, filled] at fst_holds
      rw [others snd is_snd, ← fst_holds] at snd_holds
      exact (missing snd (kept snd snd_lt is_snd) snd_holds).elim
    · rw [is_snd, filled] at snd_holds
      rw [others fst is_fst, ← snd_holds] at fst_holds
      exact (missing fst (kept fst fst_lt is_fst) fst_holds).elim
    · rw [others fst is_fst] at fst_holds
      rw [others snd is_snd] at snd_holds
      exact maps.single fst (kept fst fst_lt is_fst) snd
        (kept snd snd_lt is_snd) wanted fst_holds snd_holds

/-- The slot of a key is freed. -/
theorem Represents.erase (maps : Represents count slot map) (below : i < count)
    (held : slot i = some (key, value)) (freed : slot' i = none)
    (others : ∀ o, o ≠ i → slot' o = slot o) :
    Represents count slot' (update map key none) := by
  have only : ∀ o, o < count → (slot o).map Prod.fst = some key → o = i := by
    intro o other_below holds
    exact maps.single o other_below i below key holds (by rw [held]; rfl)
  constructor
  · intro wanted o
    by_cases same : wanted = key
    · subst same
      rw [update_self]
      constructor
      · intro impossible
        cases impossible
      · rintro ⟨place, place_below, is_held⟩
        by_cases here : place = i
        · rw [here, freed] at is_held
          cases is_held
        · rw [others place here] at is_held
          exact (here (only place place_below (by rw [is_held]; rfl))).elim
    · rw [update_of_ne same, maps.bound]
      constructor
      · rintro ⟨place, place_below, is_held⟩
        refine ⟨place, place_below, ?_⟩
        rw [others place ?_]
        · exact is_held
        · rintro rfl
          rw [held] at is_held
          exact same (Prod.mk.inj (some.inj is_held)).1.symm
      · rintro ⟨place, place_below, is_held⟩
        by_cases here : place = i
        · rw [here, freed] at is_held
          cases is_held
        · rw [others place here] at is_held
          exact ⟨place, place_below, is_held⟩
  · intro first fst_lt snd snd_lt wanted fst_holds snd_holds
    have kept : ∀ o, (slot' o).map Prod.fst = some wanted → slot' o = slot o := by
      intro o holds
      by_cases here : o = i
      · rw [here, freed] at holds
        cases holds
      · exact others o here
    rw [kept first fst_holds] at fst_holds
    rw [kept snd snd_holds] at snd_holds
    exact maps.single first fst_lt snd snd_lt wanted fst_holds snd_holds

end Update

/-! ## Listing the keys -/

theorem keysFrom_of_le (past : count ≤ i) : keysFrom count slot i = [] := by
  rw [keysFrom, Nat.sub_eq_zero_of_le past]
  rfl

theorem keysFrom_of_lt (below : i < count) : keysFrom count slot i =
      (((slot i).map Prod.fst).toList ++ keysFrom count slot (i + 1)) := by
  rw [keysFrom, show count - i = count - (i + 1) + 1 by omega, List.range'_succ]
  cases held : slot i with
  | none => simp [keysFrom, held]
  | some entry => simp [keysFrom, held]

theorem Represents.nodup_keys (maps : Represents count slot map) :
    (keysFrom count slot 0).Nodup := by
  refine List.pairwise_filterMap.mpr (List.Pairwise.imp_of_mem ?_ List.nodup_range')
  rintro fst snd first_in snd_in ne key fst_holds _ snd_holds rfl
  rw [List.mem_range'_1] at first_in snd_in
  exact ne (maps.single fst (by omega) snd (by omega) key fst_holds snd_holds)

theorem Represents.mem_keys (maps : Represents count slot map) :
    key ∈ keysFrom count slot 0 ↔ map key ≠ none := by
  rw [keysFrom, List.mem_filterMap, ne_eq, maps.eq_none_iff]
  simp

end SlotMap
