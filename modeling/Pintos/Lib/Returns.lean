import Mathlib.Tactic.TypeStar

/-!
# Computations that may not return

Rules for computations in `Option`: what holds of the result if there is one, together with a
condition under which there is one.
-/

universe u

variable {α β : Type u} {total : Prop} {c : Option α} {post : α → Prop}

/-- Every result meets the postcondition, and under the condition there is a result. -/
def Returns (total : Prop) (c : Option α) (post : α → Prop) : Prop :=
  (∀ result, c = some result → post result) ∧ (total → c ≠ none)

namespace Returns

variable {post' : β → Prop}

theorem post_of_eq (gives : Returns total c post) {res : α} (runs : c = some res) : post res :=
  gives.1 res runs

theorem exists_of (gives : Returns total c post) (holds : total) :
    ∃ res, c = some res ∧ post res := by
  obtain ⟨res, runs⟩ := Option.ne_none_iff_exists'.mp (gives.2 holds)
  exact ⟨res, runs, gives.1 res runs⟩

theorem of_some {res : α} (holds : post res) : Returns total (some res) post := by
  refine ⟨?_, fun _ => Option.some_ne_none _⟩
  rintro _ ⟨⟩
  exact holds

theorem of_eq {res : α} (runs : c = some res) (holds : post res) : Returns total c post := by
  rw [runs]
  exact of_some holds

/-- A computation that has no result may do so only if the condition fails. -/
theorem of_none (fails : ¬ total) : Returns total (none : Option α) post :=
  ⟨nofun, fun holds => (fails holds).elim⟩

theorem mono {post' : α → Prop} (gives : Returns total c post)
    (weaker : ∀ res, post res → post' res) : Returns total c post' :=
  ⟨fun res runs => weaker res (gives.1 res runs), gives.2⟩

theorem strengthen {total' : Prop} (gives : Returns total c post)
    (stronger : total' → total) : Returns total' c post :=
  ⟨gives.1, fun holds => gives.2 (stronger holds)⟩

theorem bind {k : α → Option β} (fst : Returns total c post)
    (snd : ∀ res, post res → Returns total (k res) post') :
    Returns total (c >>= k) post' := by
  constructor
  · intro final runs
    obtain ⟨res, runs, goes⟩ := Option.bind_eq_some_iff.mp runs
    exact (snd res (fst.1 res runs)).1 final goes
  · intro holds
    obtain ⟨res, runs, meets⟩ := fst.exists_of holds
    rw [runs]
    exact (snd res meets).2 holds

/-- A first computation whose result is known. -/
theorem step {k : α → Option β} {res : α} (runs : c = some res)
    (snd : Returns total (k res) post') :
    Returns total (c >>= k) post' := by
  rw [runs]
  exact snd

theorem map {function : α → β} (fst : Returns total c post)
    (snd : ∀ res, post res → post' (function res)) :
    Returns total (c.map function) post' := by
  constructor
  · intro final runs
    obtain ⟨res, back, rfl⟩ := Option.map_eq_some_iff.mp runs
    exact snd res (fst.1 res back)
  · intro holds
    obtain ⟨res, runs, _⟩ := fst.exists_of holds
    rw [runs]
    exact Option.some_ne_none _

theorem mapM {function : α → Option β} {list : List α}
    (each : ∀ element ∈ list, Returns total (function element) post') :
    Returns total (list.mapM function) fun results => ∀ res ∈ results, post' res := by
  induction list with
  | nil => exact of_eq List.mapM_nil nofun
  | cons element list ih =>
    rw [List.mapM_cons]
    refine (each element (List.mem_cons_self ..)).bind fun head meets => ?_
    refine (ih fun later mem => each later (List.mem_cons_of_mem _ mem)).bind ?_
    intro tail rest
    exact of_some (List.forall_mem_cons.mpr ⟨meets, rest⟩)

end Returns
