import Mathlib.Logic.Function.Basic

/-!
# Functions that change at one place
-/

namespace Pintos

open Function

variable {α β γ : Type*} [DecidableEq α] {f : α → β} {a x : α} {new : β}

/-- A field that the new record keeps is the same everywhere. -/
theorem update_field (field : β → γ) (kept : field new = field (f a)) (x : α) :
    field (update f a new x) = field (f x) := by
  by_cases same : x = a
  · subst same
    rwa [update_self]
  · rw [update_of_ne same]

/-- The values of a partial function after it was defined at one place. -/
theorem update_some_cases {f : α → Option β} {found : β}
    (here : update f a (some new) x = some found) :
    x = a ∧ found = new ∨ x ≠ a ∧ f x = some found := by
  by_cases same : x = a
  · subst same
    rw [update_self] at here
    exact .inl ⟨rfl, (Option.some.inj here).symm⟩
  · rw [update_of_ne same] at here
    exact .inr ⟨same, here⟩

end Pintos
