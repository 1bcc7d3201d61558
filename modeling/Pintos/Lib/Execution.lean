import Mathlib.Logic.Relation

/-!
# Executions of partial step functions

A machine is a partial step function `step : σ → ε → Option σ`: an event either has an effect or is
impossible in the current state.  This file runs lists of events, states what it means for a
property to hold in every state of a run and for every step of a run to meet a condition, and
packages the two inductions that all safety results use.
-/

namespace Execution

variable {σ ε : Type*} {step : σ → ε → Option σ} {inv property : σ → Prop} {initial : σ}
  {events : List ε}

/-- Execute a list of events from left to right, failing at the first impossible one. -/
def run (step : σ → ε → Option σ) : σ → List ε → Option σ
  | state, [] => some state
  | state, event :: events => (step state event).bind fun next => run step next events

theorem run_cons (step : σ → ε → Option σ) (state : σ) (e : ε) (evs : List ε) :
    run step state (e :: evs) = (step state e).bind fun next => run step next evs := rfl

/-- An invariant that every step preserves holds at the end of every run. -/
theorem run_invariant {final : σ} (start : inv initial)
    (preserved : ∀ {before e s'}, inv before → step before e = some s' → inv s')
    (execution : run step initial events = some final) : inv final := by
  induction events generalizing initial with
  | nil =>
    cases execution
    exact start
  | cons e events ih =>
    obtain ⟨next, ran, later⟩ := Option.bind_eq_some_iff.mp execution
    exact ih (preserved start ran) later

/-- Every state that the events reach, the first one included, has the property. -/
def Along (step : σ → ε → Option σ) (property : σ → Prop) : σ → List ε → Prop
  | state, [] => property state
  | state, e :: events =>
    property state ∧ ∀ next, step state e = some next → Along step property next events

/-- Every step that the events take meets the condition in the state before it. -/
def Meets (step : σ → ε → Option σ) (condition : σ → ε → Prop) : σ → List ε → Prop
  | _, [] => True
  | state, e :: events =>
    ∀ next, step state e = some next → condition state e ∧ Meets step condition next events

theorem meets_cons_iff (step : σ → ε → Option σ) (cond : σ → ε → Prop) (state : σ)
    (e : ε) (evs : List ε) : Meets step cond state (e :: evs) ↔
      match step state e with
      | none => True
      | some next => cond state e ∧ Meets step cond next evs := by
  rw [Meets]
  cases step state e with
  | none => simp
  | some next => simp

/-- Whether a run meets a decidable condition can be computed by running it. -/
instance Meets.decidable (step : σ → ε → Option σ) (condition : σ → ε → Prop)
    [∀ state e, Decidable (condition state e)] (state : σ) :
    (events : List ε) → Decidable (Meets step condition state events)
  | [] => isTrue trivial
  | e :: events =>
    have : Decidable (match step state e with
        | none => True
        | some next => condition state e ∧ Meets step condition next events) :=
      match step state e with
      | none => isTrue trivial
      | some next =>
        have := Meets.decidable step condition next events
        inferInstanceAs (Decidable (_ ∧ _))
    decidable_of_iff _ (meets_cons_iff step condition state e events).symm

/-- An invariant and its step lemma give the property in every state of an admissible run. -/
theorem along_of_meets {cond : σ → ε → Prop} (start : inv initial)
    (preserved : ∀ {before e s'}, inv before → cond before e → step before e = some s' → inv s')
    (implies : ∀ {state}, inv state → property state)
    (meets : Meets step cond initial events) : Along step property initial events := by
  induction events generalizing initial with
  | nil => exact implies start
  | cons e events ih =>
    refine ⟨implies start, fun next ran => ?_⟩
    obtain ⟨admissible, rest⟩ := meets next ran
    exact ih (preserved start admissible ran) rest

/-- An invariant that every step preserves gives the property in every state of every run. -/
theorem along_of_invariant (start : inv initial)
    (preserved : ∀ {before e s'}, inv before → step before e = some s' → inv s')
    (implies : ∀ {state}, inv state → property state) (evs : List ε) :
    Along step property initial evs := by
  induction evs generalizing initial with
  | nil => exact implies start
  | cons e evs ih =>
    exact ⟨implies start, fun next ran => ih (preserved start ran)⟩

/-- Conversely, if a property can only survive admissible steps, a run that keeps it is
admissible. -/
theorem meets_of_along {cond : σ → ε → Prop} (start : inv initial)
    (preserved : ∀ {before e s'}, inv before → cond before e → step before e = some s' → inv s')
    (necessary : ∀ {before e s'}, inv before → step before e = some s' →
      property s' → cond before e)
    (along : Along step property initial events) : Meets step cond initial events := by
  induction events generalizing initial with
  | nil => trivial
  | cons e events ih =>
    intro next ran
    have later := along.2 next ran
    have kept : property next := by
      cases events with
      | nil => exact later
      | cons _ _ => exact later.1
    have admissible := necessary start ran kept
    exact ⟨admissible, ih (preserved start admissible ran) later⟩

/-- Along the events, until the goal is reached, the property holds and at most `budget` of the steps
are own steps. -/
def Within (step : σ → ε → Option σ) (own : σ → ε → Prop) (goal property : σ → Prop) :
    Nat → σ → List ε → Prop
  | _, state, [] => goal state ∨ property state
  | budget, state, e :: events =>
    goal state ∨ property state ∧ ∀ next, step state e = some next →
      own state e ∧ 0 < budget ∧ Within step own goal property (budget - 1) next events ∨
        ¬ own state e ∧ Within step own goal property budget next events

/-- A number that own steps lower and others do not raise bounds the own steps to the goal. -/
theorem within_of_variant {own : σ → ε → Prop} {goal : σ → Prop} {variant : σ → Nat}
    (implies : ∀ {state}, inv state → property state)
    (lowers : ∀ {before e s'}, inv before → step before e = some s' →
      goal s' ∨ inv s' ∧ variant s' ≤ variant before ∧ (own before e → variant s' < variant before))
    (busy : ∀ {state}, inv state → 0 < variant state) {state : σ} {budget : Nat}
    (start : inv state) (bound : variant state ≤ budget) (evs : List ε) :
    Within step own goal property budget state evs := by
  have got : ∀ {state budget evs}, goal state → Within step own goal property budget state evs := by
    intro state budget evs there
    cases evs with
    | nil => exact .inl there
    | cons _ _ => exact .inl there
  induction evs generalizing state budget with
  | nil => exact .inr (implies start)
  | cons e evs ih =>
    refine .inr ⟨implies start, fun next ran => ?_⟩
    have pos := busy start
    by_cases owned : own state e
    · refine .inl ⟨owned, by omega, ?_⟩
      rcases lowers start ran with there | ⟨kept, _, lower⟩
      · exact got there
      · have lowered := lower owned
        exact ih kept (by omega)
    · refine .inr ⟨owned, ?_⟩
      rcases lowers start ran with there | ⟨kept, lower, _⟩
      · exact got there
      · exact ih kept (by omega)

end Execution
