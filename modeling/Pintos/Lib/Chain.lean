import Mathlib.Logic.Function.Basic
import Mathlib.Logic.Relation

/-!
# Chains of links

A partial function `next : α → Option α` links elements to at most one other.  This file says when
the chain that starts at an element ends, and how one new link changes that.
-/

namespace Chain

open Function

variable {α : Type*} {next : α → Option α} {first second : α}

/-- The chain from an element ends after finitely many links. -/
inductive Ends (next : α → Option α) : α → Prop
  | stop {element} (last : next element = none) : Ends next element
  | link {element successor} (linked : next element = some successor)
      (ends : Ends next successor) : Ends next element

/-- Following links from the first element leads to the second. -/
def Leads (next : α → Option α) : α → α → Prop :=
  Relation.ReflTransGen fun element successor => next element = some successor

theorem Ends.of_link (ends : Ends next first) (linked : next first = some second) :
    Ends next second := by
  cases ends with
  | stop last =>
    rw [last] at linked
    cases linked
  | link o ends =>
    rw [o] at linked
    exact Option.some.inj linked ▸ ends

theorem Ends.of_leads (ends : Ends next first) (leads : Leads next first second) :
    Ends next second := by
  induction leads with
  | refl => exact ends
  | tail _ link ih => exact ih.of_link link

/-- A chain that ends never comes back to an element it has left. -/
theorem Ends.not_return (ends : Ends next first) {successor : α}
    (linked : next first = some successor) : ¬ Leads next successor first := by
  induction ends generalizing successor with
  | stop last =>
    rw [last] at linked
    cases linked
  | link o _ ih =>
    rw [o] at linked
    cases linked
    intro back
    rcases Relation.ReflTransGen.cases_head back with rfl | ⟨after, link, rest⟩
    · exact ih o .refl
    · exact ih link (rest.tail o)

section Update

variable [DecidableEq α] {a target : α}

/-- A link that the chain does not pass does not matter. -/
theorem Ends.update_of_not_leads (ends : Ends next first) (apart : ¬ Leads next first a)
    {link : Option α} : Ends (update next a link) first := by
  induction ends with
  | @stop first last =>
    have o : first ≠ a := by
      rintro rfl
      exact apart .refl
    exact .stop (by rw [update_of_ne o, last])
  | @link first second linked _ ih =>
    have o : first ≠ a := by
      rintro rfl
      exact apart .refl
    refine .link (by rw [update_of_ne o, linked]) (ih fun leads => ?_)
    exact apart (.head linked leads)

/-- Removing a link keeps the ends of chains. -/
theorem Ends.remove (ends : Ends next first) : Ends (update next a none) first := by
  induction ends with
  | @stop first last =>
    refine .stop ?_
    by_cases same : first = a
    · rw [same, update_self]
    · rw [update_of_ne same, last]
  | @link first second linked _ ih =>
    by_cases same : first = a
    · exact .stop (by rw [same, update_self])
    · exact .link (by rw [update_of_ne same, linked]) ih

/-- A link to an element whose chain ends elsewhere keeps the ends of chains. -/
theorem Ends.add (apart : ¬ Leads next target a) (targetEnds : Ends next target)
    (ends : Ends next first) : Ends (update next a (some target)) first := by
  have linked : Ends (update next a (some target)) a :=
    .link (by rw [update_self]) (targetEnds.update_of_not_leads apart)
  induction ends with
  | @stop first last =>
    by_cases same : first = a
    · exact same ▸ linked
    · exact .stop (by rw [update_of_ne same, last])
  | @link first second link _ ih =>
    by_cases same : first = a
    · exact same ▸ linked
    · exact .link (by rw [update_of_ne same, link]) ih

theorem leads_update (leads : Leads next first a) {link : Option α} :
    Leads (update next a link) first a := by
  induction leads using Relation.ReflTransGen.head_induction_on with
  | refl => exact .refl
  | @head first second linked _ ih =>
    by_cases same : first = a
    · exact same ▸ .refl
    · exact .head (by rw [update_of_ne same, linked]) ih

/-- A link that closes a circle makes its chain endless. -/
theorem not_ends_of_leads (leads : Leads next target a) :
    ¬ Ends (update next a (some target)) target := by
  intro ends
  have closed : Leads (update next a (some target)) target a := leads_update leads
  exact (ends.of_leads closed).not_return (update_self ..) closed

end Update

end Chain
