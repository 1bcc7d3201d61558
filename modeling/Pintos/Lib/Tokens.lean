import Mathlib.Data.List.Induction
import Mathlib.Tactic.TypeStar

/-!
# Tokens

The maximal nonempty pieces of a text without a separator, as a loop over `strtok` visits them, and
the text in which a separator stands in front of every word.
-/

namespace Tokens

open List

variable {α : Type*} [DecidableEq α] {separator : α} {text word : List α} {words : List (List α)}

/-- The tokens of a text, in order. -/
def tokens (separator : α) (text : List α) : List (List α) :=
  (text.splitOn separator).filter (· ≠ [])

theorem tokens_append_cons (sep : α) (front back : List α) : tokens sep (front ++ sep :: back) =
      tokens sep front ++ tokens sep back := by
  rw [tokens, splitOn_append_cons_self, filter_append]
  rfl

@[simp]
theorem tokens_nil (sep : α) : tokens sep [] = [] := rfl

@[simp]
theorem tokens_cons_self (sep : α) (text : List α) : tokens sep (sep :: text) = tokens sep text :=
  tokens_append_cons sep [] text

/-- A word without the separator. -/
def IsToken (separator : α) (word : List α) : Prop :=
  word ≠ [] ∧ separator ∉ word

instance (separator : α) (word : List α) : Decidable (IsToken separator word) :=
  inferInstanceAs (Decidable (_ ∧ _))

theorem tokens_of_isToken (is_token : IsToken separator word) : tokens separator word = [word] := by
  unfold tokens splitOn
  rw [splitOnP_eq_singleton]
  · simp [is_token.1]
  · intro letter mem
    rw [beq_eq_false_iff_ne]
    rintro rfl
    exact is_token.2 mem

/-- What the pieces between separators consist of. -/
theorem mem_splitOn (mem : word ∈ text.splitOn separator) : separator ∉ word ∧ word ⊆ text := by
  unfold splitOn at mem
  induction text generalizing word with
  | nil =>
    obtain rfl : word = [] := by simpa using mem
    simp
  | cons fst rest ih =>
    rw [splitOnP_cons_eq_if_modifyHead] at mem
    split at mem
    · rcases mem_cons.mp mem with rfl | later
      · simp
      · exact (ih later).imp_right fun inside => subset_cons_of_subset _ inside
    · next ne =>
        cases pieces : rest.splitOnP (· == separator) with
        | nil => exact (splitOnP_ne_nil _ _ pieces).elim
        | cons piece others =>
          rw [pieces] at mem ih
          rcases mem_cons.mp mem with rfl | later
          · obtain ⟨absent, inside⟩ := ih mem_cons_self
            refine ⟨?_, cons_subset_cons _ inside⟩
            rw [mem_cons, not_or]
            refine ⟨?_, absent⟩
            rintro rfl
            exact ne (beq_self_eq_true _)
          · obtain ⟨absent, inside⟩ := ih (mem_cons_of_mem _ later)
            exact ⟨absent, subset_cons_of_subset _ inside⟩

theorem isToken_of_mem (mem : word ∈ tokens separator text) : IsToken separator word := by
  obtain ⟨piece, ne_nil⟩ := mem_filter.mp mem
  exact ⟨by simpa using ne_nil, (mem_splitOn piece).1⟩

theorem subset_of_mem (mem : word ∈ tokens separator text) : word ⊆ text :=
  (mem_splitOn (mem_filter.mp mem).1).2

/-- The text in which the separator stands in front of every word. -/
def render (separator : α) (words : List (List α)) : List α :=
  words.flatMap (separator :: ·)

omit [DecidableEq α] in
theorem render_append (sep : α) (front back : List (List α)) :
    render sep (front ++ back) = render sep front ++ render sep back :=
  flatMap_append

theorem tokens_render (all_tokens : ∀ word ∈ words, IsToken separator word) :
    tokens separator (render separator words) = words := by
  induction words using reverseRecOn with
  | nil => rfl
  | append_singleton front last ih =>
    have single : render separator [last] = separator :: last := by simp [render]
    rw [render_append, single, tokens_append_cons,
      ih fun word mem => all_tokens word (mem_append_left _ mem),
      tokens_of_isToken (all_tokens last (by simp))]

end Tokens
