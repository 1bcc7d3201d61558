import Pintos.Filesys.Path

/-!
# Absolute paths are canonical

`path_abspath` reduces the components of a path with a stack.  What it returns is a normalised path, and
to resolve two paths one after the other is to resolve their join.
-/

namespace Pintos.Filesys

open Tokens List

/-- A component that names an entry of a directory. -/
def IsProper (name : CString) : Prop := IsComponent name ∧ name ≠ [dot] ∧ name ≠ [dot, dot]

instance (name : CString) : Decidable (IsProper name) := inferInstanceAs (Decidable (_ ∧ _))

/-- An absolute path without special or empty components, and without a slash at its end. -/
def IsNormalised (path : CString) : Prop :=
  ∃ names : List CString, (∀ name ∈ names, IsProper name) ∧ path = slash :: List.intercalate [slash] names

variable {cwd path next name : CString} {names : List CString}

theorem pathText_eq (names : List CString) : pathText names = slash :: intercalate [slash] names := by
  cases names with
  | nil => rfl
  | cons fst rest =>
    change render slash (fst :: rest) = _
    induction rest generalizing fst with
    | nil => simp [render]
    | cons snd rest ih =>
      have split : render slash (fst :: snd :: rest) =
          slash :: fst ++ render slash (snd :: rest) := rfl
      rw [split, ih snd, intercalate_cons_cons]
      simp

theorem IsNormalised.isAbs (normalised : IsNormalised cwd) : pathIsabs cwd = true := by
  obtain ⟨names, proper, rfl⟩ := normalised
  rw [← pathText_eq]
  exact pathIsabs_pathText fun name mem => (proper name mem).1

theorem reduceStep_proper (proper : ∀ name ∈ names, IsProper name) (is_component : IsComponent name) :
    ∀ o ∈ reduceStep names name, IsProper o := by
  intro o mem
  unfold reduceStep at mem
  split at mem
  · exact proper o (dropLast_subset _ mem)
  · split at mem
    · exact proper o mem
    · next not_up not_here =>
        rcases mem_append.mp mem with old | last
        · exact proper o old
        · obtain rfl := mem_singleton.mp last
          exact ⟨is_component, not_here, not_up⟩

theorem foldl_reduceStep_proper {start : List CString} (proper : ∀ name ∈ start, IsProper name)
    (parts : ∀ name ∈ names, IsComponent name) :
    ∀ name ∈ names.foldl reduceStep start, IsProper name := by
  induction names generalizing start with
  | nil => exact proper
  | cons fst rest ih =>
    exact ih (reduceStep_proper proper (parts fst mem_cons_self))
      fun name mem => parts name (mem_cons_of_mem _ mem)

theorem foldl_reduceStep_of_proper (start : List CString) (proper : ∀ name ∈ names, IsProper name) :
    names.foldl reduceStep start = start ++ names := by
  induction names generalizing start with
  | nil => simp
  | cons fst rest ih =>
    obtain ⟨_, not_here, not_up⟩ := proper fst mem_cons_self
    rw [foldl_cons, reduceStep, if_neg not_up, if_neg not_here,
      ih _ fun name mem => proper name (mem_cons_of_mem _ mem)]
    simp

section Absolute

variable (is_abs : pathIsabs cwd = true) (is_valid : pathIsvalid path = true)

include is_abs is_valid

theorem reducedPath_proper : ∀ name ∈ reducedPath cwd path, IsProper name := by
  have cwd_valid := (pathIsabs_iff.mp is_abs).1
  refine foldl_reduceStep_proper (by simp) fun name mem => ?_
  split at mem
  · exact isComponent_of_mem is_valid mem
  · rcases mem_append.mp mem with in_cwd | in_path
    · exact isComponent_of_mem cwd_valid in_cwd
    · exact isComponent_of_mem is_valid in_path

theorem pathNormpath_pathAbspath : pathNormpath (pathAbspath cwd path) = pathAbspath cwd path := by
  have proper := reducedPath_proper is_abs is_valid
  have parts : ∀ name ∈ reducedPath cwd path, IsComponent name :=
    fun name mem => (proper name mem).1
  rw [(pathNormpath_eq (pathIsabs_pathAbspath is_abs is_valid)).1, pathAbspath_eq is_abs is_valid,
    tokens_pathText parts, foldl_reduceStep_of_proper [] proper, nil_append]

end Absolute

theorem pathJoin2_relative (valid : pathIsvalid path = true) (next_valid : pathIsvalid next = true)
    (rel : next.head? ≠ some slash) :
    pathIsvalid (pathJoin2 path next) = true ∧ (pathJoin2 path next).head? = path.head? ∧
      tokens slash (pathJoin2 path next) = tokens slash path ++ tokens slash next := by
  rw [pathIsvalid_iff] at valid next_valid
  have not_abs : ¬ pathIsabs next = true := fun abs => rel (pathIsabs_iff.mp abs).2
  obtain ⟨fst, rest, rfl⟩ := exists_cons_of_ne_nil valid.1
  rw [pathJoin2, if_neg not_abs, pathIsvalid_iff]
  split
  · next ends =>
      obtain ⟨front, is_path⟩ := getLast?_eq_some_iff.mp ends
      refine ⟨⟨by simp, ?_⟩, rfl, ?_⟩
      · intro c inside
        exact (mem_append.mp inside).elim (valid.2 c) (next_valid.2 c)
      · rw [is_path, append_assoc, singleton_append, tokens_append_cons, tokens_append_cons,
          tokens_nil, append_nil]
  · refine ⟨⟨by simp, ?_⟩, rfl, tokens_append_cons slash _ _⟩
    intro c inside
    rcases mem_append.mp inside with inside | inside
    · exact valid.2 c inside
    · rcases mem_cons.mp inside with rfl | inside
      · rfl
      · exact next_valid.2 c inside

/-- Resolving a path and then another one is resolving their join. -/
theorem pathAbspath_pathAbspath (is_abs : pathIsabs cwd = true) (valid : pathIsvalid path = true)
    (next_valid : pathIsvalid next = true) :
    pathAbspath (pathAbspath cwd path) next = pathAbspath cwd (pathJoin2 path next) := by
  by_cases abs : next.head? = some slash
  · -- The second path alone counts on both sides.
    have next_abs : pathIsabs next = true := pathIsabs_iff.mpr ⟨next_valid, abs⟩
    have joined : ∀ front, pathJoin2 front next = next := fun _ => if_pos next_abs
    rw [joined path, pathAbspath, joined, pathAbspath, joined]
  · obtain ⟨join_valid, same_head, join_tokens⟩ := pathJoin2_relative valid next_valid abs
    have proper := reducedPath_proper is_abs valid
    have first_tokens : tokens slash (pathAbspath cwd path) = reducedPath cwd path := by
      rw [pathAbspath_eq is_abs valid]
      exact tokens_pathText fun name mem => (proper name mem).1
    rw [pathAbspath_eq (pathIsabs_pathAbspath is_abs valid) next_valid,
      pathAbspath_eq is_abs join_valid]
    congr 1
    calc reducedPath (pathAbspath cwd path) next
        = (tokens slash next).foldl reduceStep (reducedPath cwd path) := by
          rw [reducedPath, if_neg abs, first_tokens, foldl_append,
            foldl_reduceStep_of_proper [] proper, nil_append]
      _ = reducedPath cwd (pathJoin2 path next) := by
          rw [reducedPath, reducedPath, same_head, join_tokens]
          split
          · rw [foldl_append]
          · rw [← append_assoc, ← foldl_append]

/-- For a normalised working directory and valid paths, `path_abspath` returns the components that remain
after the reduction, normalised and unchanged by `path_normpath`, and resolving two paths one after the
other is resolving their join. -/
theorem pathAbspath_canonical (normalised : IsNormalised cwd) (path_valid : pathIsvalid path = true)
    (next_valid : pathIsvalid next = true) :
    pathAbspath cwd path = slash :: List.intercalate [slash] (reducedPath cwd path) ∧
      (∀ name ∈ reducedPath cwd path, IsProper name) ∧
      ((pathAbspath cwd path).getLast? = some slash → reducedPath cwd path = []) ∧
      pathNormpath (pathAbspath cwd path) = pathAbspath cwd path ∧
      pathAbspath (pathAbspath cwd path) next = pathAbspath cwd (pathJoin2 path next) := by
  have is_abs := normalised.isAbs
  have proper := reducedPath_proper is_abs path_valid
  refine ⟨?_, proper, ?_, pathNormpath_pathAbspath is_abs path_valid,
    pathAbspath_pathAbspath is_abs path_valid next_valid⟩
  · rw [pathAbspath_eq is_abs path_valid, pathText_eq]
  · intro ends
    by_contra nonempty
    rw [pathAbspath_eq is_abs path_valid] at ends
    exact getLast_pathText (fun name member => (proper name member).1) nonempty ends

/-- `b/../c/.` in `/a`, and then `..`. -/
theorem pathAbspath_canonical_up :
    pathAbspath (pathAbspath [slash, 97] [98, slash, dot, dot, slash, 99, slash, dot]) [dot, dot] =
      pathAbspath [slash, 97] (pathJoin2 [98, slash, dot, dot, slash, 99, slash, dot] [dot, dot]) :=
  (pathAbspath_canonical ⟨[[97]], by decide, rfl⟩ (by decide) (by decide)).2.2.2.2

end Pintos.Filesys
