import Mathlib.Data.List.DropRight
import Mathlib.Data.List.Infix
import Pintos.Filesys.Canonical

/-!
# Laws of path names

Splitting an absolute path and joining the parts again tidies its slashes.  On relative paths
`path_normpath` leaves a `.` behind as soon as a `..` has cancelled everything before it.
-/

namespace Pintos.Filesys

open Tokens List

variable {path name : CString} {ret : Option CString} {ns : List CString}

/-! ## Splitting and joining -/

/-- Of consecutive slashes only the last one stays. -/
def collapseSlashes : CString → CString
  | [] => []
  | c :: rest =>
    if c = slash ∧ rest.head? = some slash then collapseSlashes rest else c :: collapseSlashes rest

/-- The path with repeated slashes collapsed and trailing slashes removed. -/
def tidySlashes (path : CString) : CString :=
  match (collapseSlashes path).rdropWhile (· == slash) with
  | [] => [slash]
  | text => text

theorem collapseSlashes_append {word : CString} (absent : slash ∉ word) (rest : CString) :
    collapseSlashes (word ++ rest) = word ++ collapseSlashes rest := by
  induction word with
  | nil => rfl
  | cons c word ih =>
    rw [mem_cons, not_or] at absent
    rw [cons_append, collapseSlashes, if_neg fun both => absent.1 both.1.symm,
      ih absent.2, cons_append]

section Word

variable {word : CString} (is_token : IsToken slash word)
include is_token

theorem collapseSlashes_word (rest : CString) :
    collapseSlashes (slash :: (word ++ rest)) = slash :: word ++ collapseSlashes rest := by
  obtain ⟨c, word, rfl⟩ := exists_cons_of_ne_nil is_token.1
  have absent := is_token.2
  rw [mem_cons, not_or] at absent
  have ne : ¬ (slash = slash ∧ (c :: word ++ rest).head? = some slash) :=
    fun both => absent.1 (Option.some.inj both.2).symm
  rw [collapseSlashes, if_neg ne, collapseSlashes_append is_token.2]
  rfl

theorem rdropWhile_word (rest : CString) : (slash :: word ++ rest).rdropWhile (· == slash) =
      slash :: word ++ rest.rdropWhile (· == slash) := by
  induction rest using reverseRecOn with
  | nil =>
    obtain ⟨front, last, rfl⟩ := eq_nil_or_concat word |>.resolve_left is_token.1
    rw [concat_eq_append] at is_token ⊢
    rw [append_nil, rdropWhile_nil, append_nil, ← cons_append]
    refine rdropWhile_concat_neg _ _ _ ?_
    intro is_slash
    obtain rfl : last = slash := by simpa using is_slash
    exact is_token.2 (by simp)
  | append_singleton rest last ih =>
    rw [← append_assoc, rdropWhile_concat, rdropWhile_concat, ih]
    split
    · rfl
    · rw [append_assoc]

end Word

/-- Without its superfluous slashes a text after a slash is the sequence of its tokens. -/
theorem rdropWhile_collapseSlashes {word : CString} (absent : slash ∉ word) (text : CString) :
    (collapseSlashes (slash :: (word ++ text))).rdropWhile (· == slash) =
      render slash (tokens slash (word ++ text)) := by
  induction text generalizing word with
  | nil =>
    by_cases ne_nil : word = []
    · subst ne_nil
      rfl
    · have is_token : IsToken slash word := ⟨ne_nil, absent⟩
      rw [collapseSlashes_word is_token, rdropWhile_word is_token, append_nil,
        tokens_of_isToken is_token]
      simp [collapseSlashes, render]
  | cons c text ih =>
    have again : (collapseSlashes (slash :: text)).rdropWhile (· == slash) =
        render slash (tokens slash text) := @ih [] (by simp)
    by_cases is_slash : c = slash
    · subst is_slash
      by_cases ne_nil : word = []
      · subst ne_nil
        rw [nil_append, collapseSlashes, if_pos ⟨rfl, rfl⟩, tokens_cons_self, again]
      · have is_token : IsToken slash word := ⟨ne_nil, absent⟩
        rw [collapseSlashes_word is_token, rdropWhile_word is_token, tokens_append_cons,
          tokens_of_isToken is_token, again]
        rfl
    · have more : slash ∉ word ++ [c] := by
        rw [mem_append, not_or, mem_singleton]
        exact ⟨absent, fun same => is_slash same.symm⟩
      simpa using ih more

theorem tidySlashes_eq (is_abs : pathIsabs path = true) :
    tidySlashes path = pathText (tokens slash path) := by
  obtain ⟨text, rfl⟩ := head?_eq_some_iff.mp (pathIsabs_iff.mp is_abs).2
  have tidied := @rdropWhile_collapseSlashes [] (by simp) text
  rw [nil_append] at tidied
  rw [tidySlashes, tidied, tokens_cons_self]
  cases tokens slash text with
  | nil => rfl
  | cons fst rest => rfl

/-- Both functions read of a path only its tokens and whether it is absolute. -/
theorem dirname_basename_eq (is_abs : pathIsabs path = true) :
    pathDirname path = pathText (tokens slash path).dropLast ∧
      pathBasename path = (tokens slash path).getLast?.getD [slash] := by
  have parts : ∀ name ∈ tokens slash path, IsComponent name :=
    fun name => isComponent_of_mem (pathIsabs_iff.mp is_abs).1
  rw [← pathDirname_pathText parts, ← pathBasename_pathText parts]
  unfold pathDirname pathBasename rootOrDot addToken
  rw [is_abs, pathIsabs_pathText parts, tokens_pathText parts]
  exact ⟨rfl, rfl⟩

/-- Joining the two parts of an absolute path gives the path with its slashes tidied. -/
theorem pathJoin2_dirname_basename (is_abs : pathIsabs path = true) :
    pathJoin2 (pathDirname path) (pathBasename path) = tidySlashes path := by
  obtain ⟨dirname, basename⟩ := dirname_basename_eq is_abs
  rw [tidySlashes_eq is_abs, dirname, basename]
  have parts : ∀ name ∈ tokens slash path, IsComponent name :=
    fun name => isComponent_of_mem (pathIsabs_iff.mp is_abs).1
  rcases List.eq_nil_or_concat (tokens slash path) with empty | ⟨front, last, split⟩
  · rw [empty]
    rfl
  · rw [split, List.concat_eq_append] at parts ⊢
    rw [List.dropLast_concat, List.getLast?_concat]
    exact pathJoin2_pathText (fun name member => parts name (List.mem_append_left _ member))
      (parts last (by simp))

/-- `//a///b/` is split and joined to `/a/b`. -/
theorem pathJoin2_dirname_basename_slashes :
    pathJoin2 (pathDirname [47, 47, 97, 47, 47, 47, 98, 47])
      (pathBasename [47, 47, 97, 47, 47, 47, 98, 47]) = [47, 97, 47, 98] :=
  pathJoin2_dirname_basename (by decide)

/-! ## Relative paths -/

/-- The components of a relative path with slashes between them. -/
def joined (ns : List CString) : CString := List.intercalate [slash] ns

/-- Every `..` comes after a component that it can cancel. -/
def Cancels (ns : List CString) : Prop :=
  ∀ front ∈ ns.inits, front ++ [[dot, dot]] ∈ ns.inits → front.foldl reduceStep [] ≠ []

instance (ns : List CString) : Decidable (Cancels ns) := by
  unfold Cancels
  infer_instance

/-- Some `..` cancels all that is left of the components before it. -/
def Emptied (ns : List CString) : Prop :=
  ∃ front ∈ ns.inits, front ++ [[dot, dot]] ∈ ns.inits ∧
    (front ++ [[dot, dot]]).foldl reduceStep [] = []

instance (ns : List CString) : Decidable (Emptied ns) := by
  unfold Emptied
  infer_instance

/-- `path_normpath` returns the components that remain, joined, and does not change them again. -/
def NormalisesRelative (path : CString) : Prop :=
  let remaining := (tokens slash path).foldl reduceStep []
  pathNormpath path = (if remaining = [] then [dot] else joined remaining) ∧
    (∀ name ∈ remaining, IsProper name) ∧
    pathNormpath (pathNormpath path) = pathNormpath path

theorem pathText_eq_joined (ns : List CString) : pathText ns = slash :: joined ns := pathText_eq ns

/-- What a loop over a relative path has collected. -/
def Gathers (ret : Option CString) (ns : List CString) : Prop :=
  (∀ name ∈ ns, IsComponent name) ∧
    (ret = none ∧ ns = [] ∨ ret = some (joined ns) ∧ ns ≠ [])

theorem tokens_joined (parts : ∀ name ∈ ns, IsComponent name) : tokens slash (joined ns) = ns := by
  rw [← tokens_cons_self, ← pathText_eq_joined, tokens_pathText parts]

section Joined

variable (components : ∀ name ∈ ns, IsComponent name) (nonempty : ns ≠ [])
include components nonempty

theorem joined_ne_nil : joined ns ≠ [] := by
  intro empty
  have same := tokens_joined components
  rw [empty] at same
  exact nonempty same.symm

theorem pathIsabs_joined : pathIsabs (joined ns) = false := by
  obtain ⟨fst, rest, rfl⟩ := exists_cons_of_ne_nil nonempty
  have is_component := components fst mem_cons_self
  rw [Bool.eq_false_iff]
  intro is_abs
  have starts := (pathIsabs_iff.mp is_abs).2
  obtain ⟨c, word, rfl⟩ := exists_cons_of_ne_nil is_component.1.1
  have head : (joined ((c :: word) :: rest)).head? = some c := by
    cases rest <;> simp [joined, intercalate_cons_cons]
  rw [head] at starts
  exact is_component.1.2 (by simp [Option.some.inj starts])

theorem pathJoin2_joined (is_component : IsComponent name) :
    pathJoin2 (joined ns) name = joined (ns ++ [name]) := by
  have abs := pathJoin2_pathText components is_component
  have last : (slash :: joined ns).getLast? = (joined ns).getLast? := by
    obtain ⟨c, text, same⟩ := exists_cons_of_ne_nil (joined_ne_nil components nonempty)
    rw [same, getLast?_cons_cons]
  rw [pathText_eq_joined, pathText_eq_joined, pathJoin2, if_neg (by simp [is_component.not_abs]),
    last] at abs
  rw [pathJoin2, if_neg (by simp [is_component.not_abs])]
  by_cases ends : (joined ns).getLast? = some slash
  · rw [if_pos ends] at abs ⊢
    exact (cons.inj abs).2
  · rw [if_neg ends] at abs ⊢
    exact (cons.inj abs).2

end Joined

theorem Gathers.addToken (gathers : Gathers ret ns) (rel : pathIsabs path = false)
    (is_component : IsComponent name) :
    Gathers (some (addToken path ret name)) (ns ++ [name]) := by
  refine ⟨?_, .inr ⟨congrArg some ?_, by simp⟩⟩
  · intro o mem
    rcases mem_append.mp mem with prev | last
    · exact gathers.1 o prev
    · rw [mem_singleton.mp last]
      exact is_component
  rcases gathers.2 with ⟨rfl, rfl⟩ | ⟨rfl, ne_nil⟩
  · simp [Filesys.addToken, rel, joined]
  · exact pathJoin2_joined gathers.1 ne_nil is_component

theorem pathDirname_joined (parts : ∀ name ∈ ns, IsComponent name) (ne_nil : ns ≠ []) :
    pathDirname (joined ns) = if ns.dropLast = [] then [dot] else joined ns.dropLast := by
  have rel := pathIsabs_joined parts ne_nil
  have same := tokens_joined parts
  obtain ⟨ret, gives, gathers⟩ := @pathDirname_collects (joined ns) Gathers
    ⟨by simp, .inl ⟨rfl, rfl⟩⟩ fun _ _ _ mem gathers =>
      gathers.addToken rel (parts _ (same ▸ mem))
  rw [same] at gathers
  rw [gives]
  rcases gathers.2 with ⟨rfl, empty⟩ | ⟨rfl, several⟩
  · simp [rootOrDot, rel, empty]
  · simp [several]

/-- What `path_normpath` does to the components it has collected of a relative path. -/
def gatherStep (gathered : List CString) (name : CString) : List CString :=
  if name = [dot, dot] then
    if gathered = [] then [name] else if gathered.dropLast = [] then [[dot]] else gathered.dropLast
  else if name = [dot] then
    gathered
  else
    gathered ++ [name]

theorem Gathers.normStep (gathers : Gathers ret ns) (rel : pathIsabs path = false)
    (is_component : IsComponent name) :
    Gathers (normStep path ret name) (gatherStep ns name) := by
  unfold Filesys.normStep gatherStep pathIsdotdot pathIsdot
  rw [is_component.valid]
  by_cases up : name = [dot, dot]
  · rw [if_pos up, if_pos (by simp [up])]
    rcases gathers.2 with ⟨rfl, rfl⟩ | ⟨rfl, ne_nil⟩
    · simp [Gathers, rel, joined, is_component]
    · rw [if_neg ne_nil]
      dsimp only
      rw [pathDirname_joined gathers.1 ne_nil]
      split
      · exact ⟨by decide, .inr ⟨by rfl, by simp⟩⟩
      · next several =>
          exact ⟨fun o mem => gathers.1 o (dropLast_subset _ mem), .inr ⟨rfl, several⟩⟩
  rw [if_neg up, if_neg (by simpa using up)]
  by_cases here : name = [dot]
  · rw [if_pos here, if_pos (by simp [here])]
    exact gathers
  · rw [if_neg here, if_neg (by simpa using here)]
    exact gathers.addToken rel is_component

theorem pathNormpath_relative (valid : pathIsvalid path = true) (rel : pathIsabs path = false) :
    (∀ name ∈ (tokens slash path).foldl gatherStep [], IsComponent name) ∧
      pathNormpath path = if (tokens slash path).foldl gatherStep [] = [] then [dot] else
        joined ((tokens slash path).foldl gatherStep []) := by
  suffices gathers : ∀ ns : List CString, (∀ name ∈ ns, IsComponent name) →
      Gathers (ns.foldl (normStep path) none) (ns.foldl gatherStep []) by
    obtain ⟨parts, collected⟩ := gathers (tokens slash path) fun _ => isComponent_of_mem valid
    refine ⟨parts, ?_⟩
    rw [pathNormpath, rootOrDot, rel]
    rcases collected with ⟨nothing, empty⟩ | ⟨collected, ne_nil⟩
    · rw [nothing, if_pos empty]
      rfl
    · rw [collected, if_neg ne_nil]
      rfl
  intro ns parts
  induction ns using reverseRecOn with
  | nil => exact ⟨by simp, .inl ⟨rfl, rfl⟩⟩
  | append_singleton front last ih =>
    rw [foldl_append, foldl_append]
    exact (ih fun name mem => parts name (mem_append_left _ mem)).normStep
      rel (parts last (by simp))

theorem Cancels.init {last : CString} (cancels : Cancels (ns ++ [last])) : Cancels ns := by
  intro front is_front follows
  rw [mem_inits] at is_front follows
  refine cancels front ?_ ?_ <;> rw [mem_inits]
  · exact is_front.trans (prefix_append _ _)
  · exact follows.trans (prefix_append _ _)

theorem emptied_concat {last : CString} : Emptied (ns ++ [last]) ↔
      Emptied ns ∨ last = [dot, dot] ∧ (ns ++ [last]).foldl reduceStep [] = [] := by
  unfold Emptied
  simp only [mem_inits]
  constructor
  · rintro ⟨front, is_front, follows, empty⟩
    rcases prefix_concat_iff.mp follows with whole | prev
    · obtain ⟨rfl, same⟩ := append_inj' whole rfl
      obtain rfl := (cons.inj same).1
      exact .inr ⟨rfl, empty⟩
    · exact .inl ⟨front, (prefix_append _ _).trans prev, prev, empty⟩
  · rintro (⟨front, is_front, follows, empty⟩ | ⟨rfl, empty⟩)
    · exact ⟨front, is_front.trans (prefix_append _ _), follows.trans (prefix_append _ _), empty⟩
    · exact ⟨ns, prefix_append _ _, prefix_rfl, empty⟩

/-- A `.` stands in front of the components that remain once a `..` has cancelled all of them. -/
theorem foldl_gatherStep (cancels : Cancels ns) :
    (¬ Emptied ns → ns.foldl gatherStep [] = ns.foldl reduceStep []) ∧
      (Emptied ns → ns.foldl gatherStep [] = [dot] :: ns.foldl reduceStep []) := by
  induction ns using reverseRecOn with
  | nil => exact ⟨fun _ => rfl, by simp [Emptied]⟩
  | append_singleton front last ih =>
    obtain ⟨fresh, emptied⟩ := ih cancels.init
    rw [emptied_concat, foldl_append, foldl_append, foldl_cons, foldl_nil, foldl_cons, foldl_nil]
    by_cases up : last = [dot, dot]
    · subst up
      have remains : front.foldl reduceStep [] ≠ [] := cancels front (by simp) (by simp)
      have reduces : ∀ ns, reduceStep ns [dot, dot] = ns.dropLast := fun _ => rfl
      rw [reduces, gatherStep, if_pos rfl]
      by_cases old : Emptied front
      · have kept : ([dot] :: front.foldl reduceStep []).dropLast =
            [dot] :: (front.foldl reduceStep []).dropLast := dropLast_cons_of_ne_nil remains
        rw [emptied old, if_neg (by simp), kept, if_neg (by simp)]
        exact ⟨fun never => (never (.inl old)).elim, fun _ => rfl⟩
      · rw [fresh old, if_neg remains]
        constructor
        · intro never
          exact if_neg fun empty => never (.inr ⟨rfl, empty⟩)
        · rintro (now | ⟨_, empty⟩)
          · exact (old now).elim
          · rw [if_pos empty, empty]
    · have same : ∀ gathered, gatherStep gathered last = reduceStep gathered last := by
        intro gathered
        rw [gatherStep, reduceStep, if_neg up, if_neg up]
      have under : reduceStep ([dot] :: front.foldl reduceStep []) last =
          [dot] :: reduceStep (front.foldl reduceStep []) last := by
        unfold reduceStep
        rw [if_neg up, if_neg up]
        split <;> rfl
      have unchanged : Emptied front ∨ last = [dot, dot] ∧
          reduceStep (front.foldl reduceStep []) last = [] ↔ Emptied front := by simp [up]
      rw [unchanged, same]
      constructor
      · intro never
        rw [fresh never]
      · intro old
        rw [emptied old, under]

theorem pathNormpath_joined (proper : ∀ name ∈ ns, IsProper name) (ne_nil : ns ≠ []) :
    pathNormpath (joined ns) = joined ns := by
  have parts : ∀ name ∈ ns, IsComponent name := fun name mem => (proper name mem).1
  have valid : pathIsvalid (joined ns) = true := by
    have abs := (pathIsabs_iff.mp (pathIsabs_pathText parts)).1
    rw [pathText_eq_joined, pathIsvalid_iff] at abs
    rw [pathIsvalid_iff]
    exact ⟨joined_ne_nil parts ne_nil, fun c mem => abs.2 c (mem_cons_of_mem _ mem)⟩
  have never : [dot, dot] ∉ ns := fun mem => (proper _ mem).2.2 rfl
  have no_front : ∀ front : List CString, front ++ [[dot, dot]] ∉ ns.inits := by
    intro front follows
    rw [mem_inits] at follows
    exact never (follows.subset (by simp))
  have gathered := (@foldl_gatherStep ns fun front _ follows => (no_front front follows).elim).1
    fun ⟨front, _, follows, _⟩ => no_front front follows
  rw [foldl_reduceStep_of_proper [] proper, nil_append] at gathered
  have normalised := (pathNormpath_relative valid (pathIsabs_joined parts ne_nil)).2
  rw [tokens_joined parts, gathered, if_neg ne_nil] at normalised
  exact normalised

/-- `path_normpath` returns what remains of a relative path, unless a `..` has cancelled all
components before it and others come later. -/
theorem normalisesRelative_iff (is_valid : pathIsvalid path = true)
    (relative : path.head? ≠ some slash) (cancels : Cancels (tokens slash path)) :
    NormalisesRelative path ↔
      (Emptied (tokens slash path) → (tokens slash path).foldl reduceStep [] = []) := by
  have not_abs : pathIsabs path = false := by simp [pathIsabs, relative]
  have proper := @foldl_reduceStep_proper (tokens slash path) [] (by simp)
    fun _ => isComponent_of_mem is_valid
  obtain ⟨parts, normalised⟩ := pathNormpath_relative is_valid not_abs
  obtain ⟨fresh, emptied⟩ := foldl_gatherStep cancels
  unfold NormalisesRelative
  generalize (tokens slash path).foldl reduceStep [] = remaining at *
  have again : pathNormpath (if remaining = [] then [dot] else joined remaining) =
      if remaining = [] then [dot] else joined remaining := by
    split
    · rfl
    · next nonempty => exact pathNormpath_joined proper nonempty
  constructor
  · rintro ⟨gives, -, -⟩ now
    by_contra nonempty
    rw [emptied now] at parts
    rw [normalised, emptied now, if_neg (by simp), if_neg nonempty] at gives
    have same := congrArg (tokens slash) gives
    rw [tokens_joined parts, tokens_joined fun name member => (proper name member).1] at same
    simpa using congrArg List.length same
  · intro ends
    have gives : pathNormpath path = if remaining = [] then [dot] else joined remaining := by
      by_cases now : Emptied (tokens slash path)
      · rw [normalised, emptied now, ends now]
        rfl
      · rw [normalised, fresh now]
    refine ⟨gives, proper, ?_⟩
    rw [gives]
    exact again

/-- `a/./b//../c` is normalised to `a/c`. -/
theorem normalisesRelative_parent :
    NormalisesRelative [97, slash, dot, slash, 98, slash, slash, dot, dot, slash, 99] :=
  (normalisesRelative_iff (by decide) (by decide) (by decide)).mpr (by decide)

/-- `path_normpath` makes `./b` of `a/../b`. -/
theorem normpath_keeps_dot : let path : CString := [97, slash, dot, dot, slash, 98]
    pathIsvalid path = true ∧ path.head? ≠ some slash ∧ Cancels (tokens slash path) ∧
      (tokens slash path).foldl reduceStep [] = [[98]] ∧ pathNormpath path = [dot, slash, 98] ∧
      pathNormpath (pathNormpath path) = [98] ∧ ¬ NormalisesRelative path := by
  refine ⟨by decide, by decide, by decide, by decide, by decide, by decide, ?_⟩
  rintro ⟨gives, -, -⟩
  exact absurd gives (by decide)

end Pintos.Filesys
