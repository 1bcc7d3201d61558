import Pintos.Lib.Tokens

/-!
# Path names

The functions of `path.c` that work on the text of a path.  A C string is the list of its bytes before
the null byte, `malloc` succeeds, and the working directory of the running thread is an argument.  On
valid paths the functions compute with lists of components.
-/

namespace Pintos.Filesys

open Tokens List

/-- A null terminated string. -/
abbrev CString := List UInt8

abbrev slash : UInt8 := 47

abbrev dot : UInt8 := 46

/-- The test on one character in `path_isvalid`. -/
def validChar (c : UInt8) : Bool :=
  c == 45 || c == 46 || c == 47 || (48 ≤ c && c ≤ 57) || (65 ≤ c && c ≤ 90) || c == 95 ||
    (97 ≤ c && c ≤ 122)

def pathIsvalid (path : CString) : Bool := path ≠ [] && path.all validChar

def pathIsabs (path : CString) : Bool := pathIsvalid path && path.head? == some slash

def pathIsroot (path : CString) : Bool := pathIsvalid path && path == [slash]

def pathIsdot (path : CString) : Bool := pathIsvalid path && path == [dot]

def pathIsdotdot (path : CString) : Bool := pathIsvalid path && path == [dot, dot]

/-- `path_join2`, on paths that are not null. -/
def pathJoin2 (path1 path2 : CString) : CString :=
  if pathIsabs path2 then
    path2
  else if path1.getLast? = some slash then
    path1 ++ path2
  else
    path1 ++ slash :: path2

/-- What `path_normpath`, `path_dirname` and `path_basename` return if they have collected nothing. -/
def rootOrDot (path : CString) : CString := if pathIsabs path then [slash] else [dot]

/-- How `path_normpath` and `path_dirname` add a token to what they have collected. -/
def addToken (path : CString) (ret : Option CString) (token : CString) : CString :=
  match ret with
  | none => if pathIsabs path then pathJoin2 [slash] token else token
  | some ret => pathJoin2 ret token

/-- `path_dirname`: the loop is one token behind. -/
def pathDirname (path : CString) : CString :=
  let step := fun (state : Option CString × Option CString) sentry =>
    (match state.2 with
      | none => state.1
      | some token => some (addToken path state.1 token),
    some sentry)
  ((tokens slash path).foldl step (none, none)).1.getD (rootOrDot path)

def pathBasename (path : CString) : CString :=
  ((tokens slash path).foldl (fun _ token => some token) none).getD (rootOrDot path)

/-- One round of the loop of `path_normpath`. -/
def normStep (path : CString) (ret : Option CString) (token : CString) : Option CString :=
  if pathIsdotdot token then
    match ret with
    | some ret => some (pathDirname ret)
    | none => some (if pathIsabs path then [slash] else token)
  else if pathIsdot token then
    ret
  else
    some (addToken path ret token)

def pathNormpath (path : CString) : CString :=
  ((tokens slash path).foldl (normStep path) none).getD (rootOrDot path)

def pathAbspath (cwd path : CString) : CString := pathNormpath (pathJoin2 cwd path)

/-! ## Components -/

/-- A valid character sequence that can stand between two slashes. -/
def IsComponent (name : CString) : Prop :=
  IsToken slash name ∧ name.all validChar

instance (name : CString) : Decidable (IsComponent name) := inferInstanceAs (Decidable (_ ∧ _))

/-- Follow the special components and drop them. -/
def reduceStep (reduced : List CString) (name : CString) : List CString :=
  if name = [dot, dot] then
    reduced.dropLast
  else if name = [dot] then
    reduced
  else
    reduced ++ [name]

/-- The components of a path, from the root, without `.` and `..`. -/
def reducedPath (cwd path : CString) : List CString :=
  (if path.head? = some slash then
    tokens slash path
  else
    tokens slash cwd ++ tokens slash path).foldl reduceStep []

/-- The path with these components. -/
def pathText : List CString → CString
  | [] => [slash]
  | first :: rest => render slash (first :: rest)

variable {path cwd name : CString} {ret : Option CString} {names : List CString}

theorem pathIsvalid_iff : pathIsvalid path = true ↔ path ≠ [] ∧ ∀ c ∈ path, validChar c = true := by
  simp [pathIsvalid]

theorem pathIsabs_iff : pathIsabs path = true ↔ pathIsvalid path = true ∧ path.head? = some slash := by
  simp [pathIsabs]

theorem IsComponent.valid (is_component : IsComponent name) : pathIsvalid name = true :=
  pathIsvalid_iff.mpr ⟨is_component.1.1, by simpa using is_component.2⟩

theorem IsComponent.not_abs (is_component : IsComponent name) : pathIsabs name = false := by
  rw [Bool.eq_false_iff]
  intro is_abs
  exact is_component.1.2 (mem_of_head? (pathIsabs_iff.mp is_abs).2)

theorem isComponent_of_mem (valid : pathIsvalid path = true) (mem : name ∈ tokens slash path) :
    IsComponent name := by
  refine ⟨isToken_of_mem mem, ?_⟩
  rw [all_eq_true]
  intro c inside
  exact (pathIsvalid_iff.mp valid).2 c (subset_of_mem mem inside)

section Text

variable (components : ∀ name ∈ names, IsComponent name)

include components

theorem tokens_pathText : tokens slash (pathText names) = names := by
  cases names with
  | nil => rfl
  | cons fst rest => exact tokens_render fun name mem => (components name mem).1

theorem pathIsabs_pathText : pathIsabs (pathText names) = true := by
  cases names with
  | nil => rfl
  | cons fst rest =>
    refine pathIsabs_iff.mpr ⟨pathIsvalid_iff.mpr ⟨by simp [pathText, render], ?_⟩, rfl⟩
    intro c inside
    obtain ⟨name, mem, inside⟩ := mem_flatMap.mp inside
    rcases mem_cons.mp inside with rfl | inside
    · rfl
    · exact all_eq_true.mp (components name mem).2 c inside

end Text

/-- The last character of a path is not a slash, unless it is the root. -/
theorem getLast_pathText (parts : ∀ name ∈ names, IsComponent name) (ne_nil : names ≠ []) :
    (pathText names).getLast? ≠ some slash := by
  obtain ⟨front, last, rfl⟩ := eq_nil_or_concat names |>.resolve_left ne_nil
  rw [concat_eq_append] at parts ⊢
  have is_component := parts last (by simp)
  have split : pathText (front ++ [last]) = render slash front ++ slash :: last := by
    cases front <;> simp [pathText, render]
  intro ends
  rw [split, getLast?_append, getLast?_cons] at ends
  cases tail : last.getLast? with
  | none => exact is_component.1.1 (getLast?_eq_none_iff.mp tail)
  | some final =>
    rw [tail] at ends
    obtain rfl : final = slash := by simpa using ends
    exact is_component.1.2 (mem_of_getLast? tail)

theorem pathJoin2_pathText (parts : ∀ name ∈ names, IsComponent name)
    (is_component : IsComponent name) :
    pathJoin2 (pathText names) name = pathText (names ++ [name]) := by
  rw [pathJoin2, if_neg (by simp [is_component.not_abs])]
  by_cases ne_nil : names = []
  · subst ne_nil
    simp [pathText, render]
  · rw [if_neg (getLast_pathText parts ne_nil)]
    cases names with
    | nil => exact (ne_nil rfl).elim
    | cons fst rest => simp [pathText, render]

/-- What a loop over an absolute path has collected; nothing is the root as well. -/
def Collects (ret : Option CString) (names : List CString) : Prop :=
  (∀ name ∈ names, IsComponent name) ∧ (ret = none ∧ names = [] ∨ ret = some (pathText names))

theorem Collects.addToken (adds : Collects ret names) (is_abs : pathIsabs path = true)
    (is_component : IsComponent name) :
    Collects (some (addToken path ret name)) (names ++ [name]) := by
  refine ⟨?_, .inr (congrArg some ?_)⟩
  · intro o mem
    rcases mem_append.mp mem with prev | last
    · exact adds.1 o prev
    · rw [mem_singleton.mp last]
      exact is_component
  rcases adds.2 with ⟨rfl, rfl⟩ | rfl
  · rw [Filesys.addToken, if_pos is_abs]
    exact pathJoin2_pathText adds.1 is_component
  · exact pathJoin2_pathText adds.1 is_component

theorem Collects.getD (adds : Collects ret names) (is_abs : pathIsabs path = true) :
    ret.getD (rootOrDot path) = pathText names := by
  rcases adds.2 with ⟨rfl, rfl⟩ | rfl
  · simp [rootOrDot, is_abs, pathText]
  · rfl

/-- The loop of `path_dirname` adds all tokens but the last one. -/
theorem pathDirname_collects {adds : Option CString → List CString → Prop}
    (start : adds none []) (push : ∀ ret front token, token ∈ tokens slash path →
      adds ret front → adds (some (addToken path ret token)) (front ++ [token])) :
    ∃ ret, pathDirname path = ret.getD (rootOrDot path) ∧
      adds ret (tokens slash path).dropLast := by
  suffices behind : ∀ front, front <+: tokens slash path → ∃ ret,
      front.foldl (fun (state : Option CString × Option CString) sentry =>
        (match state.2 with
          | none => state.1
          | some token => some (addToken path state.1 token),
        some sentry)) (none, none) = (ret, front.getLast?) ∧ adds ret front.dropLast by
    obtain ⟨ret, runs, collected⟩ := behind _ prefix_rfl
    exact ⟨ret, by rw [pathDirname, runs], collected⟩
  intro front
  induction front using reverseRecOn with
  | nil => exact fun _ => ⟨none, rfl, start⟩
  | append_singleton front last ih =>
    intro is_front
    obtain ⟨ret, runs, collected⟩ := ih ((prefix_append front [last]).trans is_front)
    rw [foldl_append, runs, foldl_cons, foldl_nil, getLast?_concat, dropLast_concat]
    cases final : front.getLast? with
    | none =>
      obtain rfl := getLast?_eq_none_iff.mp final
      exact ⟨ret, rfl, collected⟩
    | some token =>
      refine ⟨_, rfl, ?_⟩
      have mem := is_front.subset (mem_append_left _ (mem_of_getLast? final))
      obtain ⟨prev, rfl⟩ := getLast?_eq_some_iff.mp final
      rw [dropLast_concat] at collected
      exact push ret prev token mem collected

theorem pathDirname_pathText (parts : ∀ name ∈ names, IsComponent name) :
    pathDirname (pathText names) = pathText names.dropLast := by
  have is_abs := pathIsabs_pathText parts
  have valid := (pathIsabs_iff.mp is_abs).1
  obtain ⟨ret, gives, adds⟩ := @pathDirname_collects (pathText names) Collects
    ⟨by simp, .inl ⟨rfl, rfl⟩⟩ fun _ _ _ mem adds =>
      adds.addToken is_abs (isComponent_of_mem valid mem)
  rw [tokens_pathText parts] at adds
  rw [gives]
  exact adds.getD is_abs

theorem pathBasename_pathText (parts : ∀ name ∈ names, IsComponent name) :
    pathBasename (pathText names) = names.getLast?.getD [slash] := by
  have last : ∀ fst, names.foldl (fun _ token => some token) fst = names.getLast?.or fst := by
    induction names using reverseRecOn with
    | nil => simp
    | append_singleton front last ih => simp
  rw [pathBasename, tokens_pathText parts, last, rootOrDot, pathIsabs_pathText parts]
  simp

theorem Collects.normStep (adds : Collects ret names) (is_abs : pathIsabs path = true)
    (is_component : IsComponent name) :
    Collects (normStep path ret name) (reduceStep names name) := by
  unfold Filesys.normStep reduceStep pathIsdotdot pathIsdot
  rw [is_component.valid]
  by_cases up : name = [dot, dot]
  · rw [if_pos up, if_pos (by simp [up])]
    refine ⟨fun o mem => adds.1 o (dropLast_subset _ mem), .inr ?_⟩
    rcases adds.2 with ⟨rfl, rfl⟩ | rfl
    · simp [is_abs, pathText]
    · exact congrArg some (pathDirname_pathText adds.1)
  rw [if_neg up, if_neg (by simpa using up)]
  by_cases here : name = [dot]
  · rw [if_pos here, if_pos (by simp [here])]
    exact adds
  · rw [if_neg here, if_neg (by simpa using here)]
    exact adds.addToken is_abs is_component

theorem pathNormpath_eq (is_abs : pathIsabs path = true) :
    pathNormpath path = pathText ((tokens slash path).foldl reduceStep []) ∧
      ∀ name ∈ (tokens slash path).foldl reduceStep [], IsComponent name := by
  have valid := (pathIsabs_iff.mp is_abs).1
  suffices collects : ∀ names : List CString, (∀ name ∈ names, IsComponent name) →
      Collects (names.foldl (normStep path) none) (names.foldl reduceStep []) by
    have all := collects (tokens slash path) fun name => isComponent_of_mem valid
    exact ⟨all.getD is_abs, all.1⟩
  intro names parts
  induction names using reverseRecOn with
  | nil => exact ⟨by simp, .inl ⟨rfl, rfl⟩⟩
  | append_singleton front last ih =>
    rw [foldl_append, foldl_append]
    exact (ih fun name mem => parts name (mem_append_left _ mem)).normStep
      is_abs (parts last (by simp))

section Absolute

variable (is_abs : pathIsabs cwd = true) (is_valid : pathIsvalid path = true)

include is_abs is_valid

theorem pathJoin2_spec : pathIsabs (pathJoin2 cwd path) = true ∧
      (tokens slash (pathJoin2 cwd path)).foldl reduceStep [] = reducedPath cwd path := by
  obtain ⟨cwd_valid, starts⟩ := pathIsabs_iff.mp is_abs
  rw [pathIsvalid_iff] at cwd_valid
  rw [pathJoin2, reducedPath]
  have fst : pathIsabs path = true ↔ path.head? = some slash := by simp [pathIsabs, is_valid]
  by_cases abs : pathIsabs path = true
  · rw [if_pos abs, if_pos (fst.mp abs)]
    exact ⟨abs, rfl⟩
  rw [if_neg abs, if_neg (fst.not.mp abs)]
  split
  · next ends =>
      obtain ⟨front, rfl⟩ := getLast?_eq_some_iff.mp ends
      refine ⟨pathIsabs_iff.mpr ⟨pathIsvalid_iff.mpr ⟨by simp, ?_⟩, ?_⟩, ?_⟩
      · intro c inside
        exact (mem_append.mp inside).elim (cwd_valid.2 c) ((pathIsvalid_iff.mp is_valid).2 c)
      · rw [head?_append, starts]
        rfl
      · rw [append_assoc, singleton_append, tokens_append_cons, tokens_append_cons,
          tokens_nil, append_nil]
  · refine ⟨pathIsabs_iff.mpr ⟨pathIsvalid_iff.mpr ⟨by simp, ?_⟩, ?_⟩, ?_⟩
    · intro c inside
      rcases mem_append.mp inside with inside | inside
      · exact cwd_valid.2 c inside
      · rcases mem_cons.mp inside with rfl | inside
        · rfl
        · exact (pathIsvalid_iff.mp is_valid).2 c inside
    · rw [head?_append, starts]
      rfl
    · rw [tokens_append_cons]

theorem isComponent_of_reducedPath (mem : name ∈ reducedPath cwd path) : IsComponent name := by
  obtain ⟨joined, same⟩ := pathJoin2_spec is_abs is_valid
  rw [← same] at mem
  exact (pathNormpath_eq joined).2 name mem

theorem pathAbspath_eq : pathAbspath cwd path = pathText (reducedPath cwd path) := by
  obtain ⟨joined, same⟩ := pathJoin2_spec is_abs is_valid
  rw [pathAbspath, (pathNormpath_eq joined).1, same]

theorem pathIsabs_pathAbspath : pathIsabs (pathAbspath cwd path) = true := by
  rw [pathAbspath_eq is_abs is_valid]
  exact pathIsabs_pathText fun _ mem => isComponent_of_reducedPath is_abs is_valid mem

end Absolute

theorem pathIsabs_take {size : Nat} (is_abs : pathIsabs path = true) (pos : 0 < size) :
    pathIsabs (path.take size) = true := by
  obtain ⟨valid, starts⟩ := pathIsabs_iff.mp is_abs
  obtain ⟨rest, rfl⟩ := head?_eq_some_iff.mp starts
  obtain ⟨size, rfl⟩ := Nat.exists_eq_succ_of_ne_zero (Nat.ne_of_gt pos)
  rw [pathIsabs_iff, pathIsvalid_iff]
  refine ⟨⟨by simp, ?_⟩, rfl⟩
  intro c inside
  exact (pathIsvalid_iff.mp valid).2 c (mem_of_mem_take inside)

end Pintos.Filesys
