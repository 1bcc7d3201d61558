import Pintos.Filesys.Tree

/-!
# `dir_get_leaf`

Where `dir_get_leaf` ends, for any string: at the directory to which all tokens lead, one directory
earlier if the string ends in a slash, or at the last directory reached if a token is not a
subdirectory.  Some of these ways leave inodes open.
-/

namespace Pintos.Filesys

open Tokens

namespace Fs

variable {fs start : Fs} {owner : Owner} {files dirs : Set Nat} {dir last tmp : Nat} {held : List (Nat × Ref)}
  {ref lastdir tmpdir : Ref} {name : CString}

/-- The directory that the loop of `dir_get_leaf` returns, and what it leaves open besides. -/
def leafOutcome (fs : Fs) (name : CString) : List CString → Nat → Nat → Option Nat × List Nat
  | [], last, tmp => (some (if name.getLast? = some slash then last else tmp), [])
  | token :: rest, _, tmp =>
    let stopped := fun leaked =>
      if token = name then (none, leaked ++ [tmp]) else (some tmp, leaked)
    match fs.child tmp token with
    | none => stopped []
    | some e =>
      if e.isDir then
        fs.leafOutcome name rest tmp e.inodeSector
      else
        stopped [e.inodeSector]

/-- A directory that has been found is open, and what is left open is known. -/
def Found (owner : Owner) (files dirs : Set Nat) (start : Fs) (held : List (Nat × Ref))
    (outcome : Option Nat × List Nat) (result : Fs × Option Ref) : Prop :=
  ∃ leaked : List (Nat × Ref), leaked.map Prod.fst = outcome.2 ∧
    match outcome.1, result.2 with
    | none, none => Visit owner files dirs start result.1 (leaked ++ held)
    | some dir, some ref =>
      dir ∈ dirs ∧ Visit owner files dirs start result.1 ((dir, ref) :: (leaked ++ held))
    | _, _ => False

theorem Visit.dirOpenAgain (visit : Visit owner files dirs start fs held) (is_dir : dir ∈ dirs)
    (holding : (dir, ref) ∈ held) : ∃ s' ref', fs.dirOpenAgain ref = some (s', ref') ∧
      Visit owner files dirs start s' ((dir, ref') :: held) := by
  have named := visit.tree.listed is_dir
  obtain ⟨view, opened, rfl⟩ := visit.refs _ holding
  obtain ⟨node, here⟩ := visit.tree.sound.present named opened
  rw [Fs.dirOpenAgain, here.listed.2, Option.bind_eq_bind, Option.bind_some, here.sector]
  exact visit.inodeOpen named

theorem Visit.dirChild (visit : Visit owner files dirs start fs held) (is_dir : dir ∈ dirs)
    (holding : (dir, ref) ∈ held) (valid : pathIsvalid name = true) :
    Returns (start.Compact dirs) (fs.dirChild ref name) fun res =>
      match start.child dir name with
      | none => res.2 = none ∧ Visit owner files dirs start res.1 held
      | some e => ∃ ref, Visit owner files dirs start res.1 ((e.inodeSector, ref) :: held) ∧
          (e.isDir = true → e.inodeSector ∈ dirs) ∧ res.2 = if e.isDir then some ref else none := by
  refine (visit.lookup is_dir holding name).bind ?_
  rintro _ rfl
  have found := @child_eq start dir name valid
  cases located : entryNamed (start.content dir) name with
  | none =>
    rw [located] at found
    rw [← found]
    exact .of_some ⟨rfl, visit⟩
  | some entry =>
    obtain ⟨e, ofs⟩ := entry
    rw [located, Option.map_some] at found
    rw [← found]
    have leads := visit.child is_dir found.symm
    obtain ⟨opened, ref', opens, visit'⟩ := visit.inodeOpen leads.2.1
    refine .step opens ?_
    exact .of_some ⟨ref', visit', leads.2.2.2, rfl⟩

theorem Visit.leafLoop {names : List CString}
    (visit : Visit owner files dirs start fs ((tmp, tmpdir) :: (last, lastdir) :: held))
    (last_dir : last ∈ dirs) (tmp_dir : tmp ∈ dirs)
    (valid : ∀ token ∈ names, pathIsvalid token = true) :
    Returns (start.Compact dirs) (Fs.leafLoop name names fs lastdir tmpdir)
      (Found owner files dirs start held (start.leafOutcome name names last tmp)) := by
  induction names generalizing fs last tmp lastdir tmpdir with
  | nil =>
    unfold Fs.leafLoop leafOutcome
    split
    · refine (visit.dirClose tmp_dir).map ?_
      intro s' visit
      exact ⟨[], rfl, last_dir, visit⟩
    · refine ((visit.perm (.swap _ _ _)).dirClose last_dir).map ?_
      intro s' visit
      exact ⟨[], rfl, tmp_dir, visit⟩
  | cons token rest ih =>
    have is_valid := valid token List.mem_cons_self
    refine ((visit.perm (.swap _ _ _)).dirClose last_dir).bind ?_
    intro closed visit
    obtain ⟨again, lastdir, opens, visit⟩ := visit.dirOpenAgain tmp_dir List.mem_cons_self
    refine .step opens ?_
    refine ((visit.perm (.swap _ _ _)).dirClose tmp_dir).bind ?_
    intro shut visit
    refine (visit.dirChild tmp_dir List.mem_cons_self is_valid).bind ?_
    rintro ⟨s', res⟩ out
    unfold leafOutcome
    cases found : start.child tmp token with
    | none =>
      rw [found] at out
      obtain ⟨rfl, visit⟩ := out
      refine .of_some ?_
      by_cases whole : token = name
      · simp only [if_pos whole]
        exact ⟨[(tmp, lastdir)], rfl, visit⟩
      · simp only [if_neg whole]
        exact ⟨[], rfl, tmp_dir, visit⟩
    | some e =>
      rw [found] at out
      obtain ⟨ref, visit, next_dir, rfl⟩ := out
      cases is_dir : e.isDir with
      | true =>
        simp only [is_dir, if_true] at visit ⊢
        exact ih visit tmp_dir (next_dir is_dir) fun token mem =>
          valid token (List.mem_cons_of_mem _ mem)
      | false =>
        simp only [is_dir, Bool.false_eq_true, if_false] at visit ⊢
        refine .of_some ?_
        by_cases whole : token = name
        · simp only [if_pos whole]
          exact ⟨[(e.inodeSector, ref), (tmp, lastdir)], rfl, visit⟩
        · simp only [if_neg whole]
          exact ⟨[(e.inodeSector, ref)], rfl, tmp_dir, visit.perm (.swap _ _ _)⟩

/-- The directory that `dir_get_leaf` returns, and what it leaves open besides. -/
def leafOf (fs : Fs) (name : CString) : Option Nat × List Nat :=
  if pathIsvalid name then
    fs.leafOutcome name (tokens slash name) rootDirSector rootDirSector
  else
    (none, [])

/-- `dir_get_leaf` returns unless the string is too long for its buffer. -/
theorem Visit.dirGetLeaf (visit : Visit owner files dirs start fs held) (name : CString) :
    Returns (start.Compact dirs ∧ name.length < pathMax) (fs.dirGetLeaf name)
      (Found owner files dirs start held (start.leafOf name)) := by
  have root := visit.tree.root
  obtain ⟨fst, tmpdir, opens, visit'⟩ := visit.inodeOpen (visit.tree.listed root)
  unfold Fs.dirGetLeaf leafOf
  cases is_valid : pathIsvalid name with
  | false => exact .of_some ⟨[], rfl, visit⟩
  | true =>
    simp only [Bool.not_true, Bool.false_eq_true, if_false, if_true]
    split
    · next is_root =>
        subst is_root
        rw [dirOpenRoot, opens]
        exact .of_some ⟨[], rfl, root, visit'⟩
    split
    · next long => exact .of_none fun holds => by omega
    · obtain ⟨snd, lastdir, again, visit''⟩ := visit'.dirOpenAgain root List.mem_cons_self
      refine .step opens ?_
      refine .step again ?_
      have runs := @Visit.leafLoop snd start owner files dirs rootDirSector rootDirSector held
        lastdir tmpdir name _ (visit''.perm (.swap _ _ _)) root root fun token mem =>
          (isComponent_of_mem is_valid mem).valid
      exact runs.strengthen And.left

end Fs

end Pintos.Filesys
