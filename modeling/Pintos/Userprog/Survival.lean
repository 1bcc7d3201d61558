import Pintos.Userprog.Pointers

/-!
# The kernel survives its system calls

A handler that returns, or that kills the calling process, leaves the kernel running.  Each handler has
its own condition on the arguments, on the handle and on the directories for that; outside of it an
`ASSERT` fails, a buffer of the kernel is overrun, or memory of the kernel is overwritten.
-/

namespace Pintos.Userprog

open Accesses Accesses.Program Filesys Tokens Option
open Vm (physBase)

variable {σ : Type} (vol : Volume σ)

/-! ## Directories -/

/-- The path fits into the buffer of `dir_get_leaf`, if it is copied there. -/
def LeafFits (name : CString) : Prop :=
  pathIsvalid name = true → name ≠ [slash] → name.length < pathMax

instance (name : CString) : Decidable (LeafFits name) := inferInstanceAs (Decidable (_ → _))

namespace Volume

variable {vol} {files : σ} {pwd name : CString} {m : Memory}

/-- What `dir_get_leaf` returns. -/
def leafOf (vol : Volume σ) (files : σ) (name : CString) : Option Nat :=
  if !pathIsvalid name then
    none
  else if name = [slash] then
    some rootDirSector
  else
    vol.leafLoop files name (tokens slash name) rootDirSector rootDirSector

theorem dirGetLeaf_eq : vol.dirGetLeaf files name =
      if LeafFits name then pure (vol.leafOf files name) else .stop .undefined := by
  unfold dirGetLeaf leafOf LeafFits
  by_cases valid : pathIsvalid name = true
  · by_cases root : name = [slash]
    · subst root
      rfl
    · by_cases long : pathMax ≤ name.length
      · simp [valid, root, long]
      · simp [valid, root, long]
  · simp [valid]

/-- The directory of an absolute path is never missing: no token is the whole path. -/
theorem leafLoop_isSome {names : List CString} {lastdir tmpdir : Nat}
    (proper : ∀ token ∈ names, token ≠ name) :
    (vol.leafLoop files name names lastdir tmpdir).isSome = true := by
  induction names generalizing lastdir tmpdir with
  | nil => rfl
  | cons token rest ih =>
    rw [leafLoop]
    split
    · exact ih fun o mem => proper o (List.mem_cons_of_mem _ mem)
    · rw [if_neg (proper token List.mem_cons_self)]
      rfl

theorem leafOf_isSome (abs : pathIsabs name = true) : (vol.leafOf files name).isSome = true := by
  obtain ⟨valid, starts⟩ := pathIsabs_iff.mp abs
  unfold leafOf
  simp only [valid, Bool.not_true, Bool.false_eq_true, if_false]
  split
  · rfl
  · refine leafLoop_isSome fun token mem same => ?_
    have rel := (isComponent_of_mem valid mem).not_abs
    rw [same, abs] at rel
    cases rel

/-! ## `filesys.c` -/

/-- `filesys_open` gets a name, and for the root its inode is open. -/
def OpenFits (vol : Volume σ) (files : σ) (pwd : CString) : Option CString → Prop
  | none => False
  | some name =>
    if pathIsroot name then
      vol.held files rootDirSector = true
    else
      LeafFits (pathDirname (pathAbspath pwd name))

/-- If a sector and the inode can be had, the directory of the new entry fits into the buffer. -/
def CreateFits (vol : Volume σ) (files : σ) (size : Int) (dirname : CString) : Prop :=
  ∀ sector rest, vol.allocate files = some (sector, rest) →
    (vol.inodeCreate rest sector size).1 = true → LeafFits dirname

/-- The path that `dir_remove` gets fits into its buffers, and has a component. -/
def RemoveFits (name : CString) : Prop := name.length < pathMax ∧ tokens slash name ≠ []

theorem allows_dirGetLeaf : Allows Killed (vol.dirGetLeaf files name) m ↔ LeafFits name := by
  rw [dirGetLeaf_eq]
  split
  · rename_i fits
    simp [fits]
  · rename_i long
    simp [long]

theorem allows_filesysOpen {path : Option CString} :
    Allows Killed (vol.filesysOpen files pwd path) m ↔ vol.OpenFits files pwd path := by
  cases path with
  | none => simp [filesysOpen, OpenFits]
  | some name =>
    rw [filesysOpen, OpenFits]
    split
    · split
      · rename_i held
        simp [held]
      · rename_i free
        simp [free]
    · rw [dirLookup, allows_bind_of_continues fun _ _ => allows_pure _, allows_dirGetLeaf]

theorem allows_insertEntry {isDir : Bool} {sec : Nat} :
    Allows Killed (vol.insertEntry files pwd name isDir sec) m ↔
      LeafFits (pathDirname (pathAbspath pwd name)) := by
  rw [insertEntry, allows_bind_of_continues, allows_dirGetLeaf]
  intro leaf m
  cases leaf with
  | none => exact allows_pure _
  | some dir =>
    dsimp only
    split
    · exact allows_pure _
    · exact allows_pure _

theorem allows_createIn {enter : σ → Nat → Kernel (Bool × σ)} {size : Int} {dirname : CString}
    (enters : ∀ files sec, Allows Killed (enter files sec) m ↔ LeafFits dirname) :
    Allows Killed (vol.createIn enter files size) m ↔ vol.CreateFits files size dirname := by
  unfold createIn CreateFits
  cases vol.allocate files with
  | none => simp
  | some taken =>
    obtain ⟨sec, rest⟩ := taken
    rw [allows_bind_of_continues fun _ _ => allows_pure _]
    simp only [some.injEq, Prod.mk.injEq, and_imp]
    split
    · rename_i made
      rw [enters]
      constructor
      · rintro fits _ _ rfl rfl _
        exact fits
      · intro fits
        exact fits sec rest rfl rfl made
    · rename_i failed
      refine iff_of_true (allows_pure _) ?_
      rintro _ _ rfl rfl made
      exact (failed made).elim

theorem allows_filesysCreate {size : Int} :
    Allows Killed (vol.filesysCreate files pwd name size) m ↔
      (name.length ≤ nameMax → vol.CreateFits files size (pathDirname (pathAbspath pwd name))) := by
  unfold filesysCreate
  split
  · rename_i long
    exact iff_of_true (allows_pure _) fun short => (Nat.not_le.mpr long short).elim
  · rename_i short
    have makes : Allows Killed (vol.createIn
        (fun files sec => vol.dirAdd files pwd name sec) files size) m ↔ _ :=
      allows_createIn fun _ _ => allows_insertEntry
    rw [makes]
    exact ⟨fun fits _ => fits, fun fits => fits (Nat.not_lt.mp short)⟩

theorem allows_filesysMkdir : Allows Killed (vol.filesysMkdir files pwd name) m ↔
      vol.CreateFits files blockSectorSize (pathDirname (pathAbspath pwd name)) := by
  refine allows_createIn fun files sec => ?_
  rw [dirCreate, allows_bind_of_continues fun _ _ => allows_pure _, allows_insertEntry]

theorem dirIsEmpty_eq (abs : pathIsabs pwd = true) (valid : pathIsvalid name = true) :
    vol.dirIsEmpty files pwd name = if LeafFits (pathAbspath pwd name) then
        pure ((vol.leafOf files (pathAbspath pwd name)).any (vol.isEmpty files))
      else
        .stop .undefined := by
  rw [dirIsEmpty, if_pos valid, dirGetLeaf_eq]
  split
  · have here : (vol.leafOf files (pathAbspath pwd name)).isSome = true :=
      leafOf_isSome (pathIsabs_pathAbspath abs valid)
    obtain ⟨dir, leads⟩ := isSome_iff_exists.mp here
    rw [leads]
    rfl
  · rfl

theorem allows_isPath_bind {α : Type} {k : Bool → Kernel α}
    (goes : name.length < pathMax → ∀ is_path, Allows Killed (k is_path) m) :
    Allows Killed (isPath name >>= k) m ↔ RemoveFits name := by
  unfold isPath RemoveFits
  split
  · rename_i long
    simp [Nat.not_lt.mpr long]
  · rename_i short
    cases tokens slash name with
    | nil => simp
    | cons token rest => simpa [Nat.not_le.mp short] using goes (Nat.not_le.mp short) _

theorem allows_removeTarget : Allows Killed (vol.removeTarget files name) m ↔ RemoveFits name := by
  refine allows_isPath_bind fun short is_path => ?_
  split
  · rw [allows_bind_of_continues fun _ _ => allows_pure _]
    split
    · exact allows_pure _
    · -- What stands before the last slash is shorter than the whole path.
      refine allows_dirGetLeaf.mpr fun _ _ => lt_of_le_of_lt ?_ short
      rw [List.length_reverse]
      calc _ ≤ (name.reverse.dropWhile (· ≠ slash)).length := by simp
        _ ≤ name.reverse.length := (List.dropWhile_sublist _).length_le
        _ = name.length := List.length_reverse
  · exact allows_pure _

theorem allows_dirRemove : Allows Killed (vol.dirRemove files name) m ↔ RemoveFits name := by
  rw [dirRemove, allows_bind_of_continues, allows_removeTarget]
  intro target m
  cases target with
  | none => exact allows_pure _
  | some target =>
    dsimp only
    cases vol.lookup files target.1 target.2 with
    | none => exact allows_pure _
    | some entry => exact allows_pure _

end Volume

/-! ## Files -/

variable {vol} {files : σ} {m : Memory} {c : Caller σ} {buf : Word} {α : Type}

theorem allows_writeChunks {inode : Nat} {chunks : List Nat} {buf : Nat} {ofs : Int} :
    Allows Killed (vol.writeChunks inode chunks files buf ofs) m := by
  induction chunks generalizing files buf ofs with
  | nil => exact allows_pure _
  | cons chunk rest ih =>
    rw [Volume.writeChunks, (answers_readBytes buf chunk).allows_bind_iff]
    intro bytes _
    rw [(answers_emitAll bytes).allows_bind_iff]
    intro _ _
    exact ih

theorem allows_fileWrite {file : File} {size : Int} :
    Allows Killed (vol.fileWrite files file buf size) m ↔
      (vol.isDir files file.inode = false → buf ≠ 0) := by
  unfold Volume.fileWrite
  split
  · rename_i is_dir
    simp [is_dir]
  · rename_i is_file
    split
    · rename_i null
      simp [null, is_file]
    · rename_i ne
      rw [allows_bind_of_continues fun _ _ => allows_pure _]
      exact iff_of_true allows_writeChunks fun _ => ne

theorem allows_fileRead {file : File} {size : Int} (ne : buf ≠ 0) :
    Allows Killed (vol.fileRead files file buf size) m ↔
      WritesBelow m buf.toNat (vol.read files file.inode file.pos size).length := by
  unfold Volume.fileRead
  rw [if_neg ne]
  dsimp only
  rw [allows_bind_of_continues fun _ _ => allows_pure _, survives_copyOut]

/-! ## Handlers -/

/-- The file of a descriptor. -/
def Caller.fileAt (c : Caller σ) (fd : Word) : Option File :=
  (c.getHandle fd.toInt).bind FileHandle.file

/-- The directory of a descriptor. -/
def Caller.dirAt (c : Caller σ) (fd : Word) : Option Dir :=
  (c.getHandle fd.toInt).bind FileHandle.dir

/-- The handle of a descriptor is that of a file or of a directory. -/
def HandleFits (fd : Word) (c : Caller σ) : Prop :=
  ∀ handle, c.getHandle fd.toInt = some handle → handle.file.isSome ∨ handle.dir.isSome

/-- What `sysremove_handler` needs: the directory fits into a buffer if it is looked at for entries, and
the path does if it is removed. -/
def RemoveCallFits (vol : Volume σ) (name : CString) (c : Caller σ) : Prop :=
  let abspath := pathAbspath c.pwd name
  let isdir := vol.pathIsdir c.files c.pwd name
  pathIsroot name = false → (isdir = true → LeafFits abspath) ∧
      ((isdir = true → (vol.leafOf c.files abspath).any (vol.isEmpty c.files)) →
        abspath ≠ c.pwd → Volume.RemoveFits name)

/-- What `sysread_handler` needs: it does not write beyond `PHYS_BASE`. -/
def ReadCallFits (vol : Volume σ) (m : Memory) (fd buf size : Word) (c : Caller σ) : Prop :=
  (fd.toInt = 0 → WritesBelow m buf.toNat 1) ∧
    (fd.toInt ≠ 0 → fd.toInt ≠ 1 → 0 < size.toInt → ∀ first, fetched m buf = some first →
      first ≠ -1 → ∀ file, c.fileAt fd = some file → WritesBelow m buf.toNat
          (vol.read c.files file.inode file.pos size.toInt).length)

/-- What a system call needs so that the kernel survives it. -/
def CallFits (vol : Volume σ) (m : Memory) (c : Caller σ) : SystemCall → Prop
  | .halt => False
  | .exec => Popping m c fun cmdline c =>
    ∀ text, textAt m cmdline = some (some text) →
      vol.OpenFits c.files c.pwd (firstToken (tmpfilename text))
  | .create => Popping m c fun filename c => Popping m c fun filesize c =>
    ∀ first, fetched m filename = some first → first ≠ -1 →
      ∀ name, textAt m filename = some (some name) → name ≠ [] → 0 ≤ filesize.toInt →
        name.length ≤ nameMax →
          vol.CreateFits c.files filesize.toInt (pathDirname (pathAbspath c.pwd name))
  | .remove => Popping m c fun filename c =>
    filename ≠ 0 ∧ ∀ name, textAt m filename = some (some name) → RemoveCallFits vol name c
  | .open => Popping m c fun path c =>
    ∀ name, textAt m path = some (some name) → name ≠ [] → vol.OpenFits c.files c.pwd (some name)
  | .filesize | .isdir | .inumber => Popping m c HandleFits
  | .read => Popping m c fun fd c => Popping m c fun buf c =>
    Popping m c fun size c => ReadCallFits vol m fd buf size c
  | .write => Popping m c fun fdnum c => Popping m c fun buf c =>
    Popping m c fun _ c =>
      1 < fdnum.toInt → ∀ file, c.fileAt fdnum = some file →
        vol.isDir c.files file.inode = false → buf ≠ 0
  | .seek => Popping m c fun fd c => Popping m c fun newpos c =>
    ∀ file, c.fileAt fd = some file → 0 ≤ newpos.toInt
  | .chdir => Popping m c fun dir _ => dir ≠ 0
  | .mkdir => Popping m c fun dir c =>
    dir ≠ 0 ∧ ∀ name, textAt m dir = some (some name) → pathIsvalid name = true →
      vol.pathIsdir c.files c.pwd name = false →
        vol.pathIsdir c.files c.pwd (pathDirname (pathAbspath c.pwd name)) = true →
          vol.CreateFits c.files blockSectorSize (pathDirname (pathAbspath c.pwd name))
  | .readdir => Popping m c fun fd c => Popping m c fun name c =>
    ∀ dir, c.dirAt fd = some dir →
      ∀ text, (vol.nextName c.files dir.inode dir.pos).1 = some text →
        name ≠ 0 ∧ WritesBelow m name.toNat ((text.take nameMax).length + 1)
  | .exit | .wait | .tell | .close | .mmap | .munmap => True

theorem allows_null_iff {addr : Word} :
    (addr = 0 → Allows Killed (.stop .asserted : Kernel α) m) ↔ addr ≠ 0 := by
  simp only [allows_stop, Killed, reduceCtorEq, imp_false, ne_eq]

theorem allows_terminated : Allows Killed (.stop .terminated : Kernel α) m :=
  (allows_stop Stop.terminated).mpr rfl

theorem allows_exec : Allows Killed (sysexecHandler vol c) m ↔ CallFits vol m c .exec := by
  unfold sysexecHandler CallFits
  refine allows_popping fun cmdline c => ?_
  dsimp only
  rw [(answers_userString cmdline).allows_bind_iff, forall_textAt_iff,
    and_iff_right fun _ => allows_pure _]
  refine forall₂_congr fun text _ => ?_
  dsimp only [processExecute]
  rw [allows_bind_of_continues, Volume.allows_filesysOpen]
  intro file m
  cases file with
  | none => exact allows_pure _
  | some inode => exact allows_pure _

theorem allows_create : Allows Killed (syscreateHandler vol c) m ↔ CallFits vol m c .create := by
  unfold syscreateHandler CallFits
  refine allows_popping fun filename c => ?_
  refine allows_popping fun filesize c => ?_
  dsimp only
  rw [(answers_getUser filename).allows_bind_iff]
  refine forall₂_congr fun fst _ => ?_
  split
  · rename_i bad
    simp [bad]
  · rename_i good
    rw [(answers_userString filename).allows_bind_iff, forall_textAt_iff, forall_prop_of_true good]
    dsimp only
    rw [and_iff_right fun _ => allows_terminated]
    refine forall₂_congr fun name _ => ?_
    split
    · rename_i refused
      refine iff_of_true allows_terminated fun ne_nil pos => ?_
      exact (refused.elim ne_nil (Int.not_lt.mpr pos)).elim
    · rename_i ok
      obtain ⟨ne_nil, pos⟩ := not_or.mp ok
      rw [allows_bind_of_continues fun _ _ => allows_pure _, Volume.allows_filesysCreate,
        forall_prop_of_true ne_nil, forall_prop_of_true (Int.not_lt.mp pos)]

theorem allows_removal {name : CString} {empty : Bool} : Allows Killed
        (if (!empty || pathAbspath c.pwd name == c.pwd) = true then
          pure (c.answer 0)
        else do
          let result ← vol.dirRemove c.files name
          pure ((c.withFiles result.2).answerBool result.1)) m ↔
      (empty = true → pathAbspath c.pwd name ≠ c.pwd → Volume.RemoveFits name) := by
  split
  · rename_i kept
    refine iff_of_true (allows_pure _) fun is_empty moved => ?_
    simp [is_empty, moved] at kept
  · rename_i removed
    rw [allows_bind_of_continues fun _ _ => allows_pure _, Volume.allows_dirRemove]
    simp only [Bool.or_eq_true, Bool.not_eq_true', beq_iff_eq, not_or, Bool.not_eq_false] at removed
    rw [forall_prop_of_true removed.1, forall_prop_of_true removed.2]

theorem allows_remove : Allows Killed (sysremoveHandler vol c) m ↔ CallFits vol m c .remove := by
  unfold sysremoveHandler CallFits
  refine allows_popping fun filename c => ?_
  dsimp only
  rw [(answers_userString filename).allows_bind_iff, forall_textAt_iff]
  refine and_congr allows_null_iff (forall₂_congr fun name _ => ?_)
  dsimp only [RemoveCallFits]
  split
  · rename_i root
    exact iff_of_true (allows_pure _) fun not_root => Bool.noConfusion (root.symm.trans not_root)
  · rename_i not_root
    rw [forall_prop_of_true (Bool.eq_false_of_not_eq_true not_root)]
    cases isdir : vol.pathIsdir c.files c.pwd name with
    | false =>
      rw [if_neg Bool.false_ne_true, pure_bind, allows_removal]
      simp
    | true =>
      have valid : pathIsvalid name = true := by
        unfold Volume.pathIsdir Volume.pathWalk at isdir
        exact (Bool.and_eq_true_iff.mp isdir).1
      rw [if_pos rfl, Volume.dirIsEmpty_eq c.absolute valid]
      split
      · rename_i fits
        rw [pure_bind, allows_removal]
        simp [fits]
      · rename_i long
        simp [long, Killed]

theorem allows_open : Allows Killed (sysopenHandler vol c) m ↔ CallFits vol m c .open := by
  unfold sysopenHandler CallFits
  refine allows_popping fun path c => ?_
  dsimp only
  rw [(answers_userString path).allows_bind_iff, forall_textAt_iff, and_iff_right fun _ => allows_pure _]
  refine forall₂_congr fun name _ => ?_
  dsimp only
  split
  · rename_i is_empty
    exact iff_of_true (allows_pure _) fun ne_nil => (ne_nil is_empty).elim
  · rename_i ne_nil
    rw [allows_bind_of_continues, Volume.allows_filesysOpen, forall_prop_of_true ne_nil]
    intro inode m
    cases inode with
    | none => exact allows_pure _
    | some inode =>
      dsimp only
      split
      · exact allows_pure _
      · split
        · exact allows_pure _
        · exact allows_pure _

/-- The three handlers that ask for the file or the directory of a handle. -/
theorem allows_askHandle {ofFile : File → Int} {ofDir : Dir → Int} :
    Allows Killed (askHandle c ofFile ofDir) m ↔ Popping m c HandleFits := by
  unfold askHandle
  refine allows_popping fun fd c => ?_
  dsimp only [HandleFits]
  cases c.getHandle fd.toInt with
  | none => simp
  | some handle =>
    obtain ⟨_, file, dir⟩ := handle
    cases file with
    | some file => simp
    | none =>
      cases dir with
      | some dir => simp
      | none => simp

/-- If `get_user` has found a word, the pointer leads to user memory. -/
theorem below_of_fetched {m : UserMemory} {fst : Word}
    (fetches : fetched m.toMemory buf = some fst) (good : fst ≠ -1) :
    buf.toNat < physBase ∧ buf ≠ 0 := by
  unfold fetched at fetches
  split at fetches
  · rename_i below
    refine ⟨below, ?_⟩
    rintro rfl
    have missing : wordAt m.toMemory 0 = none := by simp [wordAt, Memory.range, m.null]
    exact Option.some_ne_none fst (fetches.symm.trans missing)
  · exact (good (some.inj fetches).symm).elim

theorem putUser_bind {udst : Word} {byte : UInt8} {k : Bool → Kernel α}
    (below : udst.toNat < physBase) :
    (putUser udst byte >>= k) = .write udst.toNat byte (k true) := by
  unfold putUser
  rw [if_pos below]
  unfold copyOut
  rw [if_pos below]
  rfl

theorem writesBelow_iff_of_accepts {addr size : Nat} :
    (m.accepts addr = true → WritesBelow m addr size) ↔ WritesBelow m addr size := by
  refine ⟨fun wrote crosses => ?_, fun wrote _ => wrote⟩
  exact wrote (crosses.2 0 (Nat.zero_le _)) crosses

theorem allows_read (m : UserMemory) : Allows Killed (sysreadHandler vol c) m.toMemory ↔
      CallFits vol m.toMemory c .read := by
  unfold sysreadHandler CallFits
  refine allows_popping fun fd c => ?_
  refine allows_popping fun buf c => ?_
  refine allows_popping fun size c => ?_
  dsimp only [ReadCallFits]
  split
  · rename_i keys
    rw [allows_bind_of_continues fun _ _ => allows_pure _, survives_copyOut]
    simp [keys]
  rename_i not_keyboard
  split
  · rename_i refused
    refine iff_of_true (allows_pure _) ⟨fun keys => (not_keyboard keys).elim, ?_⟩
    intro _ not_console pos
    omega
  rename_i ok
  split
  · rename_i empty
    refine iff_of_true (allows_pure _) ⟨fun keys => (not_keyboard keys).elim, ?_⟩
    intro _ _ pos
    omega
  rename_i ne_nil
  obtain ⟨not_console, pos⟩ := not_or.mp ok
  have is_positive : 0 < size.toInt := by omega
  rw [and_iff_right fun keys => (not_keyboard keys).elim, forall_prop_of_true not_keyboard,
    forall_prop_of_true not_console, forall_prop_of_true is_positive,
    (answers_getUser buf).allows_bind_iff]
  refine forall₂_congr fun fst fetches => ?_
  split
  · rename_i bad
    exact iff_of_true allows_terminated fun good => (good bad).elim
  rename_i good
  obtain ⟨below, ne⟩ := below_of_fetched fetches good
  rw [forall_prop_of_true good, putUser_bind below, Program.allows_write]
  cases found : c.getHandle fd.toInt with
  | none => simp [Caller.fileAt, found]
  | some handle =>
    dsimp only
    cases opened : handle.file with
    | none => simp [Caller.fileAt, found, opened]
    | some file =>
      simp only [Bool.not_true, Bool.false_eq_true, if_false, Caller.fileAt, found, opened,
        bind_some, some.injEq, forall_eq']
      rw [← writesBelow_iff_of_accepts]
      refine imp_congr_right fun ok => ?_
      rw [allows_bind_of_continues fun _ _ => allows_pure _, allows_fileRead ne, WritesBelow,
        accepts_set ok]
      rfl

theorem allows_write : Allows Killed (syswriteHandler vol c) m ↔ CallFits vol m c .write := by
  unfold syswriteHandler CallFits
  refine allows_popping fun fdnum c => ?_
  refine allows_popping fun buf c => ?_
  refine allows_popping fun bufferSize c => ?_
  dsimp only
  split
  · rename_i console
    rw [allows_bind_of_continues fun _ _ => allows_pure _]
    refine iff_of_true (survives_putbuf _ _) fun above => ?_
    omega
  · split
    · rename_i above
      rw [forall_prop_of_true above]
      cases found : c.getHandle fdnum.toInt with
      | none => simp [Caller.fileAt, found]
      | some handle =>
        dsimp only
        cases opened : handle.file with
        | none => simp [Caller.fileAt, found, opened]
        | some file =>
          rw [allows_bind_of_continues fun _ _ => allows_pure _, allows_fileWrite]
          simp [Caller.fileAt, found, opened]
    · rename_i below
      exact iff_of_true (allows_pure _) fun above => (below above).elim

theorem allows_seek : Allows Killed (sysseekHandler c) m ↔ CallFits vol m c .seek := by
  unfold sysseekHandler CallFits
  refine allows_popping fun fd c => ?_
  refine allows_popping fun newpos c => ?_
  dsimp only
  cases found : c.getHandle fd.toInt with
  | none => simp [Caller.fileAt, found]
  | some handle =>
    dsimp only
    cases opened : handle.file with
    | none => simp [Caller.fileAt, found, opened]
    | some file =>
      rw [allows_bind_of_continues fun _ _ => allows_pure _, fileSeek]
      split
      · rename_i pos
        simp [pos]
      · rename_i negative
        simp [Caller.fileAt, found, opened, negative, Killed]

theorem allows_chdir : Allows Killed (syschdirHandler vol c) m ↔ CallFits vol m c .chdir := by
  unfold syschdirHandler CallFits
  refine allows_popping fun dir c => ?_
  dsimp only
  rw [(answers_userString dir).allows_bind_iff, forall_textAt_iff]
  refine (and_iff_left fun name _ => ?_).trans allows_null_iff
  unfold dirChangedir
  dsimp only
  split
  · split
    · exact allows_pure _
    · exact allows_pure _
  · exact allows_pure _

theorem allows_mkdir : Allows Killed (sysmkdirHandler vol c) m ↔ CallFits vol m c .mkdir := by
  unfold sysmkdirHandler CallFits
  refine allows_popping fun dir c => ?_
  dsimp only
  rw [(answers_userString dir).allows_bind_iff, forall_textAt_iff]
  refine and_congr allows_null_iff (forall₂_congr fun name _ => ?_)
  dsimp only
  split
  · rename_i proper
    simp only [Bool.and_eq_true, Bool.not_eq_true'] at proper
    rw [allows_bind_of_continues fun _ _ => allows_pure _, Volume.allows_filesysMkdir,
      forall_prop_of_true proper.1.1, forall_prop_of_true proper.1.2, forall_prop_of_true proper.2]
  · rename_i improper
    refine iff_of_true (allows_pure _) fun valid absent parent => ?_
    simp [valid, absent, parent] at improper

theorem allows_dirReaddir {dir : Dir} {name : Word} : Allows Killed (dirReaddir vol c dir name) m ↔
      ∀ text, (vol.nextName c.files dir.inode dir.pos).1 = some text →
        name ≠ 0 ∧ WritesBelow m name.toNat ((text.take nameMax).length + 1) := by
  unfold dirReaddir
  obtain ⟨next, pos⟩ := vol.nextName c.files dir.inode dir.pos
  cases next with
  | none => simp
  | some text =>
    dsimp only
    split
    · rename_i null
      simp [null, Killed]
    · rename_i ne
      rw [allows_bind_of_continues fun _ _ => allows_pure _, survives_copyOut]
      simp only [List.length_append, List.length_singleton, some.injEq, forall_eq', ne_eq,
        ne, not_false_eq_true, true_and]

theorem allows_readdir : Allows Killed (sysreaddirHandler vol c) m ↔ CallFits vol m c .readdir := by
  unfold sysreaddirHandler CallFits
  refine allows_popping fun fd c => ?_
  refine allows_popping fun name c => ?_
  dsimp only
  cases found : c.getHandle fd.toInt with
  | none => simp [Caller.dirAt, found]
  | some handle =>
    dsimp only
    cases opened : handle.dir with
    | none => simp [Caller.dirAt, found, opened]
    | some dir =>
      dsimp only
      rw [allows_bind_of_continues fun _ _ => allows_pure _, allows_dirReaddir]
      simp [Caller.dirAt, found, opened]

theorem allows_quiet {k : Word × Caller σ → Kernel α}
    (goes : ∀ popped m, Allows Killed (k popped) m) :
    Allows Killed (c.popStack >>= k) m := by
  rw [survives_popStack_bind]
  exact fun word _ => goes _ _

theorem allows_dispatch (m : UserMemory) (c : Caller σ) (call : SystemCall) :
    Allows Killed (dispatch vol c (some call)) m.toMemory ↔ CallFits vol m.toMemory c call := by
  cases call with
  | halt => simp [dispatch, syshaltHandler, CallFits, Killed]
  | exit => exact iff_of_true (allows_quiet fun _ _ => allows_terminated) trivial
  | exec => exact allows_exec
  | wait => exact iff_of_true (allows_quiet fun _ _ => allows_pure _) trivial
  | create => exact allows_create
  | remove => exact allows_remove
  | «open» => exact allows_open
  | filesize => exact allows_askHandle
  | read => exact allows_read m
  | write => exact allows_write
  | seek => exact allows_seek
  | tell => exact iff_of_true (allows_quiet fun _ _ => allows_pure _) trivial
  | close =>
    refine iff_of_true (allows_quiet fun popped m => ?_) trivial
    dsimp only
    cases popped.2.getHandle popped.1.toInt with
    | none => exact allows_pure _
    | some handle => exact allows_pure _
  | mmap => exact iff_of_true (allows_quiet fun _ _ => allows_quiet fun _ _ => allows_pure _) trivial
  | munmap => exact iff_of_true (allows_quiet fun _ _ => allows_pure _) trivial
  | chdir => exact allows_chdir
  | mkdir => exact allows_mkdir
  | readdir => exact allows_readdir
  | isdir => exact allows_askHandle
  | inumber => exact allows_askHandle

/-- The system call at the stack pointer is one that the kernel survives. -/
def Sturdy (vol : Volume σ) (m : Memory) (c : Caller σ) : Prop :=
  Popping m c fun number c =>
    ∀ call, SystemCall.ofNumber number = some call → CallFits vol m c call

/-- A volume with an empty root directory. -/
def emptyVolume : Volume Unit where
  entry _ _ _ := none
  isEmpty _ _ := true
  nextName _ _ pos := (none, pos)
  length _ _ := 0
  isDir _ _ := false
  held _ _ := false
  read _ _ _ _ := []
  chunks _ _ _ _ := []
  store _ _ _ _ := ()
  close _ _ := ()
  allocate _ := none
  release _ _ := ()
  inodeCreate _ _ _ := (false, ())
  insert _ _ _ _ _ := (false, ())
  makeDirectory _ _ := (false, ())
  erase _ _ _ _ := (false, ())
  execute _ _ := (-1, ())
  wait _ _ := (-1, ())

/-- A page of memory at `0x8048000` that starts with the given bytes. -/
def pageWith (bytes : List UInt8) : UserMemory where
  bytes address :=
    if 0x8048000 ≤ address ∧ address < 0x8049000 then some (bytes.getD (address - 0x8048000) 0) else none
  writable _ := true
  null := rfl
  top address beyond := if_neg (by omega)

/-- A process in the root directory whose stack pointer is at `0x8048000`, with one open file. -/
def callerWithFile : Caller Unit where
  esp := 0x8048000
  eax := 0
  handles := [{ fd := 2, file := some ⟨2, 0⟩, dir := none }]
  nextFD := 3
  pwd := [slash]
  absolute := rfl
  key := 0
  files := ()

end Pintos.Userprog
