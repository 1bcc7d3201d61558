import Pintos.Userprog.Survival

/-!
# System calls and kernel memory

The handlers test their pointers in different ways: the first word, the first byte, or not at all.  A
handler keeps off the memory of the kernel exactly if the ranges and strings that it accesses do not run
into it.  Then it overwrites nothing there, and what it sends depends on user memory alone.
-/

namespace Pintos.Userprog

open Accesses Accesses.Program Filesys Tokens Option
open Vm (physBase)

variable {σ : Type} {vol : Volume σ} {files : σ} {pwd name : CString} {m : Memory}
  {c : Caller σ} {inside : Nat → Prop}

/-! ## Directories are not in user memory -/

namespace Volume

theorem confined_dirGetLeaf : Confined inside (vol.dirGetLeaf files name) m := by
  rw [dirGetLeaf_eq]
  split
  · exact confined_pure _
  · exact confined_stop _

theorem confined_filesysOpen {path : Option CString} :
    Confined inside (vol.filesysOpen files pwd path) m := by
  cases path with
  | none => exact confined_stop _
  | some name =>
    unfold filesysOpen
    dsimp only
    split
    · split
      · exact confined_pure _
      · exact confined_stop _
    · exact confined_bind_pure.mpr confined_dirGetLeaf

theorem confined_insertEntry {isDir : Bool} {sec : Nat} :
    Confined inside (vol.insertEntry files pwd name isDir sec) m := by
  refine confined_bind.mpr ⟨confined_dirGetLeaf, fun leaf _ => ?_⟩
  cases leaf with
  | none => exact confined_pure _
  | some dir =>
    dsimp only
    split
    · exact confined_pure _
    · exact confined_pure _

theorem confined_createIn {enter : σ → Nat → Kernel (Bool × σ)} {size : Int}
    (enters : ∀ files sec, Confined inside (enter files sec) m) :
    Confined inside (vol.createIn enter files size) m := by
  unfold createIn
  cases vol.allocate files with
  | none => exact confined_pure _
  | some taken =>
    refine confined_bind_pure.mpr ?_
    split
    · exact enters _ _
    · exact confined_pure _

theorem confined_filesysCreate {size : Int} :
    Confined inside (vol.filesysCreate files pwd name size) m := by
  unfold filesysCreate
  split
  · exact confined_pure _
  · exact confined_createIn fun _ _ => confined_insertEntry

theorem confined_filesysMkdir : Confined inside (vol.filesysMkdir files pwd name) m :=
  confined_createIn fun _ _ => confined_bind_pure.mpr confined_insertEntry

theorem confined_dirIsEmpty : Confined inside (vol.dirIsEmpty files pwd name) m := by
  unfold dirIsEmpty
  split
  · refine confined_bind.mpr ⟨confined_dirGetLeaf, fun leaf _ => ?_⟩
    cases leaf with
    | none => exact confined_stop _
    | some dir => exact confined_pure _
  · exact confined_pure _

theorem confined_isPath : Confined inside (isPath name) m := by
  unfold isPath
  split
  · exact confined_stop _
  · cases tokens slash name with
    | nil => exact confined_stop _
    | cons token rest => exact confined_pure _

theorem confined_dirRemove : Confined inside (vol.dirRemove files name) m := by
  refine confined_bind.mpr ⟨confined_bind.mpr ⟨confined_isPath, fun is_path _ => ?_⟩, fun target _ => ?_⟩
  · split
    · refine confined_bind_pure.mpr ?_
      split
      · exact confined_pure _
      · exact confined_dirGetLeaf
    · exact confined_pure _
  · cases target with
    | none => exact confined_pure _
    | some target =>
      dsimp only
      cases vol.lookup files target.1 target.2 with
      | none => exact confined_pure _
      | some entry => exact confined_pure _

end Volume

variable {addr : Nat}

/-! ## Buffers -/

theorem readsBelow_zero : ReadsBelow m addr 0 := not_crosses_zero

theorem readsBelow_succ {size : Nat} :
    ReadsBelow m addr (size + 1) ↔ ∀ byte, m.bytes addr = some byte →
      addr < physBase ∧ ReadsBelow m (addr + 1) size := by
  rw [ReadsBelow, not_crosses_succ, isSome_iff_exists, forall_exists_index]
  rfl

/-- A range in two parts: the second is reached if the first is mapped. -/
theorem readsBelow_add {fst snd : Nat} : ReadsBelow m addr (fst + snd) ↔ ReadsBelow m addr fst ∧
      ∀ bytes, m.range addr fst = some bytes → ReadsBelow m (addr + fst) snd := by
  induction fst generalizing addr with
  | zero => simp [Memory.range, readsBelow_zero]
  | succ fst ih =>
    rw [Nat.add_right_comm, readsBelow_succ, readsBelow_succ, Memory.range]
    cases m.bytes addr with
    | none => simp
    | some byte =>
      simp only [some.injEq, forall_eq', bind_some, map_eq_some_iff, ih]
      rw [and_assoc, Nat.add_assoc, Nat.add_comm 1 fst]
      refine and_congr_right fun _ => and_congr_right fun _ => ?_
      simp

theorem confined_emitAll {bytes : List UInt8} : Confined inside (emitAll bytes : Kernel _) m := by
  induction bytes with
  | nil => exact confined_pure _
  | cons byte rest ih => exact ih

theorem confined_writeChunks {inode : Nat} {chunks : List Nat} {buf : Nat} {ofs : Int} :
    Confined Below (vol.writeChunks inode chunks files buf ofs) m ↔
      ReadsBelow m buf chunks.sum := by
  induction chunks generalizing files buf ofs with
  | nil => simp [Volume.writeChunks, readsBelow_zero]
  | cons chunk rest ih =>
    rw [Volume.writeChunks, (answers_readBytes buf chunk).confined_bind_iff, List.sum_cons,
      readsBelow_add]
    refine and_congr (confined_readBytes buf chunk) (forall₂_congr fun bytes _ => ?_)
    rw [(answers_emitAll bytes).confined_bind_iff, and_iff_right confined_emitAll]
    simp only [forall_const, ih]

theorem confined_fileWrite {file : File} {buf : Word} {size : Int} :
    Confined Below (vol.fileWrite files file buf size) m ↔
      (vol.isDir files file.inode = false → buf ≠ 0 →
        ReadsBelow m buf.toNat (vol.chunks files file.inode file.pos size).sum) := by
  unfold Volume.fileWrite
  split
  · rename_i is_dir
    simp [is_dir]
  · rename_i is_file
    split
    · rename_i null
      exact iff_of_true (confined_stop _) fun _ ne => (ne null).elim
    · rename_i ne
      rw [confined_bind_pure, confined_writeChunks,
        forall_prop_of_true (Bool.eq_false_of_not_eq_true is_file), forall_prop_of_true ne]

theorem confined_fileRead {file : File} {buf : Word} {size : Int} (ne : buf ≠ 0) :
    Confined Below (vol.fileRead files file buf size) m ↔
      WritesBelow m buf.toNat (vol.read files file.inode file.pos size).length := by
  unfold Volume.fileRead
  rw [if_neg ne]
  dsimp only
  rw [confined_bind_pure, staysBelow_copyOut]

theorem confined_dirReaddir {dir : Dir} {name : Word} :
    Confined Below (dirReaddir vol c dir name) m ↔
      ∀ text, (vol.nextName c.files dir.inode dir.pos).1 = some text →
        name ≠ 0 → WritesBelow m name.toNat ((text.take nameMax).length + 1) := by
  unfold dirReaddir
  obtain ⟨next, pos⟩ := vol.nextName c.files dir.inode dir.pos
  cases next with
  | none => simp
  | some text =>
    dsimp only
    split
    · rename_i null
      exact iff_of_true (confined_stop _) fun _ _ ne => (ne null).elim
    · rename_i ne
      rw [confined_bind_pure, staysBelow_copyOut]
      simp only [List.length_append, List.length_singleton, some.injEq, forall_eq', ne_eq,
        ne, not_false_eq_true, forall_const]

/-! ## Handlers -/

/-- The next word of the stack lies below `PHYS_BASE`, and meets a condition if it is there. -/
def PoppingBelow (m : Memory) (c : Caller σ) (goal : Word → Caller σ → Prop) : Prop :=
  PopsBelow m c.esp ∧ Popping m c goal

theorem confined_popping {α : Type} {k : Word × Caller σ → Kernel α} {goal : Word → Caller σ → Prop}
    (goes : ∀ word next, Confined Below (k (word, next)) m ↔ goal word next) :
    Confined Below (c.popStack >>= k) m ↔ PoppingBelow m c goal := by
  rw [staysBelow_popStack_bind]
  exact and_congr_right fun _ => forall₂_congr fun word _ => goes word c.next

/-- A string is read, and what follows does not access memory. -/
theorem confined_userString_bind {α : Type} {addr : Word} {k : Option CString → Kernel α}
    (goes : ∀ text, Confined Below (k text) m) :
    Confined Below (userString addr >>= k) m ↔ TextBelow m addr := by
  rw [(answers_userString addr).confined_bind_iff, staysBelow_userString]
  exact and_iff_left fun text _ => goes text

/-- The ranges of `sysread_handler`. -/
def ReadCallBelow (vol : Volume σ) (m : Memory) (fd buf size : Word) (c : Caller σ) : Prop :=
  (fd.toInt = 0 → WritesBelow m buf.toNat 1) ∧ (fd.toInt ≠ 0 → fd.toInt ≠ 1 → 0 < size.toInt →
      (buf.toNat < physBase → ReadsBelow m buf.toNat 4) ∧
        ∀ first, fetched m buf = some first → first ≠ -1 →
          ∀ file, c.fileAt fd = some file → WritesBelow m buf.toNat
              (vol.read c.files file.inode file.pos size.toInt).length)

/-- The ranges of `syswrite_handler`. -/
def WriteCallBelow (vol : Volume σ) (m : Memory) (fdnum buf size : Word) (c : Caller σ) : Prop :=
  (fdnum.toInt = 1 → ReadsBelow m buf.toNat size.toNat) ∧
    (1 < fdnum.toInt → ∀ file, c.fileAt fdnum = some file →
      vol.isDir c.files file.inode = false → buf ≠ 0 → ReadsBelow m buf.toNat
          (vol.chunks c.files file.inode file.pos size.toInt).sum)

/-- The accesses of a system call stay below `PHYS_BASE`. -/
def CallBelow (vol : Volume σ) (m : Memory) (c : Caller σ) : SystemCall → Prop
  | .halt => True
  | .exit | .wait | .filesize | .tell | .close | .munmap | .isdir | .inumber =>
    PoppingBelow m c fun _ _ => True
  | .exec | .remove | .open | .chdir | .mkdir =>
    PoppingBelow m c fun addr _ => TextBelow m addr
  | .mmap | .seek => PoppingBelow m c fun _ c => PoppingBelow m c fun _ _ => True
  | .create => PoppingBelow m c fun filename c => PoppingBelow m c fun _ _ =>
    (filename.toNat < physBase → ReadsBelow m filename.toNat 4) ∧
      ∀ first, fetched m filename = some first → first ≠ -1 → TextBelow m filename
  | .read => PoppingBelow m c fun fd c => PoppingBelow m c fun buf c =>
    PoppingBelow m c fun size c => ReadCallBelow vol m fd buf size c
  | .write => PoppingBelow m c fun fdnum c => PoppingBelow m c fun buf c =>
    PoppingBelow m c fun size c => WriteCallBelow vol m fdnum buf size c
  | .readdir => PoppingBelow m c fun fd c => PoppingBelow m c fun name c =>
    ∀ dir, c.dirAt fd = some dir →
      ∀ text, (vol.nextName c.files dir.inode dir.pos).1 = some text →
        name ≠ 0 → WritesBelow m name.toNat ((text.take nameMax).length + 1)

theorem confined_exec : Confined Below (sysexecHandler vol c) m ↔ CallBelow vol m c .exec := by
  unfold sysexecHandler CallBelow
  refine confined_popping fun cmdline c => confined_userString_bind fun text => ?_
  cases text with
  | none => exact confined_pure _
  | some text =>
    refine confined_bind.mpr ⟨Volume.confined_filesysOpen, fun file _ => ?_⟩
    cases file with
    | none => exact confined_pure _
    | some inode => exact confined_pure _

theorem confined_create :
    Confined Below (syscreateHandler vol c) m ↔ CallBelow vol m c .create := by
  unfold syscreateHandler CallBelow
  refine confined_popping fun filename c => ?_
  refine confined_popping fun filesize c => ?_
  dsimp only
  rw [(answers_getUser filename).confined_bind_iff, staysBelow_getUser]
  refine and_congr_right fun _ => forall₂_congr fun fst _ => ?_
  split
  · rename_i bad
    exact iff_of_true (confined_stop _) fun good => (good bad).elim
  · rename_i good
    rw [forall_prop_of_true good]
    refine confined_userString_bind fun text => ?_
    cases text with
    | none => exact confined_stop _
    | some name =>
      dsimp only
      split
      · exact confined_stop _
      · exact confined_bind_pure.mpr Volume.confined_filesysCreate

theorem confined_remove :
    Confined Below (sysremoveHandler vol c) m ↔ CallBelow vol m c .remove := by
  unfold sysremoveHandler CallBelow
  refine confined_popping fun filename c => confined_userString_bind fun text => ?_
  cases text with
  | none => exact confined_stop _
  | some name =>
    dsimp only
    split
    · exact confined_pure _
    · refine confined_bind.mpr ⟨?_, fun empty _ => ?_⟩
      · split
        · exact Volume.confined_dirIsEmpty
        · exact confined_pure _
      · split
        · exact confined_pure _
        · exact confined_bind_pure.mpr Volume.confined_dirRemove

theorem confined_open : Confined Below (sysopenHandler vol c) m ↔ CallBelow vol m c .open := by
  unfold sysopenHandler CallBelow
  refine confined_popping fun path c => confined_userString_bind fun text => ?_
  cases text with
  | none => exact confined_pure _
  | some name =>
    dsimp only
    split
    · exact confined_pure _
    · refine confined_bind.mpr ⟨Volume.confined_filesysOpen, fun inode _ => ?_⟩
      cases inode with
      | none => exact confined_pure _
      | some inode =>
        dsimp only
        split
        · exact confined_pure _
        · split
          · exact confined_pure _
          · exact confined_pure _

theorem confined_chdir : Confined Below (syschdirHandler vol c) m ↔ CallBelow vol m c .chdir := by
  unfold syschdirHandler CallBelow
  refine confined_popping fun dir c => confined_userString_bind fun text => ?_
  cases text with
  | none => exact confined_stop _
  | some name =>
    unfold dirChangedir
    dsimp only
    split
    · split
      · exact confined_pure _
      · exact confined_pure _
    · exact confined_pure _

theorem confined_mkdir : Confined Below (sysmkdirHandler vol c) m ↔ CallBelow vol m c .mkdir := by
  unfold sysmkdirHandler CallBelow
  refine confined_popping fun dir c => confined_userString_bind fun text => ?_
  cases text with
  | none => exact confined_stop _
  | some name =>
    dsimp only
    split
    · exact confined_bind_pure.mpr Volume.confined_filesysMkdir
    · exact confined_pure _

theorem confined_askHandle {ofFile : File → Int} {ofDir : Dir → Int} :
    Confined Below (askHandle c ofFile ofDir) m ↔ PoppingBelow m c fun _ _ => True := by
  unfold askHandle
  refine confined_popping fun fd c => iff_true_intro ?_
  dsimp only
  cases c.getHandle fd.toInt with
  | none => exact confined_pure _
  | some handle =>
    obtain ⟨_, file, dir⟩ := handle
    cases file with
    | some file => exact confined_pure _
    | none =>
      cases dir with
      | some dir => exact confined_pure _
      | none => exact confined_stop _

theorem confined_read (m : UserMemory) : Confined Below (sysreadHandler vol c) m.toMemory ↔
      CallBelow vol m.toMemory c .read := by
  unfold sysreadHandler CallBelow
  refine confined_popping fun fd c => ?_
  refine confined_popping fun buf c => ?_
  refine confined_popping fun size c => ?_
  dsimp only [ReadCallBelow]
  split
  · rename_i keys
    rw [confined_bind_pure, staysBelow_copyOut]
    simp [keys]
  rename_i not_keyboard
  split
  · rename_i refused
    refine iff_of_true (confined_pure _) ⟨fun keys => (not_keyboard keys).elim, ?_⟩
    intro _ not_console pos
    omega
  rename_i ok
  split
  · rename_i empty
    refine iff_of_true (confined_pure _) ⟨fun keys => (not_keyboard keys).elim, ?_⟩
    intro _ _ pos
    omega
  rename_i ne_nil
  obtain ⟨not_console, pos⟩ := not_or.mp ok
  have is_positive : 0 < size.toInt := by omega
  rw [and_iff_right fun keys => (not_keyboard keys).elim, forall_prop_of_true not_keyboard,
    forall_prop_of_true not_console, forall_prop_of_true is_positive,
    (answers_getUser buf).confined_bind_iff, staysBelow_getUser]
  refine and_congr_right fun _ => forall₂_congr fun fst fetches => ?_
  split
  · rename_i bad
    exact iff_of_true (confined_stop _) fun good => (good bad).elim
  rename_i good
  obtain ⟨below, ne⟩ := below_of_fetched fetches good
  rw [forall_prop_of_true good, putUser_bind below, Program.confined_write]
  simp only [below, true_and]
  cases found : c.getHandle fd.toInt with
  | none => simp [Caller.fileAt, found]
  | some handle =>
    dsimp only
    cases opened : handle.file with
    | none => simp [Caller.fileAt, found, opened]
    | some file =>
      simp only [Bool.not_true, Bool.false_eq_true, if_false, Caller.fileAt, found, opened,
        bind_some, some.injEq, forall_eq']
      rw [← writesBelow_iff_of_accepts]
      refine imp_congr_right fun ok => ?_
      rw [confined_bind_pure, confined_fileRead ne, WritesBelow, accepts_set ok]
      rfl

theorem confined_write : Confined Below (syswriteHandler vol c) m ↔ CallBelow vol m c .write := by
  unfold syswriteHandler CallBelow
  refine confined_popping fun fdnum c => ?_
  refine confined_popping fun buf c => ?_
  refine confined_popping fun bufferSize c => ?_
  dsimp only [WriteCallBelow]
  split
  · rename_i console
    rw [confined_bind_pure, staysBelow_putbuf]
    simp [console]
  rename_i not_console
  rw [and_iff_right fun console => (not_console console).elim]
  split
  · rename_i above
    rw [forall_prop_of_true above]
    cases found : c.getHandle fdnum.toInt with
    | none => simp [Caller.fileAt, found]
    | some handle =>
      dsimp only
      cases opened : handle.file with
      | none => simp [Caller.fileAt, found, opened]
      | some file =>
        rw [confined_bind_pure, confined_fileWrite]
        simp [Caller.fileAt, found, opened]
  · rename_i not_above
    exact iff_of_true (confined_pure _) fun above => (not_above above).elim

theorem confined_seek : Confined Below (sysseekHandler c) m ↔ CallBelow vol m c .seek := by
  unfold sysseekHandler CallBelow
  refine confined_popping fun fd c => ?_
  refine confined_popping fun newpos c => iff_true_intro ?_
  dsimp only
  cases c.getHandle fd.toInt with
  | none => exact confined_pure _
  | some handle =>
    dsimp only
    cases handle.file with
    | none => exact confined_pure _
    | some file =>
      refine confined_bind_pure.mpr ?_
      unfold fileSeek
      split
      · exact confined_pure _
      · exact confined_stop _

theorem confined_readdir :
    Confined Below (sysreaddirHandler vol c) m ↔ CallBelow vol m c .readdir := by
  unfold sysreaddirHandler CallBelow
  refine confined_popping fun fd c => ?_
  refine confined_popping fun name c => ?_
  dsimp only
  cases found : c.getHandle fd.toInt with
  | none => simp [Caller.dirAt, found]
  | some handle =>
    dsimp only
    cases opened : handle.dir with
    | none => simp [Caller.dirAt, found, opened]
    | some dir =>
      dsimp only
      rw [confined_bind_pure, confined_dirReaddir]
      simp [Caller.dirAt, found, opened]

theorem confined_quiet {α : Type} {k : Word × Caller σ → Kernel α}
    (goes : ∀ popped, Confined Below (k popped) m) :
    Confined Below (c.popStack >>= k) m ↔ PoppingBelow m c fun _ _ => True :=
  confined_popping fun _ _ => iff_true_intro (goes _)

theorem confined_dispatch (m : UserMemory) (c : Caller σ) (call : SystemCall) :
    Confined Below (dispatch vol c (some call)) m.toMemory ↔ CallBelow vol m.toMemory c call := by
  cases call with
  | halt => exact iff_of_true (confined_stop _) trivial
  | exit => exact confined_quiet fun _ => confined_stop _
  | exec => exact confined_exec
  | wait => exact confined_quiet fun _ => confined_pure _
  | create => exact confined_create
  | remove => exact confined_remove
  | «open» => exact confined_open
  | filesize => exact confined_askHandle
  | read => exact confined_read m
  | write => exact confined_write
  | seek => exact confined_seek
  | tell => exact confined_quiet fun _ => confined_pure _
  | close =>
    refine confined_quiet fun popped => ?_
    dsimp only
    cases popped.2.getHandle popped.1.toInt with
    | none => exact confined_pure _
    | some handle => exact confined_pure _
  | mmap => exact confined_popping fun _ _ => confined_quiet fun _ => confined_pure _
  | munmap => exact confined_quiet fun _ => confined_pure _
  | chdir => exact confined_chdir
  | mkdir => exact confined_mkdir
  | readdir => exact confined_readdir
  | isdir => exact confined_askHandle
  | inumber => exact confined_askHandle

/-- The words, ranges and strings that a system call accesses through pointers of the process do not run
into the memory of the kernel. -/
def PointersBelow (vol : Volume σ) (m : Memory) (c : Caller σ) : Prop :=
  PoppingBelow m c fun number c =>
    ∀ call, SystemCall.ofNumber number = some call → CallBelow vol m c call

theorem confined_syscallHandler (vol : Volume σ) (m : UserMemory) (c : Caller σ) :
    Confined Below (syscallHandler vol c) m.toMemory ↔ PointersBelow vol m.toMemory c := by
  unfold syscallHandler PointersBelow
  refine confined_popping fun number popped => ?_
  dsimp only
  rw [confined_bind_pure]
  cases SystemCall.ofNumber number with
  | none => exact iff_of_true (confined_pure _) nofun
  | some call => simp [confined_dispatch]

/-! ## Isolation -/

/-- The system call keeps off the memory of the kernel. -/
structure Isolated (vol : Volume σ) (m : Memory) (c : Caller σ) : Prop where
  /-- Every byte read or written through a pointer of the process lies below `PHYS_BASE`. -/
  accesses : ∀ addr ∈ ((syscallHandler vol c).run m).touched, addr < physBase
  /-- The memory of the kernel is not overwritten. -/
  keeps : ∀ addr, physBase ≤ addr →
    ((syscallHandler vol c).run m).memory.bytes addr = m.bytes addr
  /-- The bytes sent to files and to the console are the same for other contents of kernel memory. -/
  sends : ∀ other, m.AgreeOn Below other →
    ((syscallHandler vol c).run other).sent = ((syscallHandler vol c).run m).sent

/-- Memory with a page at `0x8048000` that starts with the given bytes, and a page of the kernel. -/
def kernelPageBytes (bytes : List UInt8) (addr : Nat) : Option UInt8 :=
  if physBase ≤ addr ∧ addr < physBase + 0x1000 then
    some 7
  else if 0x8048000 ≤ addr ∧ addr < 0x8049000 then
    some (bytes.getD (addr - 0x8048000) 0)
  else
    none

theorem kernelPageBytes_top (bytes : List UInt8) (addr : Nat) (beyond : 2 ^ 32 ≤ addr) :
    kernelPageBytes bytes addr = none := by
  unfold kernelPageBytes physBase
  split_ifs <;> first | rfl | omega

def kernelPageWith (bytes : List UInt8) : UserMemory where
  bytes := kernelPageBytes bytes
  writable _ := true
  null := rfl
  top := kernelPageBytes_top bytes

end Pintos.Userprog
