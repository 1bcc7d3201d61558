import Pintos.Lib.Accesses
import Pintos.Filesys.Directory
import Pintos.Vm.Memory
import Pintos.Userprog.Processes

/-!
# The system call handlers

The handlers of `syscall.c` and the functions of `file.c`, `path.c`, `directory.c`, `filesys.c` and
`process.c` that they call, as programs that access memory through the pointers of the calling process.
An access to an address that is not mapped kills the process.  The inodes below answer as they like: what
a directory or a file holds is a parameter, and so is what an update does to it.  A string is read once
for all functions that get its address, and `malloc` succeeds.
-/

namespace Pintos.Userprog

open Accesses Tokens Filesys
open Vm (physBase)

/-- Why a handler does not return. -/
inductive Stop
  /-- `terminate_thread` or `thread_exit`. -/
  | terminated
  /-- An `ASSERT` has failed. -/
  | asserted
  /-- Memory of the kernel has been overwritten, or used after it was freed. -/
  | undefined
  | poweredOff
  deriving DecidableEq

/-- A function of the kernel that may access memory through pointers of the process. -/
abbrev Kernel := Program Stop

/-- A word of the stack. -/
abbrev Word := BitVec 32

/-- The memory of a process: neither the null page nor anything beyond the last address is mapped. -/
structure UserMemory extends Memory where
  null : bytes 0 = none
  top : ∀ address, 2 ^ 32 ≤ address → bytes address = none

/-- A directory entry in use. -/
structure Entry where
  sector : Nat
  isDir : Bool

/-- The answers of the inodes, of the free map and of the other processes, in a state of theirs. -/
structure Volume (σ : Type) where
  /-- The loop of `lookup` over a directory. -/
  entry : σ → Nat → CString → Option Entry
  /-- The loop of `dir_is_empty` finds no entry in use. -/
  isEmpty : σ → Nat → Bool
  /-- The loop of `dir_readdir`, from a position: the name of the next entry in use and the new position. -/
  nextName : σ → Nat → Nat → Option CString × Nat
  /-- `inode_length`. -/
  length : σ → Nat → Int
  /-- The field `is_dir` of an inode. -/
  isDir : σ → Nat → Bool
  /-- The inode is open, apart from the file that is being opened. -/
  held : σ → Nat → Bool
  /-- The bytes that `inode_read_at` copies, for an offset and a size. -/
  read : σ → Nat → Int → Int → List UInt8
  /-- The sizes of the chunks in which `inode_write_at` takes a buffer, for an offset and a size. -/
  chunks : σ → Nat → Int → Int → List Nat
  /-- `inode_write_at` of one chunk. -/
  store : σ → Nat → Int → List UInt8 → σ
  /-- `inode_close`. -/
  close : σ → Nat → σ
  /-- `free_map_allocate` of one sector. -/
  allocate : σ → Option (Nat × σ)
  /-- `free_map_release` of one sector. -/
  release : σ → Nat → σ
  /-- `inode_create`. -/
  inodeCreate : σ → Nat → Int → Bool × σ
  /-- Write an entry into a free slot of a directory. -/
  insert : σ → Nat → CString → Bool → Nat → Bool × σ
  /-- The second half of `dir_create`. -/
  makeDirectory : σ → Nat → Bool × σ
  /-- The second half of `dir_remove`. -/
  erase : σ → Nat → CString → Entry → Bool × σ
  /-- `process_execute` from `thread_create` on. -/
  execute : σ → CString → Int × σ
  /-- `process_wait`. -/
  wait : σ → Int → Int × σ

/-- A `struct file`. -/
structure File where
  inode : Nat
  pos : Int

structure Dir where
  inode : Nat
  pos : Nat

structure FileHandle where
  fd : Int
  file : Option File
  dir : Option Dir

/-- The calling process: the registers in its interrupt frame, its handles, its working directory, and
what it shares with the others. -/
structure Caller (σ : Type) where
  esp : Nat
  eax : Word
  handles : List FileHandle
  nextFD : Int
  pwd : CString
  /-- The working directory is an absolute path. -/
  absolute : pathIsabs pwd = true
  /-- The next key of the keyboard. -/
  key : UInt8
  files : σ

variable {σ : Type} (volume : Volume σ) (caller : Caller σ)

/-! ## Memory -/

def readWord (address : Nat) : Kernel Word := do
  let bytes ← Program.readBytes address 4
  pure (BitVec.ofNat 32 (bytes.foldr (fun byte rest => byte.toNat + 256 * rest) 0))

/-- `get_user`; an access that faults does not return. -/
def getUser (uaddr : Word) : Kernel Word :=
  if uaddr.toNat < physBase then readWord uaddr.toNat else pure (-1)

/-- Write bytes through a pointer. -/
def copyOut : Nat → List UInt8 → Kernel Unit
  | _, [] => pure ()
  | address, byte :: rest => .write address byte <|
      if address < physBase then copyOut (address + 1) rest else .stop .undefined

def putUser (udst : Word) (byte : UInt8) : Kernel Bool := do
  if udst.toNat < physBase then
    copyOut udst.toNat [byte]
    pure true
  else
    pure false

/-- The string at an address, unless it is the null pointer. -/
def userString (address : Word) : Kernel (Option CString) :=
  if address = 0 then
    pure none
  else do
    let text ← Program.readString (2 ^ 32 - address.toNat) address.toNat
    pure (some text)

namespace Caller

variable {σ : Type} (caller : Caller σ)

def popStack : Kernel (Word × Caller σ) :=
  if caller.esp < physBase ∧ caller.esp ≠ 0 then do
    let word ← readWord caller.esp
    pure (word, { caller with esp := caller.esp + 4 })
  else
    .stop .terminated

/-- Set the value that the call returns. -/
def answer (value : Int) : Caller σ := { caller with eax := BitVec.ofInt 32 value }

/-- Return a truth value. -/
def answerBool (value : Bool) : Caller σ := caller.answer (if value then 1 else 0)

def withFiles (files : σ) : Caller σ := { caller with files }

def getHandle (fd : Int) : Option FileHandle := caller.handles.find? fun handle => handle.fd == fd

def setHandle (fd : Int) (new : FileHandle) : Caller σ :=
  { caller with handles := caller.handles.map fun handle => if handle.fd == fd then new else handle }

/-- `thread_add_file_handler` and `thread_add_dir_handler`. -/
def addHandler (file : Option File) (dir : Option Dir) : Caller σ :=
  { caller with
    handles := caller.handles ++ [{ fd := caller.nextFD, file, dir }]
    nextFD := caller.nextFD + 1
    eax := BitVec.ofInt 32 caller.nextFD }

end Caller

/-! ## Paths and directories -/

namespace Volume

variable {σ : Type} (volume : Volume σ)

def lookup (files : σ) (dir : Nat) (name : CString) : Option Entry :=
  if pathIsvalid name then volume.entry files dir name else none

/-- The loops of `path_exists`, `path_isfile` and `path_isdir`. -/
def walk (files : σ) (last : Entry → Bool) : List CString → Nat → Bool
  | [], _ => true
  | [token], dir => (volume.lookup files dir token).any last
  | token :: sentry :: rest, dir =>
    match volume.lookup files dir token with
    | none => false
    | some entry => entry.isDir && walk files last (sentry :: rest) entry.sector

/-- A walk from the root along the absolute path. -/
def pathWalk (atRoot : Bool) (last : Entry → Bool) (files : σ) (pwd path : CString) : Bool :=
  pathIsvalid path &&
    match tokens slash (pathAbspath pwd path) with
    | [] => atRoot
    | token :: rest => volume.walk files last (token :: rest) rootDirSector

def pathExists (files : σ) (pwd path : CString) : Bool := volume.pathWalk true (fun _ => true) files pwd path

def pathIsfile (files : σ) (pwd path : CString) : Bool :=
  volume.pathWalk false (fun entry => !entry.isDir) files pwd path

def pathIsdir (files : σ) (pwd path : CString) : Bool := volume.pathWalk true Entry.isDir files pwd path

/-- The loop of `dir_get_leaf`. -/
def leafLoop (files : σ) (name : CString) : List CString → Nat → Nat → Option Nat
  | [], lastdir, tmpdir => some (if name.getLast? = some slash then lastdir else tmpdir)
  | token :: rest, _, tmpdir =>
    match (volume.lookup files tmpdir token).filter Entry.isDir with
    | some entry => leafLoop files name rest tmpdir entry.sector
    | none => if token = name then none else some tmpdir

/-- `dir_get_leaf`, which copies the name into a buffer of `PATH_MAX` bytes. -/
def dirGetLeaf (files : σ) (name : CString) : Kernel (Option Nat) :=
  if !pathIsvalid name then
    pure none
  else if name = [slash] then
    pure (some rootDirSector)
  else if pathMax ≤ name.length then
    .stop .undefined
  else
    pure (volume.leafLoop files name (tokens slash name) rootDirSector rootDirSector)

/-- `dir_lookup`: the sector of the inode. -/
def dirLookup (files : σ) (pwd name : CString) : Kernel (Option Nat) := do
  let abspath := pathAbspath pwd name
  let leaf ← volume.dirGetLeaf files (pathDirname abspath)
  pure (leaf.bind fun foo => (volume.lookup files foo (pathBasename abspath)).map Entry.sector)

/-- What `dir_add` and `dir_create` do in the directory of the new entry. -/
def insertEntry (files : σ) (pwd name : CString) (isDir : Bool) (sector : Nat) : Kernel (Bool × σ) := do
  let abspath := pathAbspath pwd name
  match ← volume.dirGetLeaf files (pathDirname abspath) with
  | none => pure (false, files)
  | some dir =>
    if (volume.lookup files dir (pathBasename abspath)).isSome then
      pure (false, files)
    else
      pure (volume.insert files dir (pathBasename abspath) isDir sector)

def dirAdd (files : σ) (pwd name : CString) (sector : Nat) : Kernel (Bool × σ) :=
  volume.insertEntry files pwd name false sector

def dirCreate (files : σ) (pwd name : CString) (sector : Nat) : Kernel (Bool × σ) := do
  let (success, files) ← volume.insertEntry files pwd name true sector
  pure (if success then volume.makeDirectory files sector else (false, files))

/-- `is_path`, which takes the length of the first token even if there is none. -/
def isPath (name : CString) : Kernel Bool :=
  if pathMax ≤ name.length then
    .stop .undefined
  else
    match tokens slash name with
    | [] => .stop .asserted
    | token :: _ => pure (pathIsvalid name && token.length != name.length)

/-- The directory in which `dir_remove` looks, and the name it looks for. -/
def removeTarget (files : σ) (name : CString) : Kernel (Option (Nat × CString)) := do
  if ← isPath name then
    let pathname := (name.reverse.dropWhile (· ≠ slash)).tail.reverse
    let foo ← (if pathname = [] then pure (some rootDirSector) else volume.dirGetLeaf files pathname)
    pure (foo.bind fun foo => (tokens slash name).getLast?.map fun toDelete => (foo, toDelete))
  else
    pure (some (rootDirSector, name))

/-- `dir_remove` in the root directory. -/
def dirRemove (files : σ) (name : CString) : Kernel (Bool × σ) := do
  let target ← volume.removeTarget files name
  match target with
  | none => pure (false, files)
  | some (foo, toDelete) =>
    match volume.lookup files foo toDelete with
    | none => pure (false, files)
    | some entry => pure (volume.erase files foo toDelete entry)

def dirIsEmpty (files : σ) (pwd name : CString) : Kernel Bool :=
  if pathIsvalid name then do
    match ← volume.dirGetLeaf files (pathAbspath pwd name) with
    | none => .stop .asserted
    | some dir => pure (volume.isEmpty files dir)
  else
    pure false

/-! ## `filesys.c` -/

/-- What `filesys_create` and `filesys_mkdir` do for a new inode. -/
def createIn (enter : σ → Nat → Kernel (Bool × σ)) (files : σ) (size : Int) : Kernel (Bool × σ) :=
  match volume.allocate files with
  | none => pure (false, files)
  | some (sector, files) => do
      let (created, files) := volume.inodeCreate files sector size
      let (success, files) ← (if created then enter files sector else pure (false, files))
      pure (success, if !success && sector != 0 then volume.release files sector else files)

def filesysCreate (files : σ) (pwd name : CString) (size : Int) : Kernel (Bool × σ) :=
  if nameMax < name.length then
    pure (false, files)
  else
    volume.createIn (fun files sector => volume.dirAdd files pwd name sector) files size

def filesysMkdir (files : σ) (pwd name : CString) : Kernel (Bool × σ) :=
  volume.createIn (fun files sector => volume.dirCreate files pwd name sector) files blockSectorSize

/-- `filesys_open`: the inode of the new file.  The inode of the root has been closed when it is put into
the file, and is freed if nothing else holds it. -/
def filesysOpen (files : σ) (pwd : CString) : Option CString → Kernel (Option Nat)
  | none => .stop .asserted
  | some name =>
    if pathIsroot name then
      if volume.held files rootDirSector then pure (some rootDirSector) else .stop .undefined
    else
      volume.dirLookup files pwd name

end Volume

/-! ## `file.c` -/

namespace Volume

variable {σ : Type} (volume : Volume σ)

/-- `file_read`: the bytes read, and the file. -/
def fileRead (files : σ) (file : File) (buffer : Word) (size : Int) : Kernel (Int × File) := do
  if buffer = 0 then .stop .asserted
  let bytes := volume.read files file.inode file.pos size
  copyOut buffer.toNat bytes
  pure (bytes.length, { file with pos := file.pos + bytes.length })

/-- The loop of `inode_write_at` over the chunks of a buffer. -/
def writeChunks (inode : Nat) : List Nat → σ → Nat → Int → Kernel σ
  | [], files, _, _ => pure files
  | chunk :: rest, files, buffer, offset => do
      let bytes ← Program.readBytes buffer chunk
      Program.emitAll bytes
      writeChunks inode rest (volume.store files inode offset bytes) (buffer + chunk) (offset + chunk)

def fileWrite (files : σ) (file : File) (buffer : Word) (size : Int) : Kernel (Int × File × σ) :=
  if volume.isDir files file.inode then
    pure (-1, file, files)
  else if buffer = 0 then
    .stop .asserted
  else do
    let chunks := volume.chunks files file.inode file.pos size
    let files ← volume.writeChunks file.inode chunks files buffer.toNat file.pos
    pure (chunks.sum, { file with pos := file.pos + chunks.sum }, files)

end Volume

def fileSeek (file : File) (newPos : Int) : Kernel File :=
  if 0 ≤ newPos then pure { file with pos := newPos } else .stop .asserted

/-! ## Handlers -/

def syshaltHandler : Kernel (Caller σ) := .stop .poweredOff

def sysexitHandler : Kernel (Caller σ) := do
  let (_, _) ← caller.popStack
  .stop .terminated

def processExecute (fileName : CString) : Kernel (Caller σ) := do
  match ← volume.filesysOpen caller.files caller.pwd (firstToken (tmpfilename fileName)) with
  | none => pure (caller.answer (-1))
  | some _ =>
    let (tid, files) := volume.execute caller.files fileName
    pure ((caller.withFiles files).answer tid)

def sysexecHandler : Kernel (Caller σ) := do
  let (cmdline, caller) ← caller.popStack
  match ← userString cmdline with
  | none => pure caller
  | some cmdline => processExecute volume caller cmdline

def syswaitHandler : Kernel (Caller σ) := do
  let (child, caller) ← caller.popStack
  let (status, files) := volume.wait caller.files child.toInt
  pure ((caller.withFiles files).answer status)

def syscreateHandler : Kernel (Caller σ) := do
  let (filename, caller) ← caller.popStack
  let (filesize, caller) ← caller.popStack
  let first ← getUser filename
  if first = -1 then
    .stop .terminated
  else
    match ← userString filename with
    | none => .stop .terminated
    | some name =>
      if name = [] ∨ filesize.toInt < 0 then
        .stop .terminated
      else do
        let (success, files) ← volume.filesysCreate caller.files caller.pwd name filesize.toInt
        pure ((caller.withFiles files).answerBool success)

def sysremoveHandler : Kernel (Caller σ) := do
  let (filename, caller) ← caller.popStack
  match ← userString filename with
  | none => .stop .asserted
  | some name =>
    if pathIsroot name then
      pure (caller.answer 0)
    else do
      let empty ← (if volume.pathIsdir caller.files caller.pwd name then
          volume.dirIsEmpty caller.files caller.pwd name
        else
          pure true)
      if !empty || pathAbspath caller.pwd name == caller.pwd then
        pure (caller.answer 0)
      else do
        let (success, files) ← volume.dirRemove caller.files name
        pure ((caller.withFiles files).answerBool success)

def sysopenHandler : Kernel (Caller σ) := do
  let (path, caller) ← caller.popStack
  match ← userString path with
  | none => pure (caller.answer (-1))
  | some path =>
    if path = [] then
      pure (caller.answer (-1))
    else do
      match ← volume.filesysOpen caller.files caller.pwd (some path) with
      | none => pure (caller.answer (-1))
      | some inode =>
        if volume.pathIsfile caller.files caller.pwd path then
          pure (caller.addHandler (some ⟨inode, 0⟩) none)
        else if volume.pathIsdir caller.files caller.pwd path then
          pure (caller.addHandler none (some ⟨inode, 0⟩))
        else
          pure caller

/-- What `sysfilesize_handler`, `sysisdir_handler` and `sysinumber_handler` do: they answer for the file
or for the directory of a handle, and one of the two must be there. -/
def askHandle (ofFile : File → Int) (ofDir : Dir → Int) : Kernel (Caller σ) := do
  let (fd, caller) ← caller.popStack
  match caller.getHandle fd.toInt with
  | none => pure (caller.answer (-1))
  | some handle =>
    match handle.file, handle.dir with
    | some file, _ => pure (caller.answer (ofFile file))
    | none, some dir => pure (caller.answer (ofDir dir))
    | none, none => .stop .asserted

def sysfilesizeHandler : Kernel (Caller σ) :=
  askHandle caller (fun file => volume.length caller.files file.inode)
    (fun dir => volume.length caller.files dir.inode)

def sysreadHandler : Kernel (Caller σ) := do
  let (fd, caller) ← caller.popStack
  let (buffer, caller) ← caller.popStack
  let (size, caller) ← caller.popStack
  if fd.toInt = 0 then do
    copyOut buffer.toNat [caller.key]
    pure (caller.answer 1)
  else if fd.toInt = 1 ∨ size.toInt < 0 then
    pure (caller.answer (-1))
  else if size.toInt = 0 then
    pure (caller.answer 0)
  else do
    let first ← getUser buffer
    if first = -1 then
      .stop .terminated
    else do
      let stored ← putUser buffer 1
      if !stored then
        .stop .terminated
      else
        match caller.getHandle fd.toInt with
        | none => pure (caller.answer (-1))
        | some handle =>
          match handle.file with
          | none => pure (caller.answer (-1))
          | some file => do
              let (bytesRead, file) ← volume.fileRead caller.files file buffer size.toInt
              pure ((caller.setHandle fd.toInt { handle with file := some file }).answer bytesRead)

def putbuf : Nat → Nat → Kernel Unit
  | _, 0 => pure ()
  | buffer, size + 1 => .read buffer fun byte => .emit byte (putbuf (buffer + 1) size)

def syswriteHandler : Kernel (Caller σ) := do
  let (fdnum, caller) ← caller.popStack
  let (buffer, caller) ← caller.popStack
  let (bufferSize, caller) ← caller.popStack
  if fdnum.toInt = 1 then do
    putbuf buffer.toNat bufferSize.toNat
    pure { caller with eax := bufferSize }
  else if 1 < fdnum.toInt then
    match caller.getHandle fdnum.toInt with
    | none => pure (caller.answer (-1))
    | some handle =>
      match handle.file with
      | none => pure (caller.answer (-1))
      | some file => do
          let (written, file, files) ← volume.fileWrite caller.files file buffer bufferSize.toInt
          pure (((caller.withFiles files).setHandle fdnum.toInt
            { handle with file := some file }).answer written)
  else
    pure (caller.answer (-1))

def sysseekHandler : Kernel (Caller σ) := do
  let (fd, caller) ← caller.popStack
  let (newpos, caller) ← caller.popStack
  match caller.getHandle fd.toInt with
  | none => pure caller
  | some handle =>
    match handle.file with
    | none => pure caller
    | some file => do
        let file ← fileSeek file newpos.toInt
        pure (caller.setHandle fd.toInt { handle with file := some file })

def systellHandler : Kernel (Caller σ) := do
  let (fd, caller) ← caller.popStack
  pure (caller.answer (((caller.getHandle fd.toInt).bind FileHandle.file).elim (-1) File.pos))

def syscloseHandler : Kernel (Caller σ) := do
  let (fd, caller) ← caller.popStack
  match caller.getHandle fd.toInt with
  | none => pure caller
  | some handle =>
    let files := handle.file.elim caller.files fun file => volume.close caller.files file.inode
    let files := handle.dir.elim files fun dir => volume.close files dir.inode
    pure { caller with
      files
      handles := caller.handles.eraseP fun handle => handle.fd == fd.toInt }

def sysmmapHandler : Kernel (Caller σ) := do
  let (_, caller) ← caller.popStack
  let (_, caller) ← caller.popStack
  pure (caller.answer (-1))

def sysmunmapHandler : Kernel (Caller σ) := do
  let (_, caller) ← caller.popStack
  pure caller

/-- Copy an absolute path into the field `pwd`, which cuts it off. -/
def Caller.changePwd (abspath : CString) (absolute : pathIsabs abspath = true) : Caller σ :=
  { caller with pwd := abspath.take (pathMax - 1), absolute := pathIsabs_take absolute (by decide) }

def dirChangedir : Option CString → Kernel (Caller σ)
  | none => .stop .asserted
  | some name =>
    if valid : pathIsvalid name = true then
      let abspath := pathAbspath caller.pwd name
      if volume.pathExists caller.files caller.pwd abspath then
        pure ((caller.changePwd abspath (pathIsabs_pathAbspath caller.absolute valid)).answerBool true)
      else
        pure (caller.answerBool false)
    else
      pure (caller.answerBool false)

def syschdirHandler : Kernel (Caller σ) := do
  let (dir, caller) ← caller.popStack
  let name ← userString dir
  dirChangedir volume caller name

def sysmkdirHandler : Kernel (Caller σ) := do
  let (dir, caller) ← caller.popStack
  match ← userString dir with
  | none => .stop .asserted
  | some name =>
    let isdir := volume.pathIsdir caller.files caller.pwd
    if pathIsvalid name && !isdir name && isdir (pathDirname (pathAbspath caller.pwd name)) then do
      let (success, files) ← volume.filesysMkdir caller.files caller.pwd name
      pure ((caller.withFiles files).answerBool success)
    else
      pure (caller.answerBool false)

/-- `dir_readdir`: the name is copied with at most `NAME_MAX` characters. -/
def dirReaddir (dir : Dir) (name : Word) : Kernel (Bool × Dir) :=
  match volume.nextName caller.files dir.inode dir.pos with
  | (none, pos) => pure (false, { dir with pos })
  | (some text, pos) =>
    if name = 0 then
      .stop .asserted
    else do
      copyOut name.toNat (text.take nameMax ++ [0])
      pure (true, { dir with pos })

def sysreaddirHandler : Kernel (Caller σ) := do
  let (fd, caller) ← caller.popStack
  let (name, caller) ← caller.popStack
  match caller.getHandle fd.toInt with
  | none => pure (caller.answer (-1))
  | some handle =>
    match handle.dir with
    | none => pure (caller.answer 0)
    | some dir => do
        let (success, dir) ← dirReaddir volume caller dir name
        pure ((caller.setHandle fd.toInt { handle with dir := some dir }).answerBool success)

def sysisdirHandler : Kernel (Caller σ) := askHandle caller (fun _ => 0) (fun _ => 1)

def sysinumberHandler : Kernel (Caller σ) := askHandle caller (fun file => file.inode) (fun dir => dir.inode)

/-- The system call numbers. -/
inductive SystemCall
  | halt | exit | exec | wait | create | remove | «open» | filesize | read | write | seek | tell | close
  | mmap | munmap | chdir | mkdir | readdir | isdir | inumber
  deriving DecidableEq

/-- The system call of a number. -/
def SystemCall.ofNumber (number : Word) : Option SystemCall :=
  [.halt, .exit, .exec, .wait, .create, .remove, .open, .filesize, .read, .write, .seek, .tell, .close,
    .mmap, .munmap, .chdir, .mkdir, .readdir, .isdir, .inumber][number.toNat]?

/-- The switch of `syscall_handler`. -/
def dispatch : Option SystemCall → Kernel (Caller σ)
  | none => pure caller
  | some .halt => syshaltHandler
  | some .exit => sysexitHandler caller
  | some .exec => sysexecHandler volume caller
  | some .wait => syswaitHandler volume caller
  | some .create => syscreateHandler volume caller
  | some .remove => sysremoveHandler volume caller
  | some .open => sysopenHandler volume caller
  | some .filesize => sysfilesizeHandler volume caller
  | some .read => sysreadHandler volume caller
  | some .write => syswriteHandler volume caller
  | some .seek => sysseekHandler caller
  | some .tell => systellHandler caller
  | some .close => syscloseHandler volume caller
  | some .mmap => sysmmapHandler caller
  | some .munmap => sysmunmapHandler caller
  | some .chdir => syschdirHandler volume caller
  | some .mkdir => sysmkdirHandler volume caller
  | some .readdir => sysreaddirHandler volume caller
  | some .isdir => sysisdirHandler caller
  | some .inumber => sysinumberHandler caller

def syscallHandler : Kernel (Caller σ) := do
  let (number, popped) ← caller.popStack
  let final ← dispatch volume popped (SystemCall.ofNumber number)
  pure { final with esp := caller.esp }

end Pintos.Userprog
