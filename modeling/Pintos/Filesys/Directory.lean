import Pintos.Filesys.Path
import Pintos.Filesys.Format

/-!
# Directories

The functions of `directory.c`, and those of `path.c` that walk through the directories.  A directory
is a file of entries of 24 bytes.  A `struct dir` is the address of its inode; it is opened and closed
with it.  `none` as a whole result is again a panic or undefined behaviour, such as a path too long
for a buffer on the stack.
-/

namespace Pintos.Filesys

open Function Tokens

abbrev nameMax : Nat := 14

abbrev pathMax : Nat := 256

/-- `sizeof (struct dir_entry)`. -/
abbrev entrySize : Nat := 24

/-- The bytes of a `struct dir_entry`. -/
abbrev DirEntry := Buffer

namespace DirEntry

def inodeSector (e : DirEntry) : Nat := e.word 0 4

/-- The string in the field `name`; without a null byte there, a reader goes on to the next field. -/
def name (e : DirEntry) : CString := ((List.range 20).map fun index => e (4 + index)).takeWhile (· ≠ 0)

def inUse (e : DirEntry) : Bool := e 19 ≠ 0

def isDir (e : DirEntry) : Bool := e 20 ≠ 0

/-- The entry is in use and has this name. -/
def isNamed (name : CString) (e : DirEntry) : Bool := e.inUse && name == e.name

/-- `strlcpy` of a string into the field `name`. -/
def setName (e : DirEntry) (name : CString) : DirEntry :=
  let text := name.take nameMax ++ [0]
  e.copy 4 (fun index => text.getD index 0) 0 text.length

/-- The entry that `dir_add` and `dir_create` write into a free slot. -/
def filled (e : DirEntry) (isDir : Bool) (name : CString) (sector : Nat) : DirEntry :=
  let used : DirEntry := update (update e 19 1) 20 (if isDir then 1 else 0)
  (used.setName name).put 0 4 sector

/-- The entry that `dir_remove` writes. -/
def erased (e : DirEntry) : DirEntry := update e 19 0

end DirEntry

namespace Fs

/-- The loops of `lookup`, `dir_add`, `dir_create` and `dir_is_empty` over the entries: the last entry
read, its offset, and whether the loop has stopped at it. -/
def scan (stop : DirEntry → Bool) : Nat → Fs → Ref → DirEntry → Nat →
    Option (Fs × DirEntry × Nat × Bool)
  | 0, _, _, _, _ => none
  | fuel + 1, fs, inode, e, ofs => do
      let (fs, e, bytesRead) ← fs.inodeReadAt inode e entrySize ofs
      if bytesRead = entrySize then
        if stop e then
          some (fs, e, ofs, true)
        else
          scan stop fuel fs inode e (ofs + entrySize)
      else
        some (fs, e, ofs, false)

/-- Such a loop from the first entry; it ends at the end of the file. -/
def scanDir (stop : DirEntry → Bool) (fs : Fs) (inode : Ref) : Option (Fs × DirEntry × Nat × Bool) := do
  let length ← fs.inodeLength inode
  scan stop (length / entrySize + 1) fs inode Buffer.zeros 0

/-- `lookup`: the entry and its offset. -/
def lookup (fs : Fs) (dir : Ref) (name : CString) : Option (Fs × Option (DirEntry × Nat)) :=
  if pathIsvalid name then do
    let (fs, e, ofs, found) ← fs.scanDir (DirEntry.isNamed name) dir
    some (fs, if found then some (e, ofs) else none)
  else
    some (fs, none)

def dirOpenRoot (fs : Fs) : Option (Fs × Ref) := fs.inodeOpen rootDirSector

def dirClose (fs : Fs) (dir : Ref) : Option Fs := fs.inodeClose dir

/-- `dir_open (inode_open (dir->inode->sector))`. -/
def dirOpenAgain (fs : Fs) (dir : Ref) : Option (Fs × Ref) := do
  let node ← fs.inodes dir
  fs.inodeOpen node.sector

/-! ## Walks -/

/-- `dir_child`, which returns the directory in its last parameter.  An entry that is not a directory
stays open. -/
def dirChild (fs : Fs) (current : Ref) (child : CString) : Option (Fs × Option Ref) := do
  let (fs, found) ← fs.lookup current child
  match found with
  | none => some (fs, none)
  | some (e, _) => do
      let (fs, inode) ← fs.inodeOpen e.inodeSector
      some (fs, if e.isDir then some inode else none)

/-- The loop of `dir_get_leaf`. -/
def leafLoop (name : CString) : List CString → Fs → Ref → Ref → Option (Fs × Option Ref)
  | [], fs, lastdir, tmpdir =>
    if name.getLast? = some slash then
      (fs.dirClose tmpdir).map fun fs => (fs, some lastdir)
    else
      (fs.dirClose lastdir).map fun fs => (fs, some tmpdir)
  | token :: rest, fs, lastdir, tmpdir => do
      let fs ← fs.dirClose lastdir
      let (fs, lastdir) ← fs.dirOpenAgain tmpdir
      let fs ← fs.dirClose tmpdir
      let (fs, child) ← fs.dirChild lastdir token
      match child with
      | some tmpdir => leafLoop name rest fs lastdir tmpdir
      | none => some (fs, if token = name then none else some lastdir)

def dirGetLeaf (fs : Fs) (name : CString) : Option (Fs × Option Ref) :=
  if !pathIsvalid name then
    some (fs, none)
  else if name = [slash] then
    fs.dirOpenRoot.map fun (fs, dir) => (fs, some dir)
  else if pathMax ≤ name.length then
    none
  else do
    let (fs, tmpdir) ← fs.dirOpenRoot
    let (fs, lastdir) ← fs.dirOpenAgain tmpdir
    leafLoop name (tokens slash name) fs lastdir tmpdir

/-- The loops of `path_exists`, `path_isfile` and `path_isdir`, which differ in what they ask of the
last entry. -/
def walk (last : DirEntry → Bool) : List CString → Fs → Ref → Option (Fs × Bool)
  | [], fs, _ => some (fs, true)
  | [token], fs, dir => do
      let (fs, found) ← fs.lookup dir token
      let fs ← fs.dirClose dir
      some (fs, found.any fun entry => last entry.1)
  | token :: sentry :: rest, fs, dir => do
      let (fs, found) ← fs.lookup dir token
      let fs ← fs.dirClose dir
      match found with
      | none => some (fs, false)
      | some (entry, _) =>
        if entry.isDir then do
          let (fs, dir) ← fs.inodeOpen entry.inodeSector
          walk last (sentry :: rest) fs dir
        else
          some (fs, false)

/-- The root of an absolute path is opened, and stays open if there is no token. -/
def pathWalk (atRoot : Bool) (last : DirEntry → Bool) (fs : Fs) (cwd path : CString) :
    Option (Fs × Bool) :=
  if pathIsvalid path then do
    let (fs, dir) ← fs.dirOpenRoot
    match tokens slash (pathAbspath cwd path) with
    | [] => some (fs, atRoot)
    | token :: rest => walk last (token :: rest) fs dir
  else
    some (fs, false)

def pathExists (fs : Fs) (cwd path : CString) : Option (Fs × Bool) :=
  pathWalk true (fun _ => true) fs cwd path

def pathIsfile (fs : Fs) (cwd path : CString) : Option (Fs × Bool) :=
  pathWalk false (fun e => !e.isDir) fs cwd path

def pathIsdir (fs : Fs) (cwd path : CString) : Option (Fs × Bool) :=
  pathWalk true DirEntry.isDir fs cwd path

/-! ## Entries -/

/-- `dir_lookup`, which also marks the inode. -/
def dirLookup (fs : Fs) (cwd name : CString) : Option (Fs × Option Ref) := do
  let abspath := pathAbspath cwd name
  let (fs, leaf) ← fs.dirGetLeaf (pathDirname abspath)
  match leaf with
  | none => some (fs, none)
  | some foo => do
      let (fs, found) ← fs.lookup foo (pathBasename abspath)
      match found with
      | none => (fs.dirClose foo).map fun fs => (fs, none)
      | some (e, _) => do
          let (fs, inode) ← fs.inodeOpen e.inodeSector
          let node ← fs.inodes inode
          ((fs.setInode inode { node with isDir := e.isDir }).dirClose foo).map fun fs =>
            (fs, some inode)

/-- What `dir_add` and `dir_create` do in the directory: look for the name, look for a free slot or
the end, and write the entry. -/
def insertEntry (fs : Fs) (dir : Ref) (name : CString) (isDir : Bool) (sector : Nat) :
    Option (Fs × Bool) := do
  let (fs, found) ← fs.lookup dir name
  if found.isSome then
    some (fs, false)
  else do
    let (fs, e, ofs, _) ← fs.scanDir (fun e => !e.inUse) dir
    let (fs, written) ← fs.inodeWriteAt dir (e.filled isDir name sector) entrySize ofs
    some (fs, written == entrySize)

def dirAdd (fs : Fs) (cwd name : CString) (inodeSector : Nat) : Option (Fs × Bool) := do
  let abspath := pathAbspath cwd name
  let (fs, leaf) ← fs.dirGetLeaf (pathDirname abspath)
  match leaf with
  | none => some (fs, false)
  | some dir => do
      let (fs, success) ← fs.insertEntry dir (pathBasename abspath) false inodeSector
      (fs.dirClose dir).map fun fs => (fs, success)

/-- The second half of `dir_create`, which makes the inode of the new directory. -/
def makeDirectory (fs : Fs) (sector : Nat) : Option (Fs × Bool) := do
  let (fs, success) ← fs.inodeCreate sector blockSectorSize
  let (fs, inode) ← fs.inodeOpen sector
  let fs ← fs.inodeMarkDir inode
  let node ← fs.inodes inode
  let fs ← fs.blockWrite (some node.sector) node.data.toBlock
  (fs.inodeClose inode).map fun fs => (fs, success)

def dirCreate (fs : Fs) (cwd name : CString) (sector : Nat) : Option (Fs × Bool) := do
  let abspath := pathAbspath cwd name
  let (fs, leaf) ← fs.dirGetLeaf (pathDirname abspath)
  match leaf with
  | none => some (fs, false)
  | some foo => do
      let (fs, success) ← fs.insertEntry foo (pathBasename abspath) true sector
      let (fs, success) ← (if success then fs.makeDirectory sector else some (fs, false))
      (fs.dirClose foo).map fun fs => (fs, success)

/-- `is_path`.  The length of the first token is taken even if there is none. -/
def isPath (name : CString) : Option Bool :=
  if pathMax ≤ name.length then
    none
  else
    (tokens slash name).head?.map fun token => pathIsvalid name && token.length != name.length

/-- The directory in which `dir_remove` looks, and the name it looks for. -/
def removeTarget (fs : Fs) (dir : Ref) (name : CString) : Option (Fs × Option (Ref × CString)) := do
  if ← isPath name then
    let pathname := (name.reverse.dropWhile (· ≠ slash)).tail.reverse
    let (fs, foo) ← (if pathname = [] then
        fs.dirOpenRoot.map fun (fs, dir) => (fs, some dir)
      else
        fs.dirGetLeaf pathname)
    let toDelete ← (tokens slash name).getLast?
    some (fs, foo.map fun foo => (foo, toDelete))
  else
    (fs.dirOpenAgain dir).map fun (fs, foo) => (fs, some (foo, name))

/-- The part of `dir_remove` in that directory. -/
def removeEntry (fs : Fs) (foo : Ref) (toDelete : CString) : Option (Fs × Bool) := do
  let (fs, found) ← fs.lookup foo toDelete
  match found with
  | none => (fs.dirClose foo).map fun fs => (fs, false)
  | some (e, ofs) => do
      let (fs, inode) ← fs.inodeOpen e.inodeSector
      let node ← fs.inodes inode
      let isDirectory ← fs.inodeIsDir inode
      let (fs, success) ← (if isDirectory && node.openCnt > 1 then
          some (fs, false)
        else do
          let (fs, written) ← fs.inodeWriteAt foo e.erased entrySize ofs
          if written = entrySize then
            (fs.inodeRemove inode).map fun fs => (fs, true)
          else
            some (fs, false))
      let fs ← fs.dirClose foo
      (fs.inodeClose inode).map fun fs => (fs, success)

def dirRemove (fs : Fs) (dir : Ref) (name : CString) : Option (Fs × Bool) := do
  let (fs, target) ← fs.removeTarget dir name
  match target with
  | none => some (fs, false)
  | some (foo, toDelete) => fs.removeEntry foo toDelete

/-- `dir_readdir`, given the position in the `struct dir`: the next position and the name. -/
def dirReaddir (fs : Fs) (dir : Ref) (pos : Nat) : Option (Fs × Nat × Option CString) := do
  let length ← fs.inodeLength dir
  let (fs, e, ofs, found) ← scan DirEntry.inUse (length / entrySize + 1) fs dir Buffer.zeros pos
  some (if found then (fs, ofs + entrySize, some (e.name.take nameMax)) else (fs, ofs, none))

def dirIsEmpty (fs : Fs) (cwd name : CString) : Option (Fs × Bool) :=
  if pathIsvalid name then do
    let (fs, leaf) ← fs.dirGetLeaf (pathAbspath cwd name)
    let dir ← leaf
    let (fs, _, _, found) ← fs.scanDir DirEntry.inUse dir
    (fs.dirClose dir).map fun fs => (fs, !found)
  else
    some (fs, false)

/-! ## `filesys.c` and the system calls -/

/-- What `filesys_create` and `filesys_mkdir` do for a new inode, given how it is entered into a
directory. -/
def createIn (enter : Fs → Nat → Option (Fs × Bool)) (fs : Fs) (initialSize : Nat) :
    Option (Fs × Bool) := do
  let (fs, dir) ← fs.dirOpenRoot
  let (fs, allocated) ← fs.freeMapAllocate 1
  match allocated with
  | none => (fs.dirClose dir).map fun fs => (fs, false)
  | some inodeSector => do
      let (fs, created) ← fs.inodeCreate inodeSector initialSize
      let (fs, success) ← (if created then enter fs inodeSector else some (fs, false))
      let fs ← (if !success && inodeSector != 0 then fs.freeMapRelease inodeSector 1 else some fs)
      (fs.dirClose dir).map fun fs => (fs, success)

def filesysCreate (fs : Fs) (cwd name : CString) (initialSize : Nat) : Option (Fs × Bool) :=
  if nameMax < name.length then
    some (fs, false)
  else
    createIn (fun fs sector => fs.dirAdd cwd name sector) fs initialSize

def filesysMkdir (fs : Fs) (cwd name : CString) : Option (Fs × Bool) :=
  createIn (fun fs sector => fs.dirCreate cwd name sector) fs blockSectorSize

/-- `filesys_open`: the inode of the new file. -/
def filesysOpen (fs : Fs) (cwd name : CString) : Option (Fs × Option Ref) := do
  let (fs, dir) ← fs.dirOpenRoot
  let (fs, inode) ← (if pathIsroot name then some (fs, some dir) else fs.dirLookup cwd name)
  (fs.dirClose dir).map fun fs => (fs, inode)

def filesysRemove (fs : Fs) (name : CString) : Option (Fs × Bool) := do
  let (fs, dir) ← fs.dirOpenRoot
  let (fs, success) ← fs.dirRemove dir name
  (fs.dirClose dir).map fun fs => (fs, success)

def sysremoveHandler (fs : Fs) (cwd filename : CString) : Option (Fs × Bool) :=
  if pathIsroot filename then
    some (fs, false)
  else do
    let (fs, isDirectory) ← fs.pathIsdir cwd filename
    let (fs, empty) ← (if isDirectory then fs.dirIsEmpty cwd filename else some (fs, true))
    if !empty || pathAbspath cwd filename == cwd then
      some (fs, false)
    else
      fs.filesysRemove filename

end Fs

end Pintos.Filesys
