import Pintos.Filesys.Inode
import Pintos.Lib.Cursor
import Pintos.Lib.Execution

/-!
# The table of open inodes under concurrency

`inode_open` and `inode_close` of any number of threads.  Every access to the shared list or to a
counter is a step of its own, reading and writing a counter are two, and threads switch between any
two steps; what runs with interrupts disabled is one step.  `inode_open` holds `open_sema`, which a
thread passes only while its value is positive; `inode_close` does not.  An inode that was unlinked
is about to be freed: a step that still uses it as a member of the list has no result, and neither has
one that uses freed memory.
-/

namespace Pintos.Filesys

open Function

/-- The fields of `struct inode` that decide when it is found and when it is freed. -/
structure OpenInode where
  sector : Nat
  openCnt : Int
  deriving DecidableEq

/-- Where a thread is in `inode_open` or `inode_close`. -/
inductive TablePlace
  | idle
  /-- `sema_down (&open_sema)`. -/
  | down (sector : Nat)
  /-- Before `list_begin`. -/
  | first (sector : Nat)
  /-- At the loop test; `none` is `list_end`. -/
  | test (sector : Nat) (cursor : Option Ref)
  /-- Before `list_next`. -/
  | next (sector : Nat) (inode : Ref)
  /-- `inode_reopen` before it reads `open_cnt`. -/
  | load (inode : Ref)
  /-- `inode_reopen` before it writes `open_cnt`. -/
  | store (inode : Ref) (count : Int)
  /-- `allocate_inode`. -/
  | allocate (sector : Nat)
  /-- Before `list_push_front`. -/
  | push (sector : Nat) (inode : Ref)
  /-- Before `inode->sector = sector`. -/
  | setSector (sector : Nat) (inode : Ref)
  /-- Before `inode->open_cnt = 1`. -/
  | setCount (inode : Ref)
  /-- `sema_up (&open_sema)` and the return of the inode or of a null pointer. -/
  | up (result : Option Ref)
  /-- `inode_close` before it reads `open_cnt`. -/
  | closeLoad (inode : Ref)
  /-- `inode_close` before it writes `open_cnt`. -/
  | closeStore (inode : Ref) (count : Int)
  /-- Before `list_remove`. -/
  | unlink (inode : Ref)
  /-- `sema_down (&closing_sema)`. -/
  | closingDown (inode : Ref)
  /-- `sema_up (&closing_sema)`. -/
  | closingUp (inode : Ref)
  /-- Before `free`. -/
  | free (inode : Ref)
  deriving DecidableEq

/-- The inodes in memory and the list of the open ones. -/
structure InodeList where
  inodes : Ref → Option OpenInode
  /-- The address that `malloc` returns next. -/
  heapTop : Ref
  openInodes : List Ref

/-- The table, the semaphores, and what every thread does and has open. -/
structure OpenTable (threads : Nat) extends InodeList where
  openSema : Nat
  closingSema : Nat
  place : Fin threads → TablePlace
  /-- The inodes a thread has received from `inode_open` and has not passed to `inode_close`. -/
  held : Fin threads → List Ref

namespace OpenTable

variable {threads : Nat} (table : OpenTable threads) (thread : Fin threads)

def setPlace (place : TablePlace) : OpenTable threads :=
  { table with place := update table.place thread place }

def setInode (inode : Ref) (node : OpenInode) : OpenTable threads :=
  { table with inodes := update table.inodes inode (some node) }

def allocateInode (sector : Nat) : OpenTable threads :=
  { (table.setInode table.heapTop ⟨0, 0⟩).setPlace thread (.push sector table.heapTop) with
    heapTop := table.heapTop + 1 }

/-- `list_push_front`. -/
def pushFront (sector : Nat) (inode : Ref) : OpenTable threads :=
  { table.setPlace thread (.setSector sector inode) with
    openInodes := inode :: table.openInodes }

/-- `list_remove`. -/
def remove (inode : Ref) : OpenTable threads :=
  { table.setPlace thread (.closingDown inode) with
    openInodes := table.openInodes.erase inode }

/-- `free`. -/
def freeInode (inode : Ref) : OpenTable threads :=
  { table.setPlace thread .idle with inodes := update table.inodes inode none }

def advance : Option (OpenTable threads) :=
  match table.place thread with
  | .idle => none
  | .down sector =>
    if 0 < table.openSema then
      some { table.setPlace thread (.first sector) with openSema := table.openSema - 1 }
    else
      none
  | .first sector => some (table.setPlace thread (.test sector table.openInodes.head?))
  | .test sector none => some (table.setPlace thread (.allocate sector))
  | .test sector (some inode) =>
    if inode ∈ table.openInodes then
      (table.inodes inode).map fun node =>
        table.setPlace thread (if node.sector = sector then .load inode else .next sector inode)
    else
      none
  | .next sector inode =>
    if inode ∈ table.openInodes then
      some (table.setPlace thread (.test sector (Cursor.after table.openInodes inode)))
    else
      none
  | .load inode =>
    (table.inodes inode).map fun node => table.setPlace thread (.store inode node.openCnt)
  | .store inode count =>
    (table.inodes inode).map fun node =>
      (table.setInode inode { node with openCnt := count + 1 }).setPlace thread (.up (some inode))
  | .allocate sector => some (table.allocateInode thread sector)
  | .push sector inode => some (table.pushFront thread sector inode)
  | .setSector sector inode =>
    (table.inodes inode).map fun node =>
      (table.setInode inode { node with sector }).setPlace thread (.setCount inode)
  | .setCount inode =>
    (table.inodes inode).map fun node =>
      (table.setInode inode { node with openCnt := 1 }).setPlace thread (.up (some inode))
  | .up result =>
    some { table.setPlace thread .idle with
        openSema := table.openSema + 1
        held := update table.held thread (result.toList ++ table.held thread) }
  | .closeLoad inode =>
    (table.inodes inode).map fun node => table.setPlace thread (.closeStore inode node.openCnt)
  | .closeStore inode count =>
    (table.inodes inode).map fun node =>
      (table.setInode inode { node with openCnt := count - 1 }).setPlace thread
        (if count - 1 = 0 then .unlink inode else .idle)
  | .unlink inode =>
    if inode ∈ table.openInodes then some (table.remove thread inode) else none
  | .closingDown inode =>
    if 0 < table.closingSema then
      some { table.setPlace thread (.closingUp inode) with closingSema := table.closingSema - 1 }
    else
      none
  | .closingUp inode =>
    some { table.setPlace thread (.free inode) with closingSema := table.closingSema + 1 }
  | .free inode => some (table.freeInode thread inode)

end OpenTable

/-- What happens next: a call of `inode_open`, a call of `inode_close` for an inode the thread has, the
next step of a thread inside one of them, or `allocate_inode` finds no memory. -/
inductive TableEvent (threads : Nat)
  | inodeOpen (thread : Fin threads) (sector : Nat)
  | inodeClose (thread : Fin threads) (inode : Ref)
  | advance (thread : Fin threads)
  | outOfMemory (thread : Fin threads)
  deriving DecidableEq

def tableStep {threads : Nat} (table : OpenTable threads) :
    TableEvent threads → Option (OpenTable threads)
  | .inodeOpen thread sector =>
    if table.place thread = .idle then some (table.setPlace thread (.down sector)) else none
  | .inodeClose thread inode =>
    if table.place thread = .idle ∧ inode ∈ table.held thread then
      some { table.setPlace thread (.closeLoad inode) with
          held := update table.held thread ((table.held thread).erase inode) }
    else
      none
  | .advance thread => table.advance thread
  | .outOfMemory thread =>
    match table.place thread with
    | .allocate _ => some (table.setPlace thread (.up none))
    | _ => none

/-- After `inode_init`. -/
def tableInit (threads : Nat) : OpenTable threads where
  inodes _ := none
  heapTop := 0
  openInodes := []
  openSema := 1
  closingSema := 1
  place _ := .idle
  held _ := []

end Pintos.Filesys
