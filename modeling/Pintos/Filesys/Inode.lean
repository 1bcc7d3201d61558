import Mathlib.Logic.Function.Basic
import Pintos.Lib.Buffer

/-!
# Inodes and the free map

The functions of `inode.c`, `free-map.c` and the bitmap functions they call, on a state that holds
the device, the free map and the `struct inode`s in memory.  `none` as a whole result is a kernel
panic, a failed assertion, a wait that never ends or an access to freed memory.  `malloc` succeeds,
offsets are natural numbers, and one operation runs at a time, so that the semaphores are left out.
-/

namespace Pintos.Filesys

open Function

abbrev blockSectorSize : Nat := 512

abbrev nodeCapacity : Nat := 244

abbrev byteCapacity : Nat := 124928

abbrev freeMapSector : Nat := 0

abbrev rootDirSector : Nat := 1

def divRoundUp (size step : Nat) : Nat := (size + step - 1) / step

/-! ## Block pointers -/

/-- `inode_ptr`: 14 bits of sector number, one directory flag and one existence flag. -/
abbrev InodePtr := UInt16

def ptrCreate (sector : Nat) : InodePtr := UInt16.ofNat (sector &&& 0x3FFF)

def ptrGetAddress (ptr : InodePtr) : Nat := (ptr &&& 0x3FFF).toNat

def ptrSetExist (ptr : InodePtr) : InodePtr := ptr ||| 0x8000

def ptrExists (ptr : InodePtr) : Bool := ptr &&& 0x8000 != 0

def ptrSetIsdir (ptr : InodePtr) : InodePtr := ptr ||| 0x4000

def ptrIsdir (ptr : InodePtr) : Bool := ptr &&& 0x4000 != 0

/-! ## Inodes -/

structure InodeDisk where
  fileLength : Nat
  prevLength : Nat
  nodeLength : Nat
  self : InodePtr
  magic : Nat
  doubleptr : InodePtr
  blockptrs : Nat → InodePtr

abbrev inodeMagic : Nat := 0x494e4f44

namespace InodeDisk

/-- The sector image of an inode. -/
def toBlock (data : InodeDisk) : Buffer :=
  ((((((Buffer.zeros.put 0 4 data.fileLength).put 4 4 data.prevLength).put 8 4
    data.nodeLength).put 12 2 data.self.toNat).put 16 4 data.magic).put 20 2
      data.doubleptr.toNat).putTable 22 2 nodeCapacity fun index => (data.blockptrs index).toNat

/-- The inode in a sector image. -/
def ofBlock (block : Buffer) : InodeDisk where
  fileLength := block.word 0 4
  prevLength := block.word 4 4
  nodeLength := block.word 8 4
  self := UInt16.ofNat (block.word 12 2)
  magic := block.word 16 4
  doubleptr := UInt16.ofNat (block.word 20 2)
  blockptrs index := UInt16.ofNat (block.word (22 + 2 * index) 2)

/-- The `sector_idx` at which `inode_fill` starts. -/
def sectors (data : InodeDisk) : Nat := divRoundUp data.nodeLength blockSectorSize

end InodeDisk

/-- The address of a `struct inode`. -/
abbrev Ref := Nat

structure Inode where
  sector : Nat
  openCnt : Int
  removed : Bool
  denyWriteCnt : Nat
  isDir : Bool
  data : InodeDisk
  next : Option Ref

/-! ## Bitmaps -/

structure Bitmap where
  bitCnt : Nat
  bits : Nat → Bool

namespace Bitmap

/-- `bitmap_set_multiple`. -/
def setMultiple (map : Bitmap) (start cnt : Nat) (value : Bool) : Bitmap :=
  { map with bits := fun index =>
      if start ≤ index ∧ index < start + cnt then value else map.bits index }

/-- `bitmap_contains`. -/
def contains (map : Bitmap) (start cnt : Nat) (value : Bool) : Bool :=
  (List.range' start cnt).any fun index => map.bits index == value

/-- `bitmap_all`. -/
def all (map : Bitmap) (start cnt : Nat) : Bool := !map.contains start cnt false

/-- `bitmap_scan`. -/
def scan (map : Bitmap) (start cnt : Nat) (value : Bool) : Option Nat :=
  if cnt ≤ map.bitCnt then
    (List.range' start (map.bitCnt - cnt + 1 - start)).find? fun index =>
      !map.contains index cnt !value
  else
    none

/-- `bitmap_file_size`: whole words of 32 bits. -/
def fileSize (map : Bitmap) : Nat := 4 * divRoundUp map.bitCnt 32

/-- The bits as `bitmap_read` finds them in a file. -/
def ofBytes (bitCnt : Nat) (bytes : Buffer) : Bitmap where
  bitCnt
  bits index := index < bitCnt && bytes.bit index

end Bitmap

/-! ## The state -/

/-- The file system device, the free map and the inodes in memory. -/
structure Fs where
  /-- The number of sectors of `fs_device`. -/
  size : Nat
  disk : Nat → Buffer
  freeMap : Bitmap
  /-- The inode of `free_map_file`. -/
  freeMapFile : Option Ref
  inodes : Ref → Option Inode
  /-- The address that `malloc` returns next. -/
  heapTop : Ref
  openInodes : List Ref
  /-- What fresh memory holds. -/
  garbage : Ref → Inode

namespace Fs

/-- `block_read`, for which `-1` is past the end of any device. -/
def blockRead (fs : Fs) : Option Nat → Option Buffer
  | none => none
  | some sector => if sector < fs.size then some (fs.disk sector) else none

def blockWrite (fs : Fs) (sector : Option Nat) (block : Buffer) : Option Fs :=
  match sector with
  | none => none
  | some sector =>
    if sector < fs.size then
      some { fs with disk := update fs.disk sector block }
    else
      none

def setInode (fs : Fs) (inode : Ref) (node : Inode) : Fs :=
  { fs with inodes := update fs.inodes inode (some node) }

def free (fs : Fs) (inode : Ref) : Fs :=
  { fs with inodes := update fs.inodes inode none }

/-- `allocate_inode`, after it has found a sector for the inode. -/
def mallocInode (fs : Fs) (dataAddr : Nat) : Fs × Ref :=
  ({ fs.setInode fs.heapTop { fs.garbage fs.heapTop with
        sector := dataAddr
        openCnt := 0
        removed := false
        denyWriteCnt := 0
        next := none
        data := { (fs.garbage fs.heapTop).data with
            fileLength := 0
            prevLength := 0
            nodeLength := 0
            self := ptrCreate dataAddr
            doubleptr := 0
            magic := inodeMagic } } with
      heapTop := fs.heapTop + 1 },
    fs.heapTop)

/-- The inode in memory is the one of this sector. -/
def holds (fs : Fs) (sector : Nat) (inode : Ref) : Bool :=
  match fs.inodes inode with
  | some node => node.sector == sector
  | none => false

/-- The inode of this sector in `open_inodes`. -/
def findOpen (fs : Fs) (sector : Nat) : Option Ref := fs.openInodes.find? (fs.holds sector)

def inodeReopen (fs : Fs) (inode : Ref) : Option Fs :=
  (fs.inodes inode).map fun node => fs.setInode inode { node with openCnt := node.openCnt + 1 }

def inodeOpen (fs : Fs) (sector : Nat) : Option (Fs × Ref) :=
  match fs.findOpen sector with
  | some inode => (fs.inodeReopen inode).map fun fs => (fs, inode)
  | none => do
      let (fs, inode) := fs.mallocInode 0
      let node ← fs.inodes inode
      let block ← fs.blockRead (some sector)
      some ({ fs.setInode inode { node with
              sector
              openCnt := 1
              denyWriteCnt := 0
              removed := false
              next := none
              data := InodeDisk.ofBlock block } with
            openInodes := inode :: fs.openInodes },
          inode)

/-! ## Reading and writing -/

/-- `byte_to_inode`, with a bound on the depth of the recursion. -/
def byteToInode : Nat → Fs → Ref → Nat → Option (Fs × Option Ref)
  | 0, _, _, _ => none
  | fuel + 1, fs, inode, pos => do
      let node ← fs.inodes inode
      if pos < node.data.fileLength then
        if pos < node.data.prevLength then
          none
        else if pos - node.data.prevLength < byteCapacity then
          some (fs, some inode)
        else
          match node.next with
          | some next => if next = inode then none else byteToInode fuel fs next pos
          | none =>
            if ptrExists node.data.doubleptr then
              if node.sector = ptrGetAddress node.data.doubleptr then
                none
              else do
                let (fs, next) ← fs.inodeOpen (ptrGetAddress node.data.doubleptr)
                byteToInode fuel (fs.setInode inode { node with next := some next }) next pos
            else
              some (fs, none)
      else
        some (fs, none)

/-- `byte_to_sector`; a chain on the device has at most as many inodes as the device has sectors. -/
def byteToSector (fs : Fs) (inode : Ref) (pos : Nat) : Option (Fs × Option Nat) := do
  let (fs, found) ← byteToInode (fs.size + 1) fs inode pos
  match found with
  | none => some (fs, none)
  | some inode =>
    let node ← fs.inodes inode
    let addr := node.data.blockptrs ((pos - node.data.prevLength) / blockSectorSize)
    some (fs, if ptrExists addr then some (ptrGetAddress addr) else none)

def inodeLength (fs : Fs) (inode : Ref) : Option Nat :=
  (fs.inodes inode).map fun node => node.data.fileLength

/-- The number of bytes that one round of the loops below moves. -/
def chunkSize (length size offset : Nat) : Nat :=
  min size (min (length - offset) (blockSectorSize - offset % blockSectorSize))

/-- The loop of `inode_read_at`; every round reads a byte at least. -/
def readLoop : Nat → Fs → Ref → Buffer → Nat → Nat → Nat → Option (Fs × Buffer × Nat)
  | 0, fs, _, buffer, _, _, bytesRead => some (fs, buffer, bytesRead)
  | fuel + 1, fs, inode, buffer, size, offset, bytesRead =>
    if size = 0 then
      some (fs, buffer, bytesRead)
    else do
      let (fs, sectorIdx) ← fs.byteToSector inode offset
      let length ← fs.inodeLength inode
      let sectorOfs := offset % blockSectorSize
      let chunk := chunkSize length size offset
      if chunk = 0 then
        some (fs, buffer, bytesRead)
      else
        let block ← fs.blockRead sectorIdx
        let buffer := if sectorOfs = 0 ∧ chunk = blockSectorSize then
            buffer.copy bytesRead block 0 blockSectorSize
          else
            buffer.copy bytesRead block sectorOfs chunk
        readLoop fuel fs inode buffer (size - chunk) (offset + chunk) (bytesRead + chunk)

/-- `inode_read_at`: the buffer afterwards and the number of bytes read. -/
def inodeReadAt (fs : Fs) (inode : Ref) (buffer : Buffer) (size offset : Nat) :
    Option (Fs × Buffer × Nat) :=
  readLoop size fs inode buffer size offset 0

/-- The sector that one round of the loop of `inode_write_at` writes. -/
def writeChunk (fs : Fs) (sectorIdx : Option Nat) (buffer : Buffer)
    (sectorOfs bytesWritten chunk : Nat) : Option Fs :=
  let sectorLeft := blockSectorSize - sectorOfs
  if sectorOfs = 0 ∧ chunk = blockSectorSize then
    fs.blockWrite sectorIdx (buffer.drop bytesWritten)
  else do
    let bounce ← (if 0 < sectorOfs ∨ chunk < sectorLeft then
        fs.blockRead sectorIdx
      else
        some Buffer.zeros)
    fs.blockWrite sectorIdx (bounce.copy sectorOfs buffer bytesWritten chunk)

/-- The loop of `inode_write_at`. -/
def writeLoop : Nat → Fs → Ref → Buffer → Nat → Nat → Nat → Option (Fs × Nat)
  | 0, fs, _, _, _, _, bytesWritten => some (fs, bytesWritten)
  | fuel + 1, fs, inode, buffer, size, offset, bytesWritten =>
    if size = 0 then
      some (fs, bytesWritten)
    else do
      let (fs, sectorIdx) ← fs.byteToSector inode offset
      let length ← fs.inodeLength inode
      let chunk := chunkSize length size offset
      if chunk = 0 then
        some (fs, bytesWritten)
      else do
        let fs ← fs.writeChunk sectorIdx buffer (offset % blockSectorSize) bytesWritten chunk
        writeLoop fuel fs inode buffer (size - chunk) (offset + chunk) (bytesWritten + chunk)

/-- `inode_write_at`, given what it does to grow the file.  The sum of size and offset must not
overflow an `off_t`. -/
def writeAt (extend : Fs → Ref → Nat → Nat → Option (Fs × Option Ref)) (fs : Fs) (inode : Ref)
    (buffer : Buffer) (size offset : Nat) : Option (Fs × Nat) := do
  let node ← fs.inodes inode
  if node.denyWriteCnt ≠ 0 then
    some (fs, 0)
  else if 2 ^ 31 ≤ size + offset then
    none
  else if node.data.fileLength < size + offset then do
    let (fs, tail) ← extend fs inode (size + offset - node.data.fileLength) (size + offset)
    match tail with
    | none => some (fs, 0)
    | some _ => writeLoop size fs inode buffer size offset 0
  else
    writeLoop size fs inode buffer size offset 0

/-! ## The free map -/

/-- `bitmap_write` for the free map.  To grow its file, `inode_write_at` would call
`free_map_allocate` and so wait for the `extend_sema` that it holds. -/
def bitmapWrite (fs : Fs) (file : Ref) : Option (Fs × Bool) := do
  let size := fs.freeMap.fileSize
  let (fs, written) ← writeAt (fun _ _ _ _ => none) fs file (Buffer.ofBits fs.freeMap.bits) size 0
  some (fs, written == size)

def freeMapAllocate (fs : Fs) (cnt : Nat) : Option (Fs × Option Nat) :=
  match fs.freeMap.scan 0 cnt false with
  | none => some (fs, none)
  | some sector =>
    let flipped := { fs with freeMap := fs.freeMap.setMultiple sector cnt true }
    match fs.freeMapFile with
    | none => some (flipped, some sector)
    | some file => do
        let (fs, written) ← flipped.bitmapWrite file
        if written then
          some (fs, some sector)
        else
          some ({ fs with freeMap := fs.freeMap.setMultiple sector cnt false }, none)

def freeMapRelease (fs : Fs) (sector cnt : Nat) : Option Fs :=
  if fs.freeMap.all sector cnt then
    match fs.freeMapFile with
    | none => none
    | some file =>
      ({ fs with freeMap := fs.freeMap.setMultiple sector cnt false }.bitmapWrite file).map Prod.fst
  else
    none

/-! ## Growth -/

def allocateInode (fs : Fs) (onDisk : Bool) : Option (Fs × Option Ref) :=
  if onDisk then do
    let (fs, sector) ← fs.freeMapAllocate 1
    match sector with
    | none => some (fs, none)
    | some dataAddr =>
      let (fs, inode) := fs.mallocInode dataAddr
      some (fs, some inode)
  else
    let (fs, inode) := fs.mallocInode 0
    some (fs, some inode)

/-- The loop of `inode_fill`, on the data of the node.  The first argument is the number of sectors
from `sector_idx` to the end of the node. -/
def fillLoop : Nat → Fs → InodeDisk → Nat → Option (Fs × InodeDisk × Nat × Bool)
  | 0, fs, data, bytesLeft => some (fs, data, bytesLeft, true)
  | room + 1, fs, data, bytesLeft =>
    if bytesLeft = 0 then
      some (fs, data, bytesLeft, true)
    else do
      let (fs, sector) ← fs.freeMapAllocate 1
      match sector with
      | none => some (fs, data, bytesLeft, false)
      | some dataAddr =>
        let fs ← fs.blockWrite (some dataAddr) Buffer.zeros
        let sectorIdx := nodeCapacity - (room + 1)
        let diff := (sectorIdx + 1) * blockSectorSize - data.nodeLength
        let added := if bytesLeft < diff then bytesLeft else diff
        fillLoop room fs { data with
            blockptrs := update data.blockptrs sectorIdx (ptrSetExist (ptrCreate dataAddr))
            nodeLength := data.nodeLength + added }
          (bytesLeft - added)

/-- `inode_fill`: the bytes that are left, and whether it succeeded. -/
def inodeFill (fs : Fs) (current : Ref) (bytesLeft length : Nat) : Option (Fs × Nat × Bool) := do
  let node ← fs.inodes current
  let (fs, data, bytesLeft, filled) ←
    fillLoop (nodeCapacity - node.data.sectors) fs node.data bytesLeft
  if filled then
    let data := { data with fileLength := length }
    let fs ← (fs.setInode current { node with data }).blockWrite (some node.sector) data.toBlock
    some (fs, bytesLeft, true)
  else
    some (fs.setInode current { node with data }, bytesLeft, false)

/-- The second half of `inode_extend_link`, which links a new inode; the recursive call is an
argument. -/
def linkNext (extend : Fs → Ref → Nat → Option (Fs × Option Ref)) (fs : Fs) (prev : Ref)
    (bytesLeft length : Nat) : Option (Fs × Option Ref) := do
  let (fs, allocated) ← fs.allocateInode true
  match allocated with
  | none => some (fs, none)
  | some current =>
    let (fs, bytesLeft, filled) ← fs.inodeFill current bytesLeft length
    if !filled then
      some (fs.free current, none)
    else do
      let node ← fs.inodes current
      let prevNode ← fs.inodes prev
      let linked := fs.setInode prev { prevNode with
          next := some current
          data := { prevNode.data with doubleptr := ptrSetExist (ptrCreate node.sector) } }
      let (fs, tail) ← extend linked current bytesLeft
      match tail with
      | none => some (fs.free current, none)
      | some _ => do
          let prevNode ← fs.inodes prev
          let node ← fs.inodes current
          let data := { node.data with fileLength := prevNode.data.fileLength }
          let fs := fs.setInode current { node with data }
          let fs ← fs.blockWrite (some prevNode.sector) prevNode.data.toBlock
          let fs ← fs.blockWrite (some node.sector) data.toBlock
          some (fs, some current)

/-- `inode_extend_link`, with a bound on the depth of the recursion. -/
def extendLink : Nat → Fs → Ref → Nat → Nat → Option (Fs × Option Ref)
  | 0, _, _, _, _ => none
  | fuel + 1, fs, prev, bytesLeft, length => do
      let (fs, bytesLeft, filled) ← fs.inodeFill prev bytesLeft length
      if !filled then
        some (fs, none)
      else if bytesLeft = 0 then
        some (fs, some prev)
      else
        linkNext (fun fs prev bytesLeft => extendLink fuel fs prev bytesLeft length) fs prev
          bytesLeft length

/-- `inode_extend_link`: every level of the recursion uses up at least one byte. -/
def inodeExtendLink (fs : Fs) (prev : Ref) (bytesLeft length : Nat) : Option (Fs × Option Ref) :=
  extendLink (bytesLeft + 1) fs prev bytesLeft length

def inodeWriteAt (fs : Fs) (inode : Ref) (buffer : Buffer) (size offset : Nat) :
    Option (Fs × Nat) :=
  writeAt inodeExtendLink fs inode buffer size offset

/-- `inode_create`; the length is not negative as an `off_t`. -/
def inodeCreate (fs : Fs) (sector length : Nat) : Option (Fs × Bool) :=
  if 2 ^ 31 ≤ length then
    none
  else do
    let (fs, allocated) ← fs.allocateInode false
    let main ← allocated
    let node ← fs.inodes main
    let data := { node.data with self := ptrCreate sector, fileLength := length }
    let (fs, tail) ← (fs.setInode main { node with sector, data }).inodeExtendLink main length length
    match tail with
    | none => some (fs.free main, false)
    | some _ => do
        let node ← fs.inodes main
        let fs ← fs.blockWrite (some sector) node.data.toBlock
        some (fs, true)

/-! ## Closing -/

/-- `inode_close`, with a bound on the depth of the recursion. -/
def close : Nat → Fs → Ref → Option Fs
  | 0, _, _ => none
  | fuel + 1, fs, inode => do
      let node ← fs.inodes inode
      if node.next = some inode then
        none
      else if node.openCnt - 1 = 0 then do
        let unlisted := { fs with openInodes := fs.openInodes.erase inode }
        let fs ← (if node.removed then unlisted.freeMapRelease node.sector 1 else some unlisted)
        let fs ← node.next.elim (some fs) (close fuel fs)
        some (fs.free inode)
      else
        some (fs.setInode inode { node with openCnt := node.openCnt - 1 })

def inodeClose (fs : Fs) (inode : Ref) : Option Fs := close (fs.size + 1) fs inode

def inodeRemove (fs : Fs) (inode : Ref) : Option Fs :=
  (fs.inodes inode).map fun node => fs.setInode inode { node with removed := true }

def inodeIsDir (fs : Fs) (inode : Ref) : Option Bool :=
  (fs.inodes inode).map fun node => ptrIsdir node.data.self

def inodeMarkDir (fs : Fs) (inode : Ref) : Option Fs :=
  (fs.inodes inode).map fun node =>
    fs.setInode inode { node with data := { node.data with self := ptrSetIsdir node.data.self } }

/-! ## The free map file -/

/-- `free_map_init`, on a device with any contents. -/
def freeMapInit (size : Nat) (disk : Nat → Buffer) (garbage : Ref → Inode) : Fs where
  size
  disk
  freeMap := ⟨size, fun sector => sector == freeMapSector || sector == rootDirSector⟩
  freeMapFile := none
  inodes _ := none
  heapTop := 0
  openInodes := []
  garbage

def freeMapCreate (fs : Fs) : Option Fs := do
  let (fs, created) ← fs.inodeCreate freeMapSector fs.freeMap.fileSize
  if created then do
    let (fs, inode) ← fs.inodeOpen freeMapSector
    let (fs, written) ← { fs with freeMapFile := some inode }.bitmapWrite inode
    if written then some fs else none
  else
    none

def freeMapOpen (fs : Fs) : Option Fs := do
  let (fs, inode) ← fs.inodeOpen freeMapSector
  let (fs, bytes, read) ← fs.inodeReadAt inode (Buffer.ofBits fs.freeMap.bits) fs.freeMap.fileSize 0
  if read = fs.freeMap.fileSize then
    some { fs with
        freeMapFile := some inode
        freeMap := Bitmap.ofBytes fs.freeMap.bitCnt bytes }
  else
    none

def freeMapClose (fs : Fs) : Option Fs := do
  let inode ← fs.freeMapFile
  fs.inodeClose inode

end Fs

end Pintos.Filesys
