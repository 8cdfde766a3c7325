import LtMicros.Ata
import LtMicros.FsService

/-!
# The ext2 file system of the service

Mounting a disk, reading an inode and reading a file. The structures of the disk lie in the
memory of the program as the packed structures of `Ext2.h` do; the members of an `Ext2Disk`,
which nobody writes to after `Ext2ReadDiskOnDevice`, are kept apart from it. Arguments are not
null. The function with most of the loops is cut at its loops.
-/

namespace LtMicros

open Lib

abbrev mbrReservedSize : ℕ := 1024
abbrev inodeNbDirectPtr : ℕ := 12
abbrev inodeSinglyIndirectPtrIndex : ℕ := 12
abbrev inodeDoublyIndirectPtrIndex : ℕ := 13
abbrev inodeTriplyIndirectPtrIndex : ℕ := 14

/-- `sizeof` of the structures. -/
abbrev sizeofExt2SuperBlock : ℕ := 1024
abbrev sizeofExt2GroupDesc : ℕ := 32
abbrev sizeofExt2Inode : ℕ := 128
abbrev sizeofExt2Disk : ℕ := 20

/-- The members of the structures that are used. -/
structure Ext2SuperBlock where
  inodesCount : ℕ
  blocksCount : ℕ
  logBlockSize : ℕ
  blocksPerGroup : ℕ
  inodesPerGroup : ℕ
  inodeSize : ℕ

/-- The structure behind a pointer. -/
def ext2SuperBlock (m : Bytes) (superBlock : ℕ) : Ext2SuperBlock where
  inodesCount := m.load32 superBlock
  blocksCount := m.load32 (superBlock + 4)
  logBlockSize := m.load32 (superBlock + 24)
  blocksPerGroup := m.load32 (superBlock + 32)
  inodesPerGroup := m.load32 (superBlock + 40)
  inodeSize := m.load32 (superBlock + 88) % 2 ^ 16

/-- `groupDec[index].inodeTable`. -/
def groupInodeTable (m : Bytes) (groupDec index : ℕ) : ℕ :=
  m.load32 ((groupDec + sizeofExt2GroupDesc * index + 8) % 2 ^ 32)

/-- `inode->size`. -/
def inodeFileSize (m : Bytes) (inode : ℕ) : ℕ := m.load32 (inode + 4)

/-- `inode->block[i]`. -/
def inodeBlock (m : Bytes) (inode i : ℕ) : ℕ := m.load32 (inode + 40 + 4 * i)

/-- `Ext2Disk`. -/
structure Ext2Disk where
  device : AtaDevice
  superBlock : ℕ
  blockSize : ℕ
  groups : ℕ
  groupDec : ℕ

/-- Multiplication of 32-bit words. -/
def mul32 (a b : ℕ) : ℕ := a * b % 2 ^ 32

/-- `1024 << logBlockSize`, where the processor takes the count modulo 32. -/
def blockSizeOf (logBlockSize : ℕ) : ℕ := 1024 * 2 ^ (logBlockSize % 32) % 2 ^ 32

theorem blockSizeOf_lt (k : ℕ) : blockSizeOf k < 2 ^ 32 := Nat.mod_lt _ (by decide)

namespace UserProgram

/-- What `ReadSuperBlock` and `ReadGroupDesc` do: a structure is read into a new buffer. -/
def readStructure (fuel : ℕ) (w : UserProgram) (device : AtaDevice) (offset size : ℕ) :
    Traced Access (Status × Option ℕ × UserProgram) := do
  let (localStructure, w) ← w.heapAlloc fuel (int32 size)
  match localStructure with
  | none => return (.statusAllocFailed, none, w)
  | some localStructure => do
    let (ret, w) ← w.ataRead fuel device localStructure offset size
    if ret < 0 then do
      let w ← w.heapFree localStructure
      return (.statusFailure, none, w)
    else return (.statusSuccess, some localStructure, w)

/-- `ReadSuperBlock`. The size and the offset change places in its call of `AtaRead`. -/
def readSuperBlock (fuel : ℕ) (w : UserProgram) (device : AtaDevice) :
    Traced Access (Status × Option ℕ × UserProgram) :=
  w.readStructure fuel device sizeofExt2SuperBlock mbrReservedSize

/-- Where `ReadGroupDesc` finds the group table. -/
def groupDescOffset (blockSize : ℕ) : ℕ := if blockSize = mbrReservedSize then 2048 else blockSize

/-- `ReadGroupDesc`. -/
def readGroupDesc (fuel : ℕ) (w : UserProgram) (device : AtaDevice) (groups blockSize : ℕ) :
    Traced Access (Status × Option ℕ × UserProgram) :=
  w.readStructure fuel device (groupDescOffset blockSize) (groups * sizeofExt2GroupDesc)

/-- `count / perGroup + (count % perGroup ? 1 : 0)`. -/
def groupsFor (count perGroup : ℕ) : ℕ :=
  add32 (count / perGroup) (if count % perGroup ≠ 0 then 1 else 0)

/-- The same in a run, where a division by zero is a fault. -/
def groupCount (count perGroup : ℕ) : Traced Access ℕ := do
  Traced.note (.div perGroup)
  if perGroup = 0 then Traced.lift .fault
  else return groupsFor count perGroup

/-- `Ext2ReadDiskOnDevice` after `ReadSuperBlock`. -/
def readGroups (fuel : ℕ) (w : UserProgram) (device : AtaDevice) (localDisk superBlock : ℕ) :
    Traced Access (Status × Option Ext2Disk × UserProgram) := do
  let sb := ext2SuperBlock w.h.mem superBlock
  let blockSize := blockSizeOf sb.logBlockSize
  let i ← groupCount sb.blocksCount sb.blocksPerGroup
  let j ← groupCount sb.inodesCount sb.inodesPerGroup
  let groups := (if i > j then i else j) % 2 ^ 16
  let (status, groupDec, w) ← w.readGroupDesc fuel device groups blockSize
  match groupDec with
  | none => do
    let w ← w.heapFree localDisk
    let w ← w.heapFree superBlock
    return (status, none, w)
  | some groupDec =>
    return (.statusSuccess, some ⟨device, superBlock, blockSize, groups, groupDec⟩, w)

/-- `Ext2ReadDiskOnDevice`. -/
def ext2ReadDiskOnDevice (fuel : ℕ) (w : UserProgram) (device : AtaDevice) :
    Traced Access (Status × Option Ext2Disk × UserProgram) := do
  let (localDisk, w) ← w.heapAlloc fuel sizeofExt2Disk
  match localDisk with
  | none => return (.statusAllocFailed, none, w)
  | some localDisk => do
    let (status, superBlock, w) ← w.readSuperBlock fuel device
    match superBlock with
    | none => do
      let w ← w.heapFree localDisk
      return (status, none, w)
    | some superBlock => w.readGroups fuel device localDisk superBlock

/-- `inodeGroupIndex` and `inodeIndex`. -/
def inodeGroupIndex (num : ℤ) (sb : Ext2SuperBlock) : ℕ := (num - 1).toNat / sb.inodesPerGroup

def inodeIndex (num : ℤ) (sb : Ext2SuperBlock) : ℕ := (num - 1).toNat % sb.inodesPerGroup

/-- The `offset` of `Ext2ReadInode`. -/
def inodeOffset (m : Bytes) (disk : Ext2Disk) (num : ℤ) : ℕ :=
  let sb := ext2SuperBlock m disk.superBlock
  add32 (mul32 (groupInodeTable m disk.groupDec (inodeGroupIndex num sb)) disk.blockSize)
    (mul32 (inodeIndex num sb) sb.inodeSize)

/-- `Ext2ReadInode`. The null pointer that a failing `HeapAlloc` gives is used all the same. -/
def ext2ReadInode (fuel : ℕ) (w : UserProgram) (disk : Ext2Disk) (num : ℤ) :
    Traced Access (Status × Option ℕ × UserProgram) := do
  if num < 1 then return (.statusInvalidParameter, none, w)
  else do
    let (localInode, w) ← w.heapAlloc fuel sizeofExt2Inode
    let localInode := localInode.getD 0
    let sb := ext2SuperBlock w.h.mem disk.superBlock
    Traced.note (.div sb.inodesPerGroup)
    if sb.inodesPerGroup = 0 then Traced.lift .fault
    else do
      Traced.note (.group (inodeGroupIndex num sb))
      let offset := inodeOffset w.h.mem disk num
      let (ret, w) ← w.ataRead fuel disk.device localInode offset sb.inodeSize
      if ret < 0 then do
        let w ← w.heapFree localInode
        return (.statusFailure, none, w)
      else return (.statusSuccess, some localInode, w)

/-! ## `Ext2ReadFile` -/

/-- The program in the loops of `Ext2ReadFile`, with `fileOffset`, and `fileSize`, which counts
what is left. -/
structure FileState where
  w : UserProgram
  fileOffset : ℕ
  fileSize : ℕ

/-- What each loop does with a block: it is read, and copied to the end of what there is. -/
def FileState.readBlock (fuel : ℕ) (disk : Ext2Disk) (block fileContent : ℕ) (s : FileState)
    (number : ℕ) : Traced Access (Status × FileState) := do
  let offset := mul32 number disk.blockSize
  let (ret, w) ← s.w.ataRead fuel disk.device block offset disk.blockSize
  if ret < 0 then return (.statusFailure, { s with w })
  else do
    let size := if s.fileSize > disk.blockSize then disk.blockSize else s.fileSize
    Traced.note (.content w.live fileContent s.fileOffset s.fileSize size)
    let w ← w.memCopy block (fileContent + s.fileOffset) size
    return (.statusSuccess, ⟨w, add32 s.fileOffset size, sub32 s.fileSize size⟩)

/-- What follows in each loop. -/
def nextTurn (i : ℕ) : Status × FileState → Traced Access (ℕ × FileState ⊕ Status × FileState)
  | (status, s) => if status.failed then return .inr (status, s) else return .inl (i + 1, s)

/-- One turn of the loop over the direct blocks. -/
def directTurn (fuel : ℕ) (disk : Ext2Disk) (inode block fileContent : ℕ) :
    ℕ × FileState → Traced Access (ℕ × FileState ⊕ Status × FileState)
  | (i, s) =>
    if i < inodeNbDirectPtr ∧ inodeBlock s.w.h.mem inode i ≠ 0 then do
      let r ← s.readBlock fuel disk block fileContent (inodeBlock s.w.h.mem inode i)
      nextTurn i r
    else return .inr (.statusSuccess, s)

/-- `table[i]` of a block of pointers. -/
def FileState.tableEntry (s : FileState) (table i : ℕ) : Traced Access ℕ := do
  Traced.note (.entry i)
  return s.w.h.mem.load32 (table + 4 * i)

/-- One turn of the loops over a block of pointers: it goes on as long as `table[i]` is there
and not zero, and reads the block of `table[pick i]`. -/
def tableTurn (fuel : ℕ) (disk : Ext2Disk) (table : ℕ) (pick : ℕ → ℕ) (block fileContent : ℕ) :
    ℕ × FileState → Traced Access (ℕ × FileState ⊕ Status × FileState)
  | (i, s) =>
    if i < disk.blockSize / 4 then do
      let entry ← s.tableEntry table i
      if entry ≠ 0 then do
        let number ← s.tableEntry table (pick i)
        let r ← s.readBlock fuel disk block fileContent number
        nextTurn i r
      else return .inr (.statusSuccess, s)
    else return .inr (.statusSuccess, s)

/-- The loop over the singly-indirect block. -/
def singlyLoop (fuel : ℕ) (disk : Ext2Disk) (singlyBlock block fileContent : ℕ) (s : FileState) :
    Traced Access (Status × FileState) :=
  Traced.loop (tableTurn fuel disk singlyBlock (fun i => i) block fileContent) fuel (0, s)

/-- The inner loop over the doubly-indirect blocks. Its variable is `j`, but the block is that of
`doublyBlock[i]`. -/
def doublyLoop (fuel : ℕ) (disk : Ext2Disk) (doublyBlock i block fileContent : ℕ) (s : FileState) :
    Traced Access (Status × FileState) :=
  Traced.loop (tableTurn fuel disk doublyBlock (fun _ => i) block fileContent) fuel (0, s)

/-- One turn of the outer loop over the doubly-indirect blocks. -/
def doublyTurn (fuel : ℕ) (disk : Ext2Disk) (singlyBlock doublyBlock block fileContent : ℕ) :
    ℕ × FileState → Traced Access (ℕ × FileState ⊕ Status × FileState)
  | (i, s) =>
    if i < disk.blockSize / 4 then do
      let entry ← s.tableEntry singlyBlock i
      if entry ≠ 0 then do
        let (ret, w) ← s.w.ataRead fuel disk.device doublyBlock (mul32 entry disk.blockSize)
          disk.blockSize
        if ret < 0 then return .inr (.statusFailure, { s with w })
        else do
          let r ← doublyLoop fuel disk doublyBlock i block fileContent { s with w }
          nextTurn i r
      else return .inr (.statusSuccess, s)
    else return .inr (.statusSuccess, s)

/-- The part of `Ext2ReadFile` for the singly-indirect block, with `singlyBlock`. -/
def readSingly (fuel : ℕ) (disk : Ext2Disk) (inode block fileContent : ℕ) (s : FileState) :
    Traced Access (Status × Option ℕ × FileState) := do
  let number := inodeBlock s.w.h.mem inode inodeSinglyIndirectPtrIndex
  if number ≠ 0 then do
    let (singlyBlock, w) ← s.w.heapAlloc fuel (int32 disk.blockSize)
    match singlyBlock with
    | none => return (.statusAllocFailed, none, { s with w })
    | some singlyBlock => do
      let (ret, w) ← w.ataRead fuel disk.device singlyBlock (mul32 number disk.blockSize)
        disk.blockSize
      if ret < 0 then return (.statusFailure, some singlyBlock, { s with w })
      else do
        let (status, s) ← singlyLoop fuel disk singlyBlock block fileContent { s with w }
        return (status, some singlyBlock, s)
  else return (.statusSuccess, none, s)

/-- The part for the doubly-indirect block from its second allocation on. -/
def readDoublyBlocks (fuel : ℕ) (disk : Ext2Disk) (number singlyBlock block fileContent : ℕ)
    (s : FileState) : Traced Access (Status × Option ℕ × FileState) := do
  let (doublyBlock, w) ← s.w.heapAlloc fuel (int32 disk.blockSize)
  match doublyBlock with
  | none => return (.statusAllocFailed, none, { s with w })
  | some doublyBlock => do
    let (ret, w) ← w.ataRead fuel disk.device singlyBlock (mul32 number disk.blockSize)
      disk.blockSize
    if ret < 0 then return (.statusFailure, some doublyBlock, { s with w })
    else do
      let (status, s) ← Traced.loop (doublyTurn fuel disk singlyBlock doublyBlock block fileContent)
        fuel (0, { s with w })
      return (status, some doublyBlock, s)

/-- The buffer for the table of a doubly-indirect block, which there may be already. -/
def tableBuffer (fuel : ℕ) (w : UserProgram) (disk : Ext2Disk) :
    Option ℕ → Traced Access (Option ℕ × UserProgram)
  | some singlyBlock => pure (some singlyBlock, w)
  | none => w.heapAlloc fuel (int32 disk.blockSize)

/-- The part of `Ext2ReadFile` for the doubly-indirect block, with `singlyBlock` and
`doublyBlock`. -/
def readDoubly (fuel : ℕ) (disk : Ext2Disk) (inode : ℕ) (singlyBlock : Option ℕ)
    (block fileContent : ℕ) (s : FileState) :
    Traced Access (Status × Option ℕ × Option ℕ × FileState) := do
  let number := inodeBlock s.w.h.mem inode inodeDoublyIndirectPtrIndex
  if number ≠ 0 then do
    let (singlyBlock, w) ← s.w.tableBuffer fuel disk singlyBlock
    match singlyBlock with
    | none => return (.statusAllocFailed, none, none, { s with w })
    | some singlyBlock => do
      let (status, doublyBlock, s) ←
        readDoublyBlocks fuel disk number singlyBlock block fileContent { s with w }
      return (status, some singlyBlock, doublyBlock, s)
  else return (.statusSuccess, singlyBlock, none, s)

/-- `HeapFree` of a pointer that is not null. -/
def heapFreeIf (w : UserProgram) : Option ℕ → Traced Access UserProgram
  | some ptr => w.heapFree ptr
  | none => pure w

/-- The loops of `Ext2ReadFile`, with the blocks that they have allocated. There is a warning
for a triply-indirect block, and nothing else. -/
def readBlocks (fuel : ℕ) (disk : Ext2Disk) (inode block fileContent : ℕ) (s : FileState) :
    Traced Access (Status × Option ℕ × Option ℕ × FileState) := do
  let (status, s) ← Traced.loop (directTurn fuel disk inode block fileContent) fuel (0, s)
  if status.failed then return (status, none, none, s)
  else do
    let (status, singlyBlock, s) ← readSingly fuel disk inode block fileContent s
    if status.failed then return (status, singlyBlock, none, s)
    else readDoubly fuel disk inode singlyBlock block fileContent s

/-- What `Ext2ReadFile` does at `clean`. -/
def clean (w : UserProgram) (fileContent : Option ℕ) (block : ℕ)
    (singlyBlock doublyBlock : Option ℕ) : Traced Access UserProgram := do
  let w ← w.heapFreeIf fileContent
  let w ← w.heapFree block
  let w ← w.heapFreeIf singlyBlock
  w.heapFreeIf doublyBlock

/-- `Ext2ReadFile`. -/
def ext2ReadFile (fuel : ℕ) (w : UserProgram) (disk : Ext2Disk) (inode : ℕ) :
    Traced Access (Status × Option ℕ × UserProgram) := do
  let fileSize := inodeFileSize w.h.mem inode
  let (fileContent, w) ← w.heapAlloc fuel (int32 fileSize)
  match fileContent with
  | none => return (.statusAllocFailed, none, w)
  | some fileContent => do
    let (block, w) ← w.heapAlloc fuel (int32 disk.blockSize)
    match block with
    | none => do
      let w ← w.heapFree fileContent
      return (.statusAllocFailed, none, w)
    | some block => do
      let (status, singlyBlock, doublyBlock, s) ←
        readBlocks fuel disk inode block fileContent ⟨w, 0, fileSize⟩
      let w ← s.w.clean (if status.failed then some fileContent else none) block singlyBlock
        doublyBlock
      return (status, if status.failed then none else some fileContent, w)

end UserProgram

end LtMicros
