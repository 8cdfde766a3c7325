import LtMicros.Lib.Bytes
import LtMicros.UserStrings
import LtMicros.FsService

/-!
# Files of the file system service

The tree of files that `LtFsService` keeps in memory: the children of a directory are read from
its content when it is browsed, and linked through `leaf`, `next` and `prev`. Files are numbered
in the order of their allocation, and the number stands for the pointer. What a byte is read
from leaves a trace: the content of a directory, and a string of the caller.
-/

namespace LtMicros

open Lib

/-- `EXT2_ROOT_INODE_NUMBER`. -/
abbrev ext2RootInodeNumber : U32 := 2

/-- `EXT2_S_IFDIR`. -/
abbrev ext2SIfdir : BitVec 16 := 0x4000

/-- What of an `Ext2Inode` the files are read with. -/
structure Inode where
  mode : BitVec 16
  size : U32

/-- The buffer with the content of a file: its address, and the bytes from there on, with those
behind its end. -/
structure FileContent where
  address : ℕ
  bytes : Bytes

/-- `File`. -/
structure File where
  inum : U32
  inode : Option Inode := none
  name : Option (List U8) := none
  content : Option FileContent := none
  opened : Bool := false
  leaf : Option ℕ := none
  parent : Option ℕ := none
  prev : Option ℕ := none
  next : Option ℕ := none

/-- What `Ext2ReadInode` and `Ext2ReadFile` answer for the disk of the service. -/
structure DiskReads where
  ext2ReadInode : U32 → Except Status Inode
  ext2ReadFile : Inode → U32 → Except Status FileContent

/-- The bytes that are read: of the content of a directory, and of a string of the caller. -/
inductive FsRead where
  | content (directory index : ℕ)
  | caller (index : ℕ)
deriving DecidableEq

/-- The files in memory, and `gRootFile`. -/
structure FsFiles where
  file : ℕ → File
  count : ℕ
  gRootFile : ℕ

/-- A byte of the content of a directory. -/
def readContent (directory : ℕ) (content : FileContent) (index : ℕ) : Traced FsRead U8 := do
  Traced.note (.content directory index)
  return content.bytes index

/-- Bytes of the content of a directory. -/
def copyContent (directory : ℕ) (content : FileContent) : ℕ → ℕ → Traced FsRead (List U8)
  | _, 0 => return []
  | index, n + 1 => do
    let b ← readContent directory content index
    let bytes ← copyContent directory content (index + 1) n
    return b :: bytes

/-- A byte of a string of the caller. -/
def readCaller (m : Bytes) (index : ℕ) : Traced FsRead U8 := do
  Traced.note (.caller index)
  return m index

/-- A string of the caller. -/
def callerPath (m : Bytes) (path : ℕ) : CString FsRead := fun i => readCaller m (path + i)

/-- Bytes as a number, the lowest first. -/
def littleEndian (bytes : List U8) : ℕ := bytes.foldr (fun b n => b.toNat + 256 * n) 0

/-- `"."`, `".."` and `"/"`. -/
abbrev dot : List U8 := [46]
abbrev dotDot : List U8 := [46, 46]
abbrev slash : U8 := 47

namespace FsFiles

/-- A file is changed. -/
def modify (fs : FsFiles) (p : ℕ) (f : File → File) : FsFiles :=
  { fs with file := fun q => if q = p then f (fs.file p) else fs.file q }

/-- A file is allocated. -/
def create (fs : FsFiles) (file : File) : FsFiles :=
  { fs with file := fun q => if q = fs.count then file else fs.file q, count := fs.count + 1 }

/-- The inode of a file is read, unless it is there. -/
def readMissingInode (fs : FsFiles) (disk : DiskReads) (file : ℕ) : Status × FsFiles :=
  match (fs.file file).inode with
  | some _ => (.statusSuccess, fs)
  | none =>
    match disk.ext2ReadInode (fs.file file).inum with
    | .ok inode => (.statusSuccess, fs.modify file fun f => { f with inode := some inode })
    | .error status => (status, fs)

/-- `OpenFile`. -/
def openFile (fs : FsFiles) (disk : DiskReads) : Option ℕ → Status × FsFiles
  | none => (.statusNullParameter, fs)
  | some file =>
    let (status, fs) := fs.readMissingInode disk file
    if status.failed then (status, fs)
    else
      match (fs.file file).inode with
      | none => (.statusNullParameter, fs)
      | some inode =>
        match disk.ext2ReadFile inode (fs.file file).inum with
        | .error status => (status, fs)
        | .ok content => (.statusSuccess,
            fs.modify file fun f => { f with content := some content, opened := true })

/-- A file is opened, unless it is open. -/
def openClosed (fs : FsFiles) (disk : DiskReads) (file : ℕ) : Status × FsFiles :=
  if (fs.file file).opened then (.statusSuccess, fs) else fs.openFile disk (some file)

/-- `IsDirectory`. -/
def isDirectory (fs : FsFiles) (disk : DiskReads) (file : ℕ) : Bool × FsFiles :=
  let (status, fs) := fs.readMissingInode disk file
  if status.failed then (false, fs)
  else (((fs.file file).inode.map fun inode => decide (inode.mode &&& ext2SIfdir ≠ 0)).getD false, fs)

/-- One turn of the loop of `IsCached`. -/
def isCachedTurn (fuel : ℕ) (fs : FsFiles) (fileName : CString FsRead) :
    Option ℕ → Traced FsRead (Option ℕ ⊕ Option ℕ)
  | none => return .inr none
  | some leaf =>
    match (fs.file leaf).name with
    | none => return .inl (fs.file leaf).next
    | some name => do
      let r ← StdLib.strCmp fuel (.own name) fileName
      if r = 0 then return .inr (some leaf)
      else return .inl (fs.file leaf).next

/-- `IsCached`, with the file that it finds. -/
def isCached (fuel : ℕ) (fs : FsFiles) (dir : Option ℕ) (fileName : CString FsRead) :
    Traced FsRead (Option ℕ) :=
  match dir with
  | none => return none
  | some dir => Traced.loop (fs.isCachedTurn fuel fileName) fuel (fs.file dir).leaf

/-- A new file is linked in as the first child of a directory. -/
def addLeaf (fs : FsFiles) (directory : ℕ) (inum : U32) (fileName : List U8) : FsFiles :=
  let newCachedFile := fs.count
  match (fs.file directory).leaf with
  | none =>
    (fs.create { inum, name := some fileName, parent := some directory }).modify directory fun f =>
      { f with leaf := some newCachedFile }
  | some leaf =>
    ((fs.create { inum, name := some fileName, parent := some directory, next := some leaf }).modify
      leaf fun f => { f with prev := some newCachedFile }).modify directory fun f =>
        { f with leaf := some newCachedFile }

/-- What `BrowseAndCacheDirectory` does with the name of an entry. -/
def cacheEntry (fuel directory : ℕ) (content : FileContent) (currentEntry : ℕ)
    (fileName : List U8) (fs : FsFiles) : Traced FsRead FsFiles := do
  let r ← StdLib.strCmp fuel (.own fileName) (.own dot)
  if r = 0 then return fs
  else do
    let r ← StdLib.strCmp fuel (.own fileName) (.own dotDot)
    if r = 0 then return fs
    else do
      let cached ← fs.isCached fuel (some directory) (.own fileName)
      match cached with
      | some _ => return fs
      | none => do
        let inode ← copyContent directory content currentEntry 4
        return fs.addLeaf directory (BitVec.ofNat 32 (littleEndian inode)) fileName

/-- One turn of the loop of `BrowseAndCacheDirectory`: the state is `dirContentSize`, the place of
`currentEntry` in the content, and the files. -/
def browseTurn (fuel directory : ℕ) (content : FileContent) : ℕ × ℕ × FsFiles →
    Traced FsRead (ℕ × ℕ × FsFiles ⊕ Status × FsFiles)
  | (dirContentSize, currentEntry, fs) =>
    if dirContentSize = 0 then return .inr (.statusSuccess, fs)
    else do
      let recLen ← copyContent directory content (currentEntry + 4) 2
      if littleEndian recLen = 0 then return .inr (.statusSuccess, fs)
      else do
        let nameLen ← readContent directory content (currentEntry + 6)
        let copied ← copyContent directory content (currentEntry + 8) (nameLen.toNat + 1)
        -- the last byte of the copy is replaced by a zero byte
        let fs ← cacheEntry fuel directory content currentEntry (copied.take nameLen.toNat) fs
        let next := add32 currentEntry (littleEndian recLen)
        if add32 content.address next = 0 then return .inr (.statusUnexpected, fs)
        else return .inl (sub32 dirContentSize (littleEndian recLen), next, fs)

/-- `BrowseAndCacheDirectory`. -/
def browseAndCacheDirectory (fuel : ℕ) (disk : DiskReads) (fs : FsFiles) :
    Option ℕ → Traced FsRead (Status × FsFiles)
  | none => return (.statusNullParameter, fs)
  | some directory =>
    let (status, fs) := fs.readMissingInode disk directory
    if status.failed then return (status, fs)
    else
      let (status, fs) := fs.openClosed disk directory
      if status.failed then return (status, fs)
      else
        let (isDirectory, fs) := fs.isDirectory disk directory
        if isDirectory = false then return (.statusNotADirectory, fs)
        else
          match (fs.file directory).inode, (fs.file directory).content with
          | some inode, some content =>
            Traced.loop (browseTurn fuel directory content) fuel (inode.size.toNat, 0, fs)
          | _, _ => Traced.lift .fault

/-- One turn of the loop of `OpenFileFromName`: the state is `path`, `directory`, the memory of the
caller and the files. The result is the status, what `*file` is set to, the memory and the files. -/
def openFileFromNameTurn (fuel : ℕ) (disk : DiskReads) (file : Option ℕ) :
    ℕ × Option ℕ × Bytes × FsFiles →
      Traced FsRead (ℕ × Option ℕ × Bytes × FsFiles ⊕ Status × Option ℕ × Bytes × FsFiles)
  | (path, directory, m, fs) => do
    let char ← readCaller m path
    if char = 0 then return .inr (.statusSuccess, file, m, fs)
    else do
      let indexSlash ← StdLib.firstIndexOf fuel (callerPath m path) slash
      if indexSlash < 0 then do
        let cached ← fs.isCached fuel directory (callerPath m path)
        match cached with
        | none => return .inr (.statusFileNotFound, file, m, fs)
        | some localFile =>
          let (status, fs) := fs.openClosed disk localFile
          if status.failed then return .inr (status, file, m, fs)
          else return .inr (.statusSuccess, some localFile, m, fs)
      else do
        let cut := path + indexSlash.toNat
        let m := Function.update m cut 0
        let next (directory : Option ℕ) (fs : FsFiles) :
            Traced FsRead (ℕ × Option ℕ × Bytes × FsFiles ⊕ Status × Option ℕ × Bytes × FsFiles) :=
          return .inl (cut + 1, directory, Function.update m cut slash, fs)
        let r ← StdLib.strCmp fuel (callerPath m path) (.own dotDot)
        if r = 0 then
          match directory with
          | none => Traced.lift .fault
          | some directory => next (fs.file directory).parent fs
        else do
          let r ← StdLib.strCmp fuel (callerPath m path) (.own dot)
          if r = 0 then next directory fs
          else do
            let cached ← fs.isCached fuel directory (callerPath m path)
            match cached with
            | none => return .inr (.statusFileNotFound, file, m, fs)
            | some directory =>
              let (status, fs) := fs.openClosed disk directory
              if status.failed then return .inr (status, file, m, fs)
              else do
                let (_, fs) ← browseAndCacheDirectory fuel disk fs (some directory)
                next (some directory) fs

/-- `OpenFileFromName`, with what `*file` is set to. -/
def openFileFromName (fuel : ℕ) (disk : DiskReads) (fs : FsFiles) (m : Bytes) :
    Option ℕ → Traced FsRead (Status × Option ℕ × Bytes × FsFiles)
  | none => return (.statusNullParameter, none, m, fs)
  | some filePath => do
    let char ← readCaller m filePath
    if char = slash then do
      let char ← readCaller m (filePath + 1)
      let file := if char = 0 then some fs.gRootFile else none
      Traced.loop (openFileFromNameTurn fuel disk file) fuel
        (filePath + 1, some fs.gRootFile, m, fs)
    else
      Traced.loop (openFileFromNameTurn fuel disk none) fuel (filePath, some fs.gRootFile, m, fs)

/-- `InitRoot`, with `CreateFile` and `InitRootFile`. -/
def initRoot (fuel : ℕ) (disk : DiskReads) (fs : FsFiles) : Traced FsRead (Status × FsFiles) :=
  match disk.ext2ReadInode ext2RootInodeNumber with
  | .error status => return (status, fs)
  | .ok inode =>
    let root := fs.count
    let fs := { fs.create { inum := ext2RootInodeNumber, inode := some inode } with gRootFile := root }
    let fs := fs.modify root fun f => { f with name := some [slash], parent := some root }
    browseAndCacheDirectory fuel disk fs (some root)

/-- The memory of the service before `FsInit`. -/
def empty : FsFiles where
  file _ := { inum := 0 }
  count := 0
  gRootFile := 0

end FsFiles

end LtMicros
