import LtMicros.Kernel

/-!
# The file system service

The registry of `LtFsService`: the processes that have connected, the files that
they have opened, and the two requests that change them. `HeapAlloc` gives memory
filled with zeros, or does not return; the opening of a file on the disk and the
system calls are the answers that a request comes with. Pointers are addresses,
with 0 for the null pointer.
-/

namespace LtMicros

/-- `Status`, in the order of the `STATUS_LIST` of the user programs. -/
inductive Status where
  | statusSuccess
  | statusFailure
  | statusNullParameter
  | statusInvalidParameter
  | statusAllocFailed
  | statusFileNotFound
  | statusNotADirectory
  | statusUnexpected
  | statusPathTooLong
  | statusListStopIterating
  | statusAccessDenied
deriving DecidableEq, Repr

/-- `FAILED(status)`. -/
def Status.failed (status : Status) : Bool := status ≠ .statusSuccess

/-- `ListEnumerate` of a list without null pointers: the status, and the context
that the callback has written. -/
def listEnumerate {α γ : Type*} (callback : α → γ → Status × γ) : List α → γ → Status × γ
  | [], context => (.statusSuccess, context)
  | data :: list, context =>
    let (status, context) := callback data context
    if status.failed then
      (if status = .statusListStopIterating then .statusSuccess else status, context)
    else listEnumerate callback list context

/-- `ListPush`. A push on the null pointer does nothing. -/
def listPush {α : Type*} (list : Option (List α)) (data : α) : Option (List α) :=
  list.map (· ++ [data])

/-- `FILE_READ`. -/
def fileRead : U32 := 0

/-- `FILE_ACCESS_MAX`. -/
def fileAccessMax : U32 := 1

/-- `FILE_SHARE_READ`. -/
def fileShareRead : U32 := 1

/-- `FILE_SHARE_MAX`. -/
def fileShareMax : U32 := 3

/-- `FileEntry`. -/
structure FileEntry where
  handle : U32
  cursor : U32
  file : ℕ
  shareMode : U32
deriving DecidableEq

/-- `ProcessEntry`. -/
structure ProcessEntry where
  serverHandle : U32
  processHandle : U32
  fileEntries : Option (List FileEntry)

/-- An entry in memory that is filled with zeros. -/
def ProcessEntry.zero : ProcessEntry where
  serverHandle := 0
  processHandle := 0
  fileEntries := none

/-- What the heap block at an address is used for. -/
inductive BlockUse where
  | free
  | processEntry
  | other
deriving DecidableEq

/-- `gSvcContext`, `gCurrentFileHandle`, and the heap as far as there are entries
of processes in it: the use of each block, and what is read there as an entry. -/
structure FsService where
  processes : List ℕ
  fileEntries : List FileEntry
  currentFileHandle : U32
  block : ℕ → BlockUse
  entry : ℕ → ProcessEntry

/-- `LtFsOpenFileParameters`. -/
structure LtFsOpenFileParameters where
  filePath : List U8
  access : U32
  shareMode : U32

/-- `LtFsResponse`. -/
structure LtFsResponse where
  status : Status
  data : Option U32
deriving DecidableEq

/-- The answers of what `RequestOpenFile` calls outside of this file: the opening of
a path, with the file unless the pointer to it is null, and the system call of
`Send`. -/
structure OpenFileCalls where
  openFileFromName : List U8 → Status × Option ℕ
  send : Status

/-- The answers of what `RequestConnect` calls: the block that `HeapAlloc` takes,
and the system call of `ConnectToServer` with what it writes. -/
structure ConnectCalls where
  heapAlloc : ℕ
  connectToServer : Status × Option U32

/-- `IsFileAccessible`. -/
def isFileAccessible (fileEntry : FileEntry) (access : U32) : Bool :=
  if access = fileRead then flagOn fileShareRead fileEntry.shareMode else true

namespace FsService

/-- `LookForProcessFromHandleCallback`, with the `processEntry` of its context. -/
def lookForProcessFromHandleCallback (s : FsService) (processHandle : U32) (data : ℕ)
    (processEntry : Option ℕ) : Status × Option ℕ :=
  if (s.entry data).processHandle = processHandle then (.statusListStopIterating, some data)
  else (.statusSuccess, processEntry)

/-- `LookForProcessFromHandle`: the status, and the pointer that is stored unless it
is null. -/
def lookForProcessFromHandle (s : FsService) (processHandle : U32) : Status × Option ℕ :=
  if processHandle = 0 then (.statusInvalidParameter, none)
  else
    let (status, processEntry) :=
      listEnumerate (s.lookForProcessFromHandleCallback processHandle) s.processes none
    if status.failed ∧ status ≠ .statusListStopIterating then (status, none)
    else (.statusSuccess, processEntry)

/-- `LookForFileEntryFromFilePtrCallback`, with the `fileEntry` of its context. -/
def lookForFileEntryFromFilePtrCallback (file : ℕ) (entry : FileEntry)
    (fileEntry : Option FileEntry) : Status × Option FileEntry :=
  if entry.file = file then (.statusListStopIterating, some entry) else (.statusSuccess, fileEntry)

/-- `LookForFileEntryFromFilePtr`. -/
def lookForFileEntryFromFilePtr (s : FsService) (file : Option ℕ) : Status × Option FileEntry :=
  match file with
  | none => (.statusNullParameter, none)
  | some file =>
    let (status, fileEntry) :=
      listEnumerate (lookForFileEntryFromFilePtrCallback file) s.fileEntries none
    if status.failed ∧ status ≠ .statusListStopIterating then (status, none)
    else (.statusSuccess, fileEntry)

/-- `NewFileEntry`. -/
def newFileEntry (s : FsService) (file : Option ℕ) (access shareMode : U32) :
    Status × Option FileEntry × FsService :=
  match file with
  | none => (.statusNullParameter, none, s)
  | some file =>
    if fileAccessMax ≤ access then (.statusInvalidParameter, none, s)
    else if fileShareMax ≤ shareMode then (.statusInvalidParameter, none, s)
    else
      let handle := s.currentFileHandle + 1
      (.statusSuccess, some ⟨handle, 0, file, shareMode⟩, { s with currentFileHandle := handle })

/-- `IpcClient::Send` of a response to a process. -/
def send (s : FsService) (process : ℕ) (calls : OpenFileCalls) : Status :=
  if (s.entry process).serverHandle = 0 then .statusInvalidParameter else calls.send

/-- `RequestOpenFile`: the status, the response that the process is sent, and the
service. `LtFsResponse::Create` accepts what it is given here. -/
def requestOpenFile (s : FsService) (processHandle : U32)
    (parameters : Option LtFsOpenFileParameters) (calls : OpenFileCalls) :
    Status × Option LtFsResponse × FsService :=
  match parameters with
  | none => (.statusNullParameter, none, s)
  | some parameters =>
    let (status, process) := s.lookForProcessFromHandle processHandle
    if status.failed then (status, none, s)
    else
      match process with
      | none => (.statusUnexpected, none, s)
      | some process =>
        let (status, file) := calls.openFileFromName parameters.filePath
        if status.failed then (status, none, s)
        else
          let (status, existingFileEntry) := s.lookForFileEntryFromFilePtr file
          if status.failed then (status, none, s)
          else
            let resStatus : Status :=
              match existingFileEntry with
              | none => .statusSuccess
              | some existingFileEntry =>
                if isFileAccessible existingFileEntry parameters.access then .statusSuccess
                else .statusAccessDenied
            if resStatus = .statusAccessDenied then
              (s.send process calls, some ⟨resStatus, none⟩, s)
            else
              match s.newFileEntry file parameters.access parameters.shareMode with
              | (_, some newFileEntry, s) =>
                let process' := { s.entry process with
                  fileEntries := listPush (s.entry process).fileEntries newFileEntry }
                let s := { s with
                  fileEntries := s.fileEntries ++ [newFileEntry]
                  entry := fun p => if p = process then process' else s.entry p }
                (s.send process calls, some ⟨resStatus, some newFileEntry.handle⟩, s)
              | (status, none, s) => (status, none, s)

/-- `HeapFree` of an entry. A block that is free already is left alone. -/
def heapFree (s : FsService) (p : ℕ) : FsService :=
  if s.block p = .free then s
  else { s with
    block := fun q => if q = p then .free else s.block q
    entry := fun q => if q = p then .zero else s.entry q }

/-- `CreateProcessEntry`: the status, the new entry, and the service. -/
def createProcessEntry (s : FsService) (processHandle : U32) (heapAlloc : ℕ) :
    Status × Option ℕ × FsService :=
  if processHandle = 0 then (.statusNullParameter, none, s)
  else (.statusSuccess, some heapAlloc, { s with
    block := fun q => if q = heapAlloc then .processEntry else s.block q
    entry := fun q => if q = heapAlloc then { ProcessEntry.zero with processHandle }
      else s.entry q })

/-- The code behind the label `clean` of `RequestConnect`. -/
def connectClean (s : FsService) (process : Option ℕ) : FsService :=
  match process with
  | none => s
  | some process => s.heapFree process

/-- `RequestConnect`. The pointer `process` is to an entry of the list where one was
found, and to an entry of the function where one was made. -/
def requestConnect (s : FsService) (processHandle : U32) (parameters : Option (List U8))
    (calls : ConnectCalls) : Status × FsService :=
  match parameters with
  | none => (.statusNullParameter, s)
  | some _ =>
    let (status, process) := s.lookForProcessFromHandle processHandle
    if status.failed then (status, s.connectClean process)
    else if process.isSome then (.statusSuccess, s.connectClean process)
    else
      match s.createProcessEntry processHandle calls.heapAlloc with
      | (status, none, s) => (status, s)
      | (_, some process, s) =>
        let (status, handle) := calls.connectToServer
        let process' := { s.entry process with
          serverHandle := handle.getD (s.entry process).serverHandle }
        let s := { s with entry := fun q => if q = process then process' else s.entry q }
        if status.failed then (status, s.connectClean (some process))
        else (.statusSuccess, { s with processes := s.processes ++ [process] })

/-- A list is gone through up to the first element that stops the callback. -/
theorem listEnumerate_find {α : Type*} (P : α → Bool) (list : List α) (context : Option α) :
    listEnumerate (fun data context =>
      if P data then (.statusListStopIterating, some data) else (.statusSuccess, context))
      list context = (.statusSuccess, (list.find? P).or context) := by
  induction list with
  | nil => simp [listEnumerate]
  | cons data list ih =>
    cases hdata : P data with
    | true => simp [listEnumerate, hdata, Status.failed]
    | false => simpa [listEnumerate, hdata, Status.failed] using ih

/-- `LookForProcessFromHandle` finds the first entry with the handle. -/
theorem lookForProcessFromHandle_eq (s : FsService) {processHandle : U32} (h0 : processHandle ≠ 0) :
    s.lookForProcessFromHandle processHandle =
      (.statusSuccess, s.processes.find? fun p => (s.entry p).processHandle = processHandle) := by
  have henum := listEnumerate_find (fun p => decide ((s.entry p).processHandle = processHandle))
    s.processes none
  simp only [decide_eq_true_eq, Option.or_none] at henum
  have hcallback : s.lookForProcessFromHandleCallback processHandle = fun data context =>
      if (s.entry data).processHandle = processHandle then (.statusListStopIterating, some data)
      else (.statusSuccess, context) := rfl
  simp only [lookForProcessFromHandle, if_neg h0]
  rw [hcallback, henum]
  simp [Status.failed]

/-- `LookForFileEntryFromFilePtr` finds the first entry for the file. -/
theorem lookForFileEntryFromFilePtr_eq (s : FsService) (file : ℕ) :
    s.lookForFileEntryFromFilePtr (some file) =
      (.statusSuccess, s.fileEntries.find? fun e => e.file = file) := by
  have henum := listEnumerate_find (fun e : FileEntry => decide (e.file = file)) s.fileEntries none
  simp only [decide_eq_true_eq, Option.or_none] at henum
  have hcallback : lookForFileEntryFromFilePtrCallback file = fun entry context =>
      if entry.file = file then (.statusListStopIterating, some entry)
      else (.statusSuccess, context) := rfl
  simp only [lookForFileEntryFromFilePtr]
  rw [hcallback, henum]
  simp [Status.failed]

end FsService

end LtMicros
