import LtMicros.FsRequests
import LtMicros.FsResolve

/-!
# Messages to the service

`ServiceExecuteCommand` on the bytes of a message. Its type, the fields of its parameters and the
strings in them are read where they are needed, and what a byte of the message is read from leaves
a trace. The length of the message is not looked at.
-/

namespace LtMicros

open Lib CString

/-- `LTFS_REQUEST_TERMINATE`. -/
abbrev ltfsRequestTerminate : U32 := 0

/-- `LTFS_REQUEST_CONNECT`. -/
abbrev ltfsRequestConnect : U32 := 1

/-- `LTFS_REQUEST_OPEN_FILE`. -/
abbrev ltfsRequestOpenFile : U32 := 2

/-- The place of `parameters` in an `LtFsRequest`, and with it that of the string in them. -/
abbrev parametersOffset : ℕ := 4

/-- The place of `access` in a message with `LtFsOpenFileParameters`. -/
abbrev accessOffset : ℕ := 260

/-- The place of `shareMode`. -/
abbrev shareModeOffset : ℕ := 264

/-- The length of a message with the parameters of its type. -/
def neededSize (type : U32) : ℕ :=
  if type = ltfsRequestConnect then parametersOffset + 255
  else if type = ltfsRequestOpenFile then shareModeOffset + 4
  else parametersOffset

/-- What is answered to the service during a command: the block that `HeapAlloc` takes, and the two
system calls. -/
structure CommandCalls where
  heapAlloc : ℕ
  ipcServerConnect : List U8 → Status × Option U32
  ipcSend : Status

/-- Bytes of a message. -/
def copyCaller (m : Bytes) : ℕ → ℕ → Traced FsRead (List U8)
  | _, 0 => return []
  | index, n + 1 => do
    let b ← readCaller m index
    let bytes ← copyCaller m (index + 1) n
    return b :: bytes

/-- A field of a message. -/
def readField (m : Bytes) (offset : ℕ) : Traced FsRead U32 := do
  let bytes ← copyCaller m offset 4
  return BitVec.ofNat 32 (littleEndian bytes)

namespace Message

/-- `RequestConnect`, with the parameters in a message. -/
def requestConnect (fuel : ℕ) (m : Bytes) (s : FsService) (processHandle : U32)
    (calls : CommandCalls) : Traced FsRead (Status × FsService) := do
  -- the log has the string of the message
  let _ ← StdLib.readString fuel (callerPath m parametersOffset)
  let (status, process) := s.lookForProcessFromHandle processHandle
  if status.failed then return (status, s.connectClean process)
  else if process.isSome then return (.statusSuccess, s.connectClean process)
  else
    match s.createProcessEntry processHandle calls.heapAlloc with
    | (status, none, s) => return (status, s)
    | (_, some process, s) => do
      let serverName ← StdLib.readString fuel (callerPath m parametersOffset)
      let (status, handle) := calls.ipcServerConnect serverName
      let process' := { s.entry process with
        serverHandle := handle.getD (s.entry process).serverHandle }
      let s := { s with entry := fun q => if q = process then process' else s.entry q }
      if status.failed then return (status, s.connectClean (some process))
      else return (.statusSuccess, { s with processes := s.processes ++ [process] })

/-- The status that `RequestOpenFile` responds with: whether the first entry for the file, if there
is one, lets it be opened once more. -/
def resStatus (m : Bytes) : Option FileEntry → Traced FsRead Status
  | none => return .statusSuccess
  | some existingFileEntry => do
    let access ← readField m accessOffset
    if isFileAccessible existingFileEntry access then return .statusSuccess
    else return .statusAccessDenied

/-- `RequestOpenFile` when access is not denied. -/
def grantOpenFile (m : Bytes) (s : FsService) (process : ℕ) (file : Option ℕ)
    (calls : OpenFileCalls) : Traced FsRead (Status × FsService) := do
  let access ← readField m accessOffset
  let shareMode ← readField m shareModeOffset
  match s.newFileEntry file access shareMode with
  | (_, some newFileEntry, s) =>
    let process' := { s.entry process with
      fileEntries := listPush (s.entry process).fileEntries newFileEntry }
    let s := { s with
      fileEntries := s.fileEntries ++ [newFileEntry]
      entry := fun p => if p = process then process' else s.entry p }
    return (s.send process calls, s)
  | (status, none, s) => return (status, s)

/-- `RequestOpenFile` behind `OpenFileFromName`. -/
def answerOpenFile (m : Bytes) (s : FsService) (process : ℕ) (file : Option ℕ)
    (calls : OpenFileCalls) : Traced FsRead (Status × FsService) :=
  let (status, existingFileEntry) := s.lookForFileEntryFromFilePtr file
  if status.failed then return (status, s)
  else do
    let resStatus ← resStatus m existingFileEntry
    if resStatus = .statusAccessDenied then return (s.send process calls, s)
    else grantOpenFile m s process file calls

/-- `RequestOpenFile`, with the parameters in a message. -/
def requestOpenFile (fuel : ℕ) (disk : DiskReads) (m : Bytes) (s : FsService) (fs : FsFiles)
    (processHandle : U32) (calls : CommandCalls) :
    Traced FsRead (Status × FsService × FsFiles) :=
  let (status, process) := s.lookForProcessFromHandle processHandle
  if status.failed then return (status, s, fs)
  else
    match process with
    | none => return (.statusUnexpected, s, fs)
    | some process => do
      -- the log has the string of the message
      let _ ← StdLib.readString fuel (callerPath m parametersOffset)
      let (status, file, m, fs) ← fs.openFileFromName fuel disk m (some parametersOffset)
      if status.failed then return (status, s, fs)
      else do
        let (status, s) ← answerOpenFile m s process file
          { openFileFromName := fun _ => (status, file), send := calls.ipcSend }
        return (status, s, fs)

/-- `ServiceExecuteCommand`: the status, `*serviceTerminate`, and the state of the service. -/
def serviceExecuteCommand (fuel : ℕ) (disk : DiskReads) (s : FsService) (fs : FsFiles)
    (processHandle : U32) (message : Option Bytes) (calls : CommandCalls) :
    Traced FsRead (Status × Bool × FsService × FsFiles) :=
  match message with
  | none => return (.statusNullParameter, false, s, fs)
  | some m => do
    let type ← readField m 0
    if type = ltfsRequestTerminate then return (.statusSuccess, true, s, fs)
    else if type = ltfsRequestConnect then do
      let (status, s) ← requestConnect fuel m s processHandle calls
      return (status, false, s, fs)
    else if type = ltfsRequestOpenFile then do
      let (status, s, fs) ← requestOpenFile fuel disk m s fs processHandle calls
      return (status, false, s, fs)
    else return (.statusUnexpected, false, s, fs)

/-! ## What is read of a message -/

/-- A byte of a message is below its length. -/
def Below (size : ℕ) (e : FsRead) : Prop := ∀ i, e = .caller i → i < size

/-- The contract of the bytes of a message. -/
def below (size : ℕ) : Traced.Contract FsRead := ⟨Below size, fun _ => False⟩

/-- A field of a message. -/
def field (m : Bytes) (offset : ℕ) : U32 := BitVec.ofNat 32 (m.load32 offset)

variable {m : Bytes} {size path fuel : ℕ} {s : FsService} {fs : FsFiles} {tree : FsTree}
  {processHandle : U32} {calls : CommandCalls}

theorem copyCaller_eq (m : Bytes) (index n : ℕ) : copyCaller m index n =
    ⟨(List.range n).map fun i => .caller (index + i),
      .ret ((List.range n).map fun i => m (index + i))⟩ := by
  induction n generalizing index with
  | zero => rfl
  | succ n ih =>
    have hnext (i : ℕ) : index + 1 + i = index + (i + 1) := by omega
    have hread : readCaller m index = ⟨[.caller index], .ret (m index)⟩ := rfl
    rw [copyCaller, hread, ih, Traced.bind_of_ret rfl, Traced.bind_of_ret rfl]
    simp [List.range_succ_eq_map, Function.comp_def, hnext]

theorem readField_yields {offset : ℕ} {Q : U32 → Prop} :
    Traced.Yields (Below size) (readField m offset) Q ↔ offset + 4 ≤ size ∧ Q (field m offset) := by
  have hbelow : (∀ e ∈ (List.range 4).map fun i => FsRead.caller (offset + i), Below size e) ↔
      offset + 4 ≤ size := by
    simp only [List.forall_mem_map, List.mem_range, Below, FsRead.caller.injEq, forall_eq']
    constructor
    · intro h
      have := h 3 (by omega)
      omega
    · intro h i hi
      omega
  rw [readField, Traced.yields_bind, copyCaller_eq, Traced.Yields]
  simp only [Outcome.ret.injEq, exists_eq_left', hbelow, Traced.yields_pure, littleEndian_four, field]

/-- Where the reading of a string has come to its end, all bytes up to there have been read. -/
theorem readString_ret {n : ℕ} {t r : List U8}
    (h : (Traced.loop (StdLib.readStringTurn (callerPath m path)) n t).outcome = .ret r) :
    ∃ rest, r = t ++ rest ∧ PathAt m (path + t.length) rest ∧ ∀ i ≤ rest.length,
      .caller (path + t.length + i) ∈
        (Traced.loop (StdLib.readStringTurn (callerPath m path)) n t).trace := by
  induction n generalizing t with
  | zero => cases h
  | succ n ih =>
    by_cases hzero : m (path + t.length) = 0
    · have hturn : StdLib.readStringTurn (callerPath m path) t =
          ⟨[.caller (path + t.length)], .ret (.inr t)⟩ := by
        have hread : callerPath m path t.length =
            ⟨[.caller (path + t.length)], .ret (m (path + t.length))⟩ := rfl
        rw [StdLib.readStringTurn, hread, Traced.bind_of_ret rfl, if_pos hzero]
        rfl
      rw [Traced.loop, hturn, Traced.bind_of_ret rfl] at h ⊢
      cases h
      refine ⟨[], (List.append_nil _).symm,
        ⟨fun _ hb => absurd hb List.not_mem_nil, fun i hi => ?_⟩, fun i hi => ?_⟩
      · obtain rfl := Nat.le_zero.mp hi
        exact hzero
      · obtain rfl := Nat.le_zero.mp hi
        simp
    · have hturn : StdLib.readStringTurn (callerPath m path) t =
          ⟨[.caller (path + t.length)], .ret (.inl (t ++ [m (path + t.length)]))⟩ := by
        have hread : callerPath m path t.length =
            ⟨[.caller (path + t.length)], .ret (m (path + t.length))⟩ := rfl
        rw [StdLib.readStringTurn, hread, Traced.bind_of_ret rfl, if_neg hzero]
        rfl
      have hret : (StdLib.readStringTurn (callerPath m path) t).outcome =
          .ret (.inl (t ++ [m (path + t.length)])) := by rw [hturn]
      rw [Traced.loop_again hret] at h ⊢
      obtain ⟨rest, rfl, hpath, hreads⟩ := ih h
      have hlen : path + (t ++ [m (path + t.length)]).length = path + t.length + 1 := by
        rw [List.length_append, List.length_singleton, Nat.add_assoc]
      rw [hlen] at hpath hreads
      refine ⟨m (path + t.length) :: rest, by simp, ⟨fun b hb => ?_, fun i hi => ?_⟩, fun i hi => ?_⟩
      · rcases List.mem_cons.mp hb with rfl | hb
        · exact hzero
        · exact hpath.ne_zero b hb
      · cases i with
        | zero => rfl
        | succ i =>
          rw [← Nat.add_assoc, Nat.add_right_comm, hpath.bytes i (Nat.le_of_succ_le_succ hi)]
          rfl
      · cases i with
        | zero =>
          rw [hturn]
          exact List.mem_append_left _ (List.mem_singleton.mpr rfl)
        | succ i =>
          rw [← Nat.add_assoc, Nat.add_right_comm]
          exact List.mem_append_right _ (hreads i (Nat.le_of_succ_le_succ hi))

/-- A string of a message is read up to its end. -/
theorem readString_yields (hfuel : size ≤ fuel) {Q : List U8 → Prop} :
    Traced.Yields (Below size) (StdLib.readString fuel (callerPath m path)) Q ↔
      ∃ s, PathAt m path s ∧ path + s.length < size ∧ Q s := by
  constructor
  · rintro ⟨s, hret, hok, hs⟩
    obtain ⟨rest, heq, hpath, hreads⟩ := readString_ret hret
    obtain rfl : s = rest := heq
    exact ⟨s, hpath, hok _ (hreads s.length le_rfl) _ rfl, hs⟩
  · rintro ⟨s, hpath, hlt, hs⟩
    have hread : AllowsPath (below size) path s.length := fun i hi j hj => by
      cases hj
      omega
    refine ((StdLib.readString_meets (hpath.holds hread) (by omega)).yields fun _ => id).mono ?_
    rintro _ rfl
    exact hs

theorem readString_yields_of (hfuel : size ≤ fuel) {id : List U8} (hid : PathAt m path id)
    (hlt : path + id.length < size) {Q : List U8 → Prop} :
    Traced.Yields (Below size) (StdLib.readString fuel (callerPath m path)) Q ↔ Q id := by
  rw [readString_yields hfuel]
  constructor
  · rintro ⟨id', hid', -, hQ⟩
    exact hid.unique hid' ▸ hQ
  · exact fun hQ => ⟨id, hid, hlt, hQ⟩

/-! ## Connect requests -/

/-- A connect request reads its string, and is the one for it. -/
theorem requestConnect_yields (hfuel : size ≤ fuel) {Q : Status × FsService → Prop} :
    Traced.Yields (Below size) (requestConnect fuel m s processHandle calls) Q ↔
      ∃ id, PathAt m parametersOffset id ∧ parametersOffset + id.length < size ∧
        Q (s.requestConnect processHandle (some id) ⟨calls.heapAlloc, calls.ipcServerConnect id⟩) := by
  rw [requestConnect, Traced.yields_bind, readString_yields hfuel]
  refine exists_congr fun id => and_congr_right fun hid => and_congr_right fun hlt => ?_
  rw [FsService.requestConnect]
  dsimp only
  by_cases hfailed : (s.lookForProcessFromHandle processHandle).1.failed
  · rw [if_pos hfailed, if_pos hfailed]
    exact Traced.yields_pure
  rw [if_neg hfailed, if_neg hfailed]
  by_cases hfound : (s.lookForProcessFromHandle processHandle).2.isSome
  · rw [if_pos hfound, if_pos hfound]
    exact Traced.yields_pure
  rw [if_neg hfound, if_neg hfound]
  rcases s.createProcessEntry processHandle calls.heapAlloc with ⟨status, _ | process, s'⟩
  · exact Traced.yields_pure
  dsimp only
  -- the name is that of the log
  rw [Traced.yields_bind, readString_yields_of hfuel hid hlt]
  split_ifs <;> exact Traced.yields_pure

/-! ## Open requests -/

/-- The first entry for a file. -/
def entryFor (s : FsService) (file : ℕ) : Option FileEntry := s.fileEntries.find? fun e => e.file = file

/-- How much of a message is read after the path has been opened. -/
def answerSize (m : Bytes) (s : FsService) (file : Option ℕ) : ℕ :=
  match file with
  | none => 0
  | some file =>
    if ∀ e ∈ entryFor s file, isFileAccessible e (field m accessOffset) then shareModeOffset + 4
    else accessOffset + 4

theorem answerSize_le (m : Bytes) (s : FsService) (file : Option ℕ) :
    answerSize m s file ≤ shareModeOffset + 4 := by
  unfold answerSize accessOffset shareModeOffset
  split
  · exact Nat.zero_le _
  · split_ifs <;> omega

/-- The parameters in a message, with the path read from it. -/
def parameters (m : Bytes) (filePath : List U8) : LtFsOpenFileParameters where
  filePath
  access := field m accessOffset
  shareMode := field m shareModeOffset

/-- Both fields are read where the second one is. -/
theorem both_fields_iff (size : ℕ) :
    (accessOffset + 4 ≤ size ∧ shareModeOffset + 4 ≤ size) ↔ shareModeOffset + 4 ≤ size := by
  unfold accessOffset shareModeOffset
  omega

theorem grantOpenFile_yields {process : ℕ} {file : Option ℕ} {openCalls : OpenFileCalls}
    {Q : Status × FsService → Prop} :
    Traced.Yields (Below size) (grantOpenFile m s process file openCalls) Q ↔
      shareModeOffset + 4 ≤ size ∧
        Q (match s.newFileEntry file (field m accessOffset) (field m shareModeOffset) with
          | (_, some newFileEntry, s') =>
            let process' := { s'.entry process with
              fileEntries := listPush (s'.entry process).fileEntries newFileEntry }
            let s' := { s' with
              fileEntries := s'.fileEntries ++ [newFileEntry]
              entry := fun p => if p = process then process' else s'.entry p }
            (s'.send process openCalls, s')
          | (status, none, s') => (status, s')) := by
  rw [grantOpenFile, Traced.yields_bind, readField_yields, Traced.yields_bind, readField_yields,
    ← and_assoc, both_fields_iff]
  refine and_congr_right fun _ => ?_
  rcases s.newFileEntry file (field m accessOffset) (field m shareModeOffset) with
    ⟨status, _ | newFileEntry, s'⟩
  · exact Traced.yields_pure
  · exact Traced.yields_pure

theorem answerOpenFile_yields {process : ℕ} {file : Option ℕ} {openCalls : OpenFileCalls}
    (filePath : List U8)
    (hprocess : s.lookForProcessFromHandle processHandle = (.statusSuccess, some process))
    (hfile : openCalls.openFileFromName filePath = (.statusSuccess, file))
    {Q : Status × FsService → Prop} :
    Traced.Yields (Below size) (answerOpenFile m s process file openCalls) Q ↔
      answerSize m s file ≤ size ∧
        Q ((s.requestOpenFile processHandle (some (parameters m filePath)) openCalls).1,
          (s.requestOpenFile processHandle (some (parameters m filePath)) openCalls).2.2) := by
  have hok : Status.statusSuccess.failed = false := rfl
  simp only [FsService.requestOpenFile, parameters, hprocess, hfile, hok, Bool.false_eq_true, if_false]
  rcases file with _ | file
  · have hnone : s.lookForFileEntryFromFilePtr none = (.statusNullParameter, none) := rfl
    have hfailed : Status.statusNullParameter.failed = true := rfl
    simp only [answerOpenFile, hnone, hfailed, if_true, Traced.yields_pure, answerSize, Nat.zero_le,
      true_and]
  have hdenied : Status.statusSuccess ≠ .statusAccessDenied := by decide
  have hgrant : Traced.Yields (Below size) (grantOpenFile m s process (some file) openCalls) Q ↔ _ :=
    grantOpenFile_yields
  rw [answerOpenFile, s.lookForFileEntryFromFilePtr_eq file]
  simp only [hok, Bool.false_eq_true, if_false]
  rw [Traced.yields_bind]
  rcases hfind : s.fileEntries.find? (fun e => e.file = file) with _ | e
  · have hsize : answerSize m s (some file) = shareModeOffset + 4 := by
      simp [answerSize, entryFor, hfind]
    simp only [hfind, resStatus, Traced.yields_pure, hdenied, if_false, hsize]
    rw [hgrant]
    refine and_congr_right fun _ => ?_
    rcases s.newFileEntry (some file) (field m accessOffset) (field m shareModeOffset) with
      ⟨status, _ | newFileEntry, s'⟩
    · rfl
    · rfl
  simp only [hfind]
  rw [resStatus, Traced.yields_bind, readField_yields]
  by_cases haccessible : isFileAccessible e (field m accessOffset)
  · have hsize : answerSize m s (some file) = shareModeOffset + 4 := by
      simp [answerSize, entryFor, hfind, haccessible]
    rw [if_pos haccessible]
    simp only [Traced.yields_pure, hdenied, if_false, hsize]
    rw [hgrant, ← and_assoc, both_fields_iff]
    refine and_congr_right fun _ => ?_
    simp only [haccessible, if_true, hdenied, if_false]
    rcases s.newFileEntry (some file) (field m accessOffset) (field m shareModeOffset) with
      ⟨status, _ | newFileEntry, s'⟩
    · rfl
    · rfl
  · have hsize : answerSize m s (some file) = accessOffset + 4 := by
      simp [answerSize, entryFor, hfind, haccessible]
    simp [haccessible, hsize]

/-- What `RequestOpenFile` does for a process that is not registered. -/
theorem requestOpenFile_unregistered (fuel : ℕ) (disk : DiskReads) (m : Bytes) (fs : FsFiles)
    (calls : CommandCalls) (hnone : (s.lookForProcessFromHandle processHandle).2 = none) :
    ∃ status, status.failed ∧
      (∀ parameters openCalls,
        s.requestOpenFile processHandle (some parameters) openCalls = (status, none, s)) ∧
      requestOpenFile fuel disk m s fs processHandle calls = pure (status, s, fs) := by
  rw [requestOpenFile]
  rcases hlook : s.lookForProcessFromHandle processHandle with ⟨status, process⟩
  rw [hlook] at hnone
  obtain rfl : process = none := hnone
  by_cases hfailed : status.failed
  · refine ⟨status, hfailed, fun parameters openCalls => ?_, if_pos hfailed⟩
    rw [FsService.requestOpenFile, hlook]
    exact if_pos hfailed
  · refine ⟨.statusUnexpected, rfl, fun parameters openCalls => ?_, if_neg hfailed⟩
    rw [FsService.requestOpenFile, hlook]
    exact if_neg hfailed

theorem lookForProcessFromHandle_some {status : Status} {process : ℕ}
    (h : s.lookForProcessFromHandle processHandle = (status, some process)) :
    s.lookForProcessFromHandle processHandle = (.statusSuccess, some process) := by
  by_cases h0 : processHandle = 0
  · rw [FsService.lookForProcessFromHandle, if_pos h0] at h
    cases h
  · rw [s.lookForProcessFromHandle_eq h0] at h ⊢
    exact congrArg (Prod.mk _) (congrArg Prod.snd h)

/-- What it does for one that is. -/
theorem requestOpenFile_yields {process : ℕ} (hready : fs.Ready tree) (hfuel : 2 ^ 32 + size ≤ fuel)
    (hprocess : s.lookForProcessFromHandle processHandle = (.statusSuccess, some process))
    {Q : Status × FsService × FsFiles → Prop} :
    Traced.Yields (Below size) (requestOpenFile fuel tree.disk m s fs processHandle calls) Q ↔
      ∃ path, PathAt m parametersOffset path ∧ parametersOffset + path.length < size ∧
        ∃ status file m' fs', (fs.openFileFromName fuel tree.disk m (some parametersOffset)).outcome =
            .ret (status, file, m', fs') ∧
          if status.failed then Q (status, s, fs')
          else m' = m ∧ Traced.Yields (Below size) (answerOpenFile m s process file
            { openFileFromName := fun _ => (status, file), send := calls.ipcSend }) fun r =>
              Q (r.1, r.2, fs') := by
  have hok : Status.statusSuccess.failed = false := rfl
  obtain ⟨hnodes, l, hl⟩ := hready
  rw [requestOpenFile, hprocess]
  simp only [hok, Bool.false_eq_true, if_false]
  rw [Traced.yields_bind, readString_yields (by omega)]
  refine exists_congr fun path => and_congr_right fun hpath => and_congr_right fun hlt => ?_
  have hread : AllowsPath (below size) parametersOffset path.length := fun i hi j hj => by
    cases hj
    omega
  have hlong : 2 ^ 32 + path.length ≤ fuel := by omega
  have hmeets := hnodes.openFileFromName_meets hl hpath hread (fun _ _ => nofun) hlong
  refine Traced.yields_bind.trans ((hmeets.yields_iff fun _ => id).trans ?_)
  constructor
  · rintro ⟨⟨status, file, m', fs'⟩, hret, ⟨ha, -⟩, hyields⟩
    refine ⟨status, file, m', fs', hret, ?_⟩
    dsimp only at hyields
    split_ifs at hyields ⊢ with hfailed
    · exact Traced.yields_pure.mp hyields
    · have hkept := ha.kept fun hnone => hfailed (ha.lost hnone).1
      obtain rfl : m' = m := hkept
      refine ⟨rfl, ?_⟩
      rw [Traced.yields_bind] at hyields
      exact hyields.mono fun _ => Traced.yields_pure.mp
  · rintro ⟨status, file, m', fs', hret, hyields⟩
    refine ⟨(status, file, m', fs'), hret, hmeets.ret _ hret, ?_⟩
    dsimp only
    split_ifs at hyields ⊢ with hfailed
    · exact Traced.yields_pure.mpr hyields
    · obtain ⟨rfl, hyields⟩ := hyields
      rw [Traced.yields_bind]
      exact hyields.mono fun _ => Traced.yields_pure.mpr

/-! ## The request in a message -/

/-- The request that is decoded from a message. -/
def DecodedFrom (m : Bytes) : FsRequest → Prop
  | .terminate => field m 0 = ltfsRequestTerminate
  | .connect ipcServerId _ => field m 0 = ltfsRequestConnect ∧ PathAt m parametersOffset ipcServerId
  | .openFile params _ => field m 0 = ltfsRequestOpenFile ∧ params = parameters m params.filePath
  | .other => field m 0 ≠ ltfsRequestTerminate ∧ field m 0 ≠ ltfsRequestConnect ∧
      field m 0 ≠ ltfsRequestOpenFile

/-- A command that comes back without having read behind the message is the execution of a request
that is decoded from it. -/
theorem serviceExecuteCommand_executes (hready : fs.Ready tree) (hfuel : 2 ^ 32 + size ≤ fuel)
    {Q : Status × Bool × FsService × FsFiles → Prop}
    (hyields : Traced.Yields (Below size)
      (serviceExecuteCommand fuel tree.disk s fs processHandle (some m) calls) Q) :
    ∃ request fs' r, DecodedFrom m request ∧ s.execute processHandle request = r ∧
      Q (r.1, r.2.1, r.2.2, fs') := by
  rw [serviceExecuteCommand, Traced.yields_bind, readField_yields] at hyields
  obtain ⟨-, hyields⟩ := hyields
  split_ifs at hyields with hterminate hconnect hopen
  · exact ⟨.terminate, fs, _, hterminate, rfl, Traced.yields_pure.mp hyields⟩
  · rw [Traced.yields_bind, requestConnect_yields (by omega)] at hyields
    obtain ⟨id, hid, -, hQ⟩ := hyields
    exact ⟨.connect id _, fs, _, ⟨hconnect, hid⟩, rfl, Traced.yields_pure.mp hQ⟩
  · rw [Traced.yields_bind] at hyields
    rcases hlook : s.lookForProcessFromHandle processHandle with ⟨status, _ | process⟩
    · have hnone : (s.lookForProcessFromHandle processHandle).2 = none := by rw [hlook]
      obtain ⟨status, -, hexecute, heq⟩ :=
        requestOpenFile_unregistered fuel tree.disk m fs calls hnone
      rw [heq, Traced.yields_pure] at hyields
      refine ⟨.openFile (parameters m []) { openFileFromName := fun _ => (status, none), send := status },
        fs, (status, false, s), ⟨hopen, rfl⟩, ?_, Traced.yields_pure.mp hyields⟩
      rw [FsService.execute, hexecute]
    have hprocess := lookForProcessFromHandle_some hlook
    rw [requestOpenFile_yields hready hfuel hprocess] at hyields
    obtain ⟨path, -, -, status, file, m', fs', -, hyields⟩ := hyields
    split_ifs at hyields with hfailed
    · refine ⟨.openFile (parameters m path)
        { openFileFromName := fun _ => (status, file), send := calls.ipcSend }, fs', (status, false, s),
        ⟨hopen, rfl⟩, ?_, Traced.yields_pure.mp hyields⟩
      rw [FsService.execute, FsService.requestOpenFile, hprocess]
      simp [hfailed, show Status.statusSuccess.failed = false from rfl]
    · obtain rfl : status = .statusSuccess := by simpa [Status.failed] using hfailed
      obtain ⟨-, hyields⟩ := hyields
      rw [answerOpenFile_yields path hprocess rfl] at hyields
      exact ⟨.openFile (parameters m path)
        { openFileFromName := fun _ => (.statusSuccess, file), send := calls.ipcSend }, fs', _,
        ⟨hopen, rfl⟩, rfl, Traced.yields_pure.mp hyields.2⟩
  · exact ⟨.other, fs, _, ⟨hterminate, hconnect, hopen⟩, rfl, Traced.yields_pure.mp hyields⟩

/-! ## Messages that are too short -/

/-- The command returns, no byte of the message behind its length is read, and a message that is too
short for its type is rejected, with the service as it was. -/
def DecodesWithin (fuel : ℕ) (tree : FsTree) (s : FsService) (fs : FsFiles) (processHandle : U32)
    (message : Option Bytes) (size : ℕ) (calls : CommandCalls) : Prop :=
  Traced.Yields (Below size) (serviceExecuteCommand fuel tree.disk s fs processHandle message calls)
    fun r => ∀ m ∈ message, size < neededSize (field m 0) →
      r.1.failed ∧ r.2.2.1 = s ∧ r.2.2.2 = fs

/-- The string of a connect request ends inside the message. If the message is too short, its
process is unknown, and has no handle or cannot be connected to. -/
def ConnectWithin (m : Bytes) (size : ℕ) (s : FsService) (processHandle : U32)
    (calls : CommandCalls) : Prop :=
  ∃ id, PathAt m parametersOffset id ∧ parametersOffset + id.length < size ∧
    (size < neededSize ltfsRequestConnect → (s.lookForProcessFromHandle processHandle).2 = none ∧
      (processHandle = 0 ∨ (calls.ipcServerConnect id).1.failed))

/-- There is an entry for a file with which it cannot be opened once more, and this cannot be
answered. -/
def DeniedUnanswered (m : Bytes) (size : ℕ) (s : FsService) (process : ℕ) (file : ℕ)
    (openCalls : OpenFileCalls) : Prop :=
  accessOffset + 4 ≤ size ∧ (∃ e, entryFor s file = some e ∧
    isFileAccessible e (field m accessOffset) = false) ∧ (s.send process openCalls).failed

/-- What a path leads through is known, and access is denied to the file that it leads to, if there is
one. -/
def RejectsOpen (tree : FsTree) (m : Bytes) (size : ℕ) (s : FsService) (fs : FsFiles) (process : ℕ)
    (path : List U8) (calls : CommandCalls) : Prop :=
  fs.Undisturbed tree [] (dirs (relative path)) (last (relative path)) ∧
    ∀ file, fs.GivenFile tree path file → DeniedUnanswered m size s process file
      { openFileFromName := fun _ => (.statusSuccess, some file), send := calls.ipcSend }

/-- The path of an open request of a known process ends inside the message. If the message is too
short, the request is rejected. -/
def OpenWithin (tree : FsTree) (m : Bytes) (size : ℕ) (s : FsService) (fs : FsFiles)
    (processHandle : U32) (calls : CommandCalls) : Prop :=
  ∀ process, (s.lookForProcessFromHandle processHandle).2 = some process →
    ∃ path, PathAt m parametersOffset path ∧ parametersOffset + path.length < size ∧
      (size < neededSize ltfsRequestOpenFile → RejectsOpen tree m size s fs process path calls)

/-- A connect request fails, and leaves the service as it was. -/
theorem requestConnect_unchanged_iff (id : List U8) (connectCalls : ConnectCalls)
    (hfree : s.block connectCalls.heapAlloc = .free) (hzero : s.entry connectCalls.heapAlloc = .zero) :
    ((s.requestConnect processHandle (some id) connectCalls).1.failed ∧
        (s.requestConnect processHandle (some id) connectCalls).2 = s) ↔
      (s.lookForProcessFromHandle processHandle).2 = none ∧
        (processHandle = 0 ∨ connectCalls.connectToServer.1.failed) := by
  have hok : Status.statusSuccess.failed = false := rfl
  by_cases h0 : processHandle = 0
  · have hlook : s.lookForProcessFromHandle processHandle = (.statusInvalidParameter, none) := if_pos h0
    refine iff_of_true ?_ ⟨by rw [hlook], .inl h0⟩
    rw [FsService.requestConnect, hlook]
    exact ⟨rfl, rfl⟩
  rw [FsService.requestConnect, s.lookForProcessFromHandle_eq h0]
  rcases s.processes.find? fun p => (s.entry p).processHandle = processHandle with _ | p
  swap
  · simp [hok]
  rcases connectCalls with ⟨block, status, handle⟩
  dsimp only at hfree hzero
  simp only [FsService.createProcessEntry, hok, Option.isSome_none, Bool.false_eq_true,
    if_false, true_and, h0, false_or]
  by_cases hstatus : status.failed
  · refine iff_of_true ?_ hstatus
    rw [if_pos hstatus]
    refine ⟨hstatus, ?_⟩
    -- the block is taken, and freed again
    rcases s with ⟨processes, fileEntries, currentFileHandle, use, entry⟩
    dsimp only at hfree hzero
    simp only [FsService.connectClean, FsService.heapFree, if_true, reduceCtorEq, if_false,
      FsService.mk.injEq, true_and]
    constructor
    · funext q
      by_cases hq : q = block <;> simp [hq, hfree]
    · funext q
      by_cases hq : q = block <;> simp [hq, hzero]
  · rw [if_neg hstatus]
    simp [hok, hstatus]

theorem neededSize_openFile : neededSize ltfsRequestOpenFile = shareModeOffset + 4 := by decide

/-- A process that cannot open a file with a message that is too short. -/
theorem answerOpenFile_short {process : ℕ} {file : Option ℕ} {openCalls : OpenFileCalls}
    (hshort : size < neededSize ltfsRequestOpenFile) :
    Traced.Yields (Below size) (answerOpenFile m s process file openCalls)
        (fun r => r.1.failed ∧ r.2 = s) ↔
      ∀ p ∈ file, DeniedUnanswered m size s process p openCalls := by
  have hok : Status.statusSuccess.failed = false := rfl
  have hgrant : ¬Traced.Yields (Below size) (grantOpenFile m s process file openCalls)
      fun r => r.1.failed ∧ r.2 = s := by
    rw [grantOpenFile_yields]
    rw [neededSize_openFile] at hshort
    omega
  rcases file with _ | file
  · have hnone : s.lookForFileEntryFromFilePtr none = (.statusNullParameter, none) := rfl
    have hfailed : Status.statusNullParameter.failed = true := rfl
    simp [answerOpenFile, hnone, hfailed]
  rw [answerOpenFile, s.lookForFileEntryFromFilePtr_eq file]
  simp only [hok, Bool.false_eq_true, if_false, Option.mem_def, Option.some.injEq, forall_eq']
  rw [Traced.yields_bind]
  rcases hfind : s.fileEntries.find? (fun e => e.file = file) with _ | e
  · have hnot : ¬DeniedUnanswered m size s process file openCalls := by
      rintro ⟨-, ⟨e, he, -⟩, -⟩
      rw [entryFor, hfind] at he
      cases he
    simp [hfind, resStatus, hgrant, hnot]
  simp only [hfind]
  rw [resStatus, Traced.yields_bind, readField_yields]
  by_cases haccessible : isFileAccessible e (field m accessOffset)
  · have hnot : ¬DeniedUnanswered m size s process file openCalls := by
      rintro ⟨-, ⟨e', he, hdenied⟩, -⟩
      rw [entryFor, hfind] at he
      cases he
      rw [haccessible] at hdenied
      cases hdenied
    simp [haccessible, hgrant, hnot]
  · simp only [Bool.not_eq_true] at haccessible
    simp [haccessible, DeniedUnanswered, entryFor, hfind]

theorem decodesWithin_connect (hfuel : size ≤ fuel) (htype : field m 0 = ltfsRequestConnect)
    (hfree : s.block calls.heapAlloc = .free) (hzero : s.entry calls.heapAlloc = .zero) :
    DecodesWithin fuel tree s fs processHandle (some m) size calls ↔
      parametersOffset ≤ size ∧ ConnectWithin m size s processHandle calls := by
  rw [DecodesWithin, serviceExecuteCommand, Traced.yields_bind, readField_yields, Nat.zero_add, htype,
    if_neg (by decide), if_pos rfl, Traced.yields_bind, requestConnect_yields hfuel]
  refine and_congr_right fun _ => exists_congr fun id => and_congr_right fun _ => and_congr_right
    fun _ => ?_
  rw [Traced.yields_pure, ← requestConnect_unchanged_iff id
    { heapAlloc := calls.heapAlloc, connectToServer := calls.ipcServerConnect id } hfree hzero]
  simp [htype]

theorem decodesWithin_openFile (hready : fs.Ready tree) (hfuel : 2 ^ 32 + size ≤ fuel)
    (htype : field m 0 = ltfsRequestOpenFile) :
    DecodesWithin fuel tree s fs processHandle (some m) size calls ↔
      parametersOffset ≤ size ∧ OpenWithin tree m size s fs processHandle calls := by
  rw [DecodesWithin, serviceExecuteCommand, Traced.yields_bind, readField_yields, Nat.zero_add, htype,
    if_neg (by decide), if_neg (by decide), if_pos rfl, Traced.yields_bind]
  refine and_congr_right fun _ => ?_
  rcases hlook : s.lookForProcessFromHandle processHandle with ⟨status, _ | process⟩
  · have hnone : (s.lookForProcessFromHandle processHandle).2 = none := by rw [hlook]
    obtain ⟨status, hfailed, -, heq⟩ := requestOpenFile_unregistered fuel tree.disk m fs calls hnone
    rw [heq, Traced.yields_pure, Traced.yields_pure, OpenWithin, hnone]
    simp [hfailed]
  have hprocess := lookForProcessFromHandle_some hlook
  rw [requestOpenFile_yields hready hfuel hprocess, OpenWithin, hprocess]
  simp only [Option.some.injEq, forall_eq', Traced.yields_pure]
  refine exists_congr fun path => and_congr_right fun hpath => and_congr_right fun hlt => ?_
  have hlong : 2 ^ 32 + path.length ≤ fuel := by omega
  have hmeets := hready.walks hpath hlong
  rw [← htype]
  constructor
  · rintro ⟨status, file, m', fs', hret, hyields⟩ hshort
    obtain ⟨ha, hsame⟩ := hmeets.ret _ hret
    split_ifs at hyields with hfailed
    · obtain ⟨-, -, rfl⟩ := hyields m rfl hshort
      refine ⟨hsame.mp rfl, fun p hp => ?_⟩
      obtain ⟨rfl, -⟩ := (ha.given_iff rfl).mpr hp
      cases hfailed
    · obtain ⟨-, r, hr, hok, hrejected⟩ := hyields
      obtain ⟨hrfailed, hrsame, rfl⟩ := hrejected m rfl hshort
      rw [htype] at hshort
      refine ⟨hsame.mp rfl, fun p hp => ?_⟩
      obtain ⟨rfl, rfl⟩ := (ha.given_iff rfl).mpr hp
      exact (answerOpenFile_short hshort).mp ⟨r, hr, hok, hrfailed, hrsame⟩ p rfl
  · intro hrejects
    obtain ⟨⟨status, file, m', fs'⟩, hret, ha, hsame⟩ := hmeets.returns fun _ => id
    have hkept (hfailed : ¬status.failed) : m' = m :=
      ha.kept fun hnone => hfailed (ha.lost hnone).1
    by_cases hshort : size < neededSize (field m 0)
    · obtain ⟨hundisturbed, hdenied⟩ := hrejects hshort
      obtain rfl : fs' = fs := hsame.mpr hundisturbed
      refine ⟨status, file, m', fs', hret, ?_⟩
      split_ifs with hfailed
      · exact fun _ _ _ => ⟨hfailed, trivial, rfl⟩
      · obtain rfl : status = .statusSuccess := by simpa [Status.failed] using hfailed
        rw [htype] at hshort
        refine ⟨hkept hfailed, ((answerOpenFile_short hshort).mpr fun p hp => ?_).mono
          fun r hr _ _ _ => ⟨hr.1, hr.2, rfl⟩⟩
        obtain rfl : file = some p := hp
        exact hdenied p ((ha.given_iff rfl).mp ⟨rfl, rfl⟩)
    · have hlong (m' : Bytes) (hm' : m' ∈ some m) : ¬size < neededSize (field m' 0) := by
        cases hm'
        exact hshort
      refine ⟨status, file, m', fs', hret, ?_⟩
      split_ifs with hfailed
      · exact fun m' hm' hlt => absurd hlt (hlong m' hm')
      · obtain rfl : status = .statusSuccess := by simpa [Status.failed] using hfailed
        refine ⟨hkept hfailed, (answerOpenFile_yields path hprocess rfl).mpr
          ⟨?_, fun m' hm' hlt => absurd hlt (hlong m' hm')⟩⟩
        rw [htype, neededSize_openFile] at hshort
        have hle := answerSize_le m s file
        omega

theorem decodesWithin_other (hconnect : field m 0 ≠ ltfsRequestConnect)
    (hopen : field m 0 ≠ ltfsRequestOpenFile) :
    DecodesWithin fuel tree s fs processHandle (some m) size calls ↔ parametersOffset ≤ size := by
  have hneeded : neededSize (field m 0) = parametersOffset := by
    rw [neededSize, if_neg hconnect, if_neg hopen]
  have hlong (hle : parametersOffset ≤ size) (m' : Bytes) (hm' : m' ∈ some m) :
      ¬size < neededSize (field m' 0) := by
    cases hm'
    rw [hneeded]
    exact Nat.not_lt.mpr hle
  rw [DecodesWithin, serviceExecuteCommand, Traced.yields_bind, readField_yields, Nat.zero_add,
    if_neg hconnect, if_neg hopen]
  refine and_iff_left_of_imp fun hle => ?_
  split_ifs <;> exact Traced.yields_pure.mpr fun m' hm' hlt => absurd hlt (hlong hle m' hm')

/-- What a message has to be like for its type. -/
def FitsItsType (tree : FsTree) (s : FsService) (fs : FsFiles) (processHandle : U32)
    (message : Option Bytes) (size : ℕ) (calls : CommandCalls) : Prop :=
  ∀ m ∈ message, parametersOffset ≤ size ∧
    (field m 0 = ltfsRequestConnect → ConnectWithin m size s processHandle calls) ∧
    (field m 0 = ltfsRequestOpenFile → OpenWithin tree m size s fs processHandle calls)

/-- A message is decoded within its length exactly when it is long enough for its type field, its
string ends inside of it, and a request in a message that is too short is rejected as it is: nobody can
be connected to, or the files on the path are known and access to the last one is denied. -/
theorem decodesWithin_iff {message : Option Bytes} (hreached : FsFiles.Reached tree fs)
    (hfuel : 2 ^ 32 + size ≤ fuel) (hfree : s.block calls.heapAlloc = .free)
    (hzero : s.entry calls.heapAlloc = .zero) :
    DecodesWithin fuel tree s fs processHandle message size calls ↔
      FitsItsType tree s fs processHandle message size calls := by
  rcases message with _ | m
  · rw [DecodesWithin, serviceExecuteCommand, Traced.yields_pure]
    exact iff_of_true nofun nofun
  have hfits : FitsItsType tree s fs processHandle (some m) size calls ↔ parametersOffset ≤ size ∧
      (field m 0 = ltfsRequestConnect → ConnectWithin m size s processHandle calls) ∧
      (field m 0 = ltfsRequestOpenFile → OpenWithin tree m size s fs processHandle calls) := by
    rw [FitsItsType]
    simp only [Option.mem_def, Option.some.injEq, forall_eq']
  rw [hfits]
  by_cases hconnect : field m 0 = ltfsRequestConnect
  · have hne : field m 0 ≠ ltfsRequestOpenFile := by
      rw [hconnect]
      decide
    rw [decodesWithin_connect (by omega) hconnect hfree hzero]
    exact ⟨fun h => ⟨h.1, fun _ => h.2, fun hopen => absurd hopen hne⟩,
      fun h => ⟨h.1, h.2.1 hconnect⟩⟩
  by_cases hopen : field m 0 = ltfsRequestOpenFile
  · rw [decodesWithin_openFile hreached.ready hfuel hopen]
    exact ⟨fun h => ⟨h.1, fun hconnect' => absurd hconnect' hconnect, fun _ => h.2⟩,
      fun h => ⟨h.1, h.2.2 hopen⟩⟩
  · rw [decodesWithin_other hconnect hopen]
    exact ⟨fun h => ⟨h, fun hconnect' => absurd hconnect' hconnect, fun hopen' => absurd hopen' hopen⟩,
      fun h => h.1⟩

/-- The bytes of a connect request with the string `a`. -/
def connectBytes : Bytes := fun i => [1, 0, 0, 0, 97].getD i 0

theorem connectBytes_pathAt : PathAt connectBytes parametersOffset [97] := by
  refine ⟨by decide, fun i hi => ?_⟩
  rcases Nat.le_one_iff_eq_zero_or_eq_one.mp hi with rfl | rfl <;> rfl

/-- What is answered to a process that connects. -/
def connectAnswers : CommandCalls where
  heapAlloc := 0x40001004
  ipcServerConnect _ := (.statusSuccess, some 3)
  ipcSend := .statusSuccess

/-- The request in a message of the length that is needed for it. -/
theorem connectBytes_decodesWithin : ∃ fs, FsFiles.Reached FsFiles.singleFile fs ∧
    DecodesWithin (2 ^ 32 + 259) FsFiles.singleFile .init fs 7 (some connectBytes) 259
      connectAnswers := by
  obtain ⟨fs, hreached⟩ := FsFiles.singleFile_reached
  refine ⟨fs, hreached, (decodesWithin_iff hreached le_rfl rfl rfl).mpr ?_⟩
  rintro m hm
  cases hm
  refine ⟨by decide, fun _ => ⟨[97], connectBytes_pathAt, by decide, fun hlt => ?_⟩, fun hopen => ?_⟩
  · exact absurd hlt (by decide)
  · exact absurd hopen (by decide)

/-- Its string does not end in a message of five bytes. -/
theorem connectBytes_not_decodesWithin : ∃ fs, FsFiles.Reached FsFiles.singleFile fs ∧
    ¬DecodesWithin (2 ^ 32 + 5) FsFiles.singleFile .init fs 7 (some connectBytes) 5 connectAnswers := by
  obtain ⟨fs, hreached⟩ := FsFiles.singleFile_reached
  refine ⟨fs, hreached, fun hdecodes => ?_⟩
  obtain ⟨-, id, hid, hlt, -⟩ := (decodesWithin_connect (by decide) rfl rfl rfl).mp hdecodes
  obtain rfl := connectBytes_pathAt.unique hid
  exact absurd hlt (by decide)

end Message

end LtMicros
