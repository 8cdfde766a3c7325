import LtMicros.FsMessages

/-!
# The client of the service

`FsOpenFile` and `FsInit` of the library, on the memory of the program that calls them, and what
the service does with the messages that they send. The status of `Send` is not looked at.
-/

namespace LtMicros

open Lib CString

/-- `LTFS_REQUEST_MAX`. -/
def ltfsRequestMax : U32 := 3

/-- `MAX_FULL_PATH_SIZE`, and with it `sizeof(LtFsConnectParameter)`. -/
abbrev maxFullPathSize : ℕ := 255

/-- `sizeof(LtFsOpenFileParameters)`. -/
abbrev sizeOfOpenFileParameters : ℕ := 264

/-- `sizeof(LtFsRequest)`. -/
abbrev sizeOfRequest : ℕ := 8

/-- `gFsContext`. -/
structure FsContext where
  ltFsServiceHandle : U32
  ipcServer : U32
  isInitilaized : Bool
deriving DecidableEq

/-- What the functions of the library find and are answered: where their variables and the name of
their own server lie, the two system calls of the IPC, and the blocks of the two requests. -/
structure ClientCalls where
  uniqueIpcServerId : ℕ
  parameter : ℕ
  parameters : ℕ
  connectToServer : Status × U32
  createServer : Status × U32
  connectBlock : ℕ
  openBlock : ℕ

/-- The program: its memory, `gFsContext`, the messages it has sent, each with its handle, and the
blocks that it holds, each with its size. -/
structure FsClient where
  mem : Bytes
  context : FsContext
  sent : List (U32 × List U8)
  live : List (ℕ × ℕ)

/-- `StrLen`. -/
def strLen (fuel : ℕ) (m : Bytes) (str : ℕ) : Outcome ℕ :=
  Outcome.loop (fun length =>
    if m (str + length) = 0 then .ret (.inr length) else .ret (.inl (length + 1))) fuel 0

/-- `LtFsRequest::Create`. -/
def createRequest (m : Bytes) (type : U32) (parameters size heapAlloc : ℕ) :
    Status × Option ℕ × Bytes :=
  if ltfsRequestMax ≤ type then (.statusInvalidParameter, none, m)
  else if parameters = 0 then (.statusNullParameter, none, m)
  else if size = 0 then (.statusInvalidParameter, none, m)
  else if heapAlloc = 0 then (.statusAllocFailed, none, m)
  else
    let m := m.store32 heapAlloc type.toNat
    (.statusSuccess, some heapAlloc, m.copy parameters (heapAlloc + parametersOffset) size)

namespace FsClient

/-- `IpcClient::Send`. -/
def send (c : FsClient) (serverHandle : U32) (message size : ℕ) : FsClient :=
  if serverHandle = 0 then c
  else if message = 0 then c
  else if size = 0 then c
  else { c with sent :=
    c.sent ++ [(serverHandle, (List.range size).map fun i => c.mem (message + i))] }

/-- The block of a request with parameters of the size is taken. -/
def hold (c : FsClient) (request size : ℕ) : FsClient :=
  { c with live := (request, sizeOfRequest + size) :: c.live }

/-- `HeapFree`. The block is filled with zeros; one that is not held is left alone. -/
def heapFree (c : FsClient) (ptr : ℕ) : FsClient :=
  match c.live.find? (·.1 = ptr) with
  | some (_, size) =>
    { c with mem := c.mem.fill ptr 0 size, live := c.live.eraseP (·.1 = ptr) }
  | none => c

/-- `FsInit`. The request has the size of one to open a file. It is not given back: the status is
that of `Create`. -/
def fsInit (fuel : ℕ) (c : FsClient) (calls : ClientCalls) : Outcome (Status × FsClient) :=
  let (status, serverHandle) := calls.connectToServer
  if status.failed then .ret (status, c)
  else
    let (status, ipcServer) := calls.createServer
    if status.failed then .ret (status, c)
    else do
      let length ← strLen fuel c.mem calls.uniqueIpcServerId
      let mem := c.mem.copy calls.uniqueIpcServerId calls.parameter (length + 1)
      match createRequest mem ltfsRequestConnect calls.parameter maxFullPathSize
          calls.connectBlock with
      | (status, none, mem) => return (status, { c with mem })
      | (status, some connectRequest, mem) =>
        let requestSize := sizeOfRequest + sizeOfOpenFileParameters
        let c := { c with mem }.hold connectRequest maxFullPathSize
        let c := c.send serverHandle connectRequest requestSize
        return (status, { c with context := ⟨serverHandle, ipcServer, true⟩ })

/-- `FsOpenFile` from the test of the length on. -/
def fsSendOpen (fuel : ℕ) (c : FsClient) (filePath : ℕ) (access shareMode : U32)
    (calls : ClientCalls) : Outcome (Status × FsClient) := do
  let length ← strLen fuel c.mem filePath
  if maxFullPathSize < length + 1 then return (.statusPathTooLong, c)
  else
    let mem := c.mem.store32 (calls.parameters + 260) shareMode.toNat
    let mem := mem.store32 (calls.parameters + 256) access.toNat
    let mem := mem.copy filePath calls.parameters (length + 1)
    match createRequest mem ltfsRequestOpenFile calls.parameters sizeOfOpenFileParameters
        calls.openBlock with
    | (status, none, mem) => return (status, { c with mem })
    | (_, some request, mem) =>
      let requestSize := sizeOfRequest + sizeOfOpenFileParameters
      let c := { c with mem }.hold request sizeOfOpenFileParameters
      let c := c.send c.context.ltFsServiceHandle request requestSize
      return (.statusSuccess, c.heapFree request)

/-- `FsOpenFile`, with the address of the path and that of the handle. -/
def fsOpenFile (fuel : ℕ) (c : FsClient) (filePath : ℕ) (access shareMode : U32)
    (fileHandle : ℕ) (calls : ClientCalls) : Outcome (Status × FsClient) :=
  if filePath = 0 then .ret (.statusNullParameter, c)
  else if fileAccessMax ≤ access then .ret (.statusInvalidParameter, c)
  else if fileShareMax ≤ shareMode then .ret (.statusInvalidParameter, c)
  else if fileHandle = 0 then .ret (.statusNullParameter, c)
  else if c.context.isInitilaized then c.fsSendOpen fuel filePath access shareMode calls
  else do
    let (status, c) ← c.fsInit fuel calls
    if status.failed then return (status, c)
    else c.fsSendOpen fuel filePath access shareMode calls

end FsClient

/-! ## What is sent -/

/-- Two ranges of memory do not overlap. -/
def Apart (a n b k : ℕ) : Prop := a + n ≤ b ∨ b + k ≤ a

variable {m m' : Bytes} {str fuel : ℕ} {s : List U8}

theorem strLen_eq (h : PathAt m str s) (hfuel : s.length < fuel) :
    strLen fuel m str = .ret s.length := by
  have hzero (n : ℕ) (hn : n ≤ s.length) : m (str + n) = 0 ↔ n = s.length := by
    have hholds := h.holds (c := ⟨fun _ => True, fun _ => False⟩) fun _ _ => trivial
    rw [h.bytes n hn]
    exact hholds.getD_eq_zero hn
  have hrest (k n fuel : ℕ) (hn : n + k = s.length) (hfuel : k < fuel) :
      Outcome.loop (fun length => if m (str + length) = 0 then .ret (.inr length)
        else .ret (.inl (length + 1))) fuel n = .ret s.length := by
    induction k generalizing n fuel with
    | zero =>
      obtain ⟨fuel, rfl⟩ := Nat.exists_eq_succ_of_ne_zero (Nat.ne_of_gt hfuel)
      have hend : m (str + n) = 0 := (hzero n (by omega)).mpr (by omega)
      rw [Outcome.loop, if_pos hend]
      exact congrArg Outcome.ret (by omega)
    | succ k ih =>
      obtain ⟨fuel, rfl⟩ := Nat.exists_eq_succ_of_ne_zero (Nat.ne_of_gt (Nat.zero_lt_of_lt hfuel))
      have hne : m (str + n) ≠ 0 := fun h => by
        have := (hzero n (by omega)).mp h
        omega
      rw [Outcome.loop, if_neg hne]
      exact ih (n + 1) fuel (by omega) (by omega)
  exact hrest s.length 0 fuel (Nat.zero_add _) hfuel

/-- A string is copied with its zero byte. -/
theorem PathAt.copy {src dst n : ℕ} (hpath : PathAt m src s) (h : Apart src n dst n)
    (hn : s.length < n) : PathAt (m.copy src dst n) dst s := by
  refine ⟨hpath.ne_zero, fun i hi => ?_⟩
  rw [Bytes.copy_apply h, if_pos (by omega), Nat.add_sub_cancel_left, hpath.bytes i hi]

theorem PathAt.congr {path path' : ℕ} (hpath : PathAt m path s)
    (h : ∀ i ≤ s.length, m' (path' + i) = m (path + i)) : PathAt m' path' s :=
  ⟨hpath.ne_zero, fun i hi => (h i hi).trans (hpath.bytes i hi)⟩

/-- A request as `Create` makes it: its type, its parameters, and nothing else is changed. -/
theorem createRequest_eq {type : U32} {parameters size heapAlloc : ℕ}
    (htype : type < ltfsRequestMax) (hparameters : parameters ≠ 0) (hsize : size ≠ 0) (hblock : heapAlloc ≠ 0)
    (hapart : Apart parameters size heapAlloc (parametersOffset + size)) :
    ∃ m', createRequest m type parameters size heapAlloc = (.statusSuccess, some heapAlloc, m') ∧
      m'.load32 heapAlloc = type.toNat ∧
      (∀ i < size, m' (heapAlloc + parametersOffset + i) = m (parameters + i)) ∧
      ∀ x, x < heapAlloc ∨ heapAlloc + parametersOffset + size ≤ x → m' x = m x := by
  unfold Apart parametersOffset at hapart
  refine ⟨(m.store32 heapAlloc type.toNat).copy parameters (heapAlloc + parametersOffset) size,
    ?_, ?_, fun i hi => ?_, fun x hx => ?_⟩
  · rw [createRequest, if_neg (BitVec.not_le.mpr htype), if_neg hparameters, if_neg hsize,
      if_neg hblock]
  · have houtside : ∀ x, heapAlloc ≤ x → x < heapAlloc + 4 →
        (m.store32 heapAlloc type.toNat).copy parameters (heapAlloc + parametersOffset) size x =
          m.store32 heapAlloc type.toNat x := by
      intro x _ hx
      rw [Bytes.copy_apply (by unfold parametersOffset; omega),
        if_neg (by unfold parametersOffset; omega)]
    rw [Bytes.load32_congr houtside, Bytes.load32_store32]
    exact Nat.mod_eq_of_lt type.isLt
  · rw [Bytes.copy_apply (by unfold parametersOffset; omega), if_pos (by omega),
      Nat.add_sub_cancel_left]
    exact Bytes.store32_of_not_mem (by omega)
  · unfold parametersOffset at hx ⊢
    rw [Bytes.copy_apply (by omega), if_neg (by omega)]
    exact Bytes.store32_of_not_mem (by omega)

/-- What the client asks of the service. -/
inductive ClientRequest where
  | connect (ipcServerId : List U8)
  | openFile (parameters : LtFsOpenFileParameters)

/-- A buffer begins with a message. -/
def Begins (buffer : Bytes) (message : List U8) : Prop :=
  ∀ i, (hi : i < message.length) → buffer i = message[i]

/-- What is in the fields of a message that carries a request. -/
def Carries (message : List U8) (request : ClientRequest) : Prop :=
  message.length = sizeOfRequest + sizeOfOpenFileParameters ∧ ∀ buffer, Begins buffer message →
    match request with
    | .connect ipcServerId => Message.field buffer 0 = ltfsRequestConnect ∧
        PathAt buffer parametersOffset ipcServerId ∧ ipcServerId.length < maxFullPathSize
    | .openFile parameters => Message.field buffer 0 = ltfsRequestOpenFile ∧
        PathAt buffer parametersOffset parameters.filePath ∧
        parameters.filePath.length < maxFullPathSize ∧
        Message.parameters buffer parameters.filePath = parameters

/-- A buffer that begins with the bytes from an address on. -/
theorem Begins.shift {buffer : Bytes} {a n : ℕ}
    (h : Begins buffer ((List.range n).map fun i => m (a + i))) {i : ℕ} (hi : i < n) :
    m (a + i) = buffer i := by
  have := h i (by simpa using hi)
  rw [this]
  simp

namespace FsClient

variable {c : FsClient} {calls : ClientCalls} {filePath : ℕ} {id : List U8}
  {access shareMode : U32}

theorem send_eq {serverHandle : U32} {message size : ℕ} (hhandle : serverHandle ≠ 0)
    (hmessage : message ≠ 0) (hsize : size ≠ 0) : c.send serverHandle message size =
      { c with sent :=
        c.sent ++ [(serverHandle, (List.range size).map fun i => c.mem (message + i))] } := by
  rw [send, if_neg hhandle, if_neg hmessage, if_neg hsize]

/-- A request that is sent and given back. -/
theorem hold_send_heapFree {serverHandle : U32} {request n k : ℕ} (hhandle : serverHandle ≠ 0)
    (hrequest : request ≠ 0) (hk : k ≠ 0) :
    ((c.hold request n).send serverHandle request k).heapFree request =
      { c with mem := c.mem.fill request 0 (sizeOfRequest + n)
               sent := c.sent ++
                 [(serverHandle, (List.range k).map fun i => c.mem (request + i))] } := by
  rw [send_eq hhandle hrequest hk, heapFree, hold, List.find?_cons_of_pos (by simp),
    List.eraseP_cons_of_pos (by simp)]

/-- Where the path, the parameters and the block of an open request lie. -/
structure OpenLayout (filePath : ℕ) (s : List U8) (calls : ClientCalls) : Prop where
  parameters : calls.parameters ≠ 0
  block : calls.openBlock ≠ 0
  pathApart : Apart filePath (s.length + 1) calls.parameters sizeOfOpenFileParameters
  blockApart : Apart calls.parameters sizeOfOpenFileParameters calls.openBlock
    (parametersOffset + sizeOfOpenFileParameters)

variable (access shareMode) in
/-- The parameters as `FsOpenFile` fills them. -/
theorem OpenLayout.filled (h : OpenLayout filePath s calls) (hpath : PathAt m filePath s)
    (hlength : s.length < maxFullPathSize) :
    ∃ m', ((m.store32 (calls.parameters + 260) shareMode.toNat).store32 (calls.parameters + 256)
        access.toNat).copy filePath calls.parameters (s.length + 1) = m' ∧
      PathAt m' calls.parameters s ∧ m'.load32 (calls.parameters + 256) = access.toNat ∧
      m'.load32 (calls.parameters + 260) = shareMode.toNat := by
  have hapart := h.pathApart
  unfold Apart sizeOfOpenFileParameters at hapart
  unfold maxFullPathSize at hlength
  have hcopy : Apart filePath (s.length + 1) calls.parameters (s.length + 1) := by
    unfold Apart
    omega
  obtain ⟨m₂, hm₂⟩ : ∃ m₂, m₂ = (m.store32 (calls.parameters + 260) shareMode.toNat).store32
      (calls.parameters + 256) access.toNat := ⟨_, rfl⟩
  have hbehind {k : ℕ} (hk : 256 ≤ k) :
      (m₂.copy filePath calls.parameters (s.length + 1)).load32 (calls.parameters + k) =
        m₂.load32 (calls.parameters + k) := by
    refine Bytes.load32_congr fun x hx _ => ?_
    rw [Bytes.copy_apply hcopy, if_neg (by omega)]
  rw [← hm₂]
  refine ⟨_, rfl, ?_, ?_, ?_⟩
  · refine PathAt.copy (hpath.congr fun i hi => ?_) hcopy (Nat.lt_succ_self _)
    rw [hm₂, Bytes.store32_of_not_mem (by omega), Bytes.store32_of_not_mem (by omega)]
  · rw [hbehind (by decide), hm₂, Bytes.load32_store32]
    exact Nat.mod_eq_of_lt access.isLt
  · rw [hbehind (by decide), hm₂, Bytes.load32_store32_of_disjoint (by omega),
      Bytes.load32_store32]
    exact Nat.mod_eq_of_lt shareMode.isLt

variable (access shareMode) in
theorem OpenLayout.sends (h : OpenLayout filePath s calls) (hat : PathAt c.mem filePath s)
    (hlength : s.length < maxFullPathSize) (hfuel : s.length < fuel)
    (hhandle : c.context.ltFsServiceHandle ≠ 0) :
    ∃ mem message, c.fsSendOpen fuel filePath access shareMode calls = .ret (.statusSuccess,
        { c with mem, sent := c.sent ++ [(c.context.ltFsServiceHandle, message)] }) ∧
      Carries message (.openFile ⟨s, access, shareMode⟩) := by
  obtain ⟨m', hm', hpath, haccess, hshare⟩ :=
    h.filled access shareMode hat hlength
  obtain ⟨mem, hcreate, htype, hparameters, -⟩ := createRequest_eq (m := m')
    (show ltfsRequestOpenFile < ltfsRequestMax by decide) h.parameters (by decide) h.block
    h.blockApart
  refine ⟨mem.fill calls.openBlock 0 (sizeOfRequest + sizeOfOpenFileParameters), (List.range (sizeOfRequest + sizeOfOpenFileParameters)).map fun i =>
    mem (calls.openBlock + i), ?_, ?_, fun buffer hbuffer => ?_⟩
  · rw [fsSendOpen, strLen_eq hat hfuel, Outcome.ret_bind, if_neg (by omega)]
    dsimp only
    rw [hm', hcreate]
    exact congrArg (fun c => Outcome.ret (Status.statusSuccess, c))
      (hold_send_heapFree hhandle h.block (by decide))
  · rw [List.length_map, List.length_range]
  · -- the fields of the buffer are those of the block, and of the parameters
    have hshift {i : ℕ} (hi : i < sizeOfRequest + sizeOfOpenFileParameters) :
        mem (calls.openBlock + i) = buffer i := hbuffer.shift hi
    have hfield {k : ℕ} (hk : k + 4 ≤ sizeOfRequest + sizeOfOpenFileParameters) :
        buffer.load32 k = mem.load32 (calls.openBlock + k) :=
      (Bytes.load32_shift (fun i hi => hshift hi) hk).symm
    have hparam {k : ℕ} (hk : k + 4 ≤ sizeOfOpenFileParameters) :
        mem.load32 (calls.openBlock + parametersOffset + k) = m'.load32 (calls.parameters + k) := by
      rw [Bytes.load32_shift (f := fun i => m' (calls.parameters + i)) hparameters hk]
      exact (Bytes.load32_shift (f := fun i => m' (calls.parameters + i)) (fun _ _ => rfl) hk).symm
    refine ⟨?_, ?_, hlength, ?_⟩
    · rw [Message.field, hfield (by decide), Nat.add_zero, htype]
      exact BitVec.ofNat_toNat _ _
    · refine hpath.congr fun i hi => ?_
      unfold maxFullPathSize at hlength
      have hi' : i < sizeOfOpenFileParameters ∧
          parametersOffset + i < sizeOfRequest + sizeOfOpenFileParameters := by
        unfold sizeOfOpenFileParameters sizeOfRequest parametersOffset
        omega
      rw [← hparameters i hi'.1, ← hshift hi'.2, Nat.add_assoc]
    · have h₁ : buffer.load32 accessOffset = access.toNat := by
        rw [hfield (by decide), ← haccess]
        exact hparam (k := 256) (by decide)
      have h₂ : buffer.load32 shareModeOffset = shareMode.toNat := by
        rw [hfield (by decide), ← hshare]
        exact hparam (k := 260) (by decide)
      rw [Message.parameters, Message.field, Message.field, h₁, h₂, BitVec.ofNat_toNat,
        BitVec.ofNat_toNat, BitVec.setWidth_eq, BitVec.setWidth_eq]

/-- Where the name, the parameters and the block of the connect request lie, away from the path. -/
structure ConnectLayout (m : Bytes) (filePath : ℕ) (s id : List U8) (calls : ClientCalls) :
    Prop where
  name : PathAt m calls.uniqueIpcServerId id
  length : id.length < maxFullPathSize
  parameter : calls.parameter ≠ 0
  block : calls.connectBlock ≠ 0
  nameApart : Apart calls.uniqueIpcServerId (id.length + 1) calls.parameter (id.length + 1)
  blockApart : Apart calls.parameter maxFullPathSize calls.connectBlock
    (parametersOffset + maxFullPathSize)
  path : PathAt m filePath s
  pathApart : Apart filePath (s.length + 1) calls.parameter (id.length + 1) ∧
    Apart filePath (s.length + 1) calls.connectBlock (parametersOffset + maxFullPathSize)

/-- The service and the kernel answer to `FsInit`. -/
structure Answered (calls : ClientCalls) (serverHandle ipcServer : U32) : Prop where
  connectToServer : calls.connectToServer = (.statusSuccess, serverHandle)
  createServer : calls.createServer = (.statusSuccess, ipcServer)
  serverHandle : serverHandle ≠ 0

theorem ConnectLayout.sends {serverHandle ipcServer : U32}
    (h : ConnectLayout c.mem filePath s id calls) (hcalls : Answered calls serverHandle ipcServer)
    (hfuel : id.length < fuel) :
    ∃ mem message, c.fsInit fuel calls = .ret (.statusSuccess,
        { mem, context := ⟨serverHandle, ipcServer, true⟩
          sent := c.sent ++ [(serverHandle, message)]
          live := (calls.connectBlock, sizeOfRequest + maxFullPathSize) :: c.live }) ∧
      Carries message (.connect id) ∧ PathAt mem filePath s := by
  obtain ⟨m', hm'⟩ : ∃ m', m' = c.mem.copy calls.uniqueIpcServerId calls.parameter
      (id.length + 1) := ⟨_, rfl⟩
  have hid : PathAt m' calls.parameter id := by
    rw [hm']
    exact h.name.copy h.nameApart (Nat.lt_succ_self _)
  have hlength := h.length
  have hpath := h.pathApart
  unfold Apart at hpath
  obtain ⟨mem, hcreate, htype, hparameters, hothers⟩ := createRequest_eq (m := m')
    (show ltfsRequestConnect < ltfsRequestMax by decide) h.parameter (by decide) h.block
    h.blockApart
  refine ⟨mem, (List.range (sizeOfRequest + sizeOfOpenFileParameters)).map fun i =>
    mem (calls.connectBlock + i), ?_, ⟨?_, fun buffer hbuffer => ?_⟩, ?_⟩
  · have hok : Status.statusSuccess.failed = false := rfl
    rw [fsInit, hcalls.connectToServer]
    simp only [hok, Bool.false_eq_true, if_false, hcalls.createServer, strLen_eq h.name hfuel,
      Outcome.ret_bind]
    rw [← hm', hcreate]
    dsimp only
    rw [send_eq hcalls.serverHandle h.block (by decide)]
    rfl
  · rw [List.length_map, List.length_range]
  · have hshift {i : ℕ} (hi : i < sizeOfRequest + sizeOfOpenFileParameters) :
        mem (calls.connectBlock + i) = buffer i := hbuffer.shift hi
    refine ⟨?_, ?_, hlength⟩
    · rw [Message.field, ← Bytes.load32_shift (fun i hi => hshift hi) (by decide), Nat.add_zero,
        htype]
      exact BitVec.ofNat_toNat _ _
    · refine hid.congr fun i hi => ?_
      unfold maxFullPathSize at hlength
      have hi' : i < maxFullPathSize ∧
          parametersOffset + i < sizeOfRequest + sizeOfOpenFileParameters := by
        unfold maxFullPathSize sizeOfOpenFileParameters sizeOfRequest parametersOffset
        omega
      rw [← hparameters i hi'.1, ← hshift hi'.2, Nat.add_assoc]
  · refine h.path.congr fun i hi => ?_
    rw [hothers _ (by omega), hm', Bytes.copy_apply h.nameApart, if_neg (by omega)]

end FsClient

/-! ## What the service does -/

section Service

open Message

variable {message : List U8} {buffer : Bytes} {service : FsService} {fs : FsFiles} {tree : FsTree}
  {processHandle : U32} {calls : CommandCalls} {request : ClientRequest}

/-- A request as the service executes it, with what is answered to the service meanwhile. -/
def ExecutedAs (fuel : ℕ) (tree : FsTree) (fs : FsFiles) (buffer : Bytes) (calls : CommandCalls) :
    ClientRequest → FsRequest → Prop
  | .connect id, executed => executed = .connect id ⟨calls.heapAlloc, calls.ipcServerConnect id⟩
  | .openFile parameters, executed => ∃ status file m' fs',
      (fs.openFileFromName fuel tree.disk buffer (some parametersOffset)).outcome =
        .ret (status, file, m', fs') ∧
      executed = .openFile parameters
        { openFileFromName := fun _ => (status, file), send := calls.ipcSend }

theorem Carries.connect_executed {id : List U8} (h : Carries message (.connect id))
    (hbuffer : Begins buffer message) (hfuel : message.length ≤ fuel) :
    Traced.Yields (Below message.length)
      (serviceExecuteCommand fuel tree.disk service fs processHandle (some buffer) calls) fun r =>
      ∃ executed, ExecutedAs fuel tree fs buffer calls (.connect id) executed ∧
        (r.1, r.2.1, r.2.2.1) = service.execute processHandle executed := by
  obtain ⟨hlength, hcarries⟩ := h
  obtain ⟨htype, hid, hshort⟩ := hcarries buffer hbuffer
  have hlt : parametersOffset + id.length < message.length := by
    rw [hlength]
    unfold maxFullPathSize at hshort
    unfold sizeOfRequest sizeOfOpenFileParameters parametersOffset
    omega
  rw [serviceExecuteCommand, Traced.yields_bind, readField_yields, htype, if_neg (by decide),
    if_pos rfl, Traced.yields_bind, requestConnect_yields hfuel]
  have htypeRead : 0 + 4 ≤ message.length := by
    rw [hlength]
    decide
  exact ⟨htypeRead, id, hid, hlt, Traced.yields_pure.mpr ⟨_, rfl, rfl⟩⟩

theorem Carries.openFile_executed {p : LtFsOpenFileParameters} (h : Carries message (.openFile p))
    (hbuffer : Begins buffer message) (hready : fs.Ready tree)
    (hfuel : 2 ^ 32 + message.length ≤ fuel) :
    Traced.Yields (Below message.length)
      (serviceExecuteCommand fuel tree.disk service fs processHandle (some buffer) calls) fun r =>
      ∃ executed, ExecutedAs fuel tree fs buffer calls (.openFile p) executed ∧
        (r.1, r.2.1, r.2.2.1) = service.execute processHandle executed := by
  obtain ⟨hlength, hcarries⟩ := h
  obtain ⟨htype, hpath, hshort, hparameters⟩ := hcarries buffer hbuffer
  have hlt : parametersOffset + p.filePath.length < message.length := by
    rw [hlength]
    unfold maxFullPathSize at hshort
    unfold sizeOfRequest sizeOfOpenFileParameters parametersOffset
    omega
  have hsize : shareModeOffset + 4 ≤ message.length := by
    rw [hlength]
    decide
  -- the path is looked up, whether the process is registered or not
  have hmeets : Traced.Meets FsFiles.anything
      (fs.openFileFromName fuel tree.disk buffer (some parametersOffset)) _ :=
    hready.openFileFromName hpath (by omega)
  obtain ⟨⟨status, file, m', fs'⟩, hret, hanswers⟩ := hmeets.returns fun _ => id
  rw [serviceExecuteCommand, Traced.yields_bind, readField_yields, htype, if_neg (by decide),
    if_neg (by decide), if_pos rfl, Traced.yields_bind]
  refine ⟨by omega, ?_⟩
  rcases hlook : service.lookForProcessFromHandle processHandle with ⟨found, _ | process⟩
  · have hnone : (service.lookForProcessFromHandle processHandle).2 = none := by rw [hlook]
    obtain ⟨rejected, -, hexecute, heq⟩ :=
      requestOpenFile_unregistered fuel tree.disk buffer fs calls hnone
    rw [heq, Traced.yields_pure]
    refine Traced.yields_pure.mpr ⟨_, ⟨status, file, m', fs', hret, rfl⟩, ?_⟩
    rw [FsService.execute, hexecute]
  have hprocess := lookForProcessFromHandle_some hlook
  rw [requestOpenFile_yields hready hfuel hprocess]
  refine ⟨p.filePath, hpath, hlt, status, file, m', fs', hret, ?_⟩
  split_ifs with hfailed
  · refine Traced.yields_pure.mpr ⟨_, ⟨status, file, m', fs', hret, rfl⟩, ?_⟩
    rw [FsService.execute, FsService.requestOpenFile, hprocess]
    simp [hfailed, show Status.statusSuccess.failed = false from rfl]
  · obtain rfl : status = .statusSuccess := by simpa [Status.failed] using hfailed
    refine ⟨hanswers.kept fun hnone => hfailed (hanswers.lost hnone).1,
      (answerOpenFile_yields p.filePath hprocess rfl).mpr
        ⟨(answerSize_le buffer service file).trans hsize, Traced.yields_pure.mpr
          ⟨_, ⟨.statusSuccess, file, m', fs', hret, rfl⟩, ?_⟩⟩⟩
    rw [FsService.execute, hparameters]

/-- A message that carries a request is executed as this request, and not read behind its end. -/
theorem Carries.executed (h : Carries message request) (hbuffer : Begins buffer message)
    (hready : fs.Ready tree) (hfuel : 2 ^ 32 + message.length ≤ fuel) :
    Traced.Yields (Below message.length)
      (serviceExecuteCommand fuel tree.disk service fs processHandle (some buffer) calls) fun r =>
      ∃ executed, ExecutedAs fuel tree fs buffer calls request executed ∧
        (r.1, r.2.1, r.2.2.1) = service.execute processHandle executed := by
  cases request with
  | connect id => exact h.connect_executed hbuffer (by omega)
  | openFile p => exact h.openFile_executed hbuffer hready hfuel

end Service

/-! ## Both sides -/

/-- A message that is sent is executed as a request by every service that gets it, and not read
behind its end. -/
def Served (tree : FsTree) (message : List U8) (request : ClientRequest) : Prop :=
  ∀ (buffer : Bytes) (service : FsService) (fs : FsFiles) (processHandle : U32)
    (calls : CommandCalls) (fuel : ℕ), Begins buffer message → fs.Ready tree →
    2 ^ 32 + message.length ≤ fuel →
    Traced.Yields (Message.Below message.length)
      (Message.serviceExecuteCommand fuel tree.disk service fs processHandle (some buffer) calls)
      fun r => ∃ executed, ExecutedAs fuel tree fs buffer calls request executed ∧
        (r.1, r.2.1, r.2.2.1) = service.execute processHandle executed

/-- The requests of a call of `FsOpenFile`: the first one connects. -/
def FsClient.requests (c : FsClient) (id s : List U8) (access shareMode : U32) :
    List ClientRequest :=
  (if c.context.isInitilaized then [] else [.connect id]) ++
    if s.length < maxFullPathSize then [.openFile ⟨s, access, shareMode⟩] else []

/-- `FsOpenFile` from the test of the length on, for a client that has connected. -/
theorem FsClient.OpenLayout.served (tree : FsTree) {c : FsClient} {calls : ClientCalls}
    {filePath : ℕ} {s : List U8} (access shareMode : U32) {fuel : ℕ}
    (h : OpenLayout filePath s calls) (hat : PathAt c.mem filePath s) (hfuel : s.length < fuel)
    (hhandle : c.context.ltFsServiceHandle ≠ 0) :
    ∃ mem messages, c.fsSendOpen fuel filePath access shareMode calls =
        .ret (if s.length < maxFullPathSize then .statusSuccess else .statusPathTooLong,
          { c with mem, sent := c.sent ++ messages.map (c.context.ltFsServiceHandle, ·) }) ∧
      List.Forall₂ (Served tree) messages
        (if s.length < maxFullPathSize then [.openFile ⟨s, access, shareMode⟩] else []) := by
  by_cases hlength : s.length < maxFullPathSize
  · obtain ⟨mem, message, hsend, hcarries⟩ := h.sends access shareMode
      hat hlength hfuel hhandle
    rw [if_pos hlength, if_pos hlength]
    exact ⟨mem, [message], hsend,
      .cons (fun _ _ _ _ _ _ hbuffer hready hfuel => hcarries.executed hbuffer hready hfuel) .nil⟩
  · rw [if_neg hlength, if_neg hlength]
    refine ⟨c.mem, [], ?_, .nil⟩
    rw [fsSendOpen, strLen_eq hat hfuel, Outcome.ret_bind, if_pos (by omega), List.map_nil,
      List.append_nil]
    rfl

/-- The blocks that a call of `FsOpenFile` keeps: that of the request to connect. -/
def FsClient.kept (c : FsClient) (calls : ClientCalls) : List (ℕ × ℕ) :=
  if c.context.isInitilaized then []
  else [(calls.connectBlock, sizeOfRequest + maxFullPathSize)]

/-- A call of `FsOpenFile` with arguments that it accepts sends the messages that are needed, in
this order and to the service; each is executed by the service as the request that was asked for,
with the same path, access and share mode. A path that is too long is rejected, but only after the
client has connected. The block of the request to open is given back, the one of the request to
connect is not. -/
theorem fsOpenFile_served (tree : FsTree) {c : FsClient} {calls : ClientCalls}
    {filePath fileHandle : ℕ} {id s : List U8} {access shareMode serverHandle ipcServer : U32}
    {fuel : ℕ} (haccess : access < fileAccessMax) (hshare : shareMode < fileShareMax)
    (hpath : filePath ≠ 0) (hfile : fileHandle ≠ 0)
    (hconnect : FsClient.ConnectLayout c.mem filePath s id calls)
    (hopen : FsClient.OpenLayout filePath s calls)
    (hcalls : FsClient.Answered calls serverHandle ipcServer)
    (hcontext : c.context.isInitilaized → c.context.ltFsServiceHandle = serverHandle)
    (hfuel : s.length < fuel ∧ id.length < fuel) :
    ∃ c' messages, c.fsOpenFile fuel filePath access shareMode fileHandle calls =
        .ret (if s.length < maxFullPathSize then .statusSuccess else .statusPathTooLong, c') ∧
      c'.context.isInitilaized ∧ c'.context.ltFsServiceHandle = serverHandle ∧
      c'.sent = c.sent ++ messages.map (serverHandle, ·) ∧ c'.live = c.kept calls ++ c.live ∧
      List.Forall₂ (Served tree) messages (c.requests id s access shareMode) := by
  rw [FsClient.fsOpenFile, if_neg hpath, if_neg (BitVec.not_le.mpr haccess),
    if_neg (BitVec.not_le.mpr hshare), if_neg hfile, FsClient.requests, FsClient.kept]
  by_cases hinit : c.context.isInitilaized
  · have hhandle := hcontext hinit
    obtain ⟨mem, messages, hsend, hserved⟩ := hopen.served tree access
      shareMode hconnect.path hfuel.1 (by rw [hhandle]; exact hcalls.serverHandle)
    rw [if_pos hinit, if_pos hinit, if_pos hinit, List.nil_append, List.nil_append]
    rw [hhandle] at hsend
    exact ⟨_, messages, hsend, hinit, hhandle, rfl, rfl, hserved⟩
  · obtain ⟨mem, message, hinitialised, hcarries, hat⟩ := hconnect.sends hcalls hfuel.2
    obtain ⟨mem', messages, hsend, hserved⟩ := hopen.served tree access
      shareMode
      (c := ⟨mem, ⟨serverHandle, ipcServer, true⟩, c.sent ++ [(serverHandle, message)],
        (calls.connectBlock, sizeOfRequest + maxFullPathSize) :: c.live⟩) hat
      hfuel.1 hcalls.serverHandle
    have hok : Status.statusSuccess.failed = false := rfl
    rw [if_neg hinit, if_neg hinit, if_neg hinit, hinitialised, Outcome.ret_bind]
    dsimp only
    rw [hok, if_neg Bool.false_ne_true, hsend]
    refine ⟨_, message :: messages, rfl, rfl, rfl, ?_, rfl, ?_⟩
    · rw [List.map_cons, List.append_assoc]
      rfl
    · exact .cons (fun _ _ _ _ _ _ hbuffer hready hfuel => hcarries.executed hbuffer hready hfuel)
        hserved

/-- A program with the path `/` and the name `1` of its own server, that has not connected. -/
def slashClient : FsClient :=
  ⟨fun x => if x = 100 then 47 else if x = 200 then 49 else 0, ⟨0, 0, false⟩, [], []⟩

def slashCalls : ClientCalls :=
  ⟨200, 300, 1000, (.statusSuccess, 5), (.statusSuccess, 6), 600, 1300⟩

theorem fsOpenFile_served_slash : ∃ c' messages,
    slashClient.fsOpenFile 2 100 0 1 8 slashCalls = .ret (.statusSuccess, c') ∧
      c'.context.isInitilaized ∧ c'.context.ltFsServiceHandle = 5 ∧
      c'.sent = messages.map (5, ·) ∧ c'.live = [(600, 263)] ∧
      List.Forall₂ (Served FsFiles.singleFile) messages
        [.connect [49], .openFile ⟨[47], 0, 1⟩] := by
  have hpath : PathAt slashClient.mem 100 [47] := ⟨by decide, by decide⟩
  have hname : PathAt slashClient.mem 200 [49] := ⟨by decide, by decide⟩
  have hconnect : FsClient.ConnectLayout slashClient.mem 100 [47] [49] slashCalls :=
    { name := hname, length := by decide, parameter := by decide, block := by decide
      nameApart := .inl (by decide), blockApart := .inl (by decide), path := hpath
      pathApart := ⟨.inl (by decide), .inl (by decide)⟩ }
  have hopen : FsClient.OpenLayout 100 [47] slashCalls :=
    ⟨by decide, by decide, .inl (by decide), .inl (by decide)⟩
  exact fsOpenFile_served FsFiles.singleFile (by decide) (by decide) (by decide) (by decide)
    hconnect hopen ⟨rfl, rfl, by decide⟩ (fun h => absurd h (by decide)) ⟨by decide, by decide⟩

end LtMicros
