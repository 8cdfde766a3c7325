import LtMicros.IpcLocks

/-!
# The addresses of system calls

The system calls of the IPC, with the ranges of memory that the kernel reads or writes
because the caller named them. A name is read up to its terminator by `StrLen`, `StrCpy`
or the message of the log, and by `StrCmp` up to where it decides. No call asks
`CheckUserVirtualAddressValidity`. The bytes that a call reads, `m`, are those at the
virtual addresses of its caller; a page that is missing is brought in.
-/

namespace LtMicros

open Lib

/-- `Vmm::CheckUserVirtualAddressValidity`. -/
def checkUserVirtualAddressValidity (vAddr : U32) : Bool := vAddr ≠ 0 ∧ vUserBaseAddr ≤ vAddr

/-- The registers of `InterruptFromUserlandContext` that the system calls read. -/
structure InterruptFromUserlandContext where
  ebx : U32
  ecx : U32
  edx : U32

/-- `n` bytes from an address on; behind the last address comes the first one. -/
structure AddressRange where
  start : U32
  length : ℕ
deriving DecidableEq

/-- An address of a range. -/
def AddressRange.Has (r : AddressRange) (a : U32) : Prop :=
  ∃ i < r.length, a = r.start + BitVec.ofNat 32 i

/-- The string at an address, looked for in a number of bytes. -/
def readString : ℕ → Bytes → U32 → Option (List U8)
  | 0, _, _ => none
  | fuel + 1, m, str =>
    if m str.toNat = 0 then some []
    else (readString fuel m (str + 1)).map (m str.toNat :: ·)

/-- A string of the caller, `none` for the null pointer. One without an end is read for
ever. -/
def callerString (fuel : ℕ) (m : Bytes) (str : U32) : Outcome (Option (List U8)) :=
  if str = 0 then .ret none
  else
    match readString fuel m str with
    | none => .hang
    | some s => .ret (some s)

/-- The bytes of a range. -/
def readBytesAt (m : Bytes) (r : AddressRange) : List U8 :=
  (List.range r.length).map fun i => m (r.start + BitVec.ofNat 32 i).toNat

/-- The word at an address. -/
def readWord (m : Bytes) (a : U32) : U32 :=
  BitVec.ofNat 32 (Bytes.load32 (fun x => m (x % 2 ^ 32)) a.toNat)

/-- The number of bytes that `StrCmp` reads of its second string. -/
def strCmpReads : List U8 → List U8 → ℕ
  | [], _ => 0
  | _ :: _, [] => 1
  | c₁ :: str₁, c₂ :: str₂ =>
    if c₁ ≠ c₂ then 1 else max 2 (1 + strCmpReads str₁ str₂)

namespace IpcHandler

/-- The number of bytes that `ConnectToServer` reads of a name: `StrCmp` goes through the
objects up to the one that is found, and a name that is not found is put in the log. -/
def connectReads (h : IpcHandler) (serverIdStr : List U8) : ℕ :=
  match h.findIpcObjectByServerId serverIdStr with
  | none => serverIdStr.length + 1
  | some ipcObject =>
    ((h.ipcObjects.take (ipcObject + 1)).map (strCmpReads ·.id serverIdStr)).foldr max 0

/-- `SysIpcServerCreate` for a process: the status, the handle, the ranges, and the
handler. -/
def sysIpcServerCreate (fuel : ℕ) (h : IpcHandler) (m : Bytes) (process : ℕ)
    (criticalSection : U32) (context : InterruptFromUserlandContext) :
    Outcome (KeStatus × U32 × List AddressRange × IpcHandler) :=
  if process = 0 then .ret (.statusFailure, 0, [], h)
  else do
    let serverIdStr ← callerString fuel m context.ebx
    let (status, handle, h) := h.addNewServer serverIdStr process criticalSection
    let touched := serverIdStr.map fun s => AddressRange.mk context.ebx (s.length + 1)
    return (status, handle.getD 0, touched.toList, h)

/-- `SysIpcServerConnect`. -/
def sysIpcServerConnect (fuel : ℕ) (h : IpcHandler) (m : Bytes) (process : ℕ)
    (context : InterruptFromUserlandContext) : Outcome (KeStatus × U32 × List AddressRange) :=
  if process = 0 then .ret (.statusFailure, 0, [])
  else do
    let serverIdStr ← callerString fuel m context.ebx
    let (status, handle) := h.connectToServer serverIdStr process
    let touched := serverIdStr.map fun s => AddressRange.mk context.ebx (h.connectReads s)
    return (status, handle.getD 0, touched.toList)

end IpcHandler

namespace IpcState

/-- A turn of the loop of `AddBytes`, with what it leaves of the message. -/
def addTurnLeft : List U8 × IpcState → Outcome (List U8 × IpcState ⊕ ℕ)
  | (message, s) => do
    match ← addTurn (message, s) with
    | .inl next => return .inl next
    | .inr _ => do
      let (rest, _) ← s.writeBytes message
      return .inr rest.length

/-- The number of bytes that `AddBytes` takes from a message. -/
def addBytesTakes (fuel : ℕ) (s : IpcState) (message : List U8) : Outcome ℕ := do
  let (status, s) ← if s.buf.currentPageWritePtr = 0 then s.allocateWritePage
    else .ret (.statusSuccess, s)
  if failed status then return 0
  else
    let left ← Outcome.loop addTurnLeft fuel (message, s)
    return message.length - left

end IpcState

namespace IpcHandler

/-- The number of bytes that `Send` takes from a message: none unless it comes as far as
`AddBytes`. -/
def sendTakes (fuel : ℕ) (h : IpcHandler) (handle : U32) (clientProcess : ℕ)
    (message : List U8) : Outcome ℕ :=
  match h.findIpcObjectByHandle handle with
  | none => .ret 0
  | some ipcObject => do
    let o ← .ofOption h.ipcObjects[ipcObject]?
    if clientProcess = o.serverProcess then return 0
    else (IpcState.mk o.buffer h.mem).addBytesTakes fuel message

/-- `SysIpcSend`. -/
def sysIpcSend (fuel : ℕ) (h : IpcHandler) (m : Bytes) (process : ℕ)
    (context : InterruptFromUserlandContext) :
    Outcome (KeStatus × List AddressRange × IpcHandler) :=
  if process = 0 then .ret (.statusFailure, [], h)
  else if context.ecx = 0 then do
    let (status, h) ← h.send fuel context.ebx process none
    return (status, [], h)
  else do
    let message := readBytesAt m ⟨context.ecx, context.edx.toNat⟩
    let taken ← h.sendTakes fuel context.ebx process message
    let (status, h) ← h.send fuel context.ebx process (some message)
    return (status, [⟨context.ecx, taken⟩], h)

/-- The arguments that `SysIpcReceive` takes from the `SysIpcReceiveParameter` at an
address. -/
def receiveParameter (m : Bytes) (parameters : U32) (process : ℕ) : ReceiveArgs where
  handle := readWord m parameters
  serverProcess := process
  buffer := (readWord m (parameters + 4)).toNat
  size := (readWord m (parameters + 8)).toNat
  bytesRead := (readWord m (parameters + 12)).toNat

end IpcHandler

/-- The system calls of the IPC. -/
inductive IpcSyscall where
  | sysIpcServerCreate
  | sysIpcServerConnect
  | sysIpcSend
  | sysIpcRecv
deriving DecidableEq

/-- The ranges that the caller names: a string with its terminator, a message with its
size, or the parameters, the receive buffer with its size and the place of the length. -/
def IpcSyscall.Names (m : Bytes) (process : ℕ) (context : InterruptFromUserlandContext)
    (r : AddressRange) : IpcSyscall → Prop
  | sysIpcServerCreate | sysIpcServerConnect =>
    ∃ fuel s, readString fuel m context.ebx = some s ∧ r = ⟨context.ebx, s.length + 1⟩
  | sysIpcSend => r = ⟨context.ecx, context.edx.toNat⟩
  | sysIpcRecv =>
    let a := IpcHandler.receiveParameter m context.ebx process
    r = ⟨context.ebx, 16⟩ ∨ r = ⟨BitVec.ofNat 32 a.buffer, a.size⟩ ∨
      r = ⟨BitVec.ofNat 32 a.bytesRead, 4⟩

/-- A system call of a process that comes to its end, with its status and the ranges that
it has touched. The `SysIpcReceiveParameter` is read first; the receive buffer is written
when the wait is over, in whatever state the handler is then. -/
inductive SyscallTouches (h : IpcHandler) (m : Bytes) (process : ℕ)
    (context : InterruptFromUserlandContext) : IpcSyscall → KeStatus → List AddressRange → Prop
  | serverCreate {fuel : ℕ} {criticalSection handle : U32} {status : KeStatus}
      {touched : List AddressRange} {h' : IpcHandler} :
      h.sysIpcServerCreate fuel m process criticalSection context =
        .ret (status, handle, touched, h') →
      SyscallTouches h m process context .sysIpcServerCreate status touched
  | serverConnect {fuel : ℕ} {handle : U32} {status : KeStatus} {touched : List AddressRange} :
      h.sysIpcServerConnect fuel m process context = .ret (status, handle, touched) →
      SyscallTouches h m process context .sysIpcServerConnect status touched
  | send {fuel : ℕ} {status : KeStatus} {touched : List AddressRange} {h' : IpcHandler} :
      h.sysIpcSend fuel m process context = .ret (status, touched, h') →
      SyscallTouches h m process context .sysIpcSend status touched
  | recvNoProcess : process = 0 → SyscallTouches h m process context .sysIpcRecv .statusFailure []
  | recvRefused {status : KeStatus} : process ≠ 0 →
      h.receiveBegin (IpcHandler.receiveParameter m context.ebx process) =
        .ret (.inl status) →
      SyscallTouches h m process context .sysIpcRecv status [⟨context.ebx, 16⟩]
  | recv {fuel ipcObject : ℕ} {status status' : KeStatus} {h₂ h' : IpcHandler} {bytes : List U8}
      {bytesRead : Option ℕ} {a : ReceiveArgs} : process ≠ 0 →
      a = IpcHandler.receiveParameter m context.ebx process →
      h.receiveBegin a = .ret (.inr (status, ipcObject)) →
      h₂.receiveEnd fuel status ipcObject a = .ret (status', bytes, bytesRead, h') →
      SyscallTouches h m process context .sysIpcRecv status' ([⟨context.ebx, 16⟩,
        ⟨BitVec.ofNat 32 a.buffer, bytes.length⟩] ++
          (bytesRead.map fun _ => AddressRange.mk (BitVec.ofNat 32 a.bytesRead) 4).toList)

/-! ## What a range holds -/

/-- All of a range is user space when it is empty, or begins there and does not go
around. -/
theorem AddressRange.valid_iff (r : AddressRange) :
    (∀ a, r.Has a → checkUserVirtualAddressValidity a = true) ↔
      r.length = 0 ∨ vUserBaseAddr ≤ r.start ∧ r.start.toNat + r.length ≤ 2 ^ 32 := by
  have hbase : vUserBaseAddr.toNat = 2 ^ 30 := rfl
  constructor
  · intro h
    by_cases hlength : r.length = 0
    · exact .inl hlength
    have hpos : 0 < r.length := Nat.pos_of_ne_zero hlength
    have hstart := h r.start ⟨0, hpos, (BitVec.add_zero _).symm⟩
    simp only [checkUserVirtualAddressValidity, decide_eq_true_eq] at hstart
    refine .inr ⟨hstart.2, ?_⟩
    by_contra hwrap
    -- the range comes to the null address
    have hzero := h 0 ⟨2 ^ 32 - r.start.toNat, by omega, by
      apply BitVec.eq_of_toNat_eq
      have := r.start.isLt
      rw [BitVec.toNat_add, BitVec.toNat_ofNat]
      simp only [BitVec.ofNat_eq_ofNat, BitVec.toNat_ofNat]
      omega⟩
    simp [checkUserVirtualAddressValidity] at hzero
  · rintro (hlength | ⟨hstart, hend⟩) a ⟨i, hi, ha⟩
    · omega
    rw [BitVec.le_def] at hstart
    have hnat : a.toNat = r.start.toNat + i := by
      rw [ha, BitVec.toNat_add, BitVec.toNat_ofNat]
      omega
    simp only [checkUserVirtualAddressValidity, decide_eq_true_eq]
    constructor
    · intro hzero
      rw [hzero] at hnat
      simp only [BitVec.ofNat_eq_ofNat, BitVec.toNat_ofNat] at hnat
      omega
    · rw [BitVec.le_def]
      omega

theorem strCmpReads_le (str₁ str₂ : List U8) : strCmpReads str₁ str₂ ≤ str₂.length + 1 := by
  induction str₁ generalizing str₂ with
  | nil => exact Nat.zero_le _
  | cons c₁ str₁ ih =>
    cases str₂ with
    | nil => exact Nat.le_refl _
    | cons c₂ str₂ =>
      have hrest := ih str₂
      unfold strCmpReads
      rw [List.length_cons]
      split <;> omega

theorem IpcHandler.connectReads_le (h : IpcHandler) (s : List U8) :
    h.connectReads s ≤ s.length + 1 := by
  unfold connectReads
  split
  · exact Nat.le_refl _
  · generalize List.take _ h.ipcObjects = objects
    induction objects with
    | nil => exact Nat.zero_le _
    | cons o objects ih =>
      simp only [List.map_cons, List.foldr_cons]
      exact max_le (strCmpReads_le o.id s) ih

theorem IpcState.addBytesTakes_le {s : IpcState} {fuel taken : ℕ} {message : List U8}
    (hr : s.addBytesTakes fuel message = .ret taken) : taken ≤ message.length := by
  have hrest : ∀ x : Outcome (KeStatus × IpcState),
      (x >>= fun r => if failed r.1 then .ret 0 else do
        let left ← Outcome.loop addTurnLeft fuel (message, r.2)
        .ret (message.length - left)) = .ret taken → taken ≤ message.length := by
    intro x hx
    obtain ⟨r, -, hx⟩ := Outcome.bind_eq_ret.mp hx
    split at hx
    · cases hx
      exact Nat.zero_le _
    obtain ⟨left, -, hx⟩ := Outcome.bind_eq_ret.mp hx
    cases hx
    exact Nat.sub_le _ _
  unfold addBytesTakes at hr
  split at hr
  · exact hrest _ hr
  · exact hrest (.ret _) hr

theorem IpcHandler.sendTakes_le {h : IpcHandler} {fuel process taken : ℕ} {handle : U32}
    {message : List U8} (hr : h.sendTakes fuel handle process message = .ret taken) :
    taken ≤ message.length := by
  unfold sendTakes at hr
  split at hr
  · cases hr
    exact Nat.zero_le _
  obtain ⟨o, -, hr⟩ := Outcome.bind_eq_ret.mp hr
  split at hr
  · cases hr
    exact Nat.zero_le _
  exact IpcState.addBytesTakes_le hr

namespace IpcState

theorem readWhile_length {s s' : IpcState} {n left : ℕ} {bytes : List U8}
    (h : s.readWhile n = .ret (bytes, left, s')) : bytes.length + left = n := by
  induction n generalizing s bytes with
  | zero =>
    cases h
    rfl
  | succ n ih =>
    rw [readWhile] at h
    split at h
    · obtain ⟨byte, -, h⟩ := Outcome.bind_eq_ret.mp h
      obtain ⟨⟨bytes', left', t⟩, hrest, h⟩ := Outcome.bind_eq_ret.mp h
      cases h
      have hlength : bytes'.length + left = n := ih hrest
      rw [List.length_cons]
      omega
    · cases h
      exact Nat.zero_add _

/-- A turn of `ReadBytes` moves bytes from what is still to be read to what is in the
buffer. -/
theorem readTurn_length {s : IpcState} {out : List U8} {fuel n : ℕ}
    {r : List U8 × ℕ × IpcState ⊕ List U8 × ℕ × IpcState}
    (hr : readTurn fuel (out, n, s) = .ret r) :
    (r.elim id id).1.length + (r.elim id id).2.1 = out.length + n := by
  obtain ⟨⟨bytes, left, t⟩, hrun, hr⟩ := Outcome.bind_eq_ret.mp hr
  have hw := readWhile_length hrun
  dsimp only at hr
  have hlength : (out ++ bytes).length + left = out.length + n := by
    rw [List.length_append, Nat.add_assoc, hw]
  split_ifs at hr
  · obtain ⟨t', -, hr⟩ := Outcome.bind_eq_ret.mp hr
    cases hr
    exact hlength
  · cases hr
    exact hlength
  · cases hr
    exact hlength

/-- The loop of `ReadBytes` puts no more bytes into the buffer than there is room for. -/
theorem readRest_length {s s' : IpcState} {fuel size n : ℕ} {status : KeStatus} {bytes : List U8}
    (hr : s.readRest fuel size = .ret (status, bytes, n, s')) : bytes.length ≤ size := by
  unfold readRest at hr
  obtain ⟨⟨out, left, t⟩, hloop, hr⟩ := Outcome.bind_eq_ret.mp hr
  cases hr
  have hlength : bytes.length + left = size := by
    refine Outcome.loop_invariant (I := fun x => x.1.length + x.2.1 = size)
      (Q := fun x => x.1.length + x.2.1 = size) ?_ ?_ (Nat.zero_add _) hloop
    · intro x x' hi hturn
      exact (readTurn_length hturn).trans hi
    · intro x x' hi hturn
      exact (readTurn_length hturn).trans hi
  omega

theorem readBytes_length {s s' : IpcState} {fuel size n : ℕ} {status : KeStatus}
    {bytes : List U8} (hr : s.readBytes fuel size = .ret (status, bytes, n, s')) :
    bytes.length ≤ size := by
  unfold readBytes at hr
  split_ifs at hr
  · cases hr
    exact Nat.zero_le _
  · obtain ⟨t, -, hr⟩ := Outcome.bind_eq_ret.mp hr
    exact readRest_length hr
  · exact readRest_length hr

end IpcState

theorem IpcHandler.receiveEnd_length {h h' : IpcHandler} {fuel i : ℕ} {status status' : KeStatus}
    {a : ReceiveArgs} {bytes : List U8} {bytesRead : Option ℕ}
    (hr : h.receiveEnd fuel status i a = .ret (status', bytes, bytesRead, h')) :
    bytes.length ≤ a.size := by
  obtain ⟨o, -, hr⟩ := Outcome.bind_eq_ret.mp hr
  obtain ⟨criticalSection, -, hr⟩ := Outcome.bind_eq_ret.mp hr
  obtain ⟨⟨st, bs, n, s⟩, hread, hr⟩ := Outcome.bind_eq_ret.mp hr
  have hlength := IpcState.readBytes_length hread
  simp only at hr
  split_ifs at hr <;> (cases hr; exact hlength)

/-! ## What the calls touch -/

variable {h h' : IpcHandler} {m : Bytes} {process fuel : ℕ} {context : InterruptFromUserlandContext}
  {call : IpcSyscall} {status : KeStatus} {touched : List AddressRange}

/-- A range is the front of one that the caller has named, and it does not begin at the
null pointer unless it is the one of the parameters. -/
def IpcSyscall.Asked (m : Bytes) (process : ℕ) (context : InterruptFromUserlandContext)
    (call : IpcSyscall) (r : AddressRange) : Prop :=
  (∃ named, call.Names m process context named ∧ r.start = named.start ∧
    r.length ≤ named.length) ∧
  (r.start = 0 → call = .sysIpcRecv ∧ r = ⟨context.ebx, 16⟩)

theorem callerString_some {str : U32} {s : List U8}
    (hr : callerString fuel m str = .ret (some s)) :
    str ≠ 0 ∧ readString fuel m str = some s := by
  unfold callerString at hr
  split at hr
  · cases hr
  rename_i hstr
  refine ⟨hstr, ?_⟩
  split at hr
  · cases hr
  rename_i s' hs'
  cases hr
  exact hs'

/-- A name is read where the caller says, up to its terminator at most. -/
theorem IpcSyscall.asked_string {s : List U8} {n : ℕ}
    (hcall : call = .sysIpcServerCreate ∨ call = .sysIpcServerConnect)
    (hs : callerString fuel m context.ebx = .ret (some s)) (hn : n ≤ s.length + 1) :
    call.Asked m process context ⟨context.ebx, n⟩ := by
  obtain ⟨hnull, hread⟩ := callerString_some hs
  constructor
  · refine ⟨⟨context.ebx, s.length + 1⟩, ?_, rfl, hn⟩
    rcases hcall with hcall | hcall <;> (subst hcall; exact ⟨fuel, s, hread, rfl⟩)
  · intro hzero
    exact absurd hzero hnull

theorem IpcHandler.sysIpcServerCreate_asked {criticalSection handle : U32}
    (hr : h.sysIpcServerCreate fuel m process criticalSection context =
      .ret (status, handle, touched, h')) :
    ∀ r ∈ touched, IpcSyscall.sysIpcServerCreate.Asked m process context r := by
  intro r hmem
  unfold sysIpcServerCreate at hr
  split at hr
  · cases hr
    cases hmem
  obtain ⟨serverIdStr, hs, hr⟩ := Outcome.bind_eq_ret.mp hr
  cases hr
  cases serverIdStr with
  | none => cases hmem
  | some s =>
    rw [List.mem_singleton.mp hmem]
    exact IpcSyscall.asked_string (.inl rfl) hs (Nat.le_refl _)

theorem IpcHandler.sysIpcServerConnect_asked {handle : U32}
    (hr : h.sysIpcServerConnect fuel m process context = .ret (status, handle, touched)) :
    ∀ r ∈ touched, IpcSyscall.sysIpcServerConnect.Asked m process context r := by
  intro r hmem
  unfold sysIpcServerConnect at hr
  split at hr
  · cases hr
    cases hmem
  obtain ⟨serverIdStr, hs, hr⟩ := Outcome.bind_eq_ret.mp hr
  cases hr
  cases serverIdStr with
  | none => cases hmem
  | some s =>
    rw [List.mem_singleton.mp hmem]
    exact IpcSyscall.asked_string (.inr rfl) hs (h.connectReads_le s)

/-- A message is read from its start, and no further than its size. -/
theorem IpcHandler.sysIpcSend_asked
    (hr : h.sysIpcSend fuel m process context = .ret (status, touched, h')) :
    ∀ r ∈ touched, IpcSyscall.sysIpcSend.Asked m process context r := by
  intro r hmem
  unfold sysIpcSend at hr
  split_ifs at hr with hprocess hnull
  · cases hr
    cases hmem
  · obtain ⟨⟨st, h₁⟩, -, hr⟩ := Outcome.bind_eq_ret.mp hr
    cases hr
    cases hmem
  · obtain ⟨taken, htaken, hr⟩ := Outcome.bind_eq_ret.mp hr
    obtain ⟨⟨st, h₁⟩, -, hr⟩ := Outcome.bind_eq_ret.mp hr
    cases hr
    have hle := sendTakes_le htaken
    rw [readBytesAt, List.length_map, List.length_range] at hle
    rw [List.mem_singleton.mp hmem]
    refine ⟨⟨_, rfl, rfl, hle⟩, ?_⟩
    intro hzero
    exact absurd hzero hnull

/-- The parameters are read wherever they are. -/
theorem IpcSyscall.asked_parameters :
    IpcSyscall.sysIpcRecv.Asked m process context ⟨context.ebx, 16⟩ :=
  ⟨⟨_, .inl rfl, rfl, Nat.le_refl _⟩, fun _ => ⟨rfl, rfl⟩⟩

theorem ReceiveArgs.buffer_ne_zero {a : ReceiveArgs} (ha : a.refusal = none) : a.buffer ≠ 0 := by
  intro hbuffer
  unfold refusal at ha
  split_ifs at ha

theorem ReceiveArgs.bytesRead_ne_zero {a : ReceiveArgs} (ha : a.refusal = none) :
    a.bytesRead ≠ 0 := by
  intro hbytesRead
  unfold refusal at ha
  split_ifs at ha

theorem ofNat_toNat_ne_zero {w : U32} (hw : w.toNat ≠ 0) : BitVec.ofNat 32 w.toNat ≠ 0 := by
  rw [BitVec.ofNat_toNat, BitVec.setWidth_eq]
  intro hzero
  exact hw (by rw [hzero]; rfl)

/-- The buffer and the place of the length are written only when the arguments have been
accepted, and then they are not null. -/
theorem IpcHandler.sysIpcRecv_asked {i : ℕ} {status' : KeStatus} {h₂ : IpcHandler}
    {bytes : List U8} {bytesRead : Option ℕ} {a : ReceiveArgs}
    (ha : a = receiveParameter m context.ebx process)
    (hbegin : h.receiveBegin a = .ret (.inr (status, i)))
    (hend : h₂.receiveEnd fuel status i a = .ret (status', bytes, bytesRead, h')) :
    ∀ r ∈ [AddressRange.mk context.ebx 16, ⟨BitVec.ofNat 32 a.buffer, bytes.length⟩] ++
        (bytesRead.map fun _ => AddressRange.mk (BitVec.ofNat 32 a.bytesRead) 4).toList,
      IpcSyscall.sysIpcRecv.Asked m process context r := by
  have haccepted := (receiveBegin_inr hbegin).1
  have hbuffer : BitVec.ofNat 32 a.buffer ≠ 0 := by
    have hne := ReceiveArgs.buffer_ne_zero haccepted
    rw [ha] at hne ⊢
    exact ofNat_toNat_ne_zero hne
  have hplace : BitVec.ofNat 32 a.bytesRead ≠ 0 := by
    have hne := ReceiveArgs.bytesRead_ne_zero haccepted
    rw [ha] at hne ⊢
    exact ofNat_toNat_ne_zero hne
  have hlength := receiveEnd_length hend
  intro r hmem
  simp only [List.mem_append, List.mem_cons, List.not_mem_nil, or_false] at hmem
  rcases hmem with (hr | hr) | hmem
  · rw [hr]
    exact IpcSyscall.asked_parameters
  · rw [hr]
    refine ⟨⟨⟨BitVec.ofNat 32 a.buffer, a.size⟩, .inr (.inl (by rw [ha])), rfl, hlength⟩, ?_⟩
    intro hzero
    exact absurd hzero hbuffer
  · cases bytesRead with
    | none => cases hmem
    | some n =>
      rw [List.mem_singleton.mp hmem]
      refine ⟨⟨⟨BitVec.ofNat 32 a.bytesRead, 4⟩, .inr (.inr (by rw [ha])), rfl,
        Nat.le_refl _⟩, ?_⟩
      intro hzero
      exact absurd hzero hplace

theorem SyscallTouches.asked (ht : SyscallTouches h m process context call status touched) :
    ∀ r ∈ touched, call.Asked m process context r := by
  cases ht with
  | serverCreate hr => exact IpcHandler.sysIpcServerCreate_asked hr
  | serverConnect hr => exact IpcHandler.sysIpcServerConnect_asked hr
  | send hr => exact IpcHandler.sysIpcSend_asked hr
  | recvNoProcess =>
    intro r hmem
    cases hmem
  | recvRefused _ _ =>
    intro r hmem
    rw [List.mem_singleton.mp hmem]
    exact IpcSyscall.asked_parameters
  | recv _ ha hbegin hend => exact IpcHandler.sysIpcRecv_asked ha hbegin hend

/-- What a system call of the IPC touches is what its caller has asked for, without the
null pointer, and nothing else is looked at: it is user space exactly when the ranges that
are touched are. -/
theorem ipcSyscall_touches (ht : SyscallTouches h m process context call status touched) :
    (∀ r ∈ touched, call.Asked m process context r) ∧
      ((∀ r ∈ touched, ∀ a, r.Has a → checkUserVirtualAddressValidity a = true) ↔
        ∀ r ∈ touched, r.length = 0 ∨
          vUserBaseAddr ≤ r.start ∧ r.start.toNat + r.length ≤ 2 ^ 32) :=
  ⟨ht.asked, forall₂_congr fun r _ => r.valid_iff⟩

/-- A handler without servers. -/
def noServers : IpcHandler := .init (bootIpc .bss).mem 0

/-- A memory with the string `f` at the start of user space. -/
def nameOnly : Bytes := Function.update (fun _ => 0) vUserBaseAddr.toNat 102

/-- A client asks for a server that is not there. -/
theorem noServers_connect : noServers.sysIpcServerConnect 2 nameOnly 1 ⟨vUserBaseAddr, 0, 0⟩ =
    .ret (.ipcStatusServerNotFound, 0, [⟨vUserBaseAddr, 2⟩]) := by
  rfl

/-- It has its name read, at the two addresses where it is. -/
theorem connect_touches_user :
    (∀ r ∈ [AddressRange.mk vUserBaseAddr 2],
      IpcSyscall.sysIpcServerConnect.Asked nameOnly 1 ⟨vUserBaseAddr, 0, 0⟩ r) ∧
    ∀ r ∈ [AddressRange.mk vUserBaseAddr 2], ∀ a, r.Has a →
      checkUserVirtualAddressValidity a = true := by
  obtain ⟨hasked, hvalid⟩ := ipcSyscall_touches (.serverConnect noServers_connect)
  exact ⟨hasked, hvalid.2 (by decide)⟩

/-- A caller of `SYS_IPC_RECV` that names a place in the kernel has 16 bytes read there. -/
theorem receive_touches_kernel :
    SyscallTouches noServers nameOnly 1 ⟨0x100000, 0, 0⟩ .sysIpcRecv .statusInvalidParameter
      [⟨0x100000, 16⟩] ∧
    AddressRange.Has ⟨0x100000, 16⟩ 0x100000 ∧
    checkUserVirtualAddressValidity 0x100000 = false := by
  have hrefused : noServers.receiveBegin (IpcHandler.receiveParameter nameOnly 0x100000 1) =
      .ret (.inl .statusInvalidParameter) := by
    rfl
  exact ⟨.recvRefused (by decide) hrefused, ⟨0, by decide, by decide⟩, by decide⟩

end LtMicros
