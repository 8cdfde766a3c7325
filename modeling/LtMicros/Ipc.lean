import LtMicros.IpcDelivery

/-!
# The IPC handler

`gIpcHandler` keeps the objects in the order of their registration and never
removes one, so a pointer to an object is its place in the list. A `Receive` that
is not refused waits for the event of its object, and reads when the wait is
over; other calls run in between. Processes and threads are pointers, with 0 for
the null pointer. The memory of an object comes from `HeapAlloc`, which gives it
or does not return; only its critical section is not initialised.
-/

namespace LtMicros

open Lib

/-- `StrCmp` of two strings. It answers 0 also when one of them is empty. -/
def strCmp : List U8 → List U8 → ℤ
  | c₁ :: str₁, c₂ :: str₂ =>
    if c₁.slt c₂ then -1
    else if c₂.slt c₁ then 1
    else if str₁ = [] ∧ str₂ ≠ [] then -1
    else if str₂ = [] ∧ str₁ ≠ [] then 1
    else strCmp str₁ str₂
  | _, _ => 0

/-- `CriticalSection::Enter`. A section that is taken keeps the caller in the loop
of `_acquire_lock`; a word that is neither 0 nor 1 is left as it is. -/
def enter (value : U32) : Outcome U32 :=
  if value = 0 then .ret 1 else if value = 1 then .hang else .ret value

/-- `EventWait` up to where it returns or has the thread switched away. The first
is so when the event was signaled. -/
def Event.waitBegin (evt : Event) (currentThread : ℕ) : Outcome (Bool × Event) :=
  if evt.value then .hang
  else if evt.signaled then .ret (true, { evt with signaled := false })
  else .ret (false, { evt with thread := some currentThread })

/-- The end of `EventWait`, when the thread runs again. -/
def Event.waitEnd (evt : Event) : Event := { evt with signaled := false, value := false }

/-- `IpcObject`. -/
structure IpcObject where
  id : List U8
  handle : U32
  serverProcess : ℕ
  buffer : IpcBuffer
  criticalSection : U32

/-- `gIpcHandler`, `s_IpcObjectHandleCount`, the memory of the buffers, and the
word where the critical section of an object at the null pointer would be. -/
structure IpcHandler where
  ipcObjects : List IpcObject
  ipcObjectHandleCount : U32
  mem : IpcMem
  nullSection : U32

/-- The arguments of `Receive`; pointers are addresses. -/
structure ReceiveArgs where
  handle : U32
  serverProcess : ℕ
  buffer : ℕ
  size : ℕ
  bytesRead : ℕ

/-- What `Receive` answers to arguments that it does not accept. -/
def ReceiveArgs.refusal (a : ReceiveArgs) : Option KeStatus :=
  if a.handle = 0 then some .statusInvalidParameter
  else if a.serverProcess = 0 then some .statusNullParameter
  else if a.buffer = 0 then some .statusNullParameter
  else if a.size = 0 then some .statusNullParameter
  else if a.bytesRead = 0 then some .statusNullParameter
  else none

namespace IpcHandler

/-- `IpcHandler::_FindIpcObjectByHandle`. -/
def findIpcObjectByHandle (h : IpcHandler) (handle : U32) : Option ℕ :=
  if handle = 0 then none else h.ipcObjects.findIdx? (·.handle = handle)

/-- `IpcHandler::_FindIpcObjectByServerId`. -/
def findIpcObjectByServerId (h : IpcHandler) (serverId : List U8) : Option ℕ :=
  h.ipcObjects.findIdx? (strCmp ·.id serverId = 0)

/-- `IpcHandler::_IsServerIdStrAlreadyUsed`. -/
def isServerIdStrAlreadyUsed (h : IpcHandler) (serverIdStr : List U8) : Bool :=
  (h.findIpcObjectByServerId serverIdStr).isSome

/-- `IpcObject::Create`. -/
def create (serverIdStr : List U8) (serverProcess : ℕ) (handle criticalSection : U32) :
    IpcObject where
  id := serverIdStr
  handle := handle
  serverProcess := serverProcess
  buffer := .init
  criticalSection := criticalSection

/-- `IpcHandler::AddNewServer` with a place for the handle: the status, the handle
that is stored there, and the handler. -/
def addNewServer (h : IpcHandler) (serverIdStr : Option (List U8)) (serverProcess : ℕ)
    (criticalSection : U32) : KeStatus × Option U32 × IpcHandler :=
  match serverIdStr with
  | none => (.statusNullParameter, none, h)
  | some serverIdStr =>
    if serverProcess = 0 then (.statusNullParameter, none, h)
    else if h.isServerIdStrAlreadyUsed serverIdStr then
      (.ipcStatusIdStringAlreadyUsed, none, h)
    else
      let handle := h.ipcObjectHandleCount + 1
      let ipcObject := create serverIdStr serverProcess handle criticalSection
      (.statusSuccess, some handle, { h with
        ipcObjectHandleCount := handle, ipcObjects := h.ipcObjects ++ [ipcObject] })

/-- `IpcHandler::ConnectToServer` with a place for the handle. -/
def connectToServer (h : IpcHandler) (serverIdStr : Option (List U8)) (clientProcess : ℕ) :
    KeStatus × Option U32 :=
  match serverIdStr with
  | none => (.statusNullParameter, none)
  | some serverIdStr =>
    if clientProcess = 0 then (.statusNullParameter, none)
    else
      match h.findIpcObjectByServerId serverIdStr with
      | none => (.ipcStatusServerNotFound, none)
      | some ipcObject => (.statusSuccess, h.ipcObjects[ipcObject]?.map IpcObject.handle)

/-- An object is changed. -/
def modify (h : IpcHandler) (ipcObject : ℕ) (f : IpcObject → IpcObject) : IpcHandler :=
  { h with ipcObjects := h.ipcObjects.modify ipcObject f }

/-- `ipcObject->criticalSection.Leave()`. -/
def leave (h : IpcHandler) (ipcObject : ℕ) : IpcHandler :=
  h.modify ipcObject fun o => { o with criticalSection := 0 }

/-- A method of the buffer of an object has run. -/
def setBuffer (h : IpcHandler) (ipcObject : ℕ) (s : IpcState) : IpcHandler :=
  { h with
    ipcObjects := h.ipcObjects.modify ipcObject fun o => { o with buffer := s.buf }
    mem := s.mem }

/-- `IpcHandler::Send`; a message that is not null comes with its size. The
critical section that is entered is that of the null pointer, the one that is left
that of the object found. -/
def send (fuel : ℕ) (h : IpcHandler) (handle : U32) (clientProcess : ℕ)
    (message : Option (List U8)) : Outcome (KeStatus × IpcHandler) :=
  if handle = 0 then .ret (.statusInvalidParameter, h)
  else if clientProcess = 0 then .ret (.statusNullParameter, h)
  else
    match message with
    | none => .ret (.statusNullParameter, h)
    | some [] => .ret (.statusInvalidParameter, h)
    | some message => do
      let nullSection ← enter h.nullSection
      let h := { h with nullSection }
      match h.findIpcObjectByHandle handle with
      | none => return (.ipcStatusServerNotFound, { h with nullSection := 0 })
      | some ipcObject => do
        let o ← .ofOption h.ipcObjects[ipcObject]?
        if clientProcess = o.serverProcess then
          return (.ipcStatusAccessDenied, h.leave ipcObject)
        else
          let (status, s) ← (IpcState.mk o.buffer h.mem).addBytes fuel message
          return (status, (h.setBuffer ipcObject s).leave ipcObject)

/-- `IpcHandler::Receive` up to its wait: the status of a call that returns, or
that of a call that goes on, with the object. A client is given its status, but
not sent back. -/
def receiveBegin (h : IpcHandler) (a : ReceiveArgs) : Outcome (KeStatus ⊕ KeStatus × ℕ) :=
  match a.refusal with
  | some status => .ret (.inl status)
  | none =>
    match h.findIpcObjectByHandle a.handle with
    | none => .ret (.inl .ipcStatusServerNotFound)
    | some ipcObject => do
      let o ← .ofOption h.ipcObjects[ipcObject]?
      let status := if a.serverProcess ≠ o.serverProcess then .ipcStatusAccessDenied
        else .statusFailure
      return .inr (status, ipcObject)

/-- `EventWait(&ipcObject->buffer.ReadyToReadEvent)`, up to where it returns or has
the thread switched away. -/
def receiveWait (h : IpcHandler) (currentThread ipcObject : ℕ) : Outcome (Bool × IpcHandler) := do
  let o ← .ofOption h.ipcObjects[ipcObject]?
  let (passed, readyToReadEvent) ← o.buffer.readyToReadEvent.waitBegin currentThread
  return (passed, h.modify ipcObject fun o => { o with
    buffer := { o.buffer with readyToReadEvent } })

/-- The rest of `EventWait` for a thread that was switched away. -/
def receiveWake (h : IpcHandler) (ipcObject : ℕ) : IpcHandler :=
  h.modify ipcObject fun o => { o with
    buffer := { o.buffer with readyToReadEvent := o.buffer.readyToReadEvent.waitEnd } }

/-- `IpcHandler::Receive` after its wait: the status, what is put into the buffer
of the caller, the number that is stored in `bytesRead`, and the handler. The
status that the call comes with is given up. A `ReadBytes` that fails leaves the
critical section taken. -/
def receiveEnd (fuel : ℕ) (h : IpcHandler) (_status : KeStatus) (ipcObject : ℕ)
    (a : ReceiveArgs) : Outcome (KeStatus × List U8 × Option ℕ × IpcHandler) := do
  let o ← .ofOption h.ipcObjects[ipcObject]?
  let criticalSection ← enter o.criticalSection
  let h := h.modify ipcObject fun o => { o with criticalSection }
  let (status, bytes, localBytesRead, s) ← (IpcState.mk o.buffer h.mem).readBytes fuel a.size
  let h := h.setBuffer ipcObject s
  if failed status then return (status, bytes, none, h)
  else return (.statusSuccess, bytes, some localBytesRead, h.leave ipcObject)

end IpcHandler

end LtMicros
