import LtMicros.ProcessBytes
import LtMicros.Lib.Bytes
import LtMicros.Lib.Traced

/-!
# The debugger's link

Packets that arrive byte by byte on the serial port, the requests in them, and the responses. All
of it lies in blocks of the kernel heap. `HeapAlloc` is taken as a choice of addresses: it answers
the null pointer for a size that is not positive, and otherwise a block that overlaps no other, or
the kernel panics. The bytes of the heap are kept apart from the page tables and from what the
debugger looks at.
-/

namespace LtMicros

open Lib

/-- `CommandId`, as the peer sends it. -/
abbrev CommandId := ℕ

def cmdConnect : CommandId := 0
def cmdStep : CommandId := 1
def cmdContinue : CommandId := 2
def cmdQuit : CommandId := 3
def cmdRegisters : CommandId := 4
def cmdDisass : CommandId := 5
def cmdStackTrace : CommandId := 6
def cmdMemory : CommandId := 7
def cmdBp : CommandId := 8
def cmdBl : CommandId := 9
def cmdIdt : CommandId := 10

/-- `KeDebugStatus`. -/
inductive KeDebugStatus where
  | dbgStatusSuccess
  | dbgStatusFailure
  | dbgStatusAlreadyConnected
  | dbgStatusBreakpointReached
  | dbgStatusWrongParameter
  | dbgStatusMemoryUnavailable
deriving DecidableEq, Repr

/-- `KeDebugContext`, with the registers that the debugger looks at or changes. -/
structure KeDebugContext where
  cr3 : U32
  ebp : U32
  eip : U32
  eflags : U32

/-- `KeDebugPacket`. Pointers are `none` when they are null, here as in what follows. -/
structure KeDebugPacket where
  size : ℕ
  content : Option ℕ

/-- `KeDebugRequest`. -/
structure KeDebugRequest where
  command : CommandId
  paramSize : ℕ
  param : Option ℕ

/-- `KeDebugResponseHeader`. -/
structure KeDebugResponseHeader where
  command : CommandId
  status : KeDebugStatus
  context : KeDebugContext
  processName : List U8
  dataSize : ℕ

/-- `KeDebugResponse`. -/
structure KeDebugResponse where
  header : KeDebugResponseHeader
  data : Option ℕ

/-- `sizeof(KeDebugRequest)` without `param`, and `sizeof(KeDebugResponseHeader)`. -/
def requestHeaderSize : ℕ := 8
def responseHeaderSize : ℕ := 600

/-- The bytes of the kernel heap, the blocks in use with their sizes, and the number of blocks that
have been given out. -/
structure DbgHeap where
  mem : Bytes
  live : List (ℕ × ℕ)
  count : ℕ

/-- The fields of a response that an answer depends on. -/
inductive ResponseField where
  | command
  | status
  | dataSize
  | data
deriving DecidableEq, Repr

/-- What happens to the heap, the reads of a packet, the virtual addresses that are copied, the
fields of the response that are written, and the responses that are sent, with the blocks that are
in use then. -/
inductive DbgEvent where
  | alloc (p size : ℕ)
  | free (p : ℕ) (inUse : Bool)
  | read (p size : ℕ)
  | copied (vAddr : U32)
  | set (field : ResponseField)
  | sent (response : KeDebugResponse) (live : List (ℕ × ℕ))

/-- What the debugger is run with: where the blocks of the heap are put, the bytes that arrive, and
the name of the current process, if there is one. -/
structure DbgEnv where
  place : ℕ → ℕ
  bytes : ℕ → U8
  currentProcess : Option (List U8)

/-- The heap, and how many bytes have arrived. -/
structure DbgLink where
  heap : DbgHeap
  received : ℕ

/-- The addresses of the kernel heap. -/
def heapBase : ℕ := kernelInfo.vHeapBase.toNat
def heapLimit : ℕ := kernelInfo.vHeapLimit.toNat

namespace DbgHeap

/-- There is a block of the size at `p`, apart from those in use. -/
def Room (h : DbgHeap) (p size : ℕ) : Prop :=
  heapBase ≤ p ∧ p + size ≤ heapLimit ∧ ∀ b ∈ h.live, p + size ≤ b.1 ∨ b.1 + b.2 ≤ p

instance (h : DbgHeap) (p size : ℕ) : Decidable (h.Room p size) :=
  inferInstanceAs (Decidable (_ ∧ _ ∧ _))

/-- `HeapAlloc` reads the size as an `int`. -/
def heapAlloc (env : DbgEnv) (h : DbgHeap) (size : ℕ) : Traced DbgEvent (Option ℕ × DbgHeap) :=
  if size = 0 ∨ 2 ^ 31 ≤ size then return (none, h)
  else if h.Room (env.place h.count) size then do
    Traced.note (.alloc (env.place h.count) size)
    return (some (env.place h.count),
      { h with live := (env.place h.count, size) :: h.live, count := h.count + 1 })
  else Traced.lift .panic

/-- `HeapFree`. The block is filled with zeros. One that is not in use is left alone. -/
def heapFree (h : DbgHeap) (p : ℕ) : Traced DbgEvent DbgHeap := do
  Traced.note (.free p (p ∈ h.live.map Prod.fst))
  match h.live.find? (·.1 = p) with
  | some (_, size) =>
    return { h with mem := h.mem.fill p 0 size, live := h.live.filter (·.1 ≠ p) }
  | none => return h

end DbgHeap

namespace LtDbgCom

/-- `LtDbgCom::ReadBytes` into the heap. -/
def readBytes (env : DbgEnv) (s : DbgLink) (buffer : ℕ) : ℕ → DbgLink
  | 0 => s
  | size + 1 =>
    readBytes env
      ⟨{ s.heap with mem := Function.update s.heap.mem buffer (env.bytes s.received) },
        s.received + 1⟩ (buffer + 1) size

/-- `LtDbgCom::RecvPacket`, with the packet that it fills in. -/
def recvPacket (env : DbgEnv) (s : DbgLink) (packet : KeDebugPacket) :
    Traced DbgEvent (KeStatus × KeDebugPacket × DbgLink) := do
  let packet := { packet with size := Bytes.load32 env.bytes s.received }
  let s := { s with received := s.received + 4 }
  if packet.size = 0 then return (.statusSuccess, packet, s)
  else
    match ← s.heap.heapAlloc env packet.size with
    | (none, heap) => return (.statusAllocFailed, ⟨0, none⟩, { s with heap })
    | (some content, heap) =>
      return (.statusSuccess, { packet with content := some content },
        readBytes env { s with heap } content packet.size)

/-- `LtDbgCom::CleanupPacket`. -/
def cleanupPacket (s : DbgLink) (packet : KeDebugPacket) : Traced DbgEvent DbgLink :=
  match packet.content with
  | none => return s
  | some content => do
    let heap ← s.heap.heapFree content
    return { s with heap }

/-- `LtDbgCom::RecvRequest`. -/
def recvRequest (env : DbgEnv) (s : DbgLink) (request : KeDebugRequest) :
    Traced DbgEvent (KeStatus × KeDebugRequest × DbgLink) := do
  match ← recvPacket env s ⟨0, none⟩ with
  -- without a packet the request is left as it was
  | (.statusSuccess, ⟨_, none⟩, s) => return (.statusSuccess, request, s)
  | (.statusSuccess, ⟨size, some content⟩, s) =>
    if size = 0 then return (.statusSuccess, request, s)
    else do
      Traced.note (.read content 4)
      Traced.note (.read (content + 4) 4)
      let command := s.heap.mem.load32 content
      let paramSize := s.heap.mem.load32 (content + 4)
      -- the size of the parameter is the one that the peer declares
      if 0 < paramSize then
        match ← s.heap.heapAlloc env paramSize with
        | (none, heap) => return (.statusAllocFailed, ⟨command, paramSize, none⟩, { s with heap })
        | (some param, heap) => do
          Traced.note (.read (content + requestHeaderSize) paramSize)
          let mem := heap.mem.copy (content + requestHeaderSize) param paramSize
          let s ← cleanupPacket { s with heap := { heap with mem } } ⟨size, some content⟩
          return (.statusSuccess, ⟨command, paramSize, some param⟩, s)
      else do
        let s ← cleanupPacket s ⟨size, some content⟩
        return (.statusSuccess, ⟨command, paramSize, none⟩, s)
  | (status, _, s) => return (status, request, s)

/-- `LtDbgCom::SendPacket` of a response, whose header and data are in `packet.content`. -/
def sendPacket (s : DbgLink) (packet : KeDebugPacket) (response : KeDebugResponse) :
    Traced DbgEvent (KeStatus × DbgLink) :=
  if packet.content = none then return (.statusInvalidParameter, s)
  else if packet.size = 0 then return (.statusInvalidParameter, s)
  else do
    Traced.note (.sent response s.heap.live)
    return (.statusSuccess, s)

/-- `LtDbgCom::SendResponse`. The data are copied into the buffer, behind the header, which is sent
as it is. -/
def sendResponse (env : DbgEnv) (s : DbgLink) (response : KeDebugResponse) :
    Traced DbgEvent (KeStatus × DbgLink) :=
  if response.header.dataSize ≠ 0 ∧ response.data = none then
    return (.statusInvalidParameter, s)
  else do
    let size := (responseHeaderSize + response.header.dataSize) % 2 ^ 32
    match ← s.heap.heapAlloc env size with
    | (none, heap) => return (.statusAllocFailed, { s with heap })
    | (some buffer, heap) =>
      let mem := heap.mem.copy (response.data.getD 0) (buffer + responseHeaderSize)
        response.header.dataSize
      sendPacket { s with heap := { heap with mem } } ⟨size, some buffer⟩ response

end LtDbgCom

end LtMicros
