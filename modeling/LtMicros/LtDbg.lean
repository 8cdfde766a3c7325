import LtMicros.LtDbgRequests

/-!
# The debugger

The commands of a peer that has stopped the kernel, and the loop that receives and answers them.
The request and the response are variables of this loop, and so their fields and blocks outlive the
packet they were made for.
-/

namespace LtMicros

open Lib

/-- The variables of `LtDbg::WaitForPacket`, the heap and the port, and the memory that the commands
look at. -/
structure LtDbg where
  link : DbgLink
  mmu : Mmu
  context : KeDebugContext
  request : KeDebugRequest
  response : KeDebugResponse
  running : Bool

/-- `DEFAULT_ASM_BUFFER_SIZE`. -/
def defaultAsmBufferSize : ℕ := 20

/-- `sizeof(KeDebugDisassParamRes)`, `sizeof(KeDebugMemoryParamReq)` and `sizeof(ListElem)`. -/
def disassParamResSize : ℕ := 12
def memoryParamReqSize : ℕ := 8
def listElemSize : ℕ := 12

/-- `gIdt.info`, after `Idt::Init`. -/
def idtBase : U32 := 0x800
def idtLimit : ℕ := 255 * 8

namespace Mmu

/-- Reads a word that need not be aligned. -/
def readWord (m : Mmu) (vAddr : U32) : Outcome U32 := do
  let b₀ ← m.readByte vAddr
  let b₁ ← m.readByte (vAddr + 1)
  let b₂ ← m.readByte (vAddr + 2)
  let b₃ ← m.readByte (vAddr + 3)
  return b₃ ++ b₂ ++ b₁ ++ b₀

/-- `Vmm::IsVirtualAddressAvailable`. -/
def isVirtualAddressAvailable (m : Mmu) (vAddr : U32) : Outcome Bool := do
  let pde ← m.read (pdeOf vAddr)
  if flagOn pde pagePresent then do
    let pte ← m.read (pteOf vAddr)
    return flagOn pte pagePresent
  else return false

/-- `MemCopy` from virtual memory into a block of the heap. -/
def copyInto (m : Mmu) (mem : Bytes) (src : U32) (dst : ℕ) : ℕ → Traced DbgEvent Bytes
  | 0 => return mem
  | size + 1 => do
    Traced.note (.copied src)
    let byte ← Traced.lift (m.readByte src)
    m.copyInto (Function.update mem dst byte) (src + 1) (dst + 1) size

end Mmu

namespace LtDbg

/-! ## The fields of the response -/

def setCommand (response : KeDebugResponse) (command : CommandId) :
    Traced DbgEvent KeDebugResponse := do
  Traced.note (.set .command)
  return { response with header := { response.header with command } }

def setStatus (response : KeDebugResponse) (status : KeDebugStatus) :
    Traced DbgEvent KeDebugResponse := do
  Traced.note (.set .status)
  return { response with header := { response.header with status } }

def setDataSize (response : KeDebugResponse) (dataSize : ℕ) : Traced DbgEvent KeDebugResponse := do
  Traced.note (.set .dataSize)
  return { response with header := { response.header with dataSize } }

def setData (response : KeDebugResponse) (data : Option ℕ) : Traced DbgEvent KeDebugResponse := do
  Traced.note (.set .data)
  return { response with data }

def setContext (response : KeDebugResponse) (context : KeDebugContext) : KeDebugResponse :=
  { response with header := { response.header with context } }

/-- All fields but the command and the context. -/
def setResult (response : KeDebugResponse) (status : KeDebugStatus) (dataSize : ℕ)
    (data : Option ℕ) : Traced DbgEvent KeDebugResponse := do
  let response ← setDataSize response dataSize
  let response ← setStatus response status
  setData response data

/-- A response without data, as most of the commands leave it. -/
def answer (s : LtDbg) (command : CommandId) (context : KeDebugContext) (status : KeDebugStatus)
    (running : Bool) : Traced DbgEvent LtDbg := do
  let response ← setCommand s.response command
  let response ← setResult (setContext response context) status 0 none
  return { s with context, response, running }

/-! ## The commands -/

/-- `LtDbg::StepCommand`. -/
def stepCommand (s : LtDbg) : Traced DbgEvent LtDbg :=
  s.answer cmdStep { s.context with eflags := s.context.eflags ||| 0x100 } .dbgStatusSuccess true

/-- `LtDbg::ContinueCommand`. -/
def continueCommand (s : LtDbg) : Traced DbgEvent LtDbg :=
  s.answer cmdContinue { s.context with eflags := s.context.eflags &&& 0x0FEFF } .dbgStatusSuccess
    true

/-- `LtDbg::QuitCommand`. -/
def quitCommand (s : LtDbg) : Traced DbgEvent LtDbg :=
  s.answer cmdQuit { s.context with eflags := s.context.eflags &&& 0x0FEFF } .dbgStatusSuccess true

/-- `LtDbg::RegistersCommand`. -/
def registersCommand (s : LtDbg) : Traced DbgEvent LtDbg :=
  s.answer cmdRegisters s.context .dbgStatusSuccess false

/-- The `default` of the loop. -/
def undefinedCommand (s : LtDbg) : Traced DbgEvent LtDbg :=
  s.answer s.request.command s.context .dbgStatusFailure false

/-- The heap after a change. -/
def setHeap (s : LtDbg) (heap : DbgHeap) : LtDbg := { s with link := { s.link with heap } }

/-- `LtDbg::DisassCommand`. When there is no block for the result, it is stored through the null
pointer. -/
def disassCommand (env : DbgEnv) (s : LtDbg) : Traced DbgEvent LtDbg := do
  let s := { s with running := false }
  let response ← setCommand s.response cmdDisass
  let response := setContext response s.context
  match s.request.param with
  | none => do
    let response ← setStatus response .dbgStatusFailure
    return { s with response }
  | some param =>
    if s.request.paramSize = 0 then do
      let response ← setStatus response .dbgStatusFailure
      return { s with response }
    else
      let nbInst := s.link.heap.mem.load32 param
      if nbInst = 0 then do
        let response ← setStatus response .dbgStatusSuccess
        return { s with response }
      else do
        -- both sizes are computed with 32 bits
        let size := nbInst * defaultAsmBufferSize % 2 ^ 32
        let paramSize := (disassParamResSize + size) % 2 ^ 32
        let response ← setDataSize response paramSize
        match ← s.link.heap.heapAlloc env paramSize with
        | (none, heap) => do
          let response ← setData response none
          let response ← setStatus response .dbgStatusFailure
          -- the branch does not return
          let mmu ← Traced.lift (s.mmu.write 0 (BitVec.ofNat 32 size))
          let mmu ← Traced.lift (mmu.write 4 s.context.eip)
          let mmu ← Traced.lift (mmu.memCopy s.context.eip 8 size)
          let response ← setStatus response .dbgStatusSuccess
          return { (s.setHeap heap) with mmu, response }
        | (some data, heap) => do
          let response ← setData response (some data)
          let mem := heap.mem.store32 data size
          let mem := mem.store32 (data + 4) s.context.eip.toNat
          let mem ← s.mmu.copyInto mem s.context.eip (data + 8) size
          let response ← setStatus response .dbgStatusSuccess
          return { (s.setHeap { heap with mem }) with response }

/-! ## The stack trace -/

/-- `ListPush` of the list of a stack trace, which are elements with their addresses. -/
def listPush (env : DbgEnv) (heap : DbgHeap) (list : List (ℕ × U32)) (data : U32) :
    Traced DbgEvent (List (ℕ × U32) × DbgHeap) :=
  match list with
  | [] => return ([], heap)
  | (p, first) :: rest =>
    if first = 0 then return ((p, data) :: rest, heap)
    else do
      match ← heap.heapAlloc env listElemSize with
      | (none, heap) => return (list, heap)
      | (some q, heap) => return (list ++ [(q, data)], heap)

/-- `ListPop`. -/
def listPop (heap : DbgHeap) (list : List (ℕ × U32)) :
    Traced DbgEvent (U32 × List (ℕ × U32) × DbgHeap) :=
  match list with
  | [] => return (0, [], heap)
  | (p, first) :: rest =>
    if first = 0 then return (0, list, heap)
    else if rest = [] then return (first, [(p, 0)], heap)
    else do
      let heap ← heap.heapFree p
      return (first, rest, heap)

/-- `ListDestroy`. -/
def listDestroy (heap : DbgHeap) : List (ℕ × U32) → Traced DbgEvent DbgHeap
  | [] => return heap
  | (p, _) :: rest => do
    let heap ← heap.heapFree p
    listDestroy heap rest

/-- One turn of the loop through the stack frames. -/
def frameTurn (env : DbgEnv) (m : Mmu) (state : U32 × ℕ × List (ℕ × U32) × DbgHeap) :
    Traced DbgEvent ((U32 × ℕ × List (ℕ × U32) × DbgHeap) ⊕ (ℕ × List (ℕ × U32) × DbgHeap)) :=
  let (ebp, nbPtr, list, heap) := state
  if ebp = 0 then return .inr (nbPtr, list, heap)
  else do
    let addr ← Traced.lift (m.readWord (ebp + 4))
    let (list, heap) ← listPush env heap list addr
    let ebp ← Traced.lift (m.readWord ebp)
    return .inl (ebp, nbPtr + 1, list, heap)

/-- One turn of the loop that moves the addresses into the buffer. -/
def popTurn (buffer : ℕ) (state : ℕ × List (ℕ × U32) × DbgHeap) :
    Traced DbgEvent ((ℕ × List (ℕ × U32) × DbgHeap) ⊕ (List (ℕ × U32) × DbgHeap)) := do
  let (index, list, heap) := state
  let (addr, list, heap) ← listPop heap list
  if addr = 0 then return .inr (list, heap)
  else return .inl (index + 1, list,
    { heap with mem := heap.mem.store32 (buffer + 4 * index) addr.toNat })

/-- `LtDbg::StackTraceCommand`. -/
def stackTraceCommand (env : DbgEnv) (fuel : ℕ) (s : LtDbg) : Traced DbgEvent LtDbg := do
  let s := { s with running := false }
  let (first, heap) ← s.link.heap.heapAlloc env listElemSize
  let list : List (ℕ × U32) := first.toList.map fun p => (p, 0)
  let (list, heap) ← listPush env heap list s.context.eip
  let (nbPtr, list, heap) ← Traced.loop (frameTurn env s.mmu) fuel (s.context.ebp, 1, list, heap)
  let bufferSize := nbPtr * 4 % 2 ^ 32
  match ← heap.heapAlloc env bufferSize with
  | (none, heap) => do
    -- the response is left as it was
    let heap ← listDestroy heap list
    return s.setHeap heap
  | (some buffer, heap) => do
    let (list, heap) ← Traced.loop (popTurn buffer) fuel (0, list, heap)
    let response ← setCommand s.response cmdStackTrace
    let response ← setResult (setContext response s.context) .dbgStatusSuccess bufferSize
      (some buffer)
    let heap ← listDestroy heap list
    return { (s.setHeap heap) with response }

/-! ## Memory and interrupts -/

/-- `LtDbg::MemoryCommand`. -/
def memoryCommand (env : DbgEnv) (s : LtDbg) : Traced DbgEvent LtDbg := do
  let s := { s with running := false }
  let response ← setCommand s.response cmdMemory
  let response := setContext response s.context
  if s.request.paramSize ≠ memoryParamReqSize then do
    let response ← setResult response .dbgStatusWrongParameter 0 none
    return { s with response }
  else do
    let param := s.request.param.getD 0
    let size := s.link.heap.mem.load32 param
    let addr := BitVec.ofNat 32 (s.link.heap.mem.load32 (param + 4))
    let currentPd := s.mmu.getCurrentPageDirectory
    let mmu := s.mmu.setCurrentPageDirectory s.context.cr3
    -- the pages between the first and the last byte are not looked up
    let first ← Traced.lift (mmu.isVirtualAddressAvailable addr)
    if first = false then do
      let response ← setResult response .dbgStatusMemoryUnavailable 0 none
      return { s with response, mmu := mmu.setCurrentPageDirectory currentPd }
    else do
      let last ← Traced.lift (mmu.isVirtualAddressAvailable (addr + BitVec.ofNat 32 size - 1))
      if last = false then do
        let response ← setResult response .dbgStatusMemoryUnavailable 0 none
        return { s with response, mmu := mmu.setCurrentPageDirectory currentPd }
      else do
        match ← s.link.heap.heapAlloc env size with
        | (none, heap) => do
          let response ← setResult response .dbgStatusFailure 0 none
          return { (s.setHeap heap) with response, mmu := mmu.setCurrentPageDirectory currentPd }
        | (some buffer, heap) => do
          let mem ← mmu.copyInto heap.mem addr buffer size
          let response ← setResult response .dbgStatusSuccess size (some buffer)
          return { (s.setHeap { heap with mem }) with
            response, mmu := mmu.setCurrentPageDirectory currentPd }

/-- `LtDbg::IdtCommand`. -/
def idtCommand (env : DbgEnv) (s : LtDbg) : Traced DbgEvent LtDbg := do
  let s := { s with running := false }
  match ← s.link.heap.heapAlloc env idtLimit with
  | (none, heap) => do
    let response ← setResult s.response .dbgStatusFailure 0 none
    return { (s.setHeap heap) with response }
  | (some descriptors, heap) => do
    let mem ← s.mmu.copyInto heap.mem idtBase descriptors idtLimit
    let response ← setCommand s.response cmdIdt
    let response ← setResult (setContext response s.context) .dbgStatusSuccess idtLimit
      (some descriptors)
    return { (s.setHeap { heap with mem }) with response }

/-! ## The loop -/

/-- The `switch` of the loop. `CMD_BP` does nothing. -/
def handle (env : DbgEnv) (fuel : ℕ) (s : LtDbg) : Traced DbgEvent LtDbg :=
  if s.request.command = cmdStep then s.stepCommand
  else if s.request.command = cmdContinue then s.continueCommand
  else if s.request.command = cmdQuit then s.quitCommand
  else if s.request.command = cmdRegisters then s.registersCommand
  else if s.request.command = cmdDisass then s.disassCommand env
  else if s.request.command = cmdStackTrace then s.stackTraceCommand env fuel
  else if s.request.command = cmdMemory then s.memoryCommand env
  else if s.request.command = cmdBp then return s
  else if s.request.command = cmdIdt then s.idtCommand env
  else s.undefinedCommand

/-- `LtDbg::UpdateKeDebugResponseWithProcessInfo`. -/
def updateKeDebugResponseWithProcessInfo (env : DbgEnv) (response : KeDebugResponse) :
    KeStatus × KeDebugResponse :=
  match env.currentProcess with
  | none => (.statusFailure, response)
  | some name =>
    (.statusSuccess, { response with header := { response.header with processName := name } })

/-- `LtDbg::CleanupKeDebugRequest` and `LtDbg::CleanupKeDebugResponse`, for the block that the
pointer points to. -/
def cleanup (s : LtDbg) (block : Option ℕ) : Traced DbgEvent LtDbg :=
  match block with
  | none => return s
  | some p => do
    let heap ← s.link.heap.heapFree p
    return s.setHeap heap

/-- What the loop does with a request. -/
def respond (env : DbgEnv) (fuel : ℕ) (s : LtDbg) : Traced DbgEvent LtDbg := do
  let s ← s.handle env fuel
  let s := { s with response := (updateKeDebugResponseWithProcessInfo env s.response).2 }
  let link ← if s.running = false then do
      let (_, link) ← LtDbgCom.sendResponse env s.link s.response
      pure link
    else pure s.link
  let s := { s with link }
  let s ← s.cleanup s.request.param
  s.cleanup s.response.data

/-- One turn of the loop of `LtDbg::WaitForPacket`. When no request can be received, the function
returns. -/
def turn (env : DbgEnv) (fuel : ℕ) (s : LtDbg) : Traced DbgEvent LtDbg := do
  match ← LtDbgCom.recvRequest env s.link s.request with
  | (.statusSuccess, request, link) => respond env fuel { s with request, link }
  | (_, request, link) => return { s with request, link, running := true }

end LtDbg

end LtMicros
