import LtMicros.Event
import LtMicros.ProcessBytes

/-!
# The byte buffers of the IPC

`IpcBuffer` keeps its bytes in pages of the page pool, and reads and writes them
through the page tables. A `Page` that `AllocatePage` has put on the heap is never
freed, so a pointer to one is the number of its allocation; other pointers are
addresses, with 0 for the null pointer. The heap has room for these and for the
nodes of `pagesList`. Messages are not null and as long as their size says, and the
bytes that are read are the result of the call.
-/

namespace LtMicros

open Lib

/-- `EventSignal`, as far as the event goes. -/
def Event.signal (evt : Event) : Event := { evt with signaled := true, value := false }

/-- `IpcBuffer`. -/
structure IpcBuffer where
  readyToReadEvent : Event
  currentPageWrite : Option ℕ
  currentPageRead : Option ℕ
  currentPageWritePtr : ℕ
  currentPageReadPtr : ℕ
  currentWriteLimit : ℕ
  currentReadLimit : ℕ
  pagesList : List ℕ

/-- `IpcBuffer::Init`. -/
def IpcBuffer.init : IpcBuffer where
  readyToReadEvent := ⟨false, none, false⟩
  currentPageWrite := none
  currentPageRead := none
  currentPageWritePtr := 0
  currentPageReadPtr := 0
  currentWriteLimit := 0
  currentReadLimit := 0
  pagesList := []

/-- What the buffers work on: the pages that `AllocatePage` has put on the heap, the
kernel's memory managers with the memory itself, and the pages that `gPagePool.Free`
has been called with, in order. -/
structure IpcMem where
  pages : ℕ → Page
  heapTop : ℕ
  k : KernelMem
  freed : List ℕ

/-- `page->vAddr`. -/
def IpcMem.vAddr (m : IpcMem) (page : ℕ) : ℕ := (m.pages page).vAddr.toNat

/-- `*addr`. -/
def IpcMem.load (m : IpcMem) (addr : ℕ) : Outcome U8 := m.k.mmu.readByte (BitVec.ofNat 32 addr)

/-- `*addr = c`. -/
def IpcMem.store (m : IpcMem) (addr : ℕ) (c : U8) : Outcome IpcMem := do
  let mmu ← m.k.mmu.writeByte (BitVec.ofNat 32 addr) c
  return { m with k := { m.k with mmu } }

/-- `IpcBuffer::AllocatePage`. -/
def IpcMem.allocatePage (m : IpcMem) : Outcome (Option ℕ × IpcMem) := do
  let (p, k) ← m.k.pageAlloc
  if p.vAddr = 0 then return (none, { m with k })
  else
    return (some m.heapTop, { m with
      k, pages := Function.update m.pages m.heapTop p, heapTop := m.heapTop + 1 })

/-- A buffer and the memory. -/
structure IpcState where
  buf : IpcBuffer
  mem : IpcMem

namespace IpcState

/-- `IpcBuffer::AllocateWritePage`. -/
def allocateWritePage (s : IpcState) : Outcome (KeStatus × IpcState) := do
  let (newPage, mem) ← s.mem.allocatePage
  match newPage with
  | none => return (.statusAllocFailed, { s with mem })
  | some newPage =>
    let buf := { s.buf with
      currentPageWrite := some newPage
      currentPageWritePtr := mem.vAddr newPage
      currentWriteLimit := add32 (mem.vAddr newPage) pageSize
      pagesList := s.buf.pagesList ++ [newPage] }
    return (.statusSuccess, ⟨buf, mem⟩)

/-- The body of the inner loop of `AddBytes`. -/
def writeByte (s : IpcState) (c : U8) : Outcome IpcState := do
  let mem ← s.mem.store s.buf.currentPageWritePtr c
  let buf := { s.buf with
    currentPageWritePtr := add32 s.buf.currentPageWritePtr 1
    currentReadLimit :=
      if s.buf.currentPageWrite = s.buf.currentPageRead then add32 s.buf.currentReadLimit 1
      else s.buf.currentReadLimit }
  return ⟨buf, mem⟩

/-- The inner loop of `AddBytes`: what is left of the message. -/
def writeBytes (s : IpcState) : List U8 → Outcome (List U8 × IpcState)
  | [] => .ret ([], s)
  | c :: message =>
    if s.buf.currentPageWritePtr < s.buf.currentWriteLimit then do
      let s ← s.writeByte c
      s.writeBytes message
    else .ret (c :: message, s)

/-- One turn of the outer loop of `AddBytes`. -/
def addTurn : List U8 × IpcState → Outcome (List U8 × IpcState ⊕ KeStatus × IpcState)
  | (message, s) => do
    let (message, s) ← s.writeBytes message
    if message = [] then return .inr (.statusSuccess, s)
    else
      let (status, s) ← s.allocateWritePage
      if failed status then return .inr (status, s) else return .inl (message, s)

/-- The end of `AddBytes`, from its loop on. -/
def addRest (fuel : ℕ) (s : IpcState) (message : List U8) : Outcome (KeStatus × IpcState) := do
  let (status, s) ← Outcome.loop addTurn fuel (message, s)
  if failed status then return (status, s)
  else
    let readyToReadEvent := s.buf.readyToReadEvent.signal
    return (.statusSuccess, { s with buf := { s.buf with readyToReadEvent } })

/-- `IpcBuffer::AddBytes`. -/
def addBytes (fuel : ℕ) (s : IpcState) (message : List U8) : Outcome (KeStatus × IpcState) :=
  if message = [] then .ret (.statusInvalidParameter, s)
  else if s.buf.currentPageWritePtr = 0 then do
    let (status, s) ← s.allocateWritePage
    if failed status then return (status, s) else s.addRest fuel message
  else s.addRest fuel message

/-- The reader goes to a page, of which it may read up to `limit`. -/
def readFrom (s : IpcState) (page limit : ℕ) : IpcState :=
  { s with buf := { s.buf with
    currentPageReadPtr := s.mem.vAddr page
    currentReadLimit := limit } }

/-- The part of `ReadBytes` that comes to the first page. -/
def openRead (s : IpcState) : Outcome IpcState := do
  let nextPage ← .ofOption s.buf.pagesList.head?
  let s := { s with buf := { s.buf with currentPageRead := some nextPage } }
  return s.readFrom nextPage
    (if s.buf.currentPageRead = s.buf.currentPageWrite then s.buf.currentPageWritePtr
     else add32 (s.mem.vAddr nextPage) pageSize)

/-- The inner loop of `ReadBytes`: the bytes read, and how many are still to be. -/
def readWhile (s : IpcState) : ℕ → Outcome (List U8 × ℕ × IpcState)
  | 0 => .ret ([], 0, s)
  | localSize + 1 =>
    if s.buf.currentPageReadPtr < s.buf.currentReadLimit then do
      let byte ← s.mem.load s.buf.currentPageReadPtr
      let buf := { s.buf with currentPageReadPtr := add32 s.buf.currentPageReadPtr 1 }
      let (bytes, rest) ← readWhile { s with buf } localSize
      return (byte :: bytes, rest)
    else .ret ([], localSize + 1, s)

/-- The step of `ReadBytes` to the next page: the oldest one goes back to the
pool. `currentPageRead` is not changed, and the limit is the end of the page also
when it is the one being written. -/
def nextReadPage (fuel : ℕ) (s : IpcState) : Outcome IpcState := do
  let page ← .ofOption s.buf.pagesList.head?
  let k ← s.mem.k.pageFree fuel (s.mem.pages page)
  let s : IpcState :=
    { buf := { s.buf with pagesList := s.buf.pagesList.tail }
      mem := { s.mem with k, freed := s.mem.freed ++ [page] } }
  let page ← .ofOption s.buf.pagesList.head?
  return s.readFrom page (add32 (s.mem.vAddr page) pageSize)

/-- One turn of the outer loop of `ReadBytes`: the state is what has been read,
and how much is still to be. -/
def readTurn (fuel : ℕ) : List U8 × ℕ × IpcState →
    Outcome (List U8 × ℕ × IpcState ⊕ List U8 × ℕ × IpcState)
  | (out, localSize, s) => do
    let (bytes, localSize, s) ← s.readWhile localSize
    if 0 < localSize then
      if s.buf.currentPageWrite ≠ s.buf.currentPageRead then
        let s ← s.nextReadPage fuel
        return .inl (out ++ bytes, localSize, s)
      else return .inr (out ++ bytes, localSize, s)
    else return .inr (out ++ bytes, localSize, s)

/-- The end of `ReadBytes`, from its loop on. -/
def readRest (fuel : ℕ) (s : IpcState) (size : ℕ) :
    Outcome (KeStatus × List U8 × ℕ × IpcState) := do
  let (bytes, localSize, s) ← Outcome.loop (readTurn fuel) fuel ([], size, s)
  let bytesRead := if localSize = 0 then size else size - localSize
  return (.statusSuccess, bytes, bytesRead, s)

/-- `IpcBuffer::ReadBytes`: the status, the bytes put into the buffer, and
`bytesRead`. -/
def readBytes (fuel : ℕ) (s : IpcState) (size : ℕ) : Outcome (KeStatus × List U8 × ℕ × IpcState) :=
  if size = 0 then .ret (.statusInvalidParameter, [], 0, s)
  else if s.buf.currentPageReadPtr = 0 then do
    let s ← s.openRead
    s.readRest fuel size
  else s.readRest fuel size

end IpcState

end LtMicros
