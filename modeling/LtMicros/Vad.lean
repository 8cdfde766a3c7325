import LtMicros.PagePool

/-!
# Virtual address descriptors

The vads of a process are nodes of the kernel heap; a pointer to one is the
number of its allocation, so a new vad never shares its node with another. The
parameters `pageDirectory` and `outVad` are not null: they are an address of
`cr3` and the result of the call.
-/

namespace LtMicros

open Lib

/-- `Vad`. -/
structure Vad where
  baseAddress : U32
  limitAddress : U32
  size : U32
  free : Bool
  previous : Option ℕ
  next : Option ℕ
deriving DecidableEq, Repr

/-- The vads and what they are mapped with: `heapTop` is the pointer that the
next `HeapAlloc(sizeof(Vad))` gives. -/
structure VadMem where
  vads : ℕ → Vad
  heapTop : ℕ
  mem : KernelMem

/-- `VAD_MINIMUM_DELTA`. -/
def vadMinimumDelta : U32 := 4096

/-- `_local_mod` of `Vad.cpp`. -/
def Vad.localMod (a b : U32) : ℕ := if 0 < subtractWhileAbove a b then 1 else 0

namespace VadMem

/-- The link that the list of vads is made of. -/
def next (s : VadMem) (v : ℕ) : Option ℕ := (s.vads v).next

/-- Stores to the fields of one vad. -/
def store (s : VadMem) (v : ℕ) (f : Vad → Vad) : VadMem :=
  { s with vads := Function.update s.vads v (f (s.vads v)) }

theorem store_of_ne (s : VadMem) {v w : ℕ} (h : w ≠ v) (f : Vad → Vad) :
    (s.store v f).vads w = s.vads w :=
  Function.update_of_ne h _ _

@[simp] theorem store_self (s : VadMem) (v : ℕ) (f : Vad → Vad) :
    (s.store v f).vads v = f (s.vads v) :=
  Function.update_self _ _ _

/-- `if (vad != nullptr) vad->previous = previous`. -/
def setPreviousIf (s : VadMem) (vad previous : Option ℕ) : VadMem :=
  match vad with
  | some v => s.store v fun vad => { vad with previous }
  | none => s

/-- `Vad::Create`. `HeapAlloc` gives a node or does not return. -/
def create (s : VadMem) (baseAddress size : U32) (free : Bool) :
    KeStatus × Option ℕ × VadMem :=
  if baseAddress = 0 then (.statusNullParameter, none, s)
  else if size = 0 then (.statusInvalidParameter, none, s)
  else
    let localVad : Vad :=
      { baseAddress, limitAddress := baseAddress + size, size, free, previous := none,
        next := none }
    (.statusSuccess, some s.heapTop,
      { s with vads := Function.update s.vads s.heapTop localVad, heapTop := s.heapTop + 1 })

/-- Whether `address` is in the vad. -/
def contains (s : VadMem) (address : U32) (v : ℕ) : Bool :=
  (s.vads v).baseAddress ≤ address ∧ address < (s.vads v).limitAddress

/-- Whether the vad is free and has the asked size. -/
def fits (s : VadMem) (size : U32) (v : ℕ) : Bool :=
  ¬ ((s.vads v).size < size ∨ (s.vads v).free = false)

/-- One turn of the loop of `LookForVadFromAddress`. -/
def lookForVadTurn (s : VadMem) (address : U32) : Option ℕ → Outcome (Option ℕ ⊕ Option ℕ)
  | none => .ret (.inr none)
  | some vad => if s.contains address vad then .ret (.inr (some vad)) else .ret (.inl (s.next vad))

/-- `Vad::LookForVadFromAddress`. -/
def lookForVadFromAddress (fuel : ℕ) (s : VadMem) (this : ℕ) (address : U32) :
    Outcome (KeStatus × Option ℕ) :=
  if address = 0 then .ret (.statusNullParameter, none)
  else do
    match ← Outcome.loop (s.lookForVadTurn address) fuel (some this) with
    | none => return (.statusNotFound, none)
    | some vad => return (.statusSuccess, some vad)

/-- One turn of the loop of `LookForFreeVadOfMinimumSize`. -/
def lookForFreeTurn (s : VadMem) (size : U32) : Option ℕ → Outcome (Option ℕ ⊕ Option ℕ)
  | none => .ret (.inr none)
  | some currentVad =>
    if s.fits size currentVad then .ret (.inr (some currentVad))
    else .ret (.inl (s.next currentVad))

/-- `Vad::LookForFreeVadOfMinimumSize`. -/
def lookForFreeVadOfMinimumSize (fuel : ℕ) (s : VadMem) (this : ℕ) (size : U32) :
    Outcome (KeStatus × Option ℕ) :=
  if size = 0 then .ret (.statusInvalidParameter, none)
  else do
    match ← Outcome.loop (s.lookForFreeTurn size) fuel (some this) with
    | none => return (.statusNotFound, none)
    | some freeVad => return (.statusSuccess, some freeVad)

/-- One turn of the loop of `LookForFreeVadAtAddressOfMinimumSize`. The vad that
is moved to ends the loop when it is free and large enough, whether or not the
address is in it. -/
def lookForFreeAtTurn (s : VadMem) (address size : U32) (currentVad : ℕ) :
    Outcome (ℕ ⊕ KeStatus × Option ℕ) :=
  if s.contains address currentVad then
    let innerSize := (s.vads currentVad).limitAddress - address
    if (s.vads currentVad).free = false ∨ innerSize < size then
      .ret (.inr (.statusNotFound, none))
    else .ret (.inr (.statusSuccess, some currentVad))
  else
    match s.next currentVad with
    | none => .ret (.inr (.statusNotFound, none))
    | some vad =>
      if s.fits size vad then .ret (.inr (.statusSuccess, some vad)) else .ret (.inl vad)

/-- `Vad::LookForFreeVadAtAddressOfMinimumSize`. -/
def lookForFreeVadAtAddressOfMinimumSize (fuel : ℕ) (s : VadMem) (this : ℕ)
    (address size : U32) : Outcome (KeStatus × Option ℕ) :=
  if address = 0 then .ret (.statusNullParameter, none)
  else if size = 0 then .ret (.statusInvalidParameter, none)
  else Outcome.loop (s.lookForFreeAtTurn address size) fuel this

/-- The bytes of the pages that a split leaves to the first vad. -/
def pagesOf (size : U32) : U32 :=
  BitVec.ofNat 32 ((size.toNat / pageSize + Vad.localMod size 4096) * pageSize)

/-- `Vad::Split`. The new vad takes no `next` from the vad that is split. -/
def split (s : VadMem) (this : ℕ) (size : U32) : KeStatus × VadMem :=
  if size = 0 then (.statusInvalidParameter, s)
  else if (s.vads this).size < size then (.statusInvalidParameter, s)
  else if (s.vads this).size - size < vadMinimumDelta then (.statusInvalidParameter, s)
  else
    match s.create ((s.vads this).baseAddress + pagesOf size) ((s.vads this).size - pagesOf size)
        true with
    | (.statusSuccess, some newVad, s) =>
      let s := s.store newVad fun vad => { vad with previous := some this }
      let s := s.setPreviousIf (s.next newVad) (some newVad)
      let s := s.store this fun vad =>
        { vad with limitAddress := vad.baseAddress + pagesOf size, size := pagesOf size,
                   next := some newVad }
      (.statusSuccess, s)
    | (status, _, s) => (status, s)

/-- The part of `Vad::SplitAtAddress` for an address inside the vad. -/
def splitInside (s : VadMem) (this : ℕ) (address size : U32) : KeStatus × VadMem :=
  let secondBlockSize := (s.vads this).limitAddress - address
  if secondBlockSize < size then (.statusFailure, s)
  else
    match s.create address secondBlockSize true with
    | (.statusSuccess, some newVad, s) =>
      let s := s.store newVad fun vad =>
        { vad with previous := some this, next := (s.vads this).next }
      let s := s.setPreviousIf (s.next newVad) (some newVad)
      let s := s.store this fun vad =>
        { vad with limitAddress := vad.limitAddress - secondBlockSize,
                   size := vad.size - secondBlockSize, next := some newVad }
      if vadMinimumDelta < (s.vads newVad).size - size then s.split newVad size
      else (.statusSuccess, s)
    | (status, _, s) => (status, s)

/-- `Vad::SplitAtAddress`. -/
def splitAtAddress (s : VadMem) (this : ℕ) (address size : U32) : KeStatus × VadMem :=
  if address = 0 then (.statusNullParameter, s)
  else if size = 0 then (.statusInvalidParameter, s)
  else if (s.vads this).size < size then (.statusInvalidParameter, s)
  else if (s.vads this).size - size < vadMinimumDelta then (.statusInvalidParameter, s)
  else if (s.vads this).baseAddress ≠ address then s.splitInside this address size
  else s.split this size

/-- One turn of the loop of `ReservePages`, at the address `vAddr`. -/
def reservePagesTurn (limitAddress : U32) (reservePhysicalPages : Bool) :
    U32 × KernelMem → Outcome (U32 × KernelMem ⊕ KeStatus × KernelMem)
  | (vAddr, k) =>
    if vAddr < limitAddress then
      if reservePhysicalPages then
        let (pAddr, gPmm) := k.gPmm.getFreePage
        let k := { k with gPmm }
        if pAddr = 0 then .ret (.inr (.statusPhysicalMemoryFull, k))
        else do
          let k ← k.addPageToPageDirectory vAddr pAddr
            (pagePresent ||| pageWriteable ||| pageNonPrivilegedAccess)
          return .inl (vAddr + 4096, k)
      else do
        let k ← k.addPageToPageDirectory vAddr 0 (pageWriteable ||| pageNonPrivilegedAccess)
        return .inl (vAddr + 4096, k)
    else .ret (.inr (.statusSuccess, k))

/-- `Vad::ReservePages`. Without a physical page it leaves the page directory of
the process the current one. -/
def reservePages (fuel : ℕ) (s : VadMem) (this : ℕ) (pageDirectory : U32)
    (reservePhysicalPages : Bool) : Outcome (KeStatus × VadMem) := do
  let currentPd := s.mem.mmu.getCurrentPageDirectory
  let k := { s.mem with mmu := s.mem.mmu.setCurrentPageDirectory pageDirectory }
  match ← Outcome.loop (reservePagesTurn (s.vads this).limitAddress reservePhysicalPages) fuel
      ((s.vads this).baseAddress, k) with
  | (.statusSuccess, k) =>
    let s := { s with mem := { k with mmu := k.mmu.setCurrentPageDirectory currentPd } }
    return (.statusSuccess, s.store this fun vad => { vad with free := false })
  | (status, k) => return (status, { s with mem := k })

/-- The end of `Allocate` and `AllocateAtAddress`: the vad is reserved and
becomes the result. -/
def reserveAndReturn (fuel : ℕ) (s : VadMem) (freeVad : ℕ) (pageDirectory : U32)
    (reservePhysicalPages : Bool) : Outcome (KeStatus × Option ℕ × VadMem) := do
  match ← s.reservePages fuel freeVad pageDirectory reservePhysicalPages with
  | (.statusSuccess, s) => return (.statusSuccess, some freeVad, s)
  | (status, s) => return (status, none, s)

/-- `Allocate` with the vad it has found. -/
def allocateFrom (fuel : ℕ) (s : VadMem) (freeVad : ℕ) (size pageDirectory : U32)
    (reservePhysicalPages : Bool) : Outcome (KeStatus × Option ℕ × VadMem) :=
  if vadMinimumDelta < (s.vads freeVad).size - size then
    let (status, s) := s.split freeVad size
    if failed status then .ret (status, none, s)
    else s.reserveAndReturn fuel freeVad pageDirectory reservePhysicalPages
  else s.reserveAndReturn fuel freeVad pageDirectory reservePhysicalPages

/-- `Vad::Allocate`. -/
def allocate (fuel : ℕ) (s : VadMem) (this : ℕ) (size pageDirectory : U32)
    (reservePhysicalPages : Bool) : Outcome (KeStatus × Option ℕ × VadMem) :=
  if size = 0 then .ret (.statusInvalidParameter, none, s)
  else do
    match ← s.lookForFreeVadOfMinimumSize fuel this size with
    | (.statusSuccess, some freeVad) =>
      s.allocateFrom fuel freeVad size pageDirectory reservePhysicalPages
    | (status, _) => return (status, none, s)

/-- `AllocateAtAddress` with the vad it has found. -/
def allocateAtAddressFrom (fuel : ℕ) (s : VadMem) (freeVad : ℕ)
    (address size pageDirectory : U32) (reservePhysicalPages : Bool) :
    Outcome (KeStatus × Option ℕ × VadMem) :=
  if (s.vads freeVad).baseAddress ≠ address ∨
      vadMinimumDelta < (s.vads freeVad).size - size then
    let (status, s) := s.splitAtAddress freeVad address size
    if failed status then .ret (status, none, s)
    else if (s.vads freeVad).baseAddress ≠ address then do
      let freeVad ← .ofOption (s.next freeVad)
      s.reserveAndReturn fuel freeVad pageDirectory reservePhysicalPages
    else s.reserveAndReturn fuel freeVad pageDirectory reservePhysicalPages
  else s.reserveAndReturn fuel freeVad pageDirectory reservePhysicalPages

/-- `Vad::AllocateAtAddress`. -/
def allocateAtAddress (fuel : ℕ) (s : VadMem) (this : ℕ) (address size pageDirectory : U32)
    (reservePhysicalPages : Bool) : Outcome (KeStatus × Option ℕ × VadMem) :=
  if address = 0 then .ret (.statusNullParameter, none, s)
  else if size = 0 then .ret (.statusInvalidParameter, none, s)
  else do
    match ← s.lookForFreeVadAtAddressOfMinimumSize fuel this address size with
    | (.statusSuccess, some freeVad) =>
      s.allocateAtAddressFrom fuel freeVad address size pageDirectory reservePhysicalPages
    | (status, _) => return (status, none, s)

end VadMem

end LtMicros
