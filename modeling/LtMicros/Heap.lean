import LtMicros.Lib.Bytes
import LtMicros.Pmm
import LtMicros.Vmm

/-!
# The kernel heap

The blocks of the heap lie one after the other in memory, each with a header of
four bytes: 31 bits of size and one bit of state. Addresses are natural numbers,
and pointer arithmetic is that of 32-bit words. The bytes of the heap are kept
apart from the page tables, which `Sbrk` changes as well.
-/

namespace LtMicros

open Lib

/-- `BLOCK_HEADER_SIZE`. -/
abbrev blockHeaderSize : ℕ := 4

/-- `DEFAULT_BLOCK_SIZE`. -/
abbrev defaultBlockSize : ℕ := pageSize - blockHeaderSize

/-- `MINIMAL_BLOCK_SIZE`. -/
abbrev minimalBlockSize : ℕ := 4

/-- `BLOCK_FREE` and `BLOCK_USED`. -/
abbrev blockFree : ℕ := 0
abbrev blockUsed : ℕ := 1

/-- The heap and what it shares with the memory managers. -/
structure Heap where
  mem : Bytes
  baseBlock : ℕ
  lastBlock : ℕ
  mmu : Mmu
  gPmm : PmmBitmap

/-! ## Block headers -/

/-- `block->size`. -/
def blockSize (m : Bytes) (block : ℕ) : ℕ := m.load32 block % 2 ^ 31

/-- `block->state`. -/
def blockState (m : Bytes) (block : ℕ) : ℕ := m.load32 block / 2 ^ 31

/-- `block->size = size`. -/
def setBlockSize (m : Bytes) (block size : ℕ) : Bytes :=
  m.store32 block (size % 2 ^ 31 + 2 ^ 31 * blockState m block)

/-- `block->state = state`. -/
def setBlockState (m : Bytes) (block state : ℕ) : Bytes :=
  m.store32 block (blockSize m block + 2 ^ 31 * (state % 2))

section Header

variable {m m' : Bytes} {block b size state x : ℕ}

theorem blockSize_lt (m : Bytes) (block : ℕ) : blockSize m block < 2 ^ 31 :=
  Nat.mod_lt _ (by decide)

theorem blockState_lt (m : Bytes) (block : ℕ) : blockState m block < 2 := by
  have := m.load32_lt block
  unfold blockState
  omega

@[simp] theorem blockSize_setBlockSize : blockSize (setBlockSize m block size) block =
    size % 2 ^ 31 := by
  have := blockState_lt m block
  rw [blockSize, setBlockSize, Bytes.load32_store32]
  omega

@[simp] theorem blockState_setBlockSize : blockState (setBlockSize m block size) block =
    blockState m block := by
  have := blockState_lt m block
  rw [blockState, setBlockSize, Bytes.load32_store32]
  omega

@[simp] theorem blockSize_setBlockState : blockSize (setBlockState m block state) block =
    blockSize m block := by
  have := blockSize_lt m block
  rw [blockSize, setBlockState, Bytes.load32_store32]
  omega

@[simp] theorem blockState_setBlockState : blockState (setBlockState m block state) block =
    state % 2 := by
  have := blockSize_lt m block
  rw [blockState, setBlockState, Bytes.load32_store32]
  omega

theorem setBlockSize_of_not_mem (h : x < block ∨ block + 4 ≤ x) :
    setBlockSize m block size x = m x :=
  Bytes.store32_of_not_mem h

theorem setBlockState_of_not_mem (h : x < block ∨ block + 4 ≤ x) :
    setBlockState m block state x = m x :=
  Bytes.store32_of_not_mem h

/-- A header depends on its four bytes only. -/
theorem header_congr (h : ∀ x, b ≤ x → x < b + 4 → m x = m' x) :
    blockSize m b = blockSize m' b ∧ blockState m b = blockState m' b := by
  rw [blockSize, blockSize, blockState, blockState, Bytes.load32_congr h]
  exact ⟨rfl, rfl⟩

end Header

namespace Heap

/-! ## `Free` -/

/-- One turn of the loop of `_MergeBlocksFrom`. The last two arguments of
`MemSet` are the byte and the size, so no byte is set. -/
def mergeTurn (block : ℕ) (h : Heap) : Outcome (Heap ⊕ Heap) :=
  if block < h.lastBlock then
    let nextBlock := add32 block (blockSize h.mem block)
    if blockSize h.mem nextBlock = 0 then .ret (.inr h)
    else if blockState h.mem nextBlock ≠ blockFree then .ret (.inr h)
    else
      let mem := setBlockSize h.mem block (blockSize h.mem block + blockSize h.mem nextBlock)
      let mem := mem.fill nextBlock (BitVec.ofNat 8 blockHeaderSize) 0
      .ret (.inl { h with
        mem, lastBlock := if nextBlock = h.lastBlock then block else h.lastBlock })
  else .ret (.inr h)

/-- `Heap::_MergeBlocksFrom`. -/
def mergeBlocksFrom (fuel : ℕ) (h : Heap) (block : ℕ) : Outcome Heap :=
  if block = 0 then .ret h else Outcome.loop (mergeTurn block) fuel h

/-- `Heap::Free`. -/
def free (fuel : ℕ) (h : Heap) (ptr : ℕ) : Outcome Heap :=
  if ptr = 0 then .ret h
  else
    let block := sub32 ptr blockHeaderSize
    if blockState h.mem block = blockFree then .ret h
    else
      let mem := setBlockState h.mem block blockFree
      let mem := mem.fill (block + blockHeaderSize) 0
        (sub32 (blockSize mem block) blockHeaderSize)
      mergeBlocksFrom fuel { h with mem } block

/-! ## `Allocate` -/

/-- `_local_mod` of `Heap.cpp`. -/
def localMod (a b : U32) : ℕ := if subtractWhileAbove a b < b then 1 else 0

/-- The loop of `Sbrk`: `n` pages are mapped from `heap` on. -/
def sbrkPages (h : Heap) (heap : ℕ) : ℕ → Outcome (Heap × ℕ)
  | 0 => .ret (h, heap)
  | n + 1 =>
    let (newPage, gPmm) := h.gPmm.getFreePage
    if newPage = 0 then .panic
    else do
      let mmu ← h.mmu.addPageToKernelPageDirectory (BitVec.ofNat 32 heap) newPage
        (pagePresent ||| pageWriteable)
      sbrkPages { h with mmu, gPmm } (add32 heap pageSize) n

/-- `Heap::Sbrk`, with `none` for the null pointer. The product `n * PAGE_SIZE`
is that of 32-bit words. -/
def sbrk (h : Heap) (n : ℤ) : Outcome (Option ℕ × Heap) :=
  if n ≤ 0 then .ret (none, h)
  else
    let bytes := n.toNat * pageSize % 2 ^ 32
    if kernelInfo.vHeapLimit.toNat < add32 h.lastBlock bytes then .panic
    else do
      let newBlock := h.lastBlock
      let (h, heap) ← h.sbrkPages h.lastBlock n.toNat
      let mem := setBlockSize h.mem newBlock bytes
      let mem := setBlockState mem newBlock blockFree
      let mem := mem.fill (newBlock + blockHeaderSize) 0
        (sub32 (blockSize mem newBlock) blockHeaderSize)
      return (some newBlock, { h with mem, lastBlock := heap })

/-- `Heap::_SplitBlock`, for a block that is not null and a size above zero. -/
def splitBlock (m : Bytes) (block size : ℕ) : Bytes :=
  let secondBlock := add32 block size
  let m := setBlockSize m secondBlock (sub32 (blockSize m block) size)
  let m := setBlockState m secondBlock blockFree
  setBlockSize m block size

/-- One turn of the loop of `_Allocate`: the state is the block looked at, the
result the block found, if any, after the split. -/
def allocateTurn (h : Heap) (size block : ℕ) : Outcome (ℕ ⊕ Option ℕ × Heap) :=
  if block < h.lastBlock then
    if blockState h.mem block = blockUsed ∨ blockSize h.mem block < size then
      .ret (.inl (add32 block (blockSize h.mem block)))
    else if blockHeaderSize + minimalBlockSize ≤ sub32 (blockSize h.mem block) size then
      .ret (.inr (some block, { h with mem := splitBlock h.mem block size }))
    else .ret (.inr (some block, h))
  else .ret (.inr (none, h))

/-- The pages that `_Allocate` asks of `Sbrk`. -/
def pagesNeeded (size : ℕ) : ℤ :=
  if defaultBlockSize < size then
    size / defaultBlockSize +
      (if 0 < localMod (BitVec.ofNat 32 size) (BitVec.ofNat 32 defaultBlockSize) then 1 else 0)
  else 1

/-- `Heap::_Allocate`; `depth` bounds the recursion after `Sbrk` and `fuel` the
loop. -/
def allocateFrom (fuel : ℕ) : ℕ → Heap → Option ℕ → ℕ → Outcome (Option ℕ × Heap)
  | 0, _, _, _ => .hang
  | depth + 1, h, block, size =>
    match block with
    | none => .ret (none, h)
    | some start =>
      if size = 0 then .ret (none, h)
      else do
        match ← Outcome.loop (h.allocateTurn size) fuel start with
        | (some block, h) =>
          return (some (block + blockHeaderSize),
            { h with mem := setBlockState h.mem block blockUsed })
        | (none, h) => do
          let (block, h) ← h.sbrk (pagesNeeded size)
          let (resPtr, h) ← allocateFrom fuel depth h block size
          let block ← .ofOption block
          return (resPtr, { h with mem := setBlockState h.mem block blockUsed })

/-- `Heap::Allocate`. The result of `ClosestPow` is not used. -/
def allocate (fuel : ℕ) (h : Heap) (size : ℤ) : Outcome (Option ℕ × Heap) :=
  if size ≤ 0 then .ret (none, h)
  else allocateFrom fuel fuel h (some h.baseBlock) (size.toNat + blockHeaderSize)

end Heap

end LtMicros
