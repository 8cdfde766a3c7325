import LtMicros.HeapAllocate
import LtMicros.Lib.Blocks
import LtMicros.Lib.Traced

/-!
# The heap of a user program

The allocator of the user programs: blocks like those of the kernel heap, in regions
that `_sysSbrk` gives one behind the other. Only the blocks up to the first one of the
last region are searched, and blocks are never merged. A write to the null pointer
or behind the end of the user space is a fault. The calls of `_Sbrk` and the writes are
events. The kernel may refuse pages for reasons of its own: `grants` says whether it lets
the heap that ends at an address have so many more.
-/

namespace LtMicros

open Lib

/-- The memory of a program, `g_baseBlock` and `g_lastBlock` with 0 for the null
pointer, and the end of the memory that `_sysSbrk` has given. -/
structure UserHeap where
  mem : Bytes
  baseBlock : ℕ
  lastBlock : ℕ
  brk : ℕ

namespace UserHeap

/-- `InitMalloc`. -/
def initMalloc (h : UserHeap) : UserHeap := { h with baseBlock := 0, lastBlock := 0 }

/-- `_sysSbrk`: the region follows the one before it, as long as the user space goes on;
then the answer is the null pointer. -/
def sysSbrk (h : UserHeap) (n : ℕ) : Option ℕ × UserHeap :=
  if h.brk + n * pageSize ≤ vProcessLimitAddr.toNat then
    (some h.brk, { h with brk := h.brk + n * pageSize })
  else (none, h)

/-- `MemSet` with zeros. -/
def memSet (m : Bytes) (src size : ℕ) : Outcome Bytes :=
  if src + size ≤ vProcessLimitAddr.toNat then .ret (m.fill src 0 size) else .fault

/-- `_local_mod`, as in the kernel heap. -/
def localMod (a b : U32) : ℕ := Heap.localMod a b

/-- `ClosestPow`. -/
def closestPow (fuel x y : ℕ) : Outcome ℕ :=
  Outcome.loop (fun val =>
    if localMod (BitVec.ofNat 32 val) (BitVec.ofNat 32 y) ≠ 0 then .ret (.inl (add32 val 1))
    else .ret (.inr val)) fuel x

/-- `_SplitBlock`, as in the kernel heap. -/
def splitBlock (m : Bytes) (block size : ℕ) : Bytes := Heap.splitBlock m block size

/-- The pages that `_Allocate` asks of `_Sbrk`, as in the kernel heap. -/
def pagesNeeded (size : ℕ) : ℤ := Heap.pagesNeeded size

end UserHeap

/-- A call of `_Sbrk`, the pages or the null pointer that `_sysSbrk` answers, and a write of some
bytes. -/
inductive MallocEvent where
  | sbrk (n : ℤ)
  | granted (n : ℕ)
  | refused
  | write (address size : ℕ)

namespace MallocEvent

/-- The event is a write. -/
def IsWrite (e : MallocEvent) : Prop := ∃ a k, e = .write a k

/-- The event is a call of `_Sbrk`. -/
def isSbrk : MallocEvent → Bool
  | .sbrk _ => true
  | _ => false

/-- The pages that the heap has got. -/
def pages : MallocEvent → ℕ
  | .granted n => n
  | _ => 0

end MallocEvent

namespace Malloc

/-- `_sysSbrk`. It answers the null pointer when `Process::IncreaseHeap` fails. -/
def sysSbrk (grants : ℕ → ℕ → Bool) (h : UserHeap) (n : ℕ) : Option ℕ × UserHeap :=
  if grants h.brk n then h.sysSbrk n else (none, h)

/-- `MemSet` with zeros. -/
def memSet (m : Bytes) (src size : ℕ) : Traced MallocEvent Bytes := do
  Traced.note (.write src size)
  Traced.lift (UserHeap.memSet m src size)

/-- `_Sbrk`, with `none` for the null pointer. Without pages it stores at address 0. The product
`n * PAGE_SIZE` is stored in the 31 bits of the size. -/
def sbrk (grants : ℕ → ℕ → Bool) (h : UserHeap) (n : ℤ) :
    Traced MallocEvent (Option ℕ × UserHeap) := do
  Traced.note (.sbrk n)
  if n ≤ 0 then return (none, h)
  else
    match sysSbrk grants h n.toNat with
    | (none, _) => do
      Traced.note .refused
      -- `newBlock->size` is stored all the same
      Traced.note (.write 0 blockHeaderSize)
      Traced.lift .fault
    | (some newBlock, h) => do
      Traced.note (.granted n.toNat)
      Traced.note (.write newBlock blockHeaderSize)
      let mem := setBlockSize h.mem newBlock (n.toNat * pageSize)
      let mem := setBlockState mem newBlock blockFree
      let mem ← memSet mem (newBlock + blockHeaderSize)
        (sub32 (blockSize mem newBlock) blockHeaderSize)
      return (some newBlock, { h with mem, lastBlock := newBlock })

/-- `_SplitBlock`. -/
def splitBlock (m : Bytes) (block size : ℕ) : Traced MallocEvent Bytes := do
  Traced.note (.write (add32 block size) blockHeaderSize)
  Traced.note (.write block blockHeaderSize)
  return UserHeap.splitBlock m block size

/-- One turn of the loop of `_Allocate`: the state is the block looked at, the
result the block found, if any, after the split. -/
def allocateTurn (h : UserHeap) (size block : ℕ) :
    Traced MallocEvent (ℕ ⊕ Option ℕ × UserHeap) :=
  if block ≤ h.lastBlock then
    if blockState h.mem block = blockUsed ∨ blockSize h.mem block < size then
      return .inl (add32 block (blockSize h.mem block))
    else if blockHeaderSize + minimalBlockSize ≤ sub32 (blockSize h.mem block) size then do
      let mem ← splitBlock h.mem block size
      return .inr (some block, { h with mem })
    else return .inr (some block, h)
  else return .inr (none, h)

/-- `block->state = BLOCK_USED`. -/
def setUsed (h : UserHeap) (block : ℕ) : Traced MallocEvent UserHeap := do
  Traced.note (.write block blockHeaderSize)
  return { h with mem := setBlockState h.mem block blockUsed }

/-- `_Allocate`; `depth` bounds the recursion after `_Sbrk` and `fuel` the loop. -/
def allocateFrom (grants : ℕ → ℕ → Bool) (fuel : ℕ) :
    ℕ → UserHeap → ℕ → ℕ → Traced MallocEvent (ℕ × UserHeap)
  | 0, _, _, _ => Traced.lift .hang
  | depth + 1, h, block, size => do
    match ← Traced.loop (allocateTurn h size) fuel block with
    | (some block, h) => do
      let h ← setUsed h block
      return (block + blockHeaderSize, h)
    | (none, h) => do
      let (block, h) ← sbrk grants h (UserHeap.pagesNeeded size)
      let block ← Traced.lift (.ofOption block)
      let (resPtr, h) ← allocateFrom grants fuel depth h block size
      let h ← setUsed h block
      return (resPtr, h)

/-- The first region, which `HeapAlloc` asks for when there is none. -/
def firstRegion (grants : ℕ → ℕ → Bool) (h : UserHeap) : Traced MallocEvent UserHeap :=
  if h.baseBlock = 0 then do
    let (baseBlock, h) ← sbrk grants h 1
    let baseBlock ← Traced.lift (.ofOption baseBlock)
    Traced.note (.write baseBlock blockHeaderSize)
    let mem := setBlockSize h.mem baseBlock pageSize
    let mem := setBlockState mem baseBlock blockFree
    return { h with mem, baseBlock, lastBlock := baseBlock }
  else return h

/-- `HeapAlloc`, with `none` for the null pointer. -/
def heapAlloc (grants : ℕ → ℕ → Bool) (fuel : ℕ) (h : UserHeap) (size : ℤ) :
    Traced MallocEvent (Option ℕ × UserHeap) :=
  if size ≤ 0 then return (none, h)
  else do
    let h ← firstRegion grants h
    let blockSize ← Traced.lift (UserHeap.closestPow fuel (size.toNat + blockHeaderSize) 4)
    let (res, h) ← allocateFrom grants fuel fuel h h.baseBlock blockSize
    return (some res, h)

/-- `_Sbrk` behind the answer of `_sysSbrk`, where it clears the new block. -/
theorem clear_eq {α : Type} (e₁ e₂ e₃ : MallocEvent) (m : Bytes) (src k : ℕ) (f : Bytes → α) :
    (do Traced.note e₁
        Traced.note e₂
        Traced.note e₃
        let mem ← memSet m src k
        return f mem : Traced MallocEvent α) =
      ⟨[e₁, e₂, e₃, .write src k], UserHeap.memSet m src k >>= fun mem => .ret (f mem)⟩ := by
  unfold UserHeap.memSet memSet
  unfold UserHeap.memSet
  split
  · rfl
  · rfl

end Malloc

namespace UserHeap

/-! ## Without the events, where the kernel refuses nothing -/

/-- `_Sbrk`. -/
def sbrk (h : UserHeap) (n : ℤ) : Outcome (Option ℕ × UserHeap) :=
  (Malloc.sbrk (fun _ _ => true) h n).outcome

/-- One turn of the loop of `_Allocate`. -/
def allocateTurn (h : UserHeap) (size block : ℕ) : Outcome (ℕ ⊕ Option ℕ × UserHeap) :=
  (Malloc.allocateTurn h size block).outcome

/-- `_Allocate`. -/
def allocateFrom (fuel depth : ℕ) (h : UserHeap) (block size : ℕ) : Outcome (ℕ × UserHeap) :=
  (Malloc.allocateFrom (fun _ _ => true) fuel depth h block size).outcome

/-- The first region. -/
def firstRegion (h : UserHeap) : Outcome UserHeap :=
  (Malloc.firstRegion (fun _ _ => true) h).outcome

/-- `HeapAlloc`. -/
def heapAlloc (fuel : ℕ) (h : UserHeap) (size : ℤ) : Outcome (Option ℕ × UserHeap) :=
  (Malloc.heapAlloc (fun _ _ => true) fuel h size).outcome

theorem sbrk_def (h : UserHeap) (n : ℤ) : h.sbrk n =
    if n ≤ 0 then .ret (none, h)
    else
      match h.sysSbrk n.toNat with
      | (none, _) => .fault
      | (some newBlock, h) => do
        let mem := setBlockSize h.mem newBlock (n.toNat * pageSize)
        let mem := setBlockState mem newBlock blockFree
        let mem ← memSet mem (newBlock + blockHeaderSize)
          (sub32 (blockSize mem newBlock) blockHeaderSize)
        return (some newBlock, { h with mem, lastBlock := newBlock }) := by
  rw [sbrk, Malloc.sbrk]
  by_cases hn : n ≤ 0
  · rw [if_pos hn, if_pos hn]
    rfl
  · rw [if_neg hn, if_neg hn, Malloc.sysSbrk, if_pos rfl]
    rcases h.sysSbrk n.toNat with ⟨_ | newBlock, h'⟩
    · rfl
    · dsimp only
      generalize setBlockState (setBlockSize h'.mem newBlock (n.toNat * pageSize)) newBlock
        blockFree = m
      generalize sub32 (blockSize m newBlock) blockHeaderSize = k
      have hclear := Malloc.clear_eq (.sbrk n) (.granted n.toNat) (.write newBlock blockHeaderSize) m
        (newBlock + blockHeaderSize) k
        (fun mem => ((some newBlock, { h' with mem, lastBlock := newBlock }) :
          Option ℕ × UserHeap))
      exact congrArg Traced.outcome hclear

theorem allocateTurn_def (h : UserHeap) (size block : ℕ) : h.allocateTurn size block =
    if block ≤ h.lastBlock then
      if blockState h.mem block = blockUsed ∨ blockSize h.mem block < size then
        .ret (.inl (add32 block (blockSize h.mem block)))
      else if blockHeaderSize + minimalBlockSize ≤ sub32 (blockSize h.mem block) size then
        .ret (.inr (some block, { h with mem := splitBlock h.mem block size }))
      else .ret (.inr (some block, h))
    else .ret (.inr (none, h)) := by
  rw [allocateTurn, Malloc.allocateTurn]
  split_ifs <;> rfl

theorem allocateFrom_succ (fuel depth : ℕ) (h : UserHeap) (block size : ℕ) :
    allocateFrom fuel (depth + 1) h block size = do
      match ← Outcome.loop (h.allocateTurn size) fuel block with
      | (some block, h) =>
        return (block + blockHeaderSize, { h with mem := setBlockState h.mem block blockUsed })
      | (none, h) => do
        let (block, h) ← h.sbrk (pagesNeeded size)
        let block ← .ofOption block
        let (resPtr, h) ← allocateFrom fuel depth h block size
        return (resPtr, { h with mem := setBlockState h.mem block blockUsed }) := by
  rw [allocateFrom, Malloc.allocateFrom, Traced.bind_outcome, Traced.loop_outcome]
  apply congrArg (_ >>= ·)
  funext r
  rcases r with ⟨_ | b, h'⟩
  · simp only [Traced.bind_outcome]
    rfl
  · rfl

theorem firstRegion_def (h : UserHeap) : h.firstRegion =
    if h.baseBlock = 0 then do
      let (baseBlock, h) ← h.sbrk 1
      let baseBlock ← .ofOption baseBlock
      let mem := setBlockSize h.mem baseBlock pageSize
      let mem := setBlockState mem baseBlock blockFree
      return { h with mem, baseBlock, lastBlock := baseBlock }
    else .ret h := by
  rw [firstRegion, Malloc.firstRegion]
  split_ifs
  · simp only [Traced.bind_outcome]
    rfl
  · rfl

theorem heapAlloc_def (fuel : ℕ) (h : UserHeap) (size : ℤ) : h.heapAlloc fuel size =
    if size ≤ 0 then .ret (none, h)
    else do
      let h ← h.firstRegion
      let blockSize ← closestPow fuel (size.toNat + blockHeaderSize) 4
      let (res, h) ← allocateFrom fuel fuel h h.baseBlock blockSize
      return (some res, h) := by
  rw [heapAlloc, Malloc.heapAlloc]
  split_ifs
  · rfl
  · simp only [Traced.bind_outcome]
    rfl

/-- `HeapFree`. -/
def heapFree (h : UserHeap) (ptr : ℕ) : Outcome UserHeap :=
  if ptr = 0 then .ret h
  else
    let block := sub32 ptr blockHeaderSize
    if blockState h.mem block = blockFree then .ret h
    else do
      let mem := setBlockState h.mem block blockFree
      let mem ← memSet mem (block + blockHeaderSize) (sub32 (blockSize mem block) blockHeaderSize)
      return { h with mem }

/-! ## `ClosestPow` -/

theorem localMod_four {val : ℕ} (hpos : 0 < val) (hlt : val < 2 ^ 32) :
    localMod (BitVec.ofNat 32 val) (BitVec.ofNat 32 4) = if val % 4 = 0 then 0 else 1 := by
  have hval : (BitVec.ofNat 32 val).toNat = val := Nat.mod_eq_of_lt hlt
  have heq := Heap.localMod_eq (a := BitVec.ofNat 32 val) (b := BitVec.ofNat 32 4)
    (by rw [BitVec.lt_def, hval]; exact hpos) (by decide)
  rw [hval] at heq
  exact heq

/-- `ClosestPow` of a positive number is the next multiple of 4. -/
theorem closestPow_eq {x : ℕ} (hx : 0 < x) (hmax : x + 4 < 2 ^ 32) (fuel : ℕ) :
    closestPow (fuel + 4) x 4 = .ret (roundUp 4 x) := by
  have hround := roundUp_lt (by decide : 0 < 4) x
  have hleast := isLeast_roundUp (by decide : 0 < 4) x
  have hturn : ∀ val, x ≤ val ∧ val ≤ roundUp 4 x →
      (val = roundUp 4 x ∧ localMod (BitVec.ofNat 32 val) (BitVec.ofNat 32 4) = 0) ∨
      (val < roundUp 4 x ∧ localMod (BitVec.ofNat 32 val) (BitVec.ofNat 32 4) ≠ 0) := by
    rintro val ⟨hle, hge⟩
    rw [localMod_four (show 0 < val by omega) (show val < 2 ^ 32 by omega)]
    by_cases hmod : val % 4 = 0
    · left
      exact ⟨Nat.le_antisymm hge (hleast.2 ⟨Nat.dvd_of_mod_eq_zero hmod, hle⟩), if_pos hmod⟩
    · right
      refine ⟨Nat.lt_of_le_of_ne hge fun heq => hmod ?_, by simp [hmod]⟩
      exact Nat.mod_eq_zero_of_dvd (heq ▸ hleast.1.1)
  have hloop : ∃ v, closestPow (fuel + 4) x 4 = .ret v ∧ v = roundUp 4 x := by
    refine Outcome.loop_terminates (I := fun val => x ≤ val ∧ val ≤ roundUp 4 x)
      (fun val => roundUp 4 x - val) ?_ ⟨Nat.le_refl x, le_roundUp (by decide) x⟩ (by omega)
    intro val hval
    rcases hturn val hval with ⟨heq, hzero⟩ | ⟨hlt, hone⟩
    · left
      exact ⟨val, by simp only [hzero, ne_eq, not_true_eq_false, if_false], heq⟩
    · right
      refine ⟨val + 1, ?_, ⟨by omega, by omega⟩, by omega⟩
      simp only [if_pos hone, add32_of_lt (show val + 1 < 2 ^ 32 by omega)]
  obtain ⟨v, hv, rfl⟩ := hloop
  exact hv

theorem closestPow_ret {x v fuel : ℕ} (hx : 0 < x) (hmax : x + 4 < 2 ^ 32)
    (h : closestPow fuel x 4 = .ret v) : v = roundUp 4 x :=
  Outcome.loop_unique h (closestPow_eq hx hmax 0)

end UserHeap

end LtMicros
