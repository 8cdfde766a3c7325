import LtMicros.Pmm
import LtMicros.Vmm
import LtMicros.Lib.Chain

/-!
# The page pool

`PagePool` keeps the blocks of its area in two lists through the same nodes: the
available ones and the used ones. The nodes are the elements of the array that
`_InitPagesList` allocates, and a pointer to a node is its index.
-/

namespace LtMicros

open Lib

/-- `Page`: a physical and a virtual address. -/
structure Page where
  pAddr : U32
  vAddr : U32
deriving DecidableEq, Repr

/-- `PagePool::PageBlock`. -/
structure PageBlock where
  available : Bool
  addr : U32
  next : Option ℕ
  prev : Option ℕ
deriving DecidableEq, Repr

/-- `gPagePool`. -/
structure PagePool where
  blocks : ℕ → PageBlock
  availPageList : Option ℕ
  usedPageList : Option ℕ
  base : U32
  limit : U32

/-- `gPagePool` before `Init`: it has no constructor, so all its words are zero. -/
def PagePool.bss : PagePool where
  blocks := fun _ => ⟨false, 0, none, none⟩
  availPageList := none
  usedPageList := none
  base := 0
  limit := 0

/-- The objects the memory managers share: the processor's tables, `gPmm` and
`gPagePool`. -/
structure KernelMem where
  mmu : Mmu
  gPmm : PmmBitmap
  gPagePool : PagePool

namespace PagePool

/-- The link that both lists are made of. -/
def next (p : PagePool) (i : ℕ) : Option ℕ := (p.blocks i).next

/-- `_availPageList = v`. -/
def setAvail (p : PagePool) (v : Option ℕ) : PagePool := { p with availPageList := v }

/-- `_usedPageList = v`. -/
def setUsed (p : PagePool) (v : Option ℕ) : PagePool := { p with usedPageList := v }

/-- `block->prev = prev`. -/
def setPrev (p : PagePool) (block : ℕ) (prev : Option ℕ) : PagePool :=
  { p with blocks := Function.update p.blocks block { p.blocks block with prev } }

/-- `if (block != nullptr) block->prev = prev`. -/
def setPrevIf (p : PagePool) (block prev : Option ℕ) : PagePool :=
  match block with
  | some b => p.setPrev b prev
  | none => p

/-- `block->available = available; block->next = next`. -/
def relink (p : PagePool) (block : ℕ) (available : Bool) (next : Option ℕ) : PagePool :=
  { p with blocks := Function.update p.blocks block { p.blocks block with available, next } }

/-- One turn of the loop of `_InitPagesList`. -/
def initBlock (base : U32) (st : (ℕ → PageBlock) × Option ℕ) (index : ℕ) :
    (ℕ → PageBlock) × Option ℕ :=
  let blocks := Function.update st.1 index
    { available := true, addr := base + BitVec.ofNat 32 (index * pageSize), next := none,
      prev := st.2 }
  match st.2 with
  | none => (blocks, some index)
  | some prev =>
    (Function.update blocks prev { blocks prev with next := some index }, some index)

/-- The number of pages in the area of the pool. -/
def nbPages (p : PagePool) : ℕ := (p.limit - p.base).toNat / pageSize

/-- `PagePool::_InitPagesList`. `HeapAlloc(0)` answers a null pointer. -/
def initPagesList (p : PagePool) : Outcome PagePool :=
  if p.nbPages = 0 then .panic
  else .ret { p with
    blocks := ((List.range p.nbPages).foldl (initBlock p.base) (p.blocks, none)).1
    availPageList := some 0 }

/-- `PagePool::Init`. -/
def init (p : PagePool) (info : KernelInfo) : Outcome PagePool :=
  initPagesList { p with base := info.vPagePoolBase, limit := info.vPagePoolLimit }

/-- The list part of `PagePool::Allocate`: the head of the available list
becomes the head of the used one. -/
def takeBlock (p : PagePool) (newPage : ℕ) : PagePool :=
  let p := p.setAvail (p.next newPage)
  let p := p.setPrevIf p.availPageList none
  let headUsedPage := p.usedPageList
  let p := (p.setUsed (some newPage)).relink newPage false headUsedPage
  p.setPrevIf headUsedPage (some newPage)

/-- The used list after `PagePool::Free` has unlinked the block it found. In the
middle of the list it is `usedPage->prev`, not `usedPage->prev->next`, that takes
the value of `usedPage->next`. -/
def unlinkUsed (p : PagePool) (usedPage : ℕ) : PagePool :=
  if some usedPage = p.usedPageList then p.setUsed (p.next usedPage)
  else
    let p := p.setPrev usedPage (p.next usedPage)
    p.setPrevIf (p.next usedPage) (p.blocks usedPage).prev

/-- The list part of `PagePool::Free` for the block that was found. The store
through `_availPageList` has no null check. -/
def returnBlock (p : PagePool) (usedPage : ℕ) : Outcome PagePool := do
  let p := p.unlinkUsed usedPage
  let head ← .ofOption p.availPageList
  let p := p.setPrev head (some usedPage)
  return (p.relink usedPage true (some head)).setAvail (some usedPage)

end PagePool

namespace KernelMem

/-- `PagePool::Allocate`, which is `PageAlloc`. -/
def pageAlloc (k : KernelMem) : Outcome (Page × KernelMem) :=
  match k.gPagePool.availPageList with
  | none => .ret (⟨0, 0⟩, k)
  | some newPage => do
    let pool := k.gPagePool.takeBlock newPage
    let (pAddr, gPmm) := k.gPmm.getFreePage
    let addr := (pool.blocks newPage).addr
    let mmu ← k.mmu.addPageToKernelPageDirectory addr pAddr (pagePresent ||| pageWriteable)
    return (⟨pAddr, addr⟩, { mmu, gPmm, gPagePool := pool })

/-- One turn of the loop of `PagePool::Free`. -/
def pageFreeTurn (k : KernelMem) (page : Page) : Option ℕ → Outcome (Option ℕ ⊕ KernelMem)
  | none => .ret (.inr k)
  | some usedPage =>
    if (k.gPagePool.blocks usedPage).addr = page.vAddr then do
      let pool ← k.gPagePool.returnBlock usedPage
      return .inr { k with gPagePool := pool, gPmm := k.gPmm.releasePage page.pAddr }
    else .ret (.inl (k.gPagePool.next usedPage))

/-- `PagePool::Free`, which is `PageFree`, within `fuel` turns of its loop. -/
def pageFree (fuel : ℕ) (k : KernelMem) (page : Page) : Outcome KernelMem :=
  Outcome.loop (k.pageFreeTurn page) fuel k.gPagePool.usedPageList

/-- The branch of `Vmm::AddPageToPageDirectory` for an absent page table: a page
of the pool becomes the table. -/
def addPageTable (k : KernelMem) (vAddr flags : U32) : Outcome KernelMem := do
  let (newPage, k) ← k.pageAlloc
  let mmu ← k.mmu.write (pdeOf vAddr)
    (setPageDirectoryEntry newPage.pAddr (pagePresent ||| pageWriteable ||| flags))
  let mmu ← mmu.cleanPageTable newPage.vAddr
  return { k with mmu }

/-- `Vmm::AddPageToPageDirectory`, which works on the current page directory. -/
def addPageToPageDirectory (k : KernelMem) (vAddr pAddr flags : U32) : Outcome KernelMem := do
  let pde ← k.mmu.read (pdeOf vAddr)
  let k ← if flagOn pde pagePresent then pure k else k.addPageTable vAddr flags
  let mmu ← k.mmu.write (pteOf vAddr) (setPageTableEntry pAddr flags)
  return { k with mmu }

/-- With all tables there, a page is added without a new table, and only the
tables change. -/
theorem addPageToPageDirectory_allPresent {k : KernelMem} (h : k.mmu.AllPresent)
    (vAddr pAddr flags : U32) (hf : flagOn flags pagePresent = true) :
    ∃ mmu, k.addPageToPageDirectory vAddr pAddr flags = .ret { k with mmu } ∧
      k.mmu.write (pteOf vAddr) (setPageTableEntry pAddr flags) = .ret mmu ∧ mmu.AllPresent := by
  obtain ⟨pde, hpde, hp⟩ := h.read (pdeOf vAddr)
  obtain ⟨mmu, hmmu, hall⟩ := h.write (pteOf vAddr)
    (w := setPageTableEntry pAddr flags) (by rw [flagOn_setPageTableEntry, hf])
  exact ⟨mmu, by simp [addPageToPageDirectory, hpde, hp, hmmu], hmmu, hall⟩

end KernelMem

end LtMicros
