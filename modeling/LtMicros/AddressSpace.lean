import LtMicros.PageTables
import LtMicros.PmmRuns
import LtMicros.Vad

/-!
# Address spaces

The page directories of the processes next to that of the kernel, the tables of
their user halves, and what `AddPageToPageDirectory` does to them, also when the
page pool or the physical memory is exhausted.
-/

namespace LtMicros

open Lib Lib.Frames

/-! ## Physical pages for tables -/

/-- The pages that are never given out: those of the kernel, and the last one,
which an exhausted `GetFreePage` seems to answer. -/
structure PmmBitmap.Reserved (p : PmmBitmap) : Prop where
  kernel : ∀ page < 2048, p.used page = true
  last : p.used 0xFFFFF = true

/-- The answer `pAddr` of `GetFreePage` in the bitmap `p`, which it leaves as `p'`. -/
structure PmmBitmap.Gives (p p' : PmmBitmap) (pAddr : U32) : Prop where
  mono : ∀ q, p.used q = true → p'.used q = true
  used : p'.used (pageOf (frameOf pAddr)) = true
  high : 0x800000 ≤ (frameOf pAddr).toNat
  apart : ∀ d, p.used (pageOf d) = true → pageOf d ≠ 0xFFFFF → d ≠ frameOf pAddr

namespace PmmBitmap

variable {p : PmmBitmap}

/-- Without a free page `GetFreePage` fails; otherwise it answers a free page. -/
theorem getFreePage_eq (p : PmmBitmap) :
    (p.freePages = ∅ ∧ p.getFreePage = (minusOne, p)) ∨
    ∃ f, IsFrame f ∧ p.getFreePage.1 = f ∧ p.used (pageOf f) = false ∧
      (∀ q, p.getFreePage.2.used q = (decide (q = pageOf f) || p.used q)) ∧
      p.getFreePage.2.freePages = p.freePages.erase (pageOf f) ∧ pageOf f ∈ p.freePages := by
  rcases p.getFreePage_cases with h | ⟨page, hpage, hget⟩
  · exact .inl h
  · right
    obtain ⟨hlt, hfree⟩ := Finset.mem_filter.mp hpage
    have hlt := Finset.mem_range.mp hlt
    refine ⟨BitVec.ofNat 32 (page * pageSize), ?_, ?_, ?_, ?_, ?_, ?_⟩
    · rw [IsFrame, toNat_pageAddr hlt]
      exact Nat.mul_mod_left _ _
    · rw [hget]
    · rw [pageOf_pageAddr hlt]
      exact hfree
    · intro q
      rw [hget, pageOf_pageAddr hlt]
      exact used_setPageUsed p page q
    · rw [hget, pageOf_pageAddr hlt]
      exact freePages_setPageUsed p page
    · rw [pageOf_pageAddr hlt]
      exact hpage

/-- Without a free page the answer is `(void *)(-1)`. -/
theorem getFreePage_of_empty (h : p.freePages = ∅) : p.getFreePage = (minusOne, p) := by
  rcases p.getFreePage_eq with ⟨-, hget⟩ | ⟨_, -, -, -, -, -, hmem⟩
  · exact hget
  · rw [h] at hmem
    exact absurd hmem (Finset.notMem_empty _)

theorem Reserved.gives (h : p.Reserved) : p.Gives p.getFreePage.2 p.getFreePage.1 := by
  rcases p.getFreePage_eq with ⟨-, hget⟩ | ⟨f, hf, hget, hfree, hused, -⟩
  · have hlast : pageOf (frameOf minusOne) = 0xFFFFF := by decide
    rw [hget]
    constructor
    · exact fun q hq => hq
    · rw [hlast]
      exact h.last
    · show 0x800000 ≤ (frameOf minusOne).toNat
      decide
    · intro d _ hne heq
      rw [heq] at hne
      exact hne hlast
  · rw [hget]
    constructor
    · intro q hq
      rw [hused, hq, Bool.or_true]
    · rw [hused, hf.frameOf_eq]
      simp
    · rw [hf.frameOf_eq]
      by_contra hlow
      have hkernel := h.kernel (pageOf f) (by unfold pageOf pageSize; omega)
      rw [hfree] at hkernel
      cases hkernel
    · intro d hd _ heq
      rw [heq, hf.frameOf_eq, hfree] at hd
      cases hd

theorem Reserved.mono {p' : PmmBitmap} (h : p.Reserved)
    (hmono : ∀ q, p.used q = true → p'.used q = true) : p'.Reserved :=
  ⟨fun page hpage => hmono _ (h.kernel page hpage), hmono _ h.last⟩

end PmmBitmap

/-! ## Blocks of the page pool -/

/-- The address of a page in the area of the page pool. -/
def InPool (a : U32) : Prop := IsFrame a ∧ 0x800000 ≤ a.toNat ∧ a.toNat < 0x1000000

theorem InPool.lt {a : U32} (h : InPool a) : a < vUserBaseAddr := by
  have hlt := h.2.2
  show a.toNat < 2 ^ 30
  omega

/-- The available blocks are pages of the area. -/
def PagePool.AvailInPool (p : PagePool) : Prop :=
  ∃ l, Chain p.next p.availPageList l ∧ ∀ b ∈ l, InPool (p.blocks b).addr

theorem PagePool.AvailInPool.head {p : PagePool} (h : p.AvailInPool) {b : ℕ}
    (hb : p.availPageList = some b) : InPool (p.blocks b).addr := by
  obtain ⟨l, hchain, hl⟩ := h
  obtain ⟨rest, rfl, -⟩ := hchain.chain_cons hb
  exact hl b List.mem_cons_self

theorem PagePool.AvailInPool.takeBlock {p : PagePool} (h : p.AvailInPool) {b : ℕ}
    (hb : p.availPageList = some b) : (p.takeBlock b).AvailInPool := by
  obtain ⟨l, hchain, hl⟩ := h
  obtain ⟨rest, rfl, hrest⟩ := hchain.chain_cons hb
  obtain ⟨harea, havail, -, hnext⟩ := p.takeBlock_spec b
  refine ⟨rest, ?_, ?_⟩
  · rw [havail, hnext]
    exact hrest.update_of_not_mem (List.nodup_cons.mp hchain.nodup).1 _
  · intro c hc
    rw [harea.addr]
    exact hl c (List.mem_cons_of_mem _ hc)

/-! ## What `AddPageToPageDirectory` does -/

/-- The same objects with other words in physical memory. -/
def KernelMem.withPhys (k : KernelMem) (phys : U32 → U32) : KernelMem :=
  { k with mmu := { k.mmu with phys } }

@[simp] theorem KernelMem.withPhys_phys (k : KernelMem) (phys : U32 → U32) :
    (k.withPhys phys).mmu.phys = phys := rfl

/-- The words after a page has become the table of `v`: `pt` is its address and
`w` the entry of `v`. -/
def newTable (phys : U32 → U32) (d v pt flags w : U32) : U32 → U32 :=
  set (fill (set phys d (dirIndex v)
    (setPageDirectoryEntry pt (pagePresent ||| pageWriteable ||| flags))) (frameOf pt) (fun _ => 0) 1024)
    (frameOf pt) (tableIndex v) w

theorem newTable_slot {phys : U32 → U32} {d v pt flags w g j : U32} (hd : IsFrame d)
    (hg : IsFrame g) (hj : j.toNat < 1024) :
    newTable phys d v pt flags w (slot g j) =
      if g = frameOf pt then if j = tableIndex v then w else 0
      else if g = d ∧ j = dirIndex v then
        setPageDirectoryEntry pt (pagePresent ||| pageWriteable ||| flags)
      else phys (slot g j) := by
  have hf := isFrame_frameOf pt
  rw [newTable, set_slot hf hg (tableIndex_lt v) hj, fill_slot hf hg hj,
    set_slot hd hg (dirIndex_lt v) hj]
  by_cases hgf : g = frameOf pt
  · by_cases hjv : j = tableIndex v
    · simp [hgf, hjv]
    · simp [hgf, hjv]
  · simp [hgf]

/-- The state after a physical page has been mapped at the kernel address `a`. -/
def KernelMem.mapKernelPage (k : KernelMem) (a : U32) : KernelMem :=
  { k with
    mmu := { k.mmu with
      phys := set k.mmu.phys (kernelTable (dirIndex a)) (tableIndex a)
        (kernelEntry k.gPmm.getFreePage.1) }
    gPmm := k.gPmm.getFreePage.2 }

/-- The state after `PageAlloc` with the block `b` of the pool. -/
def KernelMem.afterPageAlloc (k : KernelMem) (b : ℕ) : KernelMem :=
  { k.mapKernelPage (k.gPagePool.blocks b).addr with gPagePool := k.gPagePool.takeBlock b }

section AddPage

variable {k : KernelMem} {v p flags t : U32} {b : ℕ}

theorem pageAlloc_eq (h : Directory k.mmu.phys k.mmu.directory)
    (hb : k.gPagePool.availPageList = some b) (hin : InPool (k.gPagePool.blocks b).addr) :
    k.pageAlloc =
      .ret (⟨k.gPmm.getFreePage.1, (k.gPagePool.blocks b).addr⟩, k.afterPageAlloc b) := by
  have haddr := (PagePool.takeBlock_spec k.gPagePool b).1.addr b
  have hadd := Mmu.addPageToKernelPageDirectory_eq h hin.lt k.gPmm.getFreePage.1
    (pagePresent ||| pageWriteable)
  simp only [KernelMem.pageAlloc, hb, haddr, hadd, Outcome.ret_bind]
  rfl

/-- The directory survives `PageAlloc`. -/
theorem Directory.afterPageAlloc {d : U32} (h : Directory k.mmu.phys d)
    (hin : InPool (k.gPagePool.blocks b).addr) :
    Directory (k.afterPageAlloc b).mmu.phys d := by
  have hkernel := dirIndex_kernel hin.lt
  exact h.set_other (isFrame_kernelTable hkernel) (h.off.ne_kernelTable hkernel) (tableIndex_lt _)

/-- The page is mapped into a table that is there. -/
theorem addPageToPageDirectory_present (h : k.mmu.SelfMapped)
    (ht : TableOf k.mmu.phys k.mmu.directory v t) :
    k.addPageToPageDirectory v p flags =
      .ret (k.withPhys (set k.mmu.phys t (tableIndex v) (setPageTableEntry p flags))) := by
  rw [KernelMem.addPageToPageDirectory, Mmu.read_pdeOf_self h]
  have hpresent := ht.1
  simp only [Outcome.ret_bind, hpresent, if_true, Outcome.pure_eq]
  rw [Mmu.write_pteOf_self h ht]
  rfl

/-- Otherwise the page that `PageAlloc` answers becomes the table, and the page
behind its virtual address, at `g`, is cleared. -/
theorem addPageToPageDirectory_absent_at {k₁ : KernelMem} {page : Page} {g : U32}
    (h : Directory k.mmu.phys k.mmu.directory)
    (habsent : flagOn (k.mmu.phys (slot k.mmu.directory (dirIndex v))) pagePresent = false)
    (hlo : 256 ≤ (dirIndex v).toNat) (hhi : (dirIndex v).toNat < 1023)
    (halloc : k.pageAlloc = .ret (page, k₁)) (h₁ : Directory k₁.mmu.phys k₁.mmu.directory)
    (hframe : IsFrame page.vAddr) (hlt : page.vAddr < vUserBaseAddr)
    (hoff : OffKernel g) (hne : k₁.mmu.directory ≠ g)
    (hentry : PointsTo (k₁.mmu.phys
      (slot (kernelTable (dirIndex page.vAddr)) (tableIndex page.vAddr))) g) :
    k.addPageToPageDirectory v p flags = .ret (k₁.withPhys
      (set (fill (set k₁.mmu.phys k₁.mmu.directory (dirIndex v)
        (setPageDirectoryEntry page.pAddr (pagePresent ||| pageWriteable ||| flags))) g
        (fun _ => 0) 1024) (frameOf page.pAddr) (tableIndex v) (setPageTableEntry p flags))) := by
  have hg : IsFrame g := by
    rw [← hentry.2]
    exact isFrame_frameOf _
  have hkernel := dirIndex_kernel hlt
  rw [KernelMem.addPageToPageDirectory, Mmu.read_pdeOf h]
  simp only [Outcome.ret_bind, habsent, KernelMem.addPageTable, halloc, Bool.false_eq_true,
    if_false]
  rw [Mmu.write_pdeOf h₁]
  simp only [Outcome.ret_bind]
  generalize hw : setPageDirectoryEntry page.pAddr (pagePresent ||| pageWriteable ||| flags) = w
  have hwf : PointsTo w (frameOf page.pAddr) := by
    rw [← hw]
    constructor
    · rw [flagOn_setPageDirectoryEntry, flagOn_pagePresent]
      simp [pagePresent]
    · exact frameOf_setPageDirectoryEntry _ _
  -- the page is cleared through its address in the kernel half
  have h₂ : Directory (set k₁.mmu.phys k₁.mmu.directory (dirIndex v) w) k₁.mmu.directory :=
    h₁.set_user hlo hhi
  have hmaps : Mmu.MapsTo { k₁.mmu with phys := set k₁.mmu.phys k₁.mmu.directory (dirIndex v) w }
      page.vAddr g := by
    refine ⟨h₂, hlt, hframe, ?_, hne, hoff⟩
    dsimp only
    rw [set_of_frame_ne h₁.frame (isFrame_kernelTable hkernel) (dirIndex_lt v)
      (tableIndex_lt _) (h₁.off.ne_kernelTable hkernel).symm]
    exact hentry
  rw [hmaps.cleanPageTable]
  simp only [Outcome.ret_bind, Outcome.pure_eq]
  have h₃ : Directory (fill (set k₁.mmu.phys k₁.mmu.directory (dirIndex v) w) g (fun _ => 0) 1024)
      k₁.mmu.directory := h₂.fill_other hg hne _ (Nat.le_refl _)
  have ht : TableOf (fill (set k₁.mmu.phys k₁.mmu.directory (dirIndex v) w) g (fun _ => 0) 1024)
      k₁.mmu.directory v (frameOf page.pAddr) := by
    rw [TableOf, fill_slot hg h₁.frame (dirIndex_lt v), if_neg hne, set_self]
    exact hwf
  generalize fill (set k₁.mmu.phys k₁.mmu.directory (dirIndex v) w) g (fun _ => 0) 1024 = phys
    at h₃ ht
  have hwrite := Mmu.write_pteOf (m := { k₁.mmu with phys }) h₃ ht (setPageTableEntry p flags)
  rw [hwrite]
  rfl

/-- The page that is cleared is the table, whether it is one of the pool or, from
an empty pool, the page at address 0. -/
theorem addPageToPageDirectory_absent {k₁ : KernelMem} {page : Page}
    (h : Directory k.mmu.phys k.mmu.directory)
    (habsent : flagOn (k.mmu.phys (slot k.mmu.directory (dirIndex v))) pagePresent = false)
    (hlo : 256 ≤ (dirIndex v).toNat) (hhi : (dirIndex v).toNat < 1023)
    (halloc : k.pageAlloc = .ret (page, k₁)) (h₁ : Directory k₁.mmu.phys k₁.mmu.directory)
    (hframe : IsFrame page.vAddr) (hlt : page.vAddr < vUserBaseAddr)
    (hoff : OffKernel (frameOf page.pAddr)) (hne : k₁.mmu.directory ≠ frameOf page.pAddr)
    (hentry : PointsTo (k₁.mmu.phys
      (slot (kernelTable (dirIndex page.vAddr)) (tableIndex page.vAddr))) (frameOf page.pAddr)) :
    k.addPageToPageDirectory v p flags = .ret (k₁.withPhys (newTable k₁.mmu.phys
      k₁.mmu.directory v page.pAddr flags (setPageTableEntry p flags))) :=
  addPageToPageDirectory_absent_at h habsent hlo hhi halloc h₁ hframe hlt hoff hne hentry

end AddPage

end LtMicros
