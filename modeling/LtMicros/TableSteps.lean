import LtMicros.ProcessDirectory
import LtMicros.Process

/-!
# Steps of the page tables

Every operation that maps memory comes down to a sequence of these steps: a page
for the kernel heap, a page of the pool, a page or an absent page of a process,
a new page directory, and a change of the current one.
-/

namespace LtMicros

open Lib Lib.Frames

/-- `PAGE_PRESENT | PAGE_WRITEABLE | PAGE_NON_PRIVILEGED_ACCESS`, the flags of a
page of a process. -/
def presentFlags : U32 := pagePresent ||| pageWriteable ||| pageNonPrivilegedAccess

/-- `PAGE_WRITEABLE | PAGE_NON_PRIVILEGED_ACCESS`, the flags of a page that is
only reserved. -/
def absentFlags : U32 := pageWriteable ||| pageNonPrivilegedAccess

/-- The memory managers with the page directories of the processes. -/
structure Tables where
  k : KernelMem
  pds : List U32

inductive TableOp where
  | heapPage (a : U32)
  | poolPage
  | userPage (d v : U32)
  | absentPage (d v : U32)
  | nullPage
  | directory
  | switchTo (d : U32)

namespace KernelMem

/-- `gPmm.GetFreePage()` with its answer left out. -/
def takePage (k : KernelMem) : KernelMem := { k with gPmm := k.gPmm.getFreePage.2 }

/-- There is a physical page and a block of the pool left. -/
def NotExhausted (k : KernelMem) : Prop :=
  k.gPmm.freePages.Nonempty ∧ k.gPagePool.availPageList ≠ none

/-- What only becomes less when nothing is freed. -/
structure Consumes (k k' : KernelMem) : Prop where
  pages : k'.gPmm.freePages ⊆ k.gPmm.freePages
  blocks : k.gPagePool.availPageList = none → k'.gPagePool.availPageList = none

end KernelMem

/-- One step. -/
inductive TableStep : Tables → TableOp → Tables → Prop
  | heapPage {k : KernelMem} {pds : List U32} {a : U32} {mmu : Mmu} :
      kernelInfo.vHeapBase ≤ a → a < kernelInfo.vHeapLimit →
      k.mmu.addPageToKernelPageDirectory a k.gPmm.getFreePage.1 (pagePresent ||| pageWriteable) =
        .ret mmu →
      TableStep ⟨k, pds⟩ (.heapPage a) ⟨{ k.takePage with mmu }, pds⟩
  | poolPage {k k' : KernelMem} {pds : List U32} {page : Page} :
      k.pageAlloc = .ret (page, k') → TableStep ⟨k, pds⟩ .poolPage ⟨k', pds⟩
  | userPage {k k' : KernelMem} {pds : List U32} {v : U32} : k.mmu.cr3 ∈ pds → InUser v →
      k.takePage.addPageToPageDirectory v k.gPmm.getFreePage.1 presentFlags = .ret k' →
      TableStep ⟨k, pds⟩ (.userPage k.mmu.cr3 v) ⟨k', pds⟩
  | absentPage {k k' : KernelMem} {pds : List U32} {v : U32} : k.mmu.cr3 ∈ pds → InUser v →
      k.addPageToPageDirectory v 0 absentFlags = .ret k' →
      TableStep ⟨k, pds⟩ (.absentPage k.mmu.cr3 v) ⟨k', pds⟩
  | nullPage {k : KernelMem} {pds : List U32} : TableStep ⟨k, pds⟩ .nullPage ⟨k.takePage, pds⟩
  | directory {k k' : KernelMem} {pds : List U32} {f : U32} :
      k.createProcessPageDirectory = .ret (f, k') →
      TableStep ⟨k, pds⟩ .directory ⟨k', f :: pds⟩
  | switchTo {k : KernelMem} {pds : List U32} {d : U32} : d ∈ allDirectories pds →
      TableStep ⟨k, pds⟩ (.switchTo d)
        ⟨{ k with mmu := k.mmu.setCurrentPageDirectory d }, pds⟩

/-! ## Memory is only consumed -/

section Consumes

variable {k k' k'' : KernelMem} {page : Page} {v p flags f : U32} {t t' : Tables} {op : TableOp}

theorem KernelMem.Consumes.refl (k : KernelMem) : k.Consumes k := ⟨subset_rfl, fun h => h⟩

theorem KernelMem.Consumes.trans (h : k.Consumes k') (h' : k'.Consumes k'') : k.Consumes k'' :=
  ⟨h'.pages.trans h.pages, fun hb => h'.blocks (h.blocks hb)⟩

theorem KernelMem.Consumes.notExhausted (h : k.Consumes k') (hk : k'.NotExhausted) :
    k.NotExhausted :=
  ⟨hk.1.mono h.pages, fun hb => hk.2 (h.blocks hb)⟩

theorem PmmBitmap.freePages_getFreePage_subset (p : PmmBitmap) :
    p.getFreePage.2.freePages ⊆ p.freePages := by
  rcases p.getFreePage_eq with ⟨-, hget⟩ | ⟨f, -, -, -, -, herase, -⟩
  · rw [hget]
  · rw [herase]
    exact Finset.erase_subset _ _

theorem KernelMem.consumes_takePage (k : KernelMem) : k.Consumes k.takePage :=
  ⟨k.gPmm.freePages_getFreePage_subset, fun h => h⟩

theorem consumes_pageAlloc (hr : k.pageAlloc = .ret (page, k')) : k.Consumes k' := by
  cases hb : k.gPagePool.availPageList with
  | none =>
    simp only [KernelMem.pageAlloc, hb] at hr
    cases hr
    exact .refl _
  | some b =>
    simp only [KernelMem.pageAlloc, hb] at hr
    obtain ⟨mmu, -, hr⟩ := Outcome.bind_eq_ret.mp hr
    cases hr
    exact ⟨k.gPmm.freePages_getFreePage_subset, fun h => by rw [hb] at h; cases h⟩

theorem consumes_addPage (hr : k.addPageToPageDirectory v p flags = .ret k') : k.Consumes k' := by
  obtain ⟨pde, -, hr⟩ := Outcome.bind_eq_ret.mp hr
  dsimp only at hr
  split at hr
  · obtain ⟨_, hk, hr⟩ := Outcome.bind_eq_ret.mp hr
    cases hk
    obtain ⟨mmu, -, hr⟩ := Outcome.bind_eq_ret.mp hr
    cases hr
    exact ⟨subset_rfl, fun h => h⟩
  · obtain ⟨k₁, htable, hr⟩ := Outcome.bind_eq_ret.mp hr
    obtain ⟨mmu, -, hr⟩ := Outcome.bind_eq_ret.mp hr
    cases hr
    obtain ⟨⟨page, k₂⟩, halloc, htable⟩ := Outcome.bind_eq_ret.mp htable
    obtain ⟨mmu₁, -, htable⟩ := Outcome.bind_eq_ret.mp htable
    obtain ⟨mmu₂, -, htable⟩ := Outcome.bind_eq_ret.mp htable
    cases htable
    have hconsumes := consumes_pageAlloc halloc
    exact ⟨hconsumes.pages, hconsumes.blocks⟩

theorem consumes_createProcessPageDirectory
    (hr : k.createProcessPageDirectory = .ret (f, k')) : k.Consumes k' := by
  obtain ⟨⟨page, k₁⟩, halloc, hr⟩ := Outcome.bind_eq_ret.mp hr
  obtain ⟨mmu₁, -, hr⟩ := Outcome.bind_eq_ret.mp hr
  obtain ⟨mmu₂, -, hr⟩ := Outcome.bind_eq_ret.mp hr
  obtain ⟨mmu₃, -, hr⟩ := Outcome.bind_eq_ret.mp hr
  cases hr
  have hconsumes := consumes_pageAlloc halloc
  exact ⟨hconsumes.pages, hconsumes.blocks⟩

theorem TableStep.consumes (h : TableStep t op t') : t.k.Consumes t'.k := by
  cases h with
  | heapPage => exact ⟨(KernelMem.consumes_takePage _).pages, fun h => h⟩
  | poolPage hr => exact consumes_pageAlloc hr
  | userPage _ _ hr => exact (KernelMem.consumes_takePage _).trans (consumes_addPage hr)
  | absentPage _ _ hr => exact consumes_addPage hr
  | nullPage => exact KernelMem.consumes_takePage _
  | directory hr => exact consumes_createProcessPageDirectory hr
  | switchTo => exact ⟨subset_rfl, fun h => h⟩

end Consumes

/-! ## The invariant -/

section Spaces

variable {k k' : KernelMem} {pds : List U32} {v p flags f a : U32} {t t' : Tables} {op : TableOp}

theorem Spaces.mapKernelPage (h : Spaces k pds) (ha : 0x800000 ≤ a.toNat)
    (hlt : a < vUserBaseAddr) : Spaces (k.mapKernelPage a) pds :=
  h.setKernel ha hlt rfl rfl h.reserved.gives.mono h.pool

theorem Spaces.takePage (h : Spaces k pds) : Spaces k.takePage pds := by
  apply h.update
  · exact h.reserved.gives.mono
  · exact h.pool
  · exact h.current
  · exact fun _ _ _ _ => rfl
  · exact fun _ _ _ _ _ ht => .inl ht
  · exact fun _ _ => rfl

/-- A page of the heap is mapped. -/
theorem heapPage_eq (h : Spaces k pds) (hlo : kernelInfo.vHeapBase ≤ a)
    (hhi : a < kernelInfo.vHeapLimit) {mmu : Mmu}
    (hr : k.mmu.addPageToKernelPageDirectory a k.gPmm.getFreePage.1
      (pagePresent ||| pageWriteable) = .ret mmu) :
    { k.takePage with mmu } = k.mapKernelPage a ∧ 0x800000 ≤ a.toNat ∧ a < vUserBaseAddr := by
  have hlo : 0x1000000 ≤ a.toNat := hlo
  have hhi : a < vUserBaseAddr := hhi
  rw [Mmu.addPageToKernelPageDirectory_eq h.currentDirectory hhi] at hr
  cases hr
  exact ⟨rfl, by omega, hhi⟩

/-- Every step keeps the invariant; a directory is made while memory lasts. -/
theorem TableStep.spaces (h : TableStep t op t') (hs : Spaces t.k t.pds)
    (hmem : t'.k.NotExhausted) : Spaces t'.k t'.pds := by
  have hbefore := h.consumes.notExhausted hmem
  cases h with
  | heapPage hlo hhi hr =>
    obtain ⟨heq, ha, hlt⟩ := heapPage_eq hs hlo hhi hr
    dsimp only
    rw [heq]
    exact hs.mapKernelPage ha hlt
  | poolPage hr =>
    obtain ⟨_, _, hr', hs'⟩ := hs.pageAlloc
    cases hr.symm.trans hr'
    exact hs'
  | userPage hd hv hr =>
    obtain ⟨_, hr', hadds⟩ := hs.takePage.adds hv _ presentFlags
    cases hr.symm.trans hr'
    exact hs.takePage.of_adds hd hv hadds
  | absentPage hd hv hr =>
    obtain ⟨_, hr', hadds⟩ := hs.adds hv 0 absentFlags
    cases hr.symm.trans hr'
    exact hs.of_adds hd hv hadds
  | nullPage => exact hs.takePage
  | directory hr =>
    obtain ⟨b, hb⟩ := Option.ne_none_iff_exists'.mp hbefore.2
    obtain ⟨f, -, -, -, hr', hs'⟩ := hs.createProcessPageDirectory hb hbefore.1
    cases hr.symm.trans hr'
    exact hs'
  | switchTo hd => exact hs.switch hd

end Spaces

end LtMicros
