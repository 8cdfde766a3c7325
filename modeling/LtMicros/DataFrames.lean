import LtMicros.PageStores

/-!
# Frames with data

Words that change in frames with data only leave the page tables, the owners of the frames and
the pages that are held as they are. A page of the pool that is held has such a frame of its own,
in which the processor reads and writes its bytes.
-/

namespace LtMicros

open Lib Lib.Frames

/-- Other words are in frames with data, and nowhere else. -/
structure Overwrites (k k' : KernelMem) (pds : List U32) : Prop where
  gPmm : k'.gPmm = k.gPmm
  pool : k'.gPagePool = k.gPagePool
  words : ∀ g, IsFrame g → ¬DataFrame k pds g → ∀ j : U32, j.toNat < 1024 →
    k'.mmu.phys (slot g j) = k.mmu.phys (slot g j)

section Overwrites

variable {k k' : KernelMem} {pds : List U32} {heap : U32 → Prop} {d g j u : U32} {page : Page}

theorem Overwrites.low (h : Overwrites k k' pds) (hg : IsFrame g) (hlow : g.toNat < 0x800000)
    (hj : j.toNat < 1024) : k'.mmu.phys (slot g j) = k.mmu.phys (slot g j) := by
  apply h.words g hg _ j hj
  intro hdata
  have hhigh := hdata.high
  omega

theorem Overwrites.kernelPte (h : Overwrites k k' pds) (ha : u < vUserBaseAddr) :
    k'.mmu.phys (kernelPte u) = k.mmu.phys (kernelPte u) := by
  have hindex := dirIndex_kernel ha
  rw [kernelPte_eq]
  apply h.low (isFrame_kernelTable hindex) _ (tableIndex_lt u)
  rw [toNat_kernelTable hindex]
  omega

theorem Overwrites.directory (h : Overwrites k k' pds) (hs : Spaces k pds)
    (hd : d ∈ allDirectories pds) (hj : j.toNat < 1024) :
    k'.mmu.phys (slot d j) = k.mmu.phys (slot d j) := by
  apply h.words d (hs.directories d hd).frame _ j hj
  exact fun hdata => hdata.notDirectory hd

/-- So every process has the tables that it had. -/
theorem Overwrites.sameUser (h : Overwrites k k' pds) (hs : Spaces k pds) (hd : d ∈ pds) :
    SameUser k.mmu.phys k'.mmu.phys d := by
  constructor
  · exact fun j hj => h.directory hs (List.mem_cons_of_mem _ hd) hj
  · intro i hi t ht j hj
    apply h.words t ht.frame _ j hj
    exact fun hdata => hdata.notTable d hd i hi t ht rfl

theorem Overwrites.spaces (h : Overwrites k k' pds) (hs : Spaces k pds)
    (hcur : k'.mmu.cr3 ∈ allDirectories pds) : Spaces k' pds := by
  apply hs.update
  · rw [h.gPmm]
    exact fun _ hq => hq
  · rw [h.pool]
    exact hs.pool
  · exact hcur
  · exact fun g hg i hi => h.directory hs hg (lt_of_shared hi)
  · intro g hg i hi t ht
    rw [h.directory hs (List.mem_cons_of_mem _ hg) (Nat.lt_succ_of_lt hi.2)] at ht
    exact .inl ht
  · exact fun i hi => h.low (isFrame_kernelTable (by decide)) (by decide) (by omega)

/-- What is mapped is mapped as before. -/
theorem Overwrites.maps (h : Overwrites k k' pds) (hs : Spaces k pds) {kernel : U32 → Prop}
    (hkernel : ∀ a, kernel a → InKernel a) {e : PageEntry} {f : U32}
    (he : Maps k'.mmu.phys pds kernel e f) : Maps k.mmu.phys pds kernel e f := by
  cases e with
  | kernel a =>
    obtain ⟨ha, hpoints⟩ := he
    rw [h.kernelPte (hkernel a ha).2] at hpoints
    exact ⟨ha, hpoints⟩
  | user d' i j =>
    obtain ⟨hd', hi, hj, t, ht, hpoints⟩ := he
    have hsame := h.sameUser hs hd'
    rw [hsame.directory i (Nat.lt_succ_of_lt hi.2)] at ht
    rw [hsame.tables i hi t ht j hj] at hpoints
    exact ⟨hd', hi, hj, t, ht, hpoints⟩

theorem Overwrites.owned (h : Overwrites k k' pds) (ho : Owned ⟨k, pds⟩ heap)
    (hcur : k'.mmu.cr3 ∈ allDirectories pds) : Owned ⟨k', pds⟩ heap := by
  have hs := ho.separate.spaces
  constructor
  · refine ⟨h.spaces hs hcur, ?_⟩
    apply ho.separate.unshared.congr
    exact fun g hg i hi => (h.sameUser hs hg).directory i (Nat.lt_succ_of_lt hi.2)
  · show k'.gPagePool.InOrder
    rw [h.pool]
    exact ho.pool
  · exact ho.area
  · have hkernel : ∀ a, k'.KernelPage heap a → k.KernelPage heap a := by
      unfold KernelMem.KernelPage
      rw [h.pool]
      exact fun _ ha => ha
    apply ho.exclusive.mono
    · unfold KernelMem.Uses
      rw [h.gPmm]
      exact fun _ hf => hf
    · intro e f he
      have hbefore := h.maps hs (fun a ha =>
        inKernel_of_kernelPage ho.pool ho.area (hkernel a ha)) he
      cases e with
      | kernel a => exact ⟨hkernel a hbefore.1, hbefore.2⟩
      | user => exact hbefore

theorem Overwrites.dataFrame (h : Overwrites k k' pds) (hs : Spaces k pds)
    (hg : DataFrame k pds g) : DataFrame k' pds g := by
  refine ⟨?_, hg.high, hg.notDirectory, ?_⟩
  · rw [h.gPmm]
    exact hg.used
  · intro d' hd' i hi t ht
    rw [(h.sameUser hs hd').directory i (Nat.lt_succ_of_lt hi.2)] at ht
    exact hg.notTable d' hd' i hi t ht

theorem Overwrites.stores (h : Overwrites k k' pds) (hs : Spaces k pds) (hst : Stores ⟨k, pds⟩) :
    Stores ⟨k', pds⟩ := by
  constructor
  · intro d' hd' i hi g hg
    rw [(h.sameUser hs hd').directory i (Nat.lt_succ_of_lt hi.2)] at hg
    exact hst.tables d' hd' i hi g hg
  · intro d' hd' u hu f hf
    rw [(h.sameUser hs hd').pageAt hu] at hf
    exact h.dataFrame hs (hst.data d' hd' u hu f hf)

theorem Overwrites.heldPage (h : Overwrites k k' pds) (ho : Owned ⟨k, pds⟩ heap)
    (hpage : HeldPage ⟨k, pds⟩ page) : HeldPage ⟨k', pds⟩ page := by
  constructor
  · show k'.gPagePool.InUse _
    rw [h.pool]
    exact hpage.inUse
  · show PointsTo (k'.mmu.phys _) _
    rw [h.kernelPte (ho.pool.inUse hpage.inUse).lt]
    exact hpage.entry
  · exact hpage.high
  · exact hpage.notDirectory
  · intro d' hd' i hi ht
    have hsame := (h.sameUser ho.separate.spaces hd').directory i (Nat.lt_succ_of_lt hi.2)
    change PointsTo (k'.mmu.phys _) _ at ht
    rw [hsame] at ht
    exact hpage.notTable d' hd' i hi ht

end Overwrites

/-! ## The bytes of a page of the pool -/

section Held

variable {k k' : KernelMem} {pds pds' : List U32} {heap heap' : U32 → Prop} {v : U32} {c : U8}
  {page page' : Page}

theorem HeldPage.dataFrame (h : HeldPage ⟨k, pds⟩ page) (ho : Owned ⟨k, pds⟩ heap) :
    DataFrame k pds page.pAddr := by
  have hframe := h.entry.frame
  have hhigh : 0x800000 ≤ page.pAddr.toNat := by
    have hpage := h.high.1
    unfold pageOf pageSize at hpage
    omega
  constructor
  · exact ho.exclusive.used (.kernel page.vAddr) page.pAddr ⟨.inl h.inUse, h.entry⟩
  · exact hhigh
  · intro hd
    rcases List.mem_cons.mp hd with heq | hd
    · rw [heq] at hhigh
      exact absurd hhigh (by decide)
    · exact h.notDirectory hd
  · rintro d hd i hi _ ht rfl
    exact h.notTable d hd i hi ht

/-- `Allocate` writes the tables of the kernel only. -/
theorem pageAlloc_words (hs : Spaces k pds) (hr : k.pageAlloc = .ret (page, k')) {g j : U32}
    (hg : IsFrame g) (hoff : OffKernel g) (hj : j.toNat < 1024) :
    k'.mmu.phys (slot g j) = k.mmu.phys (slot g j) := by
  cases hi : k.gPagePool.availPageList with
  | none =>
    rw [pageAlloc_none hi] at hr
    cases hr
    rfl
  | some i =>
    have hin := hs.pool.head hi
    rw [pageAlloc_eq hs.currentDirectory hi hin] at hr
    cases hr
    exact set_kernel_slot hin.lt hg hoff hj

/-- Two pages that are held have two frames. -/
theorem HeldPage.pAddr_ne (h : HeldPage ⟨k, pds⟩ page) (h' : HeldPage ⟨k, pds⟩ page')
    (ho : Owned ⟨k, pds⟩ heap) (hne : page.vAddr ≠ page'.vAddr) : page.pAddr ≠ page'.pAddr := by
  intro heq
  have hentry := h'.entry
  rw [← heq] at hentry
  have hsame := ho.exclusive.unique (.kernel page.vAddr) (.kernel page'.vAddr) page.pAddr
    ⟨.inl h.inUse, h.entry⟩ ⟨.inl h'.inUse, hentry⟩
  exact hne (PageEntry.kernel.inj hsame)

/-- An address has the table entry of its page. -/
theorem kernelPte_frameOf (v : U32) : kernelPte (frameOf v) = kernelPte v := by
  have hshift : frameOf v >>> 12 = v >>> 12 := by
    apply BitVec.eq_of_toNat_eq
    rw [BitVec.toNat_ushiftRight, BitVec.toNat_ushiftRight, toNat_frameOf,
      Nat.shiftRight_eq_div_pow, Nat.shiftRight_eq_div_pow]
    omega
  rw [kernelPte, kernelPte, hshift]

/-- The walk of the processor comes to the frame of the page. -/
theorem HeldPage.translate (h : HeldPage ⟨k, pds⟩ page) (ho : Owned ⟨k, pds⟩ heap)
    (hv : frameOf v = page.vAddr) : k.mmu.translate v = some (page.pAddr + (v &&& 0xFFF#32)) := by
  have hs := ho.separate.spaces
  have hin := ho.pool.inUse h.inUse
  have hlow : v < vUserBaseAddr := by
    have hlt := hin.2.2
    have hnat := congrArg BitVec.toNat hv
    rw [toNat_frameOf] at hnat
    show v.toNat < 0x40000000
    omega
  have hdir := hs.directories _ hs.current
  have hentry := h.entry
  rw [← hv, kernelPte_frameOf, kernelPte_eq] at hentry
  have hin : k.mmu.translateIn k.mmu.cr3 v = some (page.pAddr + (v &&& 0xFFF#32)) :=
    (translateIn_eq_some hdir.frame).mpr ⟨_, ⟨_, entryIn_table (hdir.kernel hlow), hentry⟩, rfl⟩
  exact hin

theorem HeldPage.readByte (h : HeldPage ⟨k, pds⟩ page) (ho : Owned ⟨k, pds⟩ heap)
    (hv : frameOf v = page.vAddr) :
    k.mmu.readByte v = .ret (getByte k.mmu.phys (page.pAddr + (v &&& 0xFFF#32))) := by
  rw [Mmu.readByte, h.translate ho hv]
  rfl

/-- A page that is held before and after reads alike when the words of its frame are the same. -/
theorem HeldPage.readByte_eq (h : HeldPage ⟨k, pds⟩ page) (ho : Owned ⟨k, pds⟩ heap)
    (h' : HeldPage ⟨k', pds'⟩ page) (ho' : Owned ⟨k', pds'⟩ heap')
    (hwords : ∀ j : U32, j.toNat < 1024 →
      k'.mmu.phys (slot page.pAddr j) = k.mmu.phys (slot page.pAddr j))
    (hv : frameOf v = page.vAddr) : k'.mmu.readByte v = k.mmu.readByte v := by
  rw [h.readByte ho hv, h'.readByte ho' hv, getByte_page h.entry.frame hwords]

theorem HeldPage.writeByte (h : HeldPage ⟨k, pds⟩ page) (ho : Owned ⟨k, pds⟩ heap)
    (hv : frameOf v = page.vAddr) (c : U8) : k.mmu.writeByte v c = .ret { k.mmu with
      phys := setByte k.mmu.phys (page.pAddr + (v &&& 0xFFF#32)) c } := by
  rw [Mmu.writeByte, h.translate ho hv]
  rfl

/-- Writing a byte of a page changes words of its frame only. -/
theorem HeldPage.setByte_words (h : HeldPage ⟨k, pds⟩ page) {g j : U32} (hg : IsFrame g)
    (hne : g ≠ page.pAddr) (hj : j.toNat < 1024) :
    setByte k.mmu.phys (page.pAddr + (v &&& 0xFFF#32)) c (slot g j) = k.mmu.phys (slot g j) := by
  apply setByte_slot hg hj
  rw [frameOf_add h.entry.frame]
  · exact hne
  · rw [toNat_and_offset]
    exact Nat.mod_lt _ (by decide)

theorem HeldPage.overwrites (h : HeldPage ⟨k, pds⟩ page) (ho : Owned ⟨k, pds⟩ heap) :
    Overwrites k { k with mmu := { k.mmu with
      phys := setByte k.mmu.phys (page.pAddr + (v &&& 0xFFF#32)) c } } pds := by
  refine ⟨rfl, rfl, fun g hg hnot j hj => ?_⟩
  apply h.setByte_words hg _ hj
  rintro rfl
  exact hnot (h.dataFrame ho)

/-- Another byte of a page that is held is as it was, and this one is the new one. -/
theorem HeldPage.readByte_writeByte (h : HeldPage ⟨k, pds⟩ page) (h' : HeldPage ⟨k, pds⟩ page')
    (ho : Owned ⟨k, pds⟩ heap) {u : U32} {mmu : Mmu} (hu : frameOf u = page'.vAddr)
    (hv : frameOf v = page.vAddr) (hr : k.mmu.writeByte v c = .ret mmu) :
    mmu.readByte u = if u = v then .ret c else k.mmu.readByte u := by
  have hover : Overwrites k _ pds := h.overwrites (v := v) (c := c) ho
  rw [h.writeByte ho hv] at hr
  cases hr
  have ho' := hover.owned ho ho.separate.spaces.current
  rw [h'.readByte ho hu]
  refine ((hover.heldPage ho h').readByte ho' hu).trans ?_
  split
  · rename_i huv
    subst huv
    have hpage : page' = page := by
      by_contra hne
      have hsame : page'.vAddr = page.vAddr := hu.symm.trans hv
      have hentry := h'.entry
      rw [hsame] at hentry
      have hframe := hentry.unique h.entry
      exact hne (by cases page; cases page'; cases hsame; cases hframe; rfl)
    rw [hpage, getByte_setByte]
  · rename_i hne
    rw [getByte_setByte_of_ne]
    intro heq
    obtain ⟨hframe, hoffset⟩ := add_offset_inj h'.entry.frame h.entry.frame heq
    by_cases hpage : page'.vAddr = page.vAddr
    · apply hne
      rw [← frameOf_add_offset u, ← frameOf_add_offset v, hu, hv, hpage]
      congr 1
      apply BitVec.eq_of_toNat_eq
      rw [toNat_and_offset, toNat_and_offset, hoffset]
    · exact h'.pAddr_ne h ho hpage hframe

/-- What the processes have done to their tables leaves the bytes of the page as they were. -/
theorem HeldPage.lasting {t t' : Tables} {tops : List TableOp} (h : HeldPage t page)
    (hrun : Run LastingStep t tops t') (ho : Owned t heap)
    (hframes : ∀ a, .heapPage a ∈ tops → IsFrame a) (hv : frameOf v = page.vAddr) :
    t'.k.mmu.readByte v = t.k.mmu.readByte v := by
  induction hrun with
  | nil => rfl
  | @snoc t₁ t₂ tops top hrun hstep ih =>
    have hbefore (a : U32) (ha : .heapPage a ∈ tops) : IsFrame a :=
      hframes a (List.mem_append_left _ ha)
    obtain ⟨ho₁, hheld₁⟩ := lasting_owned hrun ho hbefore
    obtain ⟨ho₂, hheld₂⟩ := lasting_owned (hrun.snoc hstep) ho hframes
    have hdata := (hheld₁ page h).dataFrame ho₁
    have hframe := h.entry.frame
    refine Eq.trans ?_ (ih hbefore)
    apply (hheld₁ page h).readByte_eq ho₁ (hheld₂ page h) ho₂ _ hv
    intro j hj
    exact (hstep.words ho₁.separate).1 page.pAddr (hdata.untouched hframe) j hj

end Held

end LtMicros
