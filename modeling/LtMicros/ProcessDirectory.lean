import LtMicros.VmmInit

/-!
# The page directory of a new process

`CreateProcessPageDirectory` copies the kernel half of the kernel's directory
into a page of the pool, marks the other entries as absent, and lets the last
one point to the new directory.
-/

namespace LtMicros

open Lib Lib.Frames

/-- An entry of the user half of a new page directory. -/
def absentEntry : U32 := setPageDirectoryEntry 0 (pageWriteable ||| pageNonPrivilegedAccess)

/-- The last entry of the page directory `pAddr`. -/
def selfEntry (pAddr : U32) : U32 := setPageDirectoryEntry pAddr (pagePresent ||| pageWriteable)

namespace KernelMem

/-- `Process::CreateProcessPageDirectory`, less the list in which it keeps the
page of the pool. -/
def createProcessPageDirectory (k : KernelMem) : Outcome (U32 × KernelMem) := do
  let (pdPage, k) ← k.pageAlloc
  let mmu ← (List.range' 0 nbPagesTablePerKernelDirectory).foldlM (fun m i => do
    let entry ← m.read (kernelInfo.pPageDirectory + BitVec.ofNat 32 (4 * i))
    m.write (pdPage.vAddr + BitVec.ofNat 32 (4 * i)) entry) k.mmu
  let mmu ← (List.range' nbPagesTablePerKernelDirectory
    (nbPagesTablePerDirectory - nbPagesTablePerKernelDirectory)).foldlM (fun m i =>
      m.write (pdPage.vAddr + BitVec.ofNat 32 (4 * i)) absentEntry) mmu
  let mmu ← mmu.write (pdPage.vAddr + BitVec.ofNat 32 (4 * 1023)) (selfEntry pdPage.pAddr)
  return (pdPage.pAddr, { k with mmu })

end KernelMem

/-- The entries of a new page directory before the last one is set. -/
def newEntries (i : U32) : U32 := if i.toNat < 256 then kernelPde i else absentEntry

/-- The words after the page `f` has become a page directory. -/
def newDirectory (phys : U32 → U32) (f : U32) : U32 → U32 :=
  set (fill phys f newEntries 1024) f 1023 (selfEntry f)

theorem not_present_absentEntry : flagOn absentEntry pagePresent = false := by decide

theorem pointsTo_selfEntry {f : U32} (hf : IsFrame f) : PointsTo (selfEntry f) f := by
  constructor
  · rw [selfEntry, flagOn_setPageDirectoryEntry]
    decide
  · have hframe := frameOf_setPageDirectoryEntry f (pagePresent ||| pageWriteable)
    rwa [hf.frameOf_eq] at hframe

theorem newDirectory_slot {phys : U32 → U32} {f g j : U32} (hf : IsFrame f) (hg : IsFrame g)
    (hj : j.toNat < 1024) :
    newDirectory phys f (slot g j) =
      if g = f then if j = 1023 then selfEntry f else newEntries j else phys (slot g j) := by
  rw [newDirectory, set_slot hf hg (by decide) hj, fill_slot hf hg hj]
  by_cases hgf : g = f
  · simp only [hgf, true_and, if_true]
  · simp [hgf]

section Create

variable {k : KernelMem} {pds : List U32} {b : ℕ} {f : U32}

/-- The three loops fill the page that was allocated. -/
theorem fill_directory {m : Mmu} {v f : U32} (hmaps : Mmu.MapsTo m v f)
    (hkernel : Directory m.phys kernelInfo.pPageDirectory) (hne : kernelInfo.pPageDirectory ≠ f)
    (hone : PointsTo (m.phys (slot (kernelTable 0) 1)) 0x1000) :
    (do
      let mmu ← (List.range' 0 nbPagesTablePerKernelDirectory).foldlM (fun m i => do
        let entry ← m.read (kernelInfo.pPageDirectory + BitVec.ofNat 32 (4 * i))
        m.write (v + BitVec.ofNat 32 (4 * i)) entry) m
      let mmu ← (List.range' nbPagesTablePerKernelDirectory
        (nbPagesTablePerDirectory - nbPagesTablePerKernelDirectory)).foldlM (fun m i =>
          m.write (v + BitVec.ofNat 32 (4 * i)) absentEntry) mmu
      mmu.write (v + BitVec.ofNat 32 (4 * 1023)) (selfEntry f) : Outcome Mmu) =
      .ret { m with phys := newDirectory m.phys f } := by
  have hf := hmaps.isFrame
  have hcopy := Mmu.foldlM_fill (m := m) (f := f) (x := newEntries) (a := 0) (n := 256)
    (g := fun m i => do
      let entry ← m.read (kernelInfo.pPageDirectory + BitVec.ofNat 32 (4 * i))
      m.write (v + BitVec.ofNat 32 (4 * i)) entry) (by
    intro i _ hi
    have hindex : (BitVec.ofNat 32 i).toNat = i := toNat_index (by omega)
    have hfilled := hmaps.fill (x := newEntries) (n := i) (by omega)
    -- the kernel's directory is read through the identity mapping
    have htr := Mmu.translate_page (v := 0x1000) hfilled.directory (by decide) (by decide)
      (f := 0x1000) (i := BitVec.ofNat 32 i) (by omega) (by
        have hk : IsFrame (kernelTable 0) := isFrame_kernelTable (by decide)
        show PointsTo (fill _ _ _ _ (slot (kernelTable 0) 1)) _
        rw [fill_of_frame_ne hf hk (by decide) _ _ (by omega)
          (hmaps.off.ne_kernelTable (by decide)).symm]
        exact hone)
    have hread : Mmu.read { m with phys := fill m.phys f newEntries i }
        (kernelInfo.pPageDirectory + BitVec.ofNat 32 (4 * i)) =
        .ret (newEntries (BitVec.ofNat 32 i)) := by
      rw [Mmu.add_four_mul _ (by omega), Mmu.read]
      have hpd : kernelInfo.pPageDirectory = 0x1000 := rfl
      rw [hpd, htr]
      simp only [Outcome.ofOption_some, Outcome.ret_bind, Outcome.pure_eq, newEntries]
      rw [← hpd, fill_of_frame_ne hf hkernel.frame (by omega) _ _ (by omega) hne,
        hkernel.tables _ (by omega), if_pos (by omega)]
    rw [hread, Outcome.ret_bind]
    exact hmaps.fill_write (by omega))
  have habsent := Mmu.foldlM_fill (m := m) (f := f) (x := newEntries) (a := 256) (n := 768)
    (g := fun m i => m.write (v + BitVec.ofNat 32 (4 * i)) absentEntry) (by
    intro i hi hlt
    have hindex : (BitVec.ofNat 32 i).toNat = i := toNat_index (by omega)
    have hword : newEntries (BitVec.ofNat 32 i) = absentEntry := by
      rw [newEntries, if_neg (by omega)]
    have hwrite := hmaps.fill_write (x := newEntries) (n := i) (by omega)
    rwa [hword] at hwrite)
  have hlast := (hmaps.fill (x := newEntries) (Nat.le_refl 1024)).write (i := 1023) (by decide)
    (selfEntry f)
  rw [fill_zero, Nat.zero_add] at hcopy
  rw [Mmu.add_four_mul v (by decide)]
  refine (congrArg (· >>= _) hcopy).trans ?_
  rw [Outcome.ret_bind]
  refine (congrArg (· >>= _) habsent).trans ?_
  rw [Outcome.ret_bind]
  exact hlast

/-- With a block in the pool and a free page, a page directory is created. -/
theorem Spaces.createProcessPageDirectory (h : Spaces k pds)
    (hb : k.gPagePool.availPageList = some b) (hfree : k.gPmm.freePages.Nonempty) :
    ∃ f, k.gPmm.getFreePage.1 = f ∧ IsFrame f ∧ k.gPmm.used (pageOf f) = false ∧
      k.createProcessPageDirectory = .ret (f, (k.afterPageAlloc b).withPhys
        (newDirectory (k.afterPageAlloc b).mmu.phys f)) ∧
      Spaces ((k.afterPageAlloc b).withPhys (newDirectory (k.afterPageAlloc b).mmu.phys f))
        (f :: pds) := by
  rcases k.gPmm.getFreePage_eq with ⟨hempty, -⟩ | ⟨f, hf, hget, hunused, -, -, hmem⟩
  · rw [hempty] at hfree
    exact absurd hfree Finset.not_nonempty_empty
  have hin := h.pool.head hb
  have hafter := h.afterPageAlloc hb
  have htable := h.isTable_gives
  have hgives := h.reserved.gives
  rw [hget, hf.frameOf_eq] at htable
  have hhigh : 0x800000 ≤ f.toNat := by
    have hhigh := hgives.high
    rwa [hget, hf.frameOf_eq] at hhigh
  have hne (d) (hd : d ∈ allDirectories pds) : d ≠ f := by
    rintro rfl
    exact htable.notDirectory hd
  have hmaps : Mmu.MapsTo (k.afterPageAlloc b).mmu (k.gPagePool.blocks b).addr f := by
    refine ⟨hafter.currentDirectory, hin.lt, hin.1, ?_, ?_, htable.off⟩
    · show PointsTo (set _ _ _ _ _) _
      rw [set_self, hget]
      have hentry := pointsTo_kernelEntry f
      rwa [hf.frameOf_eq] at hentry
    · rw [hafter.directory_eq]
      exact hne _ hafter.current
  have hkernel := hafter.directories _ List.mem_cons_self
  have hfill := fill_directory hmaps hkernel (hne _ List.mem_cons_self) hafter.pageOne
  refine ⟨f, hget, hf, hunused, ?_, ?_⟩
  · rw [KernelMem.createProcessPageDirectory, pageAlloc_eq h.currentDirectory hb hin, hget]
    simp only [Outcome.ret_bind]
    obtain ⟨mmu₁, hcopy, hrest⟩ := Outcome.bind_eq_ret.mp hfill
    obtain ⟨mmu₂, habsent, hlast⟩ := Outcome.bind_eq_ret.mp hrest
    rw [hcopy, Outcome.ret_bind, habsent, Outcome.ret_bind, hlast]
    rfl
  · generalize hphys : (k.afterPageAlloc b).mmu.phys = phys at *
    have hslot (g j : U32) (hg : IsFrame g) (hj : j.toNat < 1024) (hgf : g ≠ f) :
        newDirectory phys f (slot g j) = phys (slot g j) := by
      rw [newDirectory_slot hf hg hj, if_neg hgf]
    have hown (j : U32) (hj : j.toNat < 1024) : newDirectory phys f (slot f j) =
        if j = 1023 then selfEntry f else newEntries j := by
      rw [newDirectory_slot hf hf hj, if_pos rfl]
    have hold : ∀ d ∈ allDirectories pds, Directory (newDirectory phys f) d := by
      intro d hd
      have hdir := hafter.directories d hd
      rw [hphys] at hdir
      apply hdir.congr
      · intro i hi
        exact hslot d i hdir.frame (by omega) (hne d hd)
      · exact hslot d 1023 hdir.frame (by decide) (hne d hd)
    constructor
    · exact hafter.reserved
    · exact hafter.pool
    · refine List.nodup_cons.mpr ⟨?_, h.nodup⟩
      intro hmem
      exact hne f (List.mem_cons_of_mem _ hmem) rfl
    · intro d hd
      rcases List.mem_cons.mp hd with rfl | hd
      · exact hold _ List.mem_cons_self
      rcases List.mem_cons.mp hd with rfl | hd
      · constructor
        · exact hf
        · exact htable.off
        · rw [KernelMem.withPhys_phys, hown 1023 (by decide), if_pos rfl]
          exact pointsTo_selfEntry hf
        · intro i hi
          rw [KernelMem.withPhys_phys, hown i (by omega), if_neg, newEntries, if_pos hi]
          rintro rfl
          exact absurd hi (by decide)
      · exact hold d (List.mem_cons_of_mem _ hd)
    · intro d hd
      rcases List.mem_cons.mp hd with rfl | hd
      · refine ⟨hhigh, htable.used, ?_⟩
        intro heq
        rw [heq, h.reserved.last] at hunused
        cases hunused
      · exact hafter.pages d hd
    · intro d hd i hi t ht
      have hi' : i.toNat < 1024 := Nat.lt_succ_of_lt hi.2
      rw [KernelMem.withPhys_phys] at ht
      rcases List.mem_cons.mp hd with rfl | hd
      · rw [hown i hi', if_neg, newEntries, if_neg] at ht
        · have hp := ht.1
          rw [not_present_absentEntry] at hp
          cases hp
        · have hlo := hi.1
          omega
        · rintro rfl
          exact absurd hi.2 (by decide)
      · have hdir := hafter.directory hd
        rw [hslot d i hdir.frame hi' (hne d (List.mem_cons_of_mem _ hd)), ← hphys] at ht
        -- the table was in use before `f` was given out
        have hphys' : (k.afterPageAlloc b).mmu.phys (slot d i) = k.mmu.phys (slot d i) :=
          set_kernel_slot hin.lt hdir.frame hdir.off hi'
        rw [hphys'] at ht
        have htold := h.tables d hd i hi t ht
        refine ⟨hgives.mono _ htold.used, htold.off, ?_⟩
        intro hmem
        rcases List.mem_cons.mp hmem with rfl | hmem
        · exact htold.notDirectory List.mem_cons_self
        rcases List.mem_cons.mp hmem with rfl | hmem
        · rw [htold.used] at hunused
          cases hunused
        · exact htold.notDirectory (List.mem_cons_of_mem _ hmem)
    · rw [KernelMem.withPhys_phys, hslot _ _ (isFrame_kernelTable (by decide)) (by decide)
        (htable.off.ne_kernelTable (by decide)).symm, ← hphys]
      exact hafter.pageZero
    · rw [KernelMem.withPhys_phys, hslot _ _ (isFrame_kernelTable (by decide)) (by decide)
        (htable.off.ne_kernelTable (by decide)).symm, ← hphys]
      exact hafter.pageOne
    · show (k.afterPageAlloc b).mmu.cr3 ∈ _
      rcases List.mem_cons.mp hafter.current with heq | hmem
      · rw [heq]
        exact List.mem_cons_self
      · exact List.mem_cons_of_mem _ (List.mem_cons_of_mem _ hmem)

end Create

end LtMicros
