import LtMicros.AddressSpace

/-!
# The address spaces of all processes

The invariant of the page directories and page tables, and that the operations
which map pages keep it. It also holds of memory that is exhausted.
-/

namespace LtMicros

open Lib Lib.Frames

/-- The directory of the kernel and those of the processes. -/
abbrev allDirectories (pds : List U32) : List U32 := kernelInfo.pPageDirectory :: pds

/-- The user half lies below the entries of the last directory entry. -/
def InUser (v : U32) : Prop := vUserBaseAddr ≤ v ∧ v < 0xFFC00000

/-- The index of a directory entry of the user half. -/
def UserIndex (i : U32) : Prop := 256 ≤ i.toNat ∧ i.toNat < 1023

theorem InUser.userIndex {v : U32} (h : InUser v) : UserIndex (dirIndex v) := by
  obtain ⟨hlo, hhi⟩ := h
  have hlo : 0x40000000 ≤ v.toNat := hlo
  have hhi : v.toNat < 0xFFC00000 := hhi
  rw [UserIndex, toNat_dirIndex]
  omega

/-- What a frame must be to serve as a page table of a process. -/
structure IsTable (p : PmmBitmap) (pds : List U32) (t : U32) : Prop where
  used : p.used (pageOf t) = true
  off : OffKernel t
  notDirectory : t ∉ allDirectories pds

/-- The page directories are in place, the entries of their user halves lead to
page tables, and the pages they are made of are in use. -/
structure Spaces (k : KernelMem) (pds : List U32) : Prop where
  reserved : k.gPmm.Reserved
  pool : k.gPagePool.AvailInPool
  nodup : pds.Nodup
  directories : ∀ d ∈ allDirectories pds, Directory k.mmu.phys d
  pages : ∀ d ∈ pds, 0x800000 ≤ d.toNat ∧ k.gPmm.used (pageOf d) = true ∧ pageOf d ≠ 0xFFFFF
  tables : ∀ d ∈ pds, ∀ i, UserIndex i → ∀ t, PointsTo (k.mmu.phys (slot d i)) t →
    IsTable k.gPmm pds t
  pageZero : PointsTo (k.mmu.phys (slot (kernelTable 0) 0)) 0
  pageOne : PointsTo (k.mmu.phys (slot (kernelTable 0) 1)) 0x1000
  current : k.mmu.cr3 ∈ allDirectories pds

/-- How a page is added to the directory `d`: to a table that is there, to a page
of the pool, or, from an empty pool, to the page at address 0. -/
inductive Adds (k : KernelMem) (d v p flags : U32) : KernelMem → Prop
  | present {t : U32} : TableOf k.mmu.phys d v t → Adds k d v p flags
      (k.withPhys (set k.mmu.phys t (tableIndex v) (setPageTableEntry p flags)))
  | fresh {b : ℕ} : flagOn (k.mmu.phys (slot d (dirIndex v))) pagePresent = false →
      k.gPagePool.availPageList = some b → Adds k d v p flags
      ((k.afterPageAlloc b).withPhys (newTable (k.afterPageAlloc b).mmu.phys d v
        k.gPmm.getFreePage.1 flags (setPageTableEntry p flags)))
  | empty : flagOn (k.mmu.phys (slot d (dirIndex v))) pagePresent = false →
      k.gPagePool.availPageList = none → Adds k d v p flags
      (k.withPhys (newTable k.mmu.phys d v 0 flags (setPageTableEntry p flags)))

section Spaces

variable {k k' : KernelMem} {pds : List U32} {d v p flags t a : U32} {b : ℕ}

theorem IsTable.mono {p p' : PmmBitmap} (h : IsTable p pds t)
    (hmono : ∀ q, p.used q = true → p'.used q = true) : IsTable p' pds t :=
  ⟨hmono _ h.used, h.off, h.notDirectory⟩

theorem Spaces.directory (h : Spaces k pds) (hd : d ∈ pds) : Directory k.mmu.phys d :=
  h.directories d (List.mem_cons_of_mem _ hd)

theorem Spaces.directory_eq (h : Spaces k pds) : k.mmu.directory = k.mmu.cr3 :=
  (h.directories _ h.current).frame.frameOf_eq

theorem Spaces.currentDirectory (h : Spaces k pds) :
    Directory k.mmu.phys k.mmu.directory := by
  rw [h.directory_eq]
  exact h.directories _ h.current

/-- All directories are pages in use. -/
theorem Spaces.used_directory (h : Spaces k pds) (hd : d ∈ allDirectories pds) :
    k.gPmm.used (pageOf d) = true ∧ pageOf d ≠ 0xFFFFF := by
  rcases List.mem_cons.mp hd with rfl | hd
  · exact ⟨h.reserved.kernel _ (by decide), by decide⟩
  · exact (h.pages d hd).2

/-- The page that `GetFreePage` answers may become a table. -/
theorem Spaces.isTable_gives (h : Spaces k pds) :
    IsTable k.gPmm.getFreePage.2 pds (frameOf k.gPmm.getFreePage.1) := by
  have hgives := h.reserved.gives
  constructor
  · exact hgives.used
  · have hhigh := hgives.high
    rw [OffKernel]
    omega
  · intro hmem
    obtain ⟨hused, hne⟩ := h.used_directory hmem
    exact hgives.apart _ hused hne rfl

/-- So may the page at address 0, which is in use for the kernel. -/
theorem Spaces.isTable_zero (h : Spaces k pds) : IsTable k.gPmm pds (frameOf 0) := by
  constructor
  · exact h.reserved.kernel _ (by decide)
  · left
    decide
  · intro hmem
    rcases List.mem_cons.mp hmem with heq | hmem
    · exact absurd heq (by decide)
    · have hhigh := (h.pages _ hmem).1
      exact absurd hhigh (by decide)

/-- What an operation must leave in place. -/
theorem Spaces.update (h : Spaces k pds)
    (hmono : ∀ q, k.gPmm.used q = true → k'.gPmm.used q = true)
    (hpool : k'.gPagePool.AvailInPool) (hcurrent : k'.mmu.cr3 ∈ allDirectories pds)
    (hdirs : ∀ d ∈ allDirectories pds, ∀ i : U32, i.toNat < 256 ∨ i = 1023 →
      k'.mmu.phys (slot d i) = k.mmu.phys (slot d i))
    (htables : ∀ d ∈ pds, ∀ i, UserIndex i → ∀ t, PointsTo (k'.mmu.phys (slot d i)) t →
      PointsTo (k.mmu.phys (slot d i)) t ∨ IsTable k'.gPmm pds t)
    (hlow : ∀ i : U32, i.toNat < 2 →
      k'.mmu.phys (slot (kernelTable 0) i) = k.mmu.phys (slot (kernelTable 0) i)) :
    Spaces k' pds := by
  constructor
  · exact h.reserved.mono hmono
  · exact hpool
  · exact h.nodup
  · intro d hd
    apply (h.directories d hd).congr
    · intro i hi
      exact hdirs d hd i (.inl hi)
    · exact hdirs d hd 1023 (.inr rfl)
  · intro d hd
    obtain ⟨hhigh, hused, hne⟩ := h.pages d hd
    exact ⟨hhigh, hmono _ hused, hne⟩
  · intro d hd i hi t ht
    rcases htables d hd i hi t ht with hold | hnew
    · exact (h.tables d hd i hi t hold).mono hmono
    · exact hnew
  · rw [hlow 0 (by decide)]
    exact h.pageZero
  · rw [hlow 1 (by decide)]
    exact h.pageOne
  · exact hcurrent

theorem userIndex_ne {i j : U32} (hi : UserIndex i) (hj : j.toNat < 256 ∨ j = 1023) : j ≠ i := by
  rintro rfl
  obtain ⟨hlo, hhi⟩ := hi
  rcases hj with hj | rfl
  · omega
  · exact absurd hhi (by decide)

theorem lt_of_shared {j : U32} (hj : j.toNat < 256 ∨ j = 1023) : j.toNat < 1024 := by
  rcases hj with hj | rfl
  · omega
  · decide

/-- Another directory is current. -/
theorem Spaces.switch (h : Spaces k pds) (hd : d ∈ allDirectories pds) :
    Spaces { k with mmu := k.mmu.setCurrentPageDirectory d } pds := by
  apply h.update
  · exact fun _ hq => hq
  · exact h.pool
  · exact hd
  · exact fun _ _ _ _ => rfl
  · exact fun _ _ _ _ _ ht => .inl ht
  · exact fun _ _ => rfl

/-! ### Pages of the kernel half -/

/-- The entry of a kernel page above the identity mapping is in none of the
frames that the invariant is about. -/
theorem dirIndex_above (ha : 0x800000 ≤ a.toNat) (hlt : a < vUserBaseAddr) :
    2 ≤ (dirIndex a).toNat ∧ (dirIndex a).toNat < 256 := by
  have hkernel := dirIndex_kernel hlt
  rw [toNat_dirIndex] at hkernel ⊢
  omega

/-- A kernel page is mapped: no word outside the kernel tables changes. -/
theorem set_kernel_slot {phys : U32 → U32} {g j w : U32} (hlt : a < vUserBaseAddr)
    (hg : IsFrame g) (hoff : OffKernel g) (hj : j.toNat < 1024) :
    set phys (kernelTable (dirIndex a)) (tableIndex a) w (slot g j) = phys (slot g j) := by
  have hkernel := dirIndex_kernel hlt
  exact set_of_frame_ne (isFrame_kernelTable hkernel) hg (tableIndex_lt a) hj
    (hoff.ne_kernelTable hkernel)

theorem set_kernel_low {phys : U32 → U32} {j w : U32} (ha : 0x800000 ≤ a.toNat)
    (hlt : a < vUserBaseAddr) (hj : j.toNat < 2) :
    set phys (kernelTable (dirIndex a)) (tableIndex a) w (slot (kernelTable 0) j) =
      phys (slot (kernelTable 0) j) := by
  obtain ⟨hlo, hhi⟩ := dirIndex_above ha hlt
  apply set_of_frame_ne (isFrame_kernelTable hhi) (isFrame_kernelTable (by decide))
    (tableIndex_lt a) (by omega)
  intro heq
  have h0 := kernelTable_inj (show (0 : U32).toNat < 256 by decide) hhi heq
  rw [← h0] at hlo
  exact absurd hlo (by decide)

/-- The invariant survives a new entry of a kernel page, with whatever other
bitmap and pool come with it. -/
theorem Spaces.setKernel (h : Spaces k pds) (ha : 0x800000 ≤ a.toNat) (hlt : a < vUserBaseAddr)
    {w : U32} (hphys : k'.mmu.phys =
      set k.mmu.phys (kernelTable (dirIndex a)) (tableIndex a) w)
    (hcr3 : k'.mmu.cr3 = k.mmu.cr3) (hmono : ∀ q, k.gPmm.used q = true → k'.gPmm.used q = true)
    (hpool : k'.gPagePool.AvailInPool) : Spaces k' pds := by
  apply h.update hmono hpool
  · rw [hcr3]
    exact h.current
  · intro d hd i hi
    have hdir := h.directories d hd
    rw [hphys]
    exact set_kernel_slot hlt hdir.frame hdir.off (lt_of_shared hi)
  · intro d hd i hi t ht
    have hdir := h.directory hd
    have hi' : i.toNat < 1024 := Nat.lt_succ_of_lt hi.2
    rw [hphys, set_kernel_slot hlt hdir.frame hdir.off hi'] at ht
    exact .inl ht
  · intro i hi
    rw [hphys]
    exact set_kernel_low ha hlt hi

theorem Spaces.afterPageAlloc (h : Spaces k pds) (hb : k.gPagePool.availPageList = some b) :
    Spaces (k.afterPageAlloc b) pds := by
  have hin := h.pool.head hb
  exact h.setKernel hin.2.1 hin.lt rfl rfl h.reserved.gives.mono
    (h.pool.takeBlock hb)

/-- `PageAlloc` returns, and keeps the invariant. -/
theorem Spaces.pageAlloc (h : Spaces k pds) :
    ∃ page k', k.pageAlloc = .ret (page, k') ∧ Spaces k' pds := by
  cases hb : k.gPagePool.availPageList with
  | none =>
    refine ⟨⟨0, 0⟩, k, ?_, h⟩
    simp [KernelMem.pageAlloc, hb]
  | some b =>
    exact ⟨_, _, pageAlloc_eq h.currentDirectory hb (h.pool.head hb), h.afterPageAlloc hb⟩

/-! ### Pages of the user half -/

/-- `AddPageToPageDirectory` returns for every page of the user half. -/
theorem Spaces.adds (h : Spaces k pds) (hv : InUser v) (p flags : U32) :
    ∃ k', k.addPageToPageDirectory v p flags = .ret k' ∧ Adds k k.mmu.cr3 v p flags k' := by
  have hcur := h.currentDirectory
  have heq := h.directory_eq
  obtain ⟨hlo, hhi⟩ := hv.userIndex
  cases hpresent : flagOn (k.mmu.phys (slot k.mmu.cr3 (dirIndex v))) pagePresent with
  | true =>
    have ht : TableOf k.mmu.phys k.mmu.cr3 v _ := pointsTo_frameOf hpresent
    refine ⟨_, ?_, .present ht⟩
    apply addPageToPageDirectory_present hcur.self
    rwa [heq]
  | false =>
    cases hb : k.gPagePool.availPageList with
    | some b =>
      refine ⟨_, ?_, .fresh hpresent hb⟩
      have hin := h.pool.head hb
      have hafter := h.afterPageAlloc hb
      have hnot := h.isTable_gives.notDirectory
      have hkernel := dirIndex_kernel hin.lt
      have hmain := @addPageToPageDirectory_absent _ _ p flags _ _ hcur
        (by rwa [heq]) hlo hhi (pageAlloc_eq hcur hb hin) hafter.currentDirectory hin.1 hin.lt
        h.isTable_gives.off (by
          intro hmem
          rw [hafter.directory_eq] at hmem
          rw [← hmem] at hnot
          exact hnot hafter.current)
        (by
          show PointsTo (set _ _ _ _ _) _
          rw [set_self]
          exact pointsTo_kernelEntry _)
      rw [hafter.directory_eq] at hmain
      exact hmain
    | none =>
      refine ⟨_, ?_, .empty hpresent hb⟩
      have halloc : k.pageAlloc = .ret (⟨0, 0⟩, k) := by simp [KernelMem.pageAlloc, hb]
      have hnot := h.isTable_zero.notDirectory
      have hmain := @addPageToPageDirectory_absent _ _ p flags _ _ hcur
        (by rwa [heq]) hlo hhi halloc hcur (by decide) (by decide) h.isTable_zero.off (by
          intro hmem
          rw [heq] at hmem
          rw [← hmem] at hnot
          exact hnot h.current)
        (show PointsTo (k.mmu.phys (slot (kernelTable 0) 0)) 0 from h.pageZero)
      rw [heq] at hmain
      exact hmain

/-- Where the words of a new table and of its directory end up. -/
theorem Spaces.withNewTable (h : Spaces k pds) (hd : d ∈ pds) (hv : InUser v) {pt w : U32}
    (htable : IsTable k.gPmm pds (frameOf pt)) :
    Spaces (k.withPhys (newTable k.mmu.phys d v pt flags w)) pds := by
  have hdir := h.directory hd
  have hvi := hv.userIndex
  have hoff (g) (hg : g ∈ allDirectories pds) : g ≠ frameOf pt := by
    rintro rfl
    exact htable.notDirectory hg
  apply h.update
  · exact fun _ hq => hq
  · exact h.pool
  · exact h.current
  · intro g hg i hi
    have hgf := (h.directories g hg).frame
    show newTable _ _ _ _ _ _ _ = _
    rw [newTable_slot hdir.frame hgf (lt_of_shared hi), if_neg (hoff g hg), if_neg]
    exact fun hgi => userIndex_ne hvi hi hgi.2
  · intro g hg i hi t ht
    have hgf := (h.directory hg).frame
    have hi' : i.toNat < 1024 := Nat.lt_succ_of_lt hi.2
    change PointsTo (newTable _ _ _ _ _ _ _) t at ht
    rw [newTable_slot hdir.frame hgf hi', if_neg (hoff g (List.mem_cons_of_mem _ hg))] at ht
    split at ht
    · right
      have hframe := frameOf_setPageDirectoryEntry pt (pagePresent ||| pageWriteable ||| flags)
      have heq : t = frameOf pt := ht.2.symm.trans hframe
      rw [heq]
      exact htable
    · exact .inl ht
  · intro i hi
    have hk : IsFrame (kernelTable 0) := isFrame_kernelTable (by decide)
    show newTable _ _ _ _ _ _ _ = _
    rw [newTable_slot hdir.frame hk (by omega),
      if_neg (htable.off.ne_kernelTable (by decide)).symm, if_neg]
    exact fun hki => (hdir.off.ne_kernelTable (by decide)).symm hki.1

/-- Adding a page keeps the invariant. -/
theorem Spaces.of_adds (h : Spaces k pds) (hd : d ∈ pds) (hv : InUser v)
    (hadds : Adds k d v p flags k') : Spaces k' pds := by
  cases hadds with
  | @present t ht =>
    have htable := h.tables d hd _ hv.userIndex t ht
    have htf := ht.frame
    have hne (g) (hg : g ∈ allDirectories pds) : g ≠ t := by
      rintro rfl
      exact htable.notDirectory hg
    apply h.update
    · exact fun _ hq => hq
    · exact h.pool
    · exact h.current
    · intro g hg i hi
      exact set_of_frame_ne htf (h.directories g hg).frame (tableIndex_lt v) (lt_of_shared hi)
        (hne g hg)
    · intro g hg i hi t' ht'
      left
      change PointsTo (set _ _ _ _ _) t' at ht'
      rwa [set_of_frame_ne htf (h.directory hg).frame (tableIndex_lt v)
        (Nat.lt_succ_of_lt hi.2) (hne g (List.mem_cons_of_mem _ hg))] at ht'
    · intro i hi
      exact set_of_frame_ne htf (isFrame_kernelTable (by decide)) (tableIndex_lt v) (by omega)
        (htable.off.ne_kernelTable (by decide)).symm
  | fresh habsent hb => exact (h.afterPageAlloc hb).withNewTable hd hv h.isTable_gives
  | empty habsent hb => exact h.withNewTable hd hv h.isTable_zero

end Spaces

end LtMicros
