import LtMicros.Spaces
import LtMicros.Lib.FrameBytes

/-!
# The page tables that the kernel starts with

`Vmm::Init` fills the page directory and the 256 page tables of the kernel half
before paging is enabled, so it writes to physical addresses.
-/

namespace LtMicros

open Lib Lib.Frames

/-- `NB_PAGES_TABLE_PER_KERNEL_DIRECTORY`. -/
abbrev nbPagesTablePerKernelDirectory : ℕ := 256

/-- `NB_PAGES_PER_TABLE` and `NB_PAGES_TABLE_PER_DIRECTORY`. -/
abbrev nbPagesPerTable : ℕ := 1024
abbrev nbPagesTablePerDirectory : ℕ := 1024

namespace Mmu

/-- `pageTable` in turn `pdIndex` of `InitKernelPageDirectoryAndPageTables`. -/
def pageTableAt (pdIndex : ℕ) : U32 :=
  kernelInfo.pPageTables + BitVec.ofNat 32 (pdIndex * pageSize)

/-- One turn of the outer loop of `InitKernelPageDirectoryAndPageTables`. -/
def initTable (phys : U32 → U32) (pdIndex : ℕ) : U32 → U32 :=
  let pageTable := pageTableAt pdIndex
  let phys := set phys kernelInfo.pPageDirectory (BitVec.ofNat 32 pdIndex)
    (setPageDirectoryEntry pageTable (pagePresent ||| pageWriteable))
  let phys := fill phys pageTable
    (fun _ => setPageTableEntry 0 (pagePresent ||| pageWriteable)) nbPagesPerTable
  set phys pageTable 1023 (setPageTableEntry pageTable (pagePresent ||| pageWriteable))

/-- `Vmm::InitKernelPageDirectoryAndPageTables`. -/
def initKernelPageDirectoryAndPageTables (phys : U32 → U32) : U32 → U32 :=
  let phys := (List.range nbPagesTablePerKernelDirectory).foldl initTable phys
  set phys kernelInfo.pPageDirectory 1023
    (setPageDirectoryEntry kernelInfo.pPageDirectory (pagePresent ||| pageWriteable))

/-- One turn of the loop of `SetIdentityMapping`: `kernelFirstPt[ptIndex]` is set,
which is an entry of the second table from index 1024 on. -/
def identityEntry (phys : U32 → U32) (ptIndex : ℕ) : U32 → U32 :=
  Function.update phys (kernelInfo.pPageTables + BitVec.ofNat 32 (4 * ptIndex))
    (setPageTableEntry (BitVec.ofNat 32 (ptIndex * pageSize)) (pagePresent ||| pageWriteable))

/-- `Vmm::SetIdentityMapping`, with any `pKernelLimit`. -/
def setIdentityMappingTo (pKernelLimit : U32) (phys : U32 → U32) : U32 → U32 :=
  let kernelFirstPt := kernelInfo.pPageTables
  let kernelSecondPt := kernelFirstPt + BitVec.ofNat 32 pageSize
  let phys := set phys kernelInfo.pPageDirectory 0
    (setPageDirectoryEntry kernelFirstPt (pagePresent ||| pageWriteable))
  let phys := set phys kernelInfo.pPageDirectory 1
    (setPageDirectoryEntry kernelSecondPt (pagePresent ||| pageWriteable))
  let phys := (List.range (pKernelLimit.toNat / pageSize)).foldl identityEntry phys
  let phys := set phys kernelFirstPt 1023
    (setPageTableEntry kernelFirstPt (pagePresent ||| pageWriteable))
  set phys kernelSecondPt 1023 (setPageTableEntry kernelSecondPt (pagePresent ||| pageWriteable))

/-- `Vmm::SetIdentityMapping`. -/
def setIdentityMapping : (U32 → U32) → U32 → U32 := setIdentityMappingTo kernelInfo.pKernelLimit

/-- The tables of `Init` with any `pKernelLimit`. -/
def initTo (pKernelLimit : U32) (phys : U32 → U32) : Mmu where
  phys := setIdentityMappingTo pKernelLimit (initKernelPageDirectoryAndPageTables phys)
  cr3 := kernelInfo.pPageDirectory

/-- `Vmm::Init`, which ends by loading `cr3` and enabling paging. -/
def init (phys : U32 → U32) : Mmu := initTo kernelInfo.pKernelLimit phys

end Mmu

/-! ## The words that `Init` leaves -/

/-- The frame that a kernel address is mapped to by `Init`: the last entry of
each table is the table itself, and above `pKernelLimit` all others are frame 0. -/
def initialFrame (v : U32) : U32 :=
  if tableIndex v = 1023 then kernelTable (dirIndex v)
  else if v < kernelInfo.pKernelLimit then frameOf v
  else 0

section Init

variable {phys : U32 → U32} {n : ℕ} {i j : U32}

theorem isFrame_pPageDirectory : IsFrame kernelInfo.pPageDirectory := by decide

theorem pPageDirectory_ne (hi : i.toNat < 256) : kernelInfo.pPageDirectory ≠ kernelTable i := by
  apply OffKernel.ne_kernelTable _ hi
  left
  decide

theorem pageTableAt_eq (hn : n < 256) :
    Mmu.pageTableAt n = kernelTable (BitVec.ofNat 32 n) := by
  rw [Mmu.pageTableAt, kernelTable]
  congr 1
  apply BitVec.eq_of_toNat_eq
  rw [BitVec.toNat_ofNat, BitVec.toNat_shiftLeft, toNat_index (by omega), Nat.shiftLeft_eq]

/-- One turn fills one directory entry and one table. -/
theorem initTable_slot (hn : n < 256) (hj : j.toNat < 1024) {g : U32} (hg : IsFrame g) :
    Mmu.initTable phys n (slot g j) =
      if g = kernelTable (BitVec.ofNat 32 n) then kernelEntry (if j = 1023 then g else 0)
      else if g = kernelInfo.pPageDirectory ∧ j = BitVec.ofNat 32 n then
        kernelPde (BitVec.ofNat 32 n)
      else phys (slot g j) := by
  have hindex : (BitVec.ofNat 32 n).toNat < 256 := by rwa [toNat_index (by omega)]
  have hf := isFrame_kernelTable hindex
  simp only [Mmu.initTable, pageTableAt_eq hn]
  rw [set_slot hf hg (by decide) hj, fill_slot hf hg hj,
    set_slot isFrame_pPageDirectory hg (by omega) hj]
  by_cases hgf : g = kernelTable (BitVec.ofNat 32 n)
  · simp only [hgf, true_and, if_true]
    split
    · rfl
    · rfl
  · simp [hgf, kernelPde]

/-- The words after the outer loop. -/
theorem initTables_slot (hn : n ≤ 256) (hj : j.toNat < 1024) :
    (∀ i : U32, i.toNat < n → (List.range n).foldl Mmu.initTable phys (slot (kernelTable i) j) =
      kernelEntry (if j = 1023 then kernelTable i else 0)) ∧
    (j.toNat < n →
      (List.range n).foldl Mmu.initTable phys (slot kernelInfo.pPageDirectory j) = kernelPde j) := by
  induction n with
  | zero =>
    constructor
    · intro i hi
      exact absurd hi (Nat.not_lt_zero _)
    · intro hj
      exact absurd hj (Nat.not_lt_zero _)
  | succ n ih =>
    obtain ⟨htables, hdir⟩ := ih (by omega)
    have hmod : (BitVec.ofNat 32 n).toNat = n := toNat_index (by omega)
    have heq (i : U32) : i = BitVec.ofNat 32 n ↔ i.toNat = n := by
      rw [BitVec.toNat_inj.symm, hmod]
    rw [List.range_succ, List.foldl_append]
    constructor
    · intro i hi
      have hi' : i.toNat < 256 := by omega
      rw [List.foldl_cons, List.foldl_nil, initTable_slot (by omega) hj (isFrame_kernelTable hi')]
      by_cases hin : i = BitVec.ofNat 32 n
      · rw [if_pos (by rw [hin]), hin]
      · rw [if_neg, if_neg, htables i]
        · rw [heq] at hin
          omega
        · exact fun h => pPageDirectory_ne hi' h.1.symm
        · exact fun h => hin (kernelTable_inj hi' (by omega) h)
    · intro hjn
      rw [List.foldl_cons, List.foldl_nil, initTable_slot (by omega) hj isFrame_pPageDirectory,
        if_neg (pPageDirectory_ne (by omega))]
      by_cases hin : j = BitVec.ofNat 32 n
      · rw [if_pos ⟨rfl, hin⟩, hin]
      · rw [if_neg (fun h => hin h.2), hdir]
        rw [heq] at hin
        omega

/-- The words after `InitKernelPageDirectoryAndPageTables`. -/
theorem initKernel_spec (phys : U32 → U32) :
    Directory (Mmu.initKernelPageDirectoryAndPageTables phys) kernelInfo.pPageDirectory ∧
    ∀ i j : U32, i.toNat < 256 → j.toNat < 1024 →
      Mmu.initKernelPageDirectoryAndPageTables phys (slot (kernelTable i) j) =
        kernelEntry (if j = 1023 then kernelTable i else 0) := by
  unfold Mmu.initKernelPageDirectoryAndPageTables
  constructor
  · constructor
    · exact isFrame_pPageDirectory
    · left
      decide
    · rw [set_self]
      decide
    · intro i hi
      rw [set_of_index_ne isFrame_pPageDirectory isFrame_pPageDirectory (by decide) (by omega)]
      · exact (initTables_slot (Nat.le_refl _) (by omega)).2 hi
      · rintro rfl
        exact absurd hi (by decide)
  · intro i j hi hj
    rw [set_of_frame_ne isFrame_pPageDirectory (isFrame_kernelTable hi) (by decide) hj
      (pPageDirectory_ne hi).symm]
    exact (initTables_slot (Nat.le_refl _) hj).1 i hi

/-- Entry `ptIndex` from `kernelFirstPt` on is a slot of one of the two tables. -/
theorem identity_slot (hn : n < 2048) :
    kernelInfo.pPageTables + BitVec.ofNat 32 (4 * n) =
      slot (kernelTable (BitVec.ofNat 32 (n / 1024))) (BitVec.ofNat 32 (n % 1024)) := by
  have h1 : (BitVec.ofNat 32 (n / 1024)).toNat = n / 1024 := toNat_index (by omega)
  have h2 : (BitVec.ofNat 32 (n % 1024)).toNat = n % 1024 := toNat_index (by omega)
  have hbase : kernelInfo.pPageTables.toNat = 0x400000 := rfl
  apply BitVec.eq_of_toNat_eq
  rw [toNat_slot (isFrame_kernelTable (by omega)) (by omega), toNat_kernelTable (by omega), h1, h2,
    BitVec.toNat_add, BitVec.toNat_ofNat, hbase]
  omega

/-- The words after the loop of `SetIdentityMapping`. -/
theorem identity_spec (hn : n ≤ 2048) {g : U32} (hg : IsFrame g) (hj : j.toNat < 1024) :
    (∀ i : U32, i.toNat < 2 → g = kernelTable i →
      (List.range n).foldl Mmu.identityEntry phys (slot g j) =
        if 1024 * i.toNat + j.toNat < n then
          kernelEntry (BitVec.ofNat 32 ((1024 * i.toNat + j.toNat) * pageSize))
        else phys (slot g j)) ∧
    ((∀ i : U32, i.toNat < 2 → g ≠ kernelTable i) →
      (List.range n).foldl Mmu.identityEntry phys (slot g j) = phys (slot g j)) := by
  induction n with
  | zero => simp
  | succ n ih =>
    obtain ⟨hlow, hother⟩ := ih (by omega)
    have h1 : (BitVec.ofNat 32 (n / 1024)).toNat = n / 1024 := toNat_index (by omega)
    have h2 : (BitVec.ofNat 32 (n % 1024)).toNat = n % 1024 := toNat_index (by omega)
    have hstep : (List.range (n + 1)).foldl Mmu.identityEntry phys =
        set ((List.range n).foldl Mmu.identityEntry phys)
          (kernelTable (BitVec.ofNat 32 (n / 1024))) (BitVec.ofNat 32 (n % 1024))
          (kernelEntry (BitVec.ofNat 32 (n * pageSize))) := by
      rw [List.range_succ, List.foldl_append, List.foldl_cons, List.foldl_nil, Mmu.identityEntry,
        identity_slot (by omega)]
      exact (set_eq_update _ _ _ _).symm
    rw [hstep, set_slot (isFrame_kernelTable (by omega)) hg (by omega) hj]
    constructor
    · rintro i hi rfl
      have hiff : kernelTable i = kernelTable (BitVec.ofNat 32 (n / 1024)) ∧
          j = BitVec.ofNat 32 (n % 1024) ↔ 1024 * i.toNat + j.toNat = n := by
        constructor
        · rintro ⟨heq, rfl⟩
          have hi' := kernelTable_inj (by omega) (by omega) heq
          rw [hi', h1, h2]
          omega
        · intro heq
          have hi' : i = BitVec.ofNat 32 (n / 1024) := by
            apply BitVec.eq_of_toNat_eq
            rw [h1]
            omega
          refine ⟨by rw [hi'], ?_⟩
          apply BitVec.eq_of_toNat_eq
          rw [h2]
          omega
      rw [hlow i hi rfl]
      by_cases heq : 1024 * i.toNat + j.toNat = n
      · rw [if_pos (hiff.mpr heq), if_pos (by omega), heq]
      · have hlt : 1024 * i.toNat + j.toNat < n + 1 ↔ 1024 * i.toNat + j.toNat < n := by omega
        simp only [if_neg (fun h => heq (hiff.mp h)), hlt]
    · intro hne
      rw [if_neg (fun h => hne _ (by omega) h.1), hother hne]

/-- The first two directory entries are written again, as they were. -/
theorem set_tableEntries (hdir : Directory phys kernelInfo.pPageDirectory) {g j : U32}
    (hg : IsFrame g) (hj : j.toNat < 1024) :
    set (set phys kernelInfo.pPageDirectory 0
      (setPageDirectoryEntry (kernelTable 0) (pagePresent ||| pageWriteable)))
      kernelInfo.pPageDirectory 1
      (setPageDirectoryEntry (kernelTable 1) (pagePresent ||| pageWriteable)) (slot g j) =
    phys (slot g j) := by
  have hd := isFrame_pPageDirectory
  rw [set_slot hd hg (by decide) hj, set_slot hd hg (by decide) hj]
  split
  · rename_i heq
    rw [heq.1, heq.2, hdir.tables 1 (by decide)]
    rfl
  · split
    · rename_i heq
      rw [heq.1, heq.2, hdir.tables 0 (by decide)]
      rfl
    · rfl

/-- The last entries of the first two tables lead to these. -/
theorem set_selfEntries {g j : U32} (hg : IsFrame g) (hj : j.toNat < 1024) :
    set (set phys (kernelTable 0) 1023 (kernelEntry (kernelTable 0))) (kernelTable 1) 1023
      (kernelEntry (kernelTable 1)) (slot g j) =
    if g = kernelTable 1 ∧ j = 1023 then kernelEntry (kernelTable 1)
    else if g = kernelTable 0 ∧ j = 1023 then kernelEntry (kernelTable 0)
    else phys (slot g j) := by
  rw [set_slot (isFrame_kernelTable (by decide)) hg (by decide) hj,
    set_slot (isFrame_kernelTable (by decide)) hg (by decide) hj]

/-- The words after `SetIdentityMapping`: the directory is as before, and so is what
is behind the limit but for the last entries of the first two tables. -/
theorem setIdentityMappingTo_spec {limit : U32} (hpages : limit.toNat / pageSize = n)
    (hn : n ≤ 2048) (hdir : Directory phys kernelInfo.pPageDirectory)
    (htables : ∀ i j : U32, i.toNat < 256 → j.toNat < 1024 →
      phys (slot (kernelTable i) j) = kernelEntry (if j = 1023 then kernelTable i else 0)) :
    Directory (Mmu.setIdentityMappingTo limit phys) kernelInfo.pPageDirectory ∧
    ∀ i j : U32, i.toNat < 256 → j.toNat < 1024 →
      Mmu.setIdentityMappingTo limit phys (slot (kernelTable i) j) =
        kernelEntry (if j = 1023 then kernelTable i
          else if 1024 * i.toNat + j.toNat < n then
            BitVec.ofNat 32 ((1024 * i.toNat + j.toNat) * pageSize)
          else 0) := by
  have hfirst : kernelInfo.pPageTables = kernelTable 0 := by decide
  have hsecond : kernelInfo.pPageTables + BitVec.ofNat 32 pageSize = kernelTable 1 := by decide
  have h0 : (0 : U32).toNat < 256 := by decide
  have h1 : (1 : U32).toNat < 256 := by decide
  have hd := isFrame_pPageDirectory
  have hk (i : U32) (hi : i.toNat < 256) := isFrame_kernelTable hi
  have hsame (g j : U32) (hg : IsFrame g) (hj : j.toNat < 1024) := set_tableEntries hdir hg hj
  simp only [Mmu.setIdentityMappingTo, hsecond, hpages]
  rw [hfirst]
  generalize set (set phys _ _ _) _ _ _ = phys₁ at hsame ⊢
  have hlow (i : U32) (hi : i.toNat < 2) : i = 0 ∨ i = 1 := by
    have hi : i.toNat = 0 ∨ i.toNat = 1 := by omega
    rcases hi with hi | hi
    · exact .inl (BitVec.eq_of_toNat_eq hi)
    · exact .inr (BitVec.eq_of_toNat_eq hi)
  constructor
  · have hout (j : U32) (hj : j.toNat < 1024) :
        set (set ((List.range n).foldl Mmu.identityEntry phys₁) (kernelTable 0) 1023
          (kernelEntry (kernelTable 0))) (kernelTable 1) 1023 (kernelEntry (kernelTable 1))
          (slot kernelInfo.pPageDirectory j) = phys (slot kernelInfo.pPageDirectory j) := by
      rw [set_selfEntries hd hj, if_neg (fun h => pPageDirectory_ne h1 h.1),
        if_neg (fun h => pPageDirectory_ne h0 h.1), ← hsame _ j hd hj]
      apply (identity_spec hn hd hj).2
      intro i hi
      exact pPageDirectory_ne (by omega)
    apply hdir.congr
    · intro i hi
      exact hout i (by omega)
    · exact hout 1023 (by decide)
  · intro i j hi hj
    refine (set_selfEntries (hk i hi) hj).trans ?_
    obtain ⟨hin, hout⟩ := identity_spec hn (hk i hi) hj
    by_cases hlt : i.toNat < 2
    · by_cases hjl : j = 1023
      · rcases hlow i hlt with rfl | rfl
        · rw [if_neg (fun h => absurd h.1 (by decide)), if_pos ⟨rfl, hjl⟩, if_pos hjl]
        · rw [if_pos ⟨rfl, hjl⟩, if_pos hjl]
      · rw [if_neg (fun h => hjl h.2), if_neg (fun h => hjl h.2), hin i hlt rfl, if_neg hjl]
        split
        · rfl
        · rw [hsame _ j (hk i hi) hj, htables i j hi hj, if_neg hjl]
    · have hbehind : ¬1024 * i.toNat + j.toNat < n := by omega
      rw [if_neg (fun h => ?_), if_neg (fun h => ?_), hout, hsame _ j (hk i hi) hj,
        htables i j hi hj, if_neg hbehind]
      · rintro l hl heq
        rw [kernelTable_inj hi (by omega) heq] at hlt
        exact hlt hl
      · rw [kernelTable_inj hi h0 h.1] at hlt
        exact hlt (by decide)
      · rw [kernelTable_inj hi h1 h.1] at hlt
        exact hlt (by decide)

/-- For the `pKernelLimit` of the kernel the first two tables are filled. -/
theorem setIdentityMapping_spec (hdir : Directory phys kernelInfo.pPageDirectory)
    (htables : ∀ i j : U32, i.toNat < 256 → j.toNat < 1024 →
      phys (slot (kernelTable i) j) = kernelEntry (if j = 1023 then kernelTable i else 0)) :
    Directory (Mmu.setIdentityMapping phys) kernelInfo.pPageDirectory ∧
    ∀ i j : U32, i.toNat < 256 → j.toNat < 1024 →
      Mmu.setIdentityMapping phys (slot (kernelTable i) j) =
        kernelEntry (if j = 1023 then kernelTable i
          else if i.toNat < 2 then BitVec.ofNat 32 ((1024 * i.toNat + j.toNat) * pageSize)
          else 0) := by
  have hpages : kernelInfo.pKernelLimit.toNat / pageSize = 2048 := rfl
  obtain ⟨hdir', htables'⟩ := setIdentityMappingTo_spec hpages (Nat.le_refl _) hdir htables
  refine ⟨hdir', fun i j hi hj => (htables' i j hi hj).trans ?_⟩
  have hlt : 1024 * i.toNat + j.toNat < 2048 ↔ i.toNat < 2 := by omega
  simp only [hlt]

/-- The frame that the loop gives to a page. -/
theorem pageFrame_eq (v : U32) :
    BitVec.ofNat 32 ((1024 * (dirIndex v).toNat + (tableIndex v).toNat) * pageSize) = frameOf v := by
  have hlt := v.isLt
  apply BitVec.eq_of_toNat_eq
  rw [← page_eq, toNat_frameOf, BitVec.toNat_ofNat]
  unfold pageSize
  omega

/-- The tables after `Vmm::Init`. -/
theorem Mmu.init_spec (phys : U32 → U32) :
    Directory (Mmu.init phys).phys kernelInfo.pPageDirectory ∧
    ∀ v : U32, v < vUserBaseAddr →
      (Mmu.init phys).phys (slot (kernelTable (dirIndex v)) (tableIndex v)) =
        kernelEntry (initialFrame v) := by
  obtain ⟨hdir, htables⟩ := initKernel_spec phys
  obtain ⟨hdir', htables'⟩ := setIdentityMapping_spec hdir htables
  refine ⟨hdir', ?_⟩
  intro v hv
  refine (htables' _ _ (dirIndex_kernel hv) (tableIndex_lt v)).trans ?_
  rw [initialFrame]
  have hlimit : v < kernelInfo.pKernelLimit ↔ (dirIndex v).toNat < 2 := by
    have hlim : kernelInfo.pKernelLimit.toNat = 2 * 2 ^ 22 := rfl
    rw [BitVec.lt_def, hlim, toNat_dirIndex]
    omega
  simp only [hlimit, pageFrame_eq]

/-! ### The frames that `Init` leaves alone -/

section Other

variable {g : U32} (hg : IsFrame g) (hoff : OffKernel g) (hne : g ≠ kernelInfo.pPageDirectory)
  (hj : j.toNat < 1024)

include hg hoff hne hj

theorem initTables_other (hn : n ≤ 256) :
    (List.range n).foldl Mmu.initTable phys (slot g j) = phys (slot g j) := by
  induction n with
  | zero => rfl
  | succ n ih =>
    have hindex : (BitVec.ofNat 32 n).toNat = n := toNat_index (by omega)
    rw [List.range_succ, List.foldl_append, List.foldl_cons, List.foldl_nil,
      initTable_slot (by omega) hj hg, if_neg (hoff.ne_kernelTable (by omega)),
      if_neg fun h => hne h.1, ih (by omega)]

/-- All frames but the page directory and the tables of the kernel half are as before. -/
theorem Mmu.init_other : (Mmu.init phys).phys (slot g j) = phys (slot g j) := by
  have hpages : kernelInfo.pKernelLimit.toNat / pageSize = 2048 := rfl
  have hfirst : kernelInfo.pPageTables = kernelTable 0 := by decide
  have hsecond : kernelInfo.pPageTables + BitVec.ofNat 32 pageSize = kernelTable 1 := by decide
  have hkernel (i : U32) (hi : i.toNat < 256) := isFrame_kernelTable hi
  have hd := isFrame_pPageDirectory
  simp only [Mmu.init, Mmu.initTo, Mmu.setIdentityMappingTo, hpages, hsecond]
  rw [hfirst, set_of_frame_ne (hkernel 1 (by decide)) hg (by decide) hj
      (hoff.ne_kernelTable (by decide)),
    set_of_frame_ne (hkernel 0 (by decide)) hg (by decide) hj (hoff.ne_kernelTable (by decide)),
    (identity_spec (Nat.le_refl _) hg hj).2 fun i hi => hoff.ne_kernelTable (by omega),
    set_of_frame_ne hd hg (by decide) hj hne, set_of_frame_ne hd hg (by decide) hj hne,
    Mmu.initKernelPageDirectoryAndPageTables, set_of_frame_ne hd hg (by decide) hj hne]
  exact initTables_other hg hoff hne hj (Nat.le_refl _)

end Other

/-! ### Identity mapping -/

section Identity

variable {limit v : U32}

/-- The entry of a page below the limit. -/
theorem initTo_entry (phys : U32 → U32) (hpage : limit.toNat % pageSize = 0)
    (hlimit : limit.toNat ≤ 0x800000) (hv : v < limit) :
    Directory (Mmu.initTo limit phys).phys kernelInfo.pPageDirectory ∧
      (Mmu.initTo limit phys).phys (slot (kernelTable (dirIndex v)) (tableIndex v)) =
        kernelEntry (if tableIndex v = 1023 then kernelTable (dirIndex v) else frameOf v) := by
  have hlt : v.toNat < limit.toNat := hv
  have hn : limit.toNat / pageSize ≤ 2048 := by
    unfold pageSize
    omega
  have hindex : (dirIndex v).toNat < 256 := by
    rw [toNat_dirIndex]
    omega
  have hpages : 1024 * (dirIndex v).toNat + (tableIndex v).toNat < limit.toNat / pageSize := by
    rw [← page_eq]
    unfold pageSize at hpage ⊢
    omega
  obtain ⟨hdir, htables⟩ := initKernel_spec phys
  obtain ⟨hdir', htables'⟩ := setIdentityMappingTo_spec rfl hn hdir htables
  -- the last entries are written behind the loop, so that they are the tables below the limit too
  refine ⟨hdir', (htables' _ _ hindex (tableIndex_lt v)).trans ?_⟩
  rw [if_pos hpages, pageFrame_eq]

theorem translate_initTo (hpage : limit.toNat % pageSize = 0) (hlimit : limit.toNat ≤ 0x800000)
    (hv : v < limit) : (Mmu.initTo limit phys).translate v =
      some (if tableIndex v = 1023 then kernelTable (dirIndex v) + (v &&& 0xFFF#32) else v) := by
  have hlt : v.toNat < limit.toNat := hv
  have hindex : (dirIndex v).toNat < 256 := by
    rw [toNat_dirIndex]
    omega
  obtain ⟨hdir, hentry⟩ := initTo_entry phys hpage hlimit hv
  have hpde := pointsTo_kernelPde hindex
  have hpte := pointsTo_kernelEntry
    (if tableIndex v = 1023 then kernelTable (dirIndex v) else frameOf v)
  rw [← hdir.tables _ hindex] at hpde
  rw [← hentry] at hpte
  have hdirectory : (Mmu.initTo limit phys).directory = kernelInfo.pPageDirectory :=
    isFrame_pPageDirectory.frameOf_eq
  have hwalk : PointsTo ((Mmu.initTo limit phys).phys
      ((Mmu.initTo limit phys).directory + (v >>> 22) <<< 2)) (kernelTable (dirIndex v)) := by
    rw [hdirectory]
    exact hpde
  refine (Mmu.translate_eq hwalk hpte).trans ?_
  split
  · rw [(isFrame_kernelTable hindex).frameOf_eq]
  · rw [(isFrame_frameOf v).frameOf_eq, frameOf_add_offset]

/-- Below the limit every page is present, and mapped to itself but for the last page of each table,
which is the table. -/
theorem Mmu.identityMapping_except_tables (phys : U32 → U32) (hpage : limit.toNat % pageSize = 0)
    (hlimit : limit.toNat ≤ 0x800000) :
    (∀ v < limit, (Mmu.initTo limit phys).translate v =
      some (if tableIndex v = 1023 then kernelTable (dirIndex v) + (v &&& 0xFFF#32) else v)) ∧
    ((∀ v < limit, (Mmu.initTo limit phys).translate v = some v) ↔ limit.toNat ≤ 0x3FF000) := by
  refine ⟨fun v hv => translate_initTo hpage hlimit hv, fun hall => ?_, fun hle v hv => ?_⟩
  · by_contra hgt
    -- the last page of the first table
    have hv : (0x3FF000 : U32) < limit := Nat.lt_of_not_le hgt
    have htable : (Mmu.initTo limit phys).translate 0x3FF000 = some _ :=
      translate_initTo hpage hlimit hv
    exact absurd (Option.some.inj (htable.symm.trans (hall _ hv))) (by decide)
  · have hindex : tableIndex v ≠ 1023 := by
      intro heq
      have hnat : (tableIndex v).toNat = 1023 := congrArg BitVec.toNat heq
      have hlt : v.toNat < limit.toNat := hv
      rw [toNat_tableIndex] at hnat
      omega
    rw [translate_initTo hpage hlimit hv, if_neg hindex]

/-- With 8 MiB the page before 4 MiB is mapped to the first page table. -/
theorem Mmu.lastPage_not_identity : (0x3FF000 : U32) < 0x800000 ∧
    (Mmu.initTo 0x800000 fun _ => 0).translate 0x3FF000 = some 0x400000 ∧
    ¬∀ v < (0x800000 : U32), (Mmu.initTo 0x800000 fun _ => 0).translate v = some v := by
  have hv : (0x3FF000 : U32) < 0x800000 := by decide
  have htable : (Mmu.initTo 0x800000 fun _ => 0).translate 0x3FF000 = some 0x400000 :=
    translate_initTo (by decide) (by decide) hv
  refine ⟨hv, htable, fun hall => ?_⟩
  exact absurd (Option.some.inj (htable.symm.trans (hall _ hv))) (by decide)

theorem Mmu.threeMegabytes_identity :
    (∀ v < (0x300000 : U32), (Mmu.initTo 0x300000 fun _ => 0).translate v =
      some (if tableIndex v = 1023 then kernelTable (dirIndex v) + (v &&& 0xFFF#32) else v)) ∧
    ((∀ v < (0x300000 : U32), (Mmu.initTo 0x300000 fun _ => 0).translate v = some v) ↔
      (0x300000 : U32).toNat ≤ 0x3FF000) :=
  Mmu.identityMapping_except_tables (fun _ => 0) (by decide) (by decide)

end Identity

end Init

end LtMicros
