import LtMicros.PageMapping
import LtMicros.PagePoolRuns

/-!
# What mapping a page leaves of the kernel half

One address space on its own: what `AddPageToPageDirectory` changes in the kernel
half, for a page of the user half, of the kernel half, and of the window through
which the tables are reached.
-/

namespace LtMicros

open Lib Lib.Frames

/-- The block is on the list of available ones. -/
def PagePool.Available (p : PagePool) (b : ℕ) : Prop :=
  ∃ l, Chain p.next p.availPageList l ∧ b ∈ l

/-- The page of `a` is that of a block that was taken from the pool. -/
def NewPoolPage (k k' : KernelMem) (a : U32) : Prop :=
  ∃ b, k.gPagePool.Available b ∧ ¬ k'.gPagePool.Available b ∧
    (k.gPagePool.blocks b).addr = frameOf a

/-- The pool has lost blocks only, and those that are left are where they were. -/
structure PoolShrinks (p p' : PagePool) : Prop where
  available : ∀ b, p'.Available b → p.Available b
  addr : ∀ b, (p'.blocks b).addr = (p.blocks b).addr

/-- The shared entries of the directory `d` are as before, and of the kernel's
tables only the entries of new pages of the pool have changed. -/
structure KernelHalfKept (k k' : KernelMem) (d : U32) : Prop where
  entries : ∀ i : U32, i.toNat < 256 ∨ i = 1023 → k'.mmu.phys (slot d i) = k.mmu.phys (slot d i)
  tables : ∀ a, a < vUserBaseAddr → ¬ NewPoolPage k k' a →
    k'.mmu.phys (kernelPte a) = k.mmu.phys (kernelPte a)

/-- The current address space `d` is in order. -/
structure Sane (k : KernelMem) (d : U32) : Prop where
  directory : Directory k.mmu.phys d
  current : k.mmu.cr3 = d
  reserved : k.gPmm.Reserved
  pool : k.gPagePool.AvailInPool
  used : k.gPmm.used (pageOf d) = true ∧ pageOf d ≠ 0xFFFFF
  high : 0x800000 ≤ d.toNat
  tables : ∀ i, UserIndex i → ∀ t, PointsTo (k.mmu.phys (slot d i)) t → OffKernel t ∧ t ≠ d
  pageZero : ∀ g, PointsTo (k.mmu.phys (slot (kernelTable 0) 0)) g → OffKernel g ∧ g ≠ d

section Pool

variable {p p' p'' : PagePool} {k k' k'' : KernelMem} {a d : U32} {b c : ℕ}

theorem PoolShrinks.refl (p : PagePool) : PoolShrinks p p := ⟨fun _ h => h, fun _ => rfl⟩

theorem PoolShrinks.trans (h : PoolShrinks p p') (h' : PoolShrinks p' p'') : PoolShrinks p p'' :=
  ⟨fun b hb => h.available b (h'.available b hb), fun b => (h'.addr b).trans (h.addr b)⟩

/-- A block is taken from the head of the list. -/
theorem PagePool.available_takeBlock (h : p.AvailInPool) (hb : p.availPageList = some b) :
    (p.takeBlock b).Available c ↔ p.Available c ∧ c ≠ b := by
  obtain ⟨l, hchain, -⟩ := h
  obtain ⟨rest, rfl, hrest⟩ := hchain.chain_cons hb
  obtain ⟨-, havail, -, hnext⟩ := p.takeBlock_spec b
  have hnot := (List.nodup_cons.mp hchain.nodup).1
  have hchain' : Chain (p.takeBlock b).next (p.takeBlock b).availPageList rest := by
    rw [havail, hnext]
    exact hrest.update_of_not_mem hnot _
  constructor
  · rintro ⟨l, hl, hc⟩
    obtain rfl := hchain'.unique hl
    refine ⟨⟨_, hchain, List.mem_cons_of_mem _ hc⟩, ?_⟩
    rintro rfl
    exact hnot hc
  · rintro ⟨⟨l, hl, hc⟩, hne⟩
    obtain rfl := hchain.unique hl
    rcases List.mem_cons.mp hc with rfl | hc
    · exact absurd rfl hne
    · exact ⟨rest, hchain', hc⟩

theorem PoolShrinks.takeBlock (h : p.AvailInPool) (hb : p.availPageList = some b) :
    PoolShrinks p (p.takeBlock b) :=
  ⟨fun _ hc => ((PagePool.available_takeBlock h hb).mp hc).1, (p.takeBlock_spec b).1.addr⟩

/-- The new pages lie in the area of the pool. -/
theorem NewPoolPage.inPool (h : NewPoolPage k k' a) (hpool : k.gPagePool.AvailInPool) :
    InPool (frameOf a) := by
  obtain ⟨b, ⟨l, hchain, hb⟩, -, heq⟩ := h
  obtain ⟨l', hchain', hall⟩ := hpool
  obtain rfl := hchain.unique hchain'
  rw [← heq]
  exact hall b hb

theorem NewPoolPage.first (h : NewPoolPage k k' a) (hshrinks : PoolShrinks k'.gPagePool k''.gPagePool) :
    NewPoolPage k k'' a := by
  obtain ⟨b, hb, hnot, heq⟩ := h
  exact ⟨b, hb, fun hb' => hnot (hshrinks.available b hb'), heq⟩

theorem NewPoolPage.second (h : NewPoolPage k' k'' a) (hshrinks : PoolShrinks k.gPagePool k'.gPagePool) :
    NewPoolPage k k'' a := by
  obtain ⟨b, hb, hnot, heq⟩ := h
  exact ⟨b, hshrinks.available b hb, hnot, (hshrinks.addr b).symm.trans heq⟩

theorem KernelHalfKept.refl (k : KernelMem) (d : U32) : KernelHalfKept k k d :=
  ⟨fun _ _ => rfl, fun _ _ _ => rfl⟩

theorem KernelHalfKept.trans (h : KernelHalfKept k k' d) (h' : KernelHalfKept k' k'' d)
    (hs : PoolShrinks k.gPagePool k'.gPagePool) (hs' : PoolShrinks k'.gPagePool k''.gPagePool) :
    KernelHalfKept k k'' d := by
  constructor
  · intro i hi
    rw [h'.entries i hi, h.entries i hi]
  · intro a ha hnew
    rw [h'.tables a ha fun hn => hnew (hn.second hs), h.tables a ha fun hn => hnew (hn.first hs')]

end Pool

/-! ## Words of the kernel half -/

section Words

variable {phys : U32 → U32} {a d g i j t v w p flags : U32}

/-- The entry of a kernel page is not in another frame. -/
theorem set_kernelPte (ha : a < vUserBaseAddr) (ht : IsFrame t) (hoff : OffKernel t)
    (hi : i.toNat < 1024) : set phys t i w (kernelPte a) = phys (kernelPte a) := by
  have hkernel := dirIndex_kernel ha
  rw [kernelPte_eq]
  exact set_of_frame_ne ht (isFrame_kernelTable hkernel) hi (tableIndex_lt a)
    (hoff.ne_kernelTable hkernel).symm

theorem fill_kernelPte (ha : a < vUserBaseAddr) (ht : IsFrame t) (hoff : OffKernel t)
    (x : U32 → U32) : fill phys t x 1024 (kernelPte a) = phys (kernelPte a) := by
  have hkernel := dirIndex_kernel ha
  rw [kernelPte_eq]
  exact fill_of_frame_ne ht (isFrame_kernelTable hkernel) (tableIndex_lt a) phys x (Nat.le_refl _)
    (hoff.ne_kernelTable hkernel).symm

/-- Two kernel pages have different entries. -/
theorem set_kernelPte_ne (ha : a < vUserBaseAddr) (hv : v < vUserBaseAddr)
    (hne : frameOf a ≠ frameOf v) :
    set phys (kernelTable (dirIndex v)) (tableIndex v) w (kernelPte a) = phys (kernelPte a) := by
  have hka := dirIndex_kernel ha
  have hkv := dirIndex_kernel hv
  rw [kernelPte_eq, set_slot (isFrame_kernelTable hkv) (isFrame_kernelTable hka)
    (tableIndex_lt v) (tableIndex_lt a), if_neg]
  rintro ⟨htable, hindex⟩
  have hdir := kernelTable_inj hka hkv htable
  have hpage := page_eq_iff.mpr ⟨hdir, hindex⟩
  apply hne
  apply BitVec.eq_of_toNat_eq
  rw [toNat_frameOf, toNat_frameOf, hpage]

theorem set_kernelPte_self : set phys (kernelTable (dirIndex v)) (tableIndex v) w (kernelPte v) =
    w := by
  rw [kernelPte_eq]
  exact set_self _ _ _ _

/-- The bit of `PAGE_NON_PRIVILEGED_ACCESS`, which the kernel's entries lack. -/
def UserBit (w : U32) : Prop := w.getLsbD 2 = true

theorem userBit_setPageTableEntry (hflags : flags = presentFlags ∨ flags = absentFlags) :
    UserBit (setPageTableEntry p flags) := by
  rw [UserBit, setPageTableEntry, setEntryFields]
  simp (disch := decide) only [getLsbD_setField, ite_true, if_neg]
  rcases hflags with rfl | rfl <;> decide

theorem not_userBit_kernelEntry (pAddr : U32) : ¬ UserBit (kernelEntry pAddr) := by
  rw [UserBit, kernelEntry, setPageTableEntry, setEntryFields]
  simp (disch := decide) only [getLsbD_setField, ite_true, if_neg]
  decide

theorem not_userBit_kernelPde (i : U32) : ¬ UserBit (kernelPde i) := by
  rw [UserBit, kernelPde, setPageDirectoryEntry, setEntryFields]
  simp (disch := decide) only [getLsbD_setField, ite_true, if_neg]
  decide

end Words

/-! ## The address space stays in order -/

section Sane

variable {k k' : KernelMem} {pds : List U32} {d f g i t v w p flags : U32} {b : ℕ}

theorem Spaces.sane (h : Spaces k pds) (hd : d ∈ pds) (hcur : k.mmu.cr3 = d) : Sane k d := by
  obtain ⟨hhigh, hused, hne⟩ := h.pages d hd
  constructor
  · exact h.directory hd
  · exact hcur
  · exact h.reserved
  · exact h.pool
  · exact ⟨hused, hne⟩
  · exact hhigh
  · intro i hi t ht
    have htable := h.tables d hd i hi t ht
    refine ⟨htable.off, ?_⟩
    rintro rfl
    exact htable.notDirectory (List.mem_cons_of_mem _ hd)
  · intro g hg
    have hzero : g = 0 := hg.2.symm.trans h.pageZero.2
    rw [hzero]
    refine ⟨.inl (by decide), ?_⟩
    rintro rfl
    exact absurd hhigh (by decide)

theorem Sane.directory_eq (h : Sane k d) : k.mmu.directory = d := by
  rw [Mmu.directory, h.current]
  exact h.directory.frame.frameOf_eq

theorem Sane.currentDirectory (h : Sane k d) : Directory k.mmu.phys k.mmu.directory := by
  rw [h.directory_eq]
  exact h.directory

theorem Sane.selfMapped (h : Sane k d) : k.mmu.SelfMapped := h.currentDirectory.self

/-- The page that the bitmap answers may be mapped, or become a table. -/
theorem Sane.gives (h : Sane k d) :
    OffKernel (frameOf k.gPmm.getFreePage.1) ∧ frameOf k.gPmm.getFreePage.1 ≠ d := by
  have hgives := h.reserved.gives
  have hhigh := hgives.high
  constructor
  · rw [OffKernel]
    omega
  · exact (hgives.apart d h.used.1 h.used.2).symm

/-- What a step must leave in place. -/
theorem Sane.update (h : Sane k d) (hcr3 : k'.mmu.cr3 = k.mmu.cr3)
    (hmono : ∀ q, k.gPmm.used q = true → k'.gPmm.used q = true)
    (hpool : k'.gPagePool.AvailInPool)
    (hentries : ∀ i : U32, i.toNat < 256 ∨ i = 1023 →
      k'.mmu.phys (slot d i) = k.mmu.phys (slot d i))
    (htables : ∀ i, UserIndex i → ∀ t, PointsTo (k'.mmu.phys (slot d i)) t →
      PointsTo (k.mmu.phys (slot d i)) t ∨ OffKernel t ∧ t ≠ d)
    (hzero : ∀ g, PointsTo (k'.mmu.phys (slot (kernelTable 0) 0)) g →
      PointsTo (k.mmu.phys (slot (kernelTable 0) 0)) g ∨ OffKernel g ∧ g ≠ d) : Sane k' d := by
  constructor
  · exact h.directory.congr (fun i hi => hentries i (.inl hi)) (hentries 1023 (.inr rfl))
  · rw [hcr3]
    exact h.current
  · exact h.reserved.mono hmono
  · exact hpool
  · exact ⟨hmono _ h.used.1, h.used.2⟩
  · exact h.high
  · intro i hi t ht
    rcases htables i hi t ht with hold | hnew
    · exact h.tables i hi t hold
    · exact hnew
  · intro g hg
    rcases hzero g hg with hold | hnew
    · exact h.pageZero g hold
    · exact hnew

theorem Sane.takePage (h : Sane k d) : Sane k.takePage d := by
  apply h.update
  · rfl
  · exact h.reserved.gives.mono
  · exact h.pool
  · exact fun _ _ => rfl
  · exact fun _ _ _ ht => .inl ht
  · exact fun _ hg => .inl hg

/-- The entry of page 0 is that of a kernel page. -/
theorem kernelPte_zero : kernelPte 0 = slot (kernelTable 0) 0 := kernelPte_eq 0

/-! ### A page of the kernel half -/

/-- The entry of a kernel page becomes `w`, which may map it to the frame `f`. -/
theorem Sane.setKernel (h : Sane k d) (hv : v < vUserBaseAddr)
    (hframe : ∀ g, PointsTo w g → OffKernel g ∧ g ≠ d) :
    Sane (k.withPhys (set k.mmu.phys (kernelTable (dirIndex v)) (tableIndex v) w)) d := by
  have hkernel := dirIndex_kernel hv
  have hslot (j : U32) (hj : j.toNat < 1024) :
      set k.mmu.phys (kernelTable (dirIndex v)) (tableIndex v) w (slot d j) =
        k.mmu.phys (slot d j) :=
    set_kernel_slot hv h.directory.frame h.directory.off hj
  apply h.update
  · rfl
  · exact fun _ hq => hq
  · exact h.pool
  · exact fun i hi => hslot i (lt_of_shared hi)
  · intro i hi t ht
    rw [KernelMem.withPhys_phys, hslot i (Nat.lt_succ_of_lt hi.2)] at ht
    exact .inl ht
  · intro g hg
    rw [KernelMem.withPhys_phys, set_slot (isFrame_kernelTable hkernel)
      (isFrame_kernelTable (by decide)) (tableIndex_lt v) (by decide)] at hg
    split at hg
    · exact .inr (hframe g hg)
    · exact .inl hg

/-- A page of the kernel half is mapped like one of the user half. -/
theorem Sane.addKernelPage (h : Sane k d) (hv : v < vUserBaseAddr) :
    k.addPageToPageDirectory v p flags = .ret (k.withPhys
      (set k.mmu.phys (kernelTable (dirIndex v)) (tableIndex v) (setPageTableEntry p flags))) :=
  addPageToPageDirectory_present h.selfMapped (h.currentDirectory.kernel hv)

/-! ### A page of the window -/

/-- The entries of a directory that maps itself are reached in its last pages. -/
theorem tableOf_self {phys : U32 → U32} (hself : PointsTo (phys (slot d 1023)) d)
    (hv : dirIndex v = 1023) : TableOf phys d v d := by
  rw [TableOf, hv]
  exact hself

theorem addWindowPage (hself : k.mmu.SelfMapped) (hv : dirIndex v = 1023) :
    k.addPageToPageDirectory v p flags = .ret (k.withPhys
      (set k.mmu.phys k.mmu.directory (tableIndex v) (setPageTableEntry p flags))) :=
  addPageToPageDirectory_present hself (tableOf_self hself hv)

/-- An entry of the user half is written through the window. -/
theorem Sane.setEntry (h : Sane k d) (hi : UserIndex i)
    (hframe : ∀ g, PointsTo w g → OffKernel g ∧ g ≠ d) :
    Sane (k.withPhys (set k.mmu.phys d i w)) d ∧
      KernelHalfKept k (k.withPhys (set k.mmu.phys d i w)) d := by
  have hdf := h.directory.frame
  have hi' : i.toNat < 1024 := Nat.lt_succ_of_lt hi.2
  have hentries (j : U32) (hj : j.toNat < 256 ∨ j = 1023) :
      set k.mmu.phys d i w (slot d j) = k.mmu.phys (slot d j) :=
    set_of_index_ne hdf hdf hi' (lt_of_shared hj) (userIndex_ne hi hj)
  have hkernel (a : U32) (ha : a < vUserBaseAddr) :
      set k.mmu.phys d i w (kernelPte a) = k.mmu.phys (kernelPte a) :=
    set_kernelPte ha hdf h.directory.off hi'
  constructor
  · apply h.update
    · rfl
    · exact fun _ hq => hq
    · exact h.pool
    · exact hentries
    · intro j hj t ht
      rw [KernelMem.withPhys_phys, set_slot hdf hdf hi' (Nat.lt_succ_of_lt hj.2)] at ht
      split at ht
      · exact .inr (hframe t ht)
      · exact .inl ht
    · intro g hg
      rw [KernelMem.withPhys_phys, ← kernelPte_zero, hkernel 0 (by decide), kernelPte_zero] at hg
      exact .inl hg
  · exact ⟨hentries, fun a ha _ => hkernel a ha⟩

/-! ### A page of the user half -/

theorem Sane.afterPageAlloc (h : Sane k d) (hb : k.gPagePool.availPageList = some b) :
    Sane (k.afterPageAlloc b) d ∧ KernelHalfKept k (k.afterPageAlloc b) d := by
  have hin := h.pool.head hb
  have hkernel := dirIndex_kernel hin.lt
  have hslot (j : U32) (hj : j.toNat < 1024) :
      (k.afterPageAlloc b).mmu.phys (slot d j) = k.mmu.phys (slot d j) :=
    set_kernel_slot hin.lt h.directory.frame h.directory.off hj
  constructor
  · apply h.update
    · rfl
    · exact h.reserved.gives.mono
    · exact h.pool.takeBlock hb
    · exact fun i hi => hslot i (lt_of_shared hi)
    · intro i hi t ht
      rw [hslot i (Nat.lt_succ_of_lt hi.2)] at ht
      exact .inl ht
    · intro g hg
      left
      have hlow : (k.afterPageAlloc b).mmu.phys (slot (kernelTable 0) 0) =
          k.mmu.phys (slot (kernelTable 0) 0) := set_kernel_low hin.2.1 hin.lt (by decide)
      rwa [hlow] at hg
  · refine ⟨fun i hi => hslot i (lt_of_shared hi), ?_⟩
    intro a ha hnew
    by_cases heq : frameOf a = frameOf (k.gPagePool.blocks b).addr
    · obtain ⟨l, hchain, -⟩ := h.pool
      obtain ⟨rest, rfl, -⟩ := hchain.chain_cons hb
      refine absurd ⟨b, ⟨_, hchain, List.mem_cons_self⟩, ?_, ?_⟩ hnew
      · intro hb'
        exact ((PagePool.available_takeBlock h.pool hb).mp hb').2 rfl
      · rw [heq, hin.1.frameOf_eq]
    · exact set_kernelPte_ne ha hin.lt heq

/-- A frame becomes the table of `v`, after the frame `g` has been cleared. -/
theorem Sane.newTable (h : Sane k d) (hv : InUser v) (hg : IsFrame g) (hgoff : OffKernel g)
    (hgd : g ≠ d) (htoff : OffKernel (frameOf t)) (htd : frameOf t ≠ d) {phys : U32 → U32}
    (hphys : phys = set (fill (set k.mmu.phys d (dirIndex v)
      (setPageDirectoryEntry t (pagePresent ||| pageWriteable ||| flags))) g (fun _ => 0) 1024)
      (frameOf t) (tableIndex v) w) :
    Sane (k.withPhys phys) d ∧ KernelHalfKept k (k.withPhys phys) d := by
  have hdf := h.directory.frame
  have htf := isFrame_frameOf t
  have hslot (j : U32) (hj : j.toNat < 1024) : phys (slot d j) = if j = dirIndex v then
      setPageDirectoryEntry t (pagePresent ||| pageWriteable ||| flags)
      else k.mmu.phys (slot d j) := by
    rw [hphys, set_of_frame_ne htf hdf (tableIndex_lt v) hj htd.symm,
      fill_of_frame_ne hg hdf hj _ _ (Nat.le_refl _) hgd.symm, set_slot hdf hdf (dirIndex_lt v) hj]
    simp only [true_and]
  have hkernel (a : U32) (ha : a < vUserBaseAddr) : phys (kernelPte a) = k.mmu.phys (kernelPte a) := by
    rw [hphys, set_kernelPte ha htf htoff (tableIndex_lt v), fill_kernelPte ha hg hgoff,
      set_kernelPte ha hdf h.directory.off (dirIndex_lt v)]
  have hentries (i : U32) (hi : i.toNat < 256 ∨ i = 1023) :
      phys (slot d i) = k.mmu.phys (slot d i) := by
    rw [hslot i (lt_of_shared hi), if_neg (userIndex_ne hv.userIndex hi)]
  constructor
  · apply h.update
    · rfl
    · exact fun _ hq => hq
    · exact h.pool
    · exact hentries
    · intro i hi u hu
      rw [KernelMem.withPhys_phys, hslot i (Nat.lt_succ_of_lt hi.2)] at hu
      split at hu
      · have hframe := frameOf_setPageDirectoryEntry t (pagePresent ||| pageWriteable ||| flags)
        have heq : u = frameOf t := hu.2.symm.trans hframe
        rw [heq]
        exact .inr ⟨htoff, htd⟩
      · exact .inl hu
    · intro u hu
      rw [KernelMem.withPhys_phys, ← kernelPte_zero, hkernel 0 (by decide), kernelPte_zero] at hu
      exact .inl hu
  · exact ⟨hentries, fun a ha _ => hkernel a ha⟩

/-- The page at address 0 can only be cleared when it is mapped. -/
theorem cleanPageTable_zero {m m' : Mmu} (h : Directory m.phys m.directory)
    (hr : m.cleanPageTable 0 = .ret m') :
    flagOn (m.phys (slot (kernelTable 0) 0)) pagePresent = true := by
  rw [Mmu.cleanPageTable, List.range_eq_range', List.range'_succ, List.foldlM_cons] at hr
  obtain ⟨m₁, hwrite, -⟩ := Outcome.bind_eq_ret.mp hr
  obtain ⟨pAddr, htranslate, -⟩ := Outcome.bind_eq_ret.mp hwrite
  by_contra habsent
  have hnone : m.translate (0 + BitVec.ofNat 32 (4 * 0)) = none := by
    have hself : m.translate 0 = m.translateIn m.directory 0 := by
      rw [Mmu.translateIn, Mmu.translate, Mmu.translate]
      have hframe : m.directory &&& 0xFFFFF000#32 = m.directory := h.frame.frameOf_eq
      dsimp only
      rw [hframe]
      rfl
    have hzero : (0 : U32) + BitVec.ofNat 32 (4 * 0) = 0 := by decide
    rw [hzero, hself, translateIn_eq h.frame, h.tables _ (by decide), if_pos
      (pointsTo_kernelPde (by decide)).1]
    have hframe : frameOf (kernelPde (dirIndex 0)) = kernelTable 0 :=
      (pointsTo_kernelPde (by decide)).2
    dsimp only
    rw [hframe]
    exact if_neg habsent
  rw [hnone] at htranslate
  cases htranslate

/-- A page of the user half keeps the kernel half, also when memory is exhausted
or page 0 is gone, as long as the call returns. -/
theorem Sane.userPage (h : Sane k d) (hv : InUser v)
    (hr : k.addPageToPageDirectory v p flags = .ret k') :
    Sane k' d ∧ KernelHalfKept k k' d ∧ PoolShrinks k.gPagePool k'.gPagePool := by
  have hcur := h.currentDirectory
  have hdf := h.directory.frame
  obtain ⟨hlo, hhi⟩ := hv.userIndex
  cases hpresent : flagOn (k.mmu.phys (slot d (dirIndex v))) pagePresent with
  | true =>
    have ht : TableOf k.mmu.phys d v _ := pointsTo_frameOf hpresent
    generalize frameOf (k.mmu.phys (slot d (dirIndex v))) = t at ht
    obtain ⟨htoff, htd⟩ := h.tables _ hv.userIndex t ht
    have htf := ht.frame
    rw [addPageToPageDirectory_present (t := t) h.selfMapped (by rwa [h.directory_eq])] at hr
    cases hr
    have hslot (j : U32) (hj : j.toNat < 1024) :
        set k.mmu.phys t (tableIndex v) (setPageTableEntry p flags) (slot d j) =
          k.mmu.phys (slot d j) :=
      set_of_frame_ne htf hdf (tableIndex_lt v) hj htd.symm
    have hkernel (a : U32) (ha : a < vUserBaseAddr) :
        set k.mmu.phys t (tableIndex v) (setPageTableEntry p flags) (kernelPte a) =
          k.mmu.phys (kernelPte a) := set_kernelPte ha htf htoff (tableIndex_lt v)
    refine ⟨?_, ⟨fun i hi => hslot i (lt_of_shared hi), fun a ha _ => hkernel a ha⟩, .refl _⟩
    apply h.update
    · rfl
    · exact fun _ hq => hq
    · exact h.pool
    · exact fun i hi => hslot i (lt_of_shared hi)
    · intro i hi u hu
      rw [KernelMem.withPhys_phys, hslot i (Nat.lt_succ_of_lt hi.2)] at hu
      exact .inl hu
    · intro g hg
      rw [KernelMem.withPhys_phys, ← kernelPte_zero, hkernel 0 (by decide), kernelPte_zero] at hg
      exact .inl hg
  | false =>
    have habsent : flagOn (k.mmu.phys (slot k.mmu.directory (dirIndex v))) pagePresent = false := by
      rwa [h.directory_eq]
    cases hb : k.gPagePool.availPageList with
    | some b =>
      have hin := h.pool.head hb
      obtain ⟨hafter, hkept⟩ := h.afterPageAlloc hb
      obtain ⟨hfoff, hfd⟩ := h.gives
      have hentry : PointsTo ((k.afterPageAlloc b).mmu.phys
          (slot (kernelTable (dirIndex (k.gPagePool.blocks b).addr))
            (tableIndex (k.gPagePool.blocks b).addr))) (frameOf k.gPmm.getFreePage.1) := by
        show PointsTo (set _ _ _ _ _) _
        rw [set_self]
        exact pointsTo_kernelEntry _
      have hmain := @addPageToPageDirectory_absent_at _ _ p flags _ _ _ hcur habsent hlo hhi
        (pageAlloc_eq hcur hb hin) hafter.currentDirectory hin.1 hin.lt hfoff
        (by rw [hafter.directory_eq]; exact hfd.symm) hentry
      rw [hafter.directory_eq] at hmain
      cases hr.symm.trans hmain
      obtain ⟨hsane, hkept'⟩ := hafter.newTable hv (isFrame_frameOf _) hfoff hfd hfoff hfd rfl
      have hshrinks : PoolShrinks k.gPagePool (k.afterPageAlloc b).gPagePool :=
        PoolShrinks.takeBlock h.pool hb
      exact ⟨hsane, hkept.trans hkept' hshrinks (.refl _), hshrinks⟩
    | none =>
      have halloc : k.pageAlloc = .ret (⟨0, 0⟩, k) := pageAlloc_none hb
      -- the call has returned, so that page 0 was there to be cleared
      have hzero : flagOn (k.mmu.phys (slot (kernelTable 0) 0)) pagePresent = true := by
        have hr' := hr
        rw [KernelMem.addPageToPageDirectory, Mmu.read_pdeOf hcur] at hr'
        simp only [Outcome.ret_bind, habsent, KernelMem.addPageTable, halloc, Bool.false_eq_true,
          if_false] at hr'
        rw [Mmu.write_pdeOf hcur] at hr'
        simp only [Outcome.ret_bind] at hr'
        obtain ⟨k₂, htable, -⟩ := Outcome.bind_eq_ret.mp hr'
        obtain ⟨m₂, hclean, -⟩ := Outcome.bind_eq_ret.mp htable
        have hcleaned := cleanPageTable_zero (hcur.set_user hlo hhi) hclean
        have hslot := @set_kernelPte k.mmu.phys 0 (dirIndex v) d
          (setPageDirectoryEntry 0 (pagePresent ||| pageWriteable ||| flags)) (by decide) hdf
          h.directory.off (dirIndex_lt v)
        rw [kernelPte_zero] at hslot
        rw [h.directory_eq] at hcleaned
        dsimp only at hcleaned
        rwa [hslot] at hcleaned
      have hg := pointsTo_frameOf hzero
      generalize frameOf (k.mmu.phys (slot (kernelTable 0) 0)) = g at hg
      obtain ⟨hgoff, hgd⟩ := h.pageZero g hg
      have hmain := @addPageToPageDirectory_absent_at _ _ p flags _ _ _ hcur habsent hlo hhi
        halloc hcur (by decide) (by decide) hgoff (by rw [h.directory_eq]; exact hgd.symm) hg
      rw [h.directory_eq] at hmain
      cases hr.symm.trans hmain
      have hgf : IsFrame g := by
        rw [← hg.2]
        exact isFrame_frameOf _
      have hd0 : frameOf 0 ≠ d := by
        intro heq
        have hhigh := h.high
        rw [← heq] at hhigh
        exact absurd hhigh (by decide)
      obtain ⟨hsane, hkept⟩ := h.newTable hv hgf hgoff hgd (.inl (by decide)) hd0 rfl
      exact ⟨hsane, hkept, .refl _⟩

end Sane

end LtMicros
