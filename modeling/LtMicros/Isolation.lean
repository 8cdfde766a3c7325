import LtMicros.Supply

/-!
# Address spaces are isolated

No page table belongs to two processes, so that a call on one process leaves the
tables of the others alone; the kernel half is the same in all of them.
-/

namespace LtMicros

open Lib Lib.Frames

/-- What a virtual address translates to in the page directory `d`. -/
def Mmu.translateIn (m : Mmu) (d v : U32) : Option U32 :=
  Mmu.translate { m with cr3 := d } v

/-- No page table is used twice. -/
def Unshared (phys : U32 → U32) (pds : List U32) : Prop :=
  ∀ d ∈ pds, ∀ d' ∈ pds, ∀ i i', UserIndex i → UserIndex i' → ∀ t,
    PointsTo (phys (slot d i)) t → PointsTo (phys (slot d' i')) t → d = d' ∧ i = i'

/-- The directory `d` and the tables of its user half are the same words. -/
structure SameUser (phys phys' : U32 → U32) (d : U32) : Prop where
  directory : ∀ j : U32, j.toNat < 1024 → phys' (slot d j) = phys (slot d j)
  tables : ∀ i, UserIndex i → ∀ t, PointsTo (phys (slot d i)) t →
    ∀ j : U32, j.toNat < 1024 → phys' (slot t j) = phys (slot t j)

/-- A page that `GetFreePage` answers while there is one. -/
structure FreshFrame (k : KernelMem) (pds : List U32) (f : U32) : Prop where
  eq : k.gPmm.getFreePage.1 = f
  frame : IsFrame f
  unused : k.gPmm.used (pageOf f) = false
  used : ∀ q, k.gPmm.getFreePage.2.used q = (decide (q = pageOf f) || k.gPmm.used q)
  high : 0x800000 ≤ f.toNat
  notDirectory : f ∉ allDirectories pds

section Isolation

variable {phys phys' phys'' : U32 → U32} {k k' : KernelMem} {pds : List U32}
  {d d' v p flags a f t : U32} {b : ℕ}

theorem SameUser.refl (phys : U32 → U32) (d : U32) : SameUser phys phys d :=
  ⟨fun _ _ => rfl, fun _ _ _ _ _ _ => rfl⟩

theorem SameUser.trans (h : SameUser phys phys' d) (h' : SameUser phys' phys'' d) :
    SameUser phys phys'' d := by
  constructor
  · intro j hj
    rw [h'.directory j hj, h.directory j hj]
  · intro i hi t ht j hj
    have ht' : PointsTo (phys' (slot d i)) t := by
      rwa [h.directory i (Nat.lt_succ_of_lt hi.2)]
    rw [h'.tables i hi t ht' j hj, h.tables i hi t ht j hj]

/-- The words of the walk. -/
theorem translateIn_eq {m : Mmu} (hd : IsFrame d) (v : U32) :
    m.translateIn d v =
      if flagOn (m.phys (slot d (dirIndex v))) pagePresent then
        let pte := m.phys (slot (frameOf (m.phys (slot d (dirIndex v)))) (tableIndex v))
        if flagOn pte pagePresent then some (frameOf pte + (v &&& 0xFFF#32)) else none
      else none := by
  have hframe : d &&& 0xFFFFF000#32 = d := hd.frameOf_eq
  rw [Mmu.translateIn, Mmu.translate]
  dsimp only
  rw [hframe]
  rfl

/-- The user half translates as before, with the entries behind the last one. -/
theorem SameUser.translateIn {m m' : Mmu} (h : SameUser m.phys m'.phys d)
    (hdir : Directory m.phys d) (hv : vUserBaseAddr ≤ v) :
    m'.translateIn d v = m.translateIn d v := by
  have hpde := h.directory (dirIndex v) (dirIndex_lt v)
  rw [translateIn_eq hdir.frame, translateIn_eq hdir.frame, hpde]
  cases hpresent : flagOn (m.phys (slot d (dirIndex v))) pagePresent with
  | false => rfl
  | true =>
    have ht := pointsTo_frameOf hpresent
    have hpte : m'.phys (slot (frameOf (m.phys (slot d (dirIndex v)))) (tableIndex v)) =
        m.phys (slot (frameOf (m.phys (slot d (dirIndex v)))) (tableIndex v)) := by
      by_cases hlast : (dirIndex v).toNat = 1023
      · have hindex : dirIndex v = 1023 := BitVec.eq_of_toNat_eq hlast
        rw [hindex, show frameOf (m.phys (slot d 1023)) = d from hdir.self.2]
        exact h.directory _ (tableIndex_lt v)
      · have hv : 0x40000000 ≤ v.toNat := hv
        have hlt := dirIndex_lt v
        have huser : UserIndex (dirIndex v) := by
          constructor
          · rw [toNat_dirIndex]
            omega
          · omega
        exact h.tables _ huser _ ht _ (tableIndex_lt v)
    rw [hpte]

/-- The kernel half translates as in the kernel's own directory. -/
theorem Directory.translateIn_kernel {m : Mmu} (hdir : Directory m.phys d)
    (hkernel : Directory m.phys d') (hv : v < vUserBaseAddr) :
    m.translateIn d v = m.translateIn d' v := by
  have hindex := dirIndex_kernel hv
  rw [translateIn_eq hdir.frame, translateIn_eq hkernel.frame, hdir.tables _ hindex,
    hkernel.tables _ hindex]

/-! ## What each step leaves alone -/

theorem Spaces.freshFrame (h : Spaces k pds) (hfree : k.gPmm.freePages.Nonempty) :
    ∃ f, FreshFrame k pds f := by
  rcases k.gPmm.getFreePage_eq with ⟨hempty, -⟩ | ⟨f, hf, hget, hunused, hused, -, -⟩
  · rw [hempty] at hfree
    exact absurd hfree Finset.not_nonempty_empty
  · have hhigh := h.reserved.gives.high
    have hnot := h.isTable_gives.notDirectory
    rw [hget, hf.frameOf_eq] at hhigh hnot
    exact ⟨f, hget, hf, hunused, hused, hhigh, hnot⟩

theorem FreshFrame.off (h : FreshFrame k pds f) : OffKernel f := by
  have hhigh := h.high
  rw [OffKernel]
  omega

/-- A page that is in use is not the fresh one. -/
theorem FreshFrame.ne_used (h : FreshFrame k pds f) (ht : k.gPmm.used (pageOf t) = true) :
    t ≠ f := by
  rintro rfl
  rw [h.unused] at ht
  cases ht

/-- A page of the kernel half is mapped. -/
theorem Spaces.sameUser_kernel (h : Spaces k pds) (hlt : a < vUserBaseAddr) {w : U32}
    (hd : d ∈ pds) :
    SameUser k.mmu.phys (set k.mmu.phys (kernelTable (dirIndex a)) (tableIndex a) w) d := by
  have hdir := h.directory hd
  constructor
  · intro j hj
    exact set_kernel_slot hlt hdir.frame hdir.off hj
  · intro i hi t ht j hj
    have htf : IsFrame t := by
      rw [← ht.2]
      exact isFrame_frameOf _
    exact set_kernel_slot hlt htf (h.tables d hd i hi t ht).off hj

/-- A page is mapped into a table of another process. -/
theorem Spaces.sameUser_table (h : Spaces k pds) (hu : Unshared k.mmu.phys pds) (hv : InUser v)
    (hd : d ∈ pds) (hd' : d' ∈ pds) (hne : d' ≠ d) (ht : TableOf k.mmu.phys d v t) {w : U32} :
    SameUser k.mmu.phys (set k.mmu.phys t (tableIndex v) w) d' := by
  have htf := ht.frame
  have htable := h.tables d hd _ hv.userIndex t ht
  constructor
  · intro j hj
    apply set_of_frame_ne htf (h.directory hd').frame (tableIndex_lt v) hj
    rintro rfl
    exact htable.notDirectory (List.mem_cons_of_mem _ hd')
  · intro i hi t' ht' j hj
    have htf' : IsFrame t' := by
      rw [← ht'.2]
      exact isFrame_frameOf _
    apply set_of_frame_ne htf htf' (tableIndex_lt v) hj
    rintro rfl
    exact hne (hu d' hd' d hd i _ hi hv.userIndex t' ht' ht).1

/-- A fresh page becomes a table of another process. -/
theorem Spaces.sameUser_newTable (h : Spaces k pds) (hfresh : FreshFrame k pds f)
    (hd : d ∈ pds) (hd' : d' ∈ pds) (hne : d' ≠ d) {w : U32} :
    SameUser k.mmu.phys (newTable k.mmu.phys d v f flags w) d' := by
  have hdir := h.directory hd
  have hff : frameOf f = f := hfresh.frame.frameOf_eq
  constructor
  · intro j hj
    rw [newTable_slot hdir.frame (h.directory hd').frame hj, hff, if_neg, if_neg]
    · exact fun heq => hne heq.1
    · exact hfresh.ne_used (h.pages d' hd').2.1
  · intro i hi t ht j hj
    have htable := h.tables d' hd' i hi t ht
    have htf : IsFrame t := by
      rw [← ht.2]
      exact isFrame_frameOf _
    rw [newTable_slot hdir.frame htf hj, hff, if_neg (hfresh.ne_used htable.used), if_neg]
    rintro ⟨rfl, -⟩
    exact htable.notDirectory (List.mem_cons_of_mem _ hd)

/-- A fresh page becomes a page directory. -/
theorem Spaces.sameUser_newDirectory (h : Spaces k pds) (hfresh : FreshFrame k pds f)
    (hd : d ∈ pds) : SameUser k.mmu.phys (newDirectory k.mmu.phys f) d := by
  constructor
  · intro j hj
    rw [newDirectory_slot hfresh.frame (h.directory hd).frame hj,
      if_neg (hfresh.ne_used (h.pages d hd).2.1)]
  · intro i hi t ht j hj
    have htf : IsFrame t := by
      rw [← ht.2]
      exact isFrame_frameOf _
    rw [newDirectory_slot hfresh.frame htf hj,
      if_neg (hfresh.ne_used (h.tables d hd i hi t ht).used)]

/-! ## Tables are not shared -/

theorem Unshared.congr (h : Unshared phys pds)
    (hsame : ∀ d ∈ pds, ∀ i, UserIndex i → phys' (slot d i) = phys (slot d i)) :
    Unshared phys' pds := by
  intro d hd d' hd' i i' hi hi' t ht ht'
  rw [hsame d hd i hi] at ht
  rw [hsame d' hd' i' hi'] at ht'
  exact h d hd d' hd' i i' hi hi' t ht ht'

/-- A table in use by nobody becomes that of one directory entry. -/
theorem Unshared.withNewTable (h : Spaces k pds) (hu : Unshared k.mmu.phys pds)
    (hfresh : FreshFrame k pds f) (hd : d ∈ pds) {w : U32} :
    Unshared (newTable k.mmu.phys d v f flags w) pds := by
  have hff : frameOf f = f := hfresh.frame.frameOf_eq
  have hentry (g) (hg : g ∈ pds) (i) (hi : UserIndex i) (t)
      (ht : PointsTo (newTable k.mmu.phys d v f flags w (slot g i)) t) :
      g = d ∧ i = dirIndex v ∧ t = f ∨
        PointsTo (k.mmu.phys (slot g i)) t ∧ t ≠ f := by
    rw [newTable_slot (h.directory hd).frame (h.directory hg).frame (Nat.lt_succ_of_lt hi.2), hff,
      if_neg (hfresh.ne_used (h.pages g hg).2.1)] at ht
    split at ht
    · rename_i heq
      have hframe := frameOf_setPageDirectoryEntry f (pagePresent ||| pageWriteable ||| flags)
      left
      refine ⟨heq.1, heq.2, ?_⟩
      exact ht.2.symm.trans (hframe.trans hff)
    · exact .inr ⟨ht, hfresh.ne_used (h.tables g hg i hi t ht).used⟩
  intro d₁ hd₁ d₂ hd₂ i₁ i₂ hi₁ hi₂ t ht₁ ht₂
  rcases hentry d₁ hd₁ i₁ hi₁ t ht₁ with ⟨rfl, rfl, rfl⟩ | ⟨hold₁, hne₁⟩
  · rcases hentry d₂ hd₂ i₂ hi₂ t ht₂ with ⟨rfl, rfl, -⟩ | ⟨-, hne₂⟩
    · exact ⟨rfl, rfl⟩
    · exact absurd rfl hne₂
  · rcases hentry d₂ hd₂ i₂ hi₂ t ht₂ with ⟨-, -, rfl⟩ | ⟨hold₂, -⟩
    · exact absurd rfl hne₁
    · exact hu d₁ hd₁ d₂ hd₂ i₁ i₂ hi₁ hi₂ t hold₁ hold₂

/-- A new page directory has no tables of its own. -/
theorem Spaces.table_newDirectory (h : Spaces k pds) (hfresh : FreshFrame k pds f)
    (hd : d ∈ f :: pds) {i : U32} (hi : UserIndex i)
    (ht : PointsTo (newDirectory k.mmu.phys f (slot d i)) t) :
    d ∈ pds ∧ PointsTo (k.mmu.phys (slot d i)) t := by
  have hi' : i.toNat < 1024 := Nat.lt_succ_of_lt hi.2
  rcases List.mem_cons.mp hd with rfl | hd
  · rw [newDirectory_slot hfresh.frame hfresh.frame hi', if_pos rfl, if_neg, newEntries,
      if_neg] at ht
    · have hpresent := ht.1
      rw [not_present_absentEntry] at hpresent
      cases hpresent
    · have hlo := hi.1
      omega
    · rintro rfl
      exact absurd hi.2 (by decide)
  · rw [newDirectory_slot hfresh.frame (h.directory hd).frame hi',
      if_neg (hfresh.ne_used (h.pages d hd).2.1)] at ht
    exact ⟨hd, ht⟩

theorem Unshared.withNewDirectory (h : Spaces k pds) (hu : Unshared k.mmu.phys pds)
    (hfresh : FreshFrame k pds f) : Unshared (newDirectory k.mmu.phys f) (f :: pds) := by
  intro d₁ hd₁ d₂ hd₂ i₁ i₂ hi₁ hi₂ t ht₁ ht₂
  obtain ⟨hd₁, ht₁⟩ := h.table_newDirectory hfresh hd₁ hi₁ ht₁
  obtain ⟨hd₂, ht₂⟩ := h.table_newDirectory hfresh hd₂ hi₂ ht₂
  exact hu d₁ hd₁ d₂ hd₂ i₁ i₂ hi₁ hi₂ t ht₁ ht₂

/-! ## Steps -/

/-- The entry of a block of the pool is there before its page is taken. -/
theorem Spaces.poolEntry (h : Spaces k pds) (hb : k.gPagePool.availPageList = some b) :
    Spaces (k.withPhys (k.afterPageAlloc b).mmu.phys) pds := by
  have hin := h.pool.head hb
  exact h.setKernel hin.2.1 hin.lt rfl rfl
    (fun _ hq => hq) h.pool

theorem FreshFrame.withPhys (h : FreshFrame k pds f) (phys : U32 → U32) :
    FreshFrame (k.withPhys phys) pds f :=
  ⟨h.eq, h.frame, h.unused, h.used, h.high, h.notDirectory⟩

/-- While memory lasts, a page is added to a table that is there or to a fresh one. -/
theorem Adds.lasting (h : Adds k d v p flags k') (hs : Spaces k pds)
    (hmem : flagOn (k.mmu.phys (slot d (dirIndex v))) pagePresent = false → k.NotExhausted) :
    (∃ t, TableOf k.mmu.phys d v t ∧
      k' = k.withPhys (set k.mmu.phys t (tableIndex v) (setPageTableEntry p flags))) ∨
    ∃ b f, flagOn (k.mmu.phys (slot d (dirIndex v))) pagePresent = false ∧
      k.gPagePool.availPageList = some b ∧ FreshFrame k pds f ∧
      k' = (k.afterPageAlloc b).withPhys (newTable (k.afterPageAlloc b).mmu.phys d v f flags
        (setPageTableEntry p flags)) := by
  cases h with
  | present ht => exact .inl ⟨_, ht, rfl⟩
  | fresh habsent hb =>
    obtain ⟨f, hfresh⟩ := hs.freshFrame (hmem habsent).1
    refine .inr ⟨_, f, habsent, hb, hfresh, ?_⟩
    rw [hfresh.eq]
  | empty habsent hb => exact absurd hb (hmem habsent).2

/-- The page directories are in place, and no page table is used twice. -/
structure Separate (t : Tables) : Prop where
  spaces : Spaces t.k t.pds
  unshared : Unshared t.k.mmu.phys t.pds

/-- What adding a page to `d` leaves of the others, and of the tables. -/
theorem Adds.separate (h : Adds k d v p flags k') (hs : Separate ⟨k, pds⟩) (hd : d ∈ pds)
    (hv : InUser v)
    (hmem : flagOn (k.mmu.phys (slot d (dirIndex v))) pagePresent = false → k.NotExhausted) :
    Unshared k'.mmu.phys pds ∧
      ∀ d' ∈ pds, d' ≠ d → SameUser k.mmu.phys k'.mmu.phys d' := by
  obtain ⟨hspaces, hu⟩ := hs
  rcases h.lasting hspaces hmem with ⟨t, ht, rfl⟩ | ⟨b, f, -, hb, hfresh, rfl⟩
  · have htable := hspaces.tables d hd _ hv.userIndex t ht
    constructor
    · apply hu.congr
      intro g hg i hi
      apply set_of_frame_ne ht.frame (hspaces.directory hg).frame (tableIndex_lt v)
        (Nat.lt_succ_of_lt hi.2)
      rintro rfl
      exact htable.notDirectory (List.mem_cons_of_mem _ hg)
    · intro d' hd' hne
      exact hspaces.sameUser_table hu hv hd hd' hne ht
  · have hin := hspaces.pool.head hb
    have hentry := hspaces.poolEntry hb
    have hsame (g) (hg : g ∈ pds) := hspaces.sameUser_kernel hin.lt hg
      (w := kernelEntry k.gPmm.getFreePage.1)
    have hu' : Unshared (k.withPhys (k.afterPageAlloc b).mmu.phys).mmu.phys pds :=
      hu.congr fun g hg i hi => (hsame g hg).directory i (Nat.lt_succ_of_lt hi.2)
    constructor
    · exact Unshared.withNewTable hentry hu' (hfresh.withPhys _) hd
    · intro d' hd' hne
      exact (hsame d' hd').trans (hentry.sameUser_newTable (hfresh.withPhys _) hd hd' hne)

/-- The step is not one in the directory `d`. -/
def NotIn (d : U32) : TableOp → Prop
  | .userPage d' _ => d ≠ d'
  | .absentPage d' _ => d ≠ d'
  | _ => True

/-- What a step leaves of the tables, and of the directories it is not about. -/
theorem LastingStep.separate {t t' : Tables} {op : TableOp} (h : LastingStep t op t')
    (hs : Separate t) :
    Separate t' ∧ ∀ d ∈ t.pds, NotIn d op → d ∈ t'.pds ∧ SameUser t.k.mmu.phys t'.k.mmu.phys d := by
  have hspaces' := h.spaces hs.spaces
  obtain ⟨hstep, hmem⟩ := h
  have hbefore := hstep.consumes.notExhausted hmem
  obtain ⟨hspaces, hu⟩ := hs
  cases hstep with
  | @heapPage k pds a mmu hlo hhi hr =>
    obtain ⟨heq, ha, hlt⟩ := heapPage_eq hspaces hlo hhi hr
    have hsame (d) (hd : d ∈ pds) := hspaces.sameUser_kernel hlt hd
      (w := kernelEntry k.gPmm.getFreePage.1)
    have hphys : mmu.phys = (k.mapKernelPage a).mmu.phys := congrArg (fun k => k.mmu.phys) heq
    refine ⟨⟨hspaces', ?_⟩, ?_⟩
    · dsimp only
      rw [hphys]
      exact hu.congr fun d hd i hi => (hsame d hd).directory i (Nat.lt_succ_of_lt hi.2)
    · intro d hd _
      dsimp only
      rw [hphys]
      exact ⟨hd, hsame d hd⟩
  | @poolPage k k' pds page hr =>
    obtain ⟨b, hb⟩ := Option.ne_none_iff_exists'.mp hbefore.2
    have hin := hspaces.pool.head hb
    rw [pageAlloc_eq hspaces.currentDirectory hb hin] at hr
    cases hr
    have hsame (d) (hd : d ∈ pds) := hspaces.sameUser_kernel hin.lt hd
      (w := kernelEntry k.gPmm.getFreePage.1)
    refine ⟨⟨hspaces', ?_⟩, fun d hd _ => ⟨hd, hsame d hd⟩⟩
    exact hu.congr fun d hd i hi => (hsame d hd).directory i (Nat.lt_succ_of_lt hi.2)
  | @userPage k k' pds v hd hv hr =>
    obtain ⟨_, hr', hadds⟩ := hspaces.takePage.adds hv _ presentFlags
    cases hr.symm.trans hr'
    obtain ⟨hu', hsame⟩ := hadds.separate ⟨hspaces.takePage, hu⟩ hd hv fun _ =>
      (consumes_addPage hr).notExhausted hmem
    exact ⟨⟨hspaces', hu'⟩, fun d hd hne => ⟨hd, hsame d hd hne⟩⟩
  | @absentPage k k' pds v hd hv hr =>
    obtain ⟨_, hr', hadds⟩ := hspaces.adds hv 0 absentFlags
    cases hr.symm.trans hr'
    obtain ⟨hu', hsame⟩ := hadds.separate ⟨hspaces, hu⟩ hd hv fun _ =>
      (consumes_addPage hr).notExhausted hmem
    exact ⟨⟨hspaces', hu'⟩, fun d hd hne => ⟨hd, hsame d hd hne⟩⟩
  | nullPage => exact ⟨⟨hspaces', hu⟩, fun d hd _ => ⟨hd, .refl _ _⟩⟩
  | @directory k k' pds f hr =>
    obtain ⟨b, hb⟩ := Option.ne_none_iff_exists'.mp hbefore.2
    obtain ⟨f', hget, -, -, hr', -⟩ := hspaces.createProcessPageDirectory hb hbefore.1
    obtain ⟨f'', hfresh⟩ := hspaces.freshFrame hbefore.1
    cases hr.symm.trans hr'
    obtain rfl : f'' = f := hfresh.eq.symm.trans hget
    have hin := hspaces.pool.head hb
    have hentry := hspaces.poolEntry hb
    have hsame (d) (hd : d ∈ pds) := hspaces.sameUser_kernel hin.lt hd
      (w := kernelEntry k.gPmm.getFreePage.1)
    have hu' : Unshared (k.withPhys (k.afterPageAlloc b).mmu.phys).mmu.phys pds :=
      hu.congr fun d hd i hi => (hsame d hd).directory i (Nat.lt_succ_of_lt hi.2)
    have hnew := Unshared.withNewDirectory hentry hu' (hfresh.withPhys _)
    refine ⟨⟨hspaces', hnew⟩, ?_⟩
    intro d hd _
    exact ⟨List.mem_cons_of_mem _ hd,
      (hsame d hd).trans (hentry.sameUser_newDirectory (hfresh.withPhys _) hd)⟩
  | switchTo => exact ⟨⟨hspaces', hu⟩, fun d hd _ => ⟨hd, .refl _ _⟩⟩

/-- The same for a run of steps. -/
theorem lasting_separate {t t' : Tables} {tops : List TableOp} (h : Run LastingStep t tops t')
    (hs : Separate t) (hd : d ∈ t.pds) (hall : ∀ op ∈ tops, NotIn d op) :
    d ∈ t'.pds ∧ SameUser t.k.mmu.phys t'.k.mmu.phys d ∧ Separate t' := by
  induction h with
  | nil => exact ⟨hd, .refl _ _, hs⟩
  | snoc _ hstep ih =>
    obtain ⟨hd', hsame, hs'⟩ := ih fun op hop => hall op (List.mem_append_left _ hop)
    obtain ⟨hs'', hother⟩ := hstep.separate hs'
    obtain ⟨hd'', hsame'⟩ := hother d hd' (hall _ (by simp))
    exact ⟨hd'', hsame.trans hsame', hs''⟩

end Isolation

/-! ## Runs -/

/-- The process that a call is about. -/
def WorldOp.process : WorldOp → Option Process
  | .allocate p _ _ => some p
  | .allocateAtAddress p _ _ _ => some p
  | .reservePages p _ _ => some p
  | .resolvePageFault p _ => some p
  | _ => none

/-- What a virtual address translates to in the address space of a process. -/
def World.translate (w : World) (p : Process) (v : U32) : Option U32 :=
  w.s.mem.mmu.translateIn p.pdEntry v

section Runs

variable {w w' : World} {op : WorldOp} {ops : List WorldOp} {p : Process}

theorem Separate.boot (h : Boot w) : Separate w.tables := by
  constructor
  · exact (WorldInv.boot h).spaces
  · intro d hd
    have hpds : w.pds = [] := by rw [World.pds, h.processes, List.map_nil]
    rw [show w.tables.pds = [] from hpds] at hd
    cases hd

theorem UserStep.separate (h : UserStep w op w') (hinv : WorldInv w) (hs : Separate w.tables) :
    Separate w'.tables := by
  obtain ⟨tops, hrun, -⟩ := h.tables hinv
  exact hrun.invariant (fun _ _ _ hs hstep => (hstep.separate hs).1) hs

theorem reachable_separate (hboot : Boot w) (hrun : Run UserStep w ops w') :
    WorldInv w' ∧ Separate w'.tables := by
  apply hrun.invariant (I := fun w => WorldInv w ∧ Separate w.tables)
  · rintro _ _ _ ⟨hinv, hs⟩ hstep
    exact ⟨hinv.step hstep, hstep.separate hinv hs⟩
  · exact ⟨.boot hboot, .boot hboot⟩

/-- Two processes have different page directories. -/
theorem pdEntry_ne (hinv : WorldInv w) {q : Process} (hp : p ∈ w.processes)
    (hq : q ∈ w.processes) (hne : p ≠ q) : p.pdEntry ≠ q.pdEntry :=
  fun heq => hne (List.inj_on_of_nodup_map hinv.spaces.nodup hp hq heq)

/-- A call takes no step in the directories of other processes. -/
theorem TakesStep.notIn (hinv : WorldInv w) (hstep : WorldStep w op w') (hp : p ∈ w.processes)
    (hother : op.process ≠ some p) {t : TableOp} (ht : TakesStep op t) : NotIn p.pdEntry t := by
  have hpage {q : Process} (hq : q ∈ w.processes) (hne : some q ≠ some p)
      (ht : PageStep q.pdEntry t) : NotIn p.pdEntry t := by
    have hdir := pdEntry_ne hinv hp hq fun heq => hne (congrArg some heq.symm)
    cases t with
    | userPage => rwa [NotIn, show _ = q.pdEntry from ht]
    | absentPage => rwa [NotIn, show _ = q.pdEntry from ht]
    | _ => trivial
  cases hstep with
  | allocate hq => exact hpage hq hother ht
  | allocateAtAddress hq => exact hpage hq hother ht
  | reservePages hq => exact hpage hq hother ht
  | resolvePageFault hq => exact hpage hq hother ht
  | create =>
    obtain rfl : t = .directory := ht
    trivial
  | sbrk =>
    obtain ⟨_, rfl⟩ := ht
    trivial
  | pageAlloc =>
    obtain rfl : t = .poolPage := ht
    trivial
  | pageFree => exact absurd ht id
  | switchTo =>
    obtain rfl : t = .switchTo _ := ht
    trivial

/-- A call leaves the user half of every process as it was, except that of the
process it is about. -/
def LeavesOthers (w : World) (op : WorldOp) (w' : World) : Prop :=
  ∀ p ∈ w.processes, op.process ≠ some p → ∀ v, vUserBaseAddr ≤ v →
    w'.translate p v = w.translate p v

/-- Every kernel address translates alike in all page directories. -/
def SharesKernel (w : World) : Prop :=
  ∀ d ∈ allDirectories w.pds, ∀ v, v < vUserBaseAddr →
    w.s.mem.mmu.translateIn d v = w.s.mem.mmu.translateIn kernelInfo.pPageDirectory v

/-- In every state reached the kernel half is shared, and the next call on one
process changes no translation of another. -/
theorem isolated (hboot : Boot w) {w₁ : World} (hrun : Run UserStep w ops w₁)
    (hstep : UserStep w₁ op w') : LeavesOthers w₁ op w' ∧ SharesKernel w₁ ∧ SharesKernel w' := by
  obtain ⟨hinv, hs⟩ := reachable_separate hboot hrun
  have hshares {w : World} (hinv : WorldInv w) : SharesKernel w := by
    intro d hd v hv
    exact (hinv.spaces.directories d hd).translateIn_kernel
      (hinv.spaces.directories _ List.mem_cons_self) hv
  refine ⟨?_, hshares hinv, hshares (hinv.step hstep)⟩
  intro p hp hother v hv
  obtain ⟨tops, htables, hall⟩ := hstep.tables hinv
  have hd : p.pdEntry ∈ w₁.pds := List.mem_map_of_mem hp
  obtain ⟨-, hsame, -⟩ := lasting_separate htables hs hd fun t ht =>
    (hall t ht).notIn hinv hstep.2.1 hp hother
  exact hsame.translateIn (hinv.spaces.directory hd) hv

/-- A second process is created next to the first one. -/
theorem isolated_boot : ∃ pool w₁ w', PagePool.bss.init kernelInfo = .ret pool ∧
    Run UserStep (bootWorld pool 0x10000) [.create] w₁ ∧ UserStep w₁ .create w' ∧
    LeavesOthers w₁ .create w' ∧ SharesKernel w₁ ∧ SharesKernel w' := by
  obtain ⟨pool, hpool⟩ := boot_init
  have hboot := boot_bootWorld hpool 0x10000
  obtain ⟨p, w₁, hstep₁, -, hsup₁⟩ :=
    (WorldInv.boot hboot).userStep_create (supply_bootWorld_64 hpool)
  have hrun := Run.single hstep₁
  obtain ⟨q, w', hstep', -⟩ := (reachable_inv hboot hrun).userStep_create hsup₁
  exact ⟨pool, w₁, w', hpool, hrun, hstep', isolated hboot hrun hstep'⟩

end Runs

end LtMicros
