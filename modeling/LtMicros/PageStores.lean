import LtMicros.FrameRuns
import LtMicros.ReservedBytes

/-!
# The pages of the processes hold data

The frames of the pages of all processes hold data only: no directory, no table, and nothing that
is given out again. So a page that is mapped, for whatever process, leaves every byte that was
mapped before.
-/

namespace LtMicros

open Lib Lib.Frames

/-! ## What a table step writes -/

/-- The frame holds neither a directory nor a table, and is not given out. -/
structure Untouched (t : Tables) (g : U32) : Prop where
  frame : IsFrame g
  off : OffKernel g
  notDirectory : g ∉ t.pds
  notTable : ∀ d ∈ t.pds, ∀ i, UserIndex i → ∀ f, PointsTo (t.k.mmu.phys (slot d i)) f → f ≠ g
  kept : t.k.Uses g ∨ g.toNat < 0x800000

/-- The step writes the table entry of the page of `u` in the directory `d`. -/
def Enters (d u : U32) : TableOp → Prop
  | .userPage d' v => d' = d ∧ pageNo u = pageNo v
  | .absentPage d' v => d' = d ∧ pageNo u = pageNo v
  | _ => False

section Steps

variable {k k' : KernelMem} {pds : List U32} {t t' : Tables} {op : TableOp}
  {heap heap' : U32 → Prop} {phys phys' : U32 → U32} {d d' f g i j p u u' v flags : U32} {b : U8}

theorem Untouched.ne_fresh (h : Untouched ⟨k, pds⟩ g) (hf : FreshFrame k pds f) : g ≠ f := by
  rcases h.kept with hused | hlow
  · exact hf.ne_used hused
  · rintro rfl
    have hhigh := hf.high
    omega

theorem Untouched.takePage (h : Untouched ⟨k, pds⟩ g) (hf : FreshFrame k pds f) :
    Untouched ⟨k.takePage, pds⟩ g :=
  ⟨h.frame, h.off, h.notDirectory, h.notTable, h.kept.imp hf.uses_of_uses id⟩

theorem DataFrame.untouched (h : DataFrame k pds g) (hg : IsFrame g) : Untouched ⟨k, pds⟩ g := by
  refine ⟨hg, .inr ?_, fun hd => h.notDirectory (List.mem_cons_of_mem _ hd), h.notTable,
    .inl h.used⟩
  have hhigh := h.high
  omega

theorem SameUser.pageAt (h : SameUser phys phys' d) (hu : InUser u) :
    PageAt phys' d u f ↔ PageAt phys d u f := by
  have hentry : entryIn phys' d u = entryIn phys d u := by
    unfold entryIn
    rw [h.directory _ (dirIndex_lt u)]
    cases hpresent : flagOn (phys (slot d (dirIndex u))) pagePresent with
    | false => rfl
    | true => rw [h.tables _ hu.userIndex _ (pointsTo_frameOf hpresent) _ (tableIndex_lt u)]
  rw [PageAt, PageAt, hentry]

/-! ### A page is added -/

section Adds

variable (h : Adds k d v p flags k') (hs : Separate ⟨k, pds⟩) (hd : d ∈ pds) (hv : InUser v)
  (hmem : k.NotExhausted)

include h hs hd hv hmem

theorem Adds.words (hg : Untouched ⟨k, pds⟩ g) (hj : j.toNat < 1024) :
    k'.mmu.phys (slot g j) = k.mmu.phys (slot g j) := by
  have hadded := hs.spaces.added hd hv (fun _ => hmem.2) h
  apply hadded.others g hg.frame hg.off _ _ j hj
  · rintro rfl
    exact hg.notDirectory hd
  · rw [tableFor]
    split
    next hpresent =>
      exact (hg.notTable d hd _ hv.userIndex _ (pointsTo_frameOf hpresent)).symm
    next =>
      obtain ⟨f, hfresh⟩ := hs.spaces.freshFrame hmem.1
      rw [hfresh.eq, hfresh.frame.frameOf_eq]
      exact hg.ne_fresh hfresh

theorem Adds.kernelPte (hu : u.toNat < 0x800000) :
    k'.mmu.phys (kernelPte u) = k.mmu.phys (kernelPte u) := by
  have hlow : u < vUserBaseAddr := by
    show u.toNat < 0x40000000
    omega
  have hindex := dirIndex_kernel hlow
  rcases h.lasting hs.spaces (fun _ => hmem) with ⟨t, ht, rfl⟩ | ⟨i, g, -, hi, hfresh, rfl⟩
  · exact set_table_kernelPte hlow ht.frame (hs.spaces.tables d hd _ hv.userIndex t ht).off
      (tableIndex_lt v)
  · have hdir := hs.spaces.directory hd
    have hin := hs.spaces.pool.head hi
    rw [KernelMem.withPhys_phys, kernelPte_eq, newTable_slot hdir.frame
      (isFrame_kernelTable hindex) (tableIndex_lt u), hfresh.frame.frameOf_eq,
      if_neg (hfresh.off.ne_kernelTable hindex).symm,
      if_neg fun heq => hdir.off.ne_kernelTable hindex heq.1.symm, ← kernelPte_eq]
    apply set_kernelPte_ne hlow hin.lt
    intro heq
    have hnat := congrArg BitVec.toNat heq
    have hpool := hin.2.1
    rw [toNat_frameOf, hin.1.frameOf_eq] at hnat
    omega

/-- Only the page that is added is mapped anew. -/
theorem Adds.pageAt (hd' : d' ∈ pds) (hu : InUser u) (hne : ¬(d = d' ∧ pageNo u = pageNo v)) :
    PageAt k'.mmu.phys d' u f ↔ PageAt k.mmu.phys d' u f := by
  by_cases hdd : d' = d
  · subst hdd
    have hpage : pageNo u ≠ pageNo v := fun heq => hne ⟨rfl, heq⟩
    have hadded := hs.spaces.added hd hv (fun _ => hmem.2) h
    by_cases hdir : dirIndex u = dirIndex v
    · rw [PageAt, PageAt, hadded.entryIn_same hdir hpage]
      cases hpresent : flagOn (k.mmu.phys (slot d' (dirIndex v))) pagePresent with
      | true => rfl
      | false =>
        -- the table is new, and empty but for the page
        rw [← hdir] at hpresent
        rw [entryIn_absent hpresent, if_neg Bool.false_ne_true]
        constructor
        · rintro ⟨w, hw, hg⟩
          cases hw
          exact absurd hg.1 (by decide)
        · rintro ⟨w, hw, -⟩
          cases hw
    · rw [PageAt, PageAt, hadded.entryIn_other hs.spaces hd hu hdir
        (hs.tableFor_unshared hd (fun _ => hmem.1) hv hu.userIndex hdir)]
  · obtain ⟨-, hsame⟩ := h.separate hs hd hv fun _ => hmem
    exact (hsame d' hd' hdd).pageAt hu

theorem Adds.dataFrame (hg : DataFrame k pds g) : DataFrame k' pds g := by
  refine ⟨h.used hs.spaces hg.used, hg.high, hg.notDirectory, ?_⟩
  intro d' hd' i hi f hf
  rcases h.tables hs hd hv hmem hd' hi hf with hold | hnew
  · exact hg.notTable d' hd' i hi f hold
  · exact (hnew.ne_used hg.used).symm

end Adds

/-! ### Every step -/

/-- A page of the kernel half is mapped. -/
theorem set_kernel_kernelPte (hpage : 0x800000 ≤ p.toNat) (hlt : p < vUserBaseAddr)
    (hu : u.toNat < 0x800000) {w : U32} :
    set phys (kernelTable (dirIndex p)) (tableIndex p) w (kernelPte u) = phys (kernelPte u) := by
  apply set_kernelPte_ne _ hlt
  · intro heq
    have hnat := congrArg BitVec.toNat heq
    rw [toNat_frameOf, toNat_frameOf] at hnat
    omega
  · show u.toNat < 0x40000000
    omega

section Lasting

variable (h : LastingStep t op t') (hs : Separate t)

include h hs

/-- The words of an untouched frame, and the entries of the kernel's own pages. -/
theorem LastingStep.words : (∀ g, Untouched t g → ∀ j : U32, j.toNat < 1024 →
      t'.k.mmu.phys (slot g j) = t.k.mmu.phys (slot g j)) ∧
    ∀ u : U32, u.toNat < 0x800000 →
      t'.k.mmu.phys (kernelPte u) = t.k.mmu.phys (kernelPte u) := by
  obtain ⟨hstep, hmem⟩ := h
  have hbefore := hstep.consumes.notExhausted hmem
  cases hstep with
  | @heapPage k pds a mmu hlo hhi hr =>
    obtain ⟨heq, ha, hlt⟩ := heapPage_eq hs.spaces hlo hhi hr
    have hphys : mmu.phys = (k.mapKernelPage a).mmu.phys := congrArg (fun k => k.mmu.phys) heq
    dsimp only
    rw [hphys]
    exact ⟨fun g hg j hj => set_kernel_slot hlt hg.frame hg.off hj,
      fun u hu => set_kernel_kernelPte ha hlt hu⟩
  | @poolPage k k' pds page hr =>
    obtain ⟨b, hb⟩ := Option.ne_none_iff_exists'.mp hbefore.2
    have hin := hs.spaces.pool.head hb
    rw [pageAlloc_eq hs.spaces.currentDirectory hb hin] at hr
    cases hr
    exact ⟨fun g hg j hj => set_kernel_slot hin.lt hg.frame hg.off hj,
      fun u hu => set_kernel_kernelPte hin.2.1 hin.lt hu⟩
  | @userPage k k' pds v hd hv hr =>
    obtain ⟨_, hr', hadds⟩ := hs.spaces.takePage.adds hv _ presentFlags
    cases hr.symm.trans hr'
    obtain ⟨f, hfresh⟩ := hs.spaces.freshFrame hbefore.1
    have hs' : Separate ⟨k.takePage, pds⟩ := ⟨hs.spaces.takePage, hs.unshared⟩
    have hmem' := (consumes_addPage hr).notExhausted hmem
    exact ⟨fun g hg j hj => hadds.words hs' hd hv hmem' (hg.takePage hfresh) hj,
      fun u hu => hadds.kernelPte hs' hd hv hmem' hu⟩
  | @absentPage k k' pds v hd hv hr =>
    obtain ⟨_, hr', hadds⟩ := hs.spaces.adds hv 0 absentFlags
    cases hr.symm.trans hr'
    exact ⟨fun g hg j hj => hadds.words hs hd hv hbefore hg hj,
      fun u hu => hadds.kernelPte hs hd hv hbefore hu⟩
  | nullPage => exact ⟨fun _ _ _ _ => rfl, fun _ _ => rfl⟩
  | @directory k k' pds f hr =>
    obtain ⟨b, hb⟩ := Option.ne_none_iff_exists'.mp hbefore.2
    obtain ⟨f', hget, -, -, hr', -⟩ := hs.spaces.createProcessPageDirectory hb hbefore.1
    obtain ⟨f'', hfresh⟩ := hs.spaces.freshFrame hbefore.1
    cases hr.symm.trans hr'
    obtain rfl : f'' = f := hfresh.eq.symm.trans hget
    have hin := hs.spaces.pool.head hb
    constructor
    · intro g hg j hj
      refine (newDirectory_slot hfresh.frame hg.frame hj).trans ?_
      rw [if_neg (hg.ne_fresh hfresh)]
      exact set_kernel_slot hin.lt hg.frame hg.off hj
    · intro u hu
      have hindex := dirIndex_kernel (show u.toNat < 0x40000000 by omega)
      dsimp only
      rw [kernelPte_eq]
      refine (newDirectory_slot hfresh.frame (isFrame_kernelTable hindex)
        (tableIndex_lt u)).trans ?_
      rw [if_neg (hfresh.off.ne_kernelTable hindex).symm, ← kernelPte_eq]
      exact set_kernel_kernelPte hin.2.1 hin.lt hu
  | switchTo => exact ⟨fun _ _ _ _ => rfl, fun _ _ => rfl⟩

/-- The other pages of a process are mapped as before. -/
theorem LastingStep.pageAt (hd : d ∈ t.pds) (hu : InUser u) (hne : ¬Enters d u op) :
    PageAt t'.k.mmu.phys d u f ↔ PageAt t.k.mmu.phys d u f := by
  have hother (hnot : NotIn d op) : PageAt t'.k.mmu.phys d u f ↔ PageAt t.k.mmu.phys d u f :=
    ((h.separate hs).2 d hd hnot).2.pageAt hu
  obtain ⟨hstep, hmem⟩ := h
  have hbefore := hstep.consumes.notExhausted hmem
  cases hstep with
  | @userPage k k' pds v hcur hv hr =>
    obtain ⟨_, hr', hadds⟩ := hs.spaces.takePage.adds hv _ presentFlags
    cases hr.symm.trans hr'
    exact hadds.pageAt ⟨hs.spaces.takePage, hs.unshared⟩ hcur hv
      ((consumes_addPage hr).notExhausted hmem) hd hu hne
  | @absentPage k k' pds v hcur hv hr =>
    obtain ⟨_, hr', hadds⟩ := hs.spaces.adds hv 0 absentFlags
    cases hr.symm.trans hr'
    exact hadds.pageAt hs hcur hv hbefore hd hu hne
  | heapPage => exact hother trivial
  | poolPage => exact hother trivial
  | nullPage => exact hother trivial
  | directory => exact hother trivial
  | switchTo => exact hother trivial

/-- A new directory was not in use, and has no tables. -/
theorem LastingStep.newDirectory (hd : d ∈ t'.pds) : d ∈ t.pds ∨
    ¬t.k.Uses d ∧ ∀ i, UserIndex i → ∀ f, ¬PointsTo (t'.k.mmu.phys (slot d i)) f := by
  obtain ⟨hstep, hmem⟩ := h
  have hbefore := hstep.consumes.notExhausted hmem
  cases hstep with
  | @directory k k' pds f hr =>
    obtain ⟨b, hb⟩ := Option.ne_none_iff_exists'.mp hbefore.2
    obtain ⟨f', hget, -, -, hr', -⟩ := hs.spaces.createProcessPageDirectory hb hbefore.1
    obtain ⟨f'', hfresh⟩ := hs.spaces.freshFrame hbefore.1
    cases hr.symm.trans hr'
    obtain rfl : f'' = f := hfresh.eq.symm.trans hget
    rcases List.mem_cons.mp hd with rfl | hold
    · refine .inr ⟨hfresh.not_uses, ?_⟩
      intro i hi g hg
      have hentry := hs.spaces.poolEntry hb
      have hmem := (hentry.table_newDirectory (hfresh.withPhys _) hd hi hg).1
      exact hfresh.notDirectory (List.mem_cons_of_mem _ hmem)
    · exact .inl hold
  | heapPage => exact .inl hd
  | poolPage => exact .inl hd
  | userPage => exact .inl hd
  | absentPage => exact .inl hd
  | nullPage => exact .inl hd
  | switchTo => exact .inl hd

/-- A new table lies in a frame above the kernel's that was not in use. -/
theorem LastingStep.table (hd : d ∈ t'.pds) (hi : UserIndex i)
    (hf : PointsTo (t'.k.mmu.phys (slot d i)) f) :
    d ∈ t.pds ∧ PointsTo (t.k.mmu.phys (slot d i)) f ∨ 0x800000 ≤ f.toNat ∧ ¬t.k.Uses f := by
  have hd' : d ∈ t.pds := by
    rcases h.newDirectory hs hd with hold | ⟨-, hnone⟩
    · exact hold
    · exact absurd hf (hnone i hi f)
  have hother (hnot : NotIn d op) : d ∈ t.pds ∧ PointsTo (t.k.mmu.phys (slot d i)) f := by
    obtain ⟨-, hsame⟩ := (h.separate hs).2 d hd' hnot
    rw [hsame.directory i (Nat.lt_succ_of_lt hi.2)] at hf
    exact ⟨hd', hf⟩
  obtain ⟨hstep, hmem⟩ := h
  have hbefore := hstep.consumes.notExhausted hmem
  cases hstep with
  | @userPage k k' pds v hcur hv hr =>
    obtain ⟨_, hr', hadds⟩ := hs.spaces.takePage.adds hv _ presentFlags
    cases hr.symm.trans hr'
    obtain ⟨g, hfresh⟩ := hs.spaces.freshFrame hbefore.1
    rcases hadds.tables ⟨hs.spaces.takePage, hs.unshared⟩ hcur hv
      ((consumes_addPage hr).notExhausted hmem) hd' hi hf with hold | hnew
    · exact .inl ⟨hd', hold⟩
    · exact .inr ⟨hnew.high, fun hused => hnew.not_uses (hfresh.uses_of_uses hused)⟩
  | @absentPage k k' pds v hcur hv hr =>
    obtain ⟨_, hr', hadds⟩ := hs.spaces.adds hv 0 absentFlags
    cases hr.symm.trans hr'
    rcases hadds.tables hs hcur hv hbefore hd' hi hf with hold | hnew
    · exact .inl ⟨hd', hold⟩
    · exact .inr ⟨hnew.high, hnew.not_uses⟩
  | heapPage => exact .inl (hother trivial)
  | poolPage => exact .inl (hother trivial)
  | nullPage => exact .inl (hother trivial)
  | directory => exact .inl (hother trivial)
  | switchTo => exact .inl (hother trivial)

omit hs in
/-- What is in use stays in use. -/
theorem LastingStep.uses (hf : t.k.Uses f) : t'.k.Uses f := by
  by_contra hnot
  have hlt : pageOf f < ramMaxPage := by
    have hf := f.isLt
    unfold pageOf ramMaxPage pageSize
    omega
  have hfree : pageOf f ∈ t'.k.gPmm.freePages := by
    rw [PmmBitmap.freePages, Finset.mem_filter, Finset.mem_range]
    exact ⟨hlt, Bool.eq_false_iff.mpr hnot⟩
  have hbefore := h.1.consumes.pages hfree
  rw [PmmBitmap.freePages, Finset.mem_filter] at hbefore
  exact Bool.eq_false_iff.mp hbefore.2 hf

theorem LastingStep.dataFrame (hg : DataFrame t.k t.pds g) : DataFrame t'.k t'.pds g := by
  refine ⟨h.uses hg.used, hg.high, ?_, ?_⟩
  · intro hd
    rcases List.mem_cons.mp hd with rfl | hd
    · exact absurd hg.high (by decide)
    · rcases h.newDirectory hs hd with hold | ⟨hnew, -⟩
      · exact hg.notDirectory (List.mem_cons_of_mem _ hold)
      · exact hnew hg.used
  · rintro d hd i hi _ hf rfl
    rcases h.table hs hd hi hf with ⟨hold, hf⟩ | ⟨-, hnew⟩
    · exact hg.notTable d hold i hi _ hf rfl
    · exact hnew hg.used

end Lasting

end Steps

/-! ## The pages hold data -/

/-- The tables of the processes lie above the kernel's frames, and the pages of their user halves
have frames that hold data only. -/
structure Stores (t : Tables) : Prop where
  tables : ∀ d ∈ t.pds, ∀ i, UserIndex i → ∀ g, PointsTo (t.k.mmu.phys (slot d i)) g →
    0x800000 ≤ g.toNat
  data : ∀ d ∈ t.pds, ∀ u, InUser u → ∀ f, PageAt t.k.mmu.phys d u f → DataFrame t.k t.pds f

section Stores

variable {k k' : KernelMem} {pds : List U32} {t t' : Tables} {op : TableOp}
  {heap : U32 → Prop} {d d' f g i j p u u' v : U32} {b : U8}

theorem LastingStep.stores (h : LastingStep t op t') (hs : Separate t) (hst : Stores t) :
    Stores t' := by
  constructor
  · intro d hd i hi g hg
    rcases h.table hs hd hi hg with ⟨hold, hg⟩ | ⟨hhigh, -⟩
    · exact hst.tables d hold i hi g hg
    · exact hhigh
  · intro d hd u hu f hf
    have hd' : d ∈ t.pds := by
      rcases h.newDirectory hs hd with hold | ⟨-, hnone⟩
      · exact hold
      · obtain ⟨w, hw, -⟩ := hf
        unfold entryIn at hw
        split at hw
        next hpresent => exact absurd (pointsTo_frameOf hpresent) (hnone _ hu.userIndex _)
        next => cases hw
    by_cases henters : Enters d u op
    swap
    · exact h.dataFrame hs (hst.data d hd' u hu f ((h.pageAt hs hd' hu henters).mp hf))
    obtain ⟨hstep, hmem⟩ := h
    have hbefore := hstep.consumes.notExhausted hmem
    cases hstep with
    | @userPage k k' pds v hcur hv hr =>
      obtain ⟨g, hfresh⟩ := hs.spaces.freshFrame hbefore.1
      obtain ⟨_, hr', hadds⟩ := hs.spaces.takePage.adds hv k.gPmm.getFreePage.1 presentFlags
      cases hr.symm.trans hr'
      have hs' : Separate ⟨k.takePage, pds⟩ := ⟨hs.spaces.takePage, hs.unshared⟩
      have hmem' := (consumes_addPage hr).notExhausted hmem
      have hadded := hs'.spaces.added hcur hv (fun _ => hmem'.2) hadds
      obtain ⟨rfl, hpage⟩ := henters
      -- the page has the frame that was taken
      obtain ⟨w, hw, hpoints⟩ := hf
      rw [hadded.entryIn_self hpage] at hw
      cases hw
      have hframe := frameOf_setPageTableEntry k.gPmm.getFreePage.1 presentFlags
      rw [hfresh.eq, hfresh.frame.frameOf_eq] at hframe
      rw [hfresh.eq] at hpoints
      obtain rfl : f = g := hpoints.2.symm.trans hframe
      apply hadds.dataFrame hs' hcur hv hmem'
      refine ⟨hfresh.uses, hfresh.high, hfresh.notDirectory, ?_⟩
      intro d hd i hi t ht
      exact hfresh.ne_used (hs.spaces.tables d hd i hi t ht).used
    | @absentPage k k' pds v hcur hv hr =>
      obtain ⟨_, hr', hadds⟩ := hs.spaces.adds hv 0 absentFlags
      cases hr.symm.trans hr'
      have hadded := hs.spaces.added hcur hv (fun _ => hbefore.2) hadds
      obtain ⟨rfl, hpage⟩ := henters
      obtain ⟨w, hw, hpoints⟩ := hf
      rw [hadded.entryIn_self hpage] at hw
      cases hw
      have hpresent := hpoints.1
      rw [flagOn_setPageTableEntry] at hpresent
      exact absurd hpresent (by decide)
    | heapPage => exact absurd henters id
    | poolPage => exact absurd henters id
    | nullPage => exact absurd henters id
    | directory => exact absurd henters id
    | switchTo => exact absurd henters id

/-- A page of the user half has an entry that counts. -/
theorem PageAt.maps (h : PageAt t.k.mmu.phys d u f) (hd : d ∈ t.pds) (hu : InUser u)
    (kernel : U32 → Prop) :
    Maps t.k.mmu.phys t.pds kernel (.user d (dirIndex u) (tableIndex u)) f := by
  obtain ⟨w, hw, hpoints⟩ := h
  unfold entryIn at hw
  split at hw
  next hpresent =>
    cases hw
    exact ⟨hd, hu.userIndex, tableIndex_lt u, _, pointsTo_frameOf hpresent, hpoints⟩
  next => cases hw

/-- No two pages have one frame, be they of one process or of two. -/
theorem Owned.one_page (ho : Owned t heap) (hd : d ∈ t.pds) (hd' : d' ∈ t.pds) (hu : InUser u)
    (hu' : InUser u') (h : PageAt t.k.mmu.phys d u f) (h' : PageAt t.k.mmu.phys d' u' f) :
    d = d' ∧ pageNo u = pageNo u' := by
  have heq := ho.exclusive.unique _ _ f (h.maps hd hu _) (h'.maps hd' hu' _)
  obtain ⟨hdd, hdir, htable⟩ := PageEntry.user.inj heq
  exact ⟨hdd, page_eq_iff.mpr ⟨hdir, htable⟩⟩

theorem Stores.ownSpace (hst : Stores t) (ho : Owned t heap) (hd : d ∈ t.pds) :
    OwnSpace t.k t.pds d :=
  ⟨ho.separate, hd, hst.tables d hd, hst.data d hd,
    fun _ _ hu hv _ hf hg => (ho.one_page hd hd hu hv hf hg).2⟩

end Stores

/-! ## Runs of steps -/

/-- What runs of steps leave of the frames with data and of the kernel's part. -/
structure Spares (t t' : Tables) : Prop where
  mem : ∀ d ∈ t.pds, d ∈ t'.pds
  data : ∀ g, IsFrame g → DataFrame t.k t.pds g → DataFrame t'.k t'.pds g
  words : ∀ g, IsFrame g → DataFrame t.k t.pds g → ∀ j : U32, j.toNat < 1024 →
    t'.k.mmu.phys (slot g j) = t.k.mmu.phys (slot g j)
  low : ∀ v b, LowByte t.k.mmu.phys v b → LowByte t'.k.mmu.phys v b

section Spares

variable {t t' t'' : Tables} {op : TableOp} {tops : List TableOp} {d f g u v : U32} {b : U8}

theorem Spares.refl (t : Tables) : Spares t t :=
  ⟨fun _ hd => hd, fun _ _ hg => hg, fun _ _ _ _ _ => rfl, fun _ _ hb => hb⟩

theorem Spares.trans (h : Spares t t') (h' : Spares t' t'') : Spares t t'' := by
  constructor
  · exact fun d hd => h'.mem d (h.mem d hd)
  · exact fun g hg hdata => h'.data g hg (h.data g hg hdata)
  · intro g hg hdata j hj
    rw [h'.words g hg (h.data g hg hdata) j hj, h.words g hg hdata j hj]
  · exact fun v b hb => h'.low v b (h.low v b hb)

/-- A page that is mapped to the same frame holds the same bytes. -/
theorem Spares.byteIn (h : Spares t t') (hs : Separate t) (hst : Stores t) (hd : d ∈ t.pds)
    (hu : InUser u) (hkept : ∀ f, PageAt t.k.mmu.phys d u f → PageAt t'.k.mmu.phys d u f)
    (hb : t.k.mmu.byteIn d u = some b) : t'.k.mmu.byteIn d u = some b := by
  have hdf := (hs.spaces.directory hd).frame
  obtain ⟨f, hf, hbyte⟩ := (byteIn_eq_some hdf).mp hb
  refine (byteIn_eq_some hdf).mpr ⟨f, hkept f hf, ?_⟩
  rwa [getByte_page hf.frame (h.words f hf.frame (hst.data d hd u hu f hf))]

theorem LastingStep.spares (h : LastingStep t op t') (hs : Separate t) (hst : Stores t) :
    Spares t t' := by
  obtain ⟨hwords, hkernel⟩ := h.words hs
  constructor
  · intro d hd
    obtain ⟨hstep, -⟩ := h
    cases hstep with
    | directory => exact List.mem_cons_of_mem _ hd
    | heapPage => exact hd
    | poolPage => exact hd
    | userPage => exact hd
    | absentPage => exact hd
    | nullPage => exact hd
    | switchTo => exact hd
  · exact fun g _ hdata => h.dataFrame hs hdata
  · exact fun g hg hdata j hj => hwords g (hdata.untouched hg) j hj
  · intro v b hb
    apply hb.kept
    · exact hkernel v hb.1
    · intro g hg hoff hlow j hj
      apply hwords g _ j hj
      refine ⟨hg, hoff, ?_, ?_, .inr hlow⟩
      · intro hd
        have hhigh := (hs.spaces.pages g hd).1
        omega
      · rintro d hd i hi _ hf rfl
        have hhigh := hst.tables d hd i hi _ hf
        omega

theorem lasting_spares (h : Run LastingStep t tops t') (hs : Separate t) (hst : Stores t) :
    Spares t t' ∧ Separate t' ∧ Stores t' := by
  induction h with
  | nil => exact ⟨.refl _, hs, hst⟩
  | snoc _ hstep ih =>
    obtain ⟨hspares, hs', hst'⟩ := ih
    exact ⟨hspares.trans (hstep.spares hs' hst'), (hstep.separate hs').1, hstep.stores hs' hst'⟩

end Spares

end LtMicros
