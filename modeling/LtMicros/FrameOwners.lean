import LtMicros.Isolation
import LtMicros.PoolPages
import LtMicros.Lib.Owners

/-!
# Every frame has one owner

The entries of page tables that count are those of the pages of the pool that are in use, of
the pages of the kernel heap, and of the user halves of the processes. A frame that one of them
maps is in use, and no other of them maps it.
-/

namespace LtMicros

open Lib Lib.Frames

/-- An entry of a page table: that of the kernel page `a`, or entry `j` of the table that
entry `i` of the page directory `d` leads to. -/
inductive PageEntry where
  | kernel (a : U32)
  | user (d i j : U32)
deriving DecidableEq

/-- The entry is present and maps the frame; of the kernel half only the pages of `kernel`
count. -/
def Maps (phys : U32 → U32) (pds : List U32) (kernel : U32 → Prop) : PageEntry → U32 → Prop
  | .kernel a, f => kernel a ∧ PointsTo (phys (kernelPte a)) f
  | .user d i j, f => d ∈ pds ∧ UserIndex i ∧ j.toNat < 1024 ∧
      ∃ t, PointsTo (phys (slot d i)) t ∧ PointsTo (phys (slot t j)) f

/-- The frame is in use. -/
def KernelMem.Uses (k : KernelMem) (f : U32) : Prop := k.gPmm.used (pageOf f) = true

/-- A page of the kernel half that counts: one of the pool in use, or one of the heap. -/
def KernelMem.KernelPage (k : KernelMem) (heap : U32 → Prop) (a : U32) : Prop :=
  k.gPagePool.InUse a ∨ heap a

/-- The start of a page of the kernel half. -/
def InKernel (a : U32) : Prop := IsFrame a ∧ a < vUserBaseAddr

section Entries

variable {k : KernelMem} {pds : List U32} {kernel kernel' : U32 → Prop} {e : PageEntry}
  {a b d f g t v w flags : U32}

theorem kernelPte_inj (ha : InKernel a) (hb : InKernel b) (h : kernelPte a = kernelPte b) :
    a = b := by
  have hnat := congrArg BitVec.toNat h
  rw [Mmu.toNat_kernelPte ha.2, Mmu.toNat_kernelPte hb.2] at hnat
  have ha := ha.1
  have hb := hb.1
  rw [IsFrame] at ha hb
  apply BitVec.eq_of_toNat_eq
  omega

theorem PointsTo.frame (h : PointsTo w t) : IsFrame t := by
  rw [← h.2]
  exact isFrame_frameOf _

theorem PointsTo.unique (h : PointsTo w f) (h' : PointsTo w g) : f = g := h.2.symm.trans h'.2

/-- The word of a kernel page, and those of a frame outside of the kernel's tables. -/
theorem kernelPte_ne (ha : a < vUserBaseAddr) (hg : IsFrame g) (hoff : OffKernel g) {j : U32}
    (hj : j.toNat < 1024) : kernelPte a ≠ slot g j := by
  intro heq
  rw [kernelPte_eq] at heq
  have hindex := dirIndex_kernel ha
  have hframe := (slot_inj (isFrame_kernelTable hindex) hg (tableIndex_lt a) hj heq).1
  exact hoff.ne_kernelTable hindex hframe.symm

theorem set_otherPte {phys : U32 → U32} (ha : InKernel a) (hb : InKernel b) (hne : b ≠ a) :
    set phys (kernelTable (dirIndex a)) (tableIndex a) w (kernelPte b) = phys (kernelPte b) := by
  rw [set_eq_update, ← kernelPte_eq, Function.update_of_ne]
  exact fun heq => hne (kernelPte_inj hb ha heq)

theorem set_table_kernelPte {phys : U32 → U32} (ha : a < vUserBaseAddr) (ht : IsFrame t)
    (hoff : OffKernel t) {j : U32} (hj : j.toNat < 1024) :
    set phys t j w (kernelPte a) = phys (kernelPte a) := by
  rw [set_eq_update, Function.update_of_ne (kernelPte_ne ha ht hoff hj)]

/-! ## The entries after a write -/

/-- The entry of a kernel page is written. -/
theorem Spaces.maps_set_kernel (h : Spaces k pds) (ha : InKernel a)
    (hkernel : ∀ b, kernel' b → InKernel b ∧ (kernel b ∨ b = a))
    (hmaps : Maps (set k.mmu.phys (kernelTable (dirIndex a)) (tableIndex a) w) pds kernel' e f) :
    Maps k.mmu.phys pds kernel e f ∨ e = .kernel a ∧ PointsTo w f := by
  cases e with
  | kernel b =>
    obtain ⟨hb, hpoints⟩ := hmaps
    obtain ⟨hin, hold⟩ := hkernel b hb
    by_cases hba : b = a
    · rw [hba, kernelPte_eq, set_self] at hpoints
      exact .inr ⟨by rw [hba], hpoints⟩
    · rw [set_otherPte ha hin hba] at hpoints
      exact .inl ⟨hold.resolve_right hba, hpoints⟩
  | user d i j =>
    obtain ⟨hd, hi, hj, t, ht, hpoints⟩ := hmaps
    have hdir := h.directory hd
    rw [set_kernel_slot ha.2 hdir.frame hdir.off (Nat.lt_succ_of_lt hi.2)] at ht
    rw [set_kernel_slot ha.2 ht.frame (h.tables d hd i hi t ht).off hj] at hpoints
    exact .inl ⟨hd, hi, hj, t, ht, hpoints⟩

/-- An entry of a table of a process is written. -/
theorem Spaces.maps_set_table (h : Spaces k pds) (hu : Unshared k.mmu.phys pds) (hv : InUser v)
    (hd : d ∈ pds) (ht : TableOf k.mmu.phys d v t)
    (hkernel : ∀ b, kernel b → InKernel b)
    (hmaps : Maps (set k.mmu.phys t (tableIndex v) w) pds kernel e f) :
    Maps k.mmu.phys pds kernel e f ∨
      e = .user d (dirIndex v) (tableIndex v) ∧ PointsTo w f := by
  have htable := h.tables d hd _ hv.userIndex t ht
  cases e with
  | kernel b =>
    obtain ⟨hb, hpoints⟩ := hmaps
    rw [set_table_kernelPte (hkernel b hb).2 ht.frame htable.off (tableIndex_lt v)] at hpoints
    exact .inl ⟨hb, hpoints⟩
  | user d' i j =>
    obtain ⟨hd', hi, hj, t', ht', hpoints⟩ := hmaps
    rw [set_of_frame_ne ht.frame (h.directory hd').frame (tableIndex_lt v)
      (Nat.lt_succ_of_lt hi.2)] at ht'
    · rw [set_slot ht.frame ht'.frame (tableIndex_lt v) hj] at hpoints
      split at hpoints
      · -- the entry that is written, in the one place of its table
        rename_i heq
        obtain ⟨rfl, rfl⟩ := heq
        obtain ⟨rfl, rfl⟩ := hu d' hd' d hd i _ hi hv.userIndex t' ht' ht
        exact .inr ⟨rfl, hpoints⟩
      · exact .inl ⟨hd', hi, hj, t', ht', hpoints⟩
    · rintro rfl
      exact htable.notDirectory (List.mem_cons_of_mem _ hd')

/-- A fresh page becomes a table of a process. -/
theorem Spaces.maps_newTable (h : Spaces k pds) (hfresh : FreshFrame k pds g) (hd : d ∈ pds)
    (hkernel : ∀ b, kernel b → InKernel b)
    (hmaps : Maps (newTable k.mmu.phys d v g flags w) pds kernel e f) :
    Maps k.mmu.phys pds kernel e f ∨
      e = .user d (dirIndex v) (tableIndex v) ∧ PointsTo w f := by
  have hdir := h.directory hd
  have hgg : frameOf g = g := hfresh.frame.frameOf_eq
  cases e with
  | kernel b =>
    obtain ⟨hb, hpoints⟩ := hmaps
    have hindex := dirIndex_kernel (hkernel b hb).2
    rw [kernelPte_eq, newTable_slot hdir.frame (isFrame_kernelTable hindex) (tableIndex_lt b), hgg,
      if_neg (hfresh.off.ne_kernelTable hindex).symm, if_neg, ← kernelPte_eq] at hpoints
    · exact .inl ⟨hb, hpoints⟩
    · exact fun heq => hdir.off.ne_kernelTable hindex heq.1.symm
  | user d' i j =>
    obtain ⟨hd', hi, hj, t, ht, hpoints⟩ := hmaps
    rw [newTable_slot hdir.frame (h.directory hd').frame (Nat.lt_succ_of_lt hi.2), hgg,
      if_neg (hfresh.ne_used (h.pages d' hd').2.1)] at ht
    split at ht
    · -- the new table has no other entry
      rename_i heq
      obtain ⟨rfl, rfl⟩ := heq
      have htg : t = g := by
        have hframe := frameOf_setPageDirectoryEntry g (pagePresent ||| pageWriteable ||| flags)
        exact ht.2.symm.trans (hframe.trans hgg)
      rw [htg, newTable_slot hdir.frame hfresh.frame hj, hgg, if_pos rfl] at hpoints
      split at hpoints
      · rename_i hjv
        rw [hjv]
        exact .inr ⟨rfl, hpoints⟩
      · have habsent : flagOn (0 : U32) pagePresent = false := by decide
        have hpresent := hpoints.1
        rw [habsent] at hpresent
        cases hpresent
    · have htable := h.tables d' hd' i hi t ht
      rw [newTable_slot hdir.frame ht.frame hj, hgg, if_neg (hfresh.ne_used htable.used),
        if_neg] at hpoints
      · exact .inl ⟨hd', hi, hj, t, ht, hpoints⟩
      · rintro ⟨rfl, -⟩
        exact htable.notDirectory (List.mem_cons_of_mem _ hd)

/-- A fresh page becomes a page directory. -/
theorem Spaces.maps_newDirectory (h : Spaces k pds) (hfresh : FreshFrame k pds g)
    (hkernel : ∀ b, kernel b → InKernel b)
    (hmaps : Maps (newDirectory k.mmu.phys g) (g :: pds) kernel e f) :
    Maps k.mmu.phys pds kernel e f := by
  cases e with
  | kernel b =>
    obtain ⟨hb, hpoints⟩ := hmaps
    have hindex := dirIndex_kernel (hkernel b hb).2
    rw [kernelPte_eq, newDirectory_slot hfresh.frame (isFrame_kernelTable hindex)
      (tableIndex_lt b), if_neg (hfresh.off.ne_kernelTable hindex).symm, ← kernelPte_eq] at hpoints
    exact ⟨hb, hpoints⟩
  | user d i j =>
    obtain ⟨hd, hi, hj, t, ht, hpoints⟩ := hmaps
    obtain ⟨hd, ht⟩ := h.table_newDirectory hfresh hd hi ht
    rw [newDirectory_slot hfresh.frame ht.frame hj,
      if_neg (hfresh.ne_used (h.tables d hd i hi t ht).used)] at hpoints
    exact ⟨hd, hi, hj, t, ht, hpoints⟩

end Entries

/-! ## The owners -/

/-- The heap pages are pages of the area of the heap. -/
def InHeap (a : U32) : Prop := IsFrame a ∧ kernelInfo.vHeapBase ≤ a ∧ a < kernelInfo.vHeapLimit

/-- The tables are in order, and every frame that counts has one owner. -/
structure Owned (t : Tables) (heap : U32 → Prop) : Prop where
  separate : Separate t
  pool : t.k.gPagePool.InOrder
  area : ∀ a, heap a → InHeap a
  exclusive : Exclusive t.k.Uses (Maps t.k.mmu.phys t.pds (t.k.KernelPage heap))

section Owned

variable {k k' : KernelMem} {pds : List U32} {heap heap' : U32 → Prop} {a b d f g v p w flags : U32}
  {i : ℕ} {used : U32 → Prop} {maps maps' : PageEntry → U32 → Prop}

theorem InPool.inKernel (h : InPool a) : InKernel a := ⟨h.1, h.lt⟩

theorem InHeap.inKernel (h : InHeap a) : InKernel a := ⟨h.1, h.2.2⟩

theorem inKernel_of_kernelPage (hpool : k.gPagePool.InOrder) (harea : ∀ a, heap a → InHeap a)
    (ha : k.KernelPage heap a) : InKernel a := by
  rcases ha with ha | ha
  · exact (hpool.inUse ha).inKernel
  · exact (harea a ha).inKernel

/-- A present word in one entry, for a frame that is in use and mapped by no other. -/
theorem exclusive_entry (e₀ : PageEntry) (x : U32) (h : Exclusive used maps)
    (hw : ∀ f, PointsTo x f → used f ∧ ∀ e, ¬maps e f)
    (hmaps : ∀ e f, maps' e f → maps e f ∨ e = e₀ ∧ PointsTo x f) : Exclusive used maps' := by
  by_cases hpresent : flagOn x pagePresent = true
  · have hpoints := pointsTo_frameOf hpresent
    obtain ⟨hused, hfree⟩ := hw _ hpoints
    apply h.map hfree hused (fun _ hf => hf)
    intro e f he
    rcases hmaps e f he with hold | ⟨heq, hf⟩
    · exact .inl hold
    · exact .inr ⟨heq, hf.unique hpoints⟩
  · apply h.mono (fun _ hf => hf)
    intro e f he
    rcases hmaps e f he with hold | ⟨-, hf⟩
    · exact hold
    · exact absurd hf.1 hpresent

/-- `GetFreePage` answers a frame that nothing maps. -/
theorem Owned.free (h : Owned ⟨k, pds⟩ heap) (hfresh : FreshFrame k pds g) (e : PageEntry) :
    ¬Maps k.mmu.phys pds (k.KernelPage heap) e g := by
  apply h.exclusive.not_maps
  intro hused
  rw [KernelMem.Uses, hfresh.unused] at hused
  cases hused

theorem FreshFrame.uses (h : FreshFrame k pds g) : k.takePage.Uses g := by
  have hused := h.used (pageOf g)
  rw [decide_eq_true rfl, Bool.true_or] at hused
  exact hused

theorem FreshFrame.uses_of_uses (h : FreshFrame k pds g) (hf : k.Uses f) : k.takePage.Uses f := by
  have hused := h.used (pageOf f)
  have hf : k.gPmm.used (pageOf f) = true := hf
  rw [hf, Bool.or_true] at hused
  exact hused

/-- The frame is taken, and mapped by a page of the kernel half that did not count before. -/
theorem Owned.exclusive_kernel (h : Owned ⟨k, pds⟩ heap) (hfresh : FreshFrame k pds g)
    (ha : InKernel a) {kernel : U32 → Prop}
    (hkernel : ∀ b, kernel b → k.KernelPage heap b ∨ b = a) :
    Exclusive k.takePage.Uses
      (Maps (set k.mmu.phys (kernelTable (dirIndex a)) (tableIndex a) (kernelEntry g)) pds
        kernel) := by
  have hin : ∀ b, kernel b → InKernel b ∧ (k.KernelPage heap b ∨ b = a) := by
    intro b hb
    refine ⟨?_, hkernel b hb⟩
    rcases hkernel b hb with hb | rfl
    · exact inKernel_of_kernelPage h.pool h.area hb
    · exact ha
  have hentry := pointsTo_kernelEntry g
  rw [show frameOf g = g from hfresh.frame.frameOf_eq] at hentry
  apply h.exclusive.map (h.free hfresh) hfresh.uses
  · intro f hf
    exact hfresh.uses_of_uses hf
  · intro e f he
    rcases h.separate.spaces.maps_set_kernel ha hin he with hold | ⟨heq, hpoints⟩
    · exact .inl hold
    · exact .inr ⟨heq, hpoints.unique hentry⟩

/-- One page more is in use. -/
theorem kernelPage_afterPageAlloc (hpool : k.gPagePool.InOrder)
    (hi : k.gPagePool.availPageList = some i) (hb : (k.afterPageAlloc i).KernelPage heap b) :
    k.KernelPage heap b ∨ b = (k.gPagePool.blocks i).addr := by
  rcases hb with hb | hb
  · rcases ((hpool.takeBlock hi).2 b).mp hb with hb | hb
    · exact .inl (.inl hb)
    · exact .inr hb
  · exact .inl (.inr hb)

/-- The frame of a page of the pool. -/
theorem Owned.exclusive_pool (h : Owned ⟨k, pds⟩ heap) (hfresh : FreshFrame k pds g)
    (hi : k.gPagePool.availPageList = some i) :
    Exclusive (k.afterPageAlloc i).Uses
      (Maps (k.afterPageAlloc i).mmu.phys pds ((k.afterPageAlloc i).KernelPage heap)) := by
  have hin := h.separate.spaces.pool.head hi
  have hkernel : ∀ b, (k.afterPageAlloc i).KernelPage heap b →
      k.KernelPage heap b ∨ b = (k.gPagePool.blocks i).addr :=
    fun b hb => kernelPage_afterPageAlloc h.pool hi hb
  have hmain := h.exclusive_kernel hfresh hin.inKernel hkernel
  rw [← hfresh.eq] at hmain
  exact hmain

/-- The page is taken before it is mapped. -/
theorem Owned.takePage (h : Owned ⟨k, pds⟩ heap) (hfresh : FreshFrame k pds g) :
    Owned ⟨k.takePage, pds⟩ heap := by
  constructor
  · exact ⟨h.separate.spaces.takePage, h.separate.unshared⟩
  · exact h.pool
  · exact h.area
  · apply h.exclusive.mono
    · intro f hf
      exact hfresh.uses_of_uses hf
    · intro e f he
      exact he

/-- A page is added to a directory: its frame was taken and is mapped by nothing, or the
entry is absent. -/
theorem Adds.exclusive (h : Adds k d v p flags k') (ho : Owned ⟨k, pds⟩ heap) (hd : d ∈ pds)
    (hv : InUser v)
    (hmem : flagOn (k.mmu.phys (slot d (dirIndex v))) pagePresent = false → k.NotExhausted)
    (hentry : ∀ f, PointsTo (setPageTableEntry p flags) f →
      k.Uses f ∧ ∀ e, ¬Maps k.mmu.phys pds (k.KernelPage heap) e f) :
    k'.gPagePool.InOrder ∧
      Exclusive k'.Uses (Maps k'.mmu.phys pds (k'.KernelPage heap)) := by
  have hs := ho.separate.spaces
  rcases h.lasting hs hmem with ⟨t, ht, rfl⟩ | ⟨i, g, -, hi, hfresh, rfl⟩
  · refine ⟨ho.pool, exclusive_entry (.user d (dirIndex v) (tableIndex v)) _ ho.exclusive
      hentry ?_⟩
    intro e f he
    exact hs.maps_set_table ho.separate.unshared hv hd ht
      (fun b hb => inKernel_of_kernelPage ho.pool ho.area hb) he
  · -- a page of the pool becomes the table
    obtain ⟨hpool, -⟩ := ho.pool.takeBlock hi
    have hin := hs.pool.head hi
    have hkernel : ∀ b, (k.afterPageAlloc i).KernelPage heap b → InKernel b :=
      fun b hb => inKernel_of_kernelPage hpool ho.area hb
    refine ⟨hpool, exclusive_entry (.user d (dirIndex v) (tableIndex v))
      (setPageTableEntry p flags) (ho.exclusive_pool hfresh hi) ?_ ?_⟩
    · intro f hf
      obtain ⟨hused, hfree⟩ := hentry f hf
      refine ⟨hfresh.uses_of_uses hused, ?_⟩
      intro e he
      have hold : ∀ b, (k.afterPageAlloc i).KernelPage heap b →
          InKernel b ∧ (k.KernelPage heap b ∨ b = (k.gPagePool.blocks i).addr) :=
        fun b hb => ⟨hkernel b hb, kernelPage_afterPageAlloc ho.pool hi hb⟩
      rcases hs.maps_set_kernel hin.inKernel hold he with hold | ⟨-, hpoints⟩
      · exact hfree e hold
      · -- the table is a frame that was not in use
        have hfg : f = g := by
          rw [hfresh.eq] at hpoints
          have hpool := pointsTo_kernelEntry g
          rw [show frameOf g = g from hfresh.frame.frameOf_eq] at hpool
          exact hpoints.unique hpool
        rw [hfg, KernelMem.Uses, hfresh.unused] at hused
        cases hused
    · intro e f he
      exact (hs.poolEntry hi).maps_newTable (hfresh.withPhys _) hd hkernel he

/-! ## The table steps -/

theorem Owned.fewer {t : Tables} (h : Owned t heap) (hfewer : ∀ a, heap' a → heap a) :
    Owned t heap' := by
  constructor
  · exact h.separate
  · exact h.pool
  · intro a ha
    exact h.area a (hfewer a ha)
  · apply h.exclusive.mono (fun _ hf => hf)
    intro e f he
    cases e with
    | kernel b =>
      obtain ⟨hb, hpoints⟩ := he
      rcases hb with hb | hb
      · exact ⟨.inl hb, hpoints⟩
      · exact ⟨.inr (hfewer b hb), hpoints⟩
    | user d i j => exact he

/-- Every step keeps the owners apart; a page of the heap may come to count. -/
theorem LastingStep.owned {t t' : Tables} {op : TableOp} (h : LastingStep t op t')
    (ho : Owned t heap) (hop : ∀ a, op = .heapPage a → IsFrame a) :
    Owned t' (fun a => heap a ∨ op = .heapPage a) := by
  obtain ⟨hseparate, -⟩ := h.separate ho.separate
  obtain ⟨hstep, hmem⟩ := h
  have hbefore := hstep.consumes.notExhausted hmem
  have hs := ho.separate.spaces
  obtain ⟨g, hfresh⟩ := hs.freshFrame hbefore.1
  have hsame {t' : Tables} (hnot : ∀ a, op ≠ .heapPage a) (h' : Owned t' heap) :
      Owned t' (fun a => heap a ∨ op = .heapPage a) := by
    apply h'.fewer
    intro a ha
    exact ha.resolve_right (hnot a)
  cases hstep with
  | @heapPage k pds a mmu hlo hhi hr =>
    obtain ⟨heq, -, -⟩ := heapPage_eq hs hlo hhi hr
    have hin : InHeap a := ⟨hop a rfl, hlo, hhi⟩
    constructor
    · exact hseparate
    · exact ho.pool
    · intro b hb
      rcases hb with hb | hb
      · exact ho.area b hb
      · cases hb
        exact hin
    · have hkernel : ∀ b, k.KernelPage (fun b => heap b ∨ TableOp.heapPage a = .heapPage b) b →
          k.KernelPage heap b ∨ b = a := by
        intro b hb
        rcases hb with hb | hb | hb
        · exact .inl (.inl hb)
        · exact .inl (.inr hb)
        · cases hb
          exact .inr rfl
      have hmain := ho.exclusive_kernel hfresh hin.inKernel hkernel
      have hphys : mmu.phys = (k.mapKernelPage a).mmu.phys := congrArg (fun k => k.mmu.phys) heq
      rw [← hfresh.eq] at hmain
      show Exclusive _ (Maps mmu.phys _ _)
      rw [hphys]
      exact hmain
  | @poolPage k k' pds page hr =>
    obtain ⟨i, hi⟩ := Option.ne_none_iff_exists'.mp hbefore.2
    have hin := hs.pool.head hi
    rw [pageAlloc_eq hs.currentDirectory hi hin] at hr
    cases hr
    apply hsame (fun a heq => by cases heq)
    exact ⟨hseparate, (ho.pool.takeBlock hi).1, ho.area, ho.exclusive_pool hfresh hi⟩
  | @userPage k k' pds v hd hv hr =>
    obtain ⟨_, hr', hadds⟩ := hs.takePage.adds hv k.gPmm.getFreePage.1 presentFlags
    cases hr.symm.trans hr'
    have htaken := ho.takePage hfresh
    apply hsame (fun a heq => by cases heq)
    obtain ⟨hpool, hexclusive⟩ := hadds.exclusive htaken hd hv
      (fun _ => (consumes_addPage hr).notExhausted hmem) (by
        intro f hf
        have hfg : f = g := by
          rw [hfresh.eq] at hf
          have hframe := frameOf_setPageTableEntry g presentFlags
          rw [show frameOf g = g from hfresh.frame.frameOf_eq] at hframe
          exact hf.2.symm.trans hframe
        rw [hfg]
        exact ⟨hfresh.uses, ho.free hfresh⟩)
    exact ⟨hseparate, hpool, ho.area, hexclusive⟩
  | @absentPage k k' pds v hd hv hr =>
    obtain ⟨_, hr', hadds⟩ := hs.adds hv 0 absentFlags
    cases hr.symm.trans hr'
    apply hsame (fun a heq => by cases heq)
    obtain ⟨hpool, hexclusive⟩ := hadds.exclusive ho hd hv
      (fun _ => (consumes_addPage hr).notExhausted hmem) (by
        intro f hf
        have hpresent := hf.1
        rw [flagOn_setPageTableEntry] at hpresent
        exact absurd hpresent (by decide))
    exact ⟨hseparate, hpool, ho.area, hexclusive⟩
  | nullPage =>
    apply hsame (fun a heq => by cases heq)
    exact ho.takePage hfresh
  | @directory k k' pds f hr =>
    obtain ⟨i, hi⟩ := Option.ne_none_iff_exists'.mp hbefore.2
    obtain ⟨f', hget, -, -, hr', -⟩ := hs.createProcessPageDirectory hi hbefore.1
    cases hr.symm.trans hr'
    obtain rfl : g = f := hfresh.eq.symm.trans hget
    obtain ⟨hpool, -⟩ := ho.pool.takeBlock hi
    apply hsame (fun a heq => by cases heq)
    refine ⟨hseparate, hpool, ho.area, ?_⟩
    apply (ho.exclusive_pool hfresh hi).mono (fun _ hf => hf)
    intro e f he
    exact (hs.poolEntry hi).maps_newDirectory (hfresh.withPhys _)
      (fun b hb => inKernel_of_kernelPage hpool ho.area hb) he
  | switchTo hd =>
    apply hsame (fun a heq => by cases heq)
    exact ⟨hseparate, ho.pool, ho.area, ho.exclusive⟩

/-! ## The pages that are held -/

/-- A page that `Allocate` has returned: its block is in use, its entry maps its frame, and
the frame is neither a page directory nor a table. -/
structure HeldPage (t : Tables) (page : Page) : Prop where
  inUse : t.k.gPagePool.InUse page.vAddr
  entry : PointsTo (t.k.mmu.phys (kernelPte page.vAddr)) page.pAddr
  high : 2048 ≤ pageOf page.pAddr ∧ pageOf page.pAddr ≠ 0xFFFFF
  notDirectory : page.pAddr ∉ t.pds
  notTable : ∀ d ∈ t.pds, ∀ i, UserIndex i →
    ¬PointsTo (t.k.mmu.phys (slot d i)) page.pAddr

/-- The entries of the pages of the pool are as they were, and what has become a directory
or a table was not in use. -/
structure Leaves (t t' : Tables) : Prop where
  inUse : ∀ a, t.k.gPagePool.InUse a → t'.k.gPagePool.InUse a
  entries : ∀ a, t.k.gPagePool.InUse a →
    t'.k.mmu.phys (kernelPte a) = t.k.mmu.phys (kernelPte a)
  directories : ∀ d ∈ t'.pds, t.k.Uses d → d ∈ t.pds
  tables : ∀ d ∈ t'.pds, ∀ i, UserIndex i → ∀ g, PointsTo (t'.k.mmu.phys (slot d i)) g →
    t.k.Uses g → d ∈ t.pds ∧ PointsTo (t.k.mmu.phys (slot d i)) g

theorem HeldPage.leaves {t t' : Tables} {page : Page} (h : HeldPage t page) (ho : Owned t heap)
    (hleaves : Leaves t t') : HeldPage t' page := by
  have hused : t.k.Uses page.pAddr :=
    ho.exclusive.used (.kernel page.vAddr) page.pAddr ⟨.inl h.inUse, h.entry⟩
  constructor
  · exact hleaves.inUse _ h.inUse
  · rw [hleaves.entries _ h.inUse]
    exact h.entry
  · exact h.high
  · intro hmem
    exact h.notDirectory (hleaves.directories _ hmem hused)
  · intro d hd i hi ht
    obtain ⟨hd, ht⟩ := hleaves.tables d hd i hi _ ht hused
    exact h.notTable d hd i hi ht

/-- Another entry of the kernel half is written. -/
theorem Leaves.set_kernel (hs : Spaces k pds) (hpool : k.gPagePool.InOrder) (ha : InKernel a)
    (hnew : ¬k.gPagePool.InUse a)
    (hinUse : ∀ a, k.gPagePool.InUse a → k'.gPagePool.InUse a)
    (hphys : k'.mmu.phys = set k.mmu.phys (kernelTable (dirIndex a)) (tableIndex a) w) :
    Leaves ⟨k, pds⟩ ⟨k', pds⟩ := by
  constructor
  · exact hinUse
  · intro b hb
    dsimp only
    rw [hphys]
    apply set_otherPte ha (hpool.inUse hb).inKernel
    rintro rfl
    exact hnew hb
  · exact fun d hd _ => hd
  · intro d hd i hi f hf _
    have hdir := hs.directory hd
    dsimp only at hf
    rw [hphys, set_kernel_slot ha.2 hdir.frame hdir.off (Nat.lt_succ_of_lt hi.2)] at hf
    exact ⟨hd, hf⟩

/-- The block of a page of the pool was not in use. -/
theorem not_inUse_avail (hpool : k.gPagePool.InOrder) (hi : k.gPagePool.availPageList = some i) :
    ¬k.gPagePool.InUse (k.gPagePool.blocks i).addr := by
  rintro ⟨b, hb, hfree, heq⟩
  rw [hpool.nbPages] at hb
  obtain ⟨hlt, havailable⟩ := hpool.head hi
  rw [hpool.addr_inj hb hlt heq, havailable] at hfree
  cases hfree

theorem Leaves.afterPageAlloc (hs : Spaces k pds) (hpool : k.gPagePool.InOrder)
    (hi : k.gPagePool.availPageList = some i) : Leaves ⟨k, pds⟩ ⟨k.afterPageAlloc i, pds⟩ := by
  apply Leaves.set_kernel hs hpool (hs.pool.head hi).inKernel (not_inUse_avail hpool hi)
  · intro b hb
    exact ((hpool.takeBlock hi).2 b).mpr (.inl hb)
  · rfl

/-- After a page of the pool was taken, a frame that was not in use before is written to. -/
theorem Leaves.write {k₁ k₂ : KernelMem} {pds' : List U32} (h : Leaves ⟨k, pds⟩ ⟨k₁, pds⟩)
    (hpool : k₂.gPagePool = k₁.gPagePool)
    (hentries : ∀ a, k.gPagePool.InUse a → k₂.mmu.phys (kernelPte a) = k₁.mmu.phys (kernelPte a))
    (hdirectories : ∀ d ∈ pds', d ∈ pds ∨ ¬k.Uses d)
    (htables : ∀ d ∈ pds', ∀ i, UserIndex i → ∀ f, PointsTo (k₂.mmu.phys (slot d i)) f →
      ¬k.Uses f ∨ d ∈ pds ∧ PointsTo (k₁.mmu.phys (slot d i)) f) :
    Leaves ⟨k, pds⟩ ⟨k₂, pds'⟩ := by
  constructor
  · intro a ha
    dsimp only
    rw [hpool]
    exact h.inUse a ha
  · intro a ha
    exact (hentries a ha).trans (h.entries a ha)
  · intro d hd hused
    exact (hdirectories d hd).resolve_right (not_not.mpr hused)
  · intro d hd i hi f hf hused
    obtain ⟨hd, hf⟩ := (htables d hd i hi f hf).resolve_left (not_not.mpr hused)
    exact h.tables d hd i hi f hf hused

theorem FreshFrame.not_uses (h : FreshFrame k pds g) : ¬k.Uses g := by
  intro hused
  rw [KernelMem.Uses, h.unused] at hused
  cases hused

/-- A page is added to a directory. -/
theorem Adds.leaves (h : Adds k d v p flags k') (hs : Spaces k pds)
    (hpool : k.gPagePool.InOrder) (hd : d ∈ pds) (hv : InUser v)
    (hmem : flagOn (k.mmu.phys (slot d (dirIndex v))) pagePresent = false → k.NotExhausted) :
    Leaves ⟨k, pds⟩ ⟨k', pds⟩ := by
  have hrefl : Leaves ⟨k, pds⟩ ⟨k, pds⟩ :=
    ⟨fun _ ha => ha, fun _ _ => rfl, fun _ hd _ => hd, fun _ hd _ _ _ hf _ => ⟨hd, hf⟩⟩
  rcases h.lasting hs hmem with ⟨t, ht, rfl⟩ | ⟨i, g, -, hi, hfresh, rfl⟩
  · have htable := hs.tables d hd _ hv.userIndex t ht
    apply hrefl.write
    · rfl
    · intro a ha
      exact set_table_kernelPte (hpool.inUse ha).lt ht.frame htable.off (tableIndex_lt v)
    · exact fun d hd => .inl hd
    · intro d' hd' j hj f hf
      change PointsTo (set _ _ _ _ _) f at hf
      rw [set_of_frame_ne ht.frame (hs.directory hd').frame (tableIndex_lt v)
        (Nat.lt_succ_of_lt hj.2)] at hf
      · exact .inr ⟨hd', hf⟩
      · rintro rfl
        exact htable.notDirectory (List.mem_cons_of_mem _ hd')
  · have hdir := hs.directory hd
    have hgg : frameOf g = g := hfresh.frame.frameOf_eq
    apply (Leaves.afterPageAlloc hs hpool hi).write
    · rfl
    · intro a ha
      have hindex := dirIndex_kernel (hpool.inUse ha).lt
      show newTable _ _ _ _ _ _ (kernelPte a) = _
      rw [kernelPte_eq, newTable_slot hdir.frame (isFrame_kernelTable hindex) (tableIndex_lt a),
        hgg, if_neg (hfresh.off.ne_kernelTable hindex).symm, if_neg]
      exact fun heq => hdir.off.ne_kernelTable hindex heq.1.symm
    · exact fun d hd => .inl hd
    · intro d' hd' j hj f hf
      change PointsTo (newTable _ _ _ _ _ _ _) f at hf
      rw [newTable_slot hdir.frame (hs.directory hd').frame (Nat.lt_succ_of_lt hj.2), hgg,
        if_neg (hfresh.ne_used (hs.pages d' hd').2.1)] at hf
      split at hf
      · left
        have hframe := frameOf_setPageDirectoryEntry g (pagePresent ||| pageWriteable ||| flags)
        have hfg : f = g := hf.2.symm.trans (hframe.trans hgg)
        rw [hfg]
        exact hfresh.not_uses
      · exact .inr ⟨hd', hf⟩

theorem Leaves.of_takePage {t' : Tables} (hfresh : FreshFrame k pds g)
    (h : Leaves ⟨k.takePage, pds⟩ t') : Leaves ⟨k, pds⟩ t' := by
  constructor
  · exact h.inUse
  · exact h.entries
  · intro d hd hused
    exact h.directories d hd (hfresh.uses_of_uses hused)
  · intro d hd i hi f hf hused
    exact h.tables d hd i hi f hf (hfresh.uses_of_uses hused)

theorem LastingStep.leaves {t t' : Tables} {op : TableOp} (h : LastingStep t op t')
    (ho : Owned t heap) : Leaves t t' := by
  obtain ⟨hstep, hmem⟩ := h
  have hbefore := hstep.consumes.notExhausted hmem
  have hs := ho.separate.spaces
  obtain ⟨g, hfresh⟩ := hs.freshFrame hbefore.1
  have hrefl {k k' : KernelMem} {pds : List U32} (hphys : k'.mmu.phys = k.mmu.phys)
      (hpool : k'.gPagePool = k.gPagePool) : Leaves ⟨k, pds⟩ ⟨k', pds⟩ := by
    constructor
    · dsimp only
      rw [hpool]
      exact fun _ ha => ha
    · intro a _
      dsimp only
      rw [hphys]
    · exact fun _ hd _ => hd
    · intro d hd i _ f hf _
      dsimp only at hf
      rw [hphys] at hf
      exact ⟨hd, hf⟩
  cases hstep with
  | @heapPage k pds a mmu hlo hhi hr =>
    obtain ⟨heq, ha, hlt⟩ := heapPage_eq hs hlo hhi hr
    have hphys : mmu.phys = (k.mapKernelPage a).mmu.phys := congrArg (fun k => k.mmu.phys) heq
    have hlo : 0x1000000 ≤ a.toNat := hlo
    constructor
    · exact fun _ hb => hb
    · intro b hb
      show mmu.phys (kernelPte b) = _
      have hin := ho.pool.inUse hb
      rw [hphys]
      show set _ _ _ _ _ = _
      rw [set_eq_update, ← kernelPte_eq, Function.update_of_ne]
      intro heq
      have hnat := congrArg BitVec.toNat heq
      rw [Mmu.toNat_kernelPte hin.lt, Mmu.toNat_kernelPte hlt] at hnat
      have hbelow := hin.2.2
      omega
    · exact fun _ hd _ => hd
    · intro d hd i hi f hf _
      have hdir := hs.directory hd
      change PointsTo (mmu.phys (slot d i)) f at hf
      rw [hphys] at hf
      change PointsTo (set _ _ _ _ _) f at hf
      rw [set_kernel_slot hlt hdir.frame hdir.off (Nat.lt_succ_of_lt hi.2)] at hf
      exact ⟨hd, hf⟩
  | @poolPage k k' pds page hr =>
    obtain ⟨i, hi⟩ := Option.ne_none_iff_exists'.mp hbefore.2
    rw [pageAlloc_eq hs.currentDirectory hi (hs.pool.head hi)] at hr
    cases hr
    exact Leaves.afterPageAlloc hs ho.pool hi
  | @userPage k k' pds v hd hv hr =>
    obtain ⟨_, hr', hadds⟩ := hs.takePage.adds hv k.gPmm.getFreePage.1 presentFlags
    cases hr.symm.trans hr'
    apply Leaves.of_takePage hfresh
    exact hadds.leaves hs.takePage ho.pool hd hv fun _ => (consumes_addPage hr).notExhausted hmem
  | @absentPage k k' pds v hd hv hr =>
    obtain ⟨_, hr', hadds⟩ := hs.adds hv 0 absentFlags
    cases hr.symm.trans hr'
    exact hadds.leaves hs ho.pool hd hv fun _ => (consumes_addPage hr).notExhausted hmem
  | nullPage => exact hrefl rfl rfl
  | @directory k k' pds f hr =>
    obtain ⟨i, hi⟩ := Option.ne_none_iff_exists'.mp hbefore.2
    obtain ⟨f', hget, -, -, hr', -⟩ := hs.createProcessPageDirectory hi hbefore.1
    cases hr.symm.trans hr'
    obtain rfl : g = f := hfresh.eq.symm.trans hget
    apply (Leaves.afterPageAlloc hs ho.pool hi).write
    · rfl
    · intro a ha
      have hindex := dirIndex_kernel (ho.pool.inUse ha).lt
      show newDirectory _ _ (kernelPte a) = _
      rw [kernelPte_eq, newDirectory_slot hfresh.frame (isFrame_kernelTable hindex)
        (tableIndex_lt a), if_neg (hfresh.off.ne_kernelTable hindex).symm]
    · intro d hd
      rcases List.mem_cons.mp hd with rfl | hd
      · exact .inr hfresh.not_uses
      · exact .inl hd
    · intro d hd j hj f hf
      exact .inr ((hs.poolEntry hi).table_newDirectory (hfresh.withPhys _) hd hj hf)
  | switchTo hd => exact hrefl rfl rfl

/-- The same over a run of steps. -/
theorem lasting_owned {t t' : Tables} {tops : List TableOp} (h : Run LastingStep t tops t')
    (ho : Owned t heap) (hframes : ∀ a, .heapPage a ∈ tops → IsFrame a) :
    Owned t' (fun a => heap a ∨ .heapPage a ∈ tops) ∧
      ∀ page, HeldPage t page → HeldPage t' page := by
  induction h with
  | nil =>
    refine ⟨ho.fewer ?_, fun _ hpage => hpage⟩
    intro a ha
    exact ha.resolve_right List.not_mem_nil
  | @snoc t₁ t₂ tops op _ hstep ih =>
    obtain ⟨ho₁, hheld⟩ := ih fun a ha => hframes a (List.mem_append_left _ ha)
    have ho₂ := hstep.owned ho₁ (by
      rintro a rfl
      exact hframes a (by simp))
    refine ⟨ho₂.fewer ?_, ?_⟩
    · intro a ha
      rcases ha with ha | ha
      · exact .inl (.inl ha)
      · rcases List.mem_append.mp ha with ha | ha
        · exact .inl (.inr ha)
        · exact .inr (List.mem_singleton.mp ha).symm
    · intro page hpage
      exact (hheld page hpage).leaves ho₁ (hstep.leaves ho₁)

end Owned

end LtMicros
