import LtMicros.FrameOwners
import LtMicros.Supply

/-!
# Runs in which every frame has one owner

The allocation calls of all processes, interleaved with `Allocate` and `Free` of the page
pool. `Free` is called for pages that `Allocate` has returned and that were not freed since.
-/

namespace LtMicros

open Lib Lib.Frames

/-- The pages of the heap are those up to its end. -/
def World.HeapPage (w : World) (a : U32) : Prop :=
  IsFrame a ∧ kernelInfo.vHeapBase ≤ a ∧ a.toNat < w.lastBlock

/-- The entries that count, and what they map. -/
def World.Maps (w : World) : PageEntry → U32 → Prop :=
  LtMicros.Maps w.s.mem.mmu.phys w.pds (w.s.mem.KernelPage w.HeapPage)

/-- The memory managers become `k`. -/
def World.withMem (w : World) (k : KernelMem) : World := { w with s := { w.s with mem := k } }

/-- The world, and the pages that `Allocate` has returned and `Free` has not taken back. -/
structure Holding where
  w : World
  held : List Page

inductive HoldingOp where
  | call (op : WorldOp)
  | allocate
  | free (page : Page)

/-- One call that returns, and leaves memory for others. -/
inductive HoldingStep : Holding → HoldingOp → Holding → Prop
  | call {w w' : World} {held : List Page} {op : WorldOp} : UserStep w op w' →
      HoldingStep ⟨w, held⟩ (.call op) ⟨w', held⟩
  | allocate {w : World} {held : List Page} {page : Page} {k : KernelMem} :
      w.s.mem.pageAlloc = .ret (page, k) → k.NotExhausted →
      HoldingStep ⟨w, held⟩ .allocate ⟨w.withMem k, page :: held⟩
  | free {w : World} {held : List Page} {page : Page} {fuel : ℕ} {k : KernelMem} :
      page ∈ held → w.s.mem.pageFree fuel page = .ret k →
      HoldingStep ⟨w, held⟩ (.free page) ⟨w.withMem k, held.erase page⟩

/-! ## `Allocate` and `Free` -/

section Free

variable {k k' : KernelMem} {pds : List U32} {heap : U32 → Prop} {page : Page} {f : U32} {u : ℕ}
  {pool : PagePool}

theorem pageOf_inj {g : U32} (hf : IsFrame f) (hg : IsFrame g) (h : pageOf f = pageOf g) :
    f = g := by
  apply BitVec.eq_of_toNat_eq
  rw [IsFrame] at hf hg
  unfold pageOf pageSize at h
  omega

/-- Every other frame stays in use. -/
theorem used_releasePage {p : PmmBitmap} {addr : U32} {q : ℕ} (hne : q ≠ pageOf addr)
    (h : p.used q = true) : (p.releasePage addr).used q = true := by
  have hused := p.used_setPageUnused addr q
  have hne : q ≠ addr.toNat / pageSize := hne
  rw [decide_eq_true hne, Bool.true_and] at hused
  exact hused.trans h

theorem Maps.frame {phys : U32 → U32} {kernel : U32 → Prop} {e : PageEntry}
    (h : Maps phys pds kernel e f) : IsFrame f := by
  cases e with
  | kernel => exact h.2.frame
  | user =>
    obtain ⟨-, -, -, _, -, hpoints⟩ := h
    exact hpoints.frame

theorem PagePool.InOrder.availInPool {p : PagePool} (h : p.InOrder) : p.AvailInPool := by
  obtain ⟨l, hchain, hl⟩ := h.avail
  refine ⟨l, hchain, ?_⟩
  intro b hb
  exact h.inPool (hl b hb).1

/-- The frame of a page that is held goes back; no table is in it. -/
theorem Spaces.release (h : Spaces k pds) (hpage : HeldPage ⟨k, pds⟩ page) (hpool : pool.InOrder) :
    Spaces ⟨k.mmu, k.gPmm.releasePage page.pAddr, pool⟩ pds := by
  have hframe := hpage.entry.frame
  have hused {g : U32} (hg : IsFrame g) (hne : g ≠ page.pAddr)
      (hu : k.gPmm.used (pageOf g) = true) :
      (k.gPmm.releasePage page.pAddr).used (pageOf g) = true := by
    apply used_releasePage _ hu
    exact fun heq => hne (pageOf_inj hg hframe heq)
  obtain ⟨hlow, hlast⟩ := hpage.high
  constructor
  · constructor
    · intro q hq
      exact used_releasePage (by omega) (h.reserved.kernel q hq)
    · exact used_releasePage hlast.symm h.reserved.last
  · exact hpool.availInPool
  · exact h.nodup
  · exact h.directories
  · intro d hd
    obtain ⟨hhigh, hu, hne⟩ := h.pages d hd
    refine ⟨hhigh, hused (h.directory hd).frame ?_ hu, hne⟩
    rintro rfl
    exact hpage.notDirectory hd
  · intro d hd i hi t ht
    have htable := h.tables d hd i hi t ht
    refine ⟨hused ht.frame ?_ htable.used, htable.off, htable.notDirectory⟩
    rintro rfl
    exact hpage.notTable d hd i hi ht
  · exact h.pageZero
  · exact h.pageOne
  · exact h.current

/-- `Allocate` returns a page that nobody holds, with a frame of its own, while there is a
physical page. -/
theorem Owned.pageAlloc {i : ℕ} (h : Owned ⟨k, pds⟩ heap) (hi : k.gPagePool.availPageList = some i)
    (hfree : k.gPmm.freePages.Nonempty) (hr : k.pageAlloc = .ret (page, k')) :
    Owned ⟨k', pds⟩ heap ∧ HeldPage ⟨k', pds⟩ page ∧
      (∀ page', HeldPage ⟨k, pds⟩ page' → HeldPage ⟨k', pds⟩ page') ∧
      ¬k.gPagePool.InUse page.vAddr := by
  have hs : Spaces k pds := h.separate.spaces
  have hin := hs.pool.head hi
  have hsame (d) (hd : d ∈ pds) := hs.sameUser_kernel hin.lt hd
    (w := kernelEntry k.gPmm.getFreePage.1)
  obtain ⟨g, hfresh⟩ := hs.freshFrame hfree
  obtain ⟨hpool, hinUse⟩ := h.pool.takeBlock hi
  have hnot := not_inUse_avail h.pool hi
  rw [pageAlloc_eq hs.currentDirectory hi hin] at hr
  cases hr
  refine ⟨⟨⟨hs.afterPageAlloc hi, ?_⟩, hpool, h.area, h.exclusive_pool hfresh hi⟩, ?_, ?_, hnot⟩
  · exact h.separate.unshared.congr fun d hd j hj =>
      (hsame d hd).directory j (Nat.lt_succ_of_lt hj.2)
  · -- the page has the fresh frame
    rw [hfresh.eq]
    constructor
    · exact (hinUse _).mpr (.inr rfl)
    · have hentry := pointsTo_kernelEntry g
      rw [show frameOf g = g from hfresh.frame.frameOf_eq] at hentry
      show PointsTo (set _ _ _ (kernelEntry k.gPmm.getFreePage.1) _) g
      rw [hfresh.eq, kernelPte_eq, set_self]
      exact hentry
    · have hhigh := hfresh.high
      refine ⟨?_, ?_⟩
      · unfold pageOf pageSize
        dsimp only
        omega
      · intro hlast
        have hused := hs.reserved.last
        rw [← hlast, hfresh.unused] at hused
        cases hused
    · exact fun hd => hfresh.notDirectory (List.mem_cons_of_mem _ hd)
    · intro d hd j hj ht
      change PointsTo (set _ _ _ _ _) g at ht
      rw [(hsame d hd).directory j (Nat.lt_succ_of_lt hj.2)] at ht
      exact hfresh.ne_used (hs.tables d hd j hj g ht).used rfl
  · exact fun page' hpage' => hpage'.leaves h (Leaves.afterPageAlloc hs h.pool hi)

/-- `Free` of a page that is held leaves every frame with one owner. -/
theorem Owned.pageFree {fuel : ℕ} (h : Owned ⟨k, pds⟩ heap) (hpage : HeldPage ⟨k, pds⟩ page)
    (hr : k.pageFree fuel page = .ret k') : Owned ⟨k', pds⟩ heap ∧
      ∀ page', page'.vAddr ≠ page.vAddr → HeldPage ⟨k, pds⟩ page' → HeldPage ⟨k', pds⟩ page' := by
  rcases pageFree_found h.pool hr with rfl | ⟨u, pool, hu, haddr, hret, rfl⟩
  · exact ⟨h, fun _ _ hpage' => hpage'⟩
  -- the block that was found is the one in use
  obtain ⟨b, hb, hfree, heq⟩ := hpage.inUse
  have hb : b < 2048 := h.pool.nbPages ▸ hb
  obtain rfl : b = u := h.pool.addr_inj hb hu (heq.trans haddr.symm)
  obtain ⟨hpool, hinUse⟩ := h.pool.returnBlock hu hfree hret
  rw [haddr] at hinUse
  constructor
  · constructor
    · exact ⟨h.separate.spaces.release hpage hpool, h.separate.unshared⟩
    · exact hpool
    · exact h.area
    · have hentry : Maps k.mmu.phys pds (k.KernelPage heap) (.kernel page.vAddr) page.pAddr :=
        ⟨.inl hpage.inUse, hpage.entry⟩
      apply h.exclusive.release hentry
      · intro e f he
        cases e with
        | kernel a =>
          obtain ⟨ha, hpoints⟩ := he
          have hne : a ≠ page.vAddr := by
            rintro rfl
            rcases ha with ha | ha
            · exact ((hinUse _).mp ha).2 rfl
            · have hlo : 0x1000000 ≤ page.vAddr.toNat := (h.area _ ha).2.1
              have hhi := (h.pool.inUse hpage.inUse).2.2
              omega
          refine ⟨⟨?_, hpoints⟩, ?_⟩
          · exact ha.imp (fun ha => ((hinUse a).mp ha).1) id
          · exact fun heq => hne (PageEntry.kernel.inj heq)
        | user d i j =>
          refine ⟨he, ?_⟩
          rintro ⟨⟩
      · intro e f he hne
        apply used_releasePage _ (h.exclusive.used e f he)
        exact fun heq => hne (pageOf_inj he.frame hpage.entry.frame heq)
  · intro page' hne hpage'
    constructor
    · exact (hinUse _).mpr ⟨hpage'.inUse, hne⟩
    · exact hpage'.entry
    · exact hpage'.high
    · exact hpage'.notDirectory
    · exact hpage'.notTable

end Free

/-! ## The invariant -/

/-- The invariant of a run. -/
structure HoldingInv (s : Holding) : Prop where
  placed : s.w.HeapPlaced
  owned : Owned s.w.tables s.w.HeapPage
  held : ∀ page ∈ s.held, HeldPage s.w.tables page
  nodup : (s.held.map Page.vAddr).Nodup

section Runs

variable {w w' : World} {op : WorldOp} {held : List Page} {page : Page} {k : KernelMem}

theorem HoldingInv.inv {s : Holding} (h : HoldingInv s) : WorldInv s.w :=
  ⟨h.owned.separate.spaces, h.placed⟩

/-- Only `Sbrk` maps pages of the heap, and it maps all of them up to the new end. -/
theorem UserStep.heapPages (h : UserStep w op w') (hinv : WorldInv w) :
    ∃ tops, Run LastingStep w.tables tops w'.tables ∧
      (∀ a, .heapPage a ∈ tops → IsFrame a) ∧
      ∀ a, w'.HeapPage a → w.HeapPage a ∨ .heapPage a ∈ tops := by
  have hother (hlast : w'.lastBlock = w.lastBlock) (hnot : ∀ a, ¬TakesStep op (.heapPage a)) :
      ∃ tops, Run LastingStep w.tables tops w'.tables ∧
        (∀ a, .heapPage a ∈ tops → IsFrame a) ∧
        ∀ a, w'.HeapPage a → w.HeapPage a ∨ .heapPage a ∈ tops := by
    obtain ⟨tops, hrun, hall⟩ := h.tables hinv
    refine ⟨tops, hrun, ?_, ?_⟩
    · intro a ha
      exact absurd (hall _ ha) (hnot a)
    · rintro a ⟨hframe, hlo, hhi⟩
      exact .inl ⟨hframe, hlo, hlast ▸ hhi⟩
  obtain ⟨-, hstep, hmem⟩ := h
  cases hstep with
  | sbrk hr =>
    obtain ⟨⟨tops, hrun, hall⟩, -⟩ := sbrk_tables hinv.heap hr
    refine ⟨tops, lasting_run hrun hmem, ?_, ?_⟩
    · intro a ha
      obtain ⟨b, heq, hframe, -⟩ := (hall _).mp ha
      cases heq
      exact hframe
    · rintro a ⟨hframe, hlo, hhi⟩
      by_cases hold : a.toNat < w.lastBlock
      · exact .inl ⟨hframe, hlo, hold⟩
      · exact .inr ((hall _).mpr ⟨a, rfl, hframe, Nat.not_lt.mp hold, hhi⟩)
  | create =>
    apply hother rfl
    intro a ht
    cases (show TableOp.heapPage a = .directory from ht)
  | pageAlloc =>
    apply hother rfl
    intro a ht
    cases (show TableOp.heapPage a = .poolPage from ht)
  | pageFree =>
    apply hother rfl
    exact fun _ ht => ht
  | switchTo =>
    apply hother rfl
    intro a ht
    cases (show TableOp.heapPage a = .switchTo _ from ht)
  | allocate => exact hother rfl fun _ ht => ht
  | allocateAtAddress => exact hother rfl fun _ ht => ht
  | reservePages => exact hother rfl fun _ ht => ht
  | resolvePageFault => exact hother rfl fun _ ht => ht

theorem HoldingInv.call (h : HoldingInv ⟨w, held⟩) (hstep : UserStep w op w') :
    HoldingInv ⟨w', held⟩ := by
  obtain ⟨tops, hrun, hframes, hpages⟩ := hstep.heapPages h.inv
  obtain ⟨howned, hheld⟩ := lasting_owned hrun h.owned hframes
  constructor
  · exact (h.inv.step hstep).heap
  · exact howned.fewer hpages
  · intro page hpage
    exact hheld page (h.held page hpage)
  · exact h.nodup

/-- `Allocate` returns a page that nobody holds. -/
theorem HoldingInv.allocate (h : HoldingInv ⟨w, held⟩) (hr : w.s.mem.pageAlloc = .ret (page, k))
    (hmem : k.NotExhausted) : HoldingInv ⟨w.withMem k, page :: held⟩ := by
  have hbefore := (consumes_pageAlloc hr).notExhausted hmem
  obtain ⟨i, hi⟩ := Option.ne_none_iff_exists'.mp hbefore.2
  obtain ⟨howned, hnew, hheld, hnot⟩ := Owned.pageAlloc h.owned hi hbefore.1 hr
  constructor
  · exact h.placed
  · exact howned
  · intro page' hpage'
    rcases List.mem_cons.mp hpage' with rfl | hpage'
    · exact hnew
    · exact hheld page' (h.held page' hpage')
  · refine List.nodup_cons.mpr ⟨?_, h.nodup⟩
    intro hmem
    obtain ⟨page', hpage', heq⟩ := List.mem_map.mp hmem
    have hold := (h.held page' hpage').inUse
    rw [heq] at hold
    exact hnot hold

theorem HoldingInv.free {fuel : ℕ} (h : HoldingInv ⟨w, held⟩) (hpage : page ∈ held)
    (hr : w.s.mem.pageFree fuel page = .ret k) :
    HoldingInv ⟨w.withMem k, held.erase page⟩ := by
  obtain ⟨howned, hkeeps⟩ := Owned.pageFree h.owned (h.held page hpage) hr
  constructor
  · exact h.placed
  · exact howned
  · intro page' hpage'
    obtain ⟨hne, hmem⟩ := (List.Nodup.mem_erase_iff (List.Nodup.of_map _ h.nodup)).mp hpage'
    apply hkeeps page' _ (h.held page' hmem)
    exact fun heq => hne (List.inj_on_of_nodup_map h.nodup hmem hpage heq)
  · exact h.nodup.sublist (List.erase_sublist.map _)

theorem HoldingInv.step {s s' : Holding} {op : HoldingOp} (h : HoldingInv s)
    (hstep : HoldingStep s op s') : HoldingInv s' := by
  cases hstep with
  | call hcall => exact h.call hcall
  | allocate hr hmem => exact h.allocate hr hmem
  | free hpage hr => exact h.free hpage hr

/-- The kernel starts with an empty heap, no page in use and no process. -/
theorem HoldingInv.boot (h : Boot w) : HoldingInv ⟨w, []⟩ := by
  have hinv := WorldInv.boot h
  have hpds : w.pds = [] := by rw [World.pds, h.processes, List.map_nil]
  obtain ⟨hpool, hnone⟩ := PagePool.InOrder.init h.gPagePool
  have hnoHeap : ∀ a, ¬w.HeapPage a := by
    rintro a ⟨-, hlo, hhi⟩
    rw [h.lastBlock] at hhi
    exact absurd hhi (Nat.not_lt.mpr hlo)
  have hnoEntry : ∀ e f, ¬w.Maps e f := by
    intro e f he
    cases e with
    | kernel a =>
      rcases he.1 with ha | ha
      · exact hnone a ha
      · exact hnoHeap a ha
    | user d i j =>
      have hd := he.1
      rw [hpds] at hd
      cases hd
  constructor
  · exact hinv.heap
  · constructor
    · exact .boot h
    · exact hpool
    · exact fun a ha => absurd ha (hnoHeap a)
    · constructor
      · exact fun e f he => absurd he (hnoEntry e f)
      · exact fun e _ f he => absurd he (hnoEntry e f)
  · exact fun page hpage => absurd hpage List.not_mem_nil
  · exact List.nodup_nil

/-- In every state that is reached, a frame that is mapped is in use, and mapped by one
entry only. -/
theorem frames_exclusively_owned {s : Holding} {ops : List HoldingOp} (hboot : Boot w)
    (hrun : Run HoldingStep ⟨w, []⟩ ops s) : Exclusive s.w.s.mem.Uses s.w.Maps := by
  have hinv : HoldingInv s :=
    hrun.invariant (fun _ _ _ h hstep => HoldingInv.step h hstep) (.boot hboot)
  exact hinv.owned.exclusive

end Runs

/-! ## Pages of the pool that are taken and given back -/

section Live

variable {w : World} {k : KernelMem} {live held : List Page} {page : Page} {n m fuel : ℕ}

theorem freePages_releasePage (p : PmmBitmap) (addr : U32) :
    p.freePages ⊆ (p.releasePage addr).freePages := by
  intro q hq
  rw [PmmBitmap.freePages, Finset.mem_filter] at hq ⊢
  refine ⟨hq.1, (p.used_setPageUnused addr q).trans ?_⟩
  rw [hq.2, Bool.and_false]

/-- What `Free` leaves of the rest of the memory. -/
theorem PoolInv.pageFree_rest (h : PoolInv ⟨k, live⟩) (hpage : page ∈ live) {k' : KernelMem}
    (hr : k.pageFree fuel page = .ret k') :
    k'.mmu = k.mmu ∧ k'.gPmm = k.gPmm.releasePage page.pAddr ∧
      k'.gPagePool.nbPages = k.gPagePool.nbPages := by
  obtain ⟨l₁, u, l₂, hused, hau, hne, -⟩ := h.live_block hpage
  obtain ⟨p', hret, rfl⟩ := pageFree_eq_ret hused hau hne hr
  rcases PagePool.returnBlock_spec k.gPagePool u with ⟨-, hfault⟩ | ⟨_, p'', -, hret', harea, -⟩
  · rw [hfault] at hret
    cases hret
  · cases hret.symm.trans hret'
    exact ⟨rfl, rfl, harea.nbPages⟩

/-- `Free` uses up nothing: all blocks but those of the live pages are available. -/
theorem PoolInv.supply_pageFree {k' : KernelMem} (h : PoolInv ⟨k, live⟩)
    (h' : PoolInv ⟨k', live.erase page⟩) (hpage : page ∈ live)
    (hr : k.pageFree fuel page = .ret k') (hsup : k.Supply n m) : k'.Supply n m := by
  obtain ⟨-, hpmm, hblocks⟩ := h.pageFree_rest hpage hr
  obtain ⟨avail, used, havail, -, hperm, -, hlive⟩ := h
  obtain ⟨avail', used', havail', -, hperm', -, hlive'⟩ := h'
  obtain ⟨l, hl, hm⟩ := hsup.blocks
  obtain rfl : l = avail := Seg.unique hl havail
  refine ⟨hsup.pages.trans ?_, avail', havail', hm.trans ?_⟩
  · rw [hpmm]
    exact Finset.card_le_card (freePages_releasePage _ _)
  · have hall := hperm.length_eq
    have hall' := hperm'.length_eq
    have hused := congrArg List.length hlive
    have hused' := congrArg List.length hlive'
    have hless := (List.erase_sublist (a := page) (l := live)).length_le
    simp only [List.length_append, List.length_range, List.length_map] at hall hall' hused hused'
    omega

/-- A page is taken while there is memory. -/
theorem HoldingInv.takes (h : HoldingInv ⟨w, held⟩) (hlive : PoolInv ⟨w.s.mem, held⟩)
    (hsup : w.s.mem.Supply (n + 2) (m + 2)) :
    ∃ page k, HoldingStep ⟨w, held⟩ .allocate ⟨w.withMem k, page :: held⟩ ∧
      PoolInv ⟨k, page :: held⟩ ∧ k.Supply (n + 1) (m + 1) := by
  obtain ⟨i, hi⟩ := hsup.block
  have hs := h.inv.spaces
  have halloc := pageAlloc_eq hs.currentDirectory hi (hs.pool.head hi)
  have hsup' := hsup.afterPageAlloc hi
  exact ⟨_, _, .allocate halloc hsup'.notExhausted, hlive.allocate hi halloc, hsup'⟩

/-- The kernel starts, and a page of the pool is taken. -/
theorem boot_takes : ∃ pool page w, PagePool.bss.init kernelInfo = .ret pool ∧
    Run HoldingStep ⟨bootWorld pool 0x10000, []⟩ [.allocate] ⟨w, [page]⟩ ∧
    HoldingInv ⟨w, [page]⟩ ∧ PoolInv ⟨w.s.mem, [page]⟩ ∧ w.s.mem.Supply 14335 2047 := by
  obtain ⟨pool, hpool⟩ := boot_init
  have hinv : HoldingInv ⟨bootWorld pool 0x10000, []⟩ := .boot (boot_bootWorld hpool 0x10000)
  have hlive : PoolInv ⟨(bootWorld pool 0x10000).s.mem, []⟩ := .init hpool rfl _ _
  obtain ⟨page, k, hstep, hlive', hsup⟩ := hinv.takes hlive (supply_bootWorld_64 hpool)
  exact ⟨pool, page, _, hpool, .single hstep, hinv.step hstep, hlive', hsup⟩

end Live

/-- Two pages are taken, the second one is given back, and a process is made: the first page is
still mapped by its entry, which counts. -/
theorem frames_exclusively_owned_boot :
    ∃ pool page₁ page₂ w, PagePool.bss.init kernelInfo = .ret pool ∧
      Run HoldingStep ⟨bootWorld pool 0x10000, []⟩
        [.allocate, .allocate, .free page₂, .call .create] ⟨w, [page₁]⟩ ∧
      w.processes ≠ [] ∧ w.Maps (.kernel page₁.vAddr) page₁.pAddr ∧
      Exclusive w.s.mem.Uses w.Maps := by
  obtain ⟨pool, page₁, w, hpool, hrun, hinv, hlive, hsup⟩ := boot_takes
  have hboot := boot_bootWorld hpool 0x10000
  obtain ⟨page₂, k, hstep, hlive₂, hsup₂⟩ := hinv.takes hlive hsup
  have hinv₂ := hinv.step hstep
  -- the newer page is given back
  have hlast : LifoFree ⟨k, [page₂, page₁]⟩ (.free page₂) := ⟨rfl, hsup₂.notExhausted.2⟩
  obtain ⟨fuel, k', u, hfree, -, -, hlive₃⟩ := hlive₂.free_head hlast
  have hgive : HoldingStep ⟨w.withMem k, [page₂, page₁]⟩ (.free page₂)
      ⟨(w.withMem k).withMem k', [page₂, page₁].erase page₂⟩ :=
    .free List.mem_cons_self hfree
  have hsup₃ := hlive₂.supply_pageFree hlive₃ List.mem_cons_self hfree hsup₂
  have hinv₃ := hinv₂.step hgive
  rw [List.erase_cons_head] at hgive hinv₃
  obtain ⟨p, w', hcreate, hcreated, -⟩ := hinv₃.inv.userStep_create hsup₃
  have hrun' := ((hrun.snoc hstep).snoc hgive).snoc (.call hcreate)
  have hpage := (hinv₃.step (.call hcreate)).held page₁ List.mem_cons_self
  have hmade : w'.processes ≠ [] := by
    rw [hcreated.processes]
    exact List.cons_ne_nil _ _
  exact ⟨pool, page₁, page₂, w', hpool, hrun', hmade, ⟨.inl hpage.inUse, hpage.entry⟩,
    frames_exclusively_owned hboot hrun'⟩

/-- `Free` leaves the entry of the page, whose frame is not in use any more. -/
theorem freed_page_still_mapped :
    ∃ pool page s, PagePool.bss.init kernelInfo = .ret pool ∧
      Run HoldingStep ⟨bootWorld pool 0x10000, []⟩ [.allocate, .free page] s ∧
      InPool page.vAddr ∧ PointsTo (s.w.s.mem.mmu.phys (kernelPte page.vAddr)) page.pAddr ∧
      ¬s.w.s.mem.Uses page.pAddr := by
  obtain ⟨pool, page, w, hpool, hrun, hinv, hlive, hsup⟩ := boot_takes
  have hpage := hinv.held page List.mem_cons_self
  have hlast : LifoFree ⟨_, [page]⟩ (.free page) := ⟨rfl, hsup.notExhausted.2⟩
  obtain ⟨fuel, k, -, hfree, -⟩ := hlive.free_head hlast
  obtain ⟨hmmu, hpmm, -⟩ := hlive.pageFree_rest List.mem_cons_self hfree
  refine ⟨pool, page, _, hpool, hrun.snoc (.free List.mem_cons_self hfree), ?_, ?_, ?_⟩
  · exact hinv.owned.pool.inUse hpage.inUse
  · show PointsTo (k.mmu.phys _) _
    rw [hmmu]
    exact hpage.entry
  · show ¬k.gPmm.used (pageOf page.pAddr) = true
    rw [hpmm, PmmBitmap.releasePage, PmmBitmap.used_setPageUnused]
    simp [pageOf]

end LtMicros
