import LtMicros.PagePoolLists

/-!
# Runs of the page pool

Sequences of `Allocate` and `Free` in which only live pages are freed, and the
pages that are live.
-/

namespace LtMicros

open Lib

/-! ## What one call does -/

section Calls

variable {k k' : KernelMem} {page : Page} {used : List ℕ}

/-- `Allocate` from an empty pool. -/
theorem pageAlloc_none (h : k.gPagePool.availPageList = none) :
    k.pageAlloc = .ret (⟨0, 0⟩, k) := by
  simp [KernelMem.pageAlloc, h]

/-- What a returning `Allocate` has done to the pool. -/
theorem pageAlloc_some {a : ℕ} (h : k.gPagePool.availPageList = some a)
    (hr : k.pageAlloc = .ret (page, k')) :
    k'.gPagePool = k.gPagePool.takeBlock a ∧ page.vAddr = (k.gPagePool.blocks a).addr := by
  simp only [KernelMem.pageAlloc, h] at hr
  obtain ⟨mmu, -, hr⟩ := Outcome.bind_eq_ret.mp hr
  cases hr
  exact ⟨rfl, (PagePool.takeBlock_spec k.gPagePool a).1.addr a⟩

/-- `Allocate` returns where the tables of the kernel half are all there. -/
theorem pageAlloc_returns {a : ℕ} (h : k.gPagePool.availPageList = some a)
    (hall : k.mmu.AllPresent) (hv : (k.gPagePool.blocks a).addr ≤ vUserBaseAddr) :
    ∃ page k', k.pageAlloc = .ret (page, k') ∧ k'.mmu.AllPresent := by
  have haddr := (PagePool.takeBlock_spec k.gPagePool a).1.addr a
  obtain ⟨mmu, hmmu, hall'⟩ := hall.addPageToKernelPageDirectory hv k.gPmm.getFreePage.1
    (pagePresent ||| pageWriteable)
  exact ⟨_, _, by simp only [KernelMem.pageAlloc, h, haddr, hmmu, Outcome.ret_bind]; rfl, hall'⟩

/-- `Free` searches the used list for the address of the page. -/
theorem pageFree_spec (h : Chain k.gPagePool.next k.gPagePool.usedPageList used) (page : Page)
    {fuel : ℕ} (hfuel : used.length < fuel) :
    k.pageFree fuel page =
      (used.find? fun u => (k.gPagePool.blocks u).addr = page.vAddr).elim (.ret k) fun u => do
        let pool ← k.gPagePool.returnBlock u
        return { k with gPagePool := pool, gPmm := k.gPmm.releasePage page.pAddr } := by
  apply Seg.loop_search h _ _ rfl hfuel
  · intro u hu
    exact if_neg (of_decide_eq_false hu)
  · intro u hu
    rw [KernelMem.pageFreeTurn, if_pos (of_decide_eq_true hu)]
    cases k.gPagePool.returnBlock u <;> rfl

/-- When the page is that of the block `u` of the used list, `Free` comes down
to `returnBlock`. -/
theorem pageFree_mid {l₁ l₂ : List ℕ} {u : ℕ}
    (h : Chain k.gPagePool.next k.gPagePool.usedPageList (l₁ ++ u :: l₂))
    (hu : (k.gPagePool.blocks u).addr = page.vAddr)
    (hne : ∀ i ∈ l₁, (k.gPagePool.blocks i).addr ≠ page.vAddr)
    {fuel : ℕ} (hfuel : (l₁ ++ u :: l₂).length < fuel) :
    k.pageFree fuel page = do
      let pool ← k.gPagePool.returnBlock u
      return { k with gPagePool := pool, gPmm := k.gPmm.releasePage page.pAddr } := by
  have hfind : (l₁ ++ u :: l₂).find? (fun i => (k.gPagePool.blocks i).addr = page.vAddr) =
      some u := by
    rw [List.find?_append, List.find?_eq_none.mpr fun i hi => by simpa using hne i hi]
    simp [hu]
  rw [pageFree_spec h page hfuel, hfind]
  rfl

/-- What a returning `Free` of the page of `u` has done. -/
theorem pageFree_eq_ret {l₁ l₂ : List ℕ} {u fuel : ℕ}
    (h : Chain k.gPagePool.next k.gPagePool.usedPageList (l₁ ++ u :: l₂))
    (hu : (k.gPagePool.blocks u).addr = page.vAddr)
    (hne : ∀ i ∈ l₁, (k.gPagePool.blocks i).addr ≠ page.vAddr)
    (hr : k.pageFree fuel page = .ret k') :
    ∃ p', k.gPagePool.returnBlock u = .ret p' ∧
      k' = ⟨k.mmu, k.gPmm.releasePage page.pAddr, p'⟩ := by
  have hmid := pageFree_mid h hu hne (Nat.lt_of_lt_of_le (Nat.lt_succ_self _) (Nat.le_add_left _ fuel))
  rw [KernelMem.pageFree, Outcome.loop_mono hr] at hmid
  obtain ⟨p', hp', hk'⟩ := Outcome.bind_eq_ret.mp hmid.symm
  cases hk'
  exact ⟨p', hp', rfl⟩

end Calls

/-! ## Runs -/

/-- A state of the kernel with the pages that `Allocate` has returned and that
were not freed since, the newest first. -/
structure PoolState where
  k : KernelMem
  live : List Page

/-- The calls of a run. -/
inductive PoolOp where
  | allocate
  | free (page : Page)

/-- One call that returns. `Allocate` on an empty pool gives no page. -/
inductive PoolStep : PoolState → PoolOp → PoolState → Prop
  | empty {s : PoolState} {page : Page} {k' : KernelMem} :
      s.k.gPagePool.availPageList = none → s.k.pageAlloc = .ret (page, k') →
      PoolStep s .allocate ⟨k', s.live⟩
  | allocate {s : PoolState} {a : ℕ} {page : Page} {k' : KernelMem} :
      s.k.gPagePool.availPageList = some a → s.k.pageAlloc = .ret (page, k') →
      PoolStep s .allocate ⟨k', page :: s.live⟩
  | free {s : PoolState} {page : Page} {fuel : ℕ} {k' : KernelMem} :
      page ∈ s.live → s.k.pageFree fuel page = .ret k' →
      PoolStep s (.free page) ⟨k', s.live.erase page⟩

/-- The two lists are finite, disjoint, and contain every block of the area
exactly once. -/
def Accounted (p : PagePool) : Prop :=
  ∃ avail used, Chain p.next p.availPageList avail ∧ Chain p.next p.usedPageList used ∧
    (avail ++ used).Perm (List.range p.nbPages)

/-- A page that `Allocate` hands out is not the page of a live allocation. -/
def AllocatesFresh (s : PoolState) : Prop :=
  ∀ a page k', s.k.gPagePool.availPageList = some a → s.k.pageAlloc = .ret (page, k') →
    ∀ q ∈ s.live, q.vAddr ≠ page.vAddr

/-- `Free(page)` returns, the block of the page is available again, and the lists
still account for every block. -/
def FreesPage (s : PoolState) (page : Page) : Prop :=
  ∃ fuel k' u, s.k.pageFree fuel page = .ret k' ∧ k'.gPagePool.availPageList = some u ∧
    (k'.gPagePool.blocks u).addr = page.vAddr ∧ Accounted k'.gPagePool

/-- The condition on a call of `Free`: the page is the newest of the live ones
and the available list is not empty. -/
def LifoFree (s : PoolState) : PoolOp → Prop
  | .allocate => True
  | .free page => s.live.head? = some page ∧ s.k.gPagePool.availPageList ≠ none

/-- The invariant of guarded runs: the used list is the list of the live pages. -/
def PoolInv (s : PoolState) : Prop :=
  ∃ avail used, Chain s.k.gPagePool.next s.k.gPagePool.availPageList avail ∧
    Chain s.k.gPagePool.next s.k.gPagePool.usedPageList used ∧
    (avail ++ used).Perm (List.range s.k.gPagePool.nbPages) ∧
    s.k.gPagePool.Laid ∧
    s.live.map Page.vAddr = used.map fun u => (s.k.gPagePool.blocks u).addr

variable {s s' : PoolState} {page : Page}

theorem PoolInv.accounted : PoolInv s → Accounted s.k.gPagePool := by
  rintro ⟨avail, used, havail, hused, hperm, -⟩
  exact ⟨avail, used, havail, hused, hperm⟩

/-- In a state of the invariant a block is on one list only. -/
theorem not_mem_of_perm {avail used : List ℕ} {n u : ℕ}
    (hperm : (avail ++ used).Perm (List.range n)) (hu : u ∈ used) : u ∉ avail := by
  have hnodup := hperm.nodup_iff.mpr List.nodup_range
  exact fun ha => List.disjoint_of_nodup_append hnodup ha hu

theorem PoolInv.allocatesFresh : PoolInv s → AllocatesFresh s := by
  rintro ⟨avail, used, havail, hused, hperm, hlaid, hlive⟩ a page k' ha hr q hq heq
  rw [(pageAlloc_some ha hr).2] at heq
  have hmem : q.vAddr ∈ used.map fun u => (s.k.gPagePool.blocks u).addr :=
    hlive ▸ List.mem_map_of_mem hq
  obtain ⟨u, hu, hau⟩ := List.mem_map.mp hmem
  obtain ⟨rest, rfl, -⟩ := Seg.chain_cons havail ha
  have hlt {i : ℕ} (hi : i ∈ a :: rest ++ used) : i < s.k.gPagePool.nbPages :=
    List.mem_range.mp (hperm.mem_iff.mp hi)
  -- the block taken and the block of `q` have one address, so they are one block
  obtain rfl : u = a := hlaid.addr_injective (hlt (List.mem_append_right _ hu))
    (hlt List.mem_cons_self) (hau.trans heq)
  exact not_mem_of_perm hperm hu List.mem_cons_self

theorem PoolInv.allocate {a : ℕ} {k' : KernelMem} (h : PoolInv s)
    (ha : s.k.gPagePool.availPageList = some a) (hr : s.k.pageAlloc = .ret (page, k')) :
    PoolInv ⟨k', page :: s.live⟩ := by
  obtain ⟨avail, used, havail, hused, hperm, hlaid, hlive⟩ := h
  obtain ⟨hpool, hpage⟩ := pageAlloc_some ha hr
  obtain ⟨harea, ha', hu', hnext⟩ := PagePool.takeBlock_spec s.k.gPagePool a
  obtain ⟨rest, rfl, hrest⟩ := Seg.chain_cons havail ha
  have hnotrest : a ∉ rest := (List.nodup_cons.mp havail.nodup).1
  have hnotused : a ∉ used := fun hu => not_mem_of_perm hperm hu List.mem_cons_self
  refine ⟨rest, a :: used, ?_, ?_, ?_, ?_, ?_⟩
  · rw [hpool, ha', hnext]
    exact hrest.update_of_not_mem hnotrest _
  · rw [hpool, hu', hnext]
    exact ⟨rfl, by simpa using hused.update_of_not_mem hnotused _⟩
  · rw [hpool, harea.nbPages]
    exact List.perm_middle.trans hperm
  · rw [hpool]
    exact hlaid.sameArea harea
  · simp only [List.map_cons, hlive, hpage, hpool, harea.addr]

/-- Freeing the newest live page: its block is the head of the used list, so
`Free` finds it at once and takes it out. -/
theorem PoolInv.free_head (h : PoolInv s) (hfree : LifoFree s (.free page)) :
    ∃ fuel k' u, s.k.pageFree fuel page = .ret k' ∧ k'.gPagePool.availPageList = some u ∧
      (k'.gPagePool.blocks u).addr = page.vAddr ∧ PoolInv ⟨k', s.live.erase page⟩ := by
  obtain ⟨avail, used, havail, hused, hperm, hlaid, hlive⟩ := h
  obtain ⟨hhead, hne⟩ := hfree
  obtain ⟨a, ha⟩ := Option.ne_none_iff_exists'.mp hne
  obtain ⟨live', hlive'⟩ := List.head?_eq_some_iff.mp hhead
  obtain ⟨u, used', rfl⟩ : ∃ u used', used = u :: used' := by
    cases used with
    | nil => simp [hlive'] at hlive
    | cons u used' => exact ⟨u, used', rfl⟩
  rw [hlive', List.map_cons, List.map_cons, List.cons.injEq] at hlive
  obtain ⟨hu, hrest⟩ := hlive
  rcases PagePool.returnBlock_spec s.k.gPagePool u with
    ⟨hnone, -⟩ | ⟨b, p', hb, hret, harea, havail', hnext, hused'⟩
  · exact absurd hnone hne
  cases ha.symm.trans hb
  have hnotavail : u ∉ avail := not_mem_of_perm hperm List.mem_cons_self
  have hnotused : u ∉ used' := (List.nodup_cons.mp hused.nodup).1
  refine ⟨(u :: used').length + 1, ⟨s.k.mmu, s.k.gPmm.releasePage page.pAddr, p'⟩, u, ?_, havail',
    (harea.addr u).trans hu.symm, ?_⟩
  · have hused : Chain _ _ ([] ++ u :: used') := hused
    have hmid := pageFree_mid hused hu.symm (by simp) (Nat.lt_succ_self _)
    rwa [List.nil_append, hret] at hmid
  rw [if_pos hused.1.symm] at hused'
  refine ⟨u :: avail, used', ?_, ?_, ?_, hlaid.sameArea harea, ?_⟩
  · show Chain p'.next p'.availPageList (u :: avail)
    rw [havail', hnext]
    refine ⟨rfl, ?_⟩
    rw [Function.update_self, ← hb]
    exact havail.update_of_not_mem hnotavail _
  · show Chain p'.next p'.usedPageList used'
    rw [hused', hnext]
    exact hused.2.update_of_not_mem hnotused _
  · show (u :: avail ++ used').Perm (List.range p'.nbPages)
    rw [harea.nbPages]
    exact List.perm_middle.symm.trans hperm
  · simp only [hlive', List.erase_cons_head, hrest, harea.addr]

theorem PoolInv.freesPage (h : PoolInv s) (hfree : LifoFree s (.free page)) :
    FreesPage s page := by
  obtain ⟨fuel, k', u, hret, havail, haddr, hinv⟩ := h.free_head hfree
  exact ⟨fuel, k', u, hret, havail, haddr, hinv.accounted⟩

/-- Every guarded call keeps the invariant. -/
theorem PoolInv.step {op : PoolOp} (h : PoolInv s) (hguard : LifoFree s op)
    (hstep : PoolStep s op s') : PoolInv s' := by
  cases hstep with
  | empty ha hr =>
    rw [pageAlloc_none ha] at hr
    cases hr
    exact h
  | allocate ha hr => exact h.allocate ha hr
  | free _ hr =>
    obtain ⟨fuel, k', u, hret, -, -, hinv⟩ := h.free_head hguard
    cases Outcome.loop_unique hret hr
    exact hinv

/-- `Init` establishes the invariant: every block is available. -/
theorem PoolInv.init {p₀ p : PagePool} {info : KernelInfo} (hinit : p₀.init info = .ret p)
    (hbss : p₀.usedPageList = none) (mmu : Mmu) (pmm : PmmBitmap) :
    PoolInv ⟨⟨mmu, pmm, p⟩, []⟩ := by
  obtain ⟨hchain, hused, -, -, hlaid⟩ := PagePool.initPagesList_spec hinit
  exact ⟨_, [], hchain, hused.trans hbss, by simp, hlaid, rfl⟩

/-- In a state of the invariant the live pages have different addresses. -/
theorem PoolInv.live_nodup (h : PoolInv s) : (s.live.map Page.vAddr).Nodup := by
  obtain ⟨avail, used, -, hused, hperm, hlaid, hlive⟩ := h
  have hlt {i : ℕ} (hi : i ∈ used) : i < s.k.gPagePool.nbPages :=
    List.mem_range.mp (hperm.mem_iff.mp (List.mem_append_right _ hi))
  rw [hlive]
  exact hused.nodup.map_on fun i hi j hj => hlaid.addr_injective (hlt hi) (hlt hj)

/-- The block of a live page is on the used list, where `Free` finds it; it is
the head only when the page is the newest live one. -/
theorem PoolInv.live_block (h : PoolInv s) (hpage : page ∈ s.live) :
    ∃ l₁ u l₂, Chain s.k.gPagePool.next s.k.gPagePool.usedPageList (l₁ ++ u :: l₂) ∧
      (s.k.gPagePool.blocks u).addr = page.vAddr ∧
      (∀ i ∈ l₁, (s.k.gPagePool.blocks i).addr ≠ page.vAddr) ∧
      (l₁ = [] → s.live.head? = some page) := by
  have hnodup := h.live_nodup
  obtain ⟨avail, used, -, hused, -, -, hlive⟩ := h
  obtain ⟨u, hu, hau⟩ := List.mem_map.mp (hlive ▸ List.mem_map_of_mem (f := Page.vAddr) hpage)
  obtain ⟨l₁, l₂, rfl⟩ := List.append_of_mem hu
  refine ⟨l₁, u, l₂, hused, hau, ?_, ?_⟩
  · rw [hlive, List.map_append, List.map_cons, hau] at hnodup
    exact fun i hi heq =>
      List.disjoint_of_nodup_append hnodup (heq ▸ List.mem_map_of_mem hi) List.mem_cons_self
  · rintro rfl
    obtain ⟨q, live', hs⟩ := List.exists_cons_of_ne_nil (List.ne_nil_of_mem hpage)
    rw [hs, List.map_cons, List.nil_append, List.map_cons, List.cons.injEq, hau] at hlive
    rcases List.mem_cons.mp (hs ▸ hpage) with rfl | hin
    · rw [hs, List.head?_cons]
    · rw [hs, List.map_cons, hlive.1] at hnodup
      exact absurd (List.mem_map_of_mem hin) (List.nodup_cons.mp hnodup).1

/-- Freeing a page that is not the newest live one leaves its block on both
lists: the block before it in the used list still points to it. -/
theorem PoolInv.free_inner {fuel : ℕ} {k' : KernelMem} (h : PoolInv s) (hpage : page ∈ s.live)
    (hhead : s.live.head? ≠ some page) (hr : s.k.pageFree fuel page = .ret k') :
    ¬ Accounted k'.gPagePool := by
  obtain ⟨l₁, u, l₂, hused, hau, hne, hcons⟩ := h.live_block hpage
  obtain ⟨v, l₁, rfl⟩ := List.exists_cons_of_ne_nil fun hnil => hhead (hcons hnil)
  have hvu : ¬ some u = s.k.gPagePool.usedPageList := by
    rw [hused.1]
    rintro ⟨⟩
    exact hne u List.mem_cons_self hau
  obtain ⟨p', hret, rfl⟩ := pageFree_eq_ret hused hau hne hr
  rcases PagePool.returnBlock_spec s.k.gPagePool u with
    ⟨-, hfault⟩ | ⟨a, p'', ha, hret', harea, havail', hnext, hused'⟩
  · rw [hfault] at hret
    cases hret
  cases hret.symm.trans hret'
  rw [if_neg hvu] at hused'
  rintro ⟨avail, used, hc, hc', hperm⟩
  -- both lists pass through `u`
  obtain ⟨r, rfl, -⟩ := Seg.chain_cons hc havail'
  have hseg : Seg p'.next p'.usedPageList ((v :: l₁) ++ [u]) (some a) := by
    rw [Seg.mid_iff, hnext, hused', Function.update_self]
    refine ⟨(Seg.mid_iff.mp hused).1.update_of_not_mem ?_ _, rfl⟩
    exact fun hmem => hne u hmem hau
  obtain ⟨r', rfl, -⟩ := hseg.chain_split hc'
  exact not_mem_of_perm hperm (by simp) List.mem_cons_self

/-- Freeing when no block is available follows the null `_availPageList`. -/
theorem PoolInv.free_empty (h : PoolInv s) (hpage : page ∈ s.live)
    (hnone : s.k.gPagePool.availPageList = none) (fuel : ℕ) (k' : KernelMem) :
    s.k.pageFree fuel page ≠ .ret k' := by
  intro hr
  obtain ⟨l₁, u, l₂, hused, hau, hne, -⟩ := h.live_block hpage
  obtain ⟨p', hret, -⟩ := pageFree_eq_ret hused hau hne hr
  rcases PagePool.returnBlock_spec s.k.gPagePool u with ⟨-, hfault⟩ | ⟨a, p', ha, -⟩
  · exact absurd (hfault.symm.trans hret) (by simp)
  · exact absurd (hnone.symm.trans ha) (by simp)

/-- Freeing any live page returns while a block is available. -/
theorem PoolInv.free_returns {a : ℕ} (h : PoolInv s) (hpage : page ∈ s.live)
    (ha : s.k.gPagePool.availPageList = some a) :
    ∃ fuel k', s.k.pageFree fuel page = .ret k' := by
  obtain ⟨l₁, u, l₂, hused, hau, hne, -⟩ := h.live_block hpage
  rcases PagePool.returnBlock_spec s.k.gPagePool u with ⟨hnone, -⟩ | ⟨b, p', -, hret, -⟩
  · exact absurd (hnone.symm.trans ha) (by simp)
  · exact ⟨_, _, (pageFree_mid hused hau hne (Nat.lt_succ_self _)).trans (by rw [hret]; rfl)⟩

/-- The condition on `Free` is exact. -/
theorem PoolInv.freesPage_iff (h : PoolInv s) (hpage : page ∈ s.live) :
    FreesPage s page ↔ LifoFree s (.free page) := by
  refine ⟨?_, h.freesPage⟩
  rintro ⟨fuel, k', u, hr, -, -, hacc⟩
  exact ⟨Classical.byContradiction fun hhead => h.free_inner hpage hhead hr hacc,
    fun hnone => h.free_empty hpage hnone fuel k' hr⟩

/-! ## Accounting -/

/-- In every state of a run from `Init` in which only the newest live page is
freed, and only while a block is available, the lists account for every block
and `Allocate` hands out no live page. The next `Free` finds its page and keeps
the accounts exactly when it meets the condition too. -/
theorem pool_accounting {p₀ p : PagePool} {info : KernelInfo} {mmu : Mmu} {pmm : PmmBitmap}
    {ops : List PoolOp} (hbss : p₀.usedPageList = none) (hinit : p₀.init info = .ret p)
    (h : Run (Guarded LifoFree PoolStep) ⟨⟨mmu, pmm, p⟩, []⟩ ops s) :
    Accounted s.k.gPagePool ∧ AllocatesFresh s ∧
      ∀ page ∈ s.live, FreesPage s page ↔ LifoFree s (.free page) := by
  have hinv : PoolInv s := h.guarded_invariant (fun _ _ _ hi hc hs => hi.step hc hs)
    (.init hinit hbss mmu pmm)
  exact ⟨hinv.accounted, hinv.allocatesFresh, fun _ hpage => hinv.freesPage_iff hpage⟩

/-- The kernel after `PagePool::Init`, with every physical page free. -/
def bootMem (p : PagePool) : KernelMem := ⟨.uniform, ⟨fun _ => 0⟩, p⟩

theorem boot_init : ∃ p, PagePool.bss.init kernelInfo = .ret p := by
  unfold PagePool.init PagePool.initPagesList
  rw [if_neg (by decide)]
  exact ⟨_, rfl⟩

/-- Two calls of `Allocate` in the kernel's own area. -/
theorem boot_two_allocations :
    ∃ p page₁ page₂ k, PagePool.bss.init kernelInfo = .ret p ∧
      Run (Guarded LifoFree PoolStep) ⟨bootMem p, []⟩ [.allocate, .allocate] ⟨k, [page₂, page₁]⟩ ∧
      k.gPagePool.availPageList = some 2 ∧ page₁.vAddr = 0x800000 ∧ page₂.vAddr = 0x801000 := by
  obtain ⟨p, hp⟩ := boot_init
  obtain ⟨hchain, -, hbase, hlimit, hlaid⟩ := PagePool.initPagesList_spec hp
  have hn : p.nbPages = 2045 + 1 + 1 + 1 := by
    rw [PagePool.nbPages, hbase, hlimit]
    decide
  rw [hn, List.range_eq_range', List.range'_succ, List.range'_succ, List.range'_succ] at hchain
  obtain ⟨h0, h1, h2, -⟩ := hchain
  have haddr {i : ℕ} (hi : i < 2048) : (p.blocks i).addr = 0x800000 + BitVec.ofNat 32 (i * 4096) :=
    (hlaid i (hn ▸ hi)).trans (by rw [hbase]; rfl)
  -- the first call takes block 0, the second one block 1
  obtain ⟨page₁, k₁, hr₁, hall⟩ := pageAlloc_returns (k := bootMem p) h0 Mmu.uniform_allPresent
    (by rw [bootMem, haddr (by decide)]; decide)
  obtain ⟨hpool₁, hpage₁⟩ := pageAlloc_some h0 hr₁
  obtain ⟨harea, havail, -, hnext⟩ := PagePool.takeBlock_spec p 0
  have h0' : k₁.gPagePool.availPageList = some 1 := by
    rw [hpool₁]
    exact havail.trans h1
  obtain ⟨page₂, k₂, hr₂, -⟩ := pageAlloc_returns h0' hall
    (by rw [hpool₁, bootMem, harea.addr, haddr (by decide)]; decide)
  obtain ⟨hpool₂, hpage₂⟩ := pageAlloc_some h0' hr₂
  refine ⟨p, page₁, page₂, k₂, hp, ?_, ?_, ?_, ?_⟩
  · exact .snoc (.single ⟨trivial, .allocate h0 hr₁⟩) ⟨trivial, .allocate h0' hr₂⟩
  · rw [hpool₂, (PagePool.takeBlock_spec _ _).2.1, hpool₁, bootMem, hnext]
    exact h2
  · rw [hpage₁, bootMem, haddr (by decide)]
    decide
  · rw [hpage₂, hpool₁, bootMem, harea.addr, haddr (by decide)]
    decide

/-- Two pages are allocated and the newer one is freed: the older one can be freed then. -/
theorem pool_accounting_boot :
    ∃ p page₁ page₂ s, PagePool.bss.init kernelInfo = .ret p ∧
      Run (Guarded LifoFree PoolStep) ⟨bootMem p, []⟩ [.allocate, .allocate, .free page₂] s ∧
      s.live = [page₁] ∧
      (Accounted s.k.gPagePool ∧ AllocatesFresh s ∧
        ∀ page ∈ s.live, FreesPage s page ↔ LifoFree s (.free page)) ∧
      FreesPage s page₁ := by
  obtain ⟨p, page₁, page₂, k, hp, hrun, ha, -⟩ := boot_two_allocations
  have hinv : PoolInv ⟨k, [page₂, page₁]⟩ := hrun.guarded_invariant
    (fun _ _ _ hi hc hs => hi.step hc hs) (.init hp rfl .uniform ⟨fun _ => 0⟩)
  have hlifo : LifoFree ⟨k, [page₂, page₁]⟩ (.free page₂) := ⟨rfl, by rw [ha]; simp⟩
  obtain ⟨fuel, k', u, hret, havail, -⟩ := hinv.free_head hlifo
  have hrun' := hrun.snoc ⟨hlifo, .free List.mem_cons_self hret⟩
  have hlive : [page₂, page₁].erase page₂ = [page₁] := List.erase_cons_head ..
  rw [hlive] at hrun'
  have hacc := pool_accounting rfl hp hrun'
  have hlast : LifoFree ⟨k', [page₁]⟩ (.free page₁) := ⟨rfl, by rw [havail]; simp⟩
  exact ⟨p, page₁, page₂, _, hp, hrun', rfl, hacc,
    (hacc.2.2 page₁ List.mem_cons_self).mpr hlast⟩

/-- Two pages are allocated and the older one is freed: its block is then on
both lists. -/
theorem free_older_page_joins_lists :
    ∃ p page s, PagePool.bss.init kernelInfo = .ret p ∧
      Run PoolStep ⟨bootMem p, []⟩ [.allocate, .allocate, .free page] s ∧
      page.vAddr = 0x800000 ∧ ¬ Accounted s.k.gPagePool := by
  obtain ⟨p, page₁, page₂, k, hp, hrun, ha, hv₁, hv₂⟩ := boot_two_allocations
  have hinv : PoolInv ⟨k, [page₂, page₁]⟩ := hrun.guarded_invariant
    (fun _ _ _ hi hc hs => hi.step hc hs) (.init hp rfl .uniform ⟨fun _ => 0⟩)
  have hpage : page₁ ∈ [page₂, page₁] := by simp
  obtain ⟨fuel, k', hr⟩ := hinv.free_returns hpage ha
  have hne : [page₂, page₁].head? ≠ some page₁ := by
    rintro ⟨⟩
    exact absurd (hv₁.symm.trans hv₂) (by decide)
  refine ⟨p, page₁, ⟨k', [page₂, page₁].erase page₁⟩, hp, ?_, hv₁,
    hinv.free_inner hpage hne hr⟩
  exact (hrun.mono fun _ _ _ h => h.2).snoc (.free hpage hr)

end LtMicros
