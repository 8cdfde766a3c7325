import LtMicros.PagePoolRuns

/-!
# What a user of the page pool can rely on

Whatever `Free` does to the used list, the available list stays a chain of pages
that nobody has: each page comes from it, and goes back to its front.
-/

namespace LtMicros

open Lib

/-- The address of a page that is neither the first nor the last one. -/
def PageAddr (a : ℕ) : Prop := a % pageSize = 0 ∧ 0 < a ∧ a + pageSize < 2 ^ 32

/-- The pages from `a` and from `b` on do not overlap. -/
theorem PageAddr.apart {a b : ℕ} (ha : PageAddr a) (hb : PageAddr b) (hne : a ≠ b) :
    a + pageSize ≤ b ∨ b + pageSize ≤ a := by
  obtain ⟨ha, -⟩ := ha
  obtain ⟨hb, -⟩ := hb
  unfold pageSize at ha hb ⊢
  omega

namespace PagePool

/-- The address of a block, as a number. -/
def blockAddr (p : PagePool) (b : ℕ) : ℕ := (p.blocks b).addr.toNat

/-- The available pages are different ones, and none of them is in `live`. -/
def Serves (p : PagePool) (live : List ℕ) : Prop :=
  ∃ l, Chain p.next p.availPageList l ∧ (l.map p.blockAddr).Nodup ∧
    ∀ b ∈ l, PageAddr (p.blockAddr b) ∧ p.blockAddr b ∉ live

variable {p p' : PagePool} {live live' : List ℕ}

theorem Serves.mono (h : p.Serves live) (hsub : ∀ a ∈ live', a ∈ live) : p.Serves live' := by
  obtain ⟨l, hchain, hnodup, hl⟩ := h
  exact ⟨l, hchain, hnodup, fun b hb => ⟨(hl b hb).1, fun hmem => (hl b hb).2 (hsub _ hmem)⟩⟩

theorem SameArea.blockAddr (h : SameArea p p') : p'.blockAddr = p.blockAddr := by
  funext b
  rw [PagePool.blockAddr, PagePool.blockAddr, h.addr]

/-- The pool of `Init` serves, when its area has neither the first nor the last page. -/
theorem serves_init {info : KernelInfo} {p₀ : PagePool} (h : p₀.init info = .ret p)
    (haligned : info.vPagePoolBase.toNat % pageSize = 0) (hpos : 0 < info.vPagePoolBase.toNat)
    (hle : info.vPagePoolBase ≤ info.vPagePoolLimit) (htop : info.vPagePoolLimit.toNat < 2 ^ 32 - 1) :
    p.Serves [] := by
  obtain ⟨hchain, -, hbase, hlimit, hlaid⟩ := initPagesList_spec h
  have haddr (b) (hb : b < p.nbPages) :
      p.blockAddr b = info.vPagePoolBase.toNat + b * pageSize ∧
      info.vPagePoolBase.toNat + b * pageSize + pageSize ≤ info.vPagePoolLimit.toNat := by
    have hn : p.nbPages = (info.vPagePoolLimit.toNat - info.vPagePoolBase.toNat) / pageSize := by
      rw [nbPages, hbase, hlimit]
      show (info.vPagePoolLimit - info.vPagePoolBase).toNat / pageSize = _
      rw [BitVec.toNat_sub_of_le hle]
    rw [hn] at hb
    have hbound : info.vPagePoolBase.toNat + b * pageSize + pageSize ≤
        info.vPagePoolLimit.toNat := by
      unfold pageSize at hb ⊢
      omega
    refine ⟨?_, hbound⟩
    rw [blockAddr, hlaid b (by rwa [hn]), hbase]
    show (info.vPagePoolBase + BitVec.ofNat 32 (b * pageSize)).toNat = _
    have hlt := info.vPagePoolLimit.isLt
    rw [BitVec.toNat_add, BitVec.toNat_ofNat, Nat.mod_eq_of_lt (a := b * pageSize) (by omega),
      Nat.mod_eq_of_lt (by omega)]
  refine ⟨_, hchain, ?_, fun b hb => ⟨?_, List.not_mem_nil⟩⟩
  · refine List.Nodup.map_on (fun i hi j hj hij => ?_) List.nodup_range
    exact hlaid.addr_injective (List.mem_range.mp hi) (List.mem_range.mp hj)
      (BitVec.eq_of_toNat_eq hij)
  · obtain ⟨heq, hbound⟩ := haddr b (List.mem_range.mp hb)
    rw [heq]
    unfold PageAddr pageSize at *
    omega

end PagePool

section Calls

variable {k k' : KernelMem} {page : Page} {live : List ℕ} {fuel : ℕ}

/-- `Allocate` answers no page, or one that nobody has. -/
theorem pageAlloc_serves (h : k.gPagePool.Serves live) (hr : k.pageAlloc = .ret (page, k'))
    (hpage : page.vAddr ≠ 0) :
    PageAddr page.vAddr.toNat ∧ page.vAddr.toNat ∉ live ∧
      k'.gPagePool.Serves (page.vAddr.toNat :: live) := by
  obtain ⟨l, hchain, hnodup, hl⟩ := h
  cases hhead : k.gPagePool.availPageList with
  | none =>
    rw [pageAlloc_none hhead] at hr
    cases hr
    exact absurd rfl hpage
  | some a =>
    obtain ⟨hpool, hv⟩ := pageAlloc_some hhead hr
    obtain ⟨rest, rfl, hrest⟩ := hchain.chain_cons hhead
    obtain ⟨harea, havail, -, hnext⟩ := PagePool.takeBlock_spec k.gPagePool a
    have ha : page.vAddr.toNat = k.gPagePool.blockAddr a := congrArg BitVec.toNat hv
    obtain ⟨hnot, hnodup⟩ := List.nodup_cons.mp hnodup
    rw [ha]
    refine ⟨(hl a List.mem_cons_self).1, (hl a List.mem_cons_self).2, rest, ?_, ?_,
      fun b hb => ?_⟩
    · rw [hpool, havail, hnext]
      exact hrest.update_of_not_mem (fun hmem => hnot (List.mem_map_of_mem hmem)) _
    · rwa [hpool, harea.blockAddr]
    · rw [hpool, harea.blockAddr]
      obtain ⟨h1, h2⟩ := hl b (List.mem_cons_of_mem _ hb)
      refine ⟨h1, fun hmem => ?_⟩
      rcases List.mem_cons.mp hmem with heq | hmem
      · exact hnot (heq ▸ List.mem_map_of_mem hb)
      · exact h2 hmem

/-- What a returning `Free` has done to the available list. -/
theorem pageFree_cases (hr : k.pageFree fuel page = .ret k') :
    k' = k ∨ ∃ u a p', (k.gPagePool.blocks u).addr = page.vAddr ∧
      k.gPagePool.availPageList = some a ∧ PagePool.SameArea k.gPagePool p' ∧
      p'.availPageList = some u ∧ p'.next = Function.update k.gPagePool.next u (some a) ∧
      k'.gPagePool = p' := by
  apply Outcome.loop_invariant (I := fun _ => True) (fun _ _ _ _ => trivial) _ trivial hr
  intro s k' _ hturn
  cases s with
  | none =>
    cases hturn
    exact .inl rfl
  | some u =>
    simp only [KernelMem.pageFreeTurn] at hturn
    split at hturn
    · rename_i haddr
      obtain ⟨pool, hpool, hturn⟩ := Outcome.bind_eq_ret.mp hturn
      cases hturn
      rcases k.gPagePool.returnBlock_spec u with ⟨-, hfault⟩ | ⟨a, p', ha, hret, harea, hu, hn, -⟩
      · rw [hfault] at hpool
        cases hpool
      · rw [hret] at hpool
        cases hpool
        exact .inr ⟨u, a, _, haddr, ha, harea, hu, hn, rfl⟩
    · cases hturn

/-- `Free` leaves the page tables and the memory as they are. -/
theorem pageFree_mmu (hr : k.pageFree fuel page = .ret k') : k'.mmu = k.mmu := by
  apply Outcome.loop_invariant (I := fun _ => True) (Q := fun k' : KernelMem => k'.mmu = k.mmu)
    (fun _ _ _ _ => trivial) _ trivial hr
  intro s k' _ hturn
  cases s with
  | none =>
    cases hturn
    rfl
  | some u =>
    simp only [KernelMem.pageFreeTurn] at hturn
    split at hturn
    · obtain ⟨pool, -, hturn⟩ := Outcome.bind_eq_ret.mp hturn
      cases hturn
      rfl
    · cases hturn

/-- `Free` of a page of one's own gives it to the pool, and no other. -/
theorem pageFree_serves (h : k.gPagePool.Serves live) (hr : k.pageFree fuel page = .ret k')
    (hpage : PageAddr page.vAddr.toNat) (hmem : page.vAddr.toNat ∈ live)
    (hothers : ∀ a ∈ live', a ∈ live ∧ a ≠ page.vAddr.toNat) : k'.gPagePool.Serves live' := by
  rcases pageFree_cases hr with rfl | ⟨u, a, p', haddr, havail, harea, hu, hnext, hpool⟩
  · exact h.mono fun a ha => (hothers a ha).1
  · obtain ⟨l, hchain, hnodup, hl⟩ := h
    have hblock : k.gPagePool.blockAddr u = page.vAddr.toNat := congrArg BitVec.toNat haddr
    have hul : u ∉ l := fun hul => (hl u hul).2 (by rwa [hblock])
    rw [hpool]
    refine ⟨u :: l, ⟨hu, ?_⟩, ?_, fun b hb => ?_⟩
    · rw [hnext, Function.update_self, ← havail]
      exact hchain.update_of_not_mem hul _
    · rw [harea.blockAddr, List.map_cons, List.nodup_cons]
      refine ⟨fun hmem' => ?_, hnodup⟩
      obtain ⟨b, hb, heq⟩ := List.mem_map.mp hmem'
      exact (hl b hb).2 (by rwa [heq, hblock])
    · rw [harea.blockAddr]
      rcases List.mem_cons.mp hb with rfl | hb
      · rw [hblock]
        exact ⟨hpage, fun hmem' => (hothers _ hmem').2 rfl⟩
      · exact ⟨(hl b hb).1, fun hmem' => (hl b hb).2 (hothers _ hmem').1⟩

end Calls

end LtMicros
