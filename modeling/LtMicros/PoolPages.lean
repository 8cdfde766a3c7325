import LtMicros.WorldRuns
import LtMicros.PagePoolRuns

/-!
# The pages of the pool that are in use

A block is in use from the call of `Allocate` that takes it to the call of `Free`
that gives it back. Whatever becomes of the used list, a block that is available
is not in use.
-/

namespace LtMicros

open Lib

namespace PagePool

variable {p p' : PagePool} {b u : ℕ} {a : U32}

/-- The page `a` of the area has been taken from the pool. -/
def InUse (p : PagePool) (a : U32) : Prop :=
  ∃ b < p.nbPages, (p.blocks b).available = false ∧ (p.blocks b).addr = a

/-- The blocks are those of the area of the pool, and the available ones are not in
use. -/
structure InOrder (p : PagePool) : Prop where
  nbPages : p.nbPages = 2048
  addr : ∀ b < 2048, (p.blocks b).addr.toNat = 0x800000 + b * 4096
  avail : ∃ l, Chain p.next p.availPageList l ∧
    ∀ b ∈ l, b < 2048 ∧ (p.blocks b).available = true
  next : ∀ b < 2048, ∀ c, p.next b = some c → c < 2048
  used : ∀ b, p.usedPageList = some b → b < 2048

/-! ### The field `available` -/

section Available

variable (p) (i : ℕ) (v o : Option ℕ) (available : Bool)

@[simp] theorem available_setPrev :
    ((p.setPrev b v).blocks i).available = (p.blocks i).available := by
  by_cases h : i = b
  · subst h
    simp [setPrev]
  · simp [setPrev, Function.update_of_ne h]

@[simp] theorem available_setPrevIf :
    ((p.setPrevIf o v).blocks i).available = (p.blocks i).available := by
  cases o with
  | none => rfl
  | some b => exact p.available_setPrev i v

@[simp] theorem available_relink : ((p.relink b available v).blocks i).available =
    if i = b then available else (p.blocks i).available := by
  by_cases h : i = b
  · subst h
    simp [relink]
  · simp [relink, h]

theorem takeBlock_available (b : ℕ) : ((p.takeBlock b).blocks i).available =
    if i = b then false else (p.blocks i).available := by
  simp [takeBlock, setAvail, setUsed]

theorem unlinkUsed_available :
    ((p.unlinkUsed u).blocks i).available = (p.blocks i).available := by
  unfold unlinkUsed
  split
  · rfl
  · simp

theorem returnBlock_available (h : p.returnBlock u = .ret p') : (p'.blocks i).available =
    if i = u then true else (p.blocks i).available := by
  obtain ⟨head, -, h⟩ := Outcome.bind_eq_ret.mp h
  cases h
  simp [setAvail, unlinkUsed_available]

end Available

/-- Every block that the loop of `_InitPagesList` has reached is available. -/
theorem available_initBlocks (base : U32) (blocks : ℕ → PageBlock) (n : ℕ) : ∀ i < n,
    (((List.range n).foldl (initBlock base) (blocks, none)).1 i).available = true := by
  induction n with
  | zero => exact fun i hi => absurd hi (Nat.not_lt_zero i)
  | succ n ih =>
    intro i hi
    rw [List.range_succ, List.foldl_append, List.foldl_cons, List.foldl_nil]
    generalize (List.range n).foldl (initBlock base) (blocks, none) = st at ih
    obtain ⟨blocks', prev⟩ := st
    have hnew (prev : Option ℕ) : ((Function.update blocks' n
        { available := true, addr := base + BitVec.ofNat 32 (n * pageSize), next := none,
          prev := prev }) i).available = true := by
      by_cases hin : i = n
      · rw [hin, Function.update_self]
      · rw [Function.update_of_ne hin]
        exact ih i (by omega)
    cases prev with
    | none => exact hnew none
    | some q =>
      dsimp only [initBlock]
      by_cases hiq : i = q
      · rw [hiq, Function.update_self]
        rw [hiq] at hnew
        exact hnew (some q)
      · rw [Function.update_of_ne hiq]
        exact hnew (some q)

theorem available_initPagesList {p₀ : PagePool} (h : p₀.initPagesList = .ret p)
    (hb : b < p.nbPages) : (p.blocks b).available = true := by
  unfold initPagesList at h
  split at h
  · cases h
  · cases h
    exact available_initBlocks _ _ _ b hb

/-! ### The blocks -/

theorem InOrder.inPool (h : p.InOrder) (hb : b < 2048) : InPool (p.blocks b).addr := by
  have haddr := h.addr b hb
  refine ⟨?_, ?_, ?_⟩
  · rw [Frames.IsFrame, haddr]
    omega
  · omega
  · omega

theorem InOrder.inUse (h : p.InOrder) (ha : p.InUse a) : InPool a := by
  obtain ⟨b, hb, -, rfl⟩ := ha
  rw [h.nbPages] at hb
  exact h.inPool hb

theorem InOrder.addr_inj (h : p.InOrder) {b' : ℕ} (hb : b < 2048) (hb' : b' < 2048)
    (heq : (p.blocks b).addr = (p.blocks b').addr) : b = b' := by
  have hnat := congrArg BitVec.toNat heq
  rw [h.addr b hb, h.addr b' hb'] at hnat
  omega

theorem InOrder.head (h : p.InOrder) (hb : p.availPageList = some b) :
    b < 2048 ∧ (p.blocks b).available = true := by
  obtain ⟨l, hchain, hl⟩ := h.avail
  obtain ⟨rest, rfl, -⟩ := hchain.chain_cons hb
  exact hl b List.mem_cons_self

/-- `Allocate` takes one more page into use. -/
theorem InOrder.takeBlock (h : p.InOrder) (hb : p.availPageList = some b) :
    (p.takeBlock b).InOrder ∧
      ∀ a, (p.takeBlock b).InUse a ↔ p.InUse a ∨ a = (p.blocks b).addr := by
  obtain ⟨harea, havail, hused, hnext⟩ := p.takeBlock_spec b
  obtain ⟨hlt, -⟩ := h.head hb
  have hnb : (p.takeBlock b).nbPages = p.nbPages := harea.nbPages
  constructor
  · constructor
    · rw [hnb, h.nbPages]
    · intro i hi
      rw [harea.addr, h.addr i hi]
    · obtain ⟨l, hchain, hl⟩ := h.avail
      obtain ⟨rest, rfl, hrest⟩ := hchain.chain_cons hb
      have hnot := (List.nodup_cons.mp hchain.nodup).1
      refine ⟨rest, ?_, ?_⟩
      · rw [havail, hnext]
        exact hrest.update_of_not_mem hnot _
      · intro i hi
        obtain ⟨hi', hfree⟩ := hl i (List.mem_cons_of_mem b hi)
        refine ⟨hi', ?_⟩
        rw [takeBlock_available, if_neg, hfree]
        rintro rfl
        exact hnot hi
    · intro i hi c hc
      rw [hnext] at hc
      by_cases hib : i = b
      · rw [hib, Function.update_self] at hc
        exact h.used c hc
      · rw [Function.update_of_ne hib] at hc
        exact h.next i hi c hc
    · intro i hi
      rw [hused] at hi
      cases hi
      exact hlt
  · intro a
    constructor
    · rintro ⟨i, hi, hfree, rfl⟩
      rw [hnb] at hi
      rw [harea.addr]
      rw [takeBlock_available] at hfree
      by_cases hib : i = b
      · exact .inr (by rw [hib])
      · rw [if_neg hib] at hfree
        exact .inl ⟨i, hi, hfree, rfl⟩
    · rintro (⟨i, hi, hfree, rfl⟩ | rfl)
      · refine ⟨i, by rwa [hnb], ?_, harea.addr i⟩
        rw [takeBlock_available]
        split
        · rfl
        · exact hfree
      · refine ⟨b, by rwa [hnb, h.nbPages], ?_, harea.addr b⟩
        rw [takeBlock_available, if_pos rfl]

/-- `Free` gives the page of the block back, which was in use. -/
theorem InOrder.returnBlock (h : p.InOrder) (hu : u < 2048) (hfree : (p.blocks u).available = false)
    (hr : p.returnBlock u = .ret p') :
    p'.InOrder ∧ ∀ a, p'.InUse a ↔ p.InUse a ∧ a ≠ (p.blocks u).addr := by
  rcases p.returnBlock_spec u with ⟨-, hfault⟩ | ⟨head, q, hhead, hret, harea, havail, hnext, hused⟩
  · rw [hfault] at hr
    cases hr
  cases hret.symm.trans hr
  have hnb : p'.nbPages = p.nbPages := harea.nbPages
  obtain ⟨hlt, -⟩ := h.head hhead
  constructor
  · constructor
    · rw [hnb, h.nbPages]
    · intro i hi
      rw [harea.addr, h.addr i hi]
    · obtain ⟨l, hchain, hl⟩ := h.avail
      have hnot : u ∉ l := by
        intro hmem
        have havailable := (hl u hmem).2
        rw [hfree] at havailable
        cases havailable
      refine ⟨u :: l, ?_, ?_⟩
      · rw [havail, hnext]
        refine ⟨rfl, ?_⟩
        rw [Function.update_self, ← hhead]
        exact hchain.update_of_not_mem hnot _
      · intro i hi
        rw [p.returnBlock_available i hr]
        rcases List.mem_cons.mp hi with rfl | hi
        · exact ⟨hu, if_pos rfl⟩
        · obtain ⟨hi', havailable⟩ := hl i hi
          refine ⟨hi', ?_⟩
          split
          · rfl
          · exact havailable
    · intro i hi c hc
      rw [hnext] at hc
      by_cases hiu : i = u
      · rw [hiu, Function.update_self] at hc
        cases hc
        exact hlt
      · rw [Function.update_of_ne hiu] at hc
        exact h.next i hi c hc
    · intro i hi
      rw [hused] at hi
      split at hi
      · exact h.next u hu i hi
      · exact h.used i hi
  · intro a
    constructor
    · rintro ⟨i, hi, havailable, rfl⟩
      rw [hnb] at hi
      rw [p.returnBlock_available i hr] at havailable
      split at havailable
      · cases havailable
      · rename_i hiu
        refine ⟨⟨i, hi, havailable, (harea.addr i).symm⟩, ?_⟩
        rw [harea.addr]
        rw [h.nbPages] at hi
        exact fun heq => hiu (h.addr_inj hi hu heq)
    · rintro ⟨⟨i, hi, havailable, rfl⟩, hne⟩
      refine ⟨i, by rwa [hnb], ?_, harea.addr i⟩
      rw [p.returnBlock_available i hr, if_neg, havailable]
      rintro rfl
      exact hne rfl

theorem InOrder.init (h : bss.init kernelInfo = .ret p) : p.InOrder ∧ ∀ a, ¬ p.InUse a := by
  obtain ⟨hchain, hused, hbase, hlimit, hlaid⟩ := initPagesList_spec h
  have hn : p.nbPages = 2048 := by
    rw [PagePool.nbPages, hbase, hlimit]
    decide
  have hfirst : kernelInfo.vPagePoolBase.toNat = 0x800000 := rfl
  constructor
  · constructor
    · exact hn
    · intro b hb
      rw [hlaid b (by rwa [hn]), hbase, BitVec.toNat_add, BitVec.toNat_ofNat]
      dsimp only
      rw [hfirst]
      unfold pageSize
      omega
    · refine ⟨_, hchain, ?_⟩
      intro b hb
      have hlt := List.mem_range.mp hb
      exact ⟨hn ▸ hlt, available_initPagesList h hlt⟩
    · intro b hb c hc
      have hmem := hchain.next_mem (List.mem_range.mpr (by rwa [hn])) hc
      rw [← hn]
      exact List.mem_range.mp hmem
    · intro b hb
      rw [hused] at hb
      cases hb
  · rintro a ⟨b, hb, hfree, -⟩
    rw [available_initPagesList h hb] at hfree
    cases hfree

end PagePool

/-- `Free` finds no block and changes nothing, or gives a block of the page back. -/
theorem pageFree_found {k k' : KernelMem} {page : Page} {fuel : ℕ} (h : k.gPagePool.InOrder)
    (hr : k.pageFree fuel page = .ret k') : k' = k ∨
      ∃ u p', u < 2048 ∧ (k.gPagePool.blocks u).addr = page.vAddr ∧
        k.gPagePool.returnBlock u = .ret p' ∧ k' = ⟨k.mmu, k.gPmm.releasePage page.pAddr, p'⟩ := by
  apply Outcome.loop_invariant (I := fun o : Option ℕ => ∀ u, o = some u → u < 2048)
    (Q := fun k' => k' = k ∨ ∃ u p', u < 2048 ∧ (k.gPagePool.blocks u).addr = page.vAddr ∧
      k.gPagePool.returnBlock u = .ret p' ∧ k' = ⟨k.mmu, k.gPmm.releasePage page.pAddr, p'⟩)
    _ _ h.used hr
  · intro o o' ho hturn
    cases o with
    | none => cases hturn
    | some u =>
      simp only [KernelMem.pageFreeTurn] at hturn
      split at hturn
      · obtain ⟨p', -, hturn⟩ := Outcome.bind_eq_ret.mp hturn
        cases hturn
      · cases hturn
        intro c hc
        exact h.next u (ho u rfl) c hc
  · intro o k₁ ho hturn
    cases o with
    | none =>
      cases hturn
      exact .inl rfl
    | some u =>
      simp only [KernelMem.pageFreeTurn] at hturn
      split at hturn
      · rename_i haddr
        obtain ⟨p', hret, hturn⟩ := Outcome.bind_eq_ret.mp hturn
        cases hturn
        exact .inr ⟨u, p', ho u rfl, haddr, hret, rfl⟩
      · cases hturn

end LtMicros
