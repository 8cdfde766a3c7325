import LtMicros.PagePool
import LtMicros.Lib.Run
import Mathlib.Data.List.Perm.Basic

/-!
# The two lists of the page pool

What `Allocate` and `Free` do to the `next` links, and what follows for runs of
the two.
-/

namespace LtMicros

open Lib

namespace PagePool

variable {p p' : PagePool} {a u : ℕ} {avail used : List ℕ}

/-- The parts of the pool that `Allocate` and `Free` never change. -/
structure SameArea (p p' : PagePool) : Prop where
  base : p'.base = p.base
  limit : p'.limit = p.limit
  addr : ∀ i, (p'.blocks i).addr = (p.blocks i).addr

theorem SameArea.trans {p'' : PagePool} (h : SameArea p p') (h' : SameArea p' p'') :
    SameArea p p'' :=
  ⟨h'.base.trans h.base, h'.limit.trans h.limit, fun i => (h'.addr i).trans (h.addr i)⟩

theorem SameArea.nbPages (h : SameArea p p') : p'.nbPages = p.nbPages := by
  simp only [PagePool.nbPages, h.base, h.limit]

/-! ## The setters -/

section Setters

variable (p : PagePool) (b i : ℕ) (v o : Option ℕ) (available : Bool)

@[simp] theorem next_setAvail : (p.setAvail v).next = p.next := rfl

@[simp] theorem availPageList_setAvail : (p.setAvail v).availPageList = v := rfl

@[simp] theorem usedPageList_setAvail : (p.setAvail v).usedPageList = p.usedPageList := rfl

@[simp] theorem next_setUsed : (p.setUsed v).next = p.next := rfl

@[simp] theorem availPageList_setUsed : (p.setUsed v).availPageList = p.availPageList := rfl

@[simp] theorem usedPageList_setUsed : (p.setUsed v).usedPageList = v := rfl

@[simp] theorem next_setPrev : (p.setPrev b v).next = p.next := by
  funext j
  by_cases h : j = b
  · subst h
    simp [next, setPrev]
  · simp [next, setPrev, Function.update_of_ne h]

@[simp] theorem availPageList_setPrev : (p.setPrev b v).availPageList = p.availPageList := rfl

@[simp] theorem usedPageList_setPrev : (p.setPrev b v).usedPageList = p.usedPageList := rfl

@[simp] theorem next_setPrevIf : (p.setPrevIf o v).next = p.next := by
  cases o <;> simp [setPrevIf]

@[simp] theorem availPageList_setPrevIf : (p.setPrevIf o v).availPageList = p.availPageList := by
  cases o <;> rfl

@[simp] theorem usedPageList_setPrevIf : (p.setPrevIf o v).usedPageList = p.usedPageList := by
  cases o <;> rfl

@[simp] theorem next_relink : (p.relink b available v).next = Function.update p.next b v := by
  funext j
  by_cases h : j = b
  · subst h
    simp [next, relink]
  · simp [next, relink, Function.update_of_ne h]

@[simp] theorem availPageList_relink :
    (p.relink b available v).availPageList = p.availPageList := rfl

@[simp] theorem usedPageList_relink : (p.relink b available v).usedPageList = p.usedPageList := rfl

theorem sameArea_setAvail : SameArea p (p.setAvail v) := ⟨rfl, rfl, fun _ => rfl⟩

theorem sameArea_setUsed : SameArea p (p.setUsed v) := ⟨rfl, rfl, fun _ => rfl⟩

theorem sameArea_setPrev : SameArea p (p.setPrev b v) := by
  refine ⟨rfl, rfl, fun j => ?_⟩
  by_cases h : j = b
  · subst h
    simp [setPrev]
  · simp [setPrev, Function.update_of_ne h]

theorem sameArea_setPrevIf : SameArea p (p.setPrevIf o v) := by
  cases o with
  | none => exact ⟨rfl, rfl, fun _ => rfl⟩
  | some b => exact p.sameArea_setPrev b v

theorem sameArea_relink : SameArea p (p.relink b available v) := by
  refine ⟨rfl, rfl, fun j => ?_⟩
  by_cases h : j = b
  · subst h
    simp [relink]
  · simp [relink, Function.update_of_ne h]

end Setters

/-! ## What the operations do to the links -/

/-- `Allocate` moves the head of the available list to the head of the used one. -/
theorem takeBlock_spec (p : PagePool) (a : ℕ) :
    SameArea p (p.takeBlock a) ∧ (p.takeBlock a).availPageList = p.next a ∧
    (p.takeBlock a).usedPageList = some a ∧
    (p.takeBlock a).next = Function.update p.next a p.usedPageList := by
  refine ⟨?_, by simp [takeBlock], by simp [takeBlock], by simp [takeBlock]⟩
  exact ((p.sameArea_setAvail _).trans (sameArea_setPrevIf _ _ _)).trans
    ((sameArea_setUsed _ _).trans ((sameArea_relink _ _ _ _).trans (sameArea_setPrevIf _ _ _)))

theorem unlinkUsed_spec (p : PagePool) (u : ℕ) :
    SameArea p (p.unlinkUsed u) ∧ (p.unlinkUsed u).next = p.next ∧
    (p.unlinkUsed u).availPageList = p.availPageList ∧
    (p.unlinkUsed u).usedPageList =
      if some u = p.usedPageList then p.next u else p.usedPageList := by
  unfold unlinkUsed
  split
  · exact ⟨p.sameArea_setUsed _, rfl, rfl, rfl⟩
  · exact ⟨(p.sameArea_setPrev u _).trans (sameArea_setPrevIf _ _ _), by simp, by simp, by simp⟩

/-- `Free` puts the block it found in front of the available list. No link but
the block's own is changed, so in the middle of the used list the block before
it goes on pointing to it. -/
theorem returnBlock_spec (p : PagePool) (u : ℕ) :
    (p.availPageList = none ∧ p.returnBlock u = .fault) ∨
    ∃ a p', p.availPageList = some a ∧ p.returnBlock u = .ret p' ∧ SameArea p p' ∧
      p'.availPageList = some u ∧ p'.next = Function.update p.next u (some a) ∧
      p'.usedPageList = if some u = p.usedPageList then p.next u else p.usedPageList := by
  obtain ⟨harea, hnext, havail, hused⟩ := p.unlinkUsed_spec u
  cases h : p.availPageList with
  | none => exact .inl ⟨rfl, by simp [returnBlock, havail, h]⟩
  | some a =>
    refine .inr ⟨a, _, rfl, by simp only [returnBlock, havail, h]; rfl, ?_, ?_, ?_, ?_⟩
    · exact harea.trans ((sameArea_setPrev _ _ _).trans
        ((sameArea_relink _ _ _ _).trans (sameArea_setAvail _ _)))
    · simp
    · simp [hnext]
    · simp [hused]

/-! ## `Init` -/

section Init

variable {base : U32} {blocks : ℕ → PageBlock} {n : ℕ}

/-- After `n` turns of the loop of `_InitPagesList`, the first `n` blocks are
linked in order and the last one is remembered. -/
theorem initBlock_spec (base : U32) (blocks : ℕ → PageBlock) (n : ℕ) :
    let st := (List.range n).foldl (initBlock base) (blocks, none)
    (st.2 = if n = 0 then none else some (n - 1)) ∧
    ∀ i < n, (st.1 i).addr = base + BitVec.ofNat 32 (i * pageSize) ∧
      (st.1 i).next = if i + 1 < n then some (i + 1) else none := by
  induction n with
  | zero => exact ⟨rfl, fun i hi => absurd hi (Nat.not_lt_zero i)⟩
  | succ n ih =>
    obtain ⟨hprev, hblocks⟩ := ih
    simp only [List.range_succ, List.foldl_append, List.foldl_cons, List.foldl_nil] at hprev ⊢
    generalize (List.range n).foldl (initBlock base) (blocks, none) = st at hprev hblocks ⊢
    obtain ⟨blocks', prev⟩ := st
    rcases Nat.eq_zero_or_pos n with rfl | hn
    · obtain rfl : prev = none := hprev
      refine ⟨rfl, fun i hi => ?_⟩
      obtain rfl : i = 0 := by omega
      simp [initBlock]
    · obtain rfl : prev = some (n - 1) := by simpa [Nat.pos_iff_ne_zero.mp hn] using hprev
      refine ⟨by simp [initBlock], fun i hi => ?_⟩
      -- the new block, the one before it, whose `next` changes, and the others
      by_cases h1 : i = n
      · subst h1
        simp [initBlock, Function.update_of_ne (show i ≠ i - 1 by omega)]
      by_cases h2 : i = n - 1
      · have hi' := hblocks i (by omega)
        subst h2
        simp only [initBlock, Function.update_self, Function.update_of_ne h1]
        exact ⟨hi'.1, by rw [if_pos (by omega)]; congr 1; omega⟩
      · have hi' := hblocks i (by omega)
        simp only [initBlock, Function.update_of_ne h1, Function.update_of_ne h2]
        exact ⟨hi'.1, by rw [hi'.2, if_pos (by omega), if_pos (by omega)]⟩

end Init

/-- The addresses `_InitPagesList` gave to the blocks. -/
def Laid (p : PagePool) : Prop :=
  ∀ i < p.nbPages, (p.blocks i).addr = p.base + BitVec.ofNat 32 (i * pageSize)

theorem Laid.sameArea (h : p.Laid) (harea : SameArea p p') : p'.Laid := by
  intro i hi
  rw [harea.addr, harea.base]
  exact h i (by rwa [← harea.nbPages])

/-- No two blocks have the same address. -/
theorem Laid.addr_injective (h : p.Laid) {i j : ℕ} (hi : i < p.nbPages) (hj : j < p.nbPages)
    (hij : (p.blocks i).addr = (p.blocks j).addr) : i = j := by
  have hlt : (p.limit - p.base).toNat < 2 ^ 32 := (p.limit - p.base).isLt
  have hbound {n : ℕ} (hn : n < p.nbPages) : n * pageSize < 2 ^ 32 := by
    unfold PagePool.nbPages pageSize at hn
    unfold pageSize
    omega
  rw [h i hi, h j hj, BitVec.add_right_inj] at hij
  have := congrArg BitVec.toNat hij
  rw [BitVec.toNat_ofNat, BitVec.toNat_ofNat, Nat.mod_eq_of_lt (hbound hi),
    Nat.mod_eq_of_lt (hbound hj)] at this
  exact Nat.eq_of_mul_eq_mul_right (by decide) this

/-- `_InitPagesList` makes every block of the area available, in address order. -/
theorem initPagesList_spec (h : p.initPagesList = .ret p') :
    Chain p'.next p'.availPageList (List.range p'.nbPages) ∧
    p'.usedPageList = p.usedPageList ∧ p'.base = p.base ∧ p'.limit = p.limit ∧ p'.Laid := by
  unfold initPagesList at h
  split at h
  · cases h
  · rename_i hn
    obtain ⟨-, hblocks⟩ := initBlock_spec p.base p.blocks p.nbPages
    cases h
    refine ⟨?_, rfl, rfl, rfl, fun i hi => (hblocks i hi).1⟩
    have hchain := Seg.range' (fun i hi => (hblocks i hi).2) (Nat.zero_add _)
    rw [if_pos (Nat.pos_of_ne_zero hn), ← List.range_eq_range'] at hchain
    exact hchain

end PagePool

end LtMicros
