import LtMicros.HeapTiling
import LtMicros.KernelTables

/-!
# Growing the heap

`Sbrk` maps new pages behind the last block and makes one free block of them.
-/

namespace LtMicros

open Lib

namespace Heap

variable {h h' : Heap} {l : List ℕ}

/-- The physical pages `pages` are mapped from `addr` on. -/
def MapsPages (m : Mmu) : ℕ → List ℕ → Prop
  | _, [] => True
  | addr, page :: pages =>
    m.phys (kernelPte (BitVec.ofNat 32 addr)) =
      setPageTableEntry (BitVec.ofNat 32 (page * pageSize)) (pagePresent ||| pageWriteable) ∧
    MapsPages m (addr + pageSize) pages

/-- Only the table entries of the `n` pages from `addr` on have changed. -/
def MapsOnly (m m' : Mmu) (addr n : ℕ) : Prop :=
  ∀ a, (∀ i < n, a ≠ kernelPte (BitVec.ofNat 32 (addr + i * pageSize))) → m'.phys a = m.phys a

theorem ofNat_lt_vUserBaseAddr {addr : ℕ} (h : addr < 2 ^ 30) :
    BitVec.ofNat 32 addr < vUserBaseAddr := by
  show (BitVec.ofNat 32 addr).toNat < 2 ^ 30
  rw [BitVec.toNat_ofNat]
  omega

theorem add_pages_succ (addr i : ℕ) :
    addr + pageSize + i * pageSize = addr + (i + 1) * pageSize := by
  unfold pageSize
  omega

theorem page_lt {addr i n limit : ℕ} (h : addr + (n + 1) * pageSize ≤ limit) (hi : i < n) :
    addr + (i + 1) * pageSize < limit := by
  unfold pageSize at h ⊢
  omega

/-- Different pages have different table entries. -/
theorem kernelPte_ne {addr i : ℕ} (h : addr + (i + 1) * pageSize < 2 ^ 30) :
    kernelPte (BitVec.ofNat 32 addr) ≠
      kernelPte (BitVec.ofNat 32 (addr + (i + 1) * pageSize)) := by
  intro heq
  have hnat := congrArg BitVec.toNat heq
  unfold pageSize at h hnat
  rw [Mmu.toNat_kernelPte (ofNat_lt_vUserBaseAddr (by omega)),
    Mmu.toNat_kernelPte (ofNat_lt_vUserBaseAddr h), BitVec.toNat_ofNat, BitVec.toNat_ofNat] at hnat
  omega

/-- The pages before and after the mapped ones keep their entries. -/
theorem MapsOnly.keeps {m m' : Mmu} {addr n : ℕ} (h : MapsOnly m m' addr n)
    (haligned : addr % pageSize = 0) (hn : addr + n * pageSize ≤ 2 ^ 30) {v : U32}
    (hv : v < vUserBaseAddr) (hout : v.toNat < addr ∨ addr + n * pageSize ≤ v.toNat) :
    m'.phys (kernelPte v) = m.phys (kernelPte v) := by
  refine h _ fun i hi heq => ?_
  have hlt : addr + i * pageSize < 2 ^ 30 := by
    unfold pageSize at hn ⊢
    omega
  have hnat := congrArg BitVec.toNat heq
  rw [Mmu.toNat_kernelPte hv, Mmu.toNat_kernelPte (ofNat_lt_vUserBaseAddr hlt),
    BitVec.toNat_ofNat] at hnat
  unfold pageSize at haligned hout hlt hnat
  omega

/-- One page is mapped, then the rest. -/
theorem MapsOnly.cons {m m₁ m' : Mmu} {addr n : ℕ} {entry : U32}
    (h₁ : m₁.phys = Function.update m.phys (kernelPte (BitVec.ofNat 32 addr)) entry)
    (h : MapsOnly m₁ m' (addr + pageSize) n) : MapsOnly m m' addr (n + 1) := by
  intro a ha
  rw [h a fun i hi => ?_, h₁, Function.update_of_ne]
  · simpa using ha 0 (Nat.succ_pos n)
  · have := ha (i + 1) (Nat.succ_lt_succ hi)
    rwa [← add_pages_succ] at this

/-- The loop of `Sbrk` while page 0 is in use: it maps `n` pages, which are pages
of their own as long as there are enough. -/
theorem sbrkPages_spec {addr n : ℕ} (hmmu : h.mmu.KernelTables) (h0 : h.gPmm.used 0 = true)
    (hn : addr + n * pageSize ≤ 2 ^ 30) :
    ∃ h', h.sbrkPages addr n = .ret (h', addr + n * pageSize) ∧ h'.mem = h.mem ∧
      h'.baseBlock = h.baseBlock ∧ h'.lastBlock = h.lastBlock ∧ h'.mmu.KernelTables ∧
      MapsOnly h.mmu h'.mmu addr n ∧ h'.gPmm.freePages ⊆ h.gPmm.freePages ∧
      (n ≤ h.gPmm.freePages.card → ∃ pages : List ℕ, pages.length = n ∧ pages.Nodup ∧
        (∀ p ∈ pages, p ∈ h.gPmm.freePages ∧ p ∉ h'.gPmm.freePages) ∧
        MapsPages h'.mmu addr pages) := by
  induction n generalizing h addr with
  | zero =>
    exact ⟨h, by simp [sbrkPages], rfl, rfl, rfl, hmmu, fun _ _ => rfl, subset_rfl,
      fun _ => ⟨[], rfl, List.nodup_nil, by simp, trivial⟩⟩
  | succ n ih =>
    have hn' : addr + pageSize + n * pageSize ≤ 2 ^ 30 := by rwa [add_pages_succ]
    obtain ⟨hne, h0'⟩ := PmmBitmap.getFreePage_ne_null h0
    obtain ⟨mmu, hadd, hmmu', hphys⟩ := hmmu.addPage
      (ofNat_lt_vUserBaseAddr (show addr < 2 ^ 30 by unfold pageSize at hn; omega))
      h.gPmm.getFreePage.1 (pagePresent ||| pageWriteable)
    obtain ⟨h', hret, hmem, hbase, hlast, htables, honly, hsub, hpages⟩ :=
      ih (h := { h with mmu, gPmm := h.gPmm.getFreePage.2 }) hmmu' h0' hn'
    have hnext : add32 addr pageSize = addr + pageSize :=
      add32_of_lt (by unfold pageSize at hn ⊢; omega)
    have hfree : h.gPmm.getFreePage.2.freePages ⊆ h.gPmm.freePages := by
      rcases h.gPmm.getFreePage_cases with ⟨-, hp⟩ | ⟨page, -, hp⟩
      · rw [hp]
      · rw [hp, PmmBitmap.freePages_setPageUsed]
        exact Finset.erase_subset _ _
    refine ⟨h', ?_, hmem, hbase, hlast, htables, honly.cons hphys, hsub.trans hfree, fun hcard => ?_⟩
    · simp only [sbrkPages, if_neg hne, hadd, Outcome.ret_bind, hnext]
      rw [hret, add_pages_succ]
    · rcases h.gPmm.getFreePage_cases with ⟨hempty, -⟩ | ⟨page, hpage, hp⟩
      · rw [hempty] at hcard
        simp at hcard
      rw [hp] at hphys hpages hsub
      simp only [PmmBitmap.freePages_setPageUsed] at hpages hsub
      obtain ⟨pages, hlen, hnodup, hin, hmaps⟩ := hpages (by
        rw [Finset.card_erase_of_mem hpage]
        omega)
      refine ⟨page :: pages, by simp [hlen], List.nodup_cons.mpr ⟨fun hmem => ?_, hnodup⟩, ?_, ?_,
        hmaps⟩
      · exact absurd (hin page hmem).1 (by simp)
      · intro p hp
        rcases List.mem_cons.mp hp with rfl | hp
        · exact ⟨hpage, fun hmem => absurd (hsub hmem) (by simp)⟩
        · exact ⟨Finset.mem_of_mem_erase (hin p hp).1, (hin p hp).2⟩
      · rw [honly _ fun i hi => ?_, hphys, Function.update_self]
        rw [add_pages_succ]
        exact kernelPte_ne (page_lt hn hi)

/-- The heap has grown by `n` pages: these are physical pages of their own, taken
from the free ones, and no other page of the kernel half has a new entry. -/
structure Backed (h h' : Heap) (n : ℕ) : Prop where
  pages : ∃ pages : List ℕ, pages.length = n ∧ pages.Nodup ∧
    (∀ p ∈ pages, p ∈ h.gPmm.freePages ∧ p ∉ h'.gPmm.freePages) ∧
    MapsPages h'.mmu h.lastBlock pages
  keeps : ∀ v : U32, v < vUserBaseAddr →
    v.toNat < h.lastBlock ∨ h.lastBlock + n * pageSize ≤ v.toNat →
    h'.mmu.phys (kernelPte v) = h.mmu.phys (kernelPte v)

theorem Backed.le_card {n : ℕ} (hb : Backed h h' n) : n ≤ h.gPmm.freePages.card := by
  obtain ⟨pages, rfl, hnodup, hin, -⟩ := hb.pages
  rw [← List.toFinset_card_of_nodup hnodup]
  exact Finset.card_le_card fun p hp => (hin p (List.mem_toFinset.mp hp)).1

/-- The heap has one more free block of `n` pages at its end. -/
structure Grows (h h' : Heap) (l : List ℕ) (n : ℕ) : Prop where
  tiled : Tiled h' (l ++ [h.lastBlock])
  last : h'.lastBlock = h.lastBlock + n * pageSize
  free : blockState h'.mem h.lastBlock = blockFree
  size : blockSize h'.mem h.lastBlock = n * pageSize
  below : ∀ x < h.lastBlock, h'.mem x = h.mem x
  backed : n ≤ h.gPmm.freePages.card → Backed h h' n

section Sbrk

variable {n : ℕ}

/-- `Sbrk` panics when the pages do not fit below `vHeapLimit`. -/
theorem sbrk_no_room (hn : 0 < n) (hwrap : h.lastBlock + n * pageSize < 2 ^ 32)
    (hroom : kernelInfo.vHeapLimit.toNat < h.lastBlock + n * pageSize) :
    h.sbrk n = .panic := by
  have hbytes : n * pageSize % 2 ^ 32 = n * pageSize := Nat.mod_eq_of_lt (by omega)
  have hpos : ¬ (n : ℤ) ≤ 0 := by omega
  rw [sbrk, if_neg hpos]
  simp only [Int.toNat_natCast, hbytes, add32_of_lt hwrap, if_pos hroom]

/-- `Sbrk` panics on the null pointer that is the address of page 0. -/
theorem sbrk_page_zero (hn : 0 < n) (hroom : h.lastBlock + n * pageSize ≤ 2 ^ 30)
    (h0 : h.gPmm.used 0 = false) : h.sbrk n = .panic := by
  have hbytes : n * pageSize % 2 ^ 32 = n * pageSize := Nat.mod_eq_of_lt (by omega)
  have hpos : ¬ (n : ℤ) ≤ 0 := by omega
  have hwrap : add32 h.lastBlock (n * pageSize) = h.lastBlock + n * pageSize :=
    add32_of_lt (by omega)
  obtain ⟨k, rfl⟩ : ∃ k, n = k + 1 := ⟨n - 1, by omega⟩
  have hlimit : ¬ kernelInfo.vHeapLimit.toNat < h.lastBlock + (k + 1) * pageSize := by
    rw [vHeapLimit_eq]
    omega
  rw [sbrk, if_neg hpos]
  simp only [Int.toNat_natCast, hbytes, hwrap, if_neg hlimit, sbrkPages,
    PmmBitmap.getFreePage_zero h0, if_true, Outcome.panic_bind]

/-- Otherwise `Sbrk` adds one free block of `n` pages at the end. -/
theorem Tiled.sbrk (ht : Tiled h l) (haligned : h.lastBlock % pageSize = 0)
    (hmmu : h.mmu.KernelTables) (h0 : h.gPmm.used 0 = true) (hn : 0 < n)
    (hroom : h.lastBlock + n * pageSize ≤ 2 ^ 30) :
    ∃ h', h.sbrk n = .ret (some h.lastBlock, h') ∧ Grows h h' l n := by
  have hbytes : n * pageSize % 2 ^ 32 = n * pageSize := Nat.mod_eq_of_lt (by omega)
  have hpos : ¬ (n : ℤ) ≤ 0 := by omega
  have hwrap : add32 h.lastBlock (n * pageSize) = h.lastBlock + n * pageSize :=
    add32_of_lt (by omega)
  have hlimit : ¬ kernelInfo.vHeapLimit.toNat < h.lastBlock + n * pageSize := by
    rw [vHeapLimit_eq]
    omega
  obtain ⟨h₁, hret, hmem, hbase, hlast, htables, honly, -, hpages⟩ := sbrkPages_spec hmmu h0 hroom
  rw [Heap.sbrk, if_neg hpos]
  simp only [Int.toNat_natCast, hbytes, hwrap, if_neg hlimit, hret, Outcome.ret_bind]
  have hlt : n * pageSize < 2 ^ 31 := by omega
  have hpage : 4096 ≤ n * pageSize := Nat.le_mul_of_pos_left pageSize hn
  generalize hm₁ : setBlockSize h₁.mem h.lastBlock (n * pageSize) = m₁
  generalize hm₂ : setBlockState m₁ h.lastBlock blockFree = m₂
  have hsize₁ : blockSize m₁ h.lastBlock = n * pageSize := by
    rw [← hm₁, blockSize_setBlockSize, Nat.mod_eq_of_lt hlt]
  have hsize₂ : blockSize m₂ h.lastBlock = n * pageSize := by
    rw [← hm₂, blockSize_setBlockState, hsize₁]
  have hstate₂ : blockState m₂ h.lastBlock = blockFree := by
    rw [← hm₂, blockState_setBlockState]
    rfl
  rw [hsize₂]
  generalize hm₃ : m₂.fill (h.lastBlock + blockHeaderSize) 0
    (sub32 (n * pageSize) blockHeaderSize) = m₃
  have hhead : blockSize m₃ h.lastBlock = blockSize m₂ h.lastBlock ∧
      blockState m₃ h.lastBlock = blockState m₂ h.lastBlock := by
    refine header_congr fun x _ hx => ?_
    rw [← hm₃]
    exact Bytes.fill_of_not_mem (.inl hx)
  have hbelow : ∀ x < h.lastBlock, m₃ x = h.mem x := by
    intro x hx
    rw [← hm₃, Bytes.fill_of_not_mem (.inl (Nat.lt_add_right _ hx)), ← hm₂,
      setBlockState_of_not_mem (.inl hx), ← hm₁, setBlockSize_of_not_mem (.inl hx), hmem]
  have hkeep (w) (hw : w ∈ l) : blockSize m₃ w = blockSize h.mem w :=
    (header_congr fun x _ hx => hbelow x (by have := ht.bounds hw; omega)).1
  refine ⟨_, rfl, ⟨?_, fun w hw => ?_, hbase.trans ht.base, hroom⟩, rfl, hhead.2.trans hstate₂,
    hhead.1.trans hsize₂, hbelow, fun hcard => ⟨hpages hcard, fun v => honly.keeps haligned hroom⟩⟩
  · dsimp only
    rw [hbase]
    refine Tiles.append_iff.mpr ⟨h.lastBlock, tiles_congr hkeep ht.tiles, rfl, ?_, ?_⟩
    · show h.lastBlock < blockEnd m₃ h.lastBlock
      rw [blockEnd, hhead.1, hsize₂]
      omega
    · show blockEnd m₃ h.lastBlock = h.lastBlock + n * pageSize
      rw [blockEnd, hhead.1, hsize₂]
  · show 4 < blockSize m₃ w
    rcases List.mem_append.mp hw with hw | hw
    · rw [hkeep w hw]
      exact ht.size w hw
    · obtain rfl := List.mem_singleton.mp hw
      rw [hhead.1, hsize₂]
      omega

end Sbrk

section Grows

variable {n u : ℕ}

/-- The old blocks are as they were. -/
theorem Grows.old (hg : Grows h h' l n) (ht : Tiled h l) (hu : u ∈ l) :
    u < h.lastBlock ∧ blockEnd h'.mem u = blockEnd h.mem u ∧
      blockState h'.mem u = blockState h.mem u := by
  have hbounds := ht.bounds hu
  obtain ⟨hsize, hstate⟩ := header_congr (m := h'.mem) (b := u)
    fun x _ hx => hg.below x (by omega)
  exact ⟨by omega, by rw [blockEnd, blockEnd, hsize], hstate⟩

/-- The used blocks of a heap. -/
def InUse (h : Heap) (l : List ℕ) (u : ℕ) : Prop := u ∈ l ∧ blockState h.mem u = blockUsed

theorem Grows.inUse (hg : Grows h h' l n) (ht : Tiled h l) :
    InUse h' (l ++ [h.lastBlock]) u ↔ InUse h l u := by
  constructor
  · rintro ⟨hu, hused⟩
    rcases List.mem_append.mp hu with hu | hu
    · exact ⟨hu, (hg.old ht hu).2.2.symm.trans hused⟩
    · rw [List.mem_singleton.mp hu, hg.free] at hused
      cases hused
  · rintro ⟨hu, hused⟩
    exact ⟨List.mem_append_left _ hu, (hg.old ht hu).2.2.trans hused⟩

end Grows

end Heap

end LtMicros
