import LtMicros.HeapSbrk
import LtMicros.PagePoolLists
import LtMicros.Process
import LtMicros.VadReserve

/-!
# Running out of physical memory

What becomes of the four callers of `GetFreePage` when no bit of the bitmap is
clear: the answer `(void *)(-1)` passes their checks for the null pointer, and
the page at that address is mapped.
-/

namespace LtMicros

open Lib

/-- The table entry of the page that was not there. -/
def missingPage (flags : U32) : U32 := setPageTableEntry minusOne flags

/-- The flags of the pages of a process. -/
def userFlags : U32 := pagePresent ||| pageWriteable ||| pageNonPrivilegedAccess

/-! ## `Sbrk` -/

namespace Heap

variable {h : Heap} {addr n : ℕ}

/-- Every page that `Sbrk` maps has the entry of the missing page. -/
theorem sbrkPages_exhausted (hmmu : h.mmu.KernelTables) (hp : h.gPmm.Exhausted)
    (hn : addr + n * pageSize ≤ 2 ^ 30) :
    ∃ h', h.sbrkPages addr n = .ret (h', addr + n * pageSize) ∧
      MapsOnly h.mmu h'.mmu addr n ∧
      ∀ i < n, h'.mmu.phys (kernelPte (BitVec.ofNat 32 (addr + i * pageSize))) =
        missingPage (pagePresent ||| pageWriteable) := by
  induction n generalizing h addr with
  | zero => exact ⟨h, by simp [sbrkPages], fun _ _ => rfl, fun i hi => absurd hi (Nat.not_lt_zero i)⟩
  | succ n ih =>
    have hn' : addr + pageSize + n * pageSize ≤ 2 ^ 30 := by rwa [add_pages_succ]
    have hlt : addr < 2 ^ 30 := by
      unfold pageSize at hn
      omega
    obtain ⟨mmu, hadd, hmmu', hphys⟩ := hmmu.addPage (ofNat_lt_vUserBaseAddr hlt) minusOne
      (pagePresent ||| pageWriteable)
    obtain ⟨h', hret, honly, hall⟩ := ih (h := { h with mmu }) hmmu' hp hn'
    have hnext : add32 addr pageSize = addr + pageSize :=
      add32_of_lt (by unfold pageSize at hn ⊢; omega)
    refine ⟨h', ?_, honly.cons hphys, fun i hi => ?_⟩
    · have hne : ¬ minusOne = 0 := by decide
      simp only [sbrkPages, PmmBitmap.getFreePage_exhausted hp, if_neg hne, hadd, Outcome.ret_bind,
        hnext]
      rw [hret, add_pages_succ]
    · cases i with
      | zero =>
        rw [Nat.zero_mul, Nat.add_zero, honly _ fun i hi => ?_, hphys, Function.update_self]
        · rfl
        · rw [add_pages_succ]
          exact kernelPte_ne (page_lt hn hi)
      | succ i =>
        rw [← add_pages_succ]
        exact hall i (Nat.lt_of_succ_lt_succ hi)

/-- `Sbrk` returns a block of such pages. -/
theorem sbrk_exhausted (hmmu : h.mmu.KernelTables) (hp : h.gPmm.Exhausted) (hn : 0 < n)
    (hroom : h.lastBlock + n * pageSize ≤ 2 ^ 30) :
    ∃ h', h.sbrk n = .ret (some h.lastBlock, h') ∧
      ∀ i < n, h'.mmu.phys (kernelPte (BitVec.ofNat 32 (h.lastBlock + i * pageSize))) =
        missingPage (pagePresent ||| pageWriteable) := by
  obtain ⟨h₁, hret, -, hall⟩ := sbrkPages_exhausted hmmu hp hroom
  have hbytes : n * pageSize % 2 ^ 32 = n * pageSize := Nat.mod_eq_of_lt (by omega)
  have hpos : ¬ (n : ℤ) ≤ 0 := by omega
  have hwrap : add32 h.lastBlock (n * pageSize) = h.lastBlock + n * pageSize :=
    add32_of_lt (by omega)
  have hlimit : ¬ kernelInfo.vHeapLimit.toNat < h.lastBlock + n * pageSize := by
    rw [vHeapLimit_eq]
    omega
  rw [sbrk, if_neg hpos]
  simp only [Int.toNat_natCast, hbytes, hwrap, if_neg hlimit, hret, Outcome.ret_bind]
  exact ⟨_, rfl, hall⟩

end Heap

/-! ## `PagePool::Allocate` -/

/-- A page of the pool is mapped to the missing page. -/
theorem KernelMem.pageAlloc_exhausted {k : KernelMem} {block : ℕ} (hmmu : k.mmu.KernelTables)
    (hp : k.gPmm.Exhausted) (havail : k.gPagePool.availPageList = some block)
    (haddr : (k.gPagePool.blocks block).addr < vUserBaseAddr) :
    ∃ k', k.pageAlloc = .ret (⟨minusOne, (k.gPagePool.blocks block).addr⟩, k') ∧
      k'.mmu.phys (kernelPte (k.gPagePool.blocks block).addr) =
        missingPage (pagePresent ||| pageWriteable) := by
  have hblock : ((k.gPagePool.takeBlock block).blocks block).addr =
      (k.gPagePool.blocks block).addr := (PagePool.takeBlock_spec k.gPagePool block).1.addr block
  obtain ⟨mmu, hadd, -, hphys⟩ := hmmu.addPage haddr minusOne (pagePresent ||| pageWriteable)
  refine ⟨⟨mmu, k.gPmm, k.gPagePool.takeBlock block⟩, ?_, ?_⟩
  · simp only [KernelMem.pageAlloc, havail, PmmBitmap.getFreePage_exhausted hp, hblock, hadd,
      Outcome.ret_bind]
    rfl
  · simp only [hphys, Function.update_self]
    rfl

/-! ## `ReservePages` -/

namespace VadMem

variable {s : VadMem} {v fuel : ℕ} {k : KernelMem} {limit vAddr : U32}

/-- One turn of the loop maps the missing page and goes on. -/
theorem reservePagesTurn_exhausted (hall : k.mmu.AllPresent) (hp : k.gPmm.Exhausted)
    (hlt : vAddr < limit) :
    ∃ mmu a, reservePagesTurn limit true (vAddr, k) = .ret (.inl (vAddr + 4096, { k with mmu })) ∧
      mmu.AllPresent ∧ mmu.phys a = missingPage userFlags := by
  obtain ⟨mmu, hmmu, hwrite, hall'⟩ := KernelMem.addPageToPageDirectory_allPresent hall vAddr
    minusOne userFlags (by decide)
  obtain ⟨a, ha⟩ := hall.translate (pteOf vAddr)
  refine ⟨mmu, a, ?_, hall', ?_⟩
  · have hne : ¬ minusOne = 0 := by decide
    simp only [reservePagesTurn, if_pos hlt, if_true, PmmBitmap.getFreePage_exhausted hp,
      if_neg hne]
    rw [show (pagePresent ||| pageWriteable ||| pageNonPrivilegedAccess) = userFlags from rfl]
    simp only [hmmu, Outcome.ret_bind]
    rfl
  · simp only [Mmu.write, ha, Outcome.ofOption_some, Outcome.ret_bind, Outcome.pure_eq,
      Outcome.ret.injEq] at hwrite
    rw [← hwrite]
    exact Function.update_self _ _ _

/-- A vad that ends at least a page below the top of memory is reserved, with
the missing page. -/
theorem reservePages_exhausted (hall : s.mem.mmu.AllPresent) (hp : s.mem.gPmm.Exhausted)
    (hpages : (s.vads v).baseAddress < (s.vads v).limitAddress)
    (hlimit : (s.vads v).limitAddress.toNat + 4096 ≤ 2 ^ 32) (pageDirectory : U32)
    (hfuel : 2 ^ 32 ≤ fuel) :
    ∃ s' a, s.reservePages fuel v pageDirectory true = .ret (.statusSuccess, s') ∧
      s'.mem.mmu.phys a = missingPage userFlags := by
  have hloop : ∃ r, Outcome.loop (reservePagesTurn (s.vads v).limitAddress true) fuel
      ((s.vads v).baseAddress,
        { s.mem with mmu := s.mem.mmu.setCurrentPageDirectory pageDirectory }) = .ret r ∧
      r.1 = .statusSuccess ∧ ∃ a, r.2.mmu.phys a = missingPage userFlags := by
    apply Outcome.loop_terminates
      (I := fun st : U32 × KernelMem => st.2.mmu.AllPresent ∧ st.2.gPmm.Exhausted ∧
        (st.1 < (s.vads v).limitAddress ∨ ∃ a, st.2.mmu.phys a = missingPage userFlags))
      fun st => (s.vads v).limitAddress.toNat - st.1.toNat
    · rintro ⟨vAddr, k⟩ ⟨hall, hp, hor⟩
      by_cases hlt : vAddr < (s.vads v).limitAddress
      · obtain ⟨mmu, a, hturn, hall', ha⟩ := reservePagesTurn_exhausted hall hp hlt
        refine .inr ⟨_, hturn, ⟨hall', hp, .inr ⟨a, ha⟩⟩, ?_⟩
        rw [BitVec.lt_def] at hlt
        have hadd : (vAddr + 4096).toNat = vAddr.toNat + 4096 := by
          rw [BitVec.toNat_add]
          exact Nat.mod_eq_of_lt (by simp; omega)
        show _ - (vAddr + 4096).toNat < _ - vAddr.toNat
        omega
      · exact .inl ⟨(.statusSuccess, k), by simp [reservePagesTurn, hlt], rfl,
          hor.resolve_left hlt⟩
    · exact ⟨hall, hp, .inl hpages⟩
    · have := (s.vads v).limitAddress.isLt
      show (s.vads v).limitAddress.toNat - (s.vads v).baseAddress.toNat < fuel
      omega
  obtain ⟨⟨st, k⟩, hk, rfl, a, ha⟩ := hloop
  exact ⟨_, a, by rw [reservePages, hk]; rfl, ha⟩

end VadMem

/-! ## `ResolvePageFault` -/

/-- The fault of an address in a used vad, with the page table there, is resolved
with the missing page. -/
theorem Process.resolvePageFault_exhausted {this : Process} {s : VadMem} {address : U32}
    {vad fuel : ℕ} (haddr : address ≠ 0)
    (hlook : s.lookForVadFromAddress fuel this.baseVad address = .ret (.statusSuccess, some vad))
    (hused : (s.vads vad).free = false) (hp : s.mem.gPmm.Exhausted)
    (hall : s.mem.mmu.AllPresent) :
    ∃ s' a, this.resolvePageFault fuel s address = .ret (.statusSuccess, s') ∧
      s'.mem.mmu.phys a = missingPage userFlags := by
  obtain ⟨mmu, hmmu, hwrite, -⟩ := KernelMem.addPageToPageDirectory_allPresent
    (k := { s.mem with mmu := s.mem.mmu.setCurrentPageDirectory this.pdEntry }) hall address
    minusOne userFlags (by decide)
  obtain ⟨a, ha⟩ := Mmu.AllPresent.translate (m := s.mem.mmu.setCurrentPageDirectory this.pdEntry)
    hall (pteOf address)
  have hne : ¬ minusOne = 0 := by decide
  simp only [Mmu.write, ha, Outcome.ofOption_some, Outcome.ret_bind, Outcome.pure_eq,
    Outcome.ret.injEq] at hwrite
  rw [Process.resolvePageFault_used haddr hlook hused]
  simp only [PmmBitmap.getFreePage_exhausted hp, if_neg hne]
  rw [show (pagePresent ||| pageWriteable ||| pageNonPrivilegedAccess) = userFlags from rfl]
  simp only [hmmu, Outcome.ret_bind]
  refine ⟨_, a, rfl, ?_⟩
  rw [← hwrite]
  exact Function.update_self _ _ _

/-! ## What the documentation of `GetFreePage` promises

With the bitmap `p`, `GetFreePage` answers the null pointer, its callers map
nothing, and the two that have a status to return do not succeed. -/

section Promise

variable (p : PmmBitmap)

def NullReported : Prop := p.getFreePage.1 = 0

def SbrkMapsNothing : Prop :=
  ∀ (h : Heap) (n : ℤ) r h', h.gPmm = p → h.sbrk n = .ret (r, h') → h'.mmu.phys = h.mmu.phys

def PageAllocMapsNothing : Prop :=
  ∀ (k : KernelMem) r k', k.gPmm = p → k.pageAlloc = .ret (r, k') → k'.mmu.phys = k.mmu.phys

def ReservePagesFails : Prop :=
  ∀ (s : VadMem) fuel v pageDirectory status s', s.mem.gPmm = p →
    (s.vads v).baseAddress < (s.vads v).limitAddress →
    s.reservePages fuel v pageDirectory true = .ret (status, s') →
    failed status = true ∧ s'.mem.mmu.phys = s.mem.mmu.phys

def ResolvePageFaultFails : Prop :=
  ∀ (this : Process) (s : VadMem) fuel address status s', s.mem.gPmm = p →
    this.resolvePageFault fuel s address = .ret (status, s') →
    failed status = true ∧ s'.mem.mmu.phys = s.mem.mmu.phys

end Promise

section Exhausted

variable {p : PmmBitmap}

theorem not_nullReported (hp : p.Exhausted) : ¬ NullReported p := by
  rw [NullReported, PmmBitmap.getFreePage_exhausted hp]
  show ¬ minusOne = 0
  decide

theorem boot_ne_missingPage : Mmu.boot.phys (kernelPte 0x800000) ≠
      missingPage (pagePresent ||| pageWriteable) ∧
    Mmu.boot.phys (kernelPte 0x1000000) ≠ missingPage (pagePresent ||| pageWriteable) := by
  decide

/-- An empty heap grows by a missing page. -/
theorem not_sbrkMapsNothing (hp : p.Exhausted) : ¬ SbrkMapsNothing p := by
  intro hmaps
  obtain ⟨h', hret, hall⟩ := Heap.sbrk_exhausted (n := 1)
    (h := ⟨fun _ => 0, 0x1000000, 0x1000000, .boot, p⟩) Mmu.boot_kernelTables hp (by decide)
    (by show 0x1000000 + 1 * 4096 ≤ 2 ^ 30; decide)
  have hentry := hall 0 (by decide)
  rw [hmaps _ _ _ _ rfl hret] at hentry
  exact boot_ne_missingPage.2 hentry

/-- A pool with one available block. -/
def onePagePool : PagePool :=
  { PagePool.bss with
    blocks := fun _ => ⟨true, 0x800000, none, none⟩
    availPageList := some 0 }

theorem not_pageAllocMapsNothing (hp : p.Exhausted) : ¬ PageAllocMapsNothing p := by
  intro hmaps
  obtain ⟨k', hret, hentry⟩ := KernelMem.pageAlloc_exhausted (k := ⟨.boot, p, onePagePool⟩)
    Mmu.boot_kernelTables hp (show onePagePool.availPageList = some 0 from rfl)
    (by show (0x800000 : U32) < vUserBaseAddr; decide)
  rw [hmaps _ _ _ rfl hret] at hentry
  exact boot_ne_missingPage.1 hentry

/-- One used vad of one page, on tables that are all there. -/
def onePageVad (p : PmmBitmap) : VadMem where
  vads := fun _ => ⟨0x40000000, 0x40001000, 0x1000, false, none, none⟩
  heapTop := 1
  mem := ⟨.uniform, p, .bss⟩

theorem onePageVad_nonempty (p : PmmBitmap) :
    ((onePageVad p).vads 0).baseAddress < ((onePageVad p).vads 0).limitAddress := by
  show (0x40000000 : U32) < 0x40001000
  decide

theorem not_reservePagesFails (hp : p.Exhausted) : ¬ ReservePagesFails p := by
  intro hfails
  obtain ⟨s', a, hret, -⟩ := VadMem.reservePages_exhausted (s := onePageVad p) (v := 0)
    Mmu.uniform_allPresent hp (onePageVad_nonempty p)
    (by show (0x40001000 : U32).toNat + 4096 ≤ 2 ^ 32; decide) 0x1000 (Nat.le_refl _)
  cases (hfails _ _ _ _ _ _ rfl (onePageVad_nonempty p) hret).1

theorem not_resolvePageFaultFails (hp : p.Exhausted) : ¬ ResolvePageFaultFails p := by
  intro hfails
  obtain ⟨s', a, hret, -⟩ : ∃ s' a, (⟨0, 0x1000⟩ : Process).resolvePageFault 1 (onePageVad p)
      0x40000000 = .ret (.statusSuccess, s') ∧ s'.mem.mmu.phys a = missingPage userFlags :=
    Process.resolvePageFault_exhausted (by decide)
      (show (onePageVad p).lookForVadFromAddress 1 0 0x40000000 = .ret (.statusSuccess, some 0)
        from rfl) rfl hp Mmu.uniform_allPresent
  cases (hfails _ _ _ _ _ _ rfl hret).1

/-- Whatever the bitmap without a clear bit, none of this holds. -/
theorem exhaustion_unreported (hp : p.Exhausted) :
    ¬ NullReported p ∧ ¬ SbrkMapsNothing p ∧ ¬ PageAllocMapsNothing p ∧ ¬ ReservePagesFails p ∧
      ¬ ResolvePageFaultFails p :=
  ⟨not_nullReported hp, not_sbrkMapsNothing hp, not_pageAllocMapsNothing hp,
    not_reservePagesFails hp, not_resolvePageFaultFails hp⟩

/-- Every physical page is in use. -/
def allUsed : PmmBitmap := ⟨fun _ => 0xFF⟩

theorem allUsed_exhausted : allUsed.Exhausted := fun _ _ => rfl

theorem allUsed_exhaustion_unreported : ¬ NullReported allUsed ∧ ¬ SbrkMapsNothing allUsed ∧
    ¬ PageAllocMapsNothing allUsed ∧ ¬ ReservePagesFails allUsed ∧
    ¬ ResolvePageFaultFails allUsed :=
  exhaustion_unreported allUsed_exhausted

theorem allUsed_not_nullReported : allUsed.Exhausted ∧ ¬ (NullReported allUsed ∧
    SbrkMapsNothing allUsed ∧ PageAllocMapsNothing allUsed ∧ ReservePagesFails allUsed ∧
    ResolvePageFaultFails allUsed) :=
  ⟨allUsed_exhausted, fun h => not_nullReported allUsed_exhausted h.1⟩

end Exhausted

end LtMicros
