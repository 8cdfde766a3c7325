import LtMicros.Vad

/-!
# When `ReservePages` returns
-/

namespace LtMicros

open Lib

namespace VadMem

variable {s : VadMem} {v : ℕ} {k : KernelMem} {limit vAddr pageDirectory : U32}

/-- One turn of the loop, with all tables there and page 0 in use. -/
theorem reservePagesTurn_again (hall : k.mmu.AllPresent) (h0 : k.gPmm.used 0 = true)
    (hlt : vAddr < limit) :
    ∃ mmu, reservePagesTurn limit true (vAddr, k) =
        .ret (.inl (vAddr + 4096, ⟨mmu, k.gPmm.getFreePage.2, k.gPagePool⟩)) ∧
      mmu.AllPresent := by
  obtain ⟨hne, -⟩ := PmmBitmap.getFreePage_ne_null h0
  obtain ⟨mmu, hmmu, -, hall'⟩ := KernelMem.addPageToPageDirectory_allPresent
    (k := { k with gPmm := k.gPmm.getFreePage.2 }) hall vAddr k.gPmm.getFreePage.1
    (pagePresent ||| pageWriteable ||| pageNonPrivilegedAccess) (by decide)
  refine ⟨mmu, ?_, hall'⟩
  simp only [reservePagesTurn, if_pos hlt, if_true, if_neg hne, hmmu]
  rfl

/-- A vad that ends at least a page below the top of memory is reserved. -/
theorem reservePages_returns (hall : s.mem.mmu.AllPresent) (h0 : s.mem.gPmm.used 0 = true)
    (hlimit : (s.vads v).limitAddress.toNat + 4096 ≤ 2 ^ 32) (pageDirectory : U32) {fuel : ℕ}
    (hfuel : 2 ^ 32 ≤ fuel) :
    ∃ k, s.reservePages fuel v pageDirectory true =
        .ret (.statusSuccess, { s with mem := k }.store v fun vad => { vad with free := false }) ∧
      k.mmu.AllPresent ∧ k.gPmm.used 0 = true := by
  have hloop : ∃ r, Outcome.loop (reservePagesTurn (s.vads v).limitAddress true) fuel
      ((s.vads v).baseAddress,
        { s.mem with mmu := s.mem.mmu.setCurrentPageDirectory pageDirectory }) = .ret r ∧
      r.1 = .statusSuccess ∧ r.2.mmu.AllPresent ∧ r.2.gPmm.used 0 = true := by
    apply Outcome.loop_terminates
      (I := fun st : U32 × KernelMem => st.2.mmu.AllPresent ∧ st.2.gPmm.used 0 = true)
      fun st => (s.vads v).limitAddress.toNat - st.1.toNat
    · rintro ⟨vAddr, k⟩ ⟨hall, h0⟩
      by_cases hlt : vAddr < (s.vads v).limitAddress
      · obtain ⟨mmu, hturn, hall'⟩ := reservePagesTurn_again hall h0 hlt
        refine .inr ⟨_, hturn, ⟨hall', (PmmBitmap.getFreePage_ne_null h0).2⟩, ?_⟩
        rw [BitVec.lt_def] at hlt
        have hadd : (vAddr + 4096).toNat = vAddr.toNat + 4096 := by
          rw [BitVec.toNat_add]
          exact Nat.mod_eq_of_lt (by simp; omega)
        show _ - (vAddr + 4096).toNat < _ - vAddr.toNat
        omega
      · exact .inl ⟨(.statusSuccess, k), by simp [reservePagesTurn, hlt], rfl, hall, h0⟩
    · exact ⟨hall, h0⟩
    · have := (s.vads v).limitAddress.isLt
      show (s.vads v).limitAddress.toNat - (s.vads v).baseAddress.toNat < fuel
      omega
  obtain ⟨⟨st, k⟩, hk, rfl, hall', h0'⟩ := hloop
  exact ⟨{ k with mmu := k.mmu.setCurrentPageDirectory s.mem.mmu.getCurrentPageDirectory },
    by rw [reservePages, hk]; rfl, hall', h0'⟩

theorem reserveAndReturn_returns (hall : s.mem.mmu.AllPresent) (h0 : s.mem.gPmm.used 0 = true)
    (hlimit : (s.vads v).limitAddress.toNat + 4096 ≤ 2 ^ 32) (pageDirectory : U32) {fuel : ℕ}
    (hfuel : 2 ^ 32 ≤ fuel) :
    ∃ k, s.reserveAndReturn fuel v pageDirectory true = .ret (.statusSuccess, some v,
        { s with mem := k }.store v fun vad => { vad with free := false }) ∧
      k.mmu.AllPresent ∧ k.gPmm.used 0 = true := by
  obtain ⟨k, hk, hall', h0'⟩ := reservePages_returns hall h0 hlimit pageDirectory hfuel
  exact ⟨k, by rw [reserveAndReturn, hk]; rfl, hall', h0'⟩

end VadMem

end LtMicros
