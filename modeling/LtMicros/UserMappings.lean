import LtMicros.KernelHalf

/-!
# Which mappings stay out of the kernel half

`ReservePages` takes the addresses of a vad as they are. The kernel half is kept
exactly when none of them is a kernel address, or one in the part of the window
behind which the shared directory entries lie.
-/

namespace LtMicros

open Lib Lib.Frames

/-- The loop of `ReservePages` over a vad passes the address `v`. -/
def Passes (base limit v : U32) : Prop :=
  base.toNat ≤ v.toNat ∧ v.toNat < limit.toNat ∧ v.toNat % 4096 = base.toNat % 4096

/-- The table entry of `v` is one of the kernel's, or a shared directory entry. -/
def HitsKernel (v : U32) : Prop :=
  v < vUserBaseAddr ∨ 0xFFC00000 ≤ v.toNat ∧ v.toNat < 0xFFD00000

/-- The kernel's tables as the kernel fills them. -/
def KernelMapped (phys : U32 → U32) : Prop :=
  ∀ v, v < vUserBaseAddr → ∃ f, phys (kernelPte v) = kernelEntry f

section Turn

variable {k k' k₁ : KernelMem} {d u v v' limit base p flags : U32} {reserve : Bool} {fuel : ℕ}
  {status : KeStatus}

/-- What a turn has mapped: a page from the bitmap, or none. -/
structure TurnMaps (k k₁ : KernelMem) (p flags : U32) : Prop where
  mmu : k₁.mmu = k.mmu
  pool : k₁.gPagePool = k.gPagePool
  either : flags = presentFlags ∨ flags = absentFlags
  sane : ∀ d, Sane k d → Sane k₁ d
  frame : ∀ d, Sane k d → ∀ g, PointsTo (setPageTableEntry p flags) g → OffKernel g ∧ g ≠ d

theorem reservePagesTurn_maps
    (h : VadMem.reservePagesTurn limit reserve (v, k) = .ret (.inl (v', k'))) :
    v < limit ∧ v' = v + 4096 ∧
      ∃ k₁ p flags, TurnMaps k k₁ p flags ∧ k₁.addPageToPageDirectory v p flags = .ret k' := by
  obtain ⟨hlt, hv', hadd⟩ := reservePagesTurn_inl h
  refine ⟨hlt, hv', ?_⟩
  rcases hadd with ⟨-, hadd⟩ | ⟨-, hadd⟩
  · refine ⟨k.takePage, k.gPmm.getFreePage.1, presentFlags, ?_, hadd⟩
    refine ⟨rfl, rfl, .inl rfl, fun d hs => hs.takePage, ?_⟩
    intro d hs g hg
    have hgives := hs.gives
    have hframe := frameOf_setPageTableEntry k.gPmm.getFreePage.1 presentFlags
    have heq : g = frameOf k.gPmm.getFreePage.1 := hg.2.symm.trans hframe
    rwa [heq]
  · refine ⟨k, 0, absentFlags, ?_, hadd⟩
    refine ⟨rfl, rfl, .inr rfl, fun d hs => hs, ?_⟩
    intro d hs g hg
    have hpresent := hg.1
    rw [flagOn_setPageTableEntry] at hpresent
    exact absurd hpresent (by decide)

/-- Up to the page, nothing of the kernel half has changed. -/
theorem TurnMaps.kept (h : TurnMaps k k₁ p flags) (d : U32) :
    KernelHalfKept k k₁ d ∧ PoolShrinks k.gPagePool k₁.gPagePool := by
  constructor
  · constructor
    · intro i _
      rw [h.mmu]
    · intro a _ _
      rw [h.mmu]
  · rw [h.pool]
    exact .refl _

/-- A loop that ends has not wrapped around: the last page cannot be passed. -/
theorem reserveLoop_bound (h : Outcome.loop (VadMem.reservePagesTurn limit reserve) fuel (base, k) =
    .ret (.statusSuccess, k')) : limit.toNat ≤ 2 ^ 32 - 4096 + base.toNat % 4096 := by
  have hmain : ∃ v : U32, v.toNat % 4096 = base.toNat % 4096 ∧ limit.toNat ≤ v.toNat := by
    have hinv := Outcome.loop_invariant
      (I := fun st : U32 × KernelMem => st.1.toNat % 4096 = base.toNat % 4096)
      (Q := fun r : KeStatus × KernelMem => r.1 = .statusSuccess →
        ∃ v : U32, v.toNat % 4096 = base.toNat % 4096 ∧ limit.toNat ≤ v.toNat) (by
      rintro ⟨v, k₁⟩ ⟨v', k₂⟩ hv hturn
      obtain ⟨-, rfl, -⟩ := reservePagesTurn_inl hturn
      dsimp only at hv ⊢
      have hpage : (4096 : U32).toNat = 4096 := rfl
      rw [BitVec.toNat_add, hpage]
      omega) (by
      rintro ⟨v, k₁⟩ ⟨status, k₂⟩ hv hturn hsuccess
      rcases reservePagesTurn_inr hturn with ⟨hlt, -, -⟩ | ⟨-, hfull, -⟩
      · exact ⟨v, hv, Nat.le_of_not_lt hlt⟩
      · cases hsuccess.symm.trans hfull) rfl h
    exact hinv rfl
  obtain ⟨v, hv, hle⟩ := hmain
  have hlt := v.isLt
  omega

/-- The next address, where the loop has not wrapped. -/
theorem next_page (hbound : limit.toNat ≤ 2 ^ 32 - 4096 + base.toNat % 4096)
    (hv : v.toNat % 4096 = base.toNat % 4096) (hlt : v < limit) :
    (v + 4096).toNat = v.toNat + 4096 ∧ v.toNat < 0xFFFFF000 := by
  have hlt : v.toNat < limit.toNat := hlt
  have hpage : (4096 : U32).toNat = 4096 := rfl
  rw [BitVec.toNat_add, hpage]
  omega

/-- The index behind an address of the window. -/
theorem window_index (hv : 0xFFC00000 ≤ v.toNat) :
    dirIndex v = 1023 ∧ (tableIndex v).toNat = (v.toNat - 0xFFC00000) / 4096 := by
  have hlt := v.isLt
  constructor
  · apply BitVec.eq_of_toNat_eq
    rw [toNat_dirIndex]
    have hlast : (1023 : U32).toNat = 1023 := rfl
    omega
  · rw [toNat_tableIndex]
    omega

/-- Without such an address the kernel half is kept. -/
theorem reserveLoop_keeps (hs : Sane k d)
    (h : Outcome.loop (VadMem.reservePagesTurn limit reserve) fuel (base, k) =
      .ret (.statusSuccess, k'))
    (hno : ∀ v, Passes base limit v → ¬ HitsKernel v) : KernelHalfKept k k' d := by
  have hbound := reserveLoop_bound h
  apply Outcome.loop_invariant (Q := fun r : KeStatus × KernelMem => KernelHalfKept k r.2 d)
    (I := fun st : U32 × KernelMem => base.toNat ≤ st.1.toNat ∧
      st.1.toNat % 4096 = base.toNat % 4096 ∧ Sane st.2 d ∧ KernelHalfKept k st.2 d ∧
      PoolShrinks k.gPagePool st.2.gPagePool) _ _ _ h
  · rintro ⟨v, k₁⟩ ⟨v', k₂⟩ ⟨hle, hclass, hsane, hkept, hshrinks⟩ hturn
    obtain ⟨hlt, rfl, k₃, p, flags, hmaps, hadd⟩ := reservePagesTurn_maps hturn
    dsimp only at hle hclass hsane hkept hshrinks ⊢
    obtain ⟨hnext, -⟩ := next_page hbound hclass hlt
    have hfree := hno v ⟨hle, hlt, hclass⟩
    have hs₃ := hmaps.sane d hsane
    obtain ⟨hkept₃, hshrinks₃⟩ := hmaps.kept d
    have hstep : Sane k₂ d ∧ KernelHalfKept k₃ k₂ d ∧ PoolShrinks k₃.gPagePool k₂.gPagePool := by
      by_cases hwindow : 0xFFC00000 ≤ v.toNat
      · obtain ⟨hdir, hindex⟩ := window_index hwindow
        rw [addWindowPage hs₃.selfMapped hdir, hs₃.directory_eq] at hadd
        cases hadd
        have huser : UserIndex (tableIndex v) := by
          have hhigh : ¬ v.toNat < 0xFFD00000 := fun h => hfree (.inr ⟨hwindow, h⟩)
          rw [UserIndex, hindex]
          omega
        obtain ⟨hs₂, hkept₂⟩ := hs₃.setEntry huser (hmaps.frame d hsane)
        exact ⟨hs₂, hkept₂, .refl _⟩
      · have huser : InUser v := by
          constructor
          · exact BitVec.not_lt.mp fun h => hfree (.inl h)
          · exact Nat.lt_of_not_le hwindow
        exact hs₃.userPage huser hadd
    obtain ⟨hs₂, hkept₂, hshrinks₂⟩ := hstep
    have hkept' := hkept₃.trans hkept₂ hshrinks₃ hshrinks₂
    have hshrinks' := hshrinks₃.trans hshrinks₂
    refine ⟨?_, ?_, hs₂, hkept.trans hkept' hshrinks hshrinks', hshrinks.trans hshrinks'⟩
    · rw [hnext]
      omega
    · rw [hnext]
      omega
  · rintro ⟨v, k₁⟩ ⟨status', k₂⟩ ⟨-, -, -, hkept, -⟩ hturn
    rcases reservePagesTurn_inr hturn with ⟨-, -, rfl⟩ | ⟨-, -, rfl⟩
    · exact hkept
    · exact ⟨hkept.entries, hkept.tables⟩
  · exact ⟨Nat.le_refl _, rfl, hs, .refl _ _, .refl _⟩

/-! ## What a loop leaves behind -/

/-- The loop has come to the address `v`: the address space is in order up to the
window, and in the window its directory still maps itself. -/
structure Underway (k : KernelMem) (d v : U32) : Prop where
  current : k.mmu.cr3 = d
  frame : IsFrame d
  off : OffKernel d
  self : PointsTo (k.mmu.phys (slot d 1023)) d
  sane : v.toNat < 0xFFC00000 → Sane k d

/-- What a turn at the address `v` writes, in each part of the address space. -/
inductive TurnWrites (k k₂ : KernelMem) (d v : U32) : Prop
  | kernel {w : U32} : v < vUserBaseAddr → k₂.gPagePool = k.gPagePool → UserBit w →
      k₂.mmu.phys = set k.mmu.phys (kernelTable (dirIndex v)) (tableIndex v) w →
      TurnWrites k k₂ d v
  | user : InUser v → k.gPagePool.AvailInPool → KernelHalfKept k k₂ d → TurnWrites k k₂ d v
  | window {w : U32} : 0xFFC00000 ≤ v.toNat → UserBit w →
      k₂.mmu.phys = set k.mmu.phys d (tableIndex v) w → TurnWrites k k₂ d v

theorem Sane.underway (h : Sane k d) (v : U32) : Underway k d v :=
  ⟨h.current, h.directory.frame, h.directory.off, h.directory.self, fun _ => h⟩

theorem Underway.turn (h : Underway k d v) (hbound : v.toNat < 0xFFFFF000)
    (hturn : VadMem.reservePagesTurn limit reserve (v, k) = .ret (.inl (v', k'))) :
    TurnWrites k k' d v ∧ Underway k' d v' := by
  obtain ⟨-, rfl, k₁, p, flags, hmaps, hadd⟩ := reservePagesTurn_maps hturn
  have huser := userBit_setPageTableEntry (p := p) hmaps.either
  by_cases hwindow : 0xFFC00000 ≤ v.toNat
  · obtain ⟨hdir, hindex⟩ := window_index hwindow
    have hd : k₁.mmu.directory = d := by
      rw [hmaps.mmu, Mmu.directory, h.current]
      exact h.frame.frameOf_eq
    have hself : k₁.mmu.SelfMapped := by
      rw [Mmu.SelfMapped, hd, hmaps.mmu]
      exact h.self
    rw [addWindowPage hself hdir, hd, hmaps.mmu] at hadd
    cases hadd
    refine ⟨.window hwindow huser rfl, ?_⟩
    have hne : (1023 : U32) ≠ tableIndex v := by
      intro heq
      have hlast : (tableIndex v).toNat = 1023 := congrArg BitVec.toNat heq.symm
      omega
    constructor
    · exact (congrArg Mmu.cr3 hmaps.mmu).trans h.current
    · exact h.frame
    · exact h.off
    · show PointsTo (set _ _ _ _ _) _
      rw [set_of_index_ne h.frame h.frame (tableIndex_lt v) (by decide) hne]
      exact h.self
    · intro hlt
      have hpage : (4096 : U32).toNat = 4096 := rfl
      rw [BitVec.toNat_add, hpage] at hlt
      omega
  · have hsane := h.sane (Nat.lt_of_not_le hwindow)
    have hs₁ := hmaps.sane d hsane
    by_cases hkernel : v < vUserBaseAddr
    · rw [hs₁.addKernelPage hkernel] at hadd
      cases hadd
      have hs' := hs₁.setKernel hkernel (hmaps.frame d hsane)
      refine ⟨.kernel hkernel hmaps.pool huser ?_, hs'.underway _⟩
      rw [KernelMem.withPhys_phys, hmaps.mmu]
    · have hv : InUser v := ⟨BitVec.not_lt.mp hkernel, Nat.lt_of_not_le hwindow⟩
      obtain ⟨hs', hkept', hshrinks'⟩ := hs₁.userPage hv hadd
      obtain ⟨hkept, hshrinks⟩ := hmaps.kept d
      exact ⟨.user hv hsane.pool (hkept.trans hkept' hshrinks hshrinks'), hs'.underway _⟩

/-- A shared entry behind the window is overwritten, and stays so. -/
theorem reserveLoop_window (hs : Sane k d)
    (h : Outcome.loop (VadMem.reservePagesTurn limit reserve) fuel (base, k) =
      .ret (.statusSuccess, k'))
    (hu : Passes base limit u) (hwindow : 0xFFC00000 ≤ u.toNat) :
    UserBit (k'.mmu.phys (slot d (tableIndex u))) := by
  have hbound := reserveLoop_bound h
  obtain ⟨hlo, hhi, hmod⟩ := hu
  have hresult := Outcome.loop_invariant
    (I := fun st : U32 × KernelMem => st.1.toNat % 4096 = base.toNat % 4096 ∧
      Underway st.2 d st.1 ∧
      (u.toNat < st.1.toNat → UserBit (st.2.mmu.phys (slot d (tableIndex u)))))
    (Q := fun r : KeStatus × KernelMem => r.1 = .statusSuccess →
      UserBit (r.2.mmu.phys (slot d (tableIndex u)))) ?_ ?_ ?_ h
  · exact hresult rfl
  · rintro ⟨v, k₁⟩ ⟨v', k₂⟩ ⟨hclass, hunder, hmark⟩ hturn
    dsimp only at hclass hunder hmark ⊢
    obtain ⟨hlt, rfl, -⟩ := reservePagesTurn_maps hturn
    obtain ⟨hnext, htop⟩ := next_page hbound hclass hlt
    obtain ⟨hwrites, hunder'⟩ := hunder.turn htop hturn
    refine ⟨by omega, hunder', ?_⟩
    intro hpassed
    have hle : 0xFFC00000 ≤ v.toNat := by omega
    cases hwrites with
    | kernel hkernel =>
      have hkernel : v.toNat < 0x40000000 := hkernel
      omega
    | user hv =>
      have hv : v.toNat < 0xFFC00000 := hv.2
      omega
    | window _ hbit hphys =>
      rw [hphys, set_slot hunder.frame hunder.frame (tableIndex_lt v) (tableIndex_lt u)]
      split
      · exact hbit
      · rename_i hne
        apply hmark
        by_contra hlast
        have heq : u = v := by
          apply BitVec.eq_of_toNat_eq
          omega
        exact hne ⟨rfl, by rw [heq]⟩
  · rintro ⟨v, k₁⟩ ⟨status', k₂⟩ ⟨-, -, hmark⟩ hturn hsuccess
    rcases reservePagesTurn_inr hturn with ⟨hend, -, rfl⟩ | ⟨-, hfull, -⟩
    · have hend : ¬ v.toNat < limit.toNat := hend
      dsimp only at hmark ⊢
      exact hmark (by omega)
    · cases hsuccess.symm.trans hfull
  · refine ⟨rfl, hs.underway base, ?_⟩
    intro hlt
    dsimp only at hlt
    omega

/-- So is the entry of a kernel page, unless the page is one that the pool may
give out before the loop ends. -/
theorem reserveLoop_kernel (hs : Sane k d)
    (h : Outcome.loop (VadMem.reservePagesTurn limit reserve) fuel (base, k) =
      .ret (.statusSuccess, k'))
    (hu : Passes base limit u) (hkernel : u < vUserBaseAddr)
    (hplace : ¬ InPool (frameOf u) ∨ limit.toNat ≤ 0x40000000) :
    UserBit (k'.mmu.phys (kernelPte u)) ∧ ¬ NewPoolPage k k' u := by
  have hbound := reserveLoop_bound h
  obtain ⟨hlo, hhi, hmod⟩ := hu
  have hresult := Outcome.loop_invariant
    (I := fun st : U32 × KernelMem => base.toNat ≤ st.1.toNat ∧
      st.1.toNat % 4096 = base.toNat % 4096 ∧ Underway st.2 d st.1 ∧
      (limit.toNat ≤ 0x40000000 → st.2.gPagePool = k.gPagePool) ∧
      (u.toNat < st.1.toNat → UserBit (st.2.mmu.phys (kernelPte u))))
    (Q := fun r : KeStatus × KernelMem => r.1 = .statusSuccess →
      UserBit (r.2.mmu.phys (kernelPte u)) ∧
      (limit.toNat ≤ 0x40000000 → r.2.gPagePool = k.gPagePool)) ?_ ?_ ?_ h
  · obtain ⟨hbit, hpool⟩ := hresult rfl
    refine ⟨hbit, ?_⟩
    intro hnew
    rcases hplace with hplace | hplace
    · exact hplace (hnew.inPool hs.pool)
    · obtain ⟨b, hb, hnot, -⟩ := hnew
      dsimp only at hpool hnot
      rw [hpool hplace] at hnot
      exact hnot hb
  · rintro ⟨v, k₁⟩ ⟨v', k₂⟩ ⟨hle, hclass, hunder, hpool, hmark⟩ hturn
    dsimp only at hle hclass hunder hpool hmark ⊢
    obtain ⟨hlt, rfl, -⟩ := reservePagesTurn_maps hturn
    obtain ⟨hnext, htop⟩ := next_page hbound hclass hlt
    have hlt : v.toNat < limit.toNat := hlt
    obtain ⟨hwrites, hunder'⟩ := hunder.turn htop hturn
    refine ⟨by omega, by omega, hunder', ?_, ?_⟩
    · intro hlimit
      cases hwrites with
      | kernel _ hsame => exact hsame.trans (hpool hlimit)
      | user hv =>
        have hv : 0x40000000 ≤ v.toNat := hv.1
        omega
      | window hv => omega
    · intro hpassed
      cases hwrites with
      | kernel hv _ hbit hphys =>
        rw [hphys]
        by_cases heq : u = v
        · rw [heq, set_kernelPte_self]
          exact hbit
        · have hpage : frameOf u ≠ frameOf v := by
            intro hframe
            apply heq
            have hnat := congrArg BitVec.toNat hframe
            rw [toNat_frameOf, toNat_frameOf] at hnat
            apply BitVec.eq_of_toNat_eq
            omega
          rw [set_kernelPte_ne hkernel hv hpage]
          apply hmark
          by_contra hlast
          apply heq
          apply BitVec.eq_of_toNat_eq
          omega
      | user hv hinPool hkept =>
        have hv : 0x40000000 ≤ v.toNat := hv.1
        have hkernel' : u.toNat < 0x40000000 := hkernel
        rw [hkept.tables u hkernel]
        · exact hmark (by omega)
        · intro hnew
          rcases hplace with hplace | hplace
          · exact hplace (hnew.inPool hinPool)
          · omega
      | window hv _ hphys =>
        have hkernel' : u.toNat < 0x40000000 := hkernel
        rw [hphys, set_kernelPte hkernel hunder.frame hunder.off (tableIndex_lt v)]
        exact hmark (by omega)
  · rintro ⟨v, k₁⟩ ⟨status', k₂⟩ ⟨-, -, -, hpool, hmark⟩ hturn hsuccess
    rcases reservePagesTurn_inr hturn with ⟨hend, -, rfl⟩ | ⟨-, hfull, -⟩
    · have hend : ¬ v.toNat < limit.toNat := hend
      dsimp only at hmark hpool ⊢
      exact ⟨hmark (by omega), hpool⟩
    · cases hsuccess.symm.trans hfull
  · refine ⟨Nat.le_refl _, rfl, hs.underway base, fun _ => rfl, ?_⟩
    intro hlt
    dsimp only at hlt
    omega

/-- With such an address it is not kept. -/
theorem reserveLoop_breaks (hs : Sane k d) (hmapped : KernelMapped k.mmu.phys)
    (h : Outcome.loop (VadMem.reservePagesTurn limit reserve) fuel (base, k) =
      .ret (.statusSuccess, k'))
    (hu : Passes base limit u) (hhits : HitsKernel u) : ¬ KernelHalfKept k k' d := by
  intro hkept
  have hbreaks (a : U32) (ha : a < vUserBaseAddr) (hpasses : Passes base limit a)
      (hplace : ¬ InPool (frameOf a) ∨ limit.toNat ≤ 0x40000000) : False := by
    obtain ⟨hbit, hnew⟩ := reserveLoop_kernel hs h hpasses ha hplace
    obtain ⟨f, hf⟩ := hmapped a ha
    rw [hkept.tables a ha hnew, hf] at hbit
    exact not_userBit_kernelEntry f hbit
  rcases hhits with hkernel | ⟨hlo, hhi⟩
  · by_cases hlimit : limit.toNat ≤ 0x40000000
    · exact hbreaks u hkernel hu (.inr hlimit)
    · -- the loop goes on behind the kernel half, past its last page
      have hkernel : u.toNat < 0x40000000 := hkernel
      obtain ⟨hbase, -, hclass⟩ := hu
      obtain ⟨a, ha⟩ : ∃ a : U32, a.toNat = 0x3FFFF000 + u.toNat % 4096 := by
        refine ⟨BitVec.ofNat 32 (0x3FFFF000 + u.toNat % 4096), ?_⟩
        rw [BitVec.toNat_ofNat]
        omega
      refine hbreaks a ?_ ⟨?_, ?_, ?_⟩ (.inl ?_)
      · show a.toNat < 0x40000000
        omega
      · omega
      · omega
      · omega
      · rintro ⟨-, -, hpool⟩
        rw [toNat_frameOf] at hpool
        omega
  · have hbit := reserveLoop_window hs h hu hlo
    obtain ⟨-, hindex⟩ := window_index hlo
    have hshared : (tableIndex u).toNat < 256 := by omega
    rw [hkept.entries _ (.inl hshared), hs.directory.tables _ hshared] at hbit
    exact not_userBit_kernelPde _ hbit

/-- A loop that ends keeps the kernel half exactly when no such address is
passed. -/
theorem reserveLoop_kept_iff (hs : Sane k d) (hmapped : KernelMapped k.mmu.phys)
    (h : Outcome.loop (VadMem.reservePagesTurn limit reserve) fuel (base, k) =
      .ret (.statusSuccess, k')) :
    KernelHalfKept k k' d ↔ ∀ v, Passes base limit v → ¬ HitsKernel v := by
  constructor
  · intro hkept v hv hhits
    exact reserveLoop_breaks hs hmapped h hv hhits hkept
  · exact reserveLoop_keeps hs h

end Turn

end LtMicros
