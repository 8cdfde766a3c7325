import LtMicros.ReservedBytes

/-!
# What reserving memory costs

Every page that is reserved costs at most two physical pages and a block of the pool: one for
the page, and one for its table.
-/

namespace LtMicros

open Lib Lib.Frames

/-- At most this many physical pages and blocks of the pool are taken. -/
def KernelMem.Spends (k k' : KernelMem) (pages blocks : ℕ) : Prop :=
  ∀ n m, k.Supply (n + pages) (m + blocks) → k'.Supply n m

section Spends

variable {k k' k'' : KernelMem} {page : Page} {a a' b b' t fuel : ℕ} {base limit v v' p flags : U32}

theorem KernelMem.Spends.refl (k : KernelMem) : k.Spends k 0 0 := fun _ _ h => h

theorem KernelMem.Spends.trans (h : k.Spends k' a b) (h' : k'.Spends k'' a' b') :
    k.Spends k'' (a + a') (b + b') := by
  intro n m hsup
  apply h' n m
  apply h
  exact hsup.mono (by omega) (by omega)

theorem KernelMem.Spends.mono (h : k.Spends k' a b) (ha : a ≤ a') (hb : b ≤ b') :
    k.Spends k' a' b' :=
  fun n m hsup => h n m (hsup.mono (by omega) (by omega))

/-- Only the tables are written. -/
theorem KernelMem.Spends.of_mmu (k : KernelMem) (mmu : Mmu) : k.Spends { k with mmu } 0 0 :=
  fun _ _ hsup => ⟨hsup.pages, hsup.blocks⟩

theorem KernelMem.spends_takePage (k : KernelMem) : k.Spends k.takePage 1 0 :=
  fun _ _ hsup => hsup.takePage

theorem spends_pageAlloc (hr : k.pageAlloc = .ret (page, k')) : k.Spends k' 1 1 := by
  intro n m hsup
  obtain ⟨i, hi⟩ := hsup.block
  simp only [KernelMem.pageAlloc, hi] at hr
  obtain ⟨mmu, -, hr⟩ := Outcome.bind_eq_ret.mp hr
  cases hr
  have hafter := hsup.afterPageAlloc hi
  exact ⟨hafter.pages, hafter.blocks⟩

theorem spends_addPage (hr : k.addPageToPageDirectory v p flags = .ret k') : k.Spends k' 1 1 := by
  obtain ⟨pde, -, hr⟩ := Outcome.bind_eq_ret.mp hr
  dsimp only at hr
  split at hr
  · obtain ⟨_, hk, hr⟩ := Outcome.bind_eq_ret.mp hr
    cases hk
    obtain ⟨mmu, -, hr⟩ := Outcome.bind_eq_ret.mp hr
    cases hr
    exact (KernelMem.Spends.of_mmu k mmu).mono (Nat.zero_le 1) (Nat.zero_le 1)
  · obtain ⟨k₁, htable, hr⟩ := Outcome.bind_eq_ret.mp hr
    obtain ⟨mmu, -, hr⟩ := Outcome.bind_eq_ret.mp hr
    cases hr
    obtain ⟨⟨page, k₂⟩, halloc, htable⟩ := Outcome.bind_eq_ret.mp htable
    obtain ⟨mmu₁, -, htable⟩ := Outcome.bind_eq_ret.mp htable
    obtain ⟨mmu₂, -, htable⟩ := Outcome.bind_eq_ret.mp htable
    cases htable
    exact (spends_pageAlloc halloc).trans (.of_mmu k₂ mmu)

theorem spends_turn {reserve : Bool}
    (hturn : VadMem.reservePagesTurn limit reserve (v, k) = .ret (.inl (v', k'))) :
    k.Spends k' 2 1 := by
  obtain ⟨-, -, ⟨-, hadd⟩ | ⟨-, hadd⟩⟩ := reservePagesTurn_inl hturn
  · exact k.spends_takePage.trans (spends_addPage hadd)
  · exact (spends_addPage hadd).mono (by decide) (Nat.le_refl 1)

/-- The loop of `ReservePages` over at most `t` pages. -/
theorem spends_reserveLoop {reserve : Bool} (hlimit : limit.toNat + 4096 ≤ 2 ^ 32)
    (ht : limit.toNat ≤ base.toNat + t * 4096)
    (hr : Outcome.loop (VadMem.reservePagesTurn limit reserve) fuel (base, k) =
      .ret (.statusSuccess, k')) : k.Spends k' (2 * t) t := by
  have hmain := Outcome.loop_invariant
    (I := fun st : U32 × KernelMem => ∃ i ≤ t, st.1.toNat = base.toNat + 4096 * i ∧
      k.Spends st.2 (2 * i) i)
    (Q := fun r : KeStatus × KernelMem => r.1 = .statusSuccess → k.Spends r.2 (2 * t) t)
    ?_ ?_ ⟨0, Nat.zero_le t, rfl, .refl k⟩ hr
  · exact hmain rfl
  · rintro ⟨v, k₁⟩ ⟨v', k₂⟩ ⟨i, hi, hv, hspends⟩ hturn
    obtain ⟨hlt, rfl, -⟩ := reservePagesTurn_inl hturn
    have hlt : v.toNat < limit.toNat := hlt
    have hpage : (4096 : U32).toNat = 4096 := rfl
    dsimp only at hv hspends ⊢
    refine ⟨i + 1, by omega, ?_, hspends.trans (spends_turn hturn)⟩
    rw [BitVec.toNat_add, hpage, hv, Nat.mod_eq_of_lt (by omega), Nat.mul_succ, Nat.add_assoc]
  · rintro ⟨v, k₁⟩ ⟨status, k₂⟩ ⟨i, hi, -, hspends⟩ hturn hsuccess
    rcases reservePagesTurn_inr hturn with ⟨-, -, rfl⟩ | ⟨-, hfull, -⟩
    · exact hspends.mono (by omega) hi
    · cases hsuccess.symm.trans hfull

end Spends

section Allocate

variable {s s' : VadMem} {p : Process} {n v fuel : ℕ} {address size : U32}

/-- A successful `AllocateMemoryAtAddress` reserves two pages more than the bytes fill at most. -/
theorem spends_allocateMemoryAtAddress {reserve : Bool} (hsince : s.Since p.baseVad)
    (hroom : address.toNat + size.toNat + 8192 ≤ 2 ^ 32)
    (hr : p.allocateMemoryAtAddress fuel s address reserve size = .ret (.statusSuccess, s')) :
    s.mem.Spends s'.mem (2 * (size.toNat / 4096 + 2)) (size.toNat / 4096 + 2) := by
  obtain ⟨h0, v, s₁, hchoose, hreserve⟩ := allocateMemoryAtAddress_chooses hr
  obtain ⟨x, hx, hlt, hbase, hlimit⟩ := hsince.region hchoose
  have hle : (s.reservedLimit x address size).toNat ≤ address.toNat + size.toNat + 4096 :=
    hsince.reservedLimit_le hx hlt h0 (by omega)
  have hmem : s₁.mem = s.mem := VadMem.chooseVadAtAddress_mem hchoose
  obtain ⟨k, hloop, rfl⟩ := VadMem.reservePages_marks hreserve
  rw [hbase, hlimit, hmem] at hloop
  have hpages : (s.reservedLimit x address size).toNat ≤
      address.toNat + (size.toNat / 4096 + 2) * 4096 := by omega
  have hspends : KernelMem.Spends { s.mem with mmu := s.mem.mmu.setCurrentPageDirectory p.pdEntry }
      k (2 * (size.toNat / 4096 + 2)) (size.toNat / 4096 + 2) :=
    spends_reserveLoop (by omega) hpages hloop
  -- the supply does not depend on the current directory
  intro n m hsup
  have hafter := hspends n m ⟨hsup.pages, hsup.blocks⟩
  exact ⟨hafter.pages, hafter.blocks⟩

end Allocate

end LtMicros
