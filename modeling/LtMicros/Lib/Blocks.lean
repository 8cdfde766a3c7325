import Mathlib.Data.Nat.Basic
import Mathlib.Data.Set.BooleanAlgebra
import Mathlib.Order.Bounds.Basic
import Mathlib.Order.CompletePartialOrder
import Mathlib.Tactic.Common

/-!
# Blocks of a fixed size

The natural numbers are cut into blocks of `m`. A range of numbers is rounded up
to whole blocks, meets a run of blocks, and may be walked in steps of one block.
-/

namespace Lib

/-- The least multiple of `m` from `a` on. -/
def roundUp (m a : ℕ) : ℕ := (a + (m - 1)) / m * m

/-- The blocks that have a number of `[a, b)`. -/
def blocksOf (m a b : ℕ) : Set ℕ := {n | ∃ x, a ≤ x ∧ x < b ∧ x / m = n}

/-- The numbers below `b` of a walk from `a` in steps of `m`. -/
def Walks (m a b x : ℕ) : Prop := a ≤ x ∧ x < b ∧ x % m = a % m

variable {m a b n x y : ℕ}

/-! ## Rounding -/

theorem roundUp_of_mod_eq_zero (hm : 0 < m) (h : a % m = 0) : roundUp m a = a := by
  obtain ⟨k, rfl⟩ := Nat.dvd_of_mod_eq_zero h
  rw [roundUp, Nat.mul_add_div hm, Nat.div_eq_of_lt (Nat.sub_lt hm Nat.one_pos), Nat.add_zero,
    Nat.mul_comm]

theorem roundUp_of_mod_ne_zero (hm : 0 < m) (h : a % m ≠ 0) :
    roundUp m a = (a / m + 1) * m := by
  have hlt := Nat.mod_lt a hm
  have hsplit : a + (m - 1) = m * (a / m + 1) + (a % m - 1) := by
    have heq := Nat.div_add_mod a m
    rw [Nat.mul_add, Nat.mul_one]
    omega
  rw [roundUp, hsplit, Nat.mul_add_div hm, Nat.div_eq_of_lt (show a % m - 1 < m by omega),
    Nat.add_zero]

theorem le_roundUp (hm : 0 < m) (a : ℕ) : a ≤ roundUp m a := by
  by_cases h : a % m = 0
  · exact Nat.le_of_eq (roundUp_of_mod_eq_zero hm h).symm
  · rw [roundUp_of_mod_ne_zero hm h, Nat.mul_comm]
    exact Nat.le_of_lt (Nat.lt_mul_div_succ a hm)

theorem roundUp_lt (hm : 0 < m) (a : ℕ) : roundUp m a < a + m := by
  by_cases h : a % m = 0
  · rw [roundUp_of_mod_eq_zero hm h]
    omega
  · have heq := Nat.div_add_mod a m
    rw [roundUp_of_mod_ne_zero hm h, Nat.mul_comm, Nat.mul_add]
    omega

theorem isLeast_roundUp (hm : 0 < m) (a : ℕ) : IsLeast {n | m ∣ n ∧ a ≤ n} (roundUp m a) := by
  constructor
  · exact ⟨⟨_, Nat.mul_comm _ _⟩, le_roundUp hm a⟩
  · rintro _ ⟨⟨k, rfl⟩, hle⟩
    -- a smaller multiple would lie a whole block below
    have hlt := roundUp_lt hm a
    rw [roundUp, Nat.mul_comm] at hlt ⊢
    apply Nat.mul_le_mul_left
    by_contra hk
    have hstep := Nat.mul_le_mul_left m (Nat.not_le.mp hk)
    rw [Nat.mul_succ] at hstep
    omega

/-! ## The blocks of a range -/

theorem mem_blocksOf (hab : a < b) : n ∈ blocksOf m a b ↔ a / m ≤ n ∧ n ≤ (b - 1) / m := by
  constructor
  · rintro ⟨x, hlo, hhi, rfl⟩
    exact ⟨Nat.div_le_div_right hlo, Nat.div_le_div_right (Nat.le_sub_one_of_lt hhi)⟩
  · rintro ⟨hlo, hhi⟩
    rcases Nat.eq_zero_or_pos m with rfl | hm
    · rw [Nat.div_zero] at hhi
      exact ⟨a, Nat.le_refl a, hab, by rw [Nat.div_zero, Nat.le_zero.mp hhi]⟩
    · -- the first number of the block that is not below `a`
      have hstart : n * m ≤ b - 1 := (Nat.mul_le_mul_right m hhi).trans (Nat.div_mul_le_self _ m)
      have hend : a < (n + 1) * m := by
        rw [← Nat.div_lt_iff_lt_mul hm]
        omega
      rw [Nat.add_mul, Nat.one_mul] at hend
      refine ⟨max a (n * m), Nat.le_max_left _ _, by omega, ?_⟩
      apply Nat.div_eq_of_lt_le
      · exact Nat.le_max_right _ _
      · rw [Nat.add_mul, Nat.one_mul]
        omega

/-- Two ranges have no block in common when the second starts a block behind the first. -/
theorem blocksOf_disjoint {c d : ℕ} (h : b ≤ c) (hc : c % m = 0) :
    Disjoint (blocksOf m a b) (blocksOf m c d) := by
  rw [Set.disjoint_left]
  rintro n ⟨x, -, hx, hn⟩ ⟨y, hy, -, hn'⟩
  rcases Nat.eq_zero_or_pos m with rfl | hm
  · rw [Nat.mod_zero] at hc
    omega
  have hlt : x / m < c / m := by
    rw [Nat.div_lt_iff_lt_mul hm, Nat.div_mul_cancel (Nat.dvd_of_mod_eq_zero hc)]
    omega
  have hle : c / m ≤ y / m := Nat.div_le_div_right hy
  omega

/-! ## Walking in steps of one block -/

/-- A walk comes through a block once. -/
theorem Walks.unique (hx : Walks m a b x) (hy : Walks m a b y) (h : x / m = y / m) : x = y := by
  rw [← Nat.div_add_mod x m, ← Nat.div_add_mod y m, h, hx.2.2, hy.2.2]

theorem Walks.mem (h : Walks m a b x) : x / m ∈ blocksOf m a b := ⟨x, h.1, h.2.1, rfl⟩

/-- A walk comes through every block of the range when the offset of the start is
at most that of the end. -/
theorem Walks.exists_of_mem (hm : 0 < m) (h : a % m ≤ (b - 1) % m) (hn : n ∈ blocksOf m a b) :
    ∃ x, Walks m a b x ∧ x / m = n := by
  have hab : a < b := by
    obtain ⟨x, hlo, hhi, -⟩ := hn
    omega
  obtain ⟨hlo, hhi⟩ := (mem_blocksOf hab).mp hn
  have hlt := Nat.mod_lt a hm
  have ha := Nat.div_add_mod a m
  have hb := Nat.div_add_mod (b - 1) m
  have hlo' := Nat.mul_le_mul_left m hlo
  have hhi' := Nat.mul_le_mul_left m hhi
  refine ⟨m * n + a % m, ⟨by omega, by omega, ?_⟩, ?_⟩
  · rw [Nat.mul_add_mod, Nat.mod_mod]
  · rw [Nat.mul_add_div hm, Nat.div_eq_of_lt hlt, Nat.add_zero]

/-- Otherwise the last block is missed. -/
theorem walks_iff (hm : 0 < m) (hab : a < b) :
    (∀ n ∈ blocksOf m a b, ∃ x, Walks m a b x ∧ x / m = n) ↔ a % m ≤ (b - 1) % m := by
  constructor
  · intro h
    have hlast : (b - 1) / m ∈ blocksOf m a b := ⟨b - 1, by omega, by omega, rfl⟩
    obtain ⟨x, ⟨-, hlt, hmod⟩, hx⟩ := h _ hlast
    have hbx := Nat.div_add_mod x m
    have hb := Nat.div_add_mod (b - 1) m
    rw [hx, hmod] at hbx
    omega
  · exact fun h n hn => Walks.exists_of_mem hm h hn

end Lib
