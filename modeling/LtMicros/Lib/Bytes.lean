import Mathlib.Algebra.Group.Nat.Defs
import Mathlib.Logic.Function.Basic
import Mathlib.Tactic.Common

/-!
# Byte memory

A flat memory of bytes, little-endian 32-bit words in it, and the arithmetic of
32-bit addresses on natural numbers.
-/

namespace Lib

/-- A memory: the byte at every address. -/
abbrev Bytes := ℕ → BitVec 8

/-- Addition and subtraction of 32-bit words. -/
def add32 (a b : ℕ) : ℕ := (a + b) % 2 ^ 32

def sub32 (a b : ℕ) : ℕ := (a + (2 ^ 32 - b % 2 ^ 32)) % 2 ^ 32

theorem add32_of_lt {a b : ℕ} (h : a + b < 2 ^ 32) : add32 a b = a + b := Nat.mod_eq_of_lt h

theorem sub32_of_le {a b : ℕ} (ha : a < 2 ^ 32) (h : b ≤ a) : sub32 a b = a - b := by
  unfold sub32
  omega

namespace Bytes

variable {m m' : Bytes} {a b n w x : ℕ} {v : BitVec 8}

/-- The word at an address. -/
def load32 (m : Bytes) (a : ℕ) : ℕ :=
  (m a).toNat + 2 ^ 8 * (m (a + 1)).toNat + 2 ^ 16 * (m (a + 2)).toNat +
    2 ^ 24 * (m (a + 3)).toNat

/-- A word is written at an address. -/
def store32 (m : Bytes) (a w : ℕ) : Bytes := fun x =>
  if a ≤ x ∧ x < a + 4 then BitVec.ofNat 8 (w / 2 ^ (8 * (x - a))) else m x

/-- `n` bytes from `a` on get the value `v`, one after the other. -/
def fill (m : Bytes) (a : ℕ) (v : BitVec 8) : ℕ → Bytes
  | 0 => m
  | n + 1 => fill (Function.update m a v) (a + 1) v n

/-- `n` bytes are copied from `src` to `dst`, one after the other. -/
def copy (m : Bytes) (src dst : ℕ) : ℕ → Bytes
  | 0 => m
  | n + 1 => copy (Function.update m dst (m src)) (src + 1) (dst + 1) n

/-- `n` bytes from `a` on get the values of `f`. -/
def patch (m : Bytes) (a : ℕ) (f : ℕ → BitVec 8) (n : ℕ) : Bytes := fun x =>
  if a ≤ x ∧ x < a + n then f (x - a) else m x

theorem load32_lt (m : Bytes) (a : ℕ) : load32 m a < 2 ^ 32 := by
  unfold load32
  have h (x : ℕ) : (m x).toNat < 2 ^ 8 := (m x).isLt
  have := h a
  have := h (a + 1)
  have := h (a + 2)
  have := h (a + 3)
  omega

theorem load32_congr (h : ∀ x, a ≤ x → x < a + 4 → m x = m' x) : load32 m a = load32 m' a := by
  unfold load32
  rw [h a (by omega) (by omega), h (a + 1) (by omega) (by omega), h (a + 2) (by omega) (by omega),
    h (a + 3) (by omega) (by omega)]

/-- A word lies in a copy where it lies in the original. -/
theorem load32_shift {f : Bytes} {k : ℕ} (h : ∀ i < n, m (a + i) = f i) (hk : k + 4 ≤ n) :
    load32 m (a + k) = load32 f k := by
  have h' (i : ℕ) (hi : i < 4) : m (a + k + i) = f (k + i) := by
    rw [Nat.add_assoc]
    exact h (k + i) (by omega)
  have h0 := h' 0 (by decide)
  rw [Nat.add_zero, Nat.add_zero] at h0
  rw [load32, load32, h0, h' 1 (by decide), h' 2 (by decide), h' 3 (by decide)]

@[simp] theorem load32_store32 (m : Bytes) (a w : ℕ) : load32 (store32 m a w) a = w % 2 ^ 32 := by
  have h (i : ℕ) (hi : i < 4) : (store32 m a w (a + i)).toNat = w / 2 ^ (8 * i) % 2 ^ 8 := by
    rw [store32, if_pos ⟨by omega, by omega⟩, BitVec.toNat_ofNat, Nat.add_sub_cancel_left]
  have h0 := h 0 (by decide)
  rw [Nat.add_zero] at h0
  rw [load32, h0, h 1 (by decide), h 2 (by decide), h 3 (by decide)]
  simp only [Nat.reduceMul, Nat.reducePow, Nat.div_one]
  omega

theorem store32_of_not_mem (h : x < a ∨ a + 4 ≤ x) : store32 m a w x = m x :=
  if_neg (by omega)

theorem load32_store32_of_disjoint (h : a + 4 ≤ b ∨ b + 4 ≤ a) :
    load32 (store32 m a w) b = load32 m b :=
  load32_congr fun _ _ _ => store32_of_not_mem (by omega)

/-- A word that is written back changes nothing. -/
theorem store32_load32 (m : Bytes) (a : ℕ) : store32 m a (load32 m a) = m := by
  funext x
  have h (y : ℕ) : (m y).toNat < 2 ^ 8 := (m y).isLt
  have h0 := h a
  have h1 := h (a + 1)
  have h2 := h (a + 2)
  have h3 := h (a + 3)
  by_cases hx : a ≤ x ∧ x < a + 4
  · rw [store32, if_pos hx]
    apply BitVec.eq_of_toNat_eq
    rw [BitVec.toNat_ofNat, load32]
    have hcases : x = a ∨ x = a + 1 ∨ x = a + 2 ∨ x = a + 3 := by omega
    rcases hcases with rfl | rfl | rfl | rfl
    · simp only [Nat.sub_self, Nat.mul_zero, Nat.pow_zero, Nat.div_one]
      omega
    · simp only [Nat.add_sub_cancel_left, Nat.mul_one]
      omega
    · simp only [Nat.add_sub_cancel_left, Nat.reduceMul]
      omega
    · simp only [Nat.add_sub_cancel_left, Nat.reduceMul]
      omega
  · rw [store32, if_neg hx]

theorem fill_apply : fill m a v n x = if a ≤ x ∧ x < a + n then v else m x := by
  induction n generalizing m a with
  | zero => rw [fill, if_neg (by omega)]
  | succ n ih =>
    rw [fill, ih]
    by_cases hx : x = a
    · subst hx
      rw [if_neg (by omega), Function.update_self, if_pos (by omega)]
    · rw [Function.update_of_ne hx]
      congr 1
      apply propext
      omega

theorem fill_of_not_mem (h : x < a ∨ a + n ≤ x) : fill m a v n x = m x := by
  rw [fill_apply, if_neg (by omega)]

/-- Between two ranges that do not overlap, the bytes arrive as they were. -/
theorem copy_apply {src dst : ℕ} (h : src + n ≤ dst ∨ dst + n ≤ src) :
    copy m src dst n x = if dst ≤ x ∧ x < dst + n then m (src + (x - dst)) else m x := by
  induction n generalizing m src dst with
  | zero => rw [copy, if_neg (by omega)]
  | succ n ih =>
    rw [copy, ih (by omega)]
    by_cases hx : x = dst
    · subst hx
      rw [if_neg (by omega), Function.update_self, if_pos (by omega), Nat.sub_self]
      rfl
    · rw [Function.update_of_ne hx]
      by_cases hin : dst + 1 ≤ x ∧ x < dst + 1 + n
      · rw [if_pos hin, if_pos (by omega), Function.update_of_ne (by omega)]
        congr 1
        omega
      · rw [if_neg hin, if_neg (by omega)]

end Bytes

end Lib
