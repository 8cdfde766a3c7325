import Mathlib.Data.List.Range
import Mathlib.Logic.Function.Basic
import Mathlib.Tactic.Common
import Mathlib.Tactic.IntervalCases

/-!
# Memory as frames of words

A frame is 4096 bytes at an address that is a multiple of 4096, and holds 1024
words of 32 bits. Memory is looked at only through the slots of its frames, so
two words are apart when their frames or their indices differ.
-/

namespace Lib

namespace Frames

variable {α : Type*} {m : BitVec 32 → α} {f g i j w : BitVec 32} {x : α}

/-- The address of word `i` of the frame `f`. -/
def slot (f i : BitVec 32) : BitVec 32 := f + i <<< 2

/-- `f` is the address of a frame. -/
def IsFrame (f : BitVec 32) : Prop := f.toNat % 4096 = 0

instance (f : BitVec 32) : Decidable (IsFrame f) := inferInstanceAs (Decidable (_ = _))

/-- The frame that an address or an entry of a page table names. -/
def frameOf (w : BitVec 32) : BitVec 32 := w &&& 0xFFFFF000#32

theorem toNat_frameOf (w : BitVec 32) : (frameOf w).toNat = w.toNat / 4096 * 4096 := by
  have heq : w &&& 0xFFFFF000#32 = (w >>> 12) <<< 12 := by
    ext i hi
    interval_cases i <;> simp
  have hlt := w.isLt
  rw [frameOf, heq, BitVec.toNat_shiftLeft, BitVec.toNat_ushiftRight, Nat.shiftRight_eq_div_pow,
    Nat.shiftLeft_eq, Nat.mod_eq_of_lt]
  omega

theorem isFrame_frameOf (w : BitVec 32) : IsFrame (frameOf w) := by
  rw [IsFrame, toNat_frameOf]
  exact Nat.mul_mod_left _ _

theorem IsFrame.frameOf_eq (hf : IsFrame f) : frameOf f = f := by
  apply BitVec.eq_of_toNat_eq
  rw [IsFrame] at hf
  rw [toNat_frameOf]
  omega

/-- A frame ends inside the address space. -/
theorem IsFrame.toNat_add_le (hf : IsFrame f) : f.toNat + 4096 ≤ 2 ^ 32 := by
  have hlt := f.isLt
  rw [IsFrame] at hf
  omega

theorem toNat_slot (hf : IsFrame f) (hi : i.toNat < 1024) :
    (slot f i).toNat = f.toNat + 4 * i.toNat := by
  have hle := hf.toNat_add_le
  rw [slot, BitVec.toNat_add, BitVec.toNat_shiftLeft, Nat.shiftLeft_eq]
  omega

/-- Different slots are different words. -/
theorem slot_inj (hf : IsFrame f) (hg : IsFrame g) (hi : i.toNat < 1024) (hj : j.toNat < 1024)
    (heq : slot f i = slot g j) : f = g ∧ i = j := by
  have hnat := congrArg BitVec.toNat heq
  rw [toNat_slot hf hi, toNat_slot hg hj] at hnat
  rw [IsFrame] at hf hg
  constructor
  · apply BitVec.eq_of_toNat_eq
    omega
  · apply BitVec.eq_of_toNat_eq
    omega

/-! ## Writing -/

/-- Word `i` of the frame `f` becomes `x`. -/
@[irreducible] def set (m : BitVec 32 → α) (f i : BitVec 32) (x : α) : BitVec 32 → α :=
  Function.update m (slot f i) x

theorem set_eq_update (m : BitVec 32 → α) (f i : BitVec 32) (x : α) :
    set m f i x = Function.update m (slot f i) x := by
  rw [set]

theorem set_slot (hf : IsFrame f) (hg : IsFrame g) (hi : i.toNat < 1024) (hj : j.toNat < 1024)
    (m : BitVec 32 → α) (x : α) :
    set m f i x (slot g j) = if g = f ∧ j = i then x else m (slot g j) := by
  split
  · rename_i h
    rw [h.1, h.2, set, Function.update_self]
  · rename_i h
    rw [set, Function.update_of_ne]
    intro heq
    exact h (slot_inj hg hf hj hi heq)

@[simp] theorem set_self (m : BitVec 32 → α) (f i : BitVec 32) (x : α) :
    set m f i x (slot f i) = x := by
  rw [set, Function.update_self]

theorem set_of_frame_ne (hf : IsFrame f) (hg : IsFrame g) (hi : i.toNat < 1024)
    (hj : j.toNat < 1024) (hne : g ≠ f) : set m f i x (slot g j) = m (slot g j) := by
  rw [set_slot hf hg hi hj, if_neg (fun h => hne h.1)]

theorem set_of_index_ne (hf : IsFrame f) (hg : IsFrame g) (hi : i.toNat < 1024)
    (hj : j.toNat < 1024) (hne : j ≠ i) : set m f i x (slot g j) = m (slot g j) := by
  rw [set_slot hf hg hi hj, if_neg (fun h => hne h.2)]

/-- The first `n` words of the frame `f` become those of `x`, in order. -/
@[irreducible] def fill (m : BitVec 32 → α) (f : BitVec 32) (x : BitVec 32 → α) (n : ℕ) :
    BitVec 32 → α :=
  (List.range n).foldl (fun m i => set m f (BitVec.ofNat 32 i) (x (BitVec.ofNat 32 i))) m

variable {n : ℕ}

@[simp] theorem fill_zero (m : BitVec 32 → α) (f : BitVec 32) (x : BitVec 32 → α) :
    fill m f x 0 = m := by
  rw [fill]
  rfl

theorem fill_succ (m : BitVec 32 → α) (f : BitVec 32) (x : BitVec 32 → α) (n : ℕ) :
    fill m f x (n + 1) = set (fill m f x n) f (BitVec.ofNat 32 n) (x (BitVec.ofNat 32 n)) := by
  rw [fill, fill, List.range_succ, List.foldl_append]
  rfl

theorem toNat_index (hn : n < 1024) : (BitVec.ofNat 32 n).toNat = n := by
  rw [BitVec.toNat_ofNat]
  omega

theorem fill_slot_lt (hf : IsFrame f) (hg : IsFrame g) (hj : j.toNat < 1024) (m : BitVec 32 → α)
    (x : BitVec 32 → α) (hn : n ≤ 1024) :
    fill m f x n (slot g j) = if g = f ∧ j.toNat < n then x j else m (slot g j) := by
  induction n with
  | zero => simp
  | succ n ih =>
    have hmod := toNat_index (Nat.lt_of_succ_le hn)
    rw [fill_succ, set_slot hf hg (by omega) hj, ih (by omega)]
    by_cases hjn : j = BitVec.ofNat 32 n
    · simp [hjn, hmod]
    · have hnat : j.toNat ≠ n := by
        intro heq
        apply hjn
        apply BitVec.eq_of_toNat_eq
        rw [heq, hmod]
      have hiff : j.toNat < n + 1 ↔ j.toNat < n := by omega
      simp [hjn, hiff]

/-- The whole frame is filled. -/
theorem fill_slot (hf : IsFrame f) (hg : IsFrame g) (hj : j.toNat < 1024) (m : BitVec 32 → α)
    (x : BitVec 32 → α) : fill m f x 1024 (slot g j) = if g = f then x j else m (slot g j) := by
  rw [fill_slot_lt hf hg hj m x (Nat.le_refl _)]
  simp [hj]

/-- The other frames are as they were. -/
theorem fill_of_frame_ne (hf : IsFrame f) (hg : IsFrame g) (hj : j.toNat < 1024)
    (m : BitVec 32 → α) (x : BitVec 32 → α) (hn : n ≤ 1024) (hne : g ≠ f) :
    fill m f x n (slot g j) = m (slot g j) := by
  rw [fill_slot_lt hf hg hj m x hn, if_neg (fun h => hne h.1)]

end Frames

end Lib
