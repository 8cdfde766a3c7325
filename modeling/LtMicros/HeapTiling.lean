import LtMicros.Heap
import LtMicros.Lib.Tiling

/-!
# Heaps whose blocks tile their memory
-/

namespace LtMicros

open Lib

/-- Where a block ends. -/
def blockEnd (m : Bytes) (b : ℕ) : ℕ := b + blockSize m b

namespace Heap

variable {h h' : Heap} {b u x : ℕ} {l l₁ l₂ : List ℕ} {m m' : Bytes}

/-- The blocks of `l` tile `[baseBlock, lastBlock)`, which lies where `Init` and
the check of `Sbrk` keep it. -/
structure Tiled (h : Heap) (l : List ℕ) : Prop where
  tiles : Tiles id (blockEnd h.mem) h.baseBlock l h.lastBlock
  size : ∀ b ∈ l, blockHeaderSize < blockSize h.mem b
  base : h.baseBlock = kernelInfo.vHeapBase.toNat
  limit : h.lastBlock ≤ kernelInfo.vHeapLimit.toNat

theorem vHeapLimit_eq : kernelInfo.vHeapLimit.toNat = 2 ^ 30 := rfl

theorem Tiled.base_pos (ht : Tiled h l) : 0 < h.baseBlock := by
  rw [ht.base]
  decide

/-- A block lies between the base and the end of the heap. -/
theorem Tiled.bounds (ht : Tiled h l) (hb : b ∈ l) :
    h.baseBlock ≤ b ∧ b + 4 < blockEnd h.mem b ∧ blockEnd h.mem b ≤ h.lastBlock := by
  obtain ⟨h1, -, h3⟩ := ht.tiles.mem_bounds hb
  have : 4 < blockSize h.mem b := ht.size b hb
  exact ⟨h1, by unfold blockEnd; omega, h3⟩

/-- The address of the block after `b`, as the loops compute it. -/
theorem Tiled.nextBlock (ht : Tiled h l) (hb : b ∈ l) :
    add32 b (blockSize h.mem b) = blockEnd h.mem b := by
  have hend := (ht.bounds hb).2.2
  have hlimit := ht.limit
  rw [vHeapLimit_eq] at hlimit
  exact add32_of_lt (by unfold blockEnd at hend; omega)

theorem mem_middle : b ∈ l₁ ++ b :: l₂ := by simp

/-- Two blocks do not overlap. -/
theorem Tiled.disjoint (ht : Tiled h l) (hb : b ∈ l) (hu : u ∈ l) (hne : u ≠ b) :
    blockEnd h.mem u ≤ b ∨ blockEnd h.mem b ≤ u := by
  have hbb := (ht.bounds hb).2.1
  have huu := (ht.bounds hu).2.1
  by_contra hno
  obtain ⟨h1, h2⟩ := not_or.mp hno
  rcases Nat.lt_or_ge u b with hlt | hge
  · exact hne (ht.tiles.eq_of_common hu hb (x := b) ⟨Nat.le_of_lt hlt, by omega⟩
      ⟨Nat.le_refl b, by omega⟩)
  · exact hne (ht.tiles.eq_of_common hu hb (x := u) ⟨Nat.le_refl u, by omega⟩
      ⟨hge, by omega⟩)

/-- The blocks before and after `b` in the list lie before and after it. -/
theorem Tiled.order (ht : Tiled h (l₁ ++ b :: l₂)) :
    (∀ w ∈ l₁, blockEnd h.mem w ≤ b) ∧ ∀ w ∈ l₂, blockEnd h.mem b ≤ w := by
  obtain ⟨t₁, -, t₂⟩ := Tiles.mid_iff.mp ht.tiles
  exact ⟨fun w hw => (t₁.mem_bounds hw).2.2, fun w hw => (t₂.mem_bounds hw).1⟩

theorem Tiled.ne_of_mem (ht : Tiled h (l₁ ++ b :: l₂)) (hu : u ∈ l₁ ++ l₂) : u ≠ b := by
  obtain ⟨h₁, h₂⟩ := ht.order
  have hb := (ht.bounds (b := b) (by simp)).2.1
  rintro rfl
  rcases List.mem_append.mp hu with hu | hu
  · have := h₁ u hu
    omega
  · have := h₂ u hu
    omega

theorem mem_of_mem_others (hu : u ∈ l₁ ++ l₂) : u ∈ l₁ ++ b :: l₂ :=
  List.perm_middle.symm.subset (List.mem_cons_of_mem b hu)

/-- The blocks of a list whose headers are the same tile the same memory. -/
theorem tiles_congr {lo hi : ℕ} (hm : ∀ b ∈ l, blockSize m' b = blockSize m b)
    (ht : Tiles id (blockEnd m) lo l hi) : Tiles id (blockEnd m') lo l hi :=
  (Tiles.congr (fun _ _ => rfl) fun b hb => by rw [blockEnd, blockEnd, hm b hb]).mp ht

/-- `m` and `m'` agree outside the block `b` of `m`. -/
def SameOutside (m m' : Bytes) (b : ℕ) : Prop := ∀ x, x < b ∨ blockEnd m b ≤ x → m' x = m x

/-- Such a change keeps every byte of the other blocks. -/
theorem Tiled.keeps (ht : Tiled h l) (hb : b ∈ l) (hm : SameOutside h.mem m' b) (hu : u ∈ l)
    (hne : u ≠ b) :
    (∀ x, u ≤ x → x < blockEnd h.mem u → m' x = h.mem x) ∧
    blockSize m' u = blockSize h.mem u ∧ blockState m' u = blockState h.mem u := by
  have hbytes : ∀ x, u ≤ x → x < blockEnd h.mem u → m' x = h.mem x := by
    intro x hx hx'
    apply hm
    rcases ht.disjoint hb hu hne with hd | hd <;> omega
  have hend := (ht.bounds hu).2.1
  exact ⟨hbytes, header_congr fun x hx hx' => hbytes x hx (by omega)⟩

/-- A change inside a block that keeps its size keeps the tiling. -/
theorem Tiled.of_sameOutside (ht : Tiled h l) (hb : b ∈ l) (hm : SameOutside h.mem m' b)
    (hsize : blockSize m' b = blockSize h.mem b) : Tiled { h with mem := m' } l := by
  have hall : ∀ w ∈ l, blockSize m' w = blockSize h.mem w := by
    intro w hw
    by_cases hwb : w = b
    · rw [hwb, hsize]
    · exact (ht.keeps hb hm hw hwb).2.1
  refine ⟨tiles_congr hall ht.tiles, fun w hw => ?_, ht.base, ht.limit⟩
  rw [hall w hw]
  exact ht.size w hw

/-- The bytes behind the heap are outside every block. -/
theorem Tiled.keeps_end (ht : Tiled h l) (hb : b ∈ l) (hm : SameOutside h.mem m' b) :
    blockSize m' h.lastBlock = blockSize h.mem h.lastBlock ∧
    blockState m' h.lastBlock = blockState h.mem h.lastBlock :=
  header_congr fun x hx _ => hm x (.inr (Nat.le_trans (ht.bounds hb).2.2 hx))

end Heap

end LtMicros
