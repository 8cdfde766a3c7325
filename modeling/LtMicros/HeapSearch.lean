import LtMicros.HeapTiling

/-!
# The search and the split of `Heap::_Allocate`

The first block that fits is taken, and split when enough is left over.
-/

namespace LtMicros

open Lib

namespace Heap

variable {h h' : Heap} {b u x size : ℕ} {l l₁ l₂ : List ℕ} {m m' : Bytes}

/-! ## The search -/

/-- A free block of at least `size` bytes. -/
def Fits (m : Bytes) (size b : ℕ) : Bool := blockState m b = blockFree ∧ size ≤ blockSize m b

theorem fits_eq_true : Fits m size b = true ↔
    blockState m b = blockFree ∧ size ≤ blockSize m b := by
  simp [Fits]

/-- The heap with the found block split when enough is left over. -/
def carve (h : Heap) (size b : ℕ) : Heap :=
  if blockHeaderSize + minimalBlockSize ≤ sub32 (blockSize h.mem b) size then
    { h with mem := splitBlock h.mem b size }
  else h

theorem allocateTurn_fits (hb : b < h.lastBlock) (hf : Fits h.mem size b = true) :
    h.allocateTurn size b = .ret (.inr (some b, h.carve size b)) := by
  obtain ⟨hstate, hsize⟩ := fits_eq_true.mp hf
  have hno : ¬ (blockState h.mem b = blockUsed ∨ blockSize h.mem b < size) := by
    rw [hstate]
    exact not_or.mpr ⟨by decide, Nat.not_lt.mpr hsize⟩
  rw [allocateTurn, if_pos hb, if_neg hno, carve]
  split <;> rfl

theorem allocateTurn_skip (hb : b < h.lastBlock) (hf : Fits h.mem size b = false) :
    h.allocateTurn size b = .ret (.inl (add32 b (blockSize h.mem b))) := by
  have hstate := blockState_lt h.mem b
  have hno : blockState h.mem b = blockUsed ∨ blockSize h.mem b < size := by
    have hf : ¬ (blockState h.mem b = blockFree ∧ size ≤ blockSize h.mem b) := by simpa [Fits] using hf
    unfold blockFree at hf
    unfold blockUsed
    omega
  rw [allocateTurn, if_pos hb, if_pos hno]

/-- The loop of `_Allocate`, from any block of a tiled heap on. -/
theorem Tiled.search (ht : Tiled h (l₁ ++ l₂)) {start fuel : ℕ}
    (hstart : Tiles id (blockEnd h.mem) start l₂ h.lastBlock) (hfuel : l₂.length < fuel) :
    Outcome.loop (h.allocateTurn size) fuel start =
      .ret ((l₂.find? (Fits h.mem size)).elim (none, h) fun b => (some b, h.carve size b)) := by
  induction l₂ generalizing l₁ start fuel with
  | nil =>
    obtain ⟨n, rfl⟩ := Nat.exists_eq_add_of_lt hfuel
    obtain rfl : start = h.lastBlock := hstart
    exact Outcome.loop_leave (by rw [allocateTurn, if_neg (Nat.lt_irrefl _)]; rfl) _
  | cons b l₂ ih =>
    obtain ⟨rfl, -, hrest⟩ := hstart
    obtain ⟨n, rfl⟩ : ∃ n, fuel = n + 1 := ⟨fuel - 1, by omega⟩
    have hb : b ∈ l₁ ++ b :: l₂ := by simp
    have hlt : b < h.lastBlock := by
      have := ht.bounds hb
      omega
    cases hf : Fits h.mem size b with
    | true =>
      rw [List.find?_cons_of_pos hf, Option.elim_some]
      exact Outcome.loop_leave (allocateTurn_fits hlt hf) n
    | false =>
      rw [List.find?_cons_of_neg (by simp [hf])]
      refine (Outcome.loop_again (allocateTurn_skip hlt hf) n).trans ?_
      rw [ht.nextBlock hb]
      have ht' : Tiled h ((l₁ ++ [b]) ++ l₂) := by simpa using ht
      exact ih ht' hrest (by simpa using hfuel)

/-! ## Taking the block -/

/-- The two blocks that `_SplitBlock` makes of one. -/
theorem splitBlock_spec (hsize : 4 < size) (hfit : size + 8 ≤ blockSize m b)
    (hb : b + size < 2 ^ 32) :
    blockSize (splitBlock m b size) b = size ∧
    blockState (splitBlock m b size) b = blockState m b ∧
    blockSize (splitBlock m b size) (b + size) = blockSize m b - size ∧
    blockState (splitBlock m b size) (b + size) = blockFree ∧
    SameOutside m (splitBlock m b size) b := by
  have hlt := blockSize_lt m b
  have hsub : sub32 (blockSize m b) size = blockSize m b - size :=
    sub32_of_le (by omega) (by omega)
  rw [splitBlock, add32_of_lt hb, hsub]
  generalize hm₁ : setBlockSize m (b + size) (blockSize m b - size) = m₁
  generalize hm₂ : setBlockState m₁ (b + size) blockFree = m₂
  have hframe : ∀ x, x < b + size ∨ b + size + 4 ≤ x → m₂ x = m x := by
    intro x hx
    rw [← hm₂, setBlockState_of_not_mem hx, ← hm₁, setBlockSize_of_not_mem hx]
  have hfirst : blockSize m₂ b = blockSize m b ∧ blockState m₂ b = blockState m b :=
    header_congr fun x _ hx => hframe x (by omega)
  have hsecond : blockSize (setBlockSize m₂ b size) (b + size) = blockSize m₂ (b + size) ∧
      blockState (setBlockSize m₂ b size) (b + size) = blockState m₂ (b + size) :=
    header_congr fun x hx _ => setBlockSize_of_not_mem (by omega)
  refine ⟨?_, ?_, ?_, ?_, fun x hx => ?_⟩
  · rw [blockSize_setBlockSize, Nat.mod_eq_of_lt (by omega)]
  · rw [blockState_setBlockSize, hfirst.2]
  · rw [hsecond.1, ← hm₂, blockSize_setBlockState, ← hm₁, blockSize_setBlockSize,
      Nat.mod_eq_of_lt (by omega)]
  · rw [hsecond.2, ← hm₂, blockState_setBlockState]
    rfl
  · unfold blockEnd at hx
    rw [setBlockSize_of_not_mem (by omega), hframe x (by omega)]

/-- `h'` is `h` with the block `b`, or its front part, in use. -/
structure Takes (h h' : Heap) (l l' : List ℕ) (b size : ℕ) : Prop where
  tiled : Tiled h' l'
  mem : b ∈ l'
  used : blockState h'.mem b = blockUsed
  size : size ≤ blockSize h'.mem b
  same : SameOutside h.mem h'.mem b
  keeps : ∀ u ∈ l, u ∈ l'
  others : ∀ u ∈ l', u ≠ b → blockState h'.mem u = blockUsed →
    u ∈ l ∧ blockState h.mem u = blockUsed

theorem setBlockState_sameOutside (hb : b + 4 ≤ blockEnd m b) (state : ℕ) :
    SameOutside m (setBlockState m b state) b :=
  fun _ hx => setBlockState_of_not_mem (by omega)

/-- The block itself is taken. -/
theorem Tiled.take (ht : Tiled h l) (hb : b ∈ l) (hsize : size ≤ blockSize h.mem b) :
    Takes h { h with mem := setBlockState h.mem b blockUsed } l l b size := by
  have hbounds := ht.bounds hb
  have hsame := setBlockState_sameOutside (m := h.mem) (b := b) (by omega) blockUsed
  refine ⟨ht.of_sameOutside hb hsame blockSize_setBlockState, hb, blockState_setBlockState, ?_,
    hsame, fun _ hu => hu, fun u hu hne hused => ⟨hu, ?_⟩⟩
  · show size ≤ blockSize (setBlockState h.mem b blockUsed) b
    rwa [blockSize_setBlockState]
  · rw [← hused]
    exact (ht.keeps hb hsame hu hne).2.2.symm

/-- A split keeps the heap tiled, with one more free block. -/
theorem Tiled.split (ht : Tiled h (l₁ ++ b :: l₂)) (hsize : 4 < size)
    (hfit : size + 8 ≤ blockSize h.mem b) :
    Tiled { h with mem := splitBlock h.mem b size } (l₁ ++ b :: (b + size) :: l₂) := by
  have hb : b ∈ l₁ ++ b :: l₂ := mem_middle
  have hbounds := ht.bounds hb
  have hlimit := ht.limit
  rw [vHeapLimit_eq] at hlimit
  have hend : blockEnd h.mem b = b + blockSize h.mem b := rfl
  obtain ⟨hs₁, -, hs₂, -, hsame⟩ := splitBlock_spec hsize hfit (by omega)
  have hkeep (w) (hw : w ∈ l₁ ++ l₂) : blockSize (splitBlock h.mem b size) w = blockSize h.mem w :=
    (ht.keeps hb hsame (mem_of_mem_others hw) (ht.ne_of_mem hw)).2.1
  obtain ⟨t₁, -, t₂⟩ := Tiles.mid_iff.mp ht.tiles
  have hend₁ : blockEnd (splitBlock h.mem b size) b = b + size := by rw [blockEnd, hs₁]
  have hend₂ : blockEnd (splitBlock h.mem b size) (b + size) = blockEnd h.mem b := by
    rw [blockEnd, hs₂]
    omega
  refine ⟨?_, fun w hw => ?_, ht.base, ht.limit⟩
  · refine Tiles.mid_iff.mpr ⟨tiles_congr (fun w hw => hkeep w (by simp [hw])) t₁, ?_, ?_⟩
    · rw [hend₁]
      exact Nat.lt_add_of_pos_right (by omega)
    · rw [hend₁]
      refine ⟨rfl, ?_, ?_⟩
      · rw [hend₂]
        show b + size < _
        omega
      · rw [hend₂]
        exact tiles_congr (fun w hw => hkeep w (by simp [hw])) t₂
  · show 4 < blockSize (splitBlock h.mem b size) w
    rcases List.mem_append.mp hw with hw | hw
    · rw [hkeep w (by simp [hw])]
      exact ht.size w (by simp [hw])
    rcases List.mem_cons.mp hw with rfl | hw
    · rwa [hs₁]
    rcases List.mem_cons.mp hw with rfl | hw
    · rw [hs₂]
      omega
    · rw [hkeep w (by simp [hw])]
      exact ht.size w (by simp [hw])

/-- The heap after the found block has been split, if it is, and marked. -/
def taken (h : Heap) (size b : ℕ) : Heap :=
  { h.carve size b with mem := setBlockState (h.carve size b).mem b blockUsed }

theorem Tiled.taken (ht : Tiled h (l₁ ++ b :: l₂)) (hsize : 4 < size)
    (hf : Fits h.mem size b = true) :
    ∃ l', Takes h (h.taken size b) (l₁ ++ b :: l₂) l' b size := by
  obtain ⟨hstate, hfit⟩ := fits_eq_true.mp hf
  have hb : b ∈ l₁ ++ b :: l₂ := mem_middle
  have hsub : sub32 (blockSize h.mem b) size = blockSize h.mem b - size :=
    sub32_of_le (by have := blockSize_lt h.mem b; omega) hfit
  unfold Heap.taken carve
  rw [hsub]
  split
  · rename_i hrest
    have hrest : 4 + 4 ≤ blockSize h.mem b - size := hrest
    have hlimit := ht.limit
    have hbounds := ht.bounds hb
    rw [vHeapLimit_eq] at hlimit
    have hend : blockEnd h.mem b = b + blockSize h.mem b := rfl
    obtain ⟨hs₁, -, -, hfree, hsame⟩ :=
      splitBlock_spec (m := h.mem) (b := b) hsize (by omega) (by omega)
    have ht₁ := ht.split hsize (by omega)
    have htake := ht₁.take (b := b) mem_middle (Nat.le_of_eq hs₁.symm)
    have hend₁ : blockEnd (splitBlock h.mem b size) b = b + size := by rw [blockEnd, hs₁]
    refine ⟨_, htake.tiled, htake.mem, htake.used, htake.size, fun x hx => ?_, fun u hu => ?_,
      fun u hu hne hused => ?_⟩
    · rw [htake.same x (by dsimp only; omega)]
      exact hsame x hx
    · simp only [List.mem_append, List.mem_cons] at hu ⊢
      tauto
    · obtain ⟨-, hused₁⟩ := htake.others u hu hne hused
      dsimp only at hused₁
      have hne' : u ≠ b + size := by
        rintro rfl
        rw [hfree] at hused₁
        cases hused₁
      have hul : u ∈ l₁ ++ b :: l₂ := by
        simp only [List.mem_append, List.mem_cons] at hu ⊢
        tauto
      exact ⟨hul, (ht.keeps hb hsame hul hne).2.2.symm.trans hused₁⟩
  · exact ⟨_, ht.take hb hfit⟩

end Heap

end LtMicros
