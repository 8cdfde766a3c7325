import LtMicros.UserHeap
import LtMicros.Lib.Tiling

/-!
# The blocks of a user heap

The blocks tile the memory that `_sysSbrk` has given, and there is nothing but zeros
behind the header of a free one. An operation changes the inside of one block, and may
put two in its place.
-/

namespace LtMicros

open Lib

/-- The bytes of a range are zero. -/
def Cleared (m : Bytes) (a b : ℕ) : Prop := ∀ x, a ≤ x → x < b → m x = 0

namespace UserHeap

/-- What holds of every block of a user heap. -/
structure GoodBlock (m : Bytes) (b : ℕ) : Prop where
  size : 8 ≤ blockSize m b
  aligned : blockSize m b % 4 = 0
  cleared : blockState m b = blockFree → Cleared m (b + 4) (blockEnd m b)

/-- The blocks of `l` tile the memory of the heap. -/
structure Blocks (h : UserHeap) (l : List ℕ) : Prop where
  tiles : Tiles id (blockEnd h.mem) h.baseBlock l h.brk
  good : ∀ b ∈ l, GoodBlock h.mem b
  last : h.lastBlock ∈ l
  base : 0 < h.baseBlock
  page : h.baseBlock % pageSize = 0
  brk : h.brk % pageSize = 0
  limit : h.brk ≤ vProcessLimitAddr.toNat

/-- A block of the list is in use. -/
def InUse (m : Bytes) (l : List ℕ) (u : ℕ) : Prop := u ∈ l ∧ blockState m u = blockUsed

theorem vProcessLimitAddr_lt : vProcessLimitAddr.toNat < 2 ^ 32 := by decide

variable {h h' : UserHeap} {m m' : Bytes} {b u n size : ℕ} {l l' l₁ l₂ bs : List ℕ}

/-- A block depends on its bytes only. -/
theorem header_of_bytes (hsize : 4 ≤ blockSize m u)
    (hbytes : ∀ x, u ≤ x → x < blockEnd m u → m' x = m x) :
    blockSize m' u = blockSize m u ∧ blockState m' u = blockState m u := by
  refine header_congr fun x hx hlt => hbytes x hx ?_
  unfold blockEnd
  omega

theorem GoodBlock.congr (hg : GoodBlock m u)
    (hbytes : ∀ x, u ≤ x → x < blockEnd m u → m' x = m x) : GoodBlock m' u := by
  have h8 := hg.size
  obtain ⟨hsize, hstate⟩ := header_of_bytes (by omega) hbytes
  refine ⟨by rw [hsize]; exact h8, by rw [hsize]; exact hg.aligned, ?_⟩
  intro hfree x hx hlt
  rw [blockEnd, hsize] at hlt
  rw [hbytes x (by omega) hlt]
  exact hg.cleared (hstate ▸ hfree) x hx hlt

namespace Blocks

/-- A block lies between the base and the end of the heap. -/
theorem bounds (hb : Blocks h l) (hu : u ∈ l) :
    h.baseBlock ≤ u ∧ u + 8 ≤ blockEnd h.mem u ∧ blockEnd h.mem u ≤ h.brk := by
  obtain ⟨h1, -, h3⟩ := hb.tiles.mem_bounds hu
  have h8 := (hb.good u hu).size
  exact ⟨h1, by unfold blockEnd; omega, h3⟩

/-- Blocks begin at multiples of 4. -/
theorem aligned (hb : Blocks h l) (hu : u ∈ l) : u % 4 = 0 := by
  have hall : ∀ (l : List ℕ) (lo : ℕ), lo % 4 = 0 → Tiles id (blockEnd h.mem) lo l h.brk →
      (∀ b ∈ l, blockSize h.mem b % 4 = 0) → ∀ u ∈ l, u % 4 = 0 := by
    intro l
    induction l with
    | nil => simp
    | cons b l ih =>
      rintro lo hlo ⟨hb, -, ht⟩ hsizes u hu
      have hb : b = lo := hb
      have hsize := hsizes b List.mem_cons_self
      rcases List.mem_cons.mp hu with rfl | hu
      · rw [hb]
        exact hlo
      · refine ih (blockEnd h.mem b) ?_ ht (fun c hc => hsizes c (List.mem_cons_of_mem _ hc)) u hu
        unfold blockEnd
        omega
  have hbase : h.baseBlock % 4 = 0 := by
    have hpage := hb.page
    unfold pageSize at hpage
    omega
  exact hall l h.baseBlock hbase hb.tiles (fun b hb' => (hb.good b hb').aligned) u hu

theorem brk_lt (hb : Blocks h l) : h.brk < 2 ^ 32 :=
  Nat.lt_of_le_of_lt hb.limit vProcessLimitAddr_lt

/-- The first block is at the base. -/
theorem base_mem (hb : Blocks h l) : h.baseBlock ∈ l := by
  rcases l with _ | ⟨b, l⟩
  · exact absurd hb.last List.not_mem_nil
  · have hbase : b = h.baseBlock := hb.tiles.1
    simp [hbase]

/-- The address of the block after `u`, as the loop computes it. -/
theorem nextBlock (hb : Blocks h l) (hu : u ∈ l) :
    add32 u (blockSize h.mem u) = blockEnd h.mem u := by
  have hend := (hb.bounds hu).2.2
  have hlt := hb.brk_lt
  exact add32_of_lt (by unfold blockEnd at hend; omega)

/-- A change inside one block keeps the bytes of the others. -/
theorem keeps (hb : Blocks h l) (hmem : b ∈ l) (hm : Heap.SameOutside h.mem m' b) (hu : u ∈ l)
    (hne : u ≠ b) : ∀ x, u ≤ x → x < blockEnd h.mem u → m' x = h.mem x := by
  intro x hx hlt
  apply hm
  have hdisjoint : blockEnd h.mem u ≤ b ∨ blockEnd h.mem b ≤ u := hb.tiles.disjoint hu hmem hne
  omega

end Blocks

/-- The memory `m'`, whose blocks are those of `l'`, differs from the heap in the block
`b` of `l` only. -/
structure Rewrites (h : UserHeap) (m' : Bytes) (l l' : List ℕ) (b : ℕ) : Prop where
  blocks : Blocks { h with mem := m' } l'
  mem : b ∈ l'
  inUse : ∀ u, u ≠ b → (InUse m' l' u ↔ InUse h.mem l u)
  bytes : ∀ u ∈ l, u ≠ b → ∀ x, u ≤ x → x < blockEnd h.mem u → m' x = h.mem x

theorem Blocks.ne_of_mem (hb : Blocks h (l₁ ++ b :: l₂)) (hu : u ∈ l₁ ∨ u ∈ l₂) : u ≠ b := by
  obtain ⟨t₁, hlt, t₂⟩ := Tiles.mid_iff.mp hb.tiles
  have hlt : b < blockEnd h.mem b := hlt
  rintro rfl
  rcases hu with hu | hu
  · have hend : blockEnd h.mem u ≤ u := (t₁.mem_bounds hu).2.2
    omega
  · have hend : blockEnd h.mem u ≤ u := (t₂.mem_bounds hu).1
    omega

/-- The blocks of `bs`, all free but perhaps the first, are put in the place of one. -/
theorem Blocks.rewrite (hb : Blocks h (l₁ ++ b :: l₂)) (hm : Heap.SameOutside h.mem m' b)
    (htiles : Tiles id (blockEnd m') b bs (blockEnd h.mem b))
    (hgood : ∀ c ∈ bs, GoodBlock m' c) (hfirst : b ∈ bs)
    (hfree : ∀ c ∈ bs, c ≠ b → blockState m' c = blockFree) :
    Rewrites h m' (l₁ ++ b :: l₂) (l₁ ++ (bs ++ l₂)) b := by
  have hmem : b ∈ l₁ ++ b :: l₂ := by simp
  have hold : ∀ u, u ∈ l₁ ∨ u ∈ l₂ → u ∈ l₁ ++ b :: l₂ := by
    intro u hu
    rcases hu with hu | hu <;> simp [hu]
  have hbytes : ∀ u, u ∈ l₁ ∨ u ∈ l₂ → ∀ x, u ≤ x → x < blockEnd h.mem u → m' x = h.mem x :=
    fun u hu => hb.keeps hmem hm (hold u hu) (hb.ne_of_mem hu)
  have hheader : ∀ u, u ∈ l₁ ∨ u ∈ l₂ →
      blockSize m' u = blockSize h.mem u ∧ blockState m' u = blockState h.mem u := by
    intro u hu
    have h8 := (hb.good u (hold u hu)).size
    exact header_of_bytes (by omega) (hbytes u hu)
  obtain ⟨t₁, -, t₂⟩ := Tiles.mid_iff.mp hb.tiles
  have hends : ∀ u, u ∈ l₁ ∨ u ∈ l₂ → blockEnd h.mem u = blockEnd m' u := by
    intro u hu
    rw [blockEnd, blockEnd, (hheader u hu).1]
  constructor
  · refine ⟨?_, ?_, ?_, hb.base, hb.page, hb.brk, hb.limit⟩
    · have t₁' : Tiles id (blockEnd m') h.baseBlock l₁ b :=
        (Tiles.congr (fun _ _ => rfl) fun u hu => hends u (.inl hu)).mp t₁
      have t₂' : Tiles id (blockEnd m') (blockEnd h.mem b) l₂ h.brk :=
        (Tiles.congr (fun _ _ => rfl) fun u hu => hends u (.inr hu)).mp t₂
      exact Tiles.append_iff.mpr ⟨b, t₁', Tiles.append_iff.mpr ⟨_, htiles, t₂'⟩⟩
    · intro u hu
      rw [List.mem_append, List.mem_append] at hu
      rcases hu with hu | hu | hu
      · exact (hb.good u (hold u (.inl hu))).congr (hbytes u (.inl hu))
      · exact hgood u hu
      · exact (hb.good u (hold u (.inr hu))).congr (hbytes u (.inr hu))
    · have hlast := hb.last
      rw [List.mem_append, List.mem_cons] at hlast
      rw [List.mem_append, List.mem_append]
      rcases hlast with hlast | hlast | hlast
      · exact .inl hlast
      · exact .inr (.inl (hlast ▸ hfirst))
      · exact .inr (.inr hlast)
  · simp [hfirst]
  · intro u hne
    constructor
    · rintro ⟨hu, hused⟩
      rw [List.mem_append, List.mem_append] at hu
      rcases hu with hu | hu | hu
      · exact ⟨hold u (.inl hu), (hheader u (.inl hu)).2 ▸ hused⟩
      · rw [hfree u hu hne] at hused
        cases hused
      · exact ⟨hold u (.inr hu), (hheader u (.inr hu)).2 ▸ hused⟩
    · rintro ⟨hu, hused⟩
      rw [List.mem_append, List.mem_cons] at hu
      rcases hu with hu | hu | hu
      · exact ⟨by simp [hu], by rw [(hheader u (.inl hu)).2]; exact hused⟩
      · exact absurd hu hne
      · exact ⟨by simp [hu], by rw [(hheader u (.inr hu)).2]; exact hused⟩
  · intro u hu hne
    exact hb.keeps hmem hm hu hne

/-- The block itself changes. -/
theorem Blocks.rewrite_self (hb : Blocks h l) (hmem : b ∈ l) (hm : Heap.SameOutside h.mem m' b)
    (hsize : blockSize m' b = blockSize h.mem b)
    (hcleared : blockState m' b = blockFree → Cleared m' (b + 4) (blockEnd h.mem b)) :
    Rewrites h m' l l b := by
  obtain ⟨l₁, l₂, rfl⟩ := List.append_of_mem hmem
  have hgood := hb.good b hmem
  have h8 := hgood.size
  have hend : blockEnd m' b = blockEnd h.mem b := by rw [blockEnd, blockEnd, hsize]
  have hlt : b < blockEnd h.mem b := by
    unfold blockEnd
    omega
  have hnew : GoodBlock m' b :=
    ⟨by rw [hsize]; exact h8, by rw [hsize]; exact hgood.aligned, by rw [hend]; exact hcleared⟩
  have htiles : Tiles id (blockEnd m') b [b] (blockEnd h.mem b) :=
    ⟨rfl, by rw [hend]; exact hlt, hend⟩
  refine hb.rewrite hm htiles ?_ (by simp) ?_
  · simpa using hnew
  · intro c hc hne
    exact absurd (List.mem_singleton.mp hc) hne

/-! ## `HeapFree` -/

theorem memSet_of_le {src : ℕ} (h : src + size ≤ vProcessLimitAddr.toNat) :
    memSet m src size = .ret (m.fill src 0 size) := if_pos h

theorem memSet_of_lt {src : ℕ} (h : vProcessLimitAddr.toNat < src + size) :
    memSet m src size = .fault := if_neg (Nat.not_le.mpr h)

/-- `HeapFree` of a block in use fills it with zeros. -/
theorem Blocks.heapFree_eq (hb : Blocks h l) (hmem : b ∈ l)
    (hused : blockState h.mem b = blockUsed) :
    ∃ m', h.heapFree (b + blockHeaderSize) = .ret { h with mem := m' } ∧ Rewrites h m' l l b ∧
      blockState m' b = blockFree := by
  have hbounds := hb.bounds hmem
  have hlt := hb.brk_lt
  have h8 := (hb.good b hmem).size
  have hsub : sub32 (b + blockHeaderSize) blockHeaderSize = b := by
    rw [sub32_of_le (by unfold blockHeaderSize; omega) (Nat.le_add_left _ _)]
    exact Nat.add_sub_cancel _ _
  generalize hm₁ : setBlockState h.mem b blockFree = m₁
  have hsize₁ : blockSize m₁ b = blockSize h.mem b := by rw [← hm₁, blockSize_setBlockState]
  have hrest : sub32 (blockSize m₁ b) blockHeaderSize = blockSize h.mem b - 4 := by
    rw [hsize₁, sub32_of_le (by have := blockSize_lt h.mem b; omega) (by
      unfold blockHeaderSize
      omega)]
  have hend : blockEnd h.mem b = b + blockSize h.mem b := rfl
  have hfits : b + blockHeaderSize + (blockSize h.mem b - 4) ≤ vProcessLimitAddr.toNat := by
    have hlimit := hb.limit
    unfold blockHeaderSize
    omega
  have hne : ¬blockState h.mem b = blockFree := by
    rw [hused]
    decide
  refine ⟨m₁.fill (b + blockHeaderSize) 0 (blockSize h.mem b - 4), ?_, ?_⟩
  · have hptr : ¬b + blockHeaderSize = 0 := by simp
    simp only [heapFree, if_neg hptr, hsub, if_neg hne, hm₁, hrest, memSet_of_le hfits,
      Outcome.ret_bind, Outcome.pure_eq]
  generalize hm' : m₁.fill (b + blockHeaderSize) 0 (blockSize h.mem b - 4) = m'
  have hheader : blockSize m' b = blockSize m₁ b ∧ blockState m' b = blockState m₁ b := by
    refine header_congr fun x _ hx => ?_
    rw [← hm', Bytes.fill_of_not_mem (.inl hx)]
  have hstate : blockState m' b = blockFree := by
    rw [hheader.2, ← hm₁, blockState_setBlockState]
    rfl
  refine ⟨hb.rewrite_self hmem ?_ (hheader.1.trans hsize₁) ?_, hstate⟩
  · intro x hx
    have hout : x < b ∨ b + 4 ≤ x := by omega
    rw [← hm', Bytes.fill_of_not_mem (by unfold blockHeaderSize; omega), ← hm₁,
      setBlockState_of_not_mem hout]
  · intro _ x hx hlt
    rw [← hm', Bytes.fill_apply, if_pos (by unfold blockHeaderSize; omega)]

/-! ## A block is taken -/

/-- `_SplitBlock` writes the two headers only. -/
theorem splitBlock_of_not_mem {x : ℕ} (hlt : b + size < 2 ^ 32)
    (hx : x < b ∨ b + 4 ≤ x) (hx' : x < b + size ∨ b + size + 4 ≤ x) :
    splitBlock m b size x = m x := by
  rw [splitBlock, Heap.splitBlock, add32_of_lt hlt, setBlockSize_of_not_mem hx,
    setBlockState_of_not_mem hx', setBlockSize_of_not_mem hx']

/-- A free block, or its front part, is given away: it was cleared, and nothing else
changes that was in use. -/
structure Serves (h : UserHeap) (m' : Bytes) (l l' : List ℕ) (size b : ℕ) : Prop where
  rewrites : Rewrites h m' l l' b
  wasFree : ¬InUse h.mem l b
  used : blockState m' b = blockUsed
  size : size ≤ blockSize m' b
  cleared : Cleared m' (b + 4) (blockEnd m' b)

/-- The block is taken as it is. -/
theorem Blocks.take (hb : Blocks h l) (hmem : b ∈ l) (hfree : blockState h.mem b = blockFree)
    (hfit : size ≤ blockSize h.mem b) :
    Serves h (setBlockState h.mem b blockUsed) l l size b := by
  have hbounds := hb.bounds hmem
  have hused : blockState (setBlockState h.mem b blockUsed) b = blockUsed :=
    blockState_setBlockState
  have hne : ¬blockUsed = blockFree := by decide
  refine ⟨hb.rewrite_self hmem ?_ blockSize_setBlockState ?_, ?_, hused, ?_, ?_⟩
  · exact Heap.setBlockState_sameOutside (by omega) blockUsed
  · intro h0
    exact absurd (hused.symm.trans h0) hne
  · rintro ⟨-, hstate⟩
    exact hne (hstate.symm.trans hfree)
  · rw [blockSize_setBlockState]
    exact hfit
  · intro x hx hlt
    rw [blockEnd, blockSize_setBlockState] at hlt
    rw [setBlockState_of_not_mem (.inr hx)]
    exact (hb.good b hmem).cleared hfree x hx hlt

/-- The block is split, and its front part is taken. -/
theorem Blocks.split (hb : Blocks h (l₁ ++ b :: l₂)) (hfree : blockState h.mem b = blockFree)
    (h8 : 8 ≤ size) (haligned : size % 4 = 0) (hfit : size + 8 ≤ blockSize h.mem b) :
    Serves h (setBlockState (splitBlock h.mem b size) b blockUsed) (l₁ ++ b :: l₂)
      (l₁ ++ ([b, b + size] ++ l₂)) size b := by
  have hmem : b ∈ l₁ ++ b :: l₂ := by simp
  have hgood := hb.good b hmem
  have hbounds := hb.bounds hmem
  have hlt := hb.brk_lt
  have hend : blockEnd h.mem b = b + blockSize h.mem b := rfl
  obtain ⟨hs₁, -, hs₂, hf₂, hsame⟩ := Heap.splitBlock_spec (show 4 < size by omega) hfit
    (show b + size < 2 ^ 32 by omega)
  generalize hm₁ : splitBlock h.mem b size = m₁
  have hm₁' : Heap.splitBlock h.mem b size = m₁ := hm₁
  rw [hm₁'] at hs₁ hs₂ hf₂ hsame
  generalize hm' : setBlockState m₁ b blockUsed = m'
  have hused : blockState m' b = blockUsed := by
    rw [← hm', blockState_setBlockState]
    rfl
  have hsize : blockSize m' b = size := by rw [← hm', blockSize_setBlockState, hs₁]
  have hsecond : blockSize m' (b + size) = blockSize m₁ (b + size) ∧
      blockState m' (b + size) = blockState m₁ (b + size) := by
    refine header_congr fun x hx _ => ?_
    rw [← hm', setBlockState_of_not_mem (.inr (by omega))]
  have hend₁ : blockEnd m' b = b + size := by rw [blockEnd, hsize]
  have hend₂ : blockEnd m' (b + size) = blockEnd h.mem b := by
    rw [blockEnd, hsecond.1, hs₂]
    omega
  -- behind the header, and apart from the second header, nothing is written
  have hzero : ∀ x, b + 4 ≤ x → x < blockEnd h.mem b → x < b + size ∨ b + size + 4 ≤ x →
      m' x = 0 := by
    intro x hx hx' hout
    rw [← hm', setBlockState_of_not_mem (.inr hx), ← hm₁,
      splitBlock_of_not_mem (by omega) (.inr hx) hout]
    exact hgood.cleared hfree x hx hx'
  have hne : ¬blockUsed = blockFree := by decide
  refine ⟨hb.rewrite ?_ ⟨rfl, ?_, ?_⟩ ?_ (by simp) ?_, ?_, hused, Nat.le_of_eq hsize.symm, ?_⟩
  · intro x hx
    rw [← hm', setBlockState_of_not_mem (by omega)]
    exact hsame x hx
  · show b < blockEnd m' b
    omega
  · refine ⟨hend₁.symm, ?_, hend₂⟩
    show b + size < blockEnd m' (b + size)
    omega
  · intro c hc
    rw [List.mem_cons, List.mem_singleton] at hc
    rcases hc with rfl | rfl
    · exact ⟨by omega, by omega, fun h0 => absurd (hused.symm.trans h0) hne⟩
    · have h4 := hgood.aligned
      refine ⟨by omega, by omega, fun _ x hx hx' => ?_⟩
      exact hzero x (by omega) (by omega) (.inr hx)
  · intro c hc hcb
    rw [List.mem_cons, List.mem_singleton] at hc
    rcases hc with rfl | rfl
    · exact absurd rfl hcb
    · exact hsecond.2.trans hf₂
  · rintro ⟨-, hstate⟩
    exact hne (hstate.symm.trans hfree)
  · intro x hx hx'
    exact hzero x hx (by omega) (.inl (by omega))

end UserHeap

end LtMicros
