import LtMicros.HeapTiling

/-!
# `Heap::Free`

When `Free` leaves the blocks a tiling of the heap, and when it does not.
-/

namespace LtMicros

open Lib

namespace Heap

variable {h h' : Heap} {b f u x : ℕ} {l l₁ l₂ : List ℕ} {m m' : Bytes}

/-- The bytes at `lastBlock` look like the header of a free block. -/
def GarbageBlock (h : Heap) : Prop :=
  blockSize h.mem h.lastBlock ≠ 0 ∧ blockState h.mem h.lastBlock = blockFree

/-! ## Merging -/

/-- In a tiling the block after `b` starts where `b` ends. -/
theorem Tiled.next_eq (ht : Tiled h (l₁ ++ b :: f :: l₂)) : f = blockEnd h.mem b :=
  (Tiles.mid_iff.mp ht.tiles).2.2.1

theorem Tiled.last_eq (ht : Tiled h (l₁ ++ [b])) : blockEnd h.mem b = h.lastBlock :=
  (Tiles.mid_iff.mp ht.tiles).2.2

/-- A change of the header of a block is a change inside the block. -/
theorem Tiled.sameOutside (ht : Tiled h l) (hb : b ∈ l)
    (hm : ∀ x, x < b ∨ b + 4 ≤ x → m' x = h.mem x) : SameOutside h.mem m' b := by
  have := (ht.bounds hb).2.1
  exact fun x hx => hm x (by omega)

/-- A turn at a used block, or at the end of the heap, ends the loop. -/
theorem Tiled.mergeTurn_stop (ht : Tiled h l) (hb : b ∈ l)
    (hstop : blockSize h.mem (blockEnd h.mem b) = 0 ∨
      blockState h.mem (blockEnd h.mem b) ≠ blockFree) :
    mergeTurn b h = .ret (.inr h) := by
  have hlt : b < h.lastBlock := by
    have := ht.bounds hb
    omega
  simp only [mergeTurn, if_pos hlt, ht.nextBlock hb]
  split
  · rfl
  · rename_i hsize
    exact if_pos (hstop.resolve_left hsize)

/-- A turn at a free block takes it into `b`. -/
theorem Tiled.mergeTurn_merge (ht : Tiled h (l₁ ++ b :: f :: l₂))
    (hf : blockState h.mem f = blockFree) :
    ∃ h', mergeTurn b h = .ret (.inl h') ∧ Tiled h' (l₁ ++ b :: l₂) ∧
      (∀ x, x < b ∨ b + 4 ≤ x → h'.mem x = h.mem x) ∧
      blockState h'.mem b = blockState h.mem b ∧ h'.lastBlock = h.lastBlock := by
  have hb : b ∈ l₁ ++ b :: f :: l₂ := mem_middle
  have hfl : f ∈ l₁ ++ b :: f :: l₂ := by simp
  have hbounds := ht.bounds hb
  have hfbounds := ht.bounds hfl
  have hfeq := ht.next_eq
  have hlt : b < h.lastBlock := by omega
  have hlimit := ht.limit
  rw [vHeapLimit_eq] at hlimit
  have hsum : blockSize h.mem b + blockSize h.mem f < 2 ^ 31 := by
    unfold blockEnd at hfbounds hfeq
    omega
  have hsize : ¬ blockSize h.mem f = 0 := by
    have := ht.size f hfl
    omega
  have hframe : ∀ x, x < b ∨ b + 4 ≤ x →
      setBlockSize h.mem b (blockSize h.mem b + blockSize h.mem f) x = h.mem x :=
    fun x hx => setBlockSize_of_not_mem hx
  have hothers (w) (hw : w ∈ l₁ ++ l₂) : w ∈ l₁ ++ f :: l₂ := mem_of_mem_others hw
  have hkeep (w) (hw : w ∈ l₁ ++ l₂) := ht.keeps hb (ht.sameOutside hb hframe) (u := w)
    (mem_of_mem_others (hothers w hw)) (ht.ne_of_mem (hothers w hw))
  have hnew : blockEnd (setBlockSize h.mem b (blockSize h.mem b + blockSize h.mem f)) b =
      blockEnd h.mem f := by
    rw [blockEnd, blockSize_setBlockSize, Nat.mod_eq_of_lt hsum]
    unfold blockEnd at hfeq ⊢
    omega
  refine ⟨{ h with mem := setBlockSize h.mem b (blockSize h.mem b + blockSize h.mem f) },
    ?_, ⟨?_, ?_, ht.base, ht.limit⟩, hframe, blockState_setBlockSize, rfl⟩
  · have hlast : ¬ f = h.lastBlock := by omega
    simp only [mergeTurn, if_pos hlt, ht.nextBlock hb, ← hfeq, if_neg hsize, hf, ne_eq,
      not_true_eq_false, if_false, if_neg hlast]
    rfl
  · obtain ⟨t₁, -, -, -, t₂⟩ := Tiles.mid_iff.mp ht.tiles
    refine Tiles.mid_iff.mpr ⟨?_, ?_, ?_⟩
    · exact tiles_congr (fun w hw => (hkeep w (by simp [hw])).2.1) t₁
    · show b < blockEnd (setBlockSize _ b _) b
      omega
    · show Tiles id _ (blockEnd (setBlockSize _ b _) b) l₂ _
      rw [hnew]
      exact tiles_congr (fun w hw => (hkeep w (by simp [hw])).2.1) t₂
  · intro w hw
    by_cases hwb : w = b
    · subst hwb
      show _ < blockSize (setBlockSize _ w _) w
      rw [blockSize_setBlockSize, Nat.mod_eq_of_lt hsum]
      have := ht.size w hb
      omega
    · have hw : w ∈ l₁ ++ l₂ := by simpa [hwb] using hw
      show _ < blockSize (setBlockSize _ b _) w
      rw [(hkeep w hw).2.1]
      exact ht.size w (mem_of_mem_others (hothers w hw))

/-- A turn at the end of the heap that meets the header of a free block there
moves `lastBlock` to `b`, and the next turn ends the loop. -/
theorem Tiled.mergeTurn_garbage (ht : Tiled h (l₁ ++ [b])) (hg : GarbageBlock h) :
    ∃ h', Outcome.loop (mergeTurn b) 2 h = .ret h' ∧ h'.lastBlock = b := by
  have hb : b ∈ l₁ ++ [b] := by simp
  have hbounds := ht.bounds hb
  have hlt : b < h.lastBlock := by omega
  obtain ⟨hsize, hfree⟩ := hg
  obtain ⟨h', hturn, hlast⟩ : ∃ h', mergeTurn b h = .ret (.inl h') ∧ h'.lastBlock = b := by
    simp only [mergeTurn, if_pos hlt, ht.nextBlock hb, ht.last_eq, if_neg hsize, hfree, ne_eq,
      not_true_eq_false, if_false, if_true]
    exact ⟨_, rfl, rfl⟩
  have hout : mergeTurn b h' = .ret (.inr h') := if_neg (by rw [hlast]; exact Nat.lt_irrefl b)
  exact ⟨h', (Outcome.loop_again hturn 1).trans (Outcome.loop_leave hout 0), hlast⟩

/-- What `_MergeBlocksFrom` does to a tiled heap: `fs` are the free blocks
directly after `b`. -/
theorem Tiled.mergeBlocks {rest : List ℕ} (ht : Tiled h (l₁ ++ b :: rest)) :
    ∃ fuel h' fs l₂, Outcome.loop (mergeTurn b) fuel h = .ret h' ∧ rest = fs ++ l₂ ∧
      (∀ f ∈ fs, blockState h.mem f = blockFree) ∧
      (∀ u ∈ l₂.head?, blockState h.mem u ≠ blockFree) ∧
      (l₂ = [] ∧ GarbageBlock h → h'.lastBlock = b) ∧
      (¬ (l₂ = [] ∧ GarbageBlock h) → Tiled h' (l₁ ++ b :: l₂) ∧ h'.lastBlock = h.lastBlock ∧
        blockState h'.mem b = blockState h.mem b ∧
        ∀ x, x < b ∨ b + 4 ≤ x → h'.mem x = h.mem x) := by
  have hb : b ∈ l₁ ++ b :: rest := mem_middle
  induction rest generalizing h with
  | nil =>
    by_cases hg : GarbageBlock h
    · obtain ⟨h', hh', hlast⟩ := ht.mergeTurn_garbage hg
      exact ⟨2, h', [], [], hh', rfl, by simp, by simp, fun _ => hlast,
        fun hno => absurd ⟨rfl, hg⟩ hno⟩
    · have hstop : blockSize h.mem (blockEnd h.mem b) = 0 ∨
          blockState h.mem (blockEnd h.mem b) ≠ blockFree := by
        rw [ht.last_eq]
        exact not_and_or.mp hg |>.imp_left not_not.mp
      exact ⟨1, h, [], [], Outcome.loop_leave (ht.mergeTurn_stop hb hstop) 0, rfl, by simp,
        by simp, fun hbad => absurd hbad.2 hg, fun _ => ⟨ht, rfl, rfl, fun _ _ => rfl⟩⟩
  | cons f rest ih =>
    by_cases hf : blockState h.mem f = blockFree
    · obtain ⟨h₁, hturn, ht₁, hframe, hstate, hlast⟩ := ht.mergeTurn_merge hf
      obtain ⟨fuel, h', fs, l₂, hloop, rfl, hfs, hl₂, hbad, hgood⟩ := ih ht₁ mem_middle
      have hsame := ht.sameOutside hb hframe
      have hkeep (w) (hw : w ∈ fs ++ l₂) : blockState h₁.mem w = blockState h.mem w := by
        have hw' : w ∈ l₁ ++ f :: (fs ++ l₂) := by simp [List.mem_append.mp hw]
        exact (ht.keeps hb hsame (mem_of_mem_others hw') (ht.ne_of_mem hw')).2.2
      have hgarbage : GarbageBlock h₁ ↔ GarbageBlock h := by
        obtain ⟨h1, h2⟩ := ht.keeps_end hb hsame
        rw [GarbageBlock, GarbageBlock, hlast, h1, h2]
      rw [hgarbage] at hbad hgood
      refine ⟨fuel + 1, h', f :: fs, l₂, ?_, rfl, ?_, ?_, hbad, fun hno => ?_⟩
      · rw [Outcome.loop_again hturn]
        exact hloop
      · intro w hw
        rcases List.mem_cons.mp hw with rfl | hw
        · exact hf
        · rw [← hkeep w (by simp [hw])]
          exact hfs w hw
      · intro u hu
        rw [← hkeep u (List.mem_append_right _ (List.mem_of_mem_head? hu))]
        exact hl₂ u hu
      · obtain ⟨ht', hlast', hstate', hframe'⟩ := hgood hno
        exact ⟨ht', hlast'.trans hlast, hstate'.trans hstate,
          fun x hx => (hframe' x hx).trans (hframe x hx)⟩
    · have hstop : blockState h.mem (blockEnd h.mem b) ≠ blockFree := ht.next_eq ▸ hf
      exact ⟨1, h, [], f :: rest, Outcome.loop_leave (ht.mergeTurn_stop hb (.inr hstop)) 0, rfl,
        by simp, by simpa using hf, by simp, fun _ => ⟨ht, rfl, rfl, fun _ _ => rfl⟩⟩

/-! ## `Free` -/

/-- The memory in which `Free` starts to merge. -/
def freed (m : Bytes) (b : ℕ) : Bytes :=
  (setBlockState m b blockFree).fill (b + blockHeaderSize) 0
    (sub32 (blockSize (setBlockState m b blockFree) b) blockHeaderSize)

/-- `Free` marks the block, clears its payload and merges. -/
theorem Tiled.free_eq (ht : Tiled h l) (hb : b ∈ l) (hu : blockState h.mem b = blockUsed)
    (fuel : ℕ) :
    h.free fuel (b + blockHeaderSize) =
      Outcome.loop (mergeTurn b) fuel { h with mem := freed h.mem b } := by
  have hbounds := ht.bounds hb
  have hlimit := ht.limit
  rw [vHeapLimit_eq] at hlimit
  have hblock : sub32 (b + blockHeaderSize) blockHeaderSize = b := by
    rw [sub32_of_le (by unfold blockHeaderSize; omega) (Nat.le_add_left _ _)]
    exact Nat.add_sub_cancel _ _
  have hb0 : ¬ b = 0 := by
    have := ht.base_pos
    omega
  have hne : ¬ blockState h.mem b = blockFree := by
    rw [hu]
    decide
  simp only [free, hblock, if_neg hne, mergeBlocksFrom, if_neg hb0]
  rfl

/-- The block is free now, its size is the same, and nothing outside it has
changed. -/
theorem Tiled.freed_spec (ht : Tiled h l) (hb : b ∈ l) :
    SameOutside h.mem (freed h.mem b) b ∧ blockSize (freed h.mem b) b = blockSize h.mem b ∧
    blockState (freed h.mem b) b = blockFree := by
  have hsize : 4 < blockSize h.mem b := ht.size b hb
  have hlt := blockSize_lt h.mem b
  have hsub : sub32 (blockSize (setBlockState h.mem b blockFree) b) blockHeaderSize =
      blockSize h.mem b - 4 := by
    rw [blockSize_setBlockState]
    exact sub32_of_le (by omega) (Nat.le_of_lt hsize)
  have hheader := header_congr (m := freed h.mem b) (b := b)
    fun x _ hx => Bytes.fill_of_not_mem (.inl hx)
  refine ⟨fun x hx => ?_, ?_, ?_⟩
  · rw [freed, hsub, Bytes.fill_of_not_mem, setBlockState_of_not_mem]
    · unfold blockEnd at hx
      omega
    · unfold blockEnd at hx
      unfold blockHeaderSize
      omega
  · rw [hheader.1, blockSize_setBlockState]
  · rw [hheader.2, blockState_setBlockState]
    rfl

/-- What `Free` does to a tiled heap: `fs` are the free blocks directly after `b`. -/
theorem Tiled.free_spec (ht : Tiled h l) (hb : b ∈ l) (hu : blockState h.mem b = blockUsed) :
    ∃ fuel h' l₁ fs l₂, h.free fuel (b + blockHeaderSize) = .ret h' ∧
      l = l₁ ++ b :: (fs ++ l₂) ∧ (∀ f ∈ fs, blockState h.mem f = blockFree) ∧
      (∀ u ∈ l₂.head?, blockState h.mem u ≠ blockFree) ∧
      (l₂ = [] ∧ GarbageBlock h → h'.lastBlock = b) ∧
      (¬ (l₂ = [] ∧ GarbageBlock h) → Tiled h' (l₁ ++ b :: l₂) ∧ h'.lastBlock = h.lastBlock ∧
        blockState h'.mem b = blockFree ∧
        ∀ x, x < b ∨ blockEnd h.mem b ≤ x → h'.mem x = h.mem x) := by
  obtain ⟨l₁, rest, rfl⟩ := List.append_of_mem hb
  obtain ⟨hsame, hsize, hfree⟩ := ht.freed_spec hb
  obtain ⟨fuel, h', fs, l₂, hloop, rfl, hfs, hl₂, hbad, hgood⟩ :=
    (ht.of_sameOutside hb hsame hsize).mergeBlocks
  dsimp only at hfs hl₂ hgood
  have hstate (w) (hw : w ∈ l₁ ++ (fs ++ l₂)) :
      blockState (freed h.mem b) w = blockState h.mem w :=
    (ht.keeps hb hsame (mem_of_mem_others hw) (ht.ne_of_mem hw)).2.2
  have hgarbage : GarbageBlock { h with mem := freed h.mem b } ↔ GarbageBlock h := by
    obtain ⟨h1, h2⟩ := ht.keeps_end hb hsame
    rw [GarbageBlock, GarbageBlock, h1, h2]
  rw [hgarbage] at hbad hgood
  refine ⟨fuel, h', l₁, fs, l₂, (ht.free_eq hb hu fuel).trans hloop, rfl, ?_, ?_, hbad, ?_⟩
  · intro f hf
    rw [← hstate f (by simp [hf])]
    exact hfs f hf
  · intro u hu
    rw [← hstate u (by simp [List.mem_of_mem_head? hu])]
    exact hl₂ u hu
  · intro hno
    obtain ⟨ht', hlast, hst, hframe⟩ := hgood hno
    have hbounds := ht.bounds hb
    exact ⟨ht', hlast, hst.trans hfree,
      fun x hx => (hframe x (by omega)).trans (hsame x hx)⟩

/-- `Free(b + BLOCK_HEADER_SIZE)` returns in a state that tiles the same memory;
`b`, extended by the free blocks `fs` that followed it, is free, and every other
used block keeps all its bytes. -/
def SurvivesFree (h : Heap) (l : List ℕ) (b : ℕ) : Prop :=
  ∃ fuel h' l₁ fs l₂, h.free fuel (b + blockHeaderSize) = .ret h' ∧
    l = l₁ ++ b :: (fs ++ l₂) ∧ (∀ f ∈ fs, blockState h.mem f = blockFree) ∧
    h'.lastBlock = h.lastBlock ∧ Tiled h' (l₁ ++ b :: l₂) ∧ blockState h'.mem b = blockFree ∧
    ∀ u ∈ l, blockState h.mem u = blockUsed → u ≠ b →
      u ∈ l₁ ++ l₂ ∧ ∀ x, u ≤ x → x < blockEnd h.mem u → h'.mem x = h.mem x

/-- With a used block after `b`, or bytes at `lastBlock` that are not like the
header of a free block, the heap survives. -/
theorem Tiled.survivesFree (ht : Tiled h l) (hb : b ∈ l) (hu : blockState h.mem b = blockUsed)
    (hno : ¬ ((∀ f ∈ l, b < f → blockState h.mem f = blockFree) ∧ GarbageBlock h)) :
    SurvivesFree h l b := by
  obtain ⟨fuel, h', l₁, fs, l₂, hret, rfl, hfs, -, -, hgood⟩ := ht.free_spec hb hu
  have hne (w) (hw : w ∈ l₁ ++ (fs ++ l₂)) : w ≠ b := ht.ne_of_mem hw
  have hcond : ¬ (l₂ = [] ∧ GarbageBlock h) := by
    rintro ⟨rfl, hg⟩
    refine hno ⟨fun f hf hlt => ?_, hg⟩
    rcases List.mem_append.mp hf with hf₁ | hf₂
    · have := ht.order.1 f hf₁
      have := ht.bounds hf
      omega
    · exact hfs f (by simpa [Nat.ne_of_gt hlt] using hf₂)
  obtain ⟨ht', hlast, hst, hframe⟩ := hgood hcond
  refine ⟨fuel, h', l₁, fs, l₂, hret, rfl, hfs, hlast, ht', hst, fun u hul hused hub => ?_⟩
  have hufs : u ∉ fs := fun hmem => absurd ((hfs u hmem).symm.trans hused) (by decide)
  refine ⟨by simpa [hub, hufs] using hul, fun x hx hx' => ?_⟩
  have hout := ht.disjoint hb hul hub
  exact hframe x (by omega)

/-- Otherwise `lastBlock` moves back to `b`. -/
theorem Tiled.not_survivesFree (ht : Tiled h l) (hb : b ∈ l)
    (hu : blockState h.mem b = blockUsed)
    (hend : ∀ f ∈ l, b < f → blockState h.mem f = blockFree) (hg : GarbageBlock h) :
    ¬ SurvivesFree h l b := by
  rintro ⟨fuel', h'', _, _, _, hret', -, -, hlast, -⟩
  have hbounds := ht.bounds hb
  obtain ⟨fuel, h', l₁, fs, l₂, hret, rfl, -, hl₂, hbad, -⟩ := ht.free_spec hb hu
  have hnil : l₂ = [] := by
    cases l₂ with
    | nil => rfl
    | cons u l₃ =>
      have hlt : b < u := by
        have := ht.order.2 u (by simp)
        omega
      exact absurd (hend u (by simp) hlt) (hl₂ u (by simp))
  rw [ht.free_eq hb hu] at hret hret'
  cases Outcome.loop_unique hret hret'
  rw [hbad ⟨hnil, hg⟩] at hlast
  omega

/-- Exactly when the heap survives a free: unless every block after `b` is free
and the bytes at `lastBlock` look like the header of a free block. -/
theorem survivesFree_iff (ht : Tiled h l) (hb : b ∈ l) (hu : blockState h.mem b = blockUsed) :
    SurvivesFree h l b ↔
      ¬ ((∀ f ∈ l, b < f → blockState h.mem f = blockFree) ∧
        blockSize h.mem h.lastBlock ≠ 0 ∧ blockState h.mem h.lastBlock = blockFree) :=
  ⟨fun hs hbad => ht.not_survivesFree hb hu hbad.1 hbad.2 hs, ht.survivesFree hb hu⟩

/-! ## A heap that ends in its own page table

With `lastBlock` at `0x13FF000`, entry 1023 of the page table, the bytes there
are the first entry of that table. -/

/-- One used block, and the word `entry` behind it. -/
def oneUsedBlock (entry : ℕ) : Heap where
  mem := (Bytes.store32 (fun _ => 0) 0x1000000 (0x3FF000 + 2 ^ 31)).store32 0x13FF000 entry
  baseBlock := 0x1000000
  lastBlock := 0x13FF000
  mmu := .uniform
  gPmm := ⟨fun _ => 1⟩

theorem oneUsedBlock_header (entry : ℕ) :
    blockSize (oneUsedBlock entry).mem 0x1000000 = 0x3FF000 ∧
    blockState (oneUsedBlock entry).mem 0x1000000 = blockUsed := by
  have hword : (oneUsedBlock entry).mem.load32 0x1000000 = 0x3FF000 + 2 ^ 31 := by
    rw [oneUsedBlock, Bytes.load32_store32_of_disjoint (by decide), Bytes.load32_store32,
      Nat.mod_eq_of_lt (by omega)]
  rw [blockSize, blockState, hword]
  decide

theorem oneUsedBlock_tiled (entry : ℕ) : (oneUsedBlock entry).Tiled [0x1000000] := by
  obtain ⟨hsize, -⟩ := oneUsedBlock_header entry
  constructor
  · rw [Tiles.cons_iff, Tiles.nil_iff, blockEnd, hsize]
    exact ⟨rfl, by decide, rfl⟩
  · intro b hb
    rw [List.mem_singleton.mp hb, hsize]
    decide
  · rfl
  · show (0x13FF000 : ℕ) ≤ kernelInfo.vHeapLimit.toNat
    decide

theorem oneUsedBlock_end {entry : ℕ} (h : entry < 2 ^ 31) :
    blockSize (oneUsedBlock entry).mem 0x13FF000 = entry ∧
    blockState (oneUsedBlock entry).mem 0x13FF000 = blockFree := by
  have hword : (oneUsedBlock entry).mem.load32 0x13FF000 = entry := by
    rw [oneUsedBlock, Bytes.load32_store32, Nat.mod_eq_of_lt (by omega)]
  rw [blockSize, blockState, hword]
  exact ⟨Nat.mod_eq_of_lt h, Nat.div_eq_of_lt h⟩

theorem survivesFree_zero_entry : SurvivesFree (oneUsedBlock 0) [0x1000000] 0x1000000 := by
  have hu := (oneUsedBlock_header 0).2
  refine (survivesFree_iff (oneUsedBlock_tiled 0) (by simp) hu).mpr ?_
  exact fun hbad => hbad.2.1 (oneUsedBlock_end (by decide)).1

/-- The block is freed and merged with the page table behind the heap. -/
theorem not_survivesFree_page_table_entry :
    (oneUsedBlock 0x901003).Tiled [0x1000000] ∧
    blockState (oneUsedBlock 0x901003).mem 0x1000000 = blockUsed ∧
    ¬ SurvivesFree (oneUsedBlock 0x901003) [0x1000000] 0x1000000 := by
  obtain ⟨hsize, hfree⟩ : blockSize (oneUsedBlock 0x901003).mem 0x13FF000 = 0x901003 ∧
      blockState (oneUsedBlock 0x901003).mem 0x13FF000 = blockFree := oneUsedBlock_end (by decide)
  have ht := oneUsedBlock_tiled 0x901003
  have hu := (oneUsedBlock_header 0x901003).2
  have hg : GarbageBlock (oneUsedBlock 0x901003) := by
    refine ⟨?_, hfree⟩
    show blockSize (oneUsedBlock 0x901003).mem 0x13FF000 ≠ 0
    rw [hsize]
    decide
  refine ⟨ht, hu, ht.not_survivesFree (by simp) hu (fun f hf hlt => ?_) hg⟩
  rw [List.mem_singleton.mp hf] at hlt
  exact absurd hlt (Nat.lt_irrefl _)

end Heap

end LtMicros
