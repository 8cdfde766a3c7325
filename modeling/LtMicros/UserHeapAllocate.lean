import LtMicros.UserHeapBlocks

/-!
# `HeapAlloc` of a user program

The search of `_Allocate`, the region that `_Sbrk` adds when it finds nothing, and what
`HeapAlloc` answers.
-/

namespace LtMicros

open Lib

namespace UserHeap

variable {h h' : UserHeap} {m m' : Bytes} {b u n size start fuel : ℕ} {l l' l₁ l₂ : List ℕ}

/-! ## The search -/

/-- What the search of `_Allocate` ends with: nothing, or a block that may be marked. -/
def Found (h : UserHeap) (l : List ℕ) (size : ℕ) : Option ℕ × UserHeap → Prop
  | (none, h') => h' = h
  | (some b, h') => h' = { h with mem := h'.mem } ∧
      ∃ l', Serves h (setBlockState h'.mem b blockUsed) l l' size b

theorem Blocks.allocateTurn_skip (hb : Blocks h l) (hmem : b ∈ l) (hle : b ≤ h.lastBlock)
    (hskip : blockState h.mem b = blockUsed ∨ blockSize h.mem b < size) :
    h.allocateTurn size b = .ret (.inl (blockEnd h.mem b)) := by
  simp only [allocateTurn_def, if_pos hle, if_pos hskip, hb.nextBlock hmem]

theorem Blocks.allocateTurn_fits (hb : Blocks h l) (hmem : b ∈ l) (hle : b ≤ h.lastBlock)
    (h8 : 8 ≤ size) (haligned : size % 4 = 0)
    (hfits : ¬(blockState h.mem b = blockUsed ∨ blockSize h.mem b < size)) :
    ∃ h', h.allocateTurn size b = .ret (.inr (some b, h')) ∧ Found h l size (some b, h') := by
  obtain ⟨hstate, hfit⟩ := not_or.mp hfits
  have hfit : size ≤ blockSize h.mem b := Nat.le_of_not_lt hfit
  have hfree : blockState h.mem b = blockFree := by
    have hlt := blockState_lt h.mem b
    unfold blockUsed at hstate
    unfold blockFree
    omega
  have hsub : sub32 (blockSize h.mem b) size = blockSize h.mem b - size :=
    sub32_of_le (by have := blockSize_lt h.mem b; omega) hfit
  simp only [allocateTurn_def, if_pos hle, if_neg hfits, hsub]
  by_cases hrest : blockHeaderSize + minimalBlockSize ≤ blockSize h.mem b - size
  · rw [if_pos hrest]
    obtain ⟨l₁, l₂, rfl⟩ := List.append_of_mem hmem
    have hrest : 4 + 4 ≤ blockSize h.mem b - size := hrest
    exact ⟨_, rfl, rfl, _, hb.split hfree h8 haligned (by omega)⟩
  · rw [if_neg hrest]
    exact ⟨_, rfl, rfl, _, hb.take hmem hfree hfit⟩

/-- The search from any block on. -/
theorem Blocks.search (hb : Blocks h l) (hstart : start ∈ l) (h8 : 8 ≤ size)
    (haligned : size % 4 = 0) (hfuel : h.brk < fuel) :
    ∃ r, Outcome.loop (h.allocateTurn size) fuel start = .ret r ∧ Found h l size r := by
  refine Outcome.loop_terminates (I := fun b => b ∈ l ∨ h.lastBlock < b) (fun b => h.brk - b) ?_
    (.inl hstart) (by omega)
  intro b hinv
  by_cases hle : b ≤ h.lastBlock
  · have hmem : b ∈ l := hinv.resolve_right (Nat.not_lt.mpr hle)
    have hbounds := hb.bounds hmem
    by_cases hskip : blockState h.mem b = blockUsed ∨ blockSize h.mem b < size
    · refine .inr ⟨_, hb.allocateTurn_skip hmem hle hskip, ?_, by omega⟩
      rcases hb.tiles.next hmem with ⟨c, hc, hnext⟩ | hlast
      · have hnext : c = blockEnd h.mem b := hnext
        exact .inl (hnext ▸ hc)
      · -- behind the last block the search is over
        have hend := hb.bounds hb.last
        right
        omega
    · obtain ⟨h', hturn, hfound⟩ := hb.allocateTurn_fits hmem hle h8 haligned hskip
      exact .inl ⟨_, hturn, hfound⟩
  · exact .inl ⟨(none, h), by simp only [allocateTurn_def, if_neg hle], rfl⟩

/-! ## `_Sbrk` -/

/-- The heap after `_Sbrk` has added a region of one free block. -/
structure Grows (h h' : UserHeap) (n : ℕ) : Prop where
  base : h'.baseBlock = h.baseBlock
  last : h'.lastBlock = h.brk
  brk : h'.brk = h.brk + n * pageSize
  size : blockSize h'.mem h.brk = n * pageSize
  free : blockState h'.mem h.brk = blockFree
  cleared : Cleared h'.mem (h.brk + 4) (h.brk + n * pageSize)
  below : ∀ x < h.brk, h'.mem x = h.mem x

theorem sysSbrk_of_le (hroom : h.brk + n * pageSize ≤ vProcessLimitAddr.toNat) :
    h.sysSbrk n = (some h.brk, { h with brk := h.brk + n * pageSize }) := if_pos hroom

/-- Behind the end of the user space there is no region. -/
theorem sbrk_no_room (hn : 0 < n) (hroom : vProcessLimitAddr.toNat < h.brk + n * pageSize) :
    h.sbrk n = .fault := by
  have hpos : ¬(n : ℤ) ≤ 0 := by omega
  have hnull : h.sysSbrk n = (none, h) := if_neg (Nat.not_le.mpr hroom)
  simp only [sbrk_def, if_neg hpos, Int.toNat_natCast, hnull]

/-- What `_Sbrk` writes: a header with as much of the size as it holds, and zeros up to
there. -/
theorem sbrk_room (hn : 0 < n) (hroom : h.brk + n * pageSize ≤ vProcessLimitAddr.toNat) :
    (n * pageSize % 2 ^ 31 = 0 ∧ h.sbrk n = .fault) ∨
      ∃ m', h.sbrk n = .ret (some h.brk, { h with
          mem := m', lastBlock := h.brk, brk := h.brk + n * pageSize }) ∧
        blockSize m' h.brk = n * pageSize % 2 ^ 31 ∧ 4096 ≤ blockSize m' h.brk ∧
        blockState m' h.brk = blockFree ∧
        Cleared m' (h.brk + 4) (h.brk + n * pageSize % 2 ^ 31) ∧
        ∀ x < h.brk, m' x = h.mem x := by
  have hpos : ¬(n : ℤ) ≤ 0 := by omega
  have hlimit := vProcessLimitAddr_lt
  simp only [sbrk_def, if_neg hpos, Int.toNat_natCast, sysSbrk_of_le hroom]
  have hpage : pageSize = 4096 := rfl
  rw [hpage] at hroom ⊢
  generalize hm₁ : setBlockSize h.mem h.brk (n * 4096) = m₁
  generalize hm₂ : setBlockState m₁ h.brk blockFree = m₂
  have hsize₂ : blockSize m₂ h.brk = n * 4096 % 2 ^ 31 := by
    rw [← hm₂, blockSize_setBlockState, ← hm₁, blockSize_setBlockSize]
  have hstate₂ : blockState m₂ h.brk = blockFree := by
    rw [← hm₂, blockState_setBlockState]
    rfl
  by_cases hzero : n * 4096 % 2 ^ 31 = 0
  · left
    have hall : 2 ^ 32 - 4 ≤ sub32 (blockSize m₂ h.brk) blockHeaderSize := by
      rw [hsize₂, hzero]
      decide
    generalize sub32 (blockSize m₂ h.brk) blockHeaderSize = size at hall ⊢
    have hout : vProcessLimitAddr.toNat < h.brk + blockHeaderSize + size := by
      unfold blockHeaderSize
      omega
    refine ⟨hzero, ?_⟩
    rw [memSet_of_lt hout, Outcome.fault_bind]
  · right
    have hrest : sub32 (blockSize m₂ h.brk) blockHeaderSize = n * 4096 % 2 ^ 31 - 4 := by
      rw [hsize₂]
      exact sub32_of_le (by omega) (by unfold blockHeaderSize; omega)
    have hfits : h.brk + blockHeaderSize + (n * 4096 % 2 ^ 31 - 4) ≤ vProcessLimitAddr.toNat := by
      unfold blockHeaderSize
      omega
    rw [hrest, memSet_of_le hfits, Outcome.ret_bind]
    generalize hm₃ : m₂.fill (h.brk + blockHeaderSize) 0 (n * 4096 % 2 ^ 31 - 4) = m₃
    have hheader : blockSize m₃ h.brk = blockSize m₂ h.brk ∧
        blockState m₃ h.brk = blockState m₂ h.brk := by
      refine header_congr fun x _ hx => ?_
      rw [← hm₃, Bytes.fill_of_not_mem (.inl hx)]
    refine ⟨m₃, rfl, hheader.1.trans hsize₂, ?_, hheader.2.trans hstate₂, ?_, ?_⟩
    · rw [hheader.1, hsize₂]
      omega
    · intro x hx hlt
      rw [← hm₃, Bytes.fill_apply, if_pos (by unfold blockHeaderSize; omega)]
    · intro x hx
      rw [← hm₃, Bytes.fill_of_not_mem (.inl (Nat.lt_add_right _ hx)), ← hm₂,
        setBlockState_of_not_mem (.inl hx), ← hm₁, setBlockSize_of_not_mem (.inl hx)]

theorem sbrk_grows (hn : 0 < n) (hsmall : n * pageSize < 2 ^ 31)
    (hroom : h.brk + n * pageSize ≤ vProcessLimitAddr.toNat) :
    ∃ h', h.sbrk n = .ret (some h.brk, h') ∧ Grows h h' n := by
  have hmod : n * pageSize % 2 ^ 31 = n * pageSize := Nat.mod_eq_of_lt hsmall
  rcases sbrk_room hn hroom with ⟨hzero, -⟩ | ⟨m', hret, hsize, -, hfree, hcleared, hbelow⟩
  · have hpage : pageSize = 4096 := rfl
    rw [hmod, hpage] at hzero
    omega
  · rw [hmod] at hsize hcleared
    exact ⟨_, hret, rfl, rfl, rfl, hsize, hfree, hcleared, hbelow⟩

/-- The new region is one more block. -/
theorem Blocks.grow (hb : Blocks h l) (hn : 0 < n) (hg : Grows h h' n)
    (hroom : h.brk + n * pageSize ≤ vProcessLimitAddr.toNat) : Blocks h' (l ++ [h.brk]) := by
  have hpage : pageSize = 4096 := rfl
  have hend : blockEnd h'.mem h.brk = h.brk + n * pageSize := by rw [blockEnd, hg.size]
  have hbytes : ∀ u ∈ l, ∀ x, u ≤ x → x < blockEnd h.mem u → h'.mem x = h.mem x := by
    intro u hu x _ hx
    have hbounds := hb.bounds hu
    exact hg.below x (by omega)
  have hends : ∀ u ∈ l, blockEnd h.mem u = blockEnd h'.mem u := by
    intro u hu
    have h8 := (hb.good u hu).size
    rw [blockEnd, blockEnd, (header_of_bytes (by omega) (hbytes u hu)).1]
  constructor
  · rw [hg.base, hg.brk]
    refine Tiles.append_iff.mpr ⟨h.brk, ?_, rfl, ?_, hend⟩
    · exact (Tiles.congr (fun _ _ => rfl) hends).mp hb.tiles
    · show h.brk < blockEnd h'.mem h.brk
      rw [hend, hpage]
      omega
  · intro u hu
    rw [List.mem_append, List.mem_singleton] at hu
    rcases hu with hu | rfl
    · exact (hb.good u hu).congr (hbytes u hu)
    · refine ⟨?_, ?_, fun _ => by rw [hend]; exact hg.cleared⟩ <;> rw [hg.size, hpage] <;> omega
  · rw [hg.last]
    simp
  · rw [hg.base]
    exact hb.base
  · rw [hg.base]
    exact hb.page
  · have hbrk := hb.brk
    rw [hg.brk, hpage] at *
    omega
  · rw [hg.brk]
    exact hroom

/-! ## `_Allocate` -/

/-- A cleared block of at least `size` bytes has been put in use. -/
structure Allocated (base : ℕ) (h h' : UserHeap) (l l' : List ℕ) (size b : ℕ) : Prop where
  blocks : Blocks h' l'
  inUse : ∀ u, InUse h'.mem l' u ↔ u = b ∨ InUse h.mem l u
  wasFree : ¬InUse h.mem l b
  size : size ≤ blockSize h'.mem b
  cleared : Cleared h'.mem (b + 4) (blockEnd h'.mem b)
  bytes : ∀ u, InUse h.mem l u → ∀ x, u ≤ x → x < blockEnd h.mem u → h'.mem x = h.mem x
  base : h'.baseBlock = base

theorem Serves.allocated (hs : Serves h m' l l' size b) :
    Allocated h.baseBlock h { h with mem := m' } l l' size b := by
  refine ⟨hs.rewrites.blocks, ?_, hs.wasFree, hs.size, hs.cleared, ?_, rfl⟩
  · intro u
    by_cases hu : u = b
    · subst hu
      exact ⟨fun _ => .inl rfl, fun _ => ⟨hs.rewrites.mem, hs.used⟩⟩
    · rw [hs.rewrites.inUse u hu]
      exact ⟨.inr, fun h => h.resolve_left hu⟩
  · intro u hu
    have hne : u ≠ b := fun heq => hs.wasFree (heq ▸ hu)
    exact hs.rewrites.bytes u hu.1 hne

theorem Grows.bytes (hb : Blocks h l) (hg : Grows h h' n) (hu : u ∈ l) :
    ∀ x, u ≤ x → x < blockEnd h.mem u → h'.mem x = h.mem x := by
  intro x _ hx
  have hbounds := hb.bounds hu
  exact hg.below x (by omega)

/-- The new region is free. -/
theorem Grows.inUse (hb : Blocks h l) (hg : Grows h h' n) :
    InUse h'.mem (l ++ [h.brk]) u ↔ InUse h.mem l u := by
  have hkeep : ∀ u ∈ l, blockState h'.mem u = blockState h.mem u := by
    intro u hu
    have h8 := (hb.good u hu).size
    exact (header_of_bytes (by omega) (hg.bytes hb hu)).2
  constructor
  · rintro ⟨hu, hused⟩
    rw [List.mem_append, List.mem_singleton] at hu
    rcases hu with hu | rfl
    · exact ⟨hu, hkeep u hu ▸ hused⟩
    · rw [hg.free] at hused
      cases hused
  · rintro ⟨hu, hused⟩
    exact ⟨by simp [hu], by rw [hkeep u hu]; exact hused⟩

/-- What is put in use after a new region was added. -/
theorem Grows.allocated {h₂ : UserHeap} (hb : Blocks h l) (hg : Grows h h' n)
    (ha : Allocated h'.baseBlock h' h₂ (l ++ [h.brk]) l' size b) :
    Allocated h.baseBlock h h₂ l l' size b := by
  refine ⟨ha.blocks, ?_, ?_, ha.size, ha.cleared, ?_, ha.base.trans hg.base⟩
  · intro u
    rw [ha.inUse u, hg.inUse hb]
  · rw [← hg.inUse hb]
    exact ha.wasFree
  · intro u hu x hx hlt
    have hbytes := hg.bytes hb hu.1
    have h8 := (hb.good u hu.1).size
    have hend : blockEnd h'.mem u = blockEnd h.mem u := by
      rw [blockEnd, blockEnd, (header_of_bytes (by omega) hbytes).1]
    rw [ha.bytes u ((hg.inUse hb).mpr hu) x hx (by rw [hend]; exact hlt), hbytes x hx hlt]

theorem setBlockState_self {state : ℕ} (h : blockState m b = state) :
    setBlockState m b state = m := by
  have hlt := blockState_lt m b
  have hword : blockSize m b + 2 ^ 31 * (state % 2) = m.load32 b := by
    rw [← h]
    unfold blockSize blockState
    have hload := m.load32_lt b
    omega
  rw [setBlockState, hword, Bytes.store32_load32]

/-- The search of `_Allocate` in a region that has just been added, where the first block
is free and large enough. -/
theorem Blocks.allocateFrom_last (hb : Blocks h l) (h8 : 8 ≤ size) (haligned : size % 4 = 0)
    (hfree : blockState h.mem h.lastBlock = blockFree)
    (hfit : size ≤ blockSize h.mem h.lastBlock) (fuel depth : ℕ) :
    ∃ h' l', allocateFrom (fuel + 1) (depth + 1) h h.lastBlock size =
        .ret (h.lastBlock + blockHeaderSize, h') ∧ Allocated h.baseBlock h h' l l' size h.lastBlock ∧
      blockState h'.mem h.lastBlock = blockUsed ∧ h'.brk = h.brk := by
  have hne : ¬(blockState h.mem h.lastBlock = blockUsed ∨
      blockSize h.mem h.lastBlock < size) := by
    rw [hfree, not_or]
    exact ⟨by decide, Nat.not_lt.mpr hfit⟩
  obtain ⟨h₁, hturn, heq, l', hs⟩ :=
    hb.allocateTurn_fits hb.last (Nat.le_refl _) h8 haligned hne
  refine ⟨{ h with mem := setBlockState h₁.mem h.lastBlock blockUsed }, l', ?_, hs.allocated,
    hs.used, rfl⟩
  rw [allocateFrom_succ, Outcome.loop_leave hturn, Outcome.ret_bind]
  dsimp only
  rw [heq]
  rfl

theorem pagesNeeded_eq (hpos : 0 < size) (hmax : size ≤ 2 ^ 31 + 4) :
    pagesNeeded size = (Heap.pageCount size : ℤ) := Heap.pagesNeeded_eq hpos (by omega)

/-- The pages are enough for the block. -/
theorem pageCount_spec (hpos : 0 < size) :
    0 < Heap.pageCount size ∧ size ≤ Heap.pageCount size * pageSize := by
  have hpage : pageSize = 4096 := rfl
  have hdefault : defaultBlockSize = 4092 := rfl
  rw [Heap.pageCount, hpage, hdefault]
  omega

/-- A region that does not fit into 31 bits of size has no block that is large enough, and
leaves no room for another one. -/
theorem sbrk_huge {block : Option ℕ} {h₁ : UserHeap}
    (hhuge : 2 ^ 31 ≤ Heap.pageCount size * pageSize) (hmax : size ≤ 2 ^ 31 + 4)
    (hsbrk : h.sbrk (Heap.pageCount size) = .ret (block, h₁)) :
    Outcome.loop (h₁.allocateTurn size) 2 h.brk = .ret (none, h₁) ∧
      h₁.sbrk (pagesNeeded size) = .fault := by
  have hlimit := vProcessLimitAddr_lt
  have hpage : pageSize = 4096 := rfl
  have hcount : Heap.pageCount size = (size + 4091) / 4092 := rfl
  have hn : 0 < Heap.pageCount size := by
    rw [hpage] at hhuge
    omega
  rcases Nat.lt_or_ge vProcessLimitAddr.toNat (h.brk + Heap.pageCount size * pageSize) with
    hroom | hroom
  · rw [sbrk_no_room hn hroom] at hsbrk
    cases hsbrk
  rcases sbrk_room hn hroom with ⟨-, hfault⟩ | ⟨m', hgrown, hsize, hlow, -⟩
  · rw [hfault] at hsbrk
    cases hsbrk
  rw [hgrown] at hsbrk
  have hmem : h₁.mem = m' := by cases hsbrk; rfl
  have hlast : h₁.lastBlock = h.brk := by cases hsbrk; rfl
  have hbrk : h₁.brk = h.brk + Heap.pageCount size * pageSize := by cases hsbrk; rfl
  have hshort : blockSize m' h.brk < size := by
    rw [hsize, hpage]
    rw [hpage] at hhuge
    omega
  -- one turn skips the block, the next one is behind the last block
  have hskip : h₁.allocateTurn size h.brk = .ret (.inl (h.brk + blockSize m' h.brk)) := by
    have hsum : add32 h.brk (blockSize m' h.brk) = h.brk + blockSize m' h.brk :=
      add32_of_lt (by rw [hsize]; omega)
    simp only [allocateTurn_def, hmem, hlast, Nat.le_refl, if_true, if_pos (Or.inr hshort), hsum]
  have hstop : h₁.allocateTurn size (h.brk + blockSize m' h.brk) = .ret (.inr (none, h₁)) := by
    have hbehind : ¬h.brk + blockSize m' h.brk ≤ h.brk := by omega
    simp only [allocateTurn_def, hlast, if_neg hbehind]
  refine ⟨(Outcome.loop_again hskip 1).trans (Outcome.loop_leave hstop 0), ?_⟩
  rw [pagesNeeded_eq (by omega) hmax]
  refine sbrk_no_room hn ?_
  rw [hbrk]
  omega

/-- A block that does not fit into 31 bits of size is asked for again and again, until
there is no region left. -/
theorem allocateFrom_huge {block : Option ℕ} {h₁ h' : UserHeap} {fuel depth p : ℕ}
    (hhuge : 2 ^ 31 ≤ Heap.pageCount size * pageSize) (hmax : size ≤ 2 ^ 31 + 4)
    (hsbrk : h.sbrk (Heap.pageCount size) = .ret (block, h₁)) :
    allocateFrom fuel depth h₁ h.brk size ≠ .ret (p, h') := by
  intro hret
  obtain ⟨htwo, hfull⟩ := sbrk_huge hhuge hmax hsbrk
  rcases depth with _ | depth
  · cases hret
  rw [allocateFrom_succ] at hret
  obtain ⟨⟨r, h₂⟩, hloop, hrest⟩ := Outcome.bind_eq_ret.mp hret
  cases Outcome.loop_unique hloop htwo
  dsimp only at hrest
  rw [hfull] at hrest
  cases hrest

theorem allocateFrom_huge_fault {block : Option ℕ} {h₁ : UserHeap} (hfuel : 2 ≤ fuel)
    (hhuge : 2 ^ 31 ≤ Heap.pageCount size * pageSize) (hmax : size ≤ 2 ^ 31 + 4)
    (hsbrk : h.sbrk (Heap.pageCount size) = .ret (block, h₁)) (depth : ℕ) :
    allocateFrom fuel (depth + 1) h₁ h.brk size = .fault := by
  obtain ⟨htwo, hfull⟩ := sbrk_huge hhuge hmax hsbrk
  obtain ⟨k, rfl⟩ := Nat.exists_eq_add_of_le hfuel
  rw [allocateFrom_succ, Outcome.loop_mono htwo k, Outcome.ret_bind]
  dsimp only
  rw [hfull, Outcome.fault_bind]

/-- `_Allocate`, when it returns. -/
theorem Blocks.allocateFrom_ret (hb : Blocks h l) (hstart : start ∈ l) (h8 : 8 ≤ size)
    (haligned : size % 4 = 0) (hmax : size ≤ 2 ^ 31 + 4) {depth p : ℕ}
    (hret : allocateFrom fuel depth h start size = .ret (p, h')) :
    ∃ b l', p = b + blockHeaderSize ∧ Allocated h.baseBlock h h' l l' size b := by
  rcases depth with _ | depth
  · cases hret
  rw [allocateFrom_succ] at hret
  obtain ⟨⟨r, h₁⟩, hloop, hrest⟩ := Outcome.bind_eq_ret.mp hret
  obtain ⟨r', hloop', hfound⟩ := hb.search hstart h8 haligned (Nat.lt_succ_self h.brk)
  obtain rfl := Outcome.loop_unique hloop hloop'
  rcases r with _ | b
  · obtain rfl : h₁ = h := hfound
    dsimp only at hrest
    rw [pagesNeeded_eq (by omega) hmax] at hrest
    obtain ⟨⟨block, h₂⟩, hsbrk, hrest⟩ := Outcome.bind_eq_ret.mp hrest
    obtain ⟨hn, henough⟩ := pageCount_spec (show 0 < size by omega)
    rcases Nat.lt_or_ge vProcessLimitAddr.toNat (h₁.brk + Heap.pageCount size * pageSize) with
      hroom | hroom
    · rw [sbrk_no_room hn hroom] at hsbrk
      cases hsbrk
    rcases Nat.lt_or_ge (Heap.pageCount size * pageSize) (2 ^ 31) with hsmall | hhuge
    · obtain ⟨h₂', hgrown, hg⟩ := sbrk_grows hn hsmall hroom
      rw [hgrown] at hsbrk
      cases hsbrk
      rw [Outcome.ofOption_some, Outcome.ret_bind] at hrest
      obtain ⟨⟨resPtr, h₃⟩, hrec, hrest⟩ := Outcome.bind_eq_ret.mp hrest
      have hb₂ := hb.grow hn hg hroom
      rcases depth with _ | depth
      · cases hrec
      rcases fuel with _ | fuel
      · cases hloop
      obtain ⟨h₃', l', hfound, ha, hused, -⟩ := hb₂.allocateFrom_last h8 haligned
        (by rw [hg.last]; exact hg.free) (by rw [hg.last, hg.size]; exact henough) fuel depth
      rw [hg.last] at hfound ha hused
      rw [hfound] at hrec
      cases hrec
      cases hrest
      refine ⟨h₁.brk, l', rfl, ?_⟩
      rw [setBlockState_self hused]
      exact hg.allocated hb ha
    · have hblock : block = some h₁.brk := by
        rcases sbrk_room hn hroom with ⟨-, hfault⟩ | ⟨m', hgrown, -⟩
        · rw [hfault] at hsbrk
          cases hsbrk
        · rw [hgrown] at hsbrk
          cases hsbrk
          rfl
      rw [hblock] at hrest
      dsimp only at hrest
      rw [Outcome.ofOption_some, Outcome.ret_bind] at hrest
      obtain ⟨⟨resPtr, h₃⟩, hrec, -⟩ := Outcome.bind_eq_ret.mp hrest
      exact absurd hrec (allocateFrom_huge hhuge hmax hsbrk)
  · obtain ⟨heq, l', hs⟩ := hfound
    dsimp only at hrest
    cases hrest
    refine ⟨b, l', rfl, ?_⟩
    have hsame : { h₁ with mem := setBlockState h₁.mem b blockUsed } =
        { h with mem := setBlockState h₁.mem b blockUsed } := by
      rw [heq]
    rw [hsame]
    exact hs.allocated

/-- The region that `_Allocate` may ask for is there, and fits into 31 bits of size. -/
def RoomFor (h : UserHeap) (size : ℕ) : Prop :=
  Heap.pageCount size * pageSize < 2 ^ 31 ∧
    h.brk + Heap.pageCount size * pageSize ≤ vProcessLimitAddr.toNat

/-- `_Allocate` returns, or there is no room for the region that it asks for. -/
theorem Blocks.allocateFrom_cases (hb : Blocks h l) (hstart : start ∈ l) (h8 : 8 ≤ size)
    (haligned : size % 4 = 0) (hmax : size ≤ 2 ^ 31 + 4) (hfuel : h.brk < fuel) (hfuel₂ : 2 ≤ fuel)
    (depth : ℕ) :
    (allocateFrom fuel (depth + 2) h start size = .fault ∧ ¬RoomFor h size) ∨
      ∃ p h', allocateFrom fuel (depth + 2) h start size = .ret (p, h') ∧
        h'.brk ≤ h.brk + Heap.pageCount size * pageSize := by
  obtain ⟨hn, henough⟩ := pageCount_spec (show 0 < size by omega)
  obtain ⟨⟨r, h₁⟩, hloop, hfound⟩ := hb.search hstart h8 haligned hfuel
  rw [allocateFrom_succ, hloop, Outcome.ret_bind]
  rcases r with _ | b
  · obtain rfl : h₁ = h := hfound
    dsimp only
    rw [pagesNeeded_eq (by omega) hmax]
    rcases Nat.lt_or_ge vProcessLimitAddr.toNat (h₁.brk + Heap.pageCount size * pageSize) with
      hroom | hroom
    · refine .inl ⟨?_, fun hr => absurd hr.2 (Nat.not_le.mpr hroom)⟩
      rw [sbrk_no_room hn hroom, Outcome.fault_bind]
    rcases Nat.lt_or_ge (Heap.pageCount size * pageSize) (2 ^ 31) with hsmall | hhuge
    · obtain ⟨h₂, hgrown, hg⟩ := sbrk_grows hn hsmall hroom
      obtain ⟨fuel, rfl⟩ : ∃ n, fuel = n + 1 := ⟨fuel - 1, by omega⟩
      obtain ⟨h₃, l', hlast, -, -, hbrk⟩ := (hb.grow hn hg hroom).allocateFrom_last h8 haligned
        (by rw [hg.last]; exact hg.free) (by rw [hg.last, hg.size]; exact henough) fuel depth
      rw [hg.last] at hlast
      rw [hgrown, Outcome.ret_bind]
      dsimp only
      rw [Outcome.ofOption_some, Outcome.ret_bind, hlast, Outcome.ret_bind]
      exact .inr ⟨_, _, rfl, (hbrk.trans hg.brk).le⟩
    · refine .inl ⟨?_, fun hr => absurd hr.1 (Nat.not_lt.mpr hhuge)⟩
      rcases sbrk_room hn hroom with ⟨-, hfault⟩ | ⟨m', hgrown, -⟩
      · rw [hfault, Outcome.fault_bind]
      · have hrest := allocateFrom_huge_fault hfuel₂ hhuge hmax hgrown depth
        rw [hgrown, Outcome.ret_bind]
        dsimp only
        rw [Outcome.ofOption_some, Outcome.ret_bind, hrest, Outcome.fault_bind]
  · obtain ⟨heq, -⟩ := hfound
    have hbrk : h₁.brk = h.brk := by rw [heq]
    exact .inr ⟨_, _, rfl, by dsimp only; omega⟩

/-! ## `HeapAlloc` -/

/-- A heap whose first region starts, or will start, at `start`. -/
structure Ready (start : ℕ) (h : UserHeap) (l : List ℕ) : Prop where
  pos : 0 < start
  page : start % pageSize = 0
  blocks : (h.baseBlock = 0 ∧ h.brk = start ∧ l = []) ∨ (h.baseBlock = start ∧ Blocks h l)

theorem setBlockSize_self (h : blockSize m b = size) : setBlockSize m b size = m := by
  have hlt := blockSize_lt m b
  have hword : size % 2 ^ 31 + 2 ^ 31 * blockState m b = m.load32 b := by
    rw [← h]
    unfold blockSize blockState
    have hload := m.load32_lt b
    omega
  rw [setBlockSize, hword, Bytes.store32_load32]

/-- The first region is one free block. -/
theorem firstRegion_room (hbase : h.baseBlock = 0) (hpos : 0 < h.brk)
    (haligned : h.brk % pageSize = 0) (hroom : h.brk + pageSize ≤ vProcessLimitAddr.toNat) :
    ∃ h', h.firstRegion = .ret h' ∧ Blocks h' [h.brk] ∧
      blockState h'.mem h.brk = blockFree ∧ h'.baseBlock = h.brk ∧ h'.brk = h.brk + pageSize := by
  have hpage : pageSize = 4096 := rfl
  have hone : 1 * pageSize = pageSize := Nat.one_mul _
  obtain ⟨h₁, hgrown, hg⟩ := sbrk_grows (h := h) Nat.one_pos (by decide) (by rwa [hone])
  have hgrown : h.sbrk 1 = .ret (some h.brk, h₁) := hgrown
  have hsize : blockSize h₁.mem h.brk = pageSize := by rw [hg.size, hone]
  have hend : blockEnd h₁.mem h.brk = h.brk + pageSize := by rw [blockEnd, hsize]
  have hcleared := hg.cleared
  have hbrk := hg.brk
  rw [hone] at hcleared hbrk
  refine ⟨{ h₁ with baseBlock := h.brk, lastBlock := h.brk }, ?_, ?_, hg.free, rfl, hbrk⟩
  · rw [firstRegion_def, if_pos hbase, hgrown, Outcome.ret_bind]
    dsimp only
    rw [Outcome.ofOption_some, Outcome.ret_bind, setBlockSize_self hsize,
      setBlockState_self hg.free]
    rfl
  · refine ⟨⟨rfl, ?_, hend.trans hbrk.symm⟩, ?_, by simp, hpos, haligned, ?_, ?_⟩
    · show h.brk < blockEnd h₁.mem h.brk
      rw [hend, hpage]
      omega
    · intro b hb
      obtain rfl := List.mem_singleton.mp hb
      have hlarge : 8 ≤ blockSize h₁.mem h.brk ∧ blockSize h₁.mem h.brk % 4 = 0 := by
        rw [hsize, hpage]
        decide
      exact ⟨hlarge.1, hlarge.2, fun _ => by dsimp only; rw [hend]; exact hcleared⟩
    · rw [hpage] at haligned
      dsimp only
      rw [hbrk, hpage]
      omega
    · dsimp only
      rw [hbrk]
      exact hroom

/-- Where `firstRegion` returns, there was room. -/
theorem firstRegion_ret (hbase : h.baseBlock = 0) (hpos : 0 < h.brk)
    (haligned : h.brk % pageSize = 0) (hret : h.firstRegion = .ret h') :
    Blocks h' [h.brk] ∧ blockState h'.mem h.brk = blockFree ∧ h'.baseBlock = h.brk := by
  have hone : 1 * pageSize = pageSize := Nat.one_mul _
  rcases Nat.lt_or_ge vProcessLimitAddr.toNat (h.brk + pageSize) with hroom | hroom
  · have hfault : h.sbrk 1 = .fault := sbrk_no_room Nat.one_pos (by rwa [hone])
    rw [firstRegion_def, if_pos hbase, hfault, Outcome.fault_bind] at hret
    cases hret
  · obtain ⟨h₁, heq, hb, hfree, hbase₁, -⟩ := firstRegion_room hbase hpos haligned hroom
    rw [heq] at hret
    cases hret
    exact ⟨hb, hfree, hbase₁⟩

/-- `HeapAlloc` of a positive size, when it returns. -/
theorem Ready.heapAlloc_ret {res : Option ℕ} {size : ℤ} (hr : Ready start h l) (hpos : 0 < size)
    (hmax : size < 2 ^ 31) (hret : h.heapAlloc fuel size = .ret (res, h')) :
    ∃ b l', res = some (b + blockHeaderSize) ∧
      Allocated start h h' l l' (roundUp 4 (size.toNat + blockHeaderSize)) b := by
  have hheader : blockHeaderSize = 4 := rfl
  rw [heapAlloc_def, if_neg (by omega)] at hret
  obtain ⟨h₁, hfirst, hret⟩ := Outcome.bind_eq_ret.mp hret
  obtain ⟨need, hneed, hret⟩ := Outcome.bind_eq_ret.mp hret
  obtain ⟨⟨p, h₂⟩, hfrom, hret⟩ := Outcome.bind_eq_ret.mp hret
  cases hret
  obtain rfl := closestPow_ret (by omega) (by omega) hneed
  have hle := le_roundUp (m := 4) (by decide) (size.toNat + blockHeaderSize)
  have hlt := roundUp_lt (m := 4) (by decide) (size.toNat + blockHeaderSize)
  have hmod : roundUp 4 (size.toNat + blockHeaderSize) % 4 = 0 := by
    simp [roundUp]
  generalize roundUp 4 (size.toNat + blockHeaderSize) = need at hfrom hle hlt hmod ⊢
  rcases hr.blocks with ⟨hbase, hbrk, rfl⟩ | ⟨hbase, hb⟩
  · subst hbrk
    obtain ⟨hb, hfree, hbase₁⟩ := firstRegion_ret hbase hr.pos hr.page hfirst
    rw [hbase₁] at hfrom
    obtain ⟨b, l', rfl, ha⟩ := hb.allocateFrom_ret (by simp) (by omega) hmod (by omega) hfrom
    have hnone : ∀ u, ¬InUse h₁.mem [h.brk] u := by
      rintro u ⟨hu, hused⟩
      rw [List.mem_singleton.mp hu, hfree] at hused
      cases hused
    refine ⟨b, l', rfl, ha.blocks, ?_, ?_, ha.size, ha.cleared, ?_, ha.base.trans hbase₁⟩
    · intro u
      have hempty : ¬InUse h.mem [] u := by simp [InUse]
      rw [ha.inUse u, or_iff_left (hnone u), or_iff_left hempty]
    · simp [InUse]
    · rintro u ⟨hu, -⟩
      cases hu
  · have hne : ¬h.baseBlock = 0 := by
      rw [hbase]
      exact Nat.ne_of_gt hr.pos
    rw [firstRegion_def, if_neg hne] at hfirst
    cases hfirst
    obtain ⟨b, l', rfl, ha⟩ :=
      hb.allocateFrom_ret hb.base_mem (by omega) hmod (by omega) hfrom
    rw [hbase] at ha
    exact ⟨b, l', rfl, ha⟩

/-- The bytes that `HeapAlloc` may ask of `_sysSbrk` for a block: the first region, and the
one that `_Allocate` asks for. -/
def growth (size : ℕ) : ℕ :=
  pageSize + Heap.pageCount (roundUp 4 (size + blockHeaderSize)) * pageSize

theorem growth_mono {size' : ℕ} (h : size ≤ size') : growth size ≤ growth size' := by
  unfold growth Heap.pageCount roundUp
  gcongr

/-- `HeapAlloc` of a positive size returns, or the user space has no room for what it may
ask for. It comes to an end in any case. -/
theorem Ready.heapAlloc_cases {size : ℤ} (hr : Ready start h l) (hsize : 0 < size)
    (hmax : size < 2 ^ 31) (hfuel : 2 ^ 32 ≤ fuel) :
    (h.heapAlloc fuel size = .fault ∧ ¬(growth size.toNat < 2 ^ 31 ∧
        h.brk + growth size.toNat ≤ vProcessLimitAddr.toNat)) ∨
      ∃ p h', h.heapAlloc fuel size = .ret (some p, h') ∧ h'.brk ≤ h.brk + growth size.toNat := by
  have hheader : blockHeaderSize = 4 := rfl
  have hpage : pageSize = 4096 := rfl
  have hle := le_roundUp (m := 4) (by decide) (size.toNat + blockHeaderSize)
  have hlt := roundUp_lt (m := 4) (by decide) (size.toNat + blockHeaderSize)
  have hmod : roundUp 4 (size.toNat + blockHeaderSize) % 4 = 0 := by
    simp [roundUp]
  rw [growth]
  generalize hneed : roundUp 4 (size.toNat + blockHeaderSize) = need at hle hlt hmod ⊢
  obtain ⟨k, rfl⟩ := Nat.exists_eq_add_of_le hfuel
  have hfirst : (h.firstRegion = .fault ∧ vProcessLimitAddr.toNat < h.brk + pageSize) ∨
      ∃ h₁ l₁, h.firstRegion = .ret h₁ ∧ Blocks h₁ l₁ ∧ h₁.brk ≤ h.brk + pageSize := by
    rcases hr.blocks with ⟨hbase, hbrk, rfl⟩ | ⟨hbase, hb⟩
    · subst hbrk
      rcases Nat.lt_or_ge vProcessLimitAddr.toNat (h.brk + pageSize) with hroom | hroom
      · have hone : 1 * pageSize = pageSize := Nat.one_mul _
        have hfault : h.sbrk 1 = .fault := sbrk_no_room Nat.one_pos (by rwa [hone])
        exact .inl ⟨by rw [firstRegion_def, if_pos hbase, hfault, Outcome.fault_bind], hroom⟩
      · obtain ⟨h₁, hret, hb, -, -, hbrk⟩ := firstRegion_room hbase hr.pos hr.page hroom
        exact .inr ⟨h₁, _, hret, hb, Nat.le_of_eq hbrk⟩
    · have hne : ¬h.baseBlock = 0 := by
        rw [hbase]
        exact Nat.ne_of_gt hr.pos
      exact .inr ⟨h, l, by rw [firstRegion_def, if_neg hne], hb, Nat.le_add_right _ _⟩
  rw [heapAlloc_def, if_neg (by omega)]
  rcases hfirst with ⟨hfault, hroom⟩ | ⟨h₁, l₁, hret, hb, hbrk⟩
  · refine .inl ⟨by rw [hfault, Outcome.fault_bind], fun hroom' => ?_⟩
    omega
  · have hclosest := closestPow_eq (x := size.toNat + blockHeaderSize) (by omega) (by omega)
      (2 ^ 32 + k - 4)
    rw [show 2 ^ 32 + k - 4 + 4 = 2 ^ 32 + k by omega, hneed] at hclosest
    rw [hret, Outcome.ret_bind, hclosest, Outcome.ret_bind]
    have hlt₁ := hb.brk_lt
    have hcases := hb.allocateFrom_cases hb.base_mem (show 8 ≤ need by omega) hmod (by omega)
      (show h₁.brk < 2 ^ 32 + k by omega) (by omega) (2 ^ 32 + k - 2)
    rw [show 2 ^ 32 + k - 2 + 2 = 2 ^ 32 + k by omega] at hcases
    rcases hcases with ⟨hfault, hroom⟩ | ⟨p, h', hfrom, hbrk'⟩
    · refine .inl ⟨by rw [hfault, Outcome.fault_bind], fun hroom' => hroom ⟨by omega, by omega⟩⟩
    · rw [hfrom]
      exact .inr ⟨_, _, rfl, by omega⟩

end UserHeap

end LtMicros
