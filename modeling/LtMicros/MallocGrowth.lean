import LtMicros.Malloc

/-!
# When the user heap grows

`_Allocate` should ask for pages only when no free block is large enough. But `g_lastBlock`, where
its search stops, is the first block of the last region, and so the blocks that were split off
behind it are not seen.
-/

namespace LtMicros

open Lib

namespace UserHeap

/-- `b` is a block of the heap. -/
def IsBlock (h : UserHeap) (b : ℕ) : Prop := ∃ l, Blocks h l ∧ b ∈ l

/-- `b` is a free block with room for `need` bytes. -/
def HasFree (h : UserHeap) (need b : ℕ) : Prop := h.IsBlock b ∧ Heap.Fits h.mem need b = true

/-- The search of `_Allocate` gets as far as the block. -/
def Sees (h : UserHeap) (need b : ℕ) : Prop := h.HasFree need b ∧ b ≤ h.lastBlock

variable {h h' : UserHeap} {b u need fuel start : ℕ} {l l' : List ℕ}

/-- The blocks are determined by the headers. -/
theorem Blocks.unique (hb : Blocks h l) (hb' : Blocks h l') : l = l' :=
  hb.tiles.unique Function.injective_id hb'.tiles

theorem Blocks.isBlock_iff (hb : Blocks h l) : h.IsBlock b ↔ b ∈ l := by
  constructor
  · rintro ⟨l', hb', hmem⟩
    exact hb.unique hb' ▸ hmem
  · exact fun hmem => ⟨l, hb, hmem⟩

/-- A heap without a first region has no blocks. -/
theorem not_isBlock (hbase : h.baseBlock = 0) : ¬h.IsBlock b := by
  rintro ⟨l, hb, -⟩
  exact absurd hbase (Nat.ne_of_gt hb.base)

/-- The first block that the search sees, if any. -/
def Lowest (P : ℕ → Prop) : Option ℕ → Prop
  | none => ∀ b, ¬P b
  | some b => IsLeast {b | P b} b

/-- The search from the base on finds the lowest block that it sees. -/
theorem Blocks.search_lowest (hb : Blocks h l) (h8 : 8 ≤ need) (haligned : need % 4 = 0)
    (hfuel : h.brk < fuel) :
    ∃ r, Outcome.loop (h.allocateTurn need) fuel h.baseBlock = .ret r ∧
      Lowest (h.Sees need) r.1 ∧ Found h l need r := by
  -- no block that the search has passed fits
  refine Outcome.loop_terminates
    (I := fun b => (b ∈ l ∨ h.lastBlock < b) ∧ ∀ u, h.Sees need u → b ≤ u) (fun b => h.brk - b) ?_
    ⟨.inl hb.base_mem, fun u hu => (hb.bounds (hb.isBlock_iff.mp hu.1.1)).1⟩ (by omega)
  rintro b ⟨hmem, hpassed⟩
  by_cases hle : b ≤ h.lastBlock
  · have hmem : b ∈ l := hmem.resolve_right (Nat.not_lt.mpr hle)
    have hbounds := hb.bounds hmem
    by_cases hskip : blockState h.mem b = blockUsed ∨ blockSize h.mem b < need
    · right
      refine ⟨_, hb.allocateTurn_skip hmem hle hskip, ⟨?_, fun u hu => ?_⟩, by omega⟩
      · rcases hb.tiles.next hmem with ⟨c, hc, hnext⟩ | hlast
        · have hnext : c = blockEnd h.mem b := hnext
          exact .inl (hnext ▸ hc)
        · -- behind the last block the search is over
          have hend := hb.bounds hb.last
          have hlast : blockEnd h.mem b = h.brk := hlast
          exact .inr (by omega)
      · have hne : u ≠ b := by
          rintro rfl
          obtain ⟨hstate, hsize⟩ := Heap.fits_eq_true.mp hu.1.2
          rw [hstate] at hskip
          exact hskip.elim nofun fun hlt => absurd hsize (Nat.not_le.mpr hlt)
        have hu' := hb.isBlock_iff.mp hu.1.1
        have hdisjoint : blockEnd h.mem u ≤ b ∨ blockEnd h.mem b ≤ u :=
          hb.tiles.disjoint hu' hmem hne
        have hubounds := hb.bounds hu'
        have hbu := hpassed u hu
        omega
    · obtain ⟨h', hturn, hfound⟩ := hb.allocateTurn_fits hmem hle h8 haligned hskip
      obtain ⟨hstate, hsize⟩ := not_or.mp hskip
      have hfree : blockState h.mem b = blockFree := by
        have hlt := blockState_lt h.mem b
        unfold blockUsed at hstate
        unfold blockFree
        omega
      have hfits : Heap.Fits h.mem need b = true :=
        Heap.fits_eq_true.mpr ⟨hfree, Nat.le_of_not_lt hsize⟩
      exact .inl ⟨_, hturn, ⟨⟨⟨hb.isBlock_iff.mpr hmem, hfits⟩, hle⟩, hpassed⟩, hfound⟩
  · left
    refine ⟨(none, h), by simp only [allocateTurn_def, if_neg hle], fun u hu => ?_, rfl⟩
    have hbu := hpassed u hu
    have hlast := hu.2
    omega

/-- A small first block leaves a free one behind it. -/
theorem heapAlloc_splits (size : ℤ) (hbase : h.baseBlock = 0) (hpos : 0 < h.brk)
    (hpage : h.brk % pageSize = 0) (hroom : h.brk + pageSize ≤ vProcessLimitAddr.toNat)
    (hsize : 0 < size) (hsmall : Malloc.needed size + 8 ≤ pageSize) :
    ∃ h', h.heapAlloc 4 size = .ret (some (h.brk + blockHeaderSize), h') ∧
      h'.lastBlock = h.brk ∧ h'.brk = h.brk + pageSize ∧ ∀ need b, h'.HasFree need b ↔
        b = h.brk + Malloc.needed size ∧ need ≤ pageSize - Malloc.needed size := by
  have hheader : blockHeaderSize = 4 := rfl
  have hpagesize : pageSize = 4096 := rfl
  have hround : size.toNat + 4 ≤ Malloc.needed size := le_roundUp (by decide) _
  obtain ⟨h8, haligned, -⟩ := Malloc.needed_spec hsize (by omega)
  obtain ⟨h₁, hfirst, hb, hfree, hbase₁, hbrk⟩ := firstRegion_room hbase hpos hpage hroom
  have hclosest : closestPow 4 (size.toNat + blockHeaderSize) 4 = .ret (Malloc.needed size) :=
    closestPow_eq (by omega) (by omega) 0
  have hlast : h₁.lastBlock = h.brk := List.mem_singleton.mp hb.last
  have hend : blockEnd h₁.mem h.brk = h₁.brk := hb.tiles.2.2
  generalize Malloc.needed size = need at *
  have hsize₁ : blockSize h₁.mem h.brk = pageSize := by
    rw [hbrk, blockEnd] at hend
    omega
  -- the search takes the block and splits it
  have hturn : h₁.allocateTurn need h.brk =
      .ret (.inr (some h.brk, { h₁ with mem := splitBlock h₁.mem h.brk need })) := by
    have hfits : ¬(blockState h₁.mem h.brk = blockUsed ∨ blockSize h₁.mem h.brk < need) := by
      rw [hfree, hsize₁]
      exact not_or.mpr ⟨by decide, by omega⟩
    have hrest : blockHeaderSize + minimalBlockSize ≤ sub32 (blockSize h₁.mem h.brk) need := by
      rw [hsize₁, sub32_of_le (by decide) (by omega)]
      show 4 + 4 ≤ _
      omega
    rw [allocateTurn_def, hlast, if_pos (Nat.le_refl _), if_neg hfits, if_pos hrest]
  have hserves : Serves h₁ (setBlockState (splitBlock h₁.mem h.brk need) h.brk blockUsed) _
      ([] ++ ([h.brk, h.brk + need] ++ [])) need h.brk :=
    Blocks.split hb hfree h8 haligned (by omega)
  generalize hm' : setBlockState (splitBlock h₁.mem h.brk need) h.brk blockUsed = m' at hserves
  have hb' := hserves.rewrites.blocks
  refine ⟨{ h₁ with mem := m' }, ?_, hlast, hbrk, fun need' b => ?_⟩
  · have hfrom : allocateFrom 4 4 h₁ h.brk need =
        .ret (h.brk + blockHeaderSize, { h₁ with mem := m' }) := by
      rw [allocateFrom_succ, Outcome.loop_leave hturn 3, Outcome.ret_bind]
      dsimp only
      rw [hm']
      rfl
    have hstart : allocateFrom 4 4 h₁ h₁.baseBlock need = allocateFrom 4 4 h₁ h.brk need :=
      congrArg (allocateFrom 4 4 h₁ · need) hbase₁
    rw [heapAlloc_def, if_neg (by omega), hfirst, Outcome.ret_bind, hclosest, Outcome.ret_bind, hstart,
      hfrom]
    rfl
  · rw [HasFree, hb'.isBlock_iff, Heap.fits_eq_true]
    show b ∈ [h.brk, h.brk + need] ∧ blockState m' b = blockFree ∧ need' ≤ blockSize m' b ↔ _
    have hused := hserves.used
    -- the two blocks tile the page, and only the first one is in use
    obtain ⟨-, -, hmid, -, hlimit⟩ := hb'.tiles
    have hmid : h.brk + need = blockEnd m' h.brk := hmid
    have hlimit : blockEnd m' (h.brk + need) = h₁.brk := hlimit
    have hrest : blockSize m' (h.brk + need) = pageSize - need := by
      rw [hbrk, blockEnd] at hlimit
      omega
    have hstate : blockState m' (h.brk + need) = blockFree := by
      have hnot : ¬InUse m' ([] ++ ([h.brk, h.brk + need] ++ [])) (h.brk + need) := by
        rw [hserves.rewrites.inUse _ (by omega)]
        rintro ⟨hmem, -⟩
        have heq := List.mem_singleton.mp hmem
        omega
      have hlt := blockState_lt m' (h.brk + need)
      have hne : blockState m' (h.brk + need) ≠ blockUsed := fun h => hnot ⟨by simp, h⟩
      unfold blockUsed at hne
      unfold blockFree
      omega
    rw [List.mem_pair]
    constructor
    · rintro ⟨rfl | rfl, hfree', hle⟩
      · rw [hused] at hfree'
        cases hfree'
      · exact ⟨rfl, hrest ▸ hle⟩
    · rintro ⟨rfl, hle⟩
      exact ⟨.inr rfl, hstate, hrest.symm ▸ hle⟩

end UserHeap

/-! ## Runs -/

/-- The calls that a program makes: those of `UserHeapStep`, and those that do nothing, among them
a second `HeapFree` of a pointer. -/
inductive MallocStep (w : UserProgram) : UserOp → UserProgram → Prop
  | call {op : UserOp} {w' : UserProgram} : UserHeapStep w op w' → MallocStep w op w'
  | heapAlloc {fuel : ℕ} {size : ℤ} {r : Option ℕ} {h' : UserHeap} :
      size ≤ 0 → w.h.heapAlloc fuel size = .ret (r, h') →
      MallocStep w (.heapAlloc size) ⟨h', w.live⟩
  | heapFree {p : ℕ} {h' : UserHeap} :
      p = 0 ∨ blockState w.h.mem (sub32 p blockHeaderSize) = blockFree →
      w.h.heapFree p = .ret h' → MallocStep w (.heapFree p) ⟨h', w.live⟩

namespace Malloc

open UserHeap

variable {grants : ℕ → ℕ → Bool} {h h₀ : UserHeap} {b need fuel depth : ℕ} {w w' : UserProgram}
  {op : UserOp} {ops : List UserOp} {size : ℤ} {l : List ℕ}

/-- A call that does nothing leaves the heap as it was. -/
theorem inv_step {start : ℕ} (hw : UserProgram.Inv start w l) (hstep : MallocStep w op w') :
    ∃ l', UserProgram.Inv start w' l' := by
  cases hstep with
  | call hcall => exact hw.step hcall
  | heapAlloc hsize hret =>
    rw [UserHeap.heapAlloc_def, if_pos hsize] at hret
    cases hret
    exact ⟨l, hw⟩
  | @heapFree p _ hp hret =>
    have hsame : w.h.heapFree p = .ret w.h := by
      rw [UserHeap.heapFree]
      rcases hp with hp | hp
      · exact if_pos hp
      · split
        · rfl
        · exact if_pos hp
    cases hsame.symm.trans hret
    exact ⟨l, hw⟩

theorem ready_of_run (hpos : 0 < h₀.brk) (hpage : h₀.brk % pageSize = 0)
    (hrun : Run MallocStep (UserProgram.init h₀) ops w) : ∃ l, Ready h₀.brk w.h l := by
  have hstart : UserProgram.Inv h₀.brk (UserProgram.init h₀) [] :=
    ⟨⟨hpos, hpage, .inl ⟨rfl, rfl, rfl⟩⟩, by simp [UserProgram.init], by simp [UserProgram.init]⟩
  obtain ⟨l, hw⟩ : ∃ l, UserProgram.Inv h₀.brk w l :=
    hrun.invariant (I := fun w => ∃ l, UserProgram.Inv h₀.brk w l)
      (fun _ _ _ hinv hstep => hinv.elim fun _ hw => inv_step hw hstep) ⟨[], hstart⟩
  exact ⟨l, hw.ready⟩

/-! ## The growth of one call -/

/-- A call grows the heap only when no free block fits, and otherwise answers the lowest one. Its
first region is not followed by another one when it is large enough. -/
structure GrowsOnlyIfFull (h : UserHeap) (need : ℕ)
    (x : Traced MallocEvent (Option ℕ × UserHeap)) : Prop where
  full : (∃ n, .sbrk n ∈ x.trace) → ∀ b, ¬h.HasFree need b
  first : h.baseBlock = 0 → need ≤ pageSize → x.trace.countP MallocEvent.isSbrk ≤ 1
  reuses : ∀ b, IsLeast {b | h.HasFree need b} b →
    ∃ h', x.outcome = .ret (some (b + blockHeaderSize), h')

/-- No fitting block, or one that the search sees. -/
def FitVisible (h : UserHeap) (need : ℕ) : Prop :=
  (∃ b, h.HasFree need b) → ∃ b, h.Sees need b

theorem growFrom_sbrk (h : UserHeap) (need fuel depth : ℕ) :
    .sbrk (pagesNeeded need) ∈ (growFrom grants fuel depth h need).trace :=
  Traced.mem_bind_left (Traced.mem_bind_left (Traced.mem_note.mpr rfl))

theorem countP_isSbrk_eq_zero {t : List MallocEvent} (ht : ∀ e ∈ t, e.IsWrite) :
    t.countP MallocEvent.isSbrk = 0 := by
  apply List.countP_eq_zero.mpr
  intro e he
  obtain ⟨a, k, rfl⟩ := ht e he
  exact Bool.false_ne_true

/-- The first region is a block that the search sees, when it is large enough. -/
theorem firstRegion_sees (hbase : h.baseBlock = 0) (hpos : 0 < h.brk)
    (hpage : h.brk % pageSize = 0) (hgrant : Granted grants h.brk 1) :
    ∃ h₁, (firstRegion grants h).outcome = .ret h₁ ∧ Blocks h₁ [h.brk] ∧
      h₁.brk = h.brk + pageSize ∧ ∀ need b, h₁.Sees need b ↔ b = h.brk ∧ need ≤ pageSize := by
  obtain ⟨k, heq⟩ := firstRegion_granted hbase hgrant
  have hroom : h.brk + pageSize ≤ vProcessLimitAddr.toNat := by
    have hone := hgrant.2
    rwa [Nat.one_mul] at hone
  obtain ⟨h₁, hret, hb, hfree, -, hbrk⟩ := UserHeap.firstRegion_room hbase hpos hpage hroom
  have hlast : h₁.lastBlock = h.brk := List.mem_singleton.mp hb.last
  have hsize : blockSize h₁.mem h.brk = pageSize := by
    have hend : blockEnd h₁.mem h.brk = h₁.brk := hb.tiles.2.2
    rw [hbrk, blockEnd] at hend
    omega
  refine ⟨h₁, by rw [heq]; exact hret, hb, hbrk, fun need b => ?_⟩
  rw [Sees, HasFree, hb.isBlock_iff, List.mem_singleton, Heap.fits_eq_true, hlast]
  constructor
  · rintro ⟨⟨rfl, -, hle⟩, -⟩
    exact ⟨rfl, hsize ▸ hle⟩
  · rintro ⟨rfl, hle⟩
    exact ⟨⟨rfl, hfree, hsize.symm ▸ hle⟩, Nat.le_refl _⟩

/-- When the search sees no block, `_Sbrk` is called. -/
theorem heapAlloc_asks (grants : ℕ → ℕ → Bool) (hb : Blocks h l) (hsize : 0 < size)
    (hmax : size < 2 ^ 31) (hfuel : 2 ^ 32 ≤ fuel) (hnone : ∀ b, ¬h.Sees (needed size) b) :
    .sbrk (pagesNeeded (needed size)) ∈ (heapAlloc grants fuel h size).trace := by
  obtain ⟨h8, haligned, -⟩ := needed_spec hsize hmax
  have hne : h.baseBlock ≠ 0 := Nat.ne_of_gt hb.base
  have hlt := hb.brk_lt
  have hfirst : (firstRegion grants h).outcome = .ret h := by rw [firstRegion_later hne]
  have heq := heapAlloc_eq hsize hmax (show 4 ≤ fuel by omega) hfirst
  rw [firstRegion_later hne] at heq
  obtain ⟨⟨r, h₁⟩, hsearch, hlowest, hfound⟩ :=
    hb.search_lowest h8 haligned (show h.brk < fuel by omega)
  obtain ⟨depth, rfl⟩ : ∃ d, fuel = d + 1 := ⟨fuel - 1, by omega⟩
  rcases r with _ | b
  · obtain rfl : h₁ = h := hfound
    obtain ⟨-, hevents⟩ := allocateFrom_none grants depth hsearch
    rw [heq]
    exact (hevents _).mpr (.inr (growFrom_sbrk _ _ _ _))
  · exact absurd hlowest.1 (hnone b)

/-- The growth of a call of a heap that has a first region. -/
theorem growsOnlyIfFull_later (hb : Blocks h l) (hsize : 0 < size) (hmax : size < 2 ^ 31)
    (hfuel : 2 ^ 32 ≤ fuel) :
    GrowsOnlyIfFull h (needed size) (heapAlloc grants fuel h size) ↔
      FitVisible h (needed size) := by
  obtain ⟨h8, haligned, -⟩ := needed_spec hsize hmax
  have hne : h.baseBlock ≠ 0 := Nat.ne_of_gt hb.base
  have hlt := hb.brk_lt
  have hfirst : (firstRegion grants h).outcome = .ret h := by rw [firstRegion_later hne]
  have heq := heapAlloc_eq hsize hmax (show 4 ≤ fuel by omega) hfirst
  rw [firstRegion_later hne] at heq
  obtain ⟨⟨r, h₁⟩, hsearch, hlowest, hfound⟩ :=
    hb.search_lowest h8 haligned (show h.brk < fuel by omega)
  obtain ⟨depth, rfl⟩ : ∃ d, fuel = d + 1 := ⟨fuel - 1, by omega⟩
  rcases r with _ | b
  · -- the search sees nothing, and `_Sbrk` is called
    obtain rfl : h₁ = h := hfound
    have hsbrk := heapAlloc_asks grants hb hsize hmax hfuel hlowest
    constructor
    · rintro hgrows ⟨b, hfree⟩
      exact absurd hfree (hgrows.full ⟨_, hsbrk⟩ b)
    · intro hvisible
      have hnone : ∀ b, ¬h₁.HasFree (needed size) b := by
        intro b hfree
        obtain ⟨u, hu⟩ := hvisible ⟨b, hfree⟩
        exact hlowest u hu
      exact ⟨fun _ => hnone, fun h => absurd h hne, fun b hleast => absurd hleast.1 (hnone b)⟩
  · -- the lowest block that the search sees is the lowest one that fits
    obtain ⟨⟨h₂, hret⟩, hwrites⟩ :=
      allocateFrom_found grants depth hsearch
    refine iff_of_true ⟨?_, fun h => absurd h hne, fun u hleast => ?_⟩ fun _ => ⟨b, hlowest.1⟩
    · rintro ⟨n, hsbrk⟩
      rw [heq] at hsbrk
      obtain ⟨a, k, hwrite⟩ := hwrites _ hsbrk
      cases hwrite
    · have hub : u ≤ b := hleast.2 hlowest.1.1
      have hbu : b ≤ u := hlowest.2 ⟨hleast.1, hub.trans hlowest.1.2⟩
      obtain rfl : u = b := Nat.le_antisymm hub hbu
      rw [heq, hret]
      exact ⟨h₂, rfl⟩

/-- The growth of the first call. -/
theorem growsOnlyIfFull_first (hbase : h.baseBlock = 0) (hpos : 0 < h.brk)
    (hpage : h.brk % pageSize = 0) (hsize : 0 < size) (hmax : size < 2 ^ 31)
    (hfuel : 2 ^ 32 ≤ fuel) :
    GrowsOnlyIfFull h (needed size) (heapAlloc grants fuel h size) := by
  have hnone : ∀ b, ¬h.HasFree (needed size) b := fun b hfree => not_isBlock hbase hfree.1
  refine ⟨fun _ => hnone, fun _ hle => ?_, fun b hleast => absurd hleast.1 (hnone b)⟩
  by_cases hgrant : Granted grants h.brk 1
  · obtain ⟨h8, haligned, -⟩ := needed_spec hsize hmax
    obtain ⟨h₁, hfirst, hb, -, hsees⟩ := firstRegion_sees hbase hpos hpage hgrant
    have hlt := hb.brk_lt
    obtain ⟨⟨r, h₂⟩, hsearch, hlowest, -⟩ :=
      hb.search_lowest h8 haligned (show h₁.brk < fuel by omega)
    obtain ⟨k, htrace⟩ := firstRegion_granted hbase hgrant
    obtain ⟨depth, rfl⟩ : ∃ d, fuel = d + 1 := ⟨fuel - 1, by omega⟩
    rcases r with _ | b
    · exact absurd ((hsees _ _).mpr ⟨rfl, hle⟩) (hlowest h.brk)
    · have hwrites := (allocateFrom_found grants depth hsearch).2
      rw [heapAlloc_eq hsize hmax (by omega) hfirst, List.countP_append,
        countP_isSbrk_eq_zero hwrites, htrace]
      exact Nat.le_refl 1
  · rw [heapAlloc_refused hsize hbase hgrant]
    exact Nat.le_refl 1

/-- After every run, a call of `HeapAlloc` grows the heap only if it is full exactly when the
search sees one of the free blocks that fit, if there are any. -/
theorem growsOnlyIfFull_iff (hpos : 0 < h₀.brk) (hpage : h₀.brk % pageSize = 0)
    (hrun : Run MallocStep (UserProgram.init h₀) ops w) (hsize : 0 < size) (hmax : size < 2 ^ 31)
    (hfuel : 2 ^ 32 ≤ fuel) :
    GrowsOnlyIfFull w.h (needed size) (heapAlloc grants fuel w.h size) ↔
      FitVisible w.h (needed size) := by
  obtain ⟨l, hr⟩ := ready_of_run hpos hpage hrun
  rcases hr.blocks with ⟨hbase, hbrk, -⟩ | ⟨-, hb⟩
  · refine iff_of_true (growsOnlyIfFull_first hbase ?_ ?_ hsize hmax hfuel) ?_
    · rw [hbrk]
      exact hr.pos
    · rw [hbrk]
      exact hr.page
    · rintro ⟨b, hfree⟩
      exact absurd hfree.1 (not_isBlock hbase)
  · exact growsOnlyIfFull_later hb hsize hmax hfuel

/-- A program that has got 10 bytes at the start of its heap. -/
theorem ten_bytes : ∃ w, Run MallocStep (UserProgram.init ⟨fun _ => 0xAA, 0, 0, 0x40002000⟩)
    [.heapAlloc 10] w ∧ w.h.baseBlock ≠ 0 ∧ w.h.lastBlock = 0x40002000 ∧
      w.h.brk = 0x40003000 ∧ ∀ need b, w.h.HasFree need b ↔ b = 0x40002010 ∧ need ≤ 4080 := by
  let h : UserHeap := ⟨fun _ => 0xAA, 0, 0, 0x40002000⟩
  obtain ⟨h', hret, hlast, hbrk, hfree⟩ := heapAlloc_splits (h := h.initMalloc) 10 rfl
    (by decide) (by decide) (by decide) (by decide) (by decide)
  have hblock : h'.HasFree 8 0x40002010 := (hfree _ _).mpr ⟨rfl, by decide⟩
  have hrun : Run MallocStep (UserProgram.init h) [.heapAlloc 10] ⟨h', [(0x40002004, 10)]⟩ :=
    .single (.call (.heapAlloc (by decide) (by decide) hret))
  exact ⟨_, hrun, fun hbase => not_isBlock hbase hblock.1, hlast, hbrk, hfree⟩

/-- More than that page has room for is rightly asked of the kernel. -/
theorem growsOnlyIfFull_large : ∃ w, Run MallocStep
      (UserProgram.init ⟨fun _ => 0xAA, 0, 0, 0x40002000⟩) [.heapAlloc 10] w ∧
    (∃ n, .sbrk n ∈ (heapAlloc (fun _ _ => true) (2 ^ 32) w.h 5000).trace) ∧
    GrowsOnlyIfFull w.h (needed 5000) (heapAlloc (fun _ _ => true) (2 ^ 32) w.h 5000) := by
  obtain ⟨w, hrun, hbase, -, -, hfree⟩ := ten_bytes
  have hnone : ∀ b, ¬w.h.HasFree (needed 5000) b := by
    intro b hb
    exact absurd ((hfree _ _).mp hb).2 (by decide)
  obtain ⟨l, hr⟩ := ready_of_run (by decide) (by decide) hrun
  have hb : Blocks w.h l := (hr.blocks.resolve_left fun h => hbase h.1).2
  have hasks := heapAlloc_asks (fun _ _ => true) hb (show (0 : ℤ) < 5000 by decide) (by decide)
    (Nat.le_refl _) fun b hsees => hnone b hsees.1
  exact ⟨w, hrun, ⟨_, hasks⟩, (growsOnlyIfFull_iff (by decide) (by decide) hrun (by decide)
    (by decide) (Nat.le_refl _)).mpr fun ⟨b, hfree⟩ => absurd hfree (hnone b)⟩

/-- The next 10 bytes are asked of the kernel as well, although 4080 are free. -/
theorem not_growsOnlyIfFull_small : ∃ w, Run MallocStep
      (UserProgram.init ⟨fun _ => 0xAA, 0, 0, 0x40002000⟩) [.heapAlloc 10] w ∧
    ¬GrowsOnlyIfFull w.h (needed 10) (heapAlloc (fun _ _ => true) (2 ^ 32) w.h 10) := by
  obtain ⟨w, hrun, hbase, hlast, -, hfree⟩ := ten_bytes
  refine ⟨w, hrun, fun hgrows => ?_⟩
  obtain ⟨l, hr⟩ := ready_of_run (by decide) (by decide) hrun
  have hb : Blocks w.h l := (hr.blocks.resolve_left fun h => hbase h.1).2
  have hvisible := (growsOnlyIfFull_later hb (by decide) (by decide) (Nat.le_refl _)).mp hgrows
  obtain ⟨b, hsees⟩ := hvisible ⟨_, (hfree _ _).mpr ⟨rfl, by decide⟩⟩
  have hlow := hsees.2
  rw [((hfree _ _).mp hsees.1).1, hlast] at hlow
  exact absurd hlow (by decide)

end Malloc

end LtMicros
