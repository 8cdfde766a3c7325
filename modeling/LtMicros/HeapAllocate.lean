import LtMicros.HeapSearch
import LtMicros.HeapSbrk

/-!
# `Heap::Allocate`

The block that `_Allocate` finds, and what becomes of a heap that has to grow
while the physical memory manager runs out of pages.
-/

namespace LtMicros

open Lib

/-- The loop ends at the divisor or below, on the same residue. -/
theorem subtractWhileAbove_spec {a b : U32} (hb : b ≠ 0) :
    subtractWhileAbove a b ≤ b ∧ (subtractWhileAbove a b).toNat % b.toNat = a.toNat % b.toNat := by
  fun_induction subtractWhileAbove a b with
  | case1 a hlt ih =>
    have hle : b ≤ a := BitVec.le_of_lt hlt.1
    refine ⟨ih.1, ih.2.trans ?_⟩
    rw [BitVec.toNat_sub_of_le hle]
    exact (Nat.mod_eq_sub_mod (BitVec.le_def.mp hle)).symm
  | case2 a hlt =>
    exact ⟨BitVec.not_lt.mp fun h => hlt ⟨h, hb⟩, rfl⟩

namespace Heap

variable {h h' : Heap} {b u need size : ℕ} {l l' l₁ l₂ : List ℕ}

/-- `_local_mod` tells whether something is left over. -/
theorem localMod_eq {a b : U32} (ha : 0 < a) (hb : b ≠ 0) :
    localMod a b = if a.toNat % b.toNat = 0 then 0 else 1 := by
  obtain ⟨hle, hmod⟩ := subtractWhileAbove_spec (a := a) hb
  have hle := BitVec.le_def.mp hle
  have hpos : 0 < (subtractWhileAbove a b).toNat := subtractWhileAbove_pos ha
  rw [localMod, ← hmod]
  rcases Nat.eq_or_lt_of_le hle with heq | hlt
  · rw [heq, Nat.mod_self, if_pos rfl, if_neg (by simp [BitVec.lt_def, heq])]
  · rw [Nat.mod_eq_of_lt hlt, if_pos (BitVec.lt_def.mpr hlt), if_neg (Nat.ne_of_gt hpos)]

/-- The pages for a block of `need` bytes: one for every 4092 bytes begun. -/
def pageCount (need : ℕ) : ℕ := (need + (defaultBlockSize - 1)) / defaultBlockSize

theorem pagesNeeded_eq (hpos : 0 < need) (hlt : need < 2 ^ 32) :
    pagesNeeded need = pageCount need := by
  have hdefault : defaultBlockSize = 4092 := rfl
  have hmod : localMod (BitVec.ofNat 32 need) (BitVec.ofNat 32 4092) =
      if need % 4092 = 0 then 0 else 1 := by
    have hneed : (BitVec.ofNat 32 need).toNat = need := Nat.mod_eq_of_lt hlt
    rw [localMod_eq (by rw [BitVec.lt_def, hneed]; exact hpos) (by decide), hneed]
    rfl
  unfold pagesNeeded pageCount
  rw [hdefault, hmod]
  by_cases hzero : need % 4092 = 0
  · simp only [if_pos hzero, Nat.lt_irrefl, if_false]
    split <;> omega
  · simp only [if_neg hzero, Nat.lt_one_iff, if_true]
    split <;> omega

/-- The pages are enough for the block, and no product wraps around. -/
theorem pageCount_spec (hpos : 0 < need) (hmax : need < 2 ^ 31 + 4) :
    0 < pageCount need ∧ need ≤ pageCount need * pageSize ∧
      pageCount need * pageSize + 2 ^ 30 < 2 ^ 32 := by
  have hdefault : defaultBlockSize = 4092 := rfl
  unfold pageCount pageSize
  rw [hdefault]
  omega

/-! ## What `Allocate` promises -/

/-- `b` is the free block of at least `need` bytes with the lowest address. -/
structure LowestFit (h : Heap) (l : List ℕ) (need b : ℕ) : Prop where
  mem : b ∈ l
  fits : Fits h.mem need b = true
  lowest : ∀ u ∈ l, Fits h.mem need u = true → b ≤ u

/-- No free block has `need` bytes. -/
def NoFit (h : Heap) (l : List ℕ) (need : ℕ) : Prop := ∀ u ∈ l, Fits h.mem need u = false

/-- The pages for the block do not fit below `vHeapLimit`. -/
def NoRoom (h : Heap) (need : ℕ) : Prop :=
  kernelInfo.vHeapLimit.toNat < h.lastBlock + pageCount need * pageSize

/-- There are not that many physical pages left. -/
def NoPages (h : Heap) (need : ℕ) : Prop := h.gPmm.freePages.card < pageCount need

/-- `Allocate` has taken the block `b` for `need` bytes, header included. -/
structure Allocated (h h' : Heap) (l : List ℕ) (need b : ℕ) : Prop where
  block :
    LowestFit h l need b ∧ h'.lastBlock = h.lastBlock ∧ h'.mmu = h.mmu ∧ h'.gPmm = h.gPmm ∨
    NoFit h l need ∧ b = h.lastBlock ∧
      h'.lastBlock = h.lastBlock + pageCount need * pageSize ∧ Backed h h' (pageCount need)
  size : need ≤ blockSize h'.mem b
  tiled : ∃ l', Tiled h' l' ∧ ∀ u, InUse h' l' u ↔ u = b ∨ InUse h l u
  fresh : ¬ InUse h l b
  keeps : ∀ u, InUse h l u → (blockEnd h.mem u ≤ b ∨ blockEnd h'.mem b ≤ u) ∧
    ∀ x, u ≤ x → x < blockEnd h.mem u → h'.mem x = h.mem x

/-- `Allocate(size)` panics for lack of room or pages, or takes the block that it
should. -/
def AllocateCorrect (h : Heap) (l : List ℕ) (size : ℕ) : Prop :=
  ∃ r, Outcome.Ends (fun fuel => h.allocate fuel size) r ∧
    (r = .panic ∧ NoFit h l (size + blockHeaderSize) ∧
        (NoRoom h (size + blockHeaderSize) ∨ NoPages h (size + blockHeaderSize)) ∨
      ∃ b h', r = .ret (some (b + blockHeaderSize), h') ∧
        Allocated h h' l (size + blockHeaderSize) b)

/-! ## The block that is taken -/

/-- The search finds the lowest block that fits. -/
theorem Tiled.lowestFit (ht : Tiled h (l₁ ++ b :: l₂)) (hfit : Fits h.mem need b = true)
    (hbefore : ∀ u ∈ l₁, Fits h.mem need u = false) : LowestFit h (l₁ ++ b :: l₂) need b := by
  refine ⟨mem_middle, hfit, fun u hu hu' => ?_⟩
  have hend := (ht.bounds (b := b) mem_middle).2.1
  rcases List.mem_append.mp hu with hu | hu
  · rw [hbefore u hu] at hu'
    cases hu'
  rcases List.mem_cons.mp hu with rfl | hu
  · exact Nat.le_refl u
  · have := ht.order.2 u hu
    omega

/-- What `Takes` says about the used blocks. -/
theorem Takes.inUse (ht : Tiled h l) (hf : Fits h.mem need b = true) (hb : b ∈ l)
    (htake : Takes h h' l l' b need) :
    (∀ u, InUse h' l' u ↔ u = b ∨ InUse h l u) ∧ ¬ InUse h l b := by
  have hfresh : ¬ InUse h l b := by
    rintro ⟨-, hused⟩
    rw [(fits_eq_true.mp hf).1] at hused
    cases hused
  refine ⟨fun u => ⟨fun hu => ?_, fun hu => ?_⟩, hfresh⟩
  · by_cases hub : u = b
    · exact .inl hub
    · exact .inr (htake.others u hu.1 hub hu.2)
  · rcases hu with rfl | hu
    · exact ⟨htake.mem, htake.used⟩
    · have hub : u ≠ b := by
        rintro rfl
        exact hfresh hu
      exact ⟨htake.keeps u hu.1, (ht.keeps hb htake.same hu.1 hub).2.2.trans hu.2⟩

/-- The used blocks lie apart from the one that is taken, and keep their bytes. -/
theorem Takes.keepsUsed (ht : Tiled h l) (hb : b ∈ l) (htake : Takes h h' l l' b need)
    (hu : u ∈ l) (hub : u ≠ b) :
    (blockEnd h.mem u ≤ b ∨ blockEnd h'.mem b ≤ u) ∧
      ∀ x, u ≤ x → x < blockEnd h.mem u → h'.mem x = h.mem x := by
  obtain ⟨hbytes, hsize, -⟩ := ht.keeps hb htake.same hu hub
  refine ⟨?_, hbytes⟩
  have hend : blockEnd h'.mem u = blockEnd h.mem u := by rw [blockEnd, blockEnd, hsize]
  rw [← hend]
  exact htake.tiled.disjoint htake.mem (htake.keeps u hu) hub

/-- Marking the block a second time changes nothing of this. -/
theorem Takes.again (hb : b + 4 ≤ blockEnd h.mem b) (htake : Takes h h' l l' b need) :
    Takes h { h' with mem := setBlockState h'.mem b blockUsed } l l' b need := by
  have hbounds := htake.tiled.bounds htake.mem
  obtain ⟨htiled, hmem, hused, hsize, hsame, -, hothers⟩ :=
    htake.tiled.take htake.mem htake.size
  refine ⟨htiled, hmem, hused, hsize, fun x hx => ?_, htake.keeps, fun u hu hub hu' => ?_⟩
  · show setBlockState h'.mem b blockUsed x = h.mem x
    rw [setBlockState_of_not_mem (by omega)]
    exact htake.same x hx
  · exact htake.others u hu hub (hothers u hu hub hu').2

theorem taken_frame : (h.taken need b).lastBlock = h.lastBlock ∧
    (h.taken need b).mmu = h.mmu ∧ (h.taken need b).gPmm = h.gPmm := by
  unfold Heap.taken carve
  split <;> exact ⟨rfl, rfl, rfl⟩

/-- The heap after both calls of `_Allocate` have marked the block. -/
def takenAgain (h : Heap) (need b : ℕ) : Heap :=
  { h.taken need b with mem := setBlockState (h.taken need b).mem b blockUsed }

/-- A block that fits in the old heap is allocated as it should be. -/
theorem Tiled.allocated_fit (ht : Tiled h (l₁ ++ b :: l₂)) (hneed : 4 < need)
    (hfit : Fits h.mem need b = true) (hbefore : ∀ u ∈ l₁, Fits h.mem need u = false) :
    Allocated h (h.taken need b) (l₁ ++ b :: l₂) need b := by
  obtain ⟨l', htake⟩ := ht.taken hneed hfit
  obtain ⟨hinUse, hfresh⟩ := htake.inUse ht hfit mem_middle
  refine ⟨.inl ⟨ht.lowestFit hfit hbefore, taken_frame⟩, htake.size, ⟨l', htake.tiled, hinUse⟩,
    hfresh, fun u hu => htake.keepsUsed ht mem_middle hu.1 ?_⟩
  rintro rfl
  exact hfresh hu

/-- So is the block of the new pages, when there are enough of them. -/
theorem Grows.allocated {h₁ : Heap} (hg : Grows h h₁ l (pageCount need)) (ht : Tiled h l)
    (hnofit : NoFit h l need) (hpages : ¬ NoPages h need) (hneed : 4 < need)
    (hbytes : need ≤ pageCount need * pageSize) :
    Allocated h (h₁.takenAgain need h.lastBlock) l need h.lastBlock := by
  have hfit : Fits h₁.mem need h.lastBlock = true :=
    fits_eq_true.mpr ⟨hg.free, by rw [hg.size]; exact hbytes⟩
  have hmem : h.lastBlock ∈ l ++ [h.lastBlock] := mem_middle
  have hend : h₁.Tiled (l ++ h.lastBlock :: []) := hg.tiled
  obtain ⟨l', htake⟩ := hend.taken hneed hfit
  have htake := htake.again (Nat.le_of_lt (hg.tiled.bounds hmem).2.1)
  obtain ⟨hinUse, hfresh⟩ := htake.inUse hg.tiled hfit hmem
  obtain ⟨hlast, hmmu, hpmm⟩ : (h₁.taken need h.lastBlock).lastBlock = h₁.lastBlock ∧
      (h₁.taken need h.lastBlock).mmu = h₁.mmu ∧
      (h₁.taken need h.lastBlock).gPmm = h₁.gPmm := taken_frame
  obtain ⟨hpte, hkeeps⟩ := hg.backed (Nat.not_lt.mp hpages)
  refine ⟨.inr ⟨hnofit, rfl, hlast.trans hg.last, ?_⟩, htake.size,
    ⟨l', htake.tiled, fun u => (hinUse u).trans (or_congr_right (hg.inUse ht))⟩,
    fun hu => hfresh ((hg.inUse ht).mpr hu), fun u hu => ?_⟩
  · rw [← hmmu] at hkeeps hpte
    rw [← hpmm] at hpte
    exact ⟨hpte, hkeeps⟩
  · obtain ⟨hlt, hend, -⟩ := hg.old ht hu.1
    obtain ⟨hapart, hbytes⟩ :=
      htake.keepsUsed hg.tiled hmem (List.mem_append_left _ hu.1) (Nat.ne_of_lt hlt)
    rw [hend] at hapart hbytes
    have hle := (ht.bounds hu.1).2.2
    exact ⟨hapart, fun x hx hx' => (hbytes x hx hx').trans (hg.below x (by omega))⟩

/-- `_Allocate` on a part of the list with a block that fits. -/
theorem Tiled.allocateFrom_fit (ht : Tiled h (l₁ ++ l₂)) {start fuel depth : ℕ}
    (hstart : Tiles id (blockEnd h.mem) start l₂ h.lastBlock) (hfuel : l₂.length < fuel)
    (hneed : 0 < need) (hfind : l₂.find? (Fits h.mem need) = some b) :
    allocateFrom fuel (depth + 1) h (some start) need =
      .ret (some (b + blockHeaderSize), h.taken need b) := by
  rw [allocateFrom]
  simp only [if_neg (Nat.ne_of_gt hneed), ht.search hstart hfuel, hfind, Option.elim_some,
    Outcome.ret_bind, Outcome.pure_eq]
  rfl

/-- `_Allocate` on a heap without one. -/
theorem Tiled.allocateFrom_grow (ht : Tiled h l) {fuel depth : ℕ} (hfuel : l.length < fuel)
    (hneed : 0 < need) (hfit : NoFit h l need) :
    allocateFrom fuel (depth + 1) h (some h.baseBlock) need = (do
      let (block, h) ← h.sbrk (pagesNeeded need)
      let (resPtr, h) ← allocateFrom fuel depth h block need
      let block ← .ofOption block
      return (resPtr, { h with mem := setBlockState h.mem block blockUsed })) := by
  have hfind : l.find? (Fits h.mem need) = none :=
    List.find?_eq_none.mpr fun u hu => by rw [hfit u hu]; decide
  have hempty : h.Tiled ([] ++ l) := ht
  rw [allocateFrom]
  simp only [if_neg (Nat.ne_of_gt hneed), hempty.search ht.tiles hfuel, hfind,
    Option.elim_none, Outcome.ret_bind]

/-! ## The three ways `Allocate` ends -/

section Ends

variable (hsize : 0 < size) (hmax : size < 2 ^ 31)
include hsize hmax

/-- `Allocate` runs `_Allocate` from the first block. -/
theorem allocate_eq (fuel : ℕ) : h.allocate fuel size =
    allocateFrom fuel fuel h (some h.baseBlock) (size + blockHeaderSize) := by
  rw [allocate, if_neg (by omega), Int.toNat_natCast]

/-- With a free block that is large enough, the lowest one is taken. -/
theorem Tiled.allocate_fit (ht : Tiled h l)
    (hfit : ∃ u ∈ l, Fits h.mem (size + blockHeaderSize) u = true) :
    ∃ b h', Outcome.Ends (fun fuel => h.allocate fuel size)
        (.ret (some (b + blockHeaderSize), h')) ∧
      Allocated h h' l (size + blockHeaderSize) b := by
  have hneed : size + blockHeaderSize = size + 4 := rfl
  obtain ⟨b, hfind⟩ := Option.isSome_iff_exists.mp (List.find?_isSome.mpr hfit)
  obtain ⟨hb, l₁, l₂, rfl, hbefore⟩ := List.find?_eq_some_iff_append.mp hfind
  refine ⟨b, _, ⟨(l₁ ++ b :: l₂).length + 1, fun k hk => ?_⟩,
    ht.allocated_fit (by omega) hb fun u hu => by simpa using hbefore u hu⟩
  obtain ⟨depth, rfl⟩ : ∃ depth, k = depth + 1 := ⟨k - 1, by omega⟩
  have hempty : h.Tiled ([] ++ (l₁ ++ b :: l₂)) := ht
  exact (allocate_eq hsize hmax _).trans
    (hempty.allocateFrom_fit ht.tiles hk (by omega) hfind)

/-- Without one, `Allocate` panics when there is no room, and when page 0 is free. -/
theorem Tiled.allocate_panic (ht : Tiled h l) (hfit : NoFit h l (size + blockHeaderSize))
    (hwhy : NoRoom h (size + blockHeaderSize) ∨ h.gPmm.used 0 = false) :
    Outcome.Ends (fun fuel => h.allocate fuel size) .panic := by
  have hneed : size + blockHeaderSize = size + 4 := rfl
  obtain ⟨hn, -, hwrap⟩ := pageCount_spec (show 0 < size + blockHeaderSize by omega) (by omega)
  have hlimit := ht.limit
  rw [vHeapLimit_eq] at hlimit
  have hpanic : h.sbrk (pagesNeeded (size + blockHeaderSize)) = .panic := by
    rw [pagesNeeded_eq (by omega) (by omega)]
    by_cases hroom : NoRoom h (size + blockHeaderSize)
    · exact sbrk_no_room hn (by omega) hroom
    · exact sbrk_page_zero hn (Nat.not_lt.mp hroom) (hwhy.resolve_left hroom)
  refine ⟨l.length + 1, fun k hk => ?_⟩
  obtain ⟨depth, rfl⟩ : ∃ depth, k = depth + 1 := ⟨k - 1, by omega⟩
  show h.allocate (depth + 1) size = .panic
  rw [allocate_eq hsize hmax, ht.allocateFrom_grow hk (by omega) hfit, hpanic,
    Outcome.panic_bind]

/-- Otherwise the block is made of new pages, whether or not there are enough. -/
theorem Tiled.allocate_grow (ht : Tiled h l) (haligned : h.lastBlock % pageSize = 0)
    (hmmu : h.mmu.KernelTables) (hfit : NoFit h l (size + blockHeaderSize))
    (hroom : ¬ NoRoom h (size + blockHeaderSize)) (h0 : h.gPmm.used 0 = true) :
    ∃ h', Outcome.Ends (fun fuel => h.allocate fuel size)
        (.ret (some (h.lastBlock + blockHeaderSize), h')) ∧
      (¬ NoPages h (size + blockHeaderSize) →
        Allocated h h' l (size + blockHeaderSize) h.lastBlock) := by
  have hneed : size + blockHeaderSize = size + 4 := rfl
  obtain ⟨hn, hbytes, hwrap⟩ :=
    pageCount_spec (show 0 < size + blockHeaderSize by omega) (by omega)
  obtain ⟨h₁, hsbrk, hg⟩ := ht.sbrk haligned hmmu h0 hn (Nat.not_lt.mp hroom)
  have hfind : [h.lastBlock].find? (Fits h₁.mem (size + blockHeaderSize)) = some h.lastBlock :=
    List.find?_cons_of_pos (fits_eq_true.mpr ⟨hg.free, by rw [hg.size]; exact hbytes⟩)
  refine ⟨_, ⟨l.length + 2, fun k hk => ?_⟩, fun hpages =>
    hg.allocated ht hfit hpages (by omega) hbytes⟩
  obtain ⟨depth, rfl⟩ : ∃ depth, k = depth + 1 + 1 := ⟨k - 2, by omega⟩
  show h.allocate (depth + 1 + 1) size = _
  rw [allocate_eq hsize hmax, ht.allocateFrom_grow (by omega) (by omega) hfit,
    pagesNeeded_eq (by omega) (by omega), hsbrk, Outcome.ret_bind]
  have hstart : Tiles id (blockEnd h₁.mem) h.lastBlock [h.lastBlock] h₁.lastBlock :=
    (Tiles.append_iff.mp hg.tiled.tiles).elim fun _ ht => by
      obtain rfl := ht.2.1
      exact ht.2
  simp only [hg.tiled.allocateFrom_fit hstart (show 1 < depth + 1 + 1 by omega)
    (show 0 < size + blockHeaderSize by omega) hfind, Outcome.ret_bind, Outcome.ofOption_some,
    Outcome.pure_eq]
  rfl

/-- So a heap that grows without enough pages gets a block with no memory of its own. -/
theorem Tiled.not_allocateCorrect (ht : Tiled h l) (haligned : h.lastBlock % pageSize = 0)
    (hmmu : h.mmu.KernelTables) (hfit : NoFit h l (size + blockHeaderSize))
    (hroom : ¬ NoRoom h (size + blockHeaderSize)) (h0 : h.gPmm.used 0 = true)
    (hpages : NoPages h (size + blockHeaderSize)) : ¬ AllocateCorrect h l size := by
  rintro ⟨r, hr, hres⟩
  obtain ⟨h', hends, -⟩ := ht.allocate_grow hsize hmax haligned hmmu hfit hroom h0
  rcases hres with ⟨rfl, -⟩ | ⟨b, h'', rfl, halloc⟩
  · cases hr.unique hends
  · rcases halloc.block with ⟨hlowest, -⟩ | ⟨-, -, -, hbacked⟩
    · have hb := hfit b hlowest.mem
      rw [hlowest.fits] at hb
      cases hb
    · exact absurd hbacked.le_card (Nat.not_le.mpr hpages)

/-- `Allocate` does what it should unless the heap has to grow and either physical
pages are missing, which `Sbrk` only notices when page 0 is free, or page 0 is
free although there are enough. -/
theorem allocateCorrect_iff (ht : Tiled h l) (haligned : h.lastBlock % pageSize = 0)
    (hmmu : h.mmu.KernelTables) :
    AllocateCorrect h l size ↔
      (∃ u ∈ l, Fits h.mem (size + blockHeaderSize) u = true) ∨
      NoRoom h (size + blockHeaderSize) ∨
      (h.gPmm.used 0 = true ↔ ¬ NoPages h (size + blockHeaderSize)) := by
  by_cases hfits : ∃ u ∈ l, Fits h.mem (size + blockHeaderSize) u = true
  · obtain ⟨b, h', hends, halloc⟩ := ht.allocate_fit hsize hmax hfits
    exact iff_of_true ⟨_, hends, .inr ⟨b, h', rfl, halloc⟩⟩ (.inl hfits)
  have hnofit : NoFit h l (size + blockHeaderSize) := fun u hu =>
    Bool.eq_false_iff.mpr fun hu' => hfits ⟨u, hu, hu'⟩
  rw [or_iff_right hfits]
  by_cases hroom : NoRoom h (size + blockHeaderSize)
  · exact iff_of_true ⟨_, ht.allocate_panic hsize hmax hnofit (.inl hroom),
      .inl ⟨rfl, hnofit, .inl hroom⟩⟩ (.inl hroom)
  rw [or_iff_right hroom]
  cases h0 : h.gPmm.used 0 with
  | false =>
    have hends := ht.allocate_panic hsize hmax hnofit (.inr h0)
    refine ⟨fun ⟨r, hr, hres⟩ => ?_, fun hiff => ?_⟩
    · rcases hres with ⟨-, -, hno | hno⟩ | ⟨b, h', rfl, -⟩
      · exact absurd hno hroom
      · exact iff_of_false (by decide) fun hpages => hpages hno
      · cases hr.unique hends
    · have hpages := Classical.not_not.mp (mt hiff.mpr (by decide))
      exact ⟨_, hends, .inl ⟨rfl, hnofit, .inr hpages⟩⟩
  | true =>
    obtain ⟨h', hends, halloc⟩ := ht.allocate_grow hsize hmax haligned hmmu hnofit hroom h0
    refine ⟨fun hcorrect => iff_of_true rfl fun hpages => ?_, fun hiff => ?_⟩
    · exact ht.not_allocateCorrect hsize hmax haligned hmmu hnofit hroom h0 hpages hcorrect
    · exact ⟨_, hends, .inr ⟨_, h', rfl, halloc (hiff.mp rfl)⟩⟩

end Ends

/-! ## The heap of `Init`, without physical memory -/

/-- One free page, and every physical page in use. -/
def onePage : Heap where
  mem := Bytes.store32 (fun _ => 0) 0x1000000 4096
  baseBlock := 0x1000000
  lastBlock := 0x1001000
  mmu := .boot
  gPmm := ⟨fun _ => 0xFF⟩

theorem onePage_header : blockSize onePage.mem 0x1000000 = 4096 ∧
    blockState onePage.mem 0x1000000 = blockFree := by
  have hword : onePage.mem.load32 0x1000000 = 4096 := by
    rw [onePage, Bytes.load32_store32, Nat.mod_eq_of_lt (by omega)]
  rw [blockSize, blockState, hword]
  decide

theorem onePage_tiled : onePage.Tiled [0x1000000] := by
  obtain ⟨hsize, -⟩ := onePage_header
  refine ⟨⟨rfl, ?_, ?_⟩, ?_, rfl, by decide⟩
  · show 0x1000000 < blockEnd onePage.mem 0x1000000
    rw [blockEnd, hsize]
    decide
  · show blockEnd onePage.mem 0x1000000 = 0x1001000
    rw [blockEnd, hsize]
  · intro b hb
    rw [List.mem_singleton.mp hb, hsize]
    decide

theorem onePage_allocateCorrect : AllocateCorrect onePage [0x1000000] 100 := by
  obtain ⟨hsize, hstate⟩ := onePage_header
  refine (allocateCorrect_iff (by decide) (by decide) onePage_tiled rfl
    Mmu.boot_kernelTables).mpr (.inl ⟨_, List.mem_singleton_self _, fits_eq_true.mpr ⟨hstate, ?_⟩⟩)
  rw [hsize]
  decide

theorem onePage_not_allocateCorrect : onePage.Tiled [0x1000000] ∧
    onePage.lastBlock % pageSize = 0 ∧ onePage.mmu.KernelTables ∧ onePage.gPmm.Exhausted ∧
    ¬ AllocateCorrect onePage [0x1000000] 4096 := by
  have hexhausted : onePage.gPmm.Exhausted := fun _ _ => rfl
  refine ⟨onePage_tiled, rfl, Mmu.boot_kernelTables, hexhausted,
    onePage_tiled.not_allocateCorrect (by decide) (by decide) rfl Mmu.boot_kernelTables
      (fun u hu => ?_) (by unfold NoRoom; decide) (hexhausted.used (by decide)) ?_⟩
  · rw [List.mem_singleton.mp hu, Fits, onePage_header.1]
    decide
  · rw [NoPages, hexhausted.freePages]
    decide

end Heap

end LtMicros
