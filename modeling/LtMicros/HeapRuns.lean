import LtMicros.HeapAllocate
import LtMicros.HeapFree
import LtMicros.Lib.Run

/-!
# Runs of the kernel heap

`Init`, and then calls of `Allocate` and `Free` by a kernel that writes into what it has got and
nowhere else on the heap. What a call does is said once, in terms of the blocks, for any property
of the heap to be carried through a run.
-/

namespace LtMicros

open Lib

/-- The heap, and the pointers that have been got and not freed. -/
structure KernelHeap where
  heap : Heap
  live : List ℕ

/-- What the kernel does with its heap. -/
inductive KernelHeapOp where
  | allocate (size : ℕ)
  | free (ptr : ℕ)
  | other

/-- `Heap::Init`. -/
def Heap.init (h : Heap) : Outcome Heap := do
  let baseBlock := kernelInfo.vHeapBase.toNat
  let (_, h) ← sbrk { h with baseBlock, lastBlock := baseBlock } 1
  return h

/-- Outside the heap and in the live payloads anything may be written. -/
def KernelHeap.Writes (s : KernelHeap) (mem' : Bytes) : Prop :=
  ∀ x, s.heap.baseBlock ≤ x → x < s.heap.lastBlock →
    (∀ p ∈ s.live, x < p ∨ blockEnd s.heap.mem (p - blockHeaderSize) ≤ x) → mem' x = s.heap.mem x

/-- The steps of a kernel that frees live pointers. In the last one it writes, and uses the page
tables of its half and the physical pages, page 0 excepted. -/
inductive KernelHeapStep : KernelHeap → KernelHeapOp → KernelHeap → Prop
  | allocate {s : KernelHeap} {size p : ℕ} {h' : Heap} : 0 < size → size < 2 ^ 31 →
      Outcome.Ends (fun fuel => s.heap.allocate fuel size) (.ret (some p, h')) →
      KernelHeapStep s (.allocate size) ⟨h', p :: s.live⟩
  | free {s : KernelHeap} {fuel p : ℕ} {h' : Heap} : p ∈ s.live →
      s.heap.free fuel p = .ret h' → KernelHeapStep s (.free p) ⟨h', s.live.erase p⟩
  | other {s : KernelHeap} {mem' : Bytes} {mmu' : Mmu} {gPmm' : PmmBitmap} : s.Writes mem' →
      mmu'.KernelTables → gPmm'.used 0 = true →
      KernelHeapStep s .other ⟨{ s.heap with mem := mem', mmu := mmu', gPmm := gPmm' }, s.live⟩

namespace Heap

variable {h h' g : Heap} {b u x need size fuel p : ℕ} {l l' l₁ l₂ : List ℕ} {m : Bytes}

/-! ## Splitting -/

/-- `_SplitBlock` writes two headers. -/
theorem splitBlock_frame (hb : b + need < 2 ^ 32) (hx : x < b ∨ b + 4 ≤ x)
    (hx' : x < b + need ∨ b + need + 4 ≤ x) : splitBlock m b need x = m x := by
  rw [splitBlock, add32_of_lt hb, setBlockSize_of_not_mem hx, setBlockState_of_not_mem hx',
    setBlockSize_of_not_mem hx']

/-- What `_Allocate` makes of the block `b` that it has found between `l₁` and `l₂`. -/
structure Carved (g h' : Heap) (l₁ l₂ : List ℕ) (b need : ℕ) (l' : List ℕ) : Prop where
  takes : Takes g h' (l₁ ++ b :: l₂) l' b need
  split : blockSize g.mem b < need + 8 ∧ l' = l₁ ++ b :: l₂ ∧
      blockEnd h'.mem b = blockEnd g.mem b ∨
    need + 8 ≤ blockSize g.mem b ∧ l' = l₁ ++ b :: (b + need) :: l₂ ∧
      blockEnd h'.mem b = b + need ∧ blockEnd h'.mem (b + need) = blockEnd g.mem b
  frame : ∀ x, (∀ u ∈ l', x < u ∨ u + 4 ≤ x) → h'.mem x = g.mem x
  last : h'.lastBlock = g.lastBlock
  mmu : h'.mmu = g.mmu
  gPmm : h'.gPmm = g.gPmm

theorem Tiled.unique (ht : Tiled h l) (ht' : Tiled h l') : l = l' :=
  Tiles.unique Function.injective_id ht.tiles ht'.tiles

theorem Tiled.carved (ht : Tiled h (l₁ ++ b :: l₂)) (hneed : 4 < need)
    (hf : Fits h.mem need b = true) : ∃ l', Carved h (h.taken need b) l₁ l₂ b need l' := by
  have hb : b ∈ l₁ ++ b :: l₂ := mem_middle
  have hbounds := ht.bounds hb
  have hlimit := ht.limit
  rw [vHeapLimit_eq] at hlimit
  have hend : blockEnd h.mem b = b + blockSize h.mem b := rfl
  obtain ⟨-, hfit⟩ := fits_eq_true.mp hf
  obtain ⟨l', htakes⟩ := ht.taken hneed hf
  obtain ⟨hlast, hmmu, hpmm⟩ : (h.taken need b).lastBlock = h.lastBlock ∧
    (h.taken need b).mmu = h.mmu ∧ (h.taken need b).gPmm = h.gPmm := taken_frame
  have hsub : sub32 (blockSize h.mem b) need = blockSize h.mem b - need :=
    sub32_of_le (by have := blockSize_lt h.mem b; omega) hfit
  by_cases hrest : need + 8 ≤ blockSize h.mem b
  · -- the rest has room for a header and a payload, and becomes a block
    have hcarve : h.carve need b = { h with mem := splitBlock h.mem b need } := by
      rw [carve, hsub, if_pos]
      show 4 + 4 ≤ _
      omega
    have htaken : h.taken need b =
        { h with mem := setBlockState (splitBlock h.mem b need) b blockUsed } := by
      rw [Heap.taken, hcarve]
    obtain ⟨hsize, -, hsecond, -⟩ := splitBlock_spec (m := h.mem) (b := b) hneed (by omega) (by omega)
    have hsplit := ht.split hneed hrest
    have hl' : l' = l₁ ++ b :: (b + need) :: l₂ := by
      apply htakes.tiled.unique
      rw [htaken]
      exact (hsplit.take (b := b) mem_middle (Nat.le_of_eq hsize.symm)).tiled
    refine ⟨l', htakes, .inr ⟨hrest, hl', ?_, ?_⟩, fun x hx => ?_, hlast, hmmu, hpmm⟩
    · rw [htaken]
      show b + blockSize (setBlockState _ b blockUsed) b = b + need
      rw [blockSize_setBlockState, hsize]
    · rw [htaken]
      show b + need + blockSize (setBlockState _ b blockUsed) (b + need) = _
      rw [(header_congr fun x hx _ => setBlockState_of_not_mem (.inr (by omega))).1, hsecond]
      omega
    · rw [hl'] at hx
      have hxb := hx b (by simp)
      rw [htaken]
      show setBlockState _ b blockUsed x = h.mem x
      rw [setBlockState_of_not_mem hxb]
      exact splitBlock_frame (by omega) hxb (hx (b + need) (by simp))
  · -- the block is taken whole
    have hcarve : h.carve need b = h := by
      rw [carve, hsub, if_neg]
      show ¬ 4 + 4 ≤ _
      omega
    have htaken : h.taken need b = { h with mem := setBlockState h.mem b blockUsed } := by
      rw [Heap.taken, hcarve]
    have hl' : l' = l₁ ++ b :: l₂ := by
      apply htakes.tiled.unique
      rw [htaken]
      exact (ht.take hb hfit).tiled
    refine ⟨l', htakes, .inl ⟨by omega, hl', ?_⟩, fun x hx => ?_, hlast, hmmu, hpmm⟩
    · rw [htaken]
      exact congrArg (b + ·) blockSize_setBlockState
    · rw [htaken]
      exact setBlockState_of_not_mem (hx b htakes.mem)

/-- Marking the block once more changes nothing of this. -/
theorem Carved.again (ht : Tiled g (l₁ ++ b :: l₂)) (hneed : 4 < need)
    (hc : Carved g h' l₁ l₂ b need l') :
    Carved g { h' with mem := setBlockState h'.mem b blockUsed } l₁ l₂ b need l' := by
  have hb := (ht.bounds (b := b) mem_middle).2.1
  have hend : blockEnd (setBlockState h'.mem b blockUsed) b = blockEnd h'.mem b :=
    congrArg (b + ·) blockSize_setBlockState
  have hsecond : blockEnd (setBlockState h'.mem b blockUsed) (b + need) =
      blockEnd h'.mem (b + need) :=
    congrArg (b + need + ·)
      (header_congr fun x hx _ => setBlockState_of_not_mem (.inr (by omega))).1
  refine ⟨hc.takes.again (Nat.le_of_lt hb), ?_, fun x hx => ?_, hc.last, hc.mmu, hc.gPmm⟩
  · rw [hend, hsecond]
    exact hc.split
  · exact (setBlockState_of_not_mem (hx b hc.takes.mem)).trans (hc.frame x hx)

/-! ## Calls that return -/

/-- What the heap needs of the rest of the kernel, with its end where a page ends. -/
structure Grounded (h : Heap) : Prop where
  page : h.lastBlock % pageSize = 0
  tables : h.mmu.KernelTables
  zeroUsed : h.gPmm.used 0 = true

/-- The heap `g` is `h` with `n` pages of zeros as a free block at its end. -/
structure Extends (h g : Heap) (l : List ℕ) (n : ℕ) : Prop where
  grows : Grows h g l n
  zeros : ∀ x, h.lastBlock + 4 ≤ x → x < h.lastBlock + n * pageSize → g.mem x = 0
  above : ∀ x, h.lastBlock + n * pageSize ≤ x → g.mem x = h.mem x
  grounded : Grounded g

/-- The memory in which `Sbrk` has made a block of `bytes` bytes. -/
def newBlock (m : Bytes) (block bytes : ℕ) : Bytes :=
  let m := setBlockState (setBlockSize m block bytes) block blockFree
  m.fill (block + blockHeaderSize) 0 (sub32 (blockSize m block) blockHeaderSize)

theorem newBlock_zero {bytes : ℕ} (hpos : 4 ≤ bytes) (hlt : bytes < 2 ^ 31) (hlo : b + 4 ≤ x)
    (hhi : x < b + bytes) : newBlock m b bytes x = 0 := by
  have hsub : sub32 bytes blockHeaderSize = bytes - blockHeaderSize :=
    sub32_of_le (by omega) (by unfold blockHeaderSize; omega)
  rw [newBlock, blockSize_setBlockState, blockSize_setBlockSize, Nat.mod_eq_of_lt hlt, hsub,
    Bytes.fill_apply, if_pos]
  unfold blockHeaderSize
  omega

theorem newBlock_of_not_mem {bytes : ℕ} (hpos : 4 ≤ bytes) (hlt : bytes < 2 ^ 31)
    (hx : b + bytes ≤ x) : newBlock m b bytes x = m x := by
  have hsub : sub32 bytes blockHeaderSize = bytes - blockHeaderSize :=
    sub32_of_le (by omega) (by unfold blockHeaderSize; omega)
  rw [newBlock, blockSize_setBlockState, blockSize_setBlockSize, Nat.mod_eq_of_lt hlt, hsub,
    Bytes.fill_of_not_mem, setBlockState_of_not_mem (.inr (by omega)),
    setBlockSize_of_not_mem (.inr (by omega))]
  unfold blockHeaderSize
  omega

theorem sbrk_eq {n : ℕ} (hh : Grounded h) (hn : 0 < n)
    (hroom : h.lastBlock + n * pageSize ≤ 2 ^ 30) :
    ∃ g, h.sbrk n = .ret (some h.lastBlock, g) ∧ g.mmu.KernelTables ∧ g.gPmm.used 0 = true ∧
      g.mem = newBlock h.mem h.lastBlock (n * pageSize) := by
  obtain ⟨h₁, hpages, hmem, -, -, htables, -, hsub, -⟩ :=
    sbrkPages_spec hh.tables hh.zeroUsed hroom
  have hbytes : n * pageSize % 2 ^ 32 = n * pageSize := Nat.mod_eq_of_lt (by omega)
  have hpos : ¬ (n : ℤ) ≤ 0 := by omega
  have hwrap : add32 h.lastBlock (n * pageSize) = h.lastBlock + n * pageSize :=
    add32_of_lt (by omega)
  have hlimit : ¬ kernelInfo.vHeapLimit.toNat < h.lastBlock + n * pageSize := by
    rw [vHeapLimit_eq]
    omega
  have hused : h₁.gPmm.used 0 = true := by
    by_contra hno
    have hfree := hsub (PmmBitmap.mem_freePages_zero.mpr (Bool.eq_false_iff.mpr hno))
    rw [PmmBitmap.mem_freePages_zero, hh.zeroUsed] at hfree
    cases hfree
  rw [Heap.sbrk, if_neg hpos]
  simp only [Int.toNat_natCast, hbytes, hwrap, if_neg hlimit, hpages, Outcome.ret_bind]
  exact ⟨_, rfl, htables, hused, by rw [newBlock, hmem]⟩

theorem Tiled.extends {n : ℕ} (ht : Tiled h l) (hh : Grounded h) (hn : 0 < n)
    (hroom : h.lastBlock + n * pageSize ≤ 2 ^ 30) :
    ∃ g, h.sbrk n = .ret (some h.lastBlock, g) ∧ Extends h g l n := by
  obtain ⟨g, hret, hg⟩ := ht.sbrk hh.page hh.tables hh.zeroUsed hn hroom
  obtain ⟨g', hret', htables, hused, hmem⟩ := sbrk_eq hh hn hroom
  rw [hret] at hret'
  obtain rfl : g = g' := congrArg Prod.snd (Outcome.ret.inj hret')
  have hpage : 4096 ≤ n * pageSize := Nat.le_mul_of_pos_left pageSize hn
  refine ⟨g, hret, hg, fun x hlo hhi => ?_, fun x hx => ?_, ?_, htables, hused⟩
  · rw [hmem]
    exact newBlock_zero (by omega) (by omega) hlo hhi
  · rw [hmem]
    exact newBlock_of_not_mem (by omega) (by omega) hx
  · have hp := hh.page
    rw [hg.last]
    unfold pageSize at hp ⊢
    omega

/-- How `Allocate` gets the block `b` for `need` bytes: from the heap `g`, which is the old one, or
the old one extended when no block of it fits. -/
structure Serves (h g : Heap) (l l₁ : List ℕ) (b : ℕ) (l₂ : List ℕ) (need : ℕ) : Prop where
  tiled : Tiled g (l₁ ++ b :: l₂)
  fits : Fits g.mem need b = true
  source : g = h ∧ l = l₁ ++ b :: l₂ ∧ LowestFit h l need b ∨
    NoFit h l need ∧ l₁ = l ∧ l₂ = [] ∧ b = h.lastBlock ∧ Extends h g l (pageCount need)

/-- `Allocate` of a heap in order gives a block so. -/
theorem Tiled.allocate_serves (ht : Tiled h l) (hh : Grounded h) (hsize : 0 < size)
    (hmax : size < 2 ^ 31)
    (hret : Outcome.Ends (fun fuel => h.allocate fuel size) (.ret (some p, h'))) :
    ∃ g l₁ b l₂ l', p = b + blockHeaderSize ∧
      Serves h g l l₁ b l₂ (size + blockHeaderSize) ∧
      Carved g h' l₁ l₂ b (size + blockHeaderSize) l' := by
  have hneed : size + blockHeaderSize = size + 4 := rfl
  by_cases hfits : ∃ u ∈ l, Fits h.mem (size + blockHeaderSize) u = true
  · -- the search ends at the first block that fits
    obtain ⟨b, hfind⟩ := Option.isSome_iff_exists.mp (List.find?_isSome.mpr hfits)
    obtain ⟨hb, l₁, l₂, rfl, hbefore⟩ := List.find?_eq_some_iff_append.mp hfind
    have hbefore (u) (hu : u ∈ l₁) : Fits h.mem (size + blockHeaderSize) u = false := by
      simpa using hbefore u hu
    obtain ⟨l', hc⟩ := ht.carved (by omega) hb
    have hends : Outcome.Ends (fun fuel => h.allocate fuel size)
        (.ret (some (b + blockHeaderSize), h.taken (size + blockHeaderSize) b)) := by
      refine ⟨(l₁ ++ b :: l₂).length + 1, fun k hk => ?_⟩
      obtain ⟨depth, rfl⟩ : ∃ depth, k = depth + 1 := ⟨k - 1, by omega⟩
      have hempty : h.Tiled ([] ++ (l₁ ++ b :: l₂)) := ht
      exact (allocate_eq hsize hmax _).trans
        (hempty.allocateFrom_fit ht.tiles hk (by omega) hfind)
    cases hret.unique hends
    exact ⟨h, l₁, b, l₂, l', rfl, ⟨ht, hb, .inl ⟨rfl, rfl, ht.lowestFit hb hbefore⟩⟩, hc⟩
  · -- no block fits: the heap grows by a block that does, and the search starts again
    have hnofit : NoFit h l (size + blockHeaderSize) := fun u hu =>
      Bool.eq_false_iff.mpr fun hu' => hfits ⟨u, hu, hu'⟩
    obtain ⟨hn, hbytes, -⟩ :=
      pageCount_spec (show 0 < size + blockHeaderSize by omega) (by omega)
    by_cases hroom : NoRoom h (size + blockHeaderSize)
    · cases hret.unique (ht.allocate_panic hsize hmax hnofit (.inl hroom))
    have hroom : h.lastBlock + pageCount (size + blockHeaderSize) * pageSize ≤ 2 ^ 30 :=
      Nat.not_lt.mp hroom
    obtain ⟨g, hsbrk, hg⟩ := ht.extends hh hn hroom
    have hfit : Fits g.mem (size + blockHeaderSize) h.lastBlock = true :=
      fits_eq_true.mpr ⟨hg.grows.free, by rw [hg.grows.size]; exact hbytes⟩
    have htg : Tiled g (l ++ h.lastBlock :: []) := hg.grows.tiled
    obtain ⟨l', hc⟩ := htg.carved (by omega) hfit
    have hends : Outcome.Ends (fun fuel => h.allocate fuel size)
        (.ret (some (h.lastBlock + blockHeaderSize),
          g.takenAgain (size + blockHeaderSize) h.lastBlock)) := by
      have hfind : [h.lastBlock].find? (Fits g.mem (size + blockHeaderSize)) = some h.lastBlock :=
        List.find?_cons_of_pos hfit
      have hstart : Tiles id (blockEnd g.mem) h.lastBlock [h.lastBlock] g.lastBlock :=
        (Tiles.append_iff.mp htg.tiles).elim fun _ ht => by
          obtain rfl := ht.2.1
          exact ht.2
      refine ⟨l.length + 2, fun k hk => ?_⟩
      obtain ⟨depth, rfl⟩ : ∃ depth, k = depth + 1 + 1 := ⟨k - 2, by omega⟩
      show h.allocate (depth + 1 + 1) size = _
      rw [allocate_eq hsize hmax, ht.allocateFrom_grow (by omega) (by omega) hnofit,
        pagesNeeded_eq (by omega) (by omega), hsbrk, Outcome.ret_bind]
      simp only [htg.allocateFrom_fit hstart (show 1 < depth + 1 + 1 by omega)
        (show 0 < size + blockHeaderSize by omega) hfind, Outcome.ret_bind, Outcome.ofOption_some,
        Outcome.pure_eq]
      rfl
    cases hret.unique hends
    exact ⟨g, l, h.lastBlock, [], l', rfl,
      ⟨htg, hfit, .inr ⟨hnofit, rfl, rfl, rfl, hg⟩⟩, hc.again htg (by omega)⟩

/-- Merging leaves the page tables and the physical pages alone. -/
theorem mergeTurn_shares {r : Heap ⊕ Heap} (hturn : mergeTurn b h = .ret r) :
    (r.elim id id).mmu = h.mmu ∧ (r.elim id id).gPmm = h.gPmm := by
  rw [mergeTurn] at hturn
  split at hturn
  · dsimp only at hturn
    split at hturn
    · obtain rfl := Outcome.ret.inj hturn
      exact ⟨rfl, rfl⟩
    · split at hturn
      · obtain rfl := Outcome.ret.inj hturn
        exact ⟨rfl, rfl⟩
      · obtain rfl := Outcome.ret.inj hturn
        exact ⟨rfl, rfl⟩
  · obtain rfl := Outcome.ret.inj hturn
    exact ⟨rfl, rfl⟩

theorem mergeLoop_shares (hret : Outcome.loop (mergeTurn b) fuel h = .ret h') :
    h'.mmu = h.mmu ∧ h'.gPmm = h.gPmm := by
  apply Outcome.loop_invariant (I := fun s => s.mmu = h.mmu ∧ s.gPmm = h.gPmm)
    (Q := fun s => s.mmu = h.mmu ∧ s.gPmm = h.gPmm) _ _ ⟨rfl, rfl⟩ hret
  · intro s s' hs hturn
    obtain ⟨hmmu, hpmm⟩ := mergeTurn_shares hturn
    exact ⟨hmmu.trans hs.1, hpmm.trans hs.2⟩
  · intro s s' hs hturn
    obtain ⟨hmmu, hpmm⟩ := mergeTurn_shares hturn
    exact ⟨hmmu.trans hs.1, hpmm.trans hs.2⟩

end Heap

namespace KernelHeap

open Heap

variable {s s' : KernelHeap} {l l' l₁ l₂ : List ℕ} {b u x p size fuel : ℕ} {h' g : Heap} {mem' : Bytes}

/-- The blocks of `l` tile the heap, and the live pointers are to blocks in use. -/
structure Inv (s : KernelHeap) (l : List ℕ) : Prop where
  tiled : s.heap.Tiled l
  grounded : s.heap.Grounded
  live : ∀ p ∈ s.live, ∃ u, p = u + blockHeaderSize ∧ InUse s.heap l u
  nodup : s.live.Nodup

/-! ## `Allocate` -/

theorem Inv.serves_inUse (hs : Inv s l) {need : ℕ} (hg : Serves s.heap g l l₁ b l₂ need) :
    InUse g (l₁ ++ b :: l₂) u ↔ InUse s.heap l u := by
  rcases hg.source with ⟨rfl, rfl, -⟩ | ⟨-, rfl, rfl, rfl, hext⟩
  · exact Iff.rfl
  · exact hext.grows.inUse hs.tiled

theorem Inv.serves_grounded (hs : Inv s l) {need : ℕ} (hg : Serves s.heap g l l₁ b l₂ need) :
    Grounded g := by
  rcases hg.source with ⟨rfl, -⟩ | ⟨-, -, -, -, hext⟩
  · exact hs.grounded
  · exact hext.grounded

/-- The new pointer is to a block that was free, and the others are to theirs. -/
theorem Inv.allocate (hs : Inv s l) {need : ℕ} (hg : Serves s.heap g l l₁ b l₂ need)
    (hc : Carved g h' l₁ l₂ b need l') : Inv ⟨h', (b + blockHeaderSize) :: s.live⟩ l' := by
  obtain ⟨hinUse, hfresh⟩ := hc.takes.inUse hg.tiled hg.fits mem_middle
  have hground := hs.serves_grounded hg
  constructor
  · exact hc.takes.tiled
  · exact ⟨hc.last ▸ hground.page, hc.mmu ▸ hground.tables, hc.gPmm ▸ hground.zeroUsed⟩
  · intro q hq
    rcases List.mem_cons.mp hq with rfl | hq
    · exact ⟨b, rfl, (hinUse b).mpr (.inl rfl)⟩
    · obtain ⟨u, hqu, hu⟩ := hs.live q hq
      exact ⟨u, hqu, (hinUse u).mpr (.inr ((hs.serves_inUse hg).mpr hu))⟩
  · refine List.nodup_cons.mpr ⟨fun hmem => ?_, hs.nodup⟩
    obtain ⟨u, hbu, hu⟩ := hs.live _ hmem
    obtain rfl : b = u := Nat.add_right_cancel hbu
    exact hfresh ((hs.serves_inUse hg).mpr hu)

/-! ## `Free` -/

/-- `Free` takes the bytes at `lastBlock` for a free block. -/
def EndsInGarbage (h : Heap) (l : List ℕ) (b : ℕ) : Prop :=
  (∀ f ∈ l, b < f → blockState h.mem f = blockFree) ∧ GarbageBlock h

/-- Otherwise the block goes, with the free blocks behind it, and the others stay. -/
theorem Inv.free (hs : Inv s l) (hp : p ∈ s.live) (hret : s.heap.free fuel p = .ret h')
    (hend : ¬EndsInGarbage s.heap l (p - blockHeaderSize)) :
    ∃ l₁ fs l₂, l = l₁ ++ (p - blockHeaderSize) :: (fs ++ l₂) ∧
      (∀ f ∈ fs, blockState s.heap.mem f = blockFree) ∧
      Inv ⟨h', s.live.erase p⟩ (l₁ ++ (p - blockHeaderSize) :: l₂) := by
  obtain ⟨b, rfl, hb, hused⟩ := hs.live p hp
  rw [Nat.add_sub_cancel] at hend ⊢
  obtain ⟨fuel', h'', l₁, fs, l₂, hret', rfl, hfs, hlast, ht, -, hkeeps⟩ :=
    hs.tiled.survivesFree hb hused hend
  rw [hs.tiled.free_eq hb hused] at hret hret'
  obtain rfl : h'' = h' := Outcome.loop_unique hret' hret
  obtain ⟨hmmu, hpmm⟩ := mergeLoop_shares hret
  refine ⟨l₁, fs, l₂, rfl, hfs, ht, ⟨?_, ?_, ?_⟩, fun q hq => ?_, hs.nodup.erase _⟩
  · show h''.lastBlock % pageSize = 0
    rw [hlast]
    exact hs.grounded.page
  · show h''.mmu.KernelTables
    rw [hmmu]
    exact hs.grounded.tables
  · show h''.gPmm.used 0 = true
    rw [hpmm]
    exact hs.grounded.zeroUsed
  · obtain ⟨hne, hq⟩ := hs.nodup.mem_erase_iff.mp hq
    obtain ⟨u, rfl, hu, hused'⟩ := hs.live q hq
    obtain ⟨hu', hbytes⟩ := hkeeps u hu hused' fun heq => hne (by rw [heq])
    have hend := (hs.tiled.bounds hu).2.1
    have hstate : blockState h''.mem u = blockState s.heap.mem u :=
      (header_congr fun x hx hx' => hbytes x hx (by omega)).2
    refine ⟨u, rfl, ?_, hstate.trans hused'⟩
    exact mem_of_mem_others hu'

/-! ## Writes -/

/-- Headers and free blocks are not written into. -/
theorem Inv.writes_keeps (hs : Inv s l) (hw : s.Writes mem') (hu : u ∈ l)
    (hfree : x < u + 4 ∨ blockState s.heap.mem u = blockFree) (hlo : u ≤ x)
    (hhi : x < blockEnd s.heap.mem u) : mem' x = s.heap.mem x := by
  obtain ⟨hbase, -, hlast⟩ := hs.tiled.bounds hu
  apply hw x (by omega) (by omega)
  intro q hq
  obtain ⟨v, rfl, hv, hused⟩ := hs.live q hq
  rw [Nat.add_sub_cancel]
  by_cases huv : v = u
  · subst huv
    rcases hfree with hlt | hfree
    · exact .inl hlt
    · rw [hused] at hfree
      cases hfree
  · have hapart := hs.tiled.disjoint hu hv huv
    unfold blockHeaderSize
    omega

theorem Inv.other (hs : Inv s l) (hw : s.Writes mem') {mmu' : Mmu} {gPmm' : PmmBitmap}
    (htables : mmu'.KernelTables) (hzero : gPmm'.used 0 = true) :
    Inv ⟨{ s.heap with mem := mem', mmu := mmu', gPmm := gPmm' }, s.live⟩ l := by
  have hheader (u) (hu : u ∈ l) : blockSize mem' u = blockSize s.heap.mem u ∧
      blockState mem' u = blockState s.heap.mem u := by
    have hend := (hs.tiled.bounds hu).2.1
    exact header_congr fun x hx hx' => hs.writes_keeps hw hu (.inl hx') hx (by omega)
  constructor
  · refine ⟨tiles_congr (fun u hu => (hheader u hu).1) hs.tiled.tiles, fun u hu => ?_,
      hs.tiled.base, hs.tiled.limit⟩
    show _ < blockSize mem' u
    rw [(hheader u hu).1]
    exact hs.tiled.size u hu
  · exact ⟨hs.grounded.page, htables, hzero⟩
  · intro q hq
    obtain ⟨u, hqu, hu, hused⟩ := hs.live q hq
    exact ⟨u, hqu, hu, (hheader u hu).2.trans hused⟩
  · exact hs.nodup

/-! ## `Init` -/

/-- The first page is one free block of zeros. -/
theorem init_extends {h h' : Heap} (htables : h.mmu.KernelTables) (hzero : h.gPmm.used 0 = true)
    (hret : h.init = .ret h') : ∃ base, base = kernelInfo.vHeapBase.toNat ∧
      Extends { h with baseBlock := base, lastBlock := base } h' [] 1 := by
  have hstart : Tiled { h with
      baseBlock := kernelInfo.vHeapBase.toNat, lastBlock := kernelInfo.vHeapBase.toNat } [] :=
    ⟨rfl, nofun, rfl, (by decide : kernelInfo.vHeapBase.toNat ≤ kernelInfo.vHeapLimit.toNat)⟩
  have hpage : kernelInfo.vHeapBase.toNat % pageSize = 0 := by decide
  have hroom : kernelInfo.vHeapBase.toNat + 1 * pageSize ≤ 2 ^ 30 := by decide
  obtain ⟨g, hsbrk, hg⟩ := hstart.extends ⟨hpage, htables, hzero⟩ Nat.one_pos hroom
  refine ⟨_, rfl, ?_⟩
  obtain ⟨⟨o, g'⟩, hsbrk', hret⟩ := Outcome.bind_eq_ret.mp hret
  obtain rfl : g' = h' := Outcome.ret.inj hret
  have heq := hsbrk.symm.trans hsbrk'
  obtain rfl : g = g' := congrArg Prod.snd (Outcome.ret.inj heq)
  exact hg

theorem init_inv {h h' : Heap} (htables : h.mmu.KernelTables) (hzero : h.gPmm.used 0 = true)
    (hret : h.init = .ret h') : ∃ base, Inv ⟨h', []⟩ [base] := by
  obtain ⟨base, -, hg⟩ := init_extends htables hzero hret
  exact ⟨base, hg.grows.tiled, hg.grounded, nofun, List.nodup_nil⟩

/-- The heap before `Init`, with page 0 in use. -/
def beforeInit : Heap where
  mem := fun _ => 0
  baseBlock := 0
  lastBlock := 0
  mmu := .boot
  gPmm := ⟨fun i => if i = 0 then 1 else 0⟩

theorem beforeInit_init : ∃ h', beforeInit.init = .ret h' := by
  have hground : Grounded { beforeInit with
      baseBlock := kernelInfo.vHeapBase.toNat, lastBlock := kernelInfo.vHeapBase.toNat } :=
    ⟨by decide, Mmu.boot_kernelTables, by decide⟩
  obtain ⟨g, hsbrk, -⟩ := sbrk_eq hground Nat.one_pos (by decide)
  exact ⟨g, Outcome.bind_eq_ret.mpr ⟨_, hsbrk, rfl⟩⟩

/-- After `Init` there is a page to allocate from. -/
theorem init_allocate {h h' : Heap} (htables : h.mmu.KernelTables) (hzero : h.gPmm.used 0 = true)
    (hret : h.init = .ret h') (hpos : 0 < size) (hmax : size + 4 ≤ pageSize) :
    ∃ p h'', KernelHeapStep ⟨h', []⟩ (.allocate size) ⟨h'', [p]⟩ := by
  obtain ⟨base, -, hg⟩ := init_extends htables hzero hret
  have hsize : blockSize h'.mem base = 1 * pageSize := hg.grows.size
  have hfree : blockState h'.mem base = blockFree := hg.grows.free
  have hfits : ∃ u ∈ [base], Fits h'.mem (size + blockHeaderSize) u = true := by
    refine ⟨base, List.mem_singleton_self _, fits_eq_true.mpr ⟨hfree, ?_⟩⟩
    rw [hsize, Nat.one_mul]
    exact hmax
  have hlt : size < 2 ^ 31 := by
    unfold pageSize at hmax
    omega
  obtain ⟨b, h'', hends, -⟩ := Tiled.allocate_fit hpos hlt hg.grows.tiled hfits
  exact ⟨_, h'', .allocate hpos hlt hends⟩

/-- The first allocation after `Init` cuts the page in two. -/
theorem init_cut {h h' : Heap} (hg : Extends h h' [] 1) (hsize : size + 12 ≤ pageSize)
    (hstep : KernelHeapStep ⟨h', []⟩ (.allocate size) ⟨g, [p]⟩) :
    p = h.lastBlock + 4 ∧ Inv ⟨g, [p]⟩ [h.lastBlock, h.lastBlock + (size + 4)] ∧
      blockEnd g.mem h.lastBlock = h.lastBlock + (size + 4) ∧
      blockState g.mem (h.lastBlock + (size + 4)) = blockFree ∧ g.lastBlock = h'.lastBlock ∧
      ∀ x, h'.lastBlock ≤ x → g.mem x = h'.mem x := by
  have hs : Inv ⟨h', []⟩ [h.lastBlock] :=
    ⟨hg.grows.tiled, hg.grounded, by simp, List.nodup_nil⟩
  have hblock : blockSize h'.mem h.lastBlock = 1 * pageSize := hg.grows.size
  have hlast : h'.lastBlock = h.lastBlock + 1 * pageSize := hg.grows.last
  have hfree : blockState h'.mem h.lastBlock = blockFree := hg.grows.free
  cases hstep with
  | allocate hpos hmax hret =>
    obtain ⟨k, l₁, b, l₂, l', rfl, hserves, hc⟩ :=
      hs.tiled.allocate_serves hs.grounded hpos hmax hret
    have hinv := hs.allocate hserves hc
    rcases hserves.source with ⟨rfl, hl, -⟩ | ⟨hnofit, -⟩
    · -- the only block is served, and it is cut
      obtain ⟨rfl, rfl, rfl⟩ : l₁ = [] ∧ b = h.lastBlock ∧ l₂ = [] := by
        cases l₁ with
        | nil =>
          obtain ⟨rfl, rfl⟩ := List.cons.inj hl
          exact ⟨rfl, rfl, rfl⟩
        | cons c l₁ =>
          have hlen := congrArg List.length hl
          simp at hlen
      have hneed : size + blockHeaderSize = size + 4 := rfl
      have hwhole : ¬blockSize k.mem h.lastBlock < size + blockHeaderSize + 8 := by
        have hblock : blockSize k.mem h.lastBlock = 1 * pageSize := hblock
        omega
      obtain ⟨-, rfl, hend, -⟩ := hc.split.resolve_left fun hno => hwhole hno.1
      refine ⟨rfl, hinv, hend, ?_, hc.last, fun x hx => ?_⟩
      · by_contra hused
        have hlt := blockState_lt g.mem (h.lastBlock + (size + 4))
        have hone : blockState g.mem (h.lastBlock + (size + 4)) = blockUsed := by
          unfold blockFree at hused
          unfold blockUsed
          omega
        have hold := (hc.takes.others _ (by simp [hneed]) (by omega) hone).1
        simp at hold
      · apply hc.frame
        intro u hu
        have hbounds := hinv.tiled.bounds hu
        have hglast : g.lastBlock = k.lastBlock := hc.last
        dsimp only at hbounds
        exact .inr (by omega)
    · have hno := hnofit h.lastBlock (List.mem_singleton_self _)
      have hyes : Fits h'.mem (size + blockHeaderSize) h.lastBlock = true := by
        refine fits_eq_true.mpr ⟨hfree, ?_⟩
        rw [hblock]
        show size + 4 ≤ _
        omega
      rw [hyes] at hno
      cases hno

/-- Two blocks in use, one behind the other. -/
structure TwoBlocks (g : Heap) (l : List ℕ) (b c : ℕ) : Prop where
  tiled : Tiled g l
  first : InUse g l b
  second : InUse g l c
  next : blockEnd g.mem b = c

theorem TwoBlocks.lt {l : List ℕ} {c : ℕ} (h : TwoBlocks g l b c) : b < c := by
  have hsize := h.tiled.size b h.first.1
  rw [← h.next, blockEnd]
  omega

theorem TwoBlocks.live {l : List ℕ} {c : ℕ} (h : TwoBlocks g l b c) :
    [c + blockHeaderSize, b + blockHeaderSize].erase (b + blockHeaderSize) =
      [c + blockHeaderSize] := by
  have hne : c + blockHeaderSize ≠ b + blockHeaderSize := by
    have hlt := h.lt
    omega
  rw [List.erase_cons_tail (by simpa using hne), List.erase_cons_head]

/-- After `Init` there are two blocks of eight bytes, of which the first can be freed. -/
theorem init_allocate_two {h h' : Heap} (htables : h.mmu.KernelTables)
    (hzero : h.gPmm.used 0 = true) (hret : h.init = .ret h') :
    ∃ b c g₁ g l fuel g', KernelHeapStep ⟨h', []⟩ (.allocate 8) ⟨g₁, [b + blockHeaderSize]⟩ ∧
      KernelHeapStep ⟨g₁, [b + blockHeaderSize]⟩ (.allocate 8)
        ⟨g, [c + blockHeaderSize, b + blockHeaderSize]⟩ ∧
      g.free fuel (b + blockHeaderSize) = .ret g' ∧ TwoBlocks g l b c := by
  obtain ⟨base, -, hext⟩ := init_extends htables hzero hret
  obtain ⟨p, g₁, hstep⟩ := init_allocate htables hzero hret (show 0 < 8 by decide) (by decide)
  obtain ⟨rfl, hs, hend, hfree, hlast, -⟩ := init_cut hext (by decide) hstep
  have hfirst : InUse g₁ [base, base + (8 + 4)] base := by
    obtain ⟨u, hu, hinUse⟩ := hs.live _ (List.mem_singleton_self _)
    obtain rfl : base = u := Nat.add_right_cancel hu
    exact hinUse
  have hend : blockEnd g₁.mem base = base + (8 + 4) := hend
  have hsecond : Fits g₁.mem (8 + blockHeaderSize) (base + (8 + 4)) = true := by
    obtain ⟨-, -, -, -, hrest⟩ := hs.tiled.tiles
    have hrest : blockEnd g₁.mem (base + (8 + 4)) = base + 1 * pageSize :=
      (show _ = g₁.lastBlock from hrest).trans (hlast.trans hext.grows.last)
    refine fits_eq_true.mpr ⟨hfree, ?_⟩
    unfold blockEnd pageSize at hrest
    unfold blockHeaderSize
    omega
  obtain ⟨c, g, hends, halloc⟩ := hs.tiled.allocate_fit (show 0 < 8 by decide) (by decide)
    ⟨base + (8 + 4), by simp, hsecond⟩
  -- the first block is in use, so the second one is taken
  obtain rfl : c = base + (8 + 4) := by
    rcases halloc.block with ⟨hlow, -⟩ | ⟨hno, -⟩
    · have hmem := hlow.mem
      rcases List.mem_cons.mp hmem with rfl | hmem
      · have hstate := (fits_eq_true.mp hlow.fits).1
        rw [hfirst.2] at hstate
        exact absurd hstate (by decide)
      · exact List.mem_singleton.mp hmem
    · have hnot := hno (base + (8 + 4)) (by simp)
      exact absurd (hsecond.symm.trans hnot) (by decide)
  obtain ⟨l, htiled, huse⟩ := halloc.tiled
  have hb : InUse g l base := (huse base).mpr (.inr hfirst)
  have hc : InUse g l (base + (8 + 4)) := (huse _).mpr (.inl rfl)
  have hsame : blockSize g.mem base = blockSize g₁.mem base :=
    (header_congr fun x hlo hhi => (halloc.keeps base hfirst).2 x hlo (by
      rw [hend]
      omega)).1
  have hnext : blockEnd g.mem base = base + (8 + 4) := by
    rw [blockEnd, hsame]
    exact hend
  obtain ⟨fuel, g', -, -, -, hfreed, -⟩ := htiled.free_spec hb.1 hb.2
  exact ⟨base, base + (8 + 4), g₁, g, l, fuel, g', hstep,
    .allocate (by decide) (by decide) hends, hfreed, htiled, hb, hc, hnext⟩

end KernelHeap

end LtMicros
