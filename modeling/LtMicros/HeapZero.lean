import LtMicros.HeapRuns

/-!
# Free memory of the kernel heap

Blocks that are got from `Sbrk` or freed are filled with zeros, so that what `Allocate` gives is
zero. The header of a block that is merged with the one before it should be erased as well, but its
`MemSet` has the byte and the size in each other's place.
-/

namespace LtMicros

open Lib

namespace KernelHeap

open Heap

variable {s s' : KernelHeap} {l l' l₁ l₂ : List ℕ} {b u x need size fuel p : ℕ} {h h' g : Heap}
  {ops : List KernelHeapOp} {op : KernelHeapOp} {m : Bytes}

/-- The payload of the block `b` is zero. -/
def ZeroPayload (m : Bytes) (b : ℕ) : Prop := ∀ x, b + 4 ≤ x → x < blockEnd m b → m x = 0

/-- The payloads of the free blocks are zero. -/
def FreeZero (m : Bytes) (l : List ℕ) : Prop :=
  ∀ b ∈ l, blockState m b = blockFree → ZeroPayload m b

/-- The free memory of the heap is zero. -/
def FreeMemoryZero (s : KernelHeap) : Prop := ∃ l, s.heap.Tiled l ∧ FreeZero s.heap.mem l

/-- The next `Allocate` gives a pointer to zeros. -/
def AllocatesZero (s : KernelHeap) : Prop :=
  ∀ size p h', KernelHeapStep s (.allocate size) ⟨h', p :: s.live⟩ →
    ZeroPayload h'.mem (p - blockHeaderSize)

/-- `Free` merges nothing: the block behind is in use, or at the end of the heap there is nothing
like a free block. -/
def MergesNothing (h : Heap) (b : ℕ) : Prop :=
  blockSize h.mem (blockEnd h.mem b) = 0 ∨ blockState h.mem (blockEnd h.mem b) ≠ blockFree

/-- The calls after which free memory is zero when it was before. -/
def KeepsZero (s : KernelHeap) : KernelHeapOp → Prop
  | .free p => MergesNothing s.heap (p - blockHeaderSize)
  | _ => True

/-- The blocks of a heap whose free memory is zero. -/
structure ZeroInv (s : KernelHeap) (l : List ℕ) : Prop where
  inv : Inv s l
  zero : FreeZero s.heap.mem l

/-- A byte of a payload is in no header. -/
theorem payload_apart (ht : h.Tiled l) (hb : b ∈ l) (hlo : b + 4 ≤ x)
    (hhi : x < blockEnd h.mem b) (hu : u ∈ l) : x < u ∨ u + 4 ≤ x := by
  by_cases hub : u = b
  · exact .inr (hub ▸ hlo)
  · have hu' := (ht.bounds hu).2.1
    have hapart := ht.disjoint hb hu hub
    omega

/-! ## `Allocate` -/

theorem ZeroInv.serves (hs : ZeroInv s l) (hg : Serves s.heap g l l₁ b l₂ need) :
    FreeZero g.mem (l₁ ++ b :: l₂) := by
  rcases hg.source with ⟨rfl, rfl, -⟩ | ⟨-, rfl, rfl, rfl, hext⟩
  · exact hs.zero
  · intro u hu hfree x hlo hhi
    rcases List.mem_append.mp hu with hu | hu
    · obtain ⟨-, hend, hstate⟩ := hext.grows.old hs.inv.tiled hu
      rw [hend] at hhi
      rw [hext.grows.below x (Nat.lt_of_lt_of_le hhi (hs.inv.tiled.bounds hu).2.2)]
      exact hs.zero u hu (hstate.symm.trans hfree) x hlo hhi
    · obtain rfl := List.mem_singleton.mp hu
      rw [blockEnd, hext.grows.size] at hhi
      exact hext.zeros x hlo hhi

/-- The parts of the block that is cut are zero like the whole. -/
theorem carved_zero (ht : g.Tiled (l₁ ++ b :: l₂)) (hf : Fits g.mem need b = true)
    (hc : Carved g h' l₁ l₂ b need l') (hz : FreeZero g.mem (l₁ ++ b :: l₂)) :
    FreeZero h'.mem l' ∧ ZeroPayload h'.mem b := by
  have hb : b ∈ l₁ ++ b :: l₂ := mem_middle
  have hbz : ZeroPayload g.mem b := hz b hb (fits_eq_true.mp hf).1
  have hgb := ht.bounds hb
  have hend : blockEnd g.mem b = b + blockSize g.mem b := rfl
  have hb' : b ∈ l' := hc.takes.mem
  have hframe {u x : ℕ} (hu : u ∈ l') (hlo : u + 4 ≤ x) (hhi : x < blockEnd h'.mem u) :
      h'.mem x = g.mem x :=
    hc.frame x fun v hv => payload_apart hc.takes.tiled hu hlo hhi hv
  have hold (u) (hu : u ∈ l₁ ++ b :: l₂) (hub : u ≠ b) :=
    ht.keeps hb hc.takes.same hu hub
  have hwithin : blockEnd h'.mem b ≤ blockEnd g.mem b := by
    rcases hc.split with ⟨-, -, hsame⟩ | ⟨hcut, -, hfirst, -⟩
    · exact Nat.le_of_eq hsame
    · omega
  constructor
  · intro u hu hfree x hlo hhi
    have hub : u ≠ b := by
      rintro rfl
      rw [hc.takes.used] at hfree
      cases hfree
    rw [hframe hu hlo hhi]
    have hcases : u ∈ l₁ ++ b :: l₂ ∨
        u = b + need ∧ blockEnd h'.mem (b + need) = blockEnd g.mem b := by
      rcases hc.split with ⟨-, rfl, -⟩ | ⟨-, rfl, -, hsecond⟩
      · exact .inl hu
      · simp only [List.mem_append, List.mem_cons] at hu ⊢
        tauto
    rcases hcases with hul | ⟨rfl, hsecond⟩
    · obtain ⟨-, hsize, hstate⟩ := hold u hul hub
      rw [blockEnd, hsize] at hhi
      exact hz u hul (hstate.symm.trans hfree) x hlo hhi
    · -- the rest of the block that has been cut
      exact hbz x (by omega) (hsecond ▸ hhi)
  · intro x hlo hhi
    rw [hframe hb' hlo hhi]
    exact hbz x hlo (by omega)

theorem ZeroInv.allocate (hs : ZeroInv s l)
    (hstep : KernelHeapStep s (.allocate size) ⟨h', p :: s.live⟩) :
    (∃ l', ZeroInv ⟨h', p :: s.live⟩ l') ∧ ZeroPayload h'.mem (p - blockHeaderSize) := by
  cases hstep with
  | allocate hpos hmax hret =>
    obtain ⟨g, l₁, b, l₂, l', rfl, hg, hc⟩ :=
      hs.inv.tiled.allocate_serves hs.inv.grounded hpos hmax hret
    obtain ⟨hzero, hpayload⟩ := carved_zero hg.tiled hg.fits hc (hs.serves hg)
    rw [Nat.add_sub_cancel]
    exact ⟨⟨l', hs.inv.allocate hg hc, hzero⟩, hpayload⟩

/-! ## `Free` -/

theorem freed_zero (ht : h.Tiled l) (hb : b ∈ l) (hlo : b + 4 ≤ x) (hhi : x < blockEnd h.mem b) :
    freed h.mem b x = 0 := by
  have hsize : 4 < blockSize h.mem b := ht.size b hb
  have hlt := blockSize_lt h.mem b
  have hsub : sub32 (blockSize h.mem b) blockHeaderSize = blockSize h.mem b - 4 :=
    sub32_of_le (by omega) (Nat.le_of_lt hsize)
  rw [freed, Bytes.fill_apply, blockSize_setBlockState, hsub]
  apply if_pos
  unfold blockEnd at hhi
  unfold blockHeaderSize
  omega

/-- When nothing is merged, `Free` marks the block and clears it. -/
theorem free_mergesNothing (ht : h.Tiled l) (hb : b ∈ l) (hused : blockState h.mem b = blockUsed)
    (hnothing : MergesNothing h b) (hret : h.free fuel (b + blockHeaderSize) = .ret h') :
    ∃ m, h' = { h with mem := m } ∧ SameOutside h.mem m b ∧
      blockSize m b = blockSize h.mem b ∧ blockState m b = blockFree ∧ ZeroPayload m b := by
  obtain ⟨hsame, hsize, hfree⟩ := ht.freed_spec hb
  have hzero : ZeroPayload (freed h.mem b) b := fun x hlo hhi =>
    freed_zero ht hb hlo (by rwa [blockEnd, hsize] at hhi)
  rw [ht.free_eq hb hused] at hret
  generalize freed h.mem b = m at *
  have hend : blockEnd m b = blockEnd h.mem b := congrArg (b + ·) hsize
  have hnext : blockSize m (blockEnd h.mem b) = blockSize h.mem (blockEnd h.mem b) ∧
      blockState m (blockEnd h.mem b) = blockState h.mem (blockEnd h.mem b) :=
    header_congr fun x hx _ => hsame x (.inr hx)
  have hnothing' : blockSize m (blockEnd m b) = 0 ∨ blockState m (blockEnd m b) ≠ blockFree := by
    rw [hend, hnext.1, hnext.2]
    exact hnothing
  have hstop := (ht.of_sameOutside hb hsame hsize).mergeTurn_stop hb hnothing'
  exact ⟨m, Outcome.loop_unique hret (Outcome.loop_leave hstop 0), hsame, hsize, hfree, hzero⟩

theorem ZeroInv.free (hs : ZeroInv s l) (hp : p ∈ s.live) (hret : s.heap.free fuel p = .ret h')
    (hnothing : MergesNothing s.heap (p - blockHeaderSize)) : ZeroInv ⟨h', s.live.erase p⟩ l := by
  obtain ⟨b, rfl, hb, hused⟩ := hs.inv.live p hp
  rw [Nat.add_sub_cancel] at hnothing
  have ht := hs.inv.tiled
  obtain ⟨m, rfl, hsame, hsize, hfree, hzero⟩ := free_mergesNothing ht hb hused hnothing hret
  have hkeep (u) (hu : u ∈ l) (hub : u ≠ b) := ht.keeps hb hsame hu hub
  have hground : Grounded { s.heap with mem := m } :=
    ⟨hs.inv.grounded.page, hs.inv.grounded.tables, hs.inv.grounded.zeroUsed⟩
  refine ⟨⟨ht.of_sameOutside hb hsame hsize, hground, fun q hq => ?_, hs.inv.nodup.erase _⟩, ?_⟩
  · obtain ⟨hne, hq⟩ := hs.inv.nodup.mem_erase_iff.mp hq
    obtain ⟨u, rfl, hu, hused'⟩ := hs.inv.live q hq
    exact ⟨u, rfl, hu, (hkeep u hu fun heq => hne (by rw [heq])).2.2.trans hused'⟩
  · intro u hu hfree' x hlo hhi
    by_cases hub : u = b
    · exact hub ▸ hzero x (hub ▸ hlo) (hub ▸ hhi)
    · obtain ⟨hbytes, hsize', hstate⟩ := hkeep u hu hub
      rw [blockEnd, hsize'] at hhi
      show m x = 0
      rw [hbytes x (by omega) hhi]
      exact hs.zero u hu (hstate.symm.trans hfree') x hlo hhi

/-- A header of zeros has no size. -/
theorem blockSize_of_zero (hm : ∀ x, b ≤ x → x < b + 4 → m x = 0) : blockSize m b = 0 := by
  have hzero : m.load32 b = 0 := by
    rw [Bytes.load32, hm b (by omega) (by omega), hm (b + 1) (by omega) (by omega),
      hm (b + 2) (by omega) (by omega), hm (b + 3) (by omega) (by omega)]
    rfl
  rw [blockSize, hzero, Nat.zero_mod]

/-- The header of a block that has been merged is still there. -/
theorem merged_not_zero {f : ℕ} {fs : List ℕ} (ht : h.Tiled (l₁ ++ b :: (f :: fs ++ l₂)))
    (ht' : h'.Tiled (l₁ ++ b :: l₂)) (hlast : h'.lastBlock = h.lastBlock)
    (hframe : ∀ x, x < b ∨ blockEnd h.mem b ≤ x → h'.mem x = h.mem x) :
    ¬ZeroPayload h'.mem b := by
  intro hzero
  have hbf : f = blockEnd h.mem b := ht.next_eq
  have hb := ht.bounds (b := b) mem_middle
  have hf := ht.bounds (b := f) (by simp)
  have hsize : 4 < blockSize h.mem f := ht.size f (by simp)
  -- `b` ends behind the header of `f` now
  have hend : f + 4 ≤ blockEnd h'.mem b := by
    cases l₂ with
    | nil =>
      rw [ht'.last_eq, hlast]
      omega
    | cons u rest =>
      have hu : u = blockEnd h'.mem b := ht'.next_eq
      have horder : h.Tiled ((l₁ ++ [b]) ++ f :: (fs ++ u :: rest)) := by simpa using ht
      have hfu := horder.order.2 u (by simp)
      omega
  have hsame : blockSize h'.mem f = blockSize h.mem f :=
    (header_congr fun x hx _ => hframe x (.inr (by omega))).1
  have hnone := blockSize_of_zero (m := h'.mem) (b := f)
    fun x hx hx' => hzero x (by omega) (by omega)
  omega

theorem Inv.free_leaves (hs : Inv s l) (hp : p ∈ s.live) (hret : s.heap.free fuel p = .ret h')
    (hend : ¬EndsInGarbage s.heap l (p - blockHeaderSize))
    (hmerges : ¬MergesNothing s.heap (p - blockHeaderSize)) :
    ¬FreeMemoryZero ⟨h', s.live.erase p⟩ := by
  obtain ⟨b, rfl, hb, hused⟩ := hs.live p hp
  rw [Nat.add_sub_cancel] at hend hmerges
  obtain ⟨hnextSize, hnextFree⟩ := not_or.mp hmerges
  have hnextFree := Classical.not_not.mp hnextFree
  obtain ⟨fuel', h'', l₁, fs, l₂, hret', rfl, hfs, hl₂, -, hgood⟩ := hs.tiled.free_spec hb hused
  rw [hs.tiled.free_eq hb hused] at hret hret'
  obtain rfl : h'' = h' := Outcome.loop_unique hret' hret
  have hcond : ¬(l₂ = [] ∧ GarbageBlock s.heap) := by
    rintro ⟨rfl, hg⟩
    refine hend ⟨fun f hf hlt => ?_, hg⟩
    rcases List.mem_append.mp hf with hf' | hf'
    · have hbefore := hs.tiled.order.1 f hf'
      have hbounds := hs.tiled.bounds hf
      omega
    · exact hfs f (by simpa [Nat.ne_of_gt hlt] using hf')
  obtain ⟨ht', hlast, hfree', hframe⟩ := hgood hcond
  rintro ⟨l', hl', hz⟩
  obtain rfl := ht'.unique hl'
  have ht := hs.tiled
  cases fs with
  | cons f fs => exact merged_not_zero ht ht' hlast hframe (hz b mem_middle hfree')
  | nil =>
    -- the block behind would be the free one that `MergesNothing` speaks of
    cases l₂ with
    | nil =>
      have hlast : blockEnd s.heap.mem b = s.heap.lastBlock := ht.last_eq
      rw [hlast] at hnextSize hnextFree
      exact hcond ⟨rfl, hnextSize, hnextFree⟩
    | cons u rest =>
      have hu : u = blockEnd s.heap.mem b := ht.next_eq
      exact hl₂ u rfl (hu ▸ hnextFree)

/-! ## Runs -/

theorem ZeroInv.step (hs : ZeroInv s l) (hkeeps : KeepsZero s op) (hstep : KernelHeapStep s op s') :
    ∃ l', ZeroInv s' l' := by
  cases hstep with
  | allocate hpos hmax hret => exact (hs.allocate (.allocate hpos hmax hret)).1
  | free hp hret => exact ⟨l, hs.free hp hret hkeeps⟩
  | other hw htables hzero =>
    have hinv := hs.inv.other hw htables hzero
    refine ⟨l, hinv, fun u hu hfree x hlo hhi => ?_⟩
    have hend := (hs.inv.tiled.bounds hu).2.1
    obtain ⟨hsize, hstate⟩ := header_congr
      fun x hx hx' => hs.inv.writes_keeps hw hu (.inl hx') hx (by omega)
    have hfree := hstate.symm.trans hfree
    rw [blockEnd, hsize] at hhi
    refine (hs.inv.writes_keeps hw hu (.inr hfree) (by omega) hhi).trans ?_
    exact hs.zero u hu hfree x hlo hhi

/-- After `Init` all free memory is zero. -/
theorem init_zero (hg : Extends h h' [] 1) : ZeroInv ⟨h', []⟩ [h.lastBlock] := by
  refine ⟨⟨hg.grows.tiled, hg.grounded, nofun, List.nodup_nil⟩, fun b hb _ x hlo hhi => ?_⟩
  have hsize : blockSize h'.mem h.lastBlock = 1 * pageSize := hg.grows.size
  obtain rfl := List.mem_singleton.mp hb
  rw [blockEnd, hsize] at hhi
  exact hg.zeros x hlo hhi

/-- In every run from `Init` in which no `Free` merges, free memory stays zero, and so is what
`Allocate` gives. The next `Free` that merges a block of the heap ends this. -/
theorem kernelHeap_zero (htables : h.mmu.KernelTables) (hzero : h.gPmm.used 0 = true)
    (hinit : h.init = .ret h') (hrun : Run (Guarded KeepsZero KernelHeapStep) ⟨h', []⟩ ops s) :
    FreeMemoryZero s ∧ AllocatesZero s ∧ ∀ p s', KernelHeapStep s (.free p) s' →
      (∀ l, s.heap.Tiled l → ¬EndsInGarbage s.heap l (p - blockHeaderSize)) →
      (FreeMemoryZero s' ↔ KeepsZero s (.free p)) := by
  obtain ⟨base, -, hg⟩ := init_extends htables hzero hinit
  obtain ⟨l, hs⟩ : ∃ l, ZeroInv s l :=
    hrun.guarded_invariant (I := fun s => ∃ l, ZeroInv s l)
      (fun _ _ _ ⟨_, hs⟩ hkeeps hstep => hs.step hkeeps hstep) ⟨_, init_zero hg⟩
  refine ⟨⟨l, hs.inv.tiled, hs.zero⟩, fun size p h' hstep => (hs.allocate hstep).2,
    fun p s' hstep hend => ⟨fun hz => ?_, fun hkeeps => ?_⟩⟩
  · by_contra hmerges
    cases hstep with
    | free hp hret => exact hs.inv.free_leaves hp hret (hend l hs.inv.tiled) hmerges hz
  · obtain ⟨l', hs'⟩ := hs.step hkeeps hstep
    exact ⟨l', hs'.inv.tiled, hs'.zero⟩

/-- Eight bytes twice from the first page; the first block is freed in front of the second one. -/
theorem kernelHeap_zero_eight : ∃ h' p q s, beforeInit.init = .ret h' ∧
    Run (Guarded KeepsZero KernelHeapStep) ⟨h', []⟩ [.allocate 8, .allocate 8, .free p] s ∧
    s.live = [q] ∧ FreeMemoryZero s ∧ AllocatesZero s := by
  obtain ⟨h', hinit⟩ := beforeInit_init
  have htables : beforeInit.mmu.KernelTables := Mmu.boot_kernelTables
  have hzero : beforeInit.gPmm.used 0 = true := by decide
  obtain ⟨b, c, g₁, g, l, fuel, g', hstep₁, hstep₂, hret, htwo⟩ :=
    init_allocate_two htables hzero hinit
  have hkeeps : KeepsZero ⟨g, [c + blockHeaderSize, b + blockHeaderSize]⟩
      (.free (b + blockHeaderSize)) := by
    right
    rw [Nat.add_sub_cancel, htwo.next, htwo.second.2]
    decide
  have hrun : Run (Guarded KeepsZero KernelHeapStep) ⟨h', []⟩
      [.allocate 8, .allocate 8, .free (b + blockHeaderSize)] _ :=
    .cons ⟨trivial, hstep₁⟩ (.cons ⟨trivial, hstep₂⟩
      (.single ⟨hkeeps, .free (List.mem_cons_of_mem _ (List.mem_singleton_self _)) hret⟩))
  obtain ⟨hfree, halloc, -⟩ := kernelHeap_zero htables hzero hinit hrun
  exact ⟨h', b + blockHeaderSize, c + blockHeaderSize, _, hinit, hrun, htwo.live, hfree, halloc⟩

/-- The only block in use is freed, and merged with the rest of its page. -/
theorem kernelHeap_not_zero_merged : ∃ h' p s, beforeInit.init = .ret h' ∧
    Run KernelHeapStep ⟨h', []⟩ [.allocate 8, .free p] s ∧ ¬FreeMemoryZero s := by
  obtain ⟨h', hinit⟩ := beforeInit_init
  have htables : beforeInit.mmu.KernelTables := Mmu.boot_kernelTables
  have hzero : beforeInit.gPmm.used 0 = true := by decide
  obtain ⟨base, -, hext⟩ := init_extends htables hzero hinit
  obtain ⟨p, g, hstep⟩ := init_allocate htables hzero hinit (show 0 < 8 by decide) (by decide)
  obtain ⟨rfl, hs, hend, hfree, hlast, habove⟩ := init_cut hext (by decide) hstep
  obtain ⟨hb, hused⟩ : InUse g [base, base + (8 + 4)] base := by
    obtain ⟨u, hu, hinUse⟩ := hs.live _ (List.mem_singleton_self _)
    obtain rfl : base = u := Nat.add_right_cancel hu
    exact hinUse
  obtain ⟨fuel, h'', -, -, -, hret, -⟩ := hs.tiled.free_spec hb hused
  have hp : base + 4 ∈ [base + 4] := List.mem_singleton_self _
  refine ⟨h', base + 4, _, hinit, (Run.single hstep).snoc (.free hp hret), ?_⟩
  apply hs.free_leaves hp hret
  · rintro ⟨-, hgarbage, -⟩
    -- behind the page there is nothing yet
    apply hgarbage
    apply blockSize_of_zero
    intro x hx _
    have hx : g.lastBlock ≤ x := hx
    have hx' : h'.lastBlock ≤ x := hlast ▸ hx
    have hbase : h'.lastBlock = base + 1 * pageSize := hext.grows.last
    show g.mem x = 0
    rw [habove x hx', hext.above x (hbase ▸ hx')]
    rfl
  · have hsize : blockHeaderSize < blockSize g.mem (base + (8 + 4)) :=
      hs.tiled.size _ (by simp)
    rintro (hzero | hused')
    · rw [Nat.add_sub_cancel, hend] at hzero
      dsimp only at hzero
      omega
    · rw [Nat.add_sub_cancel, hend] at hused'
      exact hused' hfree

end KernelHeap

end LtMicros
