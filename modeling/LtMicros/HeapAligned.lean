import LtMicros.HeapRuns

/-!
# Alignment on the kernel heap

`Allocate` computes the size of a block rounded up to a multiple of 4, and hands the size that is
not rounded to `_Allocate`. A block of which such a size is cut off leaves a header that is not
aligned.
-/

namespace LtMicros

open Lib

namespace KernelHeap

open Heap

variable {s s' : KernelHeap} {l l' l₁ l₂ : List ℕ} {b u need size fuel p : ℕ} {h h' g : Heap}
  {ops : List KernelHeapOp} {op : KernelHeapOp}

/-- All headers and all live pointers lie at multiples of 4. -/
def Aligned (s : KernelHeap) : Prop :=
  (∃ l, s.heap.Tiled l ∧ ∀ b ∈ l, b % 4 = 0) ∧ ∀ p ∈ s.live, p % 4 = 0

/-- The block that `_Allocate` takes for `need` bytes leaves enough for one more. -/
def Cuts (h : Heap) (l : List ℕ) (need : ℕ) : Prop :=
  (∃ b, LowestFit h l need b ∧ need + 8 ≤ blockSize h.mem b) ∨
    NoFit h l need ∧ need + 8 ≤ pageCount need * pageSize

/-- The calls after which the heap is aligned when it was before. -/
def KeepsAligned (s : KernelHeap) : KernelHeapOp → Prop
  | .allocate size =>
    size % 4 = 0 ∨ ∀ l, s.heap.Tiled l → ¬Cuts s.heap l (size + blockHeaderSize)
  | .free p => ∀ l, s.heap.Tiled l → ¬EndsInGarbage s.heap l (p - blockHeaderSize)
  | .other => True

/-- The blocks of an aligned heap in order. -/
structure AlignedInv (s : KernelHeap) (l : List ℕ) : Prop where
  inv : Inv s l
  blocks : ∀ b ∈ l, b % 4 = 0

theorem AlignedInv.aligned (hs : AlignedInv s l) : Aligned s := by
  refine ⟨⟨l, hs.inv.tiled, hs.blocks⟩, fun p hp => ?_⟩
  obtain ⟨u, rfl, hu, -⟩ := hs.inv.live p hp
  have := hs.blocks u hu
  unfold blockHeaderSize
  omega

/-- The pages that the heap grows by begin at its end. -/
theorem AlignedInv.serves (hs : AlignedInv s l) (hg : Serves s.heap g l l₁ b l₂ need) :
    ∀ u ∈ l₁ ++ b :: l₂, u % 4 = 0 := by
  rcases hg.source with ⟨-, rfl, -⟩ | ⟨-, rfl, rfl, rfl, -⟩
  · exact hs.blocks
  · intro u hu
    rcases List.mem_append.mp hu with hu | hu
    · exact hs.blocks u hu
    · have hpage := hs.inv.grounded.page
      unfold pageSize at hpage
      rw [List.mem_singleton.mp hu]
      omega

/-- The block is cut exactly when `Cuts` says so. -/
theorem serves_cuts (ht : h.Tiled l) (hg : Serves h g l l₁ b l₂ need) :
    Cuts h l need ↔ need + 8 ≤ blockSize g.mem b := by
  rcases hg.source with ⟨rfl, rfl, hlowest⟩ | ⟨hnofit, rfl, rfl, rfl, hext⟩
  · constructor
    · rintro (⟨c, hc, hcut⟩ | ⟨hnofit, -⟩)
      · have hle := hc.lowest b hlowest.mem hlowest.fits
        have hge := hlowest.lowest c hc.mem hc.fits
        obtain rfl : c = b := by omega
        exact hcut
      · have hno := hnofit b hlowest.mem
        rw [hlowest.fits] at hno
        cases hno
    · exact fun hcut => .inl ⟨b, hlowest, hcut⟩
  · rw [hext.grows.size]
    constructor
    · rintro (⟨c, hc, -⟩ | ⟨-, hcut⟩)
      · have hno := hnofit c hc.mem
        rw [hc.fits] at hno
        cases hno
      · exact hcut
    · exact fun hcut => .inr ⟨hnofit, hcut⟩

/-- What `Allocate` does to an aligned heap. -/
theorem AlignedInv.allocate (hs : AlignedInv s l)
    (hstep : KernelHeapStep s (.allocate size) s') :
    (KeepsAligned s (.allocate size) → ∃ l', AlignedInv s' l') ∧
    (¬KeepsAligned s (.allocate size) → ¬Aligned s') := by
  cases hstep with
  | allocate hpos hmax hret =>
    have hneed : size + blockHeaderSize = size + 4 := rfl
    obtain ⟨g, l₁, b, l₂, l', rfl, hg, hc⟩ :=
      hs.inv.tiled.allocate_serves hs.inv.grounded hpos hmax hret
    have hblocks := hs.serves hg
    have hb : b % 4 = 0 := hblocks b mem_middle
    have hcuts := serves_cuts hs.inv.tiled hg
    constructor
    · intro hkeeps
      refine ⟨l', hs.inv.allocate hg hc, ?_⟩
      rcases hc.split with ⟨-, rfl, -⟩ | ⟨hcut, rfl, -⟩
      · exact hblocks
      · -- a block has been cut, so the size is a multiple of 4
        have hsize : size % 4 = 0 :=
          hkeeps.resolve_right fun hno => hno l hs.inv.tiled (hcuts.mpr hcut)
        intro u hu
        have hu' : u = b + (size + blockHeaderSize) ∨ u ∈ l₁ ++ b :: l₂ := by
          simp only [List.mem_append, List.mem_cons] at hu ⊢
          tauto
        rcases hu' with rfl | hu'
        · omega
        · exact hblocks u hu'
    · -- the rest of the block starts behind a size that is no multiple of 4
      rintro hbreaks ⟨⟨l'', ht'', haligned⟩, -⟩
      obtain ⟨hsize, hcut⟩ := not_or.mp hbreaks
      obtain rfl : l' = l'' := hc.takes.tiled.unique ht''
      obtain ⟨k, hk⟩ := not_forall.mp hcut
      obtain ⟨hk, hcut⟩ := Classical.not_imp.mp hk
      have hcut := Classical.not_not.mp hcut
      obtain rfl : k = l := hk.unique hs.inv.tiled
      rcases hc.split with ⟨hwhole, -⟩ | ⟨-, rfl, -⟩
      · have := hcuts.mp hcut
        omega
      · have hsecond := haligned (b + (size + blockHeaderSize)) (by simp)
        omega

/-- One step of an aligned heap. -/
theorem AlignedInv.step (hs : AlignedInv s l) (hkeeps : KeepsAligned s op)
    (hstep : KernelHeapStep s op s') : ∃ l', AlignedInv s' l' := by
  cases op with
  | allocate size => exact (hs.allocate hstep).1 hkeeps
  | free p =>
    cases hstep with
    | free hp hret =>
      obtain ⟨l₁, fs, l₂, rfl, -, hinv⟩ := hs.inv.free hp hret (hkeeps l hs.inv.tiled)
      refine ⟨_, hinv, fun u hu => hs.blocks u ?_⟩
      simp only [List.mem_append, List.mem_cons] at hu ⊢
      tauto
  | other =>
    cases hstep with
    | other hw htables hzero => exact ⟨l, hs.inv.other hw htables hzero, hs.blocks⟩

/-- In every run from `Init` in which no call cuts a block at a size that is not a multiple of 4,
the heap stays aligned; the next call of `Allocate` that does so ends this. -/
theorem kernelHeap_aligned (htables : h.mmu.KernelTables) (hzero : h.gPmm.used 0 = true)
    (hinit : h.init = .ret h') (hrun : Run (Guarded KeepsAligned KernelHeapStep) ⟨h', []⟩ ops s) :
    Aligned s ∧ ∀ size s', KernelHeapStep s (.allocate size) s' →
      (Aligned s' ↔ KeepsAligned s (.allocate size)) := by
  obtain ⟨base, hbase, hg⟩ := init_extends htables hzero hinit
  obtain ⟨l, hs⟩ : ∃ l, AlignedInv s l := by
    refine hrun.guarded_invariant (I := fun s => ∃ l, AlignedInv s l)
      (fun _ _ _ ⟨_, hs⟩ hkeeps hstep => hs.step hkeeps hstep)
      ⟨[base], ⟨hg.grows.tiled, hg.grounded, nofun, List.nodup_nil⟩, fun b hb => ?_⟩
    rw [List.mem_singleton.mp hb, hbase]
    decide
  refine ⟨hs.aligned, fun size s' hstep => ⟨fun haligned => ?_, fun hkeeps => ?_⟩⟩
  · by_contra hbreaks
    exact (hs.allocate hstep).2 hbreaks haligned
  · obtain ⟨l', hs'⟩ := (hs.allocate hstep).1 hkeeps
    exact hs'.aligned

/-- Eight bytes twice from the first page; the first block is freed in front of the second one. -/
theorem kernelHeap_aligned_eight : ∃ h' p q s, beforeInit.init = .ret h' ∧
    Run (Guarded KeepsAligned KernelHeapStep) ⟨h', []⟩ [.allocate 8, .allocate 8, .free p] s ∧
    s.live = [q] ∧ Aligned s := by
  obtain ⟨h', hinit⟩ := beforeInit_init
  have htables : beforeInit.mmu.KernelTables := Mmu.boot_kernelTables
  have hzero : beforeInit.gPmm.used 0 = true := by decide
  obtain ⟨b, c, g₁, g, l, fuel, g', hstep₁, hstep₂, hret, htwo⟩ :=
    init_allocate_two htables hzero hinit
  have hkeeps : KeepsAligned ⟨g, [c + blockHeaderSize, b + blockHeaderSize]⟩
      (.free (b + blockHeaderSize)) := by
    intro l' hl' hends
    rw [Nat.add_sub_cancel] at hends
    -- the second block is behind the first one, and in use
    have hfree := hends.1 c (hl'.unique htwo.tiled ▸ htwo.second.1) htwo.lt
    rw [htwo.second.2] at hfree
    exact absurd hfree (by decide)
  have hrun : Run (Guarded KeepsAligned KernelHeapStep) ⟨h', []⟩
      [.allocate 8, .allocate 8, .free (b + blockHeaderSize)] _ :=
    .cons ⟨.inl rfl, hstep₁⟩ (.cons ⟨.inl rfl, hstep₂⟩
      (.single ⟨hkeeps, .free (List.mem_cons_of_mem _ (List.mem_singleton_self _)) hret⟩))
  exact ⟨h', b + blockHeaderSize, c + blockHeaderSize, _, hinit, hrun, htwo.live,
    (kernelHeap_aligned htables hzero hinit hrun).1⟩

/-- One byte: a block of five bytes is cut off. -/
theorem kernelHeap_not_aligned_one : ∃ h' s, beforeInit.init = .ret h' ∧
    Run KernelHeapStep ⟨h', []⟩ [.allocate 1] s ∧ ¬Aligned s := by
  obtain ⟨h', hinit⟩ := beforeInit_init
  have htables : beforeInit.mmu.KernelTables := Mmu.boot_kernelTables
  have hzero : beforeInit.gPmm.used 0 = true := by decide
  obtain ⟨p, h'', hstep⟩ := init_allocate htables hzero hinit (show 0 < 1 by decide) (by decide)
  obtain ⟨base, hbase, hg⟩ := init_extends htables hzero hinit
  have hsize : blockSize h'.mem base = 1 * pageSize := hg.grows.size
  have hfree : blockState h'.mem base = blockFree := hg.grows.free
  have htiled : h'.Tiled [base] := hg.grows.tiled
  have hs : AlignedInv ⟨h', []⟩ [base] := by
    refine ⟨⟨htiled, hg.grounded, nofun, List.nodup_nil⟩, fun b hb => ?_⟩
    rw [List.mem_singleton.mp hb, hbase]
    decide
  refine ⟨h', _, hinit, .single hstep, (hs.allocate hstep).2 fun hkeeps => ?_⟩
  rcases hkeeps with hone | hno
  · cases hone
  · have hfits : Fits h'.mem (1 + blockHeaderSize) base = true :=
      fits_eq_true.mpr ⟨hfree, by rw [hsize]; decide⟩
    refine hno [base] htiled (.inl ⟨base, ⟨by simp, hfits, fun u hu _ => ?_⟩, ?_⟩)
    · exact Nat.le_of_eq (List.mem_singleton.mp hu).symm
    · show 1 + blockHeaderSize + 8 ≤ blockSize h'.mem base
      rw [hsize]
      decide

end KernelHeap

end LtMicros
