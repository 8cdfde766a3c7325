import LtMicros.World

/-!
# Runs of the allocation calls

From the tables that the kernel starts with, every run of calls that map pages
of the user half, while memory lasts, keeps the address spaces in order.
-/

namespace LtMicros

open Lib Lib.Frames

/-- The invariant of a run. -/
structure WorldInv (w : World) : Prop where
  spaces : Spaces w.s.mem w.pds
  heap : w.HeapPlaced

/-- A table step after which there is memory left. -/
def LastingStep (t : Tables) (op : TableOp) (t' : Tables) : Prop :=
  TableStep t op t' ∧ t'.k.NotExhausted

/-- A call that maps pages of the user half only, and leaves memory for others. -/
def UserStep (w : World) (op : WorldOp) (w' : World) : Prop :=
  MapsUser w op ∧ WorldStep w op w' ∧ w'.s.mem.NotExhausted

/-- The memory managers after their `Init`: the heap is still empty, and there is
no process. -/
structure Boot (w : World) : Prop where
  mmu : ∃ phys, w.s.mem.mmu = Mmu.init phys
  gPmm : ∃ (p : PmmBitmap) (highMem : U32), w.s.mem.gPmm = p.init kernelInfo highMem
  gPagePool : PagePool.bss.init kernelInfo = .ret w.s.mem.gPagePool
  lastBlock : w.lastBlock = kernelInfo.vHeapBase.toNat
  processes : w.processes = []

section Runs

variable {w w' : World} {op : WorldOp} {t t' : Tables} {top : TableOp}

theorem LastingStep.spaces (h : LastingStep t top t') (hs : Spaces t.k t.pds) :
    Spaces t'.k t'.pds :=
  h.1.spaces hs h.2

/-- Memory that is left at the end was left all the time. -/
theorem lasting_run {tops : List TableOp} (h : Run TableStep t tops t')
    (hmem : t'.k.NotExhausted) : Run LastingStep t tops t' := by
  have hback : ∀ s op s', TableStep s op s' → s'.k.NotExhausted → s.k.NotExhausted :=
    fun _ _ _ hstep hlast => hstep.consumes.notExhausted hlast
  exact h.of_last hback hmem

/-- A call as table steps, with memory left after each of them. -/
theorem UserStep.tables (h : UserStep w op w') (hinv : WorldInv w) :
    ∃ tops, Run LastingStep w.tables tops w'.tables ∧ ∀ t ∈ tops, TakesStep op t := by
  obtain ⟨hguard, hstep, hmem⟩ := h
  obtain ⟨⟨tops, hrun, hall⟩, -⟩ := hstep.tables hguard hinv.heap hinv.spaces.current
  exact ⟨tops, lasting_run hrun hmem, hall⟩

/-- Every call keeps the invariant. -/
theorem WorldInv.step (h : WorldInv w) (hstep : UserStep w op w') : WorldInv w' := by
  obtain ⟨tops, hrun, -⟩ := hstep.tables h
  obtain ⟨-, hplaced⟩ := hstep.2.1.tables hstep.1 h.heap h.spaces.current
  constructor
  · exact hrun.invariant (I := fun t => Spaces t.k t.pds)
      (fun _ _ _ hs hstep => hstep.spaces hs) h.spaces
  · exact hplaced

theorem PmmBitmap.reserved_init (p : PmmBitmap) (highMem : U32) :
    (p.init kernelInfo highMem).Reserved := by
  have hdiv : kernelInfo.pKernelLimit.toNat / pageSize = 2048 := rfl
  constructor
  · intro page hpage
    rw [used_init _ _ _ (by unfold ramMaxPage; omega), hdiv]
    simp [hpage]
  · have hlast := lastPage_lt highMem
    rw [used_init _ _ _ (by decide), hdiv]
    unfold ramMaxPage at hlast
    have hle : 8 * (lastPage highMem / 8) ≤ 0xFFFFF := by omega
    simp [hle]

theorem PagePool.availInPool_init {p₀ p : PagePool} (h : p₀.init kernelInfo = .ret p) :
    p.AvailInPool := by
  obtain ⟨hchain, -, hbase, hlimit, hlaid⟩ := initPagesList_spec h
  have hn : p.nbPages = 2048 := by
    have hsize : kernelInfo.vPagePoolLimit - kernelInfo.vPagePoolBase = 0x800000 := by decide
    rw [nbPages, hbase, hlimit]
    dsimp only
    rw [hsize]
    decide
  refine ⟨_, hchain, ?_⟩
  intro b hb
  have hlt := List.mem_range.mp hb
  rw [hlaid b hlt, hbase]
  have hnat : (kernelInfo.vPagePoolBase + BitVec.ofNat 32 (b * pageSize)).toNat =
      0x800000 + b * 4096 := by
    have hbase : kernelInfo.vPagePoolBase.toNat = 0x800000 := rfl
    rw [BitVec.toNat_add, BitVec.toNat_ofNat, hbase]
    unfold pageSize
    omega
  rw [InPool, IsFrame]
  dsimp only
  rw [hnat]
  omega

theorem WorldInv.boot (h : Boot w) : WorldInv w := by
  obtain ⟨phys, hmmu⟩ := h.mmu
  obtain ⟨p, highMem, hpmm⟩ := h.gPmm
  have hpds : w.pds = [] := by rw [World.pds, h.processes, List.map_nil]
  obtain ⟨hdir, htables⟩ := Mmu.init_spec phys
  have hlow (v : U32) (hv : v < vUserBaseAddr) {f : U32} (hf : frameOf (initialFrame v) = f) :
      PointsTo ((Mmu.init phys).phys (slot (kernelTable (dirIndex v)) (tableIndex v))) f := by
    rw [htables v hv, ← hf]
    exact pointsTo_kernelEntry _
  constructor
  · rw [hpds]
    constructor
    · rw [hpmm]
      exact p.reserved_init highMem
    · exact PagePool.availInPool_init h.gPagePool
    · exact List.nodup_nil
    · intro d hd
      rw [List.mem_singleton.mp hd, hmmu]
      exact hdir
    · intro d hd
      cases hd
    · intro d hd
      cases hd
    · rw [hmmu]
      exact hlow 0 (by decide) (by decide)
    · rw [hmmu]
      exact hlow 0x1000 (by decide) (by decide)
    · rw [hmmu]
      exact List.mem_singleton_self _
  · refine ⟨?_, ?_, ?_⟩
    · rw [h.lastBlock]
      rfl
    · rw [h.lastBlock]
      decide
    · rw [h.lastBlock]
      decide

/-- The invariant holds in every state reached. -/
theorem reachable_inv {ops : List WorldOp} (hboot : Boot w) (hrun : Run UserStep w ops w') :
    WorldInv w' :=
  hrun.invariant (fun _ _ _ hinv hstep => hinv.step hstep) (.boot hboot)

end Runs

end LtMicros
