import LtMicros.HeapSbrk
import LtMicros.TableSteps
import LtMicros.VadChoice
import LtMicros.VadRuns

/-!
# The processes and the memory of the kernel

The state that the allocation calls of all processes work on, and these calls as
sequences of table steps. An allocation on the kernel heap inside a call, such as
that of a new vad, is a call of `Sbrk` before it.
-/

namespace LtMicros

open Lib Lib.Frames

/-- `Process::Create`, as far as its memory is concerned. -/
def Process.create (s : VadMem) : Outcome (KeStatus × Option Process × VadMem) := do
  let (pdEntry, mem) ← s.mem.createProcessPageDirectory
  match { s with mem }.processCreate with
  | (.statusSuccess, some baseVad, s) => return (.statusSuccess, some ⟨baseVad, pdEntry⟩, s)
  | (status, _, s) => return (status, none, s)

/-- The vads and the memory managers, the kernel heap, and the processes. -/
structure World where
  s : VadMem
  bytes : Bytes
  baseBlock : ℕ
  lastBlock : ℕ
  processes : List Process

namespace World

/-- `gHeap`. -/
def heap (w : World) : Heap := ⟨w.bytes, w.baseBlock, w.lastBlock, w.s.mem.mmu, w.s.mem.gPmm⟩

/-- What a call on `gHeap` leaves. -/
def withHeap (w : World) (h : Heap) : World where
  s := { w.s with mem := { w.s.mem with mmu := h.mmu, gPmm := h.gPmm } }
  bytes := h.mem
  baseBlock := h.baseBlock
  lastBlock := h.lastBlock
  processes := w.processes

/-- The page directories of the processes. -/
def pds (w : World) : List U32 := w.processes.map Process.pdEntry

def tables (w : World) : Tables := ⟨w.s.mem, w.pds⟩

end World

/-- The calls of a run, with their parameters. -/
inductive WorldOp where
  | create
  | allocate (p : Process) (size : U32) (reservePhysicalPages : Bool)
  | allocateAtAddress (p : Process) (address size : U32) (reservePhysicalPages : Bool)
  | reservePages (p : Process) (vad : ℕ) (reservePhysicalPages : Bool)
  | resolvePageFault (p : Process) (address : U32)
  | sbrk (n : ℤ)
  | pageAlloc
  | pageFree (page : Page)
  | switchTo (pd : U32)

/-- One call that returns. -/
inductive WorldStep : World → WorldOp → World → Prop
  | create {w : World} {status : KeStatus} {p : Option Process} {s : VadMem} :
      Process.create w.s = .ret (status, p, s) →
      WorldStep w .create { w with s, processes := p.toList ++ w.processes }
  | allocate {w : World} {p : Process} {size : U32} {reserve : Bool} {fuel : ℕ}
      {status : KeStatus} {out : Option ℕ} {s : VadMem} : p ∈ w.processes →
      w.s.allocate fuel p.baseVad size p.pdEntry reserve = .ret (status, out, s) →
      WorldStep w (.allocate p size reserve) { w with s }
  | allocateAtAddress {w : World} {p : Process} {address size : U32} {reserve : Bool} {fuel : ℕ}
      {status : KeStatus} {out : Option ℕ} {s : VadMem} : p ∈ w.processes →
      w.s.allocateAtAddress fuel p.baseVad address size p.pdEntry reserve =
        .ret (status, out, s) →
      WorldStep w (.allocateAtAddress p address size reserve) { w with s }
  | reservePages {w : World} {p : Process} {vad : ℕ} {reserve : Bool} {fuel : ℕ}
      {status : KeStatus} {s : VadMem} : p ∈ w.processes →
      w.s.reservePages fuel vad p.pdEntry reserve = .ret (status, s) →
      WorldStep w (.reservePages p vad reserve) { w with s }
  | resolvePageFault {w : World} {p : Process} {address : U32} {fuel : ℕ} {status : KeStatus}
      {s : VadMem} : p ∈ w.processes →
      p.resolvePageFault fuel w.s address = .ret (status, s) →
      WorldStep w (.resolvePageFault p address) { w with s }
  | sbrk {w : World} {n : ℤ} {out : Option ℕ} {h : Heap} : w.heap.sbrk n = .ret (out, h) →
      WorldStep w (.sbrk n) (w.withHeap h)
  | pageAlloc {w : World} {page : Page} {k : KernelMem} : w.s.mem.pageAlloc = .ret (page, k) →
      WorldStep w .pageAlloc { w with s := { w.s with mem := k } }
  | pageFree {w : World} {page : Page} {fuel : ℕ} {k : KernelMem} :
      w.s.mem.pageFree fuel page = .ret k →
      WorldStep w (.pageFree page) { w with s := { w.s with mem := k } }
  | switchTo {w : World} {pd : U32} : pd ∈ allDirectories w.pds →
      WorldStep w (.switchTo pd) { w with
        s := { w.s with mem := { w.s.mem with mmu := w.s.mem.mmu.setCurrentPageDirectory pd } } }

/-- The vad lies in the user half. -/
def InUserVad (s : VadMem) (v : ℕ) : Prop :=
  vUserBaseAddr ≤ (s.vads v).baseAddress ∧ (s.vads v).limitAddress ≤ 0xFFC00000

/-- The calls that only map pages of the user half, and free nothing. -/
def MapsUser (w : World) : WorldOp → Prop
  | .allocate p size _ => ∀ fuel v s,
      w.s.chooseVad fuel p.baseVad size = .ret (.statusSuccess, some v, s) → InUserVad s v
  | .allocateAtAddress p address size _ => ∀ fuel v s,
      w.s.chooseVadAtAddress fuel p.baseVad address size = .ret (.statusSuccess, some v, s) →
        InUserVad s v
  | .reservePages _ vad _ => InUserVad w.s vad
  | .resolvePageFault _ address => InUser address
  | .pageFree _ => False
  | _ => True

/-- The table steps of the calls that map pages in the directory `d`. -/
def PageStep (d : U32) : TableOp → Prop
  | .userPage d' _ => d' = d
  | .absentPage d' _ => d' = d
  | .nullPage => True
  | .switchTo _ => True
  | _ => False

/-- The table steps that a call may take. -/
def TakesStep : WorldOp → TableOp → Prop
  | .create, t => t = .directory
  | .allocate p _ _, t => PageStep p.pdEntry t
  | .allocateAtAddress p _ _ _, t => PageStep p.pdEntry t
  | .reservePages p _ _, t => PageStep p.pdEntry t
  | .resolvePageFault p _, t => PageStep p.pdEntry t
  | .sbrk _, t => ∃ a, t = .heapPage a
  | .pageAlloc, t => t = .poolPage
  | .pageFree _, _ => False
  | .switchTo d, t => t = .switchTo d

/-! ## The current page directory -/

section Cr3

variable {m m' : Mmu} {k k' : KernelMem} {page : Page} {v p flags w : U32}

theorem Mmu.cr3_write (h : m.write v w = .ret m') : m'.cr3 = m.cr3 := by
  obtain ⟨a, -, h⟩ := Outcome.bind_eq_ret.mp h
  cases h
  rfl

theorem Mmu.cr3_addPageToKernelPageDirectory
    (h : m.addPageToKernelPageDirectory v p flags = .ret m') : m'.cr3 = m.cr3 := by
  unfold Mmu.addPageToKernelPageDirectory at h
  split at h
  · cases h
  obtain ⟨pde, -, h⟩ := Outcome.bind_eq_ret.mp h
  split at h
  · exact Mmu.cr3_write h
  · cases h

theorem Mmu.cr3_cleanPageTable (h : m.cleanPageTable v = .ret m') : m'.cr3 = m.cr3 := by
  have hloop : ∀ (l : List ℕ) (m m' : Mmu),
      l.foldlM (fun m i => m.write (v + BitVec.ofNat 32 (4 * i)) 0) m = .ret m' →
      m'.cr3 = m.cr3 := by
    intro l
    induction l with
    | nil =>
      intro m m' h
      cases h
      rfl
    | cons i l ih =>
      intro m m' h
      obtain ⟨m₁, hwrite, h⟩ := Outcome.bind_eq_ret.mp h
      exact (ih m₁ m' h).trans (Mmu.cr3_write hwrite)
  exact hloop _ m m' h

theorem cr3_pageAlloc (h : k.pageAlloc = .ret (page, k')) : k'.mmu.cr3 = k.mmu.cr3 := by
  cases hb : k.gPagePool.availPageList with
  | none =>
    simp only [KernelMem.pageAlloc, hb] at h
    cases h
    rfl
  | some b =>
    simp only [KernelMem.pageAlloc, hb] at h
    obtain ⟨mmu, hadd, h⟩ := Outcome.bind_eq_ret.mp h
    cases h
    exact Mmu.cr3_addPageToKernelPageDirectory hadd

theorem cr3_addPage (h : k.addPageToPageDirectory v p flags = .ret k') :
    k'.mmu.cr3 = k.mmu.cr3 := by
  obtain ⟨pde, -, h⟩ := Outcome.bind_eq_ret.mp h
  dsimp only at h
  split at h
  · obtain ⟨_, hk, h⟩ := Outcome.bind_eq_ret.mp h
    cases hk
    obtain ⟨mmu, hwrite, h⟩ := Outcome.bind_eq_ret.mp h
    cases h
    exact Mmu.cr3_write hwrite
  · obtain ⟨k₁, htable, h⟩ := Outcome.bind_eq_ret.mp h
    obtain ⟨mmu, hwrite, h⟩ := Outcome.bind_eq_ret.mp h
    cases h
    obtain ⟨⟨page, k₂⟩, halloc, htable⟩ := Outcome.bind_eq_ret.mp htable
    obtain ⟨mmu₁, hwrite₁, htable⟩ := Outcome.bind_eq_ret.mp htable
    obtain ⟨mmu₂, hclean, htable⟩ := Outcome.bind_eq_ret.mp htable
    cases htable
    have h₁ : mmu₂.cr3 = k.mmu.cr3 :=
      (Mmu.cr3_cleanPageTable hclean).trans ((Mmu.cr3_write hwrite₁).trans (cr3_pageAlloc halloc))
    exact (Mmu.cr3_write hwrite).trans h₁

end Cr3

/-! ## The calls as table steps -/

section Decompose

variable {k k' : KernelMem} {s s' : VadMem} {pds : List U32} {pd : U32} {v fuel : ℕ}
  {reserve : Bool} {status : KeStatus}

/-- A turn of the loop of `ReservePages` that goes on. -/
theorem reservePagesTurn_inl {limit v v' : U32}
    (h : VadMem.reservePagesTurn limit reserve (v, k) = .ret (.inl (v', k'))) :
    v < limit ∧ v' = v + 4096 ∧
      (reserve = true ∧
        k.takePage.addPageToPageDirectory v k.gPmm.getFreePage.1 presentFlags = .ret k' ∨
      reserve = false ∧ k.addPageToPageDirectory v 0 absentFlags = .ret k') := by
  simp only [VadMem.reservePagesTurn] at h
  split at h
  · rename_i hlt
    refine ⟨hlt, ?_⟩
    split at h
    · rename_i hreserve
      split at h
      · cases h
      · obtain ⟨k₁, hadd, h⟩ := Outcome.bind_eq_ret.mp h
        have heq := Sum.inl.inj (Outcome.ret.inj h)
        rw [Prod.mk.injEq] at heq
        refine ⟨heq.1.symm, .inl ⟨hreserve, ?_⟩⟩
        rw [← heq.2]
        exact hadd
    · rename_i hreserve
      obtain ⟨k₁, hadd, h⟩ := Outcome.bind_eq_ret.mp h
      have heq := Sum.inl.inj (Outcome.ret.inj h)
      rw [Prod.mk.injEq] at heq
      refine ⟨heq.1.symm, .inr ⟨Bool.eq_false_iff.mpr hreserve, ?_⟩⟩
      rw [← heq.2]
      exact hadd
  · cases h

/-- A turn that leaves the loop, at the end of the vad or without a page. -/
theorem reservePagesTurn_inr {limit v : U32}
    (h : VadMem.reservePagesTurn limit reserve (v, k) = .ret (.inr (status, k'))) :
    ¬ v < limit ∧ status = .statusSuccess ∧ k' = k ∨
    v < limit ∧ status = .statusPhysicalMemoryFull ∧ k' = k.takePage := by
  simp only [VadMem.reservePagesTurn] at h
  split at h
  · rename_i hlt
    right
    split at h
    · split at h
      · cases h
        exact ⟨hlt, rfl, rfl⟩
      · obtain ⟨k₁, -, h⟩ := Outcome.bind_eq_ret.mp h
        cases h
    · obtain ⟨k₁, -, h⟩ := Outcome.bind_eq_ret.mp h
      cases h
  · rename_i hlt
    cases h
    exact .inl ⟨hlt, rfl, rfl⟩

theorem snoc_pageStep {d : U32} {tops : List TableOp} {t : TableOp}
    (hall : ∀ t ∈ tops, PageStep d t) (ht : PageStep d t) : ∀ t' ∈ tops ++ [t], PageStep d t' := by
  intro t' ht'
  rcases List.mem_append.mp ht' with ht' | ht'
  · exact hall t' ht'
  · rw [List.mem_singleton.mp ht']
    exact ht

/-- The loop of `ReservePages` maps one page of the process after the other. -/
theorem reserveLoop_tables {base limit : U32} (hpd : k.mmu.cr3 ∈ pds)
    (hbase : vUserBaseAddr ≤ base) (hlimit : limit ≤ 0xFFC00000)
    (h : Outcome.loop (VadMem.reservePagesTurn limit reserve) fuel (base, k) =
      .ret (status, k')) :
    ∃ tops, Run TableStep ⟨k, pds⟩ tops ⟨k', pds⟩ ∧ (∀ t ∈ tops, PageStep k.mmu.cr3 t) ∧
      k'.mmu.cr3 = k.mmu.cr3 := by
  have hlimit : limit.toNat ≤ 0xFFC00000 := hlimit
  apply Outcome.loop_invariant (Q := fun r : KeStatus × KernelMem =>
      ∃ tops, Run TableStep ⟨k, pds⟩ tops ⟨r.2, pds⟩ ∧ (∀ t ∈ tops, PageStep k.mmu.cr3 t) ∧
        r.2.mmu.cr3 = k.mmu.cr3)
    (I := fun st : U32 × KernelMem => vUserBaseAddr ≤ st.1 ∧
      ∃ tops, Run TableStep ⟨k, pds⟩ tops ⟨st.2, pds⟩ ∧ (∀ t ∈ tops, PageStep k.mmu.cr3 t) ∧
        st.2.mmu.cr3 = k.mmu.cr3) _ _ _ h
  · rintro ⟨v, k₁⟩ ⟨v', k₂⟩ ⟨hv, tops, hrun, hall, hcr3⟩ hturn
    obtain ⟨hlt, rfl, hadd⟩ := reservePagesTurn_inl hturn
    have hlt : v.toNat < limit.toNat := hlt
    have hv' : 0x40000000 ≤ v.toNat := hv
    have huser : InUser v := ⟨hv, show v.toNat < 0xFFC00000 by omega⟩
    have hnext : vUserBaseAddr ≤ v + 4096 := by
      have hadd : (v + 4096).toNat = v.toNat + 4096 := by
        rw [BitVec.toNat_add]
        exact Nat.mod_eq_of_lt (by simp; omega)
      show 0x40000000 ≤ (v + 4096).toNat
      omega
    rcases hadd with ⟨-, hadd⟩ | ⟨-, hadd⟩
    · exact ⟨hnext, _, hrun.snoc (.userPage (by rwa [hcr3]) huser hadd), snoc_pageStep hall hcr3,
        (cr3_addPage hadd).trans hcr3⟩
    · exact ⟨hnext, _, hrun.snoc (.absentPage (by rwa [hcr3]) huser hadd),
        snoc_pageStep hall hcr3, (cr3_addPage hadd).trans hcr3⟩
  · rintro ⟨v, k₁⟩ ⟨status', k₂⟩ ⟨-, tops, hrun, hall, hcr3⟩ hturn
    rcases reservePagesTurn_inr hturn with ⟨-, -, rfl⟩ | ⟨-, -, rfl⟩
    · exact ⟨tops, hrun, hall, hcr3⟩
    · exact ⟨_, hrun.snoc .nullPage, snoc_pageStep hall trivial, hcr3⟩
  · exact ⟨hbase, [], .nil _, fun t ht => absurd ht List.not_mem_nil, rfl⟩

/-- A run between two changes of the current page directory. -/
theorem switched_tables {d : U32} {tops : List TableOp} (hd : d ∈ allDirectories pds)
    (hrun : Run TableStep ⟨{ k with mmu := k.mmu.setCurrentPageDirectory d }, pds⟩ tops ⟨k', pds⟩)
    (hall : ∀ t ∈ tops, PageStep d t) :
    Run TableStep ⟨k, pds⟩ (.switchTo d :: tops) ⟨k', pds⟩ ∧
      ∀ t ∈ TableOp.switchTo d :: tops, PageStep d t := by
  refine ⟨Run.cons (.switchTo hd) hrun, ?_⟩
  intro t ht
  rcases List.mem_cons.mp ht with rfl | ht
  · trivial
  · exact hall t ht

theorem snoc_switch_tables {d d' : U32} {tops : List TableOp} {t : Tables}
    (hd : d' ∈ allDirectories pds) (hrun : Run TableStep t tops ⟨k', pds⟩)
    (hall : ∀ t ∈ tops, PageStep d t) :
    Run TableStep t (tops ++ [.switchTo d'])
        ⟨{ k' with mmu := k'.mmu.setCurrentPageDirectory d' }, pds⟩ ∧
      ∀ t ∈ tops ++ [TableOp.switchTo d'], PageStep d t := by
  exact ⟨hrun.snoc (.switchTo hd), snoc_pageStep hall trivial⟩

theorem reservePages_tables (hpd : pd ∈ pds) (hcur : s.mem.mmu.cr3 ∈ allDirectories pds)
    (hv : InUserVad s v) (h : s.reservePages fuel v pd reserve = .ret (status, s')) :
    ∃ tops, Run TableStep ⟨s.mem, pds⟩ tops ⟨s'.mem, pds⟩ ∧ ∀ t ∈ tops, PageStep pd t := by
  obtain ⟨⟨status₁, k₁⟩, hloop, h⟩ := Outcome.bind_eq_ret.mp h
  obtain ⟨tops, hrun, hall, hcr3⟩ := reserveLoop_tables
    (k := { s.mem with mmu := s.mem.mmu.setCurrentPageDirectory pd }) hpd hv.1 hv.2 hloop
  have hswitched := switched_tables (List.mem_cons_of_mem _ hpd) hrun hall
  split at h
  · rename_i heq
    cases heq
    cases h
    exact ⟨_, snoc_switch_tables hcur hswitched.1 hswitched.2⟩
  · rename_i heq
    cases heq
    cases h
    exact ⟨_, hswitched⟩

theorem reserveChosen_tables {out out' : Option ℕ} {status' : KeStatus} (hpd : pd ∈ pds)
    (hcur : s.mem.mmu.cr3 ∈ allDirectories pds)
    (hv : ∀ v, status = .statusSuccess → out = some v → InUserVad s v)
    (h : VadMem.reserveChosen fuel pd reserve (status, out, s) = .ret (status', out', s')) :
    ∃ tops, Run TableStep ⟨s.mem, pds⟩ tops ⟨s'.mem, pds⟩ ∧ ∀ t ∈ tops, PageStep pd t := by
  unfold VadMem.reserveChosen at h
  split at h
  · rename_i heq
    cases heq
    obtain ⟨⟨status₁, s₁⟩, hreserve, h⟩ := Outcome.bind_eq_ret.mp h
    have htables := reservePages_tables hpd hcur (hv _ rfl rfl) hreserve
    split at h
    · rename_i heq
      cases heq
      cases h
      exact htables
    · rename_i heq
      cases heq
      cases h
      exact htables
  · rename_i heq
    cases heq
    cases h
    exact ⟨[], .nil _, fun t ht => absurd ht List.not_mem_nil⟩

theorem resolvePageFault_tables {p : Process} {address : U32} (hpd : p.pdEntry ∈ pds)
    (hcur : s.mem.mmu.cr3 ∈ allDirectories pds) (hv : InUser address)
    (h : p.resolvePageFault fuel s address = .ret (status, s')) :
    ∃ tops, Run TableStep ⟨s.mem, pds⟩ tops ⟨s'.mem, pds⟩ ∧ ∀ t ∈ tops, PageStep p.pdEntry t := by
  have hnone : ∃ tops, Run TableStep ⟨s.mem, pds⟩ tops ⟨s.mem, pds⟩ ∧
      ∀ t ∈ tops, PageStep p.pdEntry t := ⟨[], .nil _, fun t ht => absurd ht List.not_mem_nil⟩
  unfold Process.resolvePageFault at h
  split at h
  · cases h
    exact hnone
  obtain ⟨⟨status₁, out⟩, -, h⟩ := Outcome.bind_eq_ret.mp h
  split at h
  · split at h
    · cases h
      exact hnone
    · dsimp only at h
      split at h
      · cases h
        refine ⟨_, .single .nullPage, ?_⟩
        intro t ht
        rw [List.mem_singleton.mp ht]
        trivial
      · obtain ⟨k₁, hadd, h⟩ := Outcome.bind_eq_ret.mp h
        cases h
        have hstep : TableStep
            ⟨{ s.mem with mmu := s.mem.mmu.setCurrentPageDirectory p.pdEntry }, pds⟩
            (.userPage p.pdEntry address) ⟨k₁, pds⟩ :=
          .userPage (k := { s.mem with mmu := s.mem.mmu.setCurrentPageDirectory p.pdEntry })
            hpd hv hadd
        have hall : ∀ t ∈ [TableOp.userPage p.pdEntry address], PageStep p.pdEntry t := by
          intro t ht
          rw [List.mem_singleton.mp ht]
          exact rfl
        have hswitched := switched_tables (List.mem_cons_of_mem _ hpd) (.single hstep) hall
        exact ⟨_, snoc_switch_tables hcur hswitched.1 hswitched.2⟩
  · cases h
    exact hnone

/-! ### `Sbrk` -/

variable {h h' : Heap} {addr addr' n : ℕ}

/-- The loop of `Sbrk` stops the machine behind the kernel half. -/
theorem sbrkPages_le (hr : h.sbrkPages addr n = .ret (h', addr')) (hle : addr ≤ 0x40001000) :
    addr' = addr + n * pageSize ∧ addr + n * pageSize ≤ 0x40001000 := by
  induction n generalizing h addr with
  | zero =>
    cases hr
    simpa using hle
  | succ n ih =>
    simp only [Heap.sbrkPages] at hr
    split at hr
    · cases hr
    obtain ⟨mmu, hadd, hr⟩ := Outcome.bind_eq_ret.mp hr
    have hbelow : addr ≤ 0x40000000 := by
      by_contra hlt
      have hpanic : vUserBaseAddr < BitVec.ofNat 32 addr := by
        show 0x40000000 < (BitVec.ofNat 32 addr).toNat
        rw [BitVec.toNat_ofNat]
        omega
      rw [Mmu.addPageToKernelPageDirectory, if_pos hpanic] at hadd
      cases hadd
    have hnext : add32 addr pageSize = addr + pageSize :=
      add32_of_lt (by unfold pageSize; omega)
    rw [hnext] at hr
    obtain ⟨heq, hle'⟩ := ih hr (by unfold pageSize; omega)
    rw [Heap.add_pages_succ] at heq hle'
    exact ⟨heq, hle'⟩

/-- The pages of the loop are those from `addr` on. -/
theorem sbrkPages_tables {pool : PagePool} (hr : h.sbrkPages addr n = .ret (h', addr'))
    (hlo : 0x1000000 ≤ addr) (hhi : addr + n * pageSize ≤ 0x40000000)
    (haligned : addr % pageSize = 0) :
    ∃ tops, Run TableStep ⟨⟨h.mmu, h.gPmm, pool⟩, pds⟩ tops ⟨⟨h'.mmu, h'.gPmm, pool⟩, pds⟩ ∧
      ∀ t, t ∈ tops ↔ ∃ a : U32, t = .heapPage a ∧ IsFrame a ∧
        addr ≤ a.toNat ∧ a.toNat < addr + n * pageSize := by
  induction n generalizing h addr with
  | zero =>
    cases hr
    refine ⟨[], .nil _, ?_⟩
    intro t
    refine iff_of_false List.not_mem_nil ?_
    rintro ⟨a, -, -, hge, hlt⟩
    omega
  | succ n ih =>
    simp only [Heap.sbrkPages] at hr
    split at hr
    · cases hr
    obtain ⟨mmu, hadd, hr⟩ := Outcome.bind_eq_ret.mp hr
    have hpages := Heap.add_pages_succ addr n
    have hnext : add32 addr pageSize = addr + pageSize := by
      apply add32_of_lt
      unfold pageSize at *
      omega
    have haddr : (BitVec.ofNat 32 addr).toNat = addr := by
      rw [BitVec.toNat_ofNat]
      unfold pageSize at *
      omega
    rw [hnext] at hr
    obtain ⟨tops, hrun, hall⟩ := ih hr (by omega) (by omega) (by
      rw [Nat.add_mod_right]
      exact haligned)
    have hstep : TableStep ⟨⟨h.mmu, h.gPmm, pool⟩, pds⟩ (.heapPage (BitVec.ofNat 32 addr))
        ⟨⟨mmu, h.gPmm.getFreePage.2, pool⟩, pds⟩ := by
      refine .heapPage (k := ⟨h.mmu, h.gPmm, pool⟩) ?_ ?_ hadd
      · show 0x1000000 ≤ (BitVec.ofNat 32 addr).toNat
        omega
      · show (BitVec.ofNat 32 addr).toNat < 0x40000000
        unfold pageSize at *
        omega
    refine ⟨_, Run.cons hstep hrun, ?_⟩
    intro t
    rw [List.mem_cons, hall]
    constructor
    · rintro (rfl | ⟨a, rfl, hframe, hge, hlt⟩)
      · refine ⟨_, rfl, ?_, ?_, ?_⟩
        · rw [IsFrame, haddr]
          exact haligned
        · omega
        · unfold pageSize at *
          omega
      · exact ⟨a, rfl, hframe, by omega, by omega⟩
    · rintro ⟨a, rfl, hframe, hge, hlt⟩
      by_cases hfirst : a.toNat = addr
      · left
        rw [← hfirst, BitVec.ofNat_toNat, BitVec.setWidth_eq]
      · -- the next page starts a page further on
        refine .inr ⟨a, rfl, hframe, ?_, by omega⟩
        rw [IsFrame] at hframe
        unfold pageSize at *
        omega

end Decompose

/-- The end of the heap is the start of a page of its area. -/
def World.HeapPlaced (w : World) : Prop :=
  w.lastBlock % pageSize = 0 ∧ 0x1000000 ≤ w.lastBlock ∧ w.lastBlock ≤ 0x40000000

/-- `Sbrk` maps the pages from the old end of the heap to the new one. -/
theorem sbrk_tables {w : World} {n : ℤ} {out : Option ℕ} {h : Heap} (hplaced : w.HeapPlaced)
    (hr : w.heap.sbrk n = .ret (out, h)) :
    (∃ tops, Run TableStep w.tables tops (w.withHeap h).tables ∧
      ∀ t, t ∈ tops ↔ ∃ a : U32, t = .heapPage a ∧ IsFrame a ∧
        w.lastBlock ≤ a.toNat ∧ a.toNat < h.lastBlock) ∧
    (w.withHeap h).HeapPlaced := by
  obtain ⟨haligned, hlo, hhi⟩ := hplaced
  unfold Heap.sbrk at hr
  split at hr
  · cases hr
    refine ⟨⟨[], .nil _, ?_⟩, haligned, hlo, hhi⟩
    intro t
    refine iff_of_false List.not_mem_nil ?_
    rintro ⟨a, -, -, hge, hlt⟩
    exact absurd hlt (Nat.not_lt.mpr hge)
  · dsimp only at hr
    split at hr
    · cases hr
    rename_i hroom
    obtain ⟨⟨h₁, heap⟩, hpages, hr⟩ := Outcome.bind_eq_ret.mp hr
    cases hr
    obtain ⟨rfl, hle⟩ := sbrkPages_le hpages (show w.lastBlock ≤ 0x40001000 by omega)
    have hlast : w.heap.lastBlock = w.lastBlock := rfl
    rw [hlast] at hroom hpages hle ⊢
    -- the machine did not stop, so nothing has wrapped, and the limit was respected
    have hbytes : n.toNat * pageSize % 2 ^ 32 = n.toNat * pageSize :=
      Nat.mod_eq_of_lt (by omega)
    rw [hbytes, add32_of_lt (by omega)] at hroom
    have hlimit : kernelInfo.vHeapLimit.toNat = 0x40000000 := rfl
    rw [hlimit] at hroom
    obtain ⟨tops, hrun, hall⟩ := sbrkPages_tables hpages hlo (by omega) haligned
    refine ⟨⟨tops, hrun, hall⟩, ?_, ?_, ?_⟩
    · show (w.lastBlock + n.toNat * pageSize) % pageSize = 0
      rw [Nat.add_mul_mod_self_right]
      exact haligned
    · show 0x1000000 ≤ w.lastBlock + n.toNat * pageSize
      omega
    · show w.lastBlock + n.toNat * pageSize ≤ 0x40000000
      omega

/-! ## The invariant of runs -/

/-- Every call is a sequence of table steps of its own kind. -/
theorem WorldStep.tables {w w' : World} {op : WorldOp} (h : WorldStep w op w')
    (hguard : MapsUser w op) (hplaced : w.HeapPlaced)
    (hcur : w.s.mem.mmu.cr3 ∈ allDirectories w.pds) :
    (∃ tops, Run TableStep w.tables tops w'.tables ∧ ∀ t ∈ tops, TakesStep op t) ∧
      w'.HeapPlaced := by
  have hpd {p : Process} (hp : p ∈ w.processes) : p.pdEntry ∈ w.pds := List.mem_map_of_mem hp
  cases h with
  | create hr =>
    obtain ⟨⟨f, k⟩, hdir, hr⟩ := Outcome.bind_eq_ret.mp hr
    obtain ⟨m, hm, -, -, hmem⟩ := VadMem.processCreate_spec { w.s with mem := k }
    have hstep : TableStep w.tables .directory ⟨m.mem, f :: w.pds⟩ := by
      rw [hmem]
      exact .directory hdir
    simp only [hm] at hr
    cases hr
    refine ⟨⟨[.directory], .single ?_, ?_⟩, hplaced⟩
    · exact hstep
    · intro t ht
      exact List.mem_singleton.mp ht
  | allocate hp hr =>
    rw [VadMem.allocate_eq] at hr
    obtain ⟨⟨status, out, s₁⟩, hchoose, hr⟩ := Outcome.bind_eq_ret.mp hr
    have hmem : s₁.mem = w.s.mem := VadMem.chooseVad_mem hchoose
    refine ⟨?_, hplaced⟩
    have htables := reserveChosen_tables (hpd hp) (by rwa [hmem]) (by
      rintro v rfl rfl
      exact hguard _ v s₁ hchoose) hr
    rwa [hmem] at htables
  | allocateAtAddress hp hr =>
    rw [VadMem.allocateAtAddress_eq] at hr
    obtain ⟨⟨status, out, s₁⟩, hchoose, hr⟩ := Outcome.bind_eq_ret.mp hr
    have hmem : s₁.mem = w.s.mem := VadMem.chooseVadAtAddress_mem hchoose
    refine ⟨?_, hplaced⟩
    have htables := reserveChosen_tables (hpd hp) (by rwa [hmem]) (by
      rintro v rfl rfl
      exact hguard _ v s₁ hchoose) hr
    rwa [hmem] at htables
  | reservePages hp hr => exact ⟨reservePages_tables (hpd hp) hcur hguard hr, hplaced⟩
  | resolvePageFault hp hr => exact ⟨resolvePageFault_tables (hpd hp) hcur hguard hr, hplaced⟩
  | sbrk hr =>
    obtain ⟨⟨tops, hrun, hall⟩, hplaced'⟩ := sbrk_tables hplaced hr
    refine ⟨⟨tops, hrun, ?_⟩, hplaced'⟩
    intro t ht
    obtain ⟨a, rfl, -⟩ := (hall t).mp ht
    exact ⟨a, rfl⟩
  | pageAlloc hr =>
    refine ⟨⟨[.poolPage], .single (.poolPage hr), ?_⟩, hplaced⟩
    intro t ht
    exact List.mem_singleton.mp ht
  | pageFree => exact absurd hguard id
  | switchTo hd =>
    refine ⟨⟨_, .single (.switchTo hd), ?_⟩, hplaced⟩
    intro t ht
    exact List.mem_singleton.mp ht

end LtMicros
