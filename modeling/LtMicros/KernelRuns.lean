import LtMicros.ProcessMemory

/-!
# Runs of calls that keep out of the kernel half

The kernel half of the tables, and the vads, along runs of calls whose addresses
keep out of it. Memory may be exhausted, except where a process is created.
-/

namespace LtMicros

open Lib Lib.Frames

/-- The state of the address spaces, the kernel's tables and the vads. -/
structure InOrder (w : World) : Prop where
  spaces : Spaces w.s.mem w.pds
  heap : w.HeapPlaced
  mapped : KernelMapped w.s.mem.mmu.phys
  closed : w.s.Closed
  bases : ∀ p ∈ w.processes, p.baseVad < w.s.heapTop

/-- No address that the call maps is one of the kernel's, or leads to a shared
directory entry. -/
def KeepsOut (w : World) : WorldOp → Prop
  | .create => w.s.mem.NotExhausted
  | .allocate p size _ => ∀ u, w.s.AllocatePasses p.baseVad size u → ¬ HitsKernel u
  | .allocateAtAddress p address size _ =>
    ∀ u, w.s.AllocateAtPasses p.baseVad address size u → ¬ HitsKernel u
  | .reservePages _ vad _ =>
    ∀ u, Passes (w.s.vads vad).baseAddress (w.s.vads vad).limitAddress u → ¬ HitsKernel u
  | .resolvePageFault _ address => ¬ HitsKernel address ∧ address.toNat < 0xFFFFF000
  | .pageFree _ => False
  | _ => True

/-! ## The tables of the kernel half -/

section Mapped

variable {k k' : KernelMem} {phys phys' : U32 → U32} {pds : List U32}
  {a d i t v w p flags : U32} {b : ℕ}

theorem kernelPte_congr (h : frameOf a = frameOf v) : kernelPte a = kernelPte v := by
  have hnat := congrArg BitVec.toNat h
  rw [toNat_frameOf, toNat_frameOf] at hnat
  obtain ⟨hdir, htable⟩ := page_eq_iff.mp (Nat.eq_of_mul_eq_mul_right (by decide) hnat)
  rw [kernelPte_eq, kernelPte_eq, hdir, htable]

theorem KernelMapped.congr (h : KernelMapped phys)
    (heq : ∀ a, a < vUserBaseAddr → phys' (kernelPte a) = phys (kernelPte a)) :
    KernelMapped phys' := by
  intro a ha
  rw [heq a ha]
  exact h a ha

theorem KernelMapped.set_off (h : KernelMapped phys) (ht : IsFrame t) (hoff : OffKernel t)
    (hi : i.toNat < 1024) : KernelMapped (set phys t i w) :=
  h.congr fun _ ha => set_kernelPte ha ht hoff hi

theorem KernelMapped.fill_off (h : KernelMapped phys) (ht : IsFrame t) (hoff : OffKernel t)
    (x : U32 → U32) : KernelMapped (fill phys t x 1024) :=
  h.congr fun _ ha => fill_kernelPte ha ht hoff x

/-- A page that the kernel maps for itself. -/
theorem KernelMapped.set_entry (h : KernelMapped phys) (hv : v < vUserBaseAddr) (p : U32) :
    KernelMapped (set phys (kernelTable (dirIndex v)) (tableIndex v) (kernelEntry p)) := by
  intro a ha
  by_cases hpage : frameOf a = frameOf v
  · rw [kernelPte_congr hpage, set_kernelPte_self]
    exact ⟨p, rfl⟩
  · rw [set_kernelPte_ne ha hv hpage]
    exact h a ha

theorem KernelMapped.afterPageAlloc (h : KernelMapped k.mmu.phys) (hpool : k.gPagePool.AvailInPool)
    (hb : k.gPagePool.availPageList = some b) : KernelMapped (k.afterPageAlloc b).mmu.phys :=
  h.set_entry (hpool.head hb).lt _

theorem KernelMapped.newTable (h : KernelMapped phys) (hd : IsFrame d) (hoff : OffKernel d)
    (hoff' : OffKernel (frameOf t)) : KernelMapped (newTable phys d v t flags w) := by
  have hf := isFrame_frameOf t
  exact ((h.set_off hd hoff (dirIndex_lt v)).fill_off hf hoff' _).set_off hf hoff' (tableIndex_lt v)

theorem KernelMapped.newDirectory (h : KernelMapped phys) (hd : IsFrame d) (hoff : OffKernel d) :
    KernelMapped (newDirectory phys d) :=
  (h.fill_off hd hoff _).set_off hd hoff (by decide)

/-- A page of the user half leaves them as the kernel fills them. -/
theorem KernelMapped.of_adds (h : KernelMapped k.mmu.phys) (hs : Spaces k pds) (hd : d ∈ pds)
    (hv : InUser v) (hadds : Adds k d v p flags k') : KernelMapped k'.mmu.phys := by
  have hdir := hs.directory hd
  cases hadds with
  | present ht =>
    exact h.set_off ht.frame (hs.tables d hd _ hv.userIndex _ ht).off (tableIndex_lt v)
  | fresh _ hb =>
    exact (h.afterPageAlloc hs.pool hb).newTable hdir.frame hdir.off hs.isTable_gives.off
  | empty => exact h.newTable hdir.frame hdir.off hs.isTable_zero.off

/-- An entry of the user half of a directory is written. -/
theorem Spaces.setEntry (h : Spaces k pds) (hd : d ∈ pds) (hi : UserIndex i)
    (hframe : ∀ g, PointsTo w g → IsTable k.gPmm pds g) :
    Spaces (k.withPhys (set k.mmu.phys d i w)) pds := by
  have hdir := h.directory hd
  have hi' : i.toNat < 1024 := Nat.lt_succ_of_lt hi.2
  apply h.update
  · exact fun _ hq => hq
  · exact h.pool
  · exact h.current
  · intro g hg j hj
    exact set_of_index_ne hdir.frame (h.directories g hg).frame hi' (lt_of_shared hj)
      (userIndex_ne hi hj)
  · intro g hg j hj t ht
    rw [KernelMem.withPhys_phys, set_slot hdir.frame (h.directory hg).frame hi'
      (Nat.lt_succ_of_lt hj.2)] at ht
    split at ht
    · exact .inr (hframe t ht)
    · exact .inl ht
  · intro j hj
    exact set_of_frame_ne hdir.frame (isFrame_kernelTable (by decide)) hi' (by omega)
      (hdir.off.ne_kernelTable (by decide)).symm

/-- A page outside the kernel half is mapped. -/
theorem Spaces.mapPage (h : Spaces k pds) (hm : KernelMapped k.mmu.phys) (hd : k.mmu.cr3 ∈ pds)
    (hout : ¬ HitsKernel v) (hlast : v.toNat < 0xFFFFF000)
    (hframe : ∀ g, PointsTo (setPageTableEntry p flags) g → IsTable k.gPmm pds g)
    (hr : k.addPageToPageDirectory v p flags = .ret k') :
    Spaces k' pds ∧ KernelMapped k'.mmu.phys := by
  have hdir := h.directory hd
  by_cases hwindow : 0xFFC00000 ≤ v.toNat
  · obtain ⟨hindex, htable⟩ := window_index hwindow
    have huser : UserIndex (tableIndex v) := by
      have hhigh : ¬ v.toNat < 0xFFD00000 := fun hlt => hout (.inr ⟨hwindow, hlt⟩)
      rw [UserIndex, htable]
      omega
    rw [addWindowPage h.currentDirectory.self hindex, h.directory_eq] at hr
    cases hr
    constructor
    · exact h.setEntry hd huser hframe
    · exact hm.set_off hdir.frame hdir.off (tableIndex_lt v)
  · have huser : InUser v := by
      constructor
      · exact BitVec.not_lt.mp fun hlt => hout (.inl hlt)
      · exact Nat.lt_of_not_le hwindow
    obtain ⟨k₁, hr', hadds⟩ := h.adds huser p flags
    cases hr.symm.trans hr'
    constructor
    · exact h.of_adds hd huser hadds
    · exact hm.of_adds h hd huser hadds

/-- A page that the bitmap has just given may be mapped. -/
theorem Spaces.frame_gives (h : Spaces k pds) {g : U32}
    (hg : PointsTo (setPageTableEntry k.gPmm.getFreePage.1 flags) g) :
    IsTable k.takePage.gPmm pds g := by
  have hframe := frameOf_setPageTableEntry k.gPmm.getFreePage.1 flags
  have heq : g = frameOf k.gPmm.getFreePage.1 := hg.2.symm.trans hframe
  rw [heq]
  exact h.isTable_gives

end Mapped

/-! ## The calls -/

section Calls

variable {k k' : KernelMem} {s s' : VadMem} {pds : List U32} {base limit v pd : U32} {vad fuel : ℕ}
  {reserve : Bool} {status : KeStatus} {w w' : World} {op : WorldOp}

/-- With page 0 in use, `GetFreePage` never answers null. -/
theorem reservePagesTurn_success (h0 : k.gPmm.used 0 = true)
    (h : VadMem.reservePagesTurn limit reserve (v, k) = .ret (.inr (status, k'))) :
    status = .statusSuccess ∧ k' = k := by
  rcases reservePagesTurn_inr h with ⟨-, hstatus, hk⟩ | ⟨hlt, -, -⟩
  · exact ⟨hstatus, hk⟩
  · obtain ⟨hne, -⟩ := PmmBitmap.getFreePage_ne_null h0
    simp only [VadMem.reservePagesTurn, if_pos hlt, if_neg hne] at h
    split at h
    · obtain ⟨_, -, h⟩ := Outcome.bind_eq_ret.mp h
      cases h
    · obtain ⟨_, -, h⟩ := Outcome.bind_eq_ret.mp h
      cases h

/-- So the loop of `ReservePages` only ends behind the vad. -/
theorem reserveLoop_success (h0 : k.gPmm.used 0 = true)
    (h : Outcome.loop (VadMem.reservePagesTurn limit reserve) fuel (base, k) =
      .ret (status, k')) : status = .statusSuccess := by
  have hpage : (0 : ℕ) < ramMaxPage := by decide
  have hkept {k₁ k₂ : KernelMem} (h0 : k₁.gPmm.used 0 = true) (hconsumes : k₁.Consumes k₂) :
      k₂.gPmm.used 0 = true := by
    by_contra hfree
    have hmem : 0 ∈ k₂.gPmm.freePages := by
      rw [PmmBitmap.freePages, Finset.mem_filter, Finset.mem_range]
      exact ⟨hpage, Bool.not_eq_true _ ▸ hfree⟩
    have hused := (Finset.mem_filter.mp (hconsumes.pages hmem)).2
    rw [h0] at hused
    cases hused
  apply Outcome.loop_invariant (I := fun st : U32 × KernelMem => st.2.gPmm.used 0 = true)
    (Q := fun r : KeStatus × KernelMem => r.1 = .statusSuccess) _ _ h0 h
  · rintro ⟨v, k₁⟩ ⟨v', k₂⟩ hused hturn
    obtain ⟨-, -, hadd⟩ := reservePagesTurn_inl hturn
    rcases hadd with ⟨-, hadd⟩ | ⟨-, hadd⟩
    · exact hkept hused (k₁.consumes_takePage.trans (consumes_addPage hadd))
    · exact hkept hused (consumes_addPage hadd)
  · rintro ⟨v, k₁⟩ ⟨status₁, k₂⟩ hused hturn
    exact (reservePagesTurn_success hused hturn).1

/-- The loop keeps the address spaces and the kernel's tables in order. -/
theorem reserveLoop_inOrder (hs : Spaces k pds) (hm : KernelMapped k.mmu.phys)
    (hd : k.mmu.cr3 ∈ pds) (hout : ∀ u, Passes base limit u → ¬ HitsKernel u)
    (h : Outcome.loop (VadMem.reservePagesTurn limit reserve) fuel (base, k) =
      .ret (status, k')) : status = .statusSuccess ∧ Spaces k' pds ∧ KernelMapped k'.mmu.phys := by
  have hsuccess := reserveLoop_success (hs.reserved.kernel 0 (by decide)) h
  rw [hsuccess] at h
  refine ⟨hsuccess, ?_⟩
  have hbound := reserveLoop_bound h
  apply Outcome.loop_invariant (I := fun st : U32 × KernelMem => base.toNat ≤ st.1.toNat ∧
      st.1.toNat % 4096 = base.toNat % 4096 ∧ Spaces st.2 pds ∧ KernelMapped st.2.mmu.phys ∧
      st.2.mmu.cr3 ∈ pds)
    (Q := fun r : KeStatus × KernelMem => Spaces r.2 pds ∧ KernelMapped r.2.mmu.phys) _ _ _ h
  · rintro ⟨v, k₁⟩ ⟨v', k₂⟩ ⟨hle, hclass, hs₁, hm₁, hd₁⟩ hturn
    obtain ⟨hlt, rfl, hadd⟩ := reservePagesTurn_inl hturn
    dsimp only at hle hclass hs₁ hm₁ hd₁ ⊢
    obtain ⟨hnext, htop⟩ := next_page hbound hclass hlt
    have hfree := hout v ⟨hle, hlt, hclass⟩
    refine ⟨by omega, by omega, ?_⟩
    rcases hadd with ⟨-, hadd⟩ | ⟨-, hadd⟩
    · obtain ⟨hs₂, hm₂⟩ := hs₁.takePage.mapPage hm₁ hd₁ hfree htop
        (fun _ hg => hs₁.frame_gives hg) hadd
      refine ⟨hs₂, hm₂, ?_⟩
      rw [cr3_addPage hadd]
      exact hd₁
    · obtain ⟨hs₂, hm₂⟩ := hs₁.mapPage hm₁ hd₁ hfree htop (by
        intro g hg
        have hpresent := hg.1
        rw [flagOn_setPageTableEntry] at hpresent
        exact absurd hpresent (by decide)) hadd
      refine ⟨hs₂, hm₂, ?_⟩
      rw [cr3_addPage hadd]
      exact hd₁
  · rintro ⟨v, k₁⟩ ⟨status₁, k₂⟩ ⟨-, -, hs₁, hm₁, -⟩ hturn
    obtain ⟨-, rfl⟩ := reservePagesTurn_success (hs₁.reserved.kernel 0 (by decide)) hturn
    exact ⟨hs₁, hm₁⟩
  · exact ⟨Nat.le_refl _, rfl, hs, hm, hd⟩

theorem reservePages_inOrder (hs : Spaces s.mem pds) (hm : KernelMapped s.mem.mmu.phys)
    (hpd : pd ∈ pds)
    (hout : ∀ u, Passes (s.vads vad).baseAddress (s.vads vad).limitAddress u → ¬ HitsKernel u)
    (h : s.reservePages fuel vad pd reserve = .ret (status, s')) :
    Spaces s'.mem pds ∧ KernelMapped s'.mem.mmu.phys := by
  obtain ⟨⟨status₁, k₁⟩, hloop, h⟩ := Outcome.bind_eq_ret.mp h
  have hswitched := hs.switch (List.mem_cons_of_mem _ hpd)
  obtain ⟨hsuccess, hs₁, hm₁⟩ := reserveLoop_inOrder hswitched hm hpd hout hloop
  cases hsuccess
  cases h
  exact ⟨hs₁.switch hs.current, hm₁⟩

theorem reserveChosen_inOrder {out out' : Option ℕ} {status' : KeStatus}
    (hs : Spaces s.mem pds) (hm : KernelMapped s.mem.mmu.phys) (hpd : pd ∈ pds)
    (hout : ∀ v, status = .statusSuccess → out = some v → ∀ u,
      Passes (s.vads v).baseAddress (s.vads v).limitAddress u → ¬ HitsKernel u)
    (h : VadMem.reserveChosen fuel pd reserve (status, out, s) = .ret (status', out', s')) :
    Spaces s'.mem pds ∧ KernelMapped s'.mem.mmu.phys := by
  unfold VadMem.reserveChosen at h
  split at h
  · rename_i heq
    cases heq
    obtain ⟨⟨status₁, s₁⟩, hreserve, h⟩ := Outcome.bind_eq_ret.mp h
    have hinOrder := reservePages_inOrder hs hm hpd (hout _ rfl rfl) hreserve
    split at h
    · rename_i heq
      cases heq
      cases h
      exact hinOrder
    · rename_i heq
      cases heq
      cases h
      exact hinOrder
  · rename_i heq
    cases heq
    cases h
    exact ⟨hs, hm⟩

theorem resolvePageFault_inOrder {p : Process} {address : U32} (hs : Spaces s.mem pds)
    (hm : KernelMapped s.mem.mmu.phys) (hpd : p.pdEntry ∈ pds) (hout : ¬ HitsKernel address)
    (hlast : address.toNat < 0xFFFFF000)
    (h : p.resolvePageFault fuel s address = .ret (status, s')) :
    Spaces s'.mem pds ∧ KernelMapped s'.mem.mmu.phys ∧ VadMem.Grows s s' := by
  unfold Process.resolvePageFault at h
  split at h
  · cases h
    exact ⟨hs, hm, .refl s⟩
  obtain ⟨⟨status₁, out⟩, -, h⟩ := Outcome.bind_eq_ret.mp h
  split at h
  · split at h
    · cases h
      exact ⟨hs, hm, .refl s⟩
    · dsimp only at h
      split at h
      · cases h
        exact ⟨hs.takePage, hm, s.grows_mem _⟩
      · obtain ⟨k₁, hadd, h⟩ := Outcome.bind_eq_ret.mp h
        cases h
        have hswitched := hs.switch (List.mem_cons_of_mem _ hpd)
        obtain ⟨hs₁, hm₁⟩ := hswitched.takePage.mapPage hm hpd hout hlast
          (fun _ hg => hswitched.frame_gives hg) hadd
        exact ⟨hs₁.switch hs.current, hm₁, s.grows_mem _⟩
  · cases h
    exact ⟨hs, hm, .refl s⟩

end Calls

/-! ## Runs -/

section Runs

variable {w w' : World} {op : WorldOp} {t t' : Tables}

/-- Pages of the heap. -/
theorem heapPages_inOrder {tops : List TableOp} (hrun : Run TableStep t tops t')
    (hops : ∀ top ∈ tops, ∃ a, top = .heapPage a) (hs : Spaces t.k t.pds)
    (hm : KernelMapped t.k.mmu.phys) : Spaces t'.k t'.pds ∧ KernelMapped t'.k.mmu.phys := by
  apply (hrun.of_forall hops).invariant
    (I := fun t => Spaces t.k t.pds ∧ KernelMapped t.k.mmu.phys) _ ⟨hs, hm⟩
  rintro t₁ top t₂ ⟨hs, hm⟩ ⟨⟨a, rfl⟩, hstep⟩
  cases hstep with
  | @heapPage k _ _ _ hlo hhi hr =>
    obtain ⟨heq, ha, hlt⟩ := heapPage_eq hs hlo hhi hr
    have hs' := hs.mapKernelPage ha hlt
    have hm' : KernelMapped (k.mapKernelPage a).mmu.phys := hm.set_entry hlt _
    rw [← heq] at hs' hm'
    exact ⟨hs', hm'⟩

/-- Every call that keeps out of the kernel half leaves the state in order. -/
theorem InOrder.step (h : InOrder w) (hguard : KeepsOut w op) (hstep : WorldStep w op w') :
    InOrder w' := by
  have hpd {p : Process} (hp : p ∈ w.processes) : p.pdEntry ∈ w.pds := List.mem_map_of_mem hp
  have hbases {s : VadMem} (hgrows : VadMem.Grows w.s s) :
      ∀ p ∈ w.processes, p.baseVad < s.heapTop :=
    fun p hp => (h.bases p hp).trans_le hgrows.heapTop
  cases hstep with
  | @create status p s hr =>
    obtain ⟨⟨f, k⟩, hdir, hr⟩ := Outcome.bind_eq_ret.mp hr
    obtain ⟨b, hb⟩ := Option.ne_none_iff_exists'.mp hguard.2
    obtain ⟨f', -, hframe, -, hdir', hs'⟩ := h.spaces.createProcessPageDirectory hb hguard.1
    cases hdir.symm.trans hdir'
    have hoff := (hs'.directory List.mem_cons_self).off
    have hmapped := (h.mapped.afterPageAlloc h.spaces.pool hb).newDirectory hframe hoff
    have hphys : KernelMapped ((w.s.mem.afterPageAlloc b).withPhys
      (newDirectory (w.s.mem.afterPageAlloc b).mmu.phys f)).mmu.phys := hmapped
    generalize (w.s.mem.afterPageAlloc b).withPhys
      (newDirectory (w.s.mem.afterPageAlloc b).mmu.phys f) = k at hs' hphys hr
    obtain ⟨s₁, hcreate, -, htop, hmem⟩ := VadMem.processCreate_spec { w.s with mem := k }
    have hgrows := (w.s.grows_mem k).trans (VadMem.grows_create { w.s with mem := k }
      vProcessBaseAddr (vProcessLimitAddr - vProcessBaseAddr) true)
    rw [← VadMem.processCreate, hcreate] at hgrows
    simp only [hcreate] at hr
    cases hr
    constructor
    · show Spaces s.mem (f :: w.pds)
      rw [hmem]
      exact hs'
    · exact h.heap
    · rw [hmem]
      exact hphys
    · exact hgrows.closed h.closed
    · intro p hp
      rcases List.mem_cons.mp hp with rfl | hp
      · show w.s.heapTop < s.heapTop
        rw [htop]
        exact Nat.lt_succ_self _
      · exact (h.bases p hp).trans_le hgrows.heapTop
  | allocate hp hr =>
    rw [VadMem.allocate_eq] at hr
    obtain ⟨⟨status, out, s₁⟩, hchoose, hr⟩ := Outcome.bind_eq_ret.mp hr
    have hmem : s₁.mem = w.s.mem := VadMem.chooseVad_mem hchoose
    have hgrows := (VadMem.chooseVad_grows h.closed (h.bases _ hp) hchoose).trans
      (VadMem.reserveChosen_grows hr)
    obtain ⟨hs', hm'⟩ := reserveChosen_inOrder (by rw [hmem]; exact h.spaces)
      (by rw [hmem]; exact h.mapped) (hpd hp) (by
        rintro v rfl rfl u hu
        obtain ⟨x, hlook, hbase, hlimit⟩ :=
          VadMem.chooseVad_region h.closed (h.bases _ hp) hchoose
        rw [hbase, hlimit] at hu
        exact hguard u ⟨_, x, hlook, hu⟩) hr
    exact ⟨hs', h.heap, hm', hgrows.closed h.closed, hbases hgrows⟩
  | allocateAtAddress hp hr =>
    rw [VadMem.allocateAtAddress_eq] at hr
    obtain ⟨⟨status, out, s₁⟩, hchoose, hr⟩ := Outcome.bind_eq_ret.mp hr
    have hmem : s₁.mem = w.s.mem := VadMem.chooseVadAtAddress_mem hchoose
    have hgrows := (VadMem.chooseVadAtAddress_grows h.closed (h.bases _ hp) hchoose).trans
      (VadMem.reserveChosen_grows hr)
    obtain ⟨hs', hm'⟩ := reserveChosen_inOrder (by rw [hmem]; exact h.spaces)
      (by rw [hmem]; exact h.mapped) (hpd hp) (by
        rintro v rfl rfl u hu
        obtain ⟨x, hlook, hbase, hlimit⟩ :=
          VadMem.chooseVadAtAddress_region h.closed (h.bases _ hp) hchoose
        rw [hbase, hlimit] at hu
        exact hguard u ⟨_, x, hlook, hu⟩) hr
    exact ⟨hs', h.heap, hm', hgrows.closed h.closed, hbases hgrows⟩
  | reservePages hp hr =>
    obtain ⟨hs', hm'⟩ := reservePages_inOrder h.spaces h.mapped (hpd hp) hguard hr
    have hgrows := VadMem.reservePages_grows hr
    exact ⟨hs', h.heap, hm', hgrows.closed h.closed, hbases hgrows⟩
  | resolvePageFault hp hr =>
    obtain ⟨hs', hm', hgrows⟩ :=
      resolvePageFault_inOrder h.spaces h.mapped (hpd hp) hguard.1 hguard.2 hr
    exact ⟨hs', h.heap, hm', hgrows.closed h.closed, hbases hgrows⟩
  | sbrk hr =>
    obtain ⟨⟨tops, hrun, hall⟩, hplaced⟩ := sbrk_tables h.heap hr
    obtain ⟨hs', hm'⟩ := heapPages_inOrder hrun (by
      intro top htop
      obtain ⟨a, heq, -⟩ := (hall top).mp htop
      exact ⟨a, heq⟩) h.spaces h.mapped
    exact ⟨hs', hplaced, hm', h.closed, h.bases⟩
  | pageAlloc hr =>
    cases hb : w.s.mem.gPagePool.availPageList with
    | none =>
      cases hr.symm.trans (pageAlloc_none hb)
      exact ⟨h.spaces, h.heap, h.mapped, h.closed, h.bases⟩
    | some b =>
      cases hr.symm.trans (pageAlloc_eq h.spaces.currentDirectory hb (h.spaces.pool.head hb))
      exact ⟨h.spaces.afterPageAlloc hb, h.heap, h.mapped.afterPageAlloc h.spaces.pool hb, h.closed,
        h.bases⟩
  | pageFree => exact absurd hguard id
  | switchTo hd => exact ⟨h.spaces.switch hd, h.heap, h.mapped, h.closed, h.bases⟩

/-- The kernel starts in order. -/
theorem InOrder.boot (h : Boot w) (hempty : w.s.heapTop = 0) : InOrder w := by
  have hinv := WorldInv.boot h
  obtain ⟨phys, hmmu⟩ := h.mmu
  constructor
  · exact hinv.spaces
  · exact hinv.heap
  · intro v hv
    obtain ⟨-, htables⟩ := Mmu.init_spec phys
    rw [hmmu, kernelPte_eq, htables v hv]
    exact ⟨_, rfl⟩
  · intro v hv
    rw [hempty] at hv
    exact absurd hv (Nat.not_lt_zero v)
  · intro p hp
    rw [h.processes] at hp
    cases hp

/-- So is every state that a run reaches. -/
theorem InOrder.run {ops : List WorldOp} (h : InOrder w)
    (hrun : Run (Guarded KeepsOut WorldStep) w ops w') : InOrder w' :=
  hrun.guarded_invariant (fun _ _ _ hi hguard hstep => hi.step hguard hstep) h

end Runs

/-! ## The two calls of a process -/

/-- The calls that give memory to a process. -/
inductive MemoryCall where
  | allocateMemory (size : U32) (reservePhysicalPages : Bool) (outAddress : U32)
  | allocateMemoryAtAddress (address : U32) (reservePhysicalPages : Bool) (size : U32)

namespace MemoryCall

/-- The call returns `STATUS_SUCCESS` and leaves `s'`. -/
def Succeeds (this : Process) (s s' : VadMem) : MemoryCall → Prop
  | allocateMemory size reserve outAddress => ∃ fuel address,
      this.allocateMemory fuel s size reserve outAddress = .ret (.statusSuccess, address, s')
  | allocateMemoryAtAddress address reserve size => ∃ fuel,
      this.allocateMemoryAtAddress fuel s address reserve size = .ret (.statusSuccess, s')

/-- The call maps the page of the address `u`. -/
def Passes (this : Process) (s : VadMem) (u : U32) : MemoryCall → Prop
  | allocateMemory size _ _ => s.AllocatePasses this.baseVad size u
  | allocateMemoryAtAddress address _ size => s.AllocateAtPasses this.baseVad address size u

end MemoryCall

section Calls

variable {k k' : KernelMem} {s s₁ s' : VadMem} {pds : List U32} {pd : U32} {fuel : ℕ}
  {reserve : Bool} {status : KeStatus} {out out' : Option ℕ}

/-- Which directory is the current one does not matter for the kernel half. -/
theorem kernelHalfKept_switch {d d' d'' : U32} :
    KernelHalfKept { k with mmu := k.mmu.setCurrentPageDirectory d }
      { k' with mmu := k'.mmu.setCurrentPageDirectory d' } d'' ↔ KernelHalfKept k k' d'' := by
  constructor
  · intro h
    exact ⟨h.entries, h.tables⟩
  · intro h
    exact ⟨h.entries, h.tables⟩

/-- A vad that has been chosen is reserved. -/
theorem reserveChosen_kept_iff (hs : Spaces s.mem pds) (hm : KernelMapped s.mem.mmu.phys)
    (hpd : pd ∈ pds) (hout : status = .statusSuccess → out ≠ none)
    (h : VadMem.reserveChosen fuel pd reserve (status, out, s) = .ret (.statusSuccess, out', s')) :
    ∃ v, status = .statusSuccess ∧ out = some v ∧ (KernelHalfKept s.mem s'.mem pd ↔
      ∀ u, Passes (s.vads v).baseAddress (s.vads v).limitAddress u → ¬ HitsKernel u) := by
  unfold VadMem.reserveChosen at h
  split at h
  · rename_i v _ heq
    cases heq
    refine ⟨v, rfl, rfl, ?_⟩
    obtain ⟨⟨status₁, s₁⟩, hreserve, h⟩ := Outcome.bind_eq_ret.mp h
    split at h
    · rename_i heq
      cases heq
      cases h
      obtain ⟨⟨status₂, k₁⟩, hloop, hreserve⟩ := Outcome.bind_eq_ret.mp hreserve
      split at hreserve
      · rename_i heq
        cases heq
        cases hreserve
        have hsane := (hs.switch (List.mem_cons_of_mem _ hpd)).sane hpd rfl
        have hmain := reserveLoop_kept_iff hsane hm hloop
        constructor
        · intro hkept
          exact hmain.mp ⟨hkept.entries, hkept.tables⟩
        · intro hout
          have hkept := hmain.mpr hout
          exact ⟨hkept.entries, hkept.tables⟩
      · rename_i hne heq
        cases heq
        cases hreserve
        exact absurd rfl hne
    · rename_i hne heq
      cases heq
      cases h
      exact absurd rfl hne
  · rename_i hne heq
    cases heq
    cases h
    cases out with
    | none => exact absurd rfl (hout rfl)
    | some v => exact absurd rfl (hne v rfl)

theorem allocateMemory_success {this : Process} {size outAddress : U32} {address : Option U32}
    (h : this.allocateMemory fuel s size reserve outAddress = .ret (.statusSuccess, address, s')) :
    ∃ out, s.allocate fuel this.baseVad size this.pdEntry reserve =
      .ret (.statusSuccess, out, s') := by
  unfold Process.allocateMemory at h
  split at h
  · cases h
  split at h
  · cases h
  obtain ⟨⟨status, out, s₁⟩, halloc, h⟩ := Outcome.bind_eq_ret.mp h
  dsimp only at h
  split at h
  · rename_i hfailed
    cases h
    cases hfailed
  · rename_i hfailed
    obtain ⟨v, -, h⟩ := Outcome.bind_eq_ret.mp h
    cases h
    have hstatus : status = .statusSuccess := by
      by_contra hne
      exact hfailed (VadMem.failed_eq_true.mpr hne)
    rw [hstatus] at halloc
    exact ⟨out, halloc⟩

theorem allocateMemoryAtAddress_success {this : Process} {address size : U32}
    (h : this.allocateMemoryAtAddress fuel s address reserve size = .ret (.statusSuccess, s')) :
    ∃ out, s.allocateAtAddress fuel this.baseVad address size this.pdEntry reserve =
      .ret (.statusSuccess, out, s') := by
  unfold Process.allocateMemoryAtAddress at h
  split at h
  · cases h
  split at h
  · cases h
  obtain ⟨⟨status, out, s₁⟩, halloc, h⟩ := Outcome.bind_eq_ret.mp h
  dsimp only at h
  split at h
  · rename_i hfailed
    cases h
    cases hfailed
  · rename_i hfailed
    cases h
    have hstatus : status = .statusSuccess := by
      by_contra hne
      exact hfailed (VadMem.failed_eq_true.mpr hne)
    rw [hstatus] at halloc
    exact ⟨out, halloc⟩

/-- From a state in order, a call that succeeds keeps the kernel half exactly when
it passes no address of the kernel half or behind which a shared entry lies. -/
theorem InOrder.kept_iff {w : World} (h : InOrder w) {p : Process} (hp : p ∈ w.processes)
    {call : MemoryCall} (hcall : call.Succeeds p w.s s') :
    KernelHalfKept w.s.mem s'.mem p.pdEntry ↔ ∀ u, call.Passes p w.s u → ¬ HitsKernel u := by
  have hpd : p.pdEntry ∈ w.pds := List.mem_map_of_mem hp
  have hbase := h.bases p hp
  cases call with
  | allocateMemory size reserve outAddress =>
    obtain ⟨fuel, address, hcall⟩ := hcall
    obtain ⟨out, halloc⟩ := allocateMemory_success hcall
    rw [VadMem.allocate_eq] at halloc
    obtain ⟨⟨status, out₁, s₁⟩, hchoose, hreserve⟩ := Outcome.bind_eq_ret.mp halloc
    have hmem : s₁.mem = w.s.mem := VadMem.chooseVad_mem hchoose
    have hs := h.spaces
    have hm := h.mapped
    rw [← hmem] at hs hm
    obtain ⟨v, rfl, rfl, hiff⟩ :=
      reserveChosen_kept_iff hs hm hpd (VadMem.chooseVad_some hchoose) hreserve
    obtain ⟨x, hlook, hlo, hhi⟩ := VadMem.chooseVad_region h.closed hbase hchoose
    rw [hmem, hlo, hhi] at hiff
    rw [hiff]
    constructor
    · rintro hout u ⟨fuel', y, hlook', hu⟩
      cases VadMem.lookForFree_unique hlook hlook'
      exact hout u hu
    · intro hout u hu
      exact hout u ⟨fuel, x, hlook, hu⟩
  | allocateMemoryAtAddress address reserve size =>
    obtain ⟨fuel, hcall⟩ := hcall
    obtain ⟨out, halloc⟩ := allocateMemoryAtAddress_success hcall
    rw [VadMem.allocateAtAddress_eq] at halloc
    obtain ⟨⟨status, out₁, s₁⟩, hchoose, hreserve⟩ := Outcome.bind_eq_ret.mp halloc
    have hmem : s₁.mem = w.s.mem := VadMem.chooseVadAtAddress_mem hchoose
    have hs := h.spaces
    have hm := h.mapped
    rw [← hmem] at hs hm
    obtain ⟨v, rfl, rfl, hiff⟩ :=
      reserveChosen_kept_iff hs hm hpd (VadMem.chooseVadAtAddress_some hchoose) hreserve
    obtain ⟨x, hlook, hlo, hhi⟩ := VadMem.chooseVadAtAddress_region h.closed hbase hchoose
    rw [hmem, hlo, hhi] at hiff
    rw [hiff]
    constructor
    · rintro hout u ⟨fuel', y, hlook', hu⟩
      cases VadMem.lookForFreeAt_unique hlook hlook'
      exact hout u hu
    · intro hout u hu
      exact hout u ⟨fuel, x, hlook, hu⟩

/-- So it is for every call after a run of calls that keep out. -/
theorem kernelHalf_kept_iff {w w' : World} {ops : List WorldOp} (h : InOrder w)
    (hrun : Run (Guarded KeepsOut WorldStep) w ops w') {p : Process} (hp : p ∈ w'.processes)
    {call : MemoryCall} (hcall : call.Succeeds p w'.s s') :
    KernelHalfKept w'.s.mem s'.mem p.pdEntry ↔ ∀ u, call.Passes p w'.s u → ¬ HitsKernel u :=
  (h.run hrun).kept_iff hp hcall

/-! ### A process that has just been created -/

/-- In the window the loop goes on, whatever it writes there. -/
theorem Underway.window_turn {d v limit : U32} (h : Underway k d v) (hv : 0xFFC00000 ≤ v.toNat)
    (hlt : v < limit) : ∃ k', VadMem.reservePagesTurn limit false (v, k) =
      .ret (.inl (v + 4096, k')) := by
  obtain ⟨hdir, -⟩ := window_index hv
  have hd : k.mmu.directory = d := by
    rw [Mmu.directory, h.current]
    exact h.frame.frameOf_eq
  have hself : k.mmu.SelfMapped := by
    rw [Mmu.SelfMapped, hd]
    exact h.self
  have hadd := @addWindowPage k v 0 absentFlags hself hdir
  rw [absentFlags] at hadd
  refine ⟨k.withPhys (set k.mmu.phys k.mmu.directory (tableIndex v)
    (setPageTableEntry 0 (pageWriteable ||| pageNonPrivilegedAccess))), ?_⟩
  simp only [VadMem.reservePagesTurn, if_pos hlt, Bool.false_eq_true, if_false, hadd,
    Outcome.ret_bind, Outcome.pure_eq]

theorem windowLoop_returns {d v limit : U32} (h : Underway k d v) (hv : 0xFFC00000 ≤ v.toNat)
    (hlimit : limit.toNat ≤ 0xFFFFF000) (hfuel : 2 ^ 32 ≤ fuel) :
    ∃ k', Outcome.loop (VadMem.reservePagesTurn limit false) fuel (v, k) =
      .ret (.statusSuccess, k') := by
  have hreturns : ∃ r, Outcome.loop (VadMem.reservePagesTurn limit false) fuel (v, k) = .ret r ∧
      r.1 = .statusSuccess := by
    apply Outcome.loop_terminates
      (I := fun st : U32 × KernelMem => Underway st.2 d st.1 ∧ 0xFFC00000 ≤ st.1.toNat)
      fun st => limit.toNat - st.1.toNat
    · rintro ⟨v, k⟩ ⟨hunder, hv⟩
      dsimp only at hunder hv ⊢
      by_cases hlt : v < limit
      · obtain ⟨k', hturn⟩ := hunder.window_turn hv hlt
        have hlt : v.toNat < limit.toNat := hlt
        have hnext : (v + 4096).toNat = v.toNat + 4096 := by
          have hpage : (4096 : U32).toNat = 4096 := rfl
          rw [BitVec.toNat_add, hpage]
          omega
        obtain ⟨-, hunder'⟩ := hunder.turn (by omega) hturn
        refine .inr ⟨_, hturn, ⟨hunder', ?_⟩, ?_⟩
        · dsimp only
          omega
        · dsimp only
          omega
      · exact .inl ⟨_, if_neg hlt, rfl⟩
    · exact ⟨h, hv⟩
    · have hbound := limit.isLt
      dsimp only
      omega
  obtain ⟨⟨status, k'⟩, hloop, rfl⟩ := hreturns
  exact ⟨k', hloop⟩

/-- `AllocateAtAddress` finds the single vad and puts another one behind it. -/
theorem chooseVadAtAddress_fresh {v : ℕ} {address size : U32}
    (hv : s.vads v = ⟨vProcessBaseAddr, vProcessLimitAddr, vProcessLimitAddr - vProcessBaseAddr,
      true, none, none⟩) (htop : v < s.heapTop) (h0 : size ≠ 0)
    (hlo : vProcessBaseAddr.toNat + 4096 ≤ address.toNat) (hhi : address < vProcessLimitAddr)
    (hroom : size ≤ vProcessLimitAddr - address) (n : ℕ) :
    s.lookForFreeVadAtAddressOfMinimumSize (n + 1) v address size =
        .ret (.statusSuccess, some v) ∧
      ∃ s₁, s.chooseVadAtAddress (n + 1) v address size =
        .ret (.statusSuccess, some s.heapTop, s₁) := by
  have hbase : vProcessBaseAddr.toNat = 0x40000000 := rfl
  have hlimit : vProcessLimitAddr.toNat = 0xFFFFFFFF := rfl
  have hhi' : address.toNat < 0xFFFFFFFF := hhi
  have hlt : (s.vads v).baseAddress < address := by
    rw [hv]
    show 0x40000000 < address.toNat
    omega
  have ha : address ≠ 0 := by
    rintro rfl
    exact absurd hlo (by decide)
  have hsub : (vProcessLimitAddr - address).toNat = 0xFFFFFFFF - address.toNat := by
    rw [BitVec.toNat_sub_of_le (BitVec.le_of_lt hhi), hlimit]
  have hroom' : size.toNat ≤ 0xFFFFFFFF - address.toNat := by
    rw [← hsub]
    exact hroom
  have hwhole : (vProcessLimitAddr - vProcessBaseAddr).toNat = 0xBFFFFFFF := by decide
  have hsize : size ≤ (s.vads v).size := by
    rw [hv]
    show size.toNat ≤ 0xBFFFFFFF
    omega
  have hdelta : ¬ (s.vads v).size - size < vadMinimumDelta := by
    have hrest : ((s.vads v).size - size).toNat = 0xBFFFFFFF - size.toNat := by
      rw [BitVec.toNat_sub_of_le hsize, hv, hwhole]
    show ¬ ((s.vads v).size - size).toNat < 4096
    omega
  have hc : s.contains address v = true := by
    rw [VadMem.contains_eq_true]
    refine ⟨BitVec.le_of_lt hlt, ?_⟩
    rw [hv]
    exact hhi
  have hans : s.answerAt address size v = (.statusSuccess, some v) := by
    rw [VadMem.answerAt, hv]
    apply if_neg
    intro h
    rcases h with h | h
    · cases h
    · exact absurd hroom (BitVec.not_le.mpr h)
  have hlook : s.lookForFreeVadAtAddressOfMinimumSize (n + 1) v address size =
      .ret (.statusSuccess, some v) := by
    rw [VadMem.lookForFreeVadAtAddressOfMinimumSize, if_neg ha, if_neg h0]
    apply Outcome.loop_leave
    rw [VadMem.lookForFreeAtTurn_contains hc, hans]
  have hpart : s.Partition v ([] ++ v :: []) := VadMem.processCreate_partition hv
  have hall : s.Allocated ([] ++ v :: []) := by
    intro w hw
    rwa [List.mem_singleton.mp hw]
  have hnone : s.next v = none := by rw [VadMem.next, hv]
  obtain ⟨s₁, l', hs₁, -, -, -, -, previous, hthis⟩ := hpart.splitInside address size hall h0
    (by rw [hv]; exact hroom) hlt (by rw [hv]; exact hhi) fun _ => hnone
  have hne : (s₁.vads v).baseAddress ≠ address := by
    rw [hthis]
    exact BitVec.ne_of_lt hlt
  have hnext : s₁.next v = some s.heapTop := by rw [VadMem.next, hthis]
  refine ⟨hlook, s₁, ?_⟩
  rw [VadMem.chooseVadAtAddress, if_neg ha, if_neg h0, hlook, Outcome.ret_bind]
  dsimp only
  rw [VadMem.chooseAtAddressFrom, if_pos (.inl (BitVec.ne_of_lt hlt)),
    VadMem.splitAtAddress_eq h0 ha hsize hdelta, if_pos (BitVec.ne_of_lt hlt), hs₁]
  dsimp only
  rw [if_neg (by decide), if_pos hne, hnext]
  rfl

/-- A page of the window is given to a new process. -/
theorem Created.window_succeeds {w w' : World} {p : Process} (hcreated : Created w w' p)
    (h : InOrder w') {address : U32} (hlo : 0xFFC00000 ≤ address.toNat)
    (hhi : address.toNat + 0x2000 ≤ 0xFFFFF000) :
    (∃ s', (MemoryCall.allocateMemoryAtAddress address false 0x1000).Succeeds p w'.s s') ∧
      ∀ u, (MemoryCall.allocateMemoryAtAddress address false 0x1000).Passes p w'.s u ↔
        Passes address (address + 0x2000) u := by
  have hp : p ∈ w'.processes := by
    rw [hcreated.processes]
    exact List.mem_cons_self
  have hpd : p.pdEntry ∈ w'.pds := List.mem_map_of_mem hp
  have hlimit : vProcessLimitAddr.toNat = 0xFFFFFFFF := rfl
  have hpages : VadMem.pagesOf 0x1000 = 0x2000 := by
    rw [VadMem.pagesOf, VadMem.localMod_eq_one (by decide)]
    decide
  have hbelow : address < vProcessLimitAddr := by
    show address.toNat < 0xFFFFFFFF
    omega
  have hsub : (vProcessLimitAddr - address).toNat = 0xFFFFFFFF - address.toNat := by
    rw [BitVec.toNat_sub_of_le (BitVec.le_of_lt hbelow), hlimit]
  have hroom : (0x1000 : U32) ≤ vProcessLimitAddr - address := by
    show 0x1000 ≤ (vProcessLimitAddr - address).toNat
    omega
  have hdelta : vadMinimumDelta < vProcessLimitAddr - address - 0x1000 := by
    show 4096 < (vProcessLimitAddr - address - 0x1000).toNat
    have hpage : (0x1000 : U32).toNat = 0x1000 := rfl
    rw [BitVec.toNat_sub_of_le hroom, hsub, hpage]
    omega
  have hend : w'.s.reservedLimit p.baseVad address 0x1000 = address + 0x2000 := by
    have hne : (w'.s.vads p.baseVad).baseAddress ≠ address := by
      rw [hcreated.vad]
      rintro heq
      rw [← heq] at hlo
      exact absurd hlo (by decide)
    rw [VadMem.reservedLimit, if_pos hne, hcreated.vad, if_pos hdelta, hpages]
  obtain ⟨n, hn⟩ : ∃ n : ℕ, 2 ^ 32 ≤ n + 1 := ⟨2 ^ 32, Nat.le_succ _⟩
  have habove : vProcessBaseAddr.toNat + 4096 ≤ address.toNat := Nat.le_trans (by decide) hlo
  have hnot : (0x1000 : U32) ≠ 0 := by decide
  obtain ⟨hlook, s₁, hchoose⟩ := chooseVadAtAddress_fresh hcreated.vad (h.bases p hp) hnot habove
    hbelow hroom n
  constructor
  · obtain ⟨x, hlook', hstart, hstop⟩ :=
      VadMem.chooseVadAtAddress_region h.closed (h.bases p hp) hchoose
    cases VadMem.lookForFreeAt_unique hlook hlook'
    rw [hend] at hstop
    have hmem : s₁.mem = w'.s.mem := VadMem.chooseVadAtAddress_mem hchoose
    have hunder : Underway { s₁.mem with mmu := s₁.mem.mmu.setCurrentPageDirectory p.pdEntry }
        p.pdEntry address := by
      rw [hmem]
      exact ((h.spaces.switch (List.mem_cons_of_mem _ hpd)).sane hpd rfl).underway address
    have htop : (address + 0x2000).toNat ≤ 0xFFFFF000 := by
      have hpage : (0x2000 : U32).toNat = 0x2000 := rfl
      rw [BitVec.toNat_add, hpage]
      omega
    obtain ⟨k', hloop⟩ := windowLoop_returns hunder hlo htop hn
    rw [← hstop, ← hstart] at hloop
    have hcall : w'.s.allocateAtAddress (n + 1) p.baseVad address 0x1000 p.pdEntry false =
        .ret (.statusSuccess, some w'.s.heapTop, s₁.reserved w'.s.heapTop k') := by
      rw [VadMem.allocateAtAddress_eq, hchoose, Outcome.ret_bind]
      exact VadMem.reserveChosen_of_loop hloop
    refine ⟨s₁.reserved w'.s.heapTop k', n + 1, ?_⟩
    have ha : address ≠ 0 := by
      rintro rfl
      exact absurd hlo (by decide)
    rw [Process.allocateMemoryAtAddress, if_neg ha, if_neg hnot, hcall, Outcome.ret_bind]
    rfl
  · intro u
    constructor
    · rintro ⟨fuel, x, hlook', hu⟩
      cases VadMem.lookForFreeAt_unique hlook hlook'
      rwa [hend] at hu
    · intro hu
      refine ⟨n + 1, p.baseVad, hlook, ?_⟩
      rwa [hend]

/-- A page above the shared entries is given to the first process. -/
theorem kernelHalf_kept_iff_boot : ∃ pool p w s', PagePool.bss.init kernelInfo = .ret pool ∧
    Run (Guarded KeepsOut WorldStep) (bootWorld pool 0x10000) [.create] w ∧ w.processes = [p] ∧
    (MemoryCall.allocateMemoryAtAddress 0xFFE00000 false 0x1000).Succeeds p w.s s' ∧
    KernelHalfKept w.s.mem s'.mem p.pdEntry := by
  obtain ⟨pool, hpool⟩ := boot_init
  have hboot := boot_bootWorld hpool 0x10000
  have hsup := supply_bootWorld_64 hpool
  obtain ⟨p, w, hstep, hcreated, -⟩ := (WorldInv.boot hboot).create hsup
  have horder : InOrder (bootWorld pool 0x10000) := .boot hboot rfl
  have hrun : Run (Guarded KeepsOut WorldStep) (bootWorld pool 0x10000) [.create] w :=
    .single ⟨hsup.notExhausted, hstep⟩
  obtain ⟨⟨s', hcall⟩, hpasses⟩ :=
    hcreated.window_succeeds (horder.run hrun)
      (show 0xFFC00000 ≤ (0xFFE00000 : U32).toNat by decide) (by decide)
  have hprocesses : w.processes = [p] := hcreated.processes
  have hp : p ∈ w.processes := by
    rw [hprocesses]
    exact List.mem_singleton_self p
  refine ⟨pool, p, w, s', hpool, hrun, hprocesses, hcall, ?_⟩
  refine (kernelHalf_kept_iff horder hrun hp hcall).mpr ?_
  intro u hu hhits
  have hlow : 0xFFE00000 ≤ u.toNat := ((hpasses u).mp hu).1
  rcases hhits with hkernel | ⟨-, hwindow⟩
  · have hkernel : u.toNat < 0x40000000 := hkernel
    omega
  · omega

/-- The page at `0xFFCFF000` is given to the first process: its entry is the last
one of the shared entries of the page directory. -/
theorem window_breaks : ∃ pool p w s', PagePool.bss.init kernelInfo = .ret pool ∧
    Run (Guarded KeepsOut WorldStep) (bootWorld pool 0x10000) [.create] w ∧ w.processes = [p] ∧
    (MemoryCall.allocateMemoryAtAddress 0xFFCFF000 false 0x1000).Succeeds p w.s s' ∧
    ¬ KernelHalfKept w.s.mem s'.mem p.pdEntry := by
  obtain ⟨pool, hpool⟩ := boot_init
  have hboot := boot_bootWorld hpool 0x10000
  have hsup := supply_bootWorld_64 hpool
  obtain ⟨p, w, hstep, hcreated, -⟩ := (WorldInv.boot hboot).create hsup
  have horder : InOrder (bootWorld pool 0x10000) := .boot hboot rfl
  have hrun : Run (Guarded KeepsOut WorldStep) (bootWorld pool 0x10000) [.create] w :=
    .single ⟨hsup.notExhausted, hstep⟩
  obtain ⟨⟨s', hcall⟩, hpasses⟩ :=
    hcreated.window_succeeds (horder.run hrun)
      (show 0xFFC00000 ≤ (0xFFCFF000 : U32).toNat by decide) (by decide)
  have hprocesses : w.processes = [p] := hcreated.processes
  have hp : p ∈ w.processes := by
    rw [hprocesses]
    exact List.mem_singleton_self p
  refine ⟨pool, p, w, s', hpool, hrun, hprocesses, hcall, ?_⟩
  intro hkept
  have hpassed := (hpasses 0xFFCFF000).mpr ⟨by decide, by decide, by decide⟩
  exact ((horder.run hrun).kept_iff hp hcall).mp hkept _ hpassed (.inr ⟨by decide, by decide⟩)

end Calls

end LtMicros
