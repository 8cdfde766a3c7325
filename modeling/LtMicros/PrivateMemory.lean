import LtMicros.DataFrames
import LtMicros.ElfLoading
import LtMicros.Lib.FlatMemory

/-!
# Every process has a memory of its own

The calls of the kernel for all processes, page faults, what the kernel copies into a process,
and the accesses of the processes themselves, in any order. What a process reads and writes is
what it would read and write in one flat memory.
-/

namespace LtMicros

open Lib Lib.Frames

/-! ## Words in the pages of a process -/

/-- Other words are in the frames of the pages of `d`, and nowhere else. -/
structure Rewrites (k k' : KernelMem) (pds : List U32) (d : U32) : Prop where
  gPmm : k'.gPmm = k.gPmm
  pool : k'.gPagePool = k.gPagePool
  words : ∀ g, IsFrame g → (∀ u, InUser u → ¬PageAt k.mmu.phys d u g) → ∀ j : U32,
    j.toNat < 1024 → k'.mmu.phys (slot g j) = k.mmu.phys (slot g j)

section Rewrites

variable {k k' k'' : KernelMem} {pds : List U32} {heap : U32 → Prop} {m : Mmu}
  {d d' f g i j u v src dst : U32} {b byte : U8} {n : ℕ} {page : Page}

theorem Rewrites.refl (k : KernelMem) (pds : List U32) (d : U32) : Rewrites k k pds d :=
  ⟨rfl, rfl, fun _ _ _ _ _ => rfl⟩

section Kept

variable (h : Rewrites k k' pds d) (hst : Stores ⟨k, pds⟩) (hd : d ∈ pds)

include h hst hd

/-- The frames of the pages of a process are frames with data. -/
theorem Rewrites.overwrites : Overwrites k k' pds := by
  refine ⟨h.gPmm, h.pool, fun g hg hnot j hj => ?_⟩
  apply h.words g hg _ j hj
  intro u hu hpage
  exact hnot (hst.data d hd u hu g hpage)

/-- The bytes of another process stay. -/
theorem Rewrites.byteIn (ho : Owned ⟨k, pds⟩ heap) (hd' : d' ∈ pds) (hne : d' ≠ d)
    (hu : InUser u) : k'.mmu.byteIn d' u = k.mmu.byteIn d' u := by
  have hs := ho.separate.spaces
  apply byteIn_congr (hs.directory hd').frame
  · exact fun f => ((h.overwrites hst hd).sameUser hs hd').pageAt hu
  · intro f hf j hj
    apply h.words f hf.frame _ j hj
    intro v hv hpage
    exact hne (ho.one_page hd' hd hu hv hf hpage).1

/-- So do those of a page of the pool. -/
theorem Rewrites.readByte (ho : Owned ⟨k, pds⟩ heap) (hcur : k'.mmu.cr3 ∈ allDirectories pds)
    (hpage : HeldPage ⟨k, pds⟩ page) (hu : frameOf u = page.vAddr) :
    k'.mmu.readByte u = k.mmu.readByte u := by
  have hover := h.overwrites hst hd
  apply hpage.readByte_eq ho (hover.heldPage ho hpage) (hover.owned ho hcur) _ hu
  intro j hj
  apply h.words _ hpage.entry.frame _ j hj
  intro v hv hmapped
  have hsame := ho.exclusive.unique _ (.kernel page.vAddr) _ (hmapped.maps hd hv _)
    ⟨.inl hpage.inUse, hpage.entry⟩
  cases hsame

theorem Rewrites.trans (hs : Spaces k pds) (h' : Rewrites k' k'' pds d) : Rewrites k k'' pds d := by
  constructor
  · exact h'.gPmm.trans h.gPmm
  · exact h'.pool.trans h.pool
  · intro g hg hnot j hj
    rw [h'.words g hg _ j hj, h.words g hg hnot j hj]
    intro u hu hpage
    exact hnot u hu ((((h.overwrites hst hd).sameUser hs hd).pageAt hu).mp hpage)

end Kept

/-- Another directory is current. -/
theorem Owned.switch (ho : Owned ⟨k, pds⟩ heap) (hd : d ∈ allDirectories pds) :
    Owned ⟨{ k with mmu := k.mmu.setCurrentPageDirectory d }, pds⟩ heap :=
  ⟨ho.separate.switch hd, ho.pool, ho.area, ho.exclusive⟩

theorem Stores.switch (hst : Stores ⟨k, pds⟩) (d : U32) :
    Stores ⟨{ k with mmu := k.mmu.setCurrentPageDirectory d }, pds⟩ := by
  constructor
  · exact hst.tables
  · intro d' hd' u hu f hf
    have hdata := hst.data d' hd' u hu f hf
    exact ⟨hdata.used, hdata.high, hdata.notDirectory, hdata.notTable⟩

/-! ### Writes -/

/-- A byte is written in the pages of the current process. -/
theorem rewrites_writeByte (hs : Spaces k pds) (hd : d ∈ pds) (hcr3 : k.mmu.cr3 = d)
    (hv : InUser v) (hr : k.mmu.writeByte v b = .ret m) :
    Rewrites k { k with mmu := m } pds d ∧ m.cr3 = d := by
  obtain ⟨a, ha, hr⟩ := Outcome.bind_eq_ret.mp hr
  have ha := Outcome.ofOption_eq_ret.mp ha
  cases hr
  refine ⟨⟨rfl, rfl, ?_⟩, hcr3⟩
  have htranslate : k.mmu.translateIn d v = some a := by
    rw [Mmu.translateIn, ← hcr3]
    exact ha
  obtain ⟨f, hf, rfl⟩ := (translateIn_eq_some (hs.directory hd).frame).mp htranslate
  intro g hg hnot j hj
  apply setByte_slot hg hj
  rw [frameOf_add hf.frame]
  · rintro rfl
    exact hnot v hv hf
  · rw [toNat_and_offset]
    exact Nat.mod_lt _ (by decide)

section Writes

variable (ho : Owned ⟨k, pds⟩ heap) (hst : Stores ⟨k, pds⟩) (hd : d ∈ pds)
  (hlo : vUserBaseAddr ≤ dst) (hhi : dst.toNat + n ≤ 0xFFC00000)

include ho hst hd hlo hhi

theorem rewrites_memSet (hcr3 : k.mmu.cr3 = d) (hr : k.mmu.memSet dst byte n = .ret m) :
    Rewrites k { k with mmu := m } pds d ∧ m.cr3 = d := by
  induction n generalizing k dst with
  | zero =>
    cases hr
    exact ⟨.refl k pds d, hcr3⟩
  | succ n ih =>
    obtain ⟨m₁, hwrite, hr⟩ := Outcome.bind_eq_ret.mp hr
    have hv : InUser dst := ⟨hlo, show dst.toNat < 0xFFC00000 by omega⟩
    have hnext : (dst + 1).toNat = dst.toNat + 1 := toNat_add_one (by omega)
    have hle : vUserBaseAddr.toNat ≤ dst.toNat := hlo
    have hs := ho.separate.spaces
    obtain ⟨hfirst, hcr3₁⟩ := rewrites_writeByte hs hd hcr3 hv hwrite
    have hcur : m₁.cr3 ∈ allDirectories pds := by
      rw [hcr3₁]
      exact List.mem_cons_of_mem _ hd
    have hover := hfirst.overwrites hst hd
    obtain ⟨hrest, hcr3'⟩ := ih (hover.owned ho hcur) (hover.stores hs hst)
      (show vUserBaseAddr.toNat ≤ (dst + 1).toNat by omega) (by omega) hcr3₁ hr
    exact ⟨hfirst.trans hst hd hs hrest, hcr3'⟩

theorem rewrites_memCopy (hcr3 : k.mmu.cr3 = d) (hr : k.mmu.memCopy src dst n = .ret m) :
    Rewrites k { k with mmu := m } pds d ∧ m.cr3 = d := by
  induction n generalizing k src dst with
  | zero =>
    cases hr
    exact ⟨.refl k pds d, hcr3⟩
  | succ n ih =>
    obtain ⟨b, -, hr⟩ := Outcome.bind_eq_ret.mp hr
    obtain ⟨m₁, hwrite, hr⟩ := Outcome.bind_eq_ret.mp hr
    have hv : InUser dst := ⟨hlo, show dst.toNat < 0xFFC00000 by omega⟩
    have hnext : (dst + 1).toNat = dst.toNat + 1 := toNat_add_one (by omega)
    have hle : vUserBaseAddr.toNat ≤ dst.toNat := hlo
    have hs := ho.separate.spaces
    obtain ⟨hfirst, hcr3₁⟩ := rewrites_writeByte hs hd hcr3 hv hwrite
    have hcur : m₁.cr3 ∈ allDirectories pds := by
      rw [hcr3₁]
      exact List.mem_cons_of_mem _ hd
    have hover := hfirst.overwrites hst hd
    obtain ⟨hrest, hcr3'⟩ := ih (hover.owned ho hcur) (hover.stores hs hst)
      (show vUserBaseAddr.toNat ≤ (dst + 1).toNat by omega) (by omega) hcr3₁ hr
    exact ⟨hfirst.trans hst hd hs hrest, hcr3'⟩

end Writes

/-- The kernel copies into a process, and goes on in the directory that was current. -/
theorem rewrites_memorySetAndCopy {p : Process} {size : U32} (ho : Owned ⟨k, pds⟩ heap)
    (hst : Stores ⟨k, pds⟩) (hd : p.pdEntry ∈ pds) (hlo : vUserBaseAddr ≤ dst)
    (hhi : dst.toNat + size.toNat ≤ 0xFFC00000)
    (hr : p.memorySetAndCopy k src dst size byte = .ret k') :
    Rewrites k k' pds p.pdEntry ∧ k'.mmu.cr3 = k.mmu.cr3 := by
  unfold Process.memorySetAndCopy at hr
  split at hr
  · cases hr
    exact ⟨.refl _ _ _, rfl⟩
  split at hr
  · cases hr
    exact ⟨.refl _ _ _, rfl⟩
  have hd' := List.mem_cons_of_mem kernelInfo.pPageDirectory hd
  have ho₀ := ho.switch hd'
  obtain ⟨m₁, hset, hr⟩ := Outcome.bind_eq_ret.mp hr
  obtain ⟨m₂, hcopy, hr⟩ := Outcome.bind_eq_ret.mp hr
  cases hr
  obtain ⟨hset, hcr3⟩ := rewrites_memSet ho₀ (hst.switch _) hd hlo hhi rfl hset
  have hs₀ := ho₀.separate.spaces
  have hcur : m₁.cr3 ∈ allDirectories pds := by
    rw [hcr3]
    exact hd'
  have hover := hset.overwrites (hst.switch _) hd
  obtain ⟨hcopy, -⟩ := rewrites_memCopy (hover.owned ho₀ hcur) (hover.stores hs₀ (hst.switch _)) hd
    hlo hhi hcr3 hcopy
  have hall := hset.trans (hst.switch _) hd hs₀ hcopy
  exact ⟨⟨hall.gPmm, hall.pool, hall.words⟩, rfl⟩

end Rewrites

/-! ## Page faults -/

section Fault

variable {w w' : World} {s s' : VadMem} {p : Process} {k : KernelMem} {d f u v : U32} {fuel : ℕ}
  {status : KeStatus} {phys : U32 → U32}

/-- The ways in which `ResolvePageFault` ends: nothing has happened, the bitmap was asked for a
page, or a page is mapped at the address. -/
theorem Process.resolvePageFault_cases
    (h : p.resolvePageFault fuel s v = .ret (status, s')) :
    s' = s ∨ s' = { s with mem := s.mem.takePage } ∨
      ∃ k, { s.mem.takePage with
          mmu := s.mem.mmu.setCurrentPageDirectory p.pdEntry }.addPageToPageDirectory v
            s.mem.gPmm.getFreePage.1 presentFlags = .ret k ∧
        s' = { s with mem := { k with
          mmu := k.mmu.setCurrentPageDirectory s.mem.mmu.getCurrentPageDirectory } } := by
  unfold resolvePageFault at h
  split at h
  · cases h
    exact .inl rfl
  obtain ⟨⟨status₁, out⟩, -, h⟩ := Outcome.bind_eq_ret.mp h
  split at h
  · split at h
    · cases h
      exact .inl rfl
    · dsimp only at h
      split at h
      · cases h
        exact .inr (.inl rfl)
      · obtain ⟨k, hadd, h⟩ := Outcome.bind_eq_ret.mp h
        cases h
        exact .inr (.inr ⟨k, hadd, rfl⟩)
  · cases h
    exact .inl rfl

/-- The addresses of a page have one frame. -/
theorem PageAt.page (h : PageAt phys d u f) (hpage : pageNo u = pageNo v) : PageAt phys d v f := by
  obtain ⟨hdir, htable⟩ := page_eq_iff.mp hpage
  rw [PageAt, entryIn, hdir, htable] at h
  exact h

/-- A fault at an address that is not mapped leaves all pages that are mapped. -/
theorem UserStep.fault_pageAt (h : UserStep w (.resolvePageFault p v) w') (hs : Separate w.tables)
    (hnone : w.translate p v = none) (hd : d ∈ w.pds) (hu : InUser u)
    (hf : PageAt w.s.mem.mmu.phys d u f) : PageAt w'.s.mem.mmu.phys d u f := by
  obtain ⟨hv, hstep, hmem⟩ := h
  cases hstep with
  | resolvePageFault hp hr =>
    have hpd : p.pdEntry ∈ w.pds := List.mem_map_of_mem hp
    rcases Process.resolvePageFault_cases hr with rfl | rfl | ⟨k, hadd, rfl⟩
    · exact hf
    · exact hf
    have hs₀ : Separate ⟨{ w.s.mem.takePage with
        mmu := w.s.mem.mmu.setCurrentPageDirectory p.pdEntry }, w.pds⟩ :=
      ⟨hs.spaces.takePage.switch (List.mem_cons_of_mem _ hpd), hs.unshared⟩
    obtain ⟨_, hr', hadds⟩ := hs₀.spaces.adds hv w.s.mem.gPmm.getFreePage.1 presentFlags
    cases hadd.symm.trans hr'
    have hmem₀ := (consumes_addPage hadd).notExhausted hmem
    apply (hadds.pageAt hs₀ hpd hv hmem₀ hd hu _).mpr hf
    rintro ⟨hdp, hpage⟩
    -- then the address of the fault was mapped
    have hdp : p.pdEntry = d := hdp
    rw [← hdp] at hf
    have hmapped := (translateIn_eq_some (hs.spaces.directory hpd).frame).mpr
      ⟨f, hf.page hpage, rfl⟩
    rw [World.translate] at hnone
    exact absurd (hmapped.symm.trans hnone) (Option.some_ne_none _)

end Fault

/-! ## The system -/

deriving instance DecidableEq for Process

instance : DecidablePred InUser := fun _ => inferInstanceAs (Decidable (_ ∧ _))

/-- What happens in the system: a call of the kernel, a page fault of the current process, a copy
of the kernel into a process, and an access of the current process. -/
inductive MemoryOp where
  | kernel (op : HoldingOp)
  | fault (p : Process) (vAddr : U32)
  | copy (p : Process) (sourceAddress destAddress size : U32) (bytes : ℕ → U8)
  | access (p : Process) (a : MemAccess U32 U8)

/-- The kernel copies from its own part of memory, where `bytes` are. -/
inductive MemoryStep : Holding → MemoryOp → Holding → Prop
  | kernel {s s' : Holding} {op : HoldingOp} : HoldingStep s op s' → MemoryStep s (.kernel op) s'
  | fault {w w' : World} {held : List Page} {p : Process} {vAddr : U32} :
      w.s.mem.mmu.cr3 = p.pdEntry → w.translate p vAddr = none →
      UserStep w (.resolvePageFault p vAddr) w' →
      MemoryStep ⟨w, held⟩ (.fault p vAddr) ⟨w', held⟩
  | copy {w : World} {held : List Page} {p : Process} {sourceAddress destAddress size : U32}
      {byte : U8} {bytes : ℕ → U8} {k : KernelMem} : p ∈ w.processes → sourceAddress ≠ 0 →
      vUserBaseAddr ≤ destAddress → destAddress.toNat + size.toNat ≤ 0xFFC00000 →
      (∀ i < size.toNat,
        LowByte w.s.mem.mmu.phys (sourceAddress + BitVec.ofNat 32 i) (bytes i)) →
      p.memorySetAndCopy w.s.mem sourceAddress destAddress size byte = .ret k →
      MemoryStep ⟨w, held⟩ (.copy p sourceAddress destAddress size bytes) ⟨w.withMem k, held⟩
  | read {w : World} {held : List Page} {p : Process} {vAddr : U32} {byte : U8} :
      p ∈ w.processes → w.s.mem.mmu.cr3 = p.pdEntry → InUser vAddr →
      w.s.mem.mmu.readByte vAddr = .ret byte →
      MemoryStep ⟨w, held⟩ (.access p (.read vAddr byte)) ⟨w, held⟩
  | write {w : World} {held : List Page} {p : Process} {vAddr : U32} {byte : U8} {mmu : Mmu} :
      p ∈ w.processes → w.s.mem.mmu.cr3 = p.pdEntry → InUser vAddr →
      w.s.mem.mmu.writeByte vAddr byte = .ret mmu →
      MemoryStep ⟨w, held⟩ (.access p (.write vAddr byte)) ⟨w.withMem { w.s.mem with mmu }, held⟩

/-- The bytes that are mapped in the user half of a process. -/
def World.memory (w : World) (p : Process) (vAddr : U32) : Option U8 :=
  if InUser vAddr then w.s.mem.mmu.byteIn p.pdEntry vAddr else none

/-- The accesses to the memory of `p`, its own and those of the kernel. -/
def MemoryOp.accesses (p : Process) : MemoryOp → List (MemAccess U32 U8)
  | .copy q _ destAddress size bytes =>
    if q = p then
      (List.range size.toNat).map fun i => .write (destAddress + BitVec.ofNat 32 i) (bytes i)
    else []
  | .access q a => if q = p then [a] else []
  | _ => []

/-- What is mapped in the process stays where it is. -/
def KeepsMapped (p : Process) (w w' : World) : Prop :=
  ∀ v, InUser v → w.translate p v ≠ none → w'.translate p v = w.translate p v

/-- A step in which no call for `p` maps a page again that is mapped. -/
def CarefulStep (p : Process) (s : Holding) (op : MemoryOp) (s' : Holding) : Prop :=
  MemoryStep s op s' ∧ ∀ call, op = .kernel (.call call) → call.process = some p →
    KeepsMapped p s.w s'.w

/-- The invariant of the system. -/
structure MemoryInv (s : Holding) : Prop where
  holding : HoldingInv s
  stores : Stores s.w.tables

section System

variable {w w' : World} {held : List Page} {s s' : Holding} {op : MemoryOp} {p q : Process}
  {k : KernelMem} {call : WorldOp} {m : Mmu} {v : U32} {b : U8}

theorem World.memory_eq_some : w.memory p v = some b ↔
    InUser v ∧ w.s.mem.mmu.byteIn p.pdEntry v = some b := by
  rw [World.memory]
  split
  next hv => exact ⟨fun hb => ⟨hv, hb⟩, And.right⟩
  next hv =>
    constructor
    · intro hb
      cases hb
    · exact fun hb => absurd hb.1 hv

/-- Words in the pages of a process are written. -/
theorem MemoryInv.rewrites (h : MemoryInv ⟨w, held⟩) (hp : p ∈ w.processes)
    (hk : Rewrites w.s.mem k w.pds p.pdEntry) (hcur : k.mmu.cr3 ∈ allDirectories w.pds) :
    MemoryInv ⟨w.withMem k, held⟩ := by
  have hd : p.pdEntry ∈ w.pds := List.mem_map_of_mem hp
  have ho : Owned ⟨w.s.mem, w.pds⟩ w.HeapPage := h.holding.owned
  have hover := hk.overwrites h.stores hd
  constructor
  · constructor
    · exact h.holding.placed
    · exact hover.owned ho hcur
    · exact fun page hpage => hover.heldPage ho (h.holding.held page hpage)
    · exact h.holding.nodup
  · exact hover.stores ho.separate.spaces h.stores

/-- A call spares the bytes that stay mapped. -/
theorem UserStep.spares (h : UserStep w call w') (hinv : MemoryInv ⟨w, held⟩) :
    Spares w.tables w'.tables ∧ Stores w'.tables := by
  obtain ⟨tops, hrun, -⟩ := h.tables hinv.holding.inv
  obtain ⟨hspares, -, hst⟩ := lasting_spares hrun hinv.holding.owned.separate hinv.stores
  exact ⟨hspares, hst⟩

theorem UserStep.mem_processes (h : UserStep w call w') (hp : p ∈ w.processes) :
    p ∈ w'.processes := by
  obtain ⟨-, hstep, -⟩ := h
  cases hstep with
  | create => exact List.mem_append_right _ hp
  | _ => exact hp

/-- The bytes of a process that stay mapped stay. -/
theorem UserStep.serves (h : UserStep w call w') (hinv : MemoryInv ⟨w, held⟩)
    (hp : p ∈ w.processes) (hkept : ∀ u, InUser u → ∀ f,
      PageAt w.s.mem.mmu.phys p.pdEntry u f → PageAt w'.s.mem.mmu.phys p.pdEntry u f) :
    Serves (w.memory p) [] (w'.memory p) := by
  obtain ⟨hspares, -⟩ := h.spares hinv
  intro u b hb
  obtain ⟨hu, hb⟩ := World.memory_eq_some.mp hb
  refine World.memory_eq_some.mpr ⟨hu, ?_⟩
  exact hspares.byteIn hinv.holding.owned.separate hinv.stores (List.mem_map_of_mem hp) hu
    (hkept u hu) hb

/-- A call for another process leaves its pages, and so does a careful one for itself. -/
theorem UserStep.pageAt (h : UserStep w call w') (hinv : MemoryInv ⟨w, held⟩)
    (hp : p ∈ w.processes) (hcareful : call.process = some p → KeepsMapped p w w') {u f : U32}
    (hu : InUser u) (hf : PageAt w.s.mem.mmu.phys p.pdEntry u f) :
    PageAt w'.s.mem.mmu.phys p.pdEntry u f := by
  have hd : p.pdEntry ∈ w.pds := List.mem_map_of_mem hp
  have hs := hinv.holding.owned.separate
  by_cases hown : call.process = some p
  · have hdf := (hs.spaces.directory hd).frame
    have hmapped : w.translate p u = some (f + (u &&& 0xFFF#32)) :=
      (translateIn_eq_some hdf).mpr ⟨f, hf, rfl⟩
    have hsame := hcareful hown u hu (by
      rw [hmapped]
      exact Option.some_ne_none _)
    rw [hmapped] at hsame
    obtain ⟨g, hg, heq⟩ := (translateIn_eq_some hdf).mp hsame
    rwa [(add_offset_inj hf.frame hg.frame heq).1]
  · obtain ⟨tops, hrun, hall⟩ := h.tables hinv.holding.inv
    obtain ⟨-, hsame, -⟩ := lasting_separate hrun hs hd fun t ht =>
      (hall t ht).notIn hinv.holding.inv h.2.1 hp hown
    exact (hsame.pageAt hu).mpr hf

/-- `Free` changes no byte of a process. -/
theorem MemoryInv.free {page : Page} {fuel : ℕ} (h : MemoryInv ⟨w, held⟩) (hpage : page ∈ held)
    (hr : w.s.mem.pageFree fuel page = .ret k) :
    MemoryInv ⟨w.withMem k, held.erase page⟩ ∧ k.mmu = w.s.mem.mmu := by
  have hholding := h.holding.free hpage hr
  have hmmu : k.mmu = w.s.mem.mmu := by
    rcases pageFree_found h.holding.owned.pool hr with rfl | ⟨u, pool, -, -, -, rfl⟩
    · rfl
    · rfl
  refine ⟨⟨hholding, ?_, ?_⟩, hmmu⟩
  · intro d hd i hi g hg
    change PointsTo (k.mmu.phys _) g at hg
    rw [hmmu] at hg
    exact h.stores.tables d hd i hi g hg
  · intro d hd u hu f hf
    have hused := hholding.owned.exclusive.used _ f (hf.maps hd hu _)
    change PageAt k.mmu.phys d u f at hf
    rw [hmmu] at hf
    have hdata := h.stores.data d hd u hu f hf
    refine ⟨hused, hdata.high, hdata.notDirectory, ?_⟩
    intro d' hd' i hi t ht
    change PointsTo (k.mmu.phys _) t at ht
    rw [hmmu] at ht
    exact hdata.notTable d' hd' i hi t ht

/-- A write of the process `q` to its memory, as `p` sees it. -/
theorem MemoryInv.serves_other (h : MemoryInv ⟨w, held⟩) (hp : p ∈ w.processes)
    (hq : q ∈ w.processes) (hne : p ≠ q) (hk : Rewrites w.s.mem k w.pds q.pdEntry) :
    Serves (w.memory p) [] ((w.withMem k).memory p) := by
  have ho : Owned ⟨w.s.mem, w.pds⟩ w.HeapPage := h.holding.owned
  have hdne := pdEntry_ne h.holding.inv hp hq hne
  intro u b hb
  obtain ⟨hu, hb⟩ := World.memory_eq_some.mp hb
  refine World.memory_eq_some.mpr ⟨hu, ?_⟩
  show k.mmu.byteIn p.pdEntry u = some b
  rwa [hk.byteIn h.stores (List.mem_map_of_mem hq) ho (List.mem_map_of_mem hp) hdne hu]

/-- What the kernel copies into a process. -/
theorem MemoryInv.copy {src dst size : U32} {byte : U8} (h : MemoryInv ⟨w, held⟩)
    (hp : p ∈ w.processes) (hlo : vUserBaseAddr ≤ dst)
    (hhi : dst.toNat + size.toNat ≤ 0xFFC00000)
    (hr : p.memorySetAndCopy w.s.mem src dst size byte = .ret k) :
    MemoryInv ⟨w.withMem k, held⟩ ∧ Rewrites w.s.mem k w.pds p.pdEntry := by
  have ho : Owned ⟨w.s.mem, w.pds⟩ w.HeapPage := h.holding.owned
  obtain ⟨hk, hcr3⟩ :=
    rewrites_memorySetAndCopy ho h.stores (List.mem_map_of_mem hp) hlo hhi hr
  refine ⟨h.rewrites hp hk ?_, hk⟩
  rw [hcr3]
  exact ho.separate.spaces.current

theorem MemoryInv.serves_copy {src dst size : U32} {byte : U8} {bytes : ℕ → U8}
    (h : MemoryInv ⟨w, held⟩) (hp : p ∈ w.processes) (hsrc : src ≠ 0)
    (hlo : vUserBaseAddr ≤ dst) (hhi : dst.toNat + size.toNat ≤ 0xFFC00000)
    (hlow : ∀ i < size.toNat,
      LowByte w.s.mem.mmu.phys (src + BitVec.ofNat 32 i) (bytes i))
    (hr : p.memorySetAndCopy w.s.mem src dst size byte = .ret k) :
    Serves (w.memory p)
      ((List.range size.toNat).map fun i => .write (dst + BitVec.ofNat 32 i) (bytes i))
      ((w.withMem k).memory p) := by
  have ho : Owned ⟨w.s.mem, w.pds⟩ w.HeapPage := h.holding.owned
  obtain ⟨hwithin, -, hcopied⟩ :=
    (h.stores.ownSpace ho (List.mem_map_of_mem hp)).memorySetAndCopy
      ho.separate.spaces.current hlo hhi hr
  have hle : vUserBaseAddr.toNat ≤ dst.toNat := hlo
  have hnat (i : ℕ) (hi : i < size.toNat) : (dst + BitVec.ofNat 32 i).toNat = dst.toNat + i := by
    rw [BitVec.toNat_add, BitVec.toNat_ofNat]
    omega
  apply Serves.writes
  · intro i hi j hj heq
    have hij := congrArg BitVec.toNat heq
    rw [hnat i hi, hnat j hj] at hij
    omega
  · intro i hi
    refine World.memory_eq_some.mpr ⟨⟨?_, ?_⟩, hcopied hsrc bytes hlow i hi⟩
    · show vUserBaseAddr.toNat ≤ _
      rw [hnat i hi]
      omega
    · show _ < (0xFFC00000 : ℕ)
      rw [hnat i hi]
      omega
  · intro u b hout hb
    obtain ⟨hu, hb⟩ := World.memory_eq_some.mp hb
    refine World.memory_eq_some.mpr ⟨hu, ?_⟩
    refine (hwithin.bytes u hu ?_).trans hb
    rintro ⟨hge, hlt⟩
    refine hout (u.toNat - dst.toNat) (by omega) (BitVec.eq_of_toNat_eq ?_)
    rw [hnat _ (by omega)]
    omega

/-- What the current process writes. -/
theorem MemoryInv.write (h : MemoryInv ⟨w, held⟩) (hp : p ∈ w.processes)
    (hcr3 : w.s.mem.mmu.cr3 = p.pdEntry) (hv : InUser v)
    (hr : w.s.mem.mmu.writeByte v b = .ret m) :
    MemoryInv ⟨w.withMem { w.s.mem with mmu := m }, held⟩ ∧
      Rewrites w.s.mem { w.s.mem with mmu := m } w.pds p.pdEntry := by
  have hd : p.pdEntry ∈ w.pds := List.mem_map_of_mem hp
  obtain ⟨hk, hcr3'⟩ := rewrites_writeByte h.holding.owned.separate.spaces hd hcr3 hv hr
  refine ⟨h.rewrites hp hk ?_, hk⟩
  show m.cr3 ∈ allDirectories w.pds
  rw [hcr3']
  exact List.mem_cons_of_mem _ hd

theorem MemoryInv.serves_write (h : MemoryInv ⟨w, held⟩) (hp : p ∈ w.processes)
    (hcr3 : w.s.mem.mmu.cr3 = p.pdEntry) (hv : InUser v)
    (hr : w.s.mem.mmu.writeByte v b = .ret m) :
    Serves (w.memory p) [.write v b] ((w.withMem { w.s.mem with mmu := m }).memory p) := by
  have ho : Owned ⟨w.s.mem, w.pds⟩ w.HeapPage := h.holding.owned
  obtain ⟨hwithin, hbyte, -⟩ :=
    (h.stores.ownSpace ho (List.mem_map_of_mem hp)).writeByte hcr3 hv hr
  intro u x hx
  by_cases huv : u = v
  · rw [huv, Function.update_self] at hx
    cases hx
    rw [huv]
    exact World.memory_eq_some.mpr ⟨hv, hbyte⟩
  · rw [Function.update_of_ne huv] at hx
    obtain ⟨hu, hx⟩ := World.memory_eq_some.mp hx
    exact World.memory_eq_some.mpr ⟨hu, (hwithin.bytes u hu huv).trans hx⟩

/-- What the current process reads. -/
theorem readByte_eq_ret {d : U32} (hcr3 : m.cr3 = d) :
    m.readByte v = .ret b ↔ m.byteIn d v = some b := by
  have htranslate : m.translateIn d v = m.translate v := by
    rw [Mmu.translateIn, ← hcr3]
  rw [Mmu.readByte, Mmu.byteIn, htranslate, Option.map_eq_some_iff]
  constructor
  · intro hr
    obtain ⟨a, ha, hb⟩ := Outcome.bind_eq_ret.mp hr
    exact ⟨a, Outcome.ofOption_eq_ret.mp ha, Outcome.ret.inj hb⟩
  · rintro ⟨a, ha, hb⟩
    rw [ha, ← hb]
    rfl

/-! ### Every step -/

theorem MemoryInv.step (h : MemoryInv s) (hstep : MemoryStep s op s') : MemoryInv s' := by
  cases hstep with
  | kernel hkernel =>
    cases hkernel with
    | call hcall => exact ⟨h.holding.call hcall, (hcall.spares h).2⟩
    | @allocate w held page k hr hmem =>
      have hlasting : LastingStep w.tables .poolPage (w.withMem k).tables := ⟨.poolPage hr, hmem⟩
      exact ⟨h.holding.allocate hr hmem, hlasting.stores h.holding.owned.separate h.stores⟩
    | free hpage hr => exact (h.free hpage hr).1
  | fault _ _ hcall => exact ⟨h.holding.call hcall, (hcall.spares h).2⟩
  | copy hp _ hlo hhi _ hr => exact (h.copy hp hlo hhi hr).1
  | read => exact h
  | write hp hcr3 hv hr => exact (h.write hp hcr3 hv hr).1

theorem MemoryStep.mem_processes (hstep : MemoryStep s op s') (hp : p ∈ s.w.processes) :
    p ∈ s'.w.processes := by
  cases hstep with
  | kernel hkernel =>
    cases hkernel with
    | call hcall => exact hcall.mem_processes hp
    | allocate => exact hp
    | free => exact hp
  | fault _ _ hcall => exact hcall.mem_processes hp
  | copy => exact hp
  | read => exact hp
  | write => exact hp

/-- Every step serves the accesses to the memory of a process. -/
theorem CarefulStep.serves (hstep : CarefulStep p s op s') (h : MemoryInv s)
    (hp : p ∈ s.w.processes) : Serves (s.w.memory p) (op.accesses p) (s'.w.memory p) := by
  obtain ⟨hstep, hcareful⟩ := hstep
  have hs := h.holding.owned.separate
  cases hstep with
  | kernel hkernel =>
    cases hkernel with
    | call hcall =>
      exact hcall.serves h hp fun u hu f hf => hcall.pageAt h hp (hcareful _ rfl) hu hf
    | @allocate w held page k hr hmem =>
      have hlasting : LastingStep w.tables .poolPage (w.withMem k).tables := ⟨.poolPage hr, hmem⟩
      have hd : p.pdEntry ∈ w.tables.pds := List.mem_map_of_mem hp
      intro u b hb
      obtain ⟨hu, hb⟩ := World.memory_eq_some.mp hb
      refine World.memory_eq_some.mpr ⟨hu, ?_⟩
      exact (hlasting.spares hs h.stores).byteIn hs h.stores hd hu
        (fun f hf => (hlasting.pageAt hs hd hu id).mpr hf) hb
    | @free w held page fuel k hpage hr =>
      intro u b hb
      obtain ⟨hu, hb⟩ := World.memory_eq_some.mp hb
      refine World.memory_eq_some.mpr ⟨hu, ?_⟩
      show k.mmu.byteIn p.pdEntry u = some b
      rwa [(h.free hpage hr).2]
  | fault _ hnone hcall =>
    exact hcall.serves h hp fun u hu f hf =>
      hcall.fault_pageAt hs hnone (List.mem_map_of_mem hp) hu hf
  | @copy w held q src dst size byte bytes k hq hsrc hlo hhi hlow hr =>
    by_cases hqp : q = p
    · subst hqp
      rw [MemoryOp.accesses, if_pos rfl]
      exact h.serves_copy hq hsrc hlo hhi hlow hr
    · rw [MemoryOp.accesses, if_neg hqp]
      exact h.serves_other hp hq (Ne.symm hqp) (h.copy hq hlo hhi hr).2
  | @read w held q v b hq hcr3 hv hr =>
    by_cases hqp : q = p
    · subst hqp
      rw [MemoryOp.accesses, if_pos rfl]
      have hb := (readByte_eq_ret hcr3).mp hr
      exact ⟨World.memory_eq_some.mpr ⟨hv, hb⟩, fun _ _ hb => hb⟩
    · rw [MemoryOp.accesses, if_neg hqp]
      exact fun _ _ hb => hb
  | @write w held q v b m hq hcr3 hv hr =>
    by_cases hqp : q = p
    · subst hqp
      rw [MemoryOp.accesses, if_pos rfl]
      exact h.serves_write hq hcr3 hv hr
    · rw [MemoryOp.accesses, if_neg hqp]
      exact h.serves_other hp hq (Ne.symm hqp) (h.write hq hcr3 hv hr).2

theorem MemoryInv.boot (h : Boot w) : MemoryInv ⟨w, []⟩ := by
  have hpds : w.pds = [] := by rw [World.pds, h.processes, List.map_nil]
  refine ⟨.boot h, ?_, ?_⟩
  · intro d hd
    change d ∈ w.pds at hd
    rw [hpds] at hd
    cases hd
  · intro d hd
    change d ∈ w.pds at hd
    rw [hpds] at hd
    cases hd

/-! ## The result -/

/-- Whatever else happens in the system, the reads and writes of a process, and of the kernel in
its memory, are those of one memory with a byte at every address: one that holds what the process
finds mapped first. -/
theorem flat_memory {ops₀ ops : List MemoryOp} (hboot : Boot w)
    (hreach : Run MemoryStep ⟨w, []⟩ ops₀ s) (hp : p ∈ s.w.processes)
    (hrun : Run (CarefulStep p) s ops s') :
    ∃ n : U32 → U8, Covers (s.w.memory p) n ∧ Replays n (ops.flatMap (MemoryOp.accesses p)) := by
  have hinv : MemoryInv s := hreach.invariant (fun _ _ _ h hstep => h.step hstep) (.boot hboot)
  apply Run.replays (I := fun s => MemoryInv s ∧ p ∈ s.w.processes)
    (v := fun s => s.w.memory p) _ hrun ⟨hinv, hp⟩
  rintro s op s' ⟨hs, hp⟩ hstep
  exact ⟨⟨hs.step hstep.1, hstep.1.mem_processes hp⟩, hstep.serves hs hp⟩

/-! ### A run -/

/-- A new process is given a page of its own. -/
theorem Created.userStep_allocate {w₀ : World} (h : Created w₀ w p) (hs : Separate w.tables)
    (hsup : w.s.mem.Supply 14335 2047) :
    ∃ w', UserStep w (.allocateAtAddress p 0x40001000 4 true) w' ∧
      w'.s.mem.mmu.byteIn p.pdEntry 0x40001000 ≠ none := by
  obtain ⟨fuel, s', -, halloc, hmapped⟩ := h.allocates hs hsup 0
  obtain ⟨out, hcall⟩ := allocateMemoryAtAddress_success halloc
  have hspends := spends_allocateMemoryAtAddress h.since (by decide) halloc
  refine ⟨_, ⟨?_, .allocateAtAddress h.mem_processes hcall, ?_⟩, hmapped _ rfl⟩
  · intro fuel v s₁ hchoose
    obtain ⟨x, hx, hlt, hbase, hlimit⟩ := h.since.region hchoose
    have hle := h.since.reservedLimit_le hx hlt (show (4 : U32) ≠ 0 by decide)
      (show (0x40001000 : U32).toNat + (4 : U32).toNat + 4096 < 2 ^ 32 by decide)
    constructor
    · rw [hbase]
      decide
    · rw [hlimit]
      exact hle.trans (by decide)
  · exact KernelMem.Supply.notExhausted (hspends 1 1 (hsup.mono (by decide) (by decide)))

/-- A process is created and given a page, writes a byte there, and reads it. -/
theorem flat_memory_boot : ∃ w p s n, Run (CarefulStep p) ⟨w, []⟩
      [.kernel (.call (.allocateAtAddress p 0x40001000 4 true)),
        .kernel (.call (.switchTo p.pdEntry)), .access p (.write 0x40001000 7),
        .access p (.read 0x40001000 7)] s ∧
    Covers (World.memory w p) n ∧ Replays n [.write 0x40001000 7, .read 0x40001000 7] := by
  obtain ⟨pool, w, p, hpool, hrun, hcreated, hsup⟩ := boot_created
  have hboot := boot_bootWorld hpool 0x10000
  have hp := hcreated.mem_processes
  have hcreate : UserStep (bootWorld pool 0x10000) .create w := by
    obtain ⟨w', hstep, hnil⟩ := hrun.of_cons
    rwa [hnil.of_nil] at hstep
  have hreach : Run MemoryStep ⟨bootWorld pool 0x10000, []⟩ [.kernel (.call .create)] ⟨w, []⟩ :=
    .single (.kernel (.call hcreate))
  have hinv : MemoryInv ⟨w, []⟩ :=
    hreach.invariant (fun _ _ _ h hstep => h.step hstep) (.boot hboot)
  obtain ⟨w₁, hcall, hmapped⟩ := hcreated.userStep_allocate hinv.holding.owned.separate hsup
  have hallocate : CarefulStep p ⟨w, []⟩ (.kernel (.call (.allocateAtAddress p 0x40001000 4 true)))
      ⟨w₁, []⟩ := by
    refine ⟨.kernel (.call hcall), ?_⟩
    intro _ _ _ v hv hv'
    -- nothing is mapped in a new process
    have hnone := hcreated.byteIn hv
    rw [Mmu.byteIn, Option.map_eq_none_iff] at hnone
    exact absurd hnone hv'
  -- the process becomes the current one
  have hp₁ : p ∈ w₁.processes := hcall.mem_processes hp
  generalize hw₂ : w₁.withMem { w₁.s.mem with
    mmu := w₁.s.mem.mmu.setCurrentPageDirectory p.pdEntry } = w₂
  have hswitch : CarefulStep p ⟨w₁, []⟩ (.kernel (.call (.switchTo p.pdEntry))) ⟨w₂, []⟩ := by
    refine ⟨.kernel (.call ⟨trivial, ?_, ?_⟩), ?_⟩
    · rw [← hw₂]
      exact .switchTo (List.mem_cons_of_mem _ (List.mem_map_of_mem hp₁))
    · rw [← hw₂]
      exact hcall.2.2
    · intro call hcall hnone
      cases hcall
      cases hnone
  have hp₂ : p ∈ w₂.processes := hswitch.1.mem_processes hp₁
  have hinv₂ : MemoryInv ⟨w₂, []⟩ := (hinv.step hallocate.1).step hswitch.1
  have hcr3 : w₂.s.mem.mmu.cr3 = p.pdEntry := by
    rw [← hw₂]
    rfl
  have hin : InUser 0x40001000 := by decide
  obtain ⟨m, hwrite⟩ := writeByte_returns hcr3 7 (show _ from by
    rw [← hw₂]
    exact hmapped)
  have hown := hinv₂.stores.ownSpace hinv₂.holding.owned (List.mem_map_of_mem hp₂)
  obtain ⟨-, hbyte, hcr3'⟩ := hown.writeByte hcr3 hin hwrite
  have hread : m.readByte 0x40001000 = .ret 7 := (readByte_eq_ret hcr3').mpr hbyte
  have hrun' := (Run.single hallocate).snoc hswitch
  have hrun' := hrun'.snoc ⟨.write hp₂ hcr3 hin hwrite, fun _ hop => by cases hop⟩
  have hrun' := hrun'.snoc ⟨.read hp₂ hcr3' hin hread, fun _ hop => by cases hop⟩
  obtain ⟨n, hcovers, hreplays⟩ := flat_memory hboot hreach hp hrun'
  refine ⟨w, p, _, n, hrun', hcovers, ?_⟩
  simpa [MemoryOp.accesses] using hreplays

end System

end LtMicros
