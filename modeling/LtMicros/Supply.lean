import LtMicros.WorldRuns
import LtMicros.PagePoolRuns
import Mathlib.Order.Interval.Finset.Nat

/-!
# The supply of memory

How many physical pages and blocks of the page pool the operations use up, and
that they return while there are enough of both.
-/

namespace LtMicros

open Lib Lib.Frames

/-- At least this many physical pages and blocks of the pool are left. -/
structure KernelMem.Supply (k : KernelMem) (pages blocks : ℕ) : Prop where
  pages : pages ≤ k.gPmm.freePages.card
  blocks : ∃ l, Chain k.gPagePool.next k.gPagePool.availPageList l ∧ blocks ≤ l.length

section Supply

variable {k k' : KernelMem} {pds : List U32} {d v p flags : U32} {n m n' m' b : ℕ}

theorem KernelMem.Supply.mono (h : k.Supply n m) (hn : n' ≤ n) (hm : m' ≤ m) : k.Supply n' m' := by
  obtain ⟨l, hchain, hlen⟩ := h.blocks
  exact ⟨hn.trans h.pages, l, hchain, hm.trans hlen⟩

theorem KernelMem.Supply.block (h : k.Supply n (m + 1)) :
    ∃ b, k.gPagePool.availPageList = some b := by
  obtain ⟨l, hchain, hlen⟩ := h.blocks
  obtain ⟨b, l, rfl⟩ := List.exists_cons_of_length_pos (Nat.lt_of_lt_of_le m.succ_pos hlen)
  exact ⟨b, hchain.1⟩

theorem KernelMem.Supply.notExhausted (h : k.Supply (n + 1) (m + 1)) : k.NotExhausted := by
  obtain ⟨b, hb⟩ := h.block
  constructor
  · have hpages := h.pages
    exact Finset.card_pos.mp (by omega)
  · rw [hb]
    exact Option.some_ne_none b

/-- A page is taken from the bitmap, unless it is exhausted. -/
theorem PmmBitmap.card_getFreePage (p : PmmBitmap) :
    p.getFreePage.2.freePages.card = p.freePages.card - 1 := by
  rcases p.getFreePage_eq with ⟨hempty, hget⟩ | ⟨f, -, -, -, -, herase, hmem⟩
  · rw [hget, hempty]
    rfl
  · rw [herase, Finset.card_erase_of_mem hmem]

theorem KernelMem.Supply.takePage (h : k.Supply n m) : k.takePage.Supply (n - 1) m := by
  have hcard : k.takePage.gPmm.freePages.card = k.gPmm.freePages.card - 1 :=
    k.gPmm.card_getFreePage
  refine ⟨?_, h.blocks⟩
  rw [hcard]
  exact Nat.sub_le_sub_right h.pages 1

theorem KernelMem.Supply.afterPageAlloc (h : k.Supply n (m + 1))
    (hb : k.gPagePool.availPageList = some b) : (k.afterPageAlloc b).Supply (n - 1) m := by
  obtain ⟨l, hchain, hlen⟩ := h.blocks
  obtain ⟨rest, rfl, hrest⟩ := hchain.chain_cons hb
  obtain ⟨-, havail, -, hnext⟩ := PagePool.takeBlock_spec k.gPagePool b
  refine ⟨h.takePage.pages, rest, ?_, ?_⟩
  · show Chain (k.gPagePool.takeBlock b).next (k.gPagePool.takeBlock b).availPageList rest
    rw [havail, hnext]
    exact hrest.update_of_not_mem (List.nodup_cons.mp hchain.nodup).1 _
  · rw [List.length_cons] at hlen
    omega

/-- A page of the user half costs a page and a block when its table is missing. -/
theorem Adds.supply (h : Adds k d v p flags k') (hsup : k.Supply n (m + 1)) :
    k'.Supply (n - 1) m := by
  cases h with
  | present ht =>
    have hless := hsup.mono (Nat.sub_le n 1) (Nat.le_succ m)
    exact ⟨hless.pages, hless.blocks⟩
  | fresh habsent hb =>
    have hafter := hsup.afterPageAlloc hb
    exact ⟨hafter.pages, hafter.blocks⟩
  | empty habsent hb =>
    obtain ⟨b, hb'⟩ := hsup.block
    rw [hb] at hb'
    cases hb'

/-- With its table it costs neither. -/
theorem Adds.supply_present (h : Adds k d v p flags k')
    (hpresent : flagOn (k.mmu.phys (slot d (dirIndex v))) pagePresent = true)
    (hsup : k.Supply n m) : k'.Supply n m := by
  cases h with
  | present ht => exact ⟨hsup.pages, hsup.blocks⟩
  | fresh habsent =>
    rw [habsent] at hpresent
    cases hpresent
  | empty habsent =>
    rw [habsent] at hpresent
    cases hpresent

/-- What `Process::Create` leaves in the world `w'`, with the process `p`. -/
structure Created (w w' : World) (p : Process) : Prop where
  processes : w'.processes = p :: w.processes
  baseVad : p.baseVad = w.s.heapTop
  heapTop : w'.s.heapTop = w.s.heapTop + 1
  vad : w'.s.vads p.baseVad = ⟨vProcessBaseAddr, vProcessLimitAddr,
    vProcessLimitAddr - vProcessBaseAddr, true, none, none⟩
  vads : ∀ v < w.s.heapTop, w'.s.vads v = w.s.vads v
  cr3 : w'.s.mem.mmu.cr3 = w.s.mem.mmu.cr3
  gPmm : w'.s.mem.gPmm = w.s.mem.gPmm.getFreePage.2
  absent : ∀ i, UserIndex i → w'.s.mem.mmu.phys (slot p.pdEntry i) = absentEntry
  spaces : Spaces w'.s.mem w'.pds

/-- A process is created while there are a page and a block. -/
theorem WorldInv.create {w : World} (h : WorldInv w) (hsup : w.s.mem.Supply (n + 1) (m + 1)) :
    ∃ p w', WorldStep w .create w' ∧ Created w w' p ∧ w'.s.mem.Supply n m := by
  obtain ⟨b, hb⟩ := hsup.block
  obtain ⟨f, -, hf, -, hdir, hspaces⟩ :=
    h.spaces.createProcessPageDirectory hb hsup.notExhausted.1
  have hafter := hsup.afterPageAlloc hb
  generalize hk : (w.s.mem.afterPageAlloc b).withPhys
    (newDirectory (w.s.mem.afterPageAlloc b).mmu.phys f) = k at hdir
  have hvad := VadMem.create_spec ⟨w.s.vads, w.s.heapTop, k⟩
    (show vProcessBaseAddr ≠ 0 by decide)
    (show vProcessLimitAddr - vProcessBaseAddr ≠ 0 by decide) true
  have hlimit : vProcessBaseAddr + (vProcessLimitAddr - vProcessBaseAddr) = vProcessLimitAddr := by
    decide
  rw [hlimit] at hvad
  have hcreate : Process.create w.s = .ret (.statusSuccess, some ⟨w.s.heapTop, f⟩,
      ⟨Function.update w.s.vads w.s.heapTop ⟨vProcessBaseAddr, vProcessLimitAddr,
        vProcessLimitAddr - vProcessBaseAddr, true, none, none⟩, w.s.heapTop + 1, k⟩) := by
    rw [Process.create, hdir]
    simp only [Outcome.ret_bind, VadMem.processCreate, hvad, Outcome.pure_eq]
  refine ⟨⟨w.s.heapTop, f⟩, _, .create hcreate, ?_, ?_⟩
  · constructor
    · rfl
    · rfl
    · rfl
    · exact Function.update_self _ _ _
    · intro v hv
      exact Function.update_of_ne (Nat.ne_of_lt hv) _ _
    · rw [← hk]
      rfl
    · rw [← hk]
      rfl
    · intro i hi
      have hi' : i.toNat < 1024 := Nat.lt_succ_of_lt hi.2
      rw [← hk, KernelMem.withPhys_phys, newDirectory_slot hf hf hi', if_pos rfl, if_neg,
        newEntries, if_neg (Nat.not_lt.mpr hi.1)]
      rintro rfl
      exact absurd hi.2 (by decide)
    · rwa [hk] at hspaces
  · rw [← hk]
    exact ⟨hafter.pages, hafter.blocks⟩

/-- Such a call is one of a run when some memory is left. -/
theorem WorldInv.userStep_create {w : World} (h : WorldInv w)
    (hsup : w.s.mem.Supply (n + 2) (m + 2)) :
    ∃ p w', UserStep w .create w' ∧ Created w w' p ∧ w'.s.mem.Supply (n + 1) (m + 1) := by
  obtain ⟨p, w', hstep, hcreated, hsup'⟩ := h.create hsup
  exact ⟨p, w', ⟨trivial, hstep, hsup'.notExhausted⟩, hcreated, hsup'⟩

/-- `PageAlloc` again and again. -/
theorem WorldInv.pageAllocs {w : World} (h : WorldInv w) (hsup : w.s.mem.Supply n (b + m)) :
    ∃ w', Run WorldStep w (List.replicate b .pageAlloc) w' ∧ WorldInv w' ∧
      w'.s.mem.Supply (n - b) m ∧
      w'.s.mem.gPmm.freePages.card = w.s.mem.gPmm.freePages.card - b ∧
      w'.processes = w.processes := by
  induction b generalizing m with
  | zero =>
    rw [Nat.zero_add] at hsup
    exact ⟨w, .nil w, h, hsup, (Nat.sub_zero _).symm, rfl⟩
  | succ b ih =>
    obtain ⟨w₁, hrun, hinv, hsup₁, hcard, hprocs⟩ :=
      ih (m := m + 1) (hsup.mono (Nat.le_refl _) (by omega))
    obtain ⟨a, ha⟩ := hsup₁.block
    have hin := hinv.spaces.pool.head ha
    have hafter := hsup₁.afterPageAlloc ha
    refine ⟨{ w₁ with s := { w₁.s with mem := w₁.s.mem.afterPageAlloc a } }, ?_, ?_, ?_, ?_,
      hprocs⟩
    · rw [List.replicate_succ']
      exact hrun.snoc (.pageAlloc (pageAlloc_eq hinv.spaces.currentDirectory ha hin))
    · exact ⟨hinv.spaces.afterPageAlloc ha, hinv.heap⟩
    · exact hafter.mono (by omega) (Nat.le_refl _)
    · have hget := w₁.s.mem.gPmm.card_getFreePage
      rwa [hcard, Nat.sub_sub] at hget

end Supply

/-! ## The supply at the start -/

/-- The kernel as it starts. -/
def bootWorld (pool : PagePool) (highMem : U32) : World where
  s.vads := fun _ => ⟨0, 0, 0, false, none, none⟩
  s.heapTop := 0
  s.mem := ⟨Mmu.init fun _ => 0, allClear.init kernelInfo highMem, pool⟩
  bytes := fun _ => 0
  baseBlock := kernelInfo.vHeapBase.toNat
  lastBlock := kernelInfo.vHeapBase.toNat
  processes := []

variable {pool : PagePool}

theorem boot_bootWorld (h : PagePool.bss.init kernelInfo = .ret pool) (highMem : U32) :
    Boot (bootWorld pool highMem) := by
  rw [bootWorld]
  constructor
  · exact ⟨fun _ => 0, rfl⟩
  · refine ⟨allClear, highMem, ?_⟩
    dsimp only
  · exact h
  · rfl
  · rfl

/-- The pages above the kernel's, up to the last whole byte of the bitmap. -/
theorem freePages_init (highMem : U32) : (allClear.init kernelInfo highMem).freePages =
    Finset.Ico 2048 (8 * (PmmBitmap.lastPage highMem / 8)) := by
  have hlast := PmmBitmap.lastPage_lt highMem
  have hdiv : kernelInfo.pKernelLimit.toNat / pageSize = 2048 := rfl
  unfold ramMaxPage at hlast
  ext page
  rw [PmmBitmap.freePages, Finset.mem_filter, Finset.mem_range, Finset.mem_Ico]
  constructor
  · rintro ⟨hlt, hused⟩
    rw [PmmBitmap.used_init _ _ _ hlt, hdiv] at hused
    simp only [Bool.or_eq_false_iff, decide_eq_false_iff_not] at hused
    omega
  · rintro ⟨hlo, hhi⟩
    have hlt : page < ramMaxPage := by
      unfold ramMaxPage
      omega
    refine ⟨hlt, ?_⟩
    rw [PmmBitmap.used_init _ _ _ hlt, hdiv]
    simp only [Bool.or_eq_false_iff, decide_eq_false_iff_not]
    omega

/-- The pool has 2048 blocks. -/
theorem supply_bootWorld (h : PagePool.bss.init kernelInfo = .ret pool) (highMem : U32) :
    (bootWorld pool highMem).s.mem.Supply (8 * (PmmBitmap.lastPage highMem / 8) - 2048) 2048 := by
  obtain ⟨hchain, -, hbase, hlimit, -⟩ := PagePool.initPagesList_spec h
  rw [bootWorld]
  dsimp only
  constructor
  · dsimp only
    rw [freePages_init, Nat.card_Ico]
  · refine ⟨_, hchain, ?_⟩
    rw [List.length_range, PagePool.nbPages, hbase, hlimit]
    decide

/-- With 64 megabytes there are 14336 pages. -/
theorem supply_bootWorld_64 (h : PagePool.bss.init kernelInfo = .ret pool) :
    (bootWorld pool 0x10000).s.mem.Supply 14336 2048 :=
  (supply_bootWorld h 0x10000).mono (by decide) (Nat.le_refl _)

/-- The kernel starts and makes one process. -/
theorem boot_created : ∃ pool w p, PagePool.bss.init kernelInfo = .ret pool ∧
    Run UserStep (bootWorld pool 0x10000) [.create] w ∧ Created (bootWorld pool 0x10000) w p ∧
    w.s.mem.Supply 14335 2047 := by
  obtain ⟨pool, hpool⟩ := boot_init
  have hboot := boot_bootWorld hpool 0x10000
  obtain ⟨p, w, hstep, hcreated, hsup⟩ :=
    (WorldInv.boot hboot).userStep_create (supply_bootWorld_64 hpool)
  exact ⟨pool, w, p, hpool, .single hstep, hcreated, hsup⟩

theorem Created.mem_processes {w w' : World} {p : Process} (h : Created w w' p) :
    p ∈ w'.processes := by
  rw [h.processes]
  exact List.mem_cons_self

end LtMicros
