import LtMicros.Elf
import LtMicros.KernelRuns
import LtMicros.ReservedSupply
import LtMicros.VadGrants
import LtMicros.VadPages
import Mathlib.Algebra.BigOperators.Intervals

/-!
# What `_MapElfInProcess` loads

The entries in front of the first one whose address is 0 are copied into the process, each
with all of its `memSize` bytes from the file; the others are not.
-/

namespace LtMicros

open Lib Lib.Frames

/-! ## What the format says -/

/-- Every entry of type `PT_LOAD` is in the process: `fileSize` bytes of the file, and zeros up to
`memSize`. -/
def LoadedAsFormat (m : Mmu) (d : U32) (file : List U8) : Prop :=
  ∀ i, IsLoad file i → ∀ k < (programHeader file i).memSize.toNat,
    m.byteIn d ((programHeader file i).vaddr + BitVec.ofNat 32 k) =
      some (if k < (programHeader file i).fileSize.toNat
        then file.getD ((programHeader file i).offset.toNat + k) 0 else 0)

/-- No entry up to `i` has the address 0. -/
def Reached (file : List U8) (i : ℕ) : Prop := ∀ l ≤ i, (programHeader file l).vaddr ≠ 0

/-- The entries with bytes to load stand in front of the first one whose address is 0. -/
def AllReached (file : List U8) : Prop :=
  ∀ i, IsLoad file i → (programHeader file i).memSize ≠ 0 → Reached file i

/-- Behind the bytes of each of these entries there are zeros, in the file or behind it. -/
def ZeroBehind (file behind : List U8) : Prop :=
  ∀ i, IsLoad file i → ∀ k, (programHeader file i).fileSize.toNat ≤ k →
    k < (programHeader file i).memSize.toNat →
    (file ++ behind).getD ((programHeader file i).offset.toNat + k) 0 = 0

/-- The entries lie in the user half below the page tables, and what is copied lies in the
file and the bytes behind it. Where a later entry is reserved, or one in front of an entry that
is not reached, no byte to load is in its pages. -/
structure Placed (file behind : List U8) : Prop where
  user : ∀ i < phnum file, (programHeader file i).vaddr ≠ 0 →
    vUserBaseAddr ≤ (programHeader file i).vaddr ∧
    (programHeader file i).vaddr.toNat + (programHeader file i).memSize.toNat + 4096 ≤ 0xFFC00000
  load : ∀ i, IsLoad file i → (programHeader file i).vaddr ≠ 0 ∧
    (programHeader file i).offset.toNat + (programHeader file i).memSize.toNat ≤
      (file ++ behind).length
  apart : ∀ i j, IsLoad file i → j < phnum file → Reached file j → i < j ∨ ¬Reached file i →
    ∀ k < (programHeader file i).memSize.toNat,
      ¬ReachesPage (programHeader file j).vaddr (programHeader file j).memSize
        ((programHeader file i).vaddr + BitVec.ofNat 32 k)

/-- At most so many pages are reserved for the entries from `i` on. -/
def pagesFrom (file : List U8) (i : ℕ) : ℕ :=
  ∑ l ∈ Finset.Ico i (phnum file), ((programHeader file l).memSize.toNat / 4096 + 2)

/-- There are physical pages and blocks of the pool for the entries from `i` on. -/
def SupplyFrom (k : KernelMem) (file : List U8) (i : ℕ) : Prop :=
  k.Supply (2 * pagesFrom file i + 1) (pagesFrom file i + 1)

/-! ## The loop -/

/-- The first `i` entries have been copied, starting from `s₀`. -/
structure Loading (s₀ : VadMem) (pds : List U32) (p : Process) (file behind : List U8) (i : ℕ)
    (s : VadMem) : Prop where
  reached : ∀ l < i, l < phnum file ∧ (programHeader file l).vaddr ≠ 0
  cr3 : s.mem.mmu.cr3 = s₀.mem.mmu.cr3
  since : s.Since p.baseVad
  supply : SupplyFrom s.mem file i
  within : Within s₀.mem s.mem pds p.pdEntry fun u =>
    ∃ l < i, ReachesPage (programHeader file l).vaddr (programHeader file l).memSize u
  loaded : ∀ l < i, IsLoad file l → ∀ k < (programHeader file l).memSize.toNat,
    s.mem.mmu.byteIn p.pdEntry ((programHeader file l).vaddr + BitVec.ofNat 32 k) =
      some ((file ++ behind).getD ((programHeader file l).offset.toNat + k) 0)

section Turn

variable {s₀ s s' : VadMem} {pds : List U32} {p : Process} {file behind : List U8}
  {start : U32} {elf : ElfFile} {i k fuel : ℕ} {status : KeStatus} {st : ℕ × VadMem}

theorem Placed.inUser (h : Placed file behind) (hi : i < phnum file)
    (hvaddr : (programHeader file i).vaddr ≠ 0) (hk : k < (programHeader file i).memSize.toNat) :
    InUser ((programHeader file i).vaddr + BitVec.ofNat 32 k) ∧
      InRange (programHeader file i).vaddr (programHeader file i).memSize.toNat
        ((programHeader file i).vaddr + BitVec.ofNat 32 k) := by
  obtain ⟨hlo, hhi⟩ := h.user i hi hvaddr
  have hlo : vUserBaseAddr.toNat ≤ (programHeader file i).vaddr.toNat := hlo
  have hnat : ((programHeader file i).vaddr + BitVec.ofNat 32 k).toNat =
      (programHeader file i).vaddr.toNat + k := by
    rw [BitVec.toNat_add, BitVec.toNat_ofNat]
    omega
  refine ⟨⟨?_, ?_⟩, ?_⟩
  · show vUserBaseAddr.toNat ≤ _
    rw [hnat]
    omega
  · show _ < (0xFFC00000 : ℕ)
    rw [hnat]
    omega
  · rw [InRange, hnat]
    omega

theorem pagesFrom_succ (hi : i < phnum file) : pagesFrom file i =
    (programHeader file i).memSize.toNat / 4096 + 2 + pagesFrom file (i + 1) :=
  Finset.sum_eq_sum_Ico_succ_bot hi _

section Source

variable {phys : U32 → U32} (h : ModuleAt phys start (file ++ behind))
  (hplaced : Placed file behind) (hload : IsLoad file i)
  (hk : k < (programHeader file i).memSize.toNat)

include h hplaced hload hk

/-- What is copied lies in memory. -/
theorem ModuleAt.source : LowByte phys (start + (programHeader file i).offset + BitVec.ofNat 32 k)
    ((file ++ behind).getD ((programHeader file i).offset.toNat + k) 0) := by
  obtain ⟨-, hroom⟩ := hplaced.load i hload
  have hbyte := h.byte ((programHeader file i).offset.toNat + k) (by omega)
  rwa [← add_ofNat_add, BitVec.ofNat_toNat, BitVec.setWidth_eq] at hbyte

theorem ModuleAt.source_ne : start + (programHeader file i).offset ≠ 0 := by
  intro hnull
  obtain ⟨-, hroom⟩ := hplaced.load i hload
  have hlimit := h.limit
  have hne : start.toNat ≠ 0 := fun heq => h.notNull (BitVec.eq_of_toNat_eq heq)
  have hnat := congrArg BitVec.toNat hnull
  have hzero : (0 : U32).toNat = 0 := rfl
  rw [BitVec.toNat_add, hzero] at hnat
  omega

end Source

/-- The current directory is that of `s₀`. -/
theorem Loading.directory (h : Loading s₀ pds p file behind i s)
    (hcur : s₀.mem.mmu.cr3 ∈ allDirectories pds) : Directory s.mem.mmu.phys s.mem.mmu.cr3 := by
  rw [h.cr3]
  exact h.within.own.separate.spaces.directories _ hcur

theorem Loading.module (h : Loading s₀ pds p file behind i s)
    (hmodule : ModuleAt s₀.mem.mmu.phys start (file ++ behind)) :
    ModuleAt s.mem.mmu.phys start (file ++ behind) :=
  hmodule.mono h.within.low

/-- The memory of one more entry is reserved. -/
theorem Loading.allocated (h : Loading s₀ pds p file behind i s) (hplaced : Placed file behind)
    (hcur : s₀.mem.mmu.cr3 ∈ allDirectories pds) (hi : i < phnum file)
    (hvaddr : (programHeader file i).vaddr ≠ 0)
    (halloc : p.allocateMemoryAtAddress fuel s (programHeader file i).vaddr true
      (programHeader file i).memSize = .ret (.statusSuccess, s')) :
    AllocatedAt s s' pds p (programHeader file i).vaddr (programHeader file i).memSize ∧
      SupplyFrom s'.mem file (i + 1) := by
  obtain ⟨hlo, hhi⟩ := hplaced.user i hi hvaddr
  have hsupply : SupplyFrom s'.mem file (i + 1) := by
    have hspends := spends_allocateMemoryAtAddress h.since (by omega) halloc
    have hbefore := h.supply
    apply hspends
    rw [SupplyFrom, pagesFrom_succ hi] at hbefore
    exact hbefore.mono (by omega) (by omega)
  refine ⟨?_, hsupply⟩
  exact h.within.own.allocateMemoryAtAddress h.since (by rwa [h.cr3]) hlo hhi halloc
    (KernelMem.Supply.notExhausted hsupply)

/-- One more entry is copied. -/
theorem Loading.next (h : Loading s₀ pds p file behind i s) (hplaced : Placed file behind)
    (hmodule : ModuleAt s₀.mem.mmu.phys start (file ++ behind))
    (hcur : s₀.mem.mmu.cr3 ∈ allDirectories pds) (hi : i < phnum file)
    (hvaddr : (programHeader file i).vaddr ≠ 0) {mem : KernelMem}
    (halloc : p.allocateMemoryAtAddress fuel s (programHeader file i).vaddr true
      (programHeader file i).memSize = .ret (.statusSuccess, s'))
    (hcopy : p.memorySetAndCopy s'.mem (start + (programHeader file i).offset)
      (programHeader file i).vaddr (programHeader file i).memSize 0 = .ret mem) :
    Loading s₀ pds p file behind (i + 1) { s' with mem } := by
  obtain ⟨hlo, hhi⟩ := hplaced.user i hi hvaddr
  obtain ⟨hallocated, hsupply⟩ := h.allocated hplaced hcur hi hvaddr halloc
  have hcur' : s'.mem.mmu.cr3 ∈ allDirectories pds := by
    rw [hallocated.cr3, h.cr3]
    exact hcur
  obtain ⟨hwithin, hcr3, hbytes⟩ := hallocated.within.own.memorySetAndCopy hcur' hlo (by omega)
    hcopy
  have hturn : Within s.mem mem pds p.pdEntry
      (ReachesPage (programHeader file i).vaddr (programHeader file i).memSize) :=
    (hallocated.within.trans hwithin).mono fun u _ hu => hu.elim id reachesPage_of_inRange
  have hreached : Reached file i := by
    intro l hl
    rcases Nat.lt_or_eq_of_le hl with hlt | rfl
    · exact (h.reached l hlt).2
    · exact hvaddr
  constructor
  · intro l hl
    rcases Nat.lt_succ_iff_lt_or_eq.mp hl with hlt | rfl
    · exact h.reached l hlt
    · exact ⟨hi, hvaddr⟩
  · exact hcr3.trans (hallocated.cr3.trans h.cr3)
  · exact ⟨hallocated.since.first, hallocated.since.size, hallocated.since.next⟩
  · obtain ⟨hpmm, hpool⟩ := memorySetAndCopy_supply hcopy
    constructor
    · rw [hpmm]
      exact hsupply.pages
    · rw [hpool]
      exact hsupply.blocks
  · apply (h.within.trans hturn).mono
    rintro u - (⟨l, hl, hu⟩ | hu)
    · exact ⟨l, Nat.lt_succ_of_lt hl, hu⟩
    · exact ⟨i, Nat.lt_succ_self i, hu⟩
  · intro l hl hload k hk
    rcases Nat.lt_succ_iff_lt_or_eq.mp hl with hlt | rfl
    · -- no page of an entry that was copied before is reserved again
      obtain ⟨huser, -⟩ := hplaced.inUser hload.1 (h.reached l hlt).2 hk
      have happart := hplaced.apart l i hload hi hreached (.inl hlt) k hk
      exact (hturn.bytes _ huser happart).trans (h.loaded l hlt hload k hk)
    · have hmodule' := (h.module hmodule).mono hallocated.within.low
      apply hbytes (hmodule'.source_ne hplaced hload hk)
        (fun n => (file ++ behind).getD ((programHeader file l).offset.toNat + n) 0) _ k hk
      exact fun n hn => hmodule'.source hplaced hload hn

/-- The loop leaves at the end of the table or at the first address 0. -/
theorem mapElfInProcess_loading (hstart : Loading s₀ pds p file behind 0 s₀)
    (hvalid : ValidElf file) (hplaced : Placed file behind)
    (hmodule : ModuleAt s₀.mem.mmu.phys start (file ++ behind))
    (hcur : s₀.mem.mmu.cr3 ∈ allDirectories pds)
    (hr : mapElfInProcess fuel ⟨start, start + u32At file 28⟩ p s₀ = .ret (.statusSuccess, s')) :
    ∃ n, Loading s₀ pds p file behind n s' ∧
      (n < phnum file → (programHeader file n).vaddr = 0) := by
  have hmain := Outcome.loop_invariant
    (I := fun st : ℕ × VadMem => Loading s₀ pds p file behind st.1 st.2)
    (Q := fun r : KeStatus × VadMem => r.1 = .statusSuccess →
      ∃ n, Loading s₀ pds p file behind n r.2 ∧
        (n < phnum file → (programHeader file n).vaddr = 0))
    ?_ ?_ hstart hr
  · exact hmain rfl
  · rintro ⟨i, s⟩ ⟨i', s'⟩ hloading hturn
    rw [mapElfTurn_eq (hloading.module hmodule) hvalid (hloading.directory hcur)] at hturn
    split at hturn
    · rename_i hi
      split at hturn
      · cases hturn
      rename_i hvaddr
      obtain ⟨⟨status, s₁⟩, halloc, hturn⟩ := Outcome.bind_eq_ret.mp hturn
      dsimp only at hturn
      split at hturn
      · cases hturn
      rename_i hnot
      obtain ⟨mem, hcopy, hturn⟩ := Outcome.bind_eq_ret.mp hturn
      cases hturn
      have hstatus : status = .statusSuccess := by
        by_contra hne
        exact hnot (VadMem.failed_eq_true.mpr hne)
      subst hstatus
      exact hloading.next hplaced hmodule hcur hi hvaddr halloc hcopy
    · cases hturn
  · rintro ⟨i, s⟩ ⟨status, s'⟩ hloading hturn hsuccess
    obtain rfl : status = .statusSuccess := hsuccess
    rw [mapElfTurn_eq (hloading.module hmodule) hvalid (hloading.directory hcur)] at hturn
    split at hturn
    · split at hturn
      · rename_i hvaddr
        cases hturn
        exact ⟨i, hloading, fun _ => hvaddr⟩
      obtain ⟨⟨status, s₁⟩, -, hturn⟩ := Outcome.bind_eq_ret.mp hturn
      dsimp only at hturn
      split at hturn
      · rename_i hfailed
        cases hturn
        cases hfailed
      obtain ⟨mem, -, hturn⟩ := Outcome.bind_eq_ret.mp hturn
      cases hturn
    · rename_i hend
      cases hturn
      exact ⟨i, hloading, fun hi => absurd hi hend⟩

/-! ## What is loaded at the end -/

/-- The entries that are reached are those that have been copied. -/
theorem Loading.reached_iff (h : Loading s₀ pds p file behind i s)
    (hend : i < phnum file → (programHeader file i).vaddr = 0) {l : ℕ} (hl : l < phnum file) :
    Reached file l ↔ l < i := by
  constructor
  · intro hreached
    by_contra hge
    exact hreached i (Nat.le_of_not_lt hge) (hend (by omega))
  · intro hlt j hj
    exact (h.reached j (by omega)).2

/-- An entry that has not been copied is not mapped. -/
theorem Loading.byteIn_none (h : Loading s₀ pds p file behind i s)
    (hend : i < phnum file → (programHeader file i).vaddr = 0) (hplaced : Placed file behind)
    (hfresh : ∀ u, InUser u → s₀.mem.mmu.byteIn p.pdEntry u = none) {l : ℕ}
    (hload : IsLoad file l) (hnot : ¬Reached file l)
    (hk : k < (programHeader file l).memSize.toNat) :
    s.mem.mmu.byteIn p.pdEntry ((programHeader file l).vaddr + BitVec.ofNat 32 k) = none := by
  obtain ⟨huser, -⟩ := hplaced.inUser hload.1 (hplaced.load l hload).1 hk
  rw [h.within.bytes _ huser, hfresh _ huser]
  rintro ⟨j, hj, hpage⟩
  have hjt := (h.reached j hj).1
  exact hplaced.apart l j hload hjt ((h.reached_iff hend hjt).mpr hj) (.inr hnot) k hk hpage

theorem Loading.format_iff (h : Loading s₀ pds p file behind i s)
    (hend : i < phnum file → (programHeader file i).vaddr = 0) (hvalid : ValidElf file)
    (hplaced : Placed file behind)
    (hfresh : ∀ u, InUser u → s₀.mem.mmu.byteIn p.pdEntry u = none) :
    LoadedAsFormat s.mem.mmu p.pdEntry file ↔ AllReached file ∧ ZeroBehind file behind := by
  constructor
  · intro hformat
    have hall : AllReached file := by
      intro l hload hsize
      by_contra hnot
      have hpos : 0 < (programHeader file l).memSize.toNat :=
        Nat.pos_of_ne_zero fun heq => hsize (BitVec.eq_of_toNat_eq heq)
      have hbyte := hformat l hload 0 hpos
      rw [h.byteIn_none hend hplaced hfresh hload hnot hpos] at hbyte
      cases hbyte
    refine ⟨hall, ?_⟩
    intro l hload k hfile hk
    have hsize : (programHeader file l).memSize ≠ 0 := by
      intro heq
      rw [heq] at hk
      exact absurd hk (Nat.not_lt_zero k)
    have hlt := (h.reached_iff hend hload.1).mp (hall l hload hsize)
    have hbyte := hformat l hload k hk
    rw [h.loaded l hlt hload k hk, if_neg (Nat.not_lt.mpr hfile)] at hbyte
    exact Option.some.inj hbyte
  · rintro ⟨hall, hzero⟩ l hload k hk
    have hsize : (programHeader file l).memSize ≠ 0 := by
      intro heq
      rw [heq] at hk
      exact absurd hk (Nat.not_lt_zero k)
    have hlt := (h.reached_iff hend hload.1).mp (hall l hload hsize)
    rw [h.loaded l hlt hload k hk]
    by_cases hfile : k < (programHeader file l).fileSize.toNat
    · -- the bytes of the segment lie in the file
      obtain ⟨-, hin⟩ := hvalid.segments l hload
      rw [if_pos hfile, List.getD_append _ _ _ _ (by omega)]
    · rw [if_neg hfile, hzero l hload k (Nat.le_of_not_lt hfile) hk]

end Turn

/-! ## A new process -/

section Create

variable {w w' : World} {k k' : KernelMem} {pds : List U32} {p : Process} {f u v : U32} {b : U8}

/-- A page directory is created in a frame above the kernel's. -/
theorem LowByte.createProcessPageDirectory (hlow : LowByte k.mmu.phys v b) (hs : Spaces k pds)
    (hmem : k.NotExhausted) (hr : k.createProcessPageDirectory = .ret (f, k')) :
    LowByte k'.mmu.phys v b := by
  obtain ⟨hpages, hblocks⟩ := hmem
  obtain ⟨i, hi⟩ := Option.ne_none_iff_exists'.mp hblocks
  obtain ⟨g, hget, -, -, hr', -⟩ := hs.createProcessPageDirectory hi hpages
  cases hr.symm.trans hr'
  have hin := hs.pool.head hi
  obtain ⟨g, hg⟩ := hs.freshFrame hpages
  obtain rfl : g = f := hg.eq.symm.trans hget
  have hv : v < vUserBaseAddr := by
    show v.toNat < 0x40000000
    have hlt := hlow.1
    omega
  have hslot (x j : U32) (hx : IsFrame x) (hj : j.toNat < 1024) (hne : x ≠ g) :
      newDirectory (k.afterPageAlloc i).mmu.phys g (slot x j) =
        (k.afterPageAlloc i).mmu.phys (slot x j) := by
    rw [newDirectory_slot hg.frame hx hj, if_neg hne]
  apply hlow.kept
  · have hkernel := dirIndex_kernel hv
    rw [kernelPte_eq]
    refine (hslot _ _ (isFrame_kernelTable hkernel) (tableIndex_lt v)
      (hg.off.ne_kernelTable hkernel).symm).trans ?_
    rw [← kernelPte_eq]
    apply set_kernelPte_ne hv hin.lt
    intro heq
    have hnat := congrArg BitVec.toNat heq
    have hpool := hin.2.1
    have hlt := hlow.1
    rw [toNat_frameOf, hin.1.frameOf_eq] at hnat
    omega
  · intro x hx hoff hlt j hj
    refine (hslot x j hx hj ?_).trans (set_kernel_slot hin.lt hx hoff hj)
    rintro rfl
    have hhigh := hg.high
    omega

/-- In a run a process is created, and the kernel's low bytes stay. -/
theorem UserStep.created (hinv : WorldInv w) (hstep : UserStep w .create w') :
    ∃ p, Created w w' p ∧
      ∀ v b, LowByte w.s.mem.mmu.phys v b → LowByte w'.s.mem.mmu.phys v b := by
  obtain ⟨-, hcreate, hmem⟩ := hstep
  cases hcreate with
  | create hr =>
    obtain ⟨⟨f, k⟩, hdir, hrest⟩ := Outcome.bind_eq_ret.mp hr
    obtain ⟨s', hprocess, -, -, hk⟩ := VadMem.processCreate_spec { w.s with mem := k }
    simp only [hprocess] at hrest
    cases hrest
    rw [hk] at hmem
    have hbefore := (consumes_createProcessPageDirectory hdir).notExhausted hmem
    -- there is one way to create it
    obtain ⟨i, hi⟩ := Option.ne_none_iff_exists'.mp hbefore.2
    obtain ⟨l, hchain, -⟩ := hinv.spaces.pool
    obtain ⟨rest, rfl, -⟩ := hchain.chain_cons hi
    have hsup : w.s.mem.Supply (0 + 1) (0 + 1) :=
      ⟨Finset.card_pos.mpr hbefore.1, _, hchain, Nat.succ_le_succ (Nat.zero_le _)⟩
    obtain ⟨p, w₁, hstep₁, hcreated, -⟩ := hinv.create hsup
    cases hstep₁ with
    | create hr₁ =>
      cases hr.symm.trans hr₁
      refine ⟨p, hcreated, ?_⟩
      intro v b hlow
      rw [hk]
      exact hlow.createProcessPageDirectory hinv.spaces hbefore hdir

/-- Its pages are not mapped. -/
theorem Created.not_pageAt (h : Created w w' p) (hu : InUser u) (f : U32) :
    ¬PageAt w'.s.mem.mmu.phys p.pdEntry u f := by
  rintro ⟨x, hx, -⟩
  have habsent := h.absent _ hu.userIndex
  rw [entryIn_absent] at hx
  · cases hx
  · rw [habsent]
    exact not_present_absentEntry

theorem Created.byteIn (h : Created w w' p) (hu : InUser u) :
    w'.s.mem.mmu.byteIn p.pdEntry u = none := by
  have hd : p.pdEntry ∈ w'.pds := List.mem_map_of_mem h.mem_processes
  apply Option.eq_none_iff_forall_ne_some.mpr
  intro b hb
  obtain ⟨f, hf, -⟩ := (byteIn_eq_some (h.spaces.directory hd).frame).mp hb
  exact h.not_pageAt hu f hf

theorem Created.ownSpace (h : Created w w' p) (hs : Separate w'.tables) :
    OwnSpace w'.s.mem w'.pds p.pdEntry := by
  constructor
  · exact hs
  · exact List.mem_map_of_mem h.mem_processes
  · intro i hi t ht
    rw [h.absent i hi] at ht
    have hpresent := ht.1
    rw [not_present_absentEntry] at hpresent
    cases hpresent
  · intro v hv f hf
    exact absurd hf (h.not_pageAt hv f)
  · intro u v hu _ f hf
    exact absurd hf (h.not_pageAt hu f)

/-- It has one vad. -/
theorem Created.since (h : Created w w' p) : w'.s.Since p.baseVad := by
  have hone (v : ℕ) (hv : p.baseVad ≤ v) (hlt : v < w'.s.heapTop) : v = p.baseVad := by
    rw [h.heapTop] at hlt
    rw [h.baseVad] at hv ⊢
    omega
  constructor
  · rw [h.heapTop, h.baseVad]
    exact Nat.lt_succ_self _
  · intro v hv hlt
    rw [hone v hv hlt, h.vad]
  · intro v hv hlt x hx
    rw [hone v hv hlt, VadMem.next, h.vad] at hx
    cases hx

/-- Nothing is copied yet. -/
theorem Created.loading (h : Created w w' p) (hs : Separate w'.tables) {file : List U8}
    (hsupply : SupplyFrom w'.s.mem file 0) (behind : List U8) :
    Loading w'.s w'.pds p file behind 0 w'.s := by
  refine ⟨?_, rfl, h.since, hsupply, .refl (h.ownSpace hs) _, ?_⟩
  · intro l hl
    exact absurd hl (Nat.not_lt_zero l)
  · intro l hl
    exact absurd hl (Nat.not_lt_zero l)

end Create

/-! ## A module at the start -/

/-- With another memory management unit. -/
def World.withMmu (w : World) (mmu : Mmu) : World :=
  { w with s := { w.s with mem := { w.s.mem with mmu } } }

/-- The kernel as it starts, with a module at `start`. -/
def moduleWorld (pool : PagePool) (start : U32) (bytes : List U8) : World :=
  (bootWorld pool 0x10000).withMmu
    (Mmu.init (ofBytes fun a => bytes.getD (a - start).toNat 0))

section Boot

variable {phys : U32 → U32} {pool : PagePool} {start v : U32} {bytes : List U8}

/-- `Init` maps the low pages to themselves. -/
theorem lowByte_init (hlow : v.toNat < 0x800000) (hindex : tableIndex v ≠ 1023)
    (hoff : OffKernel (frameOf v)) (hne : frameOf v ≠ kernelInfo.pPageDirectory) :
    LowByte (Mmu.init phys).phys v (getByte phys v) := by
  obtain ⟨-, htables⟩ := Mmu.init_spec phys
  have hv : v < vUserBaseAddr := by
    show v.toNat < 0x40000000
    omega
  have hlimit : v < kernelInfo.pKernelLimit := hlow
  have hentry := htables v hv
  rw [initialFrame, if_neg hindex, if_pos hlimit] at hentry
  refine ⟨hlow, frameOf v, ?_, ?_, hoff, ?_⟩
  · rw [kernelPte_eq, hentry]
    have hpoints := pointsTo_kernelEntry (frameOf v)
    rwa [(isFrame_frameOf v).frameOf_eq] at hpoints
  · rw [toNat_frameOf]
    omega
  · rw [getByte_page (isFrame_frameOf v) fun j hj =>
      Mmu.init_other (isFrame_frameOf v) hoff hne hj, frameOf_add_offset]

/-- Such are the pages between the tables of the kernel half and the last one. -/
theorem lowByte_init_of_mem (hlo : 0x500000 ≤ v.toNat) (hhi : v.toNat < 0x7FF000) :
    LowByte (Mmu.init phys).phys v (getByte phys v) := by
  have hframe := toNat_frameOf v
  apply lowByte_init
  · omega
  · intro hindex
    have hnat := congrArg BitVec.toNat hindex
    have hlast : (1023 : U32).toNat = 1023 := rfl
    rw [toNat_tableIndex, hlast] at hnat
    omega
  · right
    omega
  · intro hdir
    have hnat : kernelInfo.pPageDirectory.toNat = 0x1000 := rfl
    rw [hdir, hnat] at hframe
    omega

theorem moduleAt_moduleWorld (hlo : 0x500000 ≤ start.toNat)
    (hhi : start.toNat + bytes.length ≤ 0x7FF000) :
    ModuleAt (moduleWorld pool start bytes).s.mem.mmu.phys start bytes := by
  constructor
  · rintro rfl
    exact absurd hlo (by decide)
  · exact hhi.trans (by decide)
  · intro n hn
    have hnat : (start + BitVec.ofNat 32 n).toNat = start.toNat + n := by
      rw [BitVec.toNat_add, BitVec.toNat_ofNat]
      omega
    have hback : (start + BitVec.ofNat 32 n - start).toNat = n := by
      rw [VadMem.sub_add_cancel_left, BitVec.toNat_ofNat]
      omega
    have hfirst : 0x500000 ≤ (start + BitVec.ofNat 32 n).toNat := by
      rw [hnat]
      exact hlo.trans (Nat.le_add_right _ _)
    have hlast : (start + BitVec.ofNat 32 n).toNat < 0x7FF000 := by
      rw [hnat]
      exact (Nat.add_lt_add_left hn _).trans_le hhi
    have hbyte : LowByte (moduleWorld pool start bytes).s.mem.mmu.phys _ _ :=
      lowByte_init_of_mem hfirst hlast
    rw [getByte_ofBytes, hback] at hbyte
    exact hbyte

theorem Boot.withMmu {w : World} (h : Boot w) (phys : U32 → U32) :
    Boot (w.withMmu (Mmu.init phys)) :=
  ⟨⟨phys, rfl⟩, h.gPmm, h.gPagePool, h.lastBlock, h.processes⟩

theorem supply_withMmu {w : World} {n m : ℕ} (h : w.s.mem.Supply n m) (mmu : Mmu) :
    (w.withMmu mmu).s.mem.Supply n m :=
  ⟨h.pages, h.blocks⟩

theorem boot_moduleWorld (h : PagePool.bss.init kernelInfo = .ret pool) (start : U32)
    (bytes : List U8) : Boot (moduleWorld pool start bytes) :=
  (boot_bootWorld h 0x10000).withMmu _

/-- The first process is created, and the module is still there. -/
theorem created_moduleWorld (h : PagePool.bss.init kernelInfo = .ret pool)
    (hlo : 0x500000 ≤ start.toNat) (hhi : start.toNat + bytes.length ≤ 0x7FF000) :
    ∃ p w, UserStep (moduleWorld pool start bytes) .create w ∧
      Created (moduleWorld pool start bytes) w p ∧ w.s.mem.Supply 14335 2047 ∧
      ModuleAt (moduleWorld pool start bytes).s.mem.mmu.phys start bytes ∧
      ModuleAt w.s.mem.mmu.phys start bytes := by
  have hinv := WorldInv.boot (boot_moduleWorld h start bytes)
  have hmodule : ModuleAt (moduleWorld pool start bytes).s.mem.mmu.phys start bytes :=
    moduleAt_moduleWorld hlo hhi
  obtain ⟨p, w, hstep, hcreated, hsup⟩ :=
    hinv.userStep_create (supply_withMmu (supply_bootWorld_64 h) _)
  obtain ⟨-, -, hlow⟩ := hstep.created hinv
  exact ⟨p, w, hstep, hcreated, hsup, hmodule, hmodule.mono hlow⟩

end Boot

/-! ## A file with an entry for its stack -/

/-- The bytes of a word, lowest first. -/
def wordBytes (w : U32) : List U8 := [byteOf w 0, byteOf w 1, byteOf w 2, byteOf w 3]

/-- An entry of the table as it is in the file. -/
def entryBytes (entry : ElfProgramHeaderTable) : List U8 :=
  [entry.type, entry.offset, entry.vaddr, 0, entry.fileSize, entry.memSize, 7, 0x1000].flatMap
    wordBytes

/-- A file with two entries. -/
def elfBytes (first second : ElfProgramHeaderTable) (content : List U8) : List U8 :=
  elfIdent ++ [1, 1, 1, 0, 0, 0, 0, 0, 0, 0, 0, 0, 2, 0, 3, 0] ++
    [1, 0x40001000, 52, 0, 0].flatMap wordBytes ++ [52, 0, 32, 0, 2, 0, 0, 0, 0, 0, 0, 0] ++
    entryBytes first ++ entryBytes second ++ content

/-- The entry of type `PT_GNU_STACK` is in front of the one to load. -/
def stackFirst : List U8 :=
  elfBytes ⟨0x6474E551, 0, 0, 0, 0⟩ ⟨1, 116, 0x40001000, 4, 4⟩ [0xB8, 0x01, 0x00, 0x00]

/-- It stands behind it. -/
def loadFirst : List U8 :=
  elfBytes ⟨1, 116, 0x40001000, 4, 4⟩ ⟨0x6474E551, 0, 0, 0, 0⟩ [0xB8, 0x01, 0x00, 0x00]

theorem length_stackFirst : stackFirst.length = 120 := by decide

theorem length_loadFirst : loadFirst.length = 120 := by decide

theorem validElf_stackFirst : ValidElf stackFirst where
  header := by decide
  ident := by decide
  type := by decide
  machine := by decide
  version := by decide
  phentsize := by decide
  table := by decide
  segments := by
    intro i hi
    have hlt : i < 2 := hi.1
    interval_cases i
    · exact absurd hi.2 (by decide)
    · decide

theorem validElf_loadFirst : ValidElf loadFirst where
  header := by decide
  ident := by decide
  type := by decide
  machine := by decide
  version := by decide
  phentsize := by decide
  table := by decide
  segments := by
    intro i hi
    have hlt : i < 2 := hi.1
    interval_cases i
    · decide
    · exact absurd hi.2 (by decide)

theorem placed_loadFirst : Placed loadFirst [] where
  user := by
    intro i hi hvaddr
    have hlt : i < 2 := hi
    interval_cases i
    · decide
    · exact absurd hvaddr (by decide)
  load := by
    intro i hi
    have hlt : i < 2 := hi.1
    interval_cases i
    · decide
    · exact absurd hi.2 (by decide)
  apart := by
    intro i j hi hj hreached hor
    have hlt : i < 2 := hi.1
    have hjt : j < 2 := hj
    interval_cases i
    · interval_cases j
      · exact absurd hreached (hor.resolve_left (Nat.lt_irrefl 0))
      · exact absurd (by decide) (hreached 1 (Nat.le_refl 1))
    · exact absurd hi.2 (by decide)

theorem pagesFrom_loadFirst : pagesFrom loadFirst 0 = 4 := by decide

section Run

variable {w w' : World} {p : Process}

/-- A new process is given the page at 0x40001000. -/
theorem Created.allocates (h : Created w w' p) (hs : Separate w'.tables)
    (hsup : w'.s.mem.Supply 14335 2047) (n : ℕ) :
    ∃ fuel s', n ≤ fuel ∧
      p.allocateMemoryAtAddress fuel w'.s 0x40001000 true 4 = .ret (.statusSuccess, s') ∧
      ∀ u, pageNo u = pageNo 0x40001000 → s'.mem.mmu.byteIn p.pdEntry u ≠ none := by
  have hd : p.pdEntry ∈ w'.pds := List.mem_map_of_mem h.mem_processes
  have htop : p.baseVad < w'.s.heapTop := h.allocated p.baseVad List.mem_cons_self
  obtain ⟨-, s₁, hchoose⟩ := chooseVadAtAddress_fresh h.vad htop
    (show (4 : U32) ≠ 0 by decide) (show _ ≤ (0x40001000 : U32).toNat by decide) (by decide)
    (by decide) 0
  have hmem : s₁.mem = w'.s.mem := VadMem.chooseVadAtAddress_mem hchoose
  obtain ⟨x, hx, hlt, hbase, hlimit⟩ := h.since.region hchoose
  obtain rfl : x = p.baseVad := by
    rw [h.heapTop, ← h.baseVad] at hlt
    omega
  have hend : (s₁.vads w'.s.heapTop).limitAddress = 0x40002000 := by
    have hpages : VadMem.pagesOf 4 = 0x1000 := by
      rw [VadMem.pagesOf, VadMem.localMod_eq_one (by decide)]
      decide
    have hroom : vadMinimumDelta < vProcessLimitAddr - 0x40001000 - 4 := by decide
    rw [hlimit, VadMem.reservedLimit, h.vad, if_pos (show vProcessBaseAddr ≠ 0x40001000 by decide),
      if_pos hroom, hpages]
    decide
  -- the loop of `ReservePages` ends
  have hspaces : Spaces s₁.mem w'.pds := by
    rw [hmem]
    exact h.spaces
  obtain ⟨m, s', hreserve⟩ := (@VadMem.reservePages_success_iff s₁ w'.s.heapTop p.pdEntry w'.pds
    true hspaces hd (by rw [hbase]; decide)).mpr (by rw [hbase, hend]; decide)
  have hchosen : VadMem.reserveChosen m p.pdEntry true (.statusSuccess, some w'.s.heapTop, s₁) =
      .ret (.statusSuccess, some w'.s.heapTop, s') := by
    rw [VadMem.reserveChosen, VadMem.reserveAndReturn, hreserve]
    rfl
  have hcall : w'.s.allocateAtAddress (0 + 1 + (m + n)) p.baseVad 0x40001000 4 p.pdEntry true =
      .ret (.statusSuccess, some w'.s.heapTop, s') := by
    rw [VadMem.allocateAtAddress_eq, VadMem.chooseVadAtAddress_mono hchoose (m + n),
      Outcome.ret_bind, show 0 + 1 + (m + n) = m + (n + 1) by omega]
    exact VadMem.reserveChosen_mono hchosen (n + 1)
  have halloc : p.allocateMemoryAtAddress (0 + 1 + (m + n)) w'.s 0x40001000 true 4 =
      .ret (.statusSuccess, s') := by
    rw [Process.allocateMemoryAtAddress, if_neg (by decide), if_neg (by decide), hcall,
      Outcome.ret_bind]
    rfl
  refine ⟨_, s', by omega, halloc, ?_⟩
  have hspends := spends_allocateMemoryAtAddress h.since (by decide) halloc
  have hlast : s'.mem.NotExhausted :=
    KernelMem.Supply.notExhausted (hspends 1 1 (hsup.mono (by decide) (by decide)))
  have hown := h.ownSpace hs
  rw [← hmem] at hown
  obtain ⟨-, -, hmapped⟩ := hown.reservePages hspaces.current (by rw [hbase]; decide)
    (by rw [hend]; decide) hreserve hlast
  intro u hu
  have hpage : pageNo (0x40001000 : U32) = 0x40001 := by decide
  rw [hpage] at hu
  unfold pageNo pageSize at hu
  apply hmapped u
  · constructor
    · show 0x40000000 ≤ u.toNat
      omega
    · show u.toNat < 0xFFC00000
      omega
  · rw [hbase, hend]
    refine ⟨0x40001000, ⟨Nat.le_refl _, by decide, rfl⟩, ?_⟩
    rw [hpage]
    exact hu

/-- The file with its entry to load in front. -/
theorem mapElfInProcess_loadFirst (hcreated : Created w w' p) (hs : Separate w'.tables)
    (hsup : w'.s.mem.Supply 14335 2047) {start : U32}
    (hmodule : ModuleAt w'.s.mem.mmu.phys start (loadFirst ++ [])) :
    ∃ fuel s', mapElfInProcess fuel ⟨start, start + u32At loadFirst 28⟩ p w'.s =
      .ret (.statusSuccess, s') := by
  have hcur := hs.spaces.current
  have hsupply : SupplyFrom w'.s.mem loadFirst 0 := by
    rw [SupplyFrom, pagesFrom_loadFirst]
    exact hsup.mono (by decide) (by decide)
  have hstart := hcreated.loading hs hsupply []
  have hi : 0 < phnum loadFirst := by decide
  have hload : IsLoad loadFirst 0 := by decide
  have hvaddr : (programHeader loadFirst 0).vaddr = 0x40001000 := by decide
  have hsize : (programHeader loadFirst 0).memSize = 4 := by decide
  have hne : (programHeader loadFirst 0).vaddr ≠ 0 := by decide
  obtain ⟨fuel, s₁, hfuel, halloc, hmapped⟩ := hcreated.allocates hs hsup 2
  rw [← hvaddr, ← hsize] at halloc
  obtain ⟨hallocated, -⟩ := hstart.allocated placed_loadFirst hcur hi hne halloc
  have hmodule₁ := hmodule.mono hallocated.within.low
  obtain ⟨mem, hcopy⟩ : ∃ mem, p.memorySetAndCopy s₁.mem
      (start + (programHeader loadFirst 0).offset) (programHeader loadFirst 0).vaddr
      (programHeader loadFirst 0).memSize 0 = .ret mem := by
    apply hallocated.within.own.memorySetAndCopy_returns (by decide) (by decide)
    · rintro u ⟨hge, hlt⟩
      apply hmapped
      rw [hvaddr] at hge hlt
      rw [hsize] at hlt
      have hbase : (0x40001000 : U32).toNat = 0x40001000 := rfl
      have hfour : (4 : U32).toNat = 4 := rfl
      unfold pageNo pageSize
      omega
    · exact fun n hn => hmodule₁.source placed_loadFirst hload hn
  have hnext := hstart.next placed_loadFirst hmodule hcur hi hne halloc hcopy
  have hturn : mapElfTurn fuel ⟨start, start + u32At loadFirst 28⟩ p (0, w'.s) =
      .ret (.inl (1, { s₁ with mem })) := by
    rw [mapElfTurn_eq hmodule validElf_loadFirst (hstart.directory hcur), if_pos hi, if_neg hne,
      halloc, Outcome.ret_bind]
    dsimp only
    rw [if_neg (by decide), hcopy]
    rfl
  have hleave : mapElfTurn fuel ⟨start, start + u32At loadFirst 28⟩ p (1, { s₁ with mem }) =
      .ret (.inr (.statusSuccess, { s₁ with mem })) := by
    rw [mapElfTurn_eq (hnext.module hmodule) validElf_loadFirst (hnext.directory hcur),
      if_pos (by decide), if_pos (by decide)]
  have hloop : Outcome.loop (mapElfTurn fuel ⟨start, start + u32At loadFirst 28⟩ p) 2 (0, w'.s) =
      .ret (.statusSuccess, { s₁ with mem }) := by
    rw [Outcome.loop_again hturn 1]
    exact Outcome.loop_leave hleave 0
  refine ⟨fuel, { s₁ with mem }, ?_⟩
  have hmono := Outcome.loop_mono hloop (fuel - 2)
  rwa [Nat.add_sub_cancel' hfuel] at hmono

/-- The file with the other entry in front: the loop is left at once. -/
theorem mapElfInProcess_stackFirst {s : VadMem} {start : U32}
    (hmodule : ModuleAt s.mem.mmu.phys start (stackFirst ++ []))
    (hdir : Directory s.mem.mmu.phys s.mem.mmu.cr3) :
    mapElfInProcess 1 ⟨start, start + u32At stackFirst 28⟩ p s = .ret (.statusSuccess, s) := by
  have hturn : mapElfTurn 1 ⟨start, start + u32At stackFirst 28⟩ p (0, s) =
      .ret (.inr (.statusSuccess, s)) := by
    rw [mapElfTurn_eq hmodule validElf_stackFirst hdir, if_pos (by decide), if_pos (by decide)]
  exact Outcome.loop_leave hturn 0

end Run

/-! ## The result -/

section Result

variable {w₀ w w' : World} {ops : List WorldOp} {p : Process} {file behind : List U8}
  {start out : U32} {elf : ElfFile} {fuel : ℕ} {s' : VadMem}

/-- While memory lasts, a new process has the segments of the file as the format says just when
no entry to load stands behind one with the address 0, and zeros follow each segment. -/
theorem mapElfInProcess_loads_iff (hboot : Boot w₀) (hrun : Run UserStep w₀ ops w)
    (hstep : UserStep w .create w') (hp : w'.processes = p :: w.processes)
    (hmodule : ModuleAt w.s.mem.mmu.phys start (file ++ behind)) (hvalid : ValidElf file)
    (hinit : w.s.mem.mmu.elfInit start out = .ret (.statusSuccess, some elf))
    (hplaced : Placed file behind) (hsupply : SupplyFrom w'.s.mem file 0)
    (hr : mapElfInProcess fuel elf p w'.s = .ret (.statusSuccess, s')) :
    LoadedAsFormat s'.mem.mmu p.pdEntry file ↔ AllReached file ∧ ZeroBehind file behind := by
  obtain ⟨hinv, -⟩ := reachable_separate hboot hrun
  obtain ⟨hinv', hs'⟩ := reachable_separate hboot (hrun.snoc hstep)
  obtain ⟨q, hcreated, hlow⟩ := hstep.created hinv
  obtain rfl : q = p := (List.cons.inj (hcreated.processes.symm.trans hp)).1
  have hdir := hinv.spaces.directories _ hinv.spaces.current
  have helf : elf = ⟨start, start + u32At file 28⟩ := by
    by_cases hout : out = 0
    · rw [Mmu.elfInit, if_neg hmodule.notNull, if_pos hout] at hinit
      cases hinit
    · rw [hmodule.elfInit hvalid hdir hout] at hinit
      cases hinit
      rfl
  subst helf
  obtain ⟨n, hloading, hend⟩ := mapElfInProcess_loading (hcreated.loading hs' hsupply behind)
    hvalid hplaced (hmodule.mono hlow) hinv'.spaces.current hr
  exact hloading.format_iff hend hvalid hplaced fun u hu => hcreated.byteIn hu

/-- The file whose entry to load stands in front. -/
theorem mapElfInProcess_loads_loadFirst : ∃ pool w p elf fuel s',
    PagePool.bss.init kernelInfo = .ret pool ∧
    UserStep (moduleWorld pool 0x600000 loadFirst) .create w ∧ w.processes = [p] ∧
    mapElfInProcess fuel elf p w.s = .ret (.statusSuccess, s') ∧
    LoadedAsFormat s'.mem.mmu p.pdEntry loadFirst := by
  obtain ⟨pool, hpool⟩ := boot_init
  have hboot := boot_moduleWorld hpool 0x600000 loadFirst
  obtain ⟨p, w, hstep, hcreated, hsup, hmodule, hmodule'⟩ :=
    created_moduleWorld hpool (show 0x500000 ≤ (0x600000 : U32).toNat by decide)
      (show (0x600000 : U32).toNat + loadFirst.length ≤ _ by rw [length_loadFirst]; decide)
  obtain ⟨-, hs⟩ := reachable_separate hboot (.single hstep)
  have hdir := (WorldInv.boot hboot).spaces.directories _ (WorldInv.boot hboot).spaces.current
  rw [← List.append_nil loadFirst] at hmodule hmodule'
  obtain ⟨fuel, s', hr⟩ := mapElfInProcess_loadFirst hcreated hs hsup hmodule'
  refine ⟨pool, w, p, _, fuel, s', hpool, hstep, hcreated.processes, hr, ?_⟩
  have hsupply : SupplyFrom w.s.mem loadFirst 0 := by
    rw [SupplyFrom, pagesFrom_loadFirst]
    exact hsup.mono (by decide) (by decide)
  apply (mapElfInProcess_loads_iff hboot (.nil _) hstep hcreated.processes hmodule
    validElf_loadFirst
    (hmodule.elfInit validElf_loadFirst hdir (show (0x700000 : U32) ≠ 0 by decide))
    placed_loadFirst hsupply hr).mpr
  constructor
  · intro i hload _ l hl
    have hlt : i < 2 := hload.1
    interval_cases i
    · rw [Nat.le_zero.mp hl]
      decide
    · exact absurd hload.2 (by decide)
  · intro i hload k hfile hk
    have hlt : i < 2 := hload.1
    interval_cases i
    · exact absurd hk (Nat.not_lt.mpr hfile)
    · exact absurd hload.2 (by decide)

/-- The file whose first entry has the address 0: nothing is loaded. -/
theorem not_loadedAsFormat : ∃ pool w p elf, PagePool.bss.init kernelInfo = .ret pool ∧
    UserStep (moduleWorld pool 0x600000 stackFirst) .create w ∧ w.processes = [p] ∧
    ModuleAt (moduleWorld pool 0x600000 stackFirst).s.mem.mmu.phys 0x600000 stackFirst ∧
    ValidElf stackFirst ∧ w.s.mem.mmu.elfInit 0x600000 0x700000 = .ret (.statusSuccess, some elf) ∧
    mapElfInProcess 1 elf p w.s = .ret (.statusSuccess, w.s) ∧
    ¬LoadedAsFormat w.s.mem.mmu p.pdEntry stackFirst := by
  obtain ⟨pool, hpool⟩ := boot_init
  obtain ⟨p, w, hstep, hcreated, -, hmodule, hmodule'⟩ :=
    created_moduleWorld hpool (show 0x500000 ≤ (0x600000 : U32).toNat by decide)
      (show (0x600000 : U32).toNat + stackFirst.length ≤ _ by rw [length_stackFirst]; decide)
  have hdir := hcreated.spaces.directories _ hcreated.spaces.current
  rw [← List.append_nil stackFirst] at hmodule'
  refine ⟨pool, w, p, _, hpool, hstep, hcreated.processes, hmodule, validElf_stackFirst,
    hmodule'.elfInit validElf_stackFirst hdir (by decide),
    mapElfInProcess_stackFirst hmodule' hdir, ?_⟩
  intro hformat
  have hbyte := hformat 1 (by decide) 0 (by decide)
  rw [hcreated.byteIn ⟨by decide, by decide⟩] at hbyte
  cases hbyte

end Result

end LtMicros
