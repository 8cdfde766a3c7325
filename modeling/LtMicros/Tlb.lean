import LtMicros.PageMapping
import LtMicros.Lib.Cache

/-!
# The translations that the processor has cached

The functions that write a table entry, with the TLB next to the tables. Their
`invlpg` instructions take a variable as memory operand, so that they remove the
translation of the page of the stack that the variable is on. Accesses to the
stack itself are left out: what they fill in is removed by the next `invlpg`.
-/

namespace LtMicros

open Lib Lib.Frames

/-- The entry of a page that the processor may cache. -/
def Mmu.entryFor (m : Mmu) (page : U32) : Option U32 :=
  (m.walkEntry page).filter fun w => flagOn w pagePresent

/-- The kernel's memory managers with the cached translations, from the address
of a page to its table entry. -/
structure TlbMem where
  k : KernelMem
  tlb : Set (U32 × U32)

namespace TlbMem

/-- The processor invalidates the page of its memory operand. -/
def invlpg (s : TlbMem) (operand : U32) : TlbMem :=
  { s with tlb := Cache.invalidate s.tlb (frameOf operand) }

/-- A load of `cr3`. -/
def setCurrentPageDirectory (s : TlbMem) (pd : U32) : TlbMem where
  k := { s.k with mmu := s.k.mmu.setCurrentPageDirectory pd }
  tlb := ∅

/-- The word at a physical address changes. -/
def store (s : TlbMem) (pAddr value : U32) : TlbMem :=
  { s with k := s.k.withPhys (Function.update s.k.mmu.phys pAddr value) }

/-- An access to a virtual address ends at a physical one: by a cached translation
or by a walk, which may be cached. -/
inductive Access (s : TlbMem) (a : U32) : U32 → TlbMem → Prop
  | hit {w : U32} : (frameOf a, w) ∈ s.tlb → Access s a (frameOf w + (a &&& 0xFFF#32)) s
  | walk {pAddr : U32} {tlb : Set (U32 × U32)} : s.k.mmu.translate a = some pAddr →
      Cache.Fills s.k.mmu.entryFor s.tlb (frameOf a) tlb → Access s a pAddr { s with tlb }

/-- The word `w` is read at a virtual address. -/
inductive Reads (s : TlbMem) (a : U32) : U32 → TlbMem → Prop
  | mk {pAddr : U32} {s' : TlbMem} : Access s a pAddr s' → Reads s a (s'.k.mmu.phys pAddr) s'

/-- The word `w` is written at a virtual address. -/
inductive Writes (s : TlbMem) (a w : U32) : TlbMem → Prop
  | mk {pAddr : U32} {s' : TlbMem} : Access s a pAddr s' → Writes s a w (s'.store pAddr w)

/-- Where the local variables of a call are on the stack. -/
structure Locals where
  pde : U32
  pte : U32
  vAddr : U32

/-- The path that the functions share: the directory entry is present, and the
table entry becomes `w`. -/
inductive SetsEntry (l : Locals) (vAddr w : U32) : TlbMem → TlbMem → Prop
  | mk {s s₁ s₂ : TlbMem} {pde : U32} : Reads s (pdeOf vAddr) pde s₁ →
      flagOn pde pagePresent = true → Writes s₁ (pteOf vAddr) w s₂ →
      SetsEntry l vAddr w s ((s₂.invlpg l.pte).invlpg l.vAddr)

/-- `Vmm::AddPageToKernelPageDirectory`, where it does not panic. -/
inductive AddsToKernel (l : Locals) (vAddr pAddr flags : U32) : TlbMem → TlbMem → Prop
  | mk {s s' : TlbMem} : ¬ vUserBaseAddr < vAddr →
      SetsEntry l vAddr (setPageTableEntry pAddr (pagePresent ||| pageWriteable)) s s' →
      AddsToKernel l vAddr pAddr flags s s'

/-- `Vmm::SetPageTableFromVirtualAddress`, where it does not panic. -/
inductive SetsTable (l : Locals) (vAddr pageTableEntry : U32) : TlbMem → TlbMem → Prop
  | mk {s s' : TlbMem} : SetsEntry l vAddr pageTableEntry s s' →
      SetsTable l vAddr pageTableEntry s s'

/-- `PagePool::Allocate`; `l` are the variables of the call it makes. -/
inductive PageAllocs (l : Locals) : TlbMem → Page → TlbMem → Prop
  | empty {s : TlbMem} : s.k.gPagePool.availPageList = none → PageAllocs l s ⟨0, 0⟩ s
  | block {s s' : TlbMem} {newPage : ℕ} : s.k.gPagePool.availPageList = some newPage →
      AddsToKernel l ((s.k.gPagePool.takeBlock newPage).blocks newPage).addr
        s.k.gPmm.getFreePage.1 (pagePresent ||| pageWriteable)
        { s with k := { s.k with
          gPagePool := s.k.gPagePool.takeBlock newPage
          gPmm := s.k.gPmm.getFreePage.2 } } s' →
      PageAllocs l s
        ⟨s.k.gPmm.getFreePage.1, ((s.k.gPagePool.takeBlock newPage).blocks newPage).addr⟩ s'

/-- The first `n` turns of `Vmm::CleanPageTable`. -/
inductive Cleans (pt : U32) : ℕ → TlbMem → TlbMem → Prop
  | zero {s : TlbMem} : Cleans pt 0 s s
  | succ {s s₁ s₂ : TlbMem} {n : ℕ} : Cleans pt n s s₁ →
      Writes s₁ (pt + BitVec.ofNat 32 (4 * n)) 0 s₂ → Cleans pt (n + 1) s s₂

/-- `Vmm::AddPageToPageDirectory`; `l'` are the variables of the call below
`PageAlloc`. -/
inductive AddsToDirectory (l l' : Locals) (vAddr pAddr flags : U32) : TlbMem → TlbMem → Prop
  | present {s s' : TlbMem} : SetsEntry l vAddr (setPageTableEntry pAddr flags) s s' →
      AddsToDirectory l l' vAddr pAddr flags s s'
  | absent {s s₁ s₂ s₃ s₄ s₅ : TlbMem} {pde : U32} {page : Page} : Reads s (pdeOf vAddr) pde s₁ →
      flagOn pde pagePresent = false → PageAllocs l' s₁ page s₂ →
      Writes s₂ (pdeOf vAddr)
        (setPageDirectoryEntry page.pAddr (pagePresent ||| pageWriteable ||| flags)) s₃ →
      Cleans page.vAddr 1024 (s₃.invlpg l.pde) s₄ →
      Writes s₄ (pteOf vAddr) (setPageTableEntry pAddr flags) s₅ →
      AddsToDirectory l l' vAddr pAddr flags s ((s₅.invlpg l.pte).invlpg l.vAddr)

end TlbMem

/-- The calls that write a table entry. -/
inductive Remap where
  | kernel (vAddr pAddr flags : U32)
  | user (vAddr pAddr flags : U32)
  | table (vAddr pageTableEntry : U32)

namespace Remap

def vAddr : Remap → U32
  | kernel vAddr _ _ => vAddr
  | user vAddr _ _ => vAddr
  | table vAddr _ => vAddr

/-- The entry that is written. -/
def entry : Remap → U32
  | kernel _ pAddr _ => setPageTableEntry pAddr (pagePresent ||| pageWriteable)
  | user _ pAddr flags => setPageTableEntry pAddr flags
  | table _ pageTableEntry => pageTableEntry

/-- The call panics at once. -/
def Panics : Remap → Prop
  | kernel vAddr _ _ => vUserBaseAddr < vAddr
  | _ => False

/-- The call returns. -/
def Returns (l l' : TlbMem.Locals) : Remap → TlbMem → TlbMem → Prop
  | kernel vAddr pAddr flags => TlbMem.AddsToKernel l vAddr pAddr flags
  | user vAddr pAddr flags => TlbMem.AddsToDirectory l l' vAddr pAddr flags
  | table vAddr pageTableEntry => TlbMem.SetsTable l vAddr pageTableEntry

end Remap

/-- Every cached translation of the page of `vAddr` is the entry `w`. -/
def Coherent (s : TlbMem) (vAddr w : U32) : Prop := ∀ e ∈ s.tlb, e.1 = frameOf vAddr → e.2 = w

/-- The call panics, or the page was not mapped to anything else, or the stack is
on that page. -/
def NothingStale (k : KernelMem) (l : TlbMem.Locals) (op : Remap) : Prop :=
  op.Panics ∨ (∀ w, k.mmu.entryFor op.vAddr = some w → w = op.entry) ∨
    frameOf op.vAddr = frameOf l.pte ∨ frameOf op.vAddr = frameOf l.vAddr

section Entries

variable {m : Mmu} {u v w : U32}

/-- The entry depends on the page of the address only. -/
theorem entryFor_congr (h : frameOf u = frameOf v) : m.entryFor u = m.entryFor v := by
  have hnat := congrArg BitVec.toNat h
  rw [toNat_frameOf, toNat_frameOf] at hnat
  obtain ⟨hdir, htable⟩ := page_eq_iff.mp (show u.toNat / 4096 = v.toNat / 4096 by omega)
  rw [dirIndex, dirIndex] at hdir
  rw [tableIndex, tableIndex] at htable
  rw [Mmu.entryFor, Mmu.entryFor, Mmu.walkEntry, Mmu.walkEntry, hdir, htable]

theorem frameOf_idem (v : U32) : frameOf (frameOf v) = frameOf v :=
  (isFrame_frameOf v).frameOf_eq

theorem entryFor_frameOf (v : U32) : m.entryFor (frameOf v) = m.entryFor v :=
  entryFor_congr (frameOf_idem v)

theorem entryFor_eq_some : m.entryFor v = some w ↔
    m.walkEntry v = some w ∧ flagOn w pagePresent = true := by
  rw [Mmu.entryFor, Option.filter_eq_some_iff]

end Entries

namespace TlbMem

variable {s s' s₁ s₂ : TlbMem} {l l' : Locals} {a v w p flags x : U32} {n : ℕ} {page : Page}

/-! ## What an access adds -/

theorem Access.mem (h : Access s a p s') {e : U32 × U32} (he : e ∈ s'.tlb) :
    e ∈ s.tlb ∨ e.1 = frameOf a ∧ s.k.mmu.entryFor a = some e.2 := by
  cases h with
  | hit => exact .inl he
  | walk _ hfills =>
    rcases hfills.mem he with he | ⟨heq, hentry⟩
    · exact .inl he
    · rw [entryFor_frameOf] at hentry
      exact .inr ⟨heq, hentry⟩

theorem Access.k_eq (h : Access s a p s') : s'.k = s.k := by
  cases h with
  | hit => rfl
  | walk => rfl

theorem Access.consistent (h : Access s a p s') (hc : Cache.Consistent s.k.mmu.entryFor s.tlb) :
    Cache.Consistent s'.k.mmu.entryFor s'.tlb := by
  cases h with
  | hit => exact hc
  | walk _ hfills => exact hc.fills hfills

/-- With a consistent TLB an access ends where the walk does. -/
theorem Access.translate_eq (h : Access s a p s') (hc : Cache.Consistent s.k.mmu.entryFor s.tlb) :
    s.k.mmu.translate a = some p := by
  cases h with
  | hit hw =>
    have hentry := hc _ hw
    rw [entryFor_frameOf] at hentry
    obtain ⟨hwalk, hpresent⟩ := entryFor_eq_some.mp hentry
    have hframe := frameIn_eq_some.mpr (pointsTo_frameOf hpresent)
    rw [translate_eq_frameAt, Mmu.frameAt, hwalk, Option.bind_some]
    dsimp only
    rw [hframe]
    rfl
  | walk htranslate => exact htranslate

/-! ## What a whole call adds -/

/-- The path that the functions share adds what the tables said before it. -/
theorem SetsEntry.mem (h : SetsEntry l v w s s') (hc : Cache.Consistent s.k.mmu.entryFor s.tlb)
    {e : U32 × U32} (he : e ∈ s'.tlb) : s.k.mmu.entryFor e.1 = some e.2 ∧
      e.1 ≠ frameOf l.pte ∧ e.1 ≠ frameOf l.vAddr := by
  obtain ⟨⟨hread⟩, -, ⟨hwrite⟩⟩ := h
  have hc₁ := hwrite.consistent (hread.consistent hc)
  obtain ⟨⟨he, hpte⟩, hvAddr⟩ := he
  have hentry := hc₁ e he
  rw [hwrite.k_eq, hread.k_eq] at hentry
  exact ⟨hentry, hpte, hvAddr⟩

/-- No translation of the page of `v` is added. -/
def AddsNone (v : U32) (s s' : TlbMem) : Prop := ∀ e ∈ s'.tlb, e.1 = frameOf v → e ∈ s.tlb

theorem AddsNone.trans (h : AddsNone v s s₁) (h' : AddsNone v s₁ s') : AddsNone v s s' :=
  fun e he heq => h e (h' e he heq) heq

theorem addsNone_invlpg (s : TlbMem) (v operand : U32) : AddsNone v s (s.invlpg operand) :=
  fun _ he _ => he.1

theorem dirIndex_eq_of_frameOf (h : frameOf a = frameOf v) : dirIndex a = dirIndex v := by
  have hnat := congrArg BitVec.toNat h
  rw [toNat_frameOf, toNat_frameOf] at hnat
  exact (page_eq_iff.mp (show a.toNat / 4096 = v.toNat / 4096 by omega)).1

theorem Access.addsNone (h : Access s a p s') (hne : dirIndex a ≠ dirIndex v) :
    AddsNone v s s' := by
  intro e he heq
  rcases h.mem he with he | ⟨hpage, -⟩
  · exact he
  · exact absurd (dirIndex_eq_of_frameOf (hpage.symm.trans heq)) hne

theorem Reads.addsNone (h : Reads s a w s') (hne : dirIndex a ≠ dirIndex v) :
    AddsNone v s s' := by
  obtain ⟨haccess⟩ := h
  exact haccess.addsNone hne

theorem Writes.addsNone (h : Writes s a w s') (hne : dirIndex a ≠ dirIndex v) :
    AddsNone v s s' := by
  obtain ⟨haccess⟩ := h
  exact haccess.addsNone hne

theorem dirIndex_pdeOf (x : U32) : dirIndex (pdeOf x) = 1023 := pdeOf_dir x

theorem dirIndex_pteOf (x : U32) : dirIndex (pteOf x) = 1023 := pteOf_dir x

theorem InUser.dirIndex_ne (hv : InUser v) : (1023 : U32) ≠ dirIndex v := by
  have hlt := hv.userIndex.2
  intro heq
  rw [← heq] at hlt
  exact absurd hlt (by decide)

theorem SetsEntry.addsNone (h : SetsEntry l x w s s') (hv : InUser v) : AddsNone v s s' := by
  obtain ⟨hread, -, hwrite⟩ := h
  have hne := InUser.dirIndex_ne hv
  have hadd₁ : AddsNone v s _ := hread.addsNone (by rwa [dirIndex_pdeOf])
  have hadd₂ := hwrite.addsNone (v := v) (by rwa [dirIndex_pteOf])
  exact (hadd₁.trans hadd₂).trans ((addsNone_invlpg _ v _).trans (addsNone_invlpg _ v _))

/-- An address of the kernel half is on none of these pages. -/
theorem dirIndex_ne_of_kernel (hv : InUser v) (ha : a < vUserBaseAddr) :
    dirIndex a ≠ dirIndex v := by
  have hlt := dirIndex_kernel ha
  have hle := hv.userIndex.1
  intro heq
  rw [heq] at hlt
  omega

theorem PageAllocs.addsNone (h : PageAllocs l s page s') (hv : InUser v)
    (hpool : s.k.gPagePool.AvailInPool) :
    AddsNone v s s' ∧ IsFrame page.vAddr ∧ page.vAddr < vUserBaseAddr := by
  cases h with
  | empty => exact ⟨fun _ he _ => he, by decide, by decide⟩
  | @block _ b hb hadds =>
    have hin := hpool.head hb
    have haddr := (PagePool.takeBlock_spec s.k.gPagePool b).1.addr b
    obtain ⟨-, hsets⟩ := hadds
    have hadd := hsets.addsNone hv
    refine ⟨hadd, ?_, ?_⟩
    · dsimp only
      rw [haddr]
      exact hin.1
    · dsimp only
      rw [haddr]
      exact hin.lt

theorem Cleans.addsNone (h : Cleans a n s s') (hv : InUser v) (hn : n ≤ 1024) (ha : IsFrame a)
    (hlt : a < vUserBaseAddr) : AddsNone v s s' := by
  induction h with
  | zero => exact fun _ he _ => he
  | @succ s s₁ s₂ n _ hwrite ih =>
    have hle := ha.toNat_add_le
    have hword := toNat_slot (i := BitVec.ofNat 32 n) ha (by rw [toNat_index hn]; omega)
    have hkernel : slot a (BitVec.ofNat 32 n) < vUserBaseAddr := by
      have hlt : a.toNat < 0x40000000 := hlt
      show (slot a (BitVec.ofNat 32 n)).toNat < 0x40000000
      rw [hword, toNat_index hn]
      rw [IsFrame] at ha
      omega
    rw [Mmu.add_four_mul a hn] at hwrite
    exact (ih (by omega)).trans (hwrite.addsNone (dirIndex_ne_of_kernel hv hkernel))

/-- The directory entry that is read, with a consistent TLB. -/
theorem Reads.pde (h : Reads s (pdeOf v) w s') (hc : Cache.Consistent s.k.mmu.entryFor s.tlb)
    (hdir : Directory s.k.mmu.phys s.k.mmu.directory) :
    w = s.k.mmu.phys (slot s.k.mmu.directory (dirIndex v)) ∧ s'.k = s.k := by
  obtain ⟨haccess⟩ := h
  have htranslate := haccess.translate_eq hc
  rw [Mmu.translate_pdeOf hdir] at htranslate
  cases htranslate
  rw [haccess.k_eq]
  exact ⟨rfl, rfl⟩

end TlbMem

/-- An absent directory entry is one of the user half, and nothing is mapped
behind it. -/
theorem Directory.absent {m : Mmu} {v : U32} (h : Directory m.phys m.directory)
    (habsent : flagOn (m.phys (slot m.directory (dirIndex v))) pagePresent = false) :
    InUser v ∧ m.entryFor v = none := by
  constructor
  · have hlt := dirIndex_lt v
    by_contra hnot
    have hcases : (dirIndex v).toNat < 256 ∨ dirIndex v = 1023 := by
      by_cases hlow : v.toNat < 0x40000000
      · exact .inl (dirIndex_kernel (show v < vUserBaseAddr from hlow))
      · right
        have hhigh : 0xFFC00000 ≤ v.toNat := by
          by_contra hhigh
          exact hnot ⟨Nat.le_of_not_lt hlow, Nat.lt_of_not_le hhigh⟩
        apply BitVec.eq_of_toNat_eq
        rw [toNat_dirIndex] at hlt ⊢
        have hlast : (1023 : U32).toNat = 1023 := rfl
        omega
    rcases hcases with hkernel | hself
    · rw [h.tables _ hkernel, (pointsTo_kernelPde hkernel).1] at habsent
      cases habsent
    · rw [hself, h.self.1] at habsent
      cases habsent
  · have hwalk : m.walkEntry v = none := by
      have hframe : m.cr3 &&& 0xFFFFF000#32 = m.directory := rfl
      rw [slot, dirIndex] at habsent
      rw [Mmu.walkEntry, hframe, if_neg]
      rw [habsent]
      exact Bool.false_ne_true
    rw [Mmu.entryFor, hwalk]
    rfl

/-! ## The calls without a TLB -/

namespace TlbMem

variable {k k' : KernelMem} {m m' : Mmu} {tlb : Set (U32 × U32)} {l l' : Locals}
  {a t v w p flags : U32} {n : ℕ} {page : Page}

theorem Reads.of_read (h : k.mmu.read a = .ret w) (tlb : Set (U32 × U32)) :
    Reads ⟨k, tlb⟩ a w ⟨k, tlb⟩ := by
  obtain ⟨pAddr, htranslate, hr⟩ := Outcome.bind_eq_ret.mp h
  cases hr
  exact .mk (.walk (Outcome.ofOption_eq_ret.mp htranslate) .keep)

theorem Writes.of_write (h : k.mmu.write a w = .ret m') (tlb : Set (U32 × U32)) :
    Writes ⟨k, tlb⟩ a w ⟨{ k with mmu := m' }, tlb⟩ := by
  obtain ⟨pAddr, htranslate, hr⟩ := Outcome.bind_eq_ret.mp h
  cases hr
  exact .mk (.walk (Outcome.ofOption_eq_ret.mp htranslate) .keep)

theorem AddsToKernel.of_ret (hr : k.mmu.addPageToKernelPageDirectory v p flags = .ret m')
    (l : Locals) (tlb : Set (U32 × U32)) :
    ∃ tlb', AddsToKernel l v p flags ⟨k, tlb⟩ ⟨{ k with mmu := m' }, tlb'⟩ := by
  unfold Mmu.addPageToKernelPageDirectory at hr
  split at hr
  · cases hr
  rename_i hlt
  obtain ⟨pde, hread, hr⟩ := Outcome.bind_eq_ret.mp hr
  split at hr
  · rename_i hpresent
    exact ⟨_, hlt, .mk (.of_read hread tlb) hpresent (.of_write hr tlb)⟩
  · cases hr

theorem PageAllocs.of_ret (hr : k.pageAlloc = .ret (page, k')) (l : Locals)
    (tlb : Set (U32 × U32)) : ∃ tlb', PageAllocs l ⟨k, tlb⟩ page ⟨k', tlb'⟩ := by
  cases hb : k.gPagePool.availPageList with
  | none =>
    simp only [KernelMem.pageAlloc, hb] at hr
    cases hr
    exact ⟨tlb, .empty hb⟩
  | some b =>
    simp only [KernelMem.pageAlloc, hb] at hr
    obtain ⟨mmu, hadd, hr⟩ := Outcome.bind_eq_ret.mp hr
    cases hr
    obtain ⟨tlb', hadds⟩ := AddsToKernel.of_ret (k := { k with
      gPagePool := k.gPagePool.takeBlock b
      gPmm := k.gPmm.getFreePage.2 }) hadd l tlb
    exact ⟨tlb', .block (s := ⟨k, tlb⟩) hb hadds⟩

theorem Cleans.of_ret (hr : (List.range n).foldlM
    (fun m i => m.write (a + BitVec.ofNat 32 (4 * i)) 0) m = .ret m') (k : KernelMem)
    (tlb : Set (U32 × U32)) :
    Cleans a n ⟨{ k with mmu := m }, tlb⟩ ⟨{ k with mmu := m' }, tlb⟩ := by
  induction n generalizing m' with
  | zero =>
    cases hr
    exact .zero
  | succ n ih =>
    rw [List.range_succ, List.foldlM_append] at hr
    obtain ⟨m₁, hfirst, hr⟩ := Outcome.bind_eq_ret.mp hr
    rw [List.foldlM_cons] at hr
    obtain ⟨m₂, hwrite, hr⟩ := Outcome.bind_eq_ret.mp hr
    cases hr
    exact .succ (ih hfirst) (.of_write (k := { k with mmu := m₁ }) hwrite tlb)

/-- What `AddPageToPageDirectory` does is one of the runs with a TLB, whatever
this holds. -/
theorem AddsToDirectory.of_ret (hr : k.addPageToPageDirectory v p flags = .ret k') (l l' : Locals)
    (tlb : Set (U32 × U32)) :
    ∃ tlb', AddsToDirectory l l' v p flags ⟨k, tlb⟩ ⟨k', tlb'⟩ := by
  obtain ⟨pde, hread, hr⟩ := Outcome.bind_eq_ret.mp hr
  dsimp only at hr
  split at hr
  · rename_i hpresent
    obtain ⟨_, hk, hr⟩ := Outcome.bind_eq_ret.mp hr
    cases hk
    obtain ⟨mmu, hwrite, hr⟩ := Outcome.bind_eq_ret.mp hr
    cases hr
    exact ⟨_, .present (.mk (.of_read hread tlb) hpresent (.of_write hwrite tlb))⟩
  · rename_i habsent
    obtain ⟨k₁, htable, hr⟩ := Outcome.bind_eq_ret.mp hr
    obtain ⟨mmu, hwrite, hr⟩ := Outcome.bind_eq_ret.mp hr
    cases hr
    obtain ⟨⟨page, k₂⟩, halloc, htable⟩ := Outcome.bind_eq_ret.mp htable
    obtain ⟨mmu₁, hpde, htable⟩ := Outcome.bind_eq_ret.mp htable
    obtain ⟨mmu₂, hclean, htable⟩ := Outcome.bind_eq_ret.mp htable
    cases htable
    obtain ⟨tlb₁, halloc'⟩ := PageAllocs.of_ret halloc l' tlb
    exact ⟨_, .absent (.of_read hread tlb) (Bool.not_eq_true _ ▸ habsent) halloc'
      (.of_write hpde tlb₁) (Cleans.of_ret hclean k₂ _)
      (.of_write (k := { k₂ with mmu := mmu₂ }) hwrite _)⟩

/-- The shared path where the tables are in place. -/
theorem SetsEntry.of_table (h : Directory k.mmu.phys k.mmu.directory)
    (ht : TableOf k.mmu.phys k.mmu.directory v t) (l : Locals) (w : U32)
    (tlb : Set (U32 × U32)) : ∃ k', SetsEntry l v w ⟨k, tlb⟩
      ((TlbMem.invlpg ⟨k', tlb⟩ l.pte).invlpg l.vAddr) :=
  ⟨_, .mk (.of_read (Mmu.read_pdeOf h v) tlb) ht.1 (.of_write (Mmu.write_pteOf h ht w) tlb)⟩

end TlbMem

/-! ## Stale translations -/

section Stale

variable {k : KernelMem} {l l' : TlbMem.Locals} {op : Remap}

/-- Where nothing can be stale, nothing is. -/
theorem NothingStale.coherent (h : Directory k.mmu.phys k.mmu.directory)
    (hpool : k.gPagePool.AvailInPool) (hnone : NothingStale k l op) {tlb : Set (U32 × U32)}
    (hc : Cache.Consistent k.mmu.entryFor tlb) {s' : TlbMem}
    (hreturns : op.Returns l l' ⟨k, tlb⟩ s') : Coherent s' op.vAddr op.entry := by
  have hshared (hsets : TlbMem.SetsEntry l op.vAddr op.entry ⟨k, tlb⟩ s')
      (hpanics : ¬ op.Panics) : Coherent s' op.vAddr op.entry := by
    intro e he heq
    obtain ⟨hentry, hpte, hvAddr⟩ := hsets.mem hc he
    rw [heq, entryFor_frameOf] at hentry
    rw [heq] at hpte hvAddr
    rcases hnone with hpanic | hsame | heq' | heq'
    · exact absurd hpanic hpanics
    · exact hsame _ hentry
    · exact absurd heq' hpte
    · exact absurd heq' hvAddr
  cases op with
  | kernel v p flags =>
    obtain ⟨hlt, hsets⟩ := hreturns
    exact hshared hsets hlt
  | table v w =>
    obtain ⟨hsets⟩ := hreturns
    exact hshared hsets id
  | user v p flags =>
    cases hreturns with
    | present hsets => exact hshared hsets id
    | absent hread habsent halloc hpde hclean hpte =>
      obtain ⟨heq, hk⟩ := hread.pde hc h
      rw [heq] at habsent
      obtain ⟨hv, hentry⟩ := h.absent habsent
      have hne := TlbMem.InUser.dirIndex_ne hv
      have hadd₁ := hread.addsNone (v := v) (by rwa [TlbMem.dirIndex_pdeOf])
      obtain ⟨hadd₂, hframe, hlt⟩ := halloc.addsNone hv (by rwa [hk])
      have hadd₃ := hpde.addsNone (v := v) (by rwa [TlbMem.dirIndex_pdeOf])
      have hadd₄ := hclean.addsNone hv (Nat.le_refl _) hframe hlt
      have hadd₅ := hpte.addsNone (v := v) (by rwa [TlbMem.dirIndex_pteOf])
      have hall := (((hadd₁.trans hadd₂).trans hadd₃).trans
        (TlbMem.addsNone_invlpg _ v l.pde)).trans hadd₄
      -- behind an absent directory entry nothing was cached before
      intro e he heq
      have hold := (hall.trans hadd₅) e he.1.1 heq
      have hwas := hc e hold
      rw [heq, entryFor_frameOf] at hwas
      cases hentry.symm.trans hwas

/-- A stale translation that was cached before survives the call. -/
theorem stale_survives (h : Directory k.mmu.phys k.mmu.directory) (hpanics : ¬ op.Panics) {w : U32}
    (hentry : k.mmu.entryFor op.vAddr = some w) (hpte : frameOf op.vAddr ≠ frameOf l.pte)
    (hvAddr : frameOf op.vAddr ≠ frameOf l.vAddr) :
    Cache.Consistent k.mmu.entryFor {(frameOf op.vAddr, w)} ∧
    ∃ s', op.Returns l l' ⟨k, {(frameOf op.vAddr, w)}⟩ s' ∧ (frameOf op.vAddr, w) ∈ s'.tlb := by
  constructor
  · intro e he
    rw [Set.mem_singleton_iff.mp he, entryFor_frameOf]
    exact hentry
  · have hpresent : flagOn (k.mmu.phys (slot k.mmu.directory (dirIndex op.vAddr))) pagePresent =
        true := by
      by_contra habsent
      rw [Bool.not_eq_true] at habsent
      rw [(h.absent habsent).2] at hentry
      cases hentry
    obtain ⟨k', hsets⟩ := TlbMem.SetsEntry.of_table h (pointsTo_frameOf hpresent) l op.entry
      {(frameOf op.vAddr, w)}
    refine ⟨(TlbMem.invlpg ⟨k', {(frameOf op.vAddr, w)}⟩ l.pte).invlpg l.vAddr, ?_,
      ⟨Set.mem_singleton _, hpte⟩, hvAddr⟩
    cases op with
    | kernel => exact ⟨hpanics, hsets⟩
    | user => exact .present hsets
    | table => exact ⟨hsets⟩

/-- The kernel half is mapped from the start. -/
theorem entryFor_init (phys : U32 → U32) {v : U32} (hv : v < vUserBaseAddr) :
    (Mmu.init phys).entryFor v = some (kernelEntry (initialFrame v)) := by
  obtain ⟨hdir, htables⟩ := Mmu.init_spec phys
  rw [entryFor_eq_some, walkEntry_table hdir.frame (hdir.kernel hv), htables v hv]
  exact ⟨rfl, (pointsTo_kernelEntry _).1⟩

/-- After a call that writes a table entry no stale translation of its page is
left, whatever consistent TLB it started with, exactly when there was nothing that
could be stale, or the page happens to be that of the variables. -/
theorem coherent_iff (h : Directory k.mmu.phys k.mmu.directory) (hpool : k.gPagePool.AvailInPool)
    (op : Remap) (l l' : TlbMem.Locals) :
    (∀ tlb, Cache.Consistent k.mmu.entryFor tlb → ∀ s', op.Returns l l' ⟨k, tlb⟩ s' →
      Coherent s' op.vAddr op.entry) ↔ NothingStale k l op := by
  constructor
  · intro hall
    by_contra hnot
    simp only [NothingStale, not_or, not_forall] at hnot
    obtain ⟨hpanics, ⟨w, hentry, hne⟩, hpte, hvAddr⟩ := hnot
    obtain ⟨hc, s', hreturns, hmem⟩ :=
      stale_survives (l := l) h hpanics hentry hpte hvAddr
    exact hne (hall _ hc s' hreturns _ hmem rfl)
  · intro hnone tlb hc s' hreturns
    exact hnone.coherent h hpool hc hreturns

/-- A page of the pool that is mapped to the frame it is mapped to already. -/
theorem boot_coherent : ∃ pool, PagePool.bss.init kernelInfo = .ret pool ∧
    ∀ tlb, Cache.Consistent (bootWorld pool 0x10000).s.mem.mmu.entryFor tlb →
      ∀ s', (Remap.kernel 0x800000 0 0).Returns ⟨0x300000, 0x300000, 0x300000⟩
        ⟨0x300000, 0x300000, 0x300000⟩ ⟨(bootWorld pool 0x10000).s.mem, tlb⟩ s' →
      Coherent s' 0x800000 3 := by
  obtain ⟨pool, hpool⟩ := boot_init
  have hinv := WorldInv.boot (boot_bootWorld hpool 0x10000)
  refine ⟨pool, hpool, ?_⟩
  apply (coherent_iff hinv.spaces.currentDirectory hinv.spaces.pool (.kernel 0x800000 0 0) _ _).mpr
  right
  left
  intro w hw
  have hentry := entryFor_init (fun _ => 0) (v := 0x800000) (by decide)
  exact Option.some.inj (hw.symm.trans hentry)

/-- `Vmm::Init` ends with a load of `cr3`. -/
theorem setCurrentPageDirectory_boot (pool : PagePool) (highMem : U32) :
    TlbMem.setCurrentPageDirectory ⟨(bootWorld pool highMem).s.mem, ∅⟩
      kernelInfo.pPageDirectory = ⟨(bootWorld pool highMem).s.mem, ∅⟩ := by
  rw [bootWorld, TlbMem.setCurrentPageDirectory, Mmu.setCurrentPageDirectory, Mmu.init, Mmu.initTo]

/-- The first page of the pool is accessed, and then mapped to a frame of its own:
the processor still knows it as frame 0. -/
theorem boot_stale : ∃ pool pAddr s s', PagePool.bss.init kernelInfo = .ret pool ∧
    TlbMem.Access (TlbMem.setCurrentPageDirectory ⟨(bootWorld pool 0x10000).s.mem, ∅⟩
      kernelInfo.pPageDirectory) 0x800000 pAddr s ∧
    Cache.Consistent s.k.mmu.entryFor s.tlb ∧
    (Remap.kernel 0x800000 0x800000 (pagePresent ||| pageWriteable)).Returns
      ⟨0x300000, 0x300004, 0x300008⟩ ⟨0x300000, 0x300004, 0x300008⟩ s s' ∧
    ¬ Coherent s' 0x800000 (setPageTableEntry 0x800000 (pagePresent ||| pageWriteable)) := by
  obtain ⟨pool, hpool⟩ := boot_init
  have hinv := WorldInv.boot (boot_bootWorld hpool 0x10000)
  have hdir := hinv.spaces.currentDirectory
  have hentry : (bootWorld pool 0x10000).s.mem.mmu.entryFor 0x800000 = some 3 :=
    entryFor_init (fun _ => 0) (v := 0x800000) (by decide)
  obtain ⟨hc, s', hreturns, hmem⟩ := @stale_survives _ ⟨0x300000, 0x300004, 0x300008⟩
    ⟨0x300000, 0x300004, 0x300008⟩ (.kernel 0x800000 0x800000 (pagePresent ||| pageWriteable))
    hdir (by
      show ¬ vUserBaseAddr < 0x800000
      decide) 3 hentry (by
      show frameOf 0x800000 ≠ _
      decide) (by
      show frameOf 0x800000 ≠ _
      decide)
  have hwalk := (entryFor_eq_some.mp hentry).1
  have htranslate : (bootWorld pool 0x10000).s.mem.mmu.translate 0x800000 = some 0 := by
    rw [translate_eq_frameAt, Mmu.frameAt, hwalk]
    decide
  refine ⟨pool, 0, ⟨(bootWorld pool 0x10000).s.mem, _⟩, s', hpool, ?_, hc, hreturns, ?_⟩
  · have hfills := Cache.Fills.fill (c := ∅) (a := 0x800000) hentry
    rw [insert_empty_eq] at hfills
    rw [setCurrentPageDirectory_boot]
    exact .walk (s := ⟨(bootWorld pool 0x10000).s.mem, ∅⟩) htranslate hfills
  · intro hcoherent
    exact absurd (hcoherent _ hmem rfl) (by decide)

end Stale

end LtMicros
