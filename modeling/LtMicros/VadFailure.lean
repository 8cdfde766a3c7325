import LtMicros.OutOfMemory
import LtMicros.ProcessMemory

/-!
# A reservation that runs out of pages

The header of `GetFreePage` promises the null pointer where no page is left. Here the two
allocation calls run with any `GetFreePage` that keeps this promise, and meet the null
pointer at any of the pages of their vad. Nothing is given back on that path.
-/

namespace LtMicros

open Lib

/-- The promise of `GetFreePage`: the address of a page that was free and is used now, or
the null pointer, with nothing taken. -/
structure GetsFreePages (getFreePage : PmmBitmap → U32 × PmmBitmap) : Prop where
  page : ∀ p, (getFreePage p).1 ≠ 0 → ∃ page < ramMaxPage, p.used page = false ∧
    getFreePage p = (BitVec.ofNat 32 (page * pageSize), p.setPageUsed page)
  null : ∀ p, (getFreePage p).1 = 0 → (getFreePage p).2 = p

/-! ## The calls with another `GetFreePage` -/

section With

variable (getFreePage : PmmBitmap → U32 × PmmBitmap)

namespace KernelMem

/-- `PagePool::Allocate`. -/
def pageAllocWith (k : KernelMem) : Outcome (Page × KernelMem) :=
  match k.gPagePool.availPageList with
  | none => .ret (⟨0, 0⟩, k)
  | some newPage => do
    let pool := k.gPagePool.takeBlock newPage
    let (pAddr, gPmm) := getFreePage k.gPmm
    let addr := (pool.blocks newPage).addr
    let mmu ← k.mmu.addPageToKernelPageDirectory addr pAddr (pagePresent ||| pageWriteable)
    return (⟨pAddr, addr⟩, { mmu, gPmm, gPagePool := pool })

/-- The branch of `Vmm::AddPageToPageDirectory` for an absent page table. -/
def addPageTableWith (k : KernelMem) (vAddr flags : U32) : Outcome KernelMem := do
  let (newPage, k) ← k.pageAllocWith getFreePage
  let mmu ← k.mmu.write (pdeOf vAddr)
    (setPageDirectoryEntry newPage.pAddr (pagePresent ||| pageWriteable ||| flags))
  let mmu ← mmu.cleanPageTable newPage.vAddr
  return { k with mmu }

/-- `Vmm::AddPageToPageDirectory`. -/
def addPageToPageDirectoryWith (k : KernelMem) (vAddr pAddr flags : U32) : Outcome KernelMem := do
  let pde ← k.mmu.read (pdeOf vAddr)
  let k ← if flagOn pde pagePresent then pure k else k.addPageTableWith getFreePage vAddr flags
  let mmu ← k.mmu.write (pteOf vAddr) (setPageTableEntry pAddr flags)
  return { k with mmu }

end KernelMem

namespace VadMem

/-- One turn of the loop of `ReservePages`. -/
def reservePagesTurnWith (limitAddress : U32) (reservePhysicalPages : Bool) :
    U32 × KernelMem → Outcome (U32 × KernelMem ⊕ KeStatus × KernelMem)
  | (vAddr, k) =>
    if vAddr < limitAddress then
      if reservePhysicalPages then
        let (pAddr, gPmm) := getFreePage k.gPmm
        let k := { k with gPmm }
        if pAddr = 0 then .ret (.inr (.statusPhysicalMemoryFull, k))
        else do
          let k ← k.addPageToPageDirectoryWith getFreePage vAddr pAddr
            (pagePresent ||| pageWriteable ||| pageNonPrivilegedAccess)
          return .inl (vAddr + 4096, k)
      else do
        let k ← k.addPageToPageDirectoryWith getFreePage vAddr 0
          (pageWriteable ||| pageNonPrivilegedAccess)
        return .inl (vAddr + 4096, k)
    else .ret (.inr (.statusSuccess, k))

/-- The state in which the loop of `ReservePages` begins. -/
def reserveStart (s : VadMem) (this : ℕ) (pageDirectory : U32) : U32 × KernelMem :=
  ((s.vads this).baseAddress,
    { s.mem with mmu := s.mem.mmu.setCurrentPageDirectory pageDirectory })

/-- `Vad::ReservePages`. -/
def reservePagesWith (fuel : ℕ) (s : VadMem) (this : ℕ) (pageDirectory : U32)
    (reservePhysicalPages : Bool) : Outcome (KeStatus × VadMem) := do
  let currentPd := s.mem.mmu.getCurrentPageDirectory
  match ← Outcome.loop (reservePagesTurnWith getFreePage (s.vads this).limitAddress
      reservePhysicalPages) fuel (s.reserveStart this pageDirectory) with
  | (.statusSuccess, k) =>
    let s := { s with mem := { k with mmu := k.mmu.setCurrentPageDirectory currentPd } }
    return (.statusSuccess, s.store this fun vad => { vad with free := false })
  | (status, k) => return (status, { s with mem := k })

/-- `ReservePages` on the vad that was chosen, if one was. -/
def reserveChosenWith (fuel : ℕ) (pageDirectory : U32) (reservePhysicalPages : Bool) :
    KeStatus × Option ℕ × VadMem → Outcome (KeStatus × Option ℕ × VadMem)
  | (.statusSuccess, some freeVad, s) => do
    match ← s.reservePagesWith getFreePage fuel freeVad pageDirectory reservePhysicalPages with
    | (.statusSuccess, s) => return (.statusSuccess, some freeVad, s)
    | (status, s) => return (status, none, s)
  | (status, _, s) => .ret (status, none, s)

end VadMem

namespace VadOp

/-- The search of a call for a free vad. -/
def lookFor (fuel : ℕ) (s : VadMem) (this : ℕ) : VadOp → Outcome (KeStatus × Option ℕ)
  | allocate size _ _ => s.lookForFreeVadOfMinimumSize fuel this size
  | allocateAtAddress address size _ _ =>
    s.lookForFreeVadAtAddressOfMinimumSize fuel this address size

/-- Whether a call splits the vad that it has found. -/
def Splits (s : VadMem) (v : ℕ) : VadOp → Prop
  | allocate size _ _ => vadMinimumDelta < (s.vads v).size - size
  | allocateAtAddress address size _ _ =>
    (s.vads v).baseAddress ≠ address ∨ vadMinimumDelta < (s.vads v).size - size

/-- A call up to its call of `ReservePages`. -/
def choose (fuel : ℕ) (s : VadMem) (this : ℕ) : VadOp → Outcome (KeStatus × Option ℕ × VadMem)
  | allocate size _ _ => s.chooseVad fuel this size
  | allocateAtAddress address size _ _ => s.chooseVadAtAddress fuel this address size

def pageDirectory : VadOp → U32
  | allocate _ pageDirectory _ => pageDirectory
  | allocateAtAddress _ _ pageDirectory _ => pageDirectory

def reservePhysicalPages : VadOp → Bool
  | allocate _ _ reservePhysicalPages => reservePhysicalPages
  | allocateAtAddress _ _ _ reservePhysicalPages => reservePhysicalPages

/-- `Vad::Allocate` and `Vad::AllocateAtAddress`. -/
def runWith (fuel : ℕ) (s : VadMem) (this : ℕ) (op : VadOp) :
    Outcome (KeStatus × Option ℕ × VadMem) :=
  op.choose fuel s this >>=
    VadMem.reserveChosenWith getFreePage fuel op.pageDirectory op.reservePhysicalPages

end VadOp

end With

/-- With the `GetFreePage` of the bitmap they are the calls of the kernel. -/
theorem VadOp.runWith_getFreePage (fuel : ℕ) (s : VadMem) (this : ℕ) (op : VadOp) :
    op.runWith PmmBitmap.getFreePage fuel s this = match op with
      | allocate size pd reserve => s.allocate fuel this size pd reserve
      | allocateAtAddress address size pd reserve =>
        s.allocateAtAddress fuel this address size pd reserve := by
  have hreserve (pd : U32) (reserve : Bool) :
      VadMem.reserveChosenWith PmmBitmap.getFreePage fuel pd reserve =
        VadMem.reserveChosen fuel pd reserve := by
    funext ⟨status, out, s⟩
    cases status with
    | statusSuccess => cases out <;> rfl
    | _ => rfl
  unfold runWith
  rw [hreserve]
  cases op with
  | allocate size pd reserve => exact (s.allocate_eq fuel this size pd reserve).symm
  | allocateAtAddress address size pd reserve =>
    exact (s.allocateAtAddress_eq fuel this address size pd reserve).symm

/-! ## The vad that is chosen -/

namespace VadOp

variable {s s₁ : VadMem} {op : VadOp} {this v w fuel : ℕ} {l : List ℕ}

/-- A call with the vad it has found, up to its call of `ReservePages`. -/
def chooseFrom (s : VadMem) (v : ℕ) : VadOp → Outcome (KeStatus × Option ℕ × VadMem)
  | allocate size _ _ => s.chooseFrom v size
  | allocateAtAddress address size _ _ => s.chooseAtAddressFrom v address size

/-- A call that comes to `ReservePages` has found a vad. -/
theorem choose_found (hr : op.choose fuel s this = .ret (.statusSuccess, some w, s₁)) :
    ∃ v, op.lookFor fuel s this = .ret (.statusSuccess, some v) ∧
      op.chooseFrom s v = .ret (.statusSuccess, some w, s₁) := by
  cases op with
  | allocate size pd reserve =>
    simp only [choose, VadMem.chooseVad] at hr
    split at hr
    · cases hr
    obtain ⟨⟨status, out⟩, hlook, hr⟩ := Outcome.bind_eq_ret.mp hr
    split at hr
    · rename_i v heq
      cases heq
      exact ⟨v, hlook, hr⟩
    · cases hr
  | allocateAtAddress address size pd reserve =>
    simp only [choose, VadMem.chooseVadAtAddress] at hr
    split at hr
    · cases hr
    split at hr
    · cases hr
    obtain ⟨⟨status, out⟩, hlook, hr⟩ := Outcome.bind_eq_ret.mp hr
    split at hr
    · rename_i v heq
      cases heq
      exact ⟨v, hlook, hr⟩
    · cases hr

theorem choose_mem (hr : op.choose fuel s this = .ret (.statusSuccess, some w, s₁)) :
    s₁.mem = s.mem := by
  cases op with
  | allocate size pd reserve => exact VadMem.chooseVad_mem hr
  | allocateAtAddress address size pd reserve => exact VadMem.chooseVadAtAddress_mem hr

/-- The vad that is found is a free one of the list. -/
theorem lookFor_found (hlist : Chain s.next (some this) l)
    (hr : op.lookFor fuel s this = .ret (.statusSuccess, some v)) :
    v ∈ l ∧ (s.vads v).free = true := by
  cases op with
  | allocate size pd reserve =>
    by_cases h0 : size = 0
    · rw [lookFor, VadMem.lookForFreeVadOfMinimumSize, if_pos h0] at hr
      cases hr
    have hfound := VadMem.lookForFree_spec hlist h0 hr
    cases hf : l.find? (s.fits size) with
    | none =>
      rw [hf] at hfound
      cases hfound
    | some u =>
      rw [hf] at hfound
      cases hfound
      exact ⟨List.mem_of_find?_eq_some hf, (VadMem.fits_eq_true.mp (List.find?_some hf)).2⟩
  | allocateAtAddress address size pd reserve =>
    have hne : address ≠ 0 ∧ size ≠ 0 := by
      constructor
      · rintro rfl
        cases hr
      · rintro rfl
        rw [lookFor, VadMem.lookForFreeVadAtAddressOfMinimumSize] at hr
        split at hr <;> cases hr
    have hanswer (u : ℕ) (hu : (KeStatus.statusSuccess, some v) = s.answerAt address size u) :
        v = u ∧ (s.vads v).free = true := by
      rcases s.answerAt_eq address size u with hanswer | ⟨hanswer, hfree, -⟩
      · rw [hanswer] at hu
        cases hu
      · rw [hanswer] at hu
        cases hu
        exact ⟨rfl, hfree⟩
    cases l with
    | nil => cases hlist
    | cons u l =>
      obtain rfl : this = u := Option.some.inj hlist.1
      have hfound := VadMem.lookForFreeAt_spec hlist hne.2 hne.1 hr
      split at hfound
      · obtain ⟨rfl, hfree⟩ := hanswer _ hfound
        exact ⟨List.mem_cons_self, hfree⟩
      · cases hf : l.find? (s.stopsAt address size) with
        | none =>
          rw [hf] at hfound
          cases hfound
        | some u =>
          rw [hf, Option.elim_some] at hfound
          have hu := List.mem_cons_of_mem this (List.mem_of_find?_eq_some hf)
          split at hfound
          · rename_i hfits
            cases hfound
            exact ⟨hu, (VadMem.fits_eq_true.mp hfits).2⟩
          · obtain ⟨rfl, hfree⟩ := hanswer _ hfound
            exact ⟨hu, hfree⟩

/-- A vad that has been split is followed by the new one. -/
theorem split_next {size : U32} (hr : s.split v size = (.statusSuccess, s₁)) :
    s₁.next v = some s.heapTop := by
  unfold VadMem.split at hr
  split at hr
  · cases hr
  split at hr
  · cases hr
  split at hr
  · cases hr
  rcases s.create_cases ((s.vads v).baseAddress + VadMem.pagesOf size)
    ((s.vads v).size - VadMem.pagesOf size) true with ⟨status, hcreate, hfailed⟩ | hcreate
  · rw [hcreate] at hr
    cases status with
    | statusSuccess => cases hfailed
    | _ => cases hr
  · rw [hcreate] at hr
    cases hr
    rw [VadMem.next, VadMem.store_self]

theorem splitAtAddress_next {address size : U32} (hlt : v < s.heapTop)
    (hr : s.splitAtAddress v address size = (.statusSuccess, s₁)) :
    s₁.next v = some s.heapTop := by
  rcases s.splitAtAddress_cases v address size with ⟨status, hsplit, hfailed⟩ | hsplit
  · rw [hsplit] at hr
    cases hr
    cases hfailed
  rw [hsplit] at hr
  split at hr
  · rcases VadMem.splitInside_cases hlt address size with ⟨status, hinside, hfailed⟩ | hinside
    · rw [hinside] at hr
      cases hr
      cases hfailed
    have hins := VadMem.inserted_insertVad hlt address
    rw [hinside] at hr
    split at hr
    · -- the new vad is split once more, and `v` is not touched
      have htop : s.heapTop ≠ (s.insertVad v address).heapTop := by
        rw [hins.heapTop]
        exact Nat.ne_of_lt (Nat.lt_succ_self _)
      rcases VadMem.split_cases htop size with ⟨status, hagain, hfailed⟩ | ⟨s', hagain, hoff⟩
      · rw [hagain] at hr
        cases hr
        cases hfailed
      · rw [hagain] at hr
        cases hr
        have hv : v ≠ (s.insertVad v address).heapTop := by
          rw [hins.heapTop]
          exact Nat.ne_of_lt (hlt.trans (Nat.lt_succ_self _))
        rw [VadMem.next, hoff.others v (Nat.ne_of_lt hlt) hv]
        exact hins.next
    · cases hr
      exact hins.next
  · exact split_next hr

/-- A call that comes to `ReservePages` has left the vads as they were, or has put a new one
behind the one it has found. -/
theorem chooseFrom_cases (hlt : v < s.heapTop)
    (hr : op.chooseFrom s v = .ret (.statusSuccess, some w, s₁)) :
    ¬op.Splits s v ∧ s₁ = s ∨ op.Splits s v ∧ s₁.next v = some s.heapTop := by
  cases op with
  | allocate size pd reserve =>
    simp only [chooseFrom, VadMem.chooseFrom] at hr
    split at hr
    · rename_i hsplits
      rcases hsplit : s.split v size with ⟨status, s'⟩
      simp only [hsplit] at hr
      split at hr
      · cases hr
      rename_i hfailed
      cases hr
      have hsuccess : status = .statusSuccess := by
        by_contra hne
        exact hfailed (VadMem.failed_eq_true.mpr hne)
      rw [hsuccess] at hsplit
      exact .inr ⟨hsplits, split_next hsplit⟩
    · rename_i hsplits
      cases hr
      exact .inl ⟨hsplits, rfl⟩
  | allocateAtAddress address size pd reserve =>
    simp only [chooseFrom, VadMem.chooseAtAddressFrom] at hr
    split at hr
    · rename_i hsplits
      rcases hsplit : s.splitAtAddress v address size with ⟨status, s'⟩
      simp only [hsplit] at hr
      split at hr
      · cases hr
      rename_i hfailed
      have hsuccess : status = .statusSuccess := by
        by_contra hne
        exact hfailed (VadMem.failed_eq_true.mpr hne)
      rw [hsuccess] at hsplit
      have hnext := splitAtAddress_next hlt hsplit
      split at hr
      · obtain ⟨u, -, hr⟩ := Outcome.bind_eq_ret.mp hr
        cases hr
        exact .inr ⟨hsplits, hnext⟩
      · cases hr
        exact .inr ⟨hsplits, hnext⟩
    · rename_i hsplits
      cases hr
      exact .inl ⟨hsplits, rfl⟩

/-- More turns do not change the search. -/
theorem lookFor_mono {r : KeStatus × Option ℕ} (hr : op.lookFor fuel s this = .ret r) (n : ℕ) :
    op.lookFor (fuel + n) s this = .ret r := by
  cases op with
  | allocate size pd reserve =>
    simp only [lookFor, VadMem.lookForFreeVadOfMinimumSize] at hr ⊢
    split at hr
    · rename_i h0
      rw [if_pos h0, hr]
    · rename_i h0
      obtain ⟨found, hloop, hr⟩ := Outcome.bind_eq_ret.mp hr
      rw [if_neg h0, Outcome.loop_mono hloop n]
      exact hr
  | allocateAtAddress address size pd reserve =>
    simp only [lookFor, VadMem.lookForFreeVadAtAddressOfMinimumSize] at hr ⊢
    split at hr
    · rename_i ha
      rw [if_pos ha, hr]
    rename_i ha
    rw [if_neg ha]
    split at hr
    · rename_i h0
      rw [if_pos h0, hr]
    · rename_i h0
      rw [if_neg h0]
      exact Outcome.loop_mono hr n

theorem choose_mono {r : KeStatus × Option ℕ × VadMem} (hr : op.choose fuel s this = .ret r)
    (n : ℕ) : op.choose (fuel + n) s this = .ret r := by
  cases op with
  | allocate size pd reserve =>
    simp only [choose, VadMem.chooseVad] at hr ⊢
    split at hr
    · rename_i h0
      rw [if_pos h0, hr]
    · rename_i h0
      obtain ⟨found, hlook, hr⟩ := Outcome.bind_eq_ret.mp hr
      have hlook : (allocate size pd reserve).lookFor fuel s this = .ret found := hlook
      have hmono := lookFor_mono hlook n
      simp only [lookFor] at hmono
      rw [if_neg h0, hmono]
      exact hr
  | allocateAtAddress address size pd reserve =>
    simp only [choose, VadMem.chooseVadAtAddress] at hr ⊢
    split at hr
    · rename_i ha
      rw [if_pos ha, hr]
    rename_i ha
    rw [if_neg ha]
    split at hr
    · rename_i h0
      rw [if_pos h0, hr]
    · rename_i h0
      obtain ⟨found, hlook, hr⟩ := Outcome.bind_eq_ret.mp hr
      have hlook : (allocateAtAddress address size pd reserve).lookFor fuel s this = .ret found :=
        hlook
      have hmono := lookFor_mono hlook n
      simp only [lookFor] at hmono
      rw [if_neg h0, hmono]
      exact hr

end VadOp

/-! ## The pages that are taken -/

section Turns

variable {getFreePage : PmmBitmap → U32 × PmmBitmap} {p : PmmBitmap} {k k' : KernelMem}
  {page : Page} {v v' pAddr flags limit : U32}

/-- What was used is used still. -/
def KeepsUsed (p p' : PmmBitmap) : Prop := ∀ page, p.used page = true → p'.used page = true

theorem KeepsUsed.trans {p' p'' : PmmBitmap} (h : KeepsUsed p p') (h' : KeepsUsed p' p'') :
    KeepsUsed p p'' := by
  intro page hused
  exact h' page (h page hused)

theorem GetsFreePages.keepsUsed (hget : GetsFreePages getFreePage) (p : PmmBitmap) :
    KeepsUsed p (getFreePage p).2 := by
  intro q hused
  by_cases hnull : (getFreePage p).1 = 0
  · rw [hget.null p hnull]
    exact hused
  · obtain ⟨page, -, -, heq⟩ := hget.page p hnull
    rw [heq, PmmBitmap.used_setPageUsed, hused, Bool.or_true]

namespace KernelMem

theorem pageAllocWith_keeps (hget : GetsFreePages getFreePage)
    (hr : k.pageAllocWith getFreePage = .ret (page, k')) :
    KeepsUsed k.gPmm k'.gPmm ∧ k'.mmu.cr3 = k.mmu.cr3 := by
  unfold pageAllocWith at hr
  split at hr
  · cases hr
    exact ⟨fun _ hused => hused, rfl⟩
  · obtain ⟨mmu, hadd, hr⟩ := Outcome.bind_eq_ret.mp hr
    cases hr
    exact ⟨hget.keepsUsed k.gPmm, Mmu.cr3_addPageToKernelPageDirectory hadd⟩

theorem addPageTableWith_keeps (hget : GetsFreePages getFreePage)
    (hr : k.addPageTableWith getFreePage v flags = .ret k') :
    KeepsUsed k.gPmm k'.gPmm ∧ k'.mmu.cr3 = k.mmu.cr3 := by
  obtain ⟨⟨newPage, k₁⟩, halloc, hr⟩ := Outcome.bind_eq_ret.mp hr
  obtain ⟨mmu₁, hwrite, hr⟩ := Outcome.bind_eq_ret.mp hr
  obtain ⟨mmu₂, hclean, hr⟩ := Outcome.bind_eq_ret.mp hr
  cases hr
  obtain ⟨hused, hcr3⟩ := pageAllocWith_keeps hget halloc
  exact ⟨hused, (Mmu.cr3_cleanPageTable hclean).trans ((Mmu.cr3_write hwrite).trans hcr3)⟩

theorem addPageToPageDirectoryWith_keeps (hget : GetsFreePages getFreePage)
    (hr : k.addPageToPageDirectoryWith getFreePage v pAddr flags = .ret k') :
    KeepsUsed k.gPmm k'.gPmm ∧ k'.mmu.cr3 = k.mmu.cr3 := by
  obtain ⟨pde, -, hr⟩ := Outcome.bind_eq_ret.mp hr
  dsimp only at hr
  split at hr
  · obtain ⟨k₁, hk, hr⟩ := Outcome.bind_eq_ret.mp hr
    obtain ⟨mmu, hwrite, hr⟩ := Outcome.bind_eq_ret.mp hr
    cases hk
    cases hr
    exact ⟨fun _ hused => hused, Mmu.cr3_write hwrite⟩
  · obtain ⟨k₁, htable, hr⟩ := Outcome.bind_eq_ret.mp hr
    obtain ⟨mmu, hwrite, hr⟩ := Outcome.bind_eq_ret.mp hr
    cases hr
    obtain ⟨hused, hcr3⟩ := addPageTableWith_keeps hget htable
    exact ⟨hused, (Mmu.cr3_write hwrite).trans hcr3⟩

end KernelMem

/-- One turn of the loop that goes on. -/
def TurnWith (getFreePage : PmmBitmap → U32 × PmmBitmap) (limit : U32)
    (st st' : U32 × KernelMem) : Prop :=
  VadMem.reservePagesTurnWith getFreePage limit true st = .ret (.inl st')

/-- A turn that goes on has been given a page, and does not give it back. -/
theorem TurnWith.given (hget : GetsFreePages getFreePage) {st st' : U32 × KernelMem}
    (hturn : TurnWith getFreePage limit st st') :
    (getFreePage st.2.gPmm).1 ≠ 0 ∧ KeepsUsed (getFreePage st.2.gPmm).2 st'.2.gPmm ∧
      st'.2.mmu.cr3 = st.2.mmu.cr3 := by
  obtain ⟨v, k⟩ := st
  simp only [TurnWith, VadMem.reservePagesTurnWith, if_true] at hturn
  split at hturn
  · split at hturn
    · cases hturn
    rename_i hpage
    obtain ⟨k₁, hadd, hturn⟩ := Outcome.bind_eq_ret.mp hturn
    obtain rfl := Sum.inl.inj (Outcome.ret.inj hturn)
    obtain ⟨hused, hcr3⟩ := KernelMem.addPageToPageDirectoryWith_keeps hget hadd
    exact ⟨hpage, hused, hcr3⟩
  · cases hturn

/-- Over the turns of a loop, the current page directory stays and no page is given back. -/
theorem turnsWith_keep (hget : GetsFreePages getFreePage) {st st' : U32 × KernelMem}
    (h : Relation.ReflTransGen (TurnWith getFreePage limit) st st') :
    KeepsUsed st.2.gPmm st'.2.gPmm ∧ st'.2.mmu.cr3 = st.2.mmu.cr3 := by
  induction h with
  | refl => exact ⟨fun _ hused => hused, rfl⟩
  | @tail st₁ st₂ _ hturn ih =>
    obtain ⟨-, hused, hcr3⟩ := TurnWith.given hget hturn
    exact ⟨ih.1.trans ((hget.keepsUsed st₁.2.gPmm).trans hused), hcr3.trans ih.2⟩

/-- A loop that comes to a null pointer ends there. -/
theorem loopWith_null {st : U32 × KernelMem} (hlt : v < limit) (hnull : (getFreePage k.gPmm).1 = 0)
    (h : Relation.ReflTransGen (TurnWith getFreePage limit) st (v, k)) :
    ∃ n, Outcome.loop (VadMem.reservePagesTurnWith getFreePage limit true) n st =
      .ret (.statusPhysicalMemoryFull, { k with gPmm := (getFreePage k.gPmm).2 }) := by
  induction h using Relation.ReflTransGen.head_induction_on with
  | refl =>
    refine ⟨1, Outcome.loop_leave ?_ 0⟩
    simp only [VadMem.reservePagesTurnWith, if_pos hlt, if_true, if_pos hnull]
  | head hturn _ ih =>
    obtain ⟨n, hloop⟩ := ih
    exact ⟨n + 1, (Outcome.loop_again hturn n).trans hloop⟩

end Turns

/-! ## What a failed call leaves -/

/-- In the loop of a call, `GetFreePage` answers the null pointer. -/
def VadOp.RunsOut (getFreePage : PmmBitmap → U32 × PmmBitmap) (s : VadMem) (this : ℕ)
    (op : VadOp) : Prop :=
  op.reservePhysicalPages = true ∧ ∃ fuel v s₁ vAddr k,
    op.choose fuel s this = .ret (.statusSuccess, some v, s₁) ∧
    Relation.ReflTransGen (TurnWith getFreePage (s₁.vads v).limitAddress)
      (s₁.reserveStart v op.pageDirectory) (vAddr, k) ∧
    vAddr < (s₁.vads v).limitAddress ∧ (getFreePage k.gPmm).1 = 0

/-- A call fails with the page directory of before, with all pages that were free, and with
the vads of the list as they were. -/
def VadOp.LeavesNoTrace (getFreePage : PmmBitmap → U32 × PmmBitmap) (s : VadMem) (this : ℕ)
    (l : List ℕ) (op : VadOp) : Prop :=
  ∃ fuel status s', op.runWith getFreePage fuel s this = .ret (status, none, s') ∧
    failed status = true ∧
    s'.mem.mmu.getCurrentPageDirectory = s.mem.mmu.getCurrentPageDirectory ∧
    (∀ page, s.mem.gPmm.used page = false → s'.mem.gPmm.used page = false) ∧
    ∀ w ∈ l, s'.vads w = s.vads w

section Failure

variable {getFreePage : PmmBitmap → U32 × PmmBitmap} {s s₁ s' : VadMem} {op : VadOp}
  {this v fuel : ℕ} {l : List ℕ} {vAddr : U32} {k : KernelMem}
  {r r' : KeStatus × Option ℕ × VadMem}

namespace VadOp

theorem runWith_mono (hr : op.runWith getFreePage fuel s this = .ret r) (n : ℕ) :
    op.runWith getFreePage (fuel + n) s this = .ret r := by
  obtain ⟨⟨status, out, s₁⟩, hchoose, hr⟩ := Outcome.bind_eq_ret.mp hr
  rw [runWith, choose_mono hchoose n, Outcome.ret_bind]
  unfold VadMem.reserveChosenWith VadMem.reservePagesWith at hr ⊢
  split at hr
  · rename_i heq
    cases heq
    obtain ⟨r₁, hreserve, hr⟩ := Outcome.bind_eq_ret.mp hr
    obtain ⟨r₂, hloop, hreserve⟩ := Outcome.bind_eq_ret.mp hreserve
    dsimp only
    rw [Outcome.loop_mono hloop n, Outcome.ret_bind, hreserve]
    exact hr
  · exact hr

theorem runWith_unique {fuel' : ℕ} (hr : op.runWith getFreePage fuel s this = .ret r)
    (hr' : op.runWith getFreePage fuel' s this = .ret r') : r = r' := by
  have h := runWith_mono hr fuel'
  rw [Nat.add_comm, runWith_mono hr' fuel] at h
  exact (Outcome.ret.inj h).symm

/-- Where the loop has come to the null pointer, the call fails with what there is. -/
theorem runWith_null (hreserve : op.reservePhysicalPages = true)
    (hchoose : op.choose fuel s this = .ret (.statusSuccess, some v, s₁))
    (hturns : Relation.ReflTransGen (TurnWith getFreePage (s₁.vads v).limitAddress)
      (s₁.reserveStart v op.pageDirectory) (vAddr, k))
    (hlt : vAddr < (s₁.vads v).limitAddress) (hnull : (getFreePage k.gPmm).1 = 0) :
    ∃ fuel, op.runWith getFreePage fuel s this = .ret (.statusPhysicalMemoryFull, none,
      { s₁ with mem := { k with gPmm := (getFreePage k.gPmm).2 } }) := by
  obtain ⟨n, hloop⟩ := loopWith_null hlt hnull hturns
  have hloop := Outcome.loop_mono hloop fuel
  rw [Nat.add_comm] at hloop
  refine ⟨fuel + n, ?_⟩
  rw [runWith, choose_mono hchoose n, Outcome.ret_bind, hreserve]
  simp only [VadMem.reserveChosenWith, VadMem.reservePagesWith, hloop, Outcome.ret_bind,
    Outcome.pure_eq]

/-- All pages are free again exactly when the first page was not there. -/
theorem pages_released_iff (hget : GetsFreePages getFreePage)
    (hchoose : op.choose fuel s this = .ret (.statusSuccess, some v, s₁))
    (hturns : Relation.ReflTransGen (TurnWith getFreePage (s₁.vads v).limitAddress)
      (s₁.reserveStart v op.pageDirectory) (vAddr, k))
    (hnull : (getFreePage k.gPmm).1 = 0) :
    (∀ page, s.mem.gPmm.used page = false → (getFreePage k.gPmm).2.used page = false) ↔
      (getFreePage s.mem.gPmm).1 = 0 := by
  have hstart : (s₁.reserveStart v op.pageDirectory).2.gPmm = s.mem.gPmm := by
    show s₁.mem.gPmm = s.mem.gPmm
    rw [choose_mem hchoose]
  rw [hget.null k.gPmm hnull]
  rcases Relation.ReflTransGen.cases_head hturns with heq | ⟨st, hturn, hrest⟩
  · -- the very first answer is the null pointer
    have hsame : k.gPmm = s.mem.gPmm := by rw [← hstart, heq]
    rw [hsame] at hnull ⊢
    exact iff_of_true (fun _ hfree => hfree) hnull
  · -- a page has been taken in the first turn, and stays used
    obtain ⟨hpage, hused, -⟩ := TurnWith.given hget hturn
    rw [hstart] at hpage hused
    obtain ⟨page, -, hfree, htaken⟩ := hget.page s.mem.gPmm hpage
    refine iff_of_false ?_ hpage
    intro hreleased
    have hstill : k.gPmm.used page = true := by
      apply (turnsWith_keep hget hrest).1
      apply hused
      rw [htaken, PmmBitmap.used_setPageUsed, decide_eq_true rfl, Bool.true_or]
    rw [hreleased page hfree] at hstill
    cases hstill

/-- The vads of the list are as they were exactly when the one that was found has not been
split. -/
theorem vads_unchanged_iff (hlist : Chain s.next (some this) l) (hall : s.Allocated l)
    (hchoose : op.choose fuel s this = .ret (.statusSuccess, some v, s₁)) :
    (∀ w ∈ l, s₁.vads w = s.vads w) ↔
      ∃ fuel w, op.lookFor fuel s this = .ret (.statusSuccess, some w) ∧ ¬op.Splits s w := by
  obtain ⟨w, hlook, hfrom⟩ := choose_found hchoose
  have hw := (lookFor_found hlist hlook).1
  rcases chooseFrom_cases (hall w hw) hfrom with ⟨hsplits, rfl⟩ | ⟨hsplits, hnext⟩
  · exact iff_of_true (fun _ _ => rfl) ⟨fuel, w, hlook, hsplits⟩
  · refine iff_of_false ?_ ?_
    · intro hsame
      rw [VadMem.next, hsame w hw] at hnext
      have hmem := hlist.next_mem hw hnext
      exact absurd (hall _ hmem) (Nat.lt_irrefl _)
    · rintro ⟨fuel', w', hlook', hnot⟩
      have h := lookFor_mono hlook fuel'
      rw [Nat.add_comm, lookFor_mono hlook' fuel] at h
      cases h
      exact hnot hsplits

end VadOp

/-- A call that runs out of pages leaves no trace exactly when it has been made in the
directory it maps pages in, has not been given a single page, and has not split the vad that
it has found. -/
theorem leavesNoTrace_iff (hget : GetsFreePages getFreePage)
    (hlist : Chain s.next (some this) l) (hall : s.Allocated l)
    (hout : op.RunsOut getFreePage s this) :
    op.LeavesNoTrace getFreePage s this l ↔
      s.mem.mmu.cr3 = op.pageDirectory ∧ (getFreePage s.mem.gPmm).1 = 0 ∧
        ∃ fuel w, op.lookFor fuel s this = .ret (.statusSuccess, some w) ∧ ¬op.Splits s w := by
  obtain ⟨hreserve, fuel, v, s₁, vAddr, k, hchoose, hturns, hlt, hnull⟩ := hout
  obtain ⟨n, hrun⟩ := VadOp.runWith_null hreserve hchoose hturns hlt hnull
  have hcr3 : k.mmu.cr3 = op.pageDirectory := (turnsWith_keep hget hturns).2
  rw [← VadOp.pages_released_iff hget hchoose hturns hnull,
    ← VadOp.vads_unchanged_iff hlist hall hchoose]
  constructor
  · rintro ⟨fuel', status, s', hrun', -, hdir, hpages, hvads⟩
    cases VadOp.runWith_unique hrun hrun'
    exact ⟨(hcr3.symm.trans hdir).symm, hpages, hvads⟩
  · rintro ⟨hdir, hpages, hvads⟩
    exact ⟨n, _, _, hrun, rfl, hcr3.trans hdir.symm, hpages, hvads⟩

end Failure

/-! ## A memory without free pages -/

/-- A `GetFreePage` that keeps the promise. -/
def getFreePageOrNull (p : PmmBitmap) : U32 × PmmBitmap :=
  match p.firstClearPage memBitmapSize 0 with
  | some (page + 1) => (BitVec.ofNat 32 ((page + 1) * pageSize), p.setPageUsed (page + 1))
  | _ => (0, p)

theorem getFreePageOrNull_gets : GetsFreePages getFreePageOrNull := by
  have hcases (p : PmmBitmap) : getFreePageOrNull p = (0, p) ∨
      ∃ page < ramMaxPage, page ≠ 0 ∧ p.used page = false ∧
        getFreePageOrNull p = (BitVec.ofNat 32 (page * pageSize), p.setPageUsed page) := by
    unfold getFreePageOrNull
    split
    · rename_i page hfirst
      obtain ⟨-, hlt, hfree⟩ := PmmBitmap.firstClearPage_eq_some hfirst
      have hlt : page + 1 < ramMaxPage := by
        unfold memBitmapSize ramMaxPage at hlt
        omega
      exact .inr ⟨page + 1, hlt, Nat.succ_ne_zero page, hfree, rfl⟩
    · exact .inl rfl
  constructor
  · intro p hpage
    rcases hcases p with hnull | ⟨page, hlt, -, hfree, heq⟩
    · rw [hnull] at hpage
      exact absurd rfl hpage
    · exact ⟨page, hlt, hfree, heq⟩
  · intro p hnull
    rcases hcases p with heq | ⟨page, hlt, hne, -, heq⟩
    · rw [heq]
    · -- no page but the first has the address 0
      rw [heq] at hnull
      have hnat := congrArg BitVec.toNat hnull
      simp only [BitVec.toNat_ofNat, BitVec.ofNat_eq_ofNat] at hnat
      unfold ramMaxPage at hlt
      unfold pageSize at hnat
      omega

theorem getFreePageOrNull_exhausted {p : PmmBitmap} (hp : p.Exhausted) :
    getFreePageOrNull p = (0, p) := by
  have hnone : p.firstClearPage memBitmapSize 0 = none :=
    PmmBitmap.firstClearPage_exhausted fun i _ hi => hp i (by omega)
  rw [getFreePageOrNull, hnone]

/-- One free vad of a page, and no physical page for it. -/
def noPages : VadMem where
  vads := fun _ => ⟨0x40000000, 0x40001000, 0x1000, true, none, none⟩
  heapTop := 1
  mem := ⟨.uniform, allUsed, .bss⟩

theorem noPages_runsOut (pd : U32) :
    VadOp.RunsOut getFreePageOrNull noPages 0 (.allocate 0x1000 pd true) := by
  refine ⟨rfl, 1, 0, noPages, 0x40000000, _, rfl, .refl, by decide, ?_⟩
  exact congrArg Prod.fst (getFreePageOrNull_exhausted allUsed_exhausted)

theorem noPages_list : Chain noPages.next (some 0) [0] ∧ noPages.Allocated [0] := by
  refine ⟨⟨rfl, rfl⟩, ?_⟩
  intro v hv
  rw [List.mem_singleton.mp hv]
  decide

/-- In its own directory the call leaves no trace. -/
theorem noPages_leavesNoTrace : VadOp.LeavesNoTrace getFreePageOrNull noPages 0 [0]
    (.allocate 0x1000 0x1000 true) := by
  refine (leavesNoTrace_iff getFreePageOrNull_gets noPages_list.1 noPages_list.2
    (noPages_runsOut 0x1000)).mpr ⟨rfl, ?_, 1, 0, rfl, ?_⟩
  · exact congrArg Prod.fst (getFreePageOrNull_exhausted allUsed_exhausted)
  · show ¬vadMinimumDelta < (0x1000 : U32) - 0x1000
    decide

/-- A call that maps pages in another directory leaves this one the current one. -/
theorem not_leavesNoTrace : GetsFreePages getFreePageOrNull ∧
    Chain noPages.next (some 0) [0] ∧ noPages.Allocated [0] ∧
    (VadOp.allocate 0x1000 0x2000 true).RunsOut getFreePageOrNull noPages 0 ∧
    ¬ (VadOp.allocate 0x1000 0x2000 true).LeavesNoTrace getFreePageOrNull noPages 0 [0] := by
  refine ⟨getFreePageOrNull_gets, noPages_list.1, noPages_list.2, noPages_runsOut 0x2000, ?_⟩
  rintro ⟨fuel, status, s', hrun, -, hdir, -⟩
  have hchoose : (VadOp.allocate 0x1000 0x2000 true).choose 1 noPages 0 =
      .ret (.statusSuccess, some 0, noPages) := rfl
  obtain ⟨n, hnull⟩ := VadOp.runWith_null rfl hchoose .refl (by decide)
    (congrArg Prod.fst (getFreePageOrNull_exhausted allUsed_exhausted))
  cases VadOp.runWith_unique hrun hnull
  exact absurd hdir (by decide)

end LtMicros
