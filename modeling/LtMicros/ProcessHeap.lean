import LtMicros.Process
import LtMicros.VadCalls

/-!
# The heap break of a process

`SysSbrk` moves the limit of the default heap of the calling process through the
vad that `CreateDefaultHeapAndStack` has reserved for it. The pages are mapped
later, when they are touched.
-/

namespace LtMicros

open Lib

/-- `ProcessHeap`. -/
structure ProcessHeap where
  baseAddress : U32
  limitAddress : U32
  vad : ℕ

/-- `DEFAULT_HEAP_SIZE`. -/
def defaultHeapSize : U32 := 0x1000 * 0x4

/-- `USER_STACK_DEFAULT_SIZE`. -/
def userStackDefaultSize : U32 := 4096

/-- `Process::IncreaseHeap`. The parameter `allocatedBlockAddr` is the word it
points to, before and after the call. -/
def increaseHeap (s : VadMem) (defaultHeap : ProcessHeap) (nbPages : U32)
    (allocatedBlockAddr : Option U32) : KeStatus × Option U32 × ProcessHeap :=
  let newBlockAddress := defaultHeap.limitAddress
  if nbPages = 0 then (.statusInvalidParameter, allocatedBlockAddr, defaultHeap)
  else if allocatedBlockAddr = none then (.statusNullParameter, allocatedBlockAddr, defaultHeap)
  else if (s.vads defaultHeap.vad).limitAddress < defaultHeap.limitAddress + nbPages * 4096 then
    (.statusProcessHeapLimitReached, allocatedBlockAddr, defaultHeap)
  else
    (.statusSuccess, some newBlockAddress,
      { defaultHeap with limitAddress := defaultHeap.limitAddress + nbPages * 4096 })

/-- `SysSbrk` for the default heap of the current process: `eax` and the heap. The
status of `IncreaseHeap` is only logged. -/
def sysSbrk (s : VadMem) (currentProcess : Option ProcessHeap) (ebx : U32) :
    U32 × Option ProcessHeap :=
  match currentProcess with
  | none => (0, none)
  | some defaultHeap =>
    let (_, res, defaultHeap) := increaseHeap s defaultHeap ebx (some 0)
    (res.getD 0, some defaultHeap)

/-- `Process::CreateDefaultHeapAndStack`. The status of `CreateDefaultStack` is
given up. -/
def Process.createDefaultHeapAndStack (fuel : ℕ) (this : Process) (s : VadMem) :
    Outcome (KeStatus × Option ProcessHeap × VadMem) := do
  match ← s.allocate fuel this.baseVad defaultHeapSize this.pdEntry false with
  | (.statusSuccess, some heapVad, s) =>
    let baseAddress := (s.vads heapVad).baseAddress
    let (_, _, s) ← s.allocate fuel this.baseVad userStackDefaultSize this.pdEntry true
    return (.statusSuccess, some ⟨baseAddress, baseAddress, heapVad⟩, s)
  | (status, _, s) => return (status, none, s)

/-- The default heap as `CreateDefaultHeapAndStack` leaves it: empty, at the base
of its vad. -/
structure ProcessHeap.Initialised (s : VadMem) (h : ProcessHeap) : Prop where
  base : h.baseAddress = (s.vads h.vad).baseAddress
  limit : h.limitAddress = h.baseAddress
  vad : (s.vads h.vad).baseAddress ≤ (s.vads h.vad).limitAddress

/-! ## Runs of `SysSbrk` -/

/-- A state of a run, with the blocks that were returned by the successful calls,
each with its number of pages, the latest first. -/
structure SbrkRun where
  h : ProcessHeap
  blocks : List (U32 × U32)

/-- The block that a call returns: none when `IncreaseHeap` fails. -/
def SbrkRun.returned (s : VadMem) (r : SbrkRun) (nbPages : U32) : List (U32 × U32) :=
  if failed (increaseHeap s r.h nbPages (some 0)).1 then []
  else [((sysSbrk s (some r.h) nbPages).1, nbPages)]

/-- One call of `SysSbrk` by the process, with any number of pages. -/
inductive SbrkStep (s : VadMem) : SbrkRun → U32 → SbrkRun → Prop
  | call {r : SbrkRun} {nbPages eax : U32} {h' : ProcessHeap} :
      sysSbrk s (some r.h) nbPages = (eax, some h') →
      SbrkStep s r nbPages ⟨h', r.returned s nbPages ++ r.blocks⟩

/-- The end of a block, as a number that does not wrap. -/
def blockLimit (block : U32 × U32) : ℕ := block.1.toNat + block.2.toNat * pageSize

/-- The break is in the vad, and so are the blocks, which do not overlap. -/
structure InsideVad (s : VadMem) (r : SbrkRun) : Prop where
  base_le : r.h.baseAddress ≤ r.h.limitAddress
  limit_le : r.h.limitAddress ≤ (s.vads r.h.vad).limitAddress
  blocks : ∀ b ∈ r.blocks, (s.vads r.h.vad).baseAddress ≤ b.1 ∧
    blockLimit b ≤ (s.vads r.h.vad).limitAddress.toNat
  apart : r.blocks.Pairwise fun b c => blockLimit b ≤ c.1.toNat ∨ blockLimit c ≤ b.1.toNat

/-- A call that leaves the break in the vad and does not lower it. -/
def SafeSbrkStep (s : VadMem) (r : SbrkRun) (nbPages : U32) (r' : SbrkRun) : Prop :=
  SbrkStep s r nbPages r' ∧ InsideVad s r' ∧ r.h.limitAddress ≤ r'.h.limitAddress

/-- The new limit does not wrap, or the call fails all the same. -/
def NoWrap (s : VadMem) (r : SbrkRun) (nbPages : U32) : Prop :=
  nbPages = 0 ∨ r.h.limitAddress.toNat + nbPages.toNat * pageSize < 2 ^ 32 ∨
    (s.vads r.h.vad).limitAddress < r.h.limitAddress + nbPages * 4096

/-! ## The heap that a process starts with -/

namespace VadMem

variable {s s' : VadMem} {head v w fuel : ℕ} {size pageDirectory : U32} {reserve : Bool}
  {status : KeStatus} {out : Option ℕ}

theorem split_vads (hv : w ≠ v) (hw : w ≠ s.heapTop) : (s.split v size).2.vads w = s.vads w := by
  unfold split create
  split_ifs <;> simp [store, setPreviousIf, VadMem.next, hv, hw]

/-- A search that ends with a vad has found a free one. -/
theorem lookForFree_free
    (h : s.lookForFreeVadOfMinimumSize fuel head size = .ret (.statusSuccess, some v)) :
    (s.vads v).free = true := by
  unfold lookForFreeVadOfMinimumSize at h
  split at h
  · cases h
  obtain ⟨found, hloop, h⟩ := Outcome.bind_eq_ret.mp h
  have hfound : ∀ w, found = some w → s.fits size w = true := by
    apply Outcome.loop_invariant (I := fun _ => True) (fun _ _ _ _ => trivial) _ trivial hloop
    intro link found _ hturn w hw
    subst hw
    cases link with
    | none => cases hturn
    | some u =>
      simp only [lookForFreeTurn] at hturn
      split at hturn
      · rename_i hfits
        cases hturn
        exact hfits
      · cases hturn
  cases found with
  | none => cases h
  | some u =>
    cases h
    exact (fits_eq_true.mp (hfound v rfl)).2

/-- `Allocate` does not change the used vads. -/
theorem allocate_used (h : s.allocate fuel head size pageDirectory reserve = .ret (status, out, s'))
    (hw : w < s.heapTop) (hused : (s.vads w).free = false) : s'.vads w = s.vads w := by
  have hreserve : ∀ {t : VadMem} {u : ℕ}, t.vads w = s.vads w →
      t.reserveAndReturn fuel u pageDirectory reserve = .ret (status, out, s') →
      s'.vads w = s.vads w := by
    intro t u ht hr
    obtain ⟨-, hsame, hkeep, -⟩ := reserveAndReturn_spec hr
    rw [← ht] at hused ⊢
    rw [hsame w, hkeep w hused, ← hused]
  unfold allocate at h
  split at h
  · cases h
    rfl
  obtain ⟨⟨st, found⟩, hlook, h⟩ := Outcome.bind_eq_ret.mp h
  split at h
  · rename_i v hfound
    cases hfound
    have hne : w ≠ v := by
      rintro rfl
      rw [lookForFree_free hlook] at hused
      cases hused
    unfold allocateFrom at h
    split at h
    · dsimp only at h
      split at h
      · cases h
        exact split_vads hne (Nat.ne_of_lt hw)
      · exact hreserve (split_vads hne (Nat.ne_of_lt hw)) h
    · exact hreserve rfl h
  · cases h
    rfl

end VadMem

/-- `CreateDefaultHeapAndStack` leaves an initialised heap, when the vads are a
partition of which the last one is split. -/
theorem Process.createDefaultHeapAndStack_initialised {this : Process} {s s' : VadMem} {fuel : ℕ}
    {l : List ℕ} {status : KeStatus} {h : ProcessHeap} (hpart : s.Partition this.baseVad l)
    (hall : s.Allocated l) (hguard : s.SplitsLast this.baseVad defaultHeapSize)
    (hr : this.createDefaultHeapAndStack fuel s = .ret (status, some h, s')) :
    h.Initialised s' := by
  obtain ⟨⟨st, out, s₁⟩, hheap, hr⟩ := Outcome.bind_eq_ret.mp hr
  dsimp only at hr
  split at hr
  · rename_i heapVad _ hfound
    cases hfound
    obtain ⟨⟨_, _, s₂⟩, hstack, hr⟩ := Outcome.bind_eq_ret.mp hr
    cases hr
    obtain ⟨l', hpres⟩ := hpart.allocate hall hguard hheap
    obtain ⟨hmem, hused⟩ := hpres.result heapVad rfl
    have hkeep : s₂.vads heapVad = s₁.vads heapVad :=
      VadMem.allocate_used hstack (hpres.allocated _ hmem) hused
    constructor
    · exact congrArg Vad.baseAddress hkeep.symm
    · rfl
    · show (s₂.vads heapVad).baseAddress ≤ (s₂.vads heapVad).limitAddress
      rw [hkeep]
      exact BitVec.le_of_lt (hpres.partition.lt hmem)
  · cases hr

/-! ## One call -/

variable {s : VadMem} {r r' : SbrkRun} {nbPages : U32}

/-- What a call does: it fails and changes nothing, or it moves the limit. -/
theorem SbrkStep.cases (h : SbrkStep s r nbPages r') :
    ((nbPages = 0 ∨ (s.vads r.h.vad).limitAddress < r.h.limitAddress + nbPages * 4096) ∧ r' = r) ∨
    (nbPages ≠ 0 ∧ r.h.limitAddress + nbPages * 4096 ≤ (s.vads r.h.vad).limitAddress ∧
      r' = ⟨{ r.h with limitAddress := r.h.limitAddress + nbPages * 4096 },
        (r.h.limitAddress, nbPages) :: r.blocks⟩) := by
  obtain @⟨eax, h', hcall⟩ := h
  simp only [SbrkRun.returned, hcall]
  simp only [sysSbrk, increaseHeap] at hcall ⊢
  by_cases hzero : nbPages = 0
  · simp only [if_pos hzero] at hcall ⊢
    cases hcall
    exact .inl ⟨.inl hzero, rfl⟩
  by_cases hlimit : (s.vads r.h.vad).limitAddress < r.h.limitAddress + nbPages * 4096
  · simp only [if_neg hzero, if_pos hlimit] at hcall ⊢
    cases hcall
    exact .inl ⟨.inr hlimit, rfl⟩
  · simp only [if_neg hzero, if_neg hlimit] at hcall ⊢
    cases hcall
    exact .inr ⟨hzero, BitVec.not_lt.mp hlimit, rfl⟩

/-- The new limit of a call that does not wrap. -/
theorem toNat_limit (h : r.h.limitAddress.toNat + nbPages.toNat * pageSize < 2 ^ 32) :
    (r.h.limitAddress + nbPages * 4096).toNat =
      r.h.limitAddress.toNat + nbPages.toNat * pageSize := by
  have hpage : (4096 : U32).toNat = pageSize := rfl
  rw [BitVec.toNat_add, BitVec.toNat_mul, hpage, Nat.mod_eq_of_lt (a := nbPages.toNat * pageSize)]
  · exact Nat.mod_eq_of_lt h
  · omega

/-- The state between two calls: the break is in the vad, and the blocks are below
the limit. -/
structure SbrkInv (s : VadMem) (r : SbrkRun) : Prop where
  inside : InsideVad s r
  base_le : (s.vads r.h.vad).baseAddress ≤ r.h.limitAddress
  below : ∀ b ∈ r.blocks, blockLimit b ≤ r.h.limitAddress.toNat

theorem ProcessHeap.Initialised.inv {h : ProcessHeap} (hinit : h.Initialised s) :
    SbrkInv s ⟨h, []⟩ := by
  constructor
  · constructor
    · exact BitVec.le_of_eq hinit.limit.symm
    · rw [hinit.limit, hinit.base]
      exact hinit.vad
    · simp
    · exact List.Pairwise.nil
  · rw [hinit.limit, hinit.base]
    exact BitVec.le_refl _
  · simp

/-- A call that meets the condition keeps the invariant and does not lower the
limit. -/
theorem SbrkInv.step (h : SbrkInv s r) (hwrap : NoWrap s r nbPages)
    (hstep : SbrkStep s r nbPages r') : SbrkInv s r' ∧ r.h.limitAddress ≤ r'.h.limitAddress := by
  rcases hstep.cases with ⟨-, rfl⟩ | ⟨hpos, hle, rfl⟩
  · exact ⟨h, BitVec.le_refl _⟩
  have hsum : r.h.limitAddress.toNat + nbPages.toNat * pageSize < 2 ^ 32 := by
    rcases hwrap with h0 | hsum | hlt
    · exact absurd h0 hpos
    · exact hsum
    · exact absurd hlt (BitVec.not_lt.mpr hle)
  have hnat := toNat_limit hsum
  have hup : r.h.limitAddress ≤ r.h.limitAddress + nbPages * 4096 := by
    rw [BitVec.le_def, hnat]
    exact Nat.le_add_right _ _
  have hend : blockLimit (r.h.limitAddress, nbPages) = (r.h.limitAddress + nbPages * 4096).toNat :=
    hnat.symm
  refine ⟨⟨⟨BitVec.le_trans h.inside.base_le hup, hle, ?_, ?_⟩, BitVec.le_trans h.base_le hup, ?_⟩,
    hup⟩
  · intro b hb
    rcases List.mem_cons.mp hb with rfl | hb
    · rw [hend]
      exact ⟨h.base_le, hle⟩
    · exact h.inside.blocks b hb
  · apply List.Pairwise.cons _ h.inside.apart
    intro b hb
    exact .inr (h.below b hb)
  · intro b hb
    rcases List.mem_cons.mp hb with rfl | hb
    · exact le_of_eq hend
    · exact (h.below b hb).trans hup

/-- A call that does not meet it returns a block that is not in the vad. -/
theorem noWrap_of_inside (hstep : SbrkStep s r nbPages r') (hinside : InsideVad s r') :
    NoWrap s r nbPages := by
  rcases hstep.cases with ⟨h, -⟩ | ⟨-, hle, rfl⟩
  · exact h.imp_right Or.inr
  · have hblock := (hinside.blocks _ List.mem_cons_self).2
    have hlimit := (s.vads r.h.vad).limitAddress.isLt
    exact .inr (.inl (Nat.lt_of_le_of_lt hblock hlimit))

/-! ## Runs -/

/-- In a run of any requests every call leaves the break in the vad and does not
lower it, exactly when no call wraps. -/
theorem sbrk_safe_iff {h : ProcessHeap} {requests : List U32} (hinit : h.Initialised s) :
    Run (SafeSbrkStep s) ⟨h, []⟩ requests r ↔
      Run (Guarded (NoWrap s) (SbrkStep s)) ⟨h, []⟩ requests r := by
  constructor
  · intro hrun
    apply hrun.mono
    intro r nbPages r' hsafe
    exact ⟨noWrap_of_inside hsafe.1 hsafe.2.1, hsafe.1⟩
  · intro hrun
    have hboth : Run (SafeSbrkStep s) ⟨h, []⟩ requests r ∧ SbrkInv s r := by
      induction hrun with
      | nil => exact ⟨.nil _, hinit.inv⟩
      | snoc _ hstep ih =>
        obtain ⟨hrun, hinv⟩ := ih
        obtain ⟨hinv', hup⟩ := hinv.step hstep.1 hstep.2
        exact ⟨hrun.snoc ⟨hstep.2, hinv'.inside, hup⟩, hinv'⟩
    exact hboth.1

/-- The vad of five pages that the heap gets in a process without code. -/
def heapVads : VadMem where
  vads := fun _ => ⟨0x40000000, 0x40005000, 0x5000, false, none, none⟩
  heapTop := 1
  mem := ⟨.uniform, ⟨fun _ => 1⟩, .bss⟩

/-- The heap at the base of this vad. -/
def emptyHeap : ProcessHeap := ⟨0x40000000, 0x40000000, 0⟩

theorem emptyHeap_initialised : emptyHeap.Initialised heapVads :=
  ⟨rfl, rfl, by show (0x40000000 : U32) ≤ 0x40005000; decide⟩

/-- Two pages and one more are returned. -/
theorem emptyHeap_safe :
    Run (SafeSbrkStep heapVads) ⟨emptyHeap, []⟩ [2, 1]
      ⟨⟨0x40000000, 0x40003000, 0⟩, [(0x40002000, 1), (0x40000000, 2)]⟩ := by
  apply (sbrk_safe_iff emptyHeap_initialised).mpr
  have hfirst : Run (Guarded (NoWrap heapVads) (SbrkStep heapVads)) ⟨emptyHeap, []⟩ [2]
      ⟨⟨0x40000000, 0x40002000, 0⟩, [(0x40000000, 2)]⟩ :=
    Run.single ⟨.inr (.inl (by decide)), .call rfl⟩
  exact hfirst.snoc ⟨.inr (.inl (by decide)), .call rfl⟩

/-- One page, then `0xFFFFF` pages: the break goes back to the base of the heap. -/
theorem emptyHeap_not_safe :
    Run (SbrkStep heapVads) ⟨emptyHeap, []⟩ [1, 0xFFFFF]
      ⟨emptyHeap, [(0x40001000, 0xFFFFF), (0x40000000, 1)]⟩ ∧
    ¬ Run (SafeSbrkStep heapVads) ⟨emptyHeap, []⟩ [1, 0xFFFFF]
      ⟨emptyHeap, [(0x40001000, 0xFFFFF), (0x40000000, 1)]⟩ := by
  have hfirst : SbrkStep heapVads ⟨emptyHeap, []⟩ 1
      ⟨⟨0x40000000, 0x40001000, 0⟩, [(0x40000000, 1)]⟩ := .call rfl
  have hsecond : SbrkStep heapVads ⟨⟨0x40000000, 0x40001000, 0⟩, [(0x40000000, 1)]⟩ 0xFFFFF
      ⟨emptyHeap, [(0x40001000, 0xFFFFF), (0x40000000, 1)]⟩ := .call rfl
  refine ⟨(Run.single hfirst).snoc hsecond, fun hrun => ?_⟩
  have hinside : InsideVad heapVads ⟨emptyHeap, [(0x40001000, 0xFFFFF), (0x40000000, 1)]⟩ :=
    hrun.invariant (fun _ _ _ _ hsafe => hsafe.2.1) emptyHeap_initialised.inv.inside
  have hblock := (hinside.blocks _ List.mem_cons_self).2
  exact absurd hblock (by decide)

end LtMicros
