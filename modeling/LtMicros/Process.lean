import LtMicros.Vad

/-!
# Page faults of a process
-/

namespace LtMicros

open Lib

/-- What `ResolvePageFault` reads of a `Process`: its first vad and the entry of
its page directory. -/
structure Process where
  baseVad : ℕ
  pdEntry : U32

namespace Process

/-- `Process::ResolvePageFault`. Without a physical page it goes to `clean` while
`status` still has the success of the look-up. -/
def resolvePageFault (fuel : ℕ) (this : Process) (s : VadMem) (address : U32) :
    Outcome (KeStatus × VadMem) :=
  if address = 0 then .ret (.statusNullParameter, s)
  else do
    match ← s.lookForVadFromAddress fuel this.baseVad address with
    | (.statusSuccess, some vad) =>
      if (s.vads vad).free then return (.statusUnexpected, s)
      else
        let (pNewPage, gPmm) := s.mem.gPmm.getFreePage
        let k := { s.mem with gPmm }
        if pNewPage = 0 then return (.statusSuccess, { s with mem := k })
        else do
          let currentPd := k.mmu.getCurrentPageDirectory
          let k := { k with mmu := k.mmu.setCurrentPageDirectory this.pdEntry }
          let k ← k.addPageToPageDirectory address pNewPage
            (pagePresent ||| pageWriteable ||| pageNonPrivilegedAccess)
          let k := { k with mmu := k.mmu.setCurrentPageDirectory currentPd }
          return (.statusSuccess, { s with mem := k })
    | (status, _) => return (status, s)

variable {this : Process} {s : VadMem} {address : U32} {vad fuel : ℕ}

/-- The fault of an address in a used vad, up to the physical page. -/
theorem resolvePageFault_used (haddr : address ≠ 0)
    (hlook : s.lookForVadFromAddress fuel this.baseVad address = .ret (.statusSuccess, some vad))
    (hused : (s.vads vad).free = false) :
    this.resolvePageFault fuel s address =
      if s.mem.gPmm.getFreePage.1 = 0 then
        .ret (.statusSuccess, { s with mem := { s.mem with gPmm := s.mem.gPmm.getFreePage.2 } })
      else do
        let k ← { s.mem with
            gPmm := s.mem.gPmm.getFreePage.2
            mmu := s.mem.mmu.setCurrentPageDirectory this.pdEntry }.addPageToPageDirectory
          address s.mem.gPmm.getFreePage.1
          (pagePresent ||| pageWriteable ||| pageNonPrivilegedAccess)
        return (.statusSuccess, { s with mem := { k with
          mmu := k.mmu.setCurrentPageDirectory s.mem.mmu.getCurrentPageDirectory } }) := by
  simp only [resolvePageFault, if_neg haddr, hlook, Outcome.ret_bind, hused, Bool.false_eq_true,
    if_false]
  rfl

/-- A null answer of `GetFreePage` is not reported either: nothing is mapped, and
the fault counts as resolved. -/
theorem resolvePageFault_null (haddr : address ≠ 0)
    (hlook : s.lookForVadFromAddress fuel this.baseVad address = .ret (.statusSuccess, some vad))
    (hused : (s.vads vad).free = false) (hnull : s.mem.gPmm.used 0 = false) :
    ∃ s', this.resolvePageFault fuel s address = .ret (.statusSuccess, s') ∧
      s'.mem.mmu = s.mem.mmu := by
  rw [resolvePageFault_used haddr hlook hused, if_pos (PmmBitmap.getFreePage_zero hnull)]
  exact ⟨_, rfl, rfl⟩

end Process

end LtMicros
