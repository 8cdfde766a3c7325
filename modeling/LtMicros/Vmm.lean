import LtMicros.Kernel
import LtMicros.Lib.Outcome

/-!
# The virtual memory manager

Page tables live in physical memory and the kernel reaches them, like any other
memory, through the tables themselves: entry 1023 of a page directory points to
the directory, so its entries appear at `0xFFFFF000` and the entries of its page
tables from `0xFFC00000` on. The TLB is not part of this model.
-/

namespace LtMicros

open Lib

/-- `PAGE_FLAG` values. -/
def pagePresent : U32 := 1
def pageWriteable : U32 := 2
def pageNonPrivilegedAccess : U32 := 4
def pagePwt : U32 := 8
def pagePcd : U32 := 16
def pageAccessed : U32 := 32
def pageWritten : U32 := 64
def pageSize4Mo : U32 := 128

/-- A one-bit field of a table entry is written. -/
def setField (w : U32) (bit : ℕ) (value : Bool) : U32 :=
  if value then w ||| 1#32 <<< bit else w &&& ~~~(1#32 <<< bit)

/-- The fields that `SetPageDirectoryEntry` and `SetPageTableEntry` both write. -/
def setEntryFields (addr flags : U32) : U32 :=
  let w := setField addr 0 (flagOn flags pagePresent)
  let w := setField w 1 (flagOn flags pageWriteable)
  let w := setField w 2 (flagOn flags pageNonPrivilegedAccess)
  let w := setField w 3 (flagOn flags pagePwt)
  let w := setField w 4 (flagOn flags pagePcd)
  setField w 5 (flagOn flags pageAccessed)

/-- The word left by `Vmm::SetPageDirectoryEntry`: the whole entry is first
overwritten by `ptAddr`, so bits without a field keep the bits of `ptAddr`. -/
def setPageDirectoryEntry (ptAddr flags : U32) : U32 :=
  setField (setEntryFields ptAddr flags) 7 (flagOn flags pageSize4Mo)

/-- The word left by `Vmm::SetPageTableEntry`. -/
def setPageTableEntry (pageAddr flags : U32) : U32 :=
  setField (setEntryFields pageAddr flags) 6 (flagOn flags pageWritten)

/-! ## The words of the entries -/

theorem getLsbD_setField (w : U32) (bit i : ℕ) (v : Bool) (hi : i < 32) :
    (setField w bit v).getLsbD i = if i = bit then v else w.getLsbD i := by
  unfold setField
  rw [← BitVec.twoPow_eq]
  split
  · rename_i hv
    simp only [BitVec.getLsbD_or, BitVec.getLsbD_twoPow]
    by_cases h : i = bit
    · subst h
      simp [hi, hv]
    · simp [h, Ne.symm h]
  · rename_i hv
    simp only [BitVec.getLsbD_and, BitVec.getLsbD_not, BitVec.getLsbD_twoPow]
    by_cases h : i = bit
    · subst h
      simp [hi, hv]
    · simp [h, Ne.symm h, hi]

theorem flagOn_pagePresent (w : U32) : flagOn w pagePresent = w.getLsbD 0 := by
  have : pagePresent = BitVec.twoPow 32 0 := by decide
  rw [flagOn, this, BitVec.and_twoPow]
  cases w.getLsbD 0 <;> decide

/-- A page table entry is present exactly when its flags say so. -/
theorem flagOn_setPageTableEntry (pageAddr flags : U32) :
    flagOn (setPageTableEntry pageAddr flags) pagePresent = flagOn flags pagePresent := by
  rw [flagOn_pagePresent, setPageTableEntry, setEntryFields]
  simp (disch := decide) only [getLsbD_setField, ite_true, if_neg]

/-! ## The processor's walk -/

/-- Virtual address of the page directory entry of `vAddr`. -/
def pdeOf (vAddr : U32) : U32 := 0xFFFFF000#32 ||| (vAddr &&& 0xFFC00000#32) >>> 20

/-- Virtual address of the page table entry of `vAddr`. -/
def pteOf (vAddr : U32) : U32 := 0xFFC00000#32 ||| (vAddr &&& 0xFFFFF000#32) >>> 10

/-- The processor's view of memory: the words of physical memory, by their
address, and `cr3`. -/
structure Mmu where
  phys : U32 → U32
  cr3 : U32

namespace Mmu

/-- The two-level walk; `none` is a page fault. -/
def translate (m : Mmu) (vAddr : U32) : Option U32 :=
  let pde := m.phys ((m.cr3 &&& 0xFFFFF000#32) + (vAddr >>> 22) <<< 2)
  if flagOn pde pagePresent then
    let pte := m.phys ((pde &&& 0xFFFFF000#32) + ((vAddr >>> 12) &&& 0x3FF#32) <<< 2)
    if flagOn pte pagePresent then some ((pte &&& 0xFFFFF000#32) + (vAddr &&& 0xFFF#32)) else none
  else none

/-- Reads the word at a virtual address. -/
def read (m : Mmu) (vAddr : U32) : Outcome U32 := do
  let pAddr ← .ofOption (m.translate vAddr)
  return m.phys pAddr

/-- Writes the word at a virtual address. -/
def write (m : Mmu) (vAddr value : U32) : Outcome Mmu := do
  let pAddr ← .ofOption (m.translate vAddr)
  return { m with phys := Function.update m.phys pAddr value }

/-- `Vmm::GetCurrentPageDirectory`. -/
def getCurrentPageDirectory (m : Mmu) : U32 := m.cr3

/-- `Vmm::SetCurrentPageDirectory`. -/
def setCurrentPageDirectory (m : Mmu) (pd : U32) : Mmu := { m with cr3 := pd }

/-- `Vmm::AddPageToKernelPageDirectory`. The flags given by the caller are not
used. -/
def addPageToKernelPageDirectory (m : Mmu) (vAddr pAddr _flags : U32) : Outcome Mmu :=
  if vUserBaseAddr < vAddr then .panic
  else do
    let pde ← m.read (pdeOf vAddr)
    if flagOn pde pagePresent then
      m.write (pteOf vAddr) (setPageTableEntry pAddr (pagePresent ||| pageWriteable))
    else .panic

/-- `Vmm::CleanPageTable`: the 1024 words from `pt` on are cleared. -/
def cleanPageTable (m : Mmu) (pt : U32) : Outcome Mmu :=
  (List.range 1024).foldlM (fun m i => m.write (pt + BitVec.ofNat 32 (4 * i)) 0) m

/-- Every word, read as an entry, is present, so that every address translates.
The tables are like this after `Vmm::InitKernelPageDirectoryAndPageTables` as far
as the kernel half is concerned. -/
def AllPresent (m : Mmu) : Prop := ∀ a, flagOn (m.phys a) pagePresent = true

/-- Tables whose words all are the one entry of the page at `0x1000`. -/
def uniform : Mmu := ⟨fun _ => 0x1003, 0x1000⟩

theorem uniform_allPresent : uniform.AllPresent := by
  intro a
  show flagOn 0x1003 pagePresent = true
  decide

theorem AllPresent.translate {m : Mmu} (h : m.AllPresent) (v : U32) :
    ∃ a, m.translate v = some a := by
  simp only [Mmu.translate, if_pos (h _)]
  exact ⟨_, rfl⟩

theorem AllPresent.read {m : Mmu} (h : m.AllPresent) (v : U32) :
    ∃ w, m.read v = .ret w ∧ flagOn w pagePresent = true := by
  obtain ⟨a, ha⟩ := h.translate v
  exact ⟨m.phys a, by simp [Mmu.read, ha], h a⟩

theorem AllPresent.write {m : Mmu} (h : m.AllPresent) (v : U32) {w : U32}
    (hw : flagOn w pagePresent = true) : ∃ m', m.write v w = .ret m' ∧ m'.AllPresent := by
  obtain ⟨a, ha⟩ := h.translate v
  refine ⟨_, by simp only [Mmu.write, ha]; rfl, fun b => ?_⟩
  by_cases hb : b = a
  · subst hb
    simpa using hw
  · simpa [Function.update_of_ne hb] using h b

theorem AllPresent.addPageToKernelPageDirectory {m : Mmu} (h : m.AllPresent) {vAddr : U32}
    (hv : vAddr ≤ vUserBaseAddr) (pAddr flags : U32) :
    ∃ m', m.addPageToKernelPageDirectory vAddr pAddr flags = .ret m' ∧ m'.AllPresent := by
  obtain ⟨pde, hpde, hp⟩ := h.read (pdeOf vAddr)
  obtain ⟨m', hm', hall⟩ := h.write (pteOf vAddr)
    (w := setPageTableEntry pAddr (pagePresent ||| pageWriteable))
    (by rw [flagOn_setPageTableEntry]; decide)
  have hlt : ¬ vUserBaseAddr < vAddr := BitVec.not_lt.mpr hv
  exact ⟨m', by simp [Mmu.addPageToKernelPageDirectory, hlt, hpde, hp, hm'], hall⟩

end Mmu

end LtMicros
