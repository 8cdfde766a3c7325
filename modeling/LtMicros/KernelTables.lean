import LtMicros.Vmm
import Mathlib.Tactic.IntervalCases

/-!
# The page tables of the kernel half

`InitKernelPageDirectoryAndPageTables` lays the 256 page tables of the kernel
half out one after the other from `pPageTables` on, every process has the same
entries for them in its page directory, and the last entry of a page directory
points to the directory. Page table entries of the kernel half are then found at
physical addresses that only depend on the virtual address.
-/

namespace LtMicros

open Lib

/-! ## Addresses in the last entries of the directory -/

section Recursive

variable (v : U32)

theorem pdeOf_dir : pdeOf v >>> 22 = 1023 := by
  unfold pdeOf
  ext i hi
  interval_cases i <;> simp

theorem pdeOf_table : (pdeOf v >>> 12) &&& 0x3FF#32 = 1023 := by
  unfold pdeOf
  ext i hi
  interval_cases i <;> simp

theorem pdeOf_offset : pdeOf v &&& 0xFFF#32 = (v >>> 22) <<< 2 := by
  unfold pdeOf
  ext i hi
  interval_cases i <;> simp

theorem pteOf_dir : pteOf v >>> 22 = 1023 := by
  unfold pteOf
  ext i hi
  interval_cases i <;> simp

theorem pteOf_table : (pteOf v >>> 12) &&& 0x3FF#32 = v >>> 22 := by
  unfold pteOf
  ext i hi
  interval_cases i <;> simp

theorem pteOf_offset : pteOf v &&& 0xFFF#32 = ((v >>> 12) &&& 0x3FF#32) <<< 2 := by
  unfold pteOf
  ext i hi
  interval_cases i <;> simp

/-- The tables follow each other, so their entries are one array. -/
theorem table_offset : (v >>> 22) <<< 12 + ((v >>> 12) &&& 0x3FF#32) <<< 2 = (v >>> 12) <<< 2 := by
  rw [BitVec.add_eq_or_of_and_eq_zero]
  · ext i hi
    interval_cases i <;> simp
  · ext i hi
    interval_cases i <;> simp

end Recursive

/-- The address of a page table of the kernel half. -/
def kernelTable (i : U32) : U32 := kernelInfo.pPageTables + i <<< 12

/-- The physical address of the page table entry of a kernel address. -/
def kernelPte (vAddr : U32) : U32 := kernelInfo.pPageTables + (vAddr >>> 12) <<< 2

/-- A present entry that points to `frame`. -/
def PointsTo (entry frame : U32) : Prop :=
  flagOn entry pagePresent = true ∧ entry &&& 0xFFFFF000#32 = frame

instance (entry frame : U32) : Decidable (PointsTo entry frame) :=
  inferInstanceAs (Decidable (_ ∧ _))

namespace Mmu

/-- The current page directory. -/
def directory (m : Mmu) : U32 := m.cr3 &&& 0xFFFFF000#32

/-- The kernel half of the current page directory is in place. -/
structure KernelTables (m : Mmu) : Prop where
  self : PointsTo (m.phys (m.directory + 0xFFC)) m.directory
  tables : ∀ i : U32, i < 256 → PointsTo (m.phys (m.directory + i <<< 2)) (kernelTable i)
  apart : m.directory.toNat + 4096 ≤ 0x400000 ∨
    0x500000 ≤ m.directory.toNat ∧ m.directory.toNat + 4096 ≤ 2 ^ 32

variable {m m' : Mmu} {v : U32}

theorem translate_eq {v d t : U32} (hd : PointsTo (m.phys (m.directory + (v >>> 22) <<< 2)) d)
    (ht : PointsTo (m.phys (d + ((v >>> 12) &&& 0x3FF#32) <<< 2)) t) :
    m.translate v = some (t + (v &&& 0xFFF#32)) := by
  obtain ⟨hd₁, hd₂⟩ := hd
  obtain ⟨ht₁, ht₂⟩ := ht
  rw [directory] at hd₁ hd₂
  simp only [translate, hd₁, hd₂, ht₁, ht₂, if_true]

theorem shift_lt (h : v < vUserBaseAddr) : v >>> 22 < 256 := by
  have h : v.toNat < 2 ^ 30 := h
  rw [BitVec.lt_def, BitVec.toNat_ushiftRight, Nat.shiftRight_eq_div_pow]
  show v.toNat / 2 ^ 22 < 256
  omega

/-- The directory entry of a kernel address is read where it is. -/
theorem KernelTables.read_pde (h : m.KernelTables) (hv : v < vUserBaseAddr) :
    ∃ pde, m.read (pdeOf v) = .ret pde ∧ flagOn pde pagePresent = true := by
  have htr : m.translate (pdeOf v) = some (m.directory + (v >>> 22) <<< 2) := by
    rw [← pdeOf_offset v]
    apply translate_eq (d := m.directory)
    · rw [pdeOf_dir]
      exact h.self
    · rw [pdeOf_table]
      exact h.self
  refine ⟨_, ?_, (h.tables _ (shift_lt hv)).1⟩
  rw [Mmu.read, htr]
  rfl

/-- The table entry of a kernel address is at `kernelPte`. -/
theorem KernelTables.translate_pte (h : m.KernelTables) (hv : v < vUserBaseAddr) :
    m.translate (pteOf v) = some (kernelPte v) := by
  have htr : m.translate (pteOf v) =
      some (kernelTable (v >>> 22) + ((v >>> 12) &&& 0x3FF#32) <<< 2) := by
    rw [← pteOf_offset v]
    apply translate_eq (d := m.directory)
    · rw [pteOf_dir]
      exact h.self
    · rw [pteOf_table]
      exact h.tables _ (shift_lt hv)
  rw [htr, kernelTable, kernelPte, BitVec.add_assoc, table_offset]

theorem toNat_kernelPte (hv : v < vUserBaseAddr) :
    (kernelPte v).toNat = 0x400000 + 4 * (v.toNat / 4096) := by
  have hv : v.toNat < 2 ^ 30 := hv
  have hbase : kernelInfo.pPageTables.toNat = 0x400000 := rfl
  rw [kernelPte, BitVec.toNat_add, BitVec.toNat_shiftLeft, BitVec.toNat_ushiftRight, hbase,
    Nat.shiftRight_eq_div_pow, Nat.shiftLeft_eq]
  omega

/-- Writing a table entry of the kernel half leaves the directory alone. -/
theorem KernelTables.update (h : m.KernelTables) (hv : v < vUserBaseAddr) (w : U32) :
    KernelTables { m with phys := Function.update m.phys (kernelPte v) w } := by
  have hpte := toNat_kernelPte hv
  have hv' : v.toNat < 2 ^ 30 := hv
  have hdir := m.directory.isLt
  have hapart : ∀ k : U32, k.toNat < 4096 →
      Function.update m.phys (kernelPte v) w (m.directory + k) = m.phys (m.directory + k) := by
    intro k hk
    apply Function.update_of_ne
    intro heq
    have hnat := congrArg BitVec.toNat heq
    rw [hpte, BitVec.toNat_add, Nat.mod_eq_of_lt (by have := h.apart; omega)] at hnat
    have := h.apart
    omega
  have hdirectory : directory { m with phys := Function.update m.phys (kernelPte v) w } =
      m.directory := rfl
  refine ⟨?_, fun i hi => ?_, h.apart⟩
  · have hself := hapart 0xFFC (by decide)
    rw [hdirectory]
    dsimp only
    rw [hself]
    exact h.self
  · have hi' : i.toNat < 256 := hi
    have hentry := hapart (i <<< 2) (by rw [BitVec.toNat_shiftLeft, Nat.shiftLeft_eq]; omega)
    rw [hdirectory]
    dsimp only
    rw [hentry]
    exact h.tables i hi

/-- `AddPageToKernelPageDirectory` writes the table entry and nothing else. -/
theorem KernelTables.addPage (h : m.KernelTables) (hv : v < vUserBaseAddr) (pAddr flags : U32) :
    ∃ m', m.addPageToKernelPageDirectory v pAddr flags = .ret m' ∧ m'.KernelTables ∧
      m'.phys = Function.update m.phys (kernelPte v)
        (setPageTableEntry pAddr (pagePresent ||| pageWriteable)) := by
  obtain ⟨pde, hpde, hp⟩ := h.read_pde hv
  refine ⟨_, ?_, h.update hv _, rfl⟩
  rw [addPageToKernelPageDirectory, if_neg (BitVec.not_lt.mpr (BitVec.le_of_lt hv)), hpde]
  simp only [Outcome.ret_bind, hp, if_true]
  rw [Mmu.write, h.translate_pte hv]
  rfl

/-! ## The tables after `InitKernelPageDirectoryAndPageTables` -/

/-- The kernel's page directory, with all table entries still empty. -/
def boot : Mmu where
  phys := fun a =>
    if a = 0x1FFC then 0x1003
    else if 0x1000 ≤ a ∧ a < 0x1400 then kernelTable ((a - 0x1000) >>> 2) ||| 3
    else 0
  cr3 := kernelInfo.pPageDirectory

theorem pointsTo_kernelTable : ∀ n < 256,
    PointsTo (boot.phys (0x1000#32 + BitVec.ofNat 32 n <<< 2))
      (kernelTable (BitVec.ofNat 32 n)) := by
  decide +kernel

theorem boot_kernelTables : boot.KernelTables := by
  have hdir : boot.directory = 0x1000#32 := by decide
  refine ⟨by rw [hdir]; decide, fun i hi => ?_, .inl (by rw [hdir]; decide)⟩
  have hi' : i.toNat < 256 := hi
  have hentry := pointsTo_kernelTable i.toNat hi'
  rwa [BitVec.ofNat_toNat, BitVec.setWidth_eq, ← hdir] at hentry

end Mmu

end LtMicros
