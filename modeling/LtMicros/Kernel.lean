import Mathlib.Algebra.Group.Nat.Defs
import Mathlib.Logic.Function.Basic
import Mathlib.Order.Nat
import Mathlib.Tactic.Common

/-!
# Kernel-wide types and constants

Machine words, status codes and the memory layout that the `Kernel` constructor
writes into `gKernel.info`.
-/

namespace LtMicros

/-- `u32`, `unsigned int` and addresses. -/
abbrev U32 := BitVec 32

/-- `u8`. -/
abbrev U8 := BitVec 8

/-- `KeStatus`, in the order of `STATUS_LIST`. -/
inductive KeStatus where
  | statusSuccess
  | statusFailure
  | statusNotFound
  | statusInvalidParameter
  | statusNullParameter
  | statusInvalidHandle
  | statusAllocFailed
  | statusInvalidVirtualUserAddress
  | statusPhysicalMemoryFull
  | statusProcessHeapLimitReached
  | ipcStatusIdStringAlreadyUsed
  | ipcStatusServerNotFound
  | ipcStatusAccessDenied
  | statusHandleAlreadyExist
  | statusListStopIterating
  | statusUnexpected
deriving DecidableEq, Repr

/-- `FAILED(status)`. -/
def failed (status : KeStatus) : Bool := status ≠ .statusSuccess

/-- `FlagOn(a, b)`. -/
def flagOn (a b : U32) : Bool := a &&& b ≠ 0

/-- `PAGE_SIZE`. -/
abbrev pageSize : ℕ := 4096

/-- `V_USER_BASE_ADDR`. -/
def vUserBaseAddr : U32 := 0x40000000

/-- `V_PROCESS_BASE_ADDR`. -/
abbrev vProcessBaseAddr : U32 := 0x40000000

/-- `V_PROCESS_LIMIT_ADDR`. -/
abbrev vProcessLimitAddr : U32 := 0xFFFFFFFF

/-- The loop of both `_local_mod` functions. Their second argument is always
`PAGE_SIZE`; a zero would keep the loop going for ever. -/
def subtractWhileAbove (a b : U32) : U32 :=
  if b < a ∧ b ≠ 0 then subtractWhileAbove (a - b) b else a
termination_by a.toNat
decreasing_by
  rename_i h
  have := BitVec.lt_def.mp h.1
  have hb : b.toNat ≠ 0 := fun h0 => h.2 (BitVec.eq_of_toNat_eq h0)
  rw [BitVec.toNat_sub_of_le (BitVec.le_of_lt h.1)]
  omega

/-- The loop stops above zero when it starts there. -/
theorem subtractWhileAbove_pos {a b : U32} (h : 0 < a) : 0 < subtractWhileAbove a b := by
  fun_induction subtractWhileAbove a b with
  | case1 a hlt ih =>
    apply ih
    have := BitVec.lt_def.mp hlt.1
    rw [BitVec.lt_def, BitVec.toNat_sub_of_le (BitVec.le_of_lt hlt.1)]
    exact Nat.sub_pos_of_lt this
  | case2 a hlt => exact h

/-- The part of `KernelInfo` that the memory managers read. -/
structure KernelInfo where
  pPageDirectory : U32
  pPageTables : U32
  pKernelLimit : U32
  vPagePoolBase : U32
  vPagePoolLimit : U32
  vHeapBase : U32
  vHeapLimit : U32

/-- `gKernel.info` after `Kernel::Kernel()`. -/
def kernelInfo : KernelInfo where
  pPageDirectory := 0x1000
  pPageTables := 0x400000
  pKernelLimit := 0x800000
  vPagePoolBase := 0x800000
  vPagePoolLimit := 0x1000000
  vHeapBase := 0x1000000
  vHeapLimit := 0x40000000

end LtMicros
