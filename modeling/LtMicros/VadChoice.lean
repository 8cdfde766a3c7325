import LtMicros.VadCalls

/-!
# The vad that an allocation reserves

Both allocation calls first find and split a vad, which touches the list only,
and then reserve its pages.
-/

namespace LtMicros

open Lib

namespace VadMem

/-- `Allocate` with the vad it has found, up to its call of `ReservePages`. -/
def chooseFrom (s : VadMem) (freeVad : ℕ) (size : U32) : Outcome (KeStatus × Option ℕ × VadMem) :=
  if vadMinimumDelta < (s.vads freeVad).size - size then
    let (status, s) := s.split freeVad size
    if failed status then .ret (status, none, s) else .ret (.statusSuccess, some freeVad, s)
  else .ret (.statusSuccess, some freeVad, s)

/-- `Allocate` up to its call of `ReservePages`. -/
def chooseVad (fuel : ℕ) (s : VadMem) (this : ℕ) (size : U32) :
    Outcome (KeStatus × Option ℕ × VadMem) :=
  if size = 0 then .ret (.statusInvalidParameter, none, s)
  else do
    match ← s.lookForFreeVadOfMinimumSize fuel this size with
    | (.statusSuccess, some freeVad) => s.chooseFrom freeVad size
    | (status, _) => return (status, none, s)

/-- `AllocateAtAddress` with the vad it has found, up to its call of
`ReservePages`. -/
def chooseAtAddressFrom (s : VadMem) (freeVad : ℕ) (address size : U32) :
    Outcome (KeStatus × Option ℕ × VadMem) :=
  if (s.vads freeVad).baseAddress ≠ address ∨
      vadMinimumDelta < (s.vads freeVad).size - size then
    let (status, s) := s.splitAtAddress freeVad address size
    if failed status then .ret (status, none, s)
    else if (s.vads freeVad).baseAddress ≠ address then do
      let freeVad ← .ofOption (s.next freeVad)
      return (.statusSuccess, some freeVad, s)
    else .ret (.statusSuccess, some freeVad, s)
  else .ret (.statusSuccess, some freeVad, s)

/-- `AllocateAtAddress` up to its call of `ReservePages`. -/
def chooseVadAtAddress (fuel : ℕ) (s : VadMem) (this : ℕ) (address size : U32) :
    Outcome (KeStatus × Option ℕ × VadMem) :=
  if address = 0 then .ret (.statusNullParameter, none, s)
  else if size = 0 then .ret (.statusInvalidParameter, none, s)
  else do
    match ← s.lookForFreeVadAtAddressOfMinimumSize fuel this address size with
    | (.statusSuccess, some freeVad) => s.chooseAtAddressFrom freeVad address size
    | (status, _) => return (status, none, s)

/-- `ReservePages` on the vad that was chosen, if one was. -/
def reserveChosen (fuel : ℕ) (pageDirectory : U32) (reservePhysicalPages : Bool) :
    KeStatus × Option ℕ × VadMem → Outcome (KeStatus × Option ℕ × VadMem)
  | (.statusSuccess, some freeVad, s) =>
    s.reserveAndReturn fuel freeVad pageDirectory reservePhysicalPages
  | (status, _, s) => .ret (status, none, s)

section Choice

variable {s s' : VadMem} {this fuel v : ℕ} {address size pageDirectory : U32} {reserve : Bool}
  {r : KeStatus × Option ℕ × VadMem}

theorem failed_eq_true {status : KeStatus} : failed status = true ↔ status ≠ .statusSuccess := by
  simp [failed]

/-- A failed status is passed on, without a vad. -/
theorem reserveChosen_failed {status : KeStatus} {out : Option ℕ} (h : status ≠ .statusSuccess) :
    reserveChosen fuel pageDirectory reserve (status, out, s) = .ret (status, none, s) := by
  cases status <;> first | rfl | exact absurd rfl h

theorem allocateFrom_eq (fuel : ℕ) (s : VadMem) (v : ℕ) (size pageDirectory : U32)
    (reserve : Bool) :
    s.allocateFrom fuel v size pageDirectory reserve =
      s.chooseFrom v size >>= reserveChosen fuel pageDirectory reserve := by
  unfold allocateFrom chooseFrom
  split
  · rcases s.split v size with ⟨status, s₁⟩
    dsimp only
    split
    · rename_i hfailed
      rw [Outcome.ret_bind, reserveChosen_failed (failed_eq_true.mp hfailed)]
    · rfl
  · rfl

/-- `Allocate` reserves the vad that it has chosen. -/
theorem allocate_eq (fuel : ℕ) (s : VadMem) (this : ℕ) (size pageDirectory : U32)
    (reserve : Bool) :
    s.allocate fuel this size pageDirectory reserve =
      s.chooseVad fuel this size >>= reserveChosen fuel pageDirectory reserve := by
  unfold allocate chooseVad
  split
  · rfl
  cases hlook : s.lookForFreeVadOfMinimumSize fuel this size with
  | ret found =>
    obtain ⟨status, out⟩ := found
    cases status with
    | statusSuccess =>
      cases out with
      | none => rfl
      | some v => exact s.allocateFrom_eq fuel v size pageDirectory reserve
    | _ => rfl
  | panic => rfl
  | fault => rfl
  | hang => rfl

theorem allocateAtAddressFrom_eq (fuel : ℕ) (s : VadMem) (v : ℕ)
    (address size pageDirectory : U32) (reserve : Bool) :
    s.allocateAtAddressFrom fuel v address size pageDirectory reserve =
      s.chooseAtAddressFrom v address size >>= reserveChosen fuel pageDirectory reserve := by
  unfold allocateAtAddressFrom chooseAtAddressFrom
  split
  · rcases s.splitAtAddress v address size with ⟨status, s₁⟩
    dsimp only
    split
    · rename_i hfailed
      rw [Outcome.ret_bind, reserveChosen_failed (failed_eq_true.mp hfailed)]
    · split
      · cases s₁.next v <;> rfl
      · rfl
  · rfl

theorem allocateAtAddress_eq (fuel : ℕ) (s : VadMem) (this : ℕ)
    (address size pageDirectory : U32) (reserve : Bool) :
    s.allocateAtAddress fuel this address size pageDirectory reserve =
      s.chooseVadAtAddress fuel this address size >>= reserveChosen fuel pageDirectory reserve := by
  unfold allocateAtAddress chooseVadAtAddress
  split
  · rfl
  split
  · rfl
  cases hlook : s.lookForFreeVadAtAddressOfMinimumSize fuel this address size with
  | ret found =>
    obtain ⟨status, out⟩ := found
    cases status with
    | statusSuccess =>
      cases out with
      | none => rfl
      | some v => exact s.allocateAtAddressFrom_eq fuel v address size pageDirectory reserve
    | _ => rfl
  | panic => rfl
  | fault => rfl
  | hang => rfl

/-! ### Only the list changes -/

@[simp] theorem mem_store (s : VadMem) (v : ℕ) (f : Vad → Vad) : (s.store v f).mem = s.mem := rfl

@[simp] theorem mem_setPreviousIf (s : VadMem) (v p : Option ℕ) :
    (s.setPreviousIf v p).mem = s.mem := by
  cases v <;> rfl

theorem mem_create (s : VadMem) (base size : U32) (free : Bool) :
    (s.create base size free).2.2.mem = s.mem := by
  unfold create
  split_ifs <;> rfl

theorem mem_split (s : VadMem) (v : ℕ) (size : U32) : (s.split v size).2.mem = s.mem := by
  have hcreate := s.mem_create ((s.vads v).baseAddress + pagesOf size)
    ((s.vads v).size - pagesOf size) true
  unfold split
  split_ifs
  · rfl
  · rfl
  · rfl
  · split
    · rename_i heq
      rw [heq] at hcreate
      simpa using hcreate
    · rename_i heq
      rw [heq] at hcreate
      exact hcreate

theorem mem_splitInside (s : VadMem) (v : ℕ) (address size : U32) :
    (s.splitInside v address size).2.mem = s.mem := by
  have hcreate := s.mem_create address ((s.vads v).limitAddress - address) true
  unfold splitInside
  dsimp only
  split
  · rfl
  split
  · rename_i heq
    rw [heq] at hcreate
    split
    · rw [mem_split]
      simpa using hcreate
    · simpa using hcreate
  · rename_i heq
    rw [heq] at hcreate
    exact hcreate

theorem mem_splitAtAddress (s : VadMem) (v : ℕ) (address size : U32) :
    (s.splitAtAddress v address size).2.mem = s.mem := by
  unfold splitAtAddress
  split_ifs
  · rfl
  · rfl
  · rfl
  · rfl
  · exact s.mem_splitInside v address size
  · exact s.mem_split v size

theorem chooseFrom_mem (h : s.chooseFrom v size = .ret r) : r.2.2.mem = s.mem := by
  unfold chooseFrom at h
  split at h
  · have hmem := s.mem_split v size
    rcases hsplit : s.split v size with ⟨status, s₁⟩
    rw [hsplit] at h hmem
    dsimp only at h
    split at h
    · cases h
      exact hmem
    · cases h
      exact hmem
  · cases h
    rfl

theorem chooseVad_mem (h : s.chooseVad fuel this size = .ret r) : r.2.2.mem = s.mem := by
  unfold chooseVad at h
  split at h
  · cases h
    rfl
  obtain ⟨⟨status, out⟩, -, h⟩ := Outcome.bind_eq_ret.mp h
  split at h
  · exact chooseFrom_mem h
  · cases h
    rfl

theorem chooseAtAddressFrom_mem (h : s.chooseAtAddressFrom v address size = .ret r) :
    r.2.2.mem = s.mem := by
  unfold chooseAtAddressFrom at h
  split at h
  · have hmem := s.mem_splitAtAddress v address size
    rcases hsplit : s.splitAtAddress v address size with ⟨status, s₁⟩
    rw [hsplit] at h hmem
    dsimp only at h
    split at h
    · cases h
      exact hmem
    · split at h
      · obtain ⟨_, -, h⟩ := Outcome.bind_eq_ret.mp h
        cases h
        exact hmem
      · cases h
        exact hmem
  · cases h
    rfl

theorem chooseVadAtAddress_mem (h : s.chooseVadAtAddress fuel this address size = .ret r) :
    r.2.2.mem = s.mem := by
  unfold chooseVadAtAddress at h
  split at h
  · cases h
    rfl
  split at h
  · cases h
    rfl
  obtain ⟨⟨status, out⟩, -, h⟩ := Outcome.bind_eq_ret.mp h
  split at h
  · exact chooseAtAddressFrom_mem h
  · cases h
    rfl

end Choice

end VadMem

end LtMicros
