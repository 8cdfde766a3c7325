import LtMicros.VadAtAddress
import LtMicros.VadSplit

/-!
# `AllocateAtAddress` and what was asked for

When the search comes to the vad that holds the address, a vad that starts at the address is
reserved. It is what was asked for when the split loses nothing that matters.
-/

namespace LtMicros

open Lib

namespace VadMem

variable {s s' s₁ s₂ : VadMem} {head v w x n fuel : ℕ} {l l' l₁ l₂ : List ℕ}
  {a address size pd : U32} {pds : List U32} {reserve : Bool} {status : KeStatus}

/-! ## What is asked for -/

/-- The byte is in the asked range, rounded up to whole pages, or in the page behind it. -/
def InAsked (address size a : U32) : Prop :=
  address ≤ a ∧
    a.toNat < address.toNat + (size.toNat + pageSize - 1) / pageSize * pageSize + pageSize

/-- The call has to leave the status of the byte. -/
def Outside (s : VadMem) (l : List ℕ) (address size a : U32) : Prop :=
  s.statusOf l a = some false ∨ ¬InAsked address size a

/-- The vad is what was asked for, and the other bytes have the status of before. -/
structure Grants (s s' : VadMem) (head : ℕ) (l : List ℕ) (address size : U32) (v : ℕ) : Prop where
  base : (s'.vads v).baseAddress = address
  used : (s'.vads v).free = false
  covers : address.toNat + size.toNat ≤ (s'.vads v).limitAddress.toNat
  kept : ∃ l', Chain s'.next (some head) l' ∧ v ∈ l' ∧
    ∀ a, s.Outside l address size a → s'.statusOf l' a = s.statusOf l a

/-- The call succeeds with what was asked for where it is available, and fails with the
vads as they were where it is not. -/
def GrantsExactly (s : VadMem) (head : ℕ) (l : List ℕ) (address size pd : U32)
    (reserve : Bool) : Prop :=
  (s.Available l address size → ∃ fuel v s',
    s.allocateAtAddress fuel head address size pd reserve = .ret (.statusSuccess, some v, s') ∧
      s.Grants s' head l address size v) ∧
  (¬s.Available l address size → ∃ fuel status s',
    s.allocateAtAddress fuel head address size pd reserve = .ret (status, none, s') ∧
      failed status = true ∧ ∀ w ∈ l, s'.vads w = s.vads w)

/-- From an address on, up to the end of the process range, the call may change all bytes. -/
def SparesTail (s : VadMem) (l : List ℕ) (address size : U32) (start : ℕ) : Prop :=
  ∀ a : U32, start ≤ a.toNat → a < vProcessLimitAddr → ¬s.Outside l address size a

/-- `SplitAtAddress` refuses the vad. -/
def Refuses (s : VadMem) (w : ℕ) (address size : U32) : Prop :=
  (s.vads w).size - size < vadMinimumDelta ∨ (s.vads w).limitAddress - address < size

instance (s : VadMem) (w : ℕ) (address size : U32) : Decidable (s.Refuses w address size) :=
  inferInstanceAs (Decidable (_ ∨ _))

/-- The vad that holds the address is split as it has to be, and its pages can be mapped. -/
structure Serves (s : VadMem) (l : List ℕ) (w : ℕ) (address size : U32) : Prop where
  split : (s.vads w).baseAddress = address ∨ ¬(s.vads w).size - size < vadMinimumDelta
  tail : s.SplitsBehind w address size → s.SparesTail l address size (s.hi w)
  ends : (s.grantLimit w address size).toNat ≤ 2 ^ 32 - 4096 + address.toNat % 4096

/-- The vad ends before the address. What lies between them is free, and little lies behind
the pages that are asked for. -/
structure Bridges (s : VadMem) (l : List ℕ) (w : ℕ) (address size : U32) : Prop where
  available : s.Available l address size
  split : s.SplitsBehind w address size
  between : ∀ a : U32, s.hi w ≤ a.toNat → a < address → s.statusOf l a = some true
  fits : address.toNat + (pagesOf size).toNat < 2 ^ 32
  tail : s.SparesTail l address size (address.toNat + (pagesOf size).toNat)

/-- The condition on the vad with which the search for the address ends. -/
def GrantGuard (s : VadMem) (l : List ℕ) (address size : U32) : Prop :=
  ∀ w, s.stopVad address size l = some w →
    if s.contains address w then s.Available l address size → s.Serves l w address size
    else if s.Refuses w address size then ¬s.Available l address size
    else s.Bridges l w address size

/-! ## The status of the bytes of a partition -/

theorem Partition.status_below (h : Partition s head (l₁ ++ w :: l₂)) (ha : a.toNat < s.hi w) :
    s.statusOf (l₁ ++ [w]) a = s.statusOf (l₁ ++ w :: l₂) a := by
  obtain ⟨-, -, htail⟩ := Tiles.mid_iff.mp h.tiles
  have hnone : s.statusOf l₂ a = none := by
    apply statusOf_eq_none
    intro x hx
    apply Bool.eq_false_iff.mpr
    intro hc
    have hx := (htail.mem_bounds hx).1
    have hc := (contains_iff.mp hc).1
    omega
  rw [statusOf_append, statusOf_append, statusOf_cons, statusOf_cons, hnone]
  rfl

theorem Partition.status_front (h : Partition s head (l₁ ++ w :: l₂)) (ha : s.lo w ≤ a.toNat) :
    s.statusOf l₁ a = none := by
  obtain ⟨hfront, -, -⟩ := Tiles.mid_iff.mp h.tiles
  apply statusOf_eq_none
  intro x hx
  apply Bool.eq_false_iff.mpr
  intro hc
  have hx := (hfront.mem_bounds hx).2.2
  have hc := (contains_iff.mp hc).2
  omega

theorem Partition.status_lost (h : Partition s head (l₁ ++ w :: l₂)) (ha : s.hi w ≤ a.toNat) :
    s.statusOf (l₁ ++ [w]) a = none := by
  have hlt := h.lt (v := w) (by simp)
  have hlt : s.lo w < s.hi w := hlt
  rw [statusOf_append, h.status_front (by omega), statusOf_cons, if_neg]
  · rfl
  · intro hc
    have hc := (contains_iff.mp hc).2
    omega

theorem Partition.status_some (h : Partition s head l) (hlo : vProcessBaseAddr ≤ a)
    (hhi : a < vProcessLimitAddr) : ∃ b, s.statusOf l a = some b := by
  obtain ⟨v, hv, hc⟩ := h.tiles.exists_mem hlo hhi
  unfold statusOf
  cases hf : l.find? (s.contains a) with
  | none =>
    have hnot := List.find?_eq_none.mp hf v hv
    exact absurd (contains_iff.mpr hc) hnot
  | some x => exact ⟨_, rfl⟩

theorem Partition.status_end (h : Partition s head l) (ha : ¬a < vProcessLimitAddr) :
    s.statusOf l a = none := by
  have ha : vProcessLimitAddr.toNat ≤ a.toNat := BitVec.not_lt.mp ha
  apply statusOf_eq_none
  intro x hx
  apply Bool.eq_false_iff.mpr
  intro hc
  have hx := (h.tiles.mem_bounds hx).2.2
  have hc := (contains_iff.mp hc).2
  omega

/-! ## The limit of the granted vad -/

/-- The pages that a split leaves are in the asked range. -/
theorem inAsked_pages (h0 : size ≠ 0) (hsize : size.toNat + pageSize < 2 ^ 32) (hle : address ≤ a)
    (hlt : a.toNat < address.toNat + (pagesOf size).toNat) : InAsked address size a := by
  refine ⟨hle, ?_⟩
  rw [pagesOf_toNat h0 hsize] at hlt
  unfold pageSize at hlt ⊢
  omega

theorem grantLimit_bounds (h0 : size ≠ 0) (hhi : address < (s.vads w).limitAddress)
    (hroom : size ≤ (s.vads w).limitAddress - address) :
    address.toNat + size.toNat ≤ (s.grantLimit w address size).toNat ∧
      (s.grantLimit w address size).toNat ≤ s.hi w ∧
      ∀ a, address ≤ a → a < s.grantLimit w address size → InAsked address size a := by
  have hsub : ((s.vads w).limitAddress - address).toNat = s.hi w - address.toNat :=
    BitVec.toNat_sub_of_le (BitVec.le_of_lt hhi)
  have hrest := BitVec.toNat_sub_of_le hroom
  have hroom' : size.toNat ≤ ((s.vads w).limitAddress - address).toNat := hroom
  have hlimit : s.hi w < 2 ^ 32 := (s.vads w).limitAddress.isLt
  have hdelta : vadMinimumDelta.toNat = 4096 := rfl
  unfold grantLimit
  split
  · rename_i hsplits
    have hsplits' : vadMinimumDelta.toNat < ((s.vads w).limitAddress - address - size).toNat :=
      hsplits
    have hsize : size.toNat + pageSize < 2 ^ 32 := by
      unfold pageSize
      omega
    obtain ⟨hpages, -⟩ := pagesOf_bounds h0 hsize
    obtain ⟨hbehind, hinside, -⟩ := split_mid h0 hhi hroom hsplits
    have hbehind : address.toNat < (address + pagesOf size).toNat := hbehind
    have hinside : (address + pagesOf size).toNat < s.hi w := hinside
    have hend : (address + pagesOf size).toNat = address.toNat + (pagesOf size).toNat := by
      rw [BitVec.toNat_add] at hbehind ⊢
      have hmax := (pagesOf size).isLt
      omega
    refine ⟨by omega, by omega, ?_⟩
    intro a hle hlt
    apply inAsked_pages h0 hsize hle
    rw [← hend]
    exact hlt
  · rename_i hsplits
    have hsplits' : ((s.vads w).limitAddress - address - size).toNat ≤ vadMinimumDelta.toNat :=
      BitVec.not_lt.mp hsplits
    have hhi' : address.toNat < s.hi w := hhi
    have hend : (s.vads w).limitAddress.toNat = s.hi w := rfl
    rw [hend]
    refine ⟨by omega, le_refl _, ?_⟩
    intro a hle hlt
    have hlt : a.toNat < s.hi w := hlt
    refine ⟨hle, ?_⟩
    unfold pageSize
    omega

/-! ## The call and its two parts -/

theorem reserveAndReturn_mono {r : KeStatus × Option ℕ × VadMem}
    (hr : s.reserveAndReturn fuel v pd reserve = .ret r) (n : ℕ) :
    s.reserveAndReturn (fuel + n) v pd reserve = .ret r := by
  unfold reserveAndReturn reservePages at hr ⊢
  obtain ⟨r₁, hreserve, hr⟩ := Outcome.bind_eq_ret.mp hr
  obtain ⟨r₂, hloop, hreserve⟩ := Outcome.bind_eq_ret.mp hreserve
  dsimp only
  rw [Outcome.loop_mono hloop n, Outcome.ret_bind, hreserve]
  exact hr

theorem reserveChosen_mono {c r : KeStatus × Option ℕ × VadMem}
    (hr : reserveChosen fuel pd reserve c = .ret r) (n : ℕ) :
    reserveChosen (fuel + n) pd reserve c = .ret r := by
  unfold reserveChosen at hr ⊢
  split at hr
  · exact reserveAndReturn_mono hr n
  · exact hr

theorem chooseVadAtAddress_mono {c : KeStatus × Option ℕ × VadMem}
    (hchoose : s.chooseVadAtAddress n head address size = .ret c) (m : ℕ) :
    s.chooseVadAtAddress (n + m) head address size = .ret c := by
  have hop : (VadOp.allocateAtAddress address size 0 false).choose n s head = .ret c := hchoose
  exact VadOp.choose_mono hop m

/-- The two parts of the call, each with turns enough. -/
theorem allocateAtAddress_of {c r : KeStatus × Option ℕ × VadMem}
    (hchoose : s.chooseVadAtAddress n head address size = .ret c)
    (hreserve : reserveChosen fuel pd reserve c = .ret r) :
    ∃ fuel, s.allocateAtAddress fuel head address size pd reserve = .ret r := by
  refine ⟨n + fuel, ?_⟩
  rw [allocateAtAddress_eq, chooseVadAtAddress_mono hchoose fuel, Outcome.ret_bind, Nat.add_comm]
  exact reserveChosen_mono hreserve n

/-- What the call returns comes from what it has chosen. -/
theorem allocateAtAddress_inv {c r : KeStatus × Option ℕ × VadMem}
    (hchoose : s.chooseVadAtAddress n head address size = .ret c)
    (hr : s.allocateAtAddress fuel head address size pd reserve = .ret r) :
    reserveChosen fuel pd reserve c = .ret r := by
  rw [allocateAtAddress_eq] at hr
  obtain ⟨c', hchoose', hr⟩ := Outcome.bind_eq_ret.mp hr
  have hmono' := chooseVadAtAddress_mono hchoose' n
  rw [Nat.add_comm, chooseVadAtAddress_mono hchoose fuel] at hmono'
  rw [Outcome.ret.inj hmono']
  exact hr

theorem EndsAt.choose (h : EndsAt s head l₁ w l₂ address size) (ha : address ≠ 0)
    (h0 : size ≠ 0) :
    ∃ n, s.chooseVadAtAddress n head address size = s.chooseAtAddressFrom w address size := by
  obtain ⟨n, hsearch⟩ := h.search
  refine ⟨n, ?_⟩
  rw [chooseVadAtAddress, if_neg ha, if_neg h0, hsearch, Outcome.ret_bind]

/-! ## Reserving the chosen vad -/

theorem reserveAndReturn_ends (hs : Spaces s.mem pds) (hd : pd ∈ pds)
    (hbase : vUserBaseAddr ≤ (s.vads v).baseAddress)
    (hbound : (s.vads v).limitAddress.toNat ≤
      2 ^ 32 - 4096 + (s.vads v).baseAddress.toNat % 4096) (reserve : Bool) :
    ∃ fuel s', s.reserveAndReturn fuel v pd reserve = .ret (.statusSuccess, some v, s') := by
  obtain ⟨fuel, s', hreserve⟩ :=
    (@reservePages_success_iff s v pd pds reserve hs hd hbase).mpr hbound
  refine ⟨fuel, s', ?_⟩
  rw [reserveAndReturn, hreserve, Outcome.ret_bind]
  rfl

theorem reserveAndReturn_bound (hs : Spaces s.mem pds) (hd : pd ∈ pds)
    (hbase : vUserBaseAddr ≤ (s.vads v).baseAddress)
    (hr : s.reserveAndReturn fuel v pd reserve = .ret (.statusSuccess, some x, s')) :
    (s.vads v).limitAddress.toNat ≤ 2 ^ 32 - 4096 + (s.vads v).baseAddress.toNat % 4096 := by
  apply (@reservePages_success_iff s v pd pds reserve hs hd hbase).mp
  obtain ⟨⟨st, s₁⟩, hreserve, hr⟩ := Outcome.bind_eq_ret.mp hr
  split at hr
  · rename_i heq
    cases heq
    exact ⟨fuel, _, hreserve⟩
  · cases hr

section Reserved

variable (hr : s.reserveAndReturn fuel v pd reserve = .ret (status, some v, s'))
include hr

theorem reserved_contains (a : U32) : s'.contains a = s.contains a := by
  obtain ⟨-, hsame, -, -⟩ := reserveAndReturn_spec hr
  funext x
  rw [contains, contains, hsame]

theorem reserved_chain {p : Option ℕ} : Chain s'.next p l ↔ Chain s.next p l := by
  obtain ⟨-, hsame, -, -⟩ := reserveAndReturn_spec hr
  apply Seg.congr
  intro x _
  rw [VadMem.next, VadMem.next, hsame]

/-- Reserving a vad leaves the status of the bytes that it does not hold, and of those that
were used. -/
theorem reserved_status (h : s.contains a v = false ∨ s.statusOf l a = some false) :
    s'.statusOf l a = s.statusOf l a := by
  obtain ⟨-, -, hused, -⟩ := reserveAndReturn_spec hr
  rcases h with hc | hfalse
  · apply statusOf_congr
    intro x _
    refine ⟨congrFun (reserved_contains hr a) x, ?_⟩
    intro hx
    have hne : x ≠ v := by
      rintro rfl
      rw [hc] at hx
      cases hx
    rw [reserveAndReturn_others hne hr]
  · rw [hfalse]
    unfold statusOf at hfalse ⊢
    obtain ⟨x, hx, hfree⟩ := Option.map_eq_some_iff.mp hfalse
    rw [reserved_contains hr a, hx, Option.map_some, hused x hfree]

/-- The bytes of the reserved vad are used, where no vad before it holds them. -/
theorem reserved_status_self (hfront : s.statusOf l₁ a = none) (hc : s.contains a v = true) :
    s'.statusOf (l₁ ++ v :: l₂) a = some false := by
  obtain ⟨-, -, -, hout⟩ := reserveAndReturn_spec hr
  have hnone : s'.statusOf l₁ a = none := by
    unfold statusOf at hfront ⊢
    rw [reserved_contains hr a]
    rw [Option.map_eq_none_iff] at hfront ⊢
    exact hfront
  rw [statusOf_append, hnone, statusOf_cons, reserved_contains hr a, if_pos hc, (hout v rfl).2]
  rfl

end Reserved

/-- With a split that fails, the call fails. -/
theorem chooseAtAddressFrom_fails (hbase : (s.vads w).baseAddress ≠ address)
    (hsplit : s.splitAtAddress w address size = (status, s₁)) (hfailed : failed status = true) :
    s.chooseAtAddressFrom w address size = .ret (status, none, s₁) := by
  rw [chooseAtAddressFrom, if_pos (.inl hbase), hsplit]
  exact if_pos hfailed

/-- After a split inside of the vad, the one behind it is chosen. -/
theorem chooseAtAddressFrom_next (hbase : (s.vads w).baseAddress ≠ address)
    (hsplit : s.splitAtAddress w address size = (.statusSuccess, s₁))
    (hsame : (s₁.vads w).baseAddress = (s.vads w).baseAddress) (hnext : s₁.next w = some v) :
    s.chooseAtAddressFrom w address size = .ret (.statusSuccess, some v, s₁) := by
  rw [chooseAtAddressFrom, if_pos (.inl hbase), hsplit]
  show (if (s₁.vads w).baseAddress ≠ address then _ else _) = _
  rw [hsame, if_pos hbase, hnext]
  rfl

/-! ## The search comes to the vad that holds the address -/

/-- The vad that starts at the address is split off, unless the vad that holds it is refused. -/
theorem Partition.selects (h : Partition s head (l₁ ++ w :: l₂))
    (hall : s.Allocated (l₁ ++ w :: l₂)) (hfree : (s.vads w).free = true) (ha : address ≠ 0)
    (h0 : size ≠ 0) (hc : s.contains address w = true)
    (hroom : size ≤ (s.vads w).limitAddress - address)
    (hsplit : (s.vads w).baseAddress = address ∨ ¬(s.vads w).size - size < vadMinimumDelta) :
    ∃ s₁ v l', s.chooseAtAddressFrom w address size = .ret (.statusSuccess, some v, s₁) ∧
      s.Selects s₁ head (s.kept l₁ w l₂ address size) address (s.grantLimit w address size)
        v l' := by
  have hw : w ∈ l₁ ++ w :: l₂ := by simp
  obtain ⟨hle, hhi⟩ := contains_eq_true.mp hc
  have hsize := BitVec.le_trans hroom (h.room_le hw hc)
  by_cases hbase : (s.vads w).baseAddress = address
  · have hwhole : (s.vads w).size = (s.vads w).limitAddress - address := by
      rw [h.size w hw, hbase]
    by_cases hdelta : s.SplitsBehind w address size
    · have hdelta' : vadMinimumDelta < (s.vads w).size - size := by
        rw [hwhole]
        exact hdelta
      obtain ⟨s₁, hs₁, hselects⟩ := h.selects_split hall hfree h0 hsize hdelta'
      rw [hbase] at hselects
      refine ⟨s₁, w, l₁ ++ [w, s.heapTop], ?_, ?_⟩
      · have heq := splitAtAddress_eq h0 ha hsize (BitVec.not_lt.mpr (BitVec.le_of_lt hdelta'))
        rw [if_neg (not_not.mpr hbase), hs₁] at heq
        rw [chooseAtAddressFrom, if_pos (.inr hdelta'), heq]
        show (if (s₁.vads w).baseAddress ≠ address then _ else _) = _
        rw [if_neg (not_not.mpr hselects.base)]
      · rw [kept, if_pos hdelta, grantLimit, if_pos hdelta]
        exact hselects
    · -- the vad is taken as it is
      refine ⟨s, w, l₁ ++ w :: l₂, ?_, ?_⟩
      · rw [chooseAtAddressFrom, if_neg]
        rintro (hne | hlarge)
        · exact hne hbase
        · rw [hwhole] at hlarge
          exact hdelta hlarge
      · rw [kept, if_neg hdelta, grantLimit, if_neg hdelta]
        exact ⟨h.chain, hw, hbase, rfl, fun _ => rfl⟩
  · have hnot := hsplit.resolve_left hbase
    have hlo : (s.vads w).baseAddress < address := BitVec.lt_of_le_ne hle hbase
    obtain ⟨s₁, l', hs₁, hnext, hsame, hselects⟩ :=
      h.selects_inside hall hfree h0 hroom hlo hhi
    refine ⟨s₁, s.heapTop, l', ?_, hselects⟩
    have heq := splitAtAddress_eq h0 ha hsize hnot
    rw [if_pos hbase, hs₁] at heq
    exact chooseAtAddressFrom_next hbase heq hsame hnext

theorem Partition.user_of_le (h : Partition s head l) (hw : w ∈ l)
    (hle : (s.vads w).baseAddress ≤ address) :
    vUserBaseAddr ≤ address := by
  have hbase : vProcessBaseAddr.toNat ≤ s.lo w := (h.tiles.mem_bounds hw).1
  exact Nat.le_trans hbase hle

/-- What remains of the list has the status of before, but for the bytes that are lost. -/
theorem Partition.status_kept (h : Partition s head (l₁ ++ w :: l₂))
    (ha : ¬(s.SplitsBehind w address size ∧ s.hi w ≤ a.toNat ∧ a < vProcessLimitAddr)) :
    s.statusOf (s.kept l₁ w l₂ address size) a = s.statusOf (l₁ ++ w :: l₂) a := by
  unfold kept
  split
  · rename_i hsplits
    by_cases hlt : a.toNat < s.hi w
    · exact h.status_below hlt
    · have hend : ¬a < vProcessLimitAddr := by
        intro hlimit
        exact ha ⟨hsplits, Nat.le_of_not_lt hlt, hlimit⟩
      rw [h.status_lost (Nat.le_of_not_lt hlt), h.status_end hend]
  · rfl

/-- The status of a byte that the call has to leave, once the chosen vad is reserved. -/
theorem Selects.reserved (h : s.Selects s₁ head (s.kept l₁ w l₂ address size) address
      (s.grantLimit w address size) v l') (hpart : Partition s head (l₁ ++ w :: l₂))
    (h0 : size ≠ 0) (hhi : address < (s.vads w).limitAddress)
    (hroom : size ≤ (s.vads w).limitAddress - address)
    (hr : s₁.reserveAndReturn fuel v pd reserve = .ret (status, some v, s'))
    (ha : s.Outside (l₁ ++ w :: l₂) address size a) :
    s'.statusOf l' a = s.statusOf (s.kept l₁ w l₂ address size) a := by
  obtain ⟨-, hlimit, hasked⟩ := grantLimit_bounds h0 hhi hroom
  rw [← h.status a]
  apply reserved_status hr
  by_cases hc : s₁.contains a v = true
  · -- the byte is asked for, so it was in a used vad
    right
    obtain ⟨hle, hlt⟩ := contains_eq_true.mp hc
    rw [h.base] at hle
    rw [h.limit] at hlt
    have hused := ha.resolve_right (not_not.mpr (hasked a hle hlt))
    rw [h.status a, hpart.status_kept, hused]
    rintro ⟨-, hlost, -⟩
    have hlt : a.toNat < (s.grantLimit w address size).toNat := hlt
    omega
  · exact .inl (Bool.eq_false_iff.mpr hc)

/-- The call grants what is asked for from the vad that holds the address. -/
theorem Partition.grants (h : Partition s head (l₁ ++ w :: l₂))
    (hall : s.Allocated (l₁ ++ w :: l₂)) (hs : Spaces s.mem pds) (hd : pd ∈ pds)
    (ha : address ≠ 0) (h0 : size ≠ 0) (hend : EndsAt s head l₁ w l₂ address size)
    (hc : s.contains address w = true) (hroom : size ≤ (s.vads w).limitAddress - address)
    (hserves : s.Serves (l₁ ++ w :: l₂) w address size) (reserve : Bool) :
    ∃ fuel v s',
      s.allocateAtAddress fuel head address size pd reserve = .ret (.statusSuccess, some v, s') ∧
        s.Grants s' head (l₁ ++ w :: l₂) address size v := by
  obtain ⟨hle, hhi⟩ := contains_eq_true.mp hc
  obtain ⟨n, hchoose⟩ := hend.choose ha h0
  obtain ⟨s₁, v, l', hfrom, hselects⟩ := h.selects hall hend.free ha h0 hc hroom hserves.split
  rw [hfrom] at hchoose
  have hmem : s₁.mem = s.mem := chooseAtAddressFrom_mem hfrom
  have hs₁ : Spaces s₁.mem pds := by
    rw [hmem]
    exact hs
  obtain ⟨fuel, s', hr⟩ := reserveAndReturn_ends (v := v) hs₁ hd
    (by rw [hselects.base]; exact h.user_of_le (w := w) (by simp) hle)
    (by rw [hselects.base, hselects.limit]; exact hserves.ends) reserve
  obtain ⟨fuel', hcall⟩ := allocateAtAddress_of hchoose
    (show reserveChosen fuel pd reserve (.statusSuccess, some v, s₁) = _ from hr)
  obtain ⟨-, hsame, -, hout⟩ := reserveAndReturn_spec hr
  obtain ⟨hcovers, -, -⟩ := grantLimit_bounds h0 hhi hroom
  refine ⟨fuel', v, s', hcall, ?_⟩
  constructor
  · rw [hsame]
    exact hselects.base
  · exact (hout v rfl).2
  · rw [hsame, hselects.limit]
    exact hcovers
  · refine ⟨l', (reserved_chain hr).mpr hselects.chain, hselects.mem, ?_⟩
    intro a hout
    rw [hselects.reserved h h0 hhi hroom hr hout]
    apply h.status_kept
    rintro ⟨hsplits, hlost, hlimit⟩
    exact hserves.tail hsplits a hlost hlimit hout

/-- Where the call grants it, the vad that holds the address has been split as it has to be. -/
theorem Partition.serves (h : Partition s head (l₁ ++ w :: l₂))
    (hall : s.Allocated (l₁ ++ w :: l₂)) (hs : Spaces s.mem pds) (hd : pd ∈ pds)
    (ha : address ≠ 0) (h0 : size ≠ 0) (hend : EndsAt s head l₁ w l₂ address size)
    (hc : s.contains address w = true) (hroom : size ≤ (s.vads w).limitAddress - address)
    (hr : s.allocateAtAddress fuel head address size pd reserve =
      .ret (.statusSuccess, some x, s'))
    (hgrants : s.Grants s' head (l₁ ++ w :: l₂) address size x) :
    s.Serves (l₁ ++ w :: l₂) w address size := by
  obtain ⟨hle, hhi⟩ := contains_eq_true.mp hc
  obtain ⟨n, hchoose⟩ := hend.choose ha h0
  have hsplit : (s.vads w).baseAddress = address ∨
      ¬(s.vads w).size - size < vadMinimumDelta := by
    by_contra hnot
    obtain ⟨hbase, hsmall⟩ := not_or.mp hnot
    obtain ⟨st, hfails, hfailed⟩ := splitAtAddress_fails h0 ha hbase (.inl (not_not.mp hsmall))
    rw [chooseAtAddressFrom_fails hbase hfails hfailed] at hchoose
    have hr := allocateAtAddress_inv hchoose hr
    rw [reserveChosen_failed (failed_eq_true.mp hfailed)] at hr
    cases hr
  obtain ⟨s₁, v, l', hfrom, hselects⟩ := h.selects hall hend.free ha h0 hc hroom hsplit
  rw [hfrom] at hchoose
  have hr : s₁.reserveAndReturn fuel v pd reserve = .ret (.statusSuccess, some x, s') :=
    allocateAtAddress_inv hchoose hr
  have hmem : s₁.mem = s.mem := chooseAtAddressFrom_mem hfrom
  obtain ⟨-, hsame, -, hout⟩ := reserveAndReturn_spec hr
  obtain ⟨rfl, -⟩ := hout x rfl
  refine ⟨hsplit, ?_, ?_⟩
  · intro hsplits a hlost hlimit hout
    obtain ⟨l'', hchain, -, hkept⟩ := hgrants.kept
    obtain rfl := ((reserved_chain hr).mp hchain).unique hselects.chain
    have hstatus := hselects.reserved h h0 hhi hroom hr hout
    rw [hkept a hout, kept, if_pos hsplits, h.status_lost hlost] at hstatus
    -- but a byte of the process range has a status
    have hrange : vProcessBaseAddr ≤ a := by
      have hlt : s.lo w < s.hi w := h.lt (by simp)
      exact h.user_of_le (w := w) (by simp) (show s.lo w ≤ a.toNat by omega)
    obtain ⟨b, hb⟩ := h.status_some hrange hlimit
    rw [hb] at hstatus
    cases hstatus
  · have hbound := reserveAndReturn_bound (by rw [hmem]; exact hs) hd
      (by rw [hselects.base]; exact h.user_of_le (w := w) (by simp) hle) hr
    rw [hselects.base, hselects.limit] at hbound
    exact hbound

end VadMem

end LtMicros
