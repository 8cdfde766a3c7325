import LtMicros.UserMappings

/-!
# Memory for a process

`AllocateMemory` and `AllocateMemoryAtAddress`, and the addresses that they
reserve, as they follow from the vad that is found.
-/

namespace LtMicros

open Lib

/-! ## The calls -/

namespace Process

/-- `Process::AllocateMemory`. The value stored in `*outAddress` is part of the
result. -/
def allocateMemory (fuel : ℕ) (this : Process) (s : VadMem) (size : U32)
    (reservePhysicalPages : Bool) (outAddress : U32) :
    Outcome (KeStatus × Option U32 × VadMem) :=
  if size = 0 then .ret (.statusInvalidParameter, none, s)
  else if outAddress = 0 then .ret (.statusNullParameter, none, s)
  else do
    let (status, newVad, s) ←
      s.allocate fuel this.baseVad size this.pdEntry reservePhysicalPages
    if failed status then return (status, none, s)
    else
      let newVad ← .ofOption newVad
      return (.statusSuccess, some (s.vads newVad).baseAddress, s)

/-- `Process::AllocateMemoryAtAddress`. -/
def allocateMemoryAtAddress (fuel : ℕ) (this : Process) (s : VadMem) (address : U32)
    (reservePhysicalPages : Bool) (size : U32) : Outcome (KeStatus × VadMem) :=
  if address = 0 then .ret (.statusNullParameter, s)
  else if size = 0 then .ret (.statusInvalidParameter, s)
  else do
    let (status, _, s) ←
      s.allocateAtAddress fuel this.baseVad address size this.pdEntry reservePhysicalPages
    if failed status then return (status, s)
    else return (.statusSuccess, s)

end Process

namespace VadMem

/-- Where the vad ends that starts at `address` when `size` bytes are allocated
from `v`: behind their pages if more than a page is left, else at the end of `v`. -/
def reservedLimit (s : VadMem) (v : ℕ) (address size : U32) : U32 :=
  let room := if (s.vads v).baseAddress ≠ address then (s.vads v).limitAddress - address
    else (s.vads v).size
  if vadMinimumDelta < room - size then address + pagesOf size else (s.vads v).limitAddress

/-- `Allocate` finds a vad, and reserving it passes the address `u`. -/
def AllocatePasses (s : VadMem) (this : ℕ) (size u : U32) : Prop :=
  ∃ fuel v, s.lookForFreeVadOfMinimumSize fuel this size = .ret (.statusSuccess, some v) ∧
    Passes (s.vads v).baseAddress (s.reservedLimit v (s.vads v).baseAddress size) u

/-- The same for `AllocateAtAddress`. -/
def AllocateAtPasses (s : VadMem) (this : ℕ) (address size u : U32) : Prop :=
  ∃ fuel v, s.lookForFreeVadAtAddressOfMinimumSize fuel this address size =
      .ret (.statusSuccess, some v) ∧ Passes address (s.reservedLimit v address size) u

/-- Every vad that is allocated is followed by another one, or by none. -/
def Closed (s : VadMem) : Prop := ∀ v < s.heapTop, ∀ w, s.next v = some w → w < s.heapTop

/-- What all calls keep of the vads. -/
structure Grows (s s' : VadMem) : Prop where
  heapTop : s.heapTop ≤ s'.heapTop
  closed : s.Closed → s'.Closed

section Vads

variable {s s' s'' : VadMem} {this v w fuel : ℕ} {address size : U32} {status : KeStatus}
  {f : Vad → Vad}

/-! ### Pointers to vads -/

theorem Grows.refl (s : VadMem) : Grows s s := ⟨Nat.le_refl _, id⟩

theorem Grows.trans (h : Grows s s') (h' : Grows s' s'') : Grows s s'' :=
  ⟨h.heapTop.trans h'.heapTop, fun hs => h'.closed (h.closed hs)⟩

/-- The links are what they were. -/
theorem Grows.of_next (hnext : ∀ v, s'.next v = s.next v) (htop : s'.heapTop = s.heapTop) :
    Grows s s' := by
  constructor
  · exact Nat.le_of_eq htop.symm
  · intro hs v hv w hw
    rw [hnext] at hw
    rw [htop] at hv ⊢
    exact hs v hv w hw

theorem grows_mem (s : VadMem) (mem : KernelMem) : Grows s { s with mem } :=
  .of_next (fun _ => rfl) rfl

theorem grows_store (hf : ∀ w, (f (s.vads v)).next = some w → w < s.heapTop) :
    Grows s (s.store v f) := by
  constructor
  · exact Nat.le_refl _
  · intro hs u hu w hw
    by_cases huv : u = v
    · rw [next, huv, store_self] at hw
      exact hf w hw
    · rw [next, store_of_ne s huv] at hw
      exact hs u hu w hw

theorem grows_store_next (hf : (f (s.vads v)).next = (s.vads v).next) : Grows s (s.store v f) := by
  apply Grows.of_next
  · intro u
    by_cases huv : u = v
    · rw [next, huv, store_self, hf]
      rfl
    · rw [next, store_of_ne s huv]
      rfl
  · rfl

theorem grows_setPreviousIf (s : VadMem) (v p : Option ℕ) : Grows s (s.setPreviousIf v p) := by
  cases v with
  | none => exact .refl s
  | some v => exact grows_store_next (f := fun vad => { vad with previous := p }) rfl

theorem heapTop_setPreviousIf (s : VadMem) (v p : Option ℕ) :
    (s.setPreviousIf v p).heapTop = s.heapTop := by
  cases v <;> rfl

/-- A vad whose `previous` is set keeps its other fields. -/
theorem setPreviousIf_keeps (s : VadMem) (w p : Option ℕ) (v : ℕ) :
    Keeps s (s.setPreviousIf w p) v := by
  cases w with
  | none => exact ⟨_, rfl⟩
  | some w =>
    by_cases hv : v = w
    · refine ⟨p, ?_⟩
      rw [hv]
      exact store_self s w fun vad => { vad with previous := p }
    · exact ⟨_, s.store_of_ne hv fun vad => { vad with previous := p }⟩

/-- `Create` fails, or makes the next vad. -/
theorem create_cases (s : VadMem) (base size : U32) (free : Bool) :
    (∃ status, s.create base size free = (status, none, s) ∧ failed status = true) ∨
    s.create base size free = (.statusSuccess, some s.heapTop,
      { s with
        vads := Function.update s.vads s.heapTop ⟨base, base + size, size, free, none, none⟩
        heapTop := s.heapTop + 1 }) := by
  by_cases hbase : base = 0
  · exact .inl ⟨_, if_pos hbase, rfl⟩
  by_cases hsize : size = 0
  · refine .inl ⟨.statusInvalidParameter, ?_, rfl⟩
    rw [create, if_neg hbase, if_pos hsize]
  · exact .inr (s.create_spec hbase hsize free)

theorem grows_insert {vad : Vad} (hnext : vad.next = none) :
    Grows s { s with
      vads := Function.update s.vads s.heapTop vad, heapTop := s.heapTop + 1 } := by
  constructor
  · exact Nat.le_succ _
  · intro hs v hv w hw
    dsimp only [next] at hv hw ⊢
    by_cases htop : v = s.heapTop
    · rw [htop, Function.update_self, hnext] at hw
      cases hw
    · rw [Function.update_of_ne htop] at hw
      exact (hs v (by omega) w hw).trans (Nat.lt_succ_self _)

theorem grows_create (s : VadMem) (base size : U32) (free : Bool) :
    Grows s (s.create base size free).2.2 := by
  rcases s.create_cases base size free with ⟨status, hcreate, -⟩ | hcreate
  · rw [hcreate]
    exact .refl s
  · rw [hcreate]
    exact grows_insert rfl

/-- What a successful `Split` leaves. -/
structure SplitOff (s s' : VadMem) (v : ℕ) (size : U32) : Prop where
  base : (s'.vads v).baseAddress = (s.vads v).baseAddress
  limit : (s'.vads v).limitAddress = (s.vads v).baseAddress + pagesOf size
  others : ∀ w, w ≠ v → w ≠ s.heapTop → s'.vads w = s.vads w
  last : s'.next s.heapTop = none
  grows : Grows s s'

/-- `Split` changes nothing, or succeeds. -/
theorem split_cases (hne : v ≠ s.heapTop) (size : U32) :
    (∃ status, s.split v size = (status, s) ∧ failed status = true) ∨
    ∃ s', s.split v size = (.statusSuccess, s') ∧ SplitOff s s' v size := by
  unfold split
  split
  · exact .inl ⟨_, rfl, rfl⟩
  split
  · exact .inl ⟨_, rfl, rfl⟩
  split
  · exact .inl ⟨_, rfl, rfl⟩
  rcases s.create_cases ((s.vads v).baseAddress + pagesOf size) ((s.vads v).size - pagesOf size)
    true with ⟨status, hcreate, hfailed⟩ | hcreate
  · rw [hcreate]
    refine .inl ⟨status, ?_, hfailed⟩
    cases status <;> rfl
  · rw [hcreate]
    refine .inr ⟨_, rfl, ?_⟩
    constructor
    · simp [store, setPreviousIf, VadMem.next, hne]
    · simp [store, setPreviousIf, VadMem.next, hne]
    · intro w hw htop
      simp [store, setPreviousIf, VadMem.next, hw, htop]
    · simp [store, setPreviousIf, VadMem.next, hne.symm]
    · refine ((grows_insert rfl).trans (grows_store_next ?_)).trans
        ((grows_setPreviousIf _ _ _).trans (grows_store ?_))
      · rfl
      · intro w hw
        rw [heapTop_setPreviousIf]
        cases hw
        exact Nat.lt_succ_self _

theorem split_grows (hne : v ≠ s.heapTop) (size : U32) : Grows s (s.split v size).2 := by
  rcases split_cases hne size with ⟨status, hsplit, -⟩ | ⟨s', hsplit, hoff⟩
  · rw [hsplit]
    exact .refl s
  · rw [hsplit]
    exact hoff.grows

/-- A new vad that starts at `address`, behind the vad `v`. -/
structure Inserted (s s' : VadMem) (v : ℕ) (address : U32) : Prop where
  base : (s'.vads v).baseAddress = (s.vads v).baseAddress
  next : s'.next v = some s.heapTop
  start : (s'.vads s.heapTop).baseAddress = address
  limit : (s'.vads s.heapTop).limitAddress = (s.vads v).limitAddress
  size : (s'.vads s.heapTop).size = (s.vads v).limitAddress - address
  heapTop : s'.heapTop = s.heapTop + 1
  grows : Grows s s'

/-- The state in which `SplitAtAddress` has linked the new vad. -/
def insertVad (s : VadMem) (v : ℕ) (address : U32) : VadMem :=
  let secondBlockSize := (s.vads v).limitAddress - address
  let localVad : Vad :=
    { baseAddress := address, limitAddress := address + secondBlockSize, size := secondBlockSize,
      free := true, previous := none, next := none }
  let newVad := s.heapTop
  let s : VadMem :=
    { s with vads := Function.update s.vads newVad localVad, heapTop := newVad + 1 }
  let s := s.store newVad fun vad => { vad with previous := some v, next := (s.vads v).next }
  let s := s.setPreviousIf (s.next newVad) (some newVad)
  s.store v fun vad =>
    { vad with limitAddress := vad.limitAddress - secondBlockSize,
               size := vad.size - secondBlockSize, next := some newVad }

/-- Two stores and a link between them: the one vad has its new fields, the other
its own, up to `previous`. -/
theorem store_link_store {n : ℕ} {g : Vad → Vad} {w p : Option ℕ} (hne : v ≠ n) :
    (∃ previous, (((s.store n f).setPreviousIf w p).store v g).vads v =
      g { s.vads v with previous }) ∧
    ∃ previous, (((s.store n f).setPreviousIf w p).store v g).vads n =
      { f (s.vads n) with previous } := by
  obtain ⟨pv, hv⟩ := setPreviousIf_keeps (s.store n f) w p v
  obtain ⟨pn, hn⟩ := setPreviousIf_keeps (s.store n f) w p n
  rw [store_of_ne s hne] at hv
  rw [store_self] at hn
  constructor
  · refine ⟨pv, ?_⟩
    rw [store_self, hv]
  · refine ⟨pn, ?_⟩
    rw [store_of_ne _ hne.symm, hn]

theorem inserted_insertVad (hlt : v < s.heapTop) (address : U32) :
    Inserted s (s.insertVad v address) v address := by
  have hne := Nat.ne_of_lt hlt
  have hend : address + ((s.vads v).limitAddress - address) = (s.vads v).limitAddress := by
    rw [BitVec.add_comm, BitVec.sub_add_cancel]
  have hold {vad : Vad} : Function.update s.vads s.heapTop vad v = s.vads v :=
    Function.update_of_ne hne _ _
  have hnew {vad : Vad} : Function.update s.vads s.heapTop vad s.heapTop = vad :=
    Function.update_self _ _ _
  unfold insertVad
  dsimp only
  constructor
  · obtain ⟨⟨_, hv⟩, -⟩ := store_link_store hne
    rw [hv]
    dsimp only
    rw [hold]
  · obtain ⟨⟨_, hv⟩, -⟩ := store_link_store hne
    rw [VadMem.next, hv]
  · obtain ⟨-, _, hn⟩ := store_link_store hne
    rw [hn]
    dsimp only
    rw [hnew]
  · obtain ⟨-, _, hn⟩ := store_link_store hne
    rw [hn]
    dsimp only
    rw [hnew, hend]
  · obtain ⟨-, _, hn⟩ := store_link_store hne
    rw [hn]
    dsimp only
    rw [hnew]
  · exact heapTop_setPreviousIf _ _ _
  · constructor
    · show s.heapTop ≤ (setPreviousIf _ _ _).heapTop
      rw [heapTop_setPreviousIf]
      exact Nat.le_succ _
    · intro hs
      refine (grows_store ?_).closed ((grows_setPreviousIf _ _ _).closed
        ((grows_store ?_).closed ((grows_insert rfl).closed hs)))
      · intro w hw
        rw [heapTop_setPreviousIf]
        cases hw
        exact Nat.lt_succ_self _
      · intro w hw
        dsimp only at hw
        rw [hold] at hw
        exact (hs v hlt w hw).trans (Nat.lt_succ_self _)

/-- `SplitAtAddress` inside a vad changes nothing, or inserts a vad and splits it
if it is too large. -/
theorem splitInside_cases (hlt : v < s.heapTop) (address size : U32) :
    (∃ status, s.splitInside v address size = (status, s) ∧ failed status = true) ∨
    s.splitInside v address size =
      if vadMinimumDelta < (s.vads v).limitAddress - address - size then
        (s.insertVad v address).split s.heapTop size
      else (.statusSuccess, s.insertVad v address) := by
  unfold splitInside
  dsimp only
  split
  · exact .inl ⟨_, rfl, rfl⟩
  rcases s.create_cases address ((s.vads v).limitAddress - address) true with
    ⟨status, hcreate, hfailed⟩ | hcreate
  · rw [hcreate]
    refine .inl ⟨status, ?_, hfailed⟩
    cases status <;> rfl
  · right
    rw [hcreate]
    show (if vadMinimumDelta < ((s.insertVad v address).vads s.heapTop).size - size then
      (s.insertVad v address).split s.heapTop size else (.statusSuccess, s.insertVad v address)) = _
    rw [(inserted_insertVad hlt address).size]

theorem splitAtAddress_cases (s : VadMem) (v : ℕ) (address size : U32) :
    (∃ status, s.splitAtAddress v address size = (status, s) ∧ failed status = true) ∨
    s.splitAtAddress v address size =
      if (s.vads v).baseAddress ≠ address then s.splitInside v address size
      else s.split v size := by
  unfold splitAtAddress
  split
  · exact .inl ⟨_, rfl, rfl⟩
  split
  · exact .inl ⟨_, rfl, rfl⟩
  split
  · exact .inl ⟨_, rfl, rfl⟩
  split
  · exact .inl ⟨_, rfl, rfl⟩
  · exact .inr rfl

theorem splitAtAddress_grows (hlt : v < s.heapTop) (address size : U32) :
    Grows s (s.splitAtAddress v address size).2 := by
  rcases s.splitAtAddress_cases v address size with ⟨status, hsplit, -⟩ | hsplit
  · rw [hsplit]
    exact .refl s
  rw [hsplit]
  split
  · have hins := inserted_insertVad hlt address
    rcases splitInside_cases hlt address size with ⟨status, hinside, -⟩ | hinside
    · rw [hinside]
      exact .refl s
    · rw [hinside]
      split
      · refine hins.grows.trans (split_grows ?_ size)
        rw [hins.heapTop]
        exact Nat.ne_of_lt (Nat.lt_succ_self _)
      · exact hins.grows
  · exact split_grows (Nat.ne_of_lt hlt) size

/-! ### The vad that is found -/

theorem lookForFree_lt (hs : s.Closed) (hthis : this < s.heapTop)
    (hr : s.lookForFreeVadOfMinimumSize fuel this size = .ret (.statusSuccess, some v)) :
    v < s.heapTop := by
  unfold lookForFreeVadOfMinimumSize at hr
  split at hr
  · cases hr
  obtain ⟨found, hloop, hr⟩ := Outcome.bind_eq_ret.mp hr
  have hfound := Outcome.loop_invariant (I := fun c : Option ℕ => ∀ w, c = some w → w < s.heapTop)
    (Q := fun c : Option ℕ => ∀ w, c = some w → w < s.heapTop) ?_ ?_ ?_ hloop
  · cases found with
    | none => cases hr
    | some w =>
      cases hr
      exact hfound v rfl
  · rintro c c' hc hturn w rfl
    cases c with
    | none => cases hturn
    | some u =>
      simp only [lookForFreeTurn] at hturn
      split at hturn
      · cases hturn
      · exact hs u (hc u rfl) w (Sum.inl.inj (Outcome.ret.inj hturn))
  · rintro c c' hc hturn w rfl
    cases c with
    | none => cases hturn
    | some u =>
      simp only [lookForFreeTurn] at hturn
      split at hturn
      · cases hturn
        exact hc w rfl
      · cases hturn
  · intro w hw
    cases hw
    exact hthis

/-- The search stays in a set of vads that the links do not leave. -/
theorem lookForFreeAt_mem {P : ℕ → Prop} (hs : ∀ v, P v → ∀ w, s.next v = some w → P w)
    (hthis : P this) (hr : s.lookForFreeVadAtAddressOfMinimumSize fuel this address size =
      .ret (.statusSuccess, some v)) : P v := by
  unfold lookForFreeVadAtAddressOfMinimumSize at hr
  split at hr
  · cases hr
  split at hr
  · cases hr
  have hfound := Outcome.loop_invariant (I := P)
    (Q := fun r : KeStatus × Option ℕ => ∀ w, r.2 = some w → P w) ?_ ?_ hthis hr
  · exact hfound v rfl
  · intro c c' hc hturn
    simp only [lookForFreeAtTurn] at hturn
    split at hturn
    · split at hturn
      · cases hturn
      · cases hturn
    · split at hturn
      · cases hturn
      · rename_i w hw
        split at hturn
        · cases hturn
        · cases hturn
          exact hs c hc c' hw
  · rintro c ⟨status, out⟩ hc hturn w rfl
    simp only [lookForFreeAtTurn] at hturn
    split at hturn
    · split at hturn
      · cases hturn
      · cases hturn
        exact hc
    · split at hturn
      · cases hturn
      · rename_i u hu
        split at hturn
        · cases hturn
          exact hs c hc w hu
        · cases hturn

theorem lookForFreeAt_lt (hs : s.Closed) (hthis : this < s.heapTop)
    (hr : s.lookForFreeVadAtAddressOfMinimumSize fuel this address size =
      .ret (.statusSuccess, some v)) : v < s.heapTop :=
  lookForFreeAt_mem (P := fun v => v < s.heapTop) hs hthis hr

/-- The search does not depend on the number of turns it was given. -/
theorem lookForFree_unique {fuel' : ℕ} {r r' : KeStatus × Option ℕ}
    (hr : s.lookForFreeVadOfMinimumSize fuel this size = .ret r)
    (hr' : s.lookForFreeVadOfMinimumSize fuel' this size = .ret r') : r = r' := by
  unfold lookForFreeVadOfMinimumSize at hr hr'
  split at hr
  · rename_i h0
    rw [if_pos h0] at hr'
    cases hr
    cases hr'
    rfl
  · rename_i h0
    rw [if_neg h0] at hr'
    obtain ⟨found, hloop, hr⟩ := Outcome.bind_eq_ret.mp hr
    obtain ⟨found', hloop', hr'⟩ := Outcome.bind_eq_ret.mp hr'
    cases Outcome.loop_unique hloop hloop'
    exact Outcome.ret.inj (hr.symm.trans hr')

theorem lookForFreeAt_unique {fuel' : ℕ} {r r' : KeStatus × Option ℕ}
    (hr : s.lookForFreeVadAtAddressOfMinimumSize fuel this address size = .ret r)
    (hr' : s.lookForFreeVadAtAddressOfMinimumSize fuel' this address size = .ret r') : r = r' := by
  unfold lookForFreeVadAtAddressOfMinimumSize at hr hr'
  split at hr
  · rename_i ha
    rw [if_pos ha] at hr'
    exact Outcome.ret.inj (hr.symm.trans hr')
  split at hr
  · rename_i ha h0
    rw [if_neg ha, if_pos h0] at hr'
    exact Outcome.ret.inj (hr.symm.trans hr')
  · rename_i ha h0
    rw [if_neg ha, if_neg h0] at hr'
    exact Outcome.loop_unique hr hr'

/-! ### The vad that is reserved -/

/-- The vad that `Allocate` reserves starts where the one it finds does. -/
theorem chooseVad_region {s₁ : VadMem} (hs : s.Closed) (hthis : this < s.heapTop)
    (hr : s.chooseVad fuel this size = .ret (.statusSuccess, some w, s₁)) :
    ∃ v, s.lookForFreeVadOfMinimumSize fuel this size = .ret (.statusSuccess, some v) ∧
      (s₁.vads w).baseAddress = (s.vads v).baseAddress ∧
      (s₁.vads w).limitAddress = s.reservedLimit v (s.vads v).baseAddress size := by
  unfold chooseVad at hr
  split at hr
  · cases hr
  obtain ⟨⟨status, out⟩, hlook, hr⟩ := Outcome.bind_eq_ret.mp hr
  split at hr
  · rename_i v heq
    cases heq
    have hlt := lookForFree_lt hs hthis hlook
    refine ⟨v, hlook, ?_⟩
    unfold chooseFrom at hr
    split at hr
    · rename_i hdelta
      rw [reservedLimit, if_neg (not_not.mpr rfl), if_pos hdelta]
      rcases split_cases (Nat.ne_of_lt hlt) size with ⟨status, hsplit, hfailed⟩ | ⟨s', hsplit, hoff⟩
      · rw [hsplit] at hr
        dsimp only at hr
        rw [if_pos hfailed] at hr
        cases hr
      · rw [hsplit] at hr
        cases hr
        exact ⟨hoff.base, hoff.limit⟩
    · rename_i hdelta
      rw [reservedLimit, if_neg (not_not.mpr rfl), if_neg hdelta]
      cases hr
      exact ⟨rfl, rfl⟩
  · cases hr

/-- The vad that `AllocateAtAddress` reserves starts at the address. -/
theorem chooseAtAddressFrom_region {s₁ : VadMem} (hlt : v < s.heapTop)
    (hr : s.chooseAtAddressFrom v address size = .ret (.statusSuccess, some w, s₁)) :
    (s₁.vads w).baseAddress = address ∧
      (s₁.vads w).limitAddress = s.reservedLimit v address size := by
  have hne := Nat.ne_of_lt hlt
  unfold chooseAtAddressFrom at hr
  rw [reservedLimit]
  split at hr
  · rename_i hsplits
    rcases s.splitAtAddress_cases v address size with ⟨status, hsplit, hfailed⟩ | hsplit
    · rw [hsplit] at hr
      dsimp only at hr
      rw [if_pos hfailed] at hr
      cases hr
    rw [hsplit] at hr
    by_cases hbase : (s.vads v).baseAddress = address
    · have hdelta := hsplits.resolve_left (fun h => h hbase)
      rw [if_neg (not_not.mpr hbase)] at hr ⊢
      rw [if_pos hdelta, ← hbase]
      rcases split_cases hne size with ⟨status, hoff, hfailed⟩ | ⟨s', hoff, hspec⟩
      · rw [hoff] at hr
        dsimp only at hr
        rw [if_pos hfailed] at hr
        cases hr
      · rw [hoff] at hr
        dsimp only at hr
        rw [if_neg (by decide), if_neg (not_not.mpr (hspec.base.trans hbase))] at hr
        cases hr
        exact ⟨hspec.base, hspec.limit⟩
    · rw [if_pos hbase] at hr ⊢
      have hins := inserted_insertVad hlt address
      rcases splitInside_cases hlt address size with ⟨status, hinside, hfailed⟩ | hinside
      · rw [hinside] at hr
        dsimp only at hr
        rw [if_pos hfailed] at hr
        cases hr
      rw [hinside] at hr
      by_cases hdelta : vadMinimumDelta < (s.vads v).limitAddress - address - size
      · rw [if_pos hdelta] at hr ⊢
        have hne' : s.heapTop ≠ (s.insertVad v address).heapTop := by
          rw [hins.heapTop]
          exact Nat.ne_of_lt (Nat.lt_succ_self _)
        rcases split_cases hne' size with ⟨status, hoff, hfailed⟩ | ⟨s', hoff, hspec⟩
        · rw [hoff] at hr
          dsimp only at hr
          rw [if_pos hfailed] at hr
          cases hr
        · -- the vad `v` is as it was linked
          have hv : s'.vads v = (s.insertVad v address).vads v := by
            apply hspec.others v hne
            rw [hins.heapTop]
            omega
          have hnext : s'.next v = some s.heapTop := by
            rw [next, hv]
            exact hins.next
          have hb : (s'.vads v).baseAddress ≠ address := by
            rw [hv, hins.base]
            exact hbase
          rw [hoff] at hr
          dsimp only at hr
          rw [if_neg (by decide), if_pos hb, hnext] at hr
          cases hr
          rw [hspec.base, hspec.limit, hins.start]
          exact ⟨rfl, rfl⟩
      · rw [if_neg hdelta] at hr ⊢
        have hb : ((s.insertVad v address).vads v).baseAddress ≠ address := by
          rw [hins.base]
          exact hbase
        dsimp only at hr
        rw [if_neg (by decide), if_pos hb, hins.next] at hr
        cases hr
        exact ⟨hins.start, hins.limit⟩
  · rename_i hsame
    obtain ⟨hbase, hdelta⟩ := not_or.mp hsame
    rw [if_neg hbase, if_neg hdelta]
    cases hr
    exact ⟨not_not.mp hbase, rfl⟩

theorem chooseVadAtAddress_region {s₁ : VadMem} (hs : s.Closed) (hthis : this < s.heapTop)
    (hr : s.chooseVadAtAddress fuel this address size = .ret (.statusSuccess, some w, s₁)) :
    ∃ v, s.lookForFreeVadAtAddressOfMinimumSize fuel this address size =
        .ret (.statusSuccess, some v) ∧ (s₁.vads w).baseAddress = address ∧
      (s₁.vads w).limitAddress = s.reservedLimit v address size := by
  unfold chooseVadAtAddress at hr
  split at hr
  · cases hr
  split at hr
  · cases hr
  obtain ⟨⟨status, out⟩, hlook, hr⟩ := Outcome.bind_eq_ret.mp hr
  split at hr
  · rename_i v heq
    cases heq
    exact ⟨v, hlook, chooseAtAddressFrom_region (lookForFreeAt_lt hs hthis hlook) hr⟩
  · cases hr

/-- A search that succeeds has found a vad. -/
theorem lookForFree_some {out : Option ℕ}
    (hr : s.lookForFreeVadOfMinimumSize fuel this size = .ret (.statusSuccess, out)) :
    out ≠ none := by
  unfold lookForFreeVadOfMinimumSize at hr
  split at hr
  · cases hr
  obtain ⟨found, -, hr⟩ := Outcome.bind_eq_ret.mp hr
  cases found with
  | none => cases hr
  | some w =>
    cases hr
    exact Option.some_ne_none w

theorem lookForFreeAt_some {out : Option ℕ}
    (hr : s.lookForFreeVadAtAddressOfMinimumSize fuel this address size =
      .ret (.statusSuccess, out)) : out ≠ none := by
  unfold lookForFreeVadAtAddressOfMinimumSize at hr
  split at hr
  · cases hr
  split at hr
  · cases hr
  have hfound := Outcome.loop_invariant (I := fun _ : ℕ => True)
    (Q := fun r : KeStatus × Option ℕ => r.1 = .statusSuccess → r.2 ≠ none) ?_ ?_ trivial hr
  · exact hfound rfl
  · exact fun _ _ _ _ => trivial
  · intro c r _ hturn hsuccess
    simp only [lookForFreeAtTurn] at hturn
    split at hturn
    · split at hturn
      · cases hturn
        cases hsuccess
      · cases hturn
        exact Option.some_ne_none c
    · split at hturn
      · cases hturn
        cases hsuccess
      · rename_i u _
        split at hturn
        · cases hturn
          exact Option.some_ne_none u
        · cases hturn

theorem chooseVad_some {r : KeStatus × Option ℕ × VadMem}
    (hr : s.chooseVad fuel this size = .ret r) : r.1 = .statusSuccess → r.2.1 ≠ none := by
  unfold chooseVad at hr
  split at hr
  · cases hr
    exact fun h => KeStatus.noConfusion h
  obtain ⟨⟨status, found⟩, hlook, hr⟩ := Outcome.bind_eq_ret.mp hr
  split at hr
  · rename_i v _
    unfold chooseFrom at hr
    split at hr
    · dsimp only at hr
      split at hr
      · rename_i hfailed
        have heq := Outcome.ret.inj hr
        intro hsuccess
        rw [← heq] at hsuccess
        exact absurd hsuccess (failed_eq_true.mp hfailed)
      · cases hr
        exact fun _ => Option.some_ne_none v
    · cases hr
      exact fun _ => Option.some_ne_none v
  · rename_i hne heq
    cases heq
    cases hr
    rintro rfl
    cases found with
    | none => exact absurd rfl (lookForFree_some hlook)
    | some v => exact absurd rfl (hne v rfl)

theorem chooseVadAtAddress_some {r : KeStatus × Option ℕ × VadMem}
    (hr : s.chooseVadAtAddress fuel this address size = .ret r) :
    r.1 = .statusSuccess → r.2.1 ≠ none := by
  unfold chooseVadAtAddress at hr
  split at hr
  · cases hr
    exact fun h => KeStatus.noConfusion h
  split at hr
  · cases hr
    exact fun h => KeStatus.noConfusion h
  obtain ⟨⟨status, found⟩, hlook, hr⟩ := Outcome.bind_eq_ret.mp hr
  split at hr
  · rename_i v _
    unfold chooseAtAddressFrom at hr
    split at hr
    · dsimp only at hr
      split at hr
      · rename_i hfailed
        have heq := Outcome.ret.inj hr
        intro hsuccess
        rw [← heq] at hsuccess
        exact absurd hsuccess (failed_eq_true.mp hfailed)
      · split at hr
        · obtain ⟨u, -, hr⟩ := Outcome.bind_eq_ret.mp hr
          cases hr
          exact fun _ => Option.some_ne_none u
        · cases hr
          exact fun _ => Option.some_ne_none v
    · cases hr
      exact fun _ => Option.some_ne_none v
  · rename_i hne heq
    cases heq
    cases hr
    rintro rfl
    cases found with
    | none => exact absurd rfl (lookForFreeAt_some hlook)
    | some v => exact absurd rfl (hne v rfl)

/-- The pages of a vad have been reserved in the directory `pageDirectory`. -/
def reserved (s : VadMem) (v : ℕ) (k : KernelMem) : VadMem :=
  store { s with mem := { k with
    mmu := k.mmu.setCurrentPageDirectory s.mem.mmu.getCurrentPageDirectory } } v
    fun vad => { vad with free := false }

/-- The call succeeds when its loop does. -/
theorem reserveChosen_of_loop {pageDirectory : U32} {reserve : Bool} {k : KernelMem}
    (hloop : Outcome.loop (reservePagesTurn (s.vads v).limitAddress reserve) fuel
      ((s.vads v).baseAddress,
        { s.mem with mmu := s.mem.mmu.setCurrentPageDirectory pageDirectory }) =
      .ret (.statusSuccess, k)) :
    reserveChosen fuel pageDirectory reserve (.statusSuccess, some v, s) =
      .ret (.statusSuccess, some v, s.reserved v k) := by
  simp only [reserveChosen, reserveAndReturn, reservePages, hloop, Outcome.ret_bind,
    Outcome.pure_eq]
  rfl

/-! ### What the calls keep of the vads -/

theorem chooseVad_grows (hs : s.Closed) (hthis : this < s.heapTop) {r : KeStatus × Option ℕ × VadMem}
    (hr : s.chooseVad fuel this size = .ret r) : Grows s r.2.2 := by
  unfold chooseVad at hr
  split at hr
  · cases hr
    exact .refl s
  obtain ⟨⟨status, out⟩, hlook, hr⟩ := Outcome.bind_eq_ret.mp hr
  split at hr
  · rename_i v heq
    cases heq
    have hgrows := split_grows (Nat.ne_of_lt (lookForFree_lt hs hthis hlook)) size
    unfold chooseFrom at hr
    split at hr
    · dsimp only at hr
      split at hr
      · cases hr
        exact hgrows
      · cases hr
        exact hgrows
    · cases hr
      exact .refl s
  · cases hr
    exact .refl s

theorem chooseVadAtAddress_grows (hs : s.Closed) (hthis : this < s.heapTop)
    {r : KeStatus × Option ℕ × VadMem}
    (hr : s.chooseVadAtAddress fuel this address size = .ret r) : Grows s r.2.2 := by
  unfold chooseVadAtAddress at hr
  split at hr
  · cases hr
    exact .refl s
  split at hr
  · cases hr
    exact .refl s
  obtain ⟨⟨status, out⟩, hlook, hr⟩ := Outcome.bind_eq_ret.mp hr
  split at hr
  · rename_i v heq
    cases heq
    have hgrows := splitAtAddress_grows (lookForFreeAt_lt hs hthis hlook) address size
    unfold chooseAtAddressFrom at hr
    split at hr
    · dsimp only at hr
      split at hr
      · cases hr
        exact hgrows
      · split at hr
        · obtain ⟨_, -, hr⟩ := Outcome.bind_eq_ret.mp hr
          cases hr
          exact hgrows
        · cases hr
          exact hgrows
    · cases hr
      exact .refl s
  · cases hr
    exact .refl s

theorem reservePages_grows {pageDirectory : U32} {reserve : Bool}
    (hr : s.reservePages fuel v pageDirectory reserve = .ret (status, s')) : Grows s s' := by
  obtain ⟨⟨status₁, k⟩, -, hr⟩ := Outcome.bind_eq_ret.mp hr
  dsimp only at hr
  split at hr
  · cases hr
    exact (s.grows_mem _).trans (grows_store_next (f := fun vad => { vad with free := false }) rfl)
  · cases hr
    exact s.grows_mem _

theorem reserveChosen_grows {out out' : Option ℕ} {status' : KeStatus} {pageDirectory : U32}
    {reserve : Bool}
    (hr : reserveChosen fuel pageDirectory reserve (status, out, s) = .ret (status', out', s')) :
    Grows s s' := by
  unfold reserveChosen at hr
  split at hr
  · rename_i heq
    cases heq
    obtain ⟨htop, hsame, -⟩ := reserveAndReturn_spec hr
    refine .of_next ?_ htop
    intro v
    rw [next, hsame]
    rfl
  · rename_i heq
    cases heq
    cases hr
    exact .refl s

end Vads

end VadMem

end LtMicros
