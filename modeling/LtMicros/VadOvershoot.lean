import LtMicros.VadGrants

/-!
# The search for an address that ends too early

The search may end at a vad that is free and large enough and does not hold the address. The
limit of that vad is mostly below the address, and what is split off is computed from a
difference that has wrapped around.
-/

namespace LtMicros

open Lib

namespace VadMem

variable {s s' s₁ s₂ : VadMem} {head v w n fuel : ℕ} {l l₁ l₂ : List ℕ}
  {address size pd : U32} {pds : List U32} {reserve : Bool} {status : KeStatus}

/-! ## A vad behind the one that was found -/

theorem Partition.base_ne (h : Partition s head l) (hw : w ∈ l)
    (hc : s.contains address w = false) : (s.vads w).baseAddress ≠ address := by
  intro heq
  apply Bool.eq_false_iff.mp hc
  exact contains_eq_true.mpr ⟨BitVec.le_of_eq heq, heq ▸ h.lt hw⟩

/-- A vad at the address is put behind the one that was found, wherever that one ends. -/
theorem Partition.overshoots (h : Partition s head (l₁ ++ w :: l₂))
    (hall : s.Allocated (l₁ ++ w :: l₂)) (ha : address ≠ 0) (h0 : size ≠ 0)
    (hend : EndsAt s head l₁ w l₂ address size) (hc : s.contains address w = false)
    (hnot : ¬s.Refuses w address size) :
    (s.vads w).baseAddress ≠ address ∧ ∃ s₁, InsertedAfter s s₁ w address ∧
      s.splitAtAddress w address size =
        if s.SplitsBehind w address size then s₁.split s.heapTop size
        else (.statusSuccess, s₁) := by
  have hw : w ∈ l₁ ++ w :: l₂ := by simp
  obtain ⟨hdelta, hroom⟩ := not_or.mp hnot
  have hbase := h.base_ne hw hc
  have hsub : (s.vads w).limitAddress - address ≠ 0 := by
    intro hzero
    rw [hzero] at hroom
    apply h0
    apply BitVec.eq_of_toNat_eq
    exact Nat.le_zero.mp (BitVec.not_lt.mp hroom)
  obtain ⟨hloop, hfresh⟩ := h.next_ne hall hw
  obtain ⟨s₁, hins, hinside⟩ := splitInside_inserts (BitVec.not_lt.mp hroom) (h.size w hw) ha hsub
    (Nat.ne_of_lt (hall w hw)) hloop hfresh
  have hnew : (s₁.vads s.heapTop).size = (s.vads w).limitAddress - address := by rw [hins.new]
  refine ⟨hbase, s₁, hins, ?_⟩
  rw [splitAtAddress_eq h0 ha hend.fits hdelta, if_pos hbase, hinside, hnew]
  rfl

/-- The call then fails, or comes to the new vad; in both cases the list has changed. -/
theorem Partition.overshoot_choose (h : Partition s head (l₁ ++ w :: l₂))
    (hall : s.Allocated (l₁ ++ w :: l₂)) (ha : address ≠ 0) (h0 : size ≠ 0)
    (hend : EndsAt s head l₁ w l₂ address size) (hc : s.contains address w = false)
    (hnot : ¬s.Refuses w address size) :
    ∃ status out s₂, s.chooseAtAddressFrom w address size = .ret (status, out, s₂) ∧
      s₂.next w = some s.heapTop ∧
      (failed status = true ∨ status = .statusSuccess ∧ out = some s.heapTop ∧
        (s₂.vads s.heapTop).limitAddress = s.grantLimit w address size) := by
  have hlt : w < s.heapTop := hall w (by simp)
  obtain ⟨hbase, s₁, hins, hsplit⟩ := h.overshoots hall ha h0 hend hc hnot
  have hsame : (s₁.vads w).baseAddress = (s.vads w).baseAddress := by rw [hins.this]
  have hnext : s₁.next w = some s.heapTop := by rw [VadMem.next, hins.this]
  by_cases hsplits : s.SplitsBehind w address size
  · rw [if_pos hsplits] at hsplit
    rw [grantLimit, if_pos hsplits]
    have htop : s.heapTop ≠ s₁.heapTop := by
      rw [hins.heapTop]
      exact Nat.ne_of_lt (Nat.lt_succ_self _)
    rcases split_cases htop size with ⟨st, hfails, hfailed⟩ | ⟨s₂, hagain, hoff⟩
    · rw [hfails] at hsplit
      exact ⟨st, none, s₁, chooseAtAddressFrom_fails hbase hsplit hfailed, hnext, .inl hfailed⟩
    · rw [hagain] at hsplit
      have hothers : s₂.vads w = s₁.vads w := by
        apply hoff.others w (Nat.ne_of_lt hlt)
        rw [hins.heapTop]
        exact Nat.ne_of_lt (hlt.trans (Nat.lt_succ_self _))
      have hnext₂ : s₂.next w = some s.heapTop := by
        rw [VadMem.next, hothers]
        exact hnext
      refine ⟨.statusSuccess, some s.heapTop, s₂, ?_, hnext₂, .inr ⟨rfl, rfl, ?_⟩⟩
      · exact chooseAtAddressFrom_next hbase hsplit (by rw [hothers]; exact hsame) hnext₂
      · rw [hoff.limit, hins.new]
  · rw [if_neg hsplits] at hsplit
    rw [grantLimit, if_neg hsplits]
    refine ⟨.statusSuccess, some s.heapTop, s₁, ?_, hnext, .inr ⟨rfl, rfl, ?_⟩⟩
    · exact chooseAtAddressFrom_next hbase hsplit hsame hnext
    · rw [hins.new]

theorem reserveChosen_next {c r : KeStatus × Option ℕ × VadMem}
    (hr : reserveChosen fuel pd reserve c = .ret r) (w : ℕ) : r.2.2.next w = c.2.2.next w := by
  unfold reserveChosen at hr
  split at hr
  · obtain ⟨st, out, s'⟩ := r
    obtain ⟨-, hsame, -, -⟩ := reserveAndReturn_spec hr
    show s'.next w = _
    rw [VadMem.next, hsame]
    rfl
  · cases hr
    rfl

/-- Where nothing is available, the call does not leave the vads as they were. -/
theorem Partition.overshoot_changes (h : Partition s head (l₁ ++ w :: l₂))
    (hall : s.Allocated (l₁ ++ w :: l₂)) (ha : address ≠ 0) (h0 : size ≠ 0)
    (hend : EndsAt s head l₁ w l₂ address size) (hc : s.contains address w = false)
    (hnot : ¬s.Refuses w address size)
    (hr : s.allocateAtAddress fuel head address size pd reserve = .ret (status, none, s')) :
    s'.vads w ≠ s.vads w := by
  obtain ⟨n, hchoose⟩ := hend.choose ha h0
  obtain ⟨st, out, s₂, hfrom, hnext, -⟩ := h.overshoot_choose hall ha h0 hend hc hnot
  rw [hfrom] at hchoose
  have hsame : s'.next w = s₂.next w :=
    reserveChosen_next (allocateAtAddress_inv hchoose hr) w
  intro heq
  apply (h.next_ne hall (v := w) (by simp)).2
  rw [← hnext, ← hsame, VadMem.next, VadMem.next, heq]

/-! ## The vad that was found ends before the address -/

/-- The vad that holds the address comes later. -/
theorem Partition.ends_below (h : Partition s head (l₁ ++ w :: l₂))
    (hend : EndsAt s head l₁ w l₂ address size) (hc : s.contains address w = false)
    (h0 : size ≠ 0) (hnot : ¬s.Refuses w address size)
    (havail : s.Available (l₁ ++ w :: l₂) address size) :
    s.hi w < address.toNat := by
  obtain ⟨v, hv, hcv, -, -⟩ := havail
  have hlater : v ∈ l₂ := by
    rcases List.mem_append.mp hv with hv | hv
    · rw [hend.front v hv] at hcv
      cases hcv
    · rcases List.mem_cons.mp hv with rfl | hv
      · rw [hc] at hcv
        cases hcv
      · exact hv
  obtain ⟨-, -, htail⟩ := Tiles.mid_iff.mp h.tiles
  have hle : s.hi w ≤ s.lo v := (htail.mem_bounds hlater).1
  have hin := (contains_iff.mp hcv).1
  apply Nat.lt_of_le_of_ne (hle.trans hin)
  -- at the limit itself there is no room
  intro heq
  apply (not_or.mp hnot).2
  have hzero : (s.vads w).limitAddress - address = 0 := by
    rw [show (s.vads w).limitAddress = address from BitVec.eq_of_toNat_eq heq]
    exact BitVec.sub_self address
  rw [hzero, BitVec.lt_def]
  apply Nat.pos_of_ne_zero
  intro hsize
  exact h0 (BitVec.eq_of_toNat_eq hsize)

/-- The difference has wrapped around. -/
theorem toNat_wrapped (hbelow : s.hi w < address.toNat) :
    ((s.vads w).limitAddress - address).toNat = 2 ^ 32 - address.toNat + s.hi w := by
  have hmax := address.isLt
  rw [BitVec.toNat_sub]
  show (2 ^ 32 - address.toNat + s.hi w) % 2 ^ 32 = _
  apply Nat.mod_eq_of_lt
  omega

/-- The list ends with the granted pages: the vad that was found has been lengthened to the
address, and the one behind the pages holds no byte. -/
structure Bridged (s s₂ : VadMem) (head : ℕ) (l₁ : List ℕ) (w : ℕ) (address size : U32)
    (last : ℕ) : Prop where
  chain : Chain s₂.next (some head) ((l₁ ++ [w]) ++ [s.heapTop, last])
  found : (s₂.vads w).baseAddress = (s.vads w).baseAddress
  base : (s₂.vads s.heapTop).baseAddress = address
  limit : s₂.hi s.heapTop = address.toNat + (pagesOf size).toNat
  front : ∀ a, s₂.statusOf (l₁ ++ [w]) a =
    (s.statusOf l₁ a).or (if s.lo w ≤ a.toNat ∧ a < address then some true else none)
  back : ∀ a, s₂.contains a s.heapTop = false → s₂.statusOf [s.heapTop, last] a = none

theorem Partition.bridged (h : Partition s head (l₁ ++ w :: l₂))
    (hall : s.Allocated (l₁ ++ w :: l₂)) (h0 : size ≠ 0) (hfree : (s.vads w).free = true)
    (hins : InsertedAfter s s₁ w address) (hbelow : s.hi w < address.toNat)
    (hnot : ¬s.Refuses w address size) (hsplits : s.SplitsBehind w address size)
    (hfits : address.toNat + (pagesOf size).toNat < 2 ^ 32) :
    ∃ s₂, s₁.split s.heapTop size = (.statusSuccess, s₂) ∧
      s.Bridged s₂ head l₁ w address size s₁.heapTop := by
  have hlt : w < s.heapTop := hall w (by simp)
  have hnew : (s₁.vads s.heapTop).size = (s.vads w).limitAddress - address := by rw [hins.new]
  have hstart : (s₁.vads s.heapTop).baseAddress = address := by rw [hins.new]
  have hroom := BitVec.not_lt.mp (not_or.mp hnot).2
  have hwrapped := toNat_wrapped hbelow
  have hroom' : size.toNat ≤ ((s.vads w).limitAddress - address).toNat := hroom
  have hrest := BitVec.toNat_sub_of_le hroom
  have hdelta : 4096 < ((s.vads w).limitAddress - address - size).toNat := hsplits
  have hmax := address.isLt
  have hpages := (pagesOf_bounds h0 (by unfold pageSize; omega : size.toNat + pageSize < 2 ^ 32)).2
  unfold pageSize at hpages
  have hend : (address + pagesOf size).toNat = address.toNat + (pagesOf size).toNat := by
    rw [BitVec.toNat_add]
    exact Nat.mod_eq_of_lt hfits
  have hne : s.heapTop ≠ s₁.heapTop := by
    rw [hins.heapTop]
    exact Nat.ne_of_lt (Nat.lt_succ_self _)
  have hbase : (s₁.vads s.heapTop).baseAddress + pagesOf size ≠ 0 := by
    rw [hstart]
    intro hzero
    rw [hzero] at hend
    have hz : (0 : U32).toNat = 0 := rfl
    omega
  have hleft : (s₁.vads s.heapTop).size - pagesOf size ≠ 0 := by
    rw [hnew]
    intro hzero
    have hle : pagesOf size ≤ (s.vads w).limitAddress - address := by
      rw [BitVec.le_def]
      omega
    have hsub := BitVec.toNat_sub_of_le hle
    rw [hzero] at hsub
    have hz : (0 : U32).toNat = 0 := rfl
    omega
  obtain ⟨s₂, hsplit, hvads, -, -⟩ := split_eq h0 (by rw [hnew]; exact hroom)
    (by rw [hnew]; exact BitVec.not_lt.mpr (BitVec.le_of_lt hsplits)) hbase hleft hne
  rw [hstart, hnew] at hvads
  have hold (x : ℕ) (hx : x < s.heapTop) : s₂.vads x = s₁.vads x := by
    have hx₁ : x ≠ s₁.heapTop := by
      rw [hins.heapTop]
      exact Nat.ne_of_lt (hx.trans (Nat.lt_succ_self _))
    rw [hvads, Function.update_of_ne (Nat.ne_of_lt hx), Function.update_of_ne hx₁]
  refine ⟨s₂, hsplit, ?_⟩
  constructor
  · have hchain := hins.chain h.chain hall
    have hlist : Chain s₁.next (some head) ((l₁ ++ [w]) ++ s.heapTop :: l₂) := by simpa using hchain
    apply split_chain hsplit hlist
    have hall₁ := hins.allocated hall
    simpa using hall₁
  · rw [hold w hlt, hins.this]
  · rw [hvads, Function.update_self]
    exact hstart
  · rw [VadMem.hi, hvads, Function.update_self]
    exact hend
  · intro a
    have hfront : s₂.statusOf l₁ a = s.statusOf l₁ a := by
      apply statusOf_congr
      intro x hx
      have hxw : x ≠ w := (Seg.ne_of_mid h.chain).1 x hx
      have hxlt : x < s.heapTop := hall x (by simp [hx])
      obtain ⟨previous, hkeeps⟩ := hins.keeps hxw (Nat.ne_of_lt hxlt)
      have hx₂ := (hold x hxlt).trans hkeeps
      refine ⟨?_, fun _ => ?_⟩
      · rw [contains, contains, hx₂]
      · rw [hx₂]
    have hw₂ := (hold w hlt).trans hins.this
    have hcw : s₂.contains a w = true ↔ s.lo w ≤ a.toNat ∧ a < address := by
      rw [contains_eq_true, hw₂]
      exact Iff.rfl
    rw [statusOf_append, hfront, statusOf_cons]
    congr 1
    by_cases hin : s.lo w ≤ a.toNat ∧ a < address
    · rw [if_pos (hcw.mpr hin), if_pos hin, hw₂]
      exact congrArg some hfree
    · rw [if_neg (fun hc => hin (hcw.mp hc)), if_neg hin]
      rfl
  · intro a hc
    -- the last vad ends where the one that was found did
    have hlast : s₂.contains a s₁.heapTop = false := by
      apply Bool.eq_false_iff.mpr
      intro hc
      obtain ⟨hle, hlt⟩ := contains_eq_true.mp hc
      have hlimit (limit p : U32) : address + p + (limit - address - p) = limit := by grind
      rw [hvads, Function.update_of_ne hne.symm, Function.update_self] at hle hlt
      dsimp only at hle hlt
      rw [hlimit] at hlt
      have hle : (address + pagesOf size).toNat ≤ a.toNat := hle
      have hlt : a.toNat < s.hi w := hlt
      omega
    rw [statusOf_cons, hc, statusOf_cons, hlast]
    rfl

/-- The list goes on behind the vad that was found. -/
theorem Bridged.next (hb : s.Bridged s₂ head l₁ w address size n) : s₂.next w = some s.heapTop := by
  have hchain := hb.chain
  rw [List.append_assoc] at hchain
  exact (Seg.mid_iff.mp hchain).2.1

/-- The status that the bridged list, with the pages reserved, gives to a byte. -/
theorem Bridged.reserved (hb : s.Bridged s₂ head l₁ w address size n)
    (h : Partition s head (l₁ ++ w :: l₂)) (hbelow : s.hi w < address.toNat)
    (hr : s₂.reserveAndReturn fuel s.heapTop pd reserve =
      .ret (status, some s.heapTop, s')) (a : U32) :
    s'.statusOf ((l₁ ++ [w]) ++ [s.heapTop, n]) a =
      if a.toNat < s.lo w then s.statusOf l₁ a
      else if a < address then some true
      else if a.toNat < address.toNat + (pagesOf size).toNat then some false
      else none := by
  have hlo : s.lo w < s.hi w := h.lt (by simp)
  have hin : s₂.contains a s.heapTop = true ↔
      address ≤ a ∧ a.toNat < address.toNat + (pagesOf size).toNat := by
    rw [contains_iff, hb.limit]
    unfold VadMem.lo
    rw [hb.base]
    exact Iff.rfl
  by_cases hfirst : a < address
  · have hfirst' : a.toNat < address.toNat := hfirst
    have hout : s₂.contains a s.heapTop = false := by
      apply Bool.eq_false_iff.mpr
      intro hc
      exact BitVec.not_le.mpr hfirst (hin.mp hc).1
    rw [reserved_status hr (.inl hout), statusOf_append, hb.front, hb.back a hout, Option.or_none]
    by_cases hlow : a.toNat < s.lo w
    · rw [if_neg (fun hin => Nat.not_le.mpr hlow hin.1), if_pos hlow, Option.or_none]
    · have hge := Nat.le_of_not_lt hlow
      rw [if_pos ⟨hge, hfirst⟩, if_neg hlow, if_pos hfirst, h.status_front hge]
      rfl
  · have hge : address.toNat ≤ a.toNat := BitVec.not_lt.mp hfirst
    have hfront : s₂.statusOf (l₁ ++ [w]) a = none := by
      rw [hb.front, h.status_front (by omega), if_neg (fun hin => hfirst hin.2)]
      rfl
    rw [if_neg (by omega), if_neg hfirst]
    by_cases hpages : a.toNat < address.toNat + (pagesOf size).toNat
    · rw [if_pos hpages]
      exact reserved_status_self hr hfront (hin.mpr ⟨hge, hpages⟩)
    · have hout : s₂.contains a s.heapTop = false := by
        apply Bool.eq_false_iff.mpr
        intro hc
        exact hpages (hin.mp hc).2
      rw [reserved_status hr (.inl hout), statusOf_append, hfront, hb.back a hout, if_neg hpages]
      rfl

/-- What the size of the pages is where the difference is more than a page too large. -/
theorem wrapped_size (hbelow : s.hi w < address.toNat) (hnot : ¬s.Refuses w address size)
    (hsplits : s.SplitsBehind w address size) : size.toNat + pageSize < 2 ^ 32 := by
  have hroom := BitVec.not_lt.mp (not_or.mp hnot).2
  have hwrapped := toNat_wrapped hbelow
  have hroom' : size.toNat ≤ ((s.vads w).limitAddress - address).toNat := hroom
  have hrest := BitVec.toNat_sub_of_le hroom
  have hdelta : 4096 < ((s.vads w).limitAddress - address - size).toNat := hsplits
  have hmax := address.isLt
  unfold pageSize
  omega

/-- A call that is available is granted from a vad before it only over a bridge. -/
theorem Partition.bridges (h : Partition s head (l₁ ++ w :: l₂))
    (hall : s.Allocated (l₁ ++ w :: l₂)) (ha : address ≠ 0) (h0 : size ≠ 0)
    (hend : EndsAt s head l₁ w l₂ address size) (hc : s.contains address w = false)
    (hnot : ¬s.Refuses w address size) (havail : s.Available (l₁ ++ w :: l₂) address size)
    (hr : s.allocateAtAddress fuel head address size pd reserve =
      .ret (.statusSuccess, some v, s'))
    (hgrants : s.Grants s' head (l₁ ++ w :: l₂) address size v) :
    s.Bridges (l₁ ++ w :: l₂) w address size := by
  have hbelow := h.ends_below hend hc h0 hnot havail
  have hlo : s.lo w < s.hi w := h.lt (by simp)
  have hbase : vProcessBaseAddr.toNat ≤ s.lo w := (h.tiles.mem_bounds (a := w) (by simp)).1
  obtain ⟨n, hchoose⟩ := hend.choose ha h0
  obtain ⟨st, out, s₃, hfrom, -, hcases⟩ := h.overshoot_choose hall ha h0 hend hc hnot
  rw [hfrom] at hchoose
  have hr := allocateAtAddress_inv hchoose hr
  rcases hcases with hfailed | ⟨rfl, rfl, hlimit⟩
  · rw [reserveChosen_failed (failed_eq_true.mp hfailed)] at hr
    cases hr
  have hr : s₃.reserveAndReturn fuel s.heapTop pd reserve =
    .ret (.statusSuccess, some v, s') := hr
  obtain ⟨-, hsame, -, hout⟩ := reserveAndReturn_spec hr
  obtain ⟨rfl, -⟩ := hout v rfl
  have hcovers := hgrants.covers
  rw [hsame] at hcovers
  dsimp only at hcovers
  rw [hlimit, grantLimit] at hcovers
  by_cases hsplits : s.SplitsBehind w address size
  swap
  · -- the limit of the vad that was found is below the address
    rw [if_neg hsplits] at hcovers
    have hcovers : address.toNat + size.toNat ≤ s.hi w := hcovers
    omega
  rw [if_pos hsplits, BitVec.toNat_add] at hcovers
  have hfits : address.toNat + (pagesOf size).toNat < 2 ^ 32 := by
    have hmax := (pagesOf size).isLt
    have hmax' := address.isLt
    omega
  obtain ⟨hne, s₁, hins, hsplit⟩ := h.overshoots hall ha h0 hend hc hnot
  obtain ⟨s₂, hs₂, hbridged⟩ := h.bridged hall h0 hend.free hins hbelow hnot hsplits hfits
  -- the state that was chosen is that of the bridge
  rw [if_pos hsplits, hs₂] at hsplit
  rw [chooseAtAddressFrom_next hne hsplit hbridged.found hbridged.next] at hfrom
  cases hfrom
  obtain ⟨l', hchain, -, hkept⟩ := hgrants.kept
  obtain rfl := ((reserved_chain hr).mp hchain).unique hbridged.chain
  refine ⟨havail, hsplits, ?_, hfits, ?_⟩
  · intro a hge hlt
    have hout : s.Outside (l₁ ++ w :: l₂) address size a := by
      right
      intro hasked
      exact BitVec.not_le.mpr hlt hasked.1
    have hstatus := hkept a hout
    rw [hbridged.reserved h hbelow hr, if_neg (by omega), if_pos hlt] at hstatus
    exact hstatus.symm
  · intro a hge hlt hout
    have hstatus := hkept a hout
    rw [hbridged.reserved h hbelow hr, if_neg (by omega), if_neg, if_neg (by omega)] at hstatus
    · obtain ⟨b, hb⟩ := h.status_some (a := a)
        (show vProcessBaseAddr.toNat ≤ a.toNat by omega) hlt
      rw [hb] at hstatus
      cases hstatus
    · intro hlt
      have hlt : a.toNat < address.toNat := hlt
      omega

/-- Over a bridge the call grants what is asked for. -/
theorem Partition.grants_bridge (h : Partition s head (l₁ ++ w :: l₂))
    (hall : s.Allocated (l₁ ++ w :: l₂)) (hs : Spaces s.mem pds) (hd : pd ∈ pds)
    (ha : address ≠ 0) (h0 : size ≠ 0) (hend : EndsAt s head l₁ w l₂ address size)
    (hc : s.contains address w = false) (hnot : ¬s.Refuses w address size)
    (hbridges : s.Bridges (l₁ ++ w :: l₂) w address size) (reserve : Bool) :
    ∃ fuel v s',
      s.allocateAtAddress fuel head address size pd reserve = .ret (.statusSuccess, some v, s') ∧
        s.Grants s' head (l₁ ++ w :: l₂) address size v := by
  have hbelow := h.ends_below hend hc h0 hnot hbridges.available
  have hlo : s.lo w < s.hi w := h.lt (by simp)
  have hsize := wrapped_size hbelow hnot hbridges.split
  have hpages := (pagesOf_bounds h0 hsize).1
  have haligned := pagesOf_aligned size
  have hfits := hbridges.fits
  unfold pageSize at haligned
  obtain ⟨n, hchoose⟩ := hend.choose ha h0
  obtain ⟨hne, s₁, hins, hsplit⟩ := h.overshoots hall ha h0 hend hc hnot
  obtain ⟨s₂, hs₂, hbridged⟩ := h.bridged hall h0 hend.free hins hbelow hnot hbridges.split hfits
  rw [if_pos hbridges.split, hs₂] at hsplit
  have hfrom := chooseAtAddressFrom_next hne hsplit hbridged.found hbridged.next
  rw [hfrom] at hchoose
  have hmem : s₂.mem = s.mem := chooseAtAddressFrom_mem hfrom
  have huser : vUserBaseAddr ≤ address :=
    h.user_of_le (w := w) (by simp) (show s.lo w ≤ address.toNat by omega)
  have hs₂' : Spaces s₂.mem pds := by
    rw [hmem]
    exact hs
  obtain ⟨fuel, s', hr⟩ := reserveAndReturn_ends (v := s.heapTop) hs₂' hd
    (by rw [hbridged.base]; exact huser) (by
      show s₂.hi s.heapTop ≤ _
      rw [hbridged.base, hbridged.limit]
      omega) reserve
  obtain ⟨fuel', hcall⟩ := allocateAtAddress_of hchoose
    (show reserveChosen fuel pd reserve (.statusSuccess, some s.heapTop, s₂) = _ from hr)
  obtain ⟨-, hsame, -, hout⟩ := reserveAndReturn_spec hr
  refine ⟨fuel', s.heapTop, s', hcall, ?_⟩
  constructor
  · rw [hsame]
    exact hbridged.base
  · exact (hout s.heapTop rfl).2
  · rw [hsame]
    show _ ≤ s₂.hi s.heapTop
    rw [hbridged.limit]
    omega
  · refine ⟨_, (reserved_chain hr).mpr hbridged.chain, by simp, ?_⟩
    intro a houtside
    rw [hbridged.reserved h hbelow hr]
    split
    · -- before the vad that was found
      rename_i hlow
      rw [← h.status_below (by omega), statusOf_append, statusOf_cons, if_neg]
      · exact (Option.or_none).symm
      · intro hc
        have hc := (contains_iff.mp hc).1
        omega
    rename_i hlow
    split
    · rename_i hlt
      by_cases hgap : s.hi w ≤ a.toNat
      · exact (hbridges.between a hgap hlt).symm
      · have hin : s.contains a w = true := contains_iff.mpr (by omega)
        rw [statusOf_append, h.status_front (by omega), statusOf_cons, if_pos hin, hend.free]
        rfl
    rename_i hge
    split
    · -- a byte of the pages, so it was in a used vad
      rename_i hlt
      exact (houtside.resolve_right
        (not_not.mpr (inAsked_pages h0 hsize (BitVec.not_lt.mp hge) hlt))).symm
    · rename_i hout
      by_cases hlimit : a < vProcessLimitAddr
      · exact absurd houtside (hbridges.tail a (Nat.le_of_not_lt hout) hlimit)
      · exact (h.status_end hlimit).symm

/-! ## The call -/

/-- The condition is necessary. -/
theorem GrantsExactly.guard (hexact : s.GrantsExactly head l address size pd reserve)
    (h : Partition s head l) (hall : s.Allocated l) (hs : Spaces s.mem pds) (hd : pd ∈ pds)
    (ha : address ≠ 0) (h0 : size ≠ 0) : s.GrantGuard l address size := by
  intro w hstop
  rcases h.search ha h0 with ⟨-, hno, hholds⟩ | ⟨l₁, w', l₂, rfl, hend⟩
  · rw [if_pos (hholds w hstop)]
    intro havail
    exact absurd havail hno
  rw [hend.stop] at hstop
  cases hstop
  by_cases hc : s.contains address w = true
  · rw [if_pos hc]
    intro havail
    obtain ⟨u, hu, hcu, -, hroom⟩ := id havail
    obtain rfl := h.contains_unique hu (by simp) hcu hc
    obtain ⟨fuel, v, s', hr, hgrants⟩ := hexact.1 havail
    exact h.serves hall hs hd ha h0 hend hc hroom hr hgrants
  have hc : s.contains address w = false := Bool.eq_false_iff.mpr hc
  rw [hc, if_neg Bool.false_ne_true]
  split
  · rename_i hrefuses
    intro havail
    obtain ⟨fuel, v, s', hr, -⟩ := hexact.1 havail
    have hbase := h.base_ne (w := w) (by simp) hc
    obtain ⟨n, hchoose⟩ := hend.choose ha h0
    obtain ⟨st, hfails, hfailed⟩ := splitAtAddress_fails h0 ha hbase hrefuses
    rw [chooseAtAddressFrom_fails hbase hfails hfailed] at hchoose
    have hr := allocateAtAddress_inv hchoose hr
    rw [reserveChosen_failed (failed_eq_true.mp hfailed)] at hr
    cases hr
  · rename_i hnot
    by_cases havail : s.Available (l₁ ++ w :: l₂) address size
    · obtain ⟨fuel, v, s', hr, hgrants⟩ := hexact.1 havail
      exact h.bridges hall ha h0 hend hc hnot havail hr hgrants
    · obtain ⟨fuel, st, s', hr, -, hsame⟩ := hexact.2 havail
      exact absurd (hsame w (by simp)) (h.overshoot_changes hall ha h0 hend hc hnot hr)

/-- A vad that `SplitAtAddress` refuses lets the call fail with everything as it was. -/
theorem EndsAt.refused (hend : EndsAt s head l₁ w l₂ address size) (ha : address ≠ 0)
    (h0 : size ≠ 0) (hbase : (s.vads w).baseAddress ≠ address)
    (hrefuses : s.Refuses w address size) (pd : U32) (reserve : Bool) :
    ∃ fuel status, s.allocateAtAddress fuel head address size pd reserve =
      .ret (status, none, s) ∧ failed status = true := by
  obtain ⟨n, hchoose⟩ := hend.choose ha h0
  obtain ⟨st, hfails, hfailed⟩ := splitAtAddress_fails h0 ha hbase hrefuses
  rw [chooseAtAddressFrom_fails hbase hfails hfailed] at hchoose
  have hreserve : reserveChosen n pd reserve (st, none, s) = .ret (st, none, s) :=
    reserveChosen_failed (failed_eq_true.mp hfailed)
  obtain ⟨fuel, hcall⟩ := allocateAtAddress_of hchoose hreserve
  exact ⟨fuel, st, hcall, hfailed⟩

/-- The condition is sufficient. -/
theorem GrantGuard.exactly (hguard : s.GrantGuard l address size) (h : Partition s head l)
    (hall : s.Allocated l) (hs : Spaces s.mem pds) (hd : pd ∈ pds) (ha : address ≠ 0)
    (h0 : size ≠ 0) (reserve : Bool) : s.GrantsExactly head l address size pd reserve := by
  rcases h.search ha h0 with ⟨⟨n, hsearch⟩, hno, -⟩ | ⟨l₁, w, l₂, rfl, hend⟩
  · refine ⟨fun havail => absurd havail hno, fun _ => ?_⟩
    refine ⟨n, .statusNotFound, s, ?_, rfl, fun _ _ => rfl⟩
    rw [allocateAtAddress, if_neg ha, if_neg h0, hsearch]
    rfl
  have hw : w ∈ l₁ ++ w :: l₂ := by simp
  have hstep := hguard w hend.stop
  by_cases hc : s.contains address w = true
  · rw [if_pos hc] at hstep
    constructor
    · intro havail
      obtain ⟨u, hu, hcu, -, hroom⟩ := id havail
      obtain rfl := h.contains_unique hu hw hcu hc
      exact h.grants hall hs hd ha h0 hend hc hroom (hstep havail) reserve
    · intro hno
      -- there is too little room behind the address
      have hroom : ¬size ≤ (s.vads w).limitAddress - address := by
        intro hroom
        exact hno ⟨w, hw, hc, hend.free, hroom⟩
      have hbase : (s.vads w).baseAddress ≠ address := by
        rintro rfl
        rw [← h.size w hw] at hroom
        exact hroom hend.fits
      obtain ⟨fuel, st, hcall, hfailed⟩ :=
        hend.refused ha h0 hbase (.inr (BitVec.not_le.mp hroom)) pd reserve
      exact ⟨fuel, st, s, hcall, hfailed, fun _ _ => rfl⟩
  · have hc : s.contains address w = false := Bool.eq_false_iff.mpr hc
    rw [hc, if_neg Bool.false_ne_true] at hstep
    split at hstep
    · rename_i hrefuses
      refine ⟨fun havail => absurd havail hstep, fun _ => ?_⟩
      obtain ⟨fuel, st, hcall, hfailed⟩ :=
        hend.refused ha h0 (h.base_ne hw hc) hrefuses pd reserve
      exact ⟨fuel, st, s, hcall, hfailed, fun _ _ => rfl⟩
    · rename_i hnot
      refine ⟨fun _ => ?_, fun hno => absurd hstep.available hno⟩
      exact h.grants_bridge hall hs hd ha h0 hend hc hnot hstep reserve

/-- `AllocateAtAddress` on a partition grants exactly what is asked for, if and only if the
vad with which its search ends meets the condition. -/
theorem grantsExactly_iff (h : Partition s head l) (hall : s.Allocated l)
    (hs : Spaces s.mem pds) (hd : pd ∈ pds) (ha : address ≠ 0) (h0 : size ≠ 0) :
    s.GrantsExactly head l address size pd reserve ↔ s.GrantGuard l address size := by
  constructor
  · intro hexact
    exact hexact.guard h hall hs hd ha h0
  · intro hguard
    exact hguard.exactly h hall hs hd ha h0 reserve

end VadMem

/-- The one vad of a process that has just been created. -/
theorem VadMem.Partition.single {s : VadMem} {v : ℕ}
    (hv : s.vads v = ⟨vProcessBaseAddr, vProcessLimitAddr,
      vProcessLimitAddr - vProcessBaseAddr, true, none, none⟩) : s.Partition v [v] := by
  have hnext : s.next v = none := by rw [VadMem.next, hv]
  constructor
  · exact ⟨rfl, hnext⟩
  · refine ⟨?_, ?_, ?_⟩
    · rw [VadMem.lo, hv]
    · rw [VadMem.lo, VadMem.hi, hv]
      decide
    · show s.hi v = _
      rw [VadMem.hi, hv]
  · intro w hw
    rw [List.mem_singleton.mp hw, hv]
  · intro w hw x hx
    rw [List.mem_singleton.mp hw, hnext] at hx
    cases hx

/-- It is granted a page behind its first one. -/
theorem grantsExactly_created : ∃ pool w p, PagePool.bss.init kernelInfo = .ret pool ∧
    Run UserStep (bootWorld pool 0x10000) [.create] w ∧ p ∈ w.processes ∧
    w.s.GrantsExactly p.baseVad [p.baseVad] 0x40001000 0x1000 p.pdEntry true := by
  obtain ⟨pool, w, p, hpool, hrun, hcreated, -⟩ := boot_created
  have hp := hcreated.mem_processes
  refine ⟨pool, w, p, hpool, hrun, hp, ?_⟩
  have hall : w.s.Allocated [p.baseVad] := by
    intro v hv
    rw [List.mem_singleton.mp hv, hcreated.baseVad, hcreated.heapTop]
    exact Nat.lt_succ_self _
  have hone := VadMem.Partition.single hcreated.vad
  apply (VadMem.grantsExactly_iff hone hall hcreated.spaces (List.mem_map_of_mem hp) (by decide)
    (by decide)).mpr
  have hc : w.s.contains 0x40001000 p.baseVad = true := by
    rw [VadMem.contains, hcreated.vad]
    decide
  intro v hv
  rw [VadMem.stopVad, if_pos hc] at hv
  cases hv
  rw [if_pos hc]
  intro _
  constructor
  · right
    rw [hcreated.vad]
    decide
  · intro _ a hlost hlimit
    rw [VadMem.hi, hcreated.vad] at hlost
    exact absurd hlost (Nat.not_le.mpr hlimit)
  · rw [VadMem.grantLimit]
    split
    · rw [BitVec.toNat_add, VadMem.pagesOf_toNat (by decide) (by decide)]
      decide
    · rename_i hsplits
      rw [VadMem.SplitsBehind, hcreated.vad] at hsplits
      exact absurd (by decide) hsplits

/-- The vads after an allocation of a page, and one at the address 0x50000000. -/
def fourVads (mem : KernelMem) : VadMem where
  vads
    | 0 => ⟨0x40000000, 0x40002000, 0x2000, false, none, some 1⟩
    | 1 => ⟨0x40002000, 0x50000000, 0xFFFE000, true, some 0, some 2⟩
    | 2 => ⟨0x50000000, 0x50002000, 0x2000, false, some 1, some 3⟩
    | _ => ⟨0x50002000, 0xFFFFFFFF, 0xAFFFDFFF, true, some 2, none⟩
  heapTop := 4
  mem := mem

theorem fourVads_partition (mem : KernelMem) : (fourVads mem).Partition 0 [0, 1, 2, 3] := by
  constructor
  · exact ⟨rfl, rfl, rfl, rfl, rfl⟩
  · refine ⟨rfl, ?_, rfl, ?_, rfl, ?_, rfl, ?_, rfl⟩
    · show (0x40000000 : U32) < 0x40002000
      decide
    · show (0x40002000 : U32) < 0x50000000
      decide
    · show (0x50000000 : U32) < 0x50002000
      decide
    · show (0x50002000 : U32) < 0xFFFFFFFF
      decide
  · intro v hv
    simp only [List.mem_cons, List.not_mem_nil, or_false] at hv
    rcases hv with rfl | rfl | rfl | rfl
    · show (0x2000 : U32) = 0x40002000 - 0x40000000
      decide
    · show (0xFFFE000 : U32) = 0x50000000 - 0x40002000
      decide
    · show (0x2000 : U32) = 0x50002000 - 0x50000000
      decide
    · show (0xAFFFDFFF : U32) = 0xFFFFFFFF - 0x50002000
      decide
  · intro v hv w hw
    simp only [List.mem_cons, List.not_mem_nil, or_false] at hv
    rcases hv with rfl | rfl | rfl | rfl <;> cases hw <;> rfl

/-- An address in the last of them: the search ends at the second one. -/
theorem not_grantsExactly : ∃ pool w p, PagePool.bss.init kernelInfo = .ret pool ∧
    Run UserStep (bootWorld pool 0x10000) [.create] w ∧ p ∈ w.processes ∧
    (fourVads w.s.mem).Partition 0 [0, 1, 2, 3] ∧ (fourVads w.s.mem).Allocated [0, 1, 2, 3] ∧
    Spaces (fourVads w.s.mem).mem w.pds ∧
    ¬(fourVads w.s.mem).GrantsExactly 0 [0, 1, 2, 3] 0x60000000 0x1000 p.pdEntry true := by
  obtain ⟨pool, w, p, hpool, hrun, hcreated, -⟩ := boot_created
  have hp := hcreated.mem_processes
  have hall : (fourVads w.s.mem).Allocated [0, 1, 2, 3] := by
    intro v hv
    have hlt : ∀ v ∈ [0, 1, 2, 3], v < 4 := by decide
    exact hlt v hv
  have hpart := fourVads_partition w.s.mem
  refine ⟨pool, w, p, hpool, hrun, hp, hpart, hall, hcreated.spaces, ?_⟩
  intro hexact
  have hguard := hexact.guard hpart hall hcreated.spaces (List.mem_map_of_mem hp) (by decide)
    (by decide)
  have hbridges := hguard 1 rfl
  have hc : (fourVads w.s.mem).contains 0x60000000 1 = false := rfl
  rw [hc, if_neg Bool.false_ne_true, if_neg] at hbridges
  · -- the used vad at 0x50000000 lies between
    have hbetween := hbridges.between 0x50000000 (Nat.le_refl _) (by decide)
    have hused : (fourVads w.s.mem).statusOf [0, 1, 2, 3] 0x50000000 = some false := rfl
    rw [hused] at hbetween
    cases hbetween
  · rintro (hsmall | hroom)
    · exact absurd (show (0xFFFE000 : U32) - 0x1000 < vadMinimumDelta from hsmall) (by decide)
    · exact absurd (show (0x50000000 : U32) - 0x60000000 < 0x1000 from hroom) (by decide)

end LtMicros
