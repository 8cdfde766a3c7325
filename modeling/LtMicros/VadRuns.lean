import LtMicros.VadCalls
import LtMicros.VadReserve

/-!
# Runs of the two allocation calls of a process
-/

namespace LtMicros

open Lib

/-- A state of the vads of a process, with the regions that the calls have
handed out. -/
structure ProcessVads where
  mem : VadMem
  given : List (U32 × U32)

/-- The calls of a run, with their parameters. -/
inductive VadOp where
  | allocate (size pageDirectory : U32) (reservePhysicalPages : Bool)
  | allocateAtAddress (address size pageDirectory : U32) (reservePhysicalPages : Bool)

namespace VadMem

variable {m m' : VadMem} {head v w : ℕ} {l l₁ l₂ : List ℕ}

/-- The region of a vad. -/
def region (m : VadMem) (v : ℕ) : U32 × U32 := ((m.vads v).baseAddress, (m.vads v).limitAddress)

/-- The state after a call that returned `out`. -/
def ended (m : VadMem) (out : Option ℕ) (given : List (U32 × U32)) : ProcessVads :=
  ⟨m, (out.map m.region).toList ++ given⟩

/-- The vad that `Process::Create` makes. -/
def processCreate (m : VadMem) : KeStatus × Option ℕ × VadMem :=
  m.create vProcessBaseAddr (vProcessLimitAddr - vProcessBaseAddr) true

theorem processCreate_spec (m : VadMem) :
    ∃ m', m.processCreate = (.statusSuccess, some m.heapTop, m') ∧
      m'.vads m.heapTop =
        ⟨vProcessBaseAddr, vProcessLimitAddr, vProcessLimitAddr - vProcessBaseAddr, true, none,
          none⟩ ∧
      m'.heapTop = m.heapTop + 1 ∧ m'.mem = m.mem := by
  refine ⟨_, m.create_spec (by decide) (by decide) true, ?_, rfl, rfl⟩
  exact (Function.update_self _ _ _).trans (by decide)

/-- The single free vad is a partition. -/
theorem processCreate_partition
    (hv : m.vads v =
      ⟨vProcessBaseAddr, vProcessLimitAddr, vProcessLimitAddr - vProcessBaseAddr, true, none,
        none⟩) :
    Partition m v [v] := by
  constructor
  · exact ⟨rfl, by rw [next, hv]; rfl⟩
  · rw [Tiles.cons_iff, Tiles.nil_iff, lo, hi, hv]
    decide
  · intro w hw
    rw [List.mem_singleton.mp hw, hv]
  · intro w hw x hx
    rw [List.mem_singleton.mp hw, next, hv] at hx
    cases hx

end VadMem

/-- One call on `baseVad` that returns. -/
inductive VadStep (baseVad : ℕ) : ProcessVads → VadOp → ProcessVads → Prop
  | allocate {s : ProcessVads} {fuel : ℕ} {size pageDirectory : U32} {reserve : Bool}
      {status : KeStatus} {out : Option ℕ} {m : VadMem} :
      s.mem.allocate fuel baseVad size pageDirectory reserve = .ret (status, out, m) →
      VadStep baseVad s (.allocate size pageDirectory reserve) (m.ended out s.given)
  | allocateAtAddress {s : ProcessVads} {fuel : ℕ} {address size pageDirectory : U32}
      {reserve : Bool} {status : KeStatus} {out : Option ℕ} {m : VadMem} :
      s.mem.allocateAtAddress fuel baseVad address size pageDirectory reserve =
        .ret (status, out, m) →
      VadStep baseVad s (.allocateAtAddress address size pageDirectory reserve)
        (m.ended out s.given)

/-- The condition on a call. -/
def VadGuard (baseVad : ℕ) (s : ProcessVads) : VadOp → Prop
  | .allocate size _ _ => s.mem.SplitsLast baseVad size
  | .allocateAtAddress address size _ _ => s.mem.FindsAddress baseVad address size

/-- The list from `baseVad` is a partition, every region handed out is a used
vad of it, and every address of the range is found in exactly one vad. -/
def Partitioned (baseVad : ℕ) (s : ProcessVads) : Prop :=
  ∃ l, s.mem.Partition baseVad l ∧
    (∀ r ∈ s.given, ∃ v ∈ l, s.mem.region v = r ∧ (s.mem.vads v).free = false) ∧
    ∀ address, vProcessBaseAddr ≤ address → address < vProcessLimitAddr →
      ∃ v ∈ l, s.mem.contains address v = true ∧
        (∀ w ∈ l, s.mem.contains address w = true → w = v) ∧
        ∃ fuel, s.mem.lookForVadFromAddress fuel baseVad address = .ret (.statusSuccess, some v)

/-- The invariant of guarded runs. -/
def VadInv (baseVad : ℕ) (s : ProcessVads) : Prop :=
  ∃ l, s.mem.Partition baseVad l ∧ s.mem.Allocated l ∧
    ∀ r ∈ s.given, ∃ v ∈ l, s.mem.region v = r ∧ (s.mem.vads v).free = false

variable {baseVad : ℕ} {s s' : ProcessVads} {op : VadOp}

/-- In a partition every address of the range is found. -/
theorem VadMem.Partition.finds {m : VadMem} {l : List ℕ} (h : m.Partition baseVad l)
    {address : U32} (hlo : vProcessBaseAddr ≤ address) (hhi : address < vProcessLimitAddr) :
    ∃ v ∈ l, m.contains address v = true ∧ (∀ w ∈ l, m.contains address w = true → w = v) ∧
      ∃ fuel, m.lookForVadFromAddress fuel baseVad address = .ret (.statusSuccess, some v) := by
  have hiff (w : ℕ) : m.contains address w = true ↔
      m.lo w ≤ address.toNat ∧ address.toNat < m.hi w := VadMem.contains_eq_true
  obtain ⟨v, hv, hcv⟩ := h.tiles.exists_mem hlo hhi
  have huniq : ∀ w ∈ l, m.contains address w = true → w = v := fun w hw hcw =>
    h.tiles.eq_of_common hw hv ((hiff w).mp hcw) hcv
  have h0 : address ≠ 0 := by
    rintro rfl
    exact absurd hlo (by decide)
  refine ⟨v, hv, (hiff v).mpr hcv, huniq, _,
    (VadMem.lookForVad_spec h.chain h0 (Nat.lt_succ_self _)).trans ?_⟩
  cases hf : l.find? (m.contains address) with
  | none => exact absurd ((hiff v).mpr hcv) (by simpa using List.find?_eq_none.mp hf v hv)
  | some w => rw [huniq w (List.mem_of_find?_eq_some hf) (List.find?_some hf), Option.elim_some]

theorem VadInv.partitioned (h : VadInv baseVad s) : Partitioned baseVad s := by
  obtain ⟨l, hpart, -, hgiven⟩ := h
  exact ⟨l, hpart, hgiven, fun _ hlo hhi => hpart.finds hlo hhi⟩

/-- What a call preserves of the invariant. -/
theorem VadInv.ended {m : VadMem} {out : Option ℕ} {l l' : List ℕ}
    (hgiven : ∀ r ∈ s.given, ∃ v ∈ l, s.mem.region v = r ∧ (s.mem.vads v).free = false)
    (h : s.mem.Preserves m baseVad l l' out) : VadInv baseVad (m.ended out s.given) := by
  refine ⟨l', h.partition, h.allocated, fun r hr => ?_⟩
  rcases List.mem_append.mp hr with hr | hr
  · obtain ⟨v, rfl, rfl⟩ : ∃ v, out = some v ∧ m.region v = r := by
      cases out <;> simp_all
    obtain ⟨hv, hfree⟩ := h.result v rfl
    exact ⟨v, hv, rfl, hfree⟩
  · obtain ⟨v, hv, rfl, hfree⟩ := hgiven r hr
    obtain ⟨hv', hb, hl, hf⟩ := h.used v hv hfree
    exact ⟨v, hv', Prod.ext hb hl, hf⟩

/-- Every guarded call keeps the invariant. -/
theorem VadInv.step (h : VadInv baseVad s) (hguard : VadGuard baseVad s op)
    (hstep : VadStep baseVad s op s') : VadInv baseVad s' := by
  obtain ⟨l, hpart, hall, hgiven⟩ := h
  cases hstep with
  | allocate hr =>
    obtain ⟨l', hpres⟩ := hpart.allocate hall hguard hr
    exact .ended hgiven hpres
  | allocateAtAddress hr =>
    obtain ⟨l', hpres⟩ := hpart.allocateAtAddress hall hguard hr
    exact .ended hgiven hpres

theorem VadInv.init (m : VadMem) :
    VadInv m.heapTop ⟨m.processCreate.2.2, []⟩ := by
  obtain ⟨m', hm', hv, htop, -⟩ := m.processCreate_spec
  rw [hm']
  refine ⟨_, VadMem.processCreate_partition hv, fun w hw => ?_, fun r hr => by cases hr⟩
  rw [List.mem_singleton.mp hw, htop]
  exact Nat.lt_succ_self _

/-- From the single free vad of `Process::Create`, every run whose calls meet the
condition leaves a partition. -/
theorem vads_partitioned {m : VadMem} {ops : List VadOp}
    (h : Run (Guarded (VadGuard m.heapTop) (VadStep m.heapTop)) ⟨m.processCreate.2.2, []⟩ ops s) :
    Partitioned m.heapTop s := by
  have hinv : VadInv m.heapTop s :=
    h.guarded_invariant (fun _ _ _ hi hc hs => VadInv.step hi hc hs) (.init m)
  exact hinv.partitioned

/-! ## Splitting a vad that is not the last one -/

namespace VadMem

variable {m m' : VadMem} {head v w : ℕ} {l₁ l₂ : List ℕ} {size : U32}

/-- `Split` in the middle of the list cuts off everything behind the new vad. -/
theorem Partition.split_inner (h : Partition m head (l₁ ++ v :: w :: l₂))
    (hall : Allocated m (l₁ ++ v :: w :: l₂)) (h0 : size ≠ 0) (hsize : size ≤ (m.vads v).size)
    (hdelta : vadMinimumDelta < (m.vads v).size - size) :
    ∃ m', m.split v size = (.statusSuccess, m') ∧ m'.mem = m.mem ∧
      (m'.vads v).limitAddress < (m.vads v).limitAddress ∧ ∀ l, ¬ Partition m' head l := by
  have hv : v ∈ l₁ ++ v :: w :: l₂ := by simp
  have hne := Nat.ne_of_lt (hall v hv)
  obtain ⟨m', mid, hm', -, hmid, -, hnew, hthis, hframe, -, hmem⟩ :=
    split_spec h0 hsize hdelta (h.size v hv) (h.lt hv) hne
  refine ⟨m', hm', hmem, by rw [hthis]; exact hmid, fun l hl => ?_⟩
  obtain ⟨hc₁, hc₂⟩ := Seg.mid_iff.mp h.chain
  have hchain : Chain m'.next (some head) (l₁ ++ [v, m.heapTop]) := by
    refine Seg.mid_iff.mpr ⟨?_, ?_, ?_⟩
    · refine (Seg.congr fun x hx => ?_).mp hc₁
      have hxv : x ≠ v := by
        rintro rfl
        exact List.disjoint_of_nodup_append h.chain.nodup hx List.mem_cons_self
      rw [next, next, hframe x hxv (Nat.ne_of_lt (hall x (by simp [hx])))]
    · rw [next, hthis]
    · rw [next, hnew]
      rfl
  obtain rfl := hl.chain.unique hchain
  -- the last vad ends where `v` ended, which is not the end of the range
  have hend : m'.hi m.heapTop = vProcessLimitAddr.toNat := by
    rw [show l₁ ++ [v, m.heapTop] = (l₁ ++ [v]) ++ [m.heapTop] by simp] at hl
    exact (Tiles.mid_iff.mp hl.tiles).2.2
  have hlt := ((Tiles.mid_iff.mp h.tiles).2.2.mem_bounds List.mem_cons_self)
  rw [hi, hnew] at hend
  have : m.hi v = vProcessLimitAddr.toNat := hend
  omega

end VadMem

/-- The memory of a process that has just been created, all of whose page
tables are there. -/
def bootVads : VadMem where
  vads := fun _ => ⟨0, 0, 0, false, none, none⟩
  heapTop := 0
  mem := ⟨.uniform, ⟨fun _ => 1⟩, .bss⟩

/-- A page is allocated at an address in the middle of the range: the vad in front of it
ends there. -/
theorem boot_allocateAt {address : U32} (hlo : vProcessBaseAddr < address)
    (hhi : address ≤ 0x50000000) : ∃ fuel m,
    bootVads.processCreate.2.2.allocateAtAddress fuel 0 address 4096 0x1000 true =
      .ret (.statusSuccess, some 1, m) ∧
    m.mem.mmu.AllPresent ∧ m.mem.gPmm.used 0 = true ∧ 1 < m.heapTop ∧
    (∃ previous, m.vads 0 = ⟨vProcessBaseAddr, address, address - vProcessBaseAddr, true, previous,
      some 1⟩) ∧
    (m.vads 1).baseAddress = address ∧ (m.vads 1).limitAddress = address + 8192 ∧
    (m.vads 1).free = false := by
  obtain ⟨m, hm, hv, htop, hmem⟩ := bootVads.processCreate_spec
  rw [hm]
  have hv : m.vads 0 = ⟨vProcessBaseAddr, vProcessLimitAddr, 0xBFFFFFFF, true, none, none⟩ := hv
  have htop : m.heapTop = 1 := htop
  have hlo' : 0x40000000 < address.toNat := hlo
  have hhi' : address.toNat ≤ 0x50000000 := hhi
  have hpart : m.Partition 0 ([] ++ 0 :: []) := VadMem.processCreate_partition hv
  have hall : m.Allocated ([] ++ 0 :: []) := by
    intro w hw
    rw [List.mem_singleton.mp hw, htop]
    exact Nat.one_pos
  have hnone : m.next 0 = none := by rw [VadMem.next, hv]
  have hend : address < vProcessLimitAddr := by
    show address.toNat < 0xFFFFFFFF
    omega
  have hroom : (vProcessLimitAddr - address).toNat = 0xFFFFFFFF - address.toNat :=
    BitVec.toNat_sub_of_le (BitVec.le_of_lt hend)
  have hsize : (4096 : U32) ≤ vProcessLimitAddr - address := by
    show 4096 ≤ (vProcessLimitAddr - address).toNat
    omega
  have hdelta : vadMinimumDelta < vProcessLimitAddr - address - 4096 := by
    show 4096 < (vProcessLimitAddr - address - 4096).toNat
    rw [BitVec.toNat_sub_of_le hsize, hroom]
    show 4096 < 0xFFFFFFFF - address.toNat - 4096
    omega
  obtain ⟨m₁, l, hm₁, hcarves, hl, hmem₁, hlimit, previous, hthis⟩ := hpart.splitInside address 4096
    hall (by decide) (by rw [hv]; exact hsize) (by rw [hv]; exact hlo) (by rw [hv]; exact hend)
    fun _ => hnone
  rw [hv] at hthis
  rw [htop] at hthis hl hlimit
  have hpages : VadMem.pagesOf 4096 = 8192 := by
    rw [VadMem.pagesOf, VadMem.localMod_eq_one (by decide)]
    decide
  have hlimit₁ : (m₁.vads 1).limitAddress = address + 8192 := by
    rw [hlimit (by rw [hv]; exact hdelta), hpages]
  have hbase₁ : (m₁.vads 1).baseAddress = address := by
    -- the new vad follows the first one
    have hnext : m₁.next 0 = some 1 := by rw [VadMem.next, hthis]
    obtain ⟨rest, rfl, hrest⟩ := hcarves.partition.chain.chain_cons rfl
    obtain ⟨rest, rfl, -⟩ := hrest.chain_cons hnext
    have htiles := (Tiles.cons_iff.mp hcarves.partition.tiles).2.2
    have hstart : m₁.lo 1 = m₁.hi 0 := (Tiles.cons_iff.mp htiles).1
    rw [VadMem.lo, VadMem.hi, hthis] at hstart
    exact BitVec.eq_of_toNat_eq hstart
  have hfar : (m₁.vads 1).limitAddress.toNat + 4096 ≤ 2 ^ 32 := by
    rw [hlimit₁, BitVec.toNat_add]
    show (address.toNat + 8192) % 2 ^ 32 + 4096 ≤ 2 ^ 32
    omega
  obtain ⟨n, hn⟩ : ∃ n : ℕ, 2 ^ 32 ≤ n + 1 := ⟨2 ^ 32, Nat.le_succ _⟩
  obtain ⟨k, hk, hk₁, hk₂⟩ := VadMem.reserveAndReturn_returns
    (by rw [hmem₁, hmem]; exact Mmu.uniform_allPresent) (by rw [hmem₁, hmem]; decide)
    hfar 0x1000 hn
  have hc : m.contains address 0 = true := by
    rw [VadMem.contains_eq_true, hv]
    exact ⟨BitVec.le_of_lt hlo, hend⟩
  have hans : m.answerAt address 4096 0 = (.statusSuccess, some 0) := by
    rw [VadMem.answerAt, hv, if_neg]
    rw [not_or]
    exact ⟨Bool.noConfusion, BitVec.not_lt.mpr hsize⟩
  have hne : (m.vads 0).baseAddress ≠ address := by
    rw [hv]
    rintro rfl
    exact BitVec.lt_irrefl _ hlo
  have ha : address ≠ 0 := by
    rintro rfl
    exact BitVec.not_lt_zero hlo
  have hcall : m.allocateAtAddress (n + 1) 0 address 4096 0x1000 true =
      .ret (.statusSuccess, some 1, { m₁ with mem := k }.store 1 fun vad =>
        { vad with free := false }) := by
    rw [VadMem.allocateAtAddress_head n ha (by decide) hc hans,
      VadMem.allocateAtAddressFrom, if_pos (.inl hne),
      VadMem.splitAtAddress_eq (by decide) ha (by rw [hv]; decide) (by rw [hv]; decide),
      if_pos hne, hm₁]
    rw [hv] at hne
    simp only [failed, hthis, VadMem.next, if_pos hne, ne_eq, not_true_eq_false, decide_false,
      Bool.false_eq_true, if_false, Outcome.ofOption_some, Outcome.ret_bind]
    exact hk
  refine ⟨n + 1, _, hcall, hk₁, hk₂, hcarves.allocated 1 hl, ⟨previous, ?_⟩, ?_, ?_, ?_⟩
  · rw [VadMem.store_of_ne _ (by decide)]
    exact hthis
  · rw [VadMem.store_self]
    exact hbase₁
  · rw [VadMem.store_self]
    exact hlimit₁
  · rw [VadMem.store_self]

/-- The search of a new process ends at its only vad. -/
theorem boot_findsAddress (address size : U32) :
    bootVads.processCreate.2.2.FindsAddress 0 address size := by
  obtain ⟨m, hm, hv, htop, -⟩ := bootVads.processCreate_spec
  rw [hm]
  have hv : m.vads 0 = ⟨vProcessBaseAddr, vProcessLimitAddr, 0xBFFFFFFF, true, none, none⟩ := hv
  intro l₁ v l₂ hchain _ hends
  obtain ⟨rfl, rfl⟩ : l₁ = [] ∧ v = 0 := by
    have := hchain.unique (VadMem.processCreate_partition hv).chain
    cases l₁ with
    | nil => simp_all
    | cons w l₁ => simp at this
  have hnone : m.next 0 = none := by rw [VadMem.next, hv]
  refine ⟨fun _ _ _ _ => hnone, fun hc => ?_⟩
  rcases hends with hc' | ⟨hne, -⟩
  · rw [hc] at hc'
    cases hc'
  · exact absurd rfl hne

/-- One page in the middle of the range is allocated. -/
theorem boot_allocateAtAddress :
    ∃ s, Run (Guarded (VadGuard 0) (VadStep 0)) ⟨bootVads.processCreate.2.2, []⟩
        [.allocateAtAddress 0x50000000 4096 0x1000 true] s ∧
      s.mem.mem.mmu.AllPresent ∧ s.mem.mem.gPmm.used 0 = true ∧ s.mem.next 0 = some 1 ∧
      (s.mem.vads 0).limitAddress = 0x50000000 ∧ (s.mem.vads 0).size = 0x10000000 ∧
      (s.mem.vads 0).free = true := by
  obtain ⟨fuel, m, hcall, hmmu, hpmm, -, ⟨previous, hthis⟩, -⟩ :=
    boot_allocateAt (show vProcessBaseAddr < 0x50000000 by decide) (BitVec.le_refl _)
  have hguard := boot_findsAddress 0x50000000 4096
  refine ⟨_, .single ⟨hguard, .allocateAtAddress hcall⟩, hmmu, hpmm, ?_⟩
  simp only [VadMem.ended, VadMem.next, hthis]
  decide

theorem vads_partitioned_boot :
    ∃ s, Run (Guarded (VadGuard 0) (VadStep 0)) ⟨bootVads.processCreate.2.2, []⟩
        [.allocateAtAddress 0x50000000 4096 0x1000 true] s ∧ Partitioned 0 s := by
  obtain ⟨s, hrun, -⟩ := boot_allocateAtAddress
  exact ⟨s, hrun, vads_partitioned (m := bootVads) hrun⟩

/-- One page in the middle of the range is allocated, then one page anywhere:
the second call splits the first vad of the list and loses the others. -/
theorem allocate_loses_vads :
    ∃ s, Run (VadStep 0) ⟨bootVads.processCreate.2.2, []⟩
      [.allocateAtAddress 0x50000000 4096 0x1000 true, .allocate 4096 0x1000 true] s ∧
      ¬ Partitioned 0 s := by
  obtain ⟨s, hrun, hmmu, hpmm, hnext, hlimit, hsize, hfree⟩ := boot_allocateAtAddress
  have hinv : VadInv 0 s := hrun.guarded_invariant (fun _ _ _ hi hc hs => VadInv.step hi hc hs)
    (.init bootVads)
  obtain ⟨l, hpart, hall, -⟩ := hinv
  obtain ⟨rest, rfl, hrest⟩ := hpart.chain.chain_cons rfl
  obtain ⟨rest, rfl, -⟩ := hrest.chain_cons hnext
  obtain ⟨m', hm', hmem, hlt, hbreak⟩ := VadMem.Partition.split_inner
    (show s.mem.Partition 0 ([] ++ 0 :: 1 :: rest) from hpart) hall
    (show (4096 : U32) ≠ 0 by decide) (by rw [hsize]; decide) (by rw [hsize]; decide)
  obtain ⟨n, hn⟩ : ∃ n : ℕ, 2 ^ 32 ≤ n + 1 := ⟨2 ^ 32, Nat.le_succ _⟩
  have hlimit' : (m'.vads 0).limitAddress.toNat + 4096 ≤ 2 ^ 32 := by
    rw [hlimit, BitVec.lt_def] at hlt
    have : (0x50000000 : U32).toNat = 0x50000000 := rfl
    omega
  obtain ⟨k, hk, -⟩ := VadMem.reserveAndReturn_returns (s := m') (v := 0) (hmem ▸ hmmu)
    (hmem ▸ hpmm) hlimit' 0x1000 hn
  have hcall : s.mem.allocate (n + 1) 0 4096 0x1000 true = .ret (.statusSuccess, some 0,
      { m' with mem := k }.store 0 fun vad => { vad with free := false }) := by
    rw [VadMem.allocate_head n (by decide) (VadMem.fits_eq_true.mpr ⟨by rw [hsize]; decide, hfree⟩),
      VadMem.allocateFrom, if_pos (by rw [hsize]; decide), hm']
    exact hk
  refine ⟨_, (hrun.mono fun _ _ _ h => h.2).snoc (.allocate hcall), ?_⟩
  rintro ⟨l, hl, -⟩
  refine hbreak l (hl.of_free fun w => ?_)
  -- reserving the pages has only changed `free`
  by_cases hw : w = 0
  · subst hw
    simp [VadMem.ended]
  · simp [VadMem.ended, VadMem.store_of_ne _ hw]

end LtMicros
