import LtMicros.Populate
import LtMicros.ProcessMemory

/-!
# Lazy and eager allocation

`AllocateMemory` with physical pages maps every page of the vad at once, without
them it enters absent pages that `ResolvePageFault` maps one by one. Both ways end
with the same rights everywhere, and with a page of its own for every page.
-/

namespace LtMicros

open Lib Lib.Frames

/-- The flags that `ReservePages` maps pages with. -/
def reserveFlags (reservePhysicalPages : Bool) : U32 :=
  if reservePhysicalPages then presentFlags else absentFlags

/-- The entries are those of the pages from `a` to `b`, with the rights of `flags`. -/
def RightsOn (r : ℕ → Option U32) (flags : U32) (a b : ℕ) : Prop :=
  ∀ n, (r n).map rightsOf = if a ≤ n ∧ n < b then some (rightsOf flags) else none

/-- The loop of `ReservePages` has come to the address `v`, with memory for `n` pages
besides those that are still to be mapped. -/
structure Reserving (phys₀ : U32 → U32) (pds : List U32) (d base limit : U32) (reserve : Bool)
    (n : ℕ) (v : U32) (k : KernelMem) : Prop where
  ge : base ≤ v
  le : v ≤ limit
  aligned : v.toNat % pageSize = 0
  current : k.mmu.cr3 = d
  populates : ∃ r, Populates phys₀ k pds d r ∧
    RightsOn r (reserveFlags reserve) (pageNo base) (pageNo v)
  affords : k.Affords d base limit (n + if reserve then pageNo limit - pageNo v else 0)

section Loop

variable {phys₀ : U32 → U32} {k k' : KernelMem} {pds : List U32} {d v p flags base limit : U32}
  {r : ℕ → Option U32} {a b n fuel : ℕ} {reserve : Bool}

theorem RightsOn.next (h : RightsOn r flags a b) (hle : a ≤ b) (p : U32) :
    RightsOn (Function.update r b (some (setPageTableEntry p flags))) flags a (b + 1) := by
  intro n
  by_cases hn : n = b
  · rw [hn, Function.update_self, if_pos ⟨hle, Nat.lt_succ_self b⟩, Option.map_some,
      rightsOf_setPageTableEntry]
  · rw [Function.update_of_ne hn, h n]
    apply if_congr _ rfl rfl
    omega

/-- One turn maps the page `v`. -/
theorem Reserving.turn (h : Reserving phys₀ pds d base limit reserve n v k) (hd : d ∈ pds)
    (hbase : vUserBaseAddr ≤ base) (hlimit : limit ≤ 0xFFC00000)
    (haligned : limit.toNat % pageSize = 0) (hlt : v < limit) :
    ∃ k', VadMem.reservePagesTurn limit reserve (v, k) = .ret (.inl (v + 4096, k')) ∧
      Reserving phys₀ pds d base limit reserve n (v + 4096) k' := by
  obtain ⟨hge, -, hv, hcr3, ⟨r, hpopulates, hrights⟩, haffords⟩ := h
  have huser : InUser v := ⟨BitVec.le_trans hbase hge, Nat.lt_of_lt_of_le hlt hlimit⟩
  have hge' : base.toNat ≤ v.toNat := hge
  have hlt' : v.toNat < limit.toNat := hlt
  have hpage : (4096 : U32).toNat = 4096 := rfl
  have hnext : (v + 4096).toNat = v.toNat + 4096 := by
    have hbound := limit.isLt
    unfold pageSize at hv haligned
    rw [BitVec.toNat_add, hpage]
    omega
  have hpages : pageNo (v + 4096) = pageNo v + 1 := by
    unfold pageNo pageSize
    omega
  have hleft : pageNo limit - pageNo v = pageNo limit - pageNo (v + 4096) + 1 := by
    rw [hpages]
    unfold pageNo pageSize at *
    omega
  have hbelow : pageNo base ≤ pageNo v := Nat.div_le_div_right hge'
  have hplace : base ≤ v + 4096 ∧ v + 4096 ≤ limit ∧ (v + 4096).toNat % pageSize = 0 := by
    unfold pageSize at hv haligned ⊢
    refine ⟨?_, ?_, by omega⟩
    · show base.toNat ≤ (v + 4096).toNat
      omega
    · show (v + 4096).toNat ≤ limit.toNat
      omega
  cases reserve with
  | true =>
    rw [if_pos rfl, hleft, ← Nat.add_assoc] at haffords
    obtain ⟨hne, k', hadd, hcr3', haffords', hpopulates'⟩ :=
      hpopulates.page hd hcr3 huser hge hlt haffords
    refine ⟨k', ?_, hplace.1, hplace.2.1, hplace.2.2, hcr3', ⟨_, hpopulates', ?_⟩, haffords'⟩
    · have hadd' : KernelMem.addPageToPageDirectory
          { k with gPmm := k.gPmm.getFreePage.2 } v k.gPmm.getFreePage.1
          (pagePresent ||| pageWriteable ||| pageNonPrivilegedAccess) = .ret k' := hadd
      simp only [VadMem.reservePagesTurn, if_pos hlt, if_true, if_neg hne, hadd',
        Outcome.ret_bind, Outcome.pure_eq]
    · rw [hpages]
      exact hrights.next hbelow _
  | false =>
    rw [if_neg Bool.false_ne_true] at haffords
    obtain ⟨k', hadd, hcr3', haffords', hpopulates'⟩ :=
      hpopulates.absentPage hd hcr3 huser hge hlt haffords
    refine ⟨k', ?_, hplace.1, hplace.2.1, hplace.2.2, hcr3', ⟨_, hpopulates', ?_⟩, haffords'⟩
    · have hadd' : k.addPageToPageDirectory v 0 (pageWriteable ||| pageNonPrivilegedAccess) =
          .ret k' := hadd
      simp only [VadMem.reservePagesTurn, if_pos hlt, Bool.false_eq_true, if_false, hadd',
        Outcome.ret_bind, Outcome.pure_eq]
    · rw [hpages]
      exact hrights.next hbelow _

/-- The whole loop maps the pages from `base` to `limit`. -/
theorem Reserving.loop (h : Reserving phys₀ pds d base limit reserve n base k) (hd : d ∈ pds)
    (hbase : vUserBaseAddr ≤ base) (hlimit : limit ≤ 0xFFC00000)
    (haligned : limit.toNat % pageSize = 0) (hfuel : 2 ^ 32 ≤ fuel) :
    ∃ k', Outcome.loop (VadMem.reservePagesTurn limit reserve) fuel (base, k) =
        .ret (.statusSuccess, k') ∧ Reserving phys₀ pds d base limit reserve n limit k' := by
  have hends := Outcome.loop_terminates (f := VadMem.reservePagesTurn limit reserve)
    (I := fun st : U32 × KernelMem => Reserving phys₀ pds d base limit reserve n st.1 st.2)
    (Q := fun res : KeStatus × KernelMem => res.1 = .statusSuccess ∧
      Reserving phys₀ pds d base limit reserve n limit res.2)
    (fun st => limit.toNat - st.1.toNat) ?_ (s := (base, k)) h (n := fuel) ?_
  · obtain ⟨⟨status, k'⟩, hloop, hstatus, hreserving⟩ := hends
    dsimp only at hstatus hreserving
    rw [hstatus] at hloop
    exact ⟨k', hloop, hreserving⟩
  · intro ⟨v, k₁⟩ hv
    dsimp only at hv ⊢
    by_cases hlt : v < limit
    · right
      obtain ⟨k₂, hturn, hnext⟩ := hv.turn hd hbase hlimit haligned hlt
      refine ⟨(v + 4096, k₂), hturn, hnext, ?_⟩
      have hle : (v + 4096).toNat ≤ limit.toNat := hnext.le
      have hlt : v.toNat < limit.toNat := hlt
      have haligned' := hnext.aligned
      have hpage : (4096 : U32).toNat = 4096 := rfl
      have hadd := BitVec.toNat_add v 4096
      rw [hpage] at hadd
      have hge : base.toNat ≤ (v + 4096).toNat := hnext.ge
      have hlow : 0x40000000 ≤ base.toNat := hbase
      have hbound := v.isLt
      dsimp only
      omega
    · left
      have heq : v = limit := BitVec.le_antisymm hv.le (BitVec.not_lt.mp hlt)
      refine ⟨(.statusSuccess, k₁), ?_, rfl, ?_⟩
      · simp only [VadMem.reservePagesTurn, if_neg hlt]
      · rwa [heq] at hv
  · have hbound := limit.isLt
    dsimp only
    omega

theorem Reserving.start {r : Bool} (hs : Separate ⟨k, pds⟩) (hcr3 : k.mmu.cr3 = d)
    (hle : base ≤ limit) (hbase : base.toNat % pageSize = 0)
    (haffords : k.Affords d base limit (n + if r then pageNo limit - pageNo base else 0)) :
    Reserving k.mmu.phys pds d base limit r n base k := by
  refine ⟨BitVec.le_refl base, hle, hbase, hcr3, ⟨_, .start hs d, ?_⟩, haffords⟩
  intro n
  rw [Option.map_none, if_neg]
  omega

end Loop

/-! ## The vad that is allocated -/

namespace VadMem

/-- The vad `v` has been chosen from the list at `head`, behind the vads `l`. -/
structure Chosen (s s' : VadMem) (head v : ℕ) (l : List ℕ) : Prop where
  seg : Seg s'.next (some head) l (some v)
  apart : ∀ u, s'.contains u v = true → ∀ w ∈ l, s'.contains u w = false
  aligned : (s'.vads v).baseAddress.toNat % pageSize = 0
  user : vUserBaseAddr ≤ (s'.vads v).baseAddress
  lt : (s'.vads v).baseAddress < (s'.vads v).limitAddress
  limit : (s'.vads v).limitAddress = vProcessLimitAddr ∨
    (s'.vads v).limitAddress.toNat % pageSize = 0
  mem : s'.mem = s.mem

section Choice

variable {s s' : VadMem} {head v n : ℕ} {l l₁ l₂ : List ℕ} {u size : U32}

/-- An address of one vad of a partition is not one of a vad before it. -/
theorem Partition.apart (h : Partition s head (l₁ ++ v :: l₂)) (hu : s.lo v ≤ u.toNat)
    {w : ℕ} (hw : w ∈ l₁) : s.contains u w = false := by
  obtain ⟨hbefore, -, -⟩ := Tiles.mid_iff.mp h.tiles
  have hle := (hbefore.mem_bounds hw).2.2
  cases hc : s.contains u w with
  | false => rfl
  | true =>
    have hlt : u.toNat < s.hi w := (contains_eq_true.mp hc).2
    omega

/-- The end of a vad is the start of the next one, or that of the whole range. -/
theorem Partition.limit (h : Partition s head (l₁ ++ v :: l₂))
    (haligned : ∀ w ∈ l₁ ++ v :: l₂, (s.vads w).baseAddress.toNat % pageSize = 0) :
    (s.vads v).limitAddress = vProcessLimitAddr ∨
      (s.vads v).limitAddress.toNat % pageSize = 0 := by
  obtain ⟨-, -, hbehind⟩ := Tiles.mid_iff.mp h.tiles
  cases l₂ with
  | nil =>
    have hend : s.hi v = vProcessLimitAddr.toNat := hbehind
    exact .inl (BitVec.eq_of_toNat_eq hend)
  | cons w l₂ =>
    have hnext : s.lo w = s.hi v := hbehind.1
    have hw := haligned w (by simp)
    rw [show (s.vads w).baseAddress.toNat = s.hi v from hnext] at hw
    exact .inr hw

theorem Partition.user (h : Partition s head l) (hv : v ∈ l) :
    vUserBaseAddr ≤ (s.vads v).baseAddress := by
  exact (h.tiles.mem_bounds hv).1

/-- A vad that fits is chosen, whole or its first pages. -/
theorem Partition.chooseFrom (h : Partition s head (l₁ ++ v :: l₂))
    (hall : Allocated s (l₁ ++ v :: l₂))
    (haligned : ∀ w ∈ l₁ ++ v :: l₂, (s.vads w).baseAddress.toNat % pageSize = 0)
    (h0 : size ≠ 0) (hfits : s.fits size v = true) :
    ∃ s', s.chooseFrom v size = .ret (.statusSuccess, some v, s') ∧ Chosen s s' head v l₁ := by
  have hv : v ∈ l₁ ++ v :: l₂ := by simp
  have hseg := (Seg.mid_iff.mp h.chain).1
  have hbase := haligned v hv
  by_cases hdelta : vadMinimumDelta < (s.vads v).size - size
  · obtain ⟨hsize, -⟩ := fits_eq_true.mp hfits
    have hne : v ≠ s.heapTop := Nat.ne_of_lt (hall v hv)
    obtain ⟨s', mid, hsplit, hmid, hlt, hpos, -, hthis, hothers, -, hmem⟩ :=
      split_spec h0 hsize hdelta (h.size v hv) (h.lt hv) hne
    have hbefore (w : ℕ) (hw : w ∈ l₁) : s'.vads w = s.vads w := by
      apply hothers w
      · rintro rfl
        have hnodup := h.chain.nodup
        rw [List.nodup_append] at hnodup
        exact hnodup.2.2 w hw w List.mem_cons_self rfl
      · exact Nat.ne_of_lt (hall w (List.mem_append_left _ hw))
    have hlo : (s'.vads v).baseAddress = (s.vads v).baseAddress := by rw [hthis]
    have hhi : (s'.vads v).limitAddress = mid := by rw [hthis]
    refine ⟨s', ?_, ?_⟩
    · rw [VadMem.chooseFrom, if_pos hdelta, hsplit]
      rfl
    · constructor
      · refine (Seg.congr ?_).mp hseg
        intro w hw
        rw [next, next, hbefore w hw]
      · intro u hu w hw
        have hle := (contains_eq_true.mp hu).1
        rw [hlo] at hle
        rw [contains, hbefore w hw]
        exact h.apart hle hw
      · rwa [hlo]
      · rw [hlo]
        exact h.user hv
      · rwa [hlo, hhi]
      · right
        have hpages := pagesOf_aligned size
        rw [hhi, hmid, BitVec.toNat_add]
        unfold pageSize at hbase hpages ⊢
        omega
      · exact hmem
  · refine ⟨s, ?_, ?_⟩
    · rw [VadMem.chooseFrom, if_neg hdelta]
    · constructor
      · exact hseg
      · intro u hu w hw
        exact h.apart (contains_eq_true.mp hu).1 hw
      · exact hbase
      · exact h.user hv
      · exact h.lt hv
      · exact h.limit haligned
      · rfl

theorem Partition.chooseVad (h : Partition s head l) (hall : Allocated s l)
    (haligned : ∀ w ∈ l, (s.vads w).baseAddress.toNat % pageSize = 0) (h0 : size ≠ 0)
    (hn : l.length < n) : s.chooseVad n head size = .ret (.statusNotFound, none, s) ∨
      ∃ v s' l₁, s.chooseVad n head size = .ret (.statusSuccess, some v, s') ∧
        Chosen s s' head v l₁ := by
  have hloop := lookForFree_loop h.chain size hn
  rw [VadMem.chooseVad, if_neg h0, lookForFreeVadOfMinimumSize, if_neg h0, hloop]
  cases hfind : l.find? (s.fits size) with
  | none => exact .inl rfl
  | some v =>
    obtain ⟨hfits, l₁, l₂, rfl, -⟩ := List.find?_eq_some_iff_append.mp hfind
    obtain ⟨s', hchoose, hchosen⟩ := h.chooseFrom hall haligned h0 hfits
    exact .inr ⟨v, s', l₁, hchoose, hchosen⟩

/-- The look-up of an address of the chosen vad finds it, as long as the vads keep
their addresses and links. -/
theorem Chosen.lookForVad {s₁ : VadMem} (h : Chosen s s₁ head v l)
    (hkeeps : ∀ w, s'.next w = s₁.next w ∧ ∀ u, s'.contains u w = s₁.contains u w)
    (hu : s₁.contains u v = true) :
    s'.lookForVadFromAddress (l.length + 1) head u = .ret (.statusSuccess, some v) := by
  have hne : u ≠ 0 := by
    rintro rfl
    have hle := BitVec.le_trans h.user (contains_eq_true.mp hu).1
    exact absurd hle (by decide)
  have hseg : Seg s'.next (some head) l (some v) :=
    (Seg.congr fun w _ => (hkeeps w).1.symm).mp h.seg
  have hloop : Outcome.loop (s'.lookForVadTurn u) (l.length + 1) (some head) = .ret (some v) := by
    rw [hseg.loop_skip]
    · apply Outcome.loop_leave
      rw [lookForVadTurn, (hkeeps v).2, if_pos hu]
    · intro w hw
      rw [lookForVadTurn, (hkeeps w).2, h.apart u hu w hw, if_neg Bool.false_ne_true]
  rw [lookForVadFromAddress, if_neg hne, hloop]
  rfl

end Choice

end VadMem

/-! ## Faults -/

/-- A page fault of the process is resolved. -/
def FaultStep (p : Process) (s : VadMem) (address : U32) (s' : VadMem) : Prop :=
  ∃ fuel, p.resolvePageFault fuel s address = .ret (.statusSuccess, s')

/-- One address of every page of the vad `v`. -/
structure OnePerPage (s : VadMem) (v : ℕ) (faults : List U32) : Prop where
  inside : ∀ u ∈ faults, s.contains u v = true
  nodup : (faults.map pageNo).Nodup
  all : ∀ u, s.contains u v = true → pageNo u ∈ faults.map pageNo

/-- The entries are those of the pages from `a` to `b`; those of `resolved` are
present. -/
def ResolvedOn (r : ℕ → Option U32) (a b : ℕ) (resolved : List ℕ) : Prop :=
  ∀ n, (r n).map rightsOf = if a ≤ n ∧ n < b then
    some (rightsOf (if n ∈ resolved then presentFlags else absentFlags)) else none

/-- Some pages of the vad `v` of `s₀` have been mapped, and there is memory for `n`
more. -/
structure Resolving (phys₀ : U32 → U32) (pds : List U32) (p : Process) (s₀ : VadMem) (v : ℕ)
    (n : ℕ) (resolved : List ℕ) (s : VadMem) : Prop where
  vads : s.vads = s₀.vads
  heapTop : s.heapTop = s₀.heapTop
  populates : ∃ r, Populates phys₀ s.mem pds p.pdEntry r ∧
    ResolvedOn r (pageNo (s₀.vads v).baseAddress) (pageNo (s₀.vads v).limitAddress) resolved
  affords : s.mem.Affords p.pdEntry (s₀.vads v).baseAddress (s₀.vads v).limitAddress n

section Faults

variable {phys₀ : U32 → U32} {pds : List U32} {p : Process} {s₀ s : VadMem} {v n m a b fuel : ℕ}
  {resolved : List ℕ} {r : ℕ → Option U32} {u : U32} {faults : List U32}

theorem ResolvedOn.next (h : ResolvedOn r a b resolved) (ha : a ≤ m) (hb : m < b) (f : U32) :
    ResolvedOn (Function.update r m (some (setPageTableEntry f presentFlags))) a b
      (m :: resolved) := by
  intro n
  by_cases hn : n = m
  · rw [hn, Function.update_self, if_pos ⟨ha, hb⟩, if_pos List.mem_cons_self, Option.map_some,
      rightsOf_setPageTableEntry]
  · have hmem : n ∈ m :: resolved ↔ n ∈ resolved := by
      rw [List.mem_cons]
      exact or_iff_right hn
    rw [Function.update_of_ne hn, h n]
    simp only [hmem]

/-- A fault on an address of the vad maps its page. -/
theorem Resolving.fault (h : Resolving phys₀ pds p s₀ v (n + 1) resolved s)
    (hd : p.pdEntry ∈ pds) (hu : s₀.contains u v = true)
    (hbase : vUserBaseAddr ≤ (s₀.vads v).baseAddress)
    (hlimit : (s₀.vads v).limitAddress ≤ 0xFFC00000)
    (haligned : (s₀.vads v).limitAddress.toNat % pageSize = 0)
    (hused : (s₀.vads v).free = false)
    (hlook : s.lookForVadFromAddress fuel p.baseVad u = .ret (.statusSuccess, some v)) :
    ∃ s', FaultStep p s u s' ∧ Resolving phys₀ pds p s₀ v n (pageNo u :: resolved) s' := by
  obtain ⟨hvads, htop, ⟨r, hpopulates, hresolved⟩, haffords⟩ := h
  obtain ⟨hge, hlt⟩ := VadMem.contains_eq_true.mp hu
  have huser : InUser u := ⟨BitVec.le_trans hbase hge, Nat.lt_of_lt_of_le hlt hlimit⟩
  have hne : u ≠ 0 := by
    rintro rfl
    exact absurd huser.1 (by decide)
  have hfree : (s.vads v).free = false := by rw [hvads, hused]
  have hd' : p.pdEntry ∈ allDirectories pds := List.mem_cons_of_mem _ hd
  have hswitched := hpopulates.switch hd'
  have haffords' : KernelMem.Affords
      { s.mem with mmu := s.mem.mmu.setCurrentPageDirectory p.pdEntry } p.pdEntry
      (s₀.vads v).baseAddress (s₀.vads v).limitAddress (n + 1) := ⟨haffords.pages, haffords.blocks⟩
  obtain ⟨hnull, k', hadd, -, haffords'', hpopulates'⟩ :=
    hswitched.page hd rfl huser hge hlt haffords'
  have hfault := Process.resolvePageFault_used hne hlook hfree
  rw [if_neg hnull] at hfault
  have hadd' : KernelMem.addPageToPageDirectory
      { s.mem with
        gPmm := s.mem.gPmm.getFreePage.2
        mmu := s.mem.mmu.setCurrentPageDirectory p.pdEntry } u s.mem.gPmm.getFreePage.1
      (pagePresent ||| pageWriteable ||| pageNonPrivilegedAccess) = .ret k' := hadd
  rw [hadd', Outcome.ret_bind] at hfault
  refine ⟨_, ⟨fuel, hfault⟩, hvads, htop, ⟨_, hpopulates'.switch hpopulates.separate.spaces.current,
    ?_⟩, haffords''.pages, haffords''.blocks⟩
  have hge : (s₀.vads v).baseAddress.toNat ≤ u.toNat := hge
  have hlt : u.toNat < (s₀.vads v).limitAddress.toNat := hlt
  apply hresolved.next
  · exact Nat.div_le_div_right hge
  · unfold pageNo pageSize at *
    omega

/-- All faults of a list are resolved, in its order. -/
theorem Resolving.run (h : Resolving phys₀ pds p s₀ v n resolved s)
    (hd : p.pdEntry ∈ pds) (hall : ∀ u ∈ faults, s₀.contains u v = true)
    (hlen : faults.length ≤ n) (hbase : vUserBaseAddr ≤ (s₀.vads v).baseAddress)
    (hlimit : (s₀.vads v).limitAddress ≤ 0xFFC00000)
    (haligned : (s₀.vads v).limitAddress.toNat % pageSize = 0)
    (hused : (s₀.vads v).free = false)
    (hlook : ∀ (s : VadMem) (u : U32), s.vads = s₀.vads → s₀.contains u v = true →
      s.lookForVadFromAddress fuel p.baseVad u = .ret (.statusSuccess, some v)) :
    ∃ s', Run (FaultStep p) s faults s' ∧ Resolving phys₀ pds p s₀ v (n - faults.length)
      ((faults.map pageNo).reverse ++ resolved) s' := by
  induction faults generalizing s n resolved with
  | nil => exact ⟨s, .nil s, h⟩
  | cons u faults ih =>
    obtain ⟨n, rfl⟩ : ∃ m, n = m + 1 := Nat.exists_eq_add_one_of_ne_zero (by
      rw [List.length_cons] at hlen
      omega)
    have hu := hall u List.mem_cons_self
    obtain ⟨s₁, hstep, hnext⟩ :=
      h.fault hd hu hbase hlimit haligned hused (hlook s u h.vads hu)
    obtain ⟨s', hrun, hresolving⟩ := ih hnext
      (fun x hx => hall x (List.mem_cons_of_mem u hx)) (Nat.le_of_succ_le_succ hlen)
    refine ⟨s', .cons hstep hrun, ?_⟩
    rw [List.length_cons, Nat.add_sub_add_right, List.map_cons, List.reverse_cons,
      List.append_assoc]
    exact hresolving

/-- There are as many faults as pages. -/
theorem OnePerPage.length_le (h : OnePerPage s v faults)
    (haligned : (s.vads v).limitAddress.toNat % pageSize = 0) :
    faults.length ≤ pageNo (s.vads v).limitAddress - pageNo (s.vads v).baseAddress := by
  have hsub : (faults.map pageNo).toFinset ⊆
      Finset.Ico (pageNo (s.vads v).baseAddress) (pageNo (s.vads v).limitAddress) := by
    intro m hm
    obtain ⟨u, hu, rfl⟩ := List.mem_map.mp (List.mem_toFinset.mp hm)
    obtain ⟨hge, hlt⟩ := VadMem.contains_eq_true.mp (h.inside u hu)
    have hge : (s.vads v).baseAddress.toNat ≤ u.toNat := hge
    have hlt : u.toNat < (s.vads v).limitAddress.toNat := hlt
    rw [Finset.mem_Ico]
    unfold pageNo pageSize at *
    omega
  have hcard := Finset.card_le_card hsub
  rwa [List.toFinset_card_of_nodup h.nodup, List.length_map, Nat.card_Ico] at hcard

/-- When the page of every address of the vad has been resolved, all are present. -/
theorem OnePerPage.rights (h : OnePerPage s v faults)
    (ha : (s.vads v).baseAddress.toNat = a * pageSize)
    (hb : (s.vads v).limitAddress.toNat = b * pageSize)
    (hr : ResolvedOn r a b ((faults.map pageNo).reverse ++ resolved)) :
    RightsOn r presentFlags a b := by
  intro m
  rw [hr m]
  by_cases hm : a ≤ m ∧ m < b
  · rw [if_pos hm, if_pos hm, if_pos]
    have hbound := (s.vads v).limitAddress.isLt
    have hnat : (BitVec.ofNat 32 (m * pageSize)).toNat = m * pageSize := by
      rw [BitVec.toNat_ofNat, Nat.mod_eq_of_lt]
      unfold pageSize at *
      omega
    have hin : s.contains (BitVec.ofNat 32 (m * pageSize)) v = true := by
      apply VadMem.contains_eq_true.mpr
      rw [BitVec.le_def, BitVec.lt_def, hnat, ha, hb]
      unfold pageSize
      omega
    have hmem := h.all _ hin
    have hpage : pageNo (BitVec.ofNat 32 (m * pageSize)) = m := by
      rw [pageNo, hnat, Nat.mul_div_cancel m (by decide)]
    rw [hpage] at hmem
    exact List.mem_append_left _ (List.mem_reverse.mpr hmem)
  · rw [if_neg hm, if_neg hm]

end Faults

/-! ## The two ways -/

/-- The page of `u` is mapped to the physical page `f`. -/
def MapsIn (s : VadMem) (p : Process) (u f : U32) : Prop :=
  ∃ w, entryIn s.mem.mmu.phys p.pdEntry u = some w ∧ PointsTo w f

/-- The pages of the vad `v` are mapped, to different physical pages. -/
structure EachMapped (s : VadMem) (p : Process) (v : ℕ) : Prop where
  mapped : ∀ u, s.contains u v = true → ∃ f, MapsIn s p u f
  distinct : ∀ u u' f, s.contains u v = true → s.contains u' v = true →
    MapsIn s p u f → MapsIn s p u' f → pageNo u = pageNo u'

/-- The state after eager allocation of the vad `v`, and that after lazy allocation
and the faults. -/
structure SameResult (p : Process) (v : ℕ) (s s' : VadMem) : Prop where
  vads : s'.vads = s.vads
  heapTop : s'.heapTop = s.heapTop
  rights : SameRights s.mem.mmu.phys s'.mem.mmu.phys p.pdEntry
  eager : EachMapped s p v
  faulted : EachMapped s' p v

/-- Both calls of `AllocateMemory` return with the same status and address. If they
succeed with the vad `v`, then any faults on one address of each of its pages lead
from the lazy allocation to the result of the eager one. -/
def LazyAsEager (p : Process) (s : VadMem) (size outAddress : U32) : Prop :=
  ∃ fuel status address sEager sLazy,
    p.allocateMemory fuel s size true outAddress = .ret (status, address, sEager) ∧
    p.allocateMemory fuel s size false outAddress = .ret (status, address, sLazy) ∧
    (status ≠ .statusSuccess → sEager = s ∧ sLazy = s) ∧
    (status = .statusSuccess → ∃ v,
      s.allocate fuel p.baseVad size p.pdEntry true = .ret (status, some v, sEager) ∧
      s.allocate fuel p.baseVad size p.pdEntry false = .ret (status, some v, sLazy) ∧
      ∀ faults, OnePerPage sLazy v faults →
        ∃ s', Run (FaultStep p) sLazy faults s' ∧ SameResult p v sEager s')

/-- The vad `v` lies below the last directory entry, and there is memory for its
pages and for the page tables that they lack. -/
structure EnoughFor (s : VadMem) (p : Process) (v : ℕ) : Prop where
  below : (s.vads v).limitAddress ≤ 0xFFC00000
  affords : s.mem.Affords p.pdEntry (s.vads v).baseAddress (s.vads v).limitAddress
    (pageNo (s.vads v).limitAddress - pageNo (s.vads v).baseAddress)

section Results

variable {phys₀ : U32 → U32} {k : KernelMem} {pds : List U32} {p : Process} {s s' s₁ : VadMem}
  {v head fuel : ℕ} {l : List ℕ} {r : ℕ → Option U32} {size outAddress : U32}

/-- A reserved vad has its addresses and links. -/
theorem VadMem.reserved_keeps (s : VadMem) (v : ℕ) (k : KernelMem) (w : ℕ) :
    (s.reserved v k).next w = s.next w ∧
      ∀ u, (s.reserved v k).contains u w = s.contains u w := by
  by_cases hw : w = v
  · constructor
    · rw [next, reserved, hw, store_self]
      rfl
    · intro u
      rw [contains, contains, reserved, hw, store_self]
  · constructor
    · rw [next, reserved, store_of_ne _ hw]
      rfl
    · intro u
      rw [contains, contains, reserved, store_of_ne _ hw]

/-- Present pages of an overlay are mapped to pages of their own. -/
theorem Populates.eachMapped (h : Populates phys₀ s.mem pds p.pdEntry r)
    (hr : RightsOn r presentFlags (pageNo (s.vads v).baseAddress)
      (pageNo (s.vads v).limitAddress))
    (hbase : vUserBaseAddr ≤ (s.vads v).baseAddress)
    (hlimit : (s.vads v).limitAddress ≤ 0xFFC00000)
    (haligned : (s.vads v).limitAddress.toNat % pageSize = 0) : EachMapped s p v := by
  have hentry (u : U32) (hu : s.contains u v = true) : ∃ w, r (pageNo u) = some w ∧
      entryIn s.mem.mmu.phys p.pdEntry u = some w ∧ PointsTo w (frameOf w) := by
    obtain ⟨hge, hlt⟩ := VadMem.contains_eq_true.mp hu
    have huser : InUser u := ⟨BitVec.le_trans hbase hge, Nat.lt_of_lt_of_le hlt hlimit⟩
    have hge : (s.vads v).baseAddress.toNat ≤ u.toNat := hge
    have hlt : u.toNat < (s.vads v).limitAddress.toNat := hlt
    have hpage := hr (pageNo u)
    rw [if_pos (by unfold pageNo pageSize at *; omega)] at hpage
    obtain ⟨w, hw, hrights⟩ := Option.map_eq_some_iff.mp hpage
    refine ⟨w, hw, h.overlays.entries u huser w hw, pointsTo_frameOf ?_⟩
    exact congrArg Rights.present hrights
  constructor
  · intro u hu
    obtain ⟨w, -, hw, hf⟩ := hentry u hu
    exact ⟨_, w, hw, hf⟩
  · rintro u u' f hu hu' ⟨w, hw, hf⟩ ⟨w', hw', hf'⟩
    obtain ⟨x, hr, hx, -⟩ := hentry u hu
    obtain ⟨x', hr', hx', -⟩ := hentry u' hu'
    rw [hx] at hw
    rw [hx'] at hw'
    cases hw
    cases hw'
    exact h.pages.distinct _ _ _ _ f hr hr' hf hf'

/-- The chosen vad is reserved. -/
theorem VadMem.Chosen.reserves (h : Chosen s s₁ head v l) (hs : Separate ⟨s.mem, pds⟩)
    (hd : p.pdEntry ∈ pds) (henough : EnoughFor s₁ p v)
    (haligned : (s₁.vads v).limitAddress.toNat % pageSize = 0) (reserve : Bool)
    (hfuel : 2 ^ 32 ≤ fuel) :
    ∃ k, VadMem.reserveChosen fuel p.pdEntry reserve (.statusSuccess, some v, s₁) =
        .ret (.statusSuccess, some v, s₁.reserved v k) ∧
      Reserving s.mem.mmu.phys pds p.pdEntry (s₁.vads v).baseAddress (s₁.vads v).limitAddress
        reserve (if reserve then 0 else
          pageNo (s₁.vads v).limitAddress - pageNo (s₁.vads v).baseAddress)
        (s₁.vads v).limitAddress k := by
  have hd' : p.pdEntry ∈ allDirectories pds := List.mem_cons_of_mem _ hd
  have hswitched := hs.switch hd'
  obtain ⟨hbelow, haffords⟩ := henough
  rw [h.mem] at haffords
  have hstart := Reserving.start (r := reserve) (n := if reserve then 0 else
    pageNo (s₁.vads v).limitAddress - pageNo (s₁.vads v).baseAddress) hswitched rfl
    (BitVec.le_of_lt h.lt) h.aligned (by
      cases reserve with
      | true =>
        rw [if_pos rfl, if_pos rfl, Nat.zero_add]
        exact ⟨haffords.pages, haffords.blocks⟩
      | false =>
        rw [if_neg Bool.false_ne_true, if_neg Bool.false_ne_true]
        exact ⟨haffords.pages, haffords.blocks⟩)
  obtain ⟨k, hloop, hreserving⟩ := hstart.loop hd h.user hbelow haligned hfuel
  refine ⟨k, ?_, hreserving⟩
  apply reserveChosen_of_loop
  rw [h.mem]
  exact hloop

/-- From the lazy allocation on, the faults lead to the result of the eager one. -/
theorem VadMem.Chosen.faults {kE kL : KernelMem} {faults : List U32}
    (h : Chosen s s₁ head v l) (hcur : s.mem.mmu.cr3 ∈ allDirectories pds)
    (hhead : head = p.baseVad) (hd : p.pdEntry ∈ pds) (henough : EnoughFor s₁ p v)
    (haligned : (s₁.vads v).limitAddress.toNat % pageSize = 0)
    (heager : Reserving s.mem.mmu.phys pds p.pdEntry (s₁.vads v).baseAddress
      (s₁.vads v).limitAddress true 0 (s₁.vads v).limitAddress kE)
    (hlazy : Reserving s.mem.mmu.phys pds p.pdEntry (s₁.vads v).baseAddress
      (s₁.vads v).limitAddress false
      (pageNo (s₁.vads v).limitAddress - pageNo (s₁.vads v).baseAddress)
      (s₁.vads v).limitAddress kL)
    (hfaults : OnePerPage (s₁.reserved v kL) v faults) :
    ∃ s', Run (FaultStep p) (s₁.reserved v kL) faults s' ∧
      SameResult p v (s₁.reserved v kE) s' := by
  have hcur₁ : s₁.mem.mmu.cr3 ∈ allDirectories pds := by rwa [h.mem]
  have hvad (k : KernelMem) : (s₁.reserved v k).vads v = { s₁.vads v with free := false } :=
    store_self _ v _
  have hbase (k : KernelMem) : ((s₁.reserved v k).vads v).baseAddress =
      (s₁.vads v).baseAddress := by rw [hvad]
  have hlimit (k : KernelMem) : ((s₁.reserved v k).vads v).limitAddress =
      (s₁.vads v).limitAddress := by rw [hvad]
  obtain ⟨rE, hpopE, hrE⟩ := heager.populates
  obtain ⟨rL, hpopL, hrL⟩ := hlazy.populates
  have hstart : Resolving s.mem.mmu.phys pds p (s₁.reserved v kL) v
      (pageNo (s₁.vads v).limitAddress - pageNo (s₁.vads v).baseAddress) []
      (s₁.reserved v kL) := by
    refine ⟨rfl, rfl, ⟨rL, hpopL.switch hcur₁, ?_⟩, ?_⟩
    · rw [hbase, hlimit]
      intro m
      rw [hrL m, if_neg List.not_mem_nil]
      rfl
    · rw [hbase, hlimit]
      have haffords := hlazy.affords
      rw [if_neg Bool.false_ne_true, Nat.add_zero] at haffords
      exact ⟨haffords.pages, haffords.blocks⟩
  have hlen := hfaults.length_le (by rwa [hlimit])
  rw [hbase, hlimit] at hlen
  obtain ⟨s', hrun, hvads, htop, ⟨r, hpop, hresolved⟩, -⟩ := hstart.run hd
    hfaults.inside hlen (by rw [hbase]; exact h.user) (by rw [hlimit]; exact henough.below)
    (by rwa [hlimit]) (by rw [hvad]) (by
      intro s₂ u hvads hu
      rw [← hhead]
      apply h.lookForVad
      · intro w
        have hkeeps := s₁.reserved_keeps v kL w
        rw [← hkeeps.1]
        refine ⟨by rw [next, next, hvads], ?_⟩
        intro u
        rw [← hkeeps.2, contains, contains, hvads]
      · rwa [(s₁.reserved_keeps v kL v).2] at hu)
  have hr : RightsOn r presentFlags (pageNo (s₁.vads v).baseAddress)
      (pageNo (s₁.vads v).limitAddress) := by
    rw [hbase, hlimit] at hresolved
    apply hfaults.rights _ _ hresolved
    · rw [hbase]
      exact (Nat.div_mul_cancel (Nat.dvd_of_mod_eq_zero h.aligned)).symm
    · rw [hlimit]
      exact (Nat.div_mul_cancel (Nat.dvd_of_mod_eq_zero haligned)).symm
  refine ⟨s', hrun, ?_⟩
  constructor
  · exact hvads
  · exact htop
  · apply hpopE.overlays.sameRights hpop.overlays
    · intro m
      rw [hrE m, hr m]
      rfl
    · exact hpopE.separate.spaces.directory hd
    · exact hpop.separate.spaces.directory hd
  · apply Populates.eachMapped (hpopE.switch hcur₁)
    · rw [hbase, hlimit]
      exact hrE
    · rw [hbase]
      exact h.user
    · rw [hlimit]
      exact henough.below
    · rwa [hlimit]
  · have hsame : s'.vads v = { s₁.vads v with free := false } := by rw [hvads, hvad]
    apply hpop.eachMapped
    · rw [hsame]
      exact hr
    · rw [hsame]
      exact h.user
    · rw [hsame]
      exact henough.below
    · rw [hsame]
      exact haligned

/-- A call that fails before `ReservePages`. -/
theorem Process.allocateMemory_fails {status : KeStatus} (hstatus : status ≠ .statusSuccess)
    (hchoose : s.chooseVad fuel p.baseVad size = .ret (status, none, s)) (reserve : Bool)
    (hsize : size ≠ 0) (hout : outAddress ≠ 0) :
    p.allocateMemory fuel s size reserve outAddress = .ret (status, none, s) := by
  rw [allocateMemory, if_neg hsize, if_neg hout, VadMem.allocate_eq, hchoose, Outcome.ret_bind,
    VadMem.reserveChosen_failed hstatus, Outcome.ret_bind]
  dsimp only
  rw [if_pos (VadMem.failed_eq_true.mpr hstatus)]
  rfl

theorem Process.allocateMemory_succeeds {reserve : Bool} (hsize : size ≠ 0)
    (hout : outAddress ≠ 0)
    (halloc : s.allocate fuel p.baseVad size p.pdEntry reserve = .ret (.statusSuccess, some v, s')) :
    p.allocateMemory fuel s size reserve outAddress =
      .ret (.statusSuccess, some (s'.vads v).baseAddress, s') := by
  rw [allocateMemory, if_neg hsize, if_neg hout, halloc, Outcome.ret_bind]
  rfl

/-- Lazy and eager allocation agree in every address space that is in order, for a
list of vads that partitions the addresses of the process along pages. -/
theorem lazy_as_eager {w : World} (hs : Separate w.tables) (hp : p ∈ w.processes)
    (hpartition : w.s.Partition p.baseVad l) (hall : w.s.Allocated l)
    (haligned : ∀ v ∈ l, (w.s.vads v).baseAddress.toNat % pageSize = 0)
    (henough : ∀ fuel v s₁, w.s.chooseVad fuel p.baseVad size = .ret (.statusSuccess, some v, s₁) →
      EnoughFor s₁ p v) : LazyAsEager p w.s size outAddress := by
  have hd : p.pdEntry ∈ w.pds := List.mem_map_of_mem hp
  by_cases hsize : size = 0
  · refine ⟨0, .statusInvalidParameter, none, w.s, w.s, ?_, ?_, fun _ => ⟨rfl, rfl⟩, ?_⟩
    · rw [Process.allocateMemory, if_pos hsize]
    · rw [Process.allocateMemory, if_pos hsize]
    · exact fun h => KeStatus.noConfusion h
  by_cases hout : outAddress = 0
  · refine ⟨0, .statusNullParameter, none, w.s, w.s, ?_, ?_, fun _ => ⟨rfl, rfl⟩, ?_⟩
    · rw [Process.allocateMemory, if_neg hsize, if_pos hout]
    · rw [Process.allocateMemory, if_neg hsize, if_pos hout]
    · exact fun h => KeStatus.noConfusion h
  obtain ⟨fuel, hlen, hfuel⟩ : ∃ fuel, l.length < fuel ∧ 2 ^ 32 ≤ fuel :=
    ⟨l.length + 1 + 2 ^ 32, by omega, by omega⟩
  rcases hpartition.chooseVad hall haligned hsize hlen with hchoose | ⟨v, s₁, l₁, hchoose, hchosen⟩
  · refine ⟨fuel, .statusNotFound, none, w.s, w.s, ?_, ?_, fun _ => ⟨rfl, rfl⟩, ?_⟩
    · exact Process.allocateMemory_fails (by decide) hchoose true hsize hout
    · exact Process.allocateMemory_fails (by decide) hchoose false hsize hout
    · exact fun h => KeStatus.noConfusion h
  have hroom := henough fuel v s₁ hchoose
  have hend : (s₁.vads v).limitAddress.toNat % pageSize = 0 := by
    rcases hchosen.limit with heq | halign
    · have hbelow := hroom.below
      rw [heq] at hbelow
      exact absurd hbelow (by decide)
    · exact halign
  obtain ⟨kE, hcallE, heager⟩ := hchosen.reserves hs hd hroom hend true hfuel
  obtain ⟨kL, hcallL, hlazy⟩ := hchosen.reserves hs hd hroom hend false hfuel
  have hallocE : w.s.allocate fuel p.baseVad size p.pdEntry true =
      .ret (.statusSuccess, some v, s₁.reserved v kE) := by
    rw [VadMem.allocate_eq, hchoose, Outcome.ret_bind, hcallE]
  have hallocL : w.s.allocate fuel p.baseVad size p.pdEntry false =
      .ret (.statusSuccess, some v, s₁.reserved v kL) := by
    rw [VadMem.allocate_eq, hchoose, Outcome.ret_bind, hcallL]
  refine ⟨fuel, .statusSuccess, _, s₁.reserved v kE, s₁.reserved v kL,
    Process.allocateMemory_succeeds hsize hout hallocE,
    Process.allocateMemory_succeeds hsize hout hallocL, fun hne => absurd rfl hne, ?_⟩
  intro _
  refine ⟨v, hallocE, hallocL, ?_⟩
  intro faults hfaults
  exact hchosen.faults hs.spaces.current rfl hd hroom hend heager hlazy hfaults

end Results

/-! ### The first process -/

section Boot

variable {w w' : World} {p : Process} {v : ℕ} {size : U32}

/-- A new process has one vad. -/
theorem Created.partition (h : Created w w' p) : w'.s.Partition p.baseVad [p.baseVad] := by
  have hnext : w'.s.next p.baseVad = none := by rw [VadMem.next, h.vad]
  constructor
  · exact ⟨rfl, hnext⟩
  · rw [Tiles.cons_iff, VadMem.lo, VadMem.hi, h.vad]
    exact ⟨rfl, by decide, rfl⟩
  · intro u hu
    rw [List.mem_singleton.mp hu, h.vad]
  · intro u hu x hx
    rw [List.mem_singleton.mp hu, hnext] at hx
    cases hx

theorem Created.allocated (h : Created w w' p) : w'.s.Allocated [p.baseVad] := by
  intro u hu
  rw [List.mem_singleton.mp hu, h.baseVad, h.heapTop]
  exact Nat.lt_succ_self _

/-- One page is asked for, and two are chosen. -/
theorem Created.chooses (h : Created w w' p) (hclosed : w'.s.Closed) :
    (∃ fuel v s₁, w'.s.chooseVad fuel p.baseVad 0x1000 = .ret (.statusSuccess, some v, s₁)) ∧
    ∀ fuel v s₁, w'.s.chooseVad fuel p.baseVad 0x1000 = .ret (.statusSuccess, some v, s₁) →
      (s₁.vads v).baseAddress = 0x40000000 ∧ (s₁.vads v).limitAddress = 0x40002000 := by
  have hhead : p.baseVad < w'.s.heapTop := h.allocated p.baseVad List.mem_cons_self
  have hfits : w'.s.fits 0x1000 p.baseVad = true := by
    rw [VadMem.fits_eq_true, h.vad]
    exact ⟨by decide, rfl⟩
  have haligned : ∀ u ∈ [p.baseVad], (w'.s.vads u).baseAddress.toNat % pageSize = 0 := by
    intro u hu
    rw [List.mem_singleton.mp hu, h.vad]
    rfl
  constructor
  · have hloop := VadMem.lookForFree_loop h.partition.chain 0x1000 (Nat.lt_succ_self _)
    rw [List.find?_cons_of_pos hfits] at hloop
    have hparts : VadMem.Partition w'.s p.baseVad ([] ++ p.baseVad :: []) := h.partition
    obtain ⟨s₁, hchoose, -⟩ :=
      hparts.chooseFrom h.allocated haligned (show (0x1000 : U32) ≠ 0 by decide) hfits
    refine ⟨2, p.baseVad, s₁, ?_⟩
    rw [VadMem.chooseVad, if_neg (by decide), VadMem.lookForFreeVadOfMinimumSize,
      if_neg (by decide), show 2 = [p.baseVad].length + 1 from rfl, hloop]
    exact hchoose
  · intro fuel v s₁ hchoose
    obtain ⟨u, hlook, hbase, hlimit⟩ := VadMem.chooseVad_region hclosed hhead hchoose
    have hfound := VadMem.lookForFree_spec h.partition.chain (by decide) hlook
    rw [List.find?_cons_of_pos hfits] at hfound
    cases hfound
    have hpages : VadMem.pagesOf 0x1000 = 0x2000 := by
      rw [VadMem.pagesOf, VadMem.localMod_eq_one (by decide)]
      decide
    have hroom : vadMinimumDelta < vProcessLimitAddr - vProcessBaseAddr - 0x1000 := by decide
    rw [h.vad] at hbase hlimit
    refine ⟨hbase, ?_⟩
    rw [hlimit, VadMem.reservedLimit, h.vad, if_neg (not_not.mpr rfl), if_pos hroom, hpages]
    decide

/-- The first two pages of the first process. -/
theorem lazy_as_eager_boot : ∃ pool w p fuel v s₁, PagePool.bss.init kernelInfo = .ret pool ∧
    Run UserStep (bootWorld pool 0x10000) [.create] w ∧ w.processes = [p] ∧
    w.s.chooseVad fuel p.baseVad 0x1000 = .ret (.statusSuccess, some v, s₁) ∧
    LazyAsEager p w.s 0x1000 0x40000000 := by
  obtain ⟨pool, hpool⟩ := boot_init
  have hboot := boot_bootWorld hpool 0x10000
  obtain ⟨p, w, hstep, hcreated, hsup⟩ :=
    (WorldInv.boot hboot).userStep_create (supply_bootWorld_64 hpool)
  obtain ⟨-, hseparate⟩ := reachable_separate hboot (.single hstep)
  have hprocesses : w.processes = [p] := hcreated.processes
  have hp : p ∈ w.processes := by
    rw [hprocesses]
    exact List.mem_cons_self
  have hclosed : w.s.Closed := by
    intro v hv u hu
    rw [hcreated.heapTop] at hv
    have hv : v = p.baseVad := (Nat.lt_one_iff.mp hv).trans hcreated.baseVad.symm
    rw [hv, VadMem.next, hcreated.vad] at hu
    cases hu
  obtain ⟨⟨fuel, v, s₁, hchoose⟩, hregion⟩ := hcreated.chooses hclosed
  refine ⟨pool, w, p, fuel, v, s₁, hpool, .single hstep, hprocesses, hchoose, ?_⟩
  apply lazy_as_eager hseparate hp hcreated.partition hcreated.allocated
  · intro u hu
    rw [List.mem_singleton.mp hu, hcreated.vad]
    rfl
  · intro fuel v s₁ hchoose
    obtain ⟨hbase, hlimit⟩ := hregion fuel v s₁ hchoose
    have hmem : s₁.mem = w.s.mem := VadMem.chooseVad_mem hchoose
    have hmissing : missingTables s₁.mem.mmu.phys p.pdEntry 0x40000000 0x40002000 ≤ 1 :=
      (Finset.card_filter_le _ _).trans (by decide)
    constructor
    · rw [hlimit]
      decide
    · rw [hbase, hlimit, KernelMem.Affords, hmem]
      rw [hmem] at hmissing
      have hpages : pageNo 0x40002000 - pageNo 0x40000000 = 2 := by decide
      rw [hpages]
      exact hsup.mono (by omega) (by omega)

end Boot

end LtMicros
