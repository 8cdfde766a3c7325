import LtMicros.WorldRuns
import LtMicros.UserMappings
import LtMicros.Overlay
import LtMicros.Lib.Blocks

/-!
# The pages that `ReservePages` maps

The loop goes from the base address of the vad up to its limit, a page at a time.
An address that is not at the start of a page stands for that page, so the last
page of the vad may be passed over, and at the top of memory the next address
wraps around below the limit.
-/

namespace LtMicros

open Lib Lib.Frames

/-- `ReservePages` returns with success, and its loop writes the table entry of every
page with an address of the vad once, and no other. -/
def VadMem.ReservesExactly (s : VadMem) (v : ℕ) (pageDirectory : U32) (reserve : Bool) : Prop :=
  (∃ fuel s', s.reservePages fuel v pageDirectory reserve = .ret (.statusSuccess, s')) ∧
  ∃ turns k, Outcome.Trace (VadMem.reservePagesTurn (s.vads v).limitAddress reserve)
      ((s.vads v).baseAddress,
        { s.mem with mmu := s.mem.mmu.setCurrentPageDirectory pageDirectory })
      turns (.statusSuccess, k) ∧
    (turns.map fun st => pageNo st.1).Nodup ∧
    ∀ n, n ∈ turns.map (fun st => pageNo st.1) ↔
      n ∈ blocksOf pageSize (s.vads v).baseAddress.toNat (s.vads v).limitAddress.toNat

section Loop

variable {k k' : KernelMem} {pds : List U32} {base limit v d : U32} {reserve : Bool}
  {turns : List (U32 × KernelMem)}

/-! ## The addresses of the loop -/

/-- The loop passes the addresses of a walk in steps of a page, each once. -/
theorem trace_passes (h : Outcome.Trace (VadMem.reservePagesTurn limit reserve) (v, k) turns
      (.statusSuccess, k')) (hbound : limit.toNat ≤ 2 ^ 32 - 4096 + v.toNat % 4096) :
    (turns.map Prod.fst).Nodup ∧ ∀ u, u ∈ turns.map Prod.fst ↔ Passes v limit u := by
  generalize hst : (v, k) = st at h
  generalize hres : (KeStatus.statusSuccess, k') = res at h
  induction h generalizing v k with
  | leave hturn =>
    cases hst
    cases hres
    constructor
    · exact List.nodup_nil
    · intro u
      rcases reservePagesTurn_inr hturn with ⟨hlt, -, -⟩ | ⟨-, hfull, -⟩
      · have hle : limit.toNat ≤ v.toNat := BitVec.not_lt.mp hlt
        rw [List.map_nil, Passes]
        constructor
        · intro hu
          cases hu
        · rintro ⟨hge, hu, -⟩
          omega
      · cases hfull
  | @again _ st' _ _ hturn _ ih =>
    cases hst
    obtain ⟨v', k₁⟩ := st'
    obtain ⟨hlt, rfl, -⟩ := reservePagesTurn_inl hturn
    obtain ⟨hnext, -⟩ := next_page hbound rfl hlt
    have hmod : (v + 4096).toNat % 4096 = v.toNat % 4096 := by omega
    obtain ⟨hnodup, hmem⟩ := ih (by rwa [hmod]) rfl hres
    have hlt : v.toNat < limit.toNat := hlt
    constructor
    · rw [List.map_cons, List.nodup_cons, hmem]
      refine ⟨?_, hnodup⟩
      intro hv
      have hle : (v + 4096).toNat ≤ v.toNat := hv.1
      omega
    · intro u
      rw [List.map_cons, List.mem_cons, hmem, Passes, Passes, hmod, hnext]
      constructor
      · rintro (rfl | ⟨hle, hu, hclass⟩)
        · exact ⟨Nat.le_refl _, hlt, rfl⟩
        · exact ⟨by omega, hu, hclass⟩
      · rintro ⟨hle, hu, hclass⟩
        by_cases heq : u.toNat = v.toNat
        · exact .inl (BitVec.eq_of_toNat_eq heq)
        · exact .inr ⟨by omega, hu, hclass⟩

/-- Without wrapping around, the pages of the loop are those of the range exactly when
the offset of the base is at most that of the last address. -/
theorem trace_pages_iff (h : Outcome.Trace (VadMem.reservePagesTurn limit reserve) (base, k) turns
      (.statusSuccess, k')) (hbound : limit.toNat ≤ 2 ^ 32 - 4096 + base.toNat % 4096)
    (hlt : base < limit) :
    ((turns.map fun st => pageNo st.1).Nodup ∧ ∀ n, n ∈ turns.map (fun st => pageNo st.1) ↔
      n ∈ blocksOf pageSize base.toNat limit.toNat) ↔
        base.toNat % pageSize ≤ (limit.toNat - 1) % pageSize := by
  obtain ⟨hnodup, hmem⟩ := trace_passes h hbound
  have hmap : turns.map (fun st => pageNo st.1) = (turns.map Prod.fst).map pageNo := by
    rw [List.map_map]
    rfl
  have hwalk (u : U32) : u ∈ turns.map Prod.fst ↔
      Walks pageSize base.toNat limit.toNat u.toNat := hmem u
  rw [hmap, ← walks_iff (by decide) hlt]
  constructor
  · rintro ⟨-, hpages⟩ n hn
    obtain ⟨u, hu, hpage⟩ := List.mem_map.mp ((hpages n).mpr hn)
    exact ⟨u.toNat, (hwalk u).mp hu, hpage⟩
  · intro hcovers
    constructor
    · apply hnodup.map_on
      intro u hu u' hu' hpage
      exact BitVec.eq_of_toNat_eq (((hwalk u).mp hu).unique ((hwalk u').mp hu') hpage)
    · intro n
      constructor
      · intro hn
        obtain ⟨u, hu, rfl⟩ := List.mem_map.mp hn
        exact ((hwalk u).mp hu).mem
      · intro hn
        obtain ⟨x, hx, rfl⟩ := hcovers n hn
        have hxlt : x < 2 ^ 32 := hx.2.1.trans limit.isLt
        have hxu : (BitVec.ofNat 32 x).toNat = x := by
          rw [BitVec.toNat_ofNat, Nat.mod_eq_of_lt hxlt]
        refine List.mem_map.mpr ⟨BitVec.ofNat 32 x, (hwalk _).mpr (by rwa [hxu]), ?_⟩
        rw [pageNo, hxu]

/-! ## The end of the loop -/

/-- The loop has come to the address `v`, with the page directories in place as long as
`v` is below the window. -/
structure Mapping (pds : List U32) (d base v : U32) (k : KernelMem) : Prop where
  ge : base ≤ v
  class_eq : v.toNat % 4096 = base.toNat % 4096
  used : k.gPmm.used 0 = true
  under : Underway k d v
  spaces : v.toNat < 0xFFC00000 → Spaces k pds

theorem Mapping.start (hs : Spaces k pds) (hd : d ∈ pds) (hcr3 : k.mmu.cr3 = d) :
    Mapping pds d base base k :=
  ⟨BitVec.le_refl base, rfl, hs.reserved.kernel 0 (by decide), (hs.sane hd hcr3).underway base,
    fun _ => hs⟩

/-- A turn below the limit goes on when its page can be added: page 0 is in use, so
the answer of `GetFreePage` is not the null pointer. -/
theorem reservePagesTurn_adds (hlt : v < limit) (h0 : k.gPmm.used 0 = true) :
    ∃ k₁ p flags, TurnMaps k k₁ p flags ∧ k₁.gPmm.used 0 = true ∧
      (∀ pds, Spaces k pds → Spaces k₁ pds) ∧
      ∀ k', k₁.addPageToPageDirectory v p flags = .ret k' →
        VadMem.reservePagesTurn limit reserve (v, k) = .ret (.inl (v + 4096, k')) := by
  cases reserve with
  | true =>
    obtain ⟨hne, h0'⟩ := PmmBitmap.getFreePage_ne_null h0
    refine ⟨k.takePage, k.gPmm.getFreePage.1, presentFlags, ?_, h0', fun _ hs => hs.takePage, ?_⟩
    · refine ⟨rfl, rfl, .inl rfl, fun d hs => hs.takePage, ?_⟩
      intro d hs g hg
      have heq : g = frameOf k.gPmm.getFreePage.1 :=
        hg.2.symm.trans (frameOf_setPageTableEntry _ _)
      rw [heq]
      exact hs.gives
    · intro k' hadd
      have hadd : KernelMem.addPageToPageDirectory { k with gPmm := k.gPmm.getFreePage.2 } v
          k.gPmm.getFreePage.1 (pagePresent ||| pageWriteable ||| pageNonPrivilegedAccess) =
            .ret k' := hadd
      simp only [VadMem.reservePagesTurn, if_pos hlt, if_true, if_neg hne, hadd,
        Outcome.ret_bind, Outcome.pure_eq]
  | false =>
    refine ⟨k, 0, absentFlags, ?_, h0, fun _ hs => hs, ?_⟩
    · refine ⟨rfl, rfl, .inr rfl, fun d hs => hs, ?_⟩
      intro d hs g hg
      have hpresent := hg.1
      rw [flagOn_setPageTableEntry] at hpresent
      exact absurd hpresent (by decide)
    · intro k' hadd
      have hadd : k.addPageToPageDirectory v 0 (pageWriteable ||| pageNonPrivilegedAccess) =
          .ret k' := hadd
      simp only [VadMem.reservePagesTurn, if_pos hlt, Bool.false_eq_true, if_false, hadd,
        Outcome.ret_bind, Outcome.pure_eq]

theorem Mapping.turn (h : Mapping pds d base v k) (hd : d ∈ pds)
    (hbase : vUserBaseAddr ≤ base) (hbound : limit.toNat ≤ 2 ^ 32 - 4096 + base.toNat % 4096)
    (hlt : v < limit) :
    ∃ k', VadMem.reservePagesTurn limit reserve (v, k) = .ret (.inl (v + 4096, k')) ∧
      Mapping pds d base (v + 4096) k' := by
  obtain ⟨hnext, hlast⟩ := next_page hbound h.class_eq hlt
  obtain ⟨k₁, p, flags, hmaps, h0, hspaces, hturn⟩ :=
    @reservePagesTurn_adds k limit v reserve hlt h.used
  have hge : base.toNat ≤ v.toNat := h.ge
  have hadded : ∃ k', k₁.addPageToPageDirectory v p flags = .ret k' ∧
      k'.gPmm.used 0 = true ∧ ((v + 4096).toNat < 0xFFC00000 → Spaces k' pds) := by
    by_cases hwindow : 0xFFC00000 ≤ v.toNat
    · -- the entry is written through the window
      have hdir : k.mmu.directory = d := by
        rw [Mmu.directory, h.under.current]
        exact h.under.frame.frameOf_eq
      have hself : k₁.mmu.SelfMapped := by
        rw [hmaps.mmu, Mmu.SelfMapped, hdir]
        exact h.under.self
      refine ⟨_, addWindowPage hself (window_index hwindow).1, h0, fun hbelow => ?_⟩
      omega
    · have hs := hspaces pds (h.spaces (Nat.lt_of_not_le hwindow))
      have huser : InUser v := ⟨BitVec.le_trans hbase h.ge, Nat.lt_of_not_le hwindow⟩
      have hcr3 : k₁.mmu.cr3 = d := (congrArg Mmu.cr3 hmaps.mmu).trans h.under.current
      obtain ⟨k', hadd, hadds⟩ := hs.adds huser p flags
      rw [hcr3] at hadds
      have hs' := hs.of_adds hd huser hadds
      exact ⟨k', hadd, hs'.reserved.kernel 0 (by decide), fun _ => hs'⟩
  obtain ⟨k', hadd, h0', hspaces'⟩ := hadded
  obtain ⟨-, hunder⟩ := h.under.turn hlast (hturn k' hadd)
  refine ⟨k', hturn k' hadd, ?_, ?_, h0', hunder, hspaces'⟩
  · show base.toNat ≤ (v + 4096).toNat
    omega
  · have hclass := h.class_eq
    omega

/-- Without wrapping around, the loop comes to its end. -/
theorem Mapping.loop (h : Mapping pds d base base k) (hd : d ∈ pds)
    (hbase : vUserBaseAddr ≤ base) (hbound : limit.toNat ≤ 2 ^ 32 - 4096 + base.toNat % 4096) :
    ∃ fuel k', Outcome.loop (VadMem.reservePagesTurn limit reserve) fuel (base, k) =
      .ret (.statusSuccess, k') := by
  have hends : ∃ r, Outcome.loop (VadMem.reservePagesTurn limit reserve) (2 ^ 32) (base, k) =
      .ret r ∧ r.1 = .statusSuccess := by
    apply Outcome.loop_terminates
      (I := fun st : U32 × KernelMem => Mapping pds d base st.1 st.2)
      fun st => limit.toNat - st.1.toNat
    · rintro ⟨v, k⟩ hv
      dsimp only at hv ⊢
      by_cases hlt : v < limit
      · obtain ⟨k', hturn, hnext⟩ := hv.turn hd hbase hbound hlt
        refine .inr ⟨_, hturn, hnext, ?_⟩
        obtain ⟨hadd, -⟩ := next_page hbound hv.class_eq hlt
        have hlt : v.toNat < limit.toNat := hlt
        dsimp only
        omega
      · exact .inl ⟨_, if_neg hlt, rfl⟩
    · exact h
    · have hlimit := limit.isLt
      dsimp only
      omega
  obtain ⟨⟨status, k'⟩, hloop, rfl⟩ := hends
  exact ⟨_, k', hloop⟩

end Loop

/-! ## The whole call -/

namespace VadMem

variable {s s' : VadMem} {v fuel : ℕ} {pd : U32} {pds : List U32} {reserve : Bool}

/-- `ReservePages` succeeds when its loop does. -/
theorem reservePages_success : (∃ fuel s', s.reservePages fuel v pd reserve =
      .ret (.statusSuccess, s')) ↔
    ∃ fuel k, Outcome.loop (reservePagesTurn (s.vads v).limitAddress reserve) fuel
      ((s.vads v).baseAddress, { s.mem with mmu := s.mem.mmu.setCurrentPageDirectory pd }) =
        .ret (.statusSuccess, k) := by
  constructor
  · rintro ⟨fuel, s', h⟩
    obtain ⟨⟨status, k⟩, hloop, h⟩ := Outcome.bind_eq_ret.mp h
    refine ⟨fuel, k, ?_⟩
    cases status <;> first | exact hloop | cases h
  · rintro ⟨fuel, k, hloop⟩
    refine ⟨fuel, VadMem.store { s with mem := { k with
      mmu := k.mmu.setCurrentPageDirectory s.mem.mmu.getCurrentPageDirectory } } v
        fun vad => { vad with free := false }, ?_⟩
    simp only [reservePages, hloop, Outcome.ret_bind, Outcome.pure_eq]

/-- `ReservePages` ends on a vad of the user half exactly when its loop does not wrap
around. -/
theorem reservePages_success_iff (hs : Spaces s.mem pds) (hd : pd ∈ pds)
    (hbase : vUserBaseAddr ≤ (s.vads v).baseAddress) :
    (∃ fuel s', s.reservePages fuel v pd reserve = .ret (.statusSuccess, s')) ↔
      (s.vads v).limitAddress.toNat ≤ 2 ^ 32 - 4096 + (s.vads v).baseAddress.toNat % 4096 := by
  rw [reservePages_success]
  constructor
  · rintro ⟨fuel, k, hloop⟩
    exact reserveLoop_bound hloop
  · intro hbound
    exact (Mapping.start (hs.switch (List.mem_cons_of_mem _ hd)) hd rfl).loop hd hbase hbound

/-- What a vad whose pages are mapped exactly must be like. -/
theorem ReservesExactly.bounds (h : s.ReservesExactly v pd reserve)
    (hlt : (s.vads v).baseAddress < (s.vads v).limitAddress) :
    (s.vads v).limitAddress.toNat ≤ 2 ^ 32 - 4096 + (s.vads v).baseAddress.toNat % 4096 ∧
      (s.vads v).baseAddress.toNat % pageSize ≤
        ((s.vads v).limitAddress.toNat - 1) % pageSize := by
  obtain ⟨-, turns, k, htrace, hpages⟩ := h
  have hbound := reserveLoop_bound htrace.loop
  exact ⟨hbound, (trace_pages_iff htrace hbound hlt).mp hpages⟩

/-- `ReservePages` maps the pages of its vad, each once, exactly when the vad does not
reach the last page of memory and no page is passed over at its end. -/
theorem reservesExactly_iff (hs : Spaces s.mem pds) (hd : pd ∈ pds)
    (hbase : vProcessBaseAddr ≤ (s.vads v).baseAddress)
    (hlt : (s.vads v).baseAddress < (s.vads v).limitAddress) :
    s.ReservesExactly v pd reserve ↔ (s.vads v).limitAddress.toNat ≤ 0xFFFFF000 ∧
      (s.vads v).baseAddress.toNat % pageSize ≤ ((s.vads v).limitAddress.toNat - 1) % pageSize := by
  have hnat : (s.vads v).baseAddress.toNat < (s.vads v).limitAddress.toNat := hlt
  have hlimit := (s.vads v).limitAddress.isLt
  constructor
  · intro h
    obtain ⟨hbound, hoffset⟩ := h.bounds hlt
    unfold pageSize at hoffset ⊢
    omega
  · rintro ⟨hhigh, hoffset⟩
    have hbound : (s.vads v).limitAddress.toNat ≤
        2 ^ 32 - 4096 + (s.vads v).baseAddress.toNat % 4096 := by omega
    have hreturns := (@reservePages_success_iff s v pd pds reserve hs hd hbase).mpr hbound
    obtain ⟨fuel, k, hloop⟩ := reservePages_success.mp hreturns
    obtain ⟨turns, htrace⟩ := Outcome.exists_trace hloop
    exact ⟨hreturns, turns, k, htrace, (trace_pages_iff htrace hbound hlt).mpr hoffset⟩

/-- The vads are replaced by one from `base` to `limit`. -/
def withVad (s : VadMem) (base limit : U32) : VadMem :=
  { s with vads := fun _ => ⟨base, limit, limit - base, true, none, none⟩ }

@[simp] theorem withVad_vads (s : VadMem) (base limit : U32) (v : ℕ) :
    (s.withVad base limit).vads v = ⟨base, limit, limit - base, true, none, none⟩ := rfl

end VadMem

/-- A vad of parts of five pages, in a process that has just been created. -/
theorem reservesExactly_created : ∃ pool w p, PagePool.bss.init kernelInfo = .ret pool ∧
    Run UserStep (bootWorld pool 0x10000) [.create] w ∧ p ∈ w.processes ∧
    (w.s.withVad 0x40000800 0x40004900).ReservesExactly 0 p.pdEntry true := by
  obtain ⟨pool, w, p, hpool, hrun, hcreated, -⟩ := boot_created
  have hp := hcreated.mem_processes
  refine ⟨pool, w, p, hpool, hrun, hp, ?_⟩
  have hspaces : Spaces (w.s.withVad 0x40000800 0x40004900).mem w.pds := hcreated.spaces
  apply (VadMem.reservesExactly_iff hspaces (List.mem_map_of_mem hp) ?_ ?_).mpr
  · simp only [VadMem.withVad_vads]
    decide
  · simp only [VadMem.withVad_vads]
    decide
  · simp only [VadMem.withVad_vads]
    decide

/-- The second of its two pages is passed over, when a vad does not start with a page;
and the loop on a vad up to `V_PROCESS_LIMIT_ADDR` does not end. -/
theorem not_reservesExactly : ∃ pool w p, PagePool.bss.init kernelInfo = .ret pool ∧
    Run UserStep (bootWorld pool 0x10000) [.create] w ∧ p ∈ w.processes ∧
    ¬ (w.s.withVad 0x40001800 0x40002100).ReservesExactly 0 p.pdEntry true ∧
    ∀ fuel s', (w.s.withVad 0x40000000 vProcessLimitAddr).reservePages fuel 0 p.pdEntry true ≠
      .ret (.statusSuccess, s') := by
  obtain ⟨pool, w, p, hpool, hrun, hcreated, -⟩ := boot_created
  have hp := hcreated.mem_processes
  refine ⟨pool, w, p, hpool, hrun, hp, ?_, ?_⟩
  · intro h
    have hoffset := h.bounds
    simp only [VadMem.withVad_vads] at hoffset
    exact absurd (hoffset (by decide)).2 (by decide)
  · intro fuel s' hreturns
    have hspaces : Spaces (w.s.withVad 0x40000000 vProcessLimitAddr).mem w.pds := hcreated.spaces
    have hbound := (VadMem.reservePages_success_iff hspaces (List.mem_map_of_mem hp)
      (by simp only [VadMem.withVad_vads]; decide)).mp ⟨fuel, s', hreturns⟩
    simp only [VadMem.withVad_vads] at hbound
    exact absurd hbound (by decide)

end LtMicros
