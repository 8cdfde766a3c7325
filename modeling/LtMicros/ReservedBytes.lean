import LtMicros.ProcessBytes

/-!
# Reserving memory in an address space

What `AllocateMemoryAtAddress` leaves of the bytes of a process: those of the pages that it
maps are the bytes of other frames, and all others stay.
-/

namespace LtMicros

open Lib Lib.Frames

section Turn

variable {k k' : KernelMem} {pds : List U32} {d f g u v v' limit : U32}

/-- The frame that is given out holds neither a directory nor a table, nor the data of
another page. -/
theorem OwnSpace.fresh_ne (h : OwnSpace k pds d) (hfresh : FreshFrame k pds f) (hu : InUser u)
    (hg : PageAt k.mmu.phys d u g) : g ≠ f :=
  hfresh.ne_used (h.data u hu g hg).used

theorem OwnSpace.takePage (h : OwnSpace k pds d) (hfresh : FreshFrame k pds f) :
    OwnSpace k.takePage pds d := by
  constructor
  · exact ⟨h.separate.spaces.takePage, h.separate.unshared⟩
  · exact h.mem
  · exact h.tables
  · intro u hu g hg
    have hdata := h.data u hu g hg
    exact ⟨hfresh.uses_of_uses hdata.used, hdata.high, hdata.notDirectory, hdata.notTable⟩
  · exact h.distinct

/-- The tables after a page has been added are those before, and perhaps one that is a fresh
frame. -/
theorem Adds.tables {p flags : U32} (h : Adds k d v p flags k') (hs : Separate ⟨k, pds⟩)
    (hd : d ∈ pds) (hv : InUser v) (hmem : k.NotExhausted) {d' i t : U32} (hd' : d' ∈ pds)
    (hi : UserIndex i) (ht : PointsTo (k'.mmu.phys (slot d' i)) t) :
    PointsTo (k.mmu.phys (slot d' i)) t ∨ FreshFrame k pds t := by
  have hi' : i.toNat < 1024 := Nat.lt_succ_of_lt hi.2
  by_cases heq : d' = d
  · subst heq
    have hadded := hs.spaces.added hd hv (fun _ => hmem.2) h
    rw [hadded.directory i hi'] at ht
    split at ht
    · obtain ⟨f, hfresh⟩ := hs.spaces.freshFrame hmem.1
      have hframe := frameOf_setPageDirectoryEntry k.gPmm.getFreePage.1
        (pagePresent ||| pageWriteable ||| flags)
      rw [hfresh.eq, hfresh.frame.frameOf_eq] at hframe
      rw [hfresh.eq] at ht
      obtain rfl : t = f := ht.2.symm.trans hframe
      exact .inr hfresh
    · exact .inl ht
  · have hsame := (h.separate hs hd hv fun _ => hmem).2 d' hd' heq
    rw [hsame.directory i hi'] at ht
    exact .inl ht

/-- The table that is written is none of the frames that a process or the kernel's part
holds data in. -/
theorem OwnSpace.ne_tableFor (h : OwnSpace k pds d) (hv : InUser v) (hmem : k.NotExhausted)
    (hg : (∀ i, UserIndex i → ∀ t, PointsTo (k.mmu.phys (slot d i)) t → g ≠ t) ∧
      ∀ f, FreshFrame k pds f → g ≠ f) : g ≠ tableFor k d v := by
  rw [tableFor]
  split
  · rename_i hpresent
    exact hg.1 _ hv.userIndex _ (pointsTo_frameOf hpresent)
  · obtain ⟨f, hfresh⟩ := h.separate.spaces.freshFrame hmem.1
    rw [hfresh.eq, hfresh.frame.frameOf_eq]
    exact hg.2 f hfresh

/-- One turn of `ReservePages` maps the page of its address, and no other page changes. -/
theorem OwnSpace.turn (h : OwnSpace k pds d) (hcr3 : k.mmu.cr3 = d) (hv : InUser v)
    (hturn : VadMem.reservePagesTurn limit true (v, k) = .ret (.inl (v', k')))
    (hmem : k'.NotExhausted) :
    Within k k' pds d (fun u => pageNo u = pageNo v) ∧ k'.mmu.cr3 = d ∧
      ∀ u, pageNo u = pageNo v → k'.mmu.byteIn d u ≠ none := by
  obtain ⟨-, rfl, ⟨-, hadd⟩ | ⟨hfalse, -⟩⟩ := reservePagesTurn_inl hturn
  swap
  · cases hfalse
  have hmem₁ : k.takePage.NotExhausted := (consumes_addPage hadd).notExhausted hmem
  have hmem₀ : k.NotExhausted := k.consumes_takePage.notExhausted hmem₁
  obtain ⟨f, hfresh⟩ := h.separate.spaces.freshFrame hmem₀.1
  have hown := h.takePage hfresh
  have hused : k.takePage.Uses f := hfresh.uses
  have hs := hown.separate
  rw [hfresh.eq] at hadd
  obtain ⟨k₁, hr, hadds⟩ := hs.spaces.adds hv f presentFlags
  obtain rfl := Outcome.ret.inj (hr.symm.trans hadd)
  have hcr3₁ : k.takePage.mmu.cr3 = d := hcr3
  rw [hcr3₁] at hadds
  have hadded := hs.spaces.added h.mem hv (fun _ => hmem₁.2) hadds
  have hs' : Separate ⟨k₁, pds⟩ :=
    ⟨hs.spaces.of_adds h.mem hv hadds, (hadds.separate hs h.mem hv fun _ => hmem₁).1⟩
  have hpoints : PointsTo (setPageTableEntry f presentFlags) f := by
    constructor
    · rw [flagOn_setPageTableEntry]
      decide
    · exact (frameOf_setPageTableEntry f presentFlags).trans hfresh.frame.frameOf_eq
  have hself (u : U32) (hpage : pageNo u = pageNo v) : PageAt k₁.mmu.phys d u f :=
    ⟨_, hadded.entryIn_self hpage, hpoints⟩
  -- the other pages have the entries that they had, or none that is present
  have hother (u : U32) (hu : InUser u) (hne : pageNo u ≠ pageNo v) (g : U32) :
      PageAt k₁.mmu.phys d u g ↔ PageAt k.mmu.phys d u g := by
    by_cases hdir : dirIndex u = dirIndex v
    · rw [PageAt, PageAt, hadded.entryIn_same hdir hne]
      cases hpresent : flagOn (k.takePage.mmu.phys (slot d (dirIndex v))) pagePresent with
      | true => rfl
      | false =>
        rw [← hdir] at hpresent
        have hnone : entryIn k.mmu.phys d u = none := entryIn_absent hpresent
        rw [hnone, if_neg Bool.false_ne_true]
        constructor
        · rintro ⟨w, hw, hg⟩
          cases hw
          exact absurd hg.1 (by decide)
        · rintro ⟨w, hw, -⟩
          cases hw
    · have hsame := hadded.entryIn_other hs.spaces h.mem hu hdir
        (hs.tableFor_unshared h.mem (fun _ => hmem₁.1) hv hu.userIndex hdir)
      rw [PageAt, PageAt, hsame]
      rfl
  have hmono {g : U32} (hg : k.takePage.Uses g) : k₁.Uses g := hadds.used hs.spaces hg
  have hnotTable {g : U32} (hg : k.takePage.Uses g)
      (hold : ∀ d' ∈ pds, ∀ i, UserIndex i → ∀ t,
        PointsTo (k.takePage.mmu.phys (slot d' i)) t → t ≠ g) :
      ∀ d' ∈ pds, ∀ i, UserIndex i → ∀ t, PointsTo (k₁.mmu.phys (slot d' i)) t → t ≠ g := by
    intro d' hd' i hi t ht
    rcases hadds.tables hs h.mem hv hmem₁ hd' hi ht with hbefore | hnew
    · exact hold d' hd' i hi t hbefore
    · exact (hnew.ne_used hg).symm
  have hframes (u : U32) (hu : InUser u) (g : U32) (hg : PageAt k₁.mmu.phys d u g) :
      DataFrame k₁ pds g := by
    by_cases hpage : pageNo u = pageNo v
    · obtain rfl := hg.unique (hself u hpage)
      refine ⟨hmono hused, hfresh.high, hfresh.notDirectory, hnotTable hused ?_⟩
      intro d' hd' i hi t ht
      exact hfresh.ne_used (h.separate.spaces.tables d' hd' i hi t ht).used
    · have hbefore := hown.data u hu g ((hother u hu hpage g).mp hg)
      exact ⟨hmono hbefore.used, hbefore.high, hbefore.notDirectory,
        hnotTable hbefore.used hbefore.notTable⟩
  have hown' : OwnSpace k₁ pds d := by
    refine ⟨hs', h.mem, ?_, hframes, ?_⟩
    · intro i hi t ht
      rcases hadds.tables hs h.mem hv hmem₁ h.mem hi ht with hbefore | hnew
      · exact h.tables i hi t hbefore
      · exact hnew.high
    · intro u u' hu hu' g hg hg'
      by_cases hpage : pageNo u = pageNo v
      · by_cases hpage' : pageNo u' = pageNo v
        · rw [hpage, hpage']
        · obtain rfl := hg.unique (hself u hpage)
          exact absurd rfl (h.fresh_ne hfresh hu' ((hother u' hu' hpage' g).mp hg'))
      · by_cases hpage' : pageNo u' = pageNo v
        · obtain rfl := hg'.unique (hself u' hpage')
          exact absurd rfl (h.fresh_ne hfresh hu ((hother u hu hpage g).mp hg))
        · exact h.distinct u u' hu hu' g ((hother u hu hpage g).mp hg)
            ((hother u' hu' hpage' g).mp hg')
  have hdir := (h.separate.spaces.directory h.mem).frame
  refine ⟨⟨hown', ?_, ?_⟩, hadded.cr3.trans hcr3, ?_⟩
  · intro u hu hne
    apply byteIn_congr hdir (hother u hu hne)
    intro g hg j hj
    have hdata := hown.data u hu g hg
    apply hadded.others g hg.frame _ _ _ j hj
    · right
      have hhigh := hdata.high
      omega
    · rintro rfl
      exact hdata.notDirectory (List.mem_cons_of_mem _ h.mem)
    · apply hown.ne_tableFor hv hmem₁
      constructor
      · intro i hi t ht
        exact (hdata.notTable d h.mem i hi t ht).symm
      · intro f' hf'
        exact hf'.ne_used hdata.used
  · intro u b hb
    have hu : u < vUserBaseAddr := by
      show u.toNat < 0x40000000
      have hlow := hb.1
      omega
    obtain ⟨-, hkept, -⟩ := (hs.spaces.sane h.mem hcr3₁).userPage hv hadd
    apply hb.kept
    · apply hkept.tables u hu
      intro hnew
      have hlow := hb.1
      have hin := (hnew.inPool hs.spaces.pool).2.1
      rw [toNat_frameOf] at hin
      omega
    · intro g hgf hoff hg j hj
      have hlowFrame := hown.lowFrame hg
      apply hadded.others g hgf hoff hlowFrame.1 _ j hj
      apply hown.ne_tableFor hv hmem₁
      refine ⟨hlowFrame.2, ?_⟩
      rintro _ hf' rfl
      have hhigh := hf'.high
      omega
  · intro u hpage
    rw [(byteIn_eq_some hdir).mpr ⟨f, hself u hpage, rfl⟩]
    exact Option.some_ne_none _

/-! ## The whole loop -/

theorem turn_consumes {reserve : Bool}
    (hturn : VadMem.reservePagesTurn limit reserve (v, k) = .ret (.inl (v', k'))) :
    k.Consumes k' := by
  obtain ⟨-, -, ⟨-, hadd⟩ | ⟨-, hadd⟩⟩ := reservePagesTurn_inl hturn
  · exact k.consumes_takePage.trans (consumes_addPage hadd)
  · exact consumes_addPage hadd

/-- The address is in a page that the loop over a vad passes. -/
def PassesPage (base limit u : U32) : Prop := ∃ x, Passes base limit x ∧ pageNo u = pageNo x

/-- While memory lasts, the loop of `ReservePages` maps the pages that it passes, and changes
no others. -/
theorem OwnSpace.reserveLoop {base : U32} {fuel : ℕ} (h : OwnSpace k pds d)
    (hcr3 : k.mmu.cr3 = d) (hlo : vUserBaseAddr ≤ base) (hhi : limit ≤ 0xFFC00000)
    (hr : Outcome.loop (VadMem.reservePagesTurn limit true) fuel (base, k) =
      .ret (.statusSuccess, k')) (hmem : k'.NotExhausted) :
    Within k k' pds d (PassesPage base limit) ∧
      ∀ u, InUser u → PassesPage base limit u → k'.mmu.byteIn d u ≠ none := by
  have hle : vUserBaseAddr.toNat ≤ base.toNat := hlo
  have hlimit : limit.toNat ≤ 0xFFC00000 := hhi
  have hmain := Outcome.loop_invariant
    (I := fun st : U32 × KernelMem => base.toNat ≤ st.1.toNat ∧
      st.1.toNat % 4096 = base.toNat % 4096 ∧ (st.2.NotExhausted →
        Within k st.2 pds d (PassesPage base limit) ∧ st.2.mmu.cr3 = d ∧
        ∀ u x, InUser u → Passes base limit x → x.toNat < st.1.toNat → pageNo u = pageNo x →
          st.2.mmu.byteIn d u ≠ none))
    (Q := fun r : KeStatus × KernelMem => r.1 = .statusSuccess → r.2.NotExhausted →
      Within k r.2 pds d (PassesPage base limit) ∧
        ∀ u, InUser u → PassesPage base limit u → r.2.mmu.byteIn d u ≠ none)
    ?_ ?_ ⟨Nat.le_refl _, rfl, fun _ => ⟨.refl h _, hcr3, ?_⟩⟩ hr
  · exact hmain rfl hmem
  · rintro ⟨v, k₁⟩ ⟨v', k₂⟩ ⟨hge, hclass, hwithin⟩ hturn
    obtain ⟨hlt, rfl, -⟩ := reservePagesTurn_inl hturn
    have hlt : v.toNat < limit.toNat := hlt
    have hpage : (4096 : U32).toNat = 4096 := rfl
    have hnext : (v + 4096).toNat = v.toNat + 4096 := by
      rw [BitVec.toNat_add, hpage]
      exact Nat.mod_eq_of_lt (by omega)
    dsimp only at hge hclass hwithin ⊢
    refine ⟨by omega, by omega, ?_⟩
    intro hmem
    -- memory that is left now was left before
    obtain ⟨hbefore, hcr3₁, hmapped⟩ := hwithin ((turn_consumes hturn).notExhausted hmem)
    have hv : InUser v := by
      constructor
      · show vUserBaseAddr.toNat ≤ v.toNat
        omega
      · show v.toNat < 0xFFC00000
        omega
    obtain ⟨hstep, hcr3₂, hpages⟩ := hbefore.own.turn hcr3₁ hv hturn hmem
    refine ⟨(hbefore.trans hstep).mono ?_, hcr3₂, ?_⟩
    · rintro u - (hu | hu)
      · exact hu
      · exact ⟨v, ⟨hge, hlt, hclass⟩, hu⟩
    · intro u x hu hx hxv hux
      by_cases hsame : pageNo u = pageNo v
      · exact hpages u hsame
      · -- the addresses below the next one are those below this one, and this one
        rw [hstep.bytes u hu hsame]
        apply hmapped u x hu hx _ hux
        have hxclass := hx.2.2
        have hne : x.toNat ≠ v.toNat := by
          intro heq
          rw [hux, pageNo, pageNo, heq] at hsame
          exact hsame rfl
        omega
  · rintro ⟨v, k₁⟩ ⟨status, k₂⟩ ⟨-, -, hwithin⟩ hturn hsuccess hmem
    rcases reservePagesTurn_inr hturn with ⟨hend, -, rfl⟩ | ⟨-, hfull, -⟩
    · obtain ⟨hall, -, hmapped⟩ := hwithin hmem
      refine ⟨hall, ?_⟩
      rintro u hu ⟨x, hx, hux⟩
      have hxl : x.toNat < limit.toNat := hx.2.1
      have hvl : limit.toNat ≤ v.toNat := BitVec.not_lt.mp hend
      exact hmapped u x hu hx (by dsimp only; omega) hux
    · cases hsuccess.symm.trans hfull
  · intro u x _ hx hlt
    have hge := hx.1
    dsimp only at hlt
    omega

end Turn

/-! ## The vads of a new process -/

namespace VadMem

/-- The vads from the number `n` on are linked among themselves, and their size is the
distance of their ends. -/
structure Since (s : VadMem) (n : ℕ) : Prop where
  first : n < s.heapTop
  size : ∀ v, n ≤ v → v < s.heapTop →
    (s.vads v).size = (s.vads v).limitAddress - (s.vads v).baseAddress
  next : ∀ v, n ≤ v → v < s.heapTop → ∀ w, s.next v = some w → n ≤ w ∧ w < s.heapTop

section Since

variable {s s' : VadMem} {n v this w fuel : ℕ} {address size : U32} {f : Vad → Vad}

theorem Since.store (h : Since s n)
    (hsize : (f (s.vads v)).size = (f (s.vads v)).limitAddress - (f (s.vads v)).baseAddress)
    (hnext : ∀ w, (f (s.vads v)).next = some w → n ≤ w ∧ w < s.heapTop) :
    Since (s.store v f) n := by
  constructor
  · exact h.first
  · intro u hu htop
    by_cases huv : u = v
    · rw [huv, store_self]
      exact hsize
    · rw [store_of_ne s huv]
      exact h.size u hu htop
  · intro u hu htop w hw
    by_cases huv : u = v
    · rw [VadMem.next, huv, store_self] at hw
      exact hnext w hw
    · rw [VadMem.next, store_of_ne s huv] at hw
      exact h.next u hu htop w hw

/-- A link back is not looked at. -/
theorem Since.setPreviousIf (h : Since s n) (w p : Option ℕ) : Since (s.setPreviousIf w p) n := by
  have htop := s.heapTop_setPreviousIf w p
  constructor
  · rw [htop]
    exact h.first
  · intro u hu hlt
    obtain ⟨previous, hvad⟩ := setPreviousIf_keeps s w p u
    rw [hvad]
    rw [htop] at hlt
    exact h.size u hu hlt
  · intro u hu hlt x hx
    obtain ⟨previous, hvad⟩ := setPreviousIf_keeps s w p u
    rw [VadMem.next, hvad] at hx
    rw [htop] at hlt ⊢
    exact h.next u hu hlt x hx

/-- A new vad at the end of a chain. -/
theorem Since.insert (h : Since s n) (vad : Vad)
    (hsize : vad.size = vad.limitAddress - vad.baseAddress)
    (hnext : vad.next = none) :
    Since { s with vads := Function.update s.vads s.heapTop vad, heapTop := s.heapTop + 1 } n := by
  constructor
  · exact Nat.lt_succ_of_lt h.first
  · intro u hu hlt
    dsimp only at hlt ⊢
    by_cases htop : u = s.heapTop
    · rw [htop, Function.update_self]
      exact hsize
    · rw [Function.update_of_ne htop]
      exact h.size u hu (by omega)
  · intro u hu hlt w hw
    dsimp only [VadMem.next] at hlt hw ⊢
    by_cases htop : u = s.heapTop
    · rw [htop, Function.update_self, hnext] at hw
      cases hw
    · rw [Function.update_of_ne htop] at hw
      have hold := h.next u hu (by omega) w hw
      omega

theorem sub_add_cancel_left (a b : U32) : a + b - a = b := by
  rw [BitVec.add_comm, BitVec.add_sub_cancel]

theorem sub_sub_swap (a b c : U32) : a - b - c = a - c - b := by
  rw [BitVec.sub_sub, BitVec.sub_sub, BitVec.add_comm b]

theorem Since.split (h : Since s n) (hv : n ≤ v) (hlt : v < s.heapTop) (size : U32) :
    Since (s.split v size).2 n := by
  unfold VadMem.split
  split
  · exact h
  split
  · exact h
  split
  · exact h
  rcases s.create_cases ((s.vads v).baseAddress + pagesOf size) ((s.vads v).size - pagesOf size)
    true with ⟨status, hcreate, -⟩ | hcreate
  · rw [hcreate]
    cases status <;> exact h
  · rw [hcreate]
    dsimp only
    -- the links and the sizes after each of the stores
    have hinsert := h.insert
      ⟨(s.vads v).baseAddress + pagesOf size,
        (s.vads v).baseAddress + pagesOf size + ((s.vads v).size - pagesOf size),
        (s.vads v).size - pagesOf size, true, none, none⟩
      (sub_add_cancel_left _ _).symm rfl
    have hprevious := hinsert.store (v := s.heapTop)
      (f := fun vad => { vad with previous := some v }) (by
        dsimp only
        rw [Function.update_self]
        exact (sub_add_cancel_left _ _).symm) (by
        intro w hw
        dsimp only at hw
        rw [Function.update_self] at hw
        cases hw)
    apply (hprevious.setPreviousIf _ _).store
    · dsimp only
      rw [sub_add_cancel_left]
    · intro w hw
      cases hw
      rw [heapTop_setPreviousIf]
      exact ⟨by omega, Nat.lt_succ_self _⟩

theorem Since.insertVad (h : Since s n) (hv : n ≤ v) (hlt : v < s.heapTop) (address : U32) :
    Since (s.insertVad v address) n := by
  have hinsert := h.insert
    ⟨address, address + ((s.vads v).limitAddress - address),
      (s.vads v).limitAddress - address, true, none, none⟩ (sub_add_cancel_left _ _).symm rfl
  have hnew := hinsert.size s.heapTop (by omega) (Nat.lt_succ_self _)
  have hlinks := hinsert.next v hv (Nat.lt_succ_of_lt hlt)
  unfold VadMem.insertVad
  dsimp only at hnew ⊢
  have hlinked := hinsert.store (v := s.heapTop) (f := fun vad =>
    { vad with previous := some v, next := (Function.update s.vads s.heapTop ⟨address,
        address + ((s.vads v).limitAddress - address), (s.vads v).limitAddress - address,
        true, none, none⟩ v).next }) hnew hlinks
  have hback (w p : Option ℕ) := (hlinked.setPreviousIf w p).size v hv (by
    rw [heapTop_setPreviousIf]
    exact Nat.lt_succ_of_lt hlt)
  apply (hlinked.setPreviousIf _ _).store
  · dsimp only
    rw [hback, sub_sub_swap]
  · intro w hw
    cases hw
    rw [heapTop_setPreviousIf]
    exact ⟨by omega, Nat.lt_succ_self _⟩

theorem Since.splitAtAddress (h : Since s n) (hv : n ≤ v) (hlt : v < s.heapTop)
    (address size : U32) : Since (s.splitAtAddress v address size).2 n := by
  rcases s.splitAtAddress_cases v address size with ⟨status, hsplit, -⟩ | hsplit
  · rw [hsplit]
    exact h
  rw [hsplit]
  split
  · have hins := inserted_insertVad hlt address
    have hsince := h.insertVad hv hlt address
    rcases splitInside_cases hlt address size with ⟨status, hinside, -⟩ | hinside
    · rw [hinside]
      exact h
    · rw [hinside]
      split
      · apply hsince.split (by omega)
        rw [hins.heapTop]
        exact Nat.lt_succ_self _
      · exact hsince
  · exact h.split hv hlt size

theorem Since.chooseVadAtAddress (h : Since s n) {r : KeStatus × Option ℕ × VadMem}
    (hr : s.chooseVadAtAddress fuel n address size = .ret r) : Since r.2.2 n := by
  unfold VadMem.chooseVadAtAddress at hr
  split at hr
  · cases hr
    exact h
  split at hr
  · cases hr
    exact h
  obtain ⟨⟨status, out⟩, hlook, hr⟩ := Outcome.bind_eq_ret.mp hr
  split at hr
  · rename_i v heq
    cases heq
    obtain ⟨hv, hlt⟩ := lookForFreeAt_mem (P := fun v => n ≤ v ∧ v < s.heapTop)
      (fun v hv => h.next v hv.1 hv.2) ⟨Nat.le_refl n, h.first⟩ hlook
    have hsplit := h.splitAtAddress hv hlt address size
    unfold chooseAtAddressFrom at hr
    split at hr
    · dsimp only at hr
      split at hr
      · cases hr
        exact hsplit
      · split at hr
        · obtain ⟨_, -, hr⟩ := Outcome.bind_eq_ret.mp hr
          cases hr
          exact hsplit
        · cases hr
          exact hsplit
    · cases hr
      exact h
  · cases hr
    exact h

/-- The vad that is chosen starts at the address. -/
theorem Since.region {s₁ : VadMem} (h : Since s n)
    (hr : s.chooseVadAtAddress fuel n address size = .ret (.statusSuccess, some w, s₁)) :
    ∃ v, n ≤ v ∧ v < s.heapTop ∧ (s₁.vads w).baseAddress = address ∧
      (s₁.vads w).limitAddress = s.reservedLimit v address size := by
  unfold VadMem.chooseVadAtAddress at hr
  split at hr
  · cases hr
  split at hr
  · cases hr
  obtain ⟨⟨status, out⟩, hlook, hr⟩ := Outcome.bind_eq_ret.mp hr
  split at hr
  · rename_i v heq
    cases heq
    obtain ⟨hv, hlt⟩ := lookForFreeAt_mem (P := fun v => n ≤ v ∧ v < s.heapTop)
      (fun v hv => h.next v hv.1 hv.2) ⟨Nat.le_refl n, h.first⟩ hlook
    exact ⟨v, hv, hlt, chooseAtAddressFrom_region hlt hr⟩
  · cases hr

/-- A successful `ReservePages` runs through the vad, and marks it. -/
theorem reservePages_marks {pageDirectory : U32} {reserve : Bool}
    (hr : s.reservePages fuel v pageDirectory reserve = .ret (.statusSuccess, s')) :
    ∃ k, Outcome.loop (reservePagesTurn (s.vads v).limitAddress reserve) fuel
        ((s.vads v).baseAddress,
          { s.mem with mmu := s.mem.mmu.setCurrentPageDirectory pageDirectory }) =
        .ret (.statusSuccess, k) ∧
      s' = VadMem.store
        { s with mem := { k with mmu := k.mmu.setCurrentPageDirectory s.mem.mmu.cr3 } } v
        fun vad => { vad with free := false } := by
  obtain ⟨⟨status, k⟩, hloop, hr⟩ := Outcome.bind_eq_ret.mp hr
  dsimp only at hr
  split at hr
  · rename_i heq
    cases heq
    cases hr
    exact ⟨_, hloop, rfl⟩
  · rename_i hne heq
    cases heq
    cases hr
    exact absurd rfl hne

theorem Since.reservePages (h : Since s n) {pageDirectory : U32} {reserve : Bool}
    (hr : s.reservePages fuel v pageDirectory reserve = .ret (.statusSuccess, s')) :
    Since s' n := by
  obtain ⟨k, -, rfl⟩ := reservePages_marks hr
  have hsame (u : ℕ) : (VadMem.store { s with mem := { k with
      mmu := k.mmu.setCurrentPageDirectory s.mem.mmu.cr3 } } v
      fun vad => { vad with free := false }).vads u =
        { s.vads u with free := if u = v then false else (s.vads u).free } := by
    by_cases huv : u = v
    · rw [huv, store_self, if_pos rfl]
    · rw [store_of_ne _ huv, if_neg huv]
  constructor
  · exact h.first
  · intro u hu hlt
    rw [hsame]
    exact h.size u hu hlt
  · intro u hu hlt w hw
    rw [VadMem.next, hsame] at hw
    exact h.next u hu hlt w hw

/-- A vad that is reserved at an address ends at most a page behind the asked bytes. -/
theorem Since.reservedLimit_le (h : Since s n) (hv : n ≤ v) (hlt : v < s.heapTop)
    (h0 : size ≠ 0) (hroom : address.toNat + size.toNat + 4096 < 2 ^ 32) :
    (s.reservedLimit v address size).toNat ≤ address.toNat + size.toNat + 4096 := by
  have hsize := h.size v hv hlt
  have hpages : pageSize = 4096 := rfl
  have hbounds := pagesOf_bounds h0 (by omega)
  have hwhole : (if (s.vads v).baseAddress ≠ address then (s.vads v).limitAddress - address
      else (s.vads v).size) = (s.vads v).limitAddress - address := by
    split
    · rfl
    · rename_i hbase
      rw [hsize, not_not.mp hbase]
  rw [reservedLimit, hwhole]
  split
  · rw [BitVec.toNat_add, Nat.mod_eq_of_lt (by omega)]
    omega
  · rename_i hdelta
    -- what is left behind the asked bytes is at most a page
    have hrest : ((s.vads v).limitAddress - address - size).toNat ≤ 4096 :=
      BitVec.not_lt.mp hdelta
    have hlimit : (s.vads v).limitAddress =
        address + size + ((s.vads v).limitAddress - address - size) := by
      rw [BitVec.sub_sub, BitVec.add_comm (address + size), BitVec.sub_add_cancel]
    rw [hlimit, BitVec.toNat_add, BitVec.toNat_add]
    have hle := Nat.mod_le (address.toNat + size.toNat) (2 ^ 32)
    exact (Nat.mod_le _ _).trans (by omega)

end Since

end VadMem

/-! ## `AllocateMemoryAtAddress` -/

/-- The address is in one of the pages that `size` bytes at `address` may take. -/
def ReachesPage (address size u : U32) : Prop :=
  pageNo address ≤ pageNo u ∧ pageNo u ≤ pageNo address + (size.toNat + 4095) / 4096

section Allocate

variable {s s' : VadMem} {pds : List U32} {p : Process} {n v fuel : ℕ} {address size limit u : U32}
  {status : KeStatus} {out : Option ℕ}

theorem reachesPage_of_passesPage (hlimit : limit.toNat ≤ address.toNat + size.toNat + 4096)
    (h : PassesPage address limit u) : ReachesPage address size u := by
  obtain ⟨x, ⟨hge, hlt, hclass⟩, hpage⟩ := h
  rw [ReachesPage, hpage]
  unfold pageNo pageSize
  omega

/-- The addresses of the range lie in these pages. -/
theorem reachesPage_of_inRange (h : InRange address size.toNat u) : ReachesPage address size u := by
  obtain ⟨hlo, hhi⟩ := h
  unfold ReachesPage pageNo pageSize
  omega

/-- A successful `AllocateMemoryAtAddress` chooses a vad and reserves its pages. -/
theorem allocateMemoryAtAddress_chooses {reserve : Bool}
    (hr : p.allocateMemoryAtAddress fuel s address reserve size = .ret (.statusSuccess, s')) :
    size ≠ 0 ∧ ∃ v s₁,
      s.chooseVadAtAddress fuel p.baseVad address size = .ret (.statusSuccess, some v, s₁) ∧
      s₁.reservePages fuel v p.pdEntry reserve = .ret (.statusSuccess, s') := by
  unfold Process.allocateMemoryAtAddress at hr
  split at hr
  · cases hr
  split at hr
  · cases hr
  rename_i h0
  obtain ⟨⟨status, out, s₂⟩, hcall, hr⟩ := Outcome.bind_eq_ret.mp hr
  dsimp only at hr
  split at hr
  · rename_i hfailed
    cases hr
    cases hfailed
  rename_i hnot
  cases hr
  have hstatus : status = .statusSuccess := by
    by_contra hne
    exact hnot (VadMem.failed_eq_true.mpr hne)
  subst hstatus
  rw [VadMem.allocateAtAddress_eq] at hcall
  obtain ⟨⟨status₁, out₁, s₁⟩, hchoose, hcall⟩ := Outcome.bind_eq_ret.mp hcall
  unfold VadMem.reserveChosen at hcall
  split at hcall
  · rename_i v s₁ heq
    cases heq
    obtain ⟨⟨status₂, s₂⟩, hreserve, hcall⟩ := Outcome.bind_eq_ret.mp hcall
    split at hcall
    · rename_i heq
      cases heq
      cases hcall
      exact ⟨h0, v, s₁, hchoose, hreserve⟩
    · rename_i hne heq
      cases heq
      cases hcall
      exact absurd rfl hne
  · rename_i hne heq
    cases heq
    cases hcall
    obtain ⟨v, hv⟩ := Option.ne_none_iff_exists'.mp (VadMem.chooseVadAtAddress_some hchoose rfl)
    exact (hne v rfl hv).elim

/-- `ReservePages` on a vad of the user half. -/
theorem OwnSpace.reservePages {pd : U32} (h : OwnSpace s.mem pds pd)
    (hcur : s.mem.mmu.cr3 ∈ allDirectories pds) (hlo : vUserBaseAddr ≤ (s.vads v).baseAddress)
    (hhi : (s.vads v).limitAddress ≤ 0xFFC00000)
    (hr : s.reservePages fuel v pd true = .ret (.statusSuccess, s'))
    (hmem : s'.mem.NotExhausted) : s'.mem.mmu.cr3 = s.mem.mmu.cr3 ∧
      Within s.mem s'.mem pds pd (PassesPage (s.vads v).baseAddress (s.vads v).limitAddress) ∧
      ∀ u, InUser u → PassesPage (s.vads v).baseAddress (s.vads v).limitAddress u →
        s'.mem.mmu.byteIn pd u ≠ none := by
  obtain ⟨k, hloop, rfl⟩ := VadMem.reservePages_marks hr
  obtain ⟨hwithin, hmapped⟩ :=
    (h.switch (List.mem_cons_of_mem _ h.mem)).reserveLoop rfl hlo hhi hloop hmem
  exact ⟨rfl, hwithin.of_switch.switch hcur, hmapped⟩

/-- What a successful `AllocateMemoryAtAddress` leaves of the process. -/
structure AllocatedAt (s s' : VadMem) (pds : List U32) (p : Process) (address size : U32) :
    Prop where
  cr3 : s'.mem.mmu.cr3 = s.mem.mmu.cr3
  since : s'.Since p.baseVad
  within : Within s.mem s'.mem pds p.pdEntry (ReachesPage address size)

theorem OwnSpace.allocateMemoryAtAddress (h : OwnSpace s.mem pds p.pdEntry)
    (hsince : s.Since p.baseVad) (hcur : s.mem.mmu.cr3 ∈ allDirectories pds)
    (hlo : vUserBaseAddr ≤ address) (hhi : address.toNat + size.toNat + 4096 ≤ 0xFFC00000)
    (hr : p.allocateMemoryAtAddress fuel s address true size = .ret (.statusSuccess, s'))
    (hlast : s'.mem.NotExhausted) : AllocatedAt s s' pds p address size := by
  obtain ⟨h0, v, s₁, hchoose, hreserve⟩ := allocateMemoryAtAddress_chooses hr
  have hmem : s₁.mem = s.mem := VadMem.chooseVadAtAddress_mem hchoose
  have hsince₁ : s₁.Since p.baseVad := hsince.chooseVadAtAddress hchoose
  obtain ⟨x, hx, hlt, hbase, hlimit⟩ := hsince.region hchoose
  have hle : (s.reservedLimit x address size).toNat ≤ address.toNat + size.toNat + 4096 :=
    hsince.reservedLimit_le hx hlt h0 (by omega)
  rw [← hmem] at h hcur
  have hlimit' : (s₁.vads v).limitAddress ≤ 0xFFC00000 := by
    rw [hlimit]
    exact hle.trans hhi
  obtain ⟨hcr3, hwithin, -⟩ := h.reservePages hcur (by rwa [hbase]) hlimit' hreserve hlast
  rw [hmem] at hcr3 hwithin
  rw [hbase, hlimit] at hwithin
  exact ⟨hcr3, hsince₁.reservePages hreserve,
    hwithin.mono fun u _ hu => reachesPage_of_passesPage hle hu⟩

end Allocate

end LtMicros
