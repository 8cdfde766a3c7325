import LtMicros.Overlay

/-!
# Populating an address space

Pages and absent pages are added to one address space while there is memory for
them and for the tables that are missing.
-/

namespace LtMicros

open Lib Lib.Frames

/-- The pages that the present entries of `r` map are in use, and each is mapped
once. -/
structure OwnPages (p : PmmBitmap) (r : ℕ → Option U32) : Prop where
  used : ∀ n w f, r n = some w → PointsTo w f → p.used (pageOf f) = true
  distinct : ∀ n n' w w' f, r n = some w → r n' = some w' → PointsTo w f → PointsTo w' f → n = n'

/-- The directory entries from that of `base` to the last one before `limit`. -/
def directoryEntries (base limit : U32) : Finset ℕ :=
  Finset.Icc (dirIndex base).toNat (dirIndex (limit - 1)).toNat

/-- How many of them have no table. -/
def missingTables (phys : U32 → U32) (d base limit : U32) : ℕ :=
  ((directoryEntries base limit).filter fun i =>
    flagOn (phys (slot d (BitVec.ofNat 32 i))) pagePresent = false).card

/-- There is memory for `n` pages and for the missing tables. -/
def KernelMem.Affords (k : KernelMem) (d base limit : U32) (n : ℕ) : Prop :=
  k.Supply (n + missingTables k.mmu.phys d base limit) (missingTables k.mmu.phys d base limit)

/-- The entries `r` have been laid over the address space `d`, which was `phys₀`. -/
structure Populates (phys₀ : U32 → U32) (k : KernelMem) (pds : List U32) (d : U32)
    (r : ℕ → Option U32) : Prop where
  separate : Separate ⟨k, pds⟩
  overlays : Overlays phys₀ k.mmu.phys d r
  pages : OwnPages k.gPmm r

section Populate

variable {phys₀ phys : U32 → U32} {k k' : KernelMem} {pds : List U32}
  {d v p flags base limit : U32} {r : ℕ → Option U32} {n : ℕ}

theorem Populates.start (hs : Separate ⟨k, pds⟩) (d : U32) :
    Populates k.mmu.phys k pds d fun _ => none := by
  constructor
  · exact hs
  · exact .refl _ d
  · constructor
    · intro n w f hw
      cases hw
    · intro n n' w w' f hw
      cases hw

theorem Populates.switch (h : Populates phys₀ k pds d r) {d' : U32} (hd' : d' ∈ allDirectories pds) :
    Populates phys₀ { k with mmu := k.mmu.setCurrentPageDirectory d' } pds d r :=
  ⟨h.separate.switch hd', h.overlays, h.pages⟩

/-! ### The memory that is needed -/

theorem mem_directoryEntries (hlo : base ≤ v) (hhi : v < limit) :
    (dirIndex v).toNat ∈ directoryEntries base limit := by
  have hlo : base.toNat ≤ v.toNat := hlo
  have hhi : v.toNat < limit.toNat := hhi
  have hone : (1 : U32).toNat = 1 := rfl
  have hsub : (limit - 1).toNat = limit.toNat - 1 := by
    rw [BitVec.toNat_sub_of_le, hone]
    show 1 ≤ limit.toNat
    omega
  rw [directoryEntries, Finset.mem_Icc, toNat_dirIndex, toNat_dirIndex, toNat_dirIndex, hsub]
  constructor
  · exact Nat.div_le_div_right hlo
  · exact Nat.div_le_div_right (by omega)

/-- A missing table is made for the page `v`. -/
theorem Added.missingTables (h : Added k d v p flags k') (hlo : base ≤ v) (hhi : v < limit) :
    missingTables k'.mmu.phys d base limit +
      (if flagOn (k.mmu.phys (slot d (dirIndex v))) pagePresent then 0 else 1) ≤
        missingTables k.mmu.phys d base limit := by
  have hmem := mem_directoryEntries hlo hhi
  have hindex : BitVec.ofNat 32 (dirIndex v).toNat = dirIndex v := by simp
  have hbelow (i : ℕ) (hi : i ∈ directoryEntries base limit) :
      (BitVec.ofNat 32 i).toNat < 1024 := by
    have hle := (Finset.mem_Icc.mp hi).2
    have hlt := dirIndex_lt (limit - 1)
    rw [BitVec.toNat_ofNat, Nat.mod_eq_of_lt (by omega)]
    omega
  unfold LtMicros.missingTables
  cases hpresent : flagOn (k.mmu.phys (slot d (dirIndex v))) pagePresent with
  | true =>
    rw [if_pos rfl, Nat.add_zero]
    apply Finset.card_le_card
    intro i hi
    obtain ⟨hi, habsent⟩ := Finset.mem_filter.mp hi
    rw [h.directory _ (hbelow i hi), hpresent, if_neg fun hboth => Bool.noConfusion hboth.2] at habsent
    exact Finset.mem_filter.mpr ⟨hi, habsent⟩
  | false =>
    rw [if_neg Bool.false_ne_true]
    have hold : (dirIndex v).toNat ∈ (directoryEntries base limit).filter fun i =>
        flagOn (k.mmu.phys (slot d (BitVec.ofNat 32 i))) pagePresent = false := by
      rw [Finset.mem_filter, hindex]
      exact ⟨hmem, hpresent⟩
    rw [← Finset.card_erase_add_one hold]
    apply Nat.add_le_add_right
    apply Finset.card_le_card
    intro i hi
    obtain ⟨hi, habsent⟩ := Finset.mem_filter.mp hi
    rw [h.directory _ (hbelow i hi)] at habsent
    have hne : i ≠ (dirIndex v).toNat := by
      rintro rfl
      rw [hindex, if_pos ⟨rfl, hpresent⟩] at habsent
      have htable := h.table.1
      rw [h.directory _ (dirIndex_lt v), if_pos ⟨rfl, hpresent⟩, habsent] at htable
      cases htable
    have hne' : BitVec.ofNat 32 i ≠ dirIndex v := by
      intro heq
      apply hne
      rw [← heq, BitVec.toNat_ofNat, Nat.mod_eq_of_lt]
      have hle := (Finset.mem_Icc.mp hi).2
      have hlt := dirIndex_lt (limit - 1)
      omega
    rw [if_neg fun hboth => hne' hboth.1] at habsent
    exact Finset.mem_erase.mpr ⟨hne, Finset.mem_filter.mpr ⟨hi, habsent⟩⟩

/-- With a missing table in the range, memory is left. -/
theorem KernelMem.Affords.notExhausted (h : k.Affords d base limit n) (hlo : base ≤ v)
    (hhi : v < limit) (habsent : flagOn (k.mmu.phys (slot d (dirIndex v))) pagePresent = false) :
    k.NotExhausted := by
  have hmissing : 0 < missingTables k.mmu.phys d base limit := by
    apply Finset.card_pos.mpr
    refine ⟨(dirIndex v).toNat, Finset.mem_filter.mpr ⟨mem_directoryEntries hlo hhi, ?_⟩⟩
    have hindex : BitVec.ofNat 32 (dirIndex v).toNat = dirIndex v := by simp
    rwa [hindex]
  have hsup : k.Supply (0 + 1) (0 + 1) := KernelMem.Supply.mono h (by omega) (by omega)
  exact hsup.notExhausted

theorem Adds.affords (h : Adds k d v p flags k') (hadded : Added k d v p flags k')
    (haffords : k.Affords d base limit n) (hlo : base ≤ v) (hhi : v < limit) :
    k'.Affords d base limit n := by
  have hmissing := hadded.missingTables hlo hhi
  unfold KernelMem.Affords at haffords ⊢
  cases hpresent : flagOn (k.mmu.phys (slot d (dirIndex v))) pagePresent with
  | true =>
    rw [hpresent, if_pos rfl] at hmissing
    exact (h.supply_present hpresent haffords).mono (by omega) (by omega)
  | false =>
    rw [hpresent, if_neg Bool.false_ne_true] at hmissing
    obtain ⟨m, hm⟩ : ∃ m, missingTables k.mmu.phys d base limit = m + 1 :=
      Nat.exists_eq_add_one_of_ne_zero (by omega)
    rw [hm] at haffords hmissing
    exact (h.supply haffords).mono (by omega) (by omega)

/-! ### One page -/

theorem Adds.used (h : Adds k d v p flags k') (hs : Spaces k pds) {q : ℕ}
    (hq : k.gPmm.used q = true) : k'.gPmm.used q = true := by
  cases h with
  | present => exact hq
  | fresh => exact hs.reserved.gives.mono q hq
  | empty => exact hq

theorem OwnPages.mono {m m' : PmmBitmap} (h : OwnPages m r)
    (hmono : ∀ q, m.used q = true → m'.used q = true) : OwnPages m' r := by
  constructor
  · intro n w f hw hf
    exact hmono _ (h.used n w f hw hf)
  · exact h.distinct

/-- An entry that is not present owns no page. -/
theorem OwnPages.absent {m : PmmBitmap} (h : OwnPages m r) (n : ℕ) (p : U32) :
    OwnPages m (Function.update r n (some (setPageTableEntry p absentFlags))) := by
  have hold {i : ℕ} {w f : U32}
      (hw : Function.update r n (some (setPageTableEntry p absentFlags)) i = some w)
      (hf : PointsTo w f) : r i = some w := by
    by_cases hi : i = n
    · rw [hi, Function.update_self] at hw
      cases hw
      have hpresent := hf.1
      rw [flagOn_setPageTableEntry] at hpresent
      exact absurd hpresent (by decide)
    · rwa [Function.update_of_ne hi] at hw
  constructor
  · intro i w f hw hf
    exact h.used i w f (hold hw hf) hf
  · intro i i' w w' f hw hw' hf hf'
    exact h.distinct i i' w w' f (hold hw hf) (hold hw' hf') hf hf'

/-- A page that was free is owned by the entry it is mapped with. -/
theorem OwnPages.fresh {f : U32} (h : OwnPages k.gPmm r) (hfresh : FreshFrame k pds f) (n : ℕ) :
    OwnPages k.takePage.gPmm (Function.update r n (some (setPageTableEntry f flags))) := by
  have hmono (q : ℕ) (hq : k.gPmm.used q = true) : k.takePage.gPmm.used q = true := by
    rw [KernelMem.takePage, hfresh.used, hq, Bool.or_true]
  have hself {g : U32} (hg : PointsTo (setPageTableEntry f flags) g) : g = f :=
    hg.2.symm.trans ((frameOf_setPageTableEntry f flags).trans hfresh.frame.frameOf_eq)
  have hold {i : ℕ} {w g : U32} (hi : i ≠ n)
      (hw : Function.update r n (some (setPageTableEntry f flags)) i = some w)
      (hg : PointsTo w g) : r i = some w ∧ g ≠ f := by
    rw [Function.update_of_ne hi] at hw
    exact ⟨hw, hfresh.ne_used (h.used i w g hw hg)⟩
  constructor
  · intro i w g hw hg
    by_cases hi : i = n
    · rw [hi, Function.update_self] at hw
      cases hw
      rw [hself hg, KernelMem.takePage, hfresh.used, decide_eq_true rfl, Bool.true_or]
    · exact hmono _ (h.used i w g (hold hi hw hg).1 hg)
  · intro i i' w w' g hw hw' hg hg'
    by_cases hi : i = n
    · by_cases hi' : i' = n
      · rw [hi, hi']
      · rw [hi, Function.update_self] at hw
        cases hw
        exact absurd (hself hg) (hold hi' hw' hg').2
    · by_cases hi' : i' = n
      · rw [hi', Function.update_self] at hw'
        cases hw'
        exact absurd (hself hg') (hold hi hw hg).2
      · exact h.distinct i i' w w' g (hold hi hw hg).1 (hold hi' hw' hg').1 hg hg'

/-- An entry is added for the page `v` of the current address space. -/
theorem Populates.add (h : Populates phys₀ k pds d r) (hd : d ∈ pds) (hcr3 : k.mmu.cr3 = d)
    (hv : InUser v) (hlo : base ≤ v) (hhi : v < limit) (haffords : k.Affords d base limit n)
    (hflags : flags = presentFlags ∨ flags = absentFlags)
    (hpages : OwnPages k.gPmm
      (Function.update r (pageNo v) (some (setPageTableEntry p flags)))) :
    ∃ k', k.addPageToPageDirectory v p flags = .ret k' ∧ k'.mmu.cr3 = d ∧
      k'.Affords d base limit n ∧ Populates phys₀ k' pds d
        (Function.update r (pageNo v) (some (setPageTableEntry p flags))) := by
  have hs := h.separate
  have hlasts (habsent : flagOn (k.mmu.phys (slot d (dirIndex v))) pagePresent = false) :
      k.NotExhausted := haffords.notExhausted hlo hhi habsent
  obtain ⟨k', hr, hadds⟩ := hs.spaces.adds hv p flags
  rw [hcr3] at hadds
  have hadded := hs.spaces.added hd hv (fun habsent => (hlasts habsent).2) hadds
  refine ⟨k', hr, hadded.cr3.trans hcr3, hadds.affords hadded haffords hlo hhi, ?_⟩
  constructor
  · exact ⟨hs.spaces.of_adds hd hv hadds, (hadds.separate hs hd hv hlasts).1⟩
  · apply h.overlays.add hs.spaces hd hv hflags hadded
    intro i hi hne
    exact hs.tableFor_unshared hd (fun habsent => (hlasts habsent).1) hv hi hne
  · exact hpages.mono fun q hq => hadds.used hs.spaces hq

/-- A page of the bitmap is mapped. -/
theorem Populates.page (h : Populates phys₀ k pds d r) (hd : d ∈ pds) (hcr3 : k.mmu.cr3 = d)
    (hv : InUser v) (hlo : base ≤ v) (hhi : v < limit)
    (haffords : k.Affords d base limit (n + 1)) :
    k.gPmm.getFreePage.1 ≠ 0 ∧
    ∃ k', k.takePage.addPageToPageDirectory v k.gPmm.getFreePage.1 presentFlags = .ret k' ∧
      k'.mmu.cr3 = d ∧ k'.Affords d base limit n ∧ Populates phys₀ k' pds d
        (Function.update r (pageNo v)
          (some (setPageTableEntry k.gPmm.getFreePage.1 presentFlags))) := by
  have hs := h.separate
  have hfree : k.gPmm.freePages.Nonempty := by
    have hpages := KernelMem.Supply.pages haffords
    exact Finset.card_pos.mp (by omega)
  obtain ⟨f, hfresh⟩ := hs.spaces.freshFrame hfree
  rw [hfresh.eq]
  have hpages : OwnPages k.takePage.gPmm
      (Function.update r (pageNo v) (some (setPageTableEntry f presentFlags))) :=
    h.pages.fresh hfresh (pageNo v)
  have htaken : Populates phys₀ k.takePage pds d r := by
    refine ⟨⟨hs.spaces.takePage, hs.unshared⟩, h.overlays, h.pages.mono ?_⟩
    intro q hq
    rw [KernelMem.takePage, hfresh.used, hq, Bool.or_true]
  have haffords' : k.takePage.Affords d base limit n :=
    (KernelMem.Supply.takePage haffords).mono
      (Nat.le_of_eq (by rw [Nat.add_right_comm, Nat.add_sub_cancel]; rfl)) (Nat.le_refl _)
  constructor
  · rintro rfl
    exact absurd hfresh.high (by decide)
  · exact htaken.add hd hcr3 hv hlo hhi haffords' (.inl rfl) hpages

/-- A page is entered that is not there yet. -/
theorem Populates.absentPage (h : Populates phys₀ k pds d r) (hd : d ∈ pds) (hcr3 : k.mmu.cr3 = d)
    (hv : InUser v) (hlo : base ≤ v) (hhi : v < limit) (haffords : k.Affords d base limit n) :
    ∃ k', k.addPageToPageDirectory v 0 absentFlags = .ret k' ∧ k'.mmu.cr3 = d ∧
      k'.Affords d base limit n ∧ Populates phys₀ k' pds d
        (Function.update r (pageNo v) (some (setPageTableEntry 0 absentFlags))) :=
  h.add hd hcr3 hv hlo hhi haffords (.inr rfl) (h.pages.absent (pageNo v) 0)

end Populate

end LtMicros
