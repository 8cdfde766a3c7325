import LtMicros.VadRuns
import LtMicros.Lib.Blocks

/-!
# How `Split` rounds

`Split` leaves whole pages to the first vad. `_local_mod` is positive for every
size but 0, so one page is added to the quotient also where nothing is left over.
-/

namespace LtMicros

open Lib

namespace VadMem

variable {s s' : VadMem} {v w : ℕ} {size : U32}

/-- The split is as asked: the first vad has the least whole pages for `size`
bytes, and the vad behind it exactly the bytes that remain. -/
structure Rounds (s s' : VadMem) (v w : ℕ) (size : U32) : Prop where
  next : s'.next v = some w
  first : IsLeast {n | pageSize ∣ n ∧ size.toNat ≤ n} (s'.vads v).size.toNat
  sum : (s'.vads v).size.toNat + (s'.vads w).size.toNat = (s.vads v).size.toNat
  rest : (s'.vads w).size ≠ 0
  base : (s'.vads w).baseAddress = (s.vads v).baseAddress + (s'.vads v).size
  limit : (s'.vads w).limitAddress = (s.vads v).baseAddress + (s.vads v).size

/-- The bytes that a split leaves to the first vad: a page more than the quotient. -/
theorem pagesOf_toNat (h0 : size ≠ 0) (h : size.toNat + pageSize < 2 ^ 32) :
    (pagesOf size).toNat = (size.toNat / pageSize + 1) * pageSize := by
  have hpos : 0 < size := BitVec.lt_def.mpr (by
    have hne : size.toNat ≠ 0 := fun h' => h0 (BitVec.eq_of_toNat_eq h')
    exact Nat.pos_of_ne_zero hne)
  rw [pagesOf, localMod_eq_one hpos, BitVec.toNat_ofNat]
  unfold pageSize at h ⊢
  omega

/-- The two `if`s of `Split` that a size with a page to spare passes. -/
theorem spare_page (hsize : size ≤ (s.vads v).size)
    (hspare : pageSize ≤ ((s.vads v).size - size).toNat) :
    ¬ (s.vads v).size - size < vadMinimumDelta ∧
      size.toNat + pageSize ≤ (s.vads v).size.toNat := by
  have hsub := BitVec.toNat_sub_of_le hsize
  have hle : size.toNat ≤ (s.vads v).size.toNat := hsize
  have hpage : vadMinimumDelta.toNat = pageSize := rfl
  constructor
  · rw [BitVec.lt_def, hpage]
    omega
  · omega

theorem create_fails {base : U32} (h : base = 0 ∨ size = 0) (s : VadMem) (free : Bool) :
    ∃ status, s.create base size free = (status, none, s) ∧ status ≠ .statusSuccess := by
  unfold create
  by_cases hb : base = 0
  · exact ⟨_, if_pos hb, KeStatus.noConfusion⟩
  · rw [if_neg hb, if_pos (h.resolve_left hb)]
    exact ⟨_, rfl, KeStatus.noConfusion⟩

/-- `Split` where nothing is left for the second vad, or where it would start at the
null pointer. -/
theorem split_fails (h0 : size ≠ 0) (hsize : size ≤ (s.vads v).size)
    (hdelta : ¬ (s.vads v).size - size < vadMinimumDelta)
    (h : (s.vads v).baseAddress + pagesOf size = 0 ∨ (s.vads v).size - pagesOf size = 0) :
    (s.split v size).1 ≠ .statusSuccess := by
  obtain ⟨status, hcreate, hstatus⟩ := create_fails h s true
  simp only [split, h0, BitVec.not_lt.mpr hsize, hdelta, hcreate, if_false]
  exact hstatus

section Page

variable (hv : v < s.heapTop) (h0 : size ≠ 0) (hsize : size ≤ (s.vads v).size)
  (hspare : pageSize ≤ ((s.vads v).size - size).toNat)

include hv h0 hsize hspare

/-- With a multiple of the page size, the first vad gets a page more than it needs, or
nothing is left for the second. -/
theorem not_rounds_of_multiple (hmod : size.toNat % pageSize = 0) :
    ¬ ∃ s' w, s.split v size = (.statusSuccess, s') ∧ Rounds s s' v w size := by
  have hpos : 0 < pageSize := by decide
  obtain ⟨hdelta, hroom⟩ := spare_page hsize hspare
  have hbound := (s.vads v).size.isLt
  rintro ⟨s', w, hsplit, hrounds⟩
  have hok : (s.vads v).baseAddress + pagesOf size ≠ 0 ∧ (s.vads v).size - pagesOf size ≠ 0 := by
    by_contra hno
    apply split_fails h0 hsize hdelta (by tauto)
    rw [hsplit]
  obtain ⟨s₁, hs₁, hvads, -⟩ := split_eq h0 hsize hdelta hok.1 hok.2 (Nat.ne_of_lt hv)
  have heq : s' = s₁ := congrArg Prod.snd (hsplit.symm.trans hs₁)
  have hfirst := hrounds.first.unique (isLeast_roundUp hpos size.toNat)
  rw [heq, hvads, Function.update_self, pagesOf_toNat h0 (by omega),
    roundUp_of_mod_eq_zero hpos hmod] at hfirst
  have hdiv := Nat.div_add_mod size.toNat pageSize
  rw [hmod, Nat.add_zero, Nat.mul_comm] at hdiv
  rw [Nat.add_mul, hdiv] at hfirst
  omega

/-- With any other size the quotient and one page are the least whole pages. -/
theorem rounds_iff_of_not_multiple (hmod : size.toNat % pageSize ≠ 0) :
    (∃ s' w, s.split v size = (.statusSuccess, s') ∧ Rounds s s' v w size) ↔
      (s.vads v).baseAddress + BitVec.ofNat 32 (roundUp pageSize size.toNat) ≠ 0 := by
  have hpos : 0 < pageSize := by decide
  obtain ⟨hdelta, hroom⟩ := spare_page hsize hspare
  have hbound := (s.vads v).size.isLt
  have hpages : (pagesOf size).toNat = roundUp pageSize size.toNat := by
    rw [pagesOf_toNat h0 (by omega), roundUp_of_mod_ne_zero hpos hmod]
  have hlt := roundUp_lt hpos size.toNat
  have hle : pagesOf size ≤ (s.vads v).size := by
    show (pagesOf size).toNat ≤ _
    omega
  have hsub := BitVec.toNat_sub_of_le hle
  have hrest : (s.vads v).size - pagesOf size ≠ 0 := by
    intro hz
    rw [hz, show (0 : U32).toNat = 0 from rfl] at hsub
    omega
  have hne := Nat.ne_of_lt hv
  rw [← hpages, BitVec.ofNat_toNat, BitVec.setWidth_eq]
  constructor
  · rintro ⟨s', w, hsplit, -⟩ hbase
    apply split_fails h0 hsize hdelta (.inl hbase)
    rw [hsplit]
  · intro hbase
    obtain ⟨s', hs', hvads, -⟩ := split_eq h0 hsize hdelta hbase hrest hne
    have hthis : s'.vads v = { s.vads v with
        limitAddress := (s.vads v).baseAddress + pagesOf size, size := pagesOf size,
        next := some s.heapTop } := by
      rw [hvads, Function.update_self]
    have hnew : s'.vads s.heapTop = ⟨(s.vads v).baseAddress + pagesOf size,
        (s.vads v).baseAddress + pagesOf size + ((s.vads v).size - pagesOf size),
        (s.vads v).size - pagesOf size, true, some v, none⟩ := by
      rw [hvads, Function.update_of_ne hne.symm, Function.update_self]
    refine ⟨s', s.heapTop, hs', ?_⟩
    constructor
    · rw [VadMem.next, hthis]
    · rw [hthis, hpages]
      exact isLeast_roundUp hpos size.toNat
    · rw [hthis, hnew, hsub]
      exact Nat.add_sub_of_le hle
    · rw [hnew]
      exact hrest
    · rw [hthis, hnew]
    · rw [hnew]
      have hsum (base p n : U32) : base + p + (n - p) = base + n := by grind
      exact hsum _ _ _

/-- `Split` does what is asked exactly when the size is not a multiple of the page
size and the second vad does not start at the null pointer. -/
theorem split_rounds_iff :
    (∃ s' w, s.split v size = (.statusSuccess, s') ∧ Rounds s s' v w size) ↔
      size.toNat % pageSize ≠ 0 ∧
        (s.vads v).baseAddress + BitVec.ofNat 32 (roundUp pageSize size.toNat) ≠ 0 := by
  by_cases hmod : size.toNat % pageSize = 0
  · have hnot := not_rounds_of_multiple hv h0 hsize hspare hmod
    simp only [hmod, ne_eq, not_true_eq_false, false_and, iff_false]
    exact hnot
  · rw [rounds_iff_of_not_multiple hv h0 hsize hspare hmod, and_iff_right hmod]

end Page

/-- The vad of a process that has just been created, and 100 bytes of it. -/
theorem process_split_rounds :
    ∃ s' w, bootVads.processCreate.2.2.split 0 100 = (.statusSuccess, s') ∧
      Rounds bootVads.processCreate.2.2 s' 0 w 100 := by
  obtain ⟨s, hs, hv, htop, -⟩ := bootVads.processCreate_spec
  have hv : s.vads 0 = ⟨vProcessBaseAddr, vProcessLimitAddr, 0xBFFFFFFF, true, none, none⟩ := hv
  rw [hs]
  apply (split_rounds_iff (by rw [htop]; exact Nat.one_pos) (by decide) (by rw [hv]; decide)
    (by rw [hv]; decide)).mpr
  rw [hv]
  decide

/-- One page is asked for, and two are taken. -/
theorem process_split_page :
    0 < bootVads.processCreate.2.2.heapTop ∧
    (4096 : U32) ≤ (bootVads.processCreate.2.2.vads 0).size ∧
    pageSize ≤ ((bootVads.processCreate.2.2.vads 0).size - 4096).toNat ∧
    ¬ ∃ s' w, bootVads.processCreate.2.2.split 0 4096 = (.statusSuccess, s') ∧
      Rounds bootVads.processCreate.2.2 s' 0 w 4096 := by
  obtain ⟨s, hs, hv, htop, -⟩ := bootVads.processCreate_spec
  have hv : s.vads 0 = ⟨vProcessBaseAddr, vProcessLimitAddr, 0xBFFFFFFF, true, none, none⟩ := hv
  rw [hs]
  have hallocated : 0 < s.heapTop := by
    rw [htop]
    exact Nat.one_pos
  have hsize : (4096 : U32) ≤ (s.vads 0).size := by
    rw [hv]
    decide
  have hspare : pageSize ≤ ((s.vads 0).size - 4096).toNat := by
    rw [hv]
    decide
  exact ⟨hallocated, hsize, hspare,
    not_rounds_of_multiple hallocated (by decide) hsize hspare (by decide)⟩

end VadMem

end LtMicros
