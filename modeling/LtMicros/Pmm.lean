import Mathlib.Data.Finset.Card
import LtMicros.Kernel

/-!
# The physical memory manager

`PmmBitmap`: one bit for each physical page, set while the page is used.
-/

namespace LtMicros

/-- `RAM_MAXPAGE`: 4 GiB in pages. -/
abbrev ramMaxPage : ℕ := 0x100000

/-- `MEM_BITMAP_SIZE`. -/
abbrev memBitmapSize : ℕ := ramMaxPage / 8

/-- `(void *)(-1)`. -/
def minusOne : U32 := 0xFFFFFFFF

structure PmmBitmap where
  memBitmap : ℕ → U8

namespace PmmBitmap

/-- The bit of `page`. -/
def used (p : PmmBitmap) (page : ℕ) : Bool := (p.memBitmap (page / 8)).getLsbD (page % 8)

/-- `SET_PAGE_USED(page)`. -/
def setPageUsed (p : PmmBitmap) (page : ℕ) : PmmBitmap :=
  ⟨Function.update p.memBitmap (page / 8) (p.memBitmap (page / 8) ||| 1#8 <<< (page % 8))⟩

/-- `SET_PAGE_UNUSED(addr)`. -/
def setPageUnused (p : PmmBitmap) (addr : U32) : PmmBitmap :=
  let page := addr.toNat / pageSize
  ⟨Function.update p.memBitmap (page / 8) (p.memBitmap (page / 8) &&& ~~~(1#8 <<< (page % 8)))⟩

/-- The inner loop of `GetFreePage`: the first clear bit of `b` from `bit` on,
with `left` bits still to look at. -/
def firstClearBit (b : U8) : ℕ → ℕ → Option ℕ
  | 0, _ => none
  | left + 1, bit =>
    if b &&& 1#8 <<< bit = 0 then some bit else firstClearBit b left (bit + 1)

/-- The outer loop of `GetFreePage`, from `byte` on. A byte other than `0xFF`
always ends it, so the inner loop is not followed by another turn. -/
def firstClearPage (p : PmmBitmap) : ℕ → ℕ → Option ℕ
  | 0, _ => none
  | left + 1, byte =>
    if p.memBitmap byte ≠ 0xFF then
      match firstClearBit (p.memBitmap byte) 8 0 with
      | some bit => some (8 * byte + bit)
      | none => firstClearPage p left (byte + 1)
    else firstClearPage p left (byte + 1)

/-- `PmmBitmap::GetFreePage`. -/
def getFreePage (p : PmmBitmap) : U32 × PmmBitmap :=
  match p.firstClearPage memBitmapSize 0 with
  | some page => (BitVec.ofNat 32 (page * pageSize), p.setPageUsed page)
  | none => (minusOne, p)

/-- `PmmBitmap::ReleasePage`. -/
def releasePage (p : PmmBitmap) (addr : U32) : PmmBitmap := p.setPageUnused addr

/-- No bit of `memBitmap` is clear. -/
def Exhausted (p : PmmBitmap) : Prop := ∀ byte < memBitmapSize, p.memBitmap byte = 0xFF

/-- The pages whose bit is clear. -/
def freePages (p : PmmBitmap) : Finset ℕ :=
  (Finset.range ramMaxPage).filter fun page => p.used page = false

/-! ## Single bits -/

theorem and_bit_eq_zero {b : U8} {bit : ℕ} (h : bit < 8) :
    b &&& 1#8 <<< bit = 0 ↔ b.getLsbD bit = false := by
  rw [← BitVec.twoPow_eq, BitVec.and_twoPow]
  have hne : BitVec.twoPow 8 bit ≠ 0#8 := by
    intro h0
    have := congrArg (BitVec.getLsbD · bit) h0
    simp [h] at this
  cases b.getLsbD bit <;> simp [hne]

theorem used_setPageUsed (p : PmmBitmap) (page q : ℕ) :
    (p.setPageUsed page).used q = (decide (q = page) || p.used q) := by
  by_cases hb : q / 8 = page / 8
  · have hiff : (page % 8 = q % 8) ↔ q = page := by omega
    have hlt : page % 8 < 8 := Nat.mod_lt page (by decide)
    simp only [used, setPageUsed, hb, Function.update_self, BitVec.getLsbD_or,
      ← BitVec.twoPow_eq, BitVec.getLsbD_twoPow, hlt, hiff, decide_true, Bool.true_and,
      Bool.or_comm]
  · have hne : q ≠ page := fun h => hb (h ▸ rfl)
    simp [used, setPageUsed, Function.update_of_ne hb, hne]

/-! ## The scan -/

theorem firstClearBit_eq_some {b : U8} {left bit k : ℕ} (hl : bit + left ≤ 8)
    (h : firstClearBit b left bit = some k) : bit ≤ k ∧ k < bit + left ∧ b.getLsbD k = false := by
  induction left generalizing bit with
  | zero => simp [firstClearBit] at h
  | succ left ih =>
    rw [firstClearBit] at h
    split at h
    · rename_i hb
      cases h
      exact ⟨Nat.le_refl _, by omega, (and_bit_eq_zero (by omega)).mp hb⟩
    · obtain ⟨h1, h2, h3⟩ := ih (by omega) h
      exact ⟨by omega, by omega, h3⟩

theorem firstClearBit_eq_none {b : U8} {left bit : ℕ} (hl : bit + left ≤ 8)
    (h : firstClearBit b left bit = none) {k : ℕ} (hk : bit ≤ k) (hk' : k < bit + left) :
    b.getLsbD k = true := by
  induction left generalizing bit with
  | zero => omega
  | succ left ih =>
    rw [firstClearBit] at h
    split at h
    · simp at h
    · rename_i hb
      rcases Nat.eq_or_lt_of_le hk with rfl | hlt
      · rw [and_bit_eq_zero (by omega)] at hb
        simpa using hb
      · exact ih (by omega) h hlt (by omega)

theorem firstClearPage_exhausted {p : PmmBitmap} {left byte : ℕ}
    (h : ∀ i, byte ≤ i → i < byte + left → p.memBitmap i = 0xFF) :
    p.firstClearPage left byte = none := by
  induction left generalizing byte with
  | zero => rfl
  | succ left ih =>
    rw [firstClearPage, if_neg (by simp [h byte (Nat.le_refl _) (by omega)])]
    exact ih fun i hi hlt => h i (by omega) (by omega)

theorem firstClearPage_eq_some {p : PmmBitmap} {left byte page : ℕ}
    (h : p.firstClearPage left byte = some page) :
    8 * byte ≤ page ∧ page < 8 * (byte + left) ∧ p.used page = false := by
  induction left generalizing byte with
  | zero => simp [firstClearPage] at h
  | succ left ih =>
    have next (h : p.firstClearPage left (byte + 1) = some page) :
        8 * byte ≤ page ∧ page < 8 * (byte + (left + 1)) ∧ p.used page = false := by
      obtain ⟨h1, h2, h3⟩ := ih h
      exact ⟨by omega, by omega, h3⟩
    rw [firstClearPage] at h
    split at h
    · split at h
      · rename_i bit hbit
        cases h
        obtain ⟨-, h2, h3⟩ := firstClearBit_eq_some (by omega) hbit
        have hdiv : (8 * byte + bit) / 8 = byte := by omega
        have hmod : (8 * byte + bit) % 8 = bit := by omega
        exact ⟨by omega, by omega, by rw [used, hdiv, hmod]; exact h3⟩
      · exact next h
    · exact next h

theorem firstClearPage_eq_none {p : PmmBitmap} {left byte : ℕ}
    (h : p.firstClearPage left byte = none) {page : ℕ} (hlo : 8 * byte ≤ page)
    (hhi : page < 8 * (byte + left)) : p.used page = true := by
  induction left generalizing byte with
  | zero => omega
  | succ left ih =>
    rw [firstClearPage] at h
    have here (hb : ∀ k < 8, (p.memBitmap byte).getLsbD k = true)
        (h : p.firstClearPage left (byte + 1) = none) : p.used page = true := by
      by_cases hp : page / 8 = byte
      · rw [used, hp]
        exact hb _ (by omega)
      · exact ih h (by omega) (by omega)
    split at h
    · split at h
      · simp at h
      · rename_i hbit
        exact here (fun k hk => firstClearBit_eq_none (by omega) hbit (Nat.zero_le k) (by omega)) h
    · rename_i hff
      have hones : p.memBitmap byte = BitVec.allOnes 8 := Classical.not_not.mp hff
      exact here (fun k hk => by rw [hones, BitVec.getLsbD_allOnes, decide_eq_true hk]) h

/-- An exhausted allocator answers `(void *)(-1)`, not the null pointer. -/
theorem getFreePage_exhausted {p : PmmBitmap} (h : p.Exhausted) :
    p.getFreePage = (minusOne, p) := by
  rw [getFreePage, firstClearPage_exhausted fun i _ hi => h i (by simpa using hi)]

theorem Exhausted.used {p : PmmBitmap} (h : p.Exhausted) {page : ℕ} (hp : page < ramMaxPage) :
    p.used page = true := by
  have hones : p.memBitmap (page / 8) = BitVec.allOnes 8 :=
    h _ (by unfold memBitmapSize; unfold ramMaxPage at hp ⊢; omega)
  rw [PmmBitmap.used, hones, BitVec.getLsbD_allOnes, decide_eq_true (Nat.mod_lt _ (by decide))]

theorem Exhausted.freePages {p : PmmBitmap} (h : p.Exhausted) : p.freePages = ∅ :=
  Finset.filter_eq_empty_iff.mpr fun page hp => by
    rw [h.used (Finset.mem_range.mp hp)]
    decide

/-- What `GetFreePage` does: without a free page it answers `(void *)(-1)` and
changes nothing; otherwise it takes a free page and answers its address. -/
theorem getFreePage_cases (p : PmmBitmap) :
    (p.freePages = ∅ ∧ p.getFreePage = (minusOne, p)) ∨
    ∃ page ∈ p.freePages,
      p.getFreePage = (BitVec.ofNat 32 (page * pageSize), p.setPageUsed page) := by
  unfold getFreePage
  cases h : p.firstClearPage memBitmapSize 0 with
  | none =>
    left
    refine ⟨Finset.filter_eq_empty_iff.mpr fun page hp => ?_, rfl⟩
    have := firstClearPage_eq_none h (Nat.zero_le page)
      (by simpa [memBitmapSize, ramMaxPage] using hp)
    simp [this]
  | some page =>
    right
    obtain ⟨-, h2, h3⟩ := firstClearPage_eq_some h
    refine ⟨page, Finset.mem_filter.mpr ⟨?_, h3⟩, rfl⟩
    simpa [memBitmapSize, ramMaxPage] using h2

/-- While page 0 is used, the answer is never the null pointer, and page 0 stays
used. -/
theorem getFreePage_ne_null {p : PmmBitmap} (h : p.used 0 = true) :
    p.getFreePage.1 ≠ 0 ∧ p.getFreePage.2.used 0 = true := by
  rcases p.getFreePage_cases with ⟨-, hp⟩ | ⟨page, hpage, hp⟩
  · rw [hp]
    exact ⟨show minusOne ≠ 0 by decide, h⟩
  · rw [hp]
    refine ⟨fun h0 => ?_, by rw [used_setPageUsed, h, Bool.or_true]⟩
    obtain ⟨hlt, hfree⟩ := Finset.mem_filter.mp hpage
    have hlt := Finset.mem_range.mp hlt
    have := congrArg BitVec.toNat h0
    rw [BitVec.toNat_ofNat, Nat.mod_eq_of_lt (by unfold ramMaxPage at hlt; unfold pageSize; omega)]
      at this
    have hzero : (0 : U32).toNat = 0 := rfl
    obtain rfl : page = 0 := by
      unfold pageSize at this
      omega
    rw [h] at hfree
    cases hfree

theorem mem_freePages_zero {p : PmmBitmap} : 0 ∈ p.freePages ↔ p.used 0 = false := by
  rw [freePages, Finset.mem_filter]
  exact and_iff_right (Finset.mem_range.mpr (by decide))

/-- A free page 0 is found first, and its address is the null pointer. -/
theorem getFreePage_zero {p : PmmBitmap} (h : p.used 0 = false) : p.getFreePage.1 = 0 := by
  have hbit : p.memBitmap 0 &&& 1#8 <<< 0 = 0 := (and_bit_eq_zero (by decide)).mpr h
  have hbyte : p.memBitmap 0 ≠ 0xFF := by
    intro hff
    rw [hff] at hbit
    exact absurd hbit (by decide)
  have hfirst : firstClearBit (p.memBitmap 0) 8 0 = some 0 := if_pos hbit
  have hscan : p.firstClearPage memBitmapSize 0 = some 0 := by
    show p.firstClearPage (131071 + 1) 0 = some 0
    rw [firstClearPage, if_pos hbyte, hfirst]
  rw [getFreePage, hscan]
  rfl

/-- Taking a page removes exactly that page from the free ones. -/
theorem freePages_setPageUsed (p : PmmBitmap) (page : ℕ) :
    (p.setPageUsed page).freePages = p.freePages.erase page := by
  ext q
  simp [freePages, used_setPageUsed]
  tauto

end PmmBitmap

end LtMicros
