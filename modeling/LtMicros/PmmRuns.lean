import LtMicros.Pmm
import LtMicros.Lib.Run

/-!
# Runs of the physical memory manager

`Init` leaves the pages between the kernel and the end of the memory clear, in
whole bytes of the bitmap. From there on pages are taken and given back.
-/

namespace LtMicros

open Lib

namespace PmmBitmap

/-- The last page that `Init` computes from `gMbi.high_mem`, an `unsigned long`. -/
def lastPage (highMem : U32) : ℕ := (highMem * 1024).toNat / pageSize

/-- `memBitmap[byte] = value`. -/
def setByte (p : PmmBitmap) (byte : ℕ) (value : U8) : PmmBitmap :=
  ⟨Function.update p.memBitmap byte value⟩

/-- `PmmBitmap::Init`. -/
def init (p : PmmBitmap) (info : KernelInfo) (highMem : U32) : PmmBitmap :=
  let p := (List.range memBitmapSize).foldl (fun p byte => p.setByte byte 0) p
  let lastByte := lastPage highMem / 8
  let p := (List.range' lastByte (memBitmapSize - lastByte)).foldl
    (fun p byte => p.setByte byte 0xFF) p
  (List.range (info.pKernelLimit.toNat / pageSize)).foldl setPageUsed p

variable {p : PmmBitmap} {info : KernelInfo} {highMem : U32} {page q : ℕ}

/-! ## The bitmap after `Init` -/

theorem used_setPageUnused (p : PmmBitmap) (addr : U32) (q : ℕ) :
    (p.setPageUnused addr).used q = (decide (q ≠ addr.toNat / pageSize) && p.used q) := by
  generalize hpage : addr.toNat / pageSize = page
  by_cases hb : q / 8 = page / 8
  · have hiff : (page % 8 = q % 8) ↔ q = page := by omega
    have hlt : q % 8 < 8 := Nat.mod_lt q (by decide)
    simp only [used, setPageUnused, hpage, hb, Function.update_self, BitVec.getLsbD_and,
      BitVec.getLsbD_not, ← BitVec.twoPow_eq, BitVec.getLsbD_twoPow, hlt, hiff, decide_true,
      Bool.true_and, Bool.and_comm, decide_not]
    by_cases heq : q = page
    · simp [heq, Nat.mod_lt]
    · simp [heq, Nat.mod_lt]
  · have hne : q ≠ page := by
      rintro rfl
      exact hb rfl
    simp [used, setPageUnused, hpage, Function.update_of_ne hb, hne]

theorem memBitmap_foldl_setByte (l : List ℕ) (value : U8) (p : PmmBitmap) (byte : ℕ) :
    (l.foldl (fun p byte => p.setByte byte value) p).memBitmap byte =
      if byte ∈ l then value else p.memBitmap byte := by
  induction l generalizing p with
  | nil => simp
  | cons b l ih =>
    rw [List.foldl_cons, ih]
    by_cases hb : byte = b
    · subst hb
      simp [setByte]
    · simp [setByte, hb]

theorem used_foldl_setPageUsed (l : List ℕ) (p : PmmBitmap) (q : ℕ) :
    (l.foldl setPageUsed p).used q = (decide (q ∈ l) || p.used q) := by
  induction l generalizing p with
  | nil => simp
  | cons page l ih =>
    rw [List.foldl_cons, ih, used_setPageUsed]
    by_cases hq : q = page
    · simp [hq]
    · simp [hq]

theorem lastPage_lt (highMem : U32) : lastPage highMem < ramMaxPage := by
  have hlt := (highMem * 1024).isLt
  unfold lastPage pageSize ramMaxPage
  omega

/-- After `Init` the kernel's pages are used, and those from the last page on,
rounded down to a whole byte. -/
theorem used_init (p : PmmBitmap) (info : KernelInfo) (highMem : U32) (hq : q < ramMaxPage) :
    (p.init info highMem).used q =
      (decide (q < info.pKernelLimit.toNat / pageSize) ||
        decide (8 * (lastPage highMem / 8) ≤ q)) := by
  have hlast := lastPage_lt highMem
  have hbyte : q / 8 < memBitmapSize := by
    unfold memBitmapSize ramMaxPage at *
    omega
  have hmem : q / 8 ∈ List.range' (lastPage highMem / 8)
      (memBitmapSize - lastPage highMem / 8) ↔ 8 * (lastPage highMem / 8) ≤ q := by
    rw [List.mem_range'_1]
    omega
  rw [init, used_foldl_setPageUsed, used, memBitmap_foldl_setByte, memBitmap_foldl_setByte,
    if_pos (List.mem_range.mpr hbyte)]
  simp only [List.mem_range]
  congr 1
  by_cases hend : 8 * (lastPage highMem / 8) ≤ q
  · have hones : (0xFF : U8) = BitVec.allOnes 8 := rfl
    rw [if_pos (hmem.mpr hend), hones, BitVec.getLsbD_allOnes, decide_eq_true hend,
      decide_eq_true (Nat.mod_lt q (by decide))]
  · rw [if_neg (fun h => hend (hmem.mp h)), decide_eq_false hend]
    exact BitVec.getLsbD_zero

/-! ## The lowest free page -/

theorem firstClearBit_lowest {b : U8} {left bit k : ℕ} (hl : bit + left ≤ 8)
    (h : firstClearBit b left bit = some k) {i : ℕ} (hi : bit ≤ i) (hik : i < k) :
    b.getLsbD i = true := by
  induction left generalizing bit with
  | zero => cases h
  | succ left ih =>
    rw [firstClearBit] at h
    split at h
    · cases h
      omega
    · rename_i hset
      rcases Nat.eq_or_lt_of_le hi with rfl | hlt
      · rw [and_bit_eq_zero (by omega)] at hset
        simpa using hset
      · exact ih (by omega) h hlt

theorem firstClearPage_lowest {left byte : ℕ} (h : p.firstClearPage left byte = some page)
    (hq : 8 * byte ≤ q) (hlt : q < page) : p.used q = true := by
  induction left generalizing byte with
  | zero => cases h
  | succ left ih =>
    -- what lies in this byte is used, whether or not the search goes on
    have next (hbyte : ∀ k < 8, (p.memBitmap byte).getLsbD k = true)
        (h : p.firstClearPage left (byte + 1) = some page) : p.used q = true := by
      by_cases hq' : q / 8 = byte
      · rw [used, hq']
        exact hbyte _ (Nat.mod_lt _ (by decide))
      · exact ih h (by omega)
    rw [firstClearPage] at h
    split at h
    · split at h
      · rename_i bit hbit
        cases h
        have hbound := (firstClearBit_eq_some (by omega) hbit).2.1
        have hq' : q / 8 = byte := by omega
        rw [used, hq']
        exact firstClearBit_lowest (by omega) hbit (Nat.zero_le _) (by omega)
      · rename_i hbit
        apply next _ h
        intro k hk
        exact firstClearBit_eq_none (by omega) hbit (Nat.zero_le k) (by omega)
    · rename_i hff
      have hones : p.memBitmap byte = BitVec.allOnes 8 := Classical.not_not.mp hff
      apply next _ h
      intro k hk
      rw [hones, BitVec.getLsbD_allOnes, decide_eq_true hk]

end PmmBitmap

/-! ## Runs -/

/-- A state of a run, with the addresses that were obtained and not yet released. -/
structure PmmRun where
  p : PmmBitmap
  live : List U32

/-- The calls of a run. -/
inductive PmmOp where
  | getFreePage
  | releasePage (addr : U32)

/-- One call. Only a page that was obtained and not yet released is released. -/
inductive PmmStep : PmmRun → PmmOp → PmmRun → Prop
  | getFreePage {r : PmmRun} :
      PmmStep r .getFreePage ⟨r.p.getFreePage.2,
        if r.p.getFreePage.1 = minusOne then r.live else r.p.getFreePage.1 :: r.live⟩
  | releasePage {r : PmmRun} {addr : U32} :
      addr ∈ r.live → PmmStep r (.releasePage addr) ⟨r.p.releasePage addr, r.live.erase addr⟩

/-- The page at an address. -/
def pageOf (addr : U32) : ℕ := addr.toNat / pageSize

/-- The pages that `Init` leaves to be allocated: from `pKernelLimit` on, up to the
last page in whole bytes of the bitmap. -/
def UsablePage (highMem : U32) (page : ℕ) : Prop :=
  kernelInfo.pKernelLimit.toNat ≤ page * pageSize ∧
    page < 8 * (PmmBitmap.lastPage highMem / 8)

/-- What a call does. A page that is returned is aligned, not in the kernel, below
the last page, the lowest free one, and nobody has it; no page is returned only
when `usable` pages are all allocated; and the call changes the bit of the page
concerned and no other. -/
structure CallCorrect (highMem : U32) (usable : ℕ → Prop) (r : PmmRun) (op : PmmOp)
    (r' : PmmRun) : Prop where
  returned : op = .getFreePage → r.p.getFreePage.1 ≠ minusOne →
    let addr := r.p.getFreePage.1
    addr.toNat % pageSize = 0 ∧ kernelInfo.pKernelLimit ≤ addr ∧
      pageOf addr < PmmBitmap.lastPage highMem ∧ addr ∉ r.live ∧
      r.p.used (pageOf addr) = false ∧ ∀ q < pageOf addr, r.p.used q = true
  failed : op = .getFreePage → r.p.getFreePage.1 = minusOne →
    ∀ page, usable page → BitVec.ofNat 32 (page * pageSize) ∈ r.live
  changes : ∀ q, r'.p.used q ≠ r.p.used q ↔
    op = .getFreePage ∧ r.p.getFreePage.1 ≠ minusOne ∧ q = pageOf r.p.getFreePage.1 ∨
    ∃ addr, op = .releasePage addr ∧ q = pageOf addr

/-- The used pages are the live ones and those that `Init` has set. -/
structure PmmInv (highMem : U32) (r : PmmRun) : Prop where
  nodup : r.live.Nodup
  live : ∀ addr ∈ r.live, addr = BitVec.ofNat 32 (pageOf addr * pageSize) ∧
    UsablePage highMem (pageOf addr)
  used : ∀ page < ramMaxPage, r.p.used page = true ↔
    ¬ UsablePage highMem page ∨ BitVec.ofNat 32 (page * pageSize) ∈ r.live

/-- A bitmap whose words have all been cleared. -/
def allClear : PmmBitmap := ⟨fun _ => 0⟩

section Runs

variable {highMem : U32} {r r' : PmmRun} {op : PmmOp} {page q : ℕ} {addr : U32}

theorem toNat_pageAddr (h : page < ramMaxPage) :
    (BitVec.ofNat 32 (page * pageSize)).toNat = page * pageSize := by
  rw [BitVec.toNat_ofNat]
  apply Nat.mod_eq_of_lt
  unfold ramMaxPage at h
  unfold pageSize
  omega

theorem pageOf_pageAddr (h : page < ramMaxPage) :
    pageOf (BitVec.ofNat 32 (page * pageSize)) = page := by
  rw [pageOf, toNat_pageAddr h]
  exact Nat.mul_div_cancel page (by decide)

theorem pageOf_lt (addr : U32) : pageOf addr < ramMaxPage := by
  have hlt := addr.isLt
  unfold pageOf pageSize ramMaxPage
  omega

theorem pageAddr_ne_minusOne (h : page < ramMaxPage) :
    BitVec.ofNat 32 (page * pageSize) ≠ minusOne := by
  intro heq
  have hnat := congrArg BitVec.toNat heq
  rw [toNat_pageAddr h, show minusOne.toNat = 4294967295 from rfl] at hnat
  unfold pageSize at hnat
  omega

/-- Different pages have different addresses. -/
theorem pageAddr_inj (h : page < ramMaxPage) (hq : q < ramMaxPage)
    (heq : BitVec.ofNat 32 (q * pageSize) = BitVec.ofNat 32 (page * pageSize)) : q = page := by
  have hpages := congrArg pageOf heq
  rwa [pageOf_pageAddr h, pageOf_pageAddr hq] at hpages

theorem PmmInv.init (p : PmmBitmap) (highMem : U32) :
    PmmInv highMem ⟨p.init kernelInfo highMem, []⟩ := by
  constructor
  · exact List.nodup_nil
  · simp
  · intro page hpage
    rw [PmmBitmap.used_init p kernelInfo highMem hpage]
    have hkernel : kernelInfo.pKernelLimit.toNat = 2048 * pageSize := rfl
    have hdiv : kernelInfo.pKernelLimit.toNat / pageSize = 2048 := rfl
    have hiff : (page < 2048 ∨ 8 * (PmmBitmap.lastPage highMem / 8) ≤ page) ↔
        ¬ UsablePage highMem page := by
      rw [UsablePage, hkernel]
      unfold pageSize
      omega
    simpa [hdiv] using hiff

/-- The two ends of `GetFreePage`, with the lowest free page. -/
theorem getFreePage_lowest (p : PmmBitmap) :
    (p.getFreePage = (minusOne, p) ∧ ∀ page < ramMaxPage, p.used page = true) ∨
    ∃ page < ramMaxPage, p.getFreePage = (BitVec.ofNat 32 (page * pageSize), p.setPageUsed page) ∧
      p.used page = false ∧ ∀ q < page, p.used q = true := by
  unfold PmmBitmap.getFreePage
  cases h : p.firstClearPage memBitmapSize 0 with
  | none =>
    left
    refine ⟨rfl, ?_⟩
    intro page hpage
    apply PmmBitmap.firstClearPage_eq_none h (Nat.zero_le page)
    simpa [memBitmapSize, ramMaxPage] using hpage
  | some page =>
    right
    obtain ⟨-, hlt, hfree⟩ := PmmBitmap.firstClearPage_eq_some h
    refine ⟨page, by simpa [memBitmapSize, ramMaxPage] using hlt, rfl, hfree, ?_⟩
    intro q hq
    exact PmmBitmap.firstClearPage_lowest h (Nat.zero_le _) hq

theorem PmmInv.getFreePage (h : PmmInv highMem r) (hstep : PmmStep r .getFreePage r') :
    PmmInv highMem r' ∧ CallCorrect highMem (UsablePage highMem) r .getFreePage r' := by
  cases hstep
  rcases getFreePage_lowest r.p with ⟨hget, hall⟩ | ⟨page, hpage, hget, hfree, hlow⟩
  · simp only [hget, if_true]
    refine ⟨h, ?_, ?_, ?_⟩
    · intro _ hne
      exact absurd (congrArg Prod.fst hget) hne
    · intro _ _ page husable
      have hlast := PmmBitmap.lastPage_lt highMem
      have hpage : page < ramMaxPage := by
        have := husable.2
        omega
      exact ((h.used page hpage).mp (hall page hpage)).resolve_left (fun hn => hn husable)
    · simp [hget]
  · have hne := pageAddr_ne_minusOne hpage
    have hof := pageOf_pageAddr hpage
    obtain ⟨husable, hlive⟩ : UsablePage highMem page ∧
        BitVec.ofNat 32 (page * pageSize) ∉ r.live := by
      have hnot : ¬ (r.p.used page = true) := by
        rw [hfree]
        decide
      rw [h.used page hpage, not_or, Classical.not_not] at hnot
      exact hnot
    simp only [hget, if_neg hne]
    refine ⟨⟨List.nodup_cons.mpr ⟨hlive, h.nodup⟩, ?_, ?_⟩, ?_, ?_, ?_⟩
    · intro addr haddr
      rcases List.mem_cons.mp haddr with rfl | haddr
      · rw [hof]
        exact ⟨rfl, husable⟩
      · exact h.live addr haddr
    · intro q hq
      rw [PmmBitmap.used_setPageUsed, Bool.or_eq_true, h.used q hq, List.mem_cons,
        decide_eq_true_iff]
      constructor
      · rintro (rfl | hused | hused)
        · exact .inr (.inl rfl)
        · exact .inl hused
        · exact .inr (.inr hused)
      · rintro (hused | heq | hused)
        · exact .inr (.inl hused)
        · exact .inl (pageAddr_inj hpage hq heq)
        · exact .inr (.inr hused)
    · intro _ _
      rw [hget]
      dsimp only
      rw [hof, toNat_pageAddr hpage, BitVec.le_def, toNat_pageAddr hpage]
      refine ⟨Nat.mul_mod_left _ _, husable.1, ?_, hlive, hfree, hlow⟩
      have := husable.2
      omega
    · intro _ heq
      rw [hget] at heq
      exact absurd heq hne
    · intro q
      rw [hget]
      dsimp only
      rw [hof, PmmBitmap.used_setPageUsed]
      by_cases hq : q = page
      · simp [hq, hfree, hne]
      · simp [hq]

theorem PmmInv.releasePage (h : PmmInv highMem r) (hstep : PmmStep r (.releasePage addr) r') :
    PmmInv highMem r' ∧ CallCorrect highMem (UsablePage highMem) r (.releasePage addr) r' := by
  cases hstep with
  | releasePage hmem =>
    obtain ⟨haddr, husable⟩ := h.live addr hmem
    have hpage := pageOf_lt addr
    have hused : r.p.used (pageOf addr) = true := by
      apply (h.used _ hpage).mpr
      rw [← haddr]
      exact .inr hmem
    refine ⟨⟨h.nodup.erase addr, ?_, ?_⟩, ?_, ?_, ?_⟩
    · intro other hother
      exact h.live other (List.mem_of_mem_erase hother)
    · intro q hq
      rw [PmmBitmap.releasePage, PmmBitmap.used_setPageUnused, Bool.and_eq_true, h.used q hq,
        decide_eq_true_iff, h.nodup.mem_erase_iff]
      constructor
      · rintro ⟨hne, hn | hlive⟩
        · exact .inl hn
        · refine .inr ⟨?_, hlive⟩
          intro heq
          rw [haddr] at heq
          exact hne (pageAddr_inj hpage hq heq)
      · rintro (hn | ⟨hne, hlive⟩)
        · refine ⟨?_, .inl hn⟩
          intro heq
          rw [heq] at hn
          exact hn husable
        · refine ⟨?_, .inr hlive⟩
          intro heq
          apply hne
          rw [haddr, heq]
          rfl
    · intro hop
      cases hop
    · intro hop
      cases hop
    · intro q
      rw [PmmBitmap.releasePage, PmmBitmap.used_setPageUnused]
      by_cases hq : q = pageOf addr
      · subst hq
        have hused : r.p.used (addr.toNat / pageSize) = true := hused
        simp [hused, pageOf]
      · have hq' : q ≠ addr.toNat / pageSize := hq
        simp [hq, hq']

theorem PmmInv.step (h : PmmInv highMem r) (hstep : PmmStep r op r') :
    PmmInv highMem r' ∧ CallCorrect highMem (UsablePage highMem) r op r' := by
  cases op with
  | getFreePage => exact h.getFreePage hstep
  | releasePage addr => exact h.releasePage hstep

/-- After `Init` with any amount of memory, every call of every run is correct. -/
theorem pmm_exclusive {p : PmmBitmap} {ops : List PmmOp}
    (hrun : Run PmmStep ⟨p.init kernelInfo highMem, []⟩ ops r) (hstep : PmmStep r op r') :
    CallCorrect highMem (UsablePage highMem) r op r' := by
  have hinv : PmmInv highMem r :=
    hrun.invariant (fun _ _ _ h hs => (h.step hs).1) (.init p highMem)
  exact (hinv.step hstep).2

/-- The first call of all. -/
theorem boot_getFreePage_correct :
    ∃ r, PmmStep ⟨allClear.init kernelInfo 0x1F000, []⟩ .getFreePage r ∧
      CallCorrect 0x1F000 (UsablePage 0x1F000) ⟨allClear.init kernelInfo 0x1F000, []⟩
        .getFreePage r :=
  ⟨_, .getFreePage, pmm_exclusive (.nil _) .getFreePage⟩

/-- With 2049 pages, the last of them is in the byte of pages that are not there:
`GetFreePage` fails although that page is not allocated. -/
theorem partial_byte_not_allocated : ¬ ∀ (highMem : U32) (p : PmmBitmap) ops r op r',
    Run PmmStep ⟨p.init kernelInfo highMem, []⟩ ops r → PmmStep r op r' →
      CallCorrect highMem (fun page => kernelInfo.pKernelLimit.toNat ≤ page * pageSize ∧
        page < PmmBitmap.lastPage highMem) r op r' := by
  intro h
  have hlast : PmmBitmap.lastPage 8196 = 2049 := by decide
  have hcall := h 8196 allClear [] _ .getFreePage _ (.nil _) .getFreePage
  have hfull : ∀ page < ramMaxPage, (allClear.init kernelInfo 8196).used page = true := by
    intro page hpage
    rw [PmmBitmap.used_init _ _ _ hpage, hlast]
    have hdiv : kernelInfo.pKernelLimit.toNat / pageSize = 2048 := rfl
    by_cases hlt : page < 2048
    · simp [hdiv, hlt]
    · simp [hdiv]
      omega
  generalize allClear.init kernelInfo 8196 = p at hcall hfull
  have hnone : p.getFreePage.1 = minusOne := by
    rcases getFreePage_lowest p with ⟨hget, -⟩ | ⟨page, hpage, -, hfree, -⟩
    · exact congrArg Prod.fst hget
    · rw [hfull page hpage] at hfree
      cases hfree
  have hlive := hcall.failed rfl hnone 2048 ⟨by decide, by rw [hlast]; decide⟩
  cases hlive

end Runs

end LtMicros
