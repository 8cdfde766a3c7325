import LtMicros.Lib.Blocks
import LtMicros.VadFailure

/-!
# The pages of the used vads

A vad ends at a byte, but its memory is mapped by pages. When every vad that is used, or can
still be found, starts with a page, no page has bytes of two of them. `Split` keeps this,
since it cuts off whole pages; `SplitAtAddress` cuts at the address that it is given.
-/

namespace LtMicros

open Lib

namespace VadMem

/-- The pages with an address of a vad. -/
def pages (s : VadMem) (v : ℕ) : Set ℕ := blocksOf pageSize (s.lo v) (s.hi v)

/-- The vad `v` is cut in two: the second part is a new vad. The list keeps both, and
perhaps not what followed. -/
structure Cut (s s' : VadMem) (v : ℕ) : Prop where
  lo : s'.lo v = s.lo v
  start : s'.lo s.heapTop = s'.hi v
  hi : s'.hi s.heapTop = s.hi v
  first : s'.lo v < s'.hi v
  second : s'.hi v < s.hi v
  size : ∀ w, w = v ∨ w = s.heapTop →
    (s'.vads w).size = (s'.vads w).limitAddress - (s'.vads w).baseAddress
  free : ∀ w, w = v ∨ w = s.heapTop → (s.vads v).free = true → (s'.vads w).free = true
  others : ∀ w, w ≠ v → w ≠ s.heapTop → Keeps s s' w
  heapTop : s'.heapTop = s.heapTop + 1
  chain : ∀ head l, Chain s.next (some head) l → v ∈ l → s.Allocated l →
    ∃ l', Chain s'.next (some head) l' ∧ v ∈ l' ∧ s.heapTop ∈ l' ∧
      ∀ w ∈ l', w ∈ l ∨ w = s.heapTop

variable {s s' : VadMem} {head v w : ℕ} {l l₁ l₂ : List ℕ} {address size mid : U32}

/-- After `Split` the list ends with the new vad. -/
theorem split_chain (hsplit : s.split v size = (.statusSuccess, s'))
    (hlist : Chain s.next (some head) (l₁ ++ v :: l₂)) (hall : s.Allocated (l₁ ++ v :: l₂)) :
    Chain s'.next (some head) (l₁ ++ [v, s.heapTop]) := by
  have hne : v ≠ s.heapTop := Nat.ne_of_lt (hall v (by simp))
  rcases split_cases hne size with ⟨st, hfails, hfailed⟩ | ⟨s₁, hsplit₁, hoff⟩
  · rw [hfails] at hsplit
    cases hsplit
    cases hfailed
  rw [hsplit₁] at hsplit
  cases hsplit
  obtain ⟨hfront, -⟩ := Seg.mid_iff.mp hlist
  refine Seg.mid_iff.mpr ⟨?_, VadOp.split_next hsplit₁, ?_⟩
  · refine (Seg.congr fun x hx => ?_).mp hfront
    have hxv : x ≠ v := by
      rintro rfl
      exact List.disjoint_of_nodup_append hlist.nodup hx List.mem_cons_self
    have hxn : x ≠ s.heapTop := Nat.ne_of_lt (hall x (by simp [hx]))
    rw [VadMem.next, VadMem.next, hoff.others x hxv hxn]
  · exact hoff.last

/-- An insertion puts the new vad between a vad and what followed it. -/
theorem InsertedAfter.chain (h : InsertedAfter s s' v mid)
    (hlist : Chain s.next (some head) (l₁ ++ v :: l₂)) (hall : s.Allocated (l₁ ++ v :: l₂)) :
    Chain s'.next (some head) (l₁ ++ v :: s.heapTop :: l₂) := by
  obtain ⟨hfront, hback⟩ := Seg.mid_iff.mp hlist
  have hkeeps : ∀ w ∈ l₁ ++ v :: l₂, w ≠ v → Keeps s s' w := fun w hw hwv =>
    h.keeps hwv (Nat.ne_of_lt (hall w hw))
  have h₁ : ∀ w ∈ l₁, Keeps s s' w := by
    intro w hw
    apply hkeeps w (by simp [hw])
    rintro rfl
    exact List.disjoint_of_nodup_append hlist.nodup hw List.mem_cons_self
  have h₂ : ∀ w ∈ l₂, Keeps s s' w := by
    intro w hw
    apply hkeeps w (by simp [hw])
    rintro rfl
    exact (List.nodup_cons.mp (List.nodup_append.mp hlist.nodup).2.1).1 hw
  have hnext : s'.next s.heapTop = s.next v := by rw [VadMem.next, h.new, VadMem.next]
  refine Seg.mid_iff.mpr ⟨Keeps.seg h₁ hfront, ?_, ?_⟩
  · rw [VadMem.next, h.this]
  · rw [hnext]
    exact Keeps.seg h₂ hback

/-- `Split` cuts a vad behind whole pages. -/
theorem split_cuts (h0 : size ≠ 0) (hsize : size ≤ (s.vads v).size)
    (hdelta : vadMinimumDelta < (s.vads v).size - size)
    (hv : (s.vads v).size = (s.vads v).limitAddress - (s.vads v).baseAddress)
    (hlt : (s.vads v).baseAddress < (s.vads v).limitAddress) (htop : v < s.heapTop) :
    ∃ s', s.split v size = (.statusSuccess, s') ∧ Cut s s' v ∧
      (s.lo v % pageSize = 0 → s'.hi v % pageSize = 0) := by
  have hne := Nat.ne_of_lt htop
  obtain ⟨s', mid, hsplit, hmid, hhi, hlo, hnew, hthis, hframe, htop', -⟩ :=
    split_spec h0 hsize hdelta hv hlt hne
  refine ⟨s', hsplit, ?_, ?_⟩
  · constructor
    · rw [VadMem.lo, hthis, VadMem.lo]
    · rw [VadMem.lo, hnew, VadMem.hi, hthis]
    · rw [VadMem.hi, hnew, VadMem.hi]
    · rw [VadMem.lo, VadMem.hi, hthis]
      exact hlo
    · rw [VadMem.hi, VadMem.hi, hthis]
      exact hhi
    · intro w hw
      rcases hw with rfl | rfl
      · rw [hthis]
      · rw [hnew]
    · intro w hw hfree
      rcases hw with rfl | rfl
      · rw [hthis]
        exact hfree
      · rw [hnew]
    · intro w hwv hwn
      exact ⟨_, hframe w hwv hwn⟩
    · exact htop'
    · intro head l hlist hmem hall
      obtain ⟨l₁, l₂, rfl⟩ := List.append_of_mem hmem
      refine ⟨l₁ ++ [v, s.heapTop], split_chain hsplit hlist hall, by simp, by simp, ?_⟩
      intro w hw
      simp only [List.mem_append, List.mem_cons, List.not_mem_nil, or_false] at hw ⊢
      rcases hw with hw | rfl | rfl
      · exact .inl (.inl hw)
      · exact .inl (.inr (.inl rfl))
      · exact .inr rfl
  · intro hbase
    have hpages := pagesOf_aligned size
    have hend : s'.hi v = mid.toNat := by rw [VadMem.hi, hthis]
    have hbase : (s.vads v).baseAddress.toNat % pageSize = 0 := hbase
    rw [hend, hmid, BitVec.toNat_add]
    unfold pageSize at hbase hpages ⊢
    omega

/-- Inserting a vad cuts the one before it. -/
theorem InsertedAfter.cut (h : InsertedAfter s s' v mid) (hlo : (s.vads v).baseAddress < mid)
    (hhi : mid < (s.vads v).limitAddress) : Cut s s' v := by
  constructor
  · rw [VadMem.lo, h.this, VadMem.lo]
  · rw [VadMem.lo, h.new, VadMem.hi, h.this]
  · rw [VadMem.hi, h.new, VadMem.hi]
  · rw [VadMem.lo, VadMem.hi, h.this]
    exact hlo
  · rw [VadMem.hi, VadMem.hi, h.this]
    exact hhi
  · intro w hw
    rcases hw with rfl | rfl
    · rw [h.this]
    · rw [h.new]
  · intro w hw hfree
    rcases hw with rfl | rfl
    · rw [h.this]
      exact hfree
    · rw [h.new]
  · intro w hwv hwn
    exact h.keeps hwv hwn
  · exact h.heapTop
  · intro head l hlist hmem hall
    obtain ⟨l₁, l₂, rfl⟩ := List.append_of_mem hmem
    refine ⟨l₁ ++ v :: s.heapTop :: l₂, h.chain hlist hall, by simp, by simp, ?_⟩
    intro w hw
    simp only [List.mem_append, List.mem_cons] at hw ⊢
    rcases hw with hw | rfl | rfl | hw
    · exact .inl (.inl hw)
    · exact .inl (.inr (.inl rfl))
    · exact .inr rfl
    · exact .inl (.inr (.inr hw))

/-! ## Pages of their own -/

/-- A vad of the process that is used, or is still in its list. -/
def Live (s : VadMem) (baseVad : ℕ) (l : List ℕ) (v : ℕ) : Prop :=
  v ∈ l ∨ baseVad ≤ v ∧ v < s.heapTop ∧ (s.vads v).free = false

/-- The live vads start with a page, and lie apart. -/
structure Paged (baseVad : ℕ) (s : VadMem) (l : List ℕ) : Prop where
  chain : Chain s.next (some baseVad) l
  allocated : s.Allocated l
  own : ∀ v ∈ l, baseVad ≤ v
  lt : ∀ v ∈ l, s.lo v < s.hi v
  size : ∀ v ∈ l, (s.vads v).size = (s.vads v).limitAddress - (s.vads v).baseAddress
  aligned : ∀ v, s.Live baseVad l v → s.lo v % pageSize = 0
  apart : ∀ v w, s.Live baseVad l v → s.Live baseVad l w → v ≠ w →
    s.hi v ≤ s.lo w ∨ s.hi w ≤ s.lo v

variable {baseVad : ℕ}

/-- Live vads have no page in common. -/
theorem Paged.disjoint (h : Paged baseVad s l) (hv : s.Live baseVad l v)
    (hw : s.Live baseVad l w) (hne : v ≠ w) : Disjoint (s.pages v) (s.pages w) := by
  rcases h.apart v w hv hw hne with hle | hle
  · exact blocksOf_disjoint hle (h.aligned w hw)
  · exact (blocksOf_disjoint hle (h.aligned v hv)).symm

/-- A used vad keeps its place, and stays used. -/
def UsedKept (s s' : VadMem) : Prop :=
  s.heapTop ≤ s'.heapTop ∧ ∀ w < s.heapTop, (s.vads w).free = false →
    (s'.vads w).free = false ∧ s'.lo w = s.lo w ∧ s'.hi w = s.hi w

theorem UsedKept.refl (s : VadMem) : UsedKept s s :=
  ⟨Nat.le_refl _, fun _ _ hused => ⟨hused, rfl, rfl⟩⟩

theorem UsedKept.trans {s'' : VadMem} (h : UsedKept s s') (h' : UsedKept s' s'') :
    UsedKept s s'' := by
  refine ⟨h.1.trans h'.1, ?_⟩
  intro w hw hused
  obtain ⟨hused₁, hlo₁, hhi₁⟩ := h.2 w hw hused
  obtain ⟨hused₂, hlo₂, hhi₂⟩ := h'.2 w (hw.trans_le h.1) hused₁
  exact ⟨hused₂, hlo₂.trans hlo₁, hhi₂.trans hhi₁⟩

theorem Cut.usedKept (h : Cut s s' v) (hfree : (s.vads v).free = true) : UsedKept s s' := by
  refine ⟨by rw [h.heapTop]; exact Nat.le_succ _, ?_⟩
  intro w hw hused
  have hwv : w ≠ v := by
    rintro rfl
    rw [hfree] at hused
    cases hused
  have hkeeps := h.others w hwv (Nat.ne_of_lt hw)
  refine ⟨?_, hkeeps.lo, hkeeps.hi⟩
  obtain ⟨previous, hsame⟩ := hkeeps
  rw [hsame]
  exact hused

/-- After a cut, a live vad lies inside one that was live: `old` of the two parts is the vad
that has been cut. -/
theorem Cut.inside (h : Cut s s' v) (hfree : (s.vads v).free = true) {l' : List ℕ}
    (hv : v ∈ l) (hmem : ∀ w ∈ l', w ∈ l ∨ w = s.heapTop) (hw : s'.Live baseVad l' w) :
    ∃ old, s.Live baseVad l old ∧ s.lo old ≤ s'.lo w ∧ s'.hi w ≤ s.hi old ∧
      (w = v ∧ old = v ∨ w = s.heapTop ∧ old = v ∨ w ≠ v ∧ w ≠ s.heapTop ∧ old = w ∧
        s'.lo w = s.lo w) := by
  have hparts : s'.lo v ≤ s'.hi v ∧ s'.hi v ≤ s.hi v :=
    ⟨Nat.le_of_lt h.first, Nat.le_of_lt h.second⟩
  by_cases hwv : w = v
  · subst hwv
    exact ⟨w, .inl hv, Nat.le_of_eq h.lo.symm, hparts.2, .inl ⟨rfl, rfl⟩⟩
  by_cases hwn : w = s.heapTop
  · subst hwn
    refine ⟨v, .inl hv, ?_, Nat.le_of_eq h.hi, .inr (.inl ⟨rfl, rfl⟩)⟩
    rw [h.start, ← h.lo]
    exact hparts.1
  have hkeeps := h.others w hwv hwn
  refine ⟨w, ?_, Nat.le_of_eq hkeeps.lo.symm, Nat.le_of_eq hkeeps.hi,
    .inr (.inr ⟨hwv, hwn, rfl, hkeeps.lo⟩)⟩
  rcases hw with hw | ⟨hbase, htop, hused⟩
  · exact .inl ((hmem w hw).resolve_right hwn)
  · obtain ⟨previous, hsame⟩ := hkeeps
    rw [hsame] at hused
    rw [h.heapTop] at htop
    exact .inr ⟨hbase, by omega, hused⟩

/-- Cutting a free vad at the start of a page. -/
theorem Paged.cut (h : Paged baseVad s l) (hv : v ∈ l) (hfree : (s.vads v).free = true)
    (hcut : Cut s s' v) (hmid : s'.hi v % pageSize = 0) :
    ∃ l', Paged baseVad s' l' ∧ v ∈ l' ∧ s.heapTop ∈ l' := by
  obtain ⟨l', hchain, hv', hn', hmem⟩ := hcut.chain baseVad l h.chain hv h.allocated
  have hinside (w : ℕ) (hw : s'.Live baseVad l' w) :=
    hcut.inside hfree hv hmem hw
  have hnew : s'.lo s.heapTop < s'.hi s.heapTop := by
    rw [hcut.start, hcut.hi]
    exact hcut.second
  have hstays (w : ℕ) (hw : w ∈ l') (hwv : w ≠ v) (hwn : w ≠ s.heapTop) :
      w ∈ l ∧ Keeps s s' w :=
    ⟨(hmem w hw).resolve_right hwn, hcut.others w hwv hwn⟩
  refine ⟨l', ?_, hv', hn'⟩
  constructor
  · exact hchain
  · intro w hw
    rw [hcut.heapTop]
    rcases hmem w hw with hw | rfl
    · exact (h.allocated w hw).trans (Nat.lt_succ_self _)
    · exact Nat.lt_succ_self _
  · intro w hw
    rcases hmem w hw with hw | rfl
    · exact h.own w hw
    · exact (h.own v hv).trans (Nat.le_of_lt (h.allocated v hv))
  · intro w hw
    by_cases hwv : w = v
    · rw [hwv]
      exact hcut.first
    by_cases hwn : w = s.heapTop
    · rw [hwn]
      exact hnew
    obtain ⟨hwl, hkeeps⟩ := hstays w hw hwv hwn
    rw [hkeeps.lo, hkeeps.hi]
    exact h.lt w hwl
  · intro w hw
    by_cases hwv : w = v
    · exact hcut.size w (.inl hwv)
    by_cases hwn : w = s.heapTop
    · exact hcut.size w (.inr hwn)
    obtain ⟨hwl, hkeeps⟩ := hstays w hw hwv hwn
    exact hkeeps.size (h.size w hwl)
  · intro w hw
    obtain ⟨old, hlive, -, -, ⟨rfl, rfl⟩ | ⟨rfl, -⟩ | ⟨-, -, rfl, hlo⟩⟩ := hinside w hw
    · rw [hcut.lo]
      exact h.aligned _ hlive
    · rw [hcut.start]
      exact hmid
    · rw [hlo]
      exact h.aligned _ hlive
  · intro w x hw hx hne
    obtain ⟨oldw, hlivew, hlow, hhiw, hcasew⟩ := hinside w hw
    obtain ⟨oldx, hlivex, hlox, hhix, hcasex⟩ := hinside x hx
    by_cases hold : oldw = oldx
    · -- the two parts of the vad that has been cut
      have hstart := hcut.start
      rcases hcasew with ⟨rfl, rfl⟩ | ⟨rfl, rfl⟩ | ⟨hwv, hwn, rfl, -⟩
      · rcases hcasex with ⟨rfl, -⟩ | ⟨rfl, -⟩ | ⟨-, -, rfl, -⟩
        · exact absurd rfl hne
        · exact .inl (Nat.le_of_eq hstart.symm)
        · exact absurd hold hne
      · rcases hcasex with ⟨rfl, -⟩ | ⟨rfl, -⟩ | ⟨hxv, -, rfl, -⟩
        · exact .inr (Nat.le_of_eq hstart.symm)
        · exact absurd rfl hne
        · exact absurd hold.symm hxv
      · rcases hcasex with ⟨-, rfl⟩ | ⟨-, rfl⟩ | ⟨-, -, rfl, -⟩
        · exact absurd hold hwv
        · exact absurd hold hwv
        · exact absurd hold hne
    · rcases h.apart oldw oldx hlivew hlivex hold with hle | hle
      · exact .inl (by omega)
      · exact .inr (by omega)

/-! ## The calls up to `ReservePages` -/

/-- A call has left pages of their own to the live vads, the used ones where they were, and
has chosen a free vad of the list, if any. -/
def Chooses (baseVad : ℕ) (s s' : VadMem) (out : Option ℕ) : Prop :=
  UsedKept s s' ∧ ∃ l', Paged baseVad s' l' ∧ ∀ v, out = some v → v ∈ l' ∧ (s'.vads v).free = true

theorem Paged.chooses_none (h : Paged baseVad s l) : Chooses baseVad s s none :=
  ⟨.refl s, l, h, fun _ hv => by cases hv⟩

theorem Paged.chooses_self (h : Paged baseVad s l) (hv : v ∈ l) (hfree : (s.vads v).free = true) :
    Chooses baseVad s s (some v) := by
  refine ⟨.refl s, l, h, ?_⟩
  intro w hw
  cases hw
  exact ⟨hv, hfree⟩

variable {fuel : ℕ} {status : KeStatus} {out : Option ℕ}

theorem Paged.split (h : Paged baseVad s l) (hv : v ∈ l) (hfree : (s.vads v).free = true)
    (h0 : size ≠ 0) (hsize : size ≤ (s.vads v).size)
    (hdelta : vadMinimumDelta < (s.vads v).size - size) :
    ∃ s', s.split v size = (.statusSuccess, s') ∧ Chooses baseVad s s' (some v) ∧
      s.heapTop < s'.heapTop ∧ ∀ w, w ≠ v → w < s.heapTop → Keeps s s' w := by
  obtain ⟨s', hsplit, hcut, hmid⟩ := split_cuts h0 hsize hdelta (h.size v hv) (h.lt v hv)
    (h.allocated v hv)
  obtain ⟨l', hpaged, hv', -⟩ := h.cut hv hfree hcut (hmid (h.aligned v (.inl hv)))
  refine ⟨s', hsplit, ⟨hcut.usedKept hfree, l', hpaged, ?_⟩, ?_, ?_⟩
  · intro w hw
    cases hw
    exact ⟨hv', hcut.free v (.inl rfl) hfree⟩
  · rw [hcut.heapTop]
    exact Nat.lt_succ_self _
  · intro w hwv hlt
    exact hcut.others w hwv (Nat.ne_of_lt hlt)

theorem Paged.chooseVad (h : Paged baseVad s l)
    (hr : s.chooseVad fuel baseVad size = .ret (status, out, s')) : Chooses baseVad s s' out := by
  unfold VadMem.chooseVad at hr
  split at hr
  · cases hr
    exact h.chooses_none
  rename_i h0
  obtain ⟨⟨st, found⟩, hlook, hr⟩ := Outcome.bind_eq_ret.mp hr
  split at hr
  · rename_i v heq
    cases heq
    have hfound := lookForFree_spec h.chain h0 hlook
    cases hf : l.find? (s.fits size) with
    | none =>
      rw [hf] at hfound
      cases hfound
    | some u =>
      rw [hf] at hfound
      cases hfound
      have hv := List.mem_of_find?_eq_some hf
      obtain ⟨hsize, hfree⟩ := fits_eq_true.mp (List.find?_some hf)
      unfold chooseFrom at hr
      split at hr
      · rename_i hdelta
        obtain ⟨s₁, hsplit, hchooses, -⟩ := h.split hv hfree h0 hsize hdelta
        rw [hsplit] at hr
        cases hr
        exact hchooses
      · cases hr
        exact h.chooses_self hv hfree
  · cases hr
    exact h.chooses_none

/-- The condition on `AllocateAtAddress`: the vad that the search ends at starts at the
address, or holds it at the start of a page, or is not split. -/
def AtPage (s : VadMem) (baseVad : ℕ) (address size : U32) : Prop :=
  ∀ fuel v, s.lookForFreeVadAtAddressOfMinimumSize fuel baseVad address size =
      .ret (.statusSuccess, some v) →
    (s.vads v).baseAddress = address ∨
    s.contains address v = true ∧ address.toNat % pageSize = 0 ∨
    (s.vads v).size - size < vadMinimumDelta ∨ (s.vads v).limitAddress - address < size

/-- The part of `SplitAtAddress` for an address inside a vad, at the start of a page. -/
theorem Paged.splitInside (h : Paged baseVad s l) (hv : v ∈ l) (hfree : (s.vads v).free = true)
    (h0 : size ≠ 0) (hsize : size ≤ (s.vads v).limitAddress - address)
    (hlo : (s.vads v).baseAddress < address) (hhi : address < (s.vads v).limitAddress)
    (hpage : address.toNat % pageSize = 0) :
    ∃ s', s.splitInside v address size = (.statusSuccess, s') ∧ s'.next v = some s.heapTop ∧
      (s'.vads v).baseAddress = (s.vads v).baseAddress ∧ Chooses baseVad s s' (some s.heapTop) := by
  have htop := h.allocated v hv
  have hne := Nat.ne_of_lt htop
  have hloop : s.next v ≠ some v := by
    intro hnext
    obtain ⟨l₁, l₂, rfl⟩ := List.append_of_mem hv
    obtain ⟨rest, rfl, -⟩ := (Seg.mid_iff.mp h.chain).2.chain_cons hnext
    have hnodup := (List.nodup_append.mp h.chain.nodup).2.1
    exact (List.nodup_cons.mp hnodup).1 List.mem_cons_self
  have hfresh : s.next v ≠ some s.heapTop := by
    intro hnext
    exact absurd (h.allocated _ (h.chain.next_mem hv hnext)) (Nat.lt_irrefl _)
  obtain ⟨s₁, hins, hinside⟩ := splitInside_spec hsize (h.size v hv) hlo hhi hne hloop hfresh
  have hcut := hins.cut hlo hhi
  have hend : s₁.hi v % pageSize = 0 := by
    rw [VadMem.hi, hins.this]
    exact hpage
  obtain ⟨l₁, hpaged, hv₁, hn₁⟩ := h.cut hv hfree hcut hend
  have hfree₁ : (s₁.vads s.heapTop).free = true := hcut.free _ (.inr rfl) hfree
  have hnext : s₁.next v = some s.heapTop := by rw [VadMem.next, hins.this]
  have hbase : (s₁.vads v).baseAddress = (s.vads v).baseAddress := by rw [hins.this]
  by_cases hdelta : vadMinimumDelta < (s₁.vads s.heapTop).size - size
  · have hsize₁ : size ≤ (s₁.vads s.heapTop).size := by
      rw [hins.new]
      exact hsize
    obtain ⟨s₂, hsplit, ⟨hkept, hchooses⟩, -, hothers⟩ := hpaged.split hn₁ hfree₁ h0 hsize₁ hdelta
    -- the second split leaves the vad that holds the address alone
    have hkeeps : Keeps s₁ s₂ v := hothers v hne (by rw [hcut.heapTop]; omega)
    refine ⟨s₂, by rw [hinside, if_pos hdelta, hsplit], hkeeps.next.trans hnext, ?_,
      (hcut.usedKept hfree).trans hkept, hchooses⟩
    obtain ⟨previous, hsame⟩ := hkeeps
    rw [hsame]
    exact hbase
  · refine ⟨s₁, by rw [hinside, if_neg hdelta], hnext, hbase, hcut.usedKept hfree, l₁, hpaged, ?_⟩
    intro w hw
    cases hw
    exact ⟨hn₁, hfree₁⟩

/-- A `SplitAtAddress` that fails chooses nothing. -/
theorem Paged.chooses_failed (h : Paged baseVad s l) {st : KeStatus}
    (hsplit : s.splitAtAddress v address size = (st, s)) (hfailed : failed st = true)
    (hcond : (s.vads v).baseAddress ≠ address ∨ vadMinimumDelta < (s.vads v).size - size)
    (hr : s.chooseAtAddressFrom v address size = .ret (status, out, s')) :
    Chooses baseVad s s' out := by
  rw [chooseAtAddressFrom, if_pos hcond, hsplit] at hr
  simp only [hfailed, if_true] at hr
  cases hr
  exact h.chooses_none

theorem Paged.chooseAtAddressFrom (h : Paged baseVad s l) (hv : v ∈ l)
    (hfree : (s.vads v).free = true) (ha : address ≠ 0) (h0 : size ≠ 0)
    (hat : (s.vads v).baseAddress = address ∨
      s.contains address v = true ∧ address.toNat % pageSize = 0 ∨
      (s.vads v).size - size < vadMinimumDelta ∨ (s.vads v).limitAddress - address < size)
    (hr : s.chooseAtAddressFrom v address size = .ret (status, out, s')) :
    Chooses baseVad s s' out := by
  by_cases hcond : (s.vads v).baseAddress ≠ address ∨ vadMinimumDelta < (s.vads v).size - size
  swap
  · rw [VadMem.chooseAtAddressFrom, if_neg hcond] at hr
    cases hr
    exact h.chooses_self hv hfree
  by_cases hsize : size ≤ (s.vads v).size
  swap
  · have hsplit : s.splitAtAddress v address size = (.statusInvalidParameter, s) := by
      rw [splitAtAddress, if_neg ha, if_neg h0, if_pos (BitVec.not_le.mp hsize)]
    exact h.chooses_failed hsplit rfl hcond hr
  by_cases hbase : (s.vads v).baseAddress = address
  · have hdelta : vadMinimumDelta < (s.vads v).size - size := by
      rcases hcond with hne | hdelta
      · exact absurd hbase hne
      · exact hdelta
    have hnot : ¬(s.vads v).size - size < vadMinimumDelta :=
      BitVec.not_lt.mpr (BitVec.le_of_lt hdelta)
    obtain ⟨s₁, hsplit, hchooses, htop, -⟩ := h.split hv hfree h0 hsize hdelta
    have hsame : (s₁.vads v).baseAddress = (s.vads v).baseAddress := by
      rcases split_cases (Nat.ne_of_lt (h.allocated v hv)) size with
        ⟨st, hfails, hfailed⟩ | ⟨s₂, hsplit₂, hoff⟩
      · rw [hfails] at hsplit
        cases hsplit
        cases hfailed
      · rw [hsplit₂] at hsplit
        cases hsplit
        exact hoff.base
    rw [VadMem.chooseAtAddressFrom, if_pos hcond, splitAtAddress_eq h0 ha hsize hnot,
      if_neg (not_not.mpr hbase), hsplit] at hr
    simp only [hsame, hbase, failed, ne_eq, not_true_eq_false, if_false, decide_false,
      Bool.false_eq_true] at hr
    cases hr
    exact hchooses
  · by_cases hfails : (s.vads v).size - size < vadMinimumDelta ∨
        (s.vads v).limitAddress - address < size
    · obtain ⟨st, hsplit, hfailed⟩ := splitAtAddress_fails h0 ha hbase hfails
      exact h.chooses_failed hsplit hfailed hcond hr
    obtain ⟨hnot, hroom⟩ := not_or.mp hfails
    have hinside : s.contains address v = true ∧ address.toNat % pageSize = 0 := by
      rcases hat with hat | hat | hat
      · exact absurd hat hbase
      · exact hat
      · exact absurd hat hfails
    obtain ⟨hle, hhi⟩ := contains_eq_true.mp hinside.1
    have hlo : (s.vads v).baseAddress < address := by
      rw [BitVec.lt_def]
      have hle : (s.vads v).baseAddress.toNat ≤ address.toNat := hle
      have hne : (s.vads v).baseAddress.toNat ≠ address.toNat := fun heq =>
        hbase (BitVec.eq_of_toNat_eq heq)
      omega
    obtain ⟨s₁, hsplit, hnext, hsame, hchooses⟩ := h.splitInside hv hfree h0
      (BitVec.not_lt.mp hroom) hlo hhi hinside.2
    rw [VadMem.chooseAtAddressFrom, if_pos hcond, splitAtAddress_eq h0 ha hsize hnot,
      if_pos hbase, hsplit] at hr
    simp only [hsame, hbase, hnext, failed, ne_eq, not_false_eq_true, not_true_eq_false, if_true,
      decide_false, Bool.false_eq_true, if_false, Outcome.ofOption_some, Outcome.ret_bind,
      Outcome.pure_eq] at hr
    cases hr
    exact hchooses

theorem Paged.chooseVadAtAddress (h : Paged baseVad s l) (hat : s.AtPage baseVad address size)
    (hr : s.chooseVadAtAddress fuel baseVad address size = .ret (status, out, s')) :
    Chooses baseVad s s' out := by
  unfold VadMem.chooseVadAtAddress at hr
  split at hr
  · cases hr
    exact h.chooses_none
  rename_i ha
  split at hr
  · cases hr
    exact h.chooses_none
  rename_i h0
  obtain ⟨⟨st, found⟩, hlook, hr⟩ := Outcome.bind_eq_ret.mp hr
  split at hr
  · rename_i v heq
    cases heq
    have hsearch : (VadOp.allocateAtAddress address size 0 true).lookFor fuel s baseVad =
      .ret (.statusSuccess, some v) := hlook
    obtain ⟨hv, hfree⟩ := VadOp.lookFor_found h.chain hsearch
    exact h.chooseAtAddressFrom hv hfree ha h0 (hat fuel v hlook) hr
  · cases hr
    exact h.chooses_none

/-! ## Reserving the vad -/

theorem reserveAndReturn_others {pageDirectory : U32} {reserve : Bool} (hne : w ≠ v)
    (hr : s.reserveAndReturn fuel v pageDirectory reserve = .ret (status, out, s')) :
    s'.vads w = s.vads w := by
  obtain ⟨⟨st, s₁⟩, hreserve, hr⟩ := Outcome.bind_eq_ret.mp hr
  obtain ⟨⟨st', k⟩, -, hreserve⟩ := Outcome.bind_eq_ret.mp hreserve
  have hsame : s₁.vads w = s.vads w := by
    split at hreserve
    · cases hreserve
      exact store_of_ne _ hne _
    · cases hreserve
      rfl
  split at hr
  · rename_i heq
    cases heq
    cases hr
    exact hsame
  · rename_i heq
    cases heq
    cases hr
    exact hsame

/-- Reserving a vad of the list makes it a used one, and changes nothing else of the vads. -/
theorem Paged.reserved {pageDirectory : U32} {reserve : Bool} (h : Paged baseVad s l) (hv : v ∈ l)
    (hr : s.reserveAndReturn fuel v pageDirectory reserve = .ret (status, out, s')) :
    Paged baseVad s' l := by
  obtain ⟨htop, hsame, -, -⟩ := reserveAndReturn_spec hr
  have hlo (w : ℕ) : s'.lo w = s.lo w := by rw [lo, lo, hsame]
  have hhi (w : ℕ) : s'.hi w = s.hi w := by rw [hi, hi, hsame]
  have hlive (w : ℕ) (hw : s'.Live baseVad l w) : s.Live baseVad l w := by
    rcases hw with hw | ⟨hbase, hlt, hused⟩
    · exact .inl hw
    -- only the vad that is reserved has become a used one
    by_cases hwv : w = v
    · rw [hwv]
      exact .inl hv
    · rw [reserveAndReturn_others hwv hr] at hused
      exact .inr ⟨hbase, by rwa [htop] at hlt, hused⟩
  constructor
  · exact (Seg.congr fun w _ => by rw [next, next, hsame]).mp h.chain
  · intro w hw
    rw [htop]
    exact h.allocated w hw
  · exact h.own
  · intro w hw
    rw [hlo, hhi]
    exact h.lt w hw
  · intro w hw
    rw [hsame]
    exact h.size w hw
  · intro w hw
    rw [hlo]
    exact h.aligned w (hlive w hw)
  · intro w x hw hx hne
    rw [hlo, hhi, hlo, hhi]
    exact h.apart w x (hlive w hw) (hlive x hx) hne

end VadMem

/-! ## Runs -/

section Runs

variable {baseVad : ℕ} {s s' : ProcessVads} {op : VadOp} {ops : List VadOp}

/-- The condition on a call. -/
def PageGuard (baseVad : ℕ) (s : ProcessVads) : VadOp → Prop
  | .allocate _ _ _ => True
  | .allocateAtAddress address size _ _ => s.mem.AtPage baseVad address size

/-- No page has addresses of two used vads of the process, and none of a used vad and of the
one that a call is about to map. -/
def NoSharedPage (baseVad : ℕ) (s : ProcessVads) : Prop :=
  (∀ v w, baseVad ≤ v → v < s.mem.heapTop → baseVad ≤ w → w < s.mem.heapTop → v ≠ w →
    (s.mem.vads v).free = false → (s.mem.vads w).free = false →
    Disjoint (s.mem.pages v) (s.mem.pages w)) ∧
  ∀ op fuel v m, PageGuard baseVad s op →
    op.choose fuel s.mem baseVad = .ret (.statusSuccess, some v, m) →
    ∀ w, baseVad ≤ w → w < s.mem.heapTop → (s.mem.vads w).free = false →
      Disjoint (m.pages v) (s.mem.pages w)

/-- A call that meets the condition chooses a vad with pages of its own. -/
theorem VadMem.Paged.choose {m m' : VadMem} {l : List ℕ} {fuel : ℕ} {status : KeStatus}
    {out : Option ℕ} {given : List (U32 × U32)} (h : m.Paged baseVad l)
    (hguard : PageGuard baseVad ⟨m, given⟩ op)
    (hr : op.choose fuel m baseVad = .ret (status, out, m')) : m.Chooses baseVad m' out := by
  cases op with
  | allocate size pd reserve => exact h.chooseVad hr
  | allocateAtAddress address size pd reserve => exact h.chooseVadAtAddress hguard hr

theorem VadMem.Paged.noSharedPage {m : VadMem} {l : List ℕ} {given : List (U32 × U32)}
    (h : m.Paged baseVad l) : NoSharedPage baseVad ⟨m, given⟩ := by
  constructor
  · intro v w hv hv' hw hw' hne hused hused'
    exact h.disjoint (.inr ⟨hv, hv', hused⟩) (.inr ⟨hw, hw', hused'⟩) hne
  · intro op fuel v m' hguard hr w hw hw' hused
    obtain ⟨hkept, l', hpaged, hout⟩ := h.choose hguard hr
    obtain ⟨hv, hfree⟩ := hout v rfl
    obtain ⟨hused', hlo, hhi⟩ := hkept.2 w hw' hused
    have hne : v ≠ w := by
      rintro rfl
      rw [hfree] at hused'
      cases hused'
    have hdisjoint := hpaged.disjoint (.inl hv) (.inr ⟨hw, hw'.trans_le hkept.1, hused'⟩) hne
    rwa [VadMem.pages, VadMem.pages, hlo, hhi] at hdisjoint

/-- Every call that meets the condition keeps the pages apart. -/
theorem VadMem.Paged.step {l : List ℕ} (h : s.mem.Paged baseVad l)
    (hguard : PageGuard baseVad s op) (hstep : VadStep baseVad s op s') :
    ∃ l', s'.mem.Paged baseVad l' := by
  have hends {m : VadMem} {fuel : ℕ} {status : KeStatus} {out : Option ℕ} {pd : U32}
      {reserve : Bool} (hr : op.choose fuel s.mem baseVad >>=
        VadMem.reserveChosen fuel pd reserve = .ret (status, out, m)) : ∃ l', m.Paged baseVad l' := by
    obtain ⟨⟨st, chosen, m₁⟩, hchoose, hr⟩ := Outcome.bind_eq_ret.mp hr
    obtain ⟨-, l', hpaged, hout⟩ := h.choose hguard hchoose
    unfold VadMem.reserveChosen at hr
    split at hr
    · rename_i v _ heq
      cases heq
      exact ⟨l', hpaged.reserved (hout v rfl).1 hr⟩
    · rename_i heq
      cases heq
      cases hr
      exact ⟨l', hpaged⟩
  cases hstep with
  | allocate hr =>
    rw [VadMem.allocate_eq] at hr
    exact hends hr
  | allocateAtAddress hr =>
    rw [VadMem.allocateAtAddress_eq] at hr
    exact hends hr

/-- The single vad of a new process. -/
theorem VadMem.Paged.init (m : VadMem) :
    (m.processCreate.2.2).Paged m.heapTop [m.heapTop] := by
  obtain ⟨m', hm', hv, htop, -⟩ := m.processCreate_spec
  rw [hm']
  have hpart := VadMem.processCreate_partition hv
  have honly (w : ℕ) (hw : m'.Live m.heapTop [m.heapTop] w) : w = m.heapTop := by
    rcases hw with hw | ⟨hle, hlt, -⟩
    · exact List.mem_singleton.mp hw
    · rw [htop] at hlt
      omega
  constructor
  · exact hpart.chain
  · intro w hw
    rw [List.mem_singleton.mp hw, htop]
    exact Nat.lt_succ_self _
  · intro w hw
    exact Nat.le_of_eq (List.mem_singleton.mp hw).symm
  · intro w hw
    exact hpart.lt hw
  · exact hpart.size
  · intro w hw
    rw [honly w hw, VadMem.lo, hv]
    decide
  · intro w x hw hx hne
    exact absurd ((honly w hw).trans (honly x hx).symm) hne

/-- From the single free vad of `Process::Create`, no page is shared in any state of a run
whose calls meet the condition. -/
theorem used_vads_share_no_page {m : VadMem}
    (h : Run (Guarded (PageGuard m.heapTop) (VadStep m.heapTop)) ⟨m.processCreate.2.2, []⟩ ops s) :
    NoSharedPage m.heapTop s := by
  have hinv : ∃ l, s.mem.Paged m.heapTop l :=
    h.guarded_invariant (I := fun s => ∃ l, s.mem.Paged m.heapTop l)
      (fun _ _ _ ⟨_, hi⟩ hc hs => hi.step hc hs) ⟨_, .init m⟩
  obtain ⟨l, hpaged⟩ := hinv
  exact hpaged.noSharedPage

/-- A page at an address near the start of the range of a new process, and then 16 bytes wherever
there is room: these are the addresses in front of the page. -/
theorem boot_front {address : U32} (hlo : 0x40000010 ≤ address) (hhi : address ≤ 0x40001000) :
    ∃ s₁ s, VadStep 0 ⟨bootVads.processCreate.2.2, []⟩
        (.allocateAtAddress address 4096 0x1000 true) s₁ ∧
      VadStep 0 s₁ (.allocate 16 0x1000 true) s ∧ s.given.length = 2 ∧ 1 < s.mem.heapTop ∧
      (s.mem.vads 0).baseAddress = vProcessBaseAddr ∧ (s.mem.vads 0).limitAddress = address ∧
      (s.mem.vads 0).free = false ∧ (s.mem.vads 1).baseAddress = address ∧
      (s.mem.vads 1).limitAddress = address + 8192 ∧ (s.mem.vads 1).free = false := by
  have hlo' : 0x40000010 ≤ address.toNat := hlo
  have hhi' : address.toNat ≤ 0x40001000 := hhi
  have habove : vProcessBaseAddr < address := by
    show 0x40000000 < address.toNat
    omega
  obtain ⟨fuel, m, hcall, hmmu, hpmm, htop, ⟨previous, hthis⟩, hbase, hlimit, hused⟩ :=
    boot_allocateAt habove (BitVec.le_trans hhi (by decide))
  have hlimit₀ : (m.vads 0).limitAddress = address := by rw [hthis]
  have hsize₀ : (m.vads 0).size.toNat = address.toNat - 0x40000000 := by
    rw [hthis]
    exact BitVec.toNat_sub_of_le (BitVec.le_of_lt habove)
  have hsixteen : (16 : U32) ≤ (m.vads 0).size := by
    show 16 ≤ (m.vads 0).size.toNat
    omega
  obtain ⟨n, hn⟩ : ∃ n : ℕ, 2 ^ 32 ≤ n + 1 := ⟨2 ^ 32, Nat.le_succ _⟩
  obtain ⟨k, hk, -⟩ := VadMem.reserveAndReturn_returns hmmu hpmm
    (show (m.vads 0).limitAddress.toNat + 4096 ≤ 2 ^ 32 by rw [hlimit₀]; omega) 0x1000 hn
  obtain ⟨m₂, hm₂⟩ : ∃ m₂, m₂ = VadMem.store { m with mem := k } 0 fun vad =>
    { vad with free := false } := ⟨_, rfl⟩
  have hfits : m.fits 16 0 = true := VadMem.fits_eq_true.mpr ⟨hsixteen, by rw [hthis]⟩
  -- what is left of the vad is too small to be split off
  have hsmall : ¬vadMinimumDelta < (m.vads 0).size - 16 := by
    show ¬4096 < ((m.vads 0).size - 16).toNat
    rw [BitVec.toNat_sub_of_le hsixteen]
    show ¬4096 < (m.vads 0).size.toNat - 16
    omega
  have hcall' : m.allocate (n + 1) 0 16 0x1000 true = .ret (.statusSuccess, some 0, m₂) := by
    rw [VadMem.allocate_head n (by decide) hfits, VadMem.allocateFrom, if_neg hsmall, hm₂]
    exact hk
  have hzero : m₂.vads 0 = { m.vads 0 with free := false } := by rw [hm₂, VadMem.store_self]
  have hone : m₂.vads 1 = m.vads 1 := by rw [hm₂, VadMem.store_of_ne _ (by decide)]
  have htop₂ : 1 < m₂.heapTop := by
    rw [hm₂]
    exact htop
  refine ⟨_, _, .allocateAtAddress hcall, .allocate hcall', rfl, htop₂, ?_⟩
  show (m₂.vads 0).baseAddress = _ ∧ (m₂.vads 0).limitAddress = _ ∧ (m₂.vads 0).free = _ ∧
    (m₂.vads 1).baseAddress = _ ∧ (m₂.vads 1).limitAddress = _ ∧ (m₂.vads 1).free = _
  rw [hzero, hone, hthis]
  exact ⟨rfl, rfl, rfl, hbase, hlimit, hused⟩

/-- The second page of the range of a new process, and then 16 bytes wherever there is room. -/
theorem boot_shares_no_page : ∃ s,
    Run (Guarded (PageGuard 0) (VadStep 0)) ⟨bootVads.processCreate.2.2, []⟩
      [.allocateAtAddress 0x40001000 4096 0x1000 true, .allocate 16 0x1000 true] s ∧
    s.given.length = 2 ∧ NoSharedPage 0 s := by
  obtain ⟨s₁, s, hstep₁, hstep₂, hgiven, -⟩ :=
    boot_front (show (0x40000010 : U32) ≤ 0x40001000 by decide) (BitVec.le_refl _)
  have hguard : PageGuard 0 ⟨bootVads.processCreate.2.2, []⟩
      (.allocateAtAddress 0x40001000 4096 0x1000 true) := by
    intro fuel v hlook
    have hsearch : (VadOp.allocateAtAddress 0x40001000 4096 0 true).lookFor fuel
      bootVads.processCreate.2.2 0 = .ret (.statusSuccess, some v) := hlook
    have hv := (VadOp.lookFor_found (VadMem.Paged.init bootVads).chain hsearch).1
    rw [List.mem_singleton.mp hv]
    exact .inr (.inl ⟨by decide, by decide⟩)
  have hrun : Run (Guarded (PageGuard 0) (VadStep 0)) ⟨bootVads.processCreate.2.2, []⟩
      [.allocateAtAddress 0x40001000 4096 0x1000 true, .allocate 16 0x1000 true] s :=
    .cons ⟨hguard, hstep₁⟩ (.single ⟨trivial, hstep₂⟩)
  exact ⟨s, hrun, hgiven, used_vads_share_no_page (m := bootVads) hrun⟩

/-- A page at an address inside of one, and then 16 bytes wherever there is room: the part of
the page in front of the address is handed out too. -/
theorem unaligned_shares_page : ∃ s, Run (VadStep 0) ⟨bootVads.processCreate.2.2, []⟩
      [.allocateAtAddress 0x40000100 4096 0x1000 true, .allocate 16 0x1000 true] s ∧
    s.given.length = 2 ∧ ¬NoSharedPage 0 s := by
  obtain ⟨s₁, s, hstep₁, hstep₂, hgiven, htop, hbase₀, hlimit₀, hused₀, hbase, hlimit, hused⟩ :=
    boot_front (show (0x40000010 : U32) ≤ 0x40000100 by decide) (by decide)
  refine ⟨s, .cons hstep₁ (.single hstep₂), hgiven, ?_⟩
  rintro ⟨hdisjoint, -⟩
  have hapart := hdisjoint 0 1 (Nat.le_refl _) (by omega) (Nat.zero_le _) htop (by decide) hused₀
    hused
  -- both have addresses of the page at 0x40000000
  have hpage₀ : 0x40000 ∈ s.mem.pages 0 := by
    rw [VadMem.pages, VadMem.lo, VadMem.hi, hbase₀, hlimit₀]
    exact ⟨0x40000000, Nat.le_refl _, show 0x40000000 < 0x40000100 by decide, rfl⟩
  have hpage₁ : 0x40000 ∈ s.mem.pages 1 := by
    rw [VadMem.pages, VadMem.lo, VadMem.hi, hbase, hlimit]
    exact ⟨0x40000100, Nat.le_refl _, show 0x40000100 < 0x40002100 by decide, rfl⟩
  exact Set.disjoint_left.mp hapart hpage₀ hpage₁

end Runs

end LtMicros
