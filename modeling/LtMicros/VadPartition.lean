import LtMicros.Vad
import LtMicros.Lib.Run
import LtMicros.Lib.Tiling

/-!
# The vads of a process partition its address range
-/

namespace LtMicros

open Lib

namespace VadMem

variable {s s' : VadMem} {head v w : ℕ} {l l₁ l₂ : List ℕ} {address mid : U32}

/-- The ends of a vad as numbers. -/
def lo (s : VadMem) (v : ℕ) : ℕ := (s.vads v).baseAddress.toNat

def hi (s : VadMem) (v : ℕ) : ℕ := (s.vads v).limitAddress.toNat

/-- The vads of `l` are the list reached from `head`, and they partition
`[V_PROCESS_BASE_ADDR, V_PROCESS_LIMIT_ADDR)`. -/
structure Partition (s : VadMem) (head : ℕ) (l : List ℕ) : Prop where
  chain : Chain s.next (some head) l
  tiles : Tiles s.lo s.hi vProcessBaseAddr.toNat l vProcessLimitAddr.toNat
  size : ∀ v ∈ l, (s.vads v).size = (s.vads v).limitAddress - (s.vads v).baseAddress
  previous : ∀ v ∈ l, ∀ w, s.next v = some w → (s.vads w).previous = some v

/-- The vads of `l` are allocated. -/
def Allocated (s : VadMem) (l : List ℕ) : Prop := ∀ v ∈ l, v < s.heapTop

/-- `s'` is `s` with a new vad from `mid` to the limit of `v`, inserted in the
list after `v`. -/
structure InsertedAfter (s s' : VadMem) (v : ℕ) (mid : U32) : Prop where
  new : s'.vads s.heapTop =
    { baseAddress := mid, limitAddress := (s.vads v).limitAddress,
      size := (s.vads v).limitAddress - mid, free := true, previous := some v,
      next := (s.vads v).next }
  this : s'.vads v =
    { s.vads v with
      limitAddress := mid, size := mid - (s.vads v).baseAddress, next := some s.heapTop }
  succ : ∀ w, s.next v = some w → s'.vads w = { s.vads w with previous := some s.heapTop }
  frame : ∀ w, w ≠ v → w ≠ s.heapTop → s.next v ≠ some w → s'.vads w = s.vads w
  heapTop : s'.heapTop = s.heapTop + 1
  mem : s'.mem = s.mem

/-- A vad has the same fields in `s'`, except perhaps `previous`. -/
def Keeps (s s' : VadMem) (w : ℕ) : Prop := ∃ previous, s'.vads w = { s.vads w with previous }

namespace Keeps

theorem next (h : Keeps s s' w) : s'.next w = s.next w := by
  obtain ⟨_, h⟩ := h
  rw [VadMem.next, h, VadMem.next]

theorem lo (h : Keeps s s' w) : s'.lo w = s.lo w := by
  obtain ⟨_, h⟩ := h
  rw [VadMem.lo, h, VadMem.lo]

theorem hi (h : Keeps s s' w) : s'.hi w = s.hi w := by
  obtain ⟨_, h⟩ := h
  rw [VadMem.hi, h, VadMem.hi]

theorem size (h : Keeps s s' w)
    (hs : (s.vads w).size = (s.vads w).limitAddress - (s.vads w).baseAddress) :
    (s'.vads w).size = (s'.vads w).limitAddress - (s'.vads w).baseAddress := by
  obtain ⟨_, h⟩ := h
  rw [h]
  exact hs

theorem seg {p q : Option ℕ} (h : ∀ w ∈ l, Keeps s s' w) (hs : Seg s.next p l q) :
    Seg s'.next p l q :=
  (Seg.congr fun w hw => (h w hw).next.symm).mp hs

theorem tiles {a b : ℕ} (h : ∀ w ∈ l, Keeps s s' w) (ht : Tiles s.lo s.hi a l b) :
    Tiles s'.lo s'.hi a l b :=
  (Tiles.congr (fun w hw => (h w hw).lo.symm) fun w hw => (h w hw).hi.symm).mp ht

end Keeps

namespace InsertedAfter

/-- The other vads keep everything but `previous`. -/
theorem keeps (h : InsertedAfter s s' v mid) (hv : w ≠ v) (hn : w ≠ s.heapTop) :
    Keeps s s' w := by
  by_cases hs : s.next v = some w
  · exact ⟨_, h.succ w hs⟩
  · exact ⟨_, h.frame w hv hn hs⟩

/-- Inserting a vad inside one of a partition gives a partition. -/
theorem partition (hins : InsertedAfter s s' v mid) (h : Partition s head (l₁ ++ v :: l₂))
    (hall : Allocated s (l₁ ++ v :: l₂)) (hlo : (s.vads v).baseAddress < mid)
    (hhi : mid < (s.vads v).limitAddress) :
    Partition s' head (l₁ ++ v :: s.heapTop :: l₂) := by
  have hnodup := h.chain.nodup
  have hold : ∀ w ∈ l₁ ++ v :: l₂, w ≠ s.heapTop := fun w hw => Nat.ne_of_lt (hall w hw)
  have hkeeps : ∀ w ∈ l₁ ++ v :: l₂, w ≠ v → Keeps s s' w := fun w hw hv =>
    hins.keeps hv (hold w hw)
  have h₁ : ∀ w ∈ l₁, Keeps s s' w := by
    intro w hw
    apply hkeeps w (by simp [hw])
    rintro rfl
    exact List.disjoint_of_nodup_append hnodup hw List.mem_cons_self
  have h₂ : ∀ w ∈ l₂, Keeps s s' w := by
    intro w hw
    apply hkeeps w (by simp [hw])
    rintro rfl
    exact (List.nodup_cons.mp (List.nodup_append.mp hnodup).2.1).1 hw
  have hnext : s'.next v = some s.heapTop := by rw [next, hins.this]
  have hnext' : s'.next s.heapTop = s.next v := by rw [next, hins.new, next]
  constructor
  · obtain ⟨hc₁, hc₂⟩ := Seg.mid_iff.mp h.chain
    refine Seg.mid_iff.mpr ⟨Keeps.seg h₁ hc₁, hnext, ?_⟩
    rw [hnext']
    exact Keeps.seg h₂ hc₂
  · obtain ⟨ht₁, -, ht₂⟩ := Tiles.mid_iff.mp h.tiles
    rw [Tiles.mid_iff, Tiles.cons_iff]
    simp only [lo, hi, hins.this, hins.new]
    exact ⟨Keeps.tiles h₁ ht₁, hlo, trivial, hhi, Keeps.tiles h₂ ht₂⟩
  · intro w hw
    rcases List.mem_append.mp hw with hw | hw
    · exact (h₁ w hw).size (h.size w (by simp [hw]))
    rcases List.mem_cons.mp hw with rfl | hw
    · rw [hins.this]
    rcases List.mem_cons.mp hw with rfl | hw
    · rw [hins.new]
    · exact (h₂ w hw).size (h.size w (by simp [hw]))
  · -- only the vad that followed `v` has another vad before it now
    have hprev (w) (hw : w ∈ l₁ ++ v :: l₂) (hv : w ≠ v) (x) (hx : s'.next w = some x) :
        (s'.vads x).previous = some w := by
      rw [(hkeeps w hw hv).next] at hx
      have hxw := h.previous w hw x hx
      by_cases hxv : x = v
      · subst hxv
        rw [hins.this]
        exact hxw
      have hvx : s.next v ≠ some x := by
        intro hvx
        have := (h.previous v (by simp) x hvx).symm.trans hxw
        exact hv (Option.some.inj this).symm
      rw [hins.frame x hxv (hold x (h.chain.next_mem hw hx)) hvx]
      exact hxw
    intro w hw x hx
    by_cases hv : w = v
    · subst hv
      cases hnext.symm.trans hx
      rw [hins.new]
    by_cases hn : w = s.heapTop
    · subst hn
      rw [hnext'] at hx
      rw [hins.succ x hx]
    · refine hprev w ?_ hv x hx
      simpa [hv, hn] using hw

theorem allocated (hins : InsertedAfter s s' v mid) (hall : Allocated s (l₁ ++ v :: l₂)) :
    Allocated s' (l₁ ++ v :: s.heapTop :: l₂) := by
  intro w hw
  rw [hins.heapTop]
  by_cases hn : w = s.heapTop
  · omega
  · exact Nat.lt_succ_of_lt (hall w (by simpa [hn] using hw))

end InsertedAfter

/-! ## Splitting -/

theorem localMod_eq_one {a b : U32} (h : 0 < a) : Vad.localMod a b = 1 :=
  if_pos (subtractWhileAbove_pos h)

/-- A split leaves at least one byte more than `size`, and at most a page more. -/
theorem pagesOf_bounds {size : U32} (h0 : size ≠ 0) (h : size.toNat + pageSize < 2 ^ 32) :
    size.toNat < (pagesOf size).toNat ∧ (pagesOf size).toNat ≤ size.toNat + pageSize := by
  have hpos : 0 < size := BitVec.lt_def.mpr (by
    have : size.toNat ≠ 0 := fun h' => h0 (BitVec.eq_of_toNat_eq h')
    exact Nat.pos_of_ne_zero this)
  rw [pagesOf, localMod_eq_one hpos, BitVec.toNat_ofNat]
  unfold pageSize at h ⊢
  omega

theorem pagesOf_aligned (size : U32) : (pagesOf size).toNat % pageSize = 0 := by
  rw [pagesOf, BitVec.toNat_ofNat]
  unfold pageSize
  omega

/-- The numbers of a split: `mid` is where the first vad ends. -/
theorem split_mid {base limit size : U32} (h0 : size ≠ 0) (hlt : base < limit)
    (hsize : size ≤ limit - base) (hdelta : vadMinimumDelta < limit - base - size) :
    base < base + pagesOf size ∧ base + pagesOf size < limit ∧
    limit - base - pagesOf size ≠ 0 := by
  have hsub : (limit - base).toNat = limit.toNat - base.toNat :=
    BitVec.toNat_sub_of_le (BitVec.le_of_lt hlt)
  have hsub' : (limit - base - size).toNat = limit.toNat - base.toNat - size.toNat := by
    rw [BitVec.toNat_sub_of_le hsize, hsub]
  have hdelta : 4096 < limit.toNat - base.toNat - size.toNat := by
    rw [BitVec.lt_def, hsub'] at hdelta
    exact hdelta
  rw [BitVec.lt_def] at hlt
  have hlimit := limit.isLt
  obtain ⟨hp, hp'⟩ := pagesOf_bounds h0 (by unfold pageSize; omega)
  unfold pageSize at hp'
  have hadd : (base + pagesOf size).toNat = base.toNat + (pagesOf size).toNat := by
    rw [BitVec.toNat_add]
    exact Nat.mod_eq_of_lt (by omega)
  refine ⟨?_, ?_, ?_⟩
  · rw [BitVec.lt_def]
    omega
  · rw [BitVec.lt_def]
    omega
  · intro hz
    have hle : pagesOf size ≤ limit - base := by
      rw [BitVec.le_def]
      omega
    have := congrArg BitVec.toNat hz
    rw [BitVec.toNat_sub_of_le hle, hsub] at this
    have hzero : (0 : U32).toNat = 0 := rfl
    omega

theorem create_spec (s : VadMem) {baseAddress size : U32} (hb : baseAddress ≠ 0) (hs : size ≠ 0)
    (free : Bool) :
    s.create baseAddress size free = (.statusSuccess, some s.heapTop,
      { s with
        vads := Function.update s.vads s.heapTop
          ⟨baseAddress, baseAddress + size, size, free, none, none⟩
        heapTop := s.heapTop + 1 }) := by
  rw [create, if_neg hb, if_neg hs]

/-- `Split` with at least a page to spare, where something is left for the new vad. -/
theorem split_eq {size : U32} (h0 : size ≠ 0) (hsize : size ≤ (s.vads v).size)
    (hdelta : ¬ (s.vads v).size - size < vadMinimumDelta)
    (hbase : (s.vads v).baseAddress + pagesOf size ≠ 0)
    (hrest : (s.vads v).size - pagesOf size ≠ 0) (hne : v ≠ s.heapTop) :
    ∃ s', s.split v size = (.statusSuccess, s') ∧
      s'.vads = Function.update (Function.update s.vads s.heapTop
        ⟨(s.vads v).baseAddress + pagesOf size,
          (s.vads v).baseAddress + pagesOf size + ((s.vads v).size - pagesOf size),
          (s.vads v).size - pagesOf size, true, some v, none⟩) v
        { s.vads v with
          limitAddress := (s.vads v).baseAddress + pagesOf size, size := pagesOf size,
          next := some s.heapTop } ∧
      s'.heapTop = s.heapTop + 1 ∧ s'.mem = s.mem := by
  simp only [split, h0, BitVec.not_lt.mpr hsize, hdelta, s.create_spec hbase hrest true, if_false]
  refine ⟨_, rfl, ?_⟩
  simp [store, setPreviousIf, VadMem.next, hne]

/-- What `Split` does with a vad that is more than a page too large. -/
theorem split_spec {size : U32} (h0 : size ≠ 0) (hsize : size ≤ (s.vads v).size)
    (hdelta : vadMinimumDelta < (s.vads v).size - size)
    (hv : (s.vads v).size = (s.vads v).limitAddress - (s.vads v).baseAddress)
    (hlt : (s.vads v).baseAddress < (s.vads v).limitAddress) (hne : v ≠ s.heapTop) :
    ∃ s' mid, s.split v size = (.statusSuccess, s') ∧
      mid = (s.vads v).baseAddress + pagesOf size ∧ mid < (s.vads v).limitAddress ∧
      (s.vads v).baseAddress < mid ∧
      s'.vads s.heapTop =
        { baseAddress := mid, limitAddress := (s.vads v).limitAddress,
          size := (s.vads v).limitAddress - mid, free := true, previous := some v,
          next := none } ∧
      s'.vads v =
        { s.vads v with
          limitAddress := mid, size := mid - (s.vads v).baseAddress, next := some s.heapTop } ∧
      (∀ w, w ≠ v → w ≠ s.heapTop → s'.vads w = s.vads w) ∧
      s'.heapTop = s.heapTop + 1 ∧ s'.mem = s.mem := by
  have hdelta' : ¬ (s.vads v).size - size < vadMinimumDelta :=
    BitVec.not_lt.mpr (BitVec.le_of_lt hdelta)
  obtain ⟨h1, h2, h4⟩ := split_mid h0 hlt (hv ▸ hsize) (hv ▸ hdelta)
  have hbase : (s.vads v).baseAddress + pagesOf size ≠ 0 := by
    intro hz
    rw [hz] at h1
    exact BitVec.not_lt_zero h1
  have hlimit (base limit p : U32) : base + p + (limit - base - p) = limit := by grind
  have hrest (base limit p : U32) : limit - base - p = limit - (base + p) := by grind
  have hpages (base p : U32) : base + p - base = p := by grind
  obtain ⟨s', hs', hvads, htop, hmem⟩ :=
    split_eq h0 hsize hdelta' hbase (by rwa [hv]) hne
  rw [hv, hlimit] at hvads
  refine ⟨s', _, hs', rfl, h2, h1, ?_, ?_, ?_, htop, hmem⟩
  · rw [hvads, Function.update_of_ne hne.symm, Function.update_self, hrest]
  · rw [hvads, Function.update_self, hpages]
  · intro w hw hn
    rw [hvads, Function.update_of_ne hw, Function.update_of_ne hn]

/-- Splitting the last vad inserts a vad after it. -/
theorem split_last {size : U32} (h0 : size ≠ 0) (hsize : size ≤ (s.vads v).size)
    (hdelta : vadMinimumDelta < (s.vads v).size - size)
    (hv : (s.vads v).size = (s.vads v).limitAddress - (s.vads v).baseAddress)
    (hlt : (s.vads v).baseAddress < (s.vads v).limitAddress) (hne : v ≠ s.heapTop)
    (hlast : s.next v = none) :
    ∃ s' mid, s.split v size = (.statusSuccess, s') ∧ InsertedAfter s s' v mid ∧
      mid = (s.vads v).baseAddress + pagesOf size ∧
      (s.vads v).baseAddress < mid ∧ mid < (s.vads v).limitAddress := by
  obtain ⟨s', mid, hs', hmid, h2, h3, hnew, hthis, hframe, htop, hmem⟩ :=
    split_spec h0 hsize hdelta hv hlt hne
  refine ⟨s', mid, hs', ⟨?_, hthis, ?_, fun w hw hn _ => hframe w hw hn, htop, hmem⟩, hmid, h3, h2⟩
  · rw [hnew, show (s.vads v).next = none from hlast]
  · intro w hw
    rw [hlast] at hw
    cases hw

/-- The first part of `SplitAtAddress` inserts a vad that starts at the address, whatever
follows `v`; the address need not be inside of `v`. -/
theorem splitInside_inserts {size : U32} (hsize : size ≤ (s.vads v).limitAddress - address)
    (hv : (s.vads v).size = (s.vads v).limitAddress - (s.vads v).baseAddress) (ha : address ≠ 0)
    (hsub : (s.vads v).limitAddress - address ≠ 0) (hne : v ≠ s.heapTop)
    (hloop : s.next v ≠ some v) (hfresh : s.next v ≠ some s.heapTop) :
    ∃ s', InsertedAfter s s' v address ∧
      s.splitInside v address size =
        if vadMinimumDelta < (s'.vads s.heapTop).size - size then s'.split s.heapTop size
        else (.statusSuccess, s') := by
  have hlimit (limit : U32) : address + (limit - address) = limit := by grind
  have hmid (limit : U32) : limit - (limit - address) = address := by grind
  have hrest (base limit : U32) : limit - base - (limit - address) = address - base := by grind
  have hcreate := s.create_spec ha hsub true
  rw [hlimit] at hcreate
  simp only [splitInside, BitVec.not_lt.mpr hsize, hcreate, if_false]
  refine ⟨_, ?_, rfl⟩
  cases hw : (s.vads v).next with
  | none =>
    constructor
    · simp [store, setPreviousIf, VadMem.next, hw, hne, hne.symm]
    · simp [store, setPreviousIf, VadMem.next, hw, hne, hv, hmid, hrest]
    · simp [VadMem.next, hw]
    · intro x hx hxn _
      simp [store, setPreviousIf, VadMem.next, hw, hne, hx, hxn]
    · simp [store, setPreviousIf, VadMem.next, hw, hne]
    · simp [store, setPreviousIf, VadMem.next, hw, hne]
  | some w =>
    have hwv : w ≠ v := by
      rintro rfl
      exact hloop hw
    have hwn : w ≠ s.heapTop := by
      rintro rfl
      exact hfresh hw
    constructor
    · simp [store, setPreviousIf, VadMem.next, hw, hne, hne.symm, hwn.symm]
    · simp [store, setPreviousIf, VadMem.next, hw, hne, hv, hmid, hrest, hwv.symm]
    · intro x hx
      obtain rfl : w = x := by simpa [VadMem.next, hw] using hx
      simp [store, setPreviousIf, VadMem.next, hw, hne, hwv, hwn]
    · intro x hx hxn hxw
      have hxw' : x ≠ w := fun h => hxw (by rw [VadMem.next, hw, h])
      simp [store, setPreviousIf, VadMem.next, hw, hne, hx, hxn, hxw']
    · simp [store, setPreviousIf, VadMem.next, hw, hne]
    · simp [store, setPreviousIf, VadMem.next, hw, hne]

/-- The same for an address inside of `v`. -/
theorem splitInside_spec {size : U32} (hsize : size ≤ (s.vads v).limitAddress - address)
    (hv : (s.vads v).size = (s.vads v).limitAddress - (s.vads v).baseAddress)
    (hlo : (s.vads v).baseAddress < address) (hhi : address < (s.vads v).limitAddress)
    (hne : v ≠ s.heapTop) (hloop : s.next v ≠ some v) (hfresh : s.next v ≠ some s.heapTop) :
    ∃ s', InsertedAfter s s' v address ∧
      s.splitInside v address size =
        if vadMinimumDelta < (s'.vads s.heapTop).size - size then s'.split s.heapTop size
        else (.statusSuccess, s') := by
  have ha : address ≠ 0 := by
    rintro rfl
    exact BitVec.not_lt_zero hlo
  have hsub : (s.vads v).limitAddress - address ≠ 0 := by
    intro hz
    have hle := BitVec.le_of_lt hhi
    have := congrArg BitVec.toNat hz
    rw [BitVec.toNat_sub_of_le hle] at this
    have hzero : (0 : U32).toNat = 0 := rfl
    rw [BitVec.lt_def] at hhi
    omega
  exact splitInside_inserts hsize hv ha hsub hne hloop hfresh

end VadMem

end LtMicros
