import LtMicros.VadPartition

/-!
# The two allocation calls of a process

What `Allocate` and `AllocateAtAddress` leave of a partition.
-/

namespace LtMicros

open Lib

namespace VadMem

variable {s s' s'' : VadMem} {head v w : ℕ} {l l' l₁ l₂ : List ℕ} {address : U32}

/-! ## The vads of a partition -/

theorem Partition.lt (h : Partition s head l) (hv : v ∈ l) :
    (s.vads v).baseAddress < (s.vads v).limitAddress :=
  (h.tiles.mem_bounds hv).2.1

theorem Partition.next_ne (h : Partition s head l) (hall : Allocated s l) (hv : v ∈ l) :
    s.next v ≠ some v ∧ s.next v ≠ some s.heapTop := by
  refine ⟨fun hn => ?_, fun hn => ?_⟩
  · obtain ⟨l₁, l₂, rfl⟩ := List.append_of_mem hv
    have hchain := (Seg.mid_iff.mp h.chain).2
    obtain ⟨rest, rfl, -⟩ := hchain.chain_cons hn
    have := (List.nodup_append.mp h.chain.nodup).2.1
    exact (List.nodup_cons.mp this).1 List.mem_cons_self
  · exact Nat.lt_irrefl _ (hall _ (h.chain.next_mem hv hn))

/-- `s'` is a partition too, and every vad of `l` but `v` is still in the list
with its ends. -/
structure Carves (s s' : VadMem) (head : ℕ) (l l' : List ℕ) (v : ℕ) : Prop where
  partition : Partition s' head l'
  allocated : Allocated s' l'
  keeps : ∀ w ∈ l, w ≠ v → w ∈ l' ∧ Keeps s s' w

theorem Carves.refl (h : Partition s head l) (hall : Allocated s l) (v : ℕ) :
    Carves s s head l l v :=
  ⟨h, hall, fun _ hw _ => ⟨hw, _, rfl⟩⟩

theorem InsertedAfter.carves {mid : U32} (hins : InsertedAfter s s' v mid)
    (h : Partition s head (l₁ ++ v :: l₂)) (hall : Allocated s (l₁ ++ v :: l₂))
    (hlo : (s.vads v).baseAddress < mid) (hhi : mid < (s.vads v).limitAddress) :
    Carves s s' head (l₁ ++ v :: l₂) (l₁ ++ v :: s.heapTop :: l₂) v := by
  refine ⟨hins.partition h hall hlo hhi, hins.allocated hall, fun w hw hv => ⟨?_, ?_⟩⟩
  · simp only [List.mem_append, List.mem_cons] at hw ⊢
    tauto
  · exact hins.keeps hv (Nat.ne_of_lt (hall w hw))

/-- A second split, of the vad that the first one made. -/
theorem Carves.trans (h : Carves s s' head l l' v) (h' : Carves s' s'' head l' l₂ w)
    (hw : w ∉ l) : Carves s s'' head l l₂ v := by
  refine ⟨h'.partition, h'.allocated, fun x hx hv => ?_⟩
  obtain ⟨hx', hk⟩ := h.keeps x hx hv
  obtain ⟨hx'', hk'⟩ := h'.keeps x hx' (ne_of_mem_of_not_mem hx hw)
  obtain ⟨_, hk⟩ := hk
  obtain ⟨_, hk'⟩ := hk'
  exact ⟨hx'', _, by rw [hk', hk]⟩

/-- `Split` of the last vad of the list. -/
theorem Partition.split {size : U32} (h : Partition s head (l₁ ++ v :: l₂))
    (hall : Allocated s (l₁ ++ v :: l₂)) (h0 : size ≠ 0) (hsize : size ≤ (s.vads v).size)
    (hdelta : vadMinimumDelta < (s.vads v).size - size) (hlast : s.next v = none) :
    ∃ s', s.split v size = (.statusSuccess, s') ∧
      Carves s s' head (l₁ ++ v :: l₂) (l₁ ++ v :: s.heapTop :: l₂) v ∧
      (s'.vads v).baseAddress = (s.vads v).baseAddress ∧
      (s'.vads v).limitAddress = (s.vads v).baseAddress + pagesOf size ∧ s'.mem = s.mem := by
  have hv : v ∈ l₁ ++ v :: l₂ := by simp
  obtain ⟨s', mid, hs', hins, hmid, hlo, hhi⟩ := split_last h0 hsize hdelta (h.size v hv) (h.lt hv)
    (Nat.ne_of_lt (hall v hv)) hlast
  exact ⟨s', hs', hins.carves h hall hlo hhi, by rw [hins.this], by rw [hins.this, hmid], hins.mem⟩

/-- The part of `SplitAtAddress` for an address inside `v`: the vad that starts
at the address is the one after `v`. -/
theorem Partition.splitInside (h : Partition s head (l₁ ++ v :: l₂)) (address size : U32)
    (hall : Allocated s (l₁ ++ v :: l₂)) (h0 : size ≠ 0)
    (hsize : size ≤ (s.vads v).limitAddress - address)
    (hlo : (s.vads v).baseAddress < address) (hhi : address < (s.vads v).limitAddress)
    (hlast : vadMinimumDelta < (s.vads v).limitAddress - address - size → s.next v = none) :
    ∃ s' l', s.splitInside v address size = (.statusSuccess, s') ∧
      Carves s s' head (l₁ ++ v :: l₂) l' v ∧ s.heapTop ∈ l' ∧ s'.mem = s.mem ∧
      (vadMinimumDelta < (s.vads v).limitAddress - address - size →
        (s'.vads s.heapTop).limitAddress = address + pagesOf size) ∧
      ∃ previous, s'.vads v =
        { s.vads v with
          limitAddress := address, size := address - (s.vads v).baseAddress,
          next := some s.heapTop, previous } := by
  have hv : v ∈ l₁ ++ v :: l₂ := by simp
  obtain ⟨hloop, hfresh⟩ := h.next_ne hall hv
  have hne := Nat.ne_of_lt (hall v hv)
  obtain ⟨s', hins, heq⟩ := splitInside_spec hsize (h.size v hv) hlo hhi hne hloop hfresh
  have hcarves := hins.carves h hall hlo hhi
  rw [heq]
  split
  · rename_i hdelta
    -- the new vad is split again, so it must be the last one
    have hnew : (s'.vads s.heapTop).size = (s.vads v).limitAddress - address := by rw [hins.new]
    have hlast' : s'.next s.heapTop = none := by
      rw [next, hins.new]
      exact hlast (hnew ▸ hdelta)
    have hassoc : l₁ ++ v :: s.heapTop :: l₂ = (l₁ ++ [v]) ++ s.heapTop :: l₂ := by simp
    have hpart := hcarves.partition
    have hall' := hcarves.allocated
    rw [hassoc] at hpart hall'
    obtain ⟨s'', hs'', hcarves', -, hlimit, hmem⟩ := hpart.split hall' h0 (hnew ▸ hsize) hdelta hlast'
    rw [← hassoc] at hcarves'
    obtain ⟨-, previous, hk⟩ := hcarves'.keeps v (by simp) hne
    refine ⟨s'', _, hs'', hcarves.trans hcarves' ?_, by simp, hmem.trans hins.mem, fun _ => ?_,
      previous, ?_⟩
    · exact fun hmem => Nat.lt_irrefl _ (hall _ hmem)
    · rw [hlimit, hins.new]
    · rw [hk, hins.this]
  · rename_i hdelta
    rw [hins.new] at hdelta
    exact ⟨s', _, rfl, hcarves, by simp, hins.mem, fun hd => absurd hd hdelta, _, hins.this⟩

/-! ## Reserving -/

/-- Only `free` of the vads changes, and only from true to false. -/
theorem reserveAndReturn_spec {fuel : ℕ} {pageDirectory : U32} {reserve : Bool}
    {status : KeStatus} {out : Option ℕ}
    (h : s.reserveAndReturn fuel v pageDirectory reserve = .ret (status, out, s')) :
    s'.heapTop = s.heapTop ∧
    (∀ w, s'.vads w = { s.vads w with free := (s'.vads w).free }) ∧
    (∀ w, (s.vads w).free = false → (s'.vads w).free = false) ∧
    ∀ w, out = some w → w = v ∧ (s'.vads w).free = false := by
  obtain ⟨⟨st, s₁⟩, hr, h⟩ := Outcome.bind_eq_ret.mp h
  obtain ⟨⟨st', k⟩, -, hr⟩ := Outcome.bind_eq_ret.mp hr
  by_cases hst : st' = .statusSuccess
  · subst hst
    cases hr
    cases h
    refine ⟨rfl, fun w => ?_, fun w hw => ?_, fun w hw => ?_⟩
    · by_cases hwv : w = v
      · subst hwv
        simp [store]
      · simp [store, Function.update_of_ne hwv]
    · by_cases hwv : w = v
      · subst hwv
        simp [store]
      · simpa [store, Function.update_of_ne hwv] using hw
    · cases hw
      simp [store]
  · have hs₁ : st ≠ .statusSuccess ∧ s₁.vads = s.vads ∧ s₁.heapTop = s.heapTop := by
      cases st' <;> first | exact absurd rfl hst | (cases hr; simp)
    obtain ⟨hst, hvads, htop⟩ := hs₁
    have h' : out = none ∧ s' = s₁ := by
      cases st <;> first | exact absurd rfl hst | (cases h; simp)
    obtain ⟨rfl, rfl⟩ := h'
    exact ⟨htop, fun w => by rw [hvads], fun w hw => by rwa [hvads], fun w hw => by cases hw⟩

/-- A partition does not depend on which vads are free. -/
theorem Partition.of_free (h : Partition s head l)
    (hsame : ∀ w, s'.vads w = { s.vads w with free := (s'.vads w).free }) :
    Partition s' head l := by
  constructor
  · exact (Seg.congr fun w _ => by rw [next, next, hsame]).mp h.chain
  · exact (Tiles.congr (fun w _ => by rw [lo, lo, hsame]) fun w _ => by rw [hi, hi, hsame]).mp
      h.tiles
  · intro w hw
    rw [hsame]
    exact h.size w hw
  · intro w hw x hx
    rw [next, hsame] at hx
    rw [hsame]
    exact h.previous w hw x hx

/-! ## Searching -/

theorem lookForFree_loop (h : Chain s.next (some head) l) (size : U32) {fuel : ℕ}
    (hfuel : l.length < fuel) :
    Outcome.loop (s.lookForFreeTurn size) fuel (some head) =
      (l.find? (s.fits size)).elim (.ret none) fun v => .ret (some v) :=
  h.loop_search (fun v hv => by simp [lookForFreeTurn, hv])
    (fun v hv => by simp [lookForFreeTurn, hv]) rfl hfuel

/-- The first vad that is free and large enough. -/
theorem lookForFree_spec {size : U32} {fuel : ℕ} {r : KeStatus × Option ℕ}
    (h : Chain s.next (some head) l) (h0 : size ≠ 0)
    (hr : s.lookForFreeVadOfMinimumSize fuel head size = .ret r) :
    r = (l.find? (s.fits size)).elim (.statusNotFound, none) fun v =>
      (.statusSuccess, some v) := by
  rw [lookForFreeVadOfMinimumSize, if_neg h0] at hr
  obtain ⟨found, hfound, hr⟩ := Outcome.bind_eq_ret.mp hr
  have hsearch := lookForFree_loop h size (Nat.lt_succ_self l.length)
  cases hf : l.find? (s.fits size) with
  | none =>
    rw [hf] at hsearch
    cases Outcome.loop_unique hfound hsearch
    cases hr
    rfl
  | some v =>
    rw [hf] at hsearch
    cases Outcome.loop_unique hfound hsearch
    cases hr
    rfl

/-- The vad that holds an address. -/
theorem lookForVad_spec (h : Chain s.next (some head) l) (h0 : address ≠ 0) {fuel : ℕ}
    (hfuel : l.length < fuel) :
    s.lookForVadFromAddress fuel head address =
      .ret ((l.find? (s.contains address)).elim (.statusNotFound, none) fun v =>
        (.statusSuccess, some v)) := by
  have hsearch : Outcome.loop (s.lookForVadTurn address) fuel (some head) =
      (l.find? (s.contains address)).elim (.ret none) fun v => .ret (some v) :=
    h.loop_search (fun v hv => by simp [lookForVadTurn, hv])
      (fun v hv => by simp [lookForVadTurn, hv]) rfl hfuel
  rw [lookForVadFromAddress, if_neg h0, hsearch]
  cases l.find? (s.contains address) <;> rfl

/-- The vads, after the first, at which the search for an address ends. -/
def stopsAt (s : VadMem) (address size : U32) (v : ℕ) : Bool :=
  s.contains address v || s.fits size v

/-- What the search for an address answers at the vad that holds it. -/
def answerAt (s : VadMem) (address size : U32) (v : ℕ) : KeStatus × Option ℕ :=
  if (s.vads v).free = false ∨ (s.vads v).limitAddress - address < size then
    (.statusNotFound, none)
  else (.statusSuccess, some v)

/-- The search for an address, at the vad that holds it. -/
theorem lookForFreeAtTurn_contains {size : U32} (hv : s.contains address v = true) :
    s.lookForFreeAtTurn address size v = .ret (.inr (s.answerAt address size v)) := by
  rw [lookForFreeAtTurn, if_pos hv]
  unfold answerAt
  split
  · rename_i h
    exact if_pos h
  · rename_i h
    exact if_neg h

/-- The search for an address, at a vad that does not hold it. -/
theorem lookForFreeAt_skip {size : U32} (h : Chain s.next (s.next v) l)
    (hv : s.contains address v = false) {fuel : ℕ} (hfuel : l.length < fuel) :
    Outcome.loop (s.lookForFreeAtTurn address size) fuel v =
      .ret ((l.find? (s.stopsAt address size)).elim (.statusNotFound, none) fun w =>
        if s.fits size w then (.statusSuccess, some w) else s.answerAt address size w) := by
  induction l generalizing v fuel with
  | nil =>
    obtain ⟨n, rfl⟩ := Nat.exists_eq_add_of_lt hfuel
    have hn : s.next v = none := h
    exact Outcome.loop_leave (by simp [lookForFreeAtTurn, hv, hn]) _
  | cons w l ih =>
    obtain ⟨hn, hl⟩ := h
    obtain ⟨n, rfl⟩ : ∃ n, fuel = n + 1 := ⟨fuel - 1, by omega⟩
    cases hf : s.fits size w with
    | true =>
      rw [Outcome.loop_leave (b := (.statusSuccess, some w))
        (by simp [lookForFreeAtTurn, hv, hn, hf])]
      rw [List.find?_cons_of_pos (by simp [stopsAt, hf])]
      simp [hf]
    | false =>
      have hturn : s.lookForFreeAtTurn address size v = .ret (.inl w) := by
        simp [lookForFreeAtTurn, hv, hn, hf]
      rw [Outcome.loop_again hturn]
      cases hc : s.contains address w with
      | true =>
        obtain ⟨m, rfl⟩ : ∃ m, n = m + 1 := ⟨n - 1, by simp at hfuel; omega⟩
        rw [Outcome.loop_leave (lookForFreeAtTurn_contains hc),
          List.find?_cons_of_pos (by simp [stopsAt, hc])]
        simp [hf]
      | false =>
        rw [List.find?_cons_of_neg (by simp [stopsAt, hf, hc])]
        exact ih hl hc (by simpa using hfuel)

/-- What the search for an address answers, along the whole list. -/
theorem lookForFreeAt_spec {size : U32} {fuel : ℕ} {r : KeStatus × Option ℕ}
    (h : Chain s.next (some head) (head :: l)) (h0 : size ≠ 0) (ha : address ≠ 0)
    (hr : s.lookForFreeVadAtAddressOfMinimumSize fuel head address size = .ret r) :
    r = if s.contains address head then s.answerAt address size head
      else (l.find? (s.stopsAt address size)).elim (.statusNotFound, none) fun w =>
        if s.fits size w then (.statusSuccess, some w) else s.answerAt address size w := by
  rw [lookForFreeVadAtAddressOfMinimumSize, if_neg ha, if_neg h0] at hr
  cases hc : s.contains address head with
  | true =>
    exact Outcome.loop_unique hr (Outcome.loop_leave (lookForFreeAtTurn_contains hc) 0)
  | false => exact Outcome.loop_unique hr (lookForFreeAt_skip h.2 hc (Nat.lt_succ_self _))

/-! ## The two calls -/

/-- What a call leaves of a partition: a partition, with the used vads of before
and the vad that the call returns. -/
structure Preserves (s s' : VadMem) (head : ℕ) (l l' : List ℕ) (out : Option ℕ) : Prop where
  partition : Partition s' head l'
  allocated : Allocated s' l'
  used : ∀ w ∈ l, (s.vads w).free = false → w ∈ l' ∧
    (s'.vads w).baseAddress = (s.vads w).baseAddress ∧
    (s'.vads w).limitAddress = (s.vads w).limitAddress ∧ (s'.vads w).free = false
  result : ∀ w, out = some w → w ∈ l' ∧ (s'.vads w).free = false

theorem Preserves.refl (h : Partition s head l) (hall : Allocated s l) :
    Preserves s s head l l none :=
  ⟨h, hall, fun _ hw hfree => ⟨hw, rfl, rfl, hfree⟩, fun _ hw => by cases hw⟩

/-- Carving a free vad and reserving one of the new list. -/
theorem Carves.reserve {s₁ : VadMem} {f fuel : ℕ} {pageDirectory : U32} {reserve : Bool}
    {status : KeStatus} {out : Option ℕ} (h : Carves s s₁ head l l' v)
    (hfree : (s.vads v).free = true) (hf : f ∈ l')
    (hr : s₁.reserveAndReturn fuel f pageDirectory reserve = .ret (status, out, s')) :
    Preserves s s' head l l' out := by
  obtain ⟨htop, hsame, hkeep, hout⟩ := reserveAndReturn_spec hr
  refine ⟨h.partition.of_free hsame, ?_, ?_, ?_⟩
  · intro w hw
    rw [htop]
    exact h.allocated w hw
  · intro w hw hwfree
    have hwv : w ≠ v := by
      rintro rfl
      rw [hfree] at hwfree
      cases hwfree
    obtain ⟨hw', _, hk⟩ := h.keeps w hw hwv
    refine ⟨hw', by rw [hsame, hk], by rw [hsame, hk], hkeep w ?_⟩
    rw [hk]
    exact hwfree
  · intro w hw
    obtain ⟨rfl, hwfree⟩ := hout w hw
    exact ⟨hf, hwfree⟩

/-! ### `Allocate` -/

/-- The condition on `Allocate`: when the first vad that fits is split, it is
the last vad of the list. -/
def SplitsLast (s : VadMem) (head : ℕ) (size : U32) : Prop :=
  ∀ l₁ v l₂, Chain s.next (some head) (l₁ ++ v :: l₂) → (∀ w ∈ l₁, s.fits size w = false) →
    s.fits size v = true → vadMinimumDelta < (s.vads v).size - size → s.next v = none

theorem fits_eq_true {size : U32} :
    s.fits size v = true ↔ size ≤ (s.vads v).size ∧ (s.vads v).free = true := by
  simp [fits]

theorem Partition.allocateFrom {size pageDirectory : U32} {reserve : Bool} {fuel : ℕ}
    {status : KeStatus} {out : Option ℕ} (h : Partition s head (l₁ ++ v :: l₂))
    (hall : Allocated s (l₁ ++ v :: l₂)) (h0 : size ≠ 0) (hfits : s.fits size v = true)
    (hlast : vadMinimumDelta < (s.vads v).size - size → s.next v = none)
    (hr : s.allocateFrom fuel v size pageDirectory reserve = .ret (status, out, s')) :
    ∃ l', Preserves s s' head (l₁ ++ v :: l₂) l' out := by
  obtain ⟨hsize, hfree⟩ := fits_eq_true.mp hfits
  unfold VadMem.allocateFrom at hr
  split at hr
  · rename_i hdelta
    obtain ⟨s₁, hs₁, hcarves, -⟩ := h.split hall h0 hsize hdelta (hlast hdelta)
    rw [hs₁] at hr
    exact ⟨_, hcarves.reserve hfree (by simp) hr⟩
  · exact ⟨_, (Carves.refl h hall v).reserve hfree (by simp) hr⟩

theorem Partition.allocate {size pageDirectory : U32} {reserve : Bool} {fuel : ℕ}
    {status : KeStatus} {out : Option ℕ} (h : Partition s head l) (hall : Allocated s l)
    (hguard : SplitsLast s head size)
    (hr : s.allocate fuel head size pageDirectory reserve = .ret (status, out, s')) :
    ∃ l', Preserves s s' head l l' out := by
  unfold VadMem.allocate at hr
  split at hr
  · cases hr
    exact ⟨l, .refl h hall⟩
  rename_i h0
  obtain ⟨r, hlook, hr⟩ := Outcome.bind_eq_ret.mp hr
  obtain rfl := lookForFree_spec h.chain h0 hlook
  cases hf : l.find? (s.fits size) with
  | none =>
    rw [hf] at hr
    cases hr
    exact ⟨l, .refl h hall⟩
  | some v =>
    rw [hf] at hr
    obtain ⟨hfits, l₁, l₂, rfl, hbefore⟩ := List.find?_eq_some_iff_append.mp hf
    have hlast := hguard l₁ v l₂ h.chain (fun w hw => by simpa using hbefore w hw) hfits
    exact h.allocateFrom hall h0 hfits hlast hr

/-! ### `AllocateAtAddress` -/

/-- The condition on `AllocateAtAddress`, where `v` is the vad at which the
search ends: it holds the address and, when something is split off behind the
asked pages, it is the last vad; or it is too small to be split at all. -/
def FindsAddress (s : VadMem) (head : ℕ) (address size : U32) : Prop :=
  ∀ l₁ v l₂, Chain s.next (some head) (l₁ ++ v :: l₂) →
    (∀ w ∈ l₁, s.contains address w = false ∧ (w ≠ head → s.fits size w = false)) →
    s.contains address v = true ∨ v ≠ head ∧ s.fits size v = true →
    (s.contains address v = true →
      (s.vads v).free = true → size ≤ (s.vads v).limitAddress - address →
      vadMinimumDelta < (s.vads v).limitAddress - address - size → s.next v = none) ∧
    (s.contains address v = false → (s.vads v).size - size < vadMinimumDelta)

/-- A vad that does not hold the address, or has no room for the asked pages
after it, is not split. -/
theorem splitAtAddress_fails {size : U32} (h0 : size ≠ 0) (ha : address ≠ 0)
    (hb : (s.vads v).baseAddress ≠ address)
    (h : (s.vads v).size - size < vadMinimumDelta ∨ (s.vads v).limitAddress - address < size) :
    ∃ status, s.splitAtAddress v address size = (status, s) ∧ failed status = true := by
  unfold splitAtAddress
  rw [if_neg ha, if_neg h0]
  split
  · exact ⟨_, rfl, rfl⟩
  split
  · exact ⟨_, rfl, rfl⟩
  rename_i hdelta
  unfold VadMem.splitInside
  rw [if_pos (h.resolve_left hdelta)]
  exact ⟨_, rfl, rfl⟩

theorem splitAtAddress_eq {size : U32} (h0 : size ≠ 0) (ha : address ≠ 0)
    (hsize : size ≤ (s.vads v).size) (hdelta : ¬ (s.vads v).size - size < vadMinimumDelta) :
    s.splitAtAddress v address size =
      if (s.vads v).baseAddress ≠ address then s.splitInside v address size
      else s.split v size := by
  rw [splitAtAddress, if_neg ha, if_neg h0, if_neg (BitVec.not_lt.mpr hsize), if_neg hdelta]

theorem contains_eq_true : s.contains address v = true ↔
    (s.vads v).baseAddress ≤ address ∧ address < (s.vads v).limitAddress := by
  simp [contains]

/-- `AllocateAtAddress` from a free vad that holds the address. -/
theorem Partition.allocateAtAddressFrom {size pageDirectory : U32} {reserve : Bool} {fuel : ℕ}
    {status : KeStatus} {out : Option ℕ} (h : Partition s head (l₁ ++ v :: l₂))
    (hall : Allocated s (l₁ ++ v :: l₂)) (h0 : size ≠ 0) (ha : address ≠ 0)
    (hfits : s.fits size v = true) (hc : s.contains address v = true)
    (hlast : size ≤ (s.vads v).limitAddress - address →
      vadMinimumDelta < (s.vads v).limitAddress - address - size → s.next v = none)
    (hr : s.allocateAtAddressFrom fuel v address size pageDirectory reserve =
      .ret (status, out, s')) :
    ∃ l', Preserves s s' head (l₁ ++ v :: l₂) l' out := by
  obtain ⟨hsize, hfree⟩ := fits_eq_true.mp hfits
  obtain ⟨hle, hlt⟩ := contains_eq_true.mp hc
  have hv : v ∈ l₁ ++ v :: l₂ := by simp
  have hvsize := h.size v hv
  unfold VadMem.allocateAtAddressFrom at hr
  split at hr
  · rename_i hsplit
    by_cases hb : (s.vads v).baseAddress = address
    · -- a normal split
      have hdelta := hsplit.resolve_left (fun hne => hne hb)
      subst hb
      rw [hvsize] at hsize hdelta
      obtain ⟨s₁, hs₁, hcarves, hbase, -, -⟩ := h.split hall h0 (hvsize ▸ hsize) (hvsize ▸ hdelta)
        (hlast hsize hdelta)
      rw [splitAtAddress_eq h0 ha (hvsize ▸ hsize)
        (hvsize ▸ BitVec.not_lt.mpr (BitVec.le_of_lt hdelta)), if_neg (not_not.mpr rfl), hs₁] at hr
      simp only [failed, hbase] at hr
      rw [if_neg (by simp), if_neg (not_not.mpr rfl)] at hr
      exact ⟨_, hcarves.reserve hfree (by simp) hr⟩
    by_cases hfail : (s.vads v).size - size < vadMinimumDelta ∨
        (s.vads v).limitAddress - address < size
    · obtain ⟨st, hst, hf⟩ := splitAtAddress_fails h0 ha hb hfail
      rw [hst] at hr
      simp only [hf, if_true] at hr
      cases hr
      exact ⟨_, .refl h hall⟩
    · obtain ⟨hdelta, hroom⟩ := not_or.mp hfail
      have hroom := BitVec.not_lt.mp hroom
      have hlo : (s.vads v).baseAddress < address := BitVec.lt_of_le_ne hle hb
      obtain ⟨s₁, l', hs₁, hcarves, hnew, -, -, previous, hthis⟩ := h.splitInside address size hall h0
        hroom hlo hlt (hlast hroom)
      have hbase : (s₁.vads v).baseAddress = (s.vads v).baseAddress := by rw [hthis]
      have hnext : s₁.next v = some s.heapTop := by rw [next, hthis]
      rw [splitAtAddress_eq h0 ha hsize hdelta, if_pos hb, hs₁] at hr
      simp only [failed, hbase, hnext, Outcome.ofOption_some, Outcome.ret_bind] at hr
      rw [if_neg (by simp), if_pos hb] at hr
      exact ⟨l', hcarves.reserve hfree hnew hr⟩
  · exact ⟨_, (Carves.refl h hall v).reserve hfree (by simp) hr⟩

/-- `Allocate` when the first vad fits. -/
theorem allocate_head {size pageDirectory : U32} {reserve : Bool} (n : ℕ) (h0 : size ≠ 0)
    (hfits : s.fits size head = true) :
    s.allocate (n + 1) head size pageDirectory reserve =
      s.allocateFrom (n + 1) head size pageDirectory reserve := by
  have hloop : Outcome.loop (s.lookForFreeTurn size) (n + 1) (some head) = .ret (some head) :=
    Outcome.loop_leave (by simp [lookForFreeTurn, hfits]) n
  rw [VadMem.allocate, if_neg h0, lookForFreeVadOfMinimumSize, if_neg h0, hloop]
  rfl

/-- `AllocateAtAddress` when the first vad holds the address and the room. -/
theorem allocateAtAddress_head {size pageDirectory : U32} {reserve : Bool} (n : ℕ)
    (ha : address ≠ 0) (h0 : size ≠ 0) (hc : s.contains address head = true)
    (hans : s.answerAt address size head = (.statusSuccess, some head)) :
    s.allocateAtAddress (n + 1) head address size pageDirectory reserve =
      s.allocateAtAddressFrom (n + 1) head address size pageDirectory reserve := by
  have hloop : Outcome.loop (s.lookForFreeAtTurn address size) (n + 1) head =
      .ret (.statusSuccess, some head) :=
    Outcome.loop_leave (by rw [lookForFreeAtTurn_contains hc, hans]) n
  rw [VadMem.allocateAtAddress, if_neg ha, if_neg h0, lookForFreeVadAtAddressOfMinimumSize,
    if_neg ha, if_neg h0, hloop]
  rfl

/-- The room after an address is at most the size of the vad that holds it. -/
theorem Partition.room_le (h : Partition s head l) (hv : v ∈ l)
    (hc : s.contains address v = true) :
    (s.vads v).limitAddress - address ≤ (s.vads v).size := by
  obtain ⟨hle, hlt⟩ := contains_eq_true.mp hc
  rw [h.size v hv, BitVec.le_def, BitVec.toNat_sub_of_le (BitVec.le_of_lt hlt),
    BitVec.toNat_sub_of_le (BitVec.le_of_lt (h.lt hv))]
  rw [BitVec.le_def] at hle
  omega

/-- `AllocateAtAddress` from a vad that does not hold the address changes no vad
when there is less than a page to spare. -/
theorem Partition.allocateAtAddressFrom_fails {size pageDirectory : U32} {reserve : Bool}
    {fuel : ℕ} {status : KeStatus} {out : Option ℕ} (h : Partition s head l) (hv : v ∈ l)
    (h0 : size ≠ 0) (ha : address ≠ 0) (hc : s.contains address v = false)
    (hsmall : (s.vads v).size - size < vadMinimumDelta)
    (hr : s.allocateAtAddressFrom fuel v address size pageDirectory reserve =
      .ret (status, out, s')) : out = none ∧ s' = s := by
  have hb : (s.vads v).baseAddress ≠ address := by
    rintro rfl
    rw [contains_eq_true.mpr ⟨BitVec.le_refl _, h.lt hv⟩] at hc
    cases hc
  obtain ⟨st, hst, hf⟩ := splitAtAddress_fails h0 ha hb (.inl hsmall)
  rw [VadMem.allocateAtAddressFrom, if_pos (.inl hb), hst] at hr
  simp only [hf, if_true] at hr
  cases hr
  exact ⟨rfl, rfl⟩

theorem answerAt_eq (s : VadMem) (address size : U32) (v : ℕ) :
    s.answerAt address size v = (.statusNotFound, none) ∨
    s.answerAt address size v = (.statusSuccess, some v) ∧ (s.vads v).free = true ∧
      size ≤ (s.vads v).limitAddress - address := by
  unfold answerAt
  split
  · exact .inl rfl
  · rename_i hno
    obtain ⟨hfree, hroom⟩ := not_or.mp hno
    exact .inr ⟨rfl, by simpa using hfree, BitVec.not_lt.mp hroom⟩

theorem Partition.allocateAtAddress {size pageDirectory : U32} {reserve : Bool} {fuel : ℕ}
    {status : KeStatus} {out : Option ℕ} (h : Partition s head l) (hall : Allocated s l)
    (hguard : FindsAddress s head address size)
    (hr : s.allocateAtAddress fuel head address size pageDirectory reserve =
      .ret (status, out, s')) :
    ∃ l', Preserves s s' head l l' out := by
  unfold VadMem.allocateAtAddress at hr
  split at hr
  · cases hr
    exact ⟨l, .refl h hall⟩
  split at hr
  · cases hr
    exact ⟨l, .refl h hall⟩
  rename_i ha h0
  obtain ⟨r, hlook, hr⟩ := Outcome.bind_eq_ret.mp hr
  obtain ⟨rest, rfl, hrest⟩ := h.chain.chain_cons rfl
  obtain rfl := lookForFreeAt_spec h.chain h0 ha hlook
  by_cases hc : s.contains address head = true
  · -- the first vad holds the address
    rw [if_pos hc] at hr
    rcases s.answerAt_eq address size head with
      hans | ⟨hans, hfree, hroom⟩
    · rw [hans] at hr
      cases hr
      exact ⟨_, .refl h hall⟩
    · rw [hans] at hr
      have hfits := fits_eq_true.mpr
        ⟨BitVec.le_trans hroom (h.room_le List.mem_cons_self hc), hfree⟩
      have hlast := (hguard [] head rest h.chain (by simp) (.inl hc)).1 hc hfree
      have h : Partition s head ([] ++ head :: rest) := h
      exact h.allocateAtAddressFrom hall h0 ha hfits hc hlast hr
  have hc : s.contains address head = false := by simpa using hc
  simp only [hc, Bool.false_eq_true, if_false] at hr
  cases hf : rest.find? (s.stopsAt address size) with
  | none =>
    rw [hf] at hr
    cases hr
    exact ⟨_, .refl h hall⟩
  | some v =>
    obtain ⟨hstop, l₁, l₂, rfl, hbefore⟩ := List.find?_eq_some_iff_append.mp hf
    have hv : v ∈ head :: (l₁ ++ v :: l₂) := by simp
    have hvhead : v ≠ head := by
      rintro rfl
      exact (List.nodup_cons.mp h.chain.nodup).1 (by simp)
    have hskip : ∀ w ∈ head :: l₁,
        s.contains address w = false ∧ (w ≠ head → s.fits size w = false) := by
      intro w hw
      rcases List.mem_cons.mp hw with rfl | hw
      · exact ⟨hc, fun hne => absurd rfl hne⟩
      · have := hbefore w hw
        simp only [stopsAt, Bool.not_eq_true', Bool.or_eq_false_iff] at this
        exact ⟨this.1, fun _ => this.2⟩
    have hg := hguard (head :: l₁) v l₂ h.chain hskip
    rw [hf, Option.elim_some] at hr
    cases hfits : s.fits size v with
    | true =>
      rw [hfits, if_pos rfl] at hr
      cases hcv : s.contains address v with
      | true =>
        have hlast := (hg (.inl hcv)).1 hcv (fits_eq_true.mp hfits).2
        have h : Partition s head (head :: l₁ ++ v :: l₂) := h
        exact h.allocateAtAddressFrom hall h0 ha hfits hcv hlast hr
      | false =>
        have hsmall := (hg (.inr ⟨hvhead, hfits⟩)).2 hcv
        obtain ⟨rfl, rfl⟩ := h.allocateAtAddressFrom_fails hv h0 ha hcv hsmall hr
        exact ⟨_, .refl h hall⟩
    | false =>
      -- the vad holds the address and does not fit
      have hcv : s.contains address v = true := by simpa [stopsAt, hfits] using hstop
      rw [hfits, if_neg (by simp)] at hr
      rcases s.answerAt_eq address size v with
        hans | ⟨-, hfree, hroom⟩
      · rw [hans] at hr
        cases hr
        exact ⟨_, .refl h hall⟩
      · rw [fits_eq_true.mpr ⟨BitVec.le_trans hroom (h.room_le hv hcv), hfree⟩] at hfits
        cases hfits

end VadMem

end LtMicros
