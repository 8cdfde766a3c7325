import LtMicros.VadPages
import LtMicros.VadShare

/-!
# What `AllocateAtAddress` grants

The bytes of a process are free or used as the first vad says in which
`LookForVadFromAddress` finds them. A call grants what was asked for when it fails with the
list as it was, or makes a vad at the address used and leaves the status of all other bytes.
-/

namespace LtMicros

open Lib

namespace VadMem

variable {s s' : VadMem} {head v w x : ℕ} {l l₁ l₂ : List ℕ} {a address size mid : U32}

/-- Whether the byte at an address is free, when a vad of the list holds it. -/
def statusOf (s : VadMem) (l : List ℕ) (a : U32) : Option Bool :=
  (l.find? (s.contains a)).map fun v => (s.vads v).free

theorem statusOf_cons (s : VadMem) (v : ℕ) (l : List ℕ) (a : U32) :
    s.statusOf (v :: l) a = if s.contains a v then some (s.vads v).free else s.statusOf l a := by
  unfold statusOf
  rw [List.find?_cons]
  cases s.contains a v <;> rfl

theorem statusOf_append (s : VadMem) (l₁ l₂ : List ℕ) (a : U32) :
    s.statusOf (l₁ ++ l₂) a = (s.statusOf l₁ a).or (s.statusOf l₂ a) := by
  induction l₁ with
  | nil => rfl
  | cons v l₁ ih =>
    rw [List.cons_append, statusOf_cons, statusOf_cons, ih]
    split <;> rfl

/-- Vads with the same ends and the same status say the same. -/
theorem statusOf_congr (h : ∀ v ∈ l, s'.contains a v = s.contains a v ∧
    (s.contains a v = true → (s'.vads v).free = (s.vads v).free)) :
    s'.statusOf l a = s.statusOf l a := by
  induction l with
  | nil => rfl
  | cons v l ih =>
    obtain ⟨hsame, hfree⟩ := h v List.mem_cons_self
    rw [statusOf_cons, statusOf_cons, ih fun w hw => h w (List.mem_cons_of_mem v hw), hsame]
    split
    · rename_i hc
      rw [hfree hc]
    · rfl

theorem statusOf_eq_none (h : ∀ v ∈ l, s.contains a v = false) : s.statusOf l a = none := by
  induction l with
  | nil => rfl
  | cons v l ih =>
    rw [statusOf_cons, h v List.mem_cons_self, ih fun w hw => h w (List.mem_cons_of_mem v hw)]
    rfl

theorem contains_iff : s.contains a v = true ↔ s.lo v ≤ a.toNat ∧ a.toNat < s.hi v :=
  contains_eq_true

theorem Keeps.contains (h : Keeps s s' v) (a : U32) : s'.contains a v = s.contains a v := by
  rw [Bool.eq_iff_iff, contains_iff, contains_iff, h.lo, h.hi]

/-- Cutting a free vad changes the status of no byte. -/
theorem Cut.statusOf (h : Cut s s' v) (hfree : (s.vads v).free = true)
    (hfront : ∀ w ∈ l₁, w ≠ v ∧ w ≠ s.heapTop) (hback : ∀ w ∈ l₂, w ≠ v ∧ w ≠ s.heapTop)
    (a : U32) :
    s'.statusOf (l₁ ++ v :: s.heapTop :: l₂) a = s.statusOf (l₁ ++ v :: l₂) a := by
  have hsame (l : List ℕ) (hl : ∀ w ∈ l, w ≠ v ∧ w ≠ s.heapTop) :
      s'.statusOf l a = s.statusOf l a := by
    apply statusOf_congr
    intro w hw
    have hkeeps := h.others w (hl w hw).1 (hl w hw).2
    refine ⟨hkeeps.contains a, ?_⟩
    obtain ⟨previous, hvad⟩ := hkeeps
    rw [hvad]
    exact fun _ => rfl
  rw [statusOf_append, statusOf_append, hsame l₁ hfront, statusOf_cons, statusOf_cons,
    statusOf_cons, hsame l₂ hback, hfree, h.free v (.inl rfl) hfree, h.free s.heapTop (.inr rfl) hfree]
  congr 1
  -- the two parts are the whole
  have hlo := h.lo
  have hstart := h.start
  have hhi := h.hi
  have hfirst := h.first
  have hsecond := h.second
  by_cases hc : s.contains a v = true
  · rw [if_pos hc]
    rw [contains_iff] at hc
    by_cases hc₁ : s'.contains a v = true
    · rw [if_pos hc₁]
    · have hc₂ : s'.contains a s.heapTop = true := by
        rw [contains_iff] at hc₁ ⊢
        omega
      rw [if_neg hc₁, if_pos hc₂]
  · have hc₁ : ¬s'.contains a v = true := by
      rw [contains_iff] at hc ⊢
      omega
    have hc₂ : ¬s'.contains a s.heapTop = true := by
      rw [contains_iff] at hc ⊢
      omega
    rw [if_neg hc, if_neg hc₁, if_neg hc₂]

/-! ## The vad that is asked for, and the one that is found -/

/-- The vad that holds the address is free and has the asked size behind it. -/
def Available (s : VadMem) (l : List ℕ) (address size : U32) : Prop :=
  ∃ v ∈ l, s.contains address v = true ∧ (s.vads v).free = true ∧
    size ≤ (s.vads v).limitAddress - address

/-- In a partition one vad holds an address. -/
theorem Partition.contains_unique (h : Partition s head l) (hv : v ∈ l) (hw : w ∈ l)
    (hcv : s.contains a v = true) (hcw : s.contains a w = true) : v = w :=
  h.tiles.eq_of_common hv hw (contains_iff.mp hcv) (contains_iff.mp hcw)

/-- The vad of a list with which the search for an address ends: the first one where it
holds the address, else the next one that holds it or is free and of the asked size. -/
def stopVad (s : VadMem) (address size : U32) : List ℕ → Option ℕ
  | [] => none
  | head :: rest =>
    if s.contains address head then some head else rest.find? (s.stopsAt address size)

/-- The search ends at a free vad of the asked size, and no vad before it holds the
address. -/
structure EndsAt (s : VadMem) (head : ℕ) (l₁ : List ℕ) (w : ℕ) (l₂ : List ℕ)
    (address size : U32) : Prop where
  stop : s.stopVad address size (l₁ ++ w :: l₂) = some w
  front : ∀ x ∈ l₁, s.contains address x = false
  free : (s.vads w).free = true
  fits : size ≤ (s.vads w).size
  search : ∃ n, s.lookForFreeVadAtAddressOfMinimumSize n head address size =
    .ret (.statusSuccess, some w)

/-- The search finds nothing only where nothing is available. -/
theorem Partition.search (h : Partition s head l) (ha : address ≠ 0) (h0 : size ≠ 0) :
    ((∃ n, s.lookForFreeVadAtAddressOfMinimumSize n head address size =
        .ret (.statusNotFound, none)) ∧ ¬s.Available l address size ∧
        ∀ w, s.stopVad address size l = some w → s.contains address w = true) ∨
      ∃ l₁ w l₂, l = l₁ ++ w :: l₂ ∧ s.EndsAt head l₁ w l₂ address size := by
  obtain ⟨rest, rfl, hrest⟩ := h.chain.chain_cons rfl
  -- what the search answers at the vad that holds the address
  have hanswer {w : ℕ} (hw : w ∈ head :: rest) (hc : s.contains address w = true) :
      s.answerAt address size w = (.statusNotFound, none) ∧ ¬s.Available (head :: rest) address size ∨
      s.answerAt address size w = (.statusSuccess, some w) ∧ (s.vads w).free = true ∧
        size ≤ (s.vads w).size := by
    unfold answerAt
    split
    · rename_i hno
      refine .inl ⟨rfl, ?_⟩
      rintro ⟨v, hv, hcv, hfree, hroom⟩
      obtain rfl := h.contains_unique hv hw hcv hc
      rcases hno with hused | hsmall
      · rw [hfree] at hused
        cases hused
      · exact BitVec.not_lt.mpr hroom hsmall
    · rename_i hno
      obtain ⟨hfree, hroom⟩ := not_or.mp hno
      exact .inr ⟨rfl, by simpa using hfree,
        BitVec.le_trans (BitVec.not_lt.mp hroom) (h.room_le hw hc)⟩
  by_cases hc : s.contains address head = true
  · have hloop : s.lookForFreeVadAtAddressOfMinimumSize 1 head address size =
        .ret (s.answerAt address size head) := by
      rw [lookForFreeVadAtAddressOfMinimumSize, if_neg ha, if_neg h0]
      exact Outcome.loop_leave (lookForFreeAtTurn_contains hc) 0
    have hstop : s.stopVad address size (head :: rest) = some head := if_pos hc
    rcases hanswer List.mem_cons_self hc with ⟨hnone, hnot⟩ | ⟨hsome, hfree, hsize⟩
    · rw [hnone] at hloop
      refine .inl ⟨⟨1, hloop⟩, hnot, ?_⟩
      intro w hw
      rw [hstop] at hw
      cases hw
      exact hc
    · rw [hsome] at hloop
      refine .inr ⟨[], head, rest, rfl, hstop, ?_, hfree, hsize, 1, hloop⟩
      intro x hx
      cases hx
  have hc : s.contains address head = false := Bool.eq_false_iff.mpr hc
  have hloop : s.lookForFreeVadAtAddressOfMinimumSize (rest.length + 1) head address size =
      .ret ((rest.find? (s.stopsAt address size)).elim (.statusNotFound, none) fun w =>
        if s.fits size w then (.statusSuccess, some w) else s.answerAt address size w) := by
    rw [lookForFreeVadAtAddressOfMinimumSize, if_neg ha, if_neg h0]
    exact lookForFreeAt_skip hrest hc (Nat.lt_succ_self _)
  have hwhole : s.stopVad address size (head :: rest) = rest.find? (s.stopsAt address size) := by
    rw [stopVad, hc]
    rfl
  cases hf : rest.find? (s.stopsAt address size) with
  | none =>
    rw [hf] at hloop hwhole
    refine .inl ⟨⟨_, hloop⟩, ?_, ?_⟩
    · rintro ⟨v, hv, hcv, -⟩
      rcases List.mem_cons.mp hv with rfl | hv
      · rw [hc] at hcv
        cases hcv
      · have hstop := List.find?_eq_none.mp hf v hv
        rw [stopsAt, hcv, Bool.true_or] at hstop
        exact hstop rfl
    · intro w hw
      rw [hwhole] at hw
      cases hw
  | some w =>
    obtain ⟨hstop, l₁, l₂, rfl, hbefore⟩ := List.find?_eq_some_iff_append.mp hf
    have hw : w ∈ head :: (l₁ ++ w :: l₂) := by simp
    have hfront : ∀ x ∈ head :: l₁, s.contains address x = false := by
      intro x hx
      rcases List.mem_cons.mp hx with rfl | hx
      · exact hc
      · have hskip := hbefore x hx
        simp only [stopsAt, Bool.not_eq_true', Bool.or_eq_false_iff] at hskip
        exact hskip.1
    rw [hf, Option.elim_some] at hloop
    rw [hf] at hwhole
    by_cases hfits : s.fits size w = true
    · rw [if_pos hfits] at hloop
      obtain ⟨hsize, hfree⟩ := fits_eq_true.mp hfits
      exact .inr ⟨head :: l₁, w, l₂, rfl, hwhole, hfront, hfree, hsize, _, hloop⟩
    · rw [if_neg hfits] at hloop
      have hcw : s.contains address w = true := by
        rw [stopsAt, Bool.eq_false_iff.mpr hfits, Bool.or_false] at hstop
        exact hstop
      rcases hanswer hw hcw with ⟨hnone, hnot⟩ | ⟨hsome, hfree, hsize⟩
      · rw [hnone] at hloop
        refine .inl ⟨⟨_, hloop⟩, hnot, ?_⟩
        intro x hx
        rw [hwhole] at hx
        cases hx
        exact hcw
      · rw [hsome] at hloop
        exact .inr ⟨head :: l₁, w, l₂, rfl, hwhole, hfront, hfree, hsize, _, hloop⟩

/-! ## The vad that is chosen -/

/-- The room behind the address is more than a page too large, so that something is split
off behind the asked pages. -/
def SplitsBehind (s : VadMem) (w : ℕ) (address size : U32) : Prop :=
  vadMinimumDelta < (s.vads w).limitAddress - address - size

instance (s : VadMem) (w : ℕ) (address size : U32) : Decidable (s.SplitsBehind w address size) :=
  inferInstanceAs (Decidable (_ < _))

/-- Where the granted vad ends. -/
def grantLimit (s : VadMem) (w : ℕ) (address size : U32) : U32 :=
  if s.SplitsBehind w address size then address + pagesOf size else (s.vads w).limitAddress

/-- What remains of the list: a split loses the vads behind the one that is split. -/
def kept (s : VadMem) (l₁ : List ℕ) (w : ℕ) (l₂ : List ℕ) (address size : U32) : List ℕ :=
  if s.SplitsBehind w address size then l₁ ++ [w] else l₁ ++ w :: l₂

/-- The call has chosen a vad that starts at the address; all bytes of the vads that remain
have the status that they had. -/
structure Selects (s s₁ : VadMem) (head : ℕ) (l : List ℕ) (address limit : U32) (v : ℕ)
    (l' : List ℕ) : Prop where
  chain : Chain s₁.next (some head) l'
  mem : v ∈ l'
  base : (s₁.vads v).baseAddress = address
  limit : (s₁.vads v).limitAddress = limit
  status : ∀ a, s₁.statusOf l' a = s.statusOf l a

theorem Seg.ne_of_mid {next : ℕ → Option ℕ} (h : Chain next (some head) (l₁ ++ w :: l₂)) :
    (∀ x ∈ l₁, x ≠ w) ∧ ∀ x ∈ l₂, x ≠ w := by
  have hnodup := h.nodup
  constructor
  · rintro x hx rfl
    exact List.disjoint_of_nodup_append hnodup hx List.mem_cons_self
  · rintro x hx rfl
    exact (List.nodup_cons.mp (List.nodup_append.mp hnodup).2.1).1 hx

/-- `Split` of the vad that starts at the address. -/
theorem Partition.selects_split (h : Partition s head (l₁ ++ w :: l₂))
    (hall : s.Allocated (l₁ ++ w :: l₂)) (hfree : (s.vads w).free = true) (h0 : size ≠ 0)
    (hsize : size ≤ (s.vads w).size) (hdelta : vadMinimumDelta < (s.vads w).size - size) :
    ∃ s₁, s.split w size = (.statusSuccess, s₁) ∧
      s.Selects s₁ head (l₁ ++ [w]) (s.vads w).baseAddress
        ((s.vads w).baseAddress + pagesOf size) w (l₁ ++ [w, s.heapTop]) := by
  have hw : w ∈ l₁ ++ w :: l₂ := by simp
  obtain ⟨s₁, hsplit, hcut, -⟩ := split_cuts h0 hsize hdelta (h.size w hw) (h.lt hw) (hall w hw)
  obtain ⟨hne₁, -⟩ := Seg.ne_of_mid h.chain
  refine ⟨s₁, hsplit, split_chain hsplit h.chain hall, by simp, ?_, ?_, ?_⟩
  · exact BitVec.eq_of_toNat_eq hcut.lo
  · rcases split_cases (Nat.ne_of_lt (hall w hw)) size with
      ⟨st, hfails, hfailed⟩ | ⟨s₂, hsplit₂, hoff⟩
    · rw [hfails] at hsplit
      cases hsplit
      cases hfailed
    · rw [hsplit₂] at hsplit
      cases hsplit
      exact hoff.limit
  · apply hcut.statusOf hfree
    · intro x hx
      exact ⟨hne₁ x hx, Nat.ne_of_lt (hall x (by simp [hx]))⟩
    · intro x hx
      cases hx

/-- `SplitAtAddress` inside of a vad that has the room. -/
theorem Partition.selects_inside (h : Partition s head (l₁ ++ w :: l₂))
    (hall : s.Allocated (l₁ ++ w :: l₂)) (hfree : (s.vads w).free = true) (h0 : size ≠ 0)
    (hroom : size ≤ (s.vads w).limitAddress - address)
    (hlo : (s.vads w).baseAddress < address) (hhi : address < (s.vads w).limitAddress) :
    ∃ s₁ l', s.splitInside w address size = (.statusSuccess, s₁) ∧
      s₁.next w = some s.heapTop ∧ (s₁.vads w).baseAddress = (s.vads w).baseAddress ∧
      s.Selects s₁ head (s.kept l₁ w l₂ address size) address (s.grantLimit w address size)
        s.heapTop l' := by
  have hw : w ∈ l₁ ++ w :: l₂ := by simp
  have hne := Nat.ne_of_lt (hall w hw)
  obtain ⟨hloop, hfresh⟩ := h.next_ne hall hw
  obtain ⟨hne₁, hne₂⟩ := Seg.ne_of_mid h.chain
  obtain ⟨s₁, hins, hinside⟩ := splitInside_spec hroom (h.size w hw) hlo hhi hne hloop hfresh
  have hcut := hins.cut hlo hhi
  have hchain := hins.chain h.chain hall
  have hsame (l : List ℕ) (hl : ∀ x ∈ l, x ∈ l₂) (a : U32) :
      s₁.statusOf (l₁ ++ w :: s.heapTop :: l) a = s.statusOf (l₁ ++ w :: l) a := by
    apply hcut.statusOf hfree
    · intro x hx
      exact ⟨hne₁ x hx, Nat.ne_of_lt (hall x (by simp [hx]))⟩
    · intro x hx
      exact ⟨hne₂ x (hl x hx), Nat.ne_of_lt (hall x (by simp [hl x hx]))⟩
  have hnew : (s₁.vads s.heapTop).size = (s.vads w).limitAddress - address := by rw [hins.new]
  have hbase : (s₁.vads w).baseAddress = (s.vads w).baseAddress := by rw [hins.this]
  have hnext : s₁.next w = some s.heapTop := by rw [VadMem.next, hins.this]
  have hstart : (s₁.vads s.heapTop).baseAddress = address := by rw [hins.new]
  rw [hinside, hnew]
  by_cases hdelta : s.SplitsBehind w address size
  · -- the new vad is split again, and what follows it is lost
    have hlist : Chain s₁.next (some head) ((l₁ ++ [w]) ++ s.heapTop :: l₂) := by simpa using hchain
    have hall₁ : s₁.Allocated ((l₁ ++ [w]) ++ s.heapTop :: l₂) := by
      intro x hx
      rw [hins.heapTop]
      simp only [List.mem_append, List.mem_cons, List.not_mem_nil, or_false] at hx
      rcases hx with (hx | rfl) | rfl | hx
      · exact (hall x (by simp [hx])).trans (Nat.lt_succ_self _)
      · exact (hall x hw).trans (Nat.lt_succ_self _)
      · exact Nat.lt_succ_self _
      · exact (hall x (by simp [hx])).trans (Nat.lt_succ_self _)
    have hlt : (s₁.vads s.heapTop).baseAddress < (s₁.vads s.heapTop).limitAddress := by
      rw [hins.new]
      exact hhi
    have hfree₁ : (s₁.vads s.heapTop).free = true := hcut.free _ (.inr rfl) hfree
    obtain ⟨s₂, hsplit, hcut₂, -⟩ := split_cuts h0 (by rw [hnew]; exact hroom)
      (by rw [hnew]; exact hdelta) (hcut.size _ (.inr rfl)) hlt (hall₁ _ (by simp))
    have hkeeps : Keeps s₁ s₂ w := by
      apply hcut₂.others w hne
      rw [hins.heapTop]
      exact Nat.ne_of_lt ((hall w hw).trans (Nat.lt_succ_self _))
    refine ⟨s₂, (l₁ ++ [w]) ++ [s.heapTop, s₁.heapTop], ?_, hkeeps.next.trans hnext, ?_, ?_⟩
    · rw [if_pos (show vadMinimumDelta < _ from hdelta), hsplit]
    · obtain ⟨previous, hvad⟩ := hkeeps
      rw [hvad]
      exact hbase
    constructor
    · exact split_chain hsplit hlist hall₁
    · simp
    · rw [← hstart]
      exact BitVec.eq_of_toNat_eq hcut₂.lo
    · rw [grantLimit, if_pos hdelta, ← hstart]
      rcases split_cases (Nat.ne_of_lt (hall₁ s.heapTop (by simp))) size with
        ⟨st, hfails, hfailed⟩ | ⟨s₃, hsplit₃, hoff⟩
      · rw [hfails] at hsplit
        cases hsplit
        cases hfailed
      · rw [hsplit₃] at hsplit
        cases hsplit
        exact hoff.limit
    · intro a
      have hnot : ∀ x ∈ l₁ ++ [w], x ≠ s.heapTop ∧ x ≠ s₁.heapTop := by
        intro x hx
        have hlt : x < s.heapTop := by
          apply hall
          simp only [List.mem_append, List.mem_cons, List.not_mem_nil, or_false] at hx ⊢
          rcases hx with hx | hx
          · exact .inl hx
          · exact .inr (.inl hx)
        rw [hins.heapTop]
        exact ⟨Nat.ne_of_lt hlt, Nat.ne_of_lt (hlt.trans (Nat.lt_succ_self _))⟩
      have hagain : s₂.statusOf ((l₁ ++ [w]) ++ s.heapTop :: s₁.heapTop :: []) a =
          s₁.statusOf ((l₁ ++ [w]) ++ s.heapTop :: []) a :=
        hcut₂.statusOf hfree₁ hnot (fun _ hx => by cases hx) a
      have hfirst := hsame [] (fun _ hx => by cases hx) a
      rw [kept, if_pos hdelta, hagain, ← hfirst, List.append_assoc]
      rfl
  · refine ⟨s₁, l₁ ++ w :: s.heapTop :: l₂, ?_, hnext, hbase, hchain, by simp, hstart, ?_, ?_⟩
    · exact if_neg hdelta
    · rw [grantLimit, if_neg hdelta, hins.new]
    · intro a
      rw [kept, if_neg hdelta]
      exact hsame l₂ (fun _ hx => hx) a

end VadMem

end LtMicros
