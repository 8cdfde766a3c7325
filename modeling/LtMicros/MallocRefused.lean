import LtMicros.MallocGrowth

/-!
# When the kernel refuses pages

`_Sbrk` does not look at what `_sysSbrk` answers. It stores the header of the new block through the
null pointer, and the program has come to an end.
-/

namespace LtMicros

open Lib

namespace Malloc

open UserHeap

/-- A call to which the kernel has refused pages has written into the memory of the heap only,
which starts at `start`, and returns with the heap as it was. -/
def SurvivesRefusal (start : ℕ) (h : UserHeap) (x : Traced MallocEvent (Option ℕ × UserHeap)) :
    Prop :=
  .refused ∈ x.trace →
    (∀ a n, .write a n ∈ x.trace →
      start ≤ a ∧ a + n ≤ h.brk + (x.trace.map MallocEvent.pages).sum * pageSize) ∧
    ∃ r h', x.outcome = .ret (r, h') ∧ h'.baseBlock = h.baseBlock ∧ h'.lastBlock = h.lastBlock ∧
      h'.mem = h.mem

/-- The kernel refuses the region for a block, or the one that is asked for when the size of the
first one does not fit into 31 bits. -/
def RefusesRegion (grants : ℕ → ℕ → Bool) (brk need : ℕ) : Prop :=
  ¬Granted grants brk (Heap.pageCount need) ∨ 2 ^ 31 < Heap.pageCount need * pageSize

/-- The kernel refuses pages that the call of `HeapAlloc` asks for. -/
def Refuses (grants : ℕ → ℕ → Bool) (h : UserHeap) (need : ℕ) : Prop :=
  if h.baseBlock = 0 then
    ¬Granted grants h.brk 1 ∨ (pageSize < need ∧ RefusesRegion grants (h.brk + pageSize) need)
  else (∀ b, ¬h.Sees need b) ∧ RefusesRegion grants h.brk need

variable {grants : ℕ → ℕ → Bool} {h h₀ h₁ : UserHeap} {b need fuel depth start : ℕ} {l : List ℕ}
  {w : UserProgram} {ops : List UserOp} {size : ℤ} {e : MallocEvent}

/-! ## `_Allocate` -/

theorem growFrom_fault (hsbrk : (sbrk grants h (pagesNeeded need)).outcome = .fault) :
    growFrom grants fuel depth h need = ⟨(sbrk grants h (pagesNeeded need)).trace, .fault⟩ :=
  Traced.bind_of_fault hsbrk _

/-- What happens when `_Allocate` looks into the region it has got. -/
theorem mem_growFrom (hsbrk : (sbrk grants h (pagesNeeded need)).outcome = .ret (some b, h₁)) :
    e ∈ (growFrom grants fuel depth h need).trace ↔
      e ∈ (sbrk grants h (pagesNeeded need)).trace ∨
      e ∈ (allocateFrom grants fuel depth h₁ b need).trace ∨
      (∃ r, (allocateFrom grants fuel depth h₁ b need).outcome = .ret r) ∧
        e = .write b blockHeaderSize := by
  rw [growFrom, Traced.mem_bind, hsbrk]
  apply or_congr Iff.rfl
  constructor
  · rintro ⟨a, ha, he⟩
    cases ha
    rcases Traced.mem_bind.mp he with he | ⟨a, ha, he⟩
    · cases he
    · cases ha
      rcases Traced.mem_bind.mp he with he | ⟨r, hr, he⟩
      · exact .inl he
      · have he : e ∈ [MallocEvent.write b blockHeaderSize] := he
        exact .inr ⟨⟨r, hr⟩, List.mem_singleton.mp he⟩
  · intro he
    refine ⟨_, rfl, Traced.mem_bind.mpr (.inr ⟨b, rfl, Traced.mem_bind.mpr ?_⟩)⟩
    rcases he with he | ⟨⟨r, hr⟩, he⟩
    · exact .inl he
    · exact .inr ⟨r, hr, List.mem_singleton.mpr he⟩

/-- A call asks in vain and stores into the null pointer, or is not refused anything. -/
def StoresIfRefused (t : List MallocEvent) (refuses : Prop) : Prop :=
  (refuses ∧ .refused ∈ t ∧ .write 0 blockHeaderSize ∈ t) ∨ (¬refuses ∧ .refused ∉ t)

/-- What happens before asking does not matter. -/
theorem StoresIfRefused.append {s t : List MallocEvent} {P Q : Prop} (h : StoresIfRefused t P)
    (hs : .refused ∉ s) (hiff : P ↔ Q) : StoresIfRefused (s ++ t) Q := by
  rcases h with ⟨hp, hrefused, hwrite⟩ | ⟨hp, hnot⟩
  · exact .inl ⟨hiff.mp hp, List.mem_append_right _ hrefused, List.mem_append_right _ hwrite⟩
  · refine .inr ⟨fun hq => hp (hiff.mpr hq), fun he => ?_⟩
    exact (List.mem_append.mp he).elim hs hnot

/-- The kernel refuses the pages at once. -/
theorem growFrom_refused (fuel depth : ℕ) (hpos : 0 < need) (hmax : need ≤ 2 ^ 31 + 4)
    (hgrant : ¬Granted grants h.brk (Heap.pageCount need)) :
    .refused ∈ (growFrom grants fuel depth h need).trace ∧
      .write 0 blockHeaderSize ∈ (growFrom grants fuel depth h need).trace := by
  have heq := sbrk_refused (pageCount_spec hpos).1 hgrant
  rw [← pagesNeeded_eq hpos hmax] at heq
  rw [growFrom_fault (by rw [heq]), heq]
  simp

theorem growFrom_stores (grants : ℕ → ℕ → Bool) (hb : Blocks h l) (h8 : 8 ≤ need)
    (haligned : need % 4 = 0) (hmax : need ≤ 2 ^ 31 + 4) (hfuel : 2 ≤ fuel) (depth : ℕ) :
    StoresIfRefused (growFrom grants fuel (depth + 1) h need).trace
      (RefusesRegion grants h.brk need) := by
  obtain ⟨hn, henough⟩ := pageCount_spec (show 0 < need by omega)
  by_cases hgrant : Granted grants h.brk (Heap.pageCount need)
  · obtain ⟨k, heq⟩ := sbrk_granted hn hgrant
    rw [← pagesNeeded_eq (by omega) hmax] at heq
    have hnot : .refused ∉ (sbrk grants h (pagesNeeded need)).trace := by
      rw [heq]
      simp
    have hout : (sbrk grants h (pagesNeeded need)).outcome = h.sbrk (Heap.pageCount need) := by
      rw [heq]
      exact congrArg h.sbrk (pagesNeeded_eq (by omega) hmax)
    rcases Nat.lt_trichotomy (Heap.pageCount need * pageSize) (2 ^ 31) with hsmall | hexact | hhuge
    · -- the new region is large enough
      refine .inr ⟨not_or.mpr ⟨not_not.mpr hgrant, by omega⟩, ?_⟩
      obtain ⟨h₁, hgrown, hg⟩ := sbrk_grows hn hsmall hgrant.2
      have hfits : ¬(blockState h₁.mem h.brk = blockUsed ∨ blockSize h₁.mem h.brk < need) := by
        rw [hg.free, hg.size]
        exact not_or.mpr ⟨by decide, Nat.not_lt.mpr henough⟩
      obtain ⟨h₂, hturn, -⟩ := (hb.grow hn hg hgrant.2).allocateTurn_fits (by simp)
        (Nat.le_of_eq hg.last.symm) h8 haligned hfits
      obtain ⟨fuel, rfl⟩ : ∃ n, fuel = n + 1 := ⟨fuel - 1, by omega⟩
      have hwrites := (allocateFrom_found grants depth
        (Outcome.loop_leave hturn fuel)).2
      rw [mem_growFrom (hout.trans hgrown)]
      rintro (he | he | ⟨-, he⟩)
      · exact hnot he
      · obtain ⟨a, n, he⟩ := hwrites _ he
        cases he
      · cases he
    · -- the size of the new block is 0, and `MemSet` does not return
      refine .inr ⟨not_or.mpr ⟨not_not.mpr hgrant, by omega⟩, ?_⟩
      rcases sbrk_room hn hgrant.2 with ⟨-, hfault⟩ | ⟨m', -, hzero, hlow, -⟩
      · rw [growFrom_fault (hout.trans hfault)]
        exact hnot
      · rw [hexact] at hzero
        omega
    · -- the size of the new block is too small, and there is no room for another one
      have hroom := hgrant.2
      have hlimit := vProcessLimitAddr_lt
      have hne : Heap.pageCount need * pageSize % 2 ^ 31 ≠ 0 := by omega
      obtain ⟨m', hgrown, -⟩ := (sbrk_room hn hgrant.2).resolve_left fun h => hne h.1
      obtain ⟨htwo, -⟩ := sbrk_huge hhuge.le hmax hgrown
      obtain ⟨k, rfl⟩ := Nat.exists_eq_add_of_le hfuel
      have hmem := (allocateFrom_none grants depth
        (Outcome.loop_mono htwo k)).2
      have hfull : ¬Granted grants (h.brk + Heap.pageCount need * pageSize)
          (Heap.pageCount need) := fun h => by
        have h2 := h.2
        omega
      obtain ⟨hrefused, hwrite⟩ := growFrom_refused (2 + k) depth
        (h := { h with mem := m', lastBlock := h.brk, brk := h.brk + Heap.pageCount need * pageSize })
        (show 0 < need by omega) hmax hfull
      refine .inl ⟨.inr hhuge, ?_, ?_⟩
      · exact (mem_growFrom (hout.trans hgrown)).mpr (.inr (.inl ((hmem _).mpr (.inr hrefused))))
      · exact (mem_growFrom (hout.trans hgrown)).mpr (.inr (.inl ((hmem _).mpr (.inr hwrite))))
  · obtain ⟨hrefused, hwrite⟩ := growFrom_refused fuel (depth + 1) (show 0 < need by omega) hmax hgrant
    exact .inl ⟨.inl hgrant, hrefused, hwrite⟩

/-- `_Allocate` from the base on is refused pages only when the search sees nothing. -/
theorem allocateFrom_stores (grants : ℕ → ℕ → Bool) (hb : Blocks h l) (h8 : 8 ≤ need)
    (haligned : need % 4 = 0) (hmax : need ≤ 2 ^ 31 + 4) (hfuel : h.brk + 2 ≤ fuel) (depth : ℕ) :
    StoresIfRefused (allocateFrom grants fuel (depth + 2) h h.baseBlock need).trace
      ((∀ b, ¬h.Sees need b) ∧ RefusesRegion grants h.brk need) := by
  obtain ⟨⟨r, h₁⟩, hsearch, hlowest, hfound⟩ :=
    hb.search_lowest h8 haligned (show h.brk < fuel by omega)
  rcases r with _ | b
  · obtain rfl : h₁ = h := hfound
    have hmem := (allocateFrom_none grants (depth + 1) hsearch).2
    rcases growFrom_stores grants hb h8 haligned hmax (show 2 ≤ fuel by omega) depth with
      ⟨hrefuses, hrefused, hwrite⟩ | ⟨hgrants, hnot⟩
    · exact .inl ⟨⟨hlowest, hrefuses⟩, (hmem _).mpr (.inr hrefused), (hmem _).mpr (.inr hwrite)⟩
    · refine .inr ⟨fun h => hgrants h.2, fun hrefused => ?_⟩
      rcases (hmem _).mp hrefused with hrefused | hrefused
      · obtain ⟨a, n, he⟩ := search_writes hrefused
        cases he
      · exact hnot hrefused
  · have hwrites := (allocateFrom_found grants (depth + 1) hsearch).2
    refine .inr ⟨fun h => h.1 b hlowest.1, fun hrefused => ?_⟩
    obtain ⟨a, n, he⟩ := hwrites _ hrefused
    cases he

/-! ## `HeapAlloc` -/

/-- `HeapAlloc` of a positive size is refused pages, and stores into the null pointer, exactly
when the kernel refuses the pages that it asks for. -/
theorem heapAlloc_stores (grants : ℕ → ℕ → Bool) (hr : Ready start h l) (hsize : 0 < size)
    (hmax : size < 2 ^ 31) (hfuel : 2 ^ 32 ≤ fuel) :
    StoresIfRefused (heapAlloc grants fuel h size).trace (Refuses grants h (needed size)) := by
  obtain ⟨h8, haligned, hneed⟩ := needed_spec hsize hmax
  -- the end of a heap is the start of a page
  have hspace : ∀ {h : UserHeap} {l : List ℕ}, Blocks h l → h.brk + 2 ≤ 2 ^ 32 := by
    intro h l hb
    have hlt := hb.brk_lt
    have hpage := hb.brk
    unfold pageSize at hpage
    omega
  obtain ⟨depth, rfl⟩ : ∃ d, fuel = d + 2 := ⟨fuel - 2, by omega⟩
  rcases hr.blocks with ⟨hbase, hbrk, -⟩ | ⟨-, hb⟩
  · rw [Refuses, if_pos hbase]
    by_cases hgrant : Granted grants h.brk 1
    · obtain ⟨h₁, hfirst, hb, hbrk₁, hsees⟩ := firstRegion_sees hbase (hbrk ▸ hr.pos)
        (hbrk ▸ hr.page) hgrant
      obtain ⟨k, htrace⟩ := firstRegion_granted hbase hgrant
      rw [heapAlloc_eq hsize hmax (by omega) hfirst, htrace]
      have hstores := allocateFrom_stores grants hb h8 haligned hneed
        ((hspace hb).trans hfuel) depth
      refine hstores.append (by simp) ?_
      rw [or_iff_right (not_not.mpr hgrant), hbrk₁]
      apply and_congr_left'
      constructor
      · intro hnone
        exact Nat.lt_of_not_le fun hle => hnone h.brk ((hsees _ _).mpr ⟨rfl, hle⟩)
      · intro hlt b hb
        exact absurd ((hsees _ _).mp hb).2 (Nat.not_le.mpr hlt)
    · rw [heapAlloc_refused hsize hbase hgrant]
      exact .inl ⟨.inl hgrant, by simp, by simp⟩
  · have hne : h.baseBlock ≠ 0 := Nat.ne_of_gt hb.base
    have hfirst : (firstRegion grants h).outcome = .ret h := by rw [firstRegion_later hne]
    rw [Refuses, if_neg hne, heapAlloc_eq hsize hmax (by omega) hfirst, firstRegion_later hne]
    exact allocateFrom_stores grants hb h8 haligned hneed ((hspace hb).trans hfuel) depth

/-- After every run, a call of `HeapAlloc` survives a refusal of the kernel exactly when there is
none. -/
theorem survivesRefusal_iff (hpos : 0 < h₀.brk) (hpage : h₀.brk % pageSize = 0)
    (hrun : Run MallocStep (UserProgram.init h₀) ops w) (hsize : 0 < size) (hmax : size < 2 ^ 31)
    (hfuel : 2 ^ 32 ≤ fuel) :
    SurvivesRefusal h₀.brk w.h (heapAlloc grants fuel w.h size) ↔
      ¬Refuses grants w.h (needed size) := by
  obtain ⟨l, hr⟩ := ready_of_run hpos hpage hrun
  rcases heapAlloc_stores grants hr hsize hmax hfuel with
    ⟨hrefuses, hrefused, hwrite⟩ | ⟨hgrants, hnot⟩
  · refine iff_of_false (fun hsurvives => ?_) (not_not.mpr hrefuses)
    have hlow := ((hsurvives hrefused).1 _ _ hwrite).1
    exact absurd hlow (Nat.not_le.mpr hpos)
  · exact iff_of_true (fun hrefused => absurd hrefused hnot) hgrants

/-- The pages up to the limit of a vad. -/
def upTo (limit brk n : ℕ) : Bool := brk + n * pageSize ≤ limit

/-- A program that has got 10 bytes from the five pages of its heap gets 5000 bytes as well. -/
theorem survivesRefusal_large : ∃ w, Run MallocStep
      (UserProgram.init ⟨fun _ => 0xAA, 0, 0, 0x40002000⟩) [.heapAlloc 10] w ∧
    SurvivesRefusal 0x40002000 w.h (heapAlloc (upTo 0x40007000) (2 ^ 32) w.h 5000) := by
  obtain ⟨w, hrun, hbase, -, hbrk, -⟩ := ten_bytes
  refine ⟨w, hrun, (survivesRefusal_iff (by decide) (by decide) hrun (by decide) (by decide)
    (Nat.le_refl _)).mpr fun hrefuses => ?_⟩
  rw [Refuses, if_neg hbase, hbrk] at hrefuses
  rcases hrefuses.2 with hregion | hhuge
  · exact hregion ⟨by decide, by decide⟩
  · exact absurd hhuge (by decide)

/-- But not 30000 bytes. -/
theorem not_survivesRefusal : ¬SurvivesRefusal 0x40002000
    (initMalloc ⟨fun _ => 0xAA, 0, 0, 0x40002000⟩)
    (heapAlloc (upTo 0x40007000) (2 ^ 32) (initMalloc ⟨fun _ => 0xAA, 0, 0, 0x40002000⟩) 30000) := by
  have hready : Ready 0x40002000 (initMalloc ⟨fun _ => 0xAA, 0, 0, 0x40002000⟩) [] :=
    ⟨by decide, by decide, .inl ⟨rfl, rfl, rfl⟩⟩
  have hrefuses : Refuses (upTo 0x40007000) (initMalloc ⟨fun _ => 0xAA, 0, 0, 0x40002000⟩)
      (needed 30000) := .inr ⟨by decide, .inl fun hgrant => absurd hgrant.1 (by decide)⟩
  intro hsurvives
  rcases heapAlloc_stores (upTo 0x40007000) hready (show (0 : ℤ) < 30000 by decide)
    (by decide) (Nat.le_refl _) with ⟨-, hrefused, hwrite⟩ | ⟨hgrants, -⟩
  · exact absurd ((hsurvives hrefused).1 _ _ hwrite).1 (by decide)
  · exact hgrants hrefuses

end Malloc

end LtMicros
