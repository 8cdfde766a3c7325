import LtMicros.UserHeapRuns

/-!
# What the user heap asks for and where it writes

The calls of `_Sbrk`, the answers of `_sysSbrk` and the writes of the allocator of the
user programs, for a kernel that may refuse pages.
-/

namespace LtMicros

open Lib

namespace Malloc

/-- The kernel gives `n` pages to the heap that ends at `brk`. -/
def Granted (grants : ℕ → ℕ → Bool) (brk n : ℕ) : Prop :=
  grants brk n = true ∧ brk + n * pageSize ≤ vProcessLimitAddr.toNat

variable {grants : ℕ → ℕ → Bool} {h h' : UserHeap} {b n need fuel depth start : ℕ}

/-! ## Without the events -/

@[simp] theorem memSet_outcome {m : Bytes} {src k : ℕ} :
    (memSet m src k).outcome = UserHeap.memSet m src k := rfl

theorem sysSbrk_granted (hgrant : Granted grants h.brk n) : sysSbrk grants h n = h.sysSbrk n :=
  if_pos hgrant.1

theorem sysSbrk_refused (hgrant : ¬Granted grants h.brk n) : sysSbrk grants h n = (none, h) := by
  rw [sysSbrk]
  by_cases hg : grants h.brk n = true
  · rw [if_pos hg]
    exact if_neg fun hroom => hgrant ⟨hg, hroom⟩
  · rw [if_neg hg]

/-- With the pages it asks for, `_Sbrk` ends like that of a heap to which the kernel refuses
nothing. -/
theorem sbrk_granted (hn : 0 < n) (hgrant : Granted grants h.brk n) : ∃ k, sbrk grants h n =
    ⟨[.sbrk n, .granted n, .write h.brk blockHeaderSize, .write (h.brk + blockHeaderSize) k],
      h.sbrk n⟩ := by
  have hpos : ¬(n : ℤ) ≤ 0 := by omega
  have hsys := UserHeap.sysSbrk_of_le hgrant.2
  rw [sbrk, UserHeap.sbrk_def, if_neg hpos, if_neg hpos, Int.toNat_natCast,
    sysSbrk_granted hgrant, hsys]
  dsimp only
  generalize setBlockState (setBlockSize h.mem h.brk (n * pageSize)) h.brk blockFree = m
  generalize sub32 (blockSize m h.brk) blockHeaderSize = k
  have hclear := clear_eq (.sbrk n) (.granted n) (.write h.brk blockHeaderSize) m
    (h.brk + blockHeaderSize) k
    (fun mem => ((some h.brk, { h with mem, lastBlock := h.brk, brk := h.brk + n * pageSize }) :
      Option ℕ × UserHeap))
  exact ⟨k, hclear⟩

/-- Without them, it stores into the null pointer. -/
theorem sbrk_refused (hn : 0 < n) (hgrant : ¬Granted grants h.brk n) :
    sbrk grants h n = ⟨[.sbrk n, .refused, .write 0 blockHeaderSize], .fault⟩ := by
  have hpos : ¬(n : ℤ) ≤ 0 := by omega
  rw [sbrk, if_neg hpos, Int.toNat_natCast, sysSbrk_refused hgrant]
  rfl

/-! ## The search -/

theorem splitBlock_eq (m : Bytes) (block size : ℕ) : splitBlock m block size =
    ⟨[.write (add32 block size) blockHeaderSize, .write block blockHeaderSize],
      .ret (UserHeap.splitBlock m block size)⟩ := rfl

theorem allocateTurn_writes {size block : ℕ} {e : MallocEvent}
    (he : e ∈ (allocateTurn h size block).trace) : e.IsWrite := by
  unfold allocateTurn at he
  split at he
  · split at he
    · cases he
    · split at he
      · rcases Traced.mem_bind.mp he with he | ⟨m, -, he⟩
        · -- the two headers
          rw [splitBlock_eq, List.mem_pair] at he
          exact he.elim (fun he => ⟨_, _, he⟩) fun he => ⟨_, _, he⟩
        · cases he
      · cases he
  · cases he

theorem search_outcome (h : UserHeap) (size fuel start : ℕ) :
    (Traced.loop (allocateTurn h size) fuel start).outcome =
      Outcome.loop (h.allocateTurn size) fuel start :=
  Traced.loop_outcome _ fuel start

theorem search_writes {e : MallocEvent}
    (he : e ∈ (Traced.loop (allocateTurn h need) fuel start).trace) : e.IsWrite := by
  obtain ⟨block, he⟩ := Traced.mem_loop he
  exact allocateTurn_writes he

/-! ## `_Allocate` -/

/-- A block that the search finds is marked and answered. -/
theorem allocateFrom_found (grants : ℕ → ℕ → Bool) (depth : ℕ) {h₁ : UserHeap}
    (hsearch : Outcome.loop (h.allocateTurn need) fuel start = .ret (some b, h₁)) :
    (∃ h', (allocateFrom grants fuel (depth + 1) h start need).outcome =
        .ret (b + blockHeaderSize, h')) ∧
      ∀ e ∈ (allocateFrom grants fuel (depth + 1) h start need).trace, e.IsWrite := by
  have hloop := (search_outcome h need fuel start).trans hsearch
  rw [allocateFrom, Traced.bind_of_ret hloop]
  refine ⟨⟨_, rfl⟩, fun e he => ?_⟩
  rcases List.mem_append.mp he with he | he
  · exact search_writes he
  · exact ⟨b, blockHeaderSize, List.mem_singleton.mp he⟩

/-- What `_Allocate` does when the search finds nothing. -/
def growFrom (grants : ℕ → ℕ → Bool) (fuel depth : ℕ) (h : UserHeap) (size : ℕ) :
    Traced MallocEvent (ℕ × UserHeap) := do
  let (block, h) ← sbrk grants h (UserHeap.pagesNeeded size)
  let block ← Traced.lift (.ofOption block)
  let (resPtr, h) ← allocateFrom grants fuel depth h block size
  let h ← setUsed h block
  return (resPtr, h)

theorem allocateFrom_none (grants : ℕ → ℕ → Bool) (depth : ℕ)
    (hsearch : Outcome.loop (h.allocateTurn need) fuel start = .ret (none, h)) :
    (allocateFrom grants fuel (depth + 1) h start need).outcome =
        (growFrom grants fuel depth h need).outcome ∧
      ∀ e, e ∈ (allocateFrom grants fuel (depth + 1) h start need).trace ↔
        e ∈ (Traced.loop (allocateTurn h need) fuel start).trace ∨
          e ∈ (growFrom grants fuel depth h need).trace := by
  have hloop := (search_outcome h need fuel start).trans hsearch
  rw [allocateFrom, Traced.bind_of_ret hloop]
  exact ⟨rfl, fun e => List.mem_append⟩

/-! ## `HeapAlloc` -/

theorem firstRegion_later (hbase : h.baseBlock ≠ 0) :
    firstRegion grants h = ⟨[], .ret h⟩ := if_neg hbase

theorem firstRegion_granted (hbase : h.baseBlock = 0) (hgrant : Granted grants h.brk 1) :
    ∃ k, firstRegion grants h = ⟨[.sbrk 1, .granted 1, .write h.brk blockHeaderSize,
      .write (h.brk + blockHeaderSize) k, .write h.brk blockHeaderSize], h.firstRegion⟩ := by
  obtain ⟨k, heq⟩ := sbrk_granted Nat.one_pos hgrant
  obtain ⟨h₁, hgrown, -⟩ := UserHeap.sbrk_grows (h := h) Nat.one_pos (by decide) hgrant.2
  have heq : sbrk grants h 1 = ⟨[.sbrk 1, .granted 1, .write h.brk blockHeaderSize,
    .write (h.brk + blockHeaderSize) k], .ret (some h.brk, h₁)⟩ := heq.trans (by rw [hgrown]; rfl)
  have hgrown : h.sbrk 1 = .ret (some h.brk, h₁) := hgrown
  refine ⟨k, ?_⟩
  rw [firstRegion, if_pos hbase, UserHeap.firstRegion_def, if_pos hbase, hgrown, heq,
    Outcome.ret_bind]
  dsimp only
  rw [Outcome.ofOption_some, Outcome.ret_bind]
  rfl

theorem firstRegion_refused (hbase : h.baseBlock = 0) (hgrant : ¬Granted grants h.brk 1) :
    firstRegion grants h = ⟨[.sbrk 1, .refused, .write 0 blockHeaderSize], .fault⟩ := by
  have heq : sbrk grants h 1 = ⟨[.sbrk 1, .refused, .write 0 blockHeaderSize], .fault⟩ :=
    sbrk_refused Nat.one_pos hgrant
  rw [firstRegion, if_pos hbase, heq]
  rfl

/-- The bytes of the block for `size` bytes. -/
def needed (size : ℤ) : ℕ := roundUp 4 (size.toNat + blockHeaderSize)

variable {size : ℤ}

theorem needed_spec (hsize : 0 < size) (hmax : size < 2 ^ 31) :
    8 ≤ needed size ∧ needed size % 4 = 0 ∧ needed size ≤ 2 ^ 31 + 4 := by
  have hheader : blockHeaderSize = 4 := rfl
  have hle := le_roundUp (m := 4) (by decide) (size.toNat + blockHeaderSize)
  have hlt := roundUp_lt (m := 4) (by decide) (size.toNat + blockHeaderSize)
  have hmod : roundUp 4 (size.toNat + blockHeaderSize) % 4 = 0 := by
    simp [roundUp]
  rw [needed]
  omega

/-- `HeapAlloc` with a first region. -/
theorem heapAlloc_eq {h₁ : UserHeap} (hsize : 0 < size) (hmax : size < 2 ^ 31) (hfuel : 4 ≤ fuel)
    (hfirst : (firstRegion grants h).outcome = .ret h₁) :
    heapAlloc grants fuel h size =
      ⟨(firstRegion grants h).trace ++
          (allocateFrom grants fuel fuel h₁ h₁.baseBlock (needed size)).trace,
        (allocateFrom grants fuel fuel h₁ h₁.baseBlock (needed size)).outcome >>= fun r =>
          .ret (some r.1, r.2)⟩ := by
  have hheader : blockHeaderSize = 4 := rfl
  have hclosest : (Traced.lift (UserHeap.closestPow fuel (size.toNat + blockHeaderSize) 4) :
      Traced MallocEvent ℕ).outcome = .ret (needed size) := by
    obtain ⟨k, rfl⟩ := Nat.exists_eq_add_of_le hfuel
    rw [Traced.lift_outcome, Nat.add_comm 4 k]
    exact UserHeap.closestPow_eq (by omega) (by omega) k
  rw [heapAlloc, if_neg (by omega), Traced.bind_of_ret hfirst, Traced.bind_of_ret hclosest]
  generalize allocateFrom grants fuel fuel h₁ h₁.baseBlock (needed size) = x
  have hx : (do let (res, h) ← x; return (some res, h) : Traced MallocEvent (Option ℕ × UserHeap)) =
      ⟨x.trace, x.outcome >>= fun r => .ret (some r.1, r.2)⟩ := Traced.bind_pure_eq x _
  rw [hx]
  rfl

/-- Without one, it has come to an end. -/
theorem heapAlloc_refused (hsize : 0 < size) (hbase : h.baseBlock = 0)
    (hgrant : ¬Granted grants h.brk 1) : heapAlloc grants fuel h size =
      ⟨[.sbrk 1, .refused, .write 0 blockHeaderSize], .fault⟩ := by
  have hfirst := firstRegion_refused hbase hgrant
  rw [heapAlloc, if_neg (by omega), hfirst]
  exact Traced.bind_of_fault rfl _

end Malloc

end LtMicros
