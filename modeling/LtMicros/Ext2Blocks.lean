import LtMicros.Ext2

/-!
# The loops over the blocks of a file

`Ext2ReadFile` copies one block behind the other, wherever it has found their numbers. What it
has come to is the list of these numbers; a loop makes it longer by what it picks at the
pointers in front of the first zero.
-/

namespace LtMicros

open Lib

namespace UserProgram

/-- A call of `Ext2ReadFile` that has its first two buffers. -/
structure FileJob where
  disk : Ext2Disk
  total : ℕ
  fileContent : ℕ
  block : ℕ

variable {start n fuel blockSize : ℕ} {w : UserProgram} {job : FileJob} {dev : AtaDevice}
  {c : Traced.Contract Access} {done done' except : List ℕ} {kept : List (ℕ × ℕ)} {s s' : FileState}

/-- Every sector can be read. -/
def AllSectors (dev : AtaDevice) : Prop := ∀ lba, dev.sector lba ≠ none

theorem AllSectors.served (h : AllSectors dev) (offset size : ℕ) : Served dev offset size :=
  fun _ _ _ _ => h _

theorem mul32_lt (a b : ℕ) : mul32 a b < 2 ^ 32 := Nat.mod_lt _ (by decide)

/-- Byte `i` of a buffer into which the blocks of these numbers have been copied. -/
def walkByte (dev : AtaDevice) (blockSize : ℕ) (done : List ℕ) (i : ℕ) : U8 :=
  match done[i / blockSize]? with
  | some number => delivered dev (mul32 number blockSize) blockSize (i % blockSize)
  | none => 0

theorem walkByte_append_of_ne {number i : ℕ} (h : i / blockSize ≠ done.length) :
    walkByte dev blockSize (done ++ [number]) i = walkByte dev blockSize done i := by
  have hget : (done ++ [number])[i / blockSize]? = done[i / blockSize]? := by
    rcases Nat.lt_or_gt_of_ne h with hlt | hgt
    · exact List.getElem?_append_left hlt
    · rw [List.getElem?_eq_none (by simp; omega), List.getElem?_eq_none (by omega)]
  rw [walkByte, walkByte, hget]

theorem walkByte_append_of_eq {number i : ℕ} (h : i / blockSize = done.length) :
    walkByte dev blockSize (done ++ [number]) i =
      delivered dev (mul32 number blockSize) blockSize (i % blockSize) := by
  rw [walkByte, h, List.getElem?_concat_length]

/-- What a contract has to allow for `Ext2ReadFile`. -/
structure AllowsFile (c : Traced.Contract Access) (total blockSize : ℕ) : Prop where
  inside : AllowsInside c
  content : ∀ live fileContent fileOffset fileSize size, (fileContent, total) ∈ live →
    fileOffset + fileSize = total → size ≤ fileSize →
    c.ok (.content live fileContent fileOffset fileSize size)
  entry : ∀ index < blockSize / 4, c.ok (.entry index)

/-- The sizes that have come through `HeapAlloc`. -/
structure FileCall (c : Traced.Contract Access) (fuel : ℕ) (job : FileJob) : Prop where
  allows : AllowsFile c job.total job.disk.blockSize
  fuel : 2 ^ 32 ≤ fuel
  pos : 0 < job.disk.blockSize
  small : job.disk.blockSize < 2 ^ 31
  total : job.total < 2 ^ 31
  ne : job.fileContent ≠ job.block

/-- The buffers and counters of `Ext2ReadFile` when it has come to these blocks. Larger blocks than
`AtaRead` has buffers for are not looked into. -/
structure FileInv (job : FileJob) (done : List ℕ) (s : FileState) : Prop where
  content : (job.fileContent, job.total) ∈ s.w.live
  block : (job.block, job.disk.blockSize) ∈ s.w.live
  offset : job.disk.blockSize ≤ 2 ^ 30 →
    s.fileOffset = min job.total (job.disk.blockSize * done.length)
  size : s.fileOffset + s.fileSize = job.total
  bytes : job.disk.blockSize ≤ 2 ^ 30 → ∀ i < job.total,
    s.w.h.mem (job.fileContent + i) = walkByte job.disk.device job.disk.blockSize done i

/-- Calls that keep the two buffers of the loops. -/
theorem FileInv.evolves (h : FileInv job done s) (hev : Evolves c start n except s.w w)
    (hcontent : job.fileContent ∉ except) (hblock : (job.block, job.disk.blockSize) ∈ w.live) :
    FileInv job done { s with w } := by
  obtain ⟨hlive, hbytes⟩ := hev.rest _ h.content hcontent
  exact ⟨hlive, hblock, h.offset, h.size, fun hsmall i hi =>
    (hbytes i hi).trans (h.bytes hsmall i hi)⟩

theorem FileInv.congr (h : FileInv job done s)
    (heq : job.disk.blockSize ≤ 2 ^ 30 → done = done') : FileInv job done' s := by
  refine ⟨h.content, h.block, fun hsmall => ?_, h.size, fun hsmall => ?_⟩
  · rw [← heq hsmall]
    exact h.offset hsmall
  · rw [← heq hsmall]
    exact h.bytes hsmall

/-- The bytes of a block are those at its place in the file. -/
theorem FileInv.copied {number size : ℕ} {m m' : Bytes} (h : FileInv job done s)
    (hpos : 0 < job.disk.blockSize) (hsmall : job.disk.blockSize ≤ 2 ^ 30)
    (hsize : size = min s.fileSize job.disk.blockSize)
    (hread : ∀ i < job.disk.blockSize, m (job.block + i) =
      delivered job.disk.device (mul32 number job.disk.blockSize) job.disk.blockSize i)
    (hkeep : ∀ i < job.total, m (job.fileContent + i) =
      walkByte job.disk.device job.disk.blockSize done i)
    (hcopy : ∀ x, m' x = if job.fileContent + s.fileOffset ≤ x ∧
      x < job.fileContent + s.fileOffset + size then
        m (job.block + (x - (job.fileContent + s.fileOffset)))
      else m x) {i : ℕ} (hi : i < job.total) :
    m' (job.fileContent + i) =
      walkByte job.disk.device job.disk.blockSize (done ++ [number]) i := by
  have hoffset := h.offset hsmall
  have htotal := h.size
  rw [hcopy]
  by_cases hin : s.fileOffset ≤ i ∧ i < s.fileOffset + size
  · have heq : s.fileOffset = job.disk.blockSize * done.length := by omega
    obtain ⟨x, rfl⟩ := Nat.exists_eq_add_of_le hin.1
    have hlt : x < job.disk.blockSize := by omega
    have hdiv : (s.fileOffset + x) / job.disk.blockSize = done.length := by
      rw [heq, Nat.mul_add_div hpos, Nat.div_eq_of_lt hlt, Nat.add_zero]
    have hmod : (s.fileOffset + x) % job.disk.blockSize = x := by
      rw [heq, Nat.mul_add_mod, Nat.mod_eq_of_lt hlt]
    rw [if_pos ⟨by omega, by omega⟩, walkByte_append_of_eq hdiv, hmod, ← hread x hlt]
    congr 2
    omega
  · have hdiv : i / job.disk.blockSize ≠ done.length := by
      intro heq
      have hle : job.disk.blockSize * done.length ≤ i := heq ▸ Nat.mul_div_le i _
      have hlt : i < job.disk.blockSize * done.length + job.disk.blockSize := by
        have h := Nat.lt_mul_div_succ i hpos
        rwa [heq, Nat.mul_succ] at h
      omega
    rw [if_neg (by omega), walkByte_append_of_ne hdiv]
    exact hkeep i hi

/-! ## One block -/

/-- What a loop or a part of `Ext2ReadFile` does: it comes to some more blocks, or stops at a sector
that cannot be read. -/
structure Walked (c : Traced.Contract Access) (start n : ℕ) (job : FileJob) (except : List ℕ)
    (kept : List (ℕ × ℕ)) (done : List ℕ) (s : FileState) (r : Status × FileState) : Prop where
  evolves : Evolves c start n except s.w r.2.w
  kept : ∀ a ∈ kept, a ∈ r.2.w.live
  result : (r.1 = .statusFailure ∧ ¬AllSectors job.disk.device ∧ ∃ done', FileInv job done' r.2) ∨
    (r.1 = .statusSuccess ∧ FileInv job done r.2)

/-- The memory that one call of `AtaRead` may take for a block. -/
def blockRoom (disk : Ext2Disk) : ℕ := UserHeap.growth (disk.blockSize + 1023)

/-- One block is read and copied behind the others, or a sector of it cannot be read. -/
theorem FileCall.readBlock (hc : FileCall c fuel job) (hw : Owns start s.w)
    (hroom : Room c s.w (blockRoom job.disk + n)) (h : FileInv job done s) (number : ℕ) :
    Traced.Meets c (s.readBlock fuel job.disk job.block job.fileContent number)
      (Walked c start n job [job.fileContent, job.block] [] (done ++ [number]) s) := by
  have htotal := hc.total
  have hsize := hc.small
  rw [FileState.readBlock]
  refine (ataRead_meets hw h.block (fun _ => le_rfl) hsize (mul32_lt _ _) hc.allows.inside hc.fuel
    hroom).bind ?_
  rintro ⟨ret, w₁⟩ ⟨hev₁, hblock₁, ⟨rfl, hfails⟩ | ⟨hret, -, hfilled⟩⟩
  · dsimp only at hev₁ hblock₁ ⊢
    rw [if_pos (by decide)]
    exact Traced.Meets.pure ⟨hev₁.weaken (by simp), nofun, .inl ⟨rfl,
      fun hall => hfails (hall.served _ _), _, h.evolves hev₁ (by simpa using hc.ne) hblock₁⟩⟩
  · dsimp only at hev₁ hblock₁ hret hfilled ⊢
    rw [if_neg (by omega)]
    have h₁ := h.evolves hev₁ (by simpa using hc.ne) hblock₁
    have hcounters := h.size
    have hmin : (if s.fileSize > job.disk.blockSize then job.disk.blockSize else s.fileSize) =
        min s.fileSize job.disk.blockSize := by
      split <;> omega
    rw [hmin]
    refine (Traced.Meets.note (hc.allows.content _ _ _ _ _ h₁.content hcounters (by omega))
      (Q := fun _ => True) trivial).bind fun _ _ => ?_
    have hin : Inside w₁.live (job.fileContent + s.fileOffset)
        (min s.fileSize job.disk.blockSize) :=
      ⟨_, h₁.content, Nat.le_add_right _ _, by dsimp only; omega⟩
    refine (memCopy_meets hev₁.owns h₁.content hblock₁ hc.ne.symm (Nat.le_add_right _ _) (by omega)
      le_rfl (by omega) (hc.allows.inside _ _ _ hin) hev₁.room).bind ?_
    rintro w₂ ⟨hev₂, hlive₂, hbytes₂⟩
    refine Traced.Meets.pure ⟨(hev₁.trans hev₂).weaken (by simp), nofun,
      .inr ⟨rfl, ?_, ?_, ?_, ?_, ?_⟩⟩
    · exact hlive₂.symm ▸ h₁.content
    · exact hlive₂.symm ▸ hblock₁
    · intro hsmall
      have hoffset := h.offset hsmall
      dsimp only
      rw [add32_of_lt (by omega), List.length_append, List.length_singleton, Nat.mul_succ]
      omega
    · dsimp only
      rw [add32_of_lt (by omega), sub32_of_le (by omega) (by omega)]
      omega
    · intro hsmall i hi
      refine h.copied hc.pos hsmall rfl (fun j hj => ?_) (h₁.bytes hsmall) hbytes₂ hi
      have hj' := hfilled j hj
      rwa [Filled, if_pos ⟨hj, by unfold sectors ataBlockSize; omega⟩] at hj'

/-! ## A loop over pointers -/

/-- The pointers in front of the first zero. -/
def leading (pointer : ℕ → ℕ) (count : ℕ) : ℕ :=
  ((List.range count).takeWhile fun i => pointer i ≠ 0).length

theorem leading_eq {pointer : ℕ → ℕ} {count k : ℕ} (hk : k ≤ count)
    (hne : ∀ i < k, pointer i ≠ 0) (hend : k = count ∨ pointer k = 0) :
    leading pointer count = k := by
  have hsplit : List.range count = List.range k ++ (List.range (count - k)).map (k + ·) := by
    rw [← List.range_add, Nat.add_sub_cancel' hk]
  rw [leading, hsplit, List.takeWhile_append_of_pos (by simpa using hne)]
  rcases hend with rfl | hzero
  · simp
  · cases hrest : count - k <;> simp [List.range_succ_eq_map, hzero]

/-- The blocks that a loop over `count` pointers picks. -/
def picked (pointer : ℕ → ℕ) (count : ℕ) (pick : ℕ → List ℕ) : List ℕ :=
  (List.range (leading pointer count)).flatMap pick

/-- What one turn does, in the same way. -/
def Turned (c : Traced.Contract Access) (start n : ℕ) (job : FileJob) (except : List ℕ)
    (kept : List (ℕ × ℕ)) (done : List ℕ) (i : ℕ) (s : FileState) :
    ℕ × FileState ⊕ Status × FileState → Prop
  | .inl (j, s') => j = i + 1 ∧
      Walked c start n job except kept done s (.statusSuccess, s')
  | .inr (status, s') => status = .statusFailure ∧
      Walked c start n job except kept done s (.statusFailure, s')

theorem Walked.turned {i : ℕ} {r : Status × FileState}
    (h : Walked c start n job except kept done s r) :
    Traced.Meets c (nextTurn i r) (Turned c start n job except kept done i s) := by
  obtain ⟨status, s'⟩ := r
  rcases h.result with ⟨hstatus, -⟩ | ⟨hstatus, -⟩
  · cases hstatus
    exact Traced.Meets.pure ⟨rfl, h⟩
  · cases hstatus
    exact Traced.Meets.pure ⟨rfl, h⟩

/-- A loop over `count` pointers, which ends at the first zero and picks some blocks at each of the
others. -/
theorem FileCall.loop (hc : FileCall c fuel job)
    {turn : ℕ × FileState → Traced Access (ℕ × FileState ⊕ Status × FileState)}
    {pointer : ℕ → ℕ} {pick : ℕ → List ℕ} {count cost : ℕ} (hcount : count < 2 ^ 32)
    (hend : ∀ i s', Evolves c start n except s.w s'.w → ¬(i < count ∧ pointer i ≠ 0) →
      Traced.Meets c (turn (i, s')) fun r => r = .inr (.statusSuccess, s'))
    (hturn : ∀ i s' done' k, i < count → pointer i ≠ 0 →
      Evolves c start (cost + k) except s.w s'.w → (∀ a ∈ kept, a ∈ s'.w.live) →
      FileInv job done' s' →
      Traced.Meets c (turn (i, s'))
        (Turned c start k job except kept (done' ++ pick i) i s'))
    (hw : Owns start s.w) (hroom : Room c s.w (cost * count + n))
    (hkept : ∀ a ∈ kept, a ∈ s.w.live) (h : FileInv job done s) :
    Traced.Meets c (Traced.loop turn fuel (0, s))
      (Walked c start n job except kept (done ++ picked pointer count pick) s) := by
  refine Traced.Meets.loop
    (I := fun x => x.1 ≤ count ∧ (∀ i < x.1, pointer i ≠ 0) ∧
      Evolves c start (cost * (count - x.1) + n) except s.w x.2.w ∧
      (∀ a ∈ kept, a ∈ x.2.w.live) ∧
      FileInv job (done ++ (List.range x.1).flatMap pick) x.2)
    (fun x => count - x.1) ?_ ⟨Nat.zero_le _, fun _ h => absurd h (Nat.not_lt_zero _),
      .refl hw hroom _, hkept, by simpa using h⟩ (Nat.lt_of_lt_of_le (Nat.lt_of_le_of_lt
        (Nat.sub_le _ _) hcount) hc.fuel)
  rintro ⟨i, s'⟩ ⟨hi, hne, hev, hkept', h'⟩
  dsimp only at hi hne hev hkept' h'
  by_cases hgo : i < count ∧ pointer i ≠ 0
  · have hroom' : cost * (count - i) + n = cost + (cost * (count - (i + 1)) + n) := by
      rw [show count - i = count - (i + 1) + 1 by omega, Nat.mul_succ]
      omega
    rw [hroom'] at hev
    refine (hturn i s' _ _ hgo.1 hgo.2 hev hkept' h').mono ?_
    rintro (⟨j, s''⟩ | ⟨status, s''⟩) ⟨rfl, hwalk⟩
    · refine ⟨fun x hx => ?_, nofun⟩
      cases hx
      refine ⟨⟨hgo.1, fun j hj => ?_, hev.andThen hwalk.evolves, hwalk.kept, ?_⟩, by
        dsimp only
        omega⟩
      · rcases Nat.lt_succ_iff_lt_or_eq.mp hj with hj | rfl
        · exact hne j hj
        · exact hgo.2
      · rw [List.range_succ, List.flatMap_append, List.flatMap_singleton, ← List.append_assoc]
        exact (hwalk.result.resolve_left nofun).2
    · refine ⟨nofun, fun x hx => ?_⟩
      cases hx
      exact ⟨(hev.andThen hwalk.evolves).le (Nat.le_add_left _ _), hwalk.kept,
        .inl (hwalk.result.resolve_right nofun)⟩
  · refine (hend i s' (hev.le (Nat.le_add_left _ _)) hgo).mono ?_
    rintro _ rfl
    refine ⟨nofun, fun x hx => ?_⟩
    cases hx
    have hleading : leading pointer count = i := leading_eq hi hne (by omega)
    exact ⟨hev.le (Nat.le_add_left _ _), hkept', .inr ⟨rfl, by rwa [picked, hleading]⟩⟩

end UserProgram

end LtMicros
