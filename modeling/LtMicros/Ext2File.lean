import LtMicros.Ext2Blocks

/-!
# Reading a file

The loops of `Ext2ReadFile` and what they come to, for every inode and every disk: no write
leaves its buffer, the counters add up, and each loop comes to its end.
-/

namespace LtMicros

open Lib

namespace UserProgram

variable {start n fuel inode : ℕ} {w w' : UserProgram} {job : FileJob} {disk : Ext2Disk}
  {c : Traced.Contract Access} {done except : List ℕ} {kept : List (ℕ × ℕ)} {s s' : FileState}

/-- `table[i]` of the table in a block, as it is read. -/
def tableRead (disk : Ext2Disk) (number i : ℕ) : ℕ :=
  Bytes.load32 (delivered disk.device (mul32 number disk.blockSize) disk.blockSize) (4 * i)

/-- The blocks that the loop over the direct blocks reads. -/
def directBlocks (m : Bytes) (inode : ℕ) : List ℕ :=
  picked (inodeBlock m inode) inodeNbDirectPtr fun i => [inodeBlock m inode i]

/-- Those of a singly-indirect block. -/
def singlyBlocks (disk : Ext2Disk) (number : ℕ) : List ℕ :=
  if number ≠ 0 then
    picked (tableRead disk number) (disk.blockSize / 4) fun i => [tableRead disk number i]
  else []

/-- Those of a doubly-indirect block, where each table gives one of its blocks again and again. -/
def doublyBlocks (disk : Ext2Disk) (number : ℕ) : List ℕ :=
  if number ≠ 0 then
    picked (tableRead disk number) (disk.blockSize / 4) fun i =>
      picked (tableRead disk (tableRead disk number i)) (disk.blockSize / 4) fun _ =>
        [tableRead disk (tableRead disk number i) i]
  else []

/-- All blocks that `Ext2ReadFile` reads for an inode. -/
def walk (disk : Ext2Disk) (m : Bytes) (inode : ℕ) : List ℕ :=
  directBlocks m inode ++ singlyBlocks disk (inodeBlock m inode inodeSinglyIndirectPtrIndex) ++
    doublyBlocks disk (inodeBlock m inode inodeDoublyIndirectPtrIndex)

theorem leading_le (pointer : ℕ → ℕ) (count : ℕ) : leading pointer count ≤ count := by
  rw [leading]
  exact (List.takeWhile_sublist _).length_le.trans_eq List.length_range

theorem leading_congr {pointer pointer' : ℕ → ℕ} {count : ℕ}
    (h : ∀ i < count, pointer i = pointer' i) : leading pointer count = leading pointer' count := by
  have hlist (l : List ℕ) (hl : ∀ i ∈ l, pointer i = pointer' i) :
      l.takeWhile (fun i => pointer i ≠ 0) = l.takeWhile fun i => pointer' i ≠ 0 := by
    induction l with
    | nil => rfl
    | cons i l ih =>
      rw [List.takeWhile_cons, List.takeWhile_cons, hl i List.mem_cons_self,
        ih fun j hj => hl j (List.mem_cons_of_mem _ hj)]
  rw [leading, leading, hlist _ fun i hi => h i (List.mem_range.mp hi)]

theorem picked_congr {pointer pointer' : ℕ → ℕ} {pick pick' : ℕ → List ℕ} {count : ℕ}
    (h : ∀ i < count, pointer i = pointer' i) (hpick : ∀ i < count, pick i = pick' i) :
    picked pointer count pick = picked pointer' count pick' := by
  rw [picked, picked, leading_congr h]
  refine List.flatMap_congr fun i hi => hpick i ?_
  exact Nat.lt_of_lt_of_le (List.mem_range.mp hi) (leading_le _ _)

/-- A word of a buffer that is kept. -/
theorem Evolves.load32 {p k i : ℕ} (hev : Evolves c start n except w w') (hmem : (p, k) ∈ w.live)
    (hex : p ∉ except) (hi : i + 4 ≤ k) : w'.h.mem.load32 (p + i) = w.h.mem.load32 (p + i) := by
  have hbytes := (hev.rest _ hmem hex).2
  refine Bytes.load32_congr fun x hlo hhi => ?_
  obtain ⟨y, rfl⟩ := Nat.exists_eq_add_of_le hlo
  rw [Nat.add_assoc]
  exact hbytes (i + y) (by dsimp only; omega)

theorem Walked.congr {done' : List ℕ} {r : Status × FileState}
    (h : Walked c start n job except kept done s r)
    (heq : job.disk.blockSize ≤ 2 ^ 30 → done = done') :
    Walked c start n job except kept done' s r :=
  ⟨h.evolves, h.kept, h.result.imp_right fun h => ⟨h.1, h.2.congr heq⟩⟩

/-! ## The loops -/

/-- The loop over the direct blocks. -/
theorem FileCall.direct (hc : FileCall c fuel job) (hinode : (inode, sizeofExt2Inode) ∈ s.w.live)
    (hne : inode ∉ [job.fileContent, job.block]) (hw : Owns start s.w)
    (hroom : Room c s.w (blockRoom job.disk * inodeNbDirectPtr + n)) (h : FileInv job done s) :
    Traced.Meets c
      (Traced.loop (directTurn fuel job.disk inode job.block job.fileContent) fuel (0, s))
      (Walked c start n job [job.fileContent, job.block] []
        (done ++ directBlocks s.w.h.mem inode) s) := by
  have hpointer {i k : ℕ} {s' : FileState} (hi : i < inodeNbDirectPtr)
      (hev : Evolves c start k [job.fileContent, job.block] s.w s'.w) :
      inodeBlock s'.w.h.mem inode i = inodeBlock s.w.h.mem inode i := by
    unfold inodeNbDirectPtr at hi
    rw [inodeBlock, inodeBlock, Nat.add_assoc]
    exact hev.load32 hinode hne (by unfold sizeofExt2Inode; omega)
  refine hc.loop (by decide) (fun i s' hev hend => ?_)
    (fun i s' done' k hi hpos hev _ h' => ?_) hw hroom nofun h
  · rw [directTurn, if_neg]
    · exact Traced.Meets.pure rfl
    · rintro ⟨hi, hpos⟩
      exact hend ⟨hi, hpointer hi hev ▸ hpos⟩
  · have heq := hpointer hi hev
    rw [directTurn, if_pos ⟨hi, heq.symm ▸ hpos⟩, heq]
    exact (hc.readBlock hev.owns hev.room h' _).bind fun r hr => hr.turned

theorem FileCall.entry (hc : FileCall c fuel job) {i : ℕ} (hi : i < job.disk.blockSize / 4)
    (table : ℕ) :
    Traced.Meets c (s.tableEntry table i) fun e => e = s.w.h.mem.load32 (table + 4 * i) :=
  (Traced.Meets.note (hc.allows.entry i hi) (Q := fun _ => True) trivial).bind fun _ _ =>
    Traced.Meets.pure rfl

/-- The loops over a table. -/
theorem FileCall.table (hc : FileCall c fuel job) {table : ℕ} (pick : ℕ → ℕ)
    (hpick : ∀ i < job.disk.blockSize / 4, pick i < job.disk.blockSize / 4)
    (htable : (table, job.disk.blockSize) ∈ s.w.live)
    (hne : table ∉ [job.fileContent, job.block]) (hw : Owns start s.w)
    (hroom : Room c s.w (blockRoom job.disk * (job.disk.blockSize / 4) + n))
    (h : FileInv job done s) :
    Traced.Meets c
      (Traced.loop (tableTurn fuel job.disk table pick job.block job.fileContent) fuel (0, s))
      (Walked c start n job [job.fileContent, job.block] []
        (done ++ picked (fun i => s.w.h.mem.load32 (table + 4 * i)) (job.disk.blockSize / 4)
          fun i => [s.w.h.mem.load32 (table + 4 * pick i)]) s) := by
  have hsmall := hc.small
  have hentry {i k : ℕ} {s' : FileState} (hi : i < job.disk.blockSize / 4)
      (hev : Evolves c start k [job.fileContent, job.block] s.w s'.w) :
      Traced.Meets c (s'.tableEntry table i) fun e => e = s.w.h.mem.load32 (table + 4 * i) :=
    (hc.entry hi table).mono fun _ he => he.trans (hev.load32 htable hne (by omega))
  refine hc.loop (by omega) (fun i s' hev hend => ?_)
    (fun i s' done' k hi hpos hev _ h' => ?_) hw hroom nofun h
  · rw [tableTurn]
    split
    · rename_i hi
      refine (hentry hi hev).bind ?_
      rintro _ rfl
      rw [if_neg fun hpos => hend ⟨hi, hpos⟩]
      exact Traced.Meets.pure rfl
    · exact Traced.Meets.pure rfl
  · rw [tableTurn, if_pos hi]
    refine (hentry hi hev).bind ?_
    rintro _ rfl
    rw [if_pos hpos]
    refine (hentry (hpick i hi) hev).bind ?_
    rintro _ rfl
    exact (hc.readBlock hev.owns hev.room h' _).bind fun r hr => hr.turned

/-- A table is read into a buffer. -/
theorem FileCall.readTable (hc : FileCall c fuel job) {table : ℕ} (hw : Owns start w)
    (hmem : (table, job.disk.blockSize) ∈ w.live) (hroom : Room c w (blockRoom job.disk + n))
    (number : ℕ) :
    Traced.Meets c (w.ataRead fuel job.disk.device table (mul32 number job.disk.blockSize)
        job.disk.blockSize) fun r =>
      Evolves c start n [table] w r.2 ∧ (table, job.disk.blockSize) ∈ r.2.live ∧
        ((r.1 < 0 ∧ ¬AllSectors job.disk.device) ∨ (0 ≤ r.1 ∧ (job.disk.blockSize ≤ 2 ^ 30 →
          ∀ i < job.disk.blockSize / 4,
            r.2.h.mem.load32 (table + 4 * i) = tableRead job.disk number i))) := by
  refine (ataRead_meets hw hmem (fun _ => le_rfl) hc.small (mul32_lt _ _) hc.allows.inside hc.fuel
    hroom).mono ?_
  rintro ⟨ret, w'⟩ ⟨hev, hlive, ⟨rfl, hfails⟩ | ⟨hret, -, hfilled⟩⟩
  · exact ⟨hev, hlive, .inl ⟨show -eio < 0 by decide, fun hall => hfails (hall.served _ _)⟩⟩
  · refine ⟨hev, hlive, .inr ⟨hret, fun hsmall i hi => ?_⟩⟩
    refine Bytes.load32_shift (fun j hj => ?_) (by omega : 4 * i + 4 ≤ job.disk.blockSize)
    have h := hfilled j hj
    rwa [Filled, if_pos ⟨hj, by unfold sectors ataBlockSize; omega⟩] at h

/-- What goes before in other buffers. -/
theorem Walked.before {except' : List ℕ} {k : ℕ} {s₁ : FileState} {r : Status × FileState}
    (h : Walked c start n job except' kept done s₁ r)
    (hev : Evolves c start k except s.w s₁.w) : Walked c start n job (except ++ except') kept done s r :=
  ⟨hev.trans h.evolves, h.kept, h.result⟩

theorem Walked.weaken {except' : List ℕ} {r : Status × FileState}
    (h : Walked c start n job except kept done s r)
    (hsub : ∀ q ∈ except, q ∈ except' ∨ ∀ a ∈ s.w.live, a.1 ≠ q) :
    Walked c start n job except' kept done s r :=
  ⟨h.evolves.weaken hsub, h.kept, h.result⟩

/-- The memory that the loop over a table may take, with the table. -/
def tableRoom (disk : Ext2Disk) : ℕ := blockRoom disk + blockRoom disk * (disk.blockSize / 4)

/-- One turn of the outer loop over the doubly-indirect blocks. -/
theorem FileCall.doubly (hc : FileCall c fuel job) {singlyBlock doublyBlock i : ℕ}
    (hi : i < job.disk.blockSize / 4)
    (hpos : s.w.h.mem.load32 (singlyBlock + 4 * i) ≠ 0)
    (hdoubly : (doublyBlock, job.disk.blockSize) ∈ s.w.live)
    (hne : doublyBlock ∉ [job.fileContent, job.block]) (hw : Owns start s.w)
    (hroom : Room c s.w (tableRoom job.disk + n)) (h : FileInv job done s) {number : ℕ}
    (hnumber : s.w.h.mem.load32 (singlyBlock + 4 * i) = number) :
    Traced.Meets c
      (doublyTurn fuel job.disk singlyBlock doublyBlock job.block job.fileContent (i, s))
      (Turned c start n job [doublyBlock, job.fileContent, job.block]
        [(doublyBlock, job.disk.blockSize)]
        (done ++ picked (tableRead job.disk number) (job.disk.blockSize / 4) fun _ =>
          [tableRead job.disk number i]) i s) := by
  rw [hnumber] at hpos
  simp only [List.mem_cons, List.not_mem_nil, or_false, not_or] at hne
  rw [tableRoom, Nat.add_assoc] at hroom
  rw [doublyTurn, if_pos hi]
  refine (hc.entry hi singlyBlock).bind ?_
  rintro _ rfl
  rw [hnumber, if_pos hpos]
  refine (hc.readTable hw hdoubly hroom _).bind ?_
  rintro ⟨ret, w₁⟩ ⟨hev₁, hdoubly₁, hread⟩
  dsimp only at hev₁ hdoubly₁ hread ⊢
  obtain ⟨hblock₁, -⟩ := hev₁.rest _ h.block (by simpa using Ne.symm hne.2)
  have h₁ := h.evolves hev₁ (by simpa using Ne.symm hne.1) hblock₁
  rcases hread with ⟨hret, hsectors⟩ | ⟨hret, htable⟩
  · rw [if_pos hret]
    refine Traced.Meets.pure ⟨rfl, ?_, ?_, .inl ⟨rfl, hsectors, _, h₁⟩⟩
    · exact (hev₁.weaken (by simp)).le (Nat.le_add_left _ _)
    · simpa using hdoubly₁
  · rw [if_neg (by omega), doublyLoop]
    refine (hc.table (fun _ => i) (s := { s with w := w₁ }) (fun _ _ => hi) hdoubly₁
      (by simpa using hne) hev₁.owns hev₁.room h₁).bind fun r hr => ?_
    obtain ⟨hdoubly₂, -⟩ := hr.evolves.rest _ hdoubly₁ (by simpa using hne)
    have hwalk : Walked c start n job [doublyBlock, job.fileContent, job.block]
        [(doublyBlock, job.disk.blockSize)] _ s r :=
      ⟨hev₁.trans hr.evolves, by simpa using hdoubly₂, hr.result⟩
    refine (hwalk.congr fun hsmall => ?_).turned
    rw [picked_congr (htable hsmall) fun _ _ => by rw [htable hsmall i hi]]

/-! ## The parts of the function -/

/-- A buffer for a block that a part has allocated, if it has. -/
def Buffer (disk : Ext2Disk) (w w' : UserProgram) : Option ℕ → Prop
  | none => True
  | some p => (p, disk.blockSize) ∈ w'.live ∧ ∀ a ∈ w.live, a.1 ≠ p

theorem Buffer.mem {o : Option ℕ} {p : ℕ} (h : Buffer disk w w' o) (hp : p ∈ o) :
    (p, disk.blockSize) ∈ w'.live ∧ ∀ a ∈ w.live, a.1 ≠ p := by
  cases hp
  exact h

/-- All buffers stay when the first two do. -/
theorem FileInv.live {done' : List ℕ} (h : FileInv job done s) (h' : FileInv job done' s')
    (hw : Owns start s.w) (hev : Evolves c start n [job.fileContent, job.block] s.w s'.w) :
    ∀ a ∈ s.w.live, a ∈ s'.w.live := by
  rintro ⟨p, k⟩ ha
  by_cases hcontent : p = job.fileContent
  · subst hcontent
    rw [hw.size_eq ha h.content]
    exact h'.content
  · by_cases hblock : p = job.block
    · subst hblock
      rw [hw.size_eq ha h.block]
      exact h'.block
    · exact (hev.rest _ ha (by simpa using ⟨hcontent, hblock⟩)).1

/-- Another buffer for a block. -/
theorem FileCall.alloc (hc : FileCall c fuel job) (hw : Owns start w)
    (hroom : Room c w (UserHeap.growth job.disk.blockSize + n)) :
    Traced.Meets c (w.heapAlloc fuel (int32 job.disk.blockSize)) fun r =>
      ∃ p, r.1 = some p ∧ Evolves c start n [] w r.2 ∧ Buffer job.disk w r.2 (some p) := by
  have hpos := hc.pos
  have hsmall := hc.small
  have hint : int32 job.disk.blockSize = job.disk.blockSize := int32_of_lt (by omega) (by omega)
  rw [hint]
  rw [← Int.toNat_natCast job.disk.blockSize] at hroom
  refine (heapAlloc_meets hw (by omega) (by omega) hc.fuel hroom).mono ?_
  rintro ⟨_, w'⟩ ⟨p, rfl, hev, hmem, hfresh, -⟩
  rw [Int.toNat_natCast] at hmem
  exact ⟨p, rfl, hev, hmem, hfresh⟩

/-- The part for the singly-indirect block. -/
theorem FileCall.readSingly (hc : FileCall c fuel job) (hw : Owns start s.w)
    (hroom : Room c s.w (UserHeap.growth job.disk.blockSize + (tableRoom job.disk + n)))
    (h : FileInv job done s) :
    Traced.Meets c (readSingly fuel job.disk inode job.block job.fileContent s) fun r =>
      Walked c start n job [job.fileContent, job.block] []
        (done ++ singlyBlocks job.disk
          (inodeBlock s.w.h.mem inode inodeSinglyIndirectPtrIndex)) s (r.1, r.2.2) ∧
      Buffer job.disk s.w r.2.2.w r.2.1 := by
  rw [UserProgram.readSingly, singlyBlocks]
  dsimp only
  split
  · refine (hc.alloc hw hroom).bind ?_
    rintro ⟨_, w₁⟩ ⟨p, rfl, hev₁, hmem, hfresh⟩
    dsimp only at hev₁ hmem hfresh ⊢
    have hcontent := hfresh _ h.content
    have hblock := hfresh _ h.block
    rw [tableRoom, Nat.add_assoc] at hev₁
    refine (hc.readTable hev₁.owns hmem hev₁.room _).bind ?_
    rintro ⟨ret, w₂⟩ ⟨hev₂, hmem₂, hread⟩
    dsimp only at hev₂ hmem₂ hread ⊢
    have hev : Evolves c start _ [] s.w w₂ := (hev₁.trans hev₂).weaken (by simpa using hfresh)
    obtain ⟨hblock₂, -⟩ := hev.rest _ h.block List.not_mem_nil
    have h₂ := h.evolves hev List.not_mem_nil hblock₂
    rcases hread with ⟨hret, hsectors⟩ | ⟨hret, htable⟩
    · rw [if_pos hret]
      exact Traced.Meets.pure ⟨⟨(hev.weaken (by simp)).le (Nat.le_add_left _ _), nofun,
        .inl ⟨rfl, hsectors, _, h₂⟩⟩, hmem₂, hfresh⟩
    · rw [if_neg (by omega), singlyLoop]
      refine (hc.table (fun i => i) (s := { s with w := w₂ }) (fun _ hi => hi) hmem₂
        (by simpa using ⟨hcontent.symm, hblock.symm⟩) hev₂.owns hev₂.room h₂).bind ?_
      rintro ⟨status, s₃⟩ hwalk
      obtain ⟨hmem₃, -⟩ := hwalk.evolves.rest _ hmem₂ (by simpa using ⟨hcontent.symm, hblock.symm⟩)
      refine Traced.Meets.pure ⟨(hwalk.before hev).congr fun hsmall => ?_, hmem₃, hfresh⟩
      rw [picked_congr (htable hsmall) fun i hi => by rw [htable hsmall i hi]]
  · refine Traced.Meets.pure ⟨⟨.refl hw (hroom.mono (by omega) (by omega)) _, nofun,
      .inr ⟨rfl, by simpa using h⟩⟩, trivial⟩

/-- The part for the doubly-indirect block, with a buffer for its table. -/
theorem FileCall.readDoublyBlocks (hc : FileCall c fuel job) {number singlyBlock : ℕ}
    (hsingly : (singlyBlock, job.disk.blockSize) ∈ s.w.live)
    (hne : singlyBlock ∉ [job.fileContent, job.block]) (hw : Owns start s.w)
    (hroom : Room c s.w (UserHeap.growth job.disk.blockSize +
      (blockRoom job.disk + (tableRoom job.disk * (job.disk.blockSize / 4) + n))))
    (h : FileInv job done s) (hnumber : number ≠ 0) :
    Traced.Meets c (readDoublyBlocks fuel job.disk number singlyBlock job.block job.fileContent s)
      fun r => Walked c start n job [singlyBlock, job.fileContent, job.block]
          [(singlyBlock, job.disk.blockSize)] (done ++ doublyBlocks job.disk number) s
          (r.1, r.2.2) ∧ Buffer job.disk s.w r.2.2.w r.2.1 := by
  have hsmall := hc.small
  simp only [List.mem_cons, List.not_mem_nil, or_false, not_or] at hne
  rw [UserProgram.readDoublyBlocks, doublyBlocks, if_pos hnumber]
  refine (hc.alloc hw hroom).bind ?_
  rintro ⟨_, w₁⟩ ⟨doublyBlock, rfl, hev₁, hmem, hfresh⟩
  dsimp only at hev₁ hmem hfresh ⊢
  have hcontent := hfresh _ h.content
  have hblock := hfresh _ h.block
  have htables := hfresh _ hsingly
  dsimp only at hcontent hblock htables
  obtain ⟨hsingly₁, -⟩ := hev₁.rest _ hsingly List.not_mem_nil
  refine (hc.readTable hev₁.owns hsingly₁ hev₁.room _).bind ?_
  rintro ⟨ret, w₂⟩ ⟨hev₂, hsingly₂, hread⟩
  dsimp only at hev₂ hsingly₂ hread ⊢
  have hev : Evolves c start _ [singlyBlock] s.w w₂ := (hev₁.trans hev₂).weaken (by simp)
  obtain ⟨hmem₂, -⟩ := hev₂.rest _ hmem (by simpa using htables.symm)
  obtain ⟨hblock₂, -⟩ := hev.rest _ h.block (by simpa using Ne.symm hne.2)
  have h₂ := h.evolves hev (by simpa using Ne.symm hne.1) hblock₂
  rcases hread with ⟨hret, hsectors⟩ | ⟨hret, htable⟩
  · rw [if_pos hret]
    exact Traced.Meets.pure ⟨⟨(hev.weaken (by simp)).le (Nat.le_add_left _ _),
      by simpa using hsingly₂, .inl ⟨rfl, hsectors, _, h₂⟩⟩, hmem₂, hfresh⟩
  · rw [if_neg (by omega)]
    have hloop : Traced.Meets c
        (Traced.loop (doublyTurn fuel job.disk singlyBlock doublyBlock job.block job.fileContent)
          fuel (0, ({ s with w := w₂ } : FileState)))
        (Walked c start n job [doublyBlock, job.fileContent, job.block]
          [(doublyBlock, job.disk.blockSize)]
          (done ++ picked (fun i => w₂.h.mem.load32 (singlyBlock + 4 * i))
            (job.disk.blockSize / 4) fun i =>
            picked (tableRead job.disk (w₂.h.mem.load32 (singlyBlock + 4 * i)))
              (job.disk.blockSize / 4) fun _ =>
              [tableRead job.disk (w₂.h.mem.load32 (singlyBlock + 4 * i)) i])
          { s with w := w₂ }) := by
      have hsinglyNe : singlyBlock ∉ [doublyBlock, job.fileContent, job.block] := by
        simpa using ⟨htables, hne⟩
      refine hc.loop (s := { s with w := w₂ }) (by omega)
        (fun i s' hev' hend => ?_) (fun i s' done' k hi hpos hev' hkept h' => ?_) hev₂.owns
        hev₂.room (by simpa using hmem₂) h₂
      · rw [doublyTurn]
        split
        · rename_i hi
          have heq := hev'.load32 hsingly₂ hsinglyNe
            (by omega : 4 * i + 4 ≤ job.disk.blockSize)
          refine (hc.entry hi singlyBlock).bind ?_
          rintro _ rfl
          dsimp only at heq
          rw [heq, if_neg fun hpos => hend ⟨hi, hpos⟩]
          exact Traced.Meets.pure rfl
        · exact Traced.Meets.pure rfl
      · have heq := hev'.load32 hsingly₂ hsinglyNe
          (by omega : 4 * i + 4 ≤ job.disk.blockSize)
        exact hc.doubly hi (heq.symm ▸ hpos) (hkept _ List.mem_cons_self)
          (by simpa using ⟨hcontent.symm, hblock.symm⟩) hev'.owns hev'.room h' heq
    refine hloop.bind ?_
    rintro ⟨status, s₃⟩ hwalk
    obtain ⟨hsingly₃, -⟩ := hwalk.evolves.rest _ hsingly₂ (by simpa using ⟨htables, hne⟩)
    refine Traced.Meets.pure ⟨Walked.congr ⟨(hev.trans hwalk.evolves).weaken fun q hq => ?_,
      by simpa using hsingly₃, hwalk.result⟩ fun hsmall => ?_, hwalk.kept _ List.mem_cons_self,
      hfresh⟩
    · simp only [List.cons_append, List.nil_append, List.mem_cons, List.not_mem_nil,
        or_false] at hq ⊢
      rcases hq with hq | rfl | hq | hq
      · exact .inl (.inl hq)
      · exact .inr hfresh
      · exact .inl (.inr (.inl hq))
      · exact .inl (.inr (.inr hq))
    · rw [picked_congr (htable hsmall) fun i hi => by rw [htable hsmall i hi]]

/-- The buffer for the table of a doubly-indirect block. -/
theorem FileCall.tableBuffer (hc : FileCall c fuel job) {singlyBlock : Option ℕ}
    (hsingly : ∀ p ∈ singlyBlock, (p, job.disk.blockSize) ∈ s.w.live ∧
      p ∉ [job.fileContent, job.block]) (hw : Owns start s.w)
    (hroom : Room c s.w (UserHeap.growth job.disk.blockSize + n)) (h : FileInv job done s) :
    Traced.Meets c (s.w.tableBuffer fuel job.disk singlyBlock) fun r => ∃ p, r.1 = some p ∧
      Evolves c start n [] s.w r.2 ∧ (p, job.disk.blockSize) ∈ r.2.live ∧
      p ∉ [job.fileContent, job.block] ∧ (p ∈ singlyBlock ∨ ∀ a ∈ s.w.live, a.1 ≠ p) := by
  cases singlyBlock with
  | some p =>
    obtain ⟨hmem, hne⟩ := hsingly p rfl
    exact Traced.Meets.pure ⟨p, rfl, .refl hw (hroom.mono (by omega) (by omega)) _, hmem, hne,
      .inl rfl⟩
  | none =>
    refine (hc.alloc hw hroom).mono ?_
    rintro ⟨_, w₁⟩ ⟨p, rfl, hev, hmem, hfresh⟩
    refine ⟨p, rfl, hev, hmem, ?_, .inr hfresh⟩
    simpa using ⟨(hfresh _ h.content).symm, (hfresh _ h.block).symm⟩

/-- The part for the doubly-indirect block. -/
theorem FileCall.readDoubly (hc : FileCall c fuel job) {singlyBlock : Option ℕ}
    (hsingly : ∀ p ∈ singlyBlock, (p, job.disk.blockSize) ∈ s.w.live ∧
      p ∉ [job.fileContent, job.block]) (hw : Owns start s.w)
    (hroom : Room c s.w (UserHeap.growth job.disk.blockSize +
      (UserHeap.growth job.disk.blockSize +
        (blockRoom job.disk + (tableRoom job.disk * (job.disk.blockSize / 4) + n)))))
    (h : FileInv job done s) :
    Traced.Meets c
      (readDoubly fuel job.disk inode singlyBlock job.block job.fileContent s) fun r =>
      Walked c start n job (singlyBlock.toList ++ [job.fileContent, job.block]) []
        (done ++ doublyBlocks job.disk
          (inodeBlock s.w.h.mem inode inodeDoublyIndirectPtrIndex)) s (r.1, r.2.2.2) ∧
      (∀ p ∈ r.2.1, (p, job.disk.blockSize) ∈ r.2.2.2.w.live ∧
        (p ∈ singlyBlock ∨ ∀ a ∈ s.w.live, a.1 ≠ p)) ∧
      ∀ q ∈ r.2.2.1, (q, job.disk.blockSize) ∈ r.2.2.2.w.live ∧ (∀ a ∈ s.w.live, a.1 ≠ q) ∧
        ∀ p ∈ r.2.1, p ≠ q := by
  rw [UserProgram.readDoubly]
  dsimp only
  split
  · rename_i hnumber
    refine (hc.tableBuffer hsingly hw hroom h).bind ?_
    rintro ⟨_, w₁⟩ ⟨p, rfl, hev₁, hmem, hne, hknown⟩
    dsimp only at hev₁ hmem ⊢
    obtain ⟨hblock₁, -⟩ := hev₁.rest _ h.block List.not_mem_nil
    refine (hc.readDoublyBlocks (s := { s with w := w₁ }) hmem hne hev₁.owns hev₁.room
      (h.evolves hev₁ List.not_mem_nil hblock₁) hnumber).bind ?_
    rintro ⟨status, doublyBlock, s₂⟩ ⟨hwalk, hbuffer⟩
    dsimp only at hwalk hbuffer ⊢
    have hp : (p, job.disk.blockSize) ∈ s₂.w.live := hwalk.kept _ List.mem_cons_self
    refine Traced.Meets.pure ⟨⟨(hev₁.trans hwalk.evolves).weaken fun q hq => ?_, nofun,
      hwalk.result⟩, fun q hq => ?_, fun q hq => ?_⟩
    · simp only [List.nil_append, List.mem_cons, List.not_mem_nil, or_false] at hq
      rcases hq with rfl | hq | hq
      · refine hknown.imp (fun hmem => ?_) id
        exact List.mem_append_left _ (Option.mem_toList.mpr hmem)
      · exact .inl (List.mem_append_right _ (by simp [hq]))
      · exact .inl (List.mem_append_right _ (by simp [hq]))
    · cases hq
      exact ⟨hp, hknown⟩
    · cases hq
      obtain ⟨hq, hfresh⟩ := hbuffer
      refine ⟨hq, fun a ha => hfresh a (hev₁.rest a ha List.not_mem_nil).1, fun p' hp' => ?_⟩
      cases hp'
      exact hfresh _ hmem
  · refine Traced.Meets.pure ⟨⟨.refl hw (hroom.mono (by omega) (by omega)) _, nofun,
      .inr ⟨rfl, ?_⟩⟩, fun p hp => ⟨(hsingly p hp).1, .inl hp⟩, nofun⟩
    rename_i hnumber
    rw [doublyBlocks, if_neg hnumber, List.append_nil]
    exact h

/-- The memory that the loops of `Ext2ReadFile` may take. -/
def loopsRoom (disk : Ext2Disk) : ℕ :=
  blockRoom disk * inodeNbDirectPtr + (UserHeap.growth disk.blockSize + (tableRoom disk +
    (UserHeap.growth disk.blockSize + (UserHeap.growth disk.blockSize +
      (blockRoom disk + tableRoom disk * (disk.blockSize / 4))))))

/-- What the loops come to, with the buffers to be freed. -/
structure BlocksRead (c : Traced.Contract Access) (start n : ℕ) (job : FileJob) (done : List ℕ)
    (s : FileState) (r : Status × Option ℕ × Option ℕ × FileState) : Prop where
  walked : Walked c start n job [job.fileContent, job.block] [] done s (r.1, r.2.2.2)
  singly : ∀ p ∈ r.2.1, (p, job.disk.blockSize) ∈ r.2.2.2.w.live ∧ ∀ a ∈ s.w.live, a.1 ≠ p
  doubly : ∀ q ∈ r.2.2.1, (q, job.disk.blockSize) ∈ r.2.2.2.w.live ∧
    (∀ a ∈ s.w.live, a.1 ≠ q) ∧ ∀ p ∈ r.2.1, p ≠ q

/-- The loops of `Ext2ReadFile`. -/
theorem FileCall.readBlocks (hc : FileCall c fuel job)
    (hinode : (inode, sizeofExt2Inode) ∈ s.w.live)
    (hne : inode ∉ [job.fileContent, job.block]) (hw : Owns start s.w)
    (hroom : Room c s.w (loopsRoom job.disk + n)) (h : FileInv job [] s) :
    Traced.Meets c (readBlocks fuel job.disk inode job.block job.fileContent s)
      (BlocksRead c start n job (walk job.disk s.w.h.mem inode) s) := by
  have hpointer {i k : ℕ} {s' : FileState} (hi : i < 15)
      (hev : Evolves c start k [job.fileContent, job.block] s.w s'.w) :
      inodeBlock s'.w.h.mem inode i = inodeBlock s.w.h.mem inode i := by
    rw [inodeBlock, inodeBlock, Nat.add_assoc]
    exact hev.load32 hinode hne (by unfold sizeofExt2Inode; omega)
  simp only [loopsRoom, Nat.add_assoc] at hroom
  rw [UserProgram.readBlocks]
  refine (hc.direct hinode hne hw hroom h).bind ?_
  rintro ⟨status, s₁⟩ hwalk₁
  have hev₁ := hwalk₁.evolves
  rcases hwalk₁.result with ⟨hstatus, hsectors, hinv₁⟩ | ⟨hstatus, hinv₁⟩
  · cases hstatus
    exact Traced.Meets.pure ⟨⟨hev₁.le (by omega), nofun, .inl ⟨rfl, hsectors, hinv₁⟩⟩, nofun, nofun⟩
  · cases hstatus
    dsimp only at hev₁ hinv₁ ⊢
    rw [if_neg (by decide)]
    refine (hc.readSingly hev₁.owns hev₁.room hinv₁).bind ?_
    rintro ⟨status, singlyBlock, s₂⟩ ⟨hwalk₂, hbuffer₂⟩
    have hev₂ := hwalk₂.evolves
    dsimp only at hev₂ hbuffer₂ ⊢
    have hev := hev₁.andThen hev₂
    have hlive₁ := h.live hinv₁ hw hev₁
    have hsingly (p) (hp : p ∈ singlyBlock) := hbuffer₂.mem hp
    rw [hpointer (by decide) hev₁] at hwalk₂
    rcases hwalk₂.result with ⟨hstatus, hsectors, hinv₂⟩ | ⟨hstatus, hinv₂⟩
    · cases hstatus
      exact Traced.Meets.pure ⟨⟨hev.le (by omega), nofun, .inl ⟨rfl, hsectors, hinv₂⟩⟩,
        fun p hp => ⟨(hsingly p hp).1, fun a ha => (hsingly p hp).2 a (hlive₁ a ha)⟩, nofun⟩
    · cases hstatus
      have hlive₂ : ∀ a ∈ s.w.live, a ∈ s₂.w.live := h.live hinv₂ hw hev
      rw [if_neg (by decide)]
      refine (hc.readDoubly (fun p hp => ⟨(hsingly p hp).1, ?_⟩) hev₂.owns hev₂.room hinv₂).mono ?_
      · simpa using ⟨((hsingly p hp).2 _ hinv₁.content).symm, ((hsingly p hp).2 _ hinv₁.block).symm⟩
      rintro ⟨status, singlyBlock', doublyBlock, s₃⟩ ⟨hwalk₃, hsingly₃, hdoubly₃⟩
      rw [hpointer (by decide) hev] at hwalk₃
      refine ⟨⟨(hev.trans hwalk₃.evolves).weaken fun q hq => ?_, nofun, hwalk₃.result⟩,
        fun p hp => ⟨(hsingly₃ p hp).1, fun a ha => ?_⟩,
        fun q hq => ⟨(hdoubly₃ q hq).1, fun a ha => (hdoubly₃ q hq).2.1 a (hlive₂ a ha),
          (hdoubly₃ q hq).2.2⟩⟩
      · rw [List.mem_append, List.mem_append] at hq
        rcases hq with hq | hq | hq
        · exact .inl hq
        · exact .inr fun a ha => (hsingly q (Option.mem_toList.mp hq)).2 a (hlive₁ a ha)
        · exact .inl hq
      · rcases (hsingly₃ p hp).2 with hmem | hfresh
        · exact (hsingly p hmem).2 a (hlive₁ a ha)
        · exact hfresh a (hlive₂ a ha)

/-! ## `Ext2ReadFile` -/

theorem int32_nonpos {x : ℕ} (hlo : 2 ^ 31 ≤ x) (hhi : x < 2 ^ 32) : int32 x ≤ 0 := by
  have h := int32_add ((x : ℤ) - 2 ^ 32) 1
  rw [Int.one_mul, Int.sub_add_cancel] at h
  rw [h, int32_of_lt (by omega) (by omega)]
  omega

/-- What `HeapAlloc` does with an unsigned size: nothing, or a buffer of this size. -/
theorem heapAlloc_unsigned {size : ℕ} (hw : Owns start w) (hsize : size < 2 ^ 32)
    (hfuel : 2 ^ 32 ≤ fuel) (hroom : Room c w (UserHeap.growth size + n)) :
    (¬(0 < size ∧ size < 2 ^ 31) ∧ w.heapAlloc fuel (int32 size) = pure (none, w)) ∨
      0 < size ∧ size < 2 ^ 31 ∧ Traced.Meets c (w.heapAlloc fuel (int32 size)) fun r => ∃ p,
        r.1 = some p ∧ Evolves c start n [] w r.2 ∧ (p, size) ∈ r.2.live ∧
          (∀ a ∈ w.live, a.1 ≠ p) ∧ ∀ i < size, r.2.h.mem (p + i) = 0 := by
  rcases Nat.eq_zero_or_pos size with rfl | hpos
  · exact .inl ⟨by omega, heapAlloc_null (by decide)⟩
  · rcases Nat.lt_or_ge size (2 ^ 31) with hlt | hge
    · have hint : int32 size = size := int32_of_lt (by omega) (by omega)
      rw [← Int.toNat_natCast size] at hroom
      refine .inr ⟨hpos, hlt, ?_⟩
      rw [hint]
      have halloc := heapAlloc_meets hw (by omega) (by omega : (size : ℤ) < 2 ^ 31) hfuel hroom
      rwa [Int.toNat_natCast] at halloc
    · exact .inl ⟨by omega, heapAlloc_null (int32_nonpos hge hsize)⟩

theorem heapFreeIf_meets {o : Option ℕ} {k : ℕ} (hw : Owns start w)
    (hmem : ∀ p ∈ o, (p, k) ∈ w.live) (hroom : Room c w n) :
    Traced.Meets c (w.heapFreeIf o) fun w' => Evolves c start n o.toList w w' := by
  cases o with
  | none => exact Traced.Meets.pure (.refl hw hroom _)
  | some p => exact heapFree_meets hw (hmem p rfl) hroom

/-- The buffers that are left are given back. -/
theorem clean_meets {content singlyBlock doublyBlock : Option ℕ} {block k : ℕ} (total : ℕ)
    (hw : Owns start w) (hcontent : ∀ p ∈ content, (p, total) ∈ w.live ∧ block ≠ p)
    (hblock : (block, k) ∈ w.live)
    (hsingly : ∀ p ∈ singlyBlock, (p, k) ∈ w.live ∧ p ≠ block ∧ p ∉ content.toList)
    (hdoubly : ∀ p ∈ doublyBlock, (p, k) ∈ w.live ∧ p ≠ block ∧ p ∉ content.toList ∧
      p ∉ singlyBlock.toList) (hroom : Room c w n) :
    Traced.Meets c (w.clean content block singlyBlock doublyBlock) fun w' =>
      Evolves c start n
        (content.toList ++ ([block] ++ (singlyBlock.toList ++ doublyBlock.toList))) w w' := by
  have hblockNe : block ∉ content.toList := fun hmem =>
    (hcontent _ (Option.mem_toList.mp hmem)).2 rfl
  refine (heapFreeIf_meets hw (fun p hp => (hcontent p hp).1) hroom).bind fun w₁ hev₁ => ?_
  refine (heapFree_meets hev₁.owns (hev₁.rest _ hblock hblockNe).1 hev₁.room).bind
    fun w₂ hev₂ => ?_
  have hsingly₂ (p) (hp : p ∈ singlyBlock) : (p, k) ∈ w₂.live := by
    obtain ⟨hmem, hne, hnot⟩ := hsingly p hp
    exact (hev₂.rest _ (hev₁.rest _ hmem hnot).1 (by simpa using hne)).1
  have hdoubly₂ (p) (hp : p ∈ doublyBlock) : (p, k) ∈ w₂.live := by
    obtain ⟨hmem, hne, hnot, -⟩ := hdoubly p hp
    exact (hev₂.rest _ (hev₁.rest _ hmem hnot).1 (by simpa using hne)).1
  refine (heapFreeIf_meets hev₂.owns hsingly₂ hev₂.room).bind fun w₃ hev₃ => ?_
  refine (heapFreeIf_meets hev₃.owns (fun p hp =>
    (hev₃.rest _ (hdoubly₂ p hp) (hdoubly p hp).2.2.2).1) hev₃.room).mono fun w₄ hev₄ => ?_
  exact hev₁.trans (hev₂.trans (hev₃.trans hev₄))

/-- At `clean` all buffers are given back but that of the content, if it has been read. -/
theorem BlocksRead.clean {r : Status × Option ℕ × Option ℕ × FileState}
    (hread : BlocksRead c start n job done s r) (hc : FileCall c fuel job)
    (h : FileInv job [] s) :
    Traced.Meets c (r.2.2.2.w.clean (if r.1.failed then some job.fileContent else none) job.block
        r.2.1 r.2.2.1) fun w' => Evolves c start n [job.fileContent, job.block] s.w w' ∧
      ((r.1 = .statusFailure ∧ ¬AllSectors job.disk.device) ∨
        (r.1 = .statusSuccess ∧ (job.fileContent, job.total) ∈ w'.live ∧
          (job.disk.blockSize ≤ 2 ^ 30 → ∀ i < job.total, w'.h.mem (job.fileContent + i) =
            walkByte job.disk.device job.disk.blockSize done i))) := by
  obtain ⟨status, singlyBlock, doublyBlock, s'⟩ := r
  obtain ⟨hwalk, hsingly, hdoubly⟩ := hread
  dsimp only at hwalk hsingly hdoubly ⊢
  have hev := hwalk.evolves
  have hsinglyNe (q) (hq : q ∈ singlyBlock) : q ≠ job.block ∧ q ≠ job.fileContent :=
    ⟨((hsingly q hq).2 _ h.block).symm, ((hsingly q hq).2 _ h.content).symm⟩
  have hdoublyNe (q) (hq : q ∈ doublyBlock) :
      q ≠ job.block ∧ q ≠ job.fileContent ∧ q ∉ singlyBlock.toList :=
    ⟨((hdoubly q hq).2.1 _ h.block).symm, ((hdoubly q hq).2.1 _ h.content).symm, fun hmem =>
      (hdoubly q hq).2.2 q (Option.mem_toList.mp hmem) rfl⟩
  have hfresh (q) (hq : q ∈ singlyBlock.toList ++ doublyBlock.toList) : ∀ a ∈ s.w.live, a.1 ≠ q := by
    rcases List.mem_append.mp hq with hq | hq
    · exact (hsingly q (Option.mem_toList.mp hq)).2
    · exact (hdoubly q (Option.mem_toList.mp hq)).2.1
  rcases hwalk.result with ⟨hstatus, hsectors, done', h'⟩ | ⟨hstatus, h'⟩
  · cases hstatus
    rw [if_pos (by decide)]
    refine (clean_meets job.total hev.owns (fun q hq => ?_) h'.block (fun q hq => ?_)
      (fun q hq => ?_) hev.room).mono fun w₁ hev₁ => ⟨?_, .inl ⟨rfl, hsectors⟩⟩
    · cases hq
      exact ⟨h'.content, hc.ne.symm⟩
    · exact ⟨(hsingly q hq).1, (hsinglyNe q hq).1, by simpa using (hsinglyNe q hq).2⟩
    · exact ⟨(hdoubly q hq).1, (hdoublyNe q hq).1, by simpa using (hdoublyNe q hq).2.1,
        (hdoublyNe q hq).2.2⟩
    · refine (hev.trans hev₁).weaken fun q hq => ?_
      rw [List.mem_append, List.mem_append, List.mem_append] at hq
      rcases hq with hq | hq | hq | hq
      · exact .inl hq
      · cases Option.mem_toList.mp hq
        exact .inl List.mem_cons_self
      · exact .inl (List.mem_cons_of_mem _ hq)
      · exact .inr (hfresh q hq)
  · cases hstatus
    rw [if_neg (by decide)]
    refine (clean_meets job.total hev.owns (fun q hq => by cases hq) h'.block
      (fun q hq => ?_) (fun q hq => ?_) hev.room).mono fun w₁ hev₁ => ?_
    · exact ⟨(hsingly q hq).1, (hsinglyNe q hq).1, List.not_mem_nil⟩
    · exact ⟨(hdoubly q hq).1, (hdoublyNe q hq).1, List.not_mem_nil, (hdoublyNe q hq).2.2⟩
    · have hnot : job.fileContent ∉
          (none : Option ℕ).toList ++ ([job.block] ++ (singlyBlock.toList ++ doublyBlock.toList)) := by
        intro hmem
        rw [Option.toList_none, List.nil_append, List.mem_append] at hmem
        rcases hmem with hmem | hmem
        · exact hc.ne (List.mem_singleton.mp hmem)
        · exact hfresh _ hmem _ h.content rfl
      obtain ⟨hmem, hbytes⟩ := hev₁.rest _ h'.content hnot
      refine ⟨(hev.trans hev₁).weaken fun q hq => ?_, .inr ⟨rfl, hmem, fun hsmall i hi =>
        (hbytes i hi).trans (h'.bytes hsmall i hi)⟩⟩
      rw [Option.toList_none, List.nil_append, List.mem_append, List.mem_append] at hq
      rcases hq with hq | hq | hq
      · exact .inl hq
      · exact .inl (List.mem_cons_of_mem _ hq)
      · exact .inr (hfresh q hq)

theorem walk_congr {m m' : Bytes} (h : ∀ i < 15, inodeBlock m inode i = inodeBlock m' inode i) :
    walk disk m inode = walk disk m' inode := by
  have hdirect : directBlocks m inode = directBlocks m' inode :=
    picked_congr (fun i hi => h i (Nat.lt_trans hi (by decide)))
      fun i hi => by rw [h i (Nat.lt_trans hi (by decide))]
  rw [walk, walk, hdirect, h _ (by decide), h _ (by decide)]

/-- The memory that `Ext2ReadFile` may take. -/
def fileRoom (disk : Ext2Disk) (total : ℕ) : ℕ :=
  UserHeap.growth total + (UserHeap.growth disk.blockSize + loopsRoom disk)

/-- The sizes of the file and of the blocks are ones that `HeapAlloc` has buffers for. -/
structure Sizes (disk : Ext2Disk) (total : ℕ) : Prop where
  total_pos : 0 < total
  total_lt : total < 2 ^ 31
  pos : 0 < disk.blockSize
  lt : disk.blockSize < 2 ^ 31

/-- What `Ext2ReadFile` gives: a buffer with the blocks of its walk, unless there is no buffer for
it, or a sector cannot be read. -/
theorem ext2ReadFile_meets (hw : Owns start w) (hinode : (inode, sizeofExt2Inode) ∈ w.live)
    (hblock : disk.blockSize < 2 ^ 32) (hfuel : 2 ^ 32 ≤ fuel)
    (hok : AllowsFile c (inodeFileSize w.h.mem inode) disk.blockSize)
    (hroom : Room c w (fileRoom disk (inodeFileSize w.h.mem inode) + n)) :
    Traced.Meets c (w.ext2ReadFile fuel disk inode) fun r => Evolves c start n [] w r.2.2 ∧
      ((r.1 ≠ .statusSuccess ∧ (Sizes disk (inodeFileSize w.h.mem inode) →
          ¬AllSectors disk.device)) ∨
        (r.1 = .statusSuccess ∧ Sizes disk (inodeFileSize w.h.mem inode) ∧ ∃ p, r.2.1 = some p ∧
          (p, inodeFileSize w.h.mem inode) ∈ r.2.2.live ∧ (disk.blockSize ≤ 2 ^ 30 →
            ∀ i < inodeFileSize w.h.mem inode, r.2.2.h.mem (p + i) =
              walkByte disk.device disk.blockSize (walk disk w.h.mem inode) i))) := by
  have htotal : inodeFileSize w.h.mem inode < 2 ^ 32 := Bytes.load32_lt _ _
  rw [ext2ReadFile]
  dsimp only
  generalize hsize : inodeFileSize w.h.mem inode = total at *
  simp only [fileRoom, Nat.add_assoc] at hroom
  rcases heapAlloc_unsigned hw htotal hfuel hroom with ⟨hnot, halloc⟩ | ⟨htpos, htlt, halloc⟩
  · rw [halloc]
    exact Traced.Meets.pure ⟨.refl hw (hroom.mono (by omega) (by omega)) _,
      .inl ⟨nofun, fun h => absurd ⟨h.total_pos, h.total_lt⟩ hnot⟩⟩
  refine halloc.bind ?_
  rintro ⟨_, w₁⟩ ⟨p, rfl, hev₁, hp₁, hpfresh, hclear⟩
  dsimp only at hev₁ hp₁ hclear ⊢
  rcases heapAlloc_unsigned hev₁.owns hblock hfuel hev₁.room with
    ⟨hnot, halloc⟩ | ⟨hbpos, hblt, halloc⟩
  · rw [halloc]
    refine (heapFree_meets (n := n) hev₁.owns hp₁ (hev₁.room.mono (by omega) (by omega))).bind
      fun w₂ hev₂ => ?_
    exact Traced.Meets.pure ⟨(hev₁.trans hev₂).weaken (by simpa using hpfresh),
      .inl ⟨nofun, fun h => absurd ⟨h.pos, h.lt⟩ hnot⟩⟩
  refine halloc.bind ?_
  rintro ⟨_, w₂⟩ ⟨b, rfl, hev₂, hb₂, hbfresh, -⟩
  dsimp only at hev₂ hb₂ ⊢
  have hsizes : Sizes disk total := ⟨htpos, htlt, hbpos, hblt⟩
  have hpb : p ≠ b := hbfresh _ hp₁
  obtain ⟨hp₂, hpbytes⟩ := hev₂.rest _ hp₁ List.not_mem_nil
  have hev₁₂ : Evolves c start _ [] w w₂ := hev₁.trans hev₂
  obtain ⟨hinode₂, -⟩ := hev₁₂.rest _ hinode List.not_mem_nil
  have hbfresh' : ∀ a ∈ w.live, a.1 ≠ b := fun a ha =>
    hbfresh a (hev₁.rest a ha List.not_mem_nil).1
  let job : FileJob := ⟨disk, total, p, b⟩
  have hc : FileCall c fuel job := ⟨hok, hfuel, hbpos, hblt, htlt, hpb⟩
  have hinv : FileInv job [] ⟨w₂, 0, total⟩ :=
    ⟨hp₂, hb₂, fun _ => by simp, Nat.zero_add _, fun _ i hi => (hpbytes i hi).trans (hclear i hi)⟩
  have hpointers : walk disk w₂.h.mem inode = walk disk w.h.mem inode := by
    refine walk_congr fun i hi => ?_
    rw [inodeBlock, inodeBlock, Nat.add_assoc]
    exact hev₁₂.load32 hinode List.not_mem_nil (by unfold sizeofExt2Inode; omega)
  refine (hc.readBlocks (s := ⟨w₂, 0, total⟩) hinode₂
    (by simpa using ⟨hpfresh _ hinode, hbfresh' _ hinode⟩) hev₂.owns hev₂.room hinv).bind ?_
  rintro ⟨status, singlyBlock, doublyBlock, s₃⟩ hread
  dsimp only
  refine (hread.clean hc hinv).bind ?_
  rintro w₄ ⟨hev₄, hresult⟩
  refine Traced.Meets.pure ⟨(hev₁₂.trans hev₄).weaken fun q hq => .inr ?_, ?_⟩
  · simp only [List.nil_append, List.mem_cons, List.not_mem_nil, or_false] at hq
    rcases hq with rfl | rfl
    · exact hpfresh
    · exact hbfresh'
  · rcases hresult with ⟨hstatus, hsectors⟩ | ⟨hstatus, hmem, hbytes⟩
    · cases hstatus
      exact .inl ⟨nofun, fun _ => hsectors⟩
    · cases hstatus
      rw [hpointers] at hbytes
      exact .inr ⟨rfl, hsizes, p, rfl, hmem, hbytes⟩

/-- Copies into the buffer of the file, entries of the tables, and all writes, in their bounds. -/
def bounded (total blockSize : ℕ) : Traced.Contract Access where
  ok
    | .write live dst size => Inside live dst size
    | .content live fileContent fileOffset fileSize size => (fileContent, total) ∈ live ∧
        fileOffset + fileSize = total ∧ size ≤ fileSize ∧
        add32 fileOffset size + sub32 fileSize size = total
    | .entry index => index < blockSize / 4
    | _ => True
  stop
    | .exhausted => True
    | _ => False

/-- `Ext2ReadFile` comes to its end on every inode and every disk, with all writes inside the buffers
and the counters adding up to the size of the file, as long as there is memory. -/
theorem ext2ReadFile_bounded (hw : Owns start w) (hinode : (inode, sizeofExt2Inode) ∈ w.live)
    (hblock : disk.blockSize < 2 ^ 32) (hfuel : 2 ^ 32 ≤ fuel) :
    Traced.Meets (bounded (inodeFileSize w.h.mem inode) disk.blockSize)
      (w.ext2ReadFile fuel disk inode) fun r =>
        Evolves (bounded (inodeFileSize w.h.mem inode) disk.blockSize) start 0 [] w r.2.2 := by
  have htotal : inodeFileSize w.h.mem inode < 2 ^ 32 := Bytes.load32_lt _ _
  have hallows : AllowsFile (bounded (inodeFileSize w.h.mem inode) disk.blockSize)
      (inodeFileSize w.h.mem inode) disk.blockSize := by
    refine ⟨fun _ _ _ h => h, fun _ _ fileOffset fileSize size hlive hsum hle => ?_, fun _ h => h⟩
    refine ⟨hlive, hsum, hle, ?_⟩
    rw [add32_of_lt (by omega), sub32_of_le (by omega) hle]
    omega
  exact (ext2ReadFile_meets (n := 0) hw hinode hblock hfuel hallows (.inl trivial)).mono
    fun _ h => h.1

/-- A program that has an inode with these bytes. -/
theorem exists_inode (f : ℕ → U8) : ∃ w p, Owns 0x40002000 w ∧ (p, sizeofExt2Inode) ∈ w.live ∧
    (∀ i < sizeofExt2Inode, w.h.mem (p + i) = f i) ∧
    w.h.brk + 2 ^ 30 ≤ vProcessLimitAddr.toNat := by
  let c : Traced.Contract Access := ⟨fun _ => True, fun _ => False⟩
  have hgrowth : UserHeap.growth (sizeofExt2Inode : ℤ).toNat ≤ 2 ^ 14 := by decide
  have hlimit : newProgram.h.brk + (2 ^ 14 + 2 ^ 30) ≤ vProcessLimitAddr.toNat := by decide
  have hroom : Room c newProgram (UserHeap.growth (sizeofExt2Inode : ℤ).toNat + 2 ^ 30) :=
    .inr ⟨by omega,
      (Nat.add_le_add_left (Nat.add_le_add_right hgrowth _) _).trans hlimit⟩
  obtain ⟨⟨_, w⟩, -, p, -, hev, hmem, -⟩ :=
    (heapAlloc_meets newProgram_owns (by decide) (by decide) le_rfl hroom).returns fun _ => id
  dsimp only at hev hmem
  have hwrite : Evolves c 0x40002000 (2 ^ 30) [p] w
      (w.setMem (w.h.mem.patch p f sizeofExt2Inode)) :=
    hev.owns.setMem hmem hev.room fun x hx => patch_of_not_mem hx
  refine ⟨_, p, hwrite.owns, hmem, fun i hi => ?_, (hwrite.room.resolve_left id).2⟩
  show w.h.mem.patch p f sizeofExt2Inode (p + i) = f i
  rw [Bytes.patch, if_pos ⟨Nat.le_add_right _ _, Nat.add_lt_add_left hi p⟩, Nat.add_sub_cancel_left]

/-- A disk of 1 KiB blocks with these bytes. -/
def diskOf (bytes : ℕ → U8) : Ext2Disk := ⟨.ofBytes bytes, 0, 1024, 0, 0⟩

/-- The bytes of a disk with a table of the blocks 1 and 2 in block 3. -/
def indirectBytes (x : ℕ) : U8 :=
  if x / 1024 = 3 then
    if x = 3 * 1024 then 1
    else if x = 3 * 1024 + 4 then 2
    else 0
  else if x < 1024 then 0
  else BitVec.ofNat 8 (7 * x)

/-- The bytes of an inode of 13318 bytes there: the blocks 4 to 15, and those of the table. -/
def indirectInode (i : ℕ) : U8 :=
  if i = 4 then 0x06
  else if i = 5 then 0x34
  else if 40 ≤ i ∧ i < 88 ∧ i % 4 = 0 then BitVec.ofNat 8 ((i - 40) / 4 + 4)
  else if i = 88 then 3
  else 0

/-- A file with a singly-indirect block. -/
theorem indirect_bounded : ∃ w inode, inodeFileSize w.h.mem inode = 13318 ∧
    inodeBlock w.h.mem inode inodeSinglyIndirectPtrIndex = 3 ∧
    Traced.Meets (bounded 13318 1024)
      (w.ext2ReadFile (2 ^ 32) (diskOf indirectBytes) inode)
      fun r => Evolves (bounded 13318 1024) 0x40002000 0 [] w r.2.2 := by
  obtain ⟨w, inode, hw, hinode, hbytes, -⟩ := exists_inode indirectInode
  have hsize : inodeFileSize w.h.mem inode = 13318 := by
    rw [inodeFileSize, Bytes.load32_shift hbytes (by decide)]
    rfl
  have hsingly : inodeBlock w.h.mem inode inodeSinglyIndirectPtrIndex = 3 := by
    rw [inodeBlock, Nat.add_assoc, Bytes.load32_shift hbytes (by decide)]
    rfl
  refine ⟨w, inode, hsize, hsingly, ?_⟩
  have hblock : (diskOf indirectBytes).blockSize < 2 ^ 32 := by
    show 1024 < 2 ^ 32
    decide
  have h := ext2ReadFile_bounded hw hinode hblock (Nat.le_refl (2 ^ 32))
  rwa [hsize] at h

end UserProgram

end LtMicros
