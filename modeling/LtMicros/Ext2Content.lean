import LtMicros.Ext2File
import LtMicros.Ext2Mount

/-!
# What is read of a file

The bytes of a file as the format places them on the disk, and when these are the bytes that
`Ext2ReadFile` gives: the blocks of the doubly-indirect tables are looked up with the wrong
index, and those of a triply-indirect table are not looked up at all.
-/

namespace LtMicros

open Lib

namespace UserProgram

variable {start fuel inode size : ℕ} {w w' : UserProgram} {disk : Ext2Disk} {m : Bytes}
  {content : Option ℕ}

/-- How many pointers a block has room for. -/
def pointers (disk : Ext2Disk) : ℕ := disk.blockSize / 4

/-- `table[i]` of the table in a block, as it is on the disk. -/
def tableOn (disk : Ext2Disk) (number i : ℕ) : ℕ :=
  Bytes.load32 (fun x => disk.device.byteAt (number * disk.blockSize + x)) (4 * i)

/-- The table behind entry `i` of the doubly-indirect block of an inode. -/
def doublyTable (disk : Ext2Disk) (m : Bytes) (inode i : ℕ) : ℕ :=
  tableOn disk (inodeBlock m inode inodeDoublyIndirectPtrIndex) i

/-- How many blocks can be found without a triply-indirect block. -/
def doublyEnd (disk : Ext2Disk) : ℕ :=
  inodeNbDirectPtr + pointers disk + pointers disk * pointers disk

/-- The number of block `k` of a file, as the format says. -/
def fileBlock (disk : Ext2Disk) (m : Bytes) (inode k : ℕ) : ℕ :=
  if k < inodeNbDirectPtr then inodeBlock m inode k
  else if k < inodeNbDirectPtr + pointers disk then
    tableOn disk (inodeBlock m inode inodeSinglyIndirectPtrIndex) (k - inodeNbDirectPtr)
  else if k < doublyEnd disk then
    let j := k - (inodeNbDirectPtr + pointers disk)
    tableOn disk (doublyTable disk m inode (j / pointers disk)) (j % pointers disk)
  else
    let j := k - doublyEnd disk
    tableOn disk (tableOn disk (tableOn disk (inodeBlock m inode inodeTriplyIndirectPtrIndex)
      (j / (pointers disk * pointers disk))) (j / pointers disk % pointers disk)) (j % pointers disk)

/-- Byte `i` of a file. -/
def fileByte (disk : Ext2Disk) (m : Bytes) (inode i : ℕ) : U8 :=
  disk.device.byteAt
    (fileBlock disk m inode (i / disk.blockSize) * disk.blockSize + i % disk.blockSize)

/-- How many blocks a file of this size has. -/
def blockCount (disk : Ext2Disk) (size : ℕ) : ℕ := (size + (disk.blockSize - 1)) / disk.blockSize

/-- Pointers to parts of a file of `count` blocks, where each part has `stride` blocks: those for
blocks of the file, and zeros behind them. -/
def Dense (pointer : ℕ → ℕ) (number first stride count : ℕ) : Prop :=
  ∀ i < number, pointer i ≠ 0 ↔ first + i * stride < count

/-- An inode, and the tables of a file, with no holes. -/
structure WellFormed (disk : Ext2Disk) (m : Bytes) (inode count : ℕ) : Prop where
  direct : Dense (inodeBlock m inode) inodeNbDirectPtr 0 1 count
  singly : inodeBlock m inode inodeSinglyIndirectPtrIndex ≠ 0 ↔ inodeNbDirectPtr < count
  singlyTable : inodeNbDirectPtr < count →
    Dense (tableOn disk (inodeBlock m inode inodeSinglyIndirectPtrIndex)) (pointers disk)
      inodeNbDirectPtr 1 count
  doubly : inodeBlock m inode inodeDoublyIndirectPtrIndex ≠ 0 ↔
    inodeNbDirectPtr + pointers disk < count
  doublyTables : inodeNbDirectPtr + pointers disk < count →
    Dense (doublyTable disk m inode) (pointers disk) (inodeNbDirectPtr + pointers disk)
      (pointers disk) count
  doublyEntries : ∀ i < pointers disk, inodeNbDirectPtr + pointers disk + i * pointers disk < count →
    Dense (tableOn disk (doublyTable disk m inode i)) (pointers disk)
      (inodeNbDirectPtr + pointers disk + i * pointers disk) 1 count
  triply : inodeBlock m inode inodeTriplyIndirectPtrIndex ≠ 0 ↔ doublyEnd disk < count

/-- The content that `Ext2ReadFile` gives is the file, and there are no blocks of the file that it
does not look for. -/
structure Whole (disk : Ext2Disk) (m : Bytes) (inode : ℕ) (content : Option ℕ)
    (w : UserProgram) : Prop where
  content : ∃ p, content = some p ∧ (p, inodeFileSize m inode) ∈ w.live ∧
    ∀ i < inodeFileSize m inode, w.h.mem (p + i) = fileByte disk m inode i
  complete : blockCount disk (inodeFileSize m inode) ≤ doublyEnd disk

/-- The block that `Ext2ReadFile` takes for block `k` of a file. -/
def pickedBlock (disk : Ext2Disk) (m : Bytes) (inode k : ℕ) : ℕ :=
  if k < inodeNbDirectPtr + pointers disk then fileBlock disk m inode k
  else
    let i := (k - (inodeNbDirectPtr + pointers disk)) / pointers disk
    tableOn disk (doublyTable disk m inode i) i

/-- A block that ends below the last byte of 4 GiB. -/
def Below (disk : Ext2Disk) (number : ℕ) : Prop :=
  number * disk.blockSize + disk.blockSize < 2 ^ 32

/-- All blocks and tables of a file without a triply-indirect block. -/
structure FileBelow (disk : Ext2Disk) (m : Bytes) (inode count : ℕ) : Prop where
  blocks : ∀ k < count, Below disk (fileBlock disk m inode k)
  singly : Below disk (inodeBlock m inode inodeSinglyIndirectPtrIndex)
  doubly : Below disk (inodeBlock m inode inodeDoublyIndirectPtrIndex)
  tables : ∀ i < pointers disk, Below disk (doublyTable disk m inode i)

/-! ## Below 4 GiB -/

theorem Below.delivered_eq {number x : ℕ} (h : Below disk number) (hpos : 0 < disk.blockSize) :
    delivered disk.device (mul32 number disk.blockSize) disk.blockSize x =
      disk.device.byteAt (number * disk.blockSize + x) := by
  unfold Below at h
  rw [mul32, Nat.mod_eq_of_lt (by omega), delivered, if_pos h]

theorem Below.tableRead_eq {number i : ℕ} (h : Below disk number) (hpos : 0 < disk.blockSize) :
    tableRead disk number i = tableOn disk number i := by
  rw [tableRead, tableOn]
  congr 1
  funext x
  exact h.delivered_eq hpos

/-! ## The walk over a file without holes -/

/-- Parts of equal length, up to an end, are one list. -/
theorem flatMap_parts {α : Type} {length : ℕ} (hpos : 0 < length) (f : ℕ → ℕ → α) (total a : ℕ) :
    ((List.range a).flatMap fun i =>
        (List.range (min (total - i * length) length)).map (f i)) =
      (List.range (min total (a * length))).map fun k => f (k / length) (k % length) := by
  induction a with
  | zero => simp
  | succ a ih =>
    rw [List.range_succ, List.flatMap_append, ih, List.flatMap_singleton]
    have hsplit : min total ((a + 1) * length) =
        min total (a * length) + min (total - a * length) length := by
      rw [Nat.succ_mul]
      omega
    rw [hsplit, List.range_add, List.map_append, List.map_map]
    congr 1
    refine List.map_congr_left fun j hj => ?_
    have hj : j < min (total - a * length) length := List.mem_range.mp hj
    have hmin : min total (a * length) = length * a := by
      rw [Nat.mul_comm length]
      omega
    rw [Function.comp_apply, hmin, Nat.mul_add_div hpos, Nat.div_eq_of_lt (by omega),
      Nat.add_zero, Nat.mul_add_mod, Nat.mod_eq_of_lt (by omega)]

theorem leading_spec (pointer : ℕ → ℕ) (count : ℕ) :
    (∀ i < leading pointer count, pointer i ≠ 0) ∧
      (leading pointer count = count ∨ pointer (leading pointer count) = 0) := by
  have hexists : ∃ k ≤ count, (∀ i < k, pointer i ≠ 0) ∧ (k = count ∨ pointer k = 0) := by
    induction count with
    | zero => exact ⟨0, le_rfl, fun _ h => absurd h (Nat.not_lt_zero _), .inl rfl⟩
    | succ count ih =>
      obtain ⟨k, hk, hne, hend⟩ := ih
      by_cases hzero : pointer k = 0
      · exact ⟨k, by omega, hne, .inr hzero⟩
      · obtain rfl := hend.resolve_right hzero
        refine ⟨k + 1, le_rfl, fun i hi => ?_, .inl rfl⟩
        rcases Nat.lt_succ_iff_lt_or_eq.mp hi with hi | rfl
        · exact hne i hi
        · exact hzero
  obtain ⟨k, hk, hne, hend⟩ := hexists
  rw [leading_eq hk hne hend]
  exact ⟨hne, hend⟩

/-- A loop over pointers to single blocks comes to those of the file. -/
theorem Dense.leading_eq {pointer : ℕ → ℕ} {number first count : ℕ}
    (h : Dense pointer number first 1 count) : leading pointer number = min (count - first) number := by
  refine UserProgram.leading_eq (by omega) (fun i hi => (h i (by omega)).mpr (by omega)) ?_
  rcases Nat.lt_or_ge (count - first) number with hlt | hge
  · right
    by_contra hne
    have hin := (h _ (by omega)).mp hne
    omega
  · left
    omega

theorem picked_singleton (pointer : ℕ → ℕ) (count : ℕ) (f : ℕ → ℕ) :
    picked pointer count (fun i => [f i]) = (List.range (leading pointer count)).map f := by
  rw [picked, List.map_eq_flatMap]

variable {count : ℕ}

theorem WellFormed.directBlocks_eq (h : WellFormed disk m inode count) :
    directBlocks m inode =
      (List.range (min count inodeNbDirectPtr)).map (inodeBlock m inode) := by
  rw [directBlocks, picked_singleton, h.direct.leading_eq, Nat.sub_zero]

theorem WellFormed.singlyBlocks_eq (h : WellFormed disk m inode count)
    (hbelow : FileBelow disk m inode count) (hpos : 0 < disk.blockSize) :
    singlyBlocks disk (inodeBlock m inode inodeSinglyIndirectPtrIndex) =
      (List.range (min (count - inodeNbDirectPtr) (pointers disk))).map
        (tableOn disk (inodeBlock m inode inodeSinglyIndirectPtrIndex)) := by
  rw [singlyBlocks]
  by_cases hcount : inodeNbDirectPtr < count
  · rw [if_pos (h.singly.mpr hcount),
      picked_congr (fun i _ => hbelow.singly.tableRead_eq hpos)
        fun i _ => by rw [hbelow.singly.tableRead_eq hpos],
      picked_singleton]
    rw [← pointers, (h.singlyTable hcount).leading_eq]
  · rw [if_neg (fun hne => hcount (h.singly.mp hne)), Nat.sub_eq_zero_of_le (by omega),
      Nat.zero_min]
    rfl

/-- The loops over a doubly-indirect table come to as many blocks as the file has there. -/
theorem WellFormed.doublyBlocks_eq (h : WellFormed disk m inode count)
    (hbelow : FileBelow disk m inode count) (hpos : 0 < pointers disk)
    (hcount : count ≤ doublyEnd disk) :
    doublyBlocks disk (inodeBlock m inode inodeDoublyIndirectPtrIndex) =
      (List.range (count - (inodeNbDirectPtr + pointers disk))).map fun k =>
        tableOn disk (doublyTable disk m inode (k / pointers disk)) (k / pointers disk) := by
  have hblock : 0 < disk.blockSize := by
    unfold pointers at hpos
    omega
  rw [doublyBlocks]
  by_cases hmore : inodeNbDirectPtr + pointers disk < count
  · rw [if_pos (h.doubly.mpr hmore)]
    have htable (i : ℕ) : tableRead disk (inodeBlock m inode inodeDoublyIndirectPtrIndex) i =
        doublyTable disk m inode i := hbelow.doubly.tableRead_eq hblock
    obtain ⟨hlow, hhigh⟩ := leading_spec (doublyTable disk m inode) (pointers disk)
    have hle := leading_le (doublyTable disk m inode) (pointers disk)
    have hinner (i : ℕ) (hi : i < leading (doublyTable disk m inode) (pointers disk)) :
        (picked (tableRead disk (doublyTable disk m inode i)) (pointers disk) fun _ =>
          [tableRead disk (doublyTable disk m inode i) i]) =
        (List.range (min (count - (inodeNbDirectPtr + pointers disk) - i * pointers disk)
          (pointers disk))).map fun _ => tableOn disk (doublyTable disk m inode i) i := by
      have hread (j : ℕ) : tableRead disk (doublyTable disk m inode i) j =
          tableOn disk (doublyTable disk m inode i) j :=
        (hbelow.tables i (by omega)).tableRead_eq hblock
      have hpart := (h.doublyTables hmore i (by omega)).mp (hlow i hi)
      rw [picked_congr (fun j _ => hread j) (fun _ _ => by rw [hread]), picked_singleton,
        (h.doublyEntries i (by omega) hpart).leading_eq, Nat.sub_sub]
    have houter : count - (inodeNbDirectPtr + pointers disk) ≤
        leading (doublyTable disk m inode) (pointers disk) * pointers disk := by
      unfold doublyEnd at hcount
      rcases hhigh with heq | hzero
      · rw [heq]
        omega
      · rcases Nat.lt_or_ge (leading (doublyTable disk m inode) (pointers disk)) (pointers disk)
          with hlt | hge
        · have hnot := mt (h.doublyTables hmore _ hlt).mpr (not_not.mpr hzero)
          omega
        · rw [Nat.le_antisymm hle hge]
          omega
    have hparts := flatMap_parts hpos
      (fun i _ => tableOn disk (doublyTable disk m inode i) i)
      (count - (inodeNbDirectPtr + pointers disk))
      (leading (doublyTable disk m inode) (pointers disk))
    rw [Nat.min_eq_left houter] at hparts
    rw [← hparts, ← pointers]
    rw [picked_congr (fun i _ => htable i) (fun i _ => by rw [htable])]
    exact List.flatMap_congr fun i hi => hinner i (List.mem_range.mp hi)
  · rw [if_neg (fun hne => hmore (h.doubly.mp hne)), Nat.sub_eq_zero_of_le (by omega)]
    rfl

/-- The blocks that `Ext2ReadFile` comes to, in order. -/
theorem WellFormed.walk_eq (h : WellFormed disk m inode count)
    (hbelow : FileBelow disk m inode count) (hpos : 0 < pointers disk)
    (hcount : count ≤ doublyEnd disk) :
    walk disk m inode = (List.range count).map (pickedBlock disk m inode) := by
  have hblock : 0 < disk.blockSize := by
    unfold pointers at hpos
    omega
  have hsplit : count = min count inodeNbDirectPtr +
      min (count - inodeNbDirectPtr) (pointers disk) +
      (count - (inodeNbDirectPtr + pointers disk)) := by
    omega
  have hrange : List.range count = List.range (min count inodeNbDirectPtr) ++
      (List.range (min (count - inodeNbDirectPtr) (pointers disk))).map
        (min count inodeNbDirectPtr + ·) ++
      (List.range (count - (inodeNbDirectPtr + pointers disk))).map
        (min count inodeNbDirectPtr + min (count - inodeNbDirectPtr) (pointers disk) + ·) := by
    rw [← List.range_add, ← List.range_add, ← hsplit]
  rw [walk, h.directBlocks_eq, h.singlyBlocks_eq hbelow hblock, h.doublyBlocks_eq hbelow hpos hcount,
    hrange, List.map_append, List.map_append, List.map_map, List.map_map]
  congr 1
  · congr 1
    · refine List.map_congr_left fun i hi => ?_
      have hi : i < min count inodeNbDirectPtr := List.mem_range.mp hi
      rw [pickedBlock, if_pos (by omega), fileBlock, if_pos (by omega)]
    · refine List.map_congr_left fun i hi => ?_
      have hi : i < min (count - inodeNbDirectPtr) (pointers disk) := List.mem_range.mp hi
      have hdirect : min count inodeNbDirectPtr = inodeNbDirectPtr := by omega
      rw [Function.comp_apply, hdirect, pickedBlock, if_pos (by omega), fileBlock,
        if_neg (by omega), if_pos (by omega), Nat.add_sub_cancel_left]
  · refine List.map_congr_left fun i hi => ?_
    have hi : i < count - (inodeNbDirectPtr + pointers disk) := List.mem_range.mp hi
    have hfirst : min count inodeNbDirectPtr + min (count - inodeNbDirectPtr) (pointers disk) =
        inodeNbDirectPtr + pointers disk := by
      omega
    rw [Function.comp_apply, hfirst, pickedBlock, if_neg (by omega), Nat.add_sub_cancel_left]

theorem div_lt_blockCount {i : ℕ} (hpos : 0 < disk.blockSize) (hi : i < size) :
    i / disk.blockSize < blockCount disk size := by
  rw [blockCount, Nat.lt_iff_add_one_le, Nat.le_div_iff_mul_le hpos, Nat.succ_mul]
  have h := Nat.div_mul_le_self i disk.blockSize
  omega

/-- The block that is taken instead of another one is a block of the file as well, or block 0. -/
theorem WellFormed.below_picked (h : WellFormed disk m inode count)
    (hbelow : FileBelow disk m inode count) (hcount : count ≤ doublyEnd disk)
    (hpos : 0 < pointers disk) (hsmall : disk.blockSize < 2 ^ 32) {k : ℕ} (hk : k < count) :
    Below disk (pickedBlock disk m inode k) := by
  rw [pickedBlock]
  split
  · exact hbelow.blocks k hk
  · rename_i hge
    dsimp only
    generalize hi : (k - (inodeNbDirectPtr + pointers disk)) / pointers disk = i
    have hmul : i * pointers disk ≤ k - (inodeNbDirectPtr + pointers disk) :=
      hi ▸ Nat.div_mul_le_self _ _
    have hlt : i < pointers disk := by
      rw [← hi, Nat.div_lt_iff_lt_mul hpos]
      unfold doublyEnd at hcount
      omega
    have hentry := h.doublyEntries i hlt (by omega) i hlt
    by_cases hin : inodeNbDirectPtr + pointers disk + i * pointers disk + i * 1 < count
    · have hblock := hbelow.blocks _ hin
      have hdiv : (i * pointers disk + i) / pointers disk = i := by
        rw [Nat.mul_comm, Nat.mul_add_div hpos, Nat.div_eq_of_lt hlt, Nat.add_zero]
      have hmod : (i * pointers disk + i) % pointers disk = i := by
        rw [Nat.mul_comm, Nat.mul_add_mod, Nat.mod_eq_of_lt hlt]
      rw [fileBlock, if_neg (by omega), if_neg (by omega), if_pos (by omega)] at hblock
      dsimp only at hblock
      rwa [show inodeNbDirectPtr + pointers disk + i * pointers disk + i * 1 -
        (inodeNbDirectPtr + pointers disk) = i * pointers disk + i by omega, hdiv, hmod] at hblock
    · have hzero : tableOn disk (doublyTable disk m inode i) i = 0 :=
        not_not.mp (mt hentry.mp hin)
      rw [hzero, Below, Nat.zero_mul, Nat.zero_add]
      exact hsmall

/-! ## The content -/

/-- The bytes that are read are those of the file, which has no blocks that are not looked for. -/
def Covers (disk : Ext2Disk) (m : Bytes) (inode size : ℕ) : Prop :=
  blockCount disk size ≤ doublyEnd disk ∧ ∀ i < size,
    walkByte disk.device disk.blockSize (walk disk m inode) i = fileByte disk m inode i

/-- For the blocks behind a doubly-indirect block, the block that is taken has the same bytes. -/
def SameBlocks (disk : Ext2Disk) (m : Bytes) (inode size : ℕ) : Prop :=
  blockCount disk size ≤ doublyEnd disk ∧ ∀ i < size,
    inodeNbDirectPtr + pointers disk ≤ i / disk.blockSize →
    disk.device.byteAt (pickedBlock disk m inode (i / disk.blockSize) * disk.blockSize +
      i % disk.blockSize) = fileByte disk m inode i

theorem WellFormed.covers_iff (h : WellFormed disk m inode (blockCount disk size))
    (hbelow : FileBelow disk m inode (blockCount disk size)) (hpos : 0 < pointers disk)
    (hsmall : disk.blockSize < 2 ^ 32) :
    Covers disk m inode size ↔ SameBlocks disk m inode size := by
  have hblock : 0 < disk.blockSize := by
    unfold pointers at hpos
    omega
  refine and_congr_right fun hcount => forall_congr' fun i => imp_congr_right fun hi => ?_
  have hk := div_lt_blockCount hblock hi
  have hwalk : walkByte disk.device disk.blockSize (walk disk m inode) i =
      disk.device.byteAt (pickedBlock disk m inode (i / disk.blockSize) * disk.blockSize +
        i % disk.blockSize) := by
    rw [walkByte, h.walk_eq hbelow hpos hcount, List.getElem?_map, List.getElem?_range hk]
    exact (h.below_picked hbelow hcount hpos hsmall hk).delivered_eq hblock
  rw [hwalk]
  refine ⟨fun heq _ => heq, fun himp => ?_⟩
  by_cases hin : i / disk.blockSize < inodeNbDirectPtr + pointers disk
  · rw [pickedBlock, if_pos hin]
    rfl
  · exact himp (by omega)

theorem blockSizeOf_cases (log : ℕ) (hpos : 0 < blockSizeOf log) (hlt : blockSizeOf log < 2 ^ 31) :
    1024 ≤ blockSizeOf log ∧ blockSizeOf log ≤ 2 ^ 30 := by
  have hall : ∀ k < 32, 0 < 1024 * 2 ^ k % 2 ^ 32 → 1024 * 2 ^ k % 2 ^ 32 < 2 ^ 31 →
      1024 ≤ 1024 * 2 ^ k % 2 ^ 32 ∧ 1024 * 2 ^ k % 2 ^ 32 ≤ 2 ^ 30 := by
    decide
  exact hall _ (Nat.mod_lt _ (by decide)) hpos hlt

/-- What a successful `Ext2ReadFile` gives. -/
theorem ext2ReadFile_success {log : ℕ} (hw : Owns start w)
    (hinode : (inode, sizeofExt2Inode) ∈ w.live) (hbs : disk.blockSize = blockSizeOf log)
    (hfuel : 2 ^ 32 ≤ fuel)
    (hret : (w.ext2ReadFile fuel disk inode).outcome = .ret (.statusSuccess, content, w')) :
    1024 ≤ disk.blockSize ∧ disk.blockSize ≤ 2 ^ 30 ∧ ∃ p, content = some p ∧
      (p, inodeFileSize w.h.mem inode) ∈ w'.live ∧
      ∀ i < inodeFileSize w.h.mem inode, w'.h.mem (p + i) =
        walkByte disk.device disk.blockSize (walk disk w.h.mem inode) i := by
  have hmeets := ext2ReadFile_meets (c := ⟨fun _ => True, fun _ => True⟩) (n := 0) hw hinode
    (by rw [hbs]; exact blockSizeOf_lt log) hfuel ⟨fun _ _ _ _ => trivial, fun _ _ _ _ _ _ _ _ => trivial,
      fun _ _ => trivial⟩ (.inl trivial)
  obtain ⟨-, ⟨hstatus, -⟩ | ⟨-, hsizes, p, hp, hmem, hbytes⟩⟩ := hmeets.ret _ hret
  · exact absurd rfl hstatus
  · have hcases := blockSizeOf_cases log (by rw [← hbs]; exact hsizes.pos)
      (by rw [← hbs]; exact hsizes.lt)
    rw [← hbs] at hcases
    exact ⟨hcases.1, hcases.2, p, hp, hmem, hbytes hcases.2⟩

theorem whole_iff {log : ℕ} (hw : Owns start w) (hinode : (inode, sizeofExt2Inode) ∈ w.live)
    (hbs : disk.blockSize = blockSizeOf log) (hfuel : 2 ^ 32 ≤ fuel)
    (hret : (w.ext2ReadFile fuel disk inode).outcome = .ret (.statusSuccess, content, w')) :
    Whole disk w.h.mem inode content w' ↔
      Covers disk w.h.mem inode (inodeFileSize w.h.mem inode) := by
  obtain ⟨-, -, p, rfl, hmem, hbytes⟩ := ext2ReadFile_success hw hinode hbs hfuel hret
  constructor
  · rintro ⟨⟨q, hq, -, hfile⟩, hcount⟩
    cases hq
    exact ⟨hcount, fun i hi => (hbytes i hi).symm.trans (hfile i hi)⟩
  · rintro ⟨hcount, hcovers⟩
    exact ⟨⟨p, rfl, hmem, fun i hi => (hbytes i hi).trans (hcovers i hi)⟩, hcount⟩

/-- A successful `Ext2ReadFile` has read the whole file exactly if the blocks of its walk have the
bytes of the file. Below 4 GiB that is: no block of the file is behind a triply-indirect block,
and each one behind a doubly-indirect block has the same bytes as the one that is taken for it. -/
theorem ext2ReadFile_whole_iff {log : ℕ} (hw : Owns start w)
    (hinode : (inode, sizeofExt2Inode) ∈ w.live) (hbs : disk.blockSize = blockSizeOf log)
    (hfuel : 2 ^ 32 ≤ fuel)
    (hret : (w.ext2ReadFile fuel disk inode).outcome = .ret (.statusSuccess, content, w')) :
    (Whole disk w.h.mem inode content w' ↔
        Covers disk w.h.mem inode (inodeFileSize w.h.mem inode)) ∧
      (WellFormed disk w.h.mem inode (blockCount disk (inodeFileSize w.h.mem inode)) →
        FileBelow disk w.h.mem inode (blockCount disk (inodeFileSize w.h.mem inode)) →
        (Whole disk w.h.mem inode content w' ↔
          SameBlocks disk w.h.mem inode (inodeFileSize w.h.mem inode))) := by
  have hwhole := whole_iff hw hinode hbs hfuel hret
  obtain ⟨hlow, hhigh, -⟩ := ext2ReadFile_success hw hinode hbs hfuel hret
  refine ⟨hwhole, fun hform hbelow => hwhole.trans ?_⟩
  refine hform.covers_iff hbelow ?_ (by omega)
  unfold pointers
  omega

/-- A small file with these bytes of its inode can be read from such a disk, as long as the kernel
gives the program the memory that it asks for. -/
theorem exists_read (bytes f : ℕ → U8) (hpos : 0 < inodeFileSize f 0)
    (hsize : inodeFileSize f 0 ≤ 2 ^ 20) : ∃ (w : UserProgram) (inode : ℕ) (content : Option ℕ)
      (w' : UserProgram), Owns 0x40002000 w ∧
      (inode, sizeofExt2Inode) ∈ w.live ∧ inodeFileSize w.h.mem inode = inodeFileSize f 0 ∧
      (∀ i < 15, inodeBlock w.h.mem inode i = inodeBlock f 0 i) ∧
      (w.ext2ReadFile (2 ^ 32) (diskOf bytes) inode).outcome =
        .ret (.statusSuccess, content, w') := by
  let c : Traced.Contract Access := ⟨fun _ => True, fun _ => False⟩
  obtain ⟨w, inode, hw, hinode, hbytes, hbrk⟩ := exists_inode f
  have hfile : inodeFileSize w.h.mem inode = inodeFileSize f 0 := by
    rw [inodeFileSize, inodeFileSize, Nat.zero_add]
    exact Bytes.load32_shift hbytes (by decide)
  have hblocks (i) (hi : i < 15) : inodeBlock w.h.mem inode i = inodeBlock f 0 i := by
    rw [inodeBlock, inodeBlock, Nat.add_assoc, Nat.zero_add]
    exact Bytes.load32_shift hbytes (by unfold sizeofExt2Inode; omega)
  have hgrowth : UserHeap.growth (inodeFileSize f 0) ≤ 2 ^ 21 + 2 ^ 14 := growth_le (by omega)
  have hblock : (diskOf bytes).blockSize = 1024 := rfl
  have hfileRoom : fileRoom (diskOf bytes) (inodeFileSize f 0) ≤ 2 ^ 30 := by
    have hloops : UserHeap.growth 1024 + loopsRoom (diskOf fun _ => 0) ≤ 2 ^ 29 + 2 ^ 23 := by
      decide +kernel
    show UserHeap.growth (inodeFileSize f 0) +
      (UserHeap.growth 1024 + loopsRoom (diskOf fun _ => 0)) ≤ 2 ^ 30
    omega
  have hroom : Room c w (fileRoom (diskOf bytes) (inodeFileSize f 0) + 0) :=
    .inr ⟨by omega, (Nat.add_le_add_left hfileRoom _).trans hbrk⟩
  rw [← hfile] at hroom
  obtain ⟨⟨status, content, w'⟩, hret, -, ⟨-, hfails⟩ | ⟨hstatus, -⟩⟩ :=
    (ext2ReadFile_meets hw hinode (by omega) le_rfl ⟨fun _ _ _ _ => trivial,
      fun _ _ _ _ _ _ _ _ => trivial, fun _ _ => trivial⟩ hroom).returns fun _ => id
  · refine absurd (fun _ => Option.some_ne_none _) (hfails ⟨?_, ?_, by omega, by omega⟩)
    · rwa [hfile]
    · omega
  · cases hstatus
    exact ⟨w, inode, content, w', hw, hinode, hfile, hblocks, hret⟩

theorem indirectInode_block : ∀ i < 15, inodeBlock indirectInode 0 i =
    if i < 12 then i + 4 else if i = 12 then 3 else 0 := by
  decide

theorem indirectBytes_singly : ∀ i < 256, tableOn (diskOf indirectBytes) 3 i =
    if i < 2 then i + 1 else 0 := by
  decide +kernel

theorem indirectBytes_doubly : ∀ i < 256, tableOn (diskOf indirectBytes) 0 i = 0 := by
  decide +kernel

theorem indirect_wellFormed
    (h : ∀ i < 15, inodeBlock m inode i = inodeBlock indirectInode 0 i) :
    WellFormed (diskOf indirectBytes) m inode 14 := by
  have hpointers : pointers (diskOf indirectBytes) = 256 := rfl
  have hend : doublyEnd (diskOf indirectBytes) = 65804 := rfl
  have hblock (i : ℕ) (hi : i < 15) := (h i hi).trans (indirectInode_block i hi)
  refine ⟨fun i hi => ?_, ?_, fun _ i hi => ?_, ?_, fun hlt => ?_, fun i _ hlt => ?_, ?_⟩
  · unfold inodeNbDirectPtr at hi
    rw [hblock i (by omega), if_pos hi]
    omega
  · rw [hblock _ (by decide)]
    decide
  · rw [hblock _ (by decide)]
    show tableOn (diskOf indirectBytes) 3 i ≠ 0 ↔ _
    rw [hpointers] at hi
    rw [indirectBytes_singly i hi]
    unfold inodeNbDirectPtr
    split <;> omega
  · rw [hblock _ (by decide)]
    decide
  · rw [hpointers] at hlt
    exact absurd hlt (by decide)
  · rw [hpointers] at hlt
    unfold inodeNbDirectPtr at hlt
    omega
  · rw [hblock _ (by decide), hend]
    decide

theorem indirect_below (h : ∀ i < 15, inodeBlock m inode i = inodeBlock indirectInode 0 i) :
    FileBelow (diskOf indirectBytes) m inode 14 := by
  have hpointers : pointers (diskOf indirectBytes) = 256 := rfl
  have hblock (i : ℕ) (hi : i < 15) := (h i hi).trans (indirectInode_block i hi)
  have hall (number : ℕ) (hnumber : number ≤ 15) : Below (diskOf indirectBytes) number := by
    unfold Below
    show number * 1024 + 1024 < 2 ^ 32
    omega
  refine ⟨fun k hk => hall _ ?_, hall _ ?_, hall _ ?_, fun i hi => hall _ ?_⟩
  · rw [fileBlock, hpointers]
    unfold inodeNbDirectPtr
    split
    · rw [hblock k (by omega), if_pos ‹_›]
      omega
    · rw [if_pos (by omega), hblock _ (by decide)]
      show tableOn (diskOf indirectBytes) 3 (k - 12) ≤ 15
      rw [indirectBytes_singly _ (by omega)]
      split <;> omega
  · rw [hblock _ (by decide)]
    decide
  · rw [hblock _ (by decide)]
    decide
  · rw [hpointers] at hi
    rw [doublyTable, hblock _ (by decide)]
    show tableOn (diskOf indirectBytes) 0 i ≤ 15
    rw [indirectBytes_doubly i hi]
    decide

/-- A file with a singly-indirect block is read. -/
theorem indirect_whole : ∃ (w : UserProgram) (inode : ℕ) (content : Option ℕ) (w' : UserProgram),
    inodeFileSize w.h.mem inode = 13318 ∧
    (w.ext2ReadFile (2 ^ 32) (diskOf indirectBytes) inode).outcome =
      .ret (.statusSuccess, content, w') ∧
    Whole (diskOf indirectBytes) w.h.mem inode content w' := by
  obtain ⟨w, inode, content, w', hw, hinode, hsize, hblocks, hret⟩ :=
    exists_read indirectBytes indirectInode (by decide) (by decide)
  have hsize : inodeFileSize w.h.mem inode = 13318 := hsize
  have hcount : blockCount (diskOf indirectBytes) 13318 = 14 := rfl
  have hbs : (diskOf indirectBytes).blockSize = blockSizeOf 0 := rfl
  have hfile := (ext2ReadFile_whole_iff hw hinode hbs le_rfl hret).2
  rw [hsize, hcount] at hfile
  refine ⟨w, inode, content, w', hsize, hret,
    (hfile (indirect_wellFormed hblocks) (indirect_below hblocks)).mpr
      ⟨by decide, fun i hi hk => ?_⟩⟩
  -- all blocks are in front of the doubly-indirect ones
  have hk : 12 + 256 ≤ i / 1024 := hk
  omega

/-- The bytes of a disk with a full table of pointers to block 1 in block 100, and a
doubly-indirect table of the blocks 7 and 8 in block 101. -/
def largeBytes (x : ℕ) : U8 :=
  if x / 1024 = 100 ∧ x % 4 = 0 then 1
  else if x = 101 * 1024 then 102
  else if x = 102 * 1024 then 7
  else if x = 102 * 1024 + 4 then 8
  else if x = 8 * 1024 then 1
  else 0

/-- The bytes of an inode of 269 KiB and one byte there. -/
def largeInode (i : ℕ) : U8 :=
  if 40 ≤ i ∧ i < 88 ∧ i % 4 = 0 then 1
  else if i = 4 then 1
  else if i = 5 then 0x34
  else if i = 6 then 4
  else if i = 88 then 100
  else if i = 92 then 101
  else 0

theorem largeInode_block : ∀ i < 15, inodeBlock largeInode 0 i =
    if i < 12 then 1 else if i = 12 then 100 else if i = 13 then 101 else 0 := by
  decide

theorem largeBytes_singly : ∀ i < 256, tableOn (diskOf largeBytes) 100 i = 1 := by
  decide +kernel

theorem largeBytes_doubly : ∀ i < 256, tableOn (diskOf largeBytes) 101 i =
    if i = 0 then 102 else 0 := by
  decide +kernel

theorem largeBytes_table : ∀ i < 256, tableOn (diskOf largeBytes) 102 i =
    if i = 0 then 7 else if i = 1 then 8 else 0 := by
  decide +kernel

theorem large_doublyTable (h : ∀ i < 15, inodeBlock m inode i = inodeBlock largeInode 0 i) {i : ℕ}
    (hi : i < 256) : doublyTable (diskOf largeBytes) m inode i = if i = 0 then 102 else 0 := by
  rw [doublyTable, h _ (by decide)]
  exact largeBytes_doubly i hi

/-- The blocks of the large file. -/
theorem large_fileBlock (h : ∀ i < 15, inodeBlock m inode i = inodeBlock largeInode 0 i) {k : ℕ}
    (hk : k < 270) : fileBlock (diskOf largeBytes) m inode k =
      if k < 268 then 1 else if k = 268 then 7 else 8 := by
  have hpointers : pointers (diskOf largeBytes) = 256 := rfl
  have hend : doublyEnd (diskOf largeBytes) = 65804 := rfl
  rw [fileBlock, hpointers, hend]
  unfold inodeNbDirectPtr
  split
  · rename_i hlt
    rw [h k (by omega), largeInode_block k (by omega), if_pos hlt, if_pos (by omega)]
  · split
    · rename_i hge hlt
      rw [h _ (by decide)]
      exact largeBytes_singly (k - 12) (by omega)
    · rename_i hge
      rw [if_pos (by omega)]
      obtain rfl | rfl : k = 268 ∨ k = 269 := by omega
      · show tableOn (diskOf largeBytes) (doublyTable (diskOf largeBytes) m inode 0) 0 = 7
        rw [large_doublyTable h (by decide)]
        exact largeBytes_table 0 (by decide)
      · show tableOn (diskOf largeBytes) (doublyTable (diskOf largeBytes) m inode 0) 1 = 8
        rw [large_doublyTable h (by decide)]
        exact largeBytes_table 1 (by decide)

theorem large_wellFormed (h : ∀ i < 15, inodeBlock m inode i = inodeBlock largeInode 0 i) :
    WellFormed (diskOf largeBytes) m inode 270 := by
  have hpointers : pointers (diskOf largeBytes) = 256 := rfl
  have hblock (i : ℕ) (hi : i < 15) := (h i hi).trans (largeInode_block i hi)
  refine ⟨fun i hi => ?_, ?_, fun _ i hi => ?_, ?_, fun _ i hi => ?_, fun i hi hlt j hj => ?_, ?_⟩
  · unfold inodeNbDirectPtr at hi
    rw [hblock i (by omega), if_pos hi]
    omega
  · rw [hblock _ (by decide)]
    decide
  · rw [hblock _ (by decide)]
    show tableOn (diskOf largeBytes) 100 i ≠ 0 ↔ _
    rw [hpointers] at hi
    rw [largeBytes_singly i hi]
    unfold inodeNbDirectPtr
    omega
  · rw [hblock _ (by decide)]
    decide
  · rw [hpointers] at hi ⊢
    rw [large_doublyTable h hi]
    unfold inodeNbDirectPtr
    split <;> omega
  · rw [hpointers] at hi hj hlt ⊢
    unfold inodeNbDirectPtr at hlt ⊢
    obtain rfl : i = 0 := by omega
    rw [large_doublyTable h hi, if_pos rfl, largeBytes_table j hj]
    split
    · omega
    · split <;> omega
  · rw [hblock _ (by decide)]
    decide

theorem large_below (h : ∀ i < 15, inodeBlock m inode i = inodeBlock largeInode 0 i) :
    FileBelow (diskOf largeBytes) m inode 270 := by
  have hall (number : ℕ) (hnumber : number ≤ 102) : Below (diskOf largeBytes) number := by
    unfold Below
    show number * 1024 + 1024 < 2 ^ 32
    omega
  refine ⟨fun k hk => hall _ ?_, hall _ ?_, hall _ ?_, fun i hi => hall _ ?_⟩
  · rw [large_fileBlock h hk]
    split
    · decide
    · split <;> decide
  · rw [h _ (by decide), largeInode_block _ (by decide)]
    decide
  · rw [h _ (by decide), largeInode_block _ (by decide)]
    decide
  · rw [large_doublyTable h hi]
    split <;> decide

/-- The last byte of the large file is not read: block 7 is taken for block 8. -/
theorem large_not_sameBlocks (h : ∀ i < 15, inodeBlock m inode i = inodeBlock largeInode 0 i) :
    ¬SameBlocks (diskOf largeBytes) m inode 275457 := by
  rintro ⟨-, hsame⟩
  have hbyte := hsame 275456 (by decide) (by decide)
  have hfile : fileByte (diskOf largeBytes) m inode 275456 = 1 := by
    rw [fileByte, show 275456 / (diskOf largeBytes).blockSize = 269 from rfl,
      large_fileBlock h (by decide)]
    decide
  have hpicked : pickedBlock (diskOf largeBytes) m inode 269 = 7 := by
    rw [pickedBlock, if_neg (by decide)]
    show tableOn (diskOf largeBytes) (doublyTable (diskOf largeBytes) m inode 0) 0 = 7
    rw [large_doublyTable h (by decide)]
    exact largeBytes_table 0 (by decide)
  rw [hfile, show 275456 / (diskOf largeBytes).blockSize = 269 from rfl, hpicked] at hbyte
  exact absurd hbyte (by decide)

/-- A file of 270 blocks is not read as it is, though there are no errors, and memory for all of
it. -/
theorem large_not_whole : ∃ (w : UserProgram) (inode : ℕ) (content : Option ℕ) (w' : UserProgram),
    AllSectors (diskOf largeBytes).device ∧
    WellFormed (diskOf largeBytes) w.h.mem inode
      (blockCount (diskOf largeBytes) (inodeFileSize w.h.mem inode)) ∧
    (w.ext2ReadFile (2 ^ 32) (diskOf largeBytes) inode).outcome =
      .ret (.statusSuccess, content, w') ∧
    ¬Whole (diskOf largeBytes) w.h.mem inode content w' := by
  obtain ⟨w, inode, content, w', hw, hinode, hsize, hblocks, hret⟩ :=
    exists_read largeBytes largeInode (by decide) (by decide)
  have hsize : inodeFileSize w.h.mem inode = 275457 := hsize
  have hcount : blockCount (diskOf largeBytes) (inodeFileSize w.h.mem inode) = 270 := by
    rw [hsize]
    rfl
  have hform := large_wellFormed hblocks
  refine ⟨w, inode, content, w', fun _ => nofun, hcount ▸ hform, hret, fun hwhole => ?_⟩
  have hbs : (diskOf largeBytes).blockSize = blockSizeOf 0 := rfl
  have hcovers := (whole_iff hw hinode hbs le_rfl hret).mp hwhole
  rw [← hcount] at hform
  have hsame := (hform.covers_iff (hcount ▸ large_below hblocks) (by decide) (by decide)).mp hcovers
  rw [hsize] at hsame
  exact large_not_sameBlocks hblocks hsame

end UserProgram

end LtMicros
