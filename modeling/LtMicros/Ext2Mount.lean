import LtMicros.Ext2

/-!
# Mounting a disk

What `Ext2ReadDiskOnDevice` makes of the bytes of a device, whatever they are, and when
`Ext2ReadInode` of the disk comes back.
-/

namespace LtMicros

open Lib

namespace UserProgram

variable {start p n size offset fuel : ℕ} {w w' : UserProgram} {device : AtaDevice}
  {disk : Ext2Disk} {num : ℤ} {m m' : Bytes} {c : Traced.Contract Access}

/-- The superblock on a device. -/
def superBlockOn (device : AtaDevice) : Ext2SuperBlock :=
  ext2SuperBlock (fun x => device.byteAt (mbrReservedSize + x)) 0

/-- The `groups` of a disk, a 16-bit member. -/
def groupsOf (sb : Ext2SuperBlock) : ℕ :=
  (if groupsFor sb.blocksCount sb.blocksPerGroup > groupsFor sb.inodesCount sb.inodesPerGroup then
    groupsFor sb.blocksCount sb.blocksPerGroup
  else groupsFor sb.inodesCount sb.inodesPerGroup) % 2 ^ 16

/-- Where the group table of a device is, and how long. -/
def groupTableOffset (device : AtaDevice) : ℕ :=
  groupDescOffset (blockSizeOf (superBlockOn device).logBlockSize)

def groupTableSize (device : AtaDevice) : ℕ := groupsOf (superBlockOn device) * sizeofExt2GroupDesc

/-- A device from which a disk can be read. -/
structure Mountable (device : AtaDevice) : Prop where
  superBlock : Served device mbrReservedSize sizeofExt2SuperBlock
  groups : groupsOf (superBlockOn device) ≠ 0
  groupDec : Served device (groupTableOffset device) (groupTableSize device)

/-- A new buffer with what `AtaRead` delivers. -/
structure Loaded (dev : AtaDevice) (offset size : ℕ) (w w' : UserProgram) (p : ℕ) : Prop where
  served : Served dev offset size
  live : (p, size) ∈ w'.live
  fresh : ∀ a ∈ w.live, a.1 ≠ p
  bytes : ∀ i < size, w'.h.mem (p + i) = delivered dev offset size i

/-- The disk of a device, with its buffers in the memory of the program. -/
structure Mounted (start : ℕ) (device : AtaDevice) (disk : Ext2Disk) (w : UserProgram) : Prop where
  owns : Owns start w
  onDevice : disk.device = device
  blockSize : disk.blockSize = blockSizeOf (superBlockOn device).logBlockSize
  groups : disk.groups = groupsOf (superBlockOn device)
  superBlock_live : (disk.superBlock, sizeofExt2SuperBlock) ∈ w.live
  superBlock : ∀ i < sizeofExt2SuperBlock,
    w.h.mem (disk.superBlock + i) = device.byteAt (mbrReservedSize + i)
  groupDec_live : (disk.groupDec, groupTableSize device) ∈ w.live
  groupDec : ∀ i < groupTableSize device, w.h.mem (disk.groupDec + i) =
    delivered device (groupTableOffset device) (groupTableSize device) i

theorem groupDescOffset_lt {blockSize : ℕ} (h : blockSize < 2 ^ 32) :
    groupDescOffset blockSize < 2 ^ 32 := by
  unfold groupDescOffset
  split <;> omega

theorem groupTableSize_le (device : AtaDevice) : groupTableSize device ≤ 2 ^ 21 := by
  have hlt : groupsOf (superBlockOn device) < 2 ^ 16 := Nat.mod_lt _ (by decide)
  unfold groupTableSize sizeofExt2GroupDesc
  omega

/-- The members of a superblock only depend on its bytes. -/
theorem ext2SuperBlock_congr {q : ℕ} (h : ∀ i < sizeofExt2SuperBlock, m (p + i) = m' (q + i)) :
    ext2SuperBlock m p = ext2SuperBlock m' q := by
  have hword (k : ℕ) (hk : k + 4 ≤ sizeofExt2SuperBlock) :
      m.load32 (p + k) = m'.load32 (q + k) := by
    rw [Bytes.load32_shift (f := fun i => m' (q + i)) h hk]
    exact (Bytes.load32_shift (fun _ _ => rfl) hk).symm
  have h0 := hword 0 (by decide)
  rw [Nat.add_zero, Nat.add_zero] at h0
  rw [ext2SuperBlock, ext2SuperBlock, h0, hword 4 (by decide), hword 24 (by decide),
    hword 32 (by decide), hword 40 (by decide), hword 88 (by decide)]

theorem Mounted.ext2SuperBlock_eq (h : Mounted start device disk w) :
    ext2SuperBlock w.h.mem disk.superBlock = superBlockOn device :=
  ext2SuperBlock_congr fun i hi => by rw [h.superBlock i hi, Nat.zero_add]

/-- Calls that keep the buffers of a disk keep the disk. -/
theorem Mounted.evolves (h : Mounted start device disk w) {except : List ℕ}
    (hev : Evolves c start n except w w') (hsb : disk.superBlock ∉ except)
    (hgroup : disk.groupDec ∉ except) : Mounted start device disk w' := by
  obtain ⟨hsb, hsbytes⟩ := hev.rest _ h.superBlock_live hsb
  obtain ⟨hgroup, hgbytes⟩ := hev.rest _ h.groupDec_live hgroup
  exact ⟨hev.owns, h.onDevice, h.blockSize, h.groups, hsb,
    fun i hi => (hsbytes i hi).trans (h.superBlock i hi), hgroup,
    fun i hi => (hgbytes i hi).trans (h.groupDec i hi)⟩

/-! ## Reading a structure -/

theorem sectors_small (hsize : size ≤ 2 ^ 22) : sectors offset size * ataBlockSize < 2 ^ 31 := by
  unfold sectors ataBlockSize
  omega

theorem growth_le (hsize : size ≤ 2 ^ 21 + 1023) : UserHeap.growth size ≤ 2 ^ 21 + 2 ^ 14 := by
  unfold UserHeap.growth Heap.pageCount roundUp defaultBlockSize pageSize blockHeaderSize
  omega

/-- The structure is read into a new buffer, or a sector cannot be read. -/
theorem readStructure_meets (hw : Owns start w) (hpos : 0 < size) (hsize : size ≤ 2 ^ 21)
    (hoffset : offset < 2 ^ 32) (hok : AllowsInside c) (hfuel : 2 ^ 32 ≤ fuel)
    (hroom : Room c w (UserHeap.growth size + (UserHeap.growth (size + 1023) + n))) :
    Traced.Meets c (w.readStructure fuel device offset size) fun r =>
      Evolves c start n [] w r.2.2 ∧
        ((r.2.1 = none ∧ ¬Served device offset size) ∨
          ∃ p, r.2.1 = some p ∧ Loaded device offset size w r.2.2 p) := by
  have hint : int32 size = size := int32_of_lt (by omega) (by omega)
  rw [readStructure, hint]
  rw [← Int.toNat_natCast size] at hroom
  refine (heapAlloc_meets hw (by omega) (by omega) hfuel hroom).bind ?_
  rintro ⟨_, w₁⟩ ⟨p, rfl, hev₁, hmem, hfresh, -⟩
  dsimp only at hev₁ hmem hfresh ⊢
  rw [Int.toNat_natCast] at hmem
  refine (ataRead_meets hev₁.owns hmem (fun _ => le_rfl) (by omega) hoffset hok hfuel
    hev₁.room).bind ?_
  rintro ⟨ret, w₂⟩ ⟨hev₂, hmem₂, ⟨rfl, hserved⟩ | ⟨hret, hserved, hfilled⟩⟩
  · dsimp only at hev₂ hmem₂ ⊢
    rw [if_pos (by decide)]
    refine (heapFree_meets hev₂.owns hmem₂ hev₂.room).bind ?_
    rintro w₃ hev₃
    refine Traced.Meets.pure ⟨?_, .inl ⟨rfl, hserved⟩⟩
    exact ((hev₁.trans hev₂).trans hev₃).weaken (by simpa using hfresh)
  · dsimp only at hev₂ hmem₂ hret hfilled ⊢
    rw [if_neg (by omega)]
    refine Traced.Meets.pure ⟨(hev₁.trans hev₂).weaken (by simpa using hfresh), .inr ⟨p, rfl,
      hserved, hmem₂, hfresh, fun i hi => ?_⟩⟩
    have h := hfilled i hi
    rwa [Filled, if_pos ⟨hi, sectors_small (by omega)⟩] at h

/-- Nothing can be read into a buffer of no bytes. -/
theorem readStructure_zero : w.readStructure fuel device offset 0 =
    pure (.statusAllocFailed, none, w) := by
  rw [readStructure, show int32 (0 : ℕ) = 0 from rfl, heapAlloc_null le_rfl]
  rfl

/-! ## `Ext2ReadDiskOnDevice` -/

theorem groupCount_meets {count perGroup : ℕ} (hne : perGroup ≠ 0) (hok : c.ok (.div perGroup)) :
    Traced.Meets c (groupCount count perGroup) fun i => i = groupsFor count perGroup := by
  refine (Traced.Meets.note hok (Q := fun _ => True) trivial).bind fun _ _ => ?_
  rw [if_neg hne]
  exact Traced.Meets.pure rfl

/-- The superblock is read, or a sector cannot be read. -/
theorem readSuperBlock_meets (hw : Owns start w) (hok : AllowsInside c) (hfuel : 2 ^ 32 ≤ fuel)
    (hroom : Room c w (2 ^ 15 + n)) :
    Traced.Meets c (w.readSuperBlock fuel device) fun r => Evolves c start n [] w r.2.2 ∧
      ((r.2.1 = none ∧ ¬Served device mbrReservedSize sizeofExt2SuperBlock) ∨
        ∃ p, r.2.1 = some p ∧
          Loaded device mbrReservedSize sizeofExt2SuperBlock w r.2.2 p) := by
  have hgrowth : UserHeap.growth mbrReservedSize + UserHeap.growth (mbrReservedSize + 1023) ≤
      2 ^ 15 := by
    decide
  exact readStructure_meets hw (by decide) (by decide) (by decide) hok hfuel
    (hroom.mono (by omega) (by omega))

/-- The group table is read, or there are no groups, or a sector cannot be read. -/
theorem readGroupDesc_meets (hw : Owns start w) (hok : AllowsInside c) (hfuel : 2 ^ 32 ≤ fuel)
    (hroom : Room c w (2 ^ 22 + 2 ^ 15 + n)) :
    Traced.Meets c (w.readGroupDesc fuel device (groupsOf (superBlockOn device))
        (blockSizeOf (superBlockOn device).logBlockSize)) fun r =>
      Evolves c start n [] w r.2.2 ∧
        ((r.2.1 = none ∧ ¬(groupsOf (superBlockOn device) ≠ 0 ∧
            Served device (groupTableOffset device) (groupTableSize device))) ∨
          ∃ p, r.2.1 = some p ∧ groupsOf (superBlockOn device) ≠ 0 ∧
            Loaded device (groupTableOffset device) (groupTableSize device) w r.2.2 p) := by
  have hsize := groupTableSize_le device
  by_cases hzero : groupsOf (superBlockOn device) = 0
  · rw [readGroupDesc, hzero, Nat.zero_mul, readStructure_zero]
    exact Traced.Meets.pure ⟨.refl hw (hroom.mono (by omega) (by omega)) _,
      .inl ⟨rfl, fun h => h.1 rfl⟩⟩
  · have hpos : 0 < groupTableSize device :=
      Nat.mul_pos (Nat.pos_of_ne_zero hzero) (by decide)
    have hgrowth : UserHeap.growth (groupTableSize device) ≤ 2 ^ 21 + 2 ^ 14 :=
      growth_le (by omega)
    have hgrowth' : UserHeap.growth (groupTableSize device + 1023) ≤ 2 ^ 21 + 2 ^ 14 :=
      growth_le (by omega)
    refine (readStructure_meets hw hpos hsize (groupDescOffset_lt (blockSizeOf_lt _)) hok hfuel
      (n := n) (hroom.mono (by omega) (by omega))).mono ?_
    rintro ⟨_, _, w'⟩ ⟨hev, ⟨hnone, hserved⟩ | ⟨p, hsome, hload⟩⟩
    · exact ⟨hev, .inl ⟨hnone, fun h => hserved h.2⟩⟩
    · exact ⟨hev, .inr ⟨p, hsome, hzero, hload⟩⟩

/-- The bytes of a superblock that has been read. -/
theorem Loaded.superBlock {w'' : UserProgram}
    (h : Loaded device mbrReservedSize sizeofExt2SuperBlock w w' p) {except : List ℕ}
    (hev : Evolves c start n except w' w'') (hex : p ∉ except) :
    (p, sizeofExt2SuperBlock) ∈ w''.live ∧ ∀ i < sizeofExt2SuperBlock,
      w''.h.mem (p + i) = device.byteAt (mbrReservedSize + i) := by
  obtain ⟨hmem, hbytes⟩ := hev.rest _ h.live hex
  refine ⟨hmem, fun i hi => (hbytes i hi).trans ?_⟩
  rw [h.bytes i hi, delivered, if_pos (by decide)]

theorem Loaded.ext2SuperBlock_eq (h : Loaded device mbrReservedSize sizeofExt2SuperBlock w w' p) :
    ext2SuperBlock w'.h.mem p = superBlockOn device := by
  refine ext2SuperBlock_congr fun i hi => ?_
  rw [h.bytes i hi, delivered, if_pos (by decide), Nat.zero_add]

/-- The memory that mounting a disk takes at most. -/
abbrev mountRoom : ℕ := 2 ^ 23

/-- The group table of a disk whose superblock has been read. -/
theorem readGroups_meets {localDisk : ℕ} (hload : Loaded device mbrReservedSize
      sizeofExt2SuperBlock w w' p) (hw : Owns start w') (hok : AllowsInside c)
    (hdiv : ∀ d ≠ 0, c.ok (.div d)) (hfuel : 2 ^ 32 ≤ fuel)
    (hroom : Room c w' (2 ^ 22 + 2 ^ 15 + n)) (hdisk : (localDisk, size) ∈ w'.live)
    (hne : localDisk ≠ p) (hbpg : (superBlockOn device).blocksPerGroup ≠ 0)
    (hipg : (superBlockOn device).inodesPerGroup ≠ 0) :
    Traced.Meets c (w'.readGroups fuel device localDisk p) fun r =>
      Evolves c start n [localDisk, p] w' r.2.2 ∧
        ((r.2.1 = none ∧ ¬Mountable device) ∨
          ∃ disk, r.2.1 = some disk ∧ Mountable device ∧ Mounted start device disk r.2.2) := by
  rw [readGroups, hload.ext2SuperBlock_eq]
  refine (groupCount_meets hbpg (hdiv _ hbpg)).bind ?_
  rintro _ rfl
  refine (groupCount_meets hipg (hdiv _ hipg)).bind ?_
  rintro _ rfl
  refine (readGroupDesc_meets hw hok hfuel hroom).bind ?_
  rintro ⟨status, groupDec, w₁⟩ ⟨hev₁, ⟨rfl, hserved⟩ | ⟨q, rfl, hgroups, hload'⟩⟩
  · dsimp only at hev₁ ⊢
    obtain ⟨hdisk₁, -⟩ := hev₁.rest _ hdisk List.not_mem_nil
    obtain ⟨hp₁, -⟩ := hev₁.rest _ hload.live List.not_mem_nil
    refine (heapFree_meets hev₁.owns hdisk₁ hev₁.room).bind fun w₂ hev₂ => ?_
    obtain ⟨hp₂, -⟩ := hev₂.rest _ hp₁ (by simpa using hne.symm)
    refine (heapFree_meets hev₂.owns hp₂ hev₂.room).bind fun w₃ hev₃ => ?_
    exact Traced.Meets.pure ⟨(hev₁.trans hev₂).trans hev₃,
      .inl ⟨rfl, fun h => hserved ⟨h.groups, h.groupDec⟩⟩⟩
  · dsimp only at hev₁ hload' ⊢
    obtain ⟨hsb, hsbytes⟩ := hload.superBlock hev₁ List.not_mem_nil
    exact Traced.Meets.pure ⟨hev₁.weaken (by simp), .inr ⟨_, rfl,
      ⟨hload.served, hgroups, hload'.served⟩,
      ⟨hev₁.owns, rfl, rfl, rfl, hsb, hsbytes, hload'.live, hload'.bytes⟩⟩⟩

/-- With other divisors than zero, a disk is mounted exactly if the device is mountable. -/
theorem ext2ReadDiskOnDevice_meets (hw : Owns start w) (hok : AllowsInside c)
    (hdiv : ∀ d ≠ 0, c.ok (.div d)) (hfuel : 2 ^ 32 ≤ fuel) (hroom : Room c w (mountRoom + n))
    (hne : Served device mbrReservedSize sizeofExt2SuperBlock →
      (superBlockOn device).blocksPerGroup ≠ 0 ∧ (superBlockOn device).inodesPerGroup ≠ 0) :
    Traced.Meets c (w.ext2ReadDiskOnDevice fuel device) fun r => Evolves c start n [] w r.2.2 ∧
      ((r.2.1 = none ∧ ¬Mountable device) ∨
        ∃ disk, r.2.1 = some disk ∧ Mountable device ∧ Mounted start device disk r.2.2) := by
  have hgrowth : UserHeap.growth (sizeofExt2Disk : ℤ).toNat ≤ 2 ^ 14 := by decide
  unfold mountRoom at hroom
  rw [ext2ReadDiskOnDevice]
  refine (heapAlloc_meets hw (by decide) (by decide) hfuel
    (n := 2 ^ 15 + (2 ^ 22 + 2 ^ 15 + n)) (hroom.mono (by omega) (by omega))).bind ?_
  rintro ⟨_, w₁⟩ ⟨localDisk, rfl, hev₁, hdisk, hfresh, -⟩
  dsimp only at hev₁ hdisk hfresh ⊢
  refine (readSuperBlock_meets hev₁.owns hok hfuel hev₁.room).bind ?_
  rintro ⟨status, superBlock, w₂⟩ ⟨hev₂, ⟨rfl, hserved⟩ | ⟨p, rfl, hload⟩⟩
  · dsimp only at hev₂ ⊢
    obtain ⟨hdisk₂, -⟩ := hev₂.rest _ hdisk List.not_mem_nil
    refine (heapFree_meets hev₂.owns hdisk₂
      (n := n) (hev₂.room.mono (by omega) (by omega))).bind fun w₃ hev₃ => ?_
    refine Traced.Meets.pure ⟨?_, .inl ⟨rfl, fun h => hserved h.superBlock⟩⟩
    exact ((hev₁.trans hev₂).trans hev₃).weaken (by simpa using hfresh)
  · dsimp only at hev₂ hload ⊢
    obtain ⟨hdisk₂, -⟩ := hev₂.rest _ hdisk List.not_mem_nil
    obtain ⟨hbpg, hipg⟩ := hne hload.served
    have hpfresh : ∀ a ∈ w.live, a.1 ≠ p := fun a ha =>
      hload.fresh a (hev₁.rest a ha List.not_mem_nil).1
    refine (readGroups_meets hload hev₂.owns hok hdiv hfuel hev₂.room hdisk₂
      (hload.fresh _ hdisk) hbpg hipg).mono ?_
    rintro ⟨status, _, w₃⟩ ⟨hev₃, hmounted⟩
    refine ⟨((hev₁.trans hev₂).trans hev₃).weaken fun q hq => .inr ?_, hmounted⟩
    simp only [List.nil_append, List.mem_cons, List.not_mem_nil, or_false] at hq
    rcases hq with rfl | rfl
    · exact hfresh
    · exact hpfresh

/-- A superblock that can be read is followed by the first divisions. -/
theorem ext2ReadDiskOnDevice_readGroups (hw : Owns start w) (hok : AllowsInside c)
    (hstop : ∀ e, ¬c.stop e) (hfuel : 2 ^ 32 ≤ fuel) (hroom : Room c w (mountRoom + n))
    (hserved : Served device mbrReservedSize sizeofExt2SuperBlock) :
    ∃ (w' : UserProgram) (localDisk p : ℕ), ext2SuperBlock w'.h.mem p = superBlockOn device ∧
      ∀ e ∈ (w'.readGroups fuel device localDisk p).trace,
        e ∈ (w.ext2ReadDiskOnDevice fuel device).trace := by
  have hgrowth : UserHeap.growth (sizeofExt2Disk : ℤ).toNat ≤ 2 ^ 14 := by decide
  unfold mountRoom at hroom
  have hroom₁ : Room c w (UserHeap.growth (sizeofExt2Disk : ℤ).toNat + (2 ^ 15 + n)) :=
    hroom.mono (by omega) (by omega)
  obtain ⟨⟨_, w₁⟩, hret₁, localDisk, rfl, hev₁, -⟩ :=
    (heapAlloc_meets hw (by decide) (by decide) hfuel hroom₁).returns hstop
  obtain ⟨⟨status, _, w₂⟩, hret₂, hev₂, ⟨rfl, hserved'⟩ | ⟨p, rfl, hload⟩⟩ :=
    (readSuperBlock_meets hev₁.owns hok hfuel hev₁.room).returns hstop
  · exact absurd hserved hserved'
  · refine ⟨w₂, localDisk, p, hload.ext2SuperBlock_eq, fun e he => ?_⟩
    rw [ext2ReadDiskOnDevice]
    exact Traced.mem_bind_right hret₁ (Traced.mem_bind_right hret₂ he)

theorem groupCount_div (count perGroup : ℕ) : .div perGroup ∈ (groupCount count perGroup).trace :=
  Traced.mem_bind_left (List.mem_singleton.mpr rfl)

theorem groupCount_ret {count perGroup : ℕ} (hne : perGroup ≠ 0) :
    (groupCount count perGroup).outcome = .ret (groupsFor count perGroup) := by
  refine Traced.bind_outcome_eq_ret.mpr ⟨⟨⟩, rfl, ?_⟩
  rw [if_neg hne]
  rfl

/-- The divisions by what the superblock says. -/
theorem readGroups_div (fuel : ℕ) (hsb : ext2SuperBlock w.h.mem p = superBlockOn device) (q : ℕ) :
    .div (superBlockOn device).blocksPerGroup ∈ (w.readGroups fuel device q p).trace ∧
      ((superBlockOn device).blocksPerGroup ≠ 0 →
        .div (superBlockOn device).inodesPerGroup ∈ (w.readGroups fuel device q p).trace) := by
  rw [readGroups, hsb]
  refine ⟨Traced.mem_bind_left (groupCount_div _ _), fun hne => ?_⟩
  exact Traced.mem_bind_right (groupCount_ret hne) (Traced.mem_bind_left (groupCount_div _ _))

end UserProgram

end LtMicros
