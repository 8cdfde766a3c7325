import LtMicros.Ext2Mount

/-!
# Reading an inode

Where `Ext2ReadInode` reads from and writes to, and what it delivers, for the disk of any
device: it tolerates the content of the disk, and keeps to its buffer, exactly if the
superblock says nothing that it does not expect.
-/

namespace LtMicros

open Lib

namespace UserProgram

variable {start p n fuel : ℕ} {w w' : UserProgram} {device : AtaDevice}
  {disk : Ext2Disk} {num : ℤ} {m m' : Bytes} {c : Traced.Contract Access}

/-- `groupDec[index].inodeTable` in the group table that has been read. -/
def inodeTableRead (device : AtaDevice) (index : ℕ) : ℕ :=
  Bytes.load32 (delivered device (groupTableOffset device) (groupTableSize device))
    (sizeofExt2GroupDesc * index + 8)

/-- The `offset` of `Ext2ReadInode` for the disk of a device. -/
def inodeOffsetRead (device : AtaDevice) (num : ℤ) : ℕ :=
  let sb := superBlockOn device
  add32 (mul32 (inodeTableRead device (inodeGroupIndex num sb)) (blockSizeOf sb.logBlockSize))
    (mul32 (inodeIndex num sb) sb.inodeSize)

/-- The group of an inode is one that the disk has. -/
def InGroups (device : AtaDevice) (num : ℤ) : Prop :=
  inodeGroupIndex num (superBlockOn device) < groupsOf (superBlockOn device)

theorem inodeOffset_lt (m : Bytes) (disk : Ext2Disk) (num : ℤ) : inodeOffset m disk num < 2 ^ 32 :=
  Nat.mod_lt _ (by decide)

theorem inodeSize_lt (device : AtaDevice) : (superBlockOn device).inodeSize < 2 ^ 16 :=
  Nat.mod_lt _ (by decide)

/-- The offset only depends on the device, when the group is in the group table. -/
theorem Mounted.inodeOffset_eq (h : Mounted start device disk w) (hin : InGroups device num) :
    inodeOffset w.h.mem disk num = inodeOffsetRead device num := by
  have hbounds := h.owns.bounds h.groupDec_live
  have hlimit := UserHeap.vProcessLimitAddr_lt
  have hindex : sizeofExt2GroupDesc * inodeGroupIndex num (superBlockOn device) + 8 + 4 ≤
      groupTableSize device := by
    unfold InGroups at hin
    unfold groupTableSize sizeofExt2GroupDesc
    omega
  have htable : groupInodeTable w.h.mem disk.groupDec (inodeGroupIndex num (superBlockOn device)) =
      inodeTableRead device (inodeGroupIndex num (superBlockOn device)) := by
    rw [groupInodeTable, Nat.mod_eq_of_lt (by omega), Nat.add_assoc]
    exact Bytes.load32_shift h.groupDec hindex
  rw [inodeOffset, h.ext2SuperBlock_eq, htable, h.blockSize]
  rfl

/-- `Ext2ReadInode` looks for an inode at this offset: with what the memory has in place of the
group's element, once there is a buffer. -/
def LooksAt (fuel : ℕ) (w : UserProgram) (disk : Ext2Disk) (num : ℤ) (offset : ℕ) : Prop :=
  ∃ p w', (w.heapAlloc fuel sizeofExt2Inode).outcome = .ret (p, w') ∧
    offset = inodeOffset w'.h.mem disk num

theorem LooksAt.unique {offset offset' : ℕ} (h : LooksAt fuel w disk num offset)
    (h' : LooksAt fuel w disk num offset') : offset = offset' := by
  obtain ⟨p, w₁, hret, rfl⟩ := h
  obtain ⟨q, w₂, hret', rfl⟩ := h'
  rw [hret] at hret'
  cases hret'
  rfl

/-- For the groups of the disk, the offset only depends on the device. -/
theorem LooksAt.offset_eq {offset : ℕ} (h : LooksAt fuel w disk num offset)
    (hm : Mounted start device disk w) (hfuel : 2 ^ 32 ≤ fuel) (hin : InGroups device num) :
    offset = inodeOffsetRead device num := by
  let c : Traced.Contract Access := ⟨fun _ => True, fun _ => True⟩
  obtain ⟨p, w', hret, rfl⟩ := h
  obtain ⟨-, -, hev, -⟩ := (heapAlloc_meets (c := c) (n := 0) hm.owns (by decide) (by decide) hfuel
    (.inl trivial)).ret _ hret
  exact (hm.evolves hev List.not_mem_nil List.not_mem_nil).inodeOffset_eq hin

/-- What byte `i` of the buffer of `Ext2ReadInode` is at the end, if this is not overrun. -/
def inodeByteRead (device : AtaDevice) (num : ℤ) (i : ℕ) : U8 :=
  if i < (superBlockOn device).inodeSize then
    delivered device (inodeOffsetRead device num) (superBlockOn device).inodeSize i
  else 0

/-- The bytes of an inode are read into a buffer of their own. -/
structure InodeRead (fuel : ℕ) (device : AtaDevice) (disk : Ext2Disk) (num : ℤ)
    (w w' : UserProgram) (p : ℕ) : Prop where
  pos : 1 ≤ num
  inodesPerGroup : (superBlockOn device).inodesPerGroup ≠ 0
  served : ∃ offset, LooksAt fuel w disk num offset ∧
    Served device offset (superBlockOn device).inodeSize
  live : (p, sizeofExt2Inode) ∈ w'.live
  fresh : ∀ a ∈ w.live, a.1 ≠ p
  bytes : InGroups device num → ∀ i < sizeofExt2Inode, w'.h.mem (p + i) = inodeByteRead device num i

/-- The memory that reading an inode takes at most. -/
abbrev inodeRoom : ℕ := 2 ^ 22

/-- `Ext2ReadInode` keeps to its buffer if the inodes of the disk are not larger than this, or
cannot be read. -/
theorem ext2ReadInode_meets (hm : Mounted start device disk w) (hok : AllowsInside c)
    (hfuel : 2 ^ 32 ≤ fuel) (hroom : Room c w (inodeRoom + n))
    (hdiv : 1 ≤ num → c.ok (.div (superBlockOn device).inodesPerGroup))
    (hzero : 1 ≤ num → (superBlockOn device).inodesPerGroup = 0 → c.stop (.div 0))
    (hgroup : 1 ≤ num → (superBlockOn device).inodesPerGroup ≠ 0 →
      c.ok (.group (inodeGroupIndex num (superBlockOn device))))
    (hsize : 1 ≤ num → (superBlockOn device).inodesPerGroup ≠ 0 →
      (superBlockOn device).inodeSize ≤ sizeofExt2Inode ∨ ∀ offset,
        LooksAt fuel w disk num offset → ¬Served device offset (superBlockOn device).inodeSize) :
    Traced.Meets c (w.ext2ReadInode fuel disk num) fun r => Evolves c start n [] w r.2.2 ∧
      ((r.1 ≠ .statusSuccess ∧ (1 ≤ num → ∃ offset, LooksAt fuel w disk num offset ∧
          ¬Served device offset (superBlockOn device).inodeSize)) ∨
        (r.1 = .statusSuccess ∧ ∃ p, r.2.1 = some p ∧
          InodeRead fuel device disk num w r.2.2 p)) := by
  have hgrowth : UserHeap.growth (sizeofExt2Inode : ℤ).toNat ≤ 2 ^ 14 := by decide
  have hinode := inodeSize_lt device
  have hgrowth' : UserHeap.growth ((superBlockOn device).inodeSize + 1023) ≤ 2 ^ 21 + 2 ^ 14 :=
    growth_le (by omega)
  unfold inodeRoom at hroom
  rw [ext2ReadInode]
  by_cases hnum : num < 1
  · rw [if_pos hnum]
    exact Traced.Meets.pure ⟨.refl hm.owns (hroom.mono (by omega) (by omega)) _,
      .inl ⟨nofun, fun h => absurd h (by omega)⟩⟩
  · rw [if_neg hnum]
    have hnum : 1 ≤ num := by omega
    refine (heapAlloc_meets hm.owns (by decide) (by decide) hfuel
      (n := UserHeap.growth ((superBlockOn device).inodeSize + 1023) + n)
      (hroom.mono (by omega) (by omega))).outcome.bind ?_
    rintro ⟨_, w₁⟩ ⟨⟨p, rfl, hev₁, hmem, hfresh, hclear⟩, hret⟩
    dsimp only [Option.getD_some] at hev₁ hmem hfresh hclear ⊢
    have hm₁ := hm.evolves hev₁ List.not_mem_nil List.not_mem_nil
    have hlook : LooksAt fuel w disk num (inodeOffset w₁.h.mem disk num) := ⟨_, _, hret, rfl⟩
    rw [hm₁.ext2SuperBlock_eq, hm.onDevice]
    by_cases hipg : (superBlockOn device).inodesPerGroup = 0
    · simp only [if_pos hipg]
      exact Traced.Meets.note_fault (hdiv hnum) (hipg ▸ hzero hnum hipg)
    · simp only [if_neg hipg]
      have hserved : Served device (inodeOffset w₁.h.mem disk num)
          (superBlockOn device).inodeSize → (superBlockOn device).inodeSize ≤ sizeofExt2Inode := by
        intro hserved
        exact (hsize hnum hipg).resolve_right fun hnot => hnot _ hlook hserved
      refine (Traced.Meets.note (hdiv hnum) (Q := fun _ => True) trivial).bind fun _ _ => ?_
      refine (Traced.Meets.note (hgroup hnum hipg) (Q := fun _ => True) trivial).bind fun _ _ => ?_
      refine (ataRead_meets hev₁.owns hmem hserved (by omega) (inodeOffset_lt _ _ _) hok hfuel
        hev₁.room).bind ?_
      rintro ⟨ret, w₂⟩ ⟨hev₂, hmem₂, ⟨rfl, hfails⟩ | ⟨hret, hread, hfilled⟩⟩
      · dsimp only at hev₂ hmem₂ ⊢
        rw [if_pos (by decide)]
        refine (heapFree_meets hev₂.owns hmem₂ hev₂.room).bind fun w₃ hev₃ => ?_
        refine Traced.Meets.pure ⟨?_, .inl ⟨nofun, fun _ => ⟨_, hlook, hfails⟩⟩⟩
        exact ((hev₁.trans hev₂).trans hev₃).weaken (by simpa using hfresh)
      · dsimp only at hev₂ hmem₂ hret hfilled ⊢
        rw [if_neg (by omega)]
        refine Traced.Meets.pure ⟨(hev₁.trans hev₂).weaken (by simpa using hfresh), .inr ⟨rfl, p,
          rfl, hnum, hipg, ⟨_, hlook, hread⟩, hmem₂, hfresh, fun hin i hi => ?_⟩⟩
        have h := hfilled i hi
        rw [Filled, hm₁.inodeOffset_eq hin] at h
        dsimp only
        rw [h, inodeByteRead]
        by_cases hlt : i < (superBlockOn device).inodeSize
        · rw [if_pos ⟨hlt, sectors_small (by omega)⟩, if_pos hlt]
        · rw [if_neg fun h => hlt h.1, if_neg hlt]
          exact hclear i hi

/-! ## Any content of the disk -/

/-- No division by zero, and no element behind the end of the group table. -/
def tolerant (groups : ℕ) : Traced.Contract Access where
  ok
    | .div divisor => divisor ≠ 0
    | .group index => index < groups
    | _ => True
  stop
    | .exhausted => True
    | _ => False

/-- `Ext2ReadDiskOnDevice`, and `Ext2ReadInode` on the disk that it gives, at any later time, come
back without a division by zero or a wrong group, as long as there is memory. -/
def Tolerates (fuel start : ℕ) (w : UserProgram) (device : AtaDevice) (num : ℤ) : Prop :=
  Traced.Meets (tolerant 0) (w.ext2ReadDiskOnDevice fuel device) fun r =>
    ∀ disk, r.2.1 = some disk → ∀ w', Evolves (tolerant 0) start 0 [] r.2.2 w' →
      Traced.Meets (tolerant disk.groups) (w'.ext2ReadInode fuel disk num) fun _ => True

/-- The divisors and the group of an inode that a device gives are good ones. -/
structure Divides (device : AtaDevice) (num : ℤ) : Prop where
  blocksPerGroup : (superBlockOn device).blocksPerGroup ≠ 0
  inodesPerGroup : (superBlockOn device).inodesPerGroup ≠ 0
  group : Mountable device → 1 ≤ num → InGroups device num

/-- The use of an element of the group table. -/
theorem ext2ReadInode_group (hm : Mounted start device disk w) (hstop : ∀ e, ¬c.stop e)
    (hfuel : 2 ^ 32 ≤ fuel) (hroom : Room c w (2 ^ 14 + n)) (hnum : 1 ≤ num)
    (hipg : (superBlockOn device).inodesPerGroup ≠ 0) :
    .group (inodeGroupIndex num (superBlockOn device)) ∈ (w.ext2ReadInode fuel disk num).trace := by
  have hgrowth : UserHeap.growth (sizeofExt2Inode : ℤ).toNat ≤ 2 ^ 14 := by decide
  have hroom₁ : Room c w (UserHeap.growth (sizeofExt2Inode : ℤ).toNat + n) :=
    hroom.mono (by omega) (by omega)
  obtain ⟨⟨_, w₁⟩, hret, p, rfl, hev₁, -⟩ :=
    (heapAlloc_meets hm.owns (by decide) (by decide) hfuel hroom₁).returns hstop
  have hm₁ := hm.evolves hev₁ List.not_mem_nil List.not_mem_nil
  rw [ext2ReadInode, if_neg (by omega)]
  refine Traced.mem_bind_right hret ?_
  dsimp only at hm₁ ⊢
  rw [hm₁.ext2SuperBlock_eq, if_neg hipg]
  exact Traced.mem_bind_right rfl (Traced.mem_bind_left (List.mem_singleton.mpr rfl))

/-- With good divisors and groups, the content of a disk is tolerated if its inodes are not larger
than their buffer, or cannot be read. -/
theorem Divides.tolerates (hw : Owns start w) (hfuel : 2 ^ 32 ≤ fuel)
    (hdivides : Served device mbrReservedSize sizeofExt2SuperBlock → Divides device num)
    (hsize : Mountable device → 1 ≤ num → (superBlockOn device).inodeSize ≤ sizeofExt2Inode ∨
      ¬Served device (inodeOffsetRead device num) (superBlockOn device).inodeSize) :
    Tolerates fuel start w device num := by
  refine (ext2ReadDiskOnDevice_meets (n := 0) hw (fun _ _ _ _ => trivial) (fun _ h => h) hfuel
    (.inl trivial) fun h => ⟨(hdivides h).blocksPerGroup, (hdivides h).inodesPerGroup⟩).mono ?_
  rintro ⟨status, _, w₁⟩ ⟨-, ⟨rfl, -⟩ | ⟨disk, rfl, hmount, hm⟩⟩
  · nofun
  · intro disk' heq w₂ hev
    cases heq
    have hm₂ := hm.evolves hev List.not_mem_nil List.not_mem_nil
    have hgood := hdivides hmount.superBlock
    refine (ext2ReadInode_meets (n := 0) hm₂ (fun _ _ _ _ => trivial) hfuel (.inl trivial)
      (fun _ => hgood.inodesPerGroup) (fun _ h => absurd h hgood.inodesPerGroup)
      (fun hnum _ => ?_) fun hnum _ => ?_).mono fun _ _ => trivial
    · rw [hm₂.groups]
      exact hgood.group hmount hnum
    · refine (hsize hmount hnum).imp_right fun hnot offset hlook => ?_
      rwa [hlook.offset_eq hm₂ hfuel (hgood.group hmount hnum)]

/-- With enough memory, the content of a disk is only tolerated with good divisors and groups. -/
theorem Tolerates.divides (htol : Tolerates fuel start w device num) (hw : Owns start w)
    (hfuel : 2 ^ 32 ≤ fuel) (hroom : w.h.brk + 2 ^ 24 ≤ vProcessLimitAddr.toNat)
    (hserved : Served device mbrReservedSize sizeofExt2SuperBlock) : Divides device num := by
  let c : Traced.Contract Access := ⟨fun _ => True, fun _ => False⟩
  have hroom' : Room c w (mountRoom + 2 ^ 14) := .inr ⟨by decide, by unfold mountRoom; omega⟩
  have hinside : AllowsInside c := fun _ _ _ _ => trivial
  have hdiv (d : ℕ) (h : .div d ∈ (w.ext2ReadDiskOnDevice fuel device).trace) : d ≠ 0 :=
    (htol.ok (.div d) h).resolve_right id
  obtain ⟨w', localDisk, p, hsb, htrace⟩ := ext2ReadDiskOnDevice_readGroups hw hinside
    (fun _ => id) hfuel hroom' hserved
  obtain ⟨hbpg, hipg⟩ := readGroups_div fuel hsb localDisk
  have hbpg := hdiv _ (htrace _ hbpg)
  have hipg := hdiv _ (htrace _ (hipg hbpg))
  refine ⟨hbpg, hipg, fun hmount hnum => ?_⟩
  obtain ⟨⟨status, _, w₁⟩, hret, hev, ⟨-, hnot⟩ | ⟨disk, rfl, -, hm⟩⟩ :=
    (ext2ReadDiskOnDevice_meets hw hinside (fun _ _ => trivial) hfuel hroom'
      fun _ => ⟨hbpg, hipg⟩).returns fun _ => id
  · exact absurd hmount hnot
  · have hlookup := htol.ret _ hret disk rfl w₁ (.refl hm.owns (.inl trivial) _)
    have hgroup := hlookup.ok _ (ext2ReadInode_group (n := 0) hm (fun _ => id) hfuel hev.room
      hnum hipg)
    have hlt : inodeGroupIndex num (superBlockOn device) < disk.groups := hgroup.resolve_right id
    rwa [hm.groups] at hlt

/-- The content of a disk is tolerated with good divisors and groups, and inodes that are not
larger than their buffer or cannot be read. With bad divisors or groups it is not. -/
theorem ext2_tolerates (hw : Owns start w) (hfuel : 2 ^ 32 ≤ fuel) (device : AtaDevice)
    (num : ℤ) :
    ((Served device mbrReservedSize sizeofExt2SuperBlock → Divides device num) ∧
        (Mountable device → 1 ≤ num → (superBlockOn device).inodeSize ≤ sizeofExt2Inode ∨
          ¬Served device (inodeOffsetRead device num) (superBlockOn device).inodeSize) →
      Tolerates fuel start w device num) ∧
    (w.h.brk + 2 ^ 24 ≤ vProcessLimitAddr.toNat → Tolerates fuel start w device num →
      Served device mbrReservedSize sizeofExt2SuperBlock → Divides device num) :=
  ⟨fun hgood => Divides.tolerates hw hfuel hgood.1 hgood.2,
    fun hroom htol => htol.divides hw hfuel hroom⟩

/-- A disk of one group of 16 inodes. -/
def smallDisk (inodeSize : ℕ) : ℕ → U8
  | 1024 => 16
  | 1028 => 64
  | 1057 => 0x20
  | 1064 => 16
  | 1112 => BitVec.ofNat 8 inodeSize
  | 1113 => BitVec.ofNat 8 (inodeSize / 2 ^ 8)
  | 2056 => 5
  | _ => 0

/-- The content of a small disk is tolerated. -/
theorem smallDisk_tolerates :
    Tolerates (2 ^ 32) 0x40002000 newProgram (.ofBytes (smallDisk 128)) 1 := by
  refine (ext2_tolerates newProgram_owns le_rfl _ _).1 ⟨fun _ => ⟨?_, ?_, fun _ _ => ?_⟩,
    fun _ _ => .inl ?_⟩
  · decide
  · decide
  · unfold InGroups
    decide
  · decide

/-- A mountable device with good divisors is mounted by a new program. -/
theorem newProgram_mounts (hmount : Mountable device)
    (hbpg : (superBlockOn device).blocksPerGroup ≠ 0)
    (hipg : (superBlockOn device).inodesPerGroup ≠ 0) :
    ∃ status disk w, (newProgram.ext2ReadDiskOnDevice (2 ^ 32) device).outcome =
        .ret (status, some disk, w) ∧ Mounted 0x40002000 device disk w ∧
      w.h.brk + 2 ^ 23 ≤ vProcessLimitAddr.toNat := by
  let c : Traced.Contract Access := ⟨fun _ => True, fun _ => False⟩
  have hroom : Room c newProgram (mountRoom + 2 ^ 23) := .inr ⟨by decide, by decide⟩
  obtain ⟨⟨status, _, w⟩, hret, hev, ⟨-, hnot⟩ | ⟨disk, rfl, -, hm⟩⟩ :=
    (ext2ReadDiskOnDevice_meets newProgram_owns (fun _ _ _ _ => trivial) (fun _ _ => trivial)
      le_rfl hroom fun _ => ⟨hbpg, hipg⟩).returns fun _ => id
  · exact absurd hmount hnot
  · exact ⟨status, disk, w, hret, hm, (hev.room.resolve_left id).2⟩

/-- A disk of zeros is not: `blocksPerGroup` is a divisor. -/
theorem zeros_not_tolerated :
    ¬Tolerates (2 ^ 32) 0x40002000 newProgram (.ofBytes fun _ => 0) 1 := by
  intro htol
  have hdivides := htol.divides newProgram_owns le_rfl (by decide) (served_ofBytes _ _ _)
  exact hdivides.blocksPerGroup (by decide)

/-! ## The buffer of an inode -/

/-- Where an inode is, as the format says. -/
def inodePlace (device : AtaDevice) (num : ℤ) : ℕ :=
  let sb := superBlockOn device
  let blockSize := 1024 * 2 ^ sb.logBlockSize
  let table := Bytes.load32 (fun x => device.byteAt (groupDescOffset blockSize + x))
    (sizeofExt2GroupDesc * inodeGroupIndex num sb + 8)
  table * blockSize + inodeIndex num sb * sb.inodeSize

/-- Writes inside the buffers. There may be a division by zero. -/
def inside : Traced.Contract Access where
  ok
    | .write live dst size => Inside live dst size
    | _ => True
  stop
    | .exhausted => True
    | .div divisor => divisor = 0
    | _ => False

/-- `Ext2ReadInode` writes inside its buffers, keeps all others, and delivers the first bytes of
the inode, if the disk has its group. -/
def ReadsInode (fuel start : ℕ) (w : UserProgram) (device : AtaDevice) (disk : Ext2Disk)
    (num : ℤ) : Prop :=
  Traced.Meets inside (w.ext2ReadInode fuel disk num) fun r => Evolves inside start 0 [] w r.2.2 ∧
    (r.1 = .statusSuccess → ∃ p, r.2.1 = some p ∧ (InGroups device num →
      ∀ i < sizeofExt2Inode, r.2.2.h.mem (p + i) = device.byteAt (inodePlace device num + i)))

/-- The inode cannot be looked up or read, or is not larger than its buffer, with the bytes where
they are looked for. Behind the groups of the disk, what the memory has there is looked at. -/
def FitsInode (fuel : ℕ) (w : UserProgram) (device : AtaDevice) (disk : Ext2Disk) (num : ℤ) :
    Prop :=
  num < 1 ∨ (superBlockOn device).inodesPerGroup = 0 ∨
    (InGroups device num ∧
      ¬Served device (inodeOffsetRead device num) (superBlockOn device).inodeSize) ∨
    (¬InGroups device num ∧ ∀ offset, LooksAt fuel w disk num offset →
      ¬Served device offset (superBlockOn device).inodeSize) ∨
    ((superBlockOn device).inodeSize ≤ sizeofExt2Inode ∧ (InGroups device num →
      ∀ i < sizeofExt2Inode, inodeByteRead device num i =
        device.byteAt (inodePlace device num + i)))

/-- Below 4 GiB the bytes of an inode are looked for where they are. -/
theorem inodeByteRead_eq (hlog : (superBlockOn device).logBlockSize < 22)
    (htable : groupTableOffset device + groupTableSize device < 2 ^ 32)
    (hplace : inodePlace device num + sizeofExt2Inode < 2 ^ 32)
    (hsize : (superBlockOn device).inodeSize = sizeofExt2Inode) {i : ℕ}
    (hi : i < sizeofExt2Inode) :
    inodeByteRead device num i = device.byteAt (inodePlace device num + i) := by
  have hblock : blockSizeOf (superBlockOn device).logBlockSize =
      1024 * 2 ^ (superBlockOn device).logBlockSize := by
    have hpow : 2 ^ (superBlockOn device).logBlockSize < 2 ^ 22 :=
      Nat.pow_lt_pow_right (by decide) hlog
    rw [blockSizeOf, Nat.mod_eq_of_lt (by omega : _ < 32), Nat.mod_eq_of_lt (by omega)]
  have hdelivered : delivered device (groupTableOffset device) (groupTableSize device) =
      fun x => device.byteAt (groupDescOffset (1024 * 2 ^ (superBlockOn device).logBlockSize) + x) := by
    funext x
    rw [delivered, if_pos htable, groupTableOffset, hblock]
  have hoffset : inodeOffsetRead device num = inodePlace device num := by
    rw [inodePlace, hsize] at hplace ⊢
    rw [inodeOffsetRead, inodeTableRead, hdelivered, hblock, hsize]
    unfold add32 mul32
    rw [Nat.mod_eq_of_lt (by omega : _ * (1024 * _) < 2 ^ 32),
      Nat.mod_eq_of_lt (by omega : _ * sizeofExt2Inode < 2 ^ 32), Nat.mod_eq_of_lt (by omega)]
  rw [inodeByteRead, hsize, if_pos hi, hoffset, delivered, if_pos hplace]

theorem FitsInode.readsInode (h : FitsInode fuel w device disk num)
    (hm : Mounted start device disk w) (hfuel : 2 ^ 32 ≤ fuel) :
    ReadsInode fuel start w device disk num := by
  refine (ext2ReadInode_meets (n := 0) hm (fun _ _ _ h => h) hfuel (.inl trivial)
    (fun _ => trivial) (fun _ _ => rfl) (fun _ _ => trivial) fun hnum hipg => ?_).mono ?_
  · rcases h with h | h | ⟨hin, hnot⟩ | ⟨-, hnot⟩ | h
    · exact absurd hnum (by omega)
    · exact absurd h hipg
    · exact .inr fun offset hlook => hlook.offset_eq hm hfuel hin ▸ hnot
    · exact .inr hnot
    · exact .inl h.1
  · rintro ⟨status, inode, w'⟩ ⟨hev, ⟨hstatus, -⟩ | ⟨-, p, rfl, hread⟩⟩
    · exact ⟨hev, fun h => absurd h hstatus⟩
    · refine ⟨hev, fun _ => ⟨p, rfl, fun hin i hi => (hread.bytes hin i hi).trans ?_⟩⟩
      obtain ⟨offset, hlook, hserved⟩ := hread.served
      rcases h with h | h | ⟨-, hnot⟩ | ⟨hout, -⟩ | h
      · exact absurd hread.pos (by omega)
      · exact absurd h hread.inodesPerGroup
      · exact absurd (hlook.offset_eq hm hfuel hin ▸ hserved) hnot
      · exact absurd hin hout
      · exact h.2 hin i hi

/-- An inode that can be read is written to its buffer with its size on the disk. -/
theorem ext2ReadInode_write (hm : Mounted start device disk w) (hok : AllowsInside c)
    (hstop : ∀ e, ¬c.stop e) (hfuel : 2 ^ 32 ≤ fuel) (hroom : Room c w (inodeRoom + n))
    (hnum : 1 ≤ num) (hipg : (superBlockOn device).inodesPerGroup ≠ 0) {offset : ℕ}
    (hlook : LooksAt fuel w disk num offset)
    (hserved : Served device offset (superBlockOn device).inodeSize) :
    ∃ w' p, Owns start w' ∧ (p, sizeofExt2Inode) ∈ w'.live ∧
      .write w'.live p (superBlockOn device).inodeSize ∈
        (w.ext2ReadInode fuel disk num).trace := by
  have hgrowth : UserHeap.growth (sizeofExt2Inode : ℤ).toNat ≤ 2 ^ 14 := by decide
  have hinode := inodeSize_lt device
  have hgrowth' : UserHeap.growth ((superBlockOn device).inodeSize + 1023) ≤ 2 ^ 21 + 2 ^ 14 :=
    growth_le (by omega)
  unfold inodeRoom at hroom
  have hroom₁ : Room c w (UserHeap.growth (sizeofExt2Inode : ℤ).toNat +
      (UserHeap.growth ((superBlockOn device).inodeSize + 1023) + n)) :=
    hroom.mono (by omega) (by omega)
  obtain ⟨⟨_, w₁⟩, hret, p, rfl, hev₁, hmem, -⟩ :=
    (heapAlloc_meets hm.owns (by decide) (by decide) hfuel hroom₁).returns hstop
  have hm₁ := hm.evolves hev₁ List.not_mem_nil List.not_mem_nil
  dsimp only at hev₁ hmem hm₁
  obtain rfl := hlook.unique ⟨_, _, hret, rfl⟩
  obtain ⟨w₂, hw₂, hmem₂, hwrite⟩ := ataRead_write hev₁.owns hmem (by omega)
    (inodeOffset_lt _ _ _) (sectors_small (by omega)) hok hstop hfuel hev₁.room hserved
  refine ⟨w₂, p, hw₂, hmem₂, ?_⟩
  rw [ext2ReadInode, if_neg (by omega)]
  refine Traced.mem_bind_right hret ?_
  dsimp only [Option.getD_some]
  rw [hm₁.ext2SuperBlock_eq, hm₁.onDevice, if_neg hipg]
  exact Traced.mem_bind_right rfl (Traced.mem_bind_right rfl (Traced.mem_bind_left hwrite))

/-- With enough memory, only inodes of the buffer's size keep to it. -/
theorem ReadsInode.fitsInode (h : ReadsInode fuel start w device disk num)
    (hm : Mounted start device disk w) (hfuel : 2 ^ 32 ≤ fuel)
    (hroom : w.h.brk + 2 ^ 23 ≤ vProcessLimitAddr.toNat) :
    FitsInode fuel w device disk num := by
  let c : Traced.Contract Access := ⟨fun _ => True, fun _ => False⟩
  have hroom' : Room c w (inodeRoom + 0) := .inr ⟨by decide, by unfold inodeRoom; omega⟩
  have hinside : AllowsInside c := fun _ _ _ _ => trivial
  by_contra hfits
  simp only [FitsInode, not_or] at hfits
  obtain ⟨hnum, hipg, hread, hbehind, hfits⟩ := hfits
  have hnum : 1 ≤ num := by omega
  obtain ⟨offset, hlook⟩ : ∃ offset, LooksAt fuel w disk num offset := by
    have hgrowth : UserHeap.growth (sizeofExt2Inode : ℤ).toNat ≤ 2 ^ 14 := by decide
    have hroom₁ : Room c w (UserHeap.growth (sizeofExt2Inode : ℤ).toNat + 0) :=
      hroom'.mono (by unfold inodeRoom; omega) (by unfold inodeRoom; omega)
    obtain ⟨⟨p, w₁⟩, hret, -⟩ :=
      (heapAlloc_meets hm.owns (by decide) (by decide) hfuel hroom₁).returns fun _ => id
    exact ⟨_, p, w₁, hret, rfl⟩
  have hserved : Served device offset (superBlockOn device).inodeSize := by
    by_contra hnot
    by_cases hin : InGroups device num
    · exact hread ⟨hin, hlook.offset_eq hm hfuel hin ▸ hnot⟩
    · exact hbehind ⟨hin, fun offset' hlook' => hlook.unique hlook' ▸ hnot⟩
  obtain ⟨w₁, p, hw₁, hmem, hwrite⟩ :=
    ext2ReadInode_write hm hinside (fun _ => id) hfuel hroom' hnum hipg hlook hserved
  have hle : (superBlockOn device).inodeSize ≤ sizeofExt2Inode :=
    hw₁.inside_le hmem ((h.ok _ hwrite).resolve_right id)
  obtain ⟨⟨status, _, w₂⟩, hret, -, ⟨-, hnot⟩ | ⟨rfl, q, rfl, hbytes⟩⟩ :=
    (ext2ReadInode_meets hm hinside hfuel hroom' (fun _ => trivial) (fun _ h => absurd h hipg)
      (fun _ _ => trivial) fun _ _ => .inl hle).returns fun _ => id
  · obtain ⟨offset', hlook', hnot⟩ := hnot hnum
    exact hnot (hlook.unique hlook' ▸ hserved)
  · obtain ⟨-, hdelivers⟩ := h.ret _ hret
    obtain ⟨q', heq, hplace⟩ := hdelivers rfl
    cases heq
    exact hfits ⟨hle, fun hin i hi => (hbytes.bytes hin i hi).symm.trans (hplace hin i hi)⟩

/-- `Ext2ReadInode` keeps to its buffer and delivers the inode if this fits into it, and with
enough memory exactly then. -/
theorem ext2ReadInode_reads (hm : Mounted start device disk w) (hfuel : 2 ^ 32 ≤ fuel) (num : ℤ) :
    (FitsInode fuel w device disk num → ReadsInode fuel start w device disk num) ∧
    (w.h.brk + 2 ^ 23 ≤ vProcessLimitAddr.toNat →
      ReadsInode fuel start w device disk num → FitsInode fuel w device disk num) :=
  ⟨fun h => h.readsInode hm hfuel, fun hroom h => h.fitsInode hm hfuel hroom⟩

theorem smallDisk_mounts (inodeSize : ℕ) :
    ∃ status disk w, (newProgram.ext2ReadDiskOnDevice (2 ^ 32)
        (.ofBytes (smallDisk inodeSize))).outcome = .ret (status, some disk, w) ∧
      Mounted 0x40002000 (.ofBytes (smallDisk inodeSize)) disk w ∧
      w.h.brk + 2 ^ 23 ≤ vProcessLimitAddr.toNat := by
  have hbpg : (superBlockOn (.ofBytes (smallDisk inodeSize))).blocksPerGroup = 2 ^ 13 := by
    simp [superBlockOn, ext2SuperBlock, Bytes.load32, smallDisk]
  have hipg : (superBlockOn (.ofBytes (smallDisk inodeSize))).inodesPerGroup = 16 := by
    simp [superBlockOn, ext2SuperBlock, Bytes.load32, smallDisk]
  have hblocks : (superBlockOn (.ofBytes (smallDisk inodeSize))).blocksCount = 64 := by
    simp [superBlockOn, ext2SuperBlock, Bytes.load32, smallDisk]
  have hinodes : (superBlockOn (.ofBytes (smallDisk inodeSize))).inodesCount = 16 := by
    simp [superBlockOn, ext2SuperBlock, Bytes.load32, smallDisk]
  have hgroups : groupsOf (superBlockOn (.ofBytes (smallDisk inodeSize))) = 1 := by
    rw [groupsOf, hblocks, hinodes, hbpg, hipg]
    rfl
  exact newProgram_mounts ⟨served_ofBytes _ _ _, by rw [hgroups]; decide, served_ofBytes _ _ _⟩
    (by rw [hbpg]; decide) (by rw [hipg]; decide)

/-- The inodes of a small disk are read when they have 128 bytes. -/
theorem smallDisk_reads : ∃ status disk w, (newProgram.ext2ReadDiskOnDevice (2 ^ 32)
      (.ofBytes (smallDisk 128))).outcome = .ret (status, some disk, w) ∧
    ReadsInode (2 ^ 32) 0x40002000 w (.ofBytes (smallDisk 128)) disk 1 := by
  obtain ⟨status, disk, w, hret, hm, -⟩ := smallDisk_mounts 128
  refine ⟨status, disk, w, hret,
    (ext2ReadInode_reads hm le_rfl 1).1 (.inr (.inr (.inr (.inr ⟨?_, ?_⟩))))⟩
  · decide
  · exact fun _ i hi => inodeByteRead_eq (by decide) (by decide) (by decide) (by decide) hi

/-- They overrun their buffer when they have 256. -/
theorem smallDisk_not_reads : ∃ status disk w, (newProgram.ext2ReadDiskOnDevice (2 ^ 32)
      (.ofBytes (smallDisk 256))).outcome = .ret (status, some disk, w) ∧
    ¬ReadsInode (2 ^ 32) 0x40002000 w (.ofBytes (smallDisk 256)) disk 1 := by
  obtain ⟨status, disk, w, hret, hm, hroom⟩ := smallDisk_mounts 256
  refine ⟨status, disk, w, hret, fun hreads => ?_⟩
  have hin : InGroups (.ofBytes (smallDisk 256)) 1 := by
    unfold InGroups
    decide
  rcases hreads.fitsInode hm le_rfl hroom with h | h | h | h | h
  · exact absurd h (by decide)
  · exact absurd h (by decide)
  · exact h.2 (served_ofBytes _ _ _)
  · exact h.1 hin
  · exact absurd h.1 (by decide)

end UserProgram

end LtMicros
