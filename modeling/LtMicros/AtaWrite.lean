import LtMicros.AtaExact

/-!
# Writing to an ATA disk

`AtaWrite` counts the whole sectors of a range, and a sector for a range without any. From one
sector to the next it goes on by 512 elements of a buffer of words, which is twice a sector.
-/

namespace LtMicros

open Lib

/-- The bytes that `AtaWriteSectorPio` sends: the words of `buf` as far as there are any, then
zeros. The lower byte of a word comes first. -/
def sectorSent (m : Bytes) (buf size x : ℕ) : U8 :=
  let limit := if ataBlockSize ≤ size then 256 else size / 2
  if x / 2 < limit then m (add32 buf x) else 0

/-- `AtaWriteSectorPio`. The controller gets the low 28 bits of the number, and does nothing for
a sector that is not there. -/
def AtaDevice.ataWriteSectorPio (device : AtaDevice) (m : Bytes) (buf lba size : ℕ) : AtaDevice where
  sector l :=
    if l = lba % 2 ^ 28 then (device.sector l).map fun _ => sectorSent m buf size
    else device.sector l

/-- One turn of the loop of `AtaWrite`: the state is `i`, `buffer`, `size` and the disk. -/
def ataWriteTurn (m : Bytes) (count block : ℕ) : ℕ × ℕ × ℕ × AtaDevice →
    Outcome (ℕ × ℕ × ℕ × AtaDevice ⊕ AtaDevice)
  | (i, buffer, size, device) =>
    if i < count ∧ 0 < size then
      let device := device.ataWriteSectorPio m buffer (add32 block i) size
      if ataBlockSize ≤ size then
        -- `buffer` points to words of two bytes
        .ret (.inl (i + 1, add32 buffer (2 * ataBlockSize), size - ataBlockSize, device))
      else .ret (.inl (i + 1, add32 buffer (2 * size), 0, device))
    else .ret (.inr device)

/-- `AtaWrite`. -/
def ataWrite (fuel : ℕ) (device : AtaDevice) (m : Bytes) (buf offset size : ℕ) :
    Outcome (ℤ × AtaDevice) :=
  let count := if ataBlockSize < size then size / ataBlockSize else 1
  let block := offset / ataBlockSize
  if offset % ataBlockSize ≠ 0 then .ret (-1, device)
  else do
    let device ← Outcome.loop (ataWriteTurn m count block) fuel (0, buf, size, device)
    return ((count : ℤ), device)

/-- The range of the disk holds the buffer, and the sectors that the range does not meet are as
they were. -/
structure WritesRange (device device' : AtaDevice) (m : Bytes) (buf offset size : ℕ) : Prop where
  bytes : ∀ k < size, device'.byteAt (offset + k) = m (buf + k)
  others : ∀ lba, ataBlockSize * lba + ataBlockSize ≤ offset ∨ offset + size ≤ ataBlockSize * lba →
    device'.sector lba = device.sector lba

/-- `AtaWrite` returns, and has written the range. -/
def AtaWrites (fuel : ℕ) (device : AtaDevice) (m : Bytes) (buf offset size : ℕ) : Prop :=
  ∃ count device', ataWrite fuel device m buf offset size = .ret (count, device') ∧
    WritesRange device device' m buf offset size

/-- The byte that a range of more than a sector holds in place of byte `k`: one from further on
in the buffer, or the old one behind the last whole sector. -/
def heldInstead (device : AtaDevice) (m : Bytes) (buf offset size k : ℕ) : U8 :=
  if k < size / ataBlockSize * ataBlockSize then m (add32 buf (k + k / ataBlockSize * ataBlockSize))
  else device.byteAt (offset + k)

/-- The range is no longer than a sector, or the bytes that arrive are those of the buffer. -/
def WritesRight (device : AtaDevice) (m : Bytes) (buf offset size : ℕ) : Prop :=
  size ≤ ataBlockSize ∨ ∀ k < size, heldInstead device m buf offset size k = m (buf + k)

/-- The disk after `n` sectors. -/
def AtaDevice.written (device : AtaDevice) (m : Bytes) (buf block size n : ℕ) : AtaDevice where
  sector lba :=
    if block ≤ lba ∧ lba < block + n then
      (device.sector lba).map fun _ =>
        sectorSent m (add32 buf (2 * ataBlockSize * (lba - block))) (size - ataBlockSize * (lba - block))
    else device.sector lba

variable {fuel N buf offset size block count i k : ℕ} {m : Bytes} {device : AtaDevice}

theorem add32_add32 (a b c : ℕ) : add32 (add32 a b) c = add32 a (b + c) := by
  unfold add32
  omega

theorem AtaDevice.written_zero : device.written m buf block size 0 = device := by
  rw [written, AtaDevice.mk.injEq]
  funext lba
  exact if_neg (by omega)

/-- One sector more. -/
theorem AtaDevice.written_succ (hblock : block + i < 2 ^ 28) :
    (device.written m buf block size i).ataWriteSectorPio m (add32 buf (2 * ataBlockSize * i))
      (add32 block i) (size - ataBlockSize * i) = device.written m buf block size (i + 1) := by
  have hlba : add32 block i % 2 ^ 28 = block + i := by
    unfold add32
    omega
  rw [ataWriteSectorPio, written, written, AtaDevice.mk.injEq]
  funext lba
  rw [hlba]
  by_cases hnew : lba = block + i
  · subst hnew
    simp
  · rw [if_neg hnew]
    apply if_congr _ rfl rfl
    omega

/-- The loop of `AtaWrite` writes one sector in each turn. -/
theorem ataWriteLoop_eq (hblock : block + count ≤ 2 ^ 28) (hpos : 0 < size) (hbuf : buf < 2 ^ 32)
    (hcount : count = if ataBlockSize < size then size / ataBlockSize else 1) (hfuel : count < fuel) :
    Outcome.loop (ataWriteTurn m count block) fuel (0, buf, size, device) =
      .ret (device.written m buf block size count) := by
  have hsize (i : ℕ) (hi : i < count) : 0 < size - ataBlockSize * i := by
    split at hcount
    · unfold ataBlockSize at *
      omega
    · obtain rfl : i = 0 := by omega
      simpa using hpos
  have hloop : ∃ r, Outcome.loop (ataWriteTurn m count block) fuel (0, buf, size, device) = .ret r ∧
      r = device.written m buf block size count := by
    apply Outcome.loop_terminates
      (I := fun s : ℕ × ℕ × ℕ × AtaDevice => s.1 ≤ count ∧
        s.2.2.2 = device.written m buf block size s.1 ∧ (s.1 < count →
          s.2.1 = add32 buf (2 * ataBlockSize * s.1) ∧ s.2.2.1 = size - ataBlockSize * s.1))
      fun s => count - s.1
    · rintro ⟨i, buffer, left, d⟩ ⟨hi, hd, hstate⟩
      dsimp only at hi hd hstate
      subst hd
      rw [ataWriteTurn]
      by_cases hlt : i < count
      · right
        obtain ⟨rfl, rfl⟩ := hstate hlt
        have hwritten := @AtaDevice.written_succ buf size block i m device (by omega)
        rw [if_pos ⟨hlt, hsize i hlt⟩, hwritten]
        split
        · refine ⟨_, rfl, ⟨hlt, rfl, fun _ => ⟨?_, ?_⟩⟩, by dsimp only; omega⟩
          · dsimp only
            rw [add32_add32, Nat.mul_add_one (2 * ataBlockSize) i]
          · dsimp only
            rw [Nat.sub_sub, Nat.mul_add_one ataBlockSize i]
        · -- without a whole sector left, this was the last turn
          refine ⟨_, rfl, ⟨hlt, rfl, fun hlt' => ?_⟩, by dsimp only; omega⟩
          dsimp only at hlt'
          split at hcount <;> (unfold ataBlockSize at *; omega)
      · left
        obtain rfl : i = count := by omega
        exact ⟨_, if_neg fun h => hlt h.1, rfl⟩
    · exact ⟨Nat.zero_le _, AtaDevice.written_zero.symm, fun _ => ⟨(Nat.mod_eq_of_lt hbuf).symm, rfl⟩⟩
    · dsimp only
      omega
  obtain ⟨_, hret, rfl⟩ := hloop
  exact hret

/-- What a sector holds that has been written. -/
theorem AtaDevice.byteAt_written_pos {N k : ℕ} (hdev : device.HasSectors N)
    (hoffset : offset % ataBlockSize = 0) (hk : k / ataBlockSize < count)
    (hN : offset / ataBlockSize + k / ataBlockSize < N) :
    (device.written m buf (offset / ataBlockSize) size count).byteAt (offset + k) =
      sectorSent m (add32 buf (2 * ataBlockSize * (k / ataBlockSize)))
        (size - ataBlockSize * (k / ataBlockSize)) (k % ataBlockSize) := by
  have hdiv : (offset + k) / ataBlockSize = offset / ataBlockSize + k / ataBlockSize := by
    unfold ataBlockSize at *
    omega
  have hmod : (offset + k) % ataBlockSize = k % ataBlockSize := by
    unfold ataBlockSize at *
    omega
  obtain ⟨data, hdata⟩ := Option.ne_none_iff_exists'.mp ((hdev _).mpr hN)
  simp [byteAt, written, hdiv, hmod, hk, hdata]

theorem AtaDevice.byteAt_written_neg (hoffset : offset % ataBlockSize = 0)
    (hk : count ≤ k / ataBlockSize) :
    (device.written m buf (offset / ataBlockSize) size count).byteAt (offset + k) =
      device.byteAt (offset + k) := by
  have hdiv : (offset + k) / ataBlockSize = offset / ataBlockSize + k / ataBlockSize := by
    unfold ataBlockSize at *
    omega
  simp [byteAt, written, hdiv, Nat.not_lt.mpr hk]

/-- The words of a sector, from a buffer that is twice as far on. -/
theorem sectorSent_eq (hk : k < size) (heven : size % 2 = 0)
    (hcount : k / ataBlockSize < if ataBlockSize < size then size / ataBlockSize else 1) :
    sectorSent m (add32 buf (2 * ataBlockSize * (k / ataBlockSize)))
        (size - ataBlockSize * (k / ataBlockSize)) (k % ataBlockSize) =
      m (add32 buf (k + k / ataBlockSize * ataBlockSize)) := by
  rw [sectorSent, if_pos]
  · rw [add32_add32]
    congr 2
    unfold ataBlockSize
    omega
  · split at hcount <;> split <;> (unfold ataBlockSize at *; omega)

/-- What `AtaWrite` leaves on the disk. -/
theorem byteAt_ataWrite (hdev : device.HasSectors N) (hoffset : offset % ataBlockSize = 0)
    (heven : size % 2 = 0) (hfits : offset + size ≤ ataBlockSize * N) (hk : k < size)
    (hbuf : buf + size ≤ 2 ^ 32) :
    (device.written m buf (offset / ataBlockSize) size
        (if ataBlockSize < size then size / ataBlockSize else 1)).byteAt (offset + k) =
      if size ≤ ataBlockSize then m (buf + k) else heldInstead device m buf offset size k := by
  have hN : offset / ataBlockSize + k / ataBlockSize < N := by
    unfold ataBlockSize at *
    omega
  by_cases hcount : k / ataBlockSize < if ataBlockSize < size then size / ataBlockSize else 1
  · rw [AtaDevice.byteAt_written_pos hdev hoffset hcount hN, sectorSent_eq hk heven hcount]
    by_cases hsmall : size ≤ ataBlockSize
    · rw [if_pos hsmall]
      congr 1
      unfold add32 ataBlockSize at *
      omega
    · rw [if_neg hsmall, heldInstead, if_pos]
      rw [if_pos (Nat.lt_of_not_le hsmall)] at hcount
      unfold ataBlockSize at *
      omega
  · rw [AtaDevice.byteAt_written_neg hoffset (Nat.le_of_not_lt hcount)]
    by_cases hsmall : size ≤ ataBlockSize
    · rw [if_neg (Nat.not_lt.mpr hsmall)] at hcount
      unfold ataBlockSize at *
      omega
    · rw [if_neg hsmall, heldInstead, if_neg]
      rw [if_pos (Nat.lt_of_not_le hsmall)] at hcount
      unfold ataBlockSize at *
      omega

/-- The sectors that a range does not meet. -/
theorem AtaDevice.written_others {lba : ℕ} (hoffset : offset % ataBlockSize = 0) (hpos : 0 < size)
    (hlba : ataBlockSize * lba + ataBlockSize ≤ offset ∨ offset + size ≤ ataBlockSize * lba) :
    (device.written m buf (offset / ataBlockSize) size
        (if ataBlockSize < size then size / ataBlockSize else 1)).sector lba = device.sector lba := by
  apply if_neg
  rintro ⟨hlo, hhi⟩
  split at hhi <;> (unfold ataBlockSize at *; omega)

theorem ataWrite_eq (hoffset : offset % ataBlockSize = 0) (hpos : 0 < size) (hsize : size < 2 ^ 32)
    (hlt : offset < 2 ^ 32) (hbuf : buf < 2 ^ 32) (hfuel : 2 ^ 32 ≤ fuel) :
    ataWrite fuel device m buf offset size =
      .ret (((if ataBlockSize < size then size / ataBlockSize else 1 : ℕ) : ℤ),
        device.written m buf (offset / ataBlockSize) size
          (if ataBlockSize < size then size / ataBlockSize else 1)) := by
  rw [ataWrite, if_neg (not_not.mpr hoffset), ataWriteLoop_eq _ hpos hbuf rfl]
  · rfl
  · split <;> (unfold ataBlockSize at *; omega)
  · split <;> (unfold ataBlockSize at *; omega)

theorem WritesRight.ataWrites (h : WritesRight device m buf offset size) (hdev : device.HasSectors N)
    (hoffset : offset % ataBlockSize = 0) (heven : size % 2 = 0) (hpos : 0 < size)
    (hfits : offset + size ≤ ataBlockSize * N) (hsize : size < 2 ^ 32) (hlt : offset < 2 ^ 32)
    (hbuf : buf + size ≤ 2 ^ 32) (hfuel : 2 ^ 32 ≤ fuel) :
    AtaWrites fuel device m buf offset size := by
  refine ⟨_, _, ataWrite_eq hoffset hpos hsize hlt (by omega) hfuel, fun k hk => ?_,
    fun lba hlba => AtaDevice.written_others hoffset hpos hlba⟩
  rw [byteAt_ataWrite hdev hoffset heven hfits hk hbuf]
  split
  · rfl
  · exact (h.resolve_left ‹_›) k hk

theorem AtaWrites.writesRight (h : AtaWrites fuel device m buf offset size)
    (hdev : device.HasSectors N) (hoffset : offset % ataBlockSize = 0) (heven : size % 2 = 0)
    (hpos : 0 < size) (hfits : offset + size ≤ ataBlockSize * N) (hsize : size < 2 ^ 32)
    (hlt : offset < 2 ^ 32) (hbuf : buf + size ≤ 2 ^ 32) (hfuel : 2 ^ 32 ≤ fuel) :
    WritesRight device m buf offset size := by
  obtain ⟨count, device', hret, hbytes, -⟩ := h
  rw [ataWrite_eq hoffset hpos hsize hlt (by omega) hfuel] at hret
  cases hret
  rw [WritesRight, or_iff_not_imp_left]
  intro hlarge k hk
  rw [← hbytes k hk, byteAt_ataWrite hdev hoffset heven hfits hk hbuf, if_neg hlarge]

/-- `AtaWrite` writes a range right when it is no longer than a sector, or when the bytes that
arrive are those of the buffer by chance, and only then. -/
theorem ataWrites_iff (hdev : device.HasSectors N) (hoffset : offset % ataBlockSize = 0)
    (heven : size % 2 = 0) (hpos : 0 < size) (hfits : offset + size ≤ ataBlockSize * N)
    (hsize : size < 2 ^ 32) (hlt : offset < 2 ^ 32) (hbuf : buf + size ≤ 2 ^ 32)
    (hfuel : 2 ^ 32 ≤ fuel) :
    AtaWrites fuel device m buf offset size ↔ WritesRight device m buf offset size :=
  ⟨fun h => h.writesRight hdev hoffset heven hpos hfits hsize hlt hbuf hfuel,
    fun h => h.ataWrites hdev hoffset heven hpos hfits hsize hlt hbuf hfuel⟩

/-- A part of the last of three sectors, and a kilobyte that is followed by the same bytes. -/
theorem partOfSector_ataWrites :
    AtaWrites (2 ^ 32) (.ofSectors 3 fun x => BitVec.ofNat 8 (5 * x)) (fun a => BitVec.ofNat 8 a)
        0x1003 1024 300 ∧
      AtaWrites (2 ^ 32) (.ofSectors 3 fun x => BitVec.ofNat 8 (5 * x)) (fun _ => 1) 0x1000 512
        1024 := by
  have hdev := AtaDevice.hasSectors_ofSectors 3 fun x => BitVec.ofNat 8 (5 * x)
  refine ⟨(ataWrites_iff hdev (by decide) (by decide) (by decide) (by decide) (by decide)
      (by decide) (by decide) le_rfl).mpr (.inl (by decide)),
    (ataWrites_iff hdev (by decide) (by decide) (by decide) (by decide) (by decide)
      (by decide) (by decide) le_rfl).mpr (.inr fun k hk => ?_)⟩
  exact if_pos hk

/-- A kilobyte of ones, followed by zeros, does not arrive as such. -/
theorem kilobyte_not_ataWrites :
    ¬AtaWrites (2 ^ 32) (.ofSectors 2 fun _ => 7) (fun a => if a < 0x1400 then 1 else 0) 0x1000 0
      1024 := by
  intro h
  have hright := h.writesRight (AtaDevice.hasSectors_ofSectors 2 _) (by decide) (by decide)
    (by decide) (by decide) (by decide) (by decide) (by decide) le_rfl
  rcases hright with hsmall | hbytes
  · exact absurd hsmall (by decide)
  · exact absurd (hbytes 512 (by decide)) (by decide)

end LtMicros
