import LtMicros.UserBuffers

/-!
# Reading from an ATA disk

`AtaRead` reads whole sectors into a buffer of its own and copies the bytes asked for
from there. Its sizes and offsets are 32-bit words. A disk is what its sectors hold; the
commands on the ports, and how often one is tried again, are not part of it. The interrupts
are turned off once there is a buffer, and on again when it has been given back.
-/

namespace LtMicros

open Lib

/-- What `AtaReadSectorPio` reads from each sector, or `none` where it gives up. -/
structure AtaDevice where
  sector : ℕ → Option (ℕ → U8)

abbrev ataBlockSize : ℕ := 512

/-- `EIO`. -/
abbrev eio : ℤ := 5

/-- A number as an `int`. -/
def int32 (x : ℤ) : ℤ := (BitVec.ofInt 32 x).toInt

/-- A byte of the disk, with 0 in a sector that cannot be read. -/
def AtaDevice.byteAt (dev : AtaDevice) (x : ℕ) : U8 :=
  ((dev.sector (x / ataBlockSize)).map fun data => data (x % ataBlockSize)).getD 0

/-- A disk with all its sectors. -/
def AtaDevice.ofBytes (bytes : ℕ → U8) : AtaDevice where
  sector lba := some fun i => bytes (ataBlockSize * lba + i)

@[simp] theorem AtaDevice.byteAt_ofBytes (bytes : ℕ → U8) (x : ℕ) :
    (ofBytes bytes).byteAt x = bytes x :=
  congrArg bytes (Nat.div_add_mod x ataBlockSize)

namespace UserProgram

/-- `AtaReadSectorPio`. The controller gets the low 28 bits of the number. -/
def ataReadSectorPio (w : UserProgram) (dev : AtaDevice) (buf lba : ℕ) :
    Traced Access (ℤ × UserProgram) :=
  match dev.sector (lba % 2 ^ 28) with
  | none => return (-eio, w)
  | some data => do
    let w ← w.store buf ataBlockSize (w.h.mem.patch buf data ataBlockSize)
    return (0, w)

/-- One turn of the loop of `AtaRead`: the state is `i`, `bufferPtr` and the program. -/
def ataReadTurn (dev : AtaDevice) (nbBlocks : ℤ) (blockBegin : ℕ) : ℕ × ℕ × UserProgram →
    Traced Access (ℕ × ℕ × UserProgram ⊕ ℤ × UserProgram)
  | (i, bufferPtr, w) =>
    if (i : ℤ) < nbBlocks then do
      let (rc, w) ← w.ataReadSectorPio dev bufferPtr (add32 blockBegin i)
      if rc = -eio then return .inr (-eio, w)
      else return .inl (i + 1, add32 bufferPtr ataBlockSize, w)
    else return .inr (0, w)

end UserProgram

/-- The program with the interrupt flag of the processor. -/
structure AtaProcess where
  program : UserProgram
  interrupts : Bool

namespace AtaProcess

/-- `DISABLE_IRQ`. -/
def disableIrq (s : AtaProcess) : AtaProcess := { s with interrupts := false }

/-- `ENABLE_IRQ`. -/
def enableIrq (s : AtaProcess) : AtaProcess := { s with interrupts := true }

/-- `AtaRead`, with what it does to the interrupts. -/
def ataRead (fuel : ℕ) (s : AtaProcess) (dev : AtaDevice) (buf offset size : ℕ) :
    Traced Access (ℤ × AtaProcess) := do
  let blockBegin := offset / ataBlockSize
  let blockEnd := add32 offset size / ataBlockSize
  let nbBlocks := int32 (blockEnd - blockBegin + 1)
  let (buffer, w) ← s.program.heapAlloc fuel (int32 (nbBlocks * ataBlockSize))
  let s := { s with program := w }
  match buffer with
  | none => return (0, s)
  | some buffer => do
    let s := s.disableIrq
    let (rc, w) ← Traced.loop (UserProgram.ataReadTurn dev nbBlocks blockBegin) fuel
      (0, buffer, s.program)
    let s := { s with program := w }
    -- the buffer is still there, and the interrupts are off
    if rc = -eio then return (-eio, s)
    else do
      let w ← s.program.memCopy (buffer + offset % ataBlockSize) buf size
      let w ← w.heapFree buffer
      return (int32 size, enableIrq { s with program := w })

end AtaProcess

namespace UserProgram

/-- `AtaRead`, for the program. -/
def ataRead (fuel : ℕ) (w : UserProgram) (dev : AtaDevice) (buf offset size : ℕ) :
    Traced Access (ℤ × UserProgram) :=
  AtaProcess.ataRead fuel ⟨w, true⟩ dev buf offset size >>= fun r => pure (r.1, r.2.program)

theorem ataRead_def (fuel : ℕ) (w : UserProgram) (dev : AtaDevice) (buf offset size : ℕ) :
    w.ataRead fuel dev buf offset size = do
      let blockBegin := offset / ataBlockSize
      let blockEnd := add32 offset size / ataBlockSize
      let nbBlocks := int32 (blockEnd - blockBegin + 1)
      let (buffer, w) ← w.heapAlloc fuel (int32 (nbBlocks * ataBlockSize))
      match buffer with
      | none => return (0, w)
      | some buffer => do
        let (rc, w) ← Traced.loop (ataReadTurn dev nbBlocks blockBegin) fuel (0, buffer, w)
        if rc = -eio then return (-eio, w)
        else do
          let w ← w.memCopy (buffer + offset % ataBlockSize) buf size
          let w ← w.heapFree buffer
          return (int32 size, w) := by
  rw [ataRead, AtaProcess.ataRead, Traced.bind_assoc]
  apply congrArg (_ >>= ·)
  funext ⟨buffer, w₁⟩
  cases buffer with
  | none => rfl
  | some buffer =>
    dsimp only [AtaProcess.disableIrq]
    rw [Traced.bind_assoc]
    apply congrArg (_ >>= ·)
    funext ⟨rc, w₂⟩
    dsimp only
    split_ifs
    · rfl
    · simp only [Traced.bind_assoc]
      rfl

/-! ## What is read -/

variable {start p n size offset fuel i j : ℕ} {w w' : UserProgram} {dev : AtaDevice}
  {c : Traced.Contract Access}

/-- The sectors that a read comes to: one behind the last byte when this ends a sector. -/
def sectors (offset size : ℕ) : ℕ :=
  (offset + size) / ataBlockSize - offset / ataBlockSize + 1

/-- They can be read. -/
def Readable (dev : AtaDevice) (offset size : ℕ) : Prop :=
  ∀ i < sectors offset size, dev.sector (offset / ataBlockSize + i) ≠ none

/-- `AtaRead` finds no sector that it cannot read. It reads none when the range comes up to the
last address, or when there are too many for a buffer. -/
def Served (dev : AtaDevice) (offset size : ℕ) : Prop :=
  offset + size < 2 ^ 32 → sectors offset size * ataBlockSize < 2 ^ 31 → Readable dev offset size

theorem served_ofBytes (bytes : ℕ → U8) (offset size : ℕ) : Served (.ofBytes bytes) offset size :=
  fun _ _ _ _ => nofun

/-- The bytes that `AtaRead` delivers. When the range comes up to the last address, no sector
is read, and they are those of the new buffer. -/
def delivered (dev : AtaDevice) (offset size i : ℕ) : U8 :=
  if offset + size < 2 ^ 32 then dev.byteAt (offset + i) else 0

/-- A range in the buffer of a live pointer. -/
def Inside (live : List (ℕ × ℕ)) (dst size : ℕ) : Prop :=
  ∃ a ∈ live, a.1 ≤ dst ∧ dst + size ≤ a.1 + a.2

/-- A range from the beginning of a buffer on is inside when it is not longer. -/
theorem Owns.inside_le (hw : Owns start w) (hmem : (p, n) ∈ w.live) (h : Inside w.live p size) :
    size ≤ n := by
  obtain ⟨⟨q, k⟩, hq, hlo, hhi⟩ := h
  dsimp only at hlo hhi
  by_cases heq : q = p
  · subst heq
    have hsize := hw.size_eq hmem hq
    omega
  · have hapart := hw.apart hq hmem heq
    omega

/-- Writes inside the buffers are allowed. -/
def AllowsInside (c : Traced.Contract Access) : Prop :=
  ∀ live dst size, Inside live dst size → c.ok (.write live dst size)

theorem int32_of_lt {x : ℤ} (hlo : -2 ^ 31 ≤ x) (hhi : x < 2 ^ 31) : int32 x = x := by
  rw [int32, BitVec.toInt_ofInt, Int.bmod_eq_of_le (by omega) (by omega)]

theorem int32_add (x : ℤ) (k : ℤ) : int32 (x + k * 2 ^ 32) = int32 x := by
  rw [int32, int32, BitVec.toInt_ofInt, BitVec.toInt_ofInt]
  exact Int.add_mul_bmod_self_right x k (2 ^ 32)

/-- How many sectors `AtaRead` reads, and the size of its buffer. -/
theorem nbBlocks_eq (hoffset : offset < 2 ^ 32) (hsize : size < 2 ^ 31) :
    int32 ((add32 offset size / ataBlockSize : ℕ) - (offset / ataBlockSize : ℕ) + 1) =
      (sectors offset size : ℤ) - (if offset + size < 2 ^ 32 then 0 else 2 ^ 23) := by
  unfold sectors ataBlockSize
  split
  · rename_i hlt
    rw [add32_of_lt hlt, int32_of_lt (by omega) (by omega)]
    omega
  · have hadd : add32 offset size = offset + size - 2 ^ 32 := by
      unfold add32
      omega
    rw [hadd, int32_of_lt (by omega) (by omega)]
    omega

theorem bufferSize_eq (hsmall : sectors offset size * ataBlockSize < 2 ^ 31) :
    int32 (((sectors offset size : ℤ) - (if offset + size < 2 ^ 32 then 0 else 2 ^ 23)) *
      ataBlockSize) = (sectors offset size * ataBlockSize : ℕ) := by
  have h : ((sectors offset size : ℤ) - (if offset + size < 2 ^ 32 then 0 else 2 ^ 23)) *
      ataBlockSize = (sectors offset size * ataBlockSize : ℕ) +
        (if offset + size < 2 ^ 32 then 0 else -1) * 2 ^ 32 := by
    unfold ataBlockSize
    split <;> omega
  rw [h, int32_add, int32_of_lt (by omega) (by omega)]

theorem bufferSize_neg (hsize : size < 2 ^ 31)
    (hlarge : 2 ^ 31 ≤ sectors offset size * ataBlockSize) :
    int32 (((sectors offset size : ℤ) - (if offset + size < 2 ^ 32 then 0 else 2 ^ 23)) *
      ataBlockSize) ≤ 0 := by
  have hbound : sectors offset size * ataBlockSize < 2 ^ 31 + 2 ^ 10 := by
    unfold sectors ataBlockSize
    omega
  have h : ((sectors offset size : ℤ) - (if offset + size < 2 ^ 32 then 0 else 2 ^ 23)) *
      ataBlockSize = ((sectors offset size * ataBlockSize : ℕ) - 2 ^ 32) +
        (if offset + size < 2 ^ 32 then 1 else 0) * 2 ^ 32 := by
    unfold ataBlockSize
    split <;> omega
  rw [h, int32_add, int32_of_lt (by omega) (by omega)]
  omega

theorem patch_of_not_mem {m : Bytes} {a x : ℕ} {f : ℕ → U8} (h : x < a ∨ a + n ≤ x) :
    m.patch a f n x = m x := if_neg (by omega)

theorem byteAt_of_sector {data : ℕ → U8} (h : dev.sector (i + j) = some data) {x : ℕ}
    (hx : x < ataBlockSize) : dev.byteAt (ataBlockSize * i + (ataBlockSize * j + x)) = data x := by
  unfold ataBlockSize at hx
  have hdiv : (ataBlockSize * i + (ataBlockSize * j + x)) / ataBlockSize = i + j := by
    unfold ataBlockSize
    omega
  have hmod : (ataBlockSize * i + (ataBlockSize * j + x)) % ataBlockSize = x := by
    unfold ataBlockSize
    omega
  rw [AtaDevice.byteAt, hdiv, hmod, h]
  rfl

/-- The state of the loop of `AtaRead` after `i` sectors, in a buffer for `k` of them. -/
structure SectorsRead (c : Traced.Contract Access) (dev : AtaDevice) (start B k buffer n : ℕ)
    (w : UserProgram) (i : ℕ) (w' : UserProgram) : Prop where
  evolves : Evolves c start n [buffer] w w'
  live : w'.live = w.live
  readable : ∀ j < i, dev.sector (B + j) ≠ none
  bytes : ∀ j < ataBlockSize * i, w'.h.mem (buffer + j) = dev.byteAt (ataBlockSize * B + j)

/-- One sector more. -/
theorem SectorsRead.store {B k buffer : ℕ} {data : ℕ → U8}
    (h : SectorsRead c dev start B k buffer n w i w')
    (hmem : (buffer, k * ataBlockSize) ∈ w.live) (hi : i < k) (hok : AllowsInside c)
    (hdata : dev.sector (B + i) = some data) :
    Traced.Meets c (w'.store (buffer + ataBlockSize * i) ataBlockSize
        (w'.h.mem.patch (buffer + ataBlockSize * i) data ataBlockSize))
      fun w'' => SectorsRead c dev start B k buffer n w (i + 1) w'' := by
  have hle : ataBlockSize * i + ataBlockSize ≤ k * ataBlockSize := by
    rw [← Nat.mul_succ, Nat.mul_comm]
    exact Nat.mul_le_mul_right _ hi
  have hmem' : (buffer, k * ataBlockSize) ∈ w'.live := h.live ▸ hmem
  have hin : Inside w'.live (buffer + ataBlockSize * i) ataBlockSize :=
    ⟨_, hmem', Nat.le_add_right _ _, by dsimp only; omega⟩
  refine (store_meets h.evolves.owns hmem' (Nat.le_add_right _ _) (by omega)
    (fun x hx => patch_of_not_mem hx) (hok _ _ _ hin) h.evolves.room).mono ?_
  rintro w'' ⟨hev, hlive, hmem''⟩
  refine ⟨(h.evolves.trans hev).weaken (by simp), hlive.trans h.live, fun j hj => ?_,
    fun j hj => ?_⟩
  · rcases Nat.lt_succ_iff_lt_or_eq.mp hj with hj | rfl
    · exact h.readable j hj
    · rw [hdata]
      nofun
  · rw [Nat.mul_succ] at hj
    rw [hmem'']
    dsimp only
    rcases Nat.lt_or_ge j (ataBlockSize * i) with hlt | hge
    · rw [patch_of_not_mem (.inl (by omega))]
      exact h.bytes j hlt
    · obtain ⟨x, rfl⟩ := Nat.exists_eq_add_of_le hge
      rw [byteAt_of_sector hdata (by omega), Bytes.patch, if_pos (by omega)]
      congr 1
      omega

/-- The loop of `AtaRead` reads the sectors in order, up to one that cannot be read. -/
theorem sectors_meets {B k buffer : ℕ} (hw : Owns start w)
    (hmem : (buffer, k * ataBlockSize) ∈ w.live) (hB : B + k ≤ 2 ^ 28) (hok : AllowsInside c)
    (hroom : Room c w n) (hfuel : k < fuel) :
    Traced.Meets c (Traced.loop (ataReadTurn dev k B) fuel (0, buffer, w)) fun r =>
      (r.1 = -eio ∧ ∃ i < k, dev.sector (B + i) = none ∧
        SectorsRead c dev start B k buffer n w i r.2) ∨
      (r.1 = 0 ∧ SectorsRead c dev start B k buffer n w k r.2) := by
  refine Traced.Meets.loop
    (I := fun s => s.1 ≤ k ∧ s.2.1 = buffer + ataBlockSize * s.1 ∧
      SectorsRead c dev start B k buffer n w s.1 s.2.2) (fun s => k - s.1) ?_
    ⟨Nat.zero_le k, rfl, .refl hw hroom _, rfl, fun j hj => absurd hj (Nat.not_lt_zero j),
      fun j hj => absurd hj (Nat.not_lt_zero j)⟩ (Nat.lt_of_le_of_lt (Nat.sub_le _ _) hfuel)
  rintro ⟨i, ptr, w'⟩ ⟨hik, hptr, hread⟩
  dsimp only at hik hptr hread
  subst hptr
  rw [ataReadTurn]
  split
  · rename_i hlt
    have hlt : i < k := by omega
    have hlba : add32 B i % 2 ^ 28 = B + i := by
      unfold add32
      omega
    rw [ataReadSectorPio, hlba]
    cases hdata : dev.sector (B + i) with
    | none => exact Traced.Meets.pure ⟨nofun, fun r hr => by
        cases hr
        exact .inl ⟨rfl, i, hlt, hdata, hread⟩⟩
    | some data =>
      have hbounds := hread.evolves.owns.bounds (hread.live ▸ hmem)
      have hlimit := UserHeap.vProcessLimitAddr_lt
      have hle : ataBlockSize * i + ataBlockSize ≤ k * ataBlockSize := by
        rw [← Nat.mul_succ, Nat.mul_comm]
        exact Nat.mul_le_mul_right _ hlt
      refine ((hread.store hmem hlt hok hdata).bind fun w'' hread' =>
        Traced.Meets.pure (P := fun r : ℤ × UserProgram => r.1 = 0 ∧
          SectorsRead c dev start B k buffer n w (i + 1) r.2) ⟨rfl, hread'⟩).bind ?_
      rintro ⟨rc, w''⟩ ⟨hrc, hread'⟩
      dsimp only at hrc hread' ⊢
      subst hrc
      rw [if_neg (by decide)]
      refine Traced.Meets.pure ⟨fun s' hs' => ?_, nofun⟩
      cases hs'
      refine ⟨⟨hlt, ?_, hread'⟩, by dsimp only; omega⟩
      dsimp only
      rw [add32_of_lt (by omega), Nat.mul_succ, Nat.add_assoc]
  · rename_i hge
    obtain rfl : i = k := by omega
    exact Traced.Meets.pure ⟨nofun, fun r hr => by
      cases hr
      exact .inr ⟨rfl, hread⟩⟩

/-- The state of `AtaRead` when its loop has been left without an error. -/
structure LoopDone (c : Traced.Contract Access) (dev : AtaDevice) (start offset size buffer n : ℕ)
    (w w' : UserProgram) : Prop where
  evolves : Evolves c start n [buffer] w w'
  live : w'.live = w.live
  readable : offset + size < 2 ^ 32 → Readable dev offset size
  bytes : ∀ j < sectors offset size * ataBlockSize, w'.h.mem (buffer + j) =
    if offset + size < 2 ^ 32 then dev.byteAt (ataBlockSize * (offset / ataBlockSize) + j) else 0

/-- The loop of `AtaRead` reads all sectors, or none when the range comes up to the last address. -/
theorem loop_meets {buffer : ℕ} (hw : Owns start w) (hoffset : offset < 2 ^ 32)
    (hmem : (buffer, sectors offset size * ataBlockSize) ∈ w.live) (hok : AllowsInside c)
    (hsmall : sectors offset size * ataBlockSize < 2 ^ 31) (hroom : Room c w n)
    (hfuel : 2 ^ 32 ≤ fuel) (hzero : ∀ j < sectors offset size * ataBlockSize, w.h.mem (buffer + j) = 0) :
    Traced.Meets c (Traced.loop (ataReadTurn dev
        ((sectors offset size : ℤ) - (if offset + size < 2 ^ 32 then 0 else 2 ^ 23))
        (offset / ataBlockSize)) fuel (0, buffer, w)) fun r =>
      (r.1 = -eio ∧ ¬Served dev offset size ∧ Evolves c start n [buffer] w r.2) ∨
      (r.1 = 0 ∧ LoopDone c dev start offset size buffer n w r.2) := by
  unfold ataBlockSize at hsmall
  by_cases hwrap : offset + size < 2 ^ 32
  · simp only [if_pos hwrap, Int.sub_zero]
    refine (sectors_meets hw hmem ?_ hok hroom (by omega)).mono ?_
    · unfold ataBlockSize
      omega
    · rintro ⟨rc, w'⟩ (⟨hrc, i, hi, hnone, h⟩ | ⟨hrc, h⟩)
      · exact .inl ⟨hrc, fun hread => hread hwrap hsmall i hi hnone, h.evolves⟩
      · refine .inr ⟨hrc, h.evolves, h.live, fun _ => h.readable, fun j hj => ?_⟩
        rw [if_pos hwrap]
        exact h.bytes j (by rwa [Nat.mul_comm])
  · simp only [if_neg hwrap]
    refine Traced.Meets.loop (I := fun s => s = (0, buffer, w)) (fun _ => 0) ?_ rfl (by omega)
    rintro _ rfl
    rw [ataReadTurn, if_neg (by omega)]
    refine Traced.Meets.pure ⟨nofun, fun r hr => ?_⟩
    cases hr
    refine .inr ⟨rfl, .refl hw hroom _, rfl, fun h => absurd h hwrap, fun j hj => ?_⟩
    rw [if_neg hwrap]
    exact hzero j hj

/-- The buffer of `AtaRead` is large enough for what it copies, and not for much more. -/
theorem sectors_cover (offset size : ℕ) :
    offset % ataBlockSize + size ≤ sectors offset size * ataBlockSize := by
  unfold sectors ataBlockSize
  omega

theorem growth_sectors (offset size : ℕ) :
    UserHeap.growth (sectors offset size * ataBlockSize) ≤ UserHeap.growth (size + 1023) := by
  refine UserHeap.growth_mono ?_
  unfold sectors ataBlockSize
  omega

/-- What byte `i` of a buffer at `p` is after `AtaRead` has filled it: the old one, when the read
is too large for a buffer of its own. -/
def Filled (dev : AtaDevice) (offset size p : ℕ) (m m' : Bytes) (i : ℕ) : Prop :=
  m' (p + i) = if i < size ∧ sectors offset size * ataBlockSize < 2 ^ 31 then
    delivered dev offset size i else m (p + i)

/-- `AtaRead` with its own buffer, from its loop on. -/
theorem ataRead_buffered {w₁ : UserProgram} {buffer k : ℕ} (hmem : (p, n) ∈ w.live)
    (hev₁ : Evolves c start k [] w w₁)
    (hbuffer : (buffer, sectors offset size * ataBlockSize) ∈ w₁.live)
    (hfresh : ∀ a ∈ w.live, a.1 ≠ buffer)
    (hzero : ∀ i < sectors offset size * ataBlockSize, w₁.h.mem (buffer + i) = 0)
    (hle : Served dev offset size → size ≤ n) (hsize : size < 2 ^ 31) (hoffset : offset < 2 ^ 32)
    (hok : AllowsInside c) (hsmall : sectors offset size * ataBlockSize < 2 ^ 31)
    (hfuel : 2 ^ 32 ≤ fuel) :
    Traced.Meets c (do
      let (rc, w) ← Traced.loop (ataReadTurn dev
        ((sectors offset size : ℤ) - (if offset + size < 2 ^ 32 then 0 else 2 ^ 23))
        (offset / ataBlockSize)) fuel (0, buffer, w₁)
      if rc = -eio then return (-eio, w)
      else do
        let w ← w.memCopy (buffer + offset % ataBlockSize) p size
        let w ← w.heapFree buffer
        return (int32 size, w)) fun r => Evolves c start k [p] w r.2 ∧ (p, n) ∈ r.2.live ∧
      ((r.1 = -eio ∧ ¬Served dev offset size) ∨ (r.1 = size ∧ Served dev offset size ∧
        ∀ i < n, Filled dev offset size p w.h.mem r.2.h.mem i)) := by
  have hcover := sectors_cover offset size
  have hpne : p ≠ buffer := hfresh _ hmem
  obtain ⟨hmem₁, hsame₁⟩ := hev₁.rest _ hmem List.not_mem_nil
  refine (loop_meets hev₁.owns hoffset hbuffer hok hsmall hev₁.room hfuel hzero).bind ?_
  rintro ⟨rc, w₂⟩ (⟨rfl, hread, hev₂⟩ | ⟨rfl, hdone⟩)
  · dsimp only
    rw [if_pos rfl]
    refine Traced.Meets.pure ⟨(hev₁.trans hev₂).weaken ?_, ?_, .inl ⟨rfl, hread⟩⟩
    · simpa using Or.inr hfresh
    · exact (hev₂.rest _ hmem₁ (by simpa using hpne)).1
  · dsimp only
    rw [if_neg (by decide)]
    have hserved : Served dev offset size := fun hwrap _ => hdone.readable hwrap
    have hsizen := hle hserved
    have hev₂ := hdone.evolves
    obtain ⟨hmem₂, hsame₂⟩ := hev₂.rest _ hmem₁ (by simpa using hpne)
    have hbuffer₂ := hdone.live ▸ hbuffer
    have hin : Inside w₂.live p size := ⟨(p, n), hmem₂, le_rfl, by dsimp only; omega⟩
    refine (memCopy_meets hev₂.owns hmem₂ hbuffer₂ hpne.symm le_rfl (by omega)
      (Nat.le_add_right _ _) (by omega) (hok _ _ _ hin) hev₂.room).bind ?_
    rintro w₃ ⟨hev₃, hlive₃, hbytes₃⟩
    have hmem₃ := hlive₃.symm ▸ hmem₂
    refine (heapFree_meets hev₃.owns (hlive₃.symm ▸ hbuffer₂) hev₃.room).bind ?_
    rintro w₄ hev₄
    obtain ⟨hmem₄, hsame₄⟩ := hev₄.rest _ hmem₃ (by simpa using hpne)
    refine Traced.Meets.pure ⟨?_, hmem₄, .inr ⟨?_, hserved, fun i hi => ?_⟩⟩
    · refine ((hev₁.trans hev₂).trans (hev₃.trans hev₄)).weaken ?_
      intro q hq
      simp only [List.nil_append, List.cons_append, List.mem_cons, List.not_mem_nil,
        or_false] at hq
      rcases hq with rfl | rfl | rfl
      · exact .inr hfresh
      · exact .inl (List.mem_singleton.mpr rfl)
      · exact .inr hfresh
    · rw [int32_of_lt (by omega) (by omega)]
    · rw [Filled, hsame₄ i hi, hbytes₃]
      by_cases hlt : i < size
      · rw [if_pos ⟨by omega, by omega⟩, if_pos ⟨hlt, hsmall⟩, delivered,
          show buffer + offset % ataBlockSize + (p + i - p) =
            buffer + (offset % ataBlockSize + i) by omega, hdone.bytes _ (by omega)]
        split
        · rw [← Nat.add_assoc, Nat.div_add_mod]
        · rfl
      · rw [if_neg (by omega), if_neg (fun h => hlt h.1), hsame₂ i hi, hsame₁ i hi]

/-- `AtaRead` into a buffer that is large enough. It fails exactly on a sector that cannot be read,
and then does not give back its own buffer. -/
theorem ataRead_meets (hw : Owns start w) (hmem : (p, n) ∈ w.live)
    (hle : Served dev offset size → size ≤ n) (hsize : size < 2 ^ 31) (hoffset : offset < 2 ^ 32)
    (hok : AllowsInside c) (hfuel : 2 ^ 32 ≤ fuel) {k : ℕ}
    (hroom : Room c w (UserHeap.growth (size + 1023) + k)) :
    Traced.Meets c (w.ataRead fuel dev p offset size) fun r => Evolves c start k [p] w r.2 ∧
      (p, n) ∈ r.2.live ∧
      ((r.1 = -eio ∧ ¬Served dev offset size) ∨ (0 ≤ r.1 ∧ Served dev offset size ∧
        ∀ i < n, Filled dev offset size p w.h.mem r.2.h.mem i)) := by
  rw [ataRead_def]
  dsimp only
  rw [nbBlocks_eq hoffset hsize]
  rcases Nat.lt_or_ge (sectors offset size * ataBlockSize) (2 ^ 31) with hsmall | hlarge
  · rw [bufferSize_eq hsmall]
    have hpos : 0 < sectors offset size := Nat.succ_pos _
    have hgrowth := growth_sectors offset size
    refine (heapAlloc_meets (n := k) hw (by unfold ataBlockSize; omega) (by omega) hfuel
      (hroom.mono (by rw [Int.toNat_natCast]; omega) (by rw [Int.toNat_natCast]; omega))).bind ?_
    rintro ⟨_, w₁⟩ ⟨buffer, rfl, hev₁, hbuffer, hfresh, hzero⟩
    dsimp only at hev₁ hbuffer hfresh hzero ⊢
    rw [Int.toNat_natCast] at hbuffer hzero
    apply (ataRead_buffered hmem hev₁ hbuffer hfresh hzero hle hsize hoffset hok hsmall hfuel).mono
    rintro r ⟨hev, hlive, hfails | ⟨hret, hserved, hfilled⟩⟩
    · exact ⟨hev, hlive, .inl hfails⟩
    · exact ⟨hev, hlive, .inr ⟨hret ▸ Int.natCast_nonneg size, hserved, hfilled⟩⟩
  · rw [heapAlloc_null (bufferSize_neg hsize hlarge)]
    refine Traced.Meets.pure ⟨.refl hw (hroom.mono (by omega) (by omega)) _, hmem,
      .inr ⟨le_rfl, fun _ h => absurd h (Nat.not_lt.mpr hlarge), fun i _ => ?_⟩⟩
    exact (if_neg fun h => absurd h.2 (Nat.not_lt.mpr hlarge)).symm

/-- When no sector fails, `AtaRead` writes as many bytes as it has been asked for, whatever the
size of the buffer. -/
theorem ataRead_write (hw : Owns start w) (hmem : (p, n) ∈ w.live) (hsize : size < 2 ^ 31)
    (hoffset : offset < 2 ^ 32) (hsmall : sectors offset size * ataBlockSize < 2 ^ 31)
    (hok : AllowsInside c) (hstop : ∀ e, ¬c.stop e) (hfuel : 2 ^ 32 ≤ fuel) {k : ℕ}
    (hroom : Room c w (UserHeap.growth (size + 1023) + k)) (hserved : Served dev offset size) :
    ∃ w', Owns start w' ∧ (p, n) ∈ w'.live ∧
      .write w'.live p size ∈ (w.ataRead fuel dev p offset size).trace := by
  have hpos : 0 < sectors offset size := Nat.succ_pos _
  have hgrowth := growth_sectors offset size
  obtain ⟨⟨_, w₁⟩, hret₁, buffer, rfl, hev₁, hbuffer, hfresh, hzero⟩ :=
    (heapAlloc_meets (s := (sectors offset size * ataBlockSize : ℕ)) (n := k) hw
      (by unfold ataBlockSize; omega) (by omega) hfuel
      (hroom.mono (by rw [Int.toNat_natCast]; omega) (by rw [Int.toNat_natCast]; omega))).returns
      hstop
  dsimp only at hret₁ hev₁ hbuffer hfresh hzero
  rw [Int.toNat_natCast] at hbuffer hzero
  obtain ⟨hmem₁, -⟩ := hev₁.rest _ hmem List.not_mem_nil
  obtain ⟨⟨rc, w₂⟩, hret₂, ⟨-, hfails, -⟩ | ⟨rfl, hdone⟩⟩ :=
    (loop_meets hev₁.owns hoffset hbuffer hok hsmall hev₁.room hfuel hzero).returns hstop
  · exact absurd hserved hfails
  · refine ⟨w₂, hdone.evolves.owns,
      (hdone.evolves.rest _ hmem₁ (by simpa using hfresh _ hmem)).1, ?_⟩
    rw [ataRead_def]
    dsimp only
    rw [nbBlocks_eq hoffset hsize, bufferSize_eq hsmall]
    refine Traced.mem_bind_right hret₁ (Traced.mem_bind_right hret₂ ?_)
    dsimp only
    rw [if_neg (by decide)]
    exact Traced.mem_bind_left (Traced.mem_bind_left (List.mem_singleton.mpr rfl))

end UserProgram

end LtMicros
