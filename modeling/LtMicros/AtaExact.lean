import LtMicros.Ata

/-!
# Whole ranges of a disk

When `AtaRead` delivers a range of the disk exactly. A range that ends with a sector makes it
read the sector behind.
-/

namespace LtMicros

open Lib

/-- The disk has the sectors below `N`, and all of them can be read. -/
def AtaDevice.HasSectors (dev : AtaDevice) (N : ℕ) : Prop := ∀ lba, dev.sector lba ≠ none ↔ lba < N

/-- A disk of `N` sectors with given bytes. -/
def AtaDevice.ofSectors (N : ℕ) (bytes : ℕ → U8) : AtaDevice where
  sector lba := if lba < N then some fun i => bytes (ataBlockSize * lba + i) else none

theorem AtaDevice.hasSectors_ofSectors (N : ℕ) (bytes : ℕ → U8) :
    (ofSectors N bytes).HasSectors N := by
  intro lba
  simp [ofSectors]

namespace UserProgram

/-- `AtaRead` returns the size, with the bytes of the disk at the beginning of the buffer and
everything else as it was. Another disk with the same first `N` sectors makes no difference: the
others, which could fail, are not accessed. -/
structure ReadsExactly (fuel start : ℕ) (w : UserProgram) (dev : AtaDevice) (N buf n offset size : ℕ) :
    Prop where
  returns : ∃ w', (w.ataRead fuel dev buf offset size).outcome = .ret ((size : ℤ), w') ∧
    Owns start w' ∧ (∀ i < n, w'.h.mem (buf + i) =
      if i < size then dev.byteAt (offset + i) else w.h.mem (buf + i)) ∧
    ∀ a ∈ w.live, a ∈ w'.live ∧ (a.1 ≠ buf → ∀ i < a.2, w'.h.mem (a.1 + i) = w.h.mem (a.1 + i))
  below : ∀ dev' : AtaDevice, (∀ lba < N, dev'.sector lba = dev.sector lba) →
    w.ataRead fuel dev' buf offset size = w.ataRead fuel dev buf offset size

/-- The range ends before the last sector does, and its sectors fit into a buffer that `HeapAlloc`
has room for. -/
structure ExactRange (fuel : ℕ) (w : UserProgram) (N offset size : ℕ) : Prop where
  ends : offset + size < ataBlockSize * N
  small : sectors offset size * ataBlockSize < 2 ^ 31
  room : ∃ p h', w.h.heapAlloc fuel (sectors offset size * ataBlockSize : ℕ) = .ret (some p, h')

variable {start fuel N buf n offset size : ℕ} {w : UserProgram} {dev dev' : AtaDevice}

/-- The disks need to agree on the sectors of the range only. -/
theorem ataReadTurn_congr (hoffset : offset < 2 ^ 32) (hlt : offset + size < 2 ^ 32)
    (h : ∀ i < sectors offset size,
      dev'.sector (offset / ataBlockSize + i) = dev.sector (offset / ataBlockSize + i)) :
    ataReadTurn dev' (sectors offset size) (offset / ataBlockSize) =
      ataReadTurn dev (sectors offset size) (offset / ataBlockSize) := by
  funext ⟨i, ptr, w⟩
  simp only [ataReadTurn]
  split
  · rename_i hi
    have hi : i < sectors offset size := by omega
    have hlba : add32 (offset / ataBlockSize) i % 2 ^ 28 = offset / ataBlockSize + i := by
      unfold sectors ataBlockSize at *
      unfold add32
      omega
    simp only [ataReadSectorPio, hlba, h i hi]
  · rfl

theorem ataRead_congr (hlt : offset + size < 2 ^ 32) (hsize : size < 2 ^ 31)
    (h : ∀ i < sectors offset size,
      dev'.sector (offset / ataBlockSize + i) = dev.sector (offset / ataBlockSize + i)) :
    w.ataRead fuel dev' buf offset size = w.ataRead fuel dev buf offset size := by
  have hnb := nbBlocks_eq (by omega : offset < 2 ^ 32) hsize
  rw [if_pos hlt, Int.sub_zero] at hnb
  simp only [ataRead_def, hnb, ataReadTurn_congr (by omega) hlt h]

/-- A buffer has less than two gigabytes. -/
theorem Owns.size_lt (hw : Owns start w) (hmem : (buf, n) ∈ w.live) : n < 2 ^ 31 := by
  obtain ⟨l, hw⟩ := hw
  obtain ⟨u, -, -, hsize⟩ := hw.live _ hmem
  have hlt : blockSize w.h.mem u < 2 ^ 31 := blockSize_lt _ _
  dsimp only at hsize
  unfold blockHeaderSize at hsize
  omega

theorem ExactRange.readsExactly (h : ExactRange fuel w N offset size) (hw : Owns start w)
    (hmem : (buf, n) ∈ w.live) (hle : size ≤ n) (hdev : dev.HasSectors N)
    (hlt : offset + size < 2 ^ 32) (hfuel : 2 ^ 32 ≤ fuel) :
    ReadsExactly fuel start w dev N buf n offset size := by
  obtain ⟨hends, hsmall, buffer, h', hret⟩ := h
  have hsize : size < 2 ^ 31 := by
    have := hw.size_lt hmem
    omega
  have hbelow (i : ℕ) (hi : i < sectors offset size) : offset / ataBlockSize + i < N := by
    unfold sectors ataBlockSize at *
    omega
  constructor
  · -- nothing stops the call once it has its own buffer
    let c : Traced.Contract Access := ⟨fun _ => True, fun _ => False⟩
    have hpos : 0 < sectors offset size := Nat.succ_pos _
    obtain ⟨hw₁, hfresh, hzero, hsame⟩ := hw.heapAlloc (by unfold ataBlockSize; omega)
      (by omega) hret
    rw [Int.toNat_natCast] at hw₁ hzero
    have hev₁ : Evolves c start 0 [] w
        ⟨h', (buffer, sectors offset size * ataBlockSize) :: w.live⟩ :=
      ⟨hw₁, hw₁.room List.mem_cons_self c,
        fun a ha _ => ⟨List.mem_cons_of_mem _ ha, hsame a ha⟩⟩
    have hserved : Served dev offset size → size ≤ n := fun _ => hle
    obtain ⟨⟨ret, w'⟩, hrest, hev, hlive, ⟨-, hnot⟩ | ⟨rfl, -, hfilled⟩⟩ :=
      (ataRead_buffered hmem hev₁ List.mem_cons_self hfresh hzero hserved hsize
        (by omega : offset < 2 ^ 32) (fun _ _ _ _ => trivial) hsmall hfuel).returns fun _ => id
    · apply absurd _ hnot
      intro _ _ i hi
      exact (hdev _).mpr (hbelow i hi)
    · refine ⟨w', ?_, hev.owns, fun i hi => ?_, fun a ha => ?_⟩
      · have halloc : w.heapAlloc fuel (sectors offset size * ataBlockSize : ℕ) =
            pure (some buffer, ⟨h', (buffer, sectors offset size * ataBlockSize) :: w.live⟩) := by
          rw [heapAlloc, hret, Int.toNat_natCast]
        rw [ataRead_def]
        dsimp only
        rw [nbBlocks_eq (by omega) hsize, bufferSize_eq hsmall, halloc]
        exact Traced.bind_outcome_eq_ret.mpr ⟨_, rfl, hrest⟩
      · have hi' := hfilled i hi
        simp only [Filled, hsmall, and_true, delivered, if_pos hlt] at hi'
        exact hi'
      · by_cases ha' : a.1 = buf
        · obtain ⟨q, k⟩ := a
          subst ha'
          exact ⟨hw.size_eq hmem ha ▸ hlive, fun hne => absurd rfl hne⟩
        · exact ⟨(hev.rest a ha (by simpa using ha')).1, fun _ =>
            (hev.rest a ha (by simpa using ha')).2⟩
  · intro dev' hsame
    exact ataRead_congr hlt hsize fun i hi => hsame _ (hbelow i hi)

theorem ReadsExactly.exactRange (h : ReadsExactly fuel start w dev N buf n offset size)
    (hw : Owns start w) (hmem : (buf, n) ∈ w.live) (hle : size ≤ n) (hpos : 0 < size)
    (hdev : dev.HasSectors N) (hfits : offset + size ≤ ataBlockSize * N)
    (hlt : offset + size < 2 ^ 32) (hfuel : 2 ^ 32 ≤ fuel) : ExactRange fuel w N offset size := by
  obtain ⟨⟨w', hret, -⟩, -⟩ := h
  have hsize : size < 2 ^ 31 := by
    have := hw.size_lt hmem
    omega
  have hsmall : sectors offset size * ataBlockSize < 2 ^ 31 := by
    by_contra hlarge
    rw [ataRead_def] at hret
    dsimp only at hret
    rw [nbBlocks_eq (by omega) hsize, heapAlloc_null (bufferSize_neg hsize (by omega))] at hret
    have hzero : (0, w) = ((size : ℤ), w') := Outcome.ret.inj hret
    have := congrArg Prod.fst hzero
    dsimp only at this
    omega
  constructor
  · -- the sector behind the range has to be there
    let c : Traced.Contract Access := ⟨fun _ => True, fun e => e = .exhausted⟩
    obtain ⟨-, -, ⟨hfails, -⟩ | ⟨-, hserved, -⟩⟩ :=
      (ataRead_meets (c := c) (k := 0) hw hmem (fun _ => hle) hsize (by omega : offset < 2 ^ 32)
        (fun _ _ _ _ => trivial) hfuel (.inl rfl)).ret _ hret
    · have hneg : (size : ℤ) = -5 := hfails
      omega
    · have hlast := hserved hlt hsmall (sectors offset size - 1) (by unfold sectors; omega)
      rw [hdev] at hlast
      unfold sectors ataBlockSize at *
      omega
  · exact hsmall
  · rw [ataRead_def] at hret
    dsimp only at hret
    rw [nbBlocks_eq (by omega) hsize, bufferSize_eq hsmall] at hret
    obtain ⟨⟨o, w₁⟩, halloc, hret⟩ := Traced.bind_outcome_eq_ret.mp hret
    cases o with
    | none =>
      have hzero : (0, w₁) = ((size : ℤ), w') := Outcome.ret.inj hret
      have := congrArg Prod.fst hzero
      dsimp only at this
      omega
    | some p =>
      rw [heapAlloc] at halloc
      split at halloc
      · rename_i q h' heq
        exact ⟨q, h', heq⟩
      · cases halloc
      · cases halloc
      · cases halloc
      · cases halloc

/-- `AtaRead` is exact when the range does not end with the last sector and there is memory for
its sectors, and only then. -/
theorem ataRead_exact_iff (hw : Owns start w) (hmem : (buf, n) ∈ w.live) (hle : size ≤ n)
    (hpos : 0 < size) (hdev : dev.HasSectors N) (hfits : offset + size ≤ ataBlockSize * N)
    (hlt : offset + size < 2 ^ 32) (hfuel : 2 ^ 32 ≤ fuel) :
    ReadsExactly fuel start w dev N buf n offset size ↔ ExactRange fuel w N offset size :=
  ⟨fun h => h.exactRange hw hmem hle hpos hdev hfits hlt hfuel,
    fun h => h.readsExactly hw hmem hle hdev hlt hfuel⟩

/-- A program with a buffer, and more memory. -/
theorem newProgram_buffer {n k : ℕ} (hn : 0 < n ∧ n ≤ 2 ^ 15) (hk : 0 < k ∧ k ≤ 2 ^ 15) :
    ∃ w buf, Owns 0x40002000 w ∧ (buf, n) ∈ w.live ∧
      ∃ p h', w.h.heapAlloc (2 ^ 32) (k : ℕ) = .ret (some p, h') := by
  let c : Traced.Contract Access := ⟨fun _ => True, fun _ => False⟩
  have hlarge {i : ℕ} (hi : i ≤ 2 ^ 15) : UserHeap.growth i ≤ 2 ^ 16 :=
    (UserHeap.growth_mono hi).trans (by decide)
  have hroom : Room c newProgram (2 ^ 16 + 2 ^ 16) := .inr (by decide)
  have hn_room : Room c newProgram (UserHeap.growth (n : ℤ).toNat + 2 ^ 16) := by
    have hgrowth := hlarge hn.2
    rw [Int.toNat_natCast]
    exact hroom.mono (by omega) (by omega)
  obtain ⟨⟨_, w⟩, -, buf, rfl, hev, hmem, -⟩ := (heapAlloc_meets (c := c) newProgram_owns
    (Int.natCast_pos.mpr hn.1) (by omega) le_rfl hn_room).returns fun _ => id
  have hk_room : Room c w (UserHeap.growth (k : ℤ).toNat + 0) := by
    have hgrowth := hlarge hk.2
    rw [Int.toNat_natCast, Nat.add_zero]
    exact hev.room.mono (by dsimp only; omega) (by omega)
  obtain ⟨⟨_, w'⟩, hret, p, rfl, -⟩ := (heapAlloc_meets (c := c) hev.owns
    (Int.natCast_pos.mpr hk.1) (by omega) le_rfl hk_room).returns fun _ => id
  refine ⟨w, buf, hev.owns, hmem, ?_⟩
  rw [heapAlloc] at hret
  split at hret
  · rename_i q h' heq
    exact ⟨q, h', heq⟩
  all_goals cases hret

/-- Parts of three sectors. -/
theorem threeSectors_readsExactly : ∃ w buf,
    ReadsExactly (2 ^ 32) 0x40002000 w (.ofSectors 4 fun x => BitVec.ofNat 8 (3 * x)) 4 buf 1100 300
      1100 := by
  obtain ⟨w, buf, hw, hmem, hroom⟩ := newProgram_buffer (n := 1100) (k := 1536) (by decide)
    (by decide)
  exact ⟨w, buf, (ataRead_exact_iff hw hmem le_rfl (by decide) (AtaDevice.hasSectors_ofSectors 4 _)
    (by decide) (by decide) le_rfl).mpr ⟨by decide, by decide, hroom⟩⟩

/-- The only sector of a disk. -/
theorem onlySector_not_readsExactly : ∃ w buf, Owns 0x40002000 w ∧ (buf, 512) ∈ w.live ∧
    ¬ReadsExactly (2 ^ 32) 0x40002000 w (.ofSectors 1 fun _ => 7) 1 buf 512 0 512 := by
  obtain ⟨w, buf, hw, hmem, -⟩ := newProgram_buffer (n := 512) (k := 1024) (by decide) (by decide)
  refine ⟨w, buf, hw, hmem, fun h => ?_⟩
  have hends := (h.exactRange hw hmem le_rfl (by decide) (AtaDevice.hasSectors_ofSectors 1 _)
    (by decide) (by decide) le_rfl).ends
  exact absurd hends (by decide)

end UserProgram

end LtMicros
