import LtMicros.Lib.Frames

/-!
# Bytes in a memory of words

A memory of 32-bit words at the addresses of its frames, looked at byte by byte: the byte at
an address is a part of the word that the address lies in, lowest byte first. Writing a byte
changes no byte at another address, and no word of another frame.
-/

namespace Lib

namespace Frames

variable {m m' : BitVec 32 → BitVec 32} {a a' f g j w : BitVec 32} {b : BitVec 8} {i k : ℕ}

/-! ## Bytes of a word -/

/-- Byte `i` of a word. -/
def byteOf (w : BitVec 32) (i : ℕ) : BitVec 8 := (w >>> (8 * i)).setWidth 8

/-- The word with byte `i` replaced. -/
def withByte (w : BitVec 32) (i : ℕ) (b : BitVec 8) : BitVec 32 :=
  (w &&& ~~~(0xFF#32 <<< (8 * i))) ||| (b.setWidth 32 <<< (8 * i))

theorem getLsbD_withByte (hk : k < 32) : (withByte w i b).getLsbD k =
    if 8 * i ≤ k ∧ k < 8 * i + 8 then b.getLsbD (k - 8 * i) else w.getLsbD k := by
  have hmask : (0xFF#32).getLsbD (k - 8 * i) = decide (k - 8 * i < 8) := by
    -- the mask is eight ones
    have hones : (0xFF#32) = (BitVec.allOnes 8).setWidth 32 := by decide
    rw [hones, BitVec.getLsbD_setWidth, BitVec.getLsbD_allOnes]
    simp
    omega
  simp only [withByte, BitVec.getLsbD_or, BitVec.getLsbD_and, BitVec.getLsbD_not,
    BitVec.getLsbD_shiftLeft, BitVec.getLsbD_setWidth, hk, decide_true, Bool.true_and, hmask]
  by_cases hlo : 8 * i ≤ k
  · by_cases hhi : k < 8 * i + 8
    · have hin : k - 8 * i < 8 := by omega
      have hin' : k - 8 * i < 32 := by omega
      simp [hlo, hhi, hin, hin', Nat.not_lt.mpr hlo]
    · have hout : ¬k - 8 * i < 8 := by omega
      have hnone : b.getLsbD (k - 8 * i) = false := BitVec.getLsbD_of_ge b _ (by omega)
      simp [hhi, hout, hnone]
  · simp [hlo, Nat.lt_of_not_le hlo]

theorem getLsbD_byteOf (hk : k < 8) : (byteOf w i).getLsbD k = w.getLsbD (8 * i + k) := by
  simp [byteOf, BitVec.getLsbD_ushiftRight, hk]

theorem byteOf_withByte (hi : i < 4) : byteOf (withByte w i b) i = b := by
  apply BitVec.eq_of_getLsbD_eq
  intro k hk
  rw [getLsbD_byteOf hk, getLsbD_withByte (by omega), if_pos (by omega),
    Nat.add_sub_cancel_left]

theorem byteOf_withByte_of_ne (hk : k < 4) (hne : k ≠ i) :
    byteOf (withByte w i b) k = byteOf w k := by
  apply BitVec.eq_of_getLsbD_eq
  intro n hn
  rw [getLsbD_byteOf hn, getLsbD_byteOf hn, getLsbD_withByte (by omega), if_neg (by omega)]

/-! ## Bytes of memory -/

/-- The address of the word that the byte at `a` is a part of. -/
def wordOf (a : BitVec 32) : BitVec 32 := a &&& 0xFFFFFFFC#32

/-- The byte at an address. -/
def getByte (m : BitVec 32 → BitVec 32) (a : BitVec 32) : BitVec 8 :=
  byteOf (m (wordOf a)) (a.toNat % 4)

/-- The byte at `a` becomes `b`. -/
def setByte (m : BitVec 32 → BitVec 32) (a : BitVec 32) (b : BitVec 8) : BitVec 32 → BitVec 32 :=
  Function.update m (wordOf a) (withByte (m (wordOf a)) (a.toNat % 4) b)

theorem toNat_wordOf (a : BitVec 32) : (wordOf a).toNat = a.toNat / 4 * 4 := by
  have heq : a &&& 0xFFFFFFFC#32 = (a >>> 2) <<< 2 := by
    ext i hi
    interval_cases i <;> simp
  have hlt := a.isLt
  rw [wordOf, heq, BitVec.toNat_shiftLeft, BitVec.toNat_ushiftRight, Nat.shiftRight_eq_div_pow,
    Nat.shiftLeft_eq, Nat.mod_eq_of_lt]
  omega

/-- The index of that word in its frame. -/
def wordIndex (a : BitVec 32) : BitVec 32 := BitVec.ofNat 32 (a.toNat % 4096 / 4)

theorem toNat_wordIndex (a : BitVec 32) : (wordIndex a).toNat = a.toNat % 4096 / 4 := by
  rw [wordIndex, BitVec.toNat_ofNat]
  omega

theorem wordIndex_lt (a : BitVec 32) : (wordIndex a).toNat < 1024 := by
  rw [toNat_wordIndex]
  omega

theorem wordOf_eq_slot (a : BitVec 32) : wordOf a = slot (frameOf a) (wordIndex a) := by
  apply BitVec.eq_of_toNat_eq
  rw [toNat_wordOf, toNat_slot (isFrame_frameOf a) (wordIndex_lt a), toNat_frameOf,
    toNat_wordIndex]
  omega

theorem setByte_eq_set (m : BitVec 32 → BitVec 32) (a : BitVec 32) (b : BitVec 8) :
    setByte m a b = set m (frameOf a) (wordIndex a) (withByte (m (wordOf a)) (a.toNat % 4) b) := by
  rw [set_eq_update, ← wordOf_eq_slot]
  rfl

@[simp] theorem getByte_setByte (m : BitVec 32 → BitVec 32) (a : BitVec 32) (b : BitVec 8) :
    getByte (setByte m a b) a = b := by
  rw [getByte, setByte, Function.update_self]
  exact byteOf_withByte (Nat.mod_lt _ (by decide))

/-- Another byte is as it was. -/
theorem getByte_setByte_of_ne (hne : a' ≠ a) :
    getByte (setByte m a b) a' = getByte m a' := by
  rw [getByte, getByte, setByte]
  by_cases hword : wordOf a' = wordOf a
  · rw [hword, Function.update_self]
    apply byteOf_withByte_of_ne (Nat.mod_lt _ (by decide))
    intro hsame
    apply hne
    apply BitVec.eq_of_toNat_eq
    have hnat := congrArg BitVec.toNat hword
    rw [toNat_wordOf, toNat_wordOf] at hnat
    omega
  · rw [Function.update_of_ne hword]

/-- So are the words of other frames. -/
theorem setByte_slot (hg : IsFrame g) (hj : j.toNat < 1024) (hne : g ≠ frameOf a) :
    setByte m a b (slot g j) = m (slot g j) := by
  rw [setByte_eq_set]
  exact set_of_frame_ne (isFrame_frameOf a) hg (wordIndex_lt a) hj hne

/-- A byte is in its frame. -/
theorem getByte_congr (h : ∀ j : BitVec 32, j.toNat < 1024 →
    m' (slot (frameOf a) j) = m (slot (frameOf a) j)) : getByte m' a = getByte m a := by
  rw [getByte, getByte, wordOf_eq_slot, h _ (wordIndex_lt a)]

/-! ## Bytes of a frame -/

/-- The byte at an offset in the frame `f`. -/
theorem frameOf_add (hf : IsFrame f) (ho : w.toNat < 4096) : frameOf (f + w) = f := by
  have hle := hf.toNat_add_le
  rw [IsFrame] at hf
  apply BitVec.eq_of_toNat_eq
  rw [toNat_frameOf, BitVec.toNat_add]
  omega

theorem toNat_and_offset (a : BitVec 32) : (a &&& 0xFFF#32).toNat = a.toNat % 4096 := by
  have hmask : (0xFFF#32).toNat = 2 ^ 12 - 1 := by decide
  rw [BitVec.toNat_and, hmask, Nat.and_two_pow_sub_one_eq_mod]

/-- Two addresses in frames are the same when the frames and the offsets are. -/
theorem add_offset_inj (hf : IsFrame f) (hg : IsFrame g)
    (heq : f + (a &&& 0xFFF#32) = g + (a' &&& 0xFFF#32)) :
    f = g ∧ a.toNat % 4096 = a'.toNat % 4096 := by
  have ha := toNat_and_offset a
  have ha' := toNat_and_offset a'
  have hfg : f = g := by
    rw [← frameOf_add hf (w := a &&& 0xFFF#32) (by omega), heq]
    exact frameOf_add hg (by omega)
  refine ⟨hfg, ?_⟩
  rw [hfg] at heq
  rw [← ha, ← ha', BitVec.add_right_inj g |>.mp heq]

theorem frameOf_add_offset (a : BitVec 32) : frameOf a + (a &&& 0xFFF#32) = a := by
  have hlt := a.isLt
  apply BitVec.eq_of_toNat_eq
  rw [BitVec.toNat_add, toNat_frameOf, toNat_and_offset]
  omega

/-! ## A memory from its bytes -/

/-- The memory with the byte `f a` at every address `a`. -/
def ofBytes (f : BitVec 32 → BitVec 8) (a : BitVec 32) : BitVec 32 :=
  f (a + 3) ++ f (a + 2) ++ f (a + 1) ++ f a

theorem byteOf_append (b₀ b₁ b₂ b₃ : BitVec 8) (hi : i < 4) :
    byteOf (b₃ ++ b₂ ++ b₁ ++ b₀) i = if i = 0 then b₀ else if i = 1 then b₁ else
      if i = 2 then b₂ else b₃ := by
  apply BitVec.eq_of_getLsbD_eq
  intro k hk
  rw [getLsbD_byteOf hk]
  simp only [BitVec.getLsbD_append]
  interval_cases i
  · simp [hk]
  · have h1 : ¬8 * 1 + k < 8 := by omega
    have h2 : 8 * 1 + k - 8 = k := by omega
    simp [h1, h2, hk]
  · have h1 : ¬8 * 2 + k < 8 := by omega
    have h2 : ¬8 * 2 + k - 8 < 8 := by omega
    have h3 : 8 * 2 + k - 8 - 8 = k := by omega
    simp [h1, h2, h3, hk]
  · have h1 : ¬8 * 3 + k < 8 := by omega
    have h2 : ¬8 * 3 + k - 8 < 8 := by omega
    have h3 : ¬8 * 3 + k - 8 - 8 < 8 := by omega
    have h4 : 8 * 3 + k - 8 - 8 - 8 = k := by omega
    simp [h1, h2, h3, h4]

@[simp] theorem getByte_ofBytes (f : BitVec 32 → BitVec 8) (a : BitVec 32) :
    getByte (ofBytes f) a = f a := by
  have hword := toNat_wordOf a
  have haddr (n : ℕ) (hn : a.toNat % 4 = n) : wordOf a + BitVec.ofNat 32 n = a := by
    have hlt := a.isLt
    apply BitVec.eq_of_toNat_eq
    rw [BitVec.toNat_add, BitVec.toNat_ofNat, hword]
    omega
  rw [getByte, ofBytes, byteOf_append _ _ _ _ (Nat.mod_lt _ (by decide))]
  split
  · rename_i h0
    have heq := haddr 0 h0
    rw [BitVec.add_zero] at heq
    rw [heq]
  split
  · rename_i h1
    exact congrArg f (haddr 1 h1)
  split
  · rename_i h2
    exact congrArg f (haddr 2 h2)
  · exact congrArg f (haddr 3 (by omega))

end Frames

end Lib
