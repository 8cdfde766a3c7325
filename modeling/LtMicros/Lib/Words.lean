import LtMicros.Lib.Bytes

/-!
# Words in byte memory

A list of 32-bit words at consecutive addresses: the arguments of a call, or the
contents of a stack that grows down.
-/

namespace Lib

namespace Bytes

variable {m m' : Bytes} {a b x i : ℕ} {w : BitVec 32} {ws ws' : List (BitVec 32)}

/-- The words are in memory from `a` on. -/
def Words (m : Bytes) (a : ℕ) : List (BitVec 32) → Prop
  | [] => True
  | w :: ws => load32 m a = w.toNat ∧ Words m (a + 4) ws

@[simp] theorem words_nil : Words m a [] := trivial

@[simp] theorem words_cons : Words m a (w :: ws) ↔ load32 m a = w.toNat ∧ Words m (a + 4) ws :=
  Iff.rfl

theorem Words.congr (h : Words m a ws) (hm : ∀ x, a ≤ x → x < a + 4 * ws.length → m x = m' x) :
    Words m' a ws := by
  induction ws generalizing a with
  | nil => trivial
  | cons w ws ih =>
    obtain ⟨hw, hws⟩ := h
    rw [List.length_cons] at hm
    refine ⟨?_, ih hws fun x h₁ h₂ => hm x (by omega) (by omega)⟩
    rw [← hw]
    exact (load32_congr fun x h₁ h₂ => hm x h₁ (by omega)).symm

/-- A word that is written below them is one more. -/
theorem Words.store (h : Words m (a + 4) ws) (w : BitVec 32) :
    Words (store32 m a w.toNat) a (w :: ws) := by
  refine ⟨?_, h.congr fun x hx _ => (store32_of_not_mem (.inr hx)).symm⟩
  rw [load32_store32]
  exact Nat.mod_eq_of_lt w.isLt

/-- A word that is written elsewhere does not change them. -/
theorem Words.store_of_apart (h : Words m b ws) (hapart : a + 4 ≤ b ∨ b + 4 * ws.length ≤ a)
    (n : ℕ) : Words (store32 m a n) b ws :=
  h.congr fun _ _ _ => (store32_of_not_mem (by omega)).symm

/-- The words are written from `a` on. -/
def storeWords (m : Bytes) (a : ℕ) : List (BitVec 32) → Bytes
  | [] => m
  | w :: ws => store32 (storeWords m (a + 4) ws) a w.toNat

theorem words_storeWords (m : Bytes) (a : ℕ) (ws : List (BitVec 32)) :
    Words (storeWords m a ws) a ws := by
  induction ws generalizing a with
  | nil => trivial
  | cons w ws ih => exact (ih (a + 4)).store w

theorem storeWords_of_not_mem (h : x < a ∨ a + 4 * ws.length ≤ x) : storeWords m a ws x = m x := by
  induction ws generalizing a with
  | nil => rfl
  | cons w ws ih =>
    rw [List.length_cons] at h
    rw [storeWords, store32_of_not_mem (by omega), ih (by omega)]

theorem Words.load (h : Words m a ws) (hi : i < ws.length) :
    load32 m (a + 4 * i) = ws[i].toNat := by
  induction ws generalizing a i with
  | nil => exact absurd hi (Nat.not_lt_zero i)
  | cons w ws ih =>
    cases i with
    | zero => exact h.1
    | succ i =>
      rw [show a + 4 * (i + 1) = a + 4 + 4 * i by omega]
      exact ih h.2 (Nat.lt_of_succ_lt_succ hi)

end Bytes

end Lib
