import Mathlib.Data.List.GetD
import Mathlib.Data.List.TakeWhile
import LtMicros.Lib.Traced

/-!
# Strings that end with a zero byte

A string is read byte by byte, and reading a byte may leave a trace. `Holds c str s` says that
`s` is what is read from `str` before the first zero byte, and that reading it, the zero byte
included, keeps the contract.
-/

namespace Lib

/-- What reading the bytes of a string does. -/
abbrev CString (ι : Type) := ℕ → Traced ι (BitVec 8)

/-- The bytes before the first zero byte. -/
def upToZero (bytes : List (BitVec 8)) : List (BitVec 8) := bytes.takeWhile (· ≠ 0)

namespace CString

variable {ι : Type} {c : Traced.Contract ι} {str : CString ι} {s bytes : List (BitVec 8)} {i : ℕ}

/-- A string in memory of its own, with a zero byte at the end. -/
def own (bytes : List (BitVec 8)) : CString ι := fun i => pure (bytes.getD i 0)

structure Holds (c : Traced.Contract ι) (str : CString ι) (s : List (BitVec 8)) : Prop where
  ne_zero : ∀ b ∈ s, b ≠ 0
  reads : ∀ i ≤ s.length, Traced.Meets c (str i) fun b => b = s.getD i 0

theorem ne_zero_of_mem_upToZero {b : BitVec 8} (h : b ∈ upToZero bytes) : b ≠ 0 := by
  simpa using List.mem_takeWhile_imp h

theorem getD_upToZero (hi : i ≤ (upToZero bytes).length) :
    bytes.getD i 0 = (upToZero bytes).getD i 0 := by
  induction bytes generalizing i with
  | nil => rfl
  | cons b bytes ih =>
    by_cases hb : b = 0
    · have hnil : upToZero (b :: bytes) = [] := by simp [upToZero, hb]
      rw [hnil] at hi ⊢
      obtain rfl : i = 0 := by simpa using hi
      simpa using hb
    · have hcons : upToZero (b :: bytes) = b :: upToZero bytes :=
        List.takeWhile_cons_of_pos (by simpa using hb)
      rw [hcons] at hi ⊢
      cases i with
      | zero => rfl
      | succ i => simpa using ih (by simpa using hi)

theorem holds_own (bytes : List (BitVec 8)) : Holds c (own bytes) (upToZero bytes) where
  ne_zero _ := ne_zero_of_mem_upToZero
  reads _ hi := Traced.Meets.pure (getD_upToZero hi)

/-- The zero byte is behind the string. -/
theorem Holds.getD_eq_zero (h : Holds c str s) (hi : i ≤ s.length) :
    s.getD i 0 = 0 ↔ i = s.length := by
  constructor
  · intro hzero
    by_contra hne
    have hlt : i < s.length := Nat.lt_of_le_of_ne hi hne
    rw [List.getD_eq_getElem _ _ hlt] at hzero
    exact h.ne_zero _ (List.getElem_mem hlt) hzero
  · rintro rfl
    simp

end CString

end Lib
