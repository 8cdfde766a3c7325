import LtMicros.Lib.CStrings
import LtMicros.Kernel

/-!
# Strings of user programs

`StrCmp` and `FirstIndexOf`. Characters are signed. `StrCmp` compares before it looks for the end
of a string, so that the empty string is equal to every other one.
-/

namespace LtMicros

open Lib CString

namespace StdLib

variable {ι : Type}

/-- One turn of the loop of `StrCmp`. -/
def strCmpTurn (str1 str2 : CString ι) (index : ℕ) : Traced ι (ℕ ⊕ ℤ) := do
  let char1 ← str1 index
  if char1 = 0 then return .inr 0
  else do
    let char2 ← str2 index
    if char2 = 0 then return .inr 0
    else if char1.slt char2 then return .inr (-1)
    else if char2.slt char1 then return .inr 1
    else do
      let next1 ← str1 (index + 1)
      let next2 ← str2 (index + 1)
      if next1 = 0 ∧ next2 ≠ 0 then return .inr (-1)
      else if next2 = 0 ∧ next1 ≠ 0 then return .inr 1
      else return .inl (index + 1)

/-- `StrCmp`. -/
def strCmp (fuel : ℕ) (str1 str2 : CString ι) : Traced ι ℤ :=
  Traced.loop (strCmpTurn str1 str2) fuel 0

/-- One turn of the loop of `FirstIndexOf`. -/
def firstIndexOfTurn (str : CString ι) (char : U8) (index : ℕ) : Traced ι (ℕ ⊕ ℤ) := do
  let b ← str index
  if b = 0 then return .inr (-1)
  else if b = char then return .inr index
  else return .inl (index + 1)

/-- `FirstIndexOf`. -/
def firstIndexOf (fuel : ℕ) (str : CString ι) (char : U8) : Traced ι ℤ :=
  Traced.loop (firstIndexOfTurn str char) fuel 0

/-- One turn of the loop with which the kernel reads a string for a system call. -/
def readStringTurn (str : CString ι) (s : List U8) : Traced ι (List U8 ⊕ List U8) := do
  let b ← str s.length
  if b = 0 then return .inr s
  else return .inl (s ++ [b])

/-- A string is read up to its end. -/
def readString (fuel : ℕ) (str : CString ι) : Traced ι (List U8) :=
  Traced.loop (readStringTurn str) fuel []

variable {c : Traced.Contract ι} {str str1 str2 : CString ι} {s s₁ s₂ : List U8} {fuel : ℕ}

/-- The strings agree up to an index, behind which both go on or none does. -/
structure SameUpTo (s₁ s₂ : List U8) (i : ℕ) : Prop where
  left : i ≤ s₁.length
  right : i ≤ s₂.length
  take : s₁.take i = s₂.take i
  ends : 0 < i → (i = s₁.length ↔ i = s₂.length)

/-- At the end of one of the strings. -/
theorem SameUpTo.at_end {i : ℕ} (h : SameUpTo s₁ s₂ i) (hend : i = s₁.length ∨ i = s₂.length) :
    s₁ = s₂ ∨ s₁ = [] ∨ s₂ = [] := by
  rcases Nat.eq_zero_or_pos i with rfl | hpos
  · rcases hend with hend | hend
    · exact .inr (.inl (List.eq_nil_of_length_eq_zero hend.symm))
    · exact .inr (.inr (List.eq_nil_of_length_eq_zero hend.symm))
  · obtain ⟨h₁, h₂⟩ : i = s₁.length ∧ i = s₂.length := by
      have := h.ends hpos
      tauto
    left
    have htake := h.take
    rwa [List.take_of_length_le h₁.ge, List.take_of_length_le h₂.ge] at htake

/-- `StrCmp` finds no difference between equal strings, and none from an empty one. -/
theorem strCmp_meets (h₁ : Holds c str1 s₁) (h₂ : Holds c str2 s₂)
    (hfuel : min s₁.length s₂.length < fuel) :
    Traced.Meets c (strCmp fuel str1 str2) fun r => r = 0 ↔ s₁ = s₂ ∨ s₁ = [] ∨ s₂ = [] := by
  refine Traced.Meets.loop (I := SameUpTo s₁ s₂) (fun i => min s₁.length s₂.length - i) ?_
    ⟨Nat.zero_le _, Nat.zero_le _, rfl, fun h => absurd h (Nat.lt_irrefl 0)⟩ (by omega)
  intro i hi
  rw [strCmpTurn]
  refine (h₁.reads i hi.left).bind fun b₁ hb₁ => ?_
  split
  · rename_i hzero
    rw [hb₁, h₁.getD_eq_zero hi.left] at hzero
    exact Traced.Meets.pure ⟨nofun, fun r hr => by
      cases hr
      simpa using hi.at_end (.inl hzero)⟩
  rename_i hne₁
  refine (h₂.reads i hi.right).bind fun b₂ hb₂ => ?_
  split
  · rename_i hzero
    rw [hb₂, h₂.getD_eq_zero hi.right] at hzero
    exact Traced.Meets.pure ⟨nofun, fun r hr => by
      cases hr
      simpa using hi.at_end (.inr hzero)⟩
  rename_i hne₂
  have hlt₁ : i < s₁.length := Nat.lt_of_le_of_ne hi.left fun h =>
    hne₁ (hb₁.trans ((h₁.getD_eq_zero hi.left).mpr h))
  have hlt₂ : i < s₂.length := Nat.lt_of_le_of_ne hi.right fun h =>
    hne₂ (hb₂.trans ((h₂.getD_eq_zero hi.right).mpr h))
  -- a difference is found in two strings that both go on
  have hdiffer {z : ℤ} (hz : z ≠ 0) (hne : s₁ ≠ s₂) :
      Traced.Meets c (pure (.inr z)) fun r : ℕ ⊕ ℤ =>
        (∀ i', r = .inl i' → SameUpTo s₁ s₂ i' ∧
            min s₁.length s₂.length - i' < min s₁.length s₂.length - i) ∧
          ∀ z, r = .inr z → (z = 0 ↔ s₁ = s₂ ∨ s₁ = [] ∨ s₂ = []) := by
    refine Traced.Meets.pure ⟨nofun, fun r hr => ?_⟩
    cases hr
    refine iff_of_false hz ?_
    rintro (heq | rfl | rfl)
    · exact hne heq
    · exact absurd hlt₁ (Nat.not_lt_zero i)
    · exact absurd hlt₂ (Nat.not_lt_zero i)
  by_cases hb : b₁ = b₂
  swap
  · have hne : s₁ ≠ s₂ := fun h => hb (by rw [hb₁, hb₂, h])
    split
    · exact hdiffer (by decide) hne
    · split
      · exact hdiffer (by decide) hne
      · rename_i hle hge
        rcases b₁.slt_trichotomy b₂ with hlt | heq | hgt
        · exact absurd hlt hle
        · exact absurd heq hb
        · exact absurd hgt hge
  have hirrefl : ¬b₂.slt b₂ := fun h => Int.lt_irrefl _ (BitVec.slt_iff_toInt_lt.mp h)
  rw [hb, if_neg hirrefl, if_neg hirrefl]
  refine (h₁.reads (i + 1) hlt₁).bind fun n₁ hn₁ => ?_
  refine (h₂.reads (i + 1) hlt₂).bind fun n₂ hn₂ => ?_
  have hend₁ : n₁ = 0 ↔ i + 1 = s₁.length := hn₁ ▸ h₁.getD_eq_zero hlt₁
  have hend₂ : n₂ = 0 ↔ i + 1 = s₂.length := hn₂ ▸ h₂.getD_eq_zero hlt₂
  split
  · rename_i hends
    rw [hend₁, ne_eq, hend₂] at hends
    exact hdiffer (by decide) fun h => hends.2 (h ▸ hends.1)
  · rename_i hgo₁
    rw [hend₁, ne_eq, hend₂] at hgo₁
    split
    · rename_i hends
      rw [hend₂, ne_eq, hend₁] at hends
      exact hdiffer (by decide) fun h => hends.2 (h ▸ hends.1)
    · rename_i hgo₂
      rw [hend₂, ne_eq, hend₁] at hgo₂
      refine Traced.Meets.pure ⟨fun i' hi' => ?_, nofun⟩
      cases hi'
      refine ⟨⟨hlt₁, hlt₂, ?_, fun _ => by tauto⟩, by omega⟩
      rw [List.take_succ_eq_append_getElem hlt₁, List.take_succ_eq_append_getElem hlt₂, hi.take,
        ← List.getD_eq_getElem _ 0 hlt₁, ← List.getD_eq_getElem _ 0 hlt₂, ← hb₁, ← hb₂, hb]

theorem firstIndexOf_meets {char : U8} (h : Holds c str s) (hfuel : s.length < fuel) :
    Traced.Meets c (firstIndexOf fuel str char) fun r =>
      (r = -1 ∧ char ∉ s) ∨ ∃ before behind, s = before ++ char :: behind ∧ char ∉ before ∧
        r = before.length := by
  refine Traced.Meets.loop (I := fun i => i ≤ s.length ∧ char ∉ s.take i) (fun i => s.length - i) ?_
    ⟨Nat.zero_le _, by simp⟩ (by omega)
  rintro i ⟨hi, hnot⟩
  rw [firstIndexOfTurn]
  refine (h.reads i hi).bind fun b hb => ?_
  split
  · rename_i hzero
    rw [hb, h.getD_eq_zero hi] at hzero
    refine Traced.Meets.pure ⟨nofun, fun r hr => ?_⟩
    cases hr
    left
    exact ⟨rfl, by simpa [hzero] using hnot⟩
  rename_i hne
  have hlt : i < s.length := Nat.lt_of_le_of_ne hi fun heq =>
    hne (hb.trans ((h.getD_eq_zero hi).mpr heq))
  rw [List.getD_eq_getElem _ _ hlt] at hb
  split
  · rename_i hchar
    refine Traced.Meets.pure ⟨nofun, fun r hr => ?_⟩
    cases hr
    right
    refine ⟨s.take i, s.drop (i + 1), ?_, hnot, by simp [hi]⟩
    rw [← hchar, hb, ← List.drop_eq_getElem_cons hlt, List.take_append_drop]
  · rename_i hchar
    refine Traced.Meets.pure ⟨fun i' hi' => ?_, nofun⟩
    cases hi'
    refine ⟨⟨hlt, ?_⟩, by omega⟩
    rw [List.take_succ_eq_append_getElem hlt, List.mem_append, List.mem_singleton, ← hb]
    rintro (hmem | heq)
    · exact hnot hmem
    · exact hchar heq.symm

theorem readString_meets (h : Holds c str s) (hfuel : s.length < fuel) :
    Traced.Meets c (readString fuel str) fun r => r = s := by
  refine Traced.Meets.loop (I := fun t => t <+: s) (fun t => s.length - t.length) ?_
    (List.nil_prefix) (by simpa using hfuel)
  intro t ht
  have hle := ht.length_le
  rw [readStringTurn]
  refine (h.reads t.length hle).bind fun b hb => ?_
  split
  · rename_i hzero
    rw [hb, h.getD_eq_zero hle] at hzero
    refine Traced.Meets.pure ⟨nofun, fun r hr => ?_⟩
    cases hr
    exact ht.eq_of_length hzero
  · rename_i hne
    have hlt : t.length < s.length := Nat.lt_of_le_of_ne hle fun heq =>
      hne (hb.trans ((h.getD_eq_zero hle).mpr heq))
    refine Traced.Meets.pure ⟨fun t' ht' => ?_, nofun⟩
    cases ht'
    rw [List.getD_eq_getElem _ _ hlt] at hb
    obtain ⟨rest, rfl⟩ := ht
    have hrest : rest ≠ [] := fun hnil => by simp [hnil] at hlt
    obtain ⟨b', rest, rfl⟩ := List.exists_cons_of_ne_nil hrest
    refine ⟨⟨rest, by simp [hb]⟩, ?_⟩
    simp only [List.length_append, List.length_cons, List.length_nil]
    omega

end StdLib

end LtMicros
