import Mathlib.Data.List.Lex
import LtMicros.IpcRegistry
import LtMicros.UserStrings

/-!
# The order of strings

The kernel and the user programs have the same text of `StrCmp`. Where both strings are empty or
neither is, it tells which of them is the smaller one in the order of words over the signed
characters. It reads a character ahead, but not behind the end of a string.
-/

namespace LtMicros

open Lib CString

/-- The characters of a string, which are signed. -/
def chars (s : List U8) : List ℤ := s.map BitVec.toInt

/-- What `StrCmp` should answer: its sign tells the order of the strings. -/
structure TellsOrder (s t : List U8) (r : ℤ) : Prop where
  equal : r = 0 ↔ s = t
  smaller : r = -1 ↔ chars s < chars t
  greater : r = 1 ↔ chars t < chars s

theorem chars_injective : Function.Injective chars :=
  List.map_injective_iff.mpr fun _ _ => BitVec.eq_of_toInt_eq

/-- The order of strings as a number. -/
def orderOf (s t : List U8) : ℤ :=
  if chars s < chars t then -1 else if chars t < chars s then 1 else 0

theorem orderOf_tells (s t : List U8) : TellsOrder s t (orderOf s t) := by
  rw [orderOf]
  rcases lt_trichotomy (chars s) (chars t) with hlt | heq | hgt
  · have hne : s ≠ t := fun h => hlt.ne (congrArg chars h)
    rw [if_pos hlt]
    exact ⟨iff_of_false (by decide) hne, iff_of_true rfl hlt, iff_of_false (by decide) hlt.not_gt⟩
  · have hst : s = t := chars_injective heq
    rw [if_neg heq.not_lt, if_neg heq.not_gt]
    exact ⟨iff_of_true rfl hst, iff_of_false (by decide) heq.not_lt,
      iff_of_false (by decide) heq.not_gt⟩
  · have hne : s ≠ t := fun h => hgt.ne' (congrArg chars h)
    rw [if_neg hgt.not_gt, if_pos hgt]
    exact ⟨iff_of_false (by decide) hne, iff_of_false (by decide) hgt.not_gt, iff_of_true rfl hgt⟩

theorem orderOf_neg (s t : List U8) : orderOf t s = -orderOf s t := by
  rcases lt_trichotomy (chars s) (chars t) with hlt | heq | hgt
  · simp [orderOf, hlt, hlt.not_gt]
  · simp [orderOf, heq]
  · simp [orderOf, hgt, hgt.not_gt]

theorem orderOf_self (s : List U8) : orderOf s s = 0 := by
  simp [orderOf]

theorem chars_cons_lt_cons (c : U8) (s t : List U8) :
    chars (c :: s) < chars (c :: t) ↔ chars s < chars t := by
  simp only [chars, List.map_cons, List.cons_lt_cons_iff, lt_irrefl, true_and, false_or]

/-- Strings that begin with the same character. -/
theorem orderOf_cons (c : U8) (s t : List U8) : orderOf (c :: s) (c :: t) = orderOf s t :=
  if_congr (chars_cons_lt_cons c s t) rfl (if_congr (chars_cons_lt_cons c t s) rfl rfl)

/-- A proper prefix is smaller. -/
theorem orderOf_nil_cons (c : U8) (s : List U8) : orderOf [] (c :: s) = -1 :=
  if_pos (List.nil_lt_cons _ _)

/-- `StrCmp` tells the order of two strings unless one of them only is empty. -/
theorem strCmp_eq_orderOf {s t : List U8} (h : s = [] ↔ t = []) : strCmp s t = orderOf s t := by
  induction s generalizing t with
  | nil =>
    obtain rfl := h.mp rfl
    rw [strCmp_nil_left, orderOf_self]
  | cons c s ih =>
    cases t with
    | nil => exact absurd (h.mpr rfl) (List.cons_ne_nil c s)
    | cons d t =>
      rw [strCmp]
      split_ifs with hlt hgt hs ht
      · have hless : chars (c :: s) < chars (d :: t) :=
          List.cons_lt_cons_iff.mpr (.inl (BitVec.slt_iff_toInt_lt.mp hlt))
        rw [orderOf, if_pos hless]
      · have hless : chars (d :: t) < chars (c :: s) :=
          List.cons_lt_cons_iff.mpr (.inl (BitVec.slt_iff_toInt_lt.mp hgt))
        rw [orderOf, if_neg hless.not_gt, if_pos hless]
      · -- the first string is a proper prefix of the second one
        obtain rfl := U8.eq_of_not_slt hlt hgt
        obtain ⟨rfl, ht⟩ := hs
        obtain ⟨d, t, rfl⟩ := List.exists_cons_of_ne_nil ht
        rw [orderOf_cons, orderOf_nil_cons]
      · obtain rfl := U8.eq_of_not_slt hlt hgt
        obtain ⟨rfl, hne⟩ := ht
        obtain ⟨d, s, rfl⟩ := List.exists_cons_of_ne_nil hne
        rw [orderOf_cons, orderOf_neg, orderOf_nil_cons]
        rfl
      · obtain rfl := U8.eq_of_not_slt hlt hgt
        rw [orderOf_cons]
        exact ih (by tauto)

/-! ## Reading the strings -/

namespace StdLib

section

variable {ι : Type} {c : Traced.Contract ι} {str str1 str2 : CString ι} {s s₁ s₂ : List U8}
  {b : U8} {i fuel : ℕ}

/-- A string from an index on. -/
def dropped (str : CString ι) (i : ℕ) : CString ι := fun j => str (i + j)

theorem holds_dropped (h : Holds c (dropped str i) (b :: s)) : Holds c (dropped str (i + 1)) s where
  ne_zero b' hb' := h.ne_zero b' (List.mem_cons_of_mem b hb')
  reads j hj := by
    have hread := h.reads (j + 1) (Nat.succ_le_succ hj)
    rw [dropped, ← Nat.add_assoc, Nat.add_right_comm] at hread
    exact hread

theorem reads_zero (h : Holds c (dropped str i) []) : Traced.Meets c (str i) fun b => b = 0 :=
  h.reads 0 (Nat.le_refl 0)

theorem reads_cons (h : Holds c (dropped str i) (b :: s)) :
    Traced.Meets c (str i) fun b' => b' = b :=
  h.reads 0 (Nat.zero_le _)

theorem reads_next (h : Holds c (dropped str i) (b :: s)) :
    Traced.Meets c (str (i + 1)) fun b' => b' = 0 ↔ s = [] := by
  have hrest := holds_dropped h
  refine (hrest.reads 0 (Nat.zero_le _)).mono fun b' hb' => ?_
  rw [hb', hrest.getD_eq_zero (Nat.zero_le _), eq_comm, List.length_eq_zero_iff]

/-- The loop of `StrCmp` from any index on. -/
theorem strCmpLoop_meets (h₁ : Holds c (dropped str1 i) s₁) (h₂ : Holds c (dropped str2 i) s₂)
    (hfuel : min s₁.length s₂.length < fuel) :
    Traced.Meets c (Traced.loop (strCmpTurn str1 str2) fuel i) fun r =>
      r = LtMicros.strCmp s₁ s₂ := by
  induction s₁ generalizing s₂ i fuel with
  | nil =>
    obtain ⟨fuel, rfl⟩ : ∃ k, fuel = k + 1 := ⟨fuel - 1, by omega⟩
    have hturn : Traced.Meets c (strCmpTurn str1 str2 i) fun r => r = .inr 0 := by
      refine (reads_zero h₁).bind fun b₁ hb₁ => ?_
      rw [if_pos hb₁]
      exact Traced.Meets.pure rfl
    refine hturn.bind fun r hr => ?_
    rw [hr, strCmp_nil_left]
    exact Traced.Meets.pure rfl
  | cons c₁ s₁ ih =>
    obtain ⟨fuel, rfl⟩ : ∃ k, fuel = k + 1 := ⟨fuel - 1, by omega⟩
    have hne₁ : c₁ ≠ 0 := h₁.ne_zero c₁ List.mem_cons_self
    cases s₂ with
    | nil =>
      have hturn : Traced.Meets c (strCmpTurn str1 str2 i) fun r => r = .inr 0 := by
        refine (reads_cons h₁).bind fun b₁ hb₁ => ?_
        rw [hb₁, if_neg hne₁]
        refine (reads_zero h₂).bind fun b₂ hb₂ => ?_
        rw [if_pos hb₂]
        exact Traced.Meets.pure rfl
      refine hturn.bind fun r hr => ?_
      rw [hr, strCmp_nil_right]
      exact Traced.Meets.pure rfl
    | cons c₂ s₂ =>
      have hne₂ : c₂ ≠ 0 := h₂.ne_zero c₂ List.mem_cons_self
      have hturn : Traced.Meets c (strCmpTurn str1 str2 i) fun r => r =
          if c₁.slt c₂ then .inr (-1) else if c₂.slt c₁ then .inr 1
          else if s₁ = [] ∧ s₂ ≠ [] then .inr (-1) else if s₂ = [] ∧ s₁ ≠ [] then .inr 1
          else .inl (i + 1) := by
        refine (reads_cons h₁).bind fun b₁ hb₁ => ?_
        rw [hb₁, if_neg hne₁]
        refine (reads_cons h₂).bind fun b₂ hb₂ => ?_
        rw [hb₂, if_neg hne₂]
        split
        · exact Traced.Meets.pure rfl
        · split
          · exact Traced.Meets.pure rfl
          · -- both characters are there, so that the next ones may be read
            refine (reads_next h₁).bind fun n₁ hn₁ => (reads_next h₂).bind fun n₂ hn₂ => ?_
            simp only [ne_eq, hn₁, hn₂]
            split
            · exact Traced.Meets.pure rfl
            · split
              · exact Traced.Meets.pure rfl
              · exact Traced.Meets.pure rfl
      refine hturn.bind fun r hr => ?_
      rw [hr, LtMicros.strCmp]
      split_ifs
      · exact Traced.Meets.pure rfl
      · exact Traced.Meets.pure rfl
      · exact Traced.Meets.pure rfl
      · exact Traced.Meets.pure rfl
      · refine ih (holds_dropped h₁) (holds_dropped h₂) ?_
        simp only [List.length_cons] at hfuel
        omega

/-- `StrCmp` as a function of the strings. -/
theorem strCmp_gives (h₁ : Holds c str1 s₁) (h₂ : Holds c str2 s₂)
    (hfuel : min s₁.length s₂.length < fuel) :
    Traced.Meets c (strCmp fuel str1 str2) fun r => r = LtMicros.strCmp s₁ s₂ := by
  have hdropped (str : CString ι) : dropped str 0 = str :=
    funext fun j => by rw [dropped, Nat.zero_add]
  apply strCmpLoop_meets
  · rwa [hdropped]
  · rwa [hdropped]
  · exact hfuel

end

/-! ## Strings in memory -/

/-- A character of one of the strings is read. -/
inductive StrRead where
  | str1 (index : ℕ)
  | str2 (index : ℕ)

/-- The character is not behind the end of its string. -/
def StrRead.Within (s t : List U8) : StrRead → Prop
  | str1 index => index ≤ s.length
  | str2 index => index ≤ t.length

/-- The bytes behind a pointer begin with a string and a zero byte. What is behind that is not
known. -/
structure Terminated (bytes : ℕ → U8) (s : List U8) : Prop where
  ne_zero : ∀ b ∈ s, b ≠ 0
  bytes : ∀ i ≤ s.length, bytes i = s.getD i 0

/-- The bytes behind a pointer, each of which is noted when it is read. -/
def noted (event : ℕ → StrRead) (bytes : ℕ → U8) : CString StrRead := fun i => do
  Traced.note (event i)
  return bytes i

/-- `StrCmp` of two pointers, with `none` for the null pointer. -/
def strCmpOfPointers (fuel : ℕ) : Option (ℕ → U8) → Option (ℕ → U8) → Traced StrRead ℤ
  | some bytes1, some bytes2 => strCmp fuel (noted .str1 bytes1) (noted .str2 bytes2)
  | _, _ => pure (-2)

/-- `StrCmp` orders two strings: it tells which is the smaller one, answers the contrary when they
are exchanged, and does not read behind the end of a string. -/
def Orders (fuel : ℕ) (bytes1 bytes2 : ℕ → U8) (s t : List U8) : Prop :=
  Traced.Yields (StrRead.Within s t) (strCmpOfPointers fuel (some bytes1) (some bytes2)) fun r =>
    TellsOrder s t r ∧
      Traced.Yields (StrRead.Within t s) (strCmpOfPointers fuel (some bytes2) (some bytes1))
        (· = -r)

/-- Only characters of the strings and their zero bytes are read. -/
def within (s t : List U8) : Traced.Contract StrRead where
  ok := StrRead.Within s t
  stop _ := False

variable {bytes1 bytes2 : ℕ → U8} {s t : List U8} {fuel : ℕ}

theorem Terminated.holds {c : Traced.Contract StrRead} {event : ℕ → StrRead}
    (h : Terminated bytes1 s) (hevent : ∀ i ≤ s.length, c.ok (event i)) :
    Holds c (noted event bytes1) s := by
  refine ⟨h.ne_zero, fun i hi => ?_⟩
  have hnote : Traced.Meets c (Traced.note (event i)) fun _ => True := .note (hevent i hi) trivial
  exact hnote.bind fun _ _ => Traced.Meets.pure (h.bytes i hi)

theorem strCmpOfPointers_yields (h₁ : Terminated bytes1 s) (h₂ : Terminated bytes2 t)
    (hfuel : min s.length t.length < fuel) :
    Traced.Yields (StrRead.Within s t) (strCmpOfPointers fuel (some bytes1) (some bytes2))
      (· = LtMicros.strCmp s t) := by
  have hholds₁ : Holds (within s t) (noted .str1 bytes1) s := h₁.holds fun _ => id
  have hholds₂ : Holds (within s t) (noted .str2 bytes2) t := h₂.holds fun _ => id
  exact (strCmp_gives hholds₁ hholds₂ hfuel).yields fun _ => id

/-- `StrCmp` orders two strings if and only if they are both empty or both not. -/
theorem strCmp_orders_iff (h₁ : Terminated bytes1 s) (h₂ : Terminated bytes2 t)
    (hfuel : min s.length t.length < fuel) :
    Orders fuel bytes1 bytes2 s t ↔ (s = [] ↔ t = []) := by
  obtain ⟨r, hret, hreads, rfl⟩ := strCmpOfPointers_yields h₁ h₂ hfuel
  constructor
  · rintro ⟨r, hret', -, htells, -⟩
    cases hret.symm.trans hret'
    -- the answer is 0 when one of the strings is empty
    have hequal : s = [] ∨ t = [] → s = t := fun hempty =>
      htells.equal.mp ((strCmp_eq_zero_iff s t).mpr (.inr hempty))
    constructor
    · exact fun hs => (hequal (.inl hs)).symm.trans hs
    · exact fun ht => (hequal (.inr ht)).trans ht
  · intro hempty
    refine ⟨_, hret, hreads, ?_, ?_⟩
    · rw [strCmp_eq_orderOf hempty]
      exact orderOf_tells s t
    · rw [strCmp_eq_orderOf hempty, ← orderOf_neg, ← strCmp_eq_orderOf hempty.symm]
      exact strCmpOfPointers_yields h₂ h₁ (by rwa [min_comm])

/-- The bytes of a string, and zero bytes behind them. -/
def bytesOf (s : List U8) (i : ℕ) : U8 := s.getD i 0

theorem bytesOf_terminated (h : 0 ∉ s) : Terminated (bytesOf s) s :=
  ⟨fun _ hb hzero => h (hzero ▸ hb), fun _ _ => rfl⟩

/-- The empty string is not told from the string of one character. -/
theorem not_orders_empty :
    Terminated (bytesOf []) [] ∧ Terminated (bytesOf [97]) [97] ∧
      (strCmpOfPointers 1 (some (bytesOf [])) (some (bytesOf [97]))).outcome = .ret 0 ∧
      ¬Orders 1 (bytesOf []) (bytesOf [97]) [] [97] := by
  refine ⟨bytesOf_terminated (by decide), bytesOf_terminated (by decide), rfl, ?_⟩
  rintro ⟨r, hret, -, htells, -⟩
  cases hret
  exact absurd (htells.equal.mp rfl) (by decide)

/-- Strings with the same beginning, of which one ends before the other does. -/
theorem orders_abc :
    Orders 8 (bytesOf [97, 98]) (bytesOf [97, 98, 99]) [97, 98] [97, 98, 99] ∧
      Orders 8 (bytesOf [97, 200, 99]) (bytesOf [97, 98]) [97, 200, 99] [97, 98] :=
  ⟨(strCmp_orders_iff (bytesOf_terminated (by decide)) (bytesOf_terminated (by decide))
      (by decide)).mpr (by decide),
    (strCmp_orders_iff (bytesOf_terminated (by decide)) (bytesOf_terminated (by decide))
      (by decide)).mpr (by decide)⟩

end StdLib

end LtMicros
