import Mathlib.Order.Nat
import Mathlib.Data.List.Basic
import Mathlib.Tactic.Common

/-!
# Tilings of an interval

`Tiles base limit lo l hi`: the pieces of `l`, taken in order, are the half-open
intervals `[base a, limit a)`, none of them empty, each starting where the one
before it ends; together they are exactly `[lo, hi)`.
-/

namespace Lib

variable {α : Type*}

def Tiles (base limit : α → ℕ) : ℕ → List α → ℕ → Prop
  | lo, [], hi => lo = hi
  | lo, a :: l, hi => base a = lo ∧ base a < limit a ∧ Tiles base limit (limit a) l hi

namespace Tiles

variable {base limit base' limit' : α → ℕ} {lo hi x : ℕ} {l l' : List α} {a b : α}

@[simp] theorem nil_iff : Tiles base limit lo [] hi ↔ lo = hi := Iff.rfl

@[simp] theorem cons_iff : Tiles base limit lo (a :: l) hi ↔
    base a = lo ∧ base a < limit a ∧ Tiles base limit (limit a) l hi := Iff.rfl

theorem append_iff : Tiles base limit lo (l ++ l') hi ↔
    ∃ mid, Tiles base limit lo l mid ∧ Tiles base limit mid l' hi := by
  induction l generalizing lo with
  | nil => simp
  | cons a l ih => simp [ih, and_assoc]

/-- A tiling seen from one of its pieces. -/
theorem mid_iff : Tiles base limit lo (l ++ a :: l') hi ↔
    Tiles base limit lo l (base a) ∧ base a < limit a ∧ Tiles base limit (limit a) l' hi := by
  rw [append_iff]
  constructor
  · rintro ⟨mid, hl, rfl, ha, hl'⟩
    exact ⟨hl, ha, hl'⟩
  · rintro ⟨hl, ha, hl'⟩
    exact ⟨_, hl, rfl, ha, hl'⟩

/-- Frame rule: only the ends of the pieces in the list matter. -/
theorem congr (hb : ∀ a ∈ l, base a = base' a) (hl : ∀ a ∈ l, limit a = limit' a) :
    Tiles base limit lo l hi ↔ Tiles base' limit' lo l hi := by
  induction l generalizing lo with
  | nil => simp
  | cons a l ih =>
    rw [cons_iff, cons_iff, hb a List.mem_cons_self, hl a List.mem_cons_self,
      ih (fun b h => hb b (List.mem_cons_of_mem _ h))
        fun b h => hl b (List.mem_cons_of_mem _ h)]

theorem le (h : Tiles base limit lo l hi) : lo ≤ hi := by
  induction l generalizing lo with
  | nil => exact Nat.le_of_eq h
  | cons a l ih =>
    have := ih h.2.2
    have := h.1
    have := h.2.1
    omega

/-- The pieces are determined by both ends, when no two pieces start at the same place. -/
theorem unique (hbase : Function.Injective base) (h : Tiles base limit lo l hi)
    (h' : Tiles base limit lo l' hi) : l = l' := by
  induction l generalizing lo l' with
  | nil =>
    cases l' with
    | nil => rfl
    | cons b l' =>
      have hlt := h'.2.1
      have hle := h'.2.2.le
      have hlo : base b = hi := h'.1.trans h
      omega
  | cons a l ih =>
    cases l' with
    | nil =>
      have hlt := h.2.1
      have hle := h.2.2.le
      have hlo : base a = hi := h.1.trans h'
      omega
    | cons b l' =>
      obtain rfl : a = b := hbase (h.1.trans h'.1.symm)
      rw [ih h.2.2 h'.2.2]

/-- Every piece is a non-empty part of the tiled interval. -/
theorem mem_bounds (h : Tiles base limit lo l hi) (ha : a ∈ l) :
    lo ≤ base a ∧ base a < limit a ∧ limit a ≤ hi := by
  obtain ⟨l₁, l₂, rfl⟩ := List.append_of_mem ha
  obtain ⟨h1, h2, h3⟩ := mid_iff.mp h
  exact ⟨h1.le, h2, h3.le⟩

/-- Every point of the interval lies in a piece. -/
theorem exists_mem (h : Tiles base limit lo l hi) (hlo : lo ≤ x) (hhi : x < hi) :
    ∃ a ∈ l, base a ≤ x ∧ x < limit a := by
  induction l generalizing lo with
  | nil =>
    have : lo = hi := h
    omega
  | cons a l ih =>
    by_cases hx : x < limit a
    · exact ⟨a, List.mem_cons_self, (Nat.le_of_eq h.1).trans hlo, hx⟩
    · obtain ⟨b, hb, hbx⟩ := ih h.2.2 (Nat.le_of_not_lt hx)
      exact ⟨b, List.mem_cons_of_mem _ hb, hbx⟩

/-- Two pieces with a common point are the same piece. -/
theorem eq_of_common (h : Tiles base limit lo l hi) (ha : a ∈ l) (hb : b ∈ l)
    (hax : base a ≤ x ∧ x < limit a) (hbx : base b ≤ x ∧ x < limit b) : a = b := by
  obtain ⟨l₁, l₂, rfl⟩ := List.append_of_mem ha
  obtain ⟨h1, -, h3⟩ := mid_iff.mp h
  rcases List.mem_append.mp hb with hb | hb
  · have := (mem_bounds h1 hb).2.2
    omega
  · rcases List.mem_cons.mp hb with rfl | hb
    · rfl
    · have := (mem_bounds h3 hb).1
      omega

/-- Different pieces do not overlap. -/
theorem disjoint (h : Tiles base limit lo l hi) (ha : a ∈ l) (hb : b ∈ l) (hne : a ≠ b) :
    limit a ≤ base b ∨ limit b ≤ base a := by
  have hpa := (h.mem_bounds ha).2.1
  have hpb := (h.mem_bounds hb).2.1
  by_contra hno
  obtain ⟨h1, h2⟩ := not_or.mp hno
  rcases Nat.le_total (base a) (base b) with hle | hle
  · exact hne (h.eq_of_common ha hb (x := base b) ⟨hle, by omega⟩ ⟨Nat.le_refl _, hpb⟩)
  · exact hne (h.eq_of_common ha hb (x := base a) ⟨Nat.le_refl _, hpa⟩ ⟨hle, by omega⟩)

/-- Where a piece ends, the next one begins, or the tiling ends. -/
theorem next (h : Tiles base limit lo l hi) (ha : a ∈ l) :
    (∃ b ∈ l, base b = limit a) ∨ limit a = hi := by
  obtain ⟨l₁, l₂, rfl⟩ := List.append_of_mem ha
  obtain ⟨-, -, h3⟩ := mid_iff.mp h
  cases l₂ with
  | nil => exact .inr h3
  | cons b l₂ => exact .inl ⟨b, by simp, h3.1⟩

end Tiles

end Lib
