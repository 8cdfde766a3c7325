import Mathlib.Data.Set.Insert

/-!
# Caches in front of a table

A cache is a set of answers of a table that changes underneath it. An access may
add the table's answer for its key, an invalidation removes those of one key, and
nothing else changes the cache.
-/

namespace Lib

namespace Cache

variable {κ ν : Type*} {table : κ → Option ν} {c c' : Set (κ × ν)} {a b : κ} {w : ν} {e : κ × ν}

/-- Every answer in the cache is the table's. -/
def Consistent (table : κ → Option ν) (c : Set (κ × ν)) : Prop :=
  ∀ e ∈ c, table e.1 = some e.2

/-- The cache after an access to `a` that the table has answered. -/
inductive Fills (table : κ → Option ν) (c : Set (κ × ν)) (a : κ) : Set (κ × ν) → Prop
  | keep : Fills table c a c
  | fill {w : ν} : table a = some w → Fills table c a (insert (a, w) c)

/-- The answers for the key `a` are removed. -/
def invalidate (c : Set (κ × ν)) (a : κ) : Set (κ × ν) := {e | e ∈ c ∧ e.1 ≠ a}

@[simp] theorem mem_invalidate : e ∈ invalidate c a ↔ e ∈ c ∧ e.1 ≠ a := Iff.rfl

theorem Fills.mem (h : Fills table c a c') (he : e ∈ c') :
    e ∈ c ∨ e.1 = a ∧ table a = some e.2 := by
  cases h with
  | keep => exact .inl he
  | fill hw =>
    rcases Set.mem_insert_iff.mp he with rfl | he
    · exact .inr ⟨rfl, hw⟩
    · exact .inl he

/-- Filling keeps a cache consistent. -/
theorem Consistent.fills (hc : Consistent table c) (h : Fills table c a c') :
    Consistent table c' := by
  intro e he
  rcases h.mem he with he | ⟨heq, hw⟩
  · exact hc e he
  · rw [heq]
    exact hw

end Cache

end Lib
