import Mathlib.Data.List.Basic
import Mathlib.Data.List.Nodup
import Mathlib.Tactic.Common

/-!
# Interning

A table gives every key the number of the keys that it has seen before. A key keeps its number as
the table grows, and no two keys have the same one.
-/

namespace Lib

variable {α : Type*} [DecidableEq α]

/-- The table with the key, at the end if it is new. -/
def intern (l : List α) (a : α) : List α := if a ∈ l then l else l ++ [a]

variable {l l' : List α} {a b : α}

theorem intern_of_mem (h : a ∈ l) : intern l a = l := if_pos h

theorem intern_of_not_mem (h : a ∉ l) : intern l a = l ++ [a] := if_neg h

theorem mem_intern : b ∈ intern l a ↔ b = a ∨ b ∈ l := by
  unfold intern
  split
  · rename_i h
    exact ⟨.inr, fun hb => hb.elim (fun heq => heq ▸ h) id⟩
  · rw [List.mem_append, List.mem_singleton, or_comm]

theorem nodup_intern (h : l.Nodup) : (intern l a).Nodup := by
  unfold intern
  split
  · exact h
  · rename_i hnew
    apply h.append (List.nodup_singleton a)
    simpa using hnew

theorem prefix_intern : l <+: intern l a := by
  unfold intern
  split
  · exact List.prefix_refl l
  · exact List.prefix_append l [a]

theorem length_intern_le : (intern l a).length ≤ l.length + 1 := by
  unfold intern
  split <;> simp

/-- A key keeps its number. -/
theorem idxOf_of_prefix (h : l <+: l') (ha : a ∈ l) : l'.idxOf a = l.idxOf a := by
  obtain ⟨r, rfl⟩ := h
  exact List.idxOf_append_of_mem ha

/-- A new key gets the next number. -/
theorem idxOf_intern (h : a ∉ l) : (intern l a).idxOf a = l.length := by
  rw [intern_of_not_mem h, List.idxOf_append_of_notMem h, List.idxOf_cons_self, Nat.add_zero]

end Lib
