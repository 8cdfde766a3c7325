import Mathlib.Data.List.Basic
import Mathlib.Tactic.Common

/-!
# Lists with one element for each key

`addAll` goes through a list and puts each element whose key is new in front of another list,
leaving out some keys altogether.
-/

namespace Lib

universe u v

variable {α : Type u} {κ : Type v} [DecidableEq κ] (key : α → κ) (skip : κ → Prop) [DecidablePred skip]

/-- An element is put in front unless its key is left out or there already. -/
def addNew (l : List α) (x : α) : List α :=
  if skip (key x) ∨ key x ∈ l.map key then l else x :: l

/-- The elements of a list, one after the other. -/
def addAll (l xs : List α) : List α := xs.foldl (addNew key skip) l

variable {key skip} {l xs : List α} {x : α} {k : κ}

@[simp] theorem addAll_nil (l : List α) : addAll key skip l [] = l := rfl

@[simp] theorem addAll_cons (l xs : List α) (x : α) :
    addAll key skip l (x :: xs) = addAll key skip (addNew key skip l x) xs := rfl

theorem addNew_of_known (h : skip (key x) ∨ key x ∈ l.map key) : addNew key skip l x = l := if_pos h

theorem addNew_of_new (h : ¬(skip (key x) ∨ key x ∈ l.map key)) :
    addNew key skip l x = x :: l := if_neg h

theorem addNew_sublist (l : List α) (x : α) : l.Sublist (addNew key skip l x) := by
  rw [addNew]
  split
  · exact List.Sublist.refl l
  · exact List.sublist_cons_self x l

theorem addAll_sublist (l xs : List α) : l.Sublist (addAll key skip l xs) := by
  induction xs generalizing l with
  | nil => exact List.Sublist.refl l
  | cons x xs ih => exact (addNew_sublist l x).trans (ih _)

theorem length_addNew_le (l : List α) (x : α) : (addNew key skip l x).length ≤ l.length + 1 := by
  rw [addNew]
  split
  · exact Nat.le_succ _
  · exact Nat.le_refl _

theorem length_addAll_le (l xs : List α) :
    (addAll key skip l xs).length ≤ l.length + xs.length := by
  induction xs generalizing l with
  | nil => exact Nat.le_refl _
  | cons x xs ih =>
    have := ih (addNew key skip l x)
    have : (addNew key skip l x).length ≤ l.length + 1 := length_addNew_le l x
    rw [addAll_cons, List.length_cons]
    omega

theorem known_addNew (l : List α) (x : α) :
    skip (key x) ∨ key x ∈ (addNew key skip l x).map key := by
  by_cases h : skip (key x) ∨ key x ∈ l.map key
  · rwa [addNew_of_known h]
  · rw [addNew_of_new h]
    simp

theorem known_addAll (hx : x ∈ xs) : skip (key x) ∨ key x ∈ (addAll key skip l xs).map key := by
  induction xs generalizing l with
  | nil => simp at hx
  | cons y xs ih =>
    rw [addAll_cons]
    rcases List.mem_cons.mp hx with rfl | hx
    · exact (known_addNew l x).imp_right fun h => ((addAll_sublist _ xs).map key).subset h
    · exact ih hx

/-- An element is added when it is the first one with its key. -/
theorem mem_addAll : x ∈ addAll key skip l xs ↔ x ∈ l ∨
    ¬skip (key x) ∧ key x ∉ l.map key ∧ xs.find? (fun y => key y = key x) = some x := by
  induction xs generalizing l with
  | nil => simp
  | cons y xs ih =>
    rw [addAll_cons, ih]
    by_cases hy : skip (key y) ∨ key y ∈ l.map key
    · rw [addNew_of_known hy]
      by_cases hxy : key y = key x
      · rw [hxy] at hy
        tauto
      · rw [List.find?_cons_of_neg (by simpa using hxy)]
    · rw [addNew_of_new hy, List.mem_cons, List.map_cons, List.mem_cons]
      by_cases hxy : key y = key x
      · rw [List.find?_cons_of_pos (by simpa using hxy), Option.some_inj]
        rw [hxy] at hy
        have hmem : x ∈ l → key x ∈ l.map key := List.mem_map_of_mem
        have hswap : x = y ↔ y = x := eq_comm
        tauto
      · have hne : x ≠ y := fun h => hxy (congrArg key h.symm)
        have hne' : key x ≠ key y := fun h => hxy h.symm
        rw [List.find?_cons_of_neg (by simpa using hxy)]
        tauto

/-- Where no two of them have the same key, unless it is left out, all are added. -/
theorem mem_addAll_of_pairwise
    (h : xs.Pairwise fun x y => key x = key y → skip (key x)) :
    x ∈ addAll key skip [] xs ↔ x ∈ xs ∧ ¬skip (key x) := by
  rw [mem_addAll]
  simp only [List.not_mem_nil, List.map_nil, not_false_eq_true, true_and, false_or]
  rw [and_comm, and_congr_left_iff]
  intro hskip
  constructor
  · exact List.mem_of_find?_eq_some
  · intro hx
    induction xs with
    | nil => simp at hx
    | cons y xs ih =>
      rw [List.pairwise_cons] at h
      rcases List.mem_cons.mp hx with rfl | hx
      · exact List.find?_cons_of_pos (by simp)
      · have hne : key y ≠ key x := fun heq => hskip (heq ▸ h.1 x hx heq)
        rw [List.find?_cons_of_neg (by simpa using hne)]
        exact ih h.2 hx

end Lib
