import Mathlib.Tactic.Common

/-!
# Exclusive owners

Pages that are mapped by entries: a page that an entry maps is in use, and no other
entry maps it.
-/

namespace Lib

variable {E F : Type*} {used used' : F → Prop} {maps maps' : E → F → Prop} {e₀ : E} {f₀ : F}

structure Exclusive (used : F → Prop) (maps : E → F → Prop) : Prop where
  used : ∀ e f, maps e f → used f
  unique : ∀ e e' f, maps e f → maps e' f → e = e'

namespace Exclusive

/-- Fewer entries, and more pages in use. -/
theorem mono (h : Exclusive used maps) (hused : ∀ f, used f → used' f)
    (hmaps : ∀ e f, maps' e f → maps e f) : Exclusive used' maps' := by
  constructor
  · intro e f he
    exact hused f (h.used e f (hmaps e f he))
  · intro e e' f he he'
    exact h.unique e e' f (hmaps e f he) (hmaps e' f he')

/-- The entry `e₀` comes to map the page `f₀`, that no entry has mapped. -/
theorem map (h : Exclusive used maps) (hfree : ∀ e, ¬ maps e f₀) (hnew : used' f₀)
    (hused : ∀ f, used f → used' f)
    (hmaps : ∀ e f, maps' e f → maps e f ∨ e = e₀ ∧ f = f₀) : Exclusive used' maps' := by
  constructor
  · intro e f he
    rcases hmaps e f he with hold | ⟨-, rfl⟩
    · exact hused f (h.used e f hold)
    · exact hnew
  · intro e e' f he he'
    rcases hmaps e f he with hold | ⟨rfl, rfl⟩
    · rcases hmaps e' f he' with hold' | ⟨-, rfl⟩
      · exact h.unique e e' f hold hold'
      · exact absurd hold (hfree e)
    · rcases hmaps e' f he' with hold' | ⟨rfl, -⟩
      · exact absurd hold' (hfree e')
      · rfl

/-- A page that is not in use is mapped by no entry. -/
theorem not_maps (h : Exclusive used maps) (hf : ¬ used f₀) (e : E) : ¬ maps e f₀ :=
  fun he => hf (h.used e f₀ he)

/-- The entry `e₀` gives its page back. -/
theorem release (h : Exclusive used maps) (he₀ : maps e₀ f₀)
    (hmaps : ∀ e f, maps' e f → maps e f ∧ e ≠ e₀)
    (hused : ∀ e f, maps e f → f ≠ f₀ → used' f) : Exclusive used' maps' := by
  constructor
  · intro e f he
    obtain ⟨hold, hne⟩ := hmaps e f he
    apply hused e f hold
    rintro rfl
    exact hne (h.unique e e₀ f hold he₀)
  · intro e e' f he he'
    exact h.unique e e' f (hmaps e f he).1 (hmaps e' f he').1

end Exclusive

end Lib
