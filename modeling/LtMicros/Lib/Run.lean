import Mathlib.Data.List.Basic
import Mathlib.Tactic.Common

/-!
# Runs of a step relation

`Run step s ops s'`: starting in `s`, the operations of `ops` are carried out
one after the other and end in `s'`. Every state reached by a longer run is the
end of a run of its own, so "in every state reached" is a statement about `s'`.
-/

namespace Lib

variable {σ ι : Type*}

inductive Run (step : σ → ι → σ → Prop) : σ → List ι → σ → Prop
  | nil (s : σ) : Run step s [] s
  | snoc {s s' s'' : σ} {ops : List ι} {op : ι} :
      Run step s ops s' → step s' op s'' → Run step s (ops ++ [op]) s''

/-- The steps that are taken from states meeting a condition. -/
def Guarded (cond : σ → ι → Prop) (step : σ → ι → σ → Prop) (s : σ) (op : ι) (s' : σ) : Prop :=
  cond s op ∧ step s op s'

namespace Run

variable {step step' : σ → ι → σ → Prop} {cond : σ → ι → Prop} {s s' s'' : σ}
  {ops ops' : List ι} {op : ι} {I : σ → Prop}

theorem single (h : step s op s') : Run step s [op] s' := by
  simpa using Run.snoc (.nil s) h

theorem trans (h : Run step s ops s') (h' : Run step s' ops' s'') :
    Run step s (ops ++ ops') s'' := by
  induction h' with
  | nil => simpa using h
  | snoc _ hs ih => simpa only [List.append_assoc] using ih.snoc hs

theorem cons (h : step s op s') (h' : Run step s' ops s'') : Run step s (op :: ops) s'' :=
  (single h).trans h'

theorem of_nil (h : Run step s [] s') : s = s' := by
  generalize hall : [] = all at h
  cases h with
  | nil => rfl
  | snoc => simp at hall

/-- The first step of a run. -/
theorem of_cons (h : Run step s (op :: ops) s'') : ∃ s', step s op s' ∧ Run step s' ops s'' := by
  generalize hall : op :: ops = all at h
  induction h generalizing ops with
  | nil => cases hall
  | @snoc s₁ s₂ ops₁ last h₁ hlast ih =>
    cases ops₁ with
    | nil =>
      cases hall
      obtain rfl := h₁.of_nil
      exact ⟨s₂, hlast, .nil s₂⟩
    | cons _ rest =>
      cases hall
      obtain ⟨s', hfirst, hrest⟩ := ih rfl
      exact ⟨s', hfirst, hrest.snoc hlast⟩

/-- The state between two parts of a run. -/
theorem of_append (h : Run step s (ops ++ ops') s'') :
    ∃ s', Run step s ops s' ∧ Run step s' ops' s'' := by
  induction ops generalizing s with
  | nil => exact ⟨s, .nil s, h⟩
  | cons op ops ih =>
    obtain ⟨s₁, hfirst, hrest⟩ := h.of_cons
    obtain ⟨s', hleft, hright⟩ := ih hrest
    exact ⟨s', .cons hfirst hleft, hright⟩

theorem mono (hmono : ∀ s op s', step s op s' → step' s op s') (h : Run step s ops s') :
    Run step' s ops s' := by
  induction h with
  | nil => exact .nil _
  | snoc _ hs ih => exact ih.snoc (hmono _ _ _ hs)

/-- What holds at the start and is kept by every step holds at the end. -/
theorem invariant (hstep : ∀ s op s', I s → step s op s' → I s') (h : Run step s ops s')
    (hs : I s) : I s' := by
  induction h with
  | nil => exact hs
  | snoc _ hop ih => exact hstep _ _ _ ih hop

/-- The same when a step keeps the invariant only where the condition holds. -/
theorem guarded_invariant (hstep : ∀ s op s', I s → cond s op → step s op s' → I s')
    (h : Run (Guarded cond step) s ops s') (hs : I s) : I s' :=
  h.invariant (fun s op s' hi hg => hstep s op s' hi hg.1 hg.2) hs

/-- A run all of whose operations are of some kind is one of steps of that kind. -/
theorem of_forall {P : ι → Prop} (h : Run step s ops s') (hops : ∀ op ∈ ops, P op) :
    Run (fun s op s' => P op ∧ step s op s') s ops s' := by
  induction h with
  | nil => exact .nil _
  | @snoc _ _ ops op _ hop ih =>
    have hlast : P op := hops op (List.mem_append_right ops (List.mem_singleton_self op))
    exact (ih fun o ho => hops o (List.mem_append_left [op] ho)).snoc ⟨hlast, hop⟩

/-- What holds at the end, and before every step after which it holds, holds
after every step of the run. -/
theorem of_last {P : σ → Prop} (hback : ∀ s op s', step s op s' → P s' → P s)
    (h : Run step s ops s') (hs : P s') : Run (fun s op s' => step s op s' ∧ P s') s ops s' := by
  induction h with
  | nil => exact .nil _
  | snoc _ hop ih => exact (ih (hback _ _ _ hop hs)).snoc ⟨hop, hs⟩

end Run

end Lib
