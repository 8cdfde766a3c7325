import Mathlib.Order.Basic
import Mathlib.Tactic.Common

/-!
# Outcomes of a call, and loops

A call of a C++ function need not come back: it may stop the machine, follow a
null pointer, or stay in a loop for ever. `Outcome` keeps these ends apart.
Loops are run with a number of turns; a loop that is not left within them is a
`hang`, so "the call returns" is `∃ n, … = ret _` and "the call never returns"
is `∀ n, … = hang`.
-/

namespace Lib

universe u

/-- How a call ends. Only `ret` gives control back to the caller. -/
inductive Outcome (α : Type u) where
  | ret (value : α)
  | panic
  | fault
  | hang
deriving DecidableEq, Repr

namespace Outcome

variable {α β σ : Type u}

/-- Sequencing: what follows a call runs only if the call returns. -/
def andThen (x : Outcome α) (f : α → Outcome β) : Outcome β :=
  match x with
  | ret a => f a
  | panic => panic
  | fault => fault
  | hang => hang

instance : Monad Outcome where
  pure := ret
  bind := andThen

@[simp] theorem pure_eq (a : α) : (pure a : Outcome α) = ret a := rfl

@[simp] theorem ret_bind (a : α) (f : α → Outcome β) : (ret a >>= f) = f a := rfl

@[simp] theorem panic_bind (f : α → Outcome β) : ((panic : Outcome α) >>= f) = panic := rfl

@[simp] theorem fault_bind (f : α → Outcome β) : ((fault : Outcome α) >>= f) = fault := rfl

@[simp] theorem hang_bind (f : α → Outcome β) : ((hang : Outcome α) >>= f) = hang := rfl

/-- A sequence returns exactly when both of its calls do. -/
theorem bind_eq_ret {x : Outcome α} {f : α → Outcome β} {b : β} :
    (x >>= f) = ret b ↔ ∃ a, x = ret a ∧ f a = ret b := by
  cases x <;> simp

instance : LawfulMonad Outcome :=
  LawfulMonad.mk' _ (fun x => by cases x <;> rfl) (fun _ _ => rfl) (fun x _ _ => by cases x <;> rfl)

/-- A value read through a pointer that may be null. -/
def ofOption : Option α → Outcome α
  | some a => ret a
  | none => fault

@[simp] theorem ofOption_some (a : α) : ofOption (some a) = ret a := rfl

@[simp] theorem ofOption_none : ofOption (none : Option α) = fault := rfl

theorem ofOption_eq_ret {x : Option α} {a : α} : ofOption x = ret a ↔ x = some a := by
  cases x <;> simp

/-! ## Loops -/

/-- At most `n` turns of a loop. A turn goes on with a new state (`inl`) or
leaves the loop with a result (`inr`). -/
def loop (body : σ → Outcome (σ ⊕ β)) : ℕ → σ → Outcome β
  | 0, _ => hang
  | n + 1, s => do
    match ← body s with
    | .inl s' => loop body n s'
    | .inr b => ret b

theorem loop_zero (body : σ → Outcome (σ ⊕ β)) (s : σ) : loop body 0 s = hang := rfl

theorem loop_again {body : σ → Outcome (σ ⊕ β)} {s s' : σ} (h : body s = ret (.inl s')) (n : ℕ) :
    loop body (n + 1) s = loop body n s' := by
  simp [loop, h]

theorem loop_leave {body : σ → Outcome (σ ⊕ β)} {s : σ} {b : β} (h : body s = ret (.inr b))
    (n : ℕ) : loop body (n + 1) s = ret b := by
  simp [loop, h]

/-- What a returning loop did in its first turn. -/
theorem loop_succ_eq_ret {body : σ → Outcome (σ ⊕ β)} {n : ℕ} {s : σ} {b : β}
    (h : loop body (n + 1) s = ret b) :
    body s = ret (.inr b) ∨ ∃ s', body s = ret (.inl s') ∧ loop body n s' = ret b := by
  obtain ⟨r, hr, hb⟩ := bind_eq_ret.mp h
  cases r with
  | inl s' => exact .inr ⟨s', hr, hb⟩
  | inr b' =>
    cases hb
    exact .inl hr

/-- More turns do not change the result of a loop that returns. -/
theorem loop_mono {body : σ → Outcome (σ ⊕ β)} {n : ℕ} {s : σ} {b : β}
    (h : loop body n s = ret b) (k : ℕ) : loop body (n + k) s = ret b := by
  induction n generalizing s with
  | zero => simp [loop_zero] at h
  | succ n ih =>
    rw [Nat.succ_add]
    rcases loop_succ_eq_ret h with hb | ⟨s', hs, hb⟩
    · exact loop_leave hb _
    · rw [loop_again hs]
      exact ih hb

/-- The result of a loop does not depend on the number of turns it was given. -/
theorem loop_unique {body : σ → Outcome (σ ⊕ β)} {n k : ℕ} {s : σ} {b c : β}
    (hb : loop body n s = ret b) (hc : loop body k s = ret c) : b = c := by
  have h1 := loop_mono hb k
  have h2 := loop_mono hc n
  rw [Nat.add_comm, h2] at h1
  cases h1
  rfl

/-- Partial correctness: an invariant that every turn keeps, and that gives the
postcondition when the loop is left. -/
theorem loop_invariant {body : σ → Outcome (σ ⊕ β)} {I : σ → Prop} {Q : β → Prop}
    (again : ∀ s s', I s → body s = ret (.inl s') → I s')
    (leave : ∀ s b, I s → body s = ret (.inr b) → Q b)
    {n : ℕ} {s : σ} {b : β} (hs : I s) (h : loop body n s = ret b) : Q b := by
  induction n generalizing s with
  | zero => simp [loop_zero] at h
  | succ n ih =>
    rcases loop_succ_eq_ret h with hb | ⟨s', hs', hb⟩
    · exact leave s b hs hb
    · exact ih (again s s' hs hs') hb

/-- Total correctness: every turn under the invariant either leaves the loop
with the postcondition or keeps the invariant and lowers the measure. -/
theorem loop_terminates {f : σ → Outcome (σ ⊕ β)} {I : σ → Prop} {Q : β → Prop} (μ : σ → ℕ)
    (turn : ∀ s, I s → (∃ b, f s = ret (.inr b) ∧ Q b) ∨
      ∃ s', f s = ret (.inl s') ∧ I s' ∧ μ s' < μ s)
    {s : σ} (hs : I s) {n : ℕ} (hn : μ s < n) : ∃ b, loop f n s = ret b ∧ Q b := by
  induction n generalizing s with
  | zero => omega
  | succ n ih =>
    rcases turn s hs with ⟨b, hb, hq⟩ | ⟨s', hs', hi, hμ⟩
    · exact ⟨b, loop_leave hb n, hq⟩
    · rw [loop_again hs']
      exact ih hi (by omega)

/-- A loop whose turns all go on, inside a set of states, is never left. -/
theorem loop_hang {body : σ → Outcome (σ ⊕ β)} {I : σ → Prop}
    (turn : ∀ s, I s → ∃ s', body s = ret (.inl s') ∧ I s') {s : σ} (hs : I s) (n : ℕ) :
    loop body n s = hang := by
  induction n generalizing s with
  | zero => rfl
  | succ n ih =>
    obtain ⟨s', hs', hi⟩ := turn s hs
    rw [loop_again hs']
    exact ih hi

/-! ### The states of a loop -/

/-- A loop that starts in one state, goes on from those of the list, and is left with a
result. -/
inductive Trace (body : σ → Outcome (σ ⊕ β)) : σ → List σ → β → Prop
  | leave {s : σ} {b : β} : body s = ret (.inr b) → Trace body s [] b
  | again {s s' : σ} {l : List σ} {b : β} : body s = ret (.inl s') → Trace body s' l b →
      Trace body s (s :: l) b

theorem Trace.loop {body : σ → Outcome (σ ⊕ β)} {s : σ} {l : List σ} {b : β}
    (h : Trace body s l b) : Outcome.loop body (l.length + 1) s = ret b := by
  induction h with
  | leave h => exact loop_leave h 0
  | again h _ ih => rw [List.length_cons, loop_again h, ih]

theorem exists_trace {body : σ → Outcome (σ ⊕ β)} {n : ℕ} {s : σ} {b : β}
    (h : loop body n s = ret b) : ∃ l, Trace body s l b := by
  induction n generalizing s with
  | zero => cases h
  | succ n ih =>
    rcases loop_succ_eq_ret h with hleave | ⟨s', hagain, hrest⟩
    · exact ⟨[], .leave hleave⟩
    · obtain ⟨l, hl⟩ := ih hrest
      exact ⟨s :: l, .again hagain hl⟩

/-! ## Computations with a bound -/

/-- From some bound on, `f` ends as `r`. -/
def Ends (f : ℕ → Outcome α) (r : Outcome α) : Prop := ∃ n, ∀ k, n ≤ k → f k = r

theorem Ends.unique {f : ℕ → Outcome α} {r r' : Outcome α} (h : Ends f r) (h' : Ends f r') :
    r = r' := by
  obtain ⟨n, hn⟩ := h
  obtain ⟨m, hm⟩ := h'
  rw [← hn (n + m) (Nat.le_add_right n m), hm (n + m) (Nat.le_add_left m n)]

end Outcome

end Lib
