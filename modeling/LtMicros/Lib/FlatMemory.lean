import LtMicros.Lib.Run

/-!
# Flat memories

Accesses to single addresses, with the values that they read and write. A memory that comes to
hold more and more addresses, and in which only the writes change a value, looks from its
accesses like one that has held a value at every address from the start.
-/

namespace Lib

variable {α β : Type*}

/-- An access with the value that is read or written. -/
inductive MemAccess (α β : Type*) where
  | read (a : α) (b : β)
  | write (a : α) (b : β)

/-- The memory `n` has all values that `m` holds. -/
def Covers (m : α → Option β) (n : α → β) : Prop := ∀ a b, m a = some b → n a = b

section Replay

variable [DecidableEq α]

/-- The accesses are those of a memory with the values `n`. -/
def Replays : (α → β) → List (MemAccess α β) → Prop
  | _, [] => True
  | n, .read a b :: l => n a = b ∧ Replays n l
  | n, .write a b :: l => Replays (Function.update n a b) l

/-- The memory `m` serves the accesses, and `m'` holds what they leave. -/
def Serves : (α → Option β) → List (MemAccess α β) → (α → Option β) → Prop
  | m, [], m' => ∀ a b, m a = some b → m' a = some b
  | m, .read a b :: l, m' => m a = some b ∧ Serves m l m'
  | m, .write a b :: l, m' => Serves (Function.update m a (some b)) l m'

variable {m m' : α → Option β} {n : α → β} {l l' : List (MemAccess α β)} {a : α} {b : β}

/-- A memory of the values before the accesses, from one of the values behind them. -/
theorem Serves.replays (h : Serves m l m') (hn : Covers m' n) (hl' : Replays n l') :
    ∃ n₀, Covers m n₀ ∧ Replays n₀ (l ++ l') := by
  induction l generalizing m with
  | nil => exact ⟨n, fun a b hb => hn a b (h a b hb), hl'⟩
  | cons access l ih =>
    cases access with
    | read a b =>
      obtain ⟨n₀, hcovers, hreplays⟩ := ih h.2
      exact ⟨n₀, hcovers, hcovers a b h.1, hreplays⟩
    | write a b =>
      -- the value that is written over was the one that `m` holds, if any
      obtain ⟨n₁, hcovers, hreplays⟩ := ih h
      have hb : n₁ a = b := hcovers a b (Function.update_self _ _ _)
      refine ⟨Function.update n₁ a ((m a).getD b), ?_, ?_⟩
      · intro a' x hx
        by_cases ha : a' = a
        · rw [ha] at hx
          rw [ha, Function.update_self, hx, Option.getD_some]
        · rw [Function.update_of_ne ha]
          apply hcovers
          rwa [Function.update_of_ne ha]
      · show Replays (Function.update (Function.update n₁ a _) a b) (l ++ l')
        rwa [Function.update_idem, ← hb, Function.update_eq_self]

/-- A step makes the accesses of its operation to the part of the state that `v` shows. -/
theorem Run.replays {σ ι : Type*} [Nonempty β] {step : σ → ι → σ → Prop} {s s' : σ} {ops : List ι}
    {I : σ → Prop} {v : σ → α → Option β} {accesses : ι → List (MemAccess α β)}
    (hstep : ∀ s op s', I s → step s op s' → I s' ∧ Serves (v s) (accesses op) (v s'))
    (h : Run step s ops s') (hs : I s) :
    ∃ n, Covers (v s) n ∧ Replays n (ops.flatMap accesses) := by
  induction ops generalizing s with
  | nil =>
    refine ⟨fun a => (v s a).getD (Classical.arbitrary β), ?_, trivial⟩
    intro a b hb
    show (v s a).getD _ = b
    rw [hb, Option.getD_some]
  | cons op ops ih =>
    obtain ⟨s₁, hfirst, hrest⟩ := h.of_cons
    obtain ⟨hs₁, hserves⟩ := hstep s op s₁ hs hfirst
    obtain ⟨n, hcovers, hreplays⟩ := ih hrest hs₁
    exact hserves.replays hcovers hreplays

/-- Writes of some addresses, each once, and all other values stay. -/
theorem Serves.writes {p : ℕ → α} {x : ℕ → β} {k : ℕ}
    (hinj : ∀ i < k, ∀ j < k, p i = p j → i = j)
    (hin : ∀ i < k, m' (p i) = some (x i))
    (hout : ∀ a b, (∀ i < k, a ≠ p i) → m a = some b → m' a = some b) :
    Serves m ((List.range k).map fun i => .write (p i) (x i)) m' := by
  induction k generalizing p x m with
  | zero => exact fun a b hb => hout a b (fun i hi => absurd hi (Nat.not_lt_zero i)) hb
  | succ k ih =>
    rw [List.range_succ_eq_map, List.map_cons, List.map_map]
    apply ih (p := fun i => p (i + 1)) (x := fun i => x (i + 1))
    · intro i hi j hj heq
      exact Nat.succ.inj (hinj (i + 1) (by omega) (j + 1) (by omega) heq)
    · exact fun i hi => hin (i + 1) (by omega)
    · intro a b hne hb
      by_cases ha : a = p 0
      · rw [ha, Function.update_self] at hb
        rw [ha, hin 0 (Nat.succ_pos k), hb]
      · rw [Function.update_of_ne ha] at hb
        refine hout a b (fun i hi => ?_) hb
        cases i with
        | zero => exact ha
        | succ i => exact hne i (by omega)

end Replay

end Lib
