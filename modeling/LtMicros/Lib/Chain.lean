import Mathlib.Data.List.Nodup
import LtMicros.Lib.Traced
import Mathlib.Logic.Function.Basic
import Mathlib.Tactic.Common

/-!
# Singly linked chains

`Seg next p l q`: starting at the link `p` and following `next`, one visits
exactly the nodes of `l`, in order, and is then at the link `q`. A chain that
ends is a segment up to `none`.
-/

namespace Lib

universe u

variable {α : Type u}

/-- The nodes visited from the link `p` up to the link `q`. -/
def Seg (next : α → Option α) : Option α → List α → Option α → Prop
  | p, [], q => p = q
  | p, a :: l, q => p = some a ∧ Seg next (next a) l q

/-- The nodes visited from the link `p` to the end. -/
abbrev Chain (next : α → Option α) (p : Option α) (l : List α) : Prop := Seg next p l none

namespace Seg

variable {next next' : α → Option α} {p q r : Option α} {l l' : List α} {a : α}

@[simp] theorem nil_iff : Seg next p [] q ↔ p = q := Iff.rfl

@[simp] theorem cons_iff : Seg next p (a :: l) q ↔ p = some a ∧ Seg next (next a) l q := Iff.rfl

theorem append_iff : Seg next p (l ++ l') q ↔ ∃ r, Seg next p l r ∧ Seg next r l' q := by
  induction l generalizing p with
  | nil => simp
  | cons a l ih => simp [ih, and_assoc]

/-- A segment split at one of its nodes. -/
theorem mid_iff : Seg next p (l ++ a :: l') q ↔
    Seg next p l (some a) ∧ Seg next (next a) l' q := by
  rw [append_iff]
  constructor
  · rintro ⟨r, hl, rfl, hl'⟩
    exact ⟨hl, hl'⟩
  · rintro ⟨hl, hl'⟩
    exact ⟨_, hl, rfl, hl'⟩

/-- Frame rule: links outside the segment do not matter. -/
theorem congr (h : ∀ a ∈ l, next a = next' a) : Seg next p l q ↔ Seg next' p l q := by
  induction l generalizing p with
  | nil => simp
  | cons a l ih =>
    rw [cons_iff, cons_iff, h a List.mem_cons_self,
      ih fun b hb => h b (List.mem_cons_of_mem _ hb)]

/-- Two chains from one link are the same chain. -/
theorem unique (h : Chain next p l) (h' : Chain next p l') : l = l' := by
  induction l generalizing p l' with
  | nil =>
    obtain rfl : p = none := h
    cases l' with
    | nil => rfl
    | cons b l' => simp at h'
  | cons a l ih =>
    obtain ⟨rfl, hl⟩ := h
    cases l' with
    | nil => simp at h'
    | cons b l' =>
      obtain ⟨hb, hl'⟩ := h'
      cases hb
      rw [ih hl hl']

/-- A chain that passes through a segment goes on from its end. -/
theorem chain_split (h : Seg next p l q) (h' : Chain next p l') :
    ∃ r, l' = l ++ r ∧ Chain next q r := by
  induction l generalizing p l' with
  | nil => exact ⟨l', rfl, (show p = q from h) ▸ h'⟩
  | cons a l ih =>
    obtain ⟨rfl, hl⟩ := h
    cases l' with
    | nil => simp at h'
    | cons b l' =>
      obtain ⟨hb, hl'⟩ := h'
      cases hb
      obtain ⟨r, rfl, hr⟩ := ih hl hl'
      exact ⟨r, rfl, hr⟩

/-- The node that a chain starts at is its first one. -/
theorem chain_cons (h : Chain next p l) (hp : p = some a) :
    ∃ rest, l = a :: rest ∧ Chain next (next a) rest := by
  subst hp
  obtain ⟨rest, rfl, hrest⟩ := chain_split (l := [a]) ⟨rfl, rfl⟩ h
  exact ⟨rest, rfl, hrest⟩

/-- The links of a chain lead to its nodes. -/
theorem next_mem (h : Chain next p l) (ha : a ∈ l) {b : α} (hb : next a = some b) : b ∈ l := by
  obtain ⟨l₁, l₂, rfl⟩ := List.append_of_mem ha
  obtain ⟨rest, rfl, -⟩ := chain_cons (mid_iff.mp h).2 hb
  simp

/-- A chain that ends does not visit a node twice. -/
theorem nodup (h : Chain next p l) : l.Nodup := by
  induction l generalizing p with
  | nil => exact List.nodup_nil
  | cons a l ih =>
    refine List.nodup_cons.mpr ⟨?_, ih h.2⟩
    intro ha
    -- the tail met again at `a` would be the whole chain, but it is shorter
    obtain ⟨l₁, l₂, rfl⟩ := List.append_of_mem ha
    have h1 : Chain next (some a) (a :: l₂) := ⟨rfl, (mid_iff.mp h.2).2⟩
    have h2 : Chain next (some a) (a :: (l₁ ++ a :: l₂)) := ⟨rfl, h.2⟩
    have := congrArg List.length (unique h1 h2)
    simp at this
    omega

/-- No link of a chain leads back to its first node. -/
theorem next_ne_head (h : Chain next (some a) l) {b : α} (hb : b ∈ l) : next b ≠ some a := by
  intro hnext
  obtain ⟨rest, rfl, -⟩ := chain_cons h rfl
  have hnodup := List.nodup_cons.mp (nodup h)
  obtain ⟨l₁, l₂, hsplit⟩ := List.append_of_mem hb
  rw [hsplit] at h
  obtain ⟨rest', rfl, -⟩ := chain_cons (mid_iff.mp h).2 hnext
  cases l₁ with
  | nil =>
    cases hsplit
    exact hnodup.1 List.mem_cons_self
  | cons _ l₁ =>
    cases hsplit
    exact hnodup.1 (by simp)

/-! ## Loops that walk along a chain -/

/-- A loop that goes on at every node of a segment arrives at its end. -/
theorem loop_skip {β : Type u} {body : Option α → Outcome (Option α ⊕ β)} (h : Seg next p l q)
    (hb : ∀ a ∈ l, body (some a) = .ret (.inl (next a))) (n : ℕ) :
    Outcome.loop body (l.length + n) p = Outcome.loop body n q := by
  induction l generalizing p with
  | nil => rw [show p = q from h, List.length_nil, Nat.zero_add]
  | cons a l ih =>
    obtain ⟨rfl, hl⟩ := h
    rw [List.length_cons, Nat.succ_add, Outcome.loop_again (hb a List.mem_cons_self)]
    exact ih hl fun b h => hb b (List.mem_cons_of_mem _ h)

/-- A loop that searches a chain leaves at the first node that stops it, or
falls off the end. -/
theorem loop_search {β : Type u} {body : Option α → Outcome (Option α ⊕ β)} {stop : α → Bool}
    {found : α → Outcome β} {missing : Outcome β} (h : Chain next p l)
    (hgo : ∀ a, stop a = false → body (some a) = .ret (.inl (next a)))
    (hstop : ∀ a, stop a = true → body (some a) = found a >>= fun b => .ret (.inr b))
    (hnone : body none = missing >>= fun b => .ret (.inr b)) {n : ℕ} (hn : l.length < n) :
    Outcome.loop body n p = (l.find? stop).elim missing found := by
  have leave (x : Outcome β) {s : Option α} (hs : body s = x >>= fun b => .ret (.inr b)) (k : ℕ) :
      Outcome.loop body (k + 1) s = x := by
    cases x <;> simp [Outcome.loop, hs]
  induction l generalizing p n with
  | nil =>
    obtain ⟨k, rfl⟩ := Nat.exists_eq_add_of_lt hn
    rw [show p = none from h]
    exact leave missing hnone _
  | cons a l ih =>
    obtain ⟨rfl, hl⟩ := h
    obtain ⟨k, rfl⟩ : ∃ k, n = k + 1 := ⟨n - 1, by omega⟩
    cases hs : stop a with
    | true => rw [leave (found a) (hstop a hs), List.find?_cons_of_pos hs, Option.elim_some]
    | false =>
      rw [Outcome.loop_again (hgo a hs), List.find?_cons_of_neg (by simp [hs])]
      exact ih hl (by simpa using hn)

/-- The same for a search that leaves a trace. -/
theorem meets_search {ι : Type u} {c : Traced.Contract ι}
    {body : Option α → Traced ι (Option α ⊕ Option α)} {stop : α → Bool} (h : Chain next p l)
    (hturn : ∀ a, Traced.Meets c (body (some a)) fun r =>
      r = if stop a then .inr (some a) else .inl (next a))
    (hnone : Traced.Meets c (body none) fun r => r = .inr none) {n : ℕ} (hn : l.length < n) :
    Traced.Meets c (Traced.loop body n p) fun r => r = l.find? stop := by
  induction l generalizing p n with
  | nil =>
    obtain ⟨k, rfl⟩ := Nat.exists_eq_add_of_lt hn
    rw [show p = none from h]
    refine hnone.bind fun r hr => ?_
    subst hr
    exact Traced.Meets.pure rfl
  | cons a l ih =>
    obtain ⟨rfl, hl⟩ := h
    obtain ⟨k, rfl⟩ : ∃ k, n = k + 1 := ⟨n - 1, by omega⟩
    refine (hturn a).bind fun r hr => ?_
    subst hr
    cases hs : stop a with
    | true =>
      rw [List.find?_cons_of_pos hs]
      exact Traced.Meets.pure rfl
    | false =>
      rw [List.find?_cons_of_neg (by simp [hs])]
      exact ih hl (by simpa using hn)

/-- Nodes `k, k+1, …` linked in order of their number. -/
theorem range' {next : ℕ → Option ℕ} {n : ℕ}
    (h : ∀ i < n, next i = if i + 1 < n then some (i + 1) else none) {k m : ℕ} (hk : k + m = n) :
    Chain next (if k < n then some k else none) (List.range' k m) := by
  induction m generalizing k with
  | zero => simp [show ¬ k < n by omega]
  | succ m ih =>
    rw [List.range'_succ, if_pos (by omega)]
    refine ⟨rfl, ?_⟩
    rw [h k (by omega)]
    exact ih (by omega)

section Update

variable [DecidableEq α]

/-- Changing the link of a node outside the segment keeps the segment. -/
theorem update_of_not_mem (h : Seg next p l q) (ha : a ∉ l) (v : Option α) :
    Seg (Function.update next a v) p l q := by
  apply (congr _).mp h
  intro b hb
  exact (Function.update_of_ne (ne_of_mem_of_not_mem hb ha) _ _).symm

end Update

end Seg

end Lib
