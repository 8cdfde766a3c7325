import LtMicros.Lib.Outcome

/-!
# Calls that leave a trace

A call may do things on the way that its result does not show, and that count also
when it never comes back: the places it has written to, the numbers it has divided
by. `Traced` is an `Outcome` with the list of these events. What is asked of a call
is a `Contract`, and `Meets` says that the call keeps it and gives a result with a
certain property; its rules follow the way calls are put together.
-/

namespace Lib

universe u

/-- How a call ends, and the events on the way. -/
structure Traced (ι α : Type u) where
  trace : List ι
  outcome : Outcome α

namespace Traced

variable {ι α β σ : Type u}

/-- What follows a call happens only if the call returns. -/
def andThen (x : Traced ι α) (f : α → Traced ι β) : Traced ι β :=
  match x.outcome with
  | .ret a => ⟨x.trace ++ (f a).trace, (f a).outcome⟩
  | .panic => ⟨x.trace, .panic⟩
  | .fault => ⟨x.trace, .fault⟩
  | .hang => ⟨x.trace, .hang⟩

instance : Monad (Traced ι) where
  pure a := ⟨[], .ret a⟩
  bind := andThen

/-- A call without events. -/
def lift (x : Outcome α) : Traced ι α := ⟨[], x⟩

instance : MonadLift Outcome (Traced ι) := ⟨lift⟩

/-- An event. -/
def note (e : ι) : Traced ι PUnit := ⟨[e], .ret ⟨⟩⟩

/-- At most `n` turns of a loop, as in `Outcome.loop`. -/
def loop (body : σ → Traced ι (σ ⊕ β)) : ℕ → σ → Traced ι β
  | 0, _ => ⟨[], .hang⟩
  | n + 1, s => do
    match ← body s with
    | .inl s' => loop body n s'
    | .inr b => pure b

@[simp] theorem pure_outcome (a : α) : (pure a : Traced ι α).outcome = .ret a := rfl

@[simp] theorem pure_trace (a : α) : (pure a : Traced ι α).trace = [] := rfl

@[simp] theorem mem_note {e e' : ι} : e ∈ (note e' : Traced ι PUnit).trace ↔ e = e' :=
  List.mem_singleton

@[simp] theorem not_mem_lift {x : Outcome α} {e : ι} : e ∉ (lift x).trace := List.not_mem_nil

@[simp] theorem lift_outcome (x : Outcome α) : (lift x : Traced ι α).outcome = x := rfl

/-- A sequence returns exactly when both of its calls do. -/
theorem bind_outcome_eq_ret {x : Traced ι α} {f : α → Traced ι β} {b : β} :
    (x >>= f).outcome = .ret b ↔ ∃ a, x.outcome = .ret a ∧ (f a).outcome = .ret b := by
  show (andThen x f).outcome = _ ↔ _
  unfold andThen
  cases x.outcome <;> simp

theorem bind_of_ret {x : Traced ι α} {a : α} (h : x.outcome = .ret a) (f : α → Traced ι β) :
    (x >>= f) = ⟨x.trace ++ (f a).trace, (f a).outcome⟩ := by
  show andThen x f = _
  rw [andThen, h]

/-- A sequence of calls that are known. -/
theorem bind_eq {x : Traced ι α} {f : α → Traced ι β} {t t' : List ι} {a : α} {r : Outcome β}
    (hx : x = ⟨t, .ret a⟩) (hf : f a = ⟨t', r⟩) : (x >>= f) = ⟨t ++ t', r⟩ := by
  subst hx
  rw [bind_of_ret rfl, hf]

/-- Nothing follows a call with a fault. -/
theorem bind_of_fault {x : Traced ι α} (h : x.outcome = .fault) (f : α → Traced ι β) :
    (x >>= f) = ⟨x.trace, .fault⟩ := by
  show andThen x f = _
  rw [andThen, h]

/-- Nor does anything follow one that does not return in another way. -/
theorem bind_trace_of_not_ret {x : Traced ι α} {f : α → Traced ι β}
    (h : ∀ a, x.outcome ≠ .ret a) : (x >>= f).trace = x.trace := by
  show (andThen x f).trace = _
  unfold andThen
  split
  · rename_i a ha
    exact absurd ha (h a)
  · rfl
  · rfl
  · rfl

/-- The events of its first call are events of a sequence. -/
theorem mem_bind_left {x : Traced ι α} {f : α → Traced ι β} {e : ι} (h : e ∈ x.trace) :
    e ∈ (x >>= f).trace := by
  show e ∈ (andThen x f).trace
  unfold andThen
  split
  · exact List.mem_append_left _ h
  · exact h
  · exact h
  · exact h

/-- The events of what follows a call that returns are events of the sequence. -/
theorem mem_bind_right {x : Traced ι α} {a : α} {f : α → Traced ι β} {e : ι}
    (hx : x.outcome = .ret a) (h : e ∈ (f a).trace) : e ∈ (x >>= f).trace := by
  rw [bind_of_ret hx]
  exact List.mem_append_right _ h

theorem bind_outcome (x : Traced ι α) (f : α → Traced ι β) :
    (x >>= f).outcome = x.outcome >>= fun a => (f a).outcome := by
  show (andThen x f).outcome = _
  unfold andThen
  cases x.outcome <;> rfl

/-- Three calls in sequence. -/
theorem bind_assoc (x : Traced ι α) (f : α → Traced ι β) (g : β → Traced ι σ) :
    x >>= f >>= g = x >>= fun a => f a >>= g := by
  show andThen (andThen x f) g = andThen x fun a => andThen (f a) g
  unfold andThen
  cases x.outcome with
  | ret a =>
    dsimp only
    cases (f a).outcome with
    | ret b => simp only [List.append_assoc]
    | panic => rfl
    | fault => rfl
    | hang => rfl
  | panic => rfl
  | fault => rfl
  | hang => rfl

/-- A sequence without events, in front of another call. -/
theorem lift_bind (x : Outcome α) (f : α → Outcome β) (g : β → Traced ι σ) :
    lift (x >>= f) >>= g = lift x >>= fun a => lift (f a) >>= g := by
  cases x with
  | ret a =>
    rw [bind_of_ret (lift_outcome (.ret a))]
    rfl
  | panic => rfl
  | fault => rfl
  | hang => rfl

/-- What is only computed from the result of a call has no events. -/
theorem bind_pure_eq (x : Traced ι α) (f : α → β) :
    (x >>= fun a => pure (f a)) = ⟨x.trace, x.outcome >>= fun a => .ret (f a)⟩ := by
  show andThen x _ = _
  unfold andThen
  cases x.outcome with
  | ret a => exact congrArg (Traced.mk · (.ret (f a))) (List.append_nil x.trace)
  | panic => rfl
  | fault => rfl
  | hang => rfl

@[simp] theorem note_bind_outcome {e : ι} {f : PUnit → Traced ι β} :
    (note e >>= f).outcome = (f ⟨⟩).outcome := rfl

/-- The events of a sequence. -/
theorem mem_bind {x : Traced ι α} {f : α → Traced ι β} {e : ι} :
    e ∈ (x >>= f).trace ↔ e ∈ x.trace ∨ ∃ a, x.outcome = .ret a ∧ e ∈ (f a).trace := by
  show e ∈ (andThen x f).trace ↔ _
  unfold andThen
  cases x.outcome with
  | ret a => simp
  | panic => simp
  | fault => simp
  | hang => simp

/-- A loop ends like the loop without events. -/
theorem loop_outcome (body : σ → Traced ι (σ ⊕ β)) (n : ℕ) (s : σ) :
    (loop body n s).outcome = Outcome.loop (fun s => (body s).outcome) n s := by
  induction n generalizing s with
  | zero => rfl
  | succ n ih =>
    rw [loop, bind_outcome, Outcome.loop]
    congr 1
    funext r
    cases r with
    | inl s' => exact ih s'
    | inr b => rfl

/-- The events of a loop are those of its turns. -/
theorem mem_loop {body : σ → Traced ι (σ ⊕ β)} {n : ℕ} {s : σ} {e : ι}
    (h : e ∈ (loop body n s).trace) : ∃ s', e ∈ (body s').trace := by
  induction n generalizing s with
  | zero => cases h
  | succ n ih =>
    rw [loop] at h
    rcases mem_bind.mp h with hfirst | ⟨r, -, hrest⟩
    · exact ⟨s, hfirst⟩
    · cases r with
      | inl s' => exact ih hrest
      | inr b => cases hrest

/-- The first turn of a loop. -/
theorem loop_again {body : σ → Traced ι (σ ⊕ β)} {s s' : σ} (h : (body s).outcome = .ret (.inl s'))
    (n : ℕ) : loop body (n + 1) s =
      ⟨(body s).trace ++ (loop body n s').trace, (loop body n s').outcome⟩ := by
  rw [loop, bind_of_ret h]

/-- The same for a first turn and a rest that are known. -/
theorem loop_eq {body : σ → Traced ι (σ ⊕ β)} {s s' : σ} {t t' : List ι} {n : ℕ} {r : Outcome β}
    (hturn : body s = ⟨t, .ret (.inl s')⟩) (hrest : loop body n s' = ⟨t', r⟩) :
    loop body (n + 1) s = ⟨t ++ t', r⟩ :=
  bind_eq hturn hrest

theorem loop_leave {body : σ → Traced ι (σ ⊕ β)} {s : σ} {t : List ι} {b : β}
    (hturn : body s = ⟨t, .ret (.inr b)⟩) (n : ℕ) : loop body (n + 1) s = ⟨t, .ret b⟩ :=
  (bind_eq hturn rfl).trans (congrArg (Traced.mk · (.ret b)) (List.append_nil t))

theorem mem_loop_turn {body : σ → Traced ι (σ ⊕ β)} {s : σ} {e : ι} (h : e ∈ (body s).trace)
    (n : ℕ) : e ∈ (loop body (n + 1) s).trace := by
  rw [loop]
  exact mem_bind_left h

/-- A loop that returns has a first turn that does. -/
theorem loop_succ_eq_ret {body : σ → Traced ι (σ ⊕ β)} {n : ℕ} {s : σ} {b : β}
    (h : (loop body (n + 1) s).outcome = .ret b) : (body s).outcome = .ret (.inr b) ∨
      ∃ s', (body s).outcome = .ret (.inl s') ∧ (loop body n s').outcome = .ret b := by
  obtain ⟨r, hr, hb⟩ := bind_outcome_eq_ret.mp h
  cases r with
  | inl s' => exact .inr ⟨s', hr, hb⟩
  | inr b' =>
    cases hb
    exact .inl hr

/-- The call returns, all its events are allowed, and `Q` holds of its result. -/
def Yields (ok : ι → Prop) (x : Traced ι α) (Q : α → Prop) : Prop :=
  ∃ a, x.outcome = .ret a ∧ (∀ e ∈ x.trace, ok e) ∧ Q a

section Yields

variable {ok : ι → Prop}

@[simp] theorem yields_pure {a : α} {Q : α → Prop} : Yields ok (pure a) Q ↔ Q a := by
  simp [Yields]

/-- A sequence yields what its second call does after its first one. -/
theorem yields_bind {x : Traced ι α} {f : α → Traced ι β} {Q : β → Prop} :
    Yields ok (x >>= f) Q ↔ Yields ok x fun a => Yields ok (f a) Q := by
  constructor
  · rintro ⟨b, hret, hok, hb⟩
    obtain ⟨a, ha, hfa⟩ := bind_outcome_eq_ret.mp hret
    exact ⟨a, ha, fun e he => hok e (mem_bind_left he), b, hfa,
      fun e he => hok e (mem_bind_right ha he), hb⟩
  · rintro ⟨a, ha, hok, b, hfa, hok', hb⟩
    refine ⟨b, bind_outcome_eq_ret.mpr ⟨a, ha, hfa⟩, fun e he => ?_, hb⟩
    rw [bind_of_ret ha] at he
    exact (List.mem_append.mp he).elim (hok e) (hok' e)

theorem Yields.mono {x : Traced ι α} {P Q : α → Prop} (h : Yields ok x P) (himp : ∀ a, P a → Q a) :
    Yields ok x Q := by
  obtain ⟨a, hret, hok, ha⟩ := h
  exact ⟨a, hret, hok, himp a ha⟩

end Yields

/-- Whether the call returns or not, all its events are allowed. -/
structure Only (ok : ι → Prop) (x : Traced ι α) : Prop where
  mem : ∀ e ∈ x.trace, ok e

/-- If the call returns, `Q` holds of its events and of its result. -/
structure Gives (x : Traced ι α) (Q : List ι → α → Prop) : Prop where
  ret : ∀ a, x.outcome = .ret a → Q x.trace a

/-- `P` holds of each event and of those before it. -/
structure Before (P : List ι → ι → Prop) (x : Traced ι α) : Prop where
  split : ∀ pre e post, x.trace = pre ++ e :: post → P pre e

theorem Only.before {ok : ι → Prop} {P : List ι → ι → Prop} {x : Traced ι α} (h : Only ok x)
    (himp : ∀ pre e, ok e → P pre e) : Before P x := by
  constructor
  intro pre e post heq
  apply himp
  apply h.mem
  rw [heq]
  exact List.mem_append_right _ List.mem_cons_self

/-- The events of the first call of a sequence are before those of the second one. -/
theorem Before.bind {P : List ι → ι → Prop} {x : Traced ι α} {f : α → Traced ι β}
    (hx : Before P x)
    (hf : ∀ a, x.outcome = .ret a → Before (fun pre e => P (x.trace ++ pre) e) (f a)) :
    Before P (x >>= f) := by
  constructor
  intro pre e post heq
  by_cases hret : ∃ a, x.outcome = .ret a
  · obtain ⟨a, hout⟩ := hret
    rw [bind_of_ret hout] at heq
    rcases List.append_eq_append_iff.mp heq with ⟨rest, hpre, hrest⟩ | ⟨rest, hleft, hrest⟩
    · rw [hpre]
      exact (hf a hout).split rest e post hrest
    · cases rest with
      | nil =>
        rw [List.append_nil] at hleft
        rw [← hleft, ← List.append_nil x.trace]
        exact (hf a hout).split [] e post hrest.symm
      | cons e' rest =>
        obtain ⟨rfl, -⟩ := List.cons.inj hrest
        exact hx.split pre e rest hleft
  · rw [bind_trace_of_not_ret (not_exists.mp hret)] at heq
    exact hx.split pre e post heq

section Gives

variable {ok : ι → Prop} {x : Traced ι α} {f : α → Traced ι β} {t : List ι} {a : α}
  {P : List ι → α → Prop} {Q : List ι → β → Prop}

theorem only_pure : Only ok (pure a : Traced ι α) := ⟨fun _ he => absurd he List.not_mem_nil⟩

theorem only_lift {y : Outcome α} : Only ok (lift y) := ⟨fun _ he => absurd he not_mem_lift⟩

theorem only_note {e : ι} (h : ok e) : Only ok (note e) := ⟨fun _ he => mem_note.mp he ▸ h⟩

theorem Only.mono {ok' : ι → Prop} (h : Only ok x) (himp : ∀ e, ok e → ok' e) : Only ok' x :=
  ⟨fun e he => himp e (h.mem e he)⟩

theorem Only.bind (hx : Only ok x) (hf : ∀ a, x.outcome = .ret a → Only ok (f a)) :
    Only ok (x >>= f) := by
  constructor
  intro e he
  rcases mem_bind.mp he with he | ⟨a, ha, he⟩
  · exact hx.mem e he
  · exact (hf a ha).mem e he

theorem Only.loop {body : σ → Traced ι (σ ⊕ β)} (hturn : ∀ s, Only ok (body s)) (n : ℕ) (s : σ) :
    Only ok (loop body n s) := by
  constructor
  intro e he
  obtain ⟨s', he⟩ := mem_loop he
  exact (hturn s').mem e he

theorem Gives.pure (h : P [] a) : Gives (pure a) P := by
  constructor
  intro b hb
  cases hb
  exact h

theorem Gives.mono {R : List ι → α → Prop} (h : Gives x P) (himp : ∀ t a, P t a → R t a) :
    Gives x R :=
  ⟨fun a ha => himp _ a (h.ret a ha)⟩

/-- The second call of a sequence adds its events to those of the first one. -/
theorem Gives.bind (hx : Gives x P) (hf : ∀ t a, P t a → Gives (f a) fun t' b => Q (t ++ t') b) :
    Gives (x >>= f) Q := by
  constructor
  intro b hb
  obtain ⟨a, ha, hfa⟩ := bind_outcome_eq_ret.mp hb
  rw [bind_of_ret ha]
  exact (hf _ a (hx.ret a ha)).ret b hfa

/-- The same behind a call whose events and result are known. -/
theorem Gives.bind_eq (hx : x = ⟨t, .ret a⟩) (hf : Gives (f a) fun t' b => Q (t ++ t') b) :
    Gives (x >>= f) Q := by
  subst hx
  constructor
  intro b hb
  rw [bind_of_ret rfl] at hb ⊢
  exact hf.ret b hb

/-- Calls without events. -/
theorem Gives.bind_lift {y : Outcome α} (hf : ∀ a, y = .ret a → Gives (f a) Q) :
    Gives (lift y >>= f) Q := by
  constructor
  intro b hb
  obtain ⟨a, ha, hfa⟩ := bind_outcome_eq_ret.mp hb
  rw [bind_of_ret ha]
  exact (hf a ha).ret b hfa

/-- An invariant of the turns holds when a loop is left. -/
theorem Gives.loop {body : σ → Traced ι (σ ⊕ β)} {I : σ → Prop} {R : β → Prop}
    (hturn : ∀ s, I s → Gives (body s) fun _ r =>
      (∀ s', r = .inl s' → I s') ∧ ∀ b, r = .inr b → R b)
    {s : σ} (hs : I s) (n : ℕ) : Gives (loop body n s) fun _ b => R b := by
  induction n generalizing s with
  | zero => exact ⟨fun _ h => nomatch h⟩
  | succ n ih =>
    rw [Traced.loop]
    apply (hturn s hs).bind
    intro _ r hr
    cases r with
    | inl s' => exact ih (hr.1 s' rfl)
    | inr b => exact Gives.pure (hr.2 b rfl)

end Gives

/-- What is asked of a call: the events that are allowed, and those after which it need not come
back. -/
structure Contract (ι : Type u) where
  ok : ι → Prop
  stop : ι → Prop

/-- The call keeps the contract: it returns a result of which `Q` holds, or has a reason for its
fault. -/
structure Meets (c : Contract ι) (x : Traced ι α) (Q : α → Prop) : Prop where
  ok : ∀ e ∈ x.trace, c.ok e ∨ c.stop e
  ret : ∀ a, x.outcome = .ret a → Q a
  fault : x.outcome = .fault → ∃ e ∈ x.trace, c.stop e
  panic : x.outcome ≠ .panic
  hang : x.outcome ≠ .hang

namespace Meets

variable {c : Contract ι} {x : Traced ι α} {f : α → Traced ι β} {P : α → Prop} {Q : β → Prop}

theorem pure {a : α} (h : P a) : Meets c (pure a) P where
  ok _ he := absurd he List.not_mem_nil
  ret b hb := by
    cases hb
    exact h
  fault h := nomatch h
  panic := nofun
  hang := nofun

theorem note {e : ι} {Q : PUnit → Prop} (he : c.ok e) (h : Q ⟨⟩) : Meets c (note e) Q where
  ok e' he' := by
    rw [List.mem_singleton.mp he']
    exact .inl he
  ret _ _ := h
  fault h := nomatch h
  panic := nofun
  hang := nofun

theorem mono {R : α → Prop} (h : Meets c x P) (himp : ∀ a, P a → R a) : Meets c x R :=
  ⟨h.ok, fun a ha => himp a (h.ret a ha), h.fault, h.panic, h.hang⟩

/-- The result is the one that the call returns. -/
theorem outcome (h : Meets c x P) : Meets c x fun a => P a ∧ x.outcome = .ret a :=
  ⟨h.ok, fun a ha => ⟨h.ret a ha, ha⟩, h.fault, h.panic, h.hang⟩

/-- The second call of a sequence relies on what the first one gives. -/
theorem bind (hx : Meets c x P) (hf : ∀ a, P a → Meets c (f a) Q) : Meets c (x >>= f) Q := by
  show Meets c (andThen x f) Q
  unfold andThen
  cases hout : x.outcome with
  | ret a =>
    have hfa := hf a (hx.ret a hout)
    refine ⟨fun e he => ?_, hfa.ret, fun h => ?_, hfa.panic, hfa.hang⟩
    · rcases List.mem_append.mp he with he | he
      · exact hx.ok e he
      · exact hfa.ok e he
    · obtain ⟨e, he, hstop⟩ := hfa.fault h
      exact ⟨e, List.mem_append_right _ he, hstop⟩
  | panic => exact absurd hout hx.panic
  | fault => exact ⟨hx.ok, nofun, fun _ => hx.fault hout, nofun, nofun⟩
  | hang => exact absurd hout hx.hang

/-- A fault right after the event that is the reason for it. -/
theorem note_fault {e : ι} (hok : c.ok e) (hstop : c.stop e) :
    Meets c (Traced.note e >>= fun _ => lift .fault) P where
  ok e' he' := by
    rw [List.mem_singleton.mp he']
    exact .inl hok
  ret a h := nomatch h
  fault _ := ⟨e, List.mem_cons_self, hstop⟩
  panic := nofun
  hang := nofun

/-- Without events after which it need not come back, the call returns. -/
theorem returns (hx : Meets c x P) (hstop : ∀ e, ¬c.stop e) : ∃ a, x.outcome = .ret a ∧ P a := by
  cases hout : x.outcome with
  | ret a => exact ⟨a, rfl, hx.ret a hout⟩
  | panic => exact absurd hout hx.panic
  | fault =>
    obtain ⟨e, -, he⟩ := hx.fault hout
    exact absurd he (hstop e)
  | hang => exact absurd hout hx.hang

/-- All of its events are allowed then. -/
theorem yields_iff {R : α → Prop} (hx : Meets c x P) (hstop : ∀ e, ¬c.stop e) :
    Yields c.ok x R ↔ ∃ a, x.outcome = .ret a ∧ P a ∧ R a := by
  constructor
  · rintro ⟨a, hret, -, ha⟩
    exact ⟨a, hret, hx.ret a hret, ha⟩
  · rintro ⟨a, hret, -, ha⟩
    exact ⟨a, hret, fun e he => (hx.ok e he).resolve_right (hstop e), ha⟩

theorem yields (hx : Meets c x P) (hstop : ∀ e, ¬c.stop e) : Yields c.ok x P := by
  obtain ⟨a, hret, ha⟩ := hx.returns hstop
  exact (hx.yields_iff hstop).mpr ⟨a, hret, ha, ha⟩

/-- A loop whose turns keep an invariant and come nearer to the end. -/
theorem loop {body : σ → Traced ι (σ ⊕ β)} {I : σ → Prop} (μ : σ → ℕ)
    (hturn : ∀ s, I s → Meets c (body s) fun r =>
      (∀ s', r = .inl s' → I s' ∧ μ s' < μ s) ∧ ∀ b, r = .inr b → Q b)
    {s : σ} (hs : I s) {n : ℕ} (hn : μ s < n) : Meets c (loop body n s) Q := by
  induction n generalizing s with
  | zero => exact absurd hn (Nat.not_lt_zero _)
  | succ n ih =>
    refine (hturn s hs).bind fun r hr => ?_
    cases r with
    | inl s' =>
      obtain ⟨hs', hlt⟩ := hr.1 s' rfl
      exact ih hs' (by omega)
    | inr b => exact Meets.pure (hr.2 b rfl)

end Meets

end Traced

end Lib
