import LtMicros.SpinLock

/-!
# Texts on the screen

`printf` prints its text between `_sysEnterScreenCriticalSection` and
`_sysLeaveScreenCriticalSection`. Any number of threads call it, and another thread can come in
between any two characters and between the instructions of the lock.
-/

namespace LtMicros

open Lib

/-- `s_CriticalSection`, the texts of the calls that are going on, what is left of them, the screen,
and the texts of the calls that have come to their end. -/
structure Console (ι : Type*) where
  lock : SpinLock ι
  text : ι → List Char
  left : ι → List Char
  screen : List Char
  completed : List (List Char)

/-- A thread calls `printf`, takes a step in the lock, prints a character, or comes to the end of
the call. -/
inductive PrintfOp (ι : Type*) where
  | printf (t : ι) (text : List Char)
  | cmpxchg (t : ι)
  | cmp (t : ι)
  | put (t : ι)
  | finish (t : ι)

/-- The step of the lock in it. -/
def PrintfOp.lockOp {ι : Type*} : PrintfOp ι → Option (SpinOp ι)
  | printf t _ => some (.enter t)
  | cmpxchg t => some (.cmpxchg t)
  | cmp t => some (.cmp t)
  | put _ => none
  | finish t => some (.leave t)

namespace Console

variable {ι : Type*} [DecidableEq ι] {s s' : Console ι} {ops : List (PrintfOp ι)} {t u : ι}

/-- A character is printed in the critical section, and the section is left behind the last
one. -/
def step (s : Console ι) : PrintfOp ι → Option (Console ι)
  | .printf t text => do
    let lock ← s.lock.step (.enter t)
    return { s with
      lock
      text := Function.update s.text t text
      left := Function.update s.left t text }
  | .cmpxchg t => do
    let lock ← s.lock.step (.cmpxchg t)
    return { s with lock }
  | .cmp t => do
    let lock ← s.lock.step (.cmp t)
    return { s with lock }
  | .put t =>
    match s.left t with
    | [] => none
    | c :: left =>
      if s.lock.pc t = .inside then
        some { s with left := Function.update s.left t left, screen := s.screen ++ [c] }
      else none
  | .finish t =>
    if s.lock.pc t = .inside ∧ s.left t = [] then do
      let lock ← s.lock.step (.leave t)
      return { s with lock, completed := s.completed ++ [s.text t] }
    else none

def Step (s : Console ι) (op : PrintfOp ι) (s' : Console ι) : Prop := s.step op = some s'

/-- An empty screen, and nobody in the section. -/
def init : Console ι where
  lock := .init
  text := fun _ => []
  left := fun _ => []
  screen := []
  completed := []

/-- The step of the lock is in order. -/
def Orderly (s : Console ι) (op : PrintfOp ι) : Prop := ∀ o ∈ op.lockOp, s.lock.Orderly o

/-- On the screen are the texts of the calls that have come to their end, and behind them what the
thread in the section has printed of its own. -/
structure Serial (s : Console ι) : Prop where
  inside : ∀ t, s.lock.pc t = .inside →
    ∃ printed, s.text t = printed ++ s.left t ∧ s.screen = s.completed.flatten ++ printed
  nobody : (∀ t, s.lock.pc t ≠ .inside) → s.screen = s.completed.flatten
  before : ∀ t, s.lock.pc t ≠ .inside → s.lock.pc t ≠ .outside → s.left t = s.text t

omit [DecidableEq ι] in
theorem init_serial : (init : Console ι).Serial := by
  constructor <;> simp [init, SpinLock.init]

/-! ## What a step does -/

/-- Everything that a step can do. -/
theorem step_cases {op : PrintfOp ι} (h : Step s op s') :
    (∃ t text lock, op = .printf t text ∧ SpinLock.Step s.lock (.enter t) lock ∧
      s' = { s with
        lock
        text := Function.update s.text t text
        left := Function.update s.left t text }) ∨
    (∃ t o lock, op.lockOp = some o ∧ (o = .cmpxchg t ∨ o = .cmp t) ∧
      SpinLock.Step s.lock o lock ∧ s' = { s with lock }) ∨
    (∃ t c left, op = .put t ∧ s.left t = c :: left ∧ s.lock.pc t = .inside ∧
      s' = { s with left := Function.update s.left t left, screen := s.screen ++ [c] }) ∨
    (∃ t, op = .finish t ∧ s.lock.pc t = .inside ∧ s.left t = [] ∧
      s' = { s with
        lock := SpinLock.goto { s.lock with value := 0 } t .outside
        completed := s.completed ++ [s.text t] }) := by
  cases op with
  | printf t text =>
    obtain ⟨lock, hlock, hs'⟩ := Option.bind_eq_some_iff.mp h
    exact .inl ⟨t, text, lock, rfl, hlock, (Option.some.inj hs').symm⟩
  | cmpxchg t =>
    obtain ⟨lock, hlock, hs'⟩ := Option.bind_eq_some_iff.mp h
    exact .inr (.inl ⟨t, _, lock, rfl, .inl rfl, hlock, (Option.some.inj hs').symm⟩)
  | cmp t =>
    obtain ⟨lock, hlock, hs'⟩ := Option.bind_eq_some_iff.mp h
    exact .inr (.inl ⟨t, _, lock, rfl, .inr rfl, hlock, (Option.some.inj hs').symm⟩)
  | put t =>
    simp only [Step, step] at h
    cases hleft : s.left t with
    | nil => simp [hleft] at h
    | cons c left =>
      simp only [hleft, Option.ite_none_right_eq_some, Option.some.injEq] at h
      exact .inr (.inr (.inl ⟨t, c, left, rfl, hleft, h.1, h.2.symm⟩))
  | finish t =>
    simp only [Step, step, Option.ite_none_right_eq_some] at h
    obtain ⟨⟨hpc, hleft⟩, h⟩ := h
    have hlock : s.lock.step (.leave t) =
        some (SpinLock.goto { s.lock with value := 0 } t .outside) := SpinLock.step_leave hpc
    rw [hlock] at h
    exact .inr (.inr (.inr ⟨t, rfl, hpc, hleft, (Option.some.inj h).symm⟩))

/-- The lock of the console takes a step of its own, or none. -/
theorem Step.exclusive {op : PrintfOp ι} (h : Step s op s') (hop : s.Orderly op)
    (hexcl : s.lock.Exclusive) : s'.lock.Exclusive := by
  obtain ⟨t, text, lock, rfl, hlock, rfl⟩ | ⟨t, o, lock, ho, -, hlock, rfl⟩ |
    ⟨t, c, left, rfl, -, -, rfl⟩ | ⟨t, rfl, hpc, -, rfl⟩ := step_cases h
  · exact hexcl.step (hop _ rfl) hlock
  · exact hexcl.step (hop o ho) hlock
  · exact hexcl
  · exact hexcl.step (hop _ rfl) (SpinLock.step_leave hpc)

/-! ## What is on the screen -/

omit [DecidableEq ι] in
/-- The thread in the section is the only one. -/
theorem inside_unique (h : s.lock.Exclusive) (ht : s.lock.pc t = .inside)
    (hu : s.lock.pc u = .inside) : u = t :=
  h.one u t (.inl hu) (.inl ht)

/-- A thread goes on before the section. -/
theorem Serial.goto {p : LockPc} {v : U32} (h : s.Serial) (ht : s.lock.pc t ≠ .inside)
    (ht' : s.lock.pc t ≠ .outside) (hp : p ≠ .inside) :
    Serial { s with lock := SpinLock.goto { s.lock with value := v } t p } := by
  have hinside (u : ι) : (SpinLock.goto { s.lock with value := v } t p).pc u = .inside ↔
      s.lock.pc u = .inside := by
    by_cases hu : u = t
    · subst hu
      simp only [SpinLock.goto_pc_self, hp, ht]
    · rw [SpinLock.goto_pc_of_ne _ _ hu]
  refine ⟨fun u hu => h.inside u ((hinside u).mp hu),
    fun hnone => h.nobody fun u hu => hnone u ((hinside u).mpr hu), fun u hu hu' => ?_⟩
  by_cases hut : u = t
  · subst hut
    exact h.before u ht ht'
  · rw [SpinLock.goto_pc_of_ne _ _ hut] at hu hu'
    exact h.before u hu hu'

/-- A thread goes into the empty section. -/
theorem Serial.goto_inside (h : s.Serial) (hnone : ∀ u, s.lock.pc u ≠ .inside)
    (ht : s.lock.pc t ≠ .outside) : Serial { s with lock := s.lock.goto t .inside } := by
  refine ⟨fun u hu => ⟨[], ?_, ?_⟩, fun hnone' => ?_, fun u hu hu' => ?_⟩
  · by_cases hut : u = t
    · subst hut
      exact (h.before u (hnone u) ht).symm
    · rw [SpinLock.goto_pc_of_ne _ _ hut] at hu
      exact absurd hu (hnone u)
  · rw [List.append_nil]
    exact h.nobody hnone
  · exact absurd (SpinLock.goto_pc_self s.lock t .inside) (hnone' t)
  · by_cases hut : u = t
    · subst hut
      exact absurd (SpinLock.goto_pc_self s.lock u .inside) hu
    · rw [SpinLock.goto_pc_of_ne _ _ hut] at hu hu'
      exact h.before u hu hu'

/-- A thread begins a call. -/
theorem Serial.printf (h : s.Serial) (ht : s.lock.pc t = .outside) (text : List Char) :
    Serial { s with
      lock := s.lock.goto t (.cmpxchg 0)
      text := Function.update s.text t text
      left := Function.update s.left t text } := by
  have hne {u : ι} (hu : s.lock.pc u = .inside) : u ≠ t := by
    rintro rfl
    rw [ht] at hu
    cases hu
  refine ⟨fun u hu => ?_, fun hnone => h.nobody fun u hu => hnone u ?_, fun u hu hu' => ?_⟩
  · by_cases hut : u = t
    · subst hut
      simp at hu
    · rw [SpinLock.goto_pc_of_ne _ _ hut] at hu
      simpa only [Function.update_of_ne hut] using h.inside u hu
  · rw [SpinLock.goto_pc_of_ne _ _ (hne hu)]
    exact hu
  · by_cases hut : u = t
    · subst hut
      simp only [Function.update_self]
    · rw [SpinLock.goto_pc_of_ne _ _ hut] at hu hu'
      simpa only [Function.update_of_ne hut] using h.before u hu hu'

/-- The thread in the section prints a character. -/
theorem Serial.put {c : Char} {left : List Char} (h : s.Serial) (hexcl : s.lock.Exclusive)
    (ht : s.lock.pc t = .inside) (hleft : s.left t = c :: left) :
    Serial { s with left := Function.update s.left t left, screen := s.screen ++ [c] } := by
  obtain ⟨printed, htext, hscreen⟩ := h.inside t ht
  refine ⟨fun u hu => ?_, fun hnone => absurd ht (hnone t), fun u hu hu' => ?_⟩
  · obtain rfl : u = t := inside_unique hexcl ht hu
    refine ⟨printed ++ [c], ?_, ?_⟩
    · simp only [Function.update_self, htext, hleft, List.append_assoc, List.singleton_append]
    · simp only [hscreen, List.append_assoc]
  · have hut : u ≠ t := by
      rintro rfl
      exact hu ht
    simpa only [Function.update_of_ne hut] using h.before u hu hu'

/-- The thread in the section has printed its text. -/
theorem Serial.finish (h : s.Serial) (hexcl : s.lock.Exclusive) (ht : s.lock.pc t = .inside)
    (hleft : s.left t = []) :
    Serial { s with
      lock := SpinLock.goto { s.lock with value := 0 } t .outside
      completed := s.completed ++ [s.text t] } := by
  obtain ⟨printed, htext, hscreen⟩ := h.inside t ht
  rw [hleft, List.append_nil] at htext
  have hother {u : ι} (hut : u ≠ t) : s.lock.pc u ≠ .inside :=
    fun hu => hut (inside_unique hexcl ht hu)
  refine ⟨fun u hu => ?_, fun _ => ?_, fun u hu hu' => ?_⟩
  · by_cases hut : u = t
    · subst hut
      simp at hu
    · rw [SpinLock.goto_pc_of_ne _ _ hut] at hu
      exact absurd hu (hother hut)
  · simp only [hscreen, ← htext, List.flatten_append, List.flatten_singleton]
  · by_cases hut : u = t
    · subst hut
      simp at hu'
    · rw [SpinLock.goto_pc_of_ne _ _ hut] at hu hu'
      exact h.before u hu hu'

theorem Serial.step {op : PrintfOp ι} (h : s.Serial) (hexcl : s.lock.Exclusive)
    (hstep : Step s op s') : s'.Serial := by
  obtain ⟨t, text, lock, rfl, hlock, rfl⟩ | ⟨t, o, lock, -, ho, hlock, rfl⟩ |
    ⟨t, c, left, rfl, hleft, hpc, rfl⟩ | ⟨t, rfl, hpc, hleft, rfl⟩ := step_cases hstep
  · obtain ⟨hpc, rfl⟩ : s.lock.pc t = .outside ∧ lock = s.lock.goto t (.cmpxchg 0) := by
      simpa [SpinLock.Step, SpinLock.step, eq_comm] using hlock
    exact h.printf hpc text
  · obtain ⟨u, rfl, -, -⟩ | ⟨u, rfl, hpc, rfl⟩ | ⟨u, eax, rfl, hpc, -, rfl⟩ |
      ⟨u, eax, rfl, hpc, rfl⟩ | ⟨u, rfl, -, -⟩ := SpinLock.step_cases hlock
    · simp at ho
    · exact h.goto (by simp [hpc]) (by simp [hpc]) (by simp)
    · exact h.goto (by simp [hpc]) (by simp [hpc]) (by simp)
    · by_cases heax : eax = 1
      · rw [if_pos heax]
        exact h.goto (by simp [hpc]) (by simp [hpc]) (by simp)
      · -- the thread has taken the lock, so nobody is in the section
        obtain rfl : eax = 0 := (hexcl.eax u eax (.inr hpc)).resolve_right heax
        rw [if_neg heax]
        refine h.goto_inside (fun v hv => ?_) (by simp [hpc])
        obtain rfl : v = u := hexcl.one v u (.inl hv) (.inr hpc)
        rw [hpc] at hv
        cases hv
    · simp at ho
  · exact h.put hexcl hpc hleft
  · exact h.finish hexcl hpc hleft

/-- As long as no thread that waits finds the lock free, the screen shows whole texts, one behind
the other, and the beginning of one more. -/
theorem screen_serial (h : Run (Guarded Orderly Step) init ops s) : s.Serial := by
  have hboth : s.lock.Exclusive ∧ s.Serial :=
    h.guarded_invariant (I := fun s => s.lock.Exclusive ∧ s.Serial)
      (fun _ _ _ hi hop hstep => ⟨hstep.exclusive hop hi.1, hi.2.step hi.1 hstep⟩)
      ⟨SpinLock.init_exclusive, init_serial⟩
  exact hboth.2

omit [DecidableEq ι] in
/-- The step of the lock in an operation is in order. -/
theorem orderly_of {op : PrintfOp ι} {o : SpinOp ι} (ho : op.lockOp = some o)
    (h : s.lock.Orderly o) : s.Orderly op := by
  intro o' ho'
  rw [ho] at ho'
  cases ho'
  exact h

omit [DecidableEq ι] in
theorem orderly_put : s.Orderly (.put t) := by
  intro o ho
  cases ho

/-- A thread prints its text. Then another one prints a character, while the first one waits with
another text. -/
def twoTexts : List (PrintfOp ℕ) :=
  [.printf 0 ['a', 'b'], .cmpxchg 0, .cmp 0, .put 0, .put 0, .finish 0, .printf 1 ['c', 'd'],
    .cmpxchg 1, .cmp 1, .put 1, .printf 0 ['e'], .cmpxchg 0]

theorem screen_serial_two : ∃ s : Console ℕ, Run (Guarded Orderly Step) init twoTexts s ∧
    s.completed = [['a', 'b']] ∧ s.screen = ['a', 'b', 'c'] ∧ s.Serial := by
  have hrun : ∃ s : Console ℕ, Run (Guarded Orderly Step) init twoTexts s ∧
      s.completed = [['a', 'b']] ∧ s.screen = ['a', 'b', 'c'] :=
    ⟨_, .cons ⟨orderly_of rfl trivial, rfl⟩
      (.cons ⟨orderly_of rfl (SpinLock.orderly_cmpxchg rfl), rfl⟩
      (.cons ⟨orderly_of rfl trivial, rfl⟩ (.cons ⟨orderly_put, rfl⟩ (.cons ⟨orderly_put, rfl⟩
      (.cons ⟨orderly_of rfl rfl, rfl⟩ (.cons ⟨orderly_of rfl trivial, rfl⟩
      (.cons ⟨orderly_of rfl (SpinLock.orderly_cmpxchg rfl), rfl⟩
      (.cons ⟨orderly_of rfl trivial, rfl⟩ (.cons ⟨orderly_put, rfl⟩
      (.cons ⟨orderly_of rfl trivial, rfl⟩
      (.single ⟨orderly_of rfl (SpinLock.orderly_cmpxchg rfl), rfl⟩))))))))))), rfl, rfl⟩
  obtain ⟨s, hrun, hcompleted, hscreen⟩ := hrun
  exact ⟨s, hrun, hcompleted, hscreen, screen_serial hrun⟩

end Console

end LtMicros
