import LtMicros.Ipc

/-!
# The spin lock

`_acquire_lock` and `_release_lock`, instruction by instruction, with any number of threads and
in any order of their steps. `lock cmpxchg` leaves the word that it has found in `eax`, and the
loop does not reset `eax`: a thread that has found the lock taken compares the word with 1 from
then on.
-/

namespace LtMicros

open Lib

/-- Where a thread is: outside, at `lock cmpxchg` or at the `cmp` behind it, with what it has in
`eax`, or in the critical section. -/
inductive LockPc where
  | outside
  | cmpxchg (eax : U32)
  | cmp (eax : U32)
  | inside
deriving DecidableEq

/-- `CriticalSection::_value`, and where the threads are. -/
structure SpinLock (ι : Type*) where
  value : U32
  pc : ι → LockPc

/-- A thread calls `Enter` and comes to `.spin_wait`, carries out one of the two instructions of
the loop, or calls `Leave`. -/
inductive SpinOp (ι : Type*) where
  | enter (t : ι)
  | cmpxchg (t : ι)
  | cmp (t : ι)
  | leave (t : ι)

namespace SpinLock

variable {ι : Type*} [DecidableEq ι] {s s' : SpinLock ι} {ops : List (SpinOp ι)} {t u : ι}
  {eax v w : U32} {p : LockPc}

/-- A thread goes on. -/
def goto (s : SpinLock ι) (t : ι) (p : LockPc) : SpinLock ι :=
  { s with pc := Function.update s.pc t p }

/-- One instruction. `Leave` can be called from outside as well. -/
def step (s : SpinLock ι) : SpinOp ι → Option (SpinLock ι)
  | .enter t => if s.pc t = .outside then some (s.goto t (.cmpxchg 0)) else none
  | .cmpxchg t =>
    match s.pc t with
    | .cmpxchg eax =>
      if s.value = eax then some (SpinLock.goto { s with value := 1 } t (.cmp eax))
      else some (s.goto t (.cmp s.value))
    | _ => none
  | .cmp t =>
    match s.pc t with
    | .cmp eax => some (s.goto t (if eax = 1 then .cmpxchg eax else .inside))
    | _ => none
  | .leave t =>
    if s.pc t = .inside ∨ s.pc t = .outside then
      some (SpinLock.goto { s with value := 0 } t .outside)
    else none

/-- The steps of the threads. -/
def Step (s : SpinLock ι) (op : SpinOp ι) (s' : SpinLock ι) : Prop := s.step op = some s'

/-- `CriticalSection::CriticalSection`, with all threads outside. -/
def init : SpinLock ι where
  value := 0
  pc := fun _ => .outside

/-- A thread has the lock: it is in the section, or it has found the word 0 and is on its way
into it. -/
def Holds (s : SpinLock ι) (t : ι) : Prop := s.pc t = .inside ∨ s.pc t = .cmp 0

/-- A thread has found the lock taken and is in the loop. -/
def Waits (s : SpinLock ι) (t : ι) : Prop := s.pc t = .cmpxchg 1 ∨ s.pc t = .cmp 1

/-- No thread that waits finds the lock free, and `Leave` is called in the section. -/
def Orderly (s : SpinLock ι) : SpinOp ι → Prop
  | .cmpxchg t => s.pc t = .cmpxchg 1 → s.value ≠ 0
  | .leave t => s.pc t = .inside
  | _ => True

/-! ## What a step does -/

@[simp] theorem goto_value (s : SpinLock ι) (t : ι) (p : LockPc) : (s.goto t p).value = s.value :=
  rfl

@[simp] theorem goto_pc_self (s : SpinLock ι) (t : ι) (p : LockPc) : (s.goto t p).pc t = p := by
  simp only [goto, Function.update_self]

theorem goto_pc_of_ne (s : SpinLock ι) (p : LockPc) (h : u ≠ t) : (s.goto t p).pc u = s.pc u := by
  simp only [goto, Function.update_of_ne h]

theorem step_enter (h : s.pc t = .outside) : Step s (.enter t) (s.goto t (.cmpxchg 0)) :=
  if_pos h

/-- The word is what `eax` says: it becomes 1. -/
theorem step_cmpxchg_eq (h : s.pc t = .cmpxchg s.value) :
    Step s (.cmpxchg t) (SpinLock.goto { s with value := 1 } t (.cmp s.value)) := by
  simp [Step, step, h]

/-- The word is not what `eax` says: it is left alone. -/
theorem step_cmpxchg_ne (h : s.pc t = .cmpxchg eax) (hne : s.value ≠ eax) :
    Step s (.cmpxchg t) (s.goto t (.cmp s.value)) := by
  simp [Step, step, h, hne]

theorem step_cmp (h : s.pc t = .cmp eax) (hne : eax ≠ 1) : Step s (.cmp t) (s.goto t .inside) := by
  simp only [Step, step, h, if_neg hne]

theorem step_cmp_again (h : s.pc t = .cmp 1) : Step s (.cmp t) (s.goto t (.cmpxchg 1)) := by
  simp [Step, step, h]

theorem step_leave (h : s.pc t = .inside) :
    Step s (.leave t) (SpinLock.goto { s with value := 0 } t .outside) :=
  if_pos (.inl h)

omit [DecidableEq ι] in
/-- The first look at the word is in order, whatever it is. -/
theorem orderly_cmpxchg (h : s.pc t = .cmpxchg 0) : s.Orderly (.cmpxchg t) := by
  intro h'
  rw [h] at h'
  simp at h'

/-- Everything that a step can do. -/
theorem step_cases {op : SpinOp ι} (h : Step s op s') :
    (∃ t, op = .enter t ∧ s.pc t = .outside ∧ s' = s.goto t (.cmpxchg 0)) ∨
    (∃ t, op = .cmpxchg t ∧ s.pc t = .cmpxchg s.value ∧
      s' = SpinLock.goto { s with value := 1 } t (.cmp s.value)) ∨
    (∃ t eax, op = .cmpxchg t ∧ s.pc t = .cmpxchg eax ∧ s.value ≠ eax ∧
      s' = s.goto t (.cmp s.value)) ∨
    (∃ t eax, op = .cmp t ∧ s.pc t = .cmp eax ∧
      s' = s.goto t (if eax = 1 then .cmpxchg eax else .inside)) ∨
    (∃ t, op = .leave t ∧ (s.pc t = .inside ∨ s.pc t = .outside) ∧
      s' = SpinLock.goto { s with value := 0 } t .outside) := by
  cases op with
  | enter t =>
    simp only [Step, step, Option.ite_none_right_eq_some, Option.some.injEq] at h
    exact .inl ⟨t, rfl, h.1, h.2.symm⟩
  | cmpxchg t =>
    simp only [Step, step] at h
    cases hpc : s.pc t with
    | cmpxchg eax =>
      simp only [hpc] at h
      by_cases hv : s.value = eax
      · rw [if_pos hv, Option.some.injEq] at h
        exact .inr (.inl ⟨t, rfl, by rw [hpc, hv], by rw [← h, hv]⟩)
      · rw [if_neg hv, Option.some.injEq] at h
        exact .inr (.inr (.inl ⟨t, eax, rfl, hpc, hv, h.symm⟩))
    | outside => simp [hpc] at h
    | cmp eax => simp [hpc] at h
    | inside => simp [hpc] at h
  | cmp t =>
    simp only [Step, step] at h
    cases hpc : s.pc t with
    | cmp eax =>
      simp only [hpc, Option.some.injEq] at h
      exact .inr (.inr (.inr (.inl ⟨t, eax, rfl, hpc, h.symm⟩)))
    | outside => simp [hpc] at h
    | cmpxchg eax => simp [hpc] at h
    | inside => simp [hpc] at h
  | leave t =>
    simp only [Step, step, Option.ite_none_right_eq_some, Option.some.injEq] at h
    exact .inr (.inr (.inr (.inr ⟨t, rfl, h.1, h.2.symm⟩)))

/-! ## Mutual exclusion -/

/-- The word is 1 exactly while a thread has the lock, one thread at most has it, and the others
have a free or a taken lock in `eax`. -/
structure Exclusive (s : SpinLock ι) : Prop where
  one : ∀ t u, s.Holds t → s.Holds u → t = u
  taken : ∀ t, s.Holds t → s.value = 1
  free : (∀ t, ¬s.Holds t) → s.value = 0
  eax : ∀ t eax, s.pc t = .cmpxchg eax ∨ s.pc t = .cmp eax → eax = 0 ∨ eax = 1

omit [DecidableEq ι] in
theorem init_exclusive : (init : SpinLock ι).Exclusive := by
  constructor <;> simp [init, Holds]

theorem goto_holds (hne : u ≠ t) : (s.goto t p).Holds u ↔ s.Holds u := by
  rw [Holds, Holds, goto_pc_of_ne s p hne]

theorem goto_holds_self : (s.goto t p).Holds t ↔ p = .inside ∨ p = .cmp 0 := by
  rw [Holds, goto_pc_self]

omit [DecidableEq ι] in
theorem Exclusive.value (h : s.Exclusive) : s.value = 0 ∨ s.value = 1 := by
  by_cases hheld : ∃ t, s.Holds t
  · obtain ⟨t, ht⟩ := hheld
    exact .inr (h.taken t ht)
  · exact .inl (h.free fun t ht => hheld ⟨t, ht⟩)

/-- What the threads have in `eax` when one of them goes on. -/
theorem Exclusive.eax_goto (h : s.Exclusive) (hp : ∀ eax, p = .cmpxchg eax ∨ p = .cmp eax →
    eax = 0 ∨ eax = 1) (u : ι) (eax : U32)
    (hu : (s.goto t p).pc u = .cmpxchg eax ∨ (s.goto t p).pc u = .cmp eax) : eax = 0 ∨ eax = 1 := by
  by_cases hut : u = t
  · subst hut
    rw [goto_pc_self] at hu
    exact hp eax hu
  · rw [goto_pc_of_ne s p hut] at hu
    exact h.eax u eax hu

/-- A thread goes on, and has the lock afterwards if it had it before. -/
theorem Exclusive.goto (h : s.Exclusive) (ht : (s.goto t p).Holds t ↔ s.Holds t)
    (hp : ∀ eax, p = .cmpxchg eax ∨ p = .cmp eax → eax = 0 ∨ eax = 1) :
    (s.goto t p).Exclusive := by
  have hsame (u : ι) : (s.goto t p).Holds u ↔ s.Holds u := by
    by_cases hu : u = t
    · rwa [hu]
    · exact goto_holds hu
  exact ⟨fun a b ha hb => h.one a b ((hsame a).1 ha) ((hsame b).1 hb),
    fun a ha => h.taken a ((hsame a).1 ha),
    fun hnone => h.free fun a ha => hnone a ((hsame a).2 ha), h.eax_goto hp⟩

/-- A thread takes the lock that nobody has. -/
theorem Exclusive.take (h : s.Exclusive) (hv : s.value = 0) :
    (SpinLock.goto { s with value := 1 } t (.cmp 0)).Exclusive := by
  have hnone (u : ι) : ¬s.Holds u := by
    intro hu
    exact absurd (hv.symm.trans (h.taken u hu)) (by decide)
  have honly (u : ι) (hu : (SpinLock.goto { s with value := 1 } t (.cmp 0)).Holds u) : u = t := by
    by_contra hne
    exact hnone u ((goto_holds hne).1 hu)
  refine ⟨fun a b ha hb => (honly a ha).trans (honly b hb).symm, fun _ _ => rfl, fun hfree => ?_,
    fun a eax ha => ?_⟩
  · exact absurd (goto_holds_self.2 (.inr rfl)) (hfree t)
  · by_cases hat : a = t
    · subst hat
      rw [goto_pc_self] at ha
      rcases ha with ha | ha
      · cases ha
      · exact .inl (LockPc.cmp.inj ha).symm
    · rw [goto_pc_of_ne _ _ hat] at ha
      exact h.eax a eax ha

/-- The thread that has the lock gives it back. -/
theorem Exclusive.give (h : s.Exclusive) (ht : s.Holds t) :
    (SpinLock.goto { s with value := 0 } t .outside).Exclusive := by
  have hnone (u : ι) : ¬(SpinLock.goto { s with value := 0 } t .outside).Holds u := by
    intro hu
    by_cases hut : u = t
    · subst hut
      simpa using goto_holds_self.1 hu
    · exact hut (h.one u t ((goto_holds hut).1 hu) ht)
  refine ⟨fun a _ ha => absurd ha (hnone a), fun a ha => absurd ha (hnone a), fun _ => rfl,
    fun a eax ha => ?_⟩
  by_cases hat : a = t
  · subst hat
    simp at ha
  · rw [goto_pc_of_ne _ _ hat] at ha
    exact h.eax a eax ha

theorem Exclusive.step {op : SpinOp ι} (h : s.Exclusive) (hop : s.Orderly op)
    (hstep : Step s op s') : s'.Exclusive := by
  obtain ⟨t, rfl, hpc, rfl⟩ | ⟨t, rfl, hpc, rfl⟩ | ⟨t, eax, rfl, hpc, hne, rfl⟩ |
    ⟨t, eax, rfl, hpc, rfl⟩ | ⟨t, rfl, -, rfl⟩ := step_cases hstep
  · exact h.goto (by simp [Holds, hpc]) (by simp)
  · rcases h.value with hv | hv
    · rw [hv]
      exact h.take hv
    · -- the word is 1 and stays so
      have hsame : ({ s with value := 1 } : SpinLock ι) = s := by rw [← hv]
      rw [hsame, hv]
      exact h.goto (by simp [Holds, hpc]) (by simp)
  · rcases h.value with hv | hv
    · -- a thread that waits does not find the lock free
      rcases h.eax t eax (.inl hpc) with rfl | rfl
      · exact absurd hv hne
      · exact absurd hv (hop hpc)
    · rw [hv]
      exact h.goto (by simp [Holds, hpc]) (by simp)
  · rcases h.eax t eax (.inr hpc) with rfl | rfl
    · exact h.goto (by simp [Holds, hpc]) (by simp)
    · exact h.goto (by simp [Holds, hpc]) (by simp)
  · exact h.give (.inl hop)

/-- As long as no thread that waits finds the lock free, one thread at most is in the section. -/
theorem exclusive_of_orderly (h : Run (Guarded Orderly Step) init ops s) : s.Exclusive :=
  h.guarded_invariant (fun _ _ _ h hop hstep => h.step hop hstep) init_exclusive

/-- A thread that waits goes on waiting. -/
theorem Waits.step {op : SpinOp ι} (hw : s.Waits t) (h : s.Exclusive) (hop : s.Orderly op)
    (hstep : Step s op s') : s'.Waits t := by
  have hother {s₁ : SpinLock ι} {u : ι} {p : LockPc} (hs₁ : s₁.pc = s.pc) (hu : t ≠ u) :
      (s₁.goto u p).Waits t := by
    rw [Waits, goto_pc_of_ne s₁ p hu, hs₁]
    exact hw
  obtain ⟨u, rfl, hpc, rfl⟩ | ⟨u, rfl, hpc, rfl⟩ | ⟨u, eax, rfl, hpc, hne, rfl⟩ |
    ⟨u, eax, rfl, hpc, rfl⟩ | ⟨u, rfl, -, rfl⟩ := step_cases hstep
  · by_cases hu : t = u
    · subst hu
      simp [Waits, hpc] at hw
    · exact hother rfl hu
  · by_cases hu : t = u
    · subst hu
      have hv : s.value = 1 := by simpa [Waits, hpc] using hw
      exact .inr (by rw [goto_pc_self, hv])
    · exact hother rfl hu
  · by_cases hu : t = u
    · subst hu
      obtain rfl : eax = 1 := by simpa [Waits, hpc] using hw
      exact absurd (h.value.resolve_left (hop hpc)) hne
    · exact hother rfl hu
  · by_cases hu : t = u
    · subst hu
      obtain rfl : eax = 1 := by simpa [Waits, hpc] using hw
      exact .inl (goto_pc_self s t _)
    · exact hother rfl hu
  · by_cases hu : t = u
    · subst hu
      simp [Waits, show s.pc t = .inside from hop] at hw
    · exact hother rfl hu

/-- What the lock gives in such a run: mutual exclusion, at the price that nobody who has waited
ever gets in. -/
theorem orderly_run (h : Run (Guarded Orderly Step) init ops s) :
    (∀ t u, s.Holds t → s.Holds u → t = u) ∧
      ∀ t ops' s', s.Waits t → Run (Guarded Orderly Step) s ops' s' → s'.Waits t := by
  have hexcl : s.Exclusive := exclusive_of_orderly h
  refine ⟨hexcl.one, fun t ops' s' hw hrun => ?_⟩
  exact (hrun.guarded_invariant (I := fun s => s.Exclusive ∧ s.Waits t)
    (fun _ _ _ hi hop hstep => ⟨hi.1.step hop hstep, hi.2.step hi.1 hop hstep⟩) ⟨hexcl, hw⟩).2

/-- The first thread is in the section, and the second one has found the lock taken. -/
theorem orderly_run_two : ∃ s : SpinLock ℕ,
    Run (Guarded Orderly Step) init
      [.enter 0, .cmpxchg 0, .cmp 0, .enter 1, .cmpxchg 1, .cmp 1] s ∧
      s.Holds 0 ∧ s.Waits 1 ∧ ∀ t u, s.Holds t → s.Holds u → t = u := by
  have hrun : ∃ s : SpinLock ℕ, Run (Guarded Orderly Step) init
      [.enter 0, .cmpxchg 0, .cmp 0, .enter 1, .cmpxchg 1, .cmp 1] s ∧
      s.Holds 0 ∧ s.Waits 1 :=
    ⟨_, .cons ⟨trivial, rfl⟩ (.cons ⟨orderly_cmpxchg rfl, rfl⟩ (.cons ⟨trivial, rfl⟩
      (.cons ⟨trivial, rfl⟩ (.cons ⟨orderly_cmpxchg rfl, rfl⟩ (.single ⟨trivial, rfl⟩))))),
      .inl rfl, .inl rfl⟩
  obtain ⟨s, hrun, hholds, hwaits⟩ := hrun
  exact ⟨s, hrun, hholds, hwaits, (orderly_run hrun).1⟩

/-! ## Those who have waited -/

/-- An instruction of `Enter`, by a thread. -/
def InEnter (t : ι) (op : SpinOp ι) : Prop := op = .enter t ∨ op = .cmpxchg t ∨ op = .cmp t

/-- What a group of threads does is not seen by the others. -/
def Others (ts : List ι) (s s' : SpinLock ι) : Prop := ∀ u ∉ ts, s'.pc u = s.pc u

theorem Others.goto (s : SpinLock ι) (t : ι) (p : LockPc) : Others [t] s (s.goto t p) :=
  fun _ hu => goto_pc_of_ne s p (by simpa using hu)

/-- A thread comes to a lock whose word is not 1 and gets in. -/
theorem run_take (h : s.pc t = .outside) (hv : s.value ≠ 1) :
    ∃ s', Run Step s [.enter t, .cmpxchg t, .cmp t] s' ∧
      s'.value = (if s.value = 0 then 1 else s.value) ∧ s'.pc t = .inside ∧ Others [t] s s' := by
  have h₁ := step_enter h
  by_cases hzero : s.value = 0
  · have h₂ := step_cmpxchg_eq (s := s.goto t (.cmpxchg 0)) (t := t)
      (by rw [goto_value, hzero, goto_pc_self])
    rw [goto_value, hzero] at h₂
    have h₃ := step_cmp
      (s := SpinLock.goto { s.goto t (.cmpxchg 0) with value := 1 } t (.cmp 0))
      (goto_pc_self _ t _) (by decide)
    refine ⟨_, .cons h₁ (.cons h₂ (.single h₃)), (if_pos hzero).symm, goto_pc_self _ t _,
      fun u hu => ?_⟩
    have hne : u ≠ t := by simpa using hu
    rw [goto_pc_of_ne _ _ hne, goto_pc_of_ne _ _ hne]
    exact goto_pc_of_ne _ _ hne
  · have h₂ := step_cmpxchg_ne (s := s.goto t (.cmpxchg 0)) (goto_pc_self s t _) hzero
    rw [goto_value] at h₂
    have h₃ := step_cmp (goto_pc_self (s.goto t (.cmpxchg 0)) t (.cmp s.value)) hv
    refine ⟨_, .cons h₁ (.cons h₂ (.single h₃)), (if_neg hzero).symm, goto_pc_self _ t _,
      fun u hu => ?_⟩
    have hne : u ≠ t := by simpa using hu
    rw [goto_pc_of_ne _ _ hne, goto_pc_of_ne _ _ hne, goto_pc_of_ne _ _ hne]

/-- A thread comes to the taken lock and finds it so. -/
theorem run_wait (h : s.pc t = .outside) (hv : s.value = 1) :
    ∃ s', Run Step s [.enter t, .cmpxchg t, .cmp t] s' ∧ s'.value = 1 ∧
      s'.pc t = .cmpxchg 1 ∧ Others [t] s s' := by
  have h₁ := step_enter h
  have h₂ := step_cmpxchg_ne (s := s.goto t (.cmpxchg 0)) (goto_pc_self s t _)
    (by rw [goto_value, hv]; decide)
  rw [goto_value, hv] at h₂
  have h₃ := step_cmp_again (goto_pc_self (s.goto t (.cmpxchg 0)) t (.cmp 1))
  refine ⟨_, .cons h₁ (.cons h₂ (.single h₃)), hv, goto_pc_self _ t _, fun u hu => ?_⟩
  have hne : u ≠ t := by simpa using hu
  rw [goto_pc_of_ne _ _ hne, goto_pc_of_ne _ _ hne, goto_pc_of_ne _ _ hne]

/-- A thread that has waited finds the lock free: it gets in and leaves it free. -/
theorem run_slip (h : s.pc t = .cmpxchg 1) (hv : s.value = 0) :
    ∃ s', Run Step s [.cmpxchg t, .cmp t] s' ∧ s'.value = 0 ∧ s'.pc t = .inside ∧
      Others [t] s s' := by
  have h₁ := step_cmpxchg_ne h (by rw [hv]; decide)
  rw [hv] at h₁
  have h₂ := step_cmp (goto_pc_self s t (.cmp 0)) (by decide)
  refine ⟨_, .cons h₁ (.single h₂), hv, goto_pc_self _ t _, fun u hu => ?_⟩
  have hne : u ≠ t := by simpa using hu
  rw [goto_pc_of_ne _ _ hne, goto_pc_of_ne _ _ hne]

/-- What each of several threads can do in `Enter` from a place of its own, without touching the
others, all of them can do one after the other. -/
theorem run_each {w : U32} {p q : LockPc}
    (hone : ∀ (s : SpinLock ι) (t : ι), s.pc t = p → s.value = w →
      ∃ ops s', (∀ op ∈ ops, InEnter t op) ∧ Run Step s ops s' ∧ s'.value = w ∧ s'.pc t = q ∧
        Others [t] s s')
    {ts : List ι} (hnodup : ts.Nodup) (hts : ∀ t ∈ ts, s.pc t = p) (hv : s.value = w) :
    ∃ ops s', (∀ op ∈ ops, ∃ t ∈ ts, InEnter t op) ∧ Run Step s ops s' ∧ s'.value = w ∧
      (∀ t ∈ ts, s'.pc t = q) ∧ Others ts s s' := by
  induction ts generalizing s with
  | nil => exact ⟨[], s, by simp, .nil s, hv, by simp, fun _ _ => rfl⟩
  | cons t ts ih =>
    obtain ⟨hfresh, hnodup⟩ := List.nodup_cons.mp hnodup
    obtain ⟨ops, s₁, hops, hrun, hv₁, ht, hothers⟩ := hone s t (hts t List.mem_cons_self) hv
    have hts₁ (u : ι) (hu : u ∈ ts) : s₁.pc u = p := by
      have hne : u ≠ t := fun heq => hfresh (heq ▸ hu)
      rw [hothers u (by simpa using hne)]
      exact hts u (List.mem_cons_of_mem t hu)
    obtain ⟨ops', s₂, hops', hrun', hv₂, hin, hothers'⟩ := ih hnodup hts₁ hv₁
    refine ⟨ops ++ ops', s₂, fun op hop => ?_, hrun.trans hrun', hv₂, fun u hu => ?_,
      fun u hu => ?_⟩
    · rcases List.mem_append.mp hop with hop | hop
      · exact ⟨t, List.mem_cons_self, hops op hop⟩
      · obtain ⟨u, hu, hin⟩ := hops' op hop
        exact ⟨u, List.mem_cons_of_mem t hu, hin⟩
    · rcases List.mem_cons.mp hu with rfl | hu
      · rw [hothers' u hfresh]
        exact ht
      · exact hin u hu
    · have hu' := not_or.mp (mt List.mem_cons.mpr hu)
      rw [hothers' u hu'.2, hothers u (by simpa using hu'.1)]

/-- The threads come to the lock: the first one is in, and the others find the word 1 and are in
the loop with it. -/
theorem run_gather {holder : ι} {waiters : List ι} (h : (holder :: waiters).Nodup) :
    ∃ ops s, (∀ op ∈ ops, ∃ t ∈ holder :: waiters, InEnter t op) ∧ Run Step init ops s ∧
      s.pc holder = .inside ∧ s.value = 1 ∧ ∀ t ∈ waiters, s.pc t = .cmpxchg 1 := by
  obtain ⟨hfresh, hnodup⟩ := List.nodup_cons.mp h
  obtain ⟨s₁, htake, hv₁, hin, hothers₁⟩ :=
    run_take (s := init) (t := holder) rfl (show (0 : U32) ≠ 1 by decide)
  have hout (t : ι) (ht : t ∈ waiters) : s₁.pc t = .outside := by
    have hne : t ≠ holder := fun heq => hfresh (heq ▸ ht)
    exact hothers₁ t (by simpa using hne)
  obtain ⟨ops, s₂, hops, hwait, hv₂, hall, hothers₂⟩ :=
    run_each (fun s t h hv => ⟨_, by
      obtain ⟨s', hrun⟩ := run_wait h hv
      exact ⟨s', by simp [InEnter], hrun⟩⟩) hnodup hout hv₁
  refine ⟨_, s₂, fun op hop => ?_, htake.trans hwait, (hothers₂ holder hfresh).trans hin, hv₂,
    hall⟩
  rcases List.mem_append.mp hop with hop | hop
  · exact ⟨holder, List.mem_cons_self, by simpa [InEnter] using hop⟩
  · obtain ⟨t, ht, hin⟩ := hops op hop
    exact ⟨t, List.mem_cons_of_mem holder ht, hin⟩

/-- All threads that wait for the one in the section can be in it together once that one has
left: no other thread takes a step, and the lock is free while they are in. -/
theorem all_waiters_enter {holder : ι} {waiters : List ι} (h : (holder :: waiters).Nodup) :
    ∃ ops₁ s₁ s₂ ops₂ s,
      ((∀ op ∈ ops₁, ∃ t ∈ holder :: waiters, InEnter t op) ∧ Run Step init ops₁ s₁ ∧
        s₁.pc holder = .inside ∧ s₁.value = 1 ∧ ∀ t ∈ waiters, s₁.pc t = .cmpxchg 1) ∧
      Step s₁ (.leave holder) s₂ ∧
      (∀ op ∈ ops₂, ∃ t ∈ waiters, InEnter t op) ∧ Run Step s₂ ops₂ s ∧
      s.value = 0 ∧ ∀ t ∈ waiters, s.pc t = .inside := by
  obtain ⟨ops₁, s₁, hops₁, hgather, hin, hv, hwait⟩ := run_gather h
  obtain ⟨hfresh, hnodup⟩ := List.nodup_cons.mp h
  have hstill (t : ι) (ht : t ∈ waiters) :
      (SpinLock.goto { s₁ with value := 0 } holder .outside).pc t = .cmpxchg 1 := by
    have hne : t ≠ holder := fun heq => hfresh (heq ▸ ht)
    rw [goto_pc_of_ne _ _ hne]
    exact hwait t ht
  obtain ⟨ops₂, s, hops₂, hslip, hv', hall, -⟩ :=
    run_each (fun s t h hv => ⟨_, by
      obtain ⟨s', hrun⟩ := run_slip h hv
      exact ⟨s', by simp [InEnter], hrun⟩⟩) hnodup hstill rfl
  exact ⟨ops₁, s₁, _, ops₂, s, ⟨hops₁, hgather, hin, hv, hwait⟩, step_leave hin, hops₂, hslip,
    hv', hall⟩

/-- Three threads: the first leaves, and the two others are in. -/
theorem three_threads : ([0, 1, 2] : List ℕ).Nodup ∧
    ∃ ops₁, ∃ s₁ s₂ : SpinLock ℕ, ∃ ops₂ s,
      ((∀ op ∈ ops₁, ∃ t ∈ [0, 1, 2], InEnter t op) ∧ Run Step init ops₁ s₁ ∧
        s₁.pc 0 = .inside ∧ s₁.value = 1 ∧ ∀ t ∈ [1, 2], s₁.pc t = .cmpxchg 1) ∧
      Step s₁ (.leave 0) s₂ ∧ (∀ op ∈ ops₂, ∃ t ∈ [1, 2], InEnter t op) ∧ Run Step s₂ ops₂ s ∧
      s.value = 0 ∧ ∀ t ∈ [1, 2], s.pc t = .inside :=
  have hnodup : ([0, 1, 2] : List ℕ).Nodup := by decide
  ⟨hnodup, all_waiters_enter hnodup⟩

/-! ## A thread on its own -/

/-- Where a thread is that has come to a lock with the word `v`, while no other one takes a
step. -/
def Alone (v : U32) (t : ι) (s : SpinLock ι) : Prop :=
  match s.pc t with
  | .outside => s.value = v
  | .cmpxchg eax => s.value = v ∧ (eax = 0 ∨ eax = 1 ∧ v = 1)
  | .cmp eax => eax = v ∧ s.value = if v = 0 then 1 else v
  | .inside => v ≠ 1 ∧ s.value = if v = 0 then 1 else v

theorem Alone.step {op : SpinOp ι} (h : s.Alone v t) (hop : InEnter t op)
    (hstep : Step s op s') : s'.Alone v t := by
  obtain ⟨u, rfl, hpc, rfl⟩ | ⟨u, rfl, hpc, rfl⟩ | ⟨u, eax, rfl, hpc, hne, rfl⟩ |
    ⟨u, eax, rfl, hpc, rfl⟩ | ⟨u, rfl, -, rfl⟩ := step_cases hstep
  · obtain rfl : u = t := by simpa [InEnter] using hop
    simpa [Alone, hpc] using h
  · obtain rfl : u = t := by simpa [InEnter] using hop
    simp only [Alone, hpc] at h
    obtain ⟨rfl, h0 | ⟨h1, -⟩⟩ := h
    · simp [Alone, h0]
    · simp [Alone, h1]
  · obtain rfl : u = t := by simpa [InEnter] using hop
    simp only [Alone, hpc] at h
    obtain ⟨rfl, hcase⟩ := h
    have hword : s.value = if s.value = 0 then 1 else s.value := by
      split_ifs with h0
      · -- the word is 0 and `eax` is not
        rcases hcase with rfl | ⟨-, h1⟩
        · exact absurd h0 hne
        · exact h1
      · rfl
    simpa [Alone] using hword
  · obtain rfl : u = t := by simpa [InEnter] using hop
    simp only [Alone, hpc] at h
    obtain ⟨rfl, hv⟩ := h
    by_cases h1 : eax = 1
    · subst h1
      simpa [Alone] using hv
    · rw [if_neg h1, Alone, goto_pc_self]
      exact ⟨h1, hv⟩
  · simp [InEnter] at hop

/-- What a run of the thread's own instructions of `Enter` leads to. -/
theorem Alone.run (h : s.Alone v t) (hops : ∀ op ∈ ops, InEnter t op) (hrun : Run Step s ops s') :
    s'.Alone v t :=
  (hrun.of_forall hops).invariant (I := fun s' => s'.Alone v t)
    (fun _ _ _ h hstep => Alone.step h hstep.1 hstep.2) h

/-- What the callers of the lock take `Enter` to be: the lock alone with the thread. It comes in
unless the lock is taken, and then no number of its own instructions brings it in. -/
theorem enter_ret_iff (hpc : s.pc t = .outside) :
    (∀ w, enter s.value = .ret w ↔ ∃ ops s', (∀ op ∈ ops, InEnter t op) ∧ Run Step s ops s' ∧
      s'.pc t = .inside ∧ s'.value = w) ∧
    (enter s.value = .hang ↔ s.value = 1) ∧
    (s.value = 1 ↔ ∀ ops s', (∀ op ∈ ops, InEnter t op) → Run Step s ops s' →
      s'.pc t ≠ .inside) := by
  have halone : s.Alone s.value t := by simp [Alone, hpc]
  have henter (w : U32) : enter s.value = .ret w ↔
      s.value ≠ 1 ∧ w = if s.value = 0 then 1 else s.value := by
    rw [enter]
    split_ifs with h0 h1
    · simp [h0, eq_comm]
    · simp [h1]
    · rw [Outcome.ret.injEq]
      exact ⟨fun h => ⟨h1, h.symm⟩, fun h => h.2.symm⟩
  refine ⟨fun w => (henter w).trans ⟨?_, ?_⟩, ?_, fun h1 ops s' hops hrun hin => ?_,
    fun hnever => ?_⟩
  · rintro ⟨h1, rfl⟩
    obtain ⟨s', hrun, hw, hin, -⟩ := run_take hpc h1
    exact ⟨_, s', by simp [InEnter], hrun, hin, hw⟩
  · rintro ⟨ops, s', hops, hrun, hin, rfl⟩
    simpa only [Alone, hin] using halone.run hops hrun
  · rw [enter]
    split_ifs with h0 h1
    · simp [h0]
    · simp [h1]
    · simpa using h1
  · have hlast := halone.run hops hrun
    simp only [Alone, hin] at hlast
    exact hlast.1 h1
  · by_contra h1
    obtain ⟨s', hrun, -, hin, -⟩ := run_take hpc h1
    exact hnever _ s' (by simp [InEnter]) hrun hin

/-- A thread comes to a lock that another one has: it stays outside. -/
theorem taken_enter : ({ init with value := 1 } : SpinLock ℕ).pc 1 = .outside ∧
    enter 1 = .hang ∧ ∀ ops, ∀ s' : SpinLock ℕ, (∀ op ∈ ops, InEnter 1 op) →
      Run Step { init with value := 1 } ops s' → s'.pc 1 ≠ .inside :=
  have h := enter_ret_iff (s := ({ init with value := 1 } : SpinLock ℕ)) (t := 1) rfl
  ⟨rfl, h.2.1.2 rfl, h.2.2.1 rfl⟩

end SpinLock

end LtMicros
