import LtMicros.SchedulerRounds

/-!
# Time slices

The clock starts again from 0 after a second, and the time that a thread has worked is a
difference of two readings of it.
-/

namespace LtMicros

open Lib

/-- What `clock_isr` makes of `tics`. -/
def nextTics (tics : U32) : U32 := if 1000 ≤ tics + 1 then 0 else tics + 1

/-- What the scheduler takes for the time since a thread was resumed at `tics`, after `n` clock
interrupts. -/
def elapsedTics (tics : U32) (n : ℕ) : U32 := nextTics^[n] tics - tics

/-- The clock does not start again while a slice that begins at `tics` lasts. The last value
is not one that the clock ever shows. -/
def SliceFits (tics : U32) : Prop := tics.toNat < 900 ∨ tics = 0xFFFFFFFF

/-! ## Readings of the clock -/

section Clock

variable {tics : U32} {n : ℕ}

theorem nextTics_of_lt (h : tics.toNat + 1 < 1000) : (nextTics tics).toNat = tics.toNat + 1 := by
  have hadd : (tics + 1).toNat = tics.toNat + 1 := by
    rw [BitVec.toNat_add]
    exact Nat.mod_eq_of_lt (show tics.toNat + 1 < 2 ^ 32 by omega)
  rw [nextTics, if_neg, hadd]
  rw [BitVec.not_le]
  show (tics + 1).toNat < 1000
  rwa [hadd]

theorem nextTics_of_ge (h : 999 ≤ tics.toNat) (hne : tics ≠ 0xFFFFFFFF) : nextTics tics = 0 := by
  have hlast : tics.toNat ≠ 0xFFFFFFFF := fun heq => hne (BitVec.eq_of_toNat_eq heq)
  have hlt := tics.isLt
  have hadd : (tics + 1).toNat = tics.toNat + 1 := by
    rw [BitVec.toNat_add]
    exact Nat.mod_eq_of_lt (show tics.toNat + 1 < 2 ^ 32 by omega)
  rw [nextTics, if_pos]
  show 1000 ≤ (tics + 1).toNat
  omega

theorem iterate_nextTics (h : tics.toNat + n < 1000) :
    (nextTics^[n] tics).toNat = tics.toNat + n := by
  induction n with
  | zero => rfl
  | succ n ih =>
    have hprev := ih (by omega)
    rw [Function.iterate_succ_apply', nextTics_of_lt (by omega), hprev]
    omega

/-- From 0 the clock counts the interrupts. -/
theorem iterate_nextTics_zero (h : n < 1000) : (nextTics^[n] 0).toNat = n := by
  have hzero : (0 : U32).toNat = 0 := rfl
  have hlt : (0 : U32).toNat + n < 1000 := by rwa [hzero, Nat.zero_add]
  rw [iterate_nextTics hlt, hzero, Nat.zero_add]

theorem elapsedTics_of_lt (h : tics.toNat + n < 1000) : (elapsedTics tics n).toNat = n := by
  rw [elapsedTics, BitVec.toNat_sub, iterate_nextTics h]
  omega

/-- After the clock has started again, the difference goes around. -/
theorem elapsedTics_of_reset {k : ℕ} (hreset : nextTics^[k] tics = 0) (h : n < 1000) :
    (elapsedTics tics (n + k)).toNat = (2 ^ 32 - tics.toNat + n) % 2 ^ 32 := by
  rw [elapsedTics, Function.iterate_add_apply, hreset, BitVec.toNat_sub, iterate_nextTics_zero h]

theorem elapsedTics_le_of_fits (h : SliceFits tics) (hn : n ≤ 100) :
    elapsedTics tics n ≤ defaultThreadLimitWorkingTime := by
  show (elapsedTics tics n).toNat ≤ 100
  rcases h with h | rfl
  · rw [elapsedTics_of_lt (by omega)]
    exact hn
  · cases n with
    | zero => decide
    | succ n =>
      have hreset : nextTics^[1] 0xFFFFFFFF = 0 := by decide
      rw [elapsedTics_of_reset hreset (by omega)]
      show (2 ^ 32 - 0xFFFFFFFF + n) % 2 ^ 32 ≤ 100
      omega

/-- Otherwise some interrupt comes after which the difference is that of a whole slice. -/
theorem exists_elapsedTics_gt (h : ¬SliceFits tics) :
    ∃ n ≤ 100, defaultThreadLimitWorkingTime < elapsedTics tics n := by
  obtain ⟨hlo, hne⟩ := not_or.mp h
  have hlt := tics.isLt
  have hlast : tics.toNat ≠ 0xFFFFFFFF := fun heq => hne (BitVec.eq_of_toNat_eq heq)
  by_cases hsmall : tics.toNat < 999
  · -- the clock starts again at the interrupt 1000 - tics
    have hprev : (nextTics^[999 - tics.toNat] tics).toNat = 999 := by
      rw [iterate_nextTics (by omega)]
      omega
    have hreset : nextTics^[999 - tics.toNat + 1] tics = 0 := by
      rw [Function.iterate_succ_apply']
      apply nextTics_of_ge (by omega)
      intro heq
      rw [heq] at hprev
      exact absurd hprev (by decide)
    refine ⟨0 + (999 - tics.toNat + 1), by omega, ?_⟩
    show 100 < (elapsedTics _ _).toNat
    rw [elapsedTics_of_reset hreset (by decide)]
    omega
  · have hreset : nextTics^[1] tics = 0 := nextTics_of_ge (by omega) hne
    by_cases hbig : tics.toNat < 2 ^ 32 - 100
    · refine ⟨0 + 1, by decide, ?_⟩
      show 100 < (elapsedTics _ _).toNat
      rw [elapsedTics_of_reset hreset (by decide)]
      omega
    · refine ⟨tics.toNat + 101 - 2 ^ 32 + 1, by omega, ?_⟩
      show 100 < (elapsedTics _ _).toNat
      rw [elapsedTics_of_reset hreset (by omega)]
      omega

end Clock

namespace TaskMem

variable {m m' m₁ m₂ : TaskMem} {context : InterruptContext} {contexts : List InterruptContext}
  {c n fuel : ℕ} {args : Option StartArgs} {tics : U32}

/-- Between two clock interrupts anything may happen, but the thread `c` stays current and
runnable, and no runnable thread has a higher priority. -/
structure Works (c : ℕ) (m m₁ : TaskMem) : Prop where
  tics : m₁.tics = m.tics
  resumed : (m₁.threads c).ticsOnResume = (m.threads c).ticsOnResume
  scheduling : m₁.Scheduling c
  runnable : m₁.runnable c = true
  highest : ∀ t ∈ m₁.gScheduler.threadsList, m₁.runnable t = true → m₁.priority t ≤ m₁.priority c

/-- A clock interrupt that comes back to the thread `c`. -/
inductive ClockStep (c : ℕ) : TaskMem → InterruptContext → TaskMem → Prop
  | mk {m m₁ m' : TaskMem} {fuel : ℕ} {context : InterruptContext} : Works c m m₁ →
      m₁.clockTick.schedules fuel context = .ret (none, m') → ClockStep c m context m'

/-- The processor is taken from the thread at a clock interrupt only after more than
`DEFAULT_THREAD_LIMIT_WORKING_TIME` of them. -/
def SliceHonoured (m : TaskMem) (c : ℕ) : Prop :=
  ∀ contexts m' m₁ fuel context args m₂, Run (ClockStep c) m contexts m' → Works c m' m₁ →
    m₁.clockTick.schedules fuel context = .ret (some args, m₂) →
    defaultThreadLimitWorkingTime.toNat < contexts.length + 1

theorem clockTick_tics (m : TaskMem) : m.clockTick.tics = nextTics m.tics := rfl

theorem Works.clockTick_scheduling (h : Works c m m₁) : m₁.clockTick.Scheduling c := by
  obtain ⟨h1, h2, h3, h4, h5, h6⟩ := h.scheduling
  constructor <;> assumption

/-- At the interrupt the thread may stay while its slice is not over. -/
theorem Works.mayStay_iff (h : Works c m m₁) : m₁.clockTick.MayStay c ↔
    nextTics m.tics - (m.threads c).ticsOnResume ≤ defaultThreadLimitWorkingTime := by
  have htics : m₁.clockTick.tics - (m₁.clockTick.threads c).ticsOnResume =
      nextTics m.tics - (m.threads c).ticsOnResume := by
    rw [clockTick_tics, h.tics, ← h.resumed]
    rfl
  constructor
  · intro hstay
    rw [← htics]
    exact hstay.time
  · intro htime
    refine ⟨h.runnable, ?_, h.highest⟩
    rw [htics]
    exact htime

/-- An interrupt that comes back to the thread has only moved the clock. -/
theorem ClockStep.stays (h : ClockStep c m context m') :
    m'.tics = nextTics m.tics ∧ (m'.threads c).ticsOnResume = (m.threads c).ticsOnResume := by
  obtain ⟨hworks, hret⟩ := h
  rcases hworks.clockTick_scheduling.tasks.schedules_cases hret with ⟨-, -, rfl⟩ | ⟨t, -, hargs, -⟩
  · refine ⟨?_, hworks.resumed⟩
    rw [clockTick_tics, hworks.tics]
  · cases hargs

theorem clockSteps_stay (h : Run (ClockStep c) m contexts m') :
    m'.tics = nextTics^[contexts.length] m.tics ∧
      (m'.threads c).ticsOnResume = (m.threads c).ticsOnResume := by
  induction h with
  | nil => exact ⟨rfl, rfl⟩
  | snoc _ hstep ih =>
    obtain ⟨htics, hresumed⟩ := hstep.stays
    rw [List.length_append, List.length_singleton, Function.iterate_succ_apply', ← ih.1]
    exact ⟨htics, hresumed.trans ih.2⟩

/-- The slice is honoured while the scheduler takes no time for more than it is. -/
theorem sliceHonoured_of_le (hresumed : (m.threads c).ticsOnResume = m.tics)
    (h : ∀ n, 0 < n → n ≤ 100 → elapsedTics m.tics n ≤ defaultThreadLimitWorkingTime) :
    m.SliceHonoured c := by
  intro contexts m' m₁ fuel context args m₂ hrun hworks hret
  by_contra hle
  have hle : contexts.length + 1 ≤ 100 := Nat.not_lt.mp hle
  obtain ⟨htics, hres⟩ := clockSteps_stay hrun
  have hstay : m₁.clockTick.MayStay c := by
    rw [hworks.mayStay_iff, htics, hres, hresumed, ← Function.iterate_succ_apply' nextTics]
    exact h _ (Nat.succ_pos _) hle
  rw [hworks.clockTick_scheduling.schedules_stay hstay] at hret
  cases hret

/-! ## A run up to the end of a slice -/

/-- All other threads wait for the processor, with the priority of `c`. -/
def withPeers (m : TaskMem) (c : ℕ) : TaskMem :=
  { m with threads := fun t =>
      if t = c then m.threads c
      else { m.threads t with state := .paused, threadPriority := (m.threads c).threadPriority } }

theorem withPeers_priority (t : ℕ) : (m.withPeers c).priority t = m.priority c := by
  unfold priority withPeers
  dsimp only
  split
  · rfl
  · rfl

theorem withPeers_runnable (hrun : m.runnable c = true) (t : ℕ) :
    (m.withPeers c).runnable t = true := by
  unfold runnable withPeers
  dsimp only
  split
  · exact hrun
  · rfl

theorem works_withPeers (hs : m.Scheduling c) (hrun : m.runnable c = true) :
    Works c m (m.withPeers c) := by
  obtain ⟨h1, h2, h3, h4, h5, h6⟩ := hs
  constructor
  · rfl
  · unfold withPeers
    dsimp only
    rw [if_pos rfl]
  · constructor <;> assumption
  · exact withPeers_runnable hrun c
  · intro t _ _
    rw [withPeers_priority, withPeers_priority]

/-- Interrupts come back to the thread until the scheduler takes its slice for over. -/
theorem exists_clockSteps (hs : m.Scheduling c) (hrun : m.runnable c = true)
    (hresumed : (m.threads c).ticsOnResume = m.tics)
    (h : ∀ k, 0 < k → k ≤ n → elapsedTics m.tics k ≤ defaultThreadLimitWorkingTime) :
    ∃ contexts m', contexts.length = n ∧ Run (ClockStep c) m contexts m' ∧
      Works c m' (clockTick^[n] (m.withPeers c)) := by
  induction n with
  | zero => exact ⟨[], m, rfl, .nil m, works_withPeers hs hrun⟩
  | succ n ih =>
    obtain ⟨contexts, m', hlen, hrun', hworks⟩ := ih fun k hk hkn => h k hk (Nat.le_succ_of_le hkn)
    obtain ⟨htics, hres⟩ := clockSteps_stay hrun'
    have hstay : (clockTick^[n] (m.withPeers c)).clockTick.MayStay c := by
      rw [hworks.mayStay_iff, htics, hres, hresumed, hlen, ← Function.iterate_succ_apply' nextTics]
      exact h _ (Nat.succ_pos n) (Nat.le_refl _)
    have hs' := hworks.clockTick_scheduling
    have hret : (clockTick^[n] (m.withPeers c)).clockTick.schedules 0 zeroContext = _ :=
      hs'.schedules_stay hstay 0
    refine ⟨contexts ++ [zeroContext], _, ?_, hrun'.snoc (.mk hworks hret), ?_⟩
    · rw [List.length_append, hlen, List.length_singleton]
    · rw [Function.iterate_succ_apply']
      exact ⟨rfl, rfl, hs', hstay.runnable, hstay.highest⟩

theorem clockTick_peers (hp : m.Peers) : m.clockTick.Peers := ⟨hp.runnable, hp.priority⟩

theorem withPeers_peers (hrun : m.runnable c = true) : (m.withPeers c).Peers := by
  constructor
  · intro t _
    exact withPeers_runnable hrun t
  · intro t _ u _
    rw [withPeers_priority, withPeers_priority]

/-- The scheduler takes the time for too long at an interrupt that comes too early. -/
theorem not_sliceHonoured (hs : m.Scheduling c) (hrun : m.runnable c = true)
    (hresumed : (m.threads c).ticsOnResume = m.tics) (hn : n ≤ 100)
    (h : defaultThreadLimitWorkingTime < elapsedTics m.tics n) : ¬m.SliceHonoured c := by
  -- the first such interrupt
  have hfind : ∃ k, defaultThreadLimitWorkingTime < elapsedTics m.tics k := ⟨n, h⟩
  classical
  have hfirst := Nat.find_spec hfind
  have hle : Nat.find hfind ≤ n := Nat.find_min' hfind h
  have hbefore : ∀ k < Nat.find hfind, elapsedTics m.tics k ≤ defaultThreadLimitWorkingTime :=
    fun k hk => BitVec.not_lt.mp (Nat.find_min hfind hk)
  generalize Nat.find hfind = k at hfirst hle hbefore
  cases k with
  | zero =>
    rw [elapsedTics, Function.iterate_zero_apply, BitVec.sub_self] at hfirst
    exact absurd hfirst (by decide)
  | succ k =>
    intro hhonoured
    obtain ⟨contexts, m', hlen, hrun', hworks⟩ := exists_clockSteps hs hrun hresumed
      (n := k) fun j _ hj => hbefore j (Nat.lt_succ_of_le hj)
    obtain ⟨htics, hres⟩ := clockSteps_stay hrun'
    have hs' := hworks.clockTick_scheduling
    have hexp : (clockTick^[k] (m.withPeers c)).clockTick.SliceExpired c := by
      rw [SliceExpired, clockTick_tics, hworks.tics, htics, hlen,
        ← Function.iterate_succ_apply' nextTics]
      show _ < _ - ((clockTick^[k] (m.withPeers c)).threads c).ticsOnResume
      rw [hworks.resumed, hres, hresumed]
      exact hfirst
    have hp : (clockTick^[k] (m.withPeers c)).clockTick.Peers :=
      clockTick_peers (Function.Iterate.rec _ (withPeers_peers hrun) (fun _ => clockTick_peers) k)
    obtain ⟨t, ht⟩ := exists_follows hs'.mem
    have hret := hp.schedules hs' hexp ht zeroContext 0
    have hlt := hhonoured contexts m' _ 1 zeroContext _ _ hrun' hworks hret
    have hlt : 100 < contexts.length + 1 := hlt
    omega

/-! ## Slices -/

/-- The slice of a thread that has just been resumed is honoured exactly when it ends before
the clock starts again. -/
theorem sliceHonoured_iff {thread : Thread} (hs : m.Scheduling c)
    (hresume : m.threads c = (thread.startOrResume m.tics).1) :
    m.SliceHonoured c ↔ SliceFits m.tics := by
  have hresumed : (m.threads c).ticsOnResume = m.tics := by
    rw [hresume]
    rfl
  have hrun : m.runnable c = true := by
    rw [runnable, hresume]
    rfl
  constructor
  · intro h
    by_contra hfits
    obtain ⟨n, hn, hlong⟩ := exists_elapsedTics_gt hfits
    exact not_sliceHonoured hs hrun hresumed hn hlong h
  · intro h
    apply sliceHonoured_of_le hresumed
    intro n _ hn
    exact elapsedTics_le_of_fits h hn

theorem twoPeers_resumed (tics : U32) :
    (twoPeers tics).threads 0 = ((normalThread .paused).startOrResume (twoPeers tics).tics).1 := rfl

theorem twoPeers_sliceHonoured : (twoPeers 7).SliceHonoured 0 :=
  (sliceHonoured_iff (twoPeers_scheduling 7) (twoPeers_resumed 7)).mpr (.inl (by decide))

/-- A thread that is resumed 50 interrupts before the end of a second keeps the processor no
longer. -/
theorem twoPeers_not_sliceHonoured : (twoPeers 950).Scheduling 0 ∧
    (twoPeers 950).threads 0 = ((normalThread .paused).startOrResume (twoPeers 950).tics).1 ∧
    ¬(twoPeers 950).SliceHonoured 0 := by
  have hs := twoPeers_scheduling 950
  refine ⟨hs, twoPeers_resumed 950, ?_⟩
  have hrun : (twoPeers 950).runnable 0 = true := rfl
  have hfits : ¬SliceFits (twoPeers 950).tics := by
    rintro (h | h)
    · exact absurd h (by decide)
    · exact absurd h (by decide)
  obtain ⟨n, hn, hlong⟩ := exists_elapsedTics_gt hfits
  exact not_sliceHonoured hs hrun rfl hn hlong

end TaskMem

end LtMicros
