import LtMicros.Scheduler

/-!
# The decision of `Schedules`

The loop that looks for the next thread only ever looks at the one after the
current thread, so it is left in its first turn or never.
-/

namespace LtMicros

open Lib

namespace TaskMem

variable {m m' : TaskMem} {context : InterruptContext} {c t : ℕ}

/-- The scheduler runs on a list of two or more threads, each in it once, with
the current one among them. -/
structure Scheduling (m : TaskMem) (c : ℕ) : Prop where
  running : m.gScheduler.running = true
  nodup : m.gScheduler.threadsList.Nodup
  two : 2 ≤ m.gScheduler.threadsList.length
  nbThreads : m.gScheduler.nbThreads.toNat = m.gScheduler.threadsList.length
  current : m.gScheduler.currentThread = some c
  mem : c ∈ m.gScheduler.threadsList

/-- The current thread may go on: it is runnable, has not worked enough, and no
runnable thread has a higher priority. -/
structure MayStay (m : TaskMem) (c : ℕ) : Prop where
  runnable : m.runnable c = true
  time : m.tics - (m.threads c).ticsOnResume ≤ defaultThreadLimitWorkingTime
  highest : ∀ t ∈ m.gScheduler.threadsList, m.runnable t = true → m.priority t ≤ m.priority c

/-- The thread that follows can take over. -/
def CanFollow (m : TaskMem) (c : ℕ) : Prop :=
  ∃ t, Follows m.gScheduler.threadsList c t ∧ m.runnable t = true ∧ m.priority c ≤ m.priority t

/-- `Schedules` is left, and the thread that then runs is runnable. -/
def Decides (m : TaskMem) (context : InterruptContext) : Prop :=
  ∃ fuel args m' c', m.schedules fuel context = .ret (args, m') ∧
    m'.gScheduler.currentThread = some c' ∧ m'.runnable c' = true

theorem Scheduling.guard (hs : m.Scheduling c) :
    m.gScheduler.running = true ∧ 1 < m.gScheduler.nbThreads := by
  refine ⟨hs.running, ?_⟩
  rw [BitVec.lt_def, hs.nbThreads]
  exact hs.two

theorem Scheduling.mustSwitch_eq_false (hs : m.Scheduling c) :
    m.mustSwitch = false ↔ m.MayStay c := by
  rw [mustSwitch, hs.current]
  simp only [hasHigherThreadPriority, decide_eq_false_iff_not, not_or,
    BitVec.not_lt, List.any_eq_true, decide_eq_true_eq, not_exists, not_and, Bool.not_eq_true]
  constructor
  · rintro ⟨htime, hhigh, hrun⟩
    refine ⟨by simpa using hrun, htime, fun t ht hrunt => ?_⟩
    by_contra hlt
    rw [hhigh t ht (Nat.not_le.mp hlt)] at hrunt
    cases hrunt
  · rintro ⟨hrun, htime, hhigh⟩
    refine ⟨htime, fun t ht hlt => Bool.eq_false_iff.mpr fun hrunt => ?_, by simpa using hrun⟩
    exact absurd (hhigh t ht hrunt) (Nat.not_le.mpr hlt)

/-- The turn of the search, whatever was found before. -/
theorem Scheduling.searchTurn_eq (hs : m.Scheduling c)
    (ht : Follows m.gScheduler.threadsList c t) (found : Option ℕ) :
    m.searchTurn found = if m.priority c ≤ m.priority t ∧ m.runnable t = true then
      .ret (.inr (some t)) else .ret (.inl (some t)) := by
  have hnext : m.gScheduler.pickNextThread (some c) = some t := nextInList_follows hs.nodup ht
  rw [searchTurn, hs.current]
  simp only [hnext, Option.some_ne_none, false_and, if_false, Outcome.ofOption_some,
    Outcome.ret_bind, Outcome.pure_eq]

/-- Without a thread that can follow, the search is never left. -/
theorem Scheduling.search_hang (hs : m.Scheduling c) (hno : ¬ m.CanFollow c) (fuel : ℕ)
    (found : Option ℕ) : Outcome.loop m.searchTurn fuel found = .hang := by
  obtain ⟨t, ht⟩ := exists_follows hs.mem
  apply Outcome.loop_hang (I := fun _ => True) _ trivial
  intro found _
  refine ⟨some t, ?_, trivial⟩
  rw [hs.searchTurn_eq ht, if_neg]
  rintro ⟨hprio, hrun⟩
  exact hno ⟨t, ht, hrun, hprio⟩

/-- With one, it is left in the first turn. -/
theorem Scheduling.search_ret (hs : m.Scheduling c) (ht : Follows m.gScheduler.threadsList c t)
    (hrun : m.runnable t = true) (hprio : m.priority c ≤ m.priority t) (fuel : ℕ) :
    Outcome.loop m.searchTurn (fuel + 1) none = .ret (some t) := by
  apply Outcome.loop_leave
  rw [hs.searchTurn_eq ht, if_pos ⟨hprio, hrun⟩]

/-- `Schedules` with nothing to do. -/
theorem Scheduling.schedules_stay (hs : m.Scheduling c) (hstay : m.MayStay c) (fuel : ℕ) :
    m.schedules fuel context = .ret (none, m) := by
  rw [schedules, if_pos hs.guard, hs.mustSwitch_eq_false.mpr hstay]
  rfl

/-- `Schedules` with a thread that can follow. -/
theorem Scheduling.schedules_switch (hs : m.Scheduling c) (hstay : ¬ m.MayStay c)
    (ht : Follows m.gScheduler.threadsList c t) (hrun : m.runnable t = true)
    (hprio : m.priority c ≤ m.priority t) (fuel : ℕ) :
    m.schedules (fuel + 1) context = .ret (some (m.switchThreads context c t).1,
      (m.switchThreads context c t).2) := by
  have hne : m.gScheduler.currentThread ≠ some t := by
    rw [hs.current]
    exact fun h => ht.ne hs.nodup hs.two (Option.some.inj h).symm
  have hmust : m.mustSwitch = true := by
    rw [← Bool.not_eq_false, hs.mustSwitch_eq_false]
    exact hstay
  rw [schedules, if_pos hs.guard, if_pos hmust, hs.search_ret ht hrun hprio, Outcome.ret_bind,
    if_pos hne]
  simp only [switchToThread, hs.current, Outcome.ofOption_some, Outcome.ret_bind, Outcome.pure_eq]

/-- `Schedules` with neither. -/
theorem Scheduling.schedules_hang (hs : m.Scheduling c) (hstay : ¬ m.MayStay c)
    (hno : ¬ m.CanFollow c) (fuel : ℕ) : m.schedules fuel context = .hang := by
  have hmust : m.mustSwitch = true := by
    rw [← Bool.not_eq_false, hs.mustSwitch_eq_false]
    exact hstay
  rw [schedules, if_pos hs.guard, if_pos hmust, hs.search_hang hno, Outcome.hang_bind]

/-- When `Schedules` decides. -/
theorem Scheduling.decides (hs : m.Scheduling c) (h : m.MayStay c ∨ m.CanFollow c) :
    m.Decides context := by
  by_cases hstay : m.MayStay c
  · exact ⟨0, none, m, c, hs.schedules_stay hstay 0, hs.current, hstay.runnable⟩
  obtain ⟨t, ht, hrun, hprio⟩ := h.resolve_left hstay
  obtain ⟨hsched, -, hstate, -⟩ :=
    m.switchThreads_spec context (ht.ne hs.nodup hs.two)
  refine ⟨1, _, _, t, hs.schedules_switch hstay ht hrun hprio 0, by rw [hsched], ?_⟩
  rw [runnable, hstate]
  rfl

theorem Scheduling.not_decides (hs : m.Scheduling c) (hstay : ¬ m.MayStay c)
    (hno : ¬ m.CanFollow c) : ¬ m.Decides context := by
  rintro ⟨fuel, args, m', c', hret, -⟩
  rw [hs.schedules_hang hstay hno] at hret
  cases hret

/-- With a runnable thread in the list, `Schedules` decides exactly when the
current thread may stay or the one that follows it can take over. -/
theorem decides_iff (hs : m.Scheduling c) :
    ((∃ t ∈ m.gScheduler.threadsList, m.runnable t = true) → m.Decides context) ↔
      (∀ t ∈ m.gScheduler.threadsList, m.runnable t = false) ∨ m.MayStay c ∨ m.CanFollow c := by
  constructor
  · intro h
    by_contra hno
    obtain ⟨hsome, hno⟩ := not_or.mp hno
    obtain ⟨hstay, hno⟩ := not_or.mp hno
    refine hs.not_decides hstay hno (h ?_)
    by_contra hnone
    refine hsome fun t ht => Bool.eq_false_iff.mpr fun hrun => hnone ⟨t, ht, hrun⟩
  · rintro (hnone | h) ⟨t, ht, hrun⟩
    · rw [hnone t ht] at hrun
      cases hrun
    · exact hs.decides h

/-! ## Three threads

The first has worked enough, the second waits, and the third could run. -/

/-- A thread of normal priority, resumed at tick 0. -/
def normalThread (state : ThreadState) : Thread where
  state := state
  process := ⟨0, 0x1000⟩
  threadPriority := .normal
  ticsOnResume := 0
  kstack := ⟨0, kernelDataSelector⟩
  regs := ⟨0, 0, 0, 0, 0, 0, 0, 0, 0, 0, 0, 0, 0, 0, 0, 0⟩

/-- Thread 0 is the current one, at the given tick. -/
def threeThreads (tics : U32) : TaskMem where
  threads := fun t => normalThread (if t = 0 then .running else if t = 1 then .waiting else .paused)
  gScheduler := ⟨true, [0, 1, 2], some 0, 3⟩
  gTss := ⟨0, kernelDataSelector⟩
  tics := tics

theorem threeThreads_scheduling (tics : U32) : (threeThreads tics).Scheduling 0 :=
  ⟨rfl, by show [0, 1, 2].Nodup; decide, Nat.le_succ 2, rfl, rfl, List.mem_cons_self⟩

/-- A context of zeros. -/
def zeroContext : InterruptContext := ⟨0, 0, 0, 0, 0, 0, 0, 0, 0, 0, 0, 0, 0, 0, 0, 0, 0⟩

theorem threeThreads_decides :
    (threeThreads 7).runnable 0 = true ∧ (threeThreads 7).Decides zeroContext := by
  have hrunnable : (threeThreads 7).runnable 0 = true := rfl
  refine ⟨hrunnable, (decides_iff (threeThreads_scheduling 7)).mpr ?_ ⟨0, ?_, hrunnable⟩⟩
  · exact .inr (.inl ⟨rfl, by show (7 : U32) - 0 ≤ 100; decide, fun t _ _ => Nat.le_refl 0⟩)
  · exact List.mem_cons_self

/-- After 101 ticks the search looks at thread 1 for ever. -/
theorem threeThreads_not_decides :
    (threeThreads 101).Scheduling 0 ∧ (threeThreads 101).runnable 2 = true ∧
      ¬ (threeThreads 101).Decides zeroContext := by
  have hs := threeThreads_scheduling 101
  refine ⟨hs, rfl, hs.not_decides (fun hstay => ?_) ?_⟩
  · exact absurd hstay.time (by show ¬ (101 : U32) - 0 ≤ 100; decide)
  · rintro ⟨t, ht, hrun, -⟩
    have h1 : Follows [0, 1, 2] 0 1 := ⟨0, by decide, rfl, rfl⟩
    obtain rfl := ht.unique hs.nodup h1
    cases hrun

end TaskMem

end LtMicros
