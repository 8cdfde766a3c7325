import LtMicros.TimeSlices

/-!
# Turns by the clock

How long a thread waits for the processor, in clock interrupts, and what a raised priority does to
the other ones. The scheduler only looks at the thread that follows, so a thread of a higher
priority than the one that follows it is not left any more when its slice is over.
-/

namespace LtMicros

open Lib

/-- `Thread::RaisePriorityLevel`. -/
def Thread.raisePriorityLevel (this : Thread) : Thread :=
  { this with threadPriority :=
      match this.threadPriority with
      | .normal => .high
      | _ => .max }

/-- `Thread::LowerPriorityLevel`. -/
def Thread.lowerPriorityLevel (this : Thread) : Thread :=
  { this with threadPriority :=
      match this.threadPriority with
      | .max => .high
      | _ => .normal }

/-- `clock_isr`, `ContextSwitchIsr`, and the two system calls with which a thread changes its own
priority. -/
inductive SchedOp where
  | clock
  | contextSwitch
  | raise
  | lower
deriving DecidableEq

namespace TaskMem

variable {m m' m'' m₁ : TaskMem} {c t i d left : ℕ} {ops : List (SchedOp × ℕ)}

/-- Threads run, and the scheduler would not see a difference. -/
structure Idles (m m₁ : TaskMem) : Prop where
  gScheduler : m₁.gScheduler = m.gScheduler
  tics : m₁.tics = m.tics
  state : ∀ t, (m₁.threads t).state = (m.threads t).state
  priority : ∀ t, (m₁.threads t).threadPriority = (m.threads t).threadPriority
  resumed : ∀ t, (m₁.threads t).ticsOnResume = (m.threads t).ticsOnResume

/-- Threads run up to an operation that comes back, and the thread that is the current one then is
noted. -/
inductive SchedStep : TaskMem → SchedOp × ℕ → TaskMem → Prop
  | clock {m m₁ m' : TaskMem} {t fuel : ℕ} {context : InterruptContext} {args : Option StartArgs} :
      m.Idles m₁ → m₁.clockTick.schedules fuel context = .ret (args, m') →
      m'.gScheduler.currentThread = some t → SchedStep m (.clock, t) m'
  | contextSwitch {m m₁ m' : TaskMem} {t fuel : ℕ} {context : InterruptContext}
      {args : Option StartArgs} :
      m.Idles m₁ → m₁.schedules fuel context = .ret (args, m') →
      m'.gScheduler.currentThread = some t → SchedStep m (.contextSwitch, t) m'
  | raise {m m₁ : TaskMem} {t : ℕ} : m.Idles m₁ → m₁.gScheduler.currentThread = some t →
      SchedStep m (.raise, t) (m₁.store t Thread.raisePriorityLevel)
  | lower {m m₁ : TaskMem} {t : ℕ} : m.Idles m₁ → m₁.gScheduler.currentThread = some t →
      SchedStep m (.lower, t) (m₁.store t Thread.lowerPriorityLevel)

/-- The clock interrupts among operations. -/
def clocks (ops : List (SchedOp × ℕ)) : ℕ := ops.countP fun op => op.1 = .clock

/-- The current thread has worked since it was resumed, the slice is over after `left` more clock
interrupts, and every thread is runnable and all but the current one are of normal priority. -/
structure InSlice (m : TaskMem) (c left : ℕ) : Prop where
  scheduling : m.Scheduling c
  runnable : ∀ t ∈ m.gScheduler.threadsList, m.runnable t = true
  normal : ∀ t ∈ m.gScheduler.threadsList, t ≠ c → (m.threads t).threadPriority = .normal
  started : (m.threads c).ticsOnResume.toNat ≤ m.tics.toNat
  lasts : m.tics.toNat + left = min ((m.threads c).ticsOnResume.toNat + 101) 1000
  pos : 0 < left

/-! ## The slice -/

theorem store_threads_of_ne {f : Thread → Thread} (h : t ≠ c) :
    (m.store c f).threads t = m.threads t := by
  rw [store]
  exact Function.update_of_ne h ..

/-- A switch leaves the priorities alone. -/
theorem switchThreads_threadPriority {context : InterruptContext} (hne : t ≠ c) (u : ℕ) :
    ((m.switchThreads context c t).2.threads u).threadPriority = (m.threads u).threadPriority := by
  obtain ⟨-, -, -, -, hothers⟩ := m.switchThreads_spec context hne
  by_cases huc : u = c
  · rw [huc]
    simp [TaskMem.switchThreads, store, Function.update_of_ne hne.symm, Thread.saveState]
  by_cases hut : u = t
  · rw [hut]
    simp [TaskMem.switchThreads, store, Function.update_of_ne hne, Thread.startOrResume]
  · rw [hothers u huc hut]

theorem Idles.inSlice (h : m.Idles m₁) (hs : m.InSlice c left) : m₁.InSlice c left := by
  obtain ⟨⟨h₁, h₂, h₃, h₄, h₅, h₆⟩, hrun, hnormal, hstart, hlasts, hpos⟩ := hs
  refine ⟨⟨?_, ?_, ?_, ?_, ?_, ?_⟩, fun t ht => ?_, fun t ht hne => ?_, ?_, ?_, hpos⟩
  iterate 6 rwa [h.gScheduler]
  · rw [h.gScheduler] at ht
    rw [TaskMem.runnable, h.state]
    exact hrun t ht
  · rw [h.gScheduler] at ht
    rw [h.priority]
    exact hnormal t ht hne
  · rwa [h.tics, h.resumed]
  · rwa [h.tics, h.resumed]

theorem InSlice.left_le (h : m.InSlice c left) : left ≤ 101 := by
  have hstart := h.started
  have hlasts := h.lasts
  omega

theorem InSlice.highest (h : m.InSlice c left) :
    ∀ t ∈ m.gScheduler.threadsList, m.runnable t = true → m.priority t ≤ m.priority c := by
  intro t ht _
  by_cases hne : t = c
  · rw [hne]
  · rw [TaskMem.priority, h.normal t ht hne]
    exact Nat.zero_le _

/-- What the scheduler takes for the time that the current thread has worked. -/
theorem InSlice.elapsed (h : m.InSlice c left) :
    (m.tics - (m.threads c).ticsOnResume).toNat = m.tics.toNat - (m.threads c).ticsOnResume.toNat :=
  BitVec.toNat_sub_of_le h.started

/-- Without the clock the thread stays. -/
theorem InSlice.mayStay (h : m.InSlice c left) : m.MayStay c := by
  refine ⟨h.runnable c h.scheduling.mem, ?_, h.highest⟩
  show (m.tics - (m.threads c).ticsOnResume).toNat ≤ 100
  have hlasts := h.lasts
  have hpos := h.pos
  rw [h.elapsed]
  omega

/-- The clock interrupt at which the slice is over. -/
theorem InSlice.sliceExpired_iff (h : m.InSlice c left) :
    m.clockTick.SliceExpired c ↔ left = 1 := by
  have hstart := h.started
  have hlasts := h.lasts
  have hpos := h.pos
  have htics : m.tics.toNat < 1000 := by omega
  show 100 < (nextTics m.tics - (m.threads c).ticsOnResume).toNat ↔ left = 1
  by_cases hlast : m.tics.toNat + 1 < 1000
  · have hnext := nextTics_of_lt hlast
    have hle : (m.threads c).ticsOnResume.toNat ≤ (nextTics m.tics).toNat := by omega
    rw [BitVec.toNat_sub_of_le hle, hnext]
    omega
  · -- the clock starts again, and the difference goes around
    have hne : m.tics ≠ 0xFFFFFFFF := by
      intro heq
      rw [heq] at htics
      exact absurd htics (by decide)
    rw [nextTics_of_ge (by omega) hne, BitVec.toNat_sub]
    have hzero : (0 : U32).toNat = 0 := rfl
    rw [hzero]
    have hlt := (m.threads c).ticsOnResume.isLt
    have hone : left = 1 := by omega
    refine iff_of_true ?_ hone
    omega

theorem InSlice.clockTick_scheduling (h : m.InSlice c left) : m.clockTick.Scheduling c := by
  obtain ⟨h₁, h₂, h₃, h₄, h₅, h₆⟩ := h.scheduling
  constructor <;> assumption

theorem InSlice.clockTick_mayStay (h : m.InSlice c left) (hleft : left ≠ 1) :
    m.clockTick.MayStay c := by
  refine ⟨h.runnable c h.scheduling.mem, ?_, h.highest⟩
  exact BitVec.not_lt.mp fun hexp => hleft (h.sliceExpired_iff.mp hexp)

/-- The thread has worked for one more clock interrupt. -/
theorem InSlice.clockTick (h : m.InSlice c (left + 1)) (hpos : 0 < left) :
    m.clockTick.InSlice c left := by
  have hstart := h.started
  have hlasts := h.lasts
  have hnext : m.clockTick.tics.toNat = m.tics.toNat + 1 := nextTics_of_lt (by omega)
  have hres : (m.clockTick.threads c).ticsOnResume = (m.threads c).ticsOnResume := rfl
  refine ⟨h.clockTick_scheduling, h.runnable, h.normal, ?_, ?_, hpos⟩
  · rw [hnext, hres]
    omega
  · rw [hnext, hres]
    omega

/-- The thread that follows has a slice of its own. -/
theorem InSlice.switch (h : m.InSlice c left) (ht : Follows m.gScheduler.threadsList c t)
    (hnormal : (m.threads c).threadPriority = .normal) (context : InterruptContext) :
    ∃ left', (m.clockTick.switchThreads context c t).2.InSlice t left' := by
  have hs := h.clockTick_scheduling
  have hne : t ≠ c := ht.ne hs.nodup hs.two
  have htics : (nextTics m.tics).toNat < 1000 := by
    have hlasts := h.lasts
    have hpos := h.pos
    by_cases hlast : m.tics.toNat + 1 < 1000
    · rwa [nextTics_of_lt hlast]
    · have hne : m.tics ≠ 0xFFFFFFFF := by
        intro heq
        rw [heq] at hlasts
        exact absurd hlasts (by show ¬ (4294967295 + left = _); omega)
      rw [nextTics_of_ge (by omega) hne]
      decide
  have hresumed : ((m.clockTick.switchThreads context c t).2.threads t).ticsOnResume =
      nextTics m.tics := by
    simp [TaskMem.switchThreads, store, Thread.startOrResume, clockTick_tics]
  have hclock : (m.clockTick.switchThreads context c t).2.tics = nextTics m.tics := rfl
  refine ⟨min ((nextTics m.tics).toNat + 101) 1000 - (nextTics m.tics).toNat,
    hs.switchThreads ht, fun u hu => ?_, fun u hu hut => ?_, ?_, ?_, by omega⟩
  · exact (switchThreads_runnable hne).mpr (.inr (.inr (h.runnable u hu)))
  · rw [switchThreads_threadPriority hne]
    by_cases huc : u = c
    · rw [huc]
      exact hnormal
    · exact h.normal u hu huc
  · rw [hclock, hresumed]
  · rw [hclock, hresumed]
    omega

/-- A thread that changes its own priority goes on in its slice. -/
theorem InSlice.store {f : Thread → Thread} (h : m.InSlice c left)
    (hstate : (f (m.threads c)).state = (m.threads c).state)
    (hresumed : (f (m.threads c)).ticsOnResume = (m.threads c).ticsOnResume) :
    (m.store c f).InSlice c left := by
  have hself : (m.store c f).threads c = f (m.threads c) := Function.update_self ..
  obtain ⟨⟨h₁, h₂, h₃, h₄, h₅, h₆⟩, hrun, hnormal, hstart, hlasts, hpos⟩ := h
  refine ⟨⟨h₁, h₂, h₃, h₄, h₅, h₆⟩, fun t ht => ?_, fun t ht hne => ?_, ?_, ?_, hpos⟩
  · by_cases htc : t = c
    · rw [htc, TaskMem.runnable, hself, hstate]
      exact hrun c h₆
    · rw [TaskMem.runnable, store_threads_of_ne htc]
      exact hrun t ht
  · rw [store_threads_of_ne hne]
    exact hnormal t ht hne
  · rw [hself, hresumed]
    exact hstart
  · rw [hself, hresumed]
    exact hlasts

/-! ## A step -/

/-- At the end of its slice a thread of normal priority is followed by the next one, and any other
one is never left. -/
theorem InSlice.schedules_last (h : m.InSlice c 1) (context : InterruptContext) :
    if (m.threads c).threadPriority = .normal then
      ∃ t, Follows m.gScheduler.threadsList c t ∧ ∀ fuel,
        m.clockTick.schedules (fuel + 1) context = .ret
          (some (m.clockTick.switchThreads context c t).1,
            (m.clockTick.switchThreads context c t).2)
    else ∀ fuel, m.clockTick.schedules fuel context = .hang := by
  have hs := h.clockTick_scheduling
  have hstay : ¬m.clockTick.MayStay c := (h.sliceExpired_iff.mpr rfl).not_mayStay
  obtain ⟨t, ht⟩ := exists_follows hs.mem
  have hprio : m.clockTick.priority t = 0 := by
    rw [TaskMem.priority]
    show (m.threads t).threadPriority.toNat = 0
    rw [h.normal t ht.mem (ht.ne hs.nodup hs.two)]
    rfl
  split_ifs with hnormal
  · refine ⟨t, ht, fun fuel => hs.schedules_switch hstay ht (h.runnable t ht.mem) ?_ fuel⟩
    rw [hprio]
    show (m.threads c).threadPriority.toNat ≤ 0
    rw [hnormal]
    rfl
  · refine fun fuel => hs.schedules_hang hstay ?_ fuel
    rintro ⟨u, hu, -, hle⟩
    rw [hu.unique hs.nodup ht, hprio] at hle
    refine hnormal ?_
    have hzero : (m.threads c).threadPriority.toNat = 0 := Nat.le_zero.mp hle
    cases hp : (m.threads c).threadPriority with
    | normal => rfl
    | high =>
      rw [hp] at hzero
      cases hzero
    | max =>
      rw [hp] at hzero
      cases hzero

/-- One operation: the thread stays and the clock has moved on, or its slice is over and the one
that follows begins its own. -/
theorem SchedStep.cases {op : SchedOp × ℕ} (h : SchedStep m op m') (hs : m.InSlice c left) :
    m'.gScheduler.threadsList = m.gScheduler.threadsList ∧
    (op.2 = c ∧ (∃ left', left = left' + (if op.1 = .clock then 1 else 0) ∧ m'.InSlice c left') ∨
      op.1 = .clock ∧ left = 1 ∧ Follows m.gScheduler.threadsList c op.2 ∧
        ∃ left', m'.InSlice op.2 left') := by
  cases h with
  | clock hidles hret hcur =>
    rename_i m₁ t fuel context args
    have hs₁ := hidles.inSlice hs
    rw [← hidles.gScheduler]
    by_cases hleft : left = 1
    · rw [hleft] at hs₁
      have hlast := hs₁.schedules_last context
      split_ifs at hlast with hnormal
      · obtain ⟨u, hu, hall⟩ := hlast
        rcases hs₁.clockTick_scheduling.tasks.schedules_cases hret with ⟨hno, -, -⟩ |
          ⟨v, hnext, -, rfl⟩
        · exact absurd ⟨hs₁.scheduling.running, hs₁.scheduling.two,
            (hs₁.sliceExpired_iff.mpr rfl).not_mayStay⟩ hno
        · obtain rfl : v = t := Option.some.inj hcur
          exact ⟨rfl, .inr ⟨rfl, hleft, hnext.2.1, hs₁.switch hnext.2.1 hnormal context⟩⟩
      · rw [hlast] at hret
        cases hret
    · rw [hs₁.clockTick_scheduling.schedules_stay (hs₁.clockTick_mayStay hleft)] at hret
      cases hret
      obtain rfl : c = t := Option.some.inj (hs₁.scheduling.current.symm.trans hcur)
      obtain ⟨left', rfl⟩ := Nat.exists_eq_succ_of_ne_zero (Nat.ne_of_gt hs.pos)
      exact ⟨rfl, .inl ⟨rfl, left', rfl, hs₁.clockTick (by omega)⟩⟩
  | contextSwitch hidles hret hcur =>
    have hs₁ := hidles.inSlice hs
    rw [hs₁.scheduling.schedules_stay hs₁.mayStay] at hret
    cases hret
    obtain rfl : c = _ := Option.some.inj (hs₁.scheduling.current.symm.trans hcur)
    exact ⟨congrArg Scheduler.threadsList hidles.gScheduler, .inl ⟨rfl, left, rfl, hs₁⟩⟩
  | raise hidles hcur =>
    have hs₁ := hidles.inSlice hs
    obtain rfl : c = _ := Option.some.inj (hs₁.scheduling.current.symm.trans hcur)
    exact ⟨congrArg Scheduler.threadsList hidles.gScheduler,
      .inl ⟨rfl, left, rfl, hs₁.store rfl rfl⟩⟩
  | lower hidles hcur =>
    have hs₁ := hidles.inSlice hs
    obtain rfl : c = _ := Option.some.inj (hs₁.scheduling.current.symm.trans hcur)
    exact ⟨congrArg Scheduler.threadsList hidles.gScheduler,
      .inl ⟨rfl, left, rfl, hs₁.store rfl rfl⟩⟩

/-! ## Runs -/

/-- Wherever a run ends, the current thread is in its slice. -/
theorem InSlice.run (hs : m.InSlice c left) (h : Run SchedStep m ops m') :
    m'.gScheduler.threadsList = m.gScheduler.threadsList ∧ ∃ c' left', m'.InSlice c' left' := by
  induction h with
  | nil => exact ⟨rfl, c, left, hs⟩
  | @snoc _ _ _ op _ hop ih =>
    obtain ⟨hlist, c₁, left₁, hs₁⟩ := ih
    obtain ⟨hlist', ⟨-, left', -, hs'⟩ | ⟨-, -, -, left', hs'⟩⟩ := hop.cases hs₁
    · exact ⟨hlist'.trans hlist, _, left', hs'⟩
    · exact ⟨hlist'.trans hlist, _, left', hs'⟩

/-- A place of the list further on gets its turn after as many slices as it is away. -/
theorem InSlice.served (hs : m.InSlice c left) (h : Run SchedStep m ops m')
    (hi : m.gScheduler.threadsList[i]? = some c) (hclocks : left + 101 * d ≤ clocks ops) :
    ∃ t, m.gScheduler.threadsList[(i + d + 1) % m.gScheduler.threadsList.length]? = some t ∧
      t ∈ ops.map Prod.snd := by
  induction ops generalizing m c left i d with
  | nil =>
    have hpos := hs.pos
    rw [clocks, List.countP_nil] at hclocks
    omega
  | cons op ops ih =>
    obtain ⟨m₁, hop, hrest⟩ := h.of_cons
    rw [clocks, List.countP_cons] at hclocks
    obtain ⟨hlist, hcases⟩ := hop.cases hs
    rw [← hlist] at hi ⊢
    rcases hcases with ⟨-, left', rfl, hs₁⟩ | ⟨hop, rfl, hfollows, left', hs₁⟩
    · have hleft : left' + 101 * d ≤ clocks ops := by
        rw [clocks]
        simp only [decide_eq_true_eq] at hclocks
        omega
      obtain ⟨t, ht, hmem⟩ := ih hs₁ hrest hi hleft
      exact ⟨t, ht, List.mem_cons_of_mem _ hmem⟩
    · obtain ⟨j, hj, hcj, htj⟩ := hfollows
      rw [← hlist] at hj hcj htj
      obtain rfl : i = j :=
        (List.getElem?_inj (List.getElem?_eq_some_iff.mp hi).1 hs₁.scheduling.nodup).mp
          (hi.trans hcj.symm)
      cases d with
      | zero => exact ⟨op.2, htj, List.mem_cons_self⟩
      | succ d =>
        have hleft : left' + 101 * d ≤ clocks ops := by
          have hle := hs₁.left_le
          rw [clocks]
          simp only [hop, decide_true, if_true] at hclocks
          omega
        obtain ⟨t, ht, hmem⟩ := ih hs₁ hrest htj hleft
        rw [Nat.add_assoc ((i + 1) % _), Nat.mod_add_mod] at ht
        exact ⟨t, by rw [← ht]; congr 2; omega, List.mem_cons_of_mem _ hmem⟩

/-- All threads are runnable and of normal priority, and the current one has just been resumed. -/
structure AllNormal (m : TaskMem) (c : ℕ) : Prop where
  scheduling : m.Scheduling c
  runnable : ∀ t ∈ m.gScheduler.threadsList, m.runnable t = true
  normal : ∀ t ∈ m.gScheduler.threadsList, (m.threads t).threadPriority = .normal
  resumed : (m.threads c).ticsOnResume = m.tics
  tics : m.tics.toNat < 1000

theorem AllNormal.inSlice (h : m.AllNormal c) :
    m.InSlice c (min (m.tics.toNat + 101) 1000 - m.tics.toNat) := by
  have htics := h.tics
  refine ⟨h.scheduling, h.runnable, fun t ht _ => h.normal t ht, ?_, ?_, ?_⟩
  · rw [h.resumed]
  · rw [h.resumed]
    omega
  · omega

/-- Threads that run all the time share the processor: however they change their own priorities and
whatever other interrupts there are, in every stretch of 101 clock interrupts for each thread of the
list, every thread is the current one after one of them. -/
theorem every_thread_served (hm : m.AllNormal c) (h : Run SchedStep m ops m')
    {ops' : List (SchedOp × ℕ)} (h' : Run SchedStep m' ops' m'')
    (hclocks : 101 * m.gScheduler.threadsList.length ≤ clocks ops') :
    ∀ t ∈ m.gScheduler.threadsList, t ∈ ops'.map Prod.snd := by
  intro t ht
  obtain ⟨hlist, c', left', hs⟩ := hm.inSlice.run h
  rw [← hlist] at ht hclocks
  obtain ⟨i, hi, hci⟩ := List.mem_iff_getElem.mp hs.scheduling.mem
  obtain ⟨j, hj, htj⟩ := List.mem_iff_getElem.mp ht
  have hle := hs.left_le
  -- the place of the thread, from that of the current one on
  obtain ⟨d, hd, hplace⟩ : ∃ d < m'.gScheduler.threadsList.length,
      (i + d + 1) % m'.gScheduler.threadsList.length = j := by
    by_cases hij : i < j
    · refine ⟨j - i - 1, by omega, ?_⟩
      rw [show i + (j - i - 1) + 1 = j by omega, Nat.mod_eq_of_lt hj]
    · refine ⟨j + m'.gScheduler.threadsList.length - i - 1, by omega, ?_⟩
      rw [show i + (j + m'.gScheduler.threadsList.length - i - 1) + 1 =
        j + m'.gScheduler.threadsList.length by omega, Nat.add_mod_right, Nat.mod_eq_of_lt hj]
  obtain ⟨u, hu, hmem⟩ := hs.served h' (i := i) (d := d)
    (List.getElem?_eq_some_iff.mpr ⟨hi, hci⟩) (by
      have hmul : 101 * (d + 1) ≤ 101 * m'.gScheduler.threadsList.length :=
        Nat.mul_le_mul_left _ hd
      omega)
  rw [hplace] at hu
  obtain rfl : t = u := htj.symm.trans (List.getElem?_eq_some_iff.mp hu).2
  exact hmem

/-! ## Runs that go on -/

/-- A clock interrupt comes back while the current thread is of normal priority. -/
theorem InSlice.goesOn (hs : m.InSlice c left) (hnormal : (m.threads c).threadPriority = .normal) :
    ∃ t m' left', SchedStep m (.clock, t) m' ∧ m'.InSlice t left' ∧
      (m'.threads t).threadPriority = .normal := by
  have hidles : m.Idles m := ⟨rfl, rfl, fun _ => rfl, fun _ => rfl, fun _ => rfl⟩
  by_cases hleft : left = 1
  · rw [hleft] at hs
    have hlast := hs.schedules_last zeroContext
    rw [if_pos hnormal] at hlast
    obtain ⟨t, ht, hall⟩ := hlast
    obtain ⟨left', hs'⟩ := hs.switch ht hnormal zeroContext
    have hne := ht.ne hs.scheduling.nodup hs.scheduling.two
    refine ⟨t, _, left', .clock hidles (hall 0) rfl, hs', ?_⟩
    rw [switchThreads_threadPriority hne]
    exact hs.normal t ht.mem hne
  · obtain ⟨left', rfl⟩ := Nat.exists_eq_succ_of_ne_zero (Nat.ne_of_gt hs.pos)
    have hret : m.clockTick.schedules 0 zeroContext = _ :=
      hs.clockTick_scheduling.schedules_stay (hs.clockTick_mayStay hleft) 0
    exact ⟨c, m.clockTick, left', .clock hidles hret hs.scheduling.current, hs.clockTick (by omega),
      hnormal⟩

theorem InSlice.exists_clocks (hs : m.InSlice c left)
    (hnormal : (m.threads c).threadPriority = .normal) (n : ℕ) :
    ∃ ops m', Run SchedStep m ops m' ∧ clocks ops = n := by
  induction n generalizing m c left with
  | zero => exact ⟨[], m, .nil m, rfl⟩
  | succ n ih =>
    obtain ⟨t, m₁, left', hstep, hs₁, hnormal₁⟩ := hs.goesOn hnormal
    obtain ⟨ops, m', hrun, hclocks⟩ := ih hs₁ hnormal₁
    refine ⟨(.clock, t) :: ops, m', .cons hstep hrun, ?_⟩
    rw [clocks, List.countP_cons_of_pos (by simp), ← clocks, hclocks]

theorem twoPeers_allNormal {tics : U32} (h : tics.toNat < 1000) : (twoPeers tics).AllNormal 0 :=
  ⟨twoPeers_scheduling tics, (twoPeers_peers tics).runnable, fun _ _ => rfl, rfl, h⟩

/-- Both of two threads run in 202 clock interrupts. -/
theorem twoPeers_served : ∃ ops m', Run SchedStep (twoPeers 7) ops m' ∧ clocks ops = 202 ∧
    ∀ t ∈ [0, 1], t ∈ ops.map Prod.snd := by
  have hm : (twoPeers 7).AllNormal 0 := twoPeers_allNormal (by decide)
  obtain ⟨ops, m', hrun, hclocks⟩ := hm.inSlice.exists_clocks rfl 202
  exact ⟨ops, m', hrun, hclocks, every_thread_served hm (.nil _) hrun (Nat.le_of_eq hclocks.symm)⟩

/-- Where the operations of threads that run all the time lead, all threads but the current one are
of normal priority, and the next clock interrupt comes back exactly when the current thread is as
well or its slice is not over. Otherwise the kernel stops in it. -/
theorem clock_returns_iff (hm : m.AllNormal c) (h : Run SchedStep m ops m') {c' : ℕ}
    (hidles : m'.Idles m₁) (hcur : m₁.gScheduler.currentThread = some c')
    (context : InterruptContext) :
    (∀ t ∈ m.gScheduler.threadsList, t ≠ c' → (m₁.threads t).threadPriority = .normal) ∧
    ((∃ fuel r, m₁.clockTick.schedules fuel context = .ret r) ↔
      (m₁.clockTick.SliceExpired c' → (m₁.threads c').threadPriority = .normal)) ∧
    ((m₁.clockTick.SliceExpired c' → (m₁.threads c').threadPriority = .normal) ∨
      ∀ fuel, m₁.clockTick.schedules fuel context = .hang) := by
  obtain ⟨hlist, c₁, left', hs'⟩ := hm.inSlice.run h
  have hs := hidles.inSlice hs'
  obtain rfl : c₁ = c' := Option.some.inj (hs.scheduling.current.symm.trans hcur)
  have hnormal := hs.normal
  rw [hidles.gScheduler, hlist] at hnormal
  refine ⟨hnormal, ?_⟩
  rw [hs.sliceExpired_iff]
  by_cases hleft : left' = 1
  · rw [hleft] at hs
    have hlast := hs.schedules_last context
    split_ifs at hlast with hprio
    · obtain ⟨t, -, hall⟩ := hlast
      exact ⟨iff_of_true ⟨1, _, hall 0⟩ fun _ => hprio, .inl fun _ => hprio⟩
    · refine ⟨iff_of_false ?_ fun hall => hprio (hall hleft), .inr hlast⟩
      rintro ⟨fuel, r, hret⟩
      rw [hlast] at hret
      cases hret
  · have hret : m₁.clockTick.schedules 0 context = _ :=
      hs.clockTick_scheduling.schedules_stay (hs.clockTick_mayStay hleft) 0
    exact ⟨iff_of_true ⟨0, _, hret⟩ fun h => absurd h hleft, .inl fun h => absurd h hleft⟩

/-- A thread that raises its priority just before its slice is over. -/
theorem twoPeers_raised :
    ¬∃ fuel r, ((twoPeers 999).store 0 Thread.raisePriorityLevel).clockTick.schedules fuel
      zeroContext = .ret r := by
  have hm : (twoPeers 999).AllNormal 0 := twoPeers_allNormal (by decide)
  have hidles (m : TaskMem) : m.Idles m := ⟨rfl, rfl, fun _ => rfl, fun _ => rfl, fun _ => rfl⟩
  have hrun : Run SchedStep (twoPeers 999) [(.raise, 0)]
      ((twoPeers 999).store 0 Thread.raisePriorityLevel) := .single (.raise (hidles _) rfl)
  rw [(clock_returns_iff hm hrun (hidles _) rfl zeroContext).2.1]
  intro h
  have hexp : ((twoPeers 999).store 0 Thread.raisePriorityLevel).clockTick.SliceExpired 0 := by
    show (100 : U32) < nextTics 999 - 999
    decide
  exact absurd (h hexp) (by decide)

end TaskMem

end LtMicros
