import LtMicros.EventRuns
import Mathlib.Data.List.Rotate

/-!
# Priorities and turns

What `Schedules` makes of the priorities, and the order in which threads of one priority
come to run.
-/

namespace LtMicros

open Lib

namespace TaskMem

variable {m m' m₁ : TaskMem} {context : InterruptContext} {c t u fuel i : ℕ} {ts : List ℕ}
  {args : Option StartArgs}

theorem Scheduling.tasks (hs : m.Scheduling c) : m.Tasks c :=
  ⟨hs.nodup, hs.nbThreads, hs.current, hs.mem⟩

theorem Scheduling.switchThreads (hs : m.Scheduling c) (ht : Follows m.gScheduler.threadsList c t) :
    ((m.switchThreads context c t).2).Scheduling t :=
  ⟨hs.running, hs.nodup, hs.two, hs.nbThreads, rfl, ht.mem⟩

/-- Whatever `Schedules` does, no runnable thread of the list has a higher priority than the
one that runs then. -/
def RunsHighest (m : TaskMem) (context : InterruptContext) : Prop :=
  ∀ fuel args m' c', m.schedules fuel context = .ret (args, m') →
    m'.gScheduler.currentThread = some c' →
    ∀ u ∈ m'.gScheduler.threadsList, m'.runnable u = true → m'.priority u ≤ m'.priority c'

/-- If the thread that follows can take over, no runnable thread has a higher priority. -/
def FollowerHighest (m : TaskMem) (c : ℕ) : Prop :=
  ∀ t, Follows m.gScheduler.threadsList c t → m.runnable t = true → m.priority c ≤ m.priority t →
    ∀ u ∈ m.gScheduler.threadsList, m.runnable u = true → m.priority u ≤ m.priority t

/-! ## After a switch -/

theorem switchThreads_priority (hne : t ≠ c) :
    (m.switchThreads context c t).2.priority u = m.priority u := by
  obtain ⟨-, -, -, -, hothers⟩ := m.switchThreads_spec context hne
  by_cases huc : u = c
  · rw [huc]
    simp [priority, TaskMem.switchThreads, store, Function.update_of_ne hne.symm, Thread.saveState]
  by_cases hut : u = t
  · rw [hut]
    simp [priority, TaskMem.switchThreads, store, Function.update_of_ne hne, Thread.startOrResume]
  · rw [priority, hothers u huc hut]
    rfl

/-- Both threads are runnable after a switch, the current one whatever its state was. -/
theorem switchThreads_runnable (hne : t ≠ c) :
    (m.switchThreads context c t).2.runnable u = true ↔ u = c ∨ u = t ∨ m.runnable u = true := by
  obtain ⟨-, -, ht, hc, hothers⟩ := m.switchThreads_spec context hne
  by_cases huc : u = c
  · apply iff_of_true
    · rw [runnable, huc, hc]
      rfl
    · exact .inl huc
  by_cases hut : u = t
  · apply iff_of_true
    · rw [runnable, hut, ht]
      rfl
    · exact .inr (.inl hut)
  · rw [runnable, hothers u huc hut]
    simp [huc, hut, runnable]

/-! ## Priorities -/

theorem RunsHighest.followerHighest (h : m.RunsHighest context) (hs : m.Scheduling c)
    (hstay : ¬m.MayStay c) : m.FollowerHighest c := by
  intro t ht hrun hprio u hu hrunu
  have hne := ht.ne hs.nodup hs.two
  have hret : m.schedules 1 context = _ := hs.schedules_switch hstay ht hrun hprio 0
  have hle := h 1 _ _ t hret rfl u hu ((switchThreads_runnable hne).mpr (.inr (.inr hrunu)))
  rwa [switchThreads_priority hne, switchThreads_priority hne] at hle

/-- `Schedules` lets a thread of the highest priority run exactly when the current thread may
stay, or the thread that follows is one whenever it can take over. -/
theorem runsHighest_iff (hs : m.Scheduling c) :
    m.RunsHighest context ↔ m.MayStay c ∨ m.FollowerHighest c := by
  constructor
  · intro h
    by_cases hstay : m.MayStay c
    · exact .inl hstay
    · exact .inr (h.followerHighest hs hstay)
  · intro h fuel args m' c' hret hc' u hu hrunu
    rcases hs.tasks.schedules_cases hret with ⟨hno, -, rfl⟩ | ⟨t, hnext, -, rfl⟩
    · -- the current thread goes on
      obtain rfl : c = c' := Option.some.inj (hs.current.symm.trans hc')
      have hstay : m'.MayStay c := by
        by_contra hstay
        exact hno ⟨hs.running, hs.two, hstay⟩
      exact hstay.highest u hu hrunu
    · obtain ⟨⟨-, -, hstay⟩, ht, hrun, hprio⟩ := hnext
      obtain rfl : t = c' := Option.some.inj hc'
      have hne := ht.ne hs.nodup hs.two
      rw [switchThreads_priority hne, switchThreads_priority hne]
      rcases (switchThreads_runnable hne).mp hrunu with rfl | rfl | hrunu
      · exact hprio
      · exact Nat.le_refl _
      · exact h.resolve_left hstay t ht hrun hprio u hu hrunu

/-- Thread 0 runs with normal priority, thread 1 has high priority and thread 2 the highest. -/
def threeLevels : TaskMem where
  threads := fun t => { normalThread (if t = 0 then .running else .paused) with
    threadPriority := if t = 0 then .normal else if t = 1 then .high else .max }
  gScheduler := ⟨true, [0, 1, 2], some 0, 3⟩
  gTss := ⟨0, kernelDataSelector⟩
  tics := 0

theorem threeLevels_scheduling : threeLevels.Scheduling 0 :=
  ⟨rfl, by show [0, 1, 2].Nodup; decide, Nat.le_succ 2, rfl, rfl, List.mem_cons_self⟩

/-- Thread 1 gets the processor, though thread 2 could run. -/
theorem threeLevels_not_runsHighest :
    threeLevels.Scheduling 0 ∧ ¬threeLevels.RunsHighest zeroContext := by
  refine ⟨threeLevels_scheduling, ?_⟩
  intro h
  have hmem : 2 ∈ threeLevels.gScheduler.threadsList := by
    show 2 ∈ [0, 1, 2]
    decide
  have hstay : ¬threeLevels.MayStay 0 := by
    intro hstay
    have hle : 2 ≤ 0 := hstay.highest 2 hmem rfl
    exact absurd hle (by decide)
  have hfollows : Follows [0, 1, 2] 0 1 := ⟨0, by decide, rfl, rfl⟩
  have hle : 2 ≤ 1 :=
    h.followerHighest threeLevels_scheduling hstay 1 hfollows rfl (Nat.zero_le 1) 2 hmem rfl
  exact absurd hle (by decide)

/-- As before, with the two priorities the other way round. -/
def highestNext : TaskMem :=
  { threeLevels with
    threads := fun t => { normalThread (if t = 0 then .running else .paused) with
      threadPriority := if t = 0 then .normal else if t = 1 then .max else .high } }

/-- A thread that may stay goes on. One that may not gives way to the thread that follows, which
has the highest priority here. -/
theorem highestNext_runsHighest :
    (threeThreads 7).RunsHighest zeroContext ∧ highestNext.Scheduling 0 ∧
      ¬highestNext.MayStay 0 ∧ highestNext.RunsHighest zeroContext := by
  have hs : highestNext.Scheduling 0 :=
    ⟨rfl, by show [0, 1, 2].Nodup; decide, Nat.le_succ 2, rfl, rfl, List.mem_cons_self⟩
  refine ⟨(runsHighest_iff (threeThreads_scheduling 7)).mpr (.inl ⟨rfl, ?_, ?_⟩), hs, ?_,
    (runsHighest_iff hs).mpr (.inr ?_)⟩
  · show (7 : U32) - 0 ≤ 100
    decide
  · exact fun t _ _ => Nat.le_refl 0
  · intro hstay
    have hmem : 1 ∈ highestNext.gScheduler.threadsList := by
      show 1 ∈ [0, 1, 2]
      decide
    have hle : 2 ≤ 0 := hstay.highest 1 hmem rfl
    exact absurd hle (by decide)
  · intro t ht _ _ u hu _
    have hfollows : Follows [0, 1, 2] 0 1 := ⟨0, by decide, rfl, rfl⟩
    obtain rfl : t = 1 := ht.unique hs.nodup hfollows
    have hlevels : ∀ u ∈ [0, 1, 2], highestNext.priority u ≤ highestNext.priority 1 := by decide
    exact hlevels u hu

/-! ## Turns -/

/-- The threads of the list are all runnable, and of one priority. -/
structure Peers (m : TaskMem) : Prop where
  runnable : ∀ t ∈ m.gScheduler.threadsList, m.runnable t = true
  priority : ∀ t ∈ m.gScheduler.threadsList, ∀ u ∈ m.gScheduler.threadsList,
    m.priority t = m.priority u

/-- The current thread has worked enough. -/
def SliceExpired (m : TaskMem) (c : ℕ) : Prop :=
  defaultThreadLimitWorkingTime < m.tics - (m.threads c).ticsOnResume

/-- What may be different at the next call of `Schedules`: the time, and what the scheduler
does not look at. -/
structure Elapses (m m₁ : TaskMem) : Prop where
  gScheduler : m₁.gScheduler = m.gScheduler
  state : ∀ t, (m₁.threads t).state = (m.threads t).state
  priority : ∀ t, (m₁.threads t).threadPriority = (m.threads t).threadPriority

/-- `Schedules` is called at the end of a time slice, and comes back with `t` current. -/
inductive TurnStep : TaskMem → ℕ → TaskMem → Prop
  | mk {m m₁ m' : TaskMem} {c t fuel : ℕ} {context : InterruptContext} {args : Option StartArgs} :
      m.Elapses m₁ → m₁.gScheduler.currentThread = some c → m₁.SliceExpired c →
      m₁.schedules fuel context = .ret (args, m') → m'.gScheduler.currentThread = some t →
      TurnStep m t m'

theorem Elapses.scheduling (h : m.Elapses m₁) (hs : m.Scheduling c) : m₁.Scheduling c := by
  obtain ⟨h1, h2, h3, h4, h5, h6⟩ := hs
  constructor <;> rwa [h.gScheduler]

theorem Elapses.peers (h : m.Elapses m₁) (hp : m.Peers) : m₁.Peers := by
  have hrunnable (t) : m₁.runnable t = m.runnable t := by
    rw [runnable, h.state]
    rfl
  have hpriority (t) : m₁.priority t = m.priority t := by
    rw [TaskMem.priority, h.priority]
    rfl
  constructor
  · intro t ht
    rw [h.gScheduler] at ht
    rw [hrunnable]
    exact hp.runnable t ht
  · intro t ht u hu
    rw [h.gScheduler] at ht hu
    rw [hpriority, hpriority]
    exact hp.priority t ht u hu

theorem SliceExpired.not_mayStay (h : m.SliceExpired c) : ¬m.MayStay c :=
  fun hstay => absurd hstay.time (BitVec.not_le.mpr h)

/-- At the end of a slice `Schedules` switches to the thread that follows. -/
theorem Peers.schedules (hp : m.Peers) (hs : m.Scheduling c) (hexp : m.SliceExpired c)
    (ht : Follows m.gScheduler.threadsList c t) (context : InterruptContext) (fuel : ℕ) :
    m.schedules (fuel + 1) context = .ret (some (m.switchThreads context c t).1,
      (m.switchThreads context c t).2) :=
  hs.schedules_switch hexp.not_mayStay ht (hp.runnable t ht.mem)
    (Nat.le_of_eq (hp.priority c hs.mem t ht.mem)) fuel

theorem Peers.switchThreads (hp : m.Peers) (hne : t ≠ c) :
    ((m.switchThreads context c t).2).Peers := by
  constructor
  · intro u hu
    exact (switchThreads_runnable hne).mpr (.inr (.inr (hp.runnable u hu)))
  · intro u hu v hv
    rw [switchThreads_priority hne, switchThreads_priority hne]
    exact hp.priority u hu v hv

/-- One turn goes to the thread that follows. -/
theorem TurnStep.follows (h : TurnStep m t m') (hs : m.Scheduling c) (hp : m.Peers) :
    Follows m.gScheduler.threadsList c t ∧ m'.Scheduling t ∧ m'.Peers ∧
      m'.gScheduler.threadsList = m.gScheduler.threadsList := by
  obtain ⟨helapses, hcur, hexp, hret, hcur'⟩ := h
  have hs₁ := helapses.scheduling hs
  have hp₁ := helapses.peers hp
  cases hs₁.current.symm.trans hcur
  rcases hs₁.tasks.schedules_cases hret with ⟨hno, -, -⟩ | ⟨u, hnext, -, rfl⟩
  · exact absurd ⟨hs₁.running, hs₁.two, hexp.not_mayStay⟩ hno
  · obtain rfl : u = _ := Option.some.inj hcur'
    have hfollows := hnext.2.1
    have hlist := congrArg Scheduler.threadsList helapses.gScheduler
    refine ⟨?_, hs₁.switchThreads hfollows, hp₁.switchThreads (hfollows.ne hs₁.nodup hs₁.two),
      hlist⟩
    rw [← helapses.gScheduler]
    exact hfollows

/-- The turns go through the list from the place of the current thread on, around its end. -/
theorem turns (hs : m.Scheduling c) (hp : m.Peers) (hi : m.gScheduler.threadsList[i]? = some c)
    (h : Run TurnStep m ts m') :
    (∀ k < ts.length, ts[k]? =
      m.gScheduler.threadsList[(i + 1 + k) % m.gScheduler.threadsList.length]?) ∧
    ∃ c', m'.Scheduling c' ∧ m'.Peers ∧ m'.gScheduler.threadsList = m.gScheduler.threadsList ∧
      m.gScheduler.threadsList[(i + ts.length) % m.gScheduler.threadsList.length]? = some c' := by
  obtain ⟨hlt, -⟩ := List.getElem?_eq_some_iff.mp hi
  induction h with
  | nil =>
    refine ⟨fun k hk => absurd hk (Nat.not_lt_zero k), c, hs, hp, rfl, ?_⟩
    rw [List.length_nil, Nat.add_zero, Nat.mod_eq_of_lt hlt]
    exact hi
  | @snoc m₁ m₂ ts t _ hstep ih =>
    obtain ⟨hts, c₁, hs₁, hp₁, hlist, hc₁⟩ := ih
    obtain ⟨hfollows, hs₂, hp₂, hlist₂⟩ := hstep.follows hs₁ hp₁
    have hnext : m.gScheduler.threadsList[(i + ts.length + 1) %
        m.gScheduler.threadsList.length]? = some t := by
      rw [hlist] at hfollows
      obtain ⟨j, hj, hcj, htj⟩ := hfollows
      -- the current thread stands in one place of the list
      have hmod : (i + ts.length) % m.gScheduler.threadsList.length = j :=
        List.getElem?_inj (Nat.mod_lt _ (Nat.zero_lt_of_lt hlt)) hs.nodup |>.mp (hc₁.trans hcj.symm)
      rw [Nat.add_mod, hmod, Nat.add_mod_mod]
      exact htj
    refine ⟨?_, t, hs₂, hp₂, hlist₂.trans hlist, ?_⟩
    · intro k hk
      rw [List.length_append, List.length_singleton] at hk
      rcases Nat.lt_succ_iff_lt_or_eq.mp hk with hk | rfl
      · rw [List.getElem?_append_left hk]
        exact hts k hk
      · rw [List.getElem?_concat_length, show i + 1 + ts.length = i + ts.length + 1 by omega]
        exact hnext.symm
    · rw [List.length_append, List.length_singleton, ← Nat.add_assoc]
      exact hnext

/-- As many turns as there are threads go to every thread once, in the order of the list from
the current one on, which comes last; and every such call comes back. -/
theorem round_robin (hs : m.Scheduling c) (hp : m.Peers)
    (hi : m.gScheduler.threadsList[i]? = some c) :
    (∀ ts m', Run TurnStep m ts m' → ts.length = m.gScheduler.threadsList.length →
      ts = m.gScheduler.threadsList.rotate (i + 1) ∧ ts.Perm m.gScheduler.threadsList ∧
      m'.gScheduler.currentThread = some c) ∧
    ∀ ts m' m₁ c' context, Run TurnStep m ts m' → m'.Elapses m₁ →
      m'.gScheduler.currentThread = some c' → m₁.SliceExpired c' →
      ∃ args m₂ t, m₁.schedules 1 context = .ret (some args, m₂) ∧ TurnStep m' t m₂ := by
  obtain ⟨hlt, -⟩ := List.getElem?_eq_some_iff.mp hi
  constructor
  · intro ts m' hrun hlen
    obtain ⟨hts, c', hs', -, -, hc'⟩ := turns hs hp hi hrun
    have heq : ts = m.gScheduler.threadsList.rotate (i + 1) := by
      apply List.ext_getElem?
      intro k
      by_cases hk : k < ts.length
      · rw [hts k hk, List.getElem?_rotate (hlen ▸ hk), Nat.add_comm]
      · have hk : ts.length ≤ k := Nat.not_lt.mp hk
        rw [List.getElem?_eq_none hk, List.getElem?_eq_none]
        rw [List.length_rotate, ← hlen]
        exact hk
    refine ⟨heq, ?_, ?_⟩
    · rw [heq]
      exact List.rotate_perm _ _
    · rw [hlen, Nat.add_mod_right, Nat.mod_eq_of_lt hlt, hi] at hc'
      rw [hs'.current, hc']
  · intro ts m' m₁ c' context hrun helapses hcur hexp
    obtain ⟨-, c₁, hs', hp', -, -⟩ := turns hs hp hi hrun
    cases hs'.current.symm.trans hcur
    have hs₁ := helapses.scheduling hs'
    obtain ⟨t, ht⟩ := exists_follows hs₁.mem
    have hret := (helapses.peers hp').schedules hs₁ hexp ht context 0
    exact ⟨_, _, t, hret, .mk helapses hs₁.current hexp hret rfl⟩

/-! ## Two peers -/

/-- Two threads of normal priority, of which thread 0 has just been resumed. -/
def twoPeers (tics : U32) : TaskMem where
  threads := fun t => { normalThread (if t = 0 then .running else .paused) with
    ticsOnResume := tics }
  gScheduler := ⟨true, [0, 1], some 0, 2⟩
  gTss := ⟨0, kernelDataSelector⟩
  tics := tics

theorem twoPeers_scheduling (tics : U32) : (twoPeers tics).Scheduling 0 :=
  ⟨rfl, by show [0, 1].Nodup; decide, Nat.le_refl 2, rfl, rfl, List.mem_cons_self⟩

theorem twoPeers_peers (tics : U32) : (twoPeers tics).Peers := by
  constructor
  · intro t _
    by_cases ht : t = 0
    · rw [ht]
      rfl
    · simp [runnable, twoPeers, ht, normalThread, runnableThread]
  · exact fun t _ u _ => rfl

/-- Time goes by until the slice of the thread `c` has expired. -/
theorem exists_elapses (m : TaskMem) (c : ℕ) : ∃ m₁, m.Elapses m₁ ∧ m₁.SliceExpired c := by
  refine ⟨{ m with tics := 101 + (m.threads c).ticsOnResume },
    ⟨rfl, fun _ => rfl, fun _ => rfl⟩, ?_⟩
  rw [SliceExpired]
  dsimp only
  rw [BitVec.add_sub_cancel]
  decide

theorem twoPeers_round_robin :
    ∃ m', Run TurnStep (twoPeers 0) [1, 0] m' ∧ m'.gScheduler.currentThread = some 0 := by
  have hs := twoPeers_scheduling 0
  have hp := twoPeers_peers 0
  obtain ⟨hround, hback⟩ := round_robin hs hp (i := 0) rfl
  obtain ⟨m₁, helapses₁, hexp₁⟩ := exists_elapses (twoPeers 0) 0
  obtain ⟨_, m₂, t, -, hturn⟩ := hback [] _ m₁ 0 zeroContext (.nil _) helapses₁ rfl hexp₁
  obtain ⟨-, hs₂, -⟩ := hturn.follows hs hp
  obtain ⟨m₃, helapses₃, hexp₃⟩ := exists_elapses m₂ t
  obtain ⟨_, m₄, u, -, hturn'⟩ :=
    hback [t] m₂ m₃ t zeroContext (.single hturn) helapses₃ hs₂.current hexp₃
  have hrun : Run TurnStep (twoPeers 0) [t, u] m₄ := .cons hturn (.single hturn')
  obtain ⟨heq, -, hcur⟩ := hround [t, u] m₄ hrun rfl
  rw [show (twoPeers 0).gScheduler.threadsList.rotate (0 + 1) = [1, 0] from rfl] at heq
  rw [heq] at hrun
  exact ⟨m₄, hrun, hcur⟩

end TaskMem

end LtMicros
