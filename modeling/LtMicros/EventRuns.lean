import LtMicros.Event
import LtMicros.Lib.Run

/-!
# Blocked threads in whole runs

A switch overwrites the state of the thread that is switched from, `WAITING` as
well, so what keeps a blocked thread from running is only that no interrupt
chooses it before its event is signaled.
-/

namespace LtMicros

open Lib

namespace TaskMem

variable {m m' : TaskMem} {context : InterruptContext} {c t fuel : ℕ} {args : Option StartArgs}

/-- The threads of the list are counted, and the current one is among them. -/
structure Tasks (m : TaskMem) (c : ℕ) : Prop where
  nodup : m.gScheduler.threadsList.Nodup
  nbThreads : m.gScheduler.nbThreads.toNat = m.gScheduler.threadsList.length
  current : m.gScheduler.currentThread = some c
  mem : c ∈ m.gScheduler.threadsList

/-- `Schedules` may not return to the current thread `c`. -/
def MustLeave (m : TaskMem) (c : ℕ) : Prop :=
  m.gScheduler.running = true ∧ 2 ≤ m.gScheduler.threadsList.length ∧ ¬ m.MayStay c

/-- The thread `t` follows the current one, and can take over from it. -/
def NextInTurn (m : TaskMem) (c t : ℕ) : Prop :=
  m.MustLeave c ∧ Follows m.gScheduler.threadsList c t ∧ m.runnable t = true ∧
    m.priority c ≤ m.priority t

/-- What `Schedules` does when it comes to an end. -/
theorem Tasks.schedules_cases (ht : m.Tasks c) (h : m.schedules fuel context = .ret (args, m')) :
    ¬ m.MustLeave c ∧ args = none ∧ m' = m ∨
    ∃ t, m.NextInTurn c t ∧ args = some (m.switchThreads context c t).1 ∧
      m' = (m.switchThreads context c t).2 := by
  by_cases hguard : m.gScheduler.running = true ∧ 2 ≤ m.gScheduler.threadsList.length
  · have hs : m.Scheduling c :=
      ⟨hguard.1, ht.nodup, hguard.2, ht.nbThreads, ht.current, ht.mem⟩
    by_cases hstay : m.MayStay c
    · rw [hs.schedules_stay hstay] at h
      cases h
      exact .inl ⟨fun hleave => hleave.2.2 hstay, rfl, rfl⟩
    by_cases hfollow : m.CanFollow c
    · obtain ⟨t, hft, hrun, hprio⟩ := hfollow
      cases fuel with
      | zero =>
        rw [schedules, if_pos hs.guard, if_pos (by
          rw [← Bool.not_eq_false, hs.mustSwitch_eq_false]
          exact hstay)] at h
        cases h
      | succ fuel =>
        rw [hs.schedules_switch hstay hft hrun hprio] at h
        cases h
        exact .inr ⟨t, ⟨⟨hguard.1, hguard.2, hstay⟩, hft, hrun, hprio⟩, rfl, rfl⟩
    · rw [hs.schedules_hang hstay hfollow] at h
      cases h
  · have hno : ¬ (m.gScheduler.running = true ∧ 1 < m.gScheduler.nbThreads) := by
      rw [BitVec.lt_def, ht.nbThreads]
      exact hguard
    rw [schedules, if_neg hno] at h
    cases h
    exact .inl ⟨fun hleave => hguard ⟨hleave.1, hleave.2.1⟩, rfl, rfl⟩

/-- A switch leaves the list as it is. -/
theorem Tasks.switchThreads (ht : m.Tasks c) (hnext : m.NextInTurn c t) :
    ((m.switchThreads context c t).2).Tasks t :=
  ⟨ht.nodup, ht.nbThreads, rfl, hnext.2.1.mem⟩

theorem NextInTurn.ne (ht : m.Tasks c) (hnext : m.NextInTurn c t) : t ≠ c :=
  hnext.2.1.ne ht.nodup hnext.1.2.1

end TaskMem

/-! ## One step -/

section Step

variable {s s' : System} {op : Op} {ops : List Op} {c t evt : ℕ} {entry : Entry}
  {log : List Entry} {m : TaskMem} {args : Option StartArgs}

/-- An interrupt at which the claim can still hold: a thread whose wait is
unanswered is not the next in turn, and `Schedules` does not return to one that has
come to the interrupt of `EventWait`. -/
def EventGuard (s : System) : Op → Prop
  | .clock => ∀ c t evt, s.mem.gScheduler.currentThread = some c → Unanswered t evt s.log →
      ¬ s.mem.clockTick.NextInTurn c t
  | .contextSwitch => ∀ c t evt, s.mem.gScheduler.currentThread = some c →
      Unanswered t evt s.log → ¬ s.mem.NextInTurn c t
  | .waitInt => ∀ c t evt, s.mem.gScheduler.currentThread = some c → Unanswered t evt s.log →
      ¬ s.mem.NextInTurn c t ∧ (t = c → s.mem.MustLeave c)
  | _ => True

/-- A thread whose wait is unanswered stands between the store of `WAITING` and
the statement after the interrupt, where it only comes by losing the processor. -/
structure EventInv (s : System) : Prop where
  tasks : ∃ c, s.mem.Tasks c
  held : ∀ t evt, Unanswered t evt s.log → s.pc t = .waitLeave evt ∨ s.pc t = .waitInt evt ∨
    s.pc t = .waitClear evt ∧ s.mem.gScheduler.currentThread ≠ some t
  stays : StaysBlocked s.log

theorem unanswered_cons : Unanswered t evt (entry :: log) ↔
    entry = .blocked t evt ∨ entry ≠ .signaled evt ∧ Unanswered t evt log := Iff.rfl

/-- The current thread has no unanswered wait, unless it is about to come to the
interrupt. -/
theorem EventInv.answered (hi : EventInv s) (hc : s.mem.gScheduler.currentThread = some t)
    (hpc : ∀ evt, s.pc t ≠ .waitLeave evt ∧ s.pc t ≠ .waitInt evt) :
    ¬ Unanswered t evt s.log := by
  intro hu
  rcases hi.held t evt hu with h | h | ⟨-, h⟩
  · exact (hpc evt).1 h
  · exact (hpc evt).2 h
  · exact h hc

/-- The current thread moves on, and something may be observed. -/
theorem EventInv.move {p : Pc} (hi : EventInv s)
    (hsched : s'.mem.gScheduler = s.mem.gScheduler) (hpc : s'.pc = Function.update s.pc t p)
    (hstays : StaysBlocked s'.log)
    (hothers : ∀ u evt, u ≠ t → Unanswered u evt s'.log → Unanswered u evt s.log)
    (hself : ∀ evt, Unanswered t evt s'.log → p = .waitLeave evt ∨ p = .waitInt evt) :
    EventInv s' := by
  obtain ⟨c, hc⟩ := hi.tasks
  refine ⟨⟨c, ?_⟩, fun u evt hu => ?_, hstays⟩
  · obtain ⟨h1, h2, h3, h4⟩ := hc
    constructor <;> rwa [hsched]
  rw [hpc, hsched]
  by_cases hut : u = t
  · subst hut
    rw [Function.update_self]
    rcases hself evt hu with h | h
    · exact .inl h
    · exact .inr (.inl h)
  · rw [Function.update_of_ne hut]
    exact hi.held u evt (hothers u evt hut hu)

/-- The same where nothing is observed and the current thread has no unanswered
wait. -/
theorem EventInv.quiet {p : Pc} (hi : EventInv s)
    (hc : s.mem.gScheduler.currentThread = some t)
    (hpc : ∀ evt, s.pc t ≠ .waitLeave evt ∧ s.pc t ≠ .waitInt evt)
    (hsched : s'.mem.gScheduler = s.mem.gScheduler) (hpc' : s'.pc = Function.update s.pc t p)
    (hlog : s'.log = s.log) : EventInv s' := by
  apply hi.move hsched hpc'
  · rw [hlog]
    exact hi.stays
  · intro u evt _ hu
    rwa [hlog] at hu
  · intro evt hu
    rw [hlog] at hu
    exact absurd hu (hi.answered hc hpc)

/-- A statement of the current thread keeps the invariant. -/
theorem EventInv.exec (hi : EventInv s) (hc : s.mem.gScheduler.currentThread = some t)
    (h : s.exec t = some s') : EventInv s' := by
  unfold System.exec at h
  cases hpc : s.pc t with
  | idle | waitInt evt =>
    rw [hpc] at h
    cases h
  | waitEnter evt eax | waitTest evt | waitThread evt | waitEnd evt | signalEnter evt eax
  | signalTest evt | signalLeave evt =>
    rw [hpc] at h
    cases h
    exact hi.quiet hc (by simp [hpc]) rfl rfl rfl
  | waitState evt =>
    rw [hpc] at h
    obtain ⟨other, -, rfl⟩ := Option.map_eq_some_iff.mp h
    refine hi.move rfl rfl ⟨fun u e hu => by simp at hu, hi.stays⟩ (fun u e hut hu => ?_)
      fun e hu => ?_
    · rcases unanswered_cons.mp hu with hb | hb
      · cases hb
        exact absurd rfl hut
      · exact hb.2
    · rcases unanswered_cons.mp hu with hb | hb
      · cases hb
        exact .inl rfl
      · exact absurd hb.2 (hi.answered hc (by simp [hpc]))
  | waitLeave evt =>
    rw [hpc] at h
    cases h
    refine hi.move rfl rfl hi.stays (fun u e _ hu => hu) fun e hu => ?_
    rcases hi.held t e hu with hb | hb | hb
    · rw [hpc] at hb
      cases hb
      exact .inr rfl
    · rw [hpc] at hb
      cases hb
    · exact absurd hc hb.2
  | waitClear evt =>
    rw [hpc] at h
    cases h
    have hself (e) : ¬ Unanswered t e s.log := hi.answered hc (by simp [hpc])
    refine hi.move rfl rfl ⟨fun u e hu => ?_, hi.stays⟩ (fun u e _ hu => ?_) fun e hu => ?_
    · rcases hu with hu | hu
      · cases hu
      · cases hu
        exact hself evt
    · exact ((unanswered_cons.mp hu).resolve_left (by simp)).2
    · exact absurd ((unanswered_cons.mp hu).resolve_left (by simp)).2 (hself e)
  | signalSet evt =>
    rw [hpc] at h
    cases h
    refine hi.move rfl rfl ⟨fun u e hu => by simp at hu, hi.stays⟩ (fun u e _ hu => ?_)
      fun e hu => ?_
    · exact ((unanswered_cons.mp hu).resolve_left (by simp)).2
    · exact absurd ((unanswered_cons.mp hu).resolve_left (by simp)).2
        (hi.answered hc (by simp [hpc]))
  | signalState evt =>
    rw [hpc] at h
    obtain ⟨other, -, rfl⟩ := Option.map_eq_some_iff.mp h
    exact hi.quiet hc (by simp [hpc]) rfl rfl rfl

/-- What holds after an interrupt in which `Schedules` chooses no thread with an
unanswered wait, and leaves the current one if it stands after the interrupt. -/
theorem TaskMem.Tasks.interrupted {fuel : ℕ} {context : InterruptContext} {m₀ : TaskMem}
    (hc : m₀.Tasks c) (h : m₀.schedules fuel context = .ret (args, m))
    (hstays : StaysBlocked s.log)
    (hheld : ∀ u evt, Unanswered u evt s.log → s.pc u = .waitLeave evt ∨ s.pc u = .waitInt evt ∨
      s.pc u = .waitClear evt ∧ (u = c → m₀.MustLeave c))
    (hguard : ∀ u evt, Unanswered u evt s.log → ¬ m₀.NextInTurn c u) :
    EventInv (s.interrupted args m) := by
  rcases hc.schedules_cases h with ⟨hno, rfl, rfl⟩ | ⟨t, hnext, rfl, rfl⟩
  · refine ⟨⟨c, hc⟩, fun u evt hu => ?_, hstays⟩
    rcases hheld u evt hu with hb | hb | hb
    · exact .inl hb
    · exact .inr (.inl hb)
    · refine .inr (.inr ⟨hb.1, fun heq => hno (hb.2 ?_)⟩)
      exact Option.some.inj (heq.symm.trans hc.current)
  · have hfree (evt) : ¬ Unanswered t evt s.log := fun hu => hguard t evt hu hnext
    refine ⟨⟨t, hc.switchThreads hnext⟩, fun u evt hu => ?_, fun u evt hu => ?_, hstays⟩
    · have hu := ((unanswered_cons.mp hu).resolve_left (by simp)).2
      have hut : u ≠ t := by
        rintro rfl
        exact hfree evt hu
      rcases hheld u evt hu with hb | hb | hb
      · exact .inl hb
      · exact .inr (.inl hb)
      · exact .inr (.inr ⟨hb.1, fun heq => hut (Option.some.inj heq).symm⟩)
    · rcases hu with hu | hu
      · cases hu
        exact hfree evt
      · cases hu

/-- The invariant before an interrupt that comes between two statements. -/
theorem EventInv.interrupt {fuel : ℕ} {context : InterruptContext} {m₀ : TaskMem}
    (hi : EventInv s) (hsched : m₀.gScheduler = s.mem.gScheduler)
    (h : m₀.schedules fuel context = .ret (args, m))
    (hguard : ∀ c t evt, s.mem.gScheduler.currentThread = some c → Unanswered t evt s.log →
      ¬ m₀.NextInTurn c t) : EventInv (s.interrupted args m) := by
  obtain ⟨c, hc⟩ := hi.tasks
  have hc₀ : m₀.Tasks c := by
    obtain ⟨h1, h2, h3, h4⟩ := hc
    constructor <;> rwa [hsched]
  apply hc₀.interrupted h hi.stays _ fun u evt => hguard c u evt hc.current
  intro u evt hu
  rcases hi.held u evt hu with hb | hb | hb
  · exact .inl hb
  · exact .inr (.inl hb)
  · refine .inr (.inr ⟨hb.1, fun huc => absurd hc.current ?_⟩)
    rw [← huc]
    exact hb.2

/-- The interrupt of `EventWait`. -/
theorem EventInv.waitInt {fuel : ℕ} {context : InterruptContext} (hi : EventInv s)
    (hc : s.mem.gScheduler.currentThread = some t) (hpc : s.pc t = .waitInt evt)
    (h : s.mem.schedules fuel context = .ret (args, m)) (hguard : EventGuard s .waitInt) :
    EventInv ((s.goto t (.waitClear evt)).interrupted args m) := by
  obtain ⟨c, hcs⟩ := hi.tasks
  obtain rfl : t = c := Option.some.inj (hc.symm.trans hcs.current)
  apply hcs.interrupted (s := s.goto t (.waitClear evt)) h hi.stays _
    fun u evt hu => (hguard t u evt hc hu).1
  intro u evt' hu
  by_cases hut : u = t
  · subst hut
    refine .inr (.inr ⟨?_, fun _ => (hguard u u evt' hc hu).2 rfl⟩)
    rw [System.goto_pc_self]
    rcases hi.held u evt' hu with hb | hb | hb
    · rw [hpc] at hb
      cases hb
    · rw [hpc] at hb
      cases hb
      rfl
    · exact absurd hc hb.2
  · rw [System.goto_pc_of_ne s hut]
    rcases hi.held u evt' hu with hb | hb | hb
    · exact .inl hb
    · exact .inr (.inl hb)
    · exact .inr (.inr ⟨hb.1, fun heq => absurd heq hut⟩)

/-- Every step that meets the condition keeps the invariant. -/
theorem EventInv.step (hi : EventInv s) (hguard : EventGuard s op) (h : EventStep s op s') :
    EventInv s' := by
  cases h with
  | wait evt hc hpc => exact hi.quiet hc (by simp [hpc]) rfl rfl rfl
  | signal evt hc hpc => exact hi.quiet hc (by simp [hpc]) rfl rfl rfl
  | exec hc h => exact hi.exec hc h
  | waitInt hc hpc h => exact hi.waitInt hc hpc h hguard
  | contextSwitch hc hpc h => exact hi.interrupt rfl h hguard
  | clock h =>
    exact hi.interrupt (show s.mem.clockTick.gScheduler = s.mem.gScheduler from rfl) h hguard

/-! ## Whole runs -/

/-- No thread is in one of the functions yet. -/
structure Starts (s : System) : Prop where
  tasks : ∃ c, s.mem.Tasks c
  idle : ∀ t, s.pc t = .idle
  log : s.log = []

theorem Starts.inv (h : Starts s) : EventInv s := by
  refine ⟨h.tasks, fun t evt hu => ?_, ?_⟩
  · rw [h.log] at hu
    exact hu.elim
  · rw [h.log]
    trivial

/-- In every run whose interrupts all meet the condition, a blocked thread stays
blocked until its event is signaled. -/
theorem stays_blocked (hs : Starts s) (h : Run (Guarded EventGuard EventStep) s ops s') :
    StaysBlocked s'.log :=
  (h.guarded_invariant (fun _ _ _ hi hg hstep => hi.step hg hstep) hs.inv).stays

/-- The condition leaves out no harmless interrupt: a thread that is next in turn
is switched to, answered or not. -/
theorem not_staysBlocked_of_nextInTurn {m₀ : TaskMem} (hc : m₀.Tasks c)
    (hnext : m₀.NextInTurn c t) (hu : Unanswered t evt s.log) (context : InterruptContext) :
    ∃ args m, m₀.schedules 1 context = .ret (args, m) ∧
      ¬ StaysBlocked (s.interrupted args m).log := by
  obtain ⟨⟨hrun, htwo, hstay⟩, hft, hrunt, hprio⟩ := hnext
  have hs : m₀.Scheduling c := ⟨hrun, hc.nodup, htwo, hc.nbThreads, hc.current, hc.mem⟩
  refine ⟨_, _, hs.schedules_switch hstay hft hrunt hprio 0, fun hblocked => ?_⟩
  exact hblocked.1 t evt (.inl rfl) hu

/-- And a thread that `Schedules` returns to goes on after its wait. -/
theorem not_staysBlocked_of_not_mustLeave (hc : s.mem.Tasks t) (hpc : s.pc t = .waitInt evt)
    (hno : ¬ s.mem.MustLeave t) (hu : Unanswered t evt s.log) :
    ∃ s', Run EventStep s [.waitInt, .exec] s' ∧ ¬ StaysBlocked s'.log := by
  have hret : s.mem.schedules 1 TaskMem.zeroContext = .ret (none, s.mem) := by
    by_cases hguard : s.mem.gScheduler.running = true ∧ 1 < s.mem.gScheduler.nbThreads
    · have htwo : 2 ≤ s.mem.gScheduler.threadsList.length := by
        rw [← hc.nbThreads]
        exact hguard.2
      have hs : s.mem.Scheduling t :=
        ⟨hguard.1, hc.nodup, htwo, hc.nbThreads, hc.current, hc.mem⟩
      exact hs.schedules_stay (Classical.not_not.mp fun hstay => hno ⟨hguard.1, htwo, hstay⟩) 1
    · rw [TaskMem.schedules, if_neg hguard]
  have hexec : (s.goto t (.waitClear evt)).exec t =
      some ((((s.goto t (.waitClear evt)).setEvent evt fun e =>
        { e with signaled := false }).observe (.passed t evt)).goto t (.waitEnd evt)) := by
    rw [System.exec, System.goto_pc_self]
  refine ⟨_, .cons (.waitInt hc.current hpc hret) (.single (.exec hc.current hexec)), fun hb => ?_⟩
  exact hb.1 t evt (.inr rfl) hu

/-- A wait while no other is unanswered meets it. -/
theorem eventGuard_waitInt (hc : s.mem.Tasks t) (hrun : s.mem.gScheduler.running = true)
    (htwo : 2 ≤ s.mem.gScheduler.threadsList.length) (hwaits : s.mem.runnable t = false)
    (hlog : ∀ u evt, Unanswered u evt s.log → u = t) : EventGuard s .waitInt := by
  intro c u evt hcur hu
  obtain rfl : t = c := Option.some.inj (hc.current.symm.trans hcur)
  refine ⟨fun hnext => hnext.ne hc (hlog u evt hu), fun _ => ⟨hrun, htwo, fun hstay => ?_⟩⟩
  have hrunnable := hstay.runnable
  rw [hwaits] at hrunnable
  cases hrunnable

end Step

/-! ## Two threads, two events -/

/-- Thread 0 runs, thread 1 has not been started, and no event is signaled. -/
def twoThreads : System where
  mem :=
    { threads := fun t => TaskMem.normalThread (if t = 0 then .running else .init)
      gScheduler := ⟨true, [0, 1], some 0, 2⟩
      gTss := ⟨0, kernelDataSelector⟩
      tics := 0 }
  events := fun _ => ⟨false, none, false⟩
  pc := fun _ => .idle
  log := []

theorem twoThreads_starts : Starts twoThreads :=
  ⟨⟨0, by show [0, 1].Nodup; decide, rfl, rfl, List.mem_cons_self⟩, fun _ => rfl, rfl⟩

/-- Thread 0 waits, and thread 1 signals the event. -/
theorem twoThreads_answered : ∃ s, Run (Guarded EventGuard EventStep) twoThreads
    [.wait 0, .exec, .exec, .exec, .exec, .exec, .waitInt, .signal 0, .exec, .exec] s := by
  refine ⟨_, .cons ⟨trivial, .wait 0 rfl rfl⟩ <| .cons ⟨trivial, .exec rfl rfl⟩ <|
    .cons ⟨trivial, .exec rfl rfl⟩ <| .cons ⟨trivial, .exec rfl rfl⟩ <|
    .cons ⟨trivial, .exec rfl rfl⟩ <| .cons ⟨trivial, .exec rfl rfl⟩ <|
    .cons ⟨eventGuard_waitInt ⟨by show [0, 1].Nodup; decide, rfl, rfl, List.mem_cons_self⟩ rfl
      (Nat.le_refl 2) rfl fun u evt hu => ?_,
      .waitInt rfl rfl (show TaskMem.schedules 1 _ TaskMem.zeroContext = _ from rfl)⟩ <|
    .cons ⟨trivial, .signal 0 rfl rfl⟩ <| .cons ⟨trivial, .exec rfl rfl⟩ <|
    .single ⟨trivial, .exec rfl rfl⟩⟩
  rcases hu with hu | hu
  · cases hu
    rfl
  · exact hu.2.elim

theorem twoThreads_stays_blocked : ∃ s, Run (Guarded EventGuard EventStep) twoThreads
    [.wait 0, .exec, .exec, .exec, .exec, .exec, .waitInt, .signal 0, .exec, .exec] s ∧
    StaysBlocked s.log := by
  obtain ⟨s, hrun⟩ := twoThreads_answered
  exact ⟨s, hrun, stays_blocked twoThreads_starts hrun⟩

/-- Thread 0 waits for event 0 and thread 1 for event 1; then thread 0, which is
paused and no longer waiting, is switched to. -/
theorem twoThreads_not_staysBlocked : Starts twoThreads ∧
    ∃ s, Run EventStep twoThreads [.wait 0, .exec, .exec, .exec, .exec, .exec, .waitInt,
        .wait 1, .exec, .exec, .exec, .exec, .exec, .waitInt] s ∧ ¬ StaysBlocked s.log := by
  refine ⟨twoThreads_starts, _, .cons (.wait 0 rfl rfl) <| .cons (.exec rfl rfl) <|
    .cons (.exec rfl rfl) <| .cons (.exec rfl rfl) <| .cons (.exec rfl rfl) <|
    .cons (.exec rfl rfl) <|
    .cons (.waitInt rfl rfl (show TaskMem.schedules 1 _ TaskMem.zeroContext = _ from rfl)) <|
    .cons (.wait 1 rfl rfl) <| .cons (.exec rfl rfl) <| .cons (.exec rfl rfl) <|
    .cons (.exec rfl rfl) <| .cons (.exec rfl rfl) <| .cons (.exec rfl rfl) <|
    .single (.waitInt rfl rfl (show TaskMem.schedules 1 _ TaskMem.zeroContext = _ from rfl)),
    fun hb => ?_⟩
  exact hb.1 0 0 (.inl rfl) (.inr ⟨by decide, .inr ⟨by decide, .inl rfl⟩⟩)

end LtMicros
