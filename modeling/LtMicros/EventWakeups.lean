import LtMicros.EventRuns

/-!
# Whom a signal wakes

`EventWait` stores the current thread in the event, and nothing takes it out again: a later
signal makes that thread `RUNNING`, wherever it stands by then.
-/

namespace LtMicros

open Lib

/-- The thread has been set waiting for the event, and has not gone on since. -/
def Waits (thread evt : ℕ) : List Entry → Prop
  | [] => False
  | entry :: log => entry = .blocked thread evt ∨ entry ≠ .passed thread evt ∧ Waits thread evt log

namespace System

/-- What a call of `EventSignal` makes of the threads. -/
def afterSignal (s : System) (evt : ℕ) : TaskMem :=
  match (s.events evt).thread with
  | none => s.mem
  | some thread => s.mem.store thread fun t => { t with state := .running }

/-- A call of `EventSignal` by the current thread, when it comes to its end without an
interrupt, makes every thread runnable that waits for the event, and changes the state of no
other. -/
def WakesWaiters (s : System) (evt : ℕ) : Prop :=
  ∀ t n s', s.mem.gScheduler.currentThread = some t → s.pc t = .idle →
    Run EventStep s (.signal evt :: List.replicate n .exec) s' → s'.pc t = .idle →
    (∀ u, Waits u evt s.log → s'.mem.runnable u = true) ∧
    ∀ u, ¬Waits u evt s.log → (s'.mem.threads u).state = (s.mem.threads u).state

end System

section Call

variable {s s' s₁ s₂ : System} {t evt n : ℕ}

/-- Where the thread `t` stands in its call of `EventSignal`, and what has happened to the
threads. -/
inductive Signalling (s : System) (t evt : ℕ) (s₁ : System) : Prop
  | before : s₁.mem = s.mem → ((∃ eax, s₁.pc t = .signalEnter evt eax) ∨
      s₁.pc t = .signalSet evt ∨ s₁.pc t = .signalTest evt ∨ s₁.pc t = .signalState evt) →
      Signalling s t evt s₁
  | after : s₁.mem = s.afterSignal evt → (s₁.pc t = .signalLeave evt ∨ s₁.pc t = .idle) →
      Signalling s t evt s₁

theorem System.thread_setEvent {f : Event → Event} (hf : ∀ e, (f e).thread = e.thread) :
    ((s.setEvent evt f).events evt).thread = (s.events evt).thread := by
  show (Function.update s.events evt _ evt).thread = _
  rw [Function.update_self, hf]

/-- A statement of the call. -/
theorem Signalling.exec (h : Signalling s t evt s₁)
    (hthread : (s₁.events evt).thread = (s.events evt).thread) (hexec : s₁.exec t = some s₂) :
    Signalling s t evt s₂ ∧ (s₂.events evt).thread = (s.events evt).thread := by
  have hkeep (f : Event → Event) (hf : ∀ e, (f e).thread = e.thread) :
      ((s₁.setEvent evt f).events evt).thread = (s.events evt).thread :=
    (System.thread_setEvent hf).trans hthread
  unfold System.exec at hexec
  cases h with
  | before hmem hpc =>
    rcases hpc with ⟨eax, hpc⟩ | hpc | hpc | hpc
    · rw [hpc] at hexec
      cases hexec
      refine ⟨Signalling.before ?_ ?_, ?_⟩
      · exact hmem
      · rw [System.goto_pc_self]
        split
        · exact .inl ⟨true, rfl⟩
        · exact .inr (.inl rfl)
      · exact hkeep (fun e => { e with value := _ }) fun _ => rfl
    · rw [hpc] at hexec
      cases hexec
      refine ⟨Signalling.before ?_ ?_, ?_⟩
      · exact hmem
      · rw [System.goto_pc_self]
        exact .inr (.inr (.inl rfl))
      · exact hkeep (fun e => { e with signaled := true }) fun _ => rfl
    · rw [hpc] at hexec
      cases hexec
      by_cases hnone : (s₁.events evt).thread = none
      · -- nobody is woken
        refine ⟨Signalling.after ?_ ?_, hthread⟩
        · rw [System.afterSignal, ← hthread, hnone]
          exact hmem
        · rw [System.goto_pc_self, if_pos hnone]
          exact .inl rfl
      · refine ⟨Signalling.before ?_ ?_, hthread⟩
        · exact hmem
        · rw [System.goto_pc_self, if_neg hnone]
          exact .inr (.inr (.inr rfl))
    · rw [hpc] at hexec
      obtain ⟨other, hother, rfl⟩ := Option.map_eq_some_iff.mp hexec
      refine ⟨Signalling.after ?_ ?_, hthread⟩
      · rw [System.afterSignal, ← hthread, hother, ← hmem]
        rfl
      · rw [System.goto_pc_self]
        exact .inl rfl
  | after hmem hpc =>
    rcases hpc with hpc | hpc
    · rw [hpc] at hexec
      cases hexec
      refine ⟨Signalling.after ?_ ?_, ?_⟩
      · exact hmem
      · rw [System.goto_pc_self]
        exact .inr rfl
      · exact hkeep (fun e => { e with value := false }) fun _ => rfl
    · rw [hpc] at hexec
      cases hexec

theorem Signalling.gScheduler (h : Signalling s t evt s₁) :
    s₁.mem.gScheduler = s.mem.gScheduler := by
  cases h with
  | before hmem => rw [hmem]
  | after hmem =>
    rw [hmem, System.afterSignal]
    split
    · rfl
    · rfl

/-- A call that is not interrupted has stored `RUNNING` in the thread of the event. -/
theorem signal_mem (hc : s.mem.gScheduler.currentThread = some t)
    (hrun : Run EventStep s (.signal evt :: List.replicate n .exec) s') (hend : s'.pc t = .idle) :
    s'.mem = s.afterSignal evt := by
  obtain ⟨s₀, hfirst, hrest⟩ := hrun.of_cons
  have hinv : Signalling s t evt s' ∧ (s'.events evt).thread = (s.events evt).thread := by
    apply (hrest.of_forall (P := fun op => op = .exec) fun op hop =>
      (List.mem_replicate.mp hop).2).invariant
        (I := fun s₁ => Signalling s t evt s₁ ∧ (s₁.events evt).thread = (s.events evt).thread)
    · rintro s₁ op s₂ ⟨hsig, hthread⟩ ⟨rfl, hstep⟩
      cases hstep with
      | exec hc' hexec =>
        rw [hsig.gScheduler, hc] at hc'
        cases hc'
        exact hsig.exec hthread hexec
    · cases hfirst with
      | signal _ hc' =>
        cases hc.symm.trans hc'
        refine ⟨.before rfl ?_, rfl⟩
        rw [System.goto_pc_self]
        exact .inl ⟨false, rfl⟩
  cases hinv.1 with
  | before _ hpc =>
    rw [hend] at hpc
    simp at hpc
  | after hmem => exact hmem

end Call

/-! ## One step -/

section Step

variable {s s' : System} {op : Op} {ops : List Op} {c t u evt : ℕ} {entry : Entry}
  {log : List Entry} {m m₀ : TaskMem} {args : Option StartArgs}

/-- When `Schedules` takes the processor from the current thread, every event that points to
this thread is one that it waits for. -/
def KeepsPointers (s : System) (m : TaskMem) : Prop :=
  ∀ c t, s.mem.gScheduler.currentThread = some c → m.NextInTurn c t →
    ∀ evt, (s.events evt).thread = some c → Waits c evt s.log

/-- A step after which every event still points to a thread that waits for it, or runs: a
thread that sets itself waiting is that of its event and of no other, it goes on as `RUNNING`,
and it does not lose the processor while an event that it does not wait for points to it. -/
def WakeGuard (s : System) : Op → Prop
  | .exec => ∀ t evt, s.mem.gScheduler.currentThread = some t →
      (s.pc t = .waitState evt → ∀ other, (s.events other).thread = some t ↔ other = evt) ∧
      (s.pc t = .waitClear evt → (s.mem.threads t).state = .running)
  | .clock => KeepsPointers s s.mem.clockTick
  | .waitInt => KeepsPointers s s.mem
  | .contextSwitch => KeepsPointers s s.mem
  | _ => True

/-- Every event points to a thread that waits for it or runs, and every thread that waits is
runnable, or is the current one and that of its event. -/
structure WakeInv (s : System) : Prop where
  tasks : ∃ c, s.mem.Tasks c
  inside : ∀ t evt, Waits t evt s.log →
    s.pc t = .waitLeave evt ∨ s.pc t = .waitInt evt ∨ s.pc t = .waitClear evt
  awake : ∀ t evt, Waits t evt s.log → s.mem.runnable t = true ∨
    s.mem.gScheduler.currentThread = some t ∧ (s.events evt).thread = some t
  running : ∀ c, s.mem.gScheduler.currentThread = some c →
    (s.mem.threads c).state = .running ∨ ∃ evt, Waits c evt s.log
  points : ∀ evt t, (s.events evt).thread = some t →
    Waits t evt s.log ∨ (s.mem.threads t).state = .running

theorem waits_cons : Waits t evt (entry :: log) ↔
    entry = .blocked t evt ∨ entry ≠ .passed t evt ∧ Waits t evt log := Iff.rfl

/-- Where no entry of a wait is added. -/
theorem waits_cons_of_ne (hblocked : ∀ t evt, entry ≠ .blocked t evt)
    (hpassed : ∀ t evt, entry ≠ .passed t evt) : Waits t evt (entry :: log) ↔ Waits t evt log := by
  rw [waits_cons]
  constructor
  · intro h
    exact (h.resolve_left (hblocked t evt)).2
  · intro h
    exact .inr ⟨hpassed t evt, h⟩

theorem WakeInv.not_waits (hi : WakeInv s) (hpc : ∀ evt, s.pc t ≠ .waitLeave evt ∧
    s.pc t ≠ .waitInt evt ∧ s.pc t ≠ .waitClear evt) (evt : ℕ) : ¬Waits t evt s.log := by
  intro hw
  obtain ⟨h1, h2, h3⟩ := hpc evt
  rcases hi.inside t evt hw with h | h | h
  · exact h1 h
  · exact h2 h
  · exact h3 h

/-- The current thread moves on; nothing else that matters is different. -/
theorem WakeInv.quiet {p : Pc} (hi : WakeInv s) (hmem : s'.mem = s.mem)
    (hthread : ∀ evt, (s'.events evt).thread = (s.events evt).thread)
    (hpc : s'.pc = Function.update s.pc t p)
    (hlog : ∀ u evt, Waits u evt s'.log ↔ Waits u evt s.log)
    (hself : ∀ evt, Waits t evt s.log → p = .waitLeave evt ∨ p = .waitInt evt ∨ p = .waitClear evt) :
    WakeInv s' := by
  constructor
  · rw [hmem]
    exact hi.tasks
  · intro u evt hw
    rw [hlog] at hw
    rw [hpc]
    by_cases hut : u = t
    · rw [hut, Function.update_self]
      exact hself evt (hut ▸ hw)
    · rw [Function.update_of_ne hut]
      exact hi.inside u evt hw
  · intro u evt hw
    rw [hlog] at hw
    rw [hmem, hthread]
    exact hi.awake u evt hw
  · intro c hc
    rw [hmem] at hc ⊢
    simp only [hlog]
    exact hi.running c hc
  · intro evt u hu
    rw [hthread] at hu
    rw [hmem, hlog]
    exact hi.points evt u hu

theorem TaskMem.Tasks.congr (h : m.Tasks c) (hs : m₀.gScheduler = m.gScheduler) : m₀.Tasks c := by
  obtain ⟨h1, h2, h3, h4⟩ := h
  constructor <;> rwa [hs]

theorem state_setState (s : System) (t : ℕ) (state : ThreadState) (u : ℕ) :
    ((s.setState t state).mem.threads u).state = if u = t then state else (s.mem.threads u).state := by
  show (Function.update s.mem.threads t { s.mem.threads t with state } u).state = _
  by_cases hut : u = t
  · rw [hut, Function.update_self, if_pos rfl]
  · rw [Function.update_of_ne hut, if_neg hut]

theorem runnable_setState (s : System) (t : ℕ) (state : ThreadState) (u : ℕ) :
    (s.setState t state).mem.runnable u =
      if u = t then runnableThread state else s.mem.runnable u := by
  rw [TaskMem.runnable, state_setState]
  split
  · rfl
  · rfl

/-- `evt->thread = GetCurrentThread()`. -/
theorem WakeInv.waitThread (hi : WakeInv s) (hc : s.mem.gScheduler.currentThread = some t)
    (hpc : s.pc t = .waitThread evt) :
    WakeInv ((s.setEvent evt fun e => { e with thread := some t }).goto t (.waitState evt)) := by
  have hself := hi.not_waits (t := t) (by simp [hpc])
  constructor
  · exact hi.tasks
  · intro u e hw
    by_cases hut : u = t
    · exact absurd (hut ▸ hw) (hself e)
    · rw [System.goto_pc_of_ne _ hut]
      exact hi.inside u e hw
  · intro u e hw
    rcases hi.awake u e hw with hrun | ⟨hcur, -⟩
    · exact .inl hrun
    · rw [hc] at hcur
      cases hcur
      exact absurd hw (hself e)
  · exact hi.running
  · intro e u hu
    change (Function.update s.events evt _ e).thread = some u at hu
    by_cases hee : e = evt
    · rw [hee, Function.update_self] at hu
      cases hu
      -- the current thread does not wait, so it runs
      right
      rcases hi.running t hc with hrun | ⟨e', hw⟩
      · exact hrun
      · exact absurd hw (hself e')
    · rw [Function.update_of_ne hee] at hu
      exact hi.points e u hu

/-- `evt->thread->state = THREAD_STATE_WAITING`, in the thread itself. -/
theorem WakeInv.waitState (hi : WakeInv s) (hc : s.mem.gScheduler.currentThread = some t)
    (hpc : s.pc t = .waitState evt)
    (hown : ∀ other, (s.events other).thread = some t ↔ other = evt) :
    WakeInv (((s.setState t .waiting).observe (.blocked t evt)).goto t (.waitLeave evt)) := by
  have hself := hi.not_waits (t := t) (by simp [hpc])
  have hlog (u e) : Waits u e (.blocked t evt :: s.log) ↔ u = t ∧ e = evt ∨ Waits u e s.log := by
    rw [waits_cons]
    simp [eq_comm]
  constructor
  · exact hi.tasks.imp fun _ h => h.congr rfl
  · intro u e hw
    rcases (hlog u e).mp hw with ⟨rfl, rfl⟩ | hold
    · rw [System.goto_pc_self]
      exact .inl rfl
    · have hut : u ≠ t := by
        rintro rfl
        exact hself e hold
      rw [System.goto_pc_of_ne _ hut]
      exact hi.inside u e hold
  · intro u e hw
    rcases (hlog u e).mp hw with ⟨rfl, rfl⟩ | hold
    · exact .inr ⟨hc, (hown e).mpr rfl⟩
    · have hut : u ≠ t := by
        rintro rfl
        exact hself e hold
      have hrun := runnable_setState s t .waiting u
      rw [if_neg hut] at hrun
      exact (hi.awake u e hold).imp (fun h => hrun.trans h) id
  · intro c hcur
    cases hc.symm.trans hcur
    exact .inr ⟨evt, (hlog t evt).mpr (.inl ⟨rfl, rfl⟩)⟩
  · intro e u hu
    by_cases hut : u = t
    · rw [hut] at hu ⊢
      exact .inl ((hlog t e).mpr (.inl ⟨rfl, (hown e).mp hu⟩))
    · have hstate := state_setState s t .waiting u
      rw [if_neg hut] at hstate
      exact (hi.points e u hu).imp (fun h => (hlog u e).mpr (.inr h)) (fun h => hstate.trans h)

/-- The thread goes on after its wait. -/
theorem WakeInv.waitClear (hi : WakeInv s) (hpc : s.pc t = .waitClear evt)
    (hrun : (s.mem.threads t).state = .running) :
    WakeInv (((s.setEvent evt fun e => { e with signaled := false }).observe
      (.passed t evt)).goto t (.waitEnd evt)) := by
  have hself (e) (hw : Waits t e s.log) : e = evt := by
    rcases hi.inside t e hw with h | h | h
    · rw [hpc] at h
      cases h
    · rw [hpc] at h
      cases h
    · rw [hpc] at h
      cases h
      rfl
  have hlog (u e) : Waits u e (.passed t evt :: s.log) ↔ u ≠ t ∧ Waits u e s.log := by
    rw [waits_cons]
    constructor
    · rintro (h | ⟨hne, hw⟩)
      · cases h
      · refine ⟨?_, hw⟩
        rintro rfl
        exact hne (by rw [hself e hw])
    · rintro ⟨hut, hw⟩
      refine .inr ⟨?_, hw⟩
      intro h
      cases h
      exact hut rfl
  have hthread (e) : (((s.setEvent evt fun e => { e with signaled := false })).events e).thread =
      (s.events e).thread := by
    by_cases hee : e = evt
    · rw [hee]
      exact System.thread_setEvent fun _ => rfl
    · exact congrArg Event.thread (Function.update_of_ne hee _ _)
  constructor
  · exact hi.tasks
  · intro u e hw
    obtain ⟨hut, hw⟩ := (hlog u e).mp hw
    rw [System.goto_pc_of_ne _ hut]
    exact hi.inside u e hw
  · intro u e hw
    obtain ⟨hut, hw⟩ := (hlog u e).mp hw
    exact (hi.awake u e hw).imp id fun h => ⟨h.1, (hthread e).trans h.2⟩
  · intro c hcur
    rcases hi.running c hcur with h | ⟨e, hw⟩
    · exact .inl h
    · by_cases hct : c = t
      · left
        rw [hct]
        exact hrun
      · exact .inr ⟨e, (hlog c e).mpr ⟨hct, hw⟩⟩
  · intro e u hu
    by_cases hut : u = t
    · right
      rw [hut]
      exact hrun
    · rcases hi.points e u ((hthread e).symm.trans hu) with hw | h
      · exact .inl ((hlog u e).mpr ⟨hut, hw⟩)
      · exact .inr h

/-- `evt->thread->state = THREAD_STATE_RUNNING`. -/
theorem WakeInv.signalState (hi : WakeInv s) (hpc : s.pc t = .signalState evt) (other : ℕ) :
    WakeInv ((s.setState other .running).goto t (.signalLeave evt)) := by
  have hself := hi.not_waits (t := t) (by simp [hpc])
  have hrun (u) (h : (s.mem.threads u).state = .running) :
      ((s.setState other .running).mem.threads u).state = .running := by
    rw [state_setState]
    split
    · rfl
    · exact h
  constructor
  · exact hi.tasks.imp fun _ h => h.congr rfl
  · intro u e hw
    have hut : u ≠ t := by
      rintro rfl
      exact hself e hw
    rw [System.goto_pc_of_ne _ hut]
    exact hi.inside u e hw
  · intro u e hw
    refine (hi.awake u e hw).imp ?_ id
    intro h
    have hmono := runnable_setState s other .running u
    refine hmono.trans ?_
    split
    · rfl
    · exact h
  · intro c hcur
    exact (hi.running c hcur).imp (hrun c) id
  · intro e u hu
    exact (hi.points e u hu).imp id (hrun u)

/-- A statement of the current thread keeps the invariant. -/
theorem WakeInv.exec (hi : WakeInv s) (hc : s.mem.gScheduler.currentThread = some t)
    (hguard : WakeGuard s .exec) (h : s.exec t = some s') : WakeInv s' := by
  have hthread (f : Event → Event) (e : ℕ) (evt : ℕ) (hf : ∀ e, (f e).thread = e.thread) :
      ((s.setEvent evt f).events e).thread = (s.events e).thread := by
    by_cases hee : e = evt
    · rw [hee]
      exact System.thread_setEvent hf
    · exact congrArg Event.thread (Function.update_of_ne hee _ _)
  unfold System.exec at h
  cases hpc : s.pc t with
  | idle | waitInt evt =>
    rw [hpc] at h
    cases h
  | waitEnter evt eax =>
    rw [hpc] at h
    cases h
    exact hi.quiet rfl (fun e => hthread (fun e => { e with value := _ }) e evt fun _ => rfl) rfl
      (fun _ _ => Iff.rfl) fun e hw => absurd hw (hi.not_waits (by simp [hpc]) e)
  | waitTest evt =>
    rw [hpc] at h
    cases h
    exact hi.quiet rfl (fun _ => rfl) rfl (fun _ _ => Iff.rfl)
      fun e hw => absurd hw (hi.not_waits (by simp [hpc]) e)
  | waitThread evt =>
    rw [hpc] at h
    cases h
    rw [hc]
    exact hi.waitThread hc hpc
  | waitState evt =>
    rw [hpc] at h
    have hown := (hguard t evt hc).1 hpc
    obtain ⟨other, hother, rfl⟩ := Option.map_eq_some_iff.mp h
    rw [(hown evt).mpr rfl] at hother
    cases hother
    exact hi.waitState hc hpc hown
  | waitLeave evt =>
    rw [hpc] at h
    cases h
    refine hi.quiet rfl (fun e => hthread (fun e => { e with value := false }) e evt fun _ => rfl)
      rfl (fun _ _ => Iff.rfl) ?_
    intro e hw
    rcases hi.inside t e hw with h | h | h
    · rw [hpc] at h
      cases h
      exact .inr (.inl rfl)
    · rw [hpc] at h
      cases h
    · rw [hpc] at h
      cases h
  | waitClear evt =>
    rw [hpc] at h
    cases h
    exact hi.waitClear hpc ((hguard t evt hc).2 hpc)
  | waitEnd evt | signalLeave evt =>
    rw [hpc] at h
    cases h
    exact hi.quiet rfl (fun e => hthread (fun e => { e with value := false }) e evt fun _ => rfl)
      rfl (fun _ _ => Iff.rfl) fun e hw => absurd hw (hi.not_waits (by simp [hpc]) e)
  | signalEnter evt eax =>
    rw [hpc] at h
    cases h
    exact hi.quiet rfl (fun e => hthread (fun e => { e with value := _ }) e evt fun _ => rfl) rfl
      (fun _ _ => Iff.rfl) fun e hw => absurd hw (hi.not_waits (by simp [hpc]) e)
  | signalSet evt =>
    rw [hpc] at h
    cases h
    exact hi.quiet rfl (fun e => hthread (fun e => { e with signaled := true }) e evt fun _ => rfl)
      rfl (fun _ _ => waits_cons_of_ne (by simp) (by simp))
      fun e hw => absurd hw (hi.not_waits (by simp [hpc]) e)
  | signalTest evt =>
    rw [hpc] at h
    cases h
    exact hi.quiet rfl (fun _ => rfl) rfl (fun _ _ => Iff.rfl)
      fun e hw => absurd hw (hi.not_waits (by simp [hpc]) e)
  | signalState evt =>
    rw [hpc] at h
    obtain ⟨other, -, rfl⟩ := Option.map_eq_some_iff.mp h
    exact hi.signalState hpc other

/-- An interrupt keeps the invariant, when the thread that loses the processor may. -/
theorem WakeInv.interrupt {fuel : ℕ} {context : InterruptContext} (hi : WakeInv s)
    (hsched : m₀.gScheduler = s.mem.gScheduler) (hthreads : m₀.threads = s.mem.threads)
    (h : m₀.schedules fuel context = .ret (args, m)) (hguard : KeepsPointers s m₀) :
    WakeInv (s.interrupted args m) := by
  obtain ⟨c, hc⟩ := hi.tasks
  have hc₀ : m₀.Tasks c := hc.congr hsched
  rcases hc₀.schedules_cases h with ⟨-, rfl, rfl⟩ | ⟨t, hnext, rfl, rfl⟩
  · constructor
    · exact ⟨c, hc₀⟩
    · exact hi.inside
    · intro u e hw
      show runnableThread (m.threads u).state = true ∨ m.gScheduler.currentThread = some u ∧ _
      rw [hsched, hthreads]
      exact hi.awake u e hw
    · intro c hcur
      change m.gScheduler.currentThread = some c at hcur
      rw [hsched] at hcur
      show (m.threads c).state = .running ∨ _
      rw [hthreads]
      exact hi.running c hcur
    · intro e u hu
      show _ ∨ (m.threads u).state = .running
      rw [hthreads]
      exact hi.points e u hu
  · obtain ⟨-, -, ht, hpaused, hothers⟩ := m₀.switchThreads_spec context (hnext.ne hc₀)
    rw [hthreads] at hothers
    have hlog (u e) : Waits u e (.switchedTo t :: s.log) ↔ Waits u e s.log :=
      waits_cons_of_ne (by simp) (by simp)
    constructor
    · exact ⟨t, hc₀.switchThreads hnext⟩
    · intro u e hw
      exact hi.inside u e ((hlog u e).mp hw)
    · intro u e hw
      left
      show runnableThread ((m₀.switchThreads context c t).2.threads u).state = true
      by_cases huc : u = c
      · rw [huc, hpaused]
        rfl
      by_cases hut : u = t
      · rw [hut, ht]
        rfl
      · rw [hothers u huc hut]
        rcases hi.awake u e ((hlog u e).mp hw) with hrun | ⟨hcur, -⟩
        · exact hrun
        · exact absurd (Option.some.inj (hcur.symm.trans hc.current)) huc
    · intro u hcur
      obtain rfl : t = u := Option.some.inj hcur
      exact .inl ht
    · intro e u hu
      by_cases huc : u = c
      · left
        rw [huc] at hu ⊢
        exact (hlog c e).mpr (hguard c t hc.current hnext e hu)
      by_cases hut : u = t
      · right
        rw [hut]
        exact ht
      · refine (hi.points e u hu).imp (fun hw => (hlog u e).mpr hw) ?_
        intro hrun
        show ((m₀.switchThreads context c t).2.threads u).state = .running
        rw [hothers u huc hut]
        exact hrun

/-- Every step that meets the condition keeps the invariant. -/
theorem WakeInv.step (hi : WakeInv s) (hguard : WakeGuard s op) (h : EventStep s op s') :
    WakeInv s' := by
  have hidle {t : ℕ} (evt : ℕ) {p : Pc} (hpc : s.pc t = .idle) : WakeInv (s.goto t p) :=
    hi.quiet rfl (fun _ => rfl) rfl (fun _ _ => Iff.rfl)
      fun e hw => absurd hw (hi.not_waits (by simp [hpc]) e)
  cases h with
  | wait evt _ hpc => exact hidle evt hpc
  | signal evt _ hpc => exact hidle evt hpc
  | exec hc h => exact hi.exec hc hguard h
  | @waitInt t evt _ _ _ _ hc hpc hret =>
    have hgone : WakeInv (s.goto t (.waitClear evt)) := by
      refine hi.quiet rfl (fun _ => rfl) rfl (fun _ _ => Iff.rfl) ?_
      intro e hw
      rcases hi.inside t e hw with h | h | h
      · rw [hpc] at h
        cases h
      · rw [hpc] at h
        cases h
        exact .inr (.inr rfl)
      · rw [hpc] at h
        cases h
    exact hgone.interrupt rfl rfl hret hguard
  | contextSwitch _ _ h => exact hi.interrupt rfl rfl h hguard
  | clock h =>
    have hsched : s.mem.clockTick.gScheduler = s.mem.gScheduler := rfl
    have hthreads : s.mem.clockTick.threads = s.mem.threads := rfl
    exact hi.interrupt hsched hthreads h hguard

/-! ## Whole runs -/

/-- No thread is in one of the functions yet, no event points to one, and the current thread
runs. -/
structure NobodyWaits (s : System) : Prop where
  starts : Starts s
  pointers : ∀ evt, (s.events evt).thread = none
  running : ∀ c, s.mem.gScheduler.currentThread = some c → (s.mem.threads c).state = .running

theorem NobodyWaits.inv (h : NobodyWaits s) : WakeInv s := by
  have hnone (t evt) : ¬Waits t evt s.log := by
    rw [h.starts.log]
    exact id
  constructor
  · exact h.starts.tasks
  · exact fun t evt hw => absurd hw (hnone t evt)
  · exact fun t evt hw => absurd hw (hnone t evt)
  · exact fun c hc => .inl (h.running c hc)
  · intro evt t ht
    rw [h.pointers] at ht
    cases ht

theorem afterSignal_state (s : System) (evt u : ℕ) : ((s.afterSignal evt).threads u).state =
    if (s.events evt).thread = some u then .running else (s.mem.threads u).state := by
  unfold System.afterSignal
  cases hthread : (s.events evt).thread with
  | none => simp
  | some w =>
    have hstate := state_setState s w .running u
    refine hstate.trans ?_
    simp only [Option.some.injEq, eq_comm]

/-- A signal is for the waiters of its event where the invariant holds. -/
theorem WakeInv.wakesWaiters (hi : WakeInv s) (evt : ℕ) : s.WakesWaiters evt := by
  intro t n s' hc hpc hrun hend
  have hself := hi.not_waits (t := t) (by simp [hpc]) evt
  rw [signal_mem hc hrun hend]
  constructor
  · intro u hw
    rw [TaskMem.runnable, afterSignal_state]
    split
    · rfl
    · rcases hi.awake u evt hw with h | ⟨hcur, -⟩
      · exact h
      · rw [hc] at hcur
        cases hcur
        exact absurd hw hself
  · intro u hw
    rw [afterSignal_state]
    split
    · rename_i hthread
      exact ((hi.points evt u hthread).resolve_left hw).symm
    · rfl

/-- A call that finds the critical section free comes to its end. -/
theorem exists_signal_run (hc : s.mem.gScheduler.currentThread = some t) (hpc : s.pc t = .idle)
    (hfree : (s.events evt).value = false) {w : ℕ} (hw : (s.events evt).thread = some w) :
    ∃ s', Run EventStep s (.signal evt :: List.replicate 5 .exec) s' ∧ s'.pc t = .idle := by
  have hstep₀ : EventStep s (.signal evt) (s.goto t (.signalEnter evt false)) := .signal evt hc hpc
  have henter : (s.goto t (.signalEnter evt false)).exec t = some
      (((s.goto t (.signalEnter evt false)).setEvent evt fun e => { e with value := true }).goto t
        (.signalSet evt)) := by
    rw [System.exec, System.goto_pc_self]
    have hturn : acquireTurn ((s.goto t (.signalEnter evt false)).events evt).value false =
        (true, false) := by
      show acquireTurn (s.events evt).value false = _
      rw [hfree]
      rfl
    simp only [hturn]
    rfl
  generalize hs₁ : ((s.goto t (.signalEnter evt false)).setEvent evt fun e =>
    { e with value := true }).goto t (.signalSet evt) = s₁ at henter
  have hc₁ : s₁.mem.gScheduler.currentThread = some t := by rw [← hs₁]; exact hc
  have hpc₁ : s₁.pc t = .signalSet evt := by rw [← hs₁, System.goto_pc_self]
  have hw₁ : (s₁.events evt).thread = some w := by
    rw [← hs₁]
    exact (System.thread_setEvent (f := fun e => { e with value := true }) fun _ => rfl).trans hw
  have hset : s₁.exec t = some (((s₁.setEvent evt fun e => { e with signaled := true }).observe
      (.signaled evt)).goto t (.signalTest evt)) := by
    rw [System.exec, hpc₁]
  generalize hs₂ : ((s₁.setEvent evt fun e => { e with signaled := true }).observe
      (.signaled evt)).goto t (.signalTest evt) = s₂ at hset
  have hc₂ : s₂.mem.gScheduler.currentThread = some t := by rw [← hs₂]; exact hc₁
  have hpc₂ : s₂.pc t = .signalTest evt := by rw [← hs₂, System.goto_pc_self]
  have hw₂ : (s₂.events evt).thread = some w := by
    rw [← hs₂]
    exact (System.thread_setEvent (f := fun e => { e with signaled := true }) fun _ => rfl).trans
      hw₁
  have htest : s₂.exec t = some (s₂.goto t (.signalState evt)) := by
    rw [System.exec, hpc₂]
    dsimp only
    rw [hw₂, if_neg (Option.some_ne_none w)]
  have hstate : (s₂.goto t (.signalState evt)).exec t =
      some (((s₂.goto t (.signalState evt)).setState w .running).goto t (.signalLeave evt)) := by
    rw [System.exec, System.goto_pc_self]
    dsimp only
    rw [show ((s₂.goto t (.signalState evt)).events evt).thread = some w from hw₂]
    rfl
  have hleave : (((s₂.goto t (.signalState evt)).setState w .running).goto t
      (.signalLeave evt)).exec t = some ((((s₂.goto t (.signalState evt)).setState w
        .running).goto t (.signalLeave evt)).setEvent evt (fun e => { e with value := false }) |>.goto
          t .idle) := by
    rw [System.exec, System.goto_pc_self]
  refine ⟨_, .cons hstep₀ (.cons (.exec hc henter) (.cons (.exec hc₁ hset)
    (.cons (.exec hc₂ htest) (.cons (.exec hc₂ hstate) (.single (.exec hc₂ hleave)))))), ?_⟩
  exact System.goto_pc_self _ _ _

/-- The condition leaves out no harmless state: a thread that the event points to, and that
neither waits for it nor runs, is made to run. -/
theorem not_wakesWaiters (hc : s.mem.gScheduler.currentThread = some t) (hpc : s.pc t = .idle)
    (hfree : (s.events evt).value = false) {w : ℕ} (hw : (s.events evt).thread = some w)
    (hwaits : ¬Waits w evt s.log) (hstate : (s.mem.threads w).state ≠ .running) :
    ¬s.WakesWaiters evt := by
  intro h
  obtain ⟨s', hrun, hend⟩ := exists_signal_run hc hpc hfree hw
  have hsame := (h t 5 s' hc hpc hrun hend).2 w hwaits
  rw [signal_mem hc hrun hend, afterSignal_state, if_pos hw] at hsame
  exact hstate hsame.symm

/-- In every state that a run reaches whose steps all meet the condition, a signal wakes the
waiters of its event and nobody else. -/
theorem signal_wakes_waiters (hs : NobodyWaits s)
    (h : Run (Guarded WakeGuard EventStep) s ops s') (evt : ℕ) : s'.WakesWaiters evt :=
  (h.guarded_invariant (fun _ _ _ hi hg hstep => hi.step hg hstep) hs.inv).wakesWaiters evt

end Step

/-! ## Two threads, three events -/

theorem twoThreads_nobodyWaits : NobodyWaits twoThreads := by
  refine ⟨twoThreads_starts, fun _ => rfl, ?_⟩
  rintro c ⟨⟩
  rfl

/-- Thread 0 waits for event 0, is woken and goes on, and then waits for event 1. -/
theorem twoThreads_not_wakesWaiters : NobodyWaits twoThreads ∧
    ∃ s, Run EventStep twoThreads [.wait 0, .exec, .exec, .exec, .exec, .exec, .waitInt,
        .signal 0, .exec, .exec, .exec, .exec, .exec,
        .wait 2, .exec, .exec, .exec, .exec, .exec, .waitInt, .exec, .exec,
        .wait 1, .exec, .exec, .exec, .exec, .exec, .waitInt, .exec, .exec] s ∧
      Waits 0 1 s.log ∧ ¬s.WakesWaiters 0 := by
  refine ⟨twoThreads_nobodyWaits, _, .cons (.wait 0 rfl rfl) <| .cons (.exec rfl rfl) <|
    .cons (.exec rfl rfl) <| .cons (.exec rfl rfl) <| .cons (.exec rfl rfl) <|
    .cons (.exec rfl rfl) <|
    .cons (.waitInt rfl rfl (show TaskMem.schedules 1 _ TaskMem.zeroContext = _ from rfl)) <|
    .cons (.signal 0 rfl rfl) <| .cons (.exec rfl rfl) <| .cons (.exec rfl rfl) <|
    .cons (.exec rfl rfl) <| .cons (.exec rfl rfl) <| .cons (.exec rfl rfl) <|
    .cons (.wait 2 rfl rfl) <| .cons (.exec rfl rfl) <| .cons (.exec rfl rfl) <|
    .cons (.exec rfl rfl) <| .cons (.exec rfl rfl) <| .cons (.exec rfl rfl) <|
    .cons (.waitInt rfl rfl (show TaskMem.schedules 1 _ TaskMem.zeroContext = _ from rfl)) <|
    .cons (.exec rfl rfl) <| .cons (.exec rfl rfl) <|
    .cons (.wait 1 rfl rfl) <| .cons (.exec rfl rfl) <| .cons (.exec rfl rfl) <|
    .cons (.exec rfl rfl) <| .cons (.exec rfl rfl) <| .cons (.exec rfl rfl) <|
    .cons (.waitInt rfl rfl (show TaskMem.schedules 1 _ TaskMem.zeroContext = _ from rfl)) <|
    .cons (.exec rfl rfl) <| .single (.exec rfl rfl), ?_, ?_⟩
  · exact .inr ⟨by decide, .inr ⟨by decide, .inl rfl⟩⟩
  · refine not_wakesWaiters (t := 1) (w := 0) rfl rfl rfl rfl ?_ ?_
    · rintro (h | ⟨-, h | ⟨-, h | ⟨-, h | ⟨hne, -⟩⟩⟩⟩)
      · cases h
      · cases h
      · cases h
      · cases h
      · exact hne rfl
    · show ThreadState.paused ≠ .running
      decide

/-- A statement that is neither the store of `WAITING` nor the one after the wait. -/
theorem wakeGuard_exec {s : System} {t : ℕ} (hc : s.mem.gScheduler.currentThread = some t)
    (hpc : ∀ evt, s.pc t ≠ .waitState evt ∧ s.pc t ≠ .waitClear evt) : WakeGuard s .exec := by
  intro u evt hcur
  cases hc.symm.trans hcur
  exact ⟨fun h => absurd h (hpc evt).1, fun h => absurd h (hpc evt).2⟩

/-- Thread 0 waits for event 0; a signal of thread 1 is for it. -/
theorem twoThreads_wakesWaiters : ∃ s, Run (Guarded WakeGuard EventStep) twoThreads
    [.wait 0, .exec, .exec, .exec, .exec, .exec, .waitInt] s ∧ Waits 0 0 s.log ∧
    s.WakesWaiters 0 := by
  have hrun : ∃ s, Run (Guarded WakeGuard EventStep) twoThreads
      [.wait 0, .exec, .exec, .exec, .exec, .exec, .waitInt] s ∧ Waits 0 0 s.log := by
    refine ⟨_, .cons ⟨trivial, .wait 0 rfl rfl⟩ <|
      .cons ⟨wakeGuard_exec rfl fun evt => ⟨by rintro ⟨⟩, by rintro ⟨⟩⟩, .exec rfl rfl⟩ <|
      .cons ⟨wakeGuard_exec rfl fun evt => ⟨by rintro ⟨⟩, by rintro ⟨⟩⟩, .exec rfl rfl⟩ <|
      .cons ⟨wakeGuard_exec rfl fun evt => ⟨by rintro ⟨⟩, by rintro ⟨⟩⟩, .exec rfl rfl⟩ <|
      .cons ⟨?_, .exec rfl rfl⟩ <|
      .cons ⟨wakeGuard_exec rfl fun evt => ⟨by rintro ⟨⟩, by rintro ⟨⟩⟩, .exec rfl rfl⟩ <|
      .single ⟨?_, .waitInt rfl rfl
        (show TaskMem.schedules 1 _ TaskMem.zeroContext = _ from rfl)⟩, ?_⟩
    · rintro t evt ⟨⟩
      refine ⟨?_, by rintro ⟨⟩⟩
      rintro ⟨⟩ other
      by_cases hother : other = 0
      · rw [hother]
        exact iff_of_true rfl rfl
      · apply iff_of_false _ hother
        simp [System.goto, System.setEvent, twoThreads, hother]
    · rintro c t ⟨⟩ _ evt hevt
      by_cases hother : evt = 0
      · rw [hother]
        exact .inl rfl
      · simp [System.goto, System.setEvent, System.setState, System.observe, twoThreads,
          hother] at hevt
    · exact .inr ⟨by decide, .inl rfl⟩
  obtain ⟨s, hrun, hwaits⟩ := hrun
  exact ⟨s, hrun, hwaits, signal_wakes_waiters twoThreads_nobodyWaits hrun 0⟩

end LtMicros
