import LtMicros.SchedulerDecision

/-!
# Events

Kernel code runs with interrupts enabled, so the current thread can lose the
processor between any two statements of `EventWait` and `EventSignal`. A thread
stands at one of their statements, and a step of the system is one statement of
the current thread or an interrupt.
-/

namespace LtMicros

open Lib

/-- `Event`; `value` is the word of its critical section. -/
structure Event where
  signaled : Bool
  thread : Option ℕ
  value : Bool
deriving DecidableEq, Repr

/-- One turn of the loop of `_acquire_lock`: the word of the critical section and
`eax`. The loop goes on while `eax` is one, and a turn that finds the section
free after one that did not leaves the loop without having taken it. -/
def acquireTurn (value eax : Bool) : Bool × Bool :=
  if value = eax then (true, eax) else (value, value)

/-- The statement that a thread executes next, outside of both functions `idle`.
`Enter` has the value of `eax`. -/
inductive Pc where
  | idle
  | waitEnter (evt : ℕ) (eax : Bool)
  | waitTest (evt : ℕ)
  | waitThread (evt : ℕ)
  | waitState (evt : ℕ)
  | waitLeave (evt : ℕ)
  | waitInt (evt : ℕ)
  | waitClear (evt : ℕ)
  | waitEnd (evt : ℕ)
  | signalEnter (evt : ℕ) (eax : Bool)
  | signalSet (evt : ℕ)
  | signalTest (evt : ℕ)
  | signalState (evt : ℕ)
  | signalLeave (evt : ℕ)
deriving DecidableEq, Repr

/-- What a run is observed by: a thread has been set waiting for an event, an
event has been signaled, a thread has gone on after its wait, `Schedules` has
switched to a thread. -/
inductive Entry where
  | blocked (thread evt : ℕ)
  | signaled (evt : ℕ)
  | passed (thread evt : ℕ)
  | switchedTo (thread : ℕ)
deriving DecidableEq, Repr

/-- The threads with their scheduler, the events, where each thread stands, and
what has happened, the latest first. -/
structure System where
  mem : TaskMem
  events : ℕ → Event
  pc : ℕ → Pc
  log : List Entry

/-- The part of `clock_isr` before `Schedules`. -/
def TaskMem.clockTick (m : TaskMem) : TaskMem :=
  { m with tics := if 1000 ≤ m.tics + 1 then 0 else m.tics + 1 }

namespace System

def goto (s : System) (thread : ℕ) (pc : Pc) : System :=
  { s with pc := Function.update s.pc thread pc }

@[simp] theorem goto_pc_self (s : System) (thread : ℕ) (pc : Pc) :
    (s.goto thread pc).pc thread = pc :=
  Function.update_self _ _ _

theorem goto_pc_of_ne (s : System) {thread other : ℕ} (h : other ≠ thread) (pc : Pc) :
    (s.goto thread pc).pc other = s.pc other :=
  Function.update_of_ne h _ _

def setEvent (s : System) (evt : ℕ) (f : Event → Event) : System :=
  { s with events := Function.update s.events evt (f (s.events evt)) }

def setState (s : System) (thread : ℕ) (state : ThreadState) : System :=
  { s with mem := s.mem.store thread fun t => { t with state } }

def observe (s : System) (entry : Entry) : System := { s with log := entry :: s.log }

/-- The statement of `EventWait` or `EventSignal` at which the thread stands;
none for a null pointer, and for what is not a statement of its own. -/
def exec (s : System) (thread : ℕ) : Option System :=
  match s.pc thread with
  | .idle => none
  -- evt->criticalSection.Enter();
  | .waitEnter evt eax =>
    let (value, eax) := acquireTurn (s.events evt).value eax
    some ((s.setEvent evt fun e => { e with value }).goto thread
      (if eax then .waitEnter evt true else .waitTest evt))
  -- if (evt->signaled == false)
  | .waitTest evt =>
    some (s.goto thread (if (s.events evt).signaled then .waitClear evt else .waitThread evt))
  -- evt->thread = gThreadManager.GetCurrentThread();
  | .waitThread evt =>
    some ((s.setEvent evt fun e => { e with thread := s.mem.gScheduler.currentThread }).goto thread
      (.waitState evt))
  -- evt->thread->state = THREAD_STATE_WAITING;
  | .waitState evt =>
    (s.events evt).thread.map fun other =>
      ((s.setState other .waiting).observe (.blocked thread evt)).goto thread (.waitLeave evt)
  -- evt->criticalSection.Leave();
  | .waitLeave evt => some ((s.setEvent evt fun e => { e with value := false }).goto thread
      (.waitInt evt))
  -- gScheduler.ContextSwitchInterrupt();
  | .waitInt _ => none
  -- evt->signaled = false;
  | .waitClear evt => some (((s.setEvent evt fun e => { e with signaled := false }).observe
      (.passed thread evt)).goto thread (.waitEnd evt))
  -- evt->criticalSection.Leave();
  | .waitEnd evt => some ((s.setEvent evt fun e => { e with value := false }).goto thread .idle)
  -- evt->criticalSection.Enter();
  | .signalEnter evt eax =>
    let (value, eax) := acquireTurn (s.events evt).value eax
    some ((s.setEvent evt fun e => { e with value }).goto thread
      (if eax then .signalEnter evt true else .signalSet evt))
  -- evt->signaled = true;
  | .signalSet evt => some (((s.setEvent evt fun e => { e with signaled := true }).observe
      (.signaled evt)).goto thread (.signalTest evt))
  -- if (evt->thread != nullptr)
  | .signalTest evt =>
    some (s.goto thread
      (if (s.events evt).thread = none then .signalLeave evt else .signalState evt))
  -- evt->thread->state = THREAD_STATE_RUNNING;
  | .signalState evt =>
    (s.events evt).thread.map fun other => (s.setState other .running).goto thread
      (.signalLeave evt)
  -- evt->criticalSection.Leave();
  | .signalLeave evt => some ((s.setEvent evt fun e => { e with value := false }).goto thread .idle)

/-- After an interrupt in which `Schedules` has left the memory `m`. -/
def interrupted (s : System) (args : Option StartArgs) (m : TaskMem) : System :=
  match args, m.gScheduler.currentThread with
  | some _, some thread => { s with mem := m }.observe (.switchedTo thread)
  | _, _ => { s with mem := m }

end System

/-- The steps of the system. -/
inductive Op where
  | wait (evt : ℕ)
  | signal (evt : ℕ)
  | exec
  | waitInt
  | contextSwitch
  | clock
deriving DecidableEq, Repr

/-- A step: the current thread calls one of the functions, executes its next
statement, comes to the interrupt of `EventWait` or raises one itself, or the
clock interrupts it. An interrupt in which `Schedules` does not come to an end is
followed by no state. -/
inductive EventStep : System → Op → System → Prop
  | wait {s : System} {t : ℕ} (evt : ℕ) (hc : s.mem.gScheduler.currentThread = some t)
      (hpc : s.pc t = .idle) : EventStep s (.wait evt) (s.goto t (.waitEnter evt false))
  | signal {s : System} {t : ℕ} (evt : ℕ) (hc : s.mem.gScheduler.currentThread = some t)
      (hpc : s.pc t = .idle) : EventStep s (.signal evt) (s.goto t (.signalEnter evt false))
  | exec {s s' : System} {t : ℕ} (hc : s.mem.gScheduler.currentThread = some t)
      (h : s.exec t = some s') : EventStep s .exec s'
  | waitInt {s : System} {t evt fuel : ℕ} {context args m}
      (hc : s.mem.gScheduler.currentThread = some t) (hpc : s.pc t = .waitInt evt)
      (h : s.mem.schedules fuel context = .ret (args, m)) :
      EventStep s .waitInt ((s.goto t (.waitClear evt)).interrupted args m)
  | contextSwitch {s : System} {t fuel : ℕ} {context args m}
      (hc : s.mem.gScheduler.currentThread = some t) (hpc : s.pc t = .idle)
      (h : s.mem.schedules fuel context = .ret (args, m)) :
      EventStep s .contextSwitch (s.interrupted args m)
  | clock {s : System} {fuel : ℕ} {context args m}
      (h : s.mem.clockTick.schedules fuel context = .ret (args, m)) :
      EventStep s .clock (s.interrupted args m)

/-! ## Waits and their answers -/

/-- The thread has been set waiting for the event, which has not been signaled
since. -/
def Unanswered (thread evt : ℕ) : List Entry → Prop
  | [] => False
  | entry :: log =>
    entry = .blocked thread evt ∨ entry ≠ .signaled evt ∧ Unanswered thread evt log

/-- No thread is switched to, and none goes on after its wait, before it is
answered. -/
def StaysBlocked : List Entry → Prop
  | [] => True
  | entry :: log =>
    (∀ thread evt, entry = .switchedTo thread ∨ entry = .passed thread evt →
      ¬ Unanswered thread evt log) ∧ StaysBlocked log

end LtMicros
