import LtMicros.Thread
import Mathlib.Data.List.Nodup

/-!
# The scheduler

`Schedules` runs in the clock and context-switch interrupts. It comes back to
the interrupted thread, or ends in `_startOrResumeThread` for another one. A
pointer to a thread is its number.
-/

namespace LtMicros

open Lib

/-- `RunnableThread(state)`. -/
def runnableThread (state : ThreadState) : Bool :=
  state = .running ∨ state = .init ∨ state = .paused

/-- `DEFAULT_THREAD_LIMIT_WORKING_TIME`. -/
def defaultThreadLimitWorkingTime : U32 := 100

/-- `gScheduler`. -/
structure Scheduler where
  running : Bool
  threadsList : List ℕ
  currentThread : Option ℕ
  nbThreads : U32

/-- The threads, and the objects that `Schedules` works with. -/
structure TaskMem where
  threads : ℕ → Thread
  gScheduler : Scheduler
  gTss : KernelStack
  tics : U32

/-- The element after `currentThread`, and `top` after the last one. -/
def nextInList (top : Option ℕ) : List ℕ → ℕ → Option ℕ
  | [], _ => none
  | thread :: elems, currentThread =>
    if thread = currentThread then elems.head?.or top else nextInList top elems currentThread

namespace Scheduler

/-- `Scheduler::AddThread`. -/
def addThread (this : Scheduler) (thread : ℕ) : Scheduler :=
  { this with
    currentThread := this.currentThread.or (some thread)
    threadsList := this.threadsList ++ [thread]
    nbThreads := this.nbThreads + 1 }

/-- `Scheduler::_PickNextThread`. -/
def pickNextThread (this : Scheduler) : Option ℕ → Option ℕ
  | none => this.threadsList.head?
  | some currentThread => nextInList this.threadsList.head? this.threadsList currentThread

end Scheduler

namespace TaskMem

/-- Stores to the fields of one thread. -/
def store (m : TaskMem) (thread : ℕ) (f : Thread → Thread) : TaskMem :=
  { m with threads := Function.update m.threads thread (f (m.threads thread)) }

/-- Whether a thread of the list is runnable. -/
def runnable (m : TaskMem) (thread : ℕ) : Bool := runnableThread (m.threads thread).state

/-- The priority of a thread. -/
def priority (m : TaskMem) (thread : ℕ) : ℕ := (m.threads thread).threadPriority.toNat

/-- `Scheduler::HasHigherThreadPriority`. -/
def hasHigherThreadPriority (m : TaskMem) : Option ℕ → Bool
  | none => false
  | some thread => m.gScheduler.threadsList.any fun other =>
      m.priority thread < m.priority other ∧ m.runnable other

/-- The condition under which `Schedules` looks for another thread. -/
def mustSwitch (m : TaskMem) : Bool :=
  match m.gScheduler.currentThread with
  | none => true
  | some current =>
    defaultThreadLimitWorkingTime < m.tics - (m.threads current).ticsOnResume ∨
      m.hasHigherThreadPriority (some current) ∨ ¬ m.runnable current

/-- One turn of the search; the state is `foundThread`. The thread after
`_currentThread` is picked in every turn. -/
def searchTurn (m : TaskMem) (foundThread : Option ℕ) : Outcome (Option ℕ ⊕ Option ℕ) :=
  let nextThread := m.gScheduler.pickNextThread m.gScheduler.currentThread
  if nextThread = none ∧ nextThread = m.gScheduler.currentThread then .ret (.inr foundThread)
  else do
    let found ← .ofOption nextThread
    let current ← .ofOption m.gScheduler.currentThread
    if m.priority current ≤ m.priority found ∧ m.runnable found then return .inr (some found)
    else return .inl (some found)

/-- The stores of `_SwitchToThread`, and the call it ends in. -/
def switchThreads (m : TaskMem) (context : InterruptContext) (current thread : ℕ) :
    StartArgs × TaskMem :=
  let m := m.store current fun t => { t.saveState m.gTss context with state := .paused }
  let (resumed, gTss, args) := (m.threads thread).startOrResume m.tics
  let m := m.store thread fun _ => resumed
  (args, { m with gScheduler := { m.gScheduler with currentThread := some thread }, gTss })

/-- `Scheduler::_SwitchToThread`. -/
def switchToThread (m : TaskMem) (context : InterruptContext) (thread : Option ℕ) :
    Outcome (StartArgs × TaskMem) :=
  match thread with
  | none => .panic
  | some thread => do
    let current ← .ofOption m.gScheduler.currentThread
    return m.switchThreads context current thread

/-- `Scheduler::Schedules`: the call of `_startOrResumeThread`, or none when it
returns to the interrupted thread. -/
def schedules (fuel : ℕ) (m : TaskMem) (context : InterruptContext) :
    Outcome (Option StartArgs × TaskMem) :=
  if m.gScheduler.running ∧ 1 < m.gScheduler.nbThreads then
    if m.mustSwitch then do
      let foundThread ← Outcome.loop m.searchTurn fuel none
      if m.gScheduler.currentThread ≠ foundThread then do
        let (args, m) ← m.switchToThread context foundThread
        return (some args, m)
      else return (none, m)
    else .ret (none, m)
  else .ret (none, m)

/-- A switch changes the two threads and which one is the current. -/
theorem switchThreads_spec (m : TaskMem) (context : InterruptContext) {current thread : ℕ}
    (hne : thread ≠ current) :
    (m.switchThreads context current thread).2.gScheduler =
      { m.gScheduler with currentThread := some thread } ∧
    (m.switchThreads context current thread).2.tics = m.tics ∧
    ((m.switchThreads context current thread).2.threads thread).state = .running ∧
    ((m.switchThreads context current thread).2.threads current).state = .paused ∧
    ∀ u, u ≠ current → u ≠ thread →
      (m.switchThreads context current thread).2.threads u = m.threads u := by
  refine ⟨rfl, rfl, ?_, ?_, fun u hu hu' => ?_⟩
  · simp [switchThreads, store]
  · simp [switchThreads, store, Function.update_of_ne hne.symm]
  · simp [switchThreads, store, Function.update_of_ne hu, Function.update_of_ne hu']

end TaskMem

/-! ## The list -/

section Next

variable {l : List ℕ} {top : Option ℕ} {c t u : ℕ}

/-- `t` comes after `c` in the list, which goes on with its top. -/
def Follows (l : List ℕ) (c t : ℕ) : Prop :=
  ∃ i < l.length, l[i]? = some c ∧ l[(i + 1) % l.length]? = some t

theorem Follows.mem (h : Follows l c t) : t ∈ l := by
  obtain ⟨i, -, -, ht⟩ := h
  exact List.mem_of_getElem? ht

theorem nextInList_eq (hl : l.Nodup) {i : ℕ} (hi : l[i]? = some c) :
    nextInList top l c = l[i + 1]?.or top := by
  induction l generalizing i with
  | nil => simp at hi
  | cons a l ih =>
    obtain ⟨ha, hl⟩ := List.nodup_cons.mp hl
    cases i with
    | zero =>
      obtain rfl : a = c := by simpa using hi
      rw [nextInList, if_pos rfl, List.head?_eq_getElem?, List.getElem?_cons_succ]
    | succ i =>
      rw [List.getElem?_cons_succ] at hi ⊢
      have hne : a ≠ c := by
        rintro rfl
        exact ha (List.mem_of_getElem? hi)
      rw [nextInList, if_neg hne, ih hl hi]

/-- `_PickNextThread` finds the thread that follows. -/
theorem nextInList_follows (hl : l.Nodup) (h : Follows l c t) :
    nextInList l.head? l c = some t := by
  obtain ⟨i, hi, hc, ht⟩ := h
  rw [nextInList_eq hl hc]
  rcases Nat.eq_or_lt_of_le (show i + 1 ≤ l.length from hi) with hlast | hlt
  · have hnone : l[i + 1]? = none := List.getElem?_eq_none (Nat.le_of_eq hlast.symm)
    have hmod : (i + 1) % l.length = 0 := by rw [hlast, Nat.mod_self]
    rw [hmod] at ht
    rw [hnone, Option.none_or, List.head?_eq_getElem?, ht]
  · rw [Nat.mod_eq_of_lt hlt] at ht
    rw [ht, Option.some_or]

theorem exists_follows (hc : c ∈ l) : ∃ t, Follows l c t := by
  obtain ⟨i, hi, rfl⟩ := List.mem_iff_getElem.mp hc
  have hlt : (i + 1) % l.length < l.length := Nat.mod_lt _ (Nat.zero_lt_of_lt hi)
  exact ⟨l[(i + 1) % l.length], i, hi, List.getElem?_eq_getElem hi, List.getElem?_eq_getElem hlt⟩

theorem Follows.unique (hl : l.Nodup) (h : Follows l c t) (h' : Follows l c u) : t = u :=
  Option.some.inj ((nextInList_follows hl h).symm.trans (nextInList_follows hl h'))

/-- In a list of two or more threads it is another one. -/
theorem Follows.ne (hl : l.Nodup) (h2 : 2 ≤ l.length) (h : Follows l c t) : t ≠ c := by
  obtain ⟨i, hi, hc, ht⟩ := h
  rintro rfl
  have hlt : (i + 1) % l.length < l.length := Nat.mod_lt _ (Nat.zero_lt_of_lt hi)
  have heq : i = (i + 1) % l.length := by
    rw [List.getElem?_eq_getElem hi, ← ht, List.getElem?_eq_getElem hlt] at hc
    exact (hl.getElem_inj_iff).mp (Option.some.inj hc)
  rcases Nat.eq_or_lt_of_le (show i + 1 ≤ l.length from hi) with hlast | hlast
  · rw [hlast, Nat.mod_self] at heq
    omega
  · rw [Nat.mod_eq_of_lt hlast] at heq
    omega

end Next

end LtMicros
