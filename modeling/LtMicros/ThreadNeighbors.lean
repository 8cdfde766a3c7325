import LtMicros.Lib.Chain
import LtMicros.Lib.Traced
import Mathlib.Data.List.Induction

/-!
# The threads of a process

`Process::AddThread` and the links from one thread to its neighbor. The first thread becomes the
main one. A later thread has the main thread put behind itself, and not the other way round, so
that nothing leads from the main thread to it.
-/

namespace LtMicros

open Lib

/-- `mainThread` of a process, and `neighbor` of the threads. Threads are pointers. -/
structure ProcessThreads where
  mainThread : Option ℕ
  neighbor : ℕ → Option ℕ

namespace ProcessThreads

/-- `Thread::AddNeighbor`. -/
def addNeighbor (neighbor : ℕ → Option ℕ) (this : ℕ) (thread : Option ℕ) : ℕ → Option ℕ :=
  match thread with
  | none => neighbor
  | some thread =>
    let moved :=
      if neighbor this ≠ none then Function.update neighbor thread (neighbor this) else neighbor
    Function.update moved this (some thread)

/-- `Process::AddThread`. -/
def addThread (s : ProcessThreads) (thread : Option ℕ) : ProcessThreads :=
  match thread with
  | none => s
  | some this =>
    if s.mainThread = none then { s with mainThread := thread }
    else { s with neighbor := addNeighbor s.neighbor this s.mainThread }

/-- The calls for some threads. -/
def addThreads (s : ProcessThreads) (threads : List ℕ) : ProcessThreads :=
  threads.foldl (fun s thread => s.addThread (some thread)) s

/-- One turn of the loop of `Thread::PrintList`. -/
def printTurn (neighbor : ℕ → Option ℕ) : Option ℕ → Traced ℕ (Option ℕ ⊕ Unit)
  | none => return .inr ()
  | some current => do
    Traced.note current
    return .inl (neighbor current)

/-- `Thread::PrintList`, which prints one thread after the other. -/
def printList (fuel : ℕ) (neighbor : ℕ → Option ℕ) (this : Option ℕ) : Traced ℕ Unit :=
  Traced.loop (printTurn neighbor) fuel this

variable {s : ProcessThreads} {threads : List ℕ} {p : Option ℕ} {fuel : ℕ}

/-- What is printed are the threads of the chain. -/
theorem printList_eq {neighbor : ℕ → Option ℕ} (h : Chain neighbor p threads)
    (hfuel : threads.length < fuel) : printList fuel neighbor p = ⟨threads, .ret ()⟩ := by
  induction threads generalizing p fuel with
  | nil =>
    obtain ⟨fuel, rfl⟩ : ∃ k, fuel = k + 1 := ⟨fuel - 1, by omega⟩
    obtain rfl : p = none := h
    exact Traced.loop_leave rfl fuel
  | cons this threads ih =>
    obtain ⟨fuel, rfl⟩ : ∃ k, fuel = k + 1 := ⟨fuel - 1, by omega⟩
    obtain ⟨rfl, hrest⟩ := h
    have hturn : printTurn neighbor (some this) = ⟨[this], .ret (.inl (neighbor this))⟩ := rfl
    exact Traced.loop_eq hturn (ih hrest (Nat.lt_of_succ_lt_succ hfuel))

/-- From the main thread every thread is visited once, and then the null pointer comes. -/
def AllReachable (s : ProcessThreads) (threads : List ℕ) : Prop :=
  ∃ chain, Chain s.neighbor s.mainThread chain ∧ chain.Perm threads

/-- Then `PrintList` prints every thread once. -/
theorem AllReachable.prints (h : AllReachable s threads) (hfuel : threads.length < fuel) :
    ∃ t, printList fuel s.neighbor s.mainThread = ⟨t, .ret ()⟩ ∧ t.Perm threads := by
  obtain ⟨chain, hchain, hperm⟩ := h
  rw [← hperm.length_eq] at hfuel
  exact ⟨chain, printList_eq hchain hfuel, hperm⟩

/-- Behind the calls: the first thread is the main one and has no neighbor, and it is the neighbor
of the others. -/
structure Added (s : ProcessThreads) (main : ℕ) (others : List ℕ) : Prop where
  mainThread : s.mainThread = some main
  neighbor_main : s.neighbor main = none
  neighbor_other : ∀ thread ∈ others, s.neighbor thread = some main

/-- Only the link of a new thread is set. -/
theorem addThread_eq {main thread : ℕ} (hmain : s.mainThread = some main)
    (hnew : s.neighbor thread = none) : s.addThread (some thread) =
      ⟨some main, Function.update s.neighbor thread (some main)⟩ := by
  have hne : s.mainThread ≠ none := hmain ▸ Option.some_ne_none main
  rw [addThread, if_neg hne, hmain, addNeighbor, if_neg (not_not_intro hnew)]

theorem addThreads_concat (s : ProcessThreads) (threads : List ℕ) (thread : ℕ) :
    s.addThreads (threads ++ [thread]) = (s.addThreads threads).addThread (some thread) :=
  List.foldl_append

/-- The links of the threads behind the calls; other threads keep theirs. -/
theorem added_addThreads {main : ℕ} {others : List ℕ} (hprocess : s.mainThread = none)
    (hnew : ∀ thread ∈ main :: others, s.neighbor thread = none) (hnodup : (main :: others).Nodup) :
    Added (s.addThreads (main :: others)) main others ∧
      ∀ thread ∉ main :: others, (s.addThreads (main :: others)).neighbor thread =
        s.neighbor thread := by
  induction others using List.reverseRecOn with
  | nil =>
    have hadd : s.addThreads [main] = ⟨some main, s.neighbor⟩ := if_pos hprocess
    rw [hadd]
    exact ⟨⟨rfl, hnew main List.mem_cons_self, nofun⟩, fun _ _ => rfl⟩
  | append_singleton others thread ih =>
    rw [← List.cons_append] at hnew hnodup ⊢
    have hthread : thread ∉ main :: others := fun hmem =>
      List.disjoint_of_nodup_append hnodup hmem (List.mem_singleton_self thread)
    obtain ⟨hadded, hkept⟩ := ih (fun t ht => hnew t (List.mem_append_left _ ht))
      (List.Nodup.of_append_left hnodup)
    -- no call before has linked the new thread, so that its own link is set
    have hnone : (s.addThreads (main :: others)).neighbor thread = none := by
      rw [hkept thread hthread]
      exact hnew thread (by simp)
    rw [addThreads_concat, addThread_eq hadded.mainThread hnone]
    have hne {t : ℕ} (ht : t ∈ main :: others) : t ≠ thread := ne_of_mem_of_not_mem ht hthread
    refine ⟨⟨rfl, ?_, fun t ht => ?_⟩, fun t ht => ?_⟩
    · dsimp only
      rw [Function.update_of_ne (hne List.mem_cons_self)]
      exact hadded.neighbor_main
    · dsimp only
      rcases List.mem_append.mp ht with ht | ht
      · rw [Function.update_of_ne (hne (List.mem_cons_of_mem _ ht))]
        exact hadded.neighbor_other t ht
      · rw [List.mem_singleton.mp ht, Function.update_self]
    · dsimp only
      rw [List.mem_append, not_or] at ht
      have hother : t ≠ thread := fun heq => ht.2 (List.mem_singleton.mpr heq)
      rw [Function.update_of_ne hother]
      exact hkept t ht.1

/-- From the main thread only itself is reached. -/
theorem Added.chain {main : ℕ} {others : List ℕ} (h : Added s main others) :
    Chain s.neighbor s.mainThread [main] :=
  ⟨h.mainThread, h.neighbor_main⟩

/-- All the threads of a process are reachable if and only if there is at most one of them. -/
theorem allReachable_iff (hprocess : s.mainThread = none)
    (hnew : ∀ thread ∈ threads, s.neighbor thread = none) (hnodup : threads.Nodup) :
    AllReachable (s.addThreads threads) threads ↔ threads.length ≤ 1 := by
  cases threads with
  | nil => exact iff_of_true ⟨[], hprocess, .nil⟩ (Nat.zero_le 1)
  | cons main others =>
    have hchain := (added_addThreads hprocess hnew hnodup).1.chain
    constructor
    · rintro ⟨chain, hchain', hperm⟩
      rw [← hperm.length_eq, hchain'.unique hchain]
      exact Nat.le_refl 1
    · intro hle
      have hzero : others.length = 0 := Nat.le_zero.mp (Nat.le_of_succ_le_succ hle)
      obtain rfl := List.eq_nil_of_length_eq_zero hzero
      exact ⟨[main], hchain, .refl _⟩

/-- A process without threads. -/
def created : ProcessThreads := ⟨none, fun _ => none⟩

/-- The second of two threads is not reached, nor printed. -/
theorem two_not_allReachable : ¬AllReachable (created.addThreads [1, 2]) [1, 2] ∧
    (printList 3 (created.addThreads [1, 2]).neighbor
      (created.addThreads [1, 2]).mainThread).trace = [1] := by
  refine ⟨?_, rfl⟩
  rintro ⟨chain, hchain, hperm⟩
  have hmain :
      Chain (created.addThreads [1, 2]).neighbor (created.addThreads [1, 2]).mainThread [1] :=
    ⟨rfl, rfl⟩
  have hlength := hperm.length_eq
  rw [hchain.unique hmain] at hlength
  exact absurd hlength (by decide)

/-- One thread is reached, and three are not, next to threads of other processes. -/
theorem three_not_allReachable :
    AllReachable (addThreads ⟨none, fun t => if t = 9 then some 8 else none⟩ [4]) [4] ∧
      ¬AllReachable (addThreads ⟨none, fun t => if t = 9 then some 8 else none⟩ [3, 1, 2])
        [3, 1, 2] :=
  ⟨(allReachable_iff rfl (by decide) (by decide)).mpr (by decide),
    mt (allReachable_iff rfl (by decide) (by decide)).mp (by decide)⟩

end ProcessThreads

end LtMicros
