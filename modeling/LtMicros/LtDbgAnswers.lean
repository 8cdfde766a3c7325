import LtMicros.LtDbgMemory
import LtMicros.Lib.Run

/-!
# Answers of the debugger

The response is sent as the command has left it. `DisassCommand` does not fill in all of its fields
when there is nothing to disassemble, `CMD_BP` fills in none, and a packet without bytes is taken
for the request before it.
-/

namespace LtMicros

open Lib

/-! ## The heap -/

namespace DbgHeap

variable {env : DbgEnv} {h : DbgHeap} {n p q : ℕ} {b : ℕ × ℕ}

/-- `HeapAlloc` does not answer the null pointer for this size. -/
def Servable (n : ℕ) : Prop := n ≠ 0 ∧ n < 2 ^ 31

/-- What `HeapAlloc` answers, when it returns. -/
structure Grants (h : DbgHeap) (n : ℕ) (r : Option ℕ × DbgHeap) : Prop where
  live : ∀ p, r.1 = some p → (p, n) ∈ r.2.live
  null : r.1 = none → ¬Servable n
  keeps : ∀ b ∈ h.live, b ∈ r.2.live
  fresh : ∀ p, r.1 = some p → ∀ b ∈ h.live, b.2 ≠ 0 → p ≠ b.1
  room : ∀ p, r.1 = some p → h.Room p n

theorem heapAlloc_grants : (h.heapAlloc env n).Gives fun _ r => h.Grants n r := by
  constructor
  intro r hret
  rw [heapAlloc] at hret
  split at hret
  · rename_i hsize
    cases Outcome.ret.inj hret
    have hnull (p : ℕ) : none ≠ some p := (Option.some_ne_none p).symm
    exact ⟨fun p hp => absurd hp (hnull p), fun _ hn => hsize.elim hn.1 (Nat.not_le.mpr hn.2),
      fun _ hb => hb, fun p hp => absurd hp (hnull p), fun p hp => absurd hp (hnull p)⟩
  · rename_i hsize
    split at hret
    · rename_i hroom
      cases Outcome.ret.inj hret
      refine ⟨fun p hp => ?_, fun hnull => absurd hnull (Option.some_ne_none _),
        fun _ hb => List.mem_cons_of_mem _ hb, fun p hp b hb hpos => ?_, fun p hp => ?_⟩
      · cases hp
        exact List.mem_cons_self
      · cases hp
        have hapart := hroom.2.2 b hb
        have hn : n ≠ 0 := fun hzero => hsize (.inl hzero)
        omega
      · cases hp
        exact hroom
    · cases hret

/-- The other blocks stay in use. -/
theorem heapFree_keeps (hb : b ∈ h.live) (hne : b.1 ≠ p) :
    (h.heapFree p).Gives fun _ h' => b ∈ h'.live := by
  rw [heapFree]
  apply Traced.Gives.bind_eq rfl
  split
  · apply Traced.Gives.pure
    exact List.mem_filter.mpr ⟨hb, by simpa using hne⟩
  · exact Traced.Gives.pure hb

end DbgHeap

/-! ## Calls that send nothing -/

/-- No response is sent. -/
def DbgEvent.Quiet (e : DbgEvent) : Prop := ∀ r live, e ≠ .sent r live

open DbgEvent Traced

theorem quiet_before {α : Type} {x : Traced DbgEvent α}
    {P : List DbgEvent → KeDebugResponse → List (ℕ × ℕ) → Prop} (h : x.Only Quiet) :
    x.Before fun pre e => ∀ r live, e = .sent r live → P pre r live :=
  h.before fun _ _ hquiet r live he => absurd he (hquiet r live)

section Quiet

variable {env : DbgEnv} {h : DbgHeap} {m : Mmu} {mem : Bytes} {s : LtDbg} {fuel n p dst : ℕ}
  {src : U32} {list : List (ℕ × U32)} {response : KeDebugResponse}

theorem heapAlloc_quiet : (h.heapAlloc env n).Only Quiet :=
  DbgHeap.heapAlloc_only.mono fun _ he => he ▸ nofun

theorem heapFree_quiet : (h.heapFree p).Only Quiet := by
  have hfree (inUse : Bool) : Quiet (.free p inUse) := by
    intro r live he
    cases he
  rw [DbgHeap.heapFree]
  apply (only_note (hfree _)).bind
  intro _ _
  split
  · exact only_pure
  · exact only_pure

theorem copyInto_quiet : (m.copyInto mem src dst n).Only Quiet := by
  apply LtDbg.copyInto_only.mono
  rintro e ⟨i, -, rfl⟩
  exact nofun

theorem setCommand_quiet {command : CommandId} :
    (LtDbg.setCommand response command).Only Quiet :=
  (only_note nofun).bind fun _ _ => only_pure

theorem setStatus_quiet {status : KeDebugStatus} : (LtDbg.setStatus response status).Only Quiet :=
  (only_note nofun).bind fun _ _ => only_pure

theorem setDataSize_quiet : (LtDbg.setDataSize response n).Only Quiet :=
  (only_note nofun).bind fun _ _ => only_pure

theorem setData_quiet {data : Option ℕ} : (LtDbg.setData response data).Only Quiet :=
  (only_note nofun).bind fun _ _ => only_pure

theorem setResult_quiet {status : KeDebugStatus} {data : Option ℕ} :
    (LtDbg.setResult response status n data).Only Quiet := by
  apply LtDbg.setResult_only.mono
  rintro e ⟨field, rfl⟩
  exact nofun

theorem listPush_quiet {data : U32} : (LtDbg.listPush env h list data).Only Quiet := by
  unfold LtDbg.listPush
  split
  · exact only_pure
  · split
    · exact only_pure
    · apply heapAlloc_quiet.bind
      intro r _
      split
      · exact only_pure
      · exact only_pure

theorem listPop_quiet : (LtDbg.listPop h list).Only Quiet := by
  unfold LtDbg.listPop
  split
  · exact only_pure
  · split
    · exact only_pure
    · split
      · exact only_pure
      · exact heapFree_quiet.bind fun _ _ => only_pure

theorem listDestroy_quiet : (LtDbg.listDestroy h list).Only Quiet := by
  induction list generalizing h with
  | nil => exact only_pure
  | cons e rest ih => exact heapFree_quiet.bind fun _ _ => ih

end Quiet

namespace LtDbg

section Quiet

variable {env : DbgEnv} {s : LtDbg} {fuel : ℕ}

theorem answer_quiet {command : CommandId} {context : KeDebugContext} {status : KeDebugStatus}
    {running : Bool} : (s.answer command context status running).Only Quiet := by
  apply setCommand_quiet.bind
  intro _ _
  exact setResult_quiet.bind fun _ _ => only_pure

theorem disassCommand_quiet : (s.disassCommand env).Only Quiet := by
  apply setCommand_quiet.bind
  intro _ _
  dsimp only
  split
  · exact setStatus_quiet.bind fun _ _ => only_pure
  · split
    · exact setStatus_quiet.bind fun _ _ => only_pure
    · split
      · exact setStatus_quiet.bind fun _ _ => only_pure
      · apply setDataSize_quiet.bind
        intro _ _
        apply heapAlloc_quiet.bind
        intro r _
        split
        · apply setData_quiet.bind
          intro _ _
          apply setStatus_quiet.bind
          intro _ _
          apply only_lift.bind
          intro _ _
          apply only_lift.bind
          intro _ _
          apply only_lift.bind
          intro _ _
          exact setStatus_quiet.bind fun _ _ => only_pure
        · apply setData_quiet.bind
          intro _ _
          apply copyInto_quiet.bind
          intro _ _
          exact setStatus_quiet.bind fun _ _ => only_pure

theorem frameTurn_quiet {m : Mmu} (state : U32 × ℕ × List (ℕ × U32) × DbgHeap) :
    (frameTurn env m state).Only Quiet := by
  unfold frameTurn
  dsimp only
  split
  · exact only_pure
  · apply only_lift.bind
    intro _ _
    apply listPush_quiet.bind
    intro _ _
    exact only_lift.bind fun _ _ => only_pure

theorem popTurn_quiet {buffer : ℕ} (state : ℕ × List (ℕ × U32) × DbgHeap) :
    (popTurn buffer state).Only Quiet := by
  apply listPop_quiet.bind
  intro r _
  obtain ⟨addr, list, heap⟩ := r
  by_cases haddr : addr = 0
  · simp only [haddr, if_true]
    exact only_pure
  · simp only [haddr, if_false]
    exact only_pure

theorem stackTraceCommand_quiet : (s.stackTraceCommand env fuel).Only Quiet := by
  apply heapAlloc_quiet.bind
  intro _ _
  apply listPush_quiet.bind
  intro _ _
  apply (Only.loop frameTurn_quiet _ _).bind
  intro _ _
  apply heapAlloc_quiet.bind
  intro r _
  split
  · exact listDestroy_quiet.bind fun _ _ => only_pure
  · apply (Only.loop popTurn_quiet _ _).bind
    intro _ _
    apply setCommand_quiet.bind
    intro _ _
    apply setResult_quiet.bind
    intro _ _
    exact listDestroy_quiet.bind fun _ _ => only_pure

theorem memoryCommand_quiet : (s.memoryCommand env).Only Quiet := by
  apply setCommand_quiet.bind
  intro _ _
  dsimp only
  split
  · exact setResult_quiet.bind fun _ _ => only_pure
  · apply only_lift.bind
    intro first _
    split
    · exact setResult_quiet.bind fun _ _ => only_pure
    · apply only_lift.bind
      intro last _
      split
      · exact setResult_quiet.bind fun _ _ => only_pure
      · apply heapAlloc_quiet.bind
        intro r _
        split
        · exact setResult_quiet.bind fun _ _ => only_pure
        · apply copyInto_quiet.bind
          intro _ _
          exact setResult_quiet.bind fun _ _ => only_pure

theorem idtCommand_quiet : (s.idtCommand env).Only Quiet := by
  apply heapAlloc_quiet.bind
  intro r _
  split
  · exact setResult_quiet.bind fun _ _ => only_pure
  · apply copyInto_quiet.bind
    intro _ _
    apply setCommand_quiet.bind
    intro _ _
    exact setResult_quiet.bind fun _ _ => only_pure

/-- No command sends anything itself. -/
theorem handle_quiet : (s.handle env fuel).Only Quiet := by
  unfold handle
  repeat' split
  · exact answer_quiet
  · exact answer_quiet
  · exact answer_quiet
  · exact answer_quiet
  · exact disassCommand_quiet
  · exact stackTraceCommand_quiet
  · exact memoryCommand_quiet
  · exact only_pure
  · exact idtCommand_quiet
  · exact answer_quiet

theorem cleanup_quiet {block : Option ℕ} : (s.cleanup block).Only Quiet := by
  cases block with
  | none => exact only_pure
  | some p => exact heapFree_quiet.bind fun _ _ => only_pure

end Quiet

/-! ## What the commands fill in -/

section Filled

variable {env : DbgEnv} {s : LtDbg} {fuel : ℕ}

theorem setCommand_eq (response : KeDebugResponse) (command : CommandId) :
    setCommand response command =
      ⟨[.set .command], .ret { response with header := { response.header with command } }⟩ := rfl

theorem setStatus_eq (response : KeDebugResponse) (status : KeDebugStatus) :
    setStatus response status =
      ⟨[.set .status], .ret { response with header := { response.header with status } }⟩ := rfl

theorem setDataSize_eq (response : KeDebugResponse) (dataSize : ℕ) :
    setDataSize response dataSize =
      ⟨[.set .dataSize], .ret { response with header := { response.header with dataSize } }⟩ := rfl

theorem setData_eq (response : KeDebugResponse) (data : Option ℕ) :
    setData response data = ⟨[.set .data], .ret { response with data }⟩ := rfl

theorem setResult_eq (response : KeDebugResponse) (status : KeDebugStatus) (dataSize : ℕ)
    (data : Option ℕ) : setResult response status dataSize data =
      ⟨[.set .dataSize, .set .status, .set .data],
        .ret ⟨{ response.header with status, dataSize }, data⟩⟩ := rfl

/-- There are no data, or a block in use that is large enough for them. -/
def DataHeld (response : KeDebugResponse) (live : List (ℕ × ℕ)) : Prop :=
  response.header.dataSize = 0 ∨
    ∃ p n, response.data = some p ∧ (p, n) ∈ live ∧ response.header.dataSize ≤ n

/-- The response can be sent: all of it has been written, and the data are there, or the null
pointer keeps it from being sent. -/
structure Filled (command : CommandId) (t : List DbgEvent) (s : LtDbg) : Prop where
  fields : ∀ field, .set field ∈ t
  command : s.response.header.command = command
  data : s.response.data = none ∨ DataHeld s.response s.link.heap.live

/-- The debugger goes on without a response, or there is one. -/
def Answered (command : CommandId) (t : List DbgEvent) (s : LtDbg) : Prop :=
  s.running = true ∨ Filled command t s

theorem answer_gives {command : CommandId} {context : KeDebugContext} {status : KeDebugStatus}
    {running : Bool} : (s.answer command context status running).Gives (Answered command) := by
  unfold answer
  apply Gives.bind_eq (setCommand_eq _ _)
  apply Gives.bind_eq (setResult_eq _ _ _ _)
  apply Gives.pure
  exact .inr ⟨fun field => by cases field <;> simp, rfl, .inl rfl⟩

/-- There is something to disassemble. -/
def AsksForCode (s : LtDbg) : Prop :=
  s.request.paramSize ≠ 0 ∧ ∃ param, s.request.param = some param ∧ s.link.heap.mem.load32 param ≠ 0

theorem disassCommand_gives (hasks : s.AsksForCode) :
    (s.disassCommand env).Gives (Answered cmdDisass) := by
  obtain ⟨hsize, param, hparam, hcode⟩ := hasks
  unfold disassCommand
  apply Gives.bind_eq (setCommand_eq _ _)
  simp only [hparam, if_neg hsize, if_neg hcode]
  apply Gives.bind_eq (setDataSize_eq _ _)
  apply DbgHeap.heapAlloc_grants.bind
  rintro t ⟨data, heap⟩ hgrants
  cases data with
  | none =>
    apply Gives.bind_eq (setData_eq _ _)
    apply Gives.bind_eq (setStatus_eq _ _)
    apply Gives.bind_lift
    intro m₁ _
    apply Gives.bind_lift
    intro m₂ _
    apply Gives.bind_lift
    intro m₃ _
    apply Gives.bind_eq (setStatus_eq _ _)
    apply Gives.pure
    exact .inr ⟨fun field => by cases field <;> simp, rfl, .inl rfl⟩
  | some p =>
    apply Gives.bind_eq (setData_eq _ _)
    apply Gives.bind (P := fun _ _ => True) ⟨fun _ _ => trivial⟩
    intro t₁ mem _
    apply Gives.bind_eq (setStatus_eq _ _)
    apply Gives.pure
    refine .inr ⟨fun field => by cases field <;> simp, rfl, .inr (.inr ?_)⟩
    exact ⟨p, _, rfl, hgrants.live p rfl, Nat.le_refl _⟩

theorem memoryCommand_gives : (s.memoryCommand env).Gives (Answered cmdMemory) := by
  unfold memoryCommand
  apply Gives.bind_eq (setCommand_eq _ _)
  dsimp only
  split
  · apply Gives.bind_eq (setResult_eq _ _ _ _)
    apply Gives.pure
    exact .inr ⟨fun field => by cases field <;> simp, rfl, .inl rfl⟩
  · apply Gives.bind_lift
    intro first _
    split
    · apply Gives.bind_eq (setResult_eq _ _ _ _)
      apply Gives.pure
      exact .inr ⟨fun field => by cases field <;> simp, rfl, .inl rfl⟩
    · apply Gives.bind_lift
      intro last _
      split
      · apply Gives.bind_eq (setResult_eq _ _ _ _)
        apply Gives.pure
        exact .inr ⟨fun field => by cases field <;> simp, rfl, .inl rfl⟩
      · apply DbgHeap.heapAlloc_grants.bind
        rintro t ⟨data, heap⟩ hgrants
        cases data with
        | none =>
          apply Gives.bind_eq (setResult_eq _ _ _ _)
          apply Gives.pure
          exact .inr ⟨fun field => by cases field <;> simp, rfl, .inl rfl⟩
        | some p =>
          apply Gives.bind (P := fun _ _ => True) ⟨fun _ _ => trivial⟩
          intro t₁ mem _
          apply Gives.bind_eq (setResult_eq _ _ _ _)
          apply Gives.pure
          refine .inr ⟨fun field => by cases field <;> simp, rfl, .inr (.inr ?_)⟩
          exact ⟨p, _, rfl, hgrants.live p rfl, Nat.le_refl _⟩

theorem idtCommand_gives : (s.idtCommand env).Gives (Answered cmdIdt) := by
  unfold idtCommand
  apply DbgHeap.heapAlloc_grants.bind
  rintro t ⟨data, heap⟩ hgrants
  cases data with
  | none => exact absurd ⟨by decide, by decide⟩ (hgrants.null rfl)
  | some p =>
    apply Gives.bind (P := fun _ _ => True) ⟨fun _ _ => trivial⟩
    intro t₁ mem _
    apply Gives.bind_eq (setCommand_eq _ _)
    apply Gives.bind_eq (setResult_eq _ _ _ _)
    apply Gives.pure
    refine .inr ⟨fun field => by cases field <;> simp, rfl, .inr (.inr ?_)⟩
    exact ⟨p, _, rfl, hgrants.live p rfl, Nat.le_refl _⟩

end Filled

/-! ## The stack trace -/

/-- The frames from `ebp` on, up to the null pointer. -/
inductive FrameChain (m : Mmu) : U32 → ℕ → Prop
  | done : FrameChain m 0 0
  | frame {ebp next : U32} {k : ℕ} : ebp ≠ 0 → m.readWord ebp = .ret next → FrameChain m next k →
      FrameChain m ebp (k + 1)

section StackTrace

variable {env : DbgEnv} {s : LtDbg} {fuel : ℕ} {m : Mmu} {h : DbgHeap} {list : List (ℕ × U32)}
  {b : ℕ × ℕ} {data ebp₀ : U32}

/-- The elements of the list are in use. -/
def NodesLive (h : DbgHeap) (list : List (ℕ × U32)) : Prop :=
  ∀ e ∈ list, (e.1, listElemSize) ∈ h.live

/-- The block is in use, and is not an element of the list. -/
def Spares (b : ℕ × ℕ) (h : DbgHeap) (list : List (ℕ × U32)) : Prop :=
  b ∈ h.live ∧ ∀ e ∈ list, b.1 ≠ e.1

theorem listPush_gives (hnodes : NodesLive h list) :
    (listPush env h list data).Gives fun _ r => NodesLive r.2 r.1 := by
  unfold listPush
  split
  · exact Gives.pure hnodes
  · rename_i p first rest
    split
    · apply Gives.pure
      intro e he
      rcases List.mem_cons.mp he with rfl | he
      · exact hnodes (p, first) List.mem_cons_self
      · exact hnodes e (List.mem_cons_of_mem _ he)
    · apply DbgHeap.heapAlloc_grants.bind
      rintro t ⟨q, heap⟩ hgrants
      have hkeeps : NodesLive heap ((p, first) :: rest) :=
        fun e he => hgrants.keeps _ (hnodes e he)
      cases q with
      | none => exact Gives.pure hkeeps
      | some q =>
        apply Gives.pure
        intro e he
        rcases List.mem_append.mp he with he | he
        · exact hkeeps e he
        · rw [List.mem_singleton.mp he]
          exact hgrants.live q rfl

/-- The walk through the frames counts them. -/
theorem frames_gives {nbPtr : ℕ} {ebp : U32} (hnodes : NodesLive h list) (hone : nbPtr = 1)
    (hebp : ebp = ebp₀) : (Traced.loop (frameTurn env m) fuel (ebp, nbPtr, list, h)).Gives
      fun _ r => NodesLive r.2.2 r.2.1 ∧ ∃ k, FrameChain m ebp₀ k ∧ r.1 = k + 1 := by
  apply Gives.loop (I := fun state => 1 ≤ state.2.1 ∧ NodesLive state.2.2.2 state.2.2.1 ∧
    ∀ k, FrameChain m state.1 k → FrameChain m ebp₀ (k + (state.2.1 - 1)))
  · rintro ⟨ebp, nbPtr, list, heap⟩ ⟨hpos, hnodes, hchain⟩
    unfold frameTurn
    dsimp only
    split
    · rename_i hzero
      apply Gives.pure
      refine ⟨nofun, fun r hr => ?_⟩
      cases hr
      have hlast := hchain 0 (hzero ▸ .done)
      rw [Nat.zero_add] at hlast
      exact ⟨hnodes, nbPtr - 1, hlast, (Nat.sub_add_cancel hpos).symm⟩
    · rename_i hne
      apply Gives.bind_lift
      intro addr _
      apply (listPush_gives hnodes).bind
      rintro t ⟨list', heap'⟩ hnodes'
      apply Gives.bind_lift
      intro next hnext
      apply Gives.pure
      refine ⟨fun state hstate => ?_, nofun⟩
      cases hstate
      -- the frames that are left are one fewer, and the ones counted one more
      refine ⟨Nat.le_add_left 1 nbPtr, hnodes', fun k hk => ?_⟩
      have hframe := hchain (k + 1) (.frame hne hnext hk)
      have hcount : k + 1 + (nbPtr - 1) = k + (nbPtr + 1 - 1) := by
        dsimp only at hpos
        omega
      exact hcount ▸ hframe
  · subst hone hebp
    exact ⟨Nat.le_refl 1, hnodes, fun k hk => hk⟩

theorem listPop_gives (hspares : Spares b h list) :
    (listPop h list).Gives fun _ r => Spares b r.2.2 r.2.1 := by
  obtain ⟨hlive, hne⟩ := hspares
  unfold listPop
  split
  · exact Gives.pure ⟨hlive, hne⟩
  · rename_i p first rest
    split
    · exact Gives.pure ⟨hlive, hne⟩
    · split
      · apply Gives.pure
        refine ⟨hlive, fun e he => ?_⟩
        rw [List.mem_singleton.mp he]
        exact hne (p, first) List.mem_cons_self
      · apply (DbgHeap.heapFree_keeps hlive (hne (p, first) List.mem_cons_self)).bind
        intro t heap hlive'
        exact Gives.pure ⟨hlive', fun e he => hne e (List.mem_cons_of_mem _ he)⟩

theorem pops_gives {buffer index : ℕ} (hspares : Spares b h list) :
    (Traced.loop (popTurn buffer) fuel (index, list, h)).Gives fun _ r => Spares b r.2 r.1 := by
  apply Gives.loop (I := fun state => Spares b state.2.2 state.2.1)
  · rintro ⟨index, list, heap⟩ hspares
    apply (listPop_gives hspares).bind
    rintro t ⟨addr, list', heap'⟩ hspares'
    by_cases haddr : addr = 0
    · simp only [haddr, if_true]
      apply Gives.pure
      refine ⟨nofun, fun r hr => ?_⟩
      cases hr
      exact hspares'
    · simp only [haddr, if_false]
      apply Gives.pure
      refine ⟨fun state hstate => ?_, nofun⟩
      cases hstate
      exact hspares'
  · exact hspares

theorem listDestroy_gives (hspares : Spares b h list) :
    (listDestroy h list).Gives fun _ heap => b ∈ heap.live := by
  induction list generalizing h with
  | nil => exact Gives.pure hspares.1
  | cons e rest ih =>
    obtain ⟨hlive, hne⟩ := hspares
    apply (DbgHeap.heapFree_keeps hlive (hne e List.mem_cons_self)).bind
    intro t heap hlive'
    exact ih ⟨hlive', fun e' he' => hne e' (List.mem_cons_of_mem _ he')⟩

/-- So many addresses have been put into a list, behind one that is not null. Its elements lie in
the heap, apart from each other. -/
structure Listed (list : List (ℕ × U32)) (n : ℕ) : Prop where
  first : ∃ p data rest, list = (p, data) :: rest ∧ data ≠ 0
  length : list.length = n
  below : ∀ e ∈ list, e.1 + listElemSize ≤ heapLimit
  apart : list.Pairwise fun e e' =>
    e.1 + listElemSize ≤ e'.1 ∨ e'.1 + listElemSize ≤ e.1

theorem listPush_listed {n : ℕ} (hnodes : NodesLive h list) (hlisted : Listed list n) :
    (listPush env h list data).Gives fun _ r => Listed r.1 (n + 1) := by
  obtain ⟨⟨p, first, rest, rfl, hfirst⟩, hlength, hbelow, hapart⟩ := hlisted
  rw [listPush, if_neg hfirst]
  apply DbgHeap.heapAlloc_grants.bind
  rintro t ⟨q, heap⟩ hgrants
  cases q with
  | none => exact absurd ⟨by decide, by decide⟩ (hgrants.null rfl)
  | some q =>
    apply Gives.pure
    obtain ⟨-, hlimit, hothers⟩ := hgrants.room q rfl
    refine ⟨⟨p, first, rest ++ [(q, data)], rfl, hfirst⟩, ?_, fun e he => ?_, ?_⟩
    · rw [List.length_append, hlength, List.length_singleton]
    · rcases List.mem_append.mp he with he | he
      · exact hbelow e he
      · rw [List.mem_singleton.mp he]
        exact hlimit
    · refine List.pairwise_append.mpr ⟨hapart, List.pairwise_singleton _ _, fun e he e' he' => ?_⟩
      rw [List.mem_singleton.mp he']
      exact (hothers _ (hnodes e he)).symm

theorem frames_listed {nbPtr : ℕ} {ebp : U32} (hnodes : NodesLive h list)
    (hlisted : Listed list nbPtr) :
    (Traced.loop (frameTurn env m) fuel (ebp, nbPtr, list, h)).Gives
      fun _ r => Listed r.2.1 r.1 := by
  apply Gives.loop (I := fun state => NodesLive state.2.2.2 state.2.2.1 ∧
    Listed state.2.2.1 state.2.1)
  · rintro ⟨ebp, nbPtr, list, heap⟩ ⟨hnodes, hlisted⟩
    unfold frameTurn
    dsimp only
    split
    · apply Gives.pure
      refine ⟨nofun, fun r hr => ?_⟩
      cases hr
      exact hlisted
    · apply Gives.bind_lift
      intro addr _
      have hpush : (listPush env heap list addr).Gives fun _ r =>
          NodesLive r.2 r.1 ∧ Listed r.1 (nbPtr + 1) :=
        ⟨fun r hret => ⟨(listPush_gives hnodes).ret r hret,
          (listPush_listed hnodes hlisted).ret r hret⟩⟩
      apply hpush.bind
      rintro t ⟨list', heap'⟩ hpushed
      apply Gives.bind_lift
      intro next _
      apply Gives.pure
      refine ⟨fun state hstate => ?_, nofun⟩
      cases hstate
      exact hpushed
  · exact ⟨hnodes, hlisted⟩

/-- The heap has no room for a list whose addresses would not fit into a block. -/
theorem Listed.servable {n : ℕ} (h : Listed list n) : DbgHeap.Servable (n * 4 % 2 ^ 32) := by
  have hnodup : (list.map fun e => e.1 / listElemSize).Nodup := by
    refine List.pairwise_map.mpr (h.apart.imp fun {e e'} hapart heq => ?_)
    unfold listElemSize at hapart heq
    omega
  have hsubset : (list.map fun e => e.1 / listElemSize) ⊆
      List.range (heapLimit / listElemSize) := by
    intro x hx
    obtain ⟨e, he, rfl⟩ := List.mem_map.mp hx
    have hbelow := h.below e he
    rw [List.mem_range]
    unfold listElemSize at hbelow ⊢
    omega
  have hle := (List.subperm_of_subset hnodup hsubset).length_le
  rw [List.length_map, List.length_range, h.length] at hle
  have hlimit : heapLimit / listElemSize < 2 ^ 29 := by decide
  have hpos : 0 < n := by
    obtain ⟨p, data, rest, rfl, -⟩ := h.first
    exact h.length ▸ Nat.succ_pos _
  unfold DbgHeap.Servable
  omega

/-- There is a block for the addresses of this stack. It is only in question where `eip` is null:
as long as the addresses are null, too, the list does not grow. -/
def StackFits (s : LtDbg) : Prop :=
  s.context.eip = 0 →
    ∀ k, FrameChain s.mmu s.context.ebp k → DbgHeap.Servable ((k + 1) * 4 % 2 ^ 32)

theorem stackTraceCommand_gives (hfits : s.StackFits) :
    (s.stackTraceCommand env fuel).Gives (Answered cmdStackTrace) := by
  unfold stackTraceCommand
  apply DbgHeap.heapAlloc_grants.bind
  rintro t₁ ⟨first, heap₁⟩ hgrants₁
  obtain ⟨p, rfl⟩ : ∃ p, first = some p :=
    Option.ne_none_iff_exists'.mp fun hnull => hgrants₁.null hnull ⟨by decide, by decide⟩
  have hnodes₁ : NodesLive heap₁ [(p, 0)] := by
    intro e he
    rw [List.mem_singleton.mp he]
    exact hgrants₁.live p rfl
  have hpush : (listPush env heap₁ [(p, 0)] s.context.eip).Gives fun _ r =>
      NodesLive r.2 r.1 ∧ (s.context.eip ≠ 0 → Listed r.1 1) := by
    refine ⟨fun r hret => ⟨(listPush_gives hnodes₁).ret r hret, fun heip => ?_⟩⟩
    cases Outcome.ret.inj hret
    refine ⟨⟨p, _, [], rfl, heip⟩, rfl, fun e he => ?_, List.pairwise_singleton _ _⟩
    rw [List.mem_singleton.mp he]
    exact (hgrants₁.room p rfl).2.1
  apply hpush.bind
  rintro t₂ ⟨list₂, heap₂⟩ ⟨hnodes₂, hlisted₂⟩
  have hwalk : (Traced.loop (frameTurn env s.mmu) fuel (s.context.ebp, 1, list₂, heap₂)).Gives
      fun _ r => (NodesLive r.2.2 r.2.1 ∧ ∃ k, FrameChain s.mmu s.context.ebp k ∧ r.1 = k + 1) ∧
        (s.context.eip ≠ 0 → Listed r.2.1 r.1) :=
    ⟨fun r hret => ⟨(frames_gives hnodes₂ rfl rfl).ret r hret,
      fun heip => (frames_listed hnodes₂ (hlisted₂ heip)).ret r hret⟩⟩
  apply hwalk.bind
  rintro t₃ ⟨nbPtr, list₃, heap₃⟩ ⟨⟨hnodes₃, k, hchain, hcount⟩, hlisted₃⟩
  apply DbgHeap.heapAlloc_grants.bind
  rintro t₄ ⟨buffer, heap₄⟩ hgrants₄
  cases buffer with
  | none =>
    have hcount : nbPtr = k + 1 := hcount
    refine absurd ?_ (hgrants₄.null rfl)
    by_cases heip : s.context.eip = 0
    · exact hcount ▸ hfits heip k hchain
    · exact (hlisted₃ heip).servable
  | some buffer =>
    -- the buffer is none of the elements, which are freed from here on
    have hspares : Spares (buffer, nbPtr * 4 % 2 ^ 32) heap₄ list₃ :=
      ⟨hgrants₄.live buffer rfl, fun e he => hgrants₄.fresh buffer rfl _ (hnodes₃ e he) nofun⟩
    apply (pops_gives hspares).bind
    rintro t₅ ⟨list₅, heap₅⟩ hspares₅
    apply Gives.bind_eq (setCommand_eq _ _)
    apply Gives.bind_eq (setResult_eq _ _ _ _)
    apply (listDestroy_gives hspares₅).bind
    intro t₆ heap₆ hlive
    apply Gives.pure
    refine .inr ⟨fun field => by cases field <;> simp, rfl, .inr (.inr ?_)⟩
    exact ⟨buffer, _, rfl, hlive, Nat.le_refl _⟩

end StackTrace

/-! ## One turn -/

section Turn

open LtDbgCom

variable {env : DbgEnv} {s : LtDbg} {fuel : ℕ} {l : DbgLink}

/-- The commands that fill in the response. -/
structure FillsIn (s : LtDbg) : Prop where
  notBp : s.request.command ≠ cmdBp
  disass : s.request.command = cmdDisass → s.AsksForCode
  stackTrace : s.request.command = cmdStackTrace → s.StackFits

theorem handle_gives (hfills : s.FillsIn) :
    (s.handle env fuel).Gives (Answered s.request.command) := by
  unfold handle
  by_cases hstep : s.request.command = cmdStep
  · rw [if_pos hstep, hstep]
    exact answer_gives
  by_cases hcontinue : s.request.command = cmdContinue
  · rw [if_neg hstep, if_pos hcontinue, hcontinue]
    exact answer_gives
  by_cases hquit : s.request.command = cmdQuit
  · rw [if_neg hstep, if_neg hcontinue, if_pos hquit, hquit]
    exact answer_gives
  by_cases hregisters : s.request.command = cmdRegisters
  · rw [if_neg hstep, if_neg hcontinue, if_neg hquit, if_pos hregisters, hregisters]
    exact answer_gives
  rw [if_neg hstep, if_neg hcontinue, if_neg hquit, if_neg hregisters]
  by_cases hdisass : s.request.command = cmdDisass
  · rw [if_pos hdisass, hdisass]
    exact disassCommand_gives (hfills.disass hdisass)
  by_cases hstack : s.request.command = cmdStackTrace
  · rw [if_neg hdisass, if_pos hstack, hstack]
    exact stackTraceCommand_gives (hfills.stackTrace hstack)
  by_cases hmemory : s.request.command = cmdMemory
  · rw [if_neg hdisass, if_neg hstack, if_pos hmemory, hmemory]
    exact memoryCommand_gives
  rw [if_neg hdisass, if_neg hstack, if_neg hmemory, if_neg hfills.notBp]
  by_cases hidt : s.request.command = cmdIdt
  · rw [if_pos hidt, hidt]
    exact idtCommand_gives
  · rw [if_neg hidt]
    exact answer_gives

/-- What is sent is the response, if its data are there. The blocks that are in use stay so. -/
theorem sendResponse_before {response : KeDebugResponse} : (sendResponse env l response).Before
    fun _ e => ∀ r live, e = .sent r live → r = response ∧ (∀ b ∈ l.heap.live, b ∈ live) ∧
      (response.data = none → response.header.dataSize = 0) := by
  unfold sendResponse
  split
  · exact quiet_before only_pure
  · rename_i hdata
    apply (quiet_before heapAlloc_quiet).bind
    rintro ⟨buffer, heap⟩ halloc
    have hkeeps := (DbgHeap.heapAlloc_grants.ret _ halloc).keeps
    cases buffer with
    | none => exact quiet_before only_pure
    | some buffer =>
      dsimp only
      unfold sendPacket
      split
      · exact quiet_before only_pure
      · split
        · exact quiet_before only_pure
        · apply Before.bind
          · constructor
            intro pre e post heq r live he
            have hmem : e ∈ pre ++ e :: post := List.mem_append_right _ List.mem_cons_self
            rw [← heq] at hmem
            cases he.symm.trans (mem_note.mp hmem)
            refine ⟨rfl, hkeeps, fun hnull => ?_⟩
            by_contra hsize
            exact hdata ⟨hsize, hnull⟩
          · intro _ _
            exact quiet_before only_pure

/-- The name of the process is no field that the answer depends on. -/
theorem updateKeDebugResponseWithProcessInfo_eq (env : DbgEnv) (response : KeDebugResponse) :
    ∃ processName, (updateKeDebugResponseWithProcessInfo env response).2 =
      { response with header := { response.header with processName } } := by
  unfold updateKeDebugResponseWithProcessInfo
  cases env.currentProcess with
  | none => exact ⟨response.header.processName, rfl⟩
  | some name => exact ⟨name, rfl⟩

/-- The response that is sent is the one that the command has left. -/
theorem respond_before (hfills : s.FillsIn) : (respond env fuel s).Before
    fun pre e => ∀ r live, e = .sent r live → r.header.command = s.request.command ∧
      (∀ field, .set field ∈ pre) ∧ DataHeld r live := by
  unfold respond
  apply (quiet_before handle_quiet).bind
  intro s₁ hret
  have hanswered := (handle_gives hfills).ret s₁ hret
  obtain ⟨name, hname⟩ := updateKeDebugResponseWithProcessInfo_eq env s₁.response
  dsimp only
  rw [hname]
  split
  · rename_i hrunning
    have hfilled : Filled s.request.command (s.handle env fuel).trace s₁ :=
      hanswered.resolve_left (by rw [hrunning]; exact Bool.false_ne_true)
    apply Before.bind
    · constructor
      intro pre e post heq r live he
      obtain ⟨rfl, hkeeps, hnull⟩ := sendResponse_before.split pre e post heq r live he
      refine ⟨hfilled.command, fun field => List.mem_append_left _ (hfilled.fields field), ?_⟩
      rcases hfilled.data with hnone | hsize | ⟨p, n, hp, hlive, hn⟩
      · -- without data the size is 0
        exact .inl (hnull hnone)
      · exact .inl hsize
      · exact .inr ⟨p, n, hp, hkeeps _ hlive, hn⟩
    · intro _ _
      exact quiet_before (only_pure.bind fun _ _ => cleanup_quiet.bind fun _ _ => cleanup_quiet)
  · exact quiet_before (only_pure.bind fun _ _ => cleanup_quiet.bind fun _ _ => cleanup_quiet)

theorem cleanupPacket_quiet {packet : KeDebugPacket} : (cleanupPacket l packet).Only Quiet := by
  unfold cleanupPacket
  split
  · exact only_pure
  · exact heapFree_quiet.bind fun _ _ => only_pure

theorem recvPacket_quiet {packet : KeDebugPacket} : (recvPacket env l packet).Only Quiet := by
  unfold recvPacket
  dsimp only
  split
  · exact only_pure
  · apply heapAlloc_quiet.bind
    intro r _
    split
    · exact only_pure
    · exact only_pure

theorem recvRequest_quiet {request : KeDebugRequest} :
    (recvRequest env l request).Only Quiet := by
  unfold recvRequest
  apply recvPacket_quiet.bind
  intro r _
  split
  · exact only_pure
  · split
    · exact only_pure
    · apply (only_note nofun).bind
      intro _ _
      apply (only_note nofun).bind
      intro _ _
      dsimp only
      split
      · apply heapAlloc_quiet.bind
        intro r' _
        split
        · exact only_pure
        · apply (only_note nofun).bind
          intro _ _
          exact cleanupPacket_quiet.bind fun _ _ => only_pure
      · exact cleanupPacket_quiet.bind fun _ _ => only_pure
  · exact only_pure

/-- The command that the packet carries. -/
def packetCommand (env : DbgEnv) (l : DbgLink) : CommandId :=
  Bytes.load32 env.bytes (l.received + 4)

/-- There are blocks for the packet and for its parameter. -/
def Delivered (env : DbgEnv) (l : DbgLink) : Prop :=
  DbgHeap.Obtains env l.heap (packetSize env l) ∧ ((requestIn env l).paramSize = 0 ∨
    DbgHeap.Obtains env (arrived env l).heap (requestIn env l).paramSize)

/-- The memory behind the copy of the parameter, and the number of instructions that it asks for. -/
def takenMem (env : DbgEnv) (l : DbgLink) : Bytes :=
  ((arrived env l).heap.mem.copy (contentAt env l + requestHeaderSize)
    (env.place (arrived env l).heap.count) (requestIn env l).paramSize).fill (contentAt env l) 0
    (packetSize env l)

def nbInstIn (env : DbgEnv) (l : DbgLink) : ℕ :=
  (takenMem env l).load32 (env.place (arrived env l).heap.count)

/-- A packet with a command that fills in the response. -/
structure FillsAnswer (env : DbgEnv) (s : LtDbg) : Prop where
  size : 4 ≤ packetSize env s.link
  notBp : packetCommand env s.link ≠ cmdBp
  disass : packetCommand env s.link = cmdDisass →
    (requestIn env s.link).paramSize ≠ 0 ∧ nbInstIn env s.link ≠ 0
  stackTrace : packetCommand env s.link = cmdStackTrace → s.StackFits

/-- The packet has such a command, if it is delivered. -/
def Answerable (env : DbgEnv) (s : LtDbg) : Prop :=
  packetSize env s.link ≠ 0 ∧ (Delivered env s.link → FillsAnswer env s)

/-- What is sent answers the packet. -/
def AnswersPacket (env : DbgEnv) (l : DbgLink) (pre : List DbgEvent) (e : DbgEvent) : Prop :=
  ∀ r live, e = .sent r live → 4 ≤ packetSize env l ∧ r.header.command = packetCommand env l ∧
    (∀ field, .set field ∈ pre) ∧ DataHeld r live

theorem requestIn_command (hsize : 4 ≤ packetSize env l) :
    (requestIn env l).command = packetCommand env l := by
  have hshift := Bytes.load32_shift (m := (arrived env l).heap.mem) (a := contentAt env l)
    (f := fun i => env.bytes (l.received + 4 + i)) (n := packetSize env l) (k := 0)
    (fun i hi => arrived_mem hi) (by omega)
  exact hshift

/-- The request that is handled, when the packet is delivered. -/
theorem recvRequest_delivered {request r : KeDebugRequest} {l' : DbgLink}
    (hsize : packetSize env l ≠ 0)
    (hret : (recvRequest env l request).outcome = .ret (.statusSuccess, r, l')) :
    Delivered env l ∧ r.command = (requestIn env l).command ∧
      r.paramSize = (requestIn env l).paramSize ∧ (r.paramSize ≠ 0 → l'.heap.mem = takenMem env l ∧
        r.param = some (env.place (arrived env l).heap.count)) := by
  by_cases hget : DbgHeap.Obtains env l.heap (packetSize env l)
  · rw [recvRequest_arrives hget] at hret
    have hret : (takeParam env (arrived env l) (contentAt env l) (packetSize env l)
      (requestIn env l)).outcome = .ret (.statusSuccess, r, l') := hret
    obtain ⟨hmem, hfind⟩ := arrived_find env l
    by_cases hzero : (requestIn env l).paramSize = 0
    · rw [takeParam_none hzero hfind] at hret
      cases Outcome.ret.inj hret
      exact ⟨⟨hget, .inl hzero⟩, rfl, rfl, fun hne => absurd hzero hne⟩
    · by_cases hparam : DbgHeap.Obtains env (arrived env l).heap (requestIn env l).paramSize
      · rw [takeParam_some hparam hget.1 hmem hfind] at hret
        cases Outcome.ret.inj hret
        exact ⟨⟨hget, .inr hparam⟩, rfl, rfl, fun _ => ⟨rfl, rfl⟩⟩
      · have hfails : takeParam env (arrived env l) (contentAt env l) (packetSize env l)
              (requestIn env l) = ⟨[], .ret (.statusAllocFailed, requestIn env l, arrived env l)⟩ ∨
            takeParam env (arrived env l) (contentAt env l) (packetSize env l) (requestIn env l) =
              ⟨[], .panic⟩ := takeParam_fails hzero hparam
        rcases hfails with htake | htake
        · rw [htake] at hret
          cases congrArg Prod.fst (Outcome.ret.inj hret)
        · rw [htake] at hret
          cases hret
  · rcases recvRequest_fails request hsize hget with heq | heq
    · rw [heq] at hret
      cases congrArg Prod.fst (Outcome.ret.inj hret)
    · rw [heq] at hret
      cases hret

/-- A turn of the loop sends answers only. -/
theorem turn_before (h : Answerable env s) :
    (turn env fuel s).Before (AnswersPacket env s.link) := by
  obtain ⟨hsize, hfills⟩ := h
  unfold turn
  apply (quiet_before recvRequest_quiet).bind
  rintro ⟨status, request, link⟩ hret
  cases status with
  | statusSuccess =>
    obtain ⟨hdelivered, hcommand, hparamSize, hparam⟩ := recvRequest_delivered hsize hret
    have hfills := hfills hdelivered
    have heq : request.command = packetCommand env s.link :=
      hcommand.trans (requestIn_command hfills.size)
    have hhandled : FillsIn { s with request, link } := by
      constructor
      · exact heq ▸ hfills.notBp
      · intro hdisass
        obtain ⟨hne, hinst⟩ := hfills.disass (heq.symm.trans hdisass)
        rw [← hparamSize] at hne
        obtain ⟨hmem, hblock⟩ := hparam hne
        refine ⟨hne, _, hblock, ?_⟩
        show link.heap.mem.load32 _ ≠ 0
        rw [hmem]
        exact hinst
      · exact fun hstack => hfills.stackTrace (heq.symm.trans hstack)
    constructor
    intro pre e post hsplit r live he
    obtain ⟨hr, hset, hdata⟩ := (respond_before hhandled).split pre e post hsplit r live he
    exact ⟨hfills.size, hr.trans heq, fun field => List.mem_append_right _ (hset field), hdata⟩
  | _ => exact quiet_before only_pure

end Turn

/-! ## Runs -/

open LtDbgCom

/-- A packet, with the bytes and the blocks of `env`, or the next call of `LtDbg::WaitForPacket`. -/
inductive DbgOp where
  | packet (env : DbgEnv) (fuel : ℕ)
  | call

/-- Nothing is known of the variables of a new call. -/
inductive DbgStep : LtDbg → DbgOp → LtDbg → Prop
  | packet {s s' : LtDbg} {env : DbgEnv} {fuel : ℕ} : s.running = false →
      (s.turn env fuel).outcome = .ret s' → DbgStep s (.packet env fuel) s'
  | call {s s' : LtDbg} : s.running = true → s'.running = false → s'.link = s.link →
      DbgStep s .call s'

/-- While a packet is handled, whether there is an end to it or not, all that is sent answers it. -/
def AnswersThroughout (s : LtDbg) (ops : List DbgOp) : Prop :=
  ∀ pre env fuel s', pre ++ [.packet env fuel] <+: ops → Run DbgStep s pre s' →
    s'.running = false → (s'.turn env fuel).Before (AnswersPacket env s'.link)

/-- Packets of commands that fill in the response are answered. -/
theorem answersThroughout {s : LtDbg} {ops : List DbgOp}
    (hfills : ∀ pre env fuel s', pre ++ [.packet env fuel] <+: ops → Run DbgStep s pre s' →
      s'.running = false → Answerable env s') : AnswersThroughout s ops := by
  intro pre env fuel s' hpre hrun hrunning
  exact turn_before (hfills pre env fuel s' hpre hrun hrunning)

/-- A debugger that no packet has reached yet. -/
def started : LtDbg where
  link := freshLink
  mmu := ⟨fun _ => 0, 0⟩
  context := ⟨0, 0, 0, 0⟩
  request := ⟨cmdConnect, 0, none⟩
  response := ⟨⟨cmdConnect, .dbgStatusSuccess, ⟨0, 0, 0, 0⟩, [], 0⟩, none⟩
  running := false

/-- Asks for the registers, and goes on with the next instruction. -/
def registersThenStep : DbgEnv :=
  peer [8, 0, 0, 0, 4, 0, 0, 0, 0, 0, 0, 0, 8, 0, 0, 0, 1, 0, 0, 0, 0, 0, 0, 0]

theorem registersThenStep_answers :
    AnswersThroughout started [.packet registersThenStep 1, .packet registersThenStep 1] := by
  apply answersThroughout
  rintro pre env fuel s' ⟨rest, hpre⟩ hrun -
  match pre with
  | [] =>
    cases (List.cons.inj hpre).1
    obtain rfl := hrun.of_nil
    have hcommand : packetCommand registersThenStep started.link = cmdRegisters := by decide
    refine ⟨by decide, fun _ => ⟨by decide, ?_, ?_, ?_⟩⟩
    · rw [hcommand]
      decide
    · rw [hcommand]
      exact nofun
    · rw [hcommand]
      exact nofun
  | [op] =>
    obtain ⟨hfirst, hlast⟩ := List.cons.inj hpre
    cases hfirst
    cases (List.cons.inj hlast).1
    obtain ⟨s₁, hstep, hrest⟩ := hrun.of_cons
    obtain rfl := hrest.of_nil
    obtain ⟨-, hturn⟩ := hstep
    have hreceived : s₁.link.received = 12 := by
      cases Outcome.ret.inj hturn
      rfl
    have hsize : packetSize registersThenStep s₁.link = 8 := by
      rw [packetSize, hreceived]
      rfl
    have hcommand : packetCommand registersThenStep s₁.link = cmdStep := by
      rw [packetCommand, hreceived]
      rfl
    refine ⟨by rw [hsize]; decide, fun _ => ⟨by rw [hsize]; decide, ?_, ?_, ?_⟩⟩
    · rw [hcommand]
      decide
    · rw [hcommand]
      exact nofun
    · rw [hcommand]
      exact nofun
  | _ :: _ :: _ => simp at hpre

/-- `CMD_BP` sends a response that nobody has written. -/
theorem bp_not_answered :
    ¬AnswersThroughout started [.packet (peer [8, 0, 0, 0, 8, 0, 0, 0, 0, 0, 0, 0]) 1] := by
  intro hanswers
  have htrace : (started.turn (peer [8, 0, 0, 0, 8, 0, 0, 0, 0, 0, 0, 0]) 1).trace =
      [.alloc 0x1000004 8, .read 0x1000004 4, .read 0x1000008 4, .free 0x1000004 true,
        .alloc 0x1001004 600] ++ .sent started.response [(0x1001004, 600)] :: [] := rfl
  obtain ⟨-, -, hset, -⟩ := (hanswers [] _ _ started (List.prefix_refl _) (.nil _) rfl).split _ _ _
    htrace _ _ rfl
  have hstatus := hset .status
  simp at hstatus

end LtDbg

end LtMicros
