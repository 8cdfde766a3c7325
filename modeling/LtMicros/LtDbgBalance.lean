import LtMicros.LtDbgAnswers

/-!
# The memory of the debugger

The commands that let the kernel go on free all that the debugger has got for their packet. The
others are answered, and nobody frees the buffer in which `SendResponse` puts the response.
-/

namespace LtMicros

open Lib

namespace LtDbg

open LtDbgCom Traced

variable {env : DbgEnv} {s s' : LtDbg} {fuel : ℕ} {l : DbgLink}

/-- Blocks that are freed have been got in the same turn, and have not been freed before; none of
them stays in use. -/
structure OwnsMemory (s : LtDbg) (x : Traced DbgEvent LtDbg) : Prop where
  freed : ∀ p inUse, .free p inUse ∈ x.trace → inUse = true ∧ ∃ n, .alloc p n ∈ x.trace
  live : ∀ s', x.outcome = .ret s' → s'.link.heap.live = s.link.heap.live

/-- The command lets the kernel go on, and its parameter is not too large for `HeapAlloc`. -/
def GoesOn (env : DbgEnv) (l : DbgLink) : Prop :=
  ((requestIn env l).command = cmdStep ∨ (requestIn env l).command = cmdContinue ∨
    (requestIn env l).command = cmdQuit) ∧ (requestIn env l).paramSize < 2 ^ 31

/-- The packet has bytes, and such a command, if there is a block for it. -/
def Balances (env : DbgEnv) (l : DbgLink) : Prop :=
  packetSize env l ≠ 0 ∧ (DbgHeap.Obtains env l.heap (packetSize env l) → GoesOn env l)

/-- No block is empty. -/
def SizedBlocks (h : DbgHeap) : Prop := ∀ b ∈ h.live, b.2 ≠ 0

/-! ## One turn -/

/-- The commands that let the kernel go on leave no data. -/
theorem handle_goesOn (env : DbgEnv) (fuel : ℕ) (hcommand : s.request.command = cmdStep ∨
    s.request.command = cmdContinue ∨ s.request.command = cmdQuit) :
    ∃ context header, s.handle env fuel =
      ⟨[.set .command, .set .dataSize, .set .status, .set .data],
        .ret { s with context, response := ⟨header, none⟩, running := true }⟩ := by
  unfold handle
  rcases hcommand with hcommand | hcommand | hcommand
  · rw [if_pos hcommand]
    exact ⟨_, _, rfl⟩
  · rw [if_neg (by rw [hcommand]; decide), if_pos hcommand]
    exact ⟨_, _, rfl⟩
  · rw [if_neg (by rw [hcommand]; decide), if_neg (by rw [hcommand]; decide), if_pos hcommand]
    exact ⟨_, _, rfl⟩

theorem cleanup_some {p n : ℕ} (hfind : s.link.heap.live.find? (·.1 = p) = some (p, n)) :
    s.cleanup (some p) = ⟨[.free p true], .ret (s.setHeap { s.link.heap with
      mem := s.link.heap.mem.fill p 0 n, live := s.link.heap.live.filter (·.1 ≠ p) })⟩ := by
  rw [cleanup]
  dsimp only
  rw [DbgHeap.heapFree_eq hfind]
  rfl

/-- What the loop does behind the command, when nothing is sent. -/
def cleanUp (env : DbgEnv) (s : LtDbg) : Traced DbgEvent LtDbg := do
  let s := { s with response := (updateKeDebugResponseWithProcessInfo env s.response).2 }
  let s ← s.cleanup s.request.param
  s.cleanup s.response.data

theorem respond_running {t : List DbgEvent} (hhandle : s.handle env fuel = ⟨t, .ret s'⟩)
    (hrunning : s'.running = true) : respond env fuel s =
      ⟨t ++ (s'.cleanUp env).trace, (s'.cleanUp env).outcome⟩ := by
  unfold respond
  rw [hhandle, bind_of_ret rfl]
  dsimp only
  rw [if_neg (by rw [hrunning]; decide)]
  rfl

/-- Nothing is freed. -/
theorem cleanUp_none (env : DbgEnv) (hparam : s.request.param = none)
    (hdata : s.response.data = none) :
    ∃ s', s'.link = s.link ∧ s.cleanUp env = ⟨[], .ret s'⟩ := by
  obtain ⟨name, hname⟩ := updateKeDebugResponseWithProcessInfo_eq env s.response
  unfold cleanUp
  dsimp only
  rw [hname, hparam, hdata]
  exact ⟨{ s with response := ⟨{ s.response.header with processName := name }, none⟩ }, rfl, rfl⟩

/-- Only the parameter is freed. -/
theorem cleanUp_some (env : DbgEnv) {p n : ℕ} (hparam : s.request.param = some p)
    (hdata : s.response.data = none)
    (hfind : s.link.heap.live.find? (·.1 = p) = some (p, n)) :
    ∃ s', s'.link.heap.live = s.link.heap.live.filter (·.1 ≠ p) ∧
      s.cleanUp env = ⟨[.free p true], .ret s'⟩ := by
  obtain ⟨name, hname⟩ := updateKeDebugResponseWithProcessInfo_eq env s.response
  unfold cleanUp
  dsimp only
  have hcleanup := cleanup_some hfind
    (s := { s with response := ⟨{ s.response.header with processName := name }, none⟩ })
  rw [hname, hparam, hdata]
  dsimp only
  rw [hcleanup]
  exact ⟨_, rfl, rfl⟩

/-- A new block is not among those in use. -/
theorem filter_fresh {h : DbgHeap} {n : ℕ} (hget : DbgHeap.Obtains env h n)
    (hsized : SizedBlocks h) : h.live.filter (·.1 ≠ env.place h.count) = h.live := by
  apply List.filter_eq_self.mpr
  intro b hb
  have hne : env.place h.count ≠ b.1 := hget.ne (hsized b hb) hb
  exact decide_eq_true hne.symm

/-- The blocks of the packet are back when its parameter has been taken. -/
theorem arrived_filter (hget : DbgHeap.Obtains env l.heap (packetSize env l))
    (hsized : SizedBlocks l.heap) :
    (arrived env l).heap.live.filter (·.1 ≠ contentAt env l) = l.heap.live := by
  show List.filter _ ((contentAt env l, packetSize env l) :: l.heap.live) = _
  rw [List.filter_cons_of_neg (by simp)]
  exact filter_fresh hget hsized

theorem turn_delivered {t t' : List DbgEvent} {r : KeDebugRequest} {l' : DbgLink}
    (hget : DbgHeap.Obtains env s.link.heap (packetSize env s.link))
    (htake : takeParam env (arrived env s.link) (contentAt env s.link) (packetSize env s.link)
      (requestIn env s.link) = ⟨t, .ret (.statusSuccess, r, l')⟩)
    (hrespond : respond env fuel { s with request := r, link := l' } = ⟨t', .ret s'⟩) :
    turn env fuel s = ⟨.alloc (contentAt env s.link) (packetSize env s.link) ::
      .read (contentAt env s.link) 4 :: .read (contentAt env s.link + 4) 4 :: t ++ t', .ret s'⟩ := by
  unfold turn
  rw [recvRequest_arrives hget, htake, bind_of_ret rfl]
  dsimp only
  rw [hrespond]

/-- The turn of a packet without parameter. -/
theorem turn_owns_none (hsized : SizedBlocks s.link.heap)
    (hget : DbgHeap.Obtains env s.link.heap (packetSize env s.link)) (hgoes : GoesOn env s.link)
    (hzero : (requestIn env s.link).paramSize = 0) : OwnsMemory s (turn env fuel s) := by
  obtain ⟨l', hlive, htake⟩ : ∃ l', l'.heap.live = s.link.heap.live ∧
      takeParam env (arrived env s.link) (contentAt env s.link) (packetSize env s.link)
        (requestIn env s.link) =
        ⟨[.free (contentAt env s.link) true], .ret (.statusSuccess, requestIn env s.link, l')⟩ :=
    ⟨_, arrived_filter hget hsized, takeParam_none hzero (arrived_find env s.link).2⟩
  obtain ⟨context, header, hhandle⟩ := handle_goesOn env fuel
    (s := { s with request := requestIn env s.link, link := l' }) hgoes.1
  have hrespond := respond_running hhandle rfl
  obtain ⟨s', hlink, hcleanUp⟩ := cleanUp_none env
    (s := { s with
      request := requestIn env s.link, link := l', context, response := ⟨header, none⟩
      running := true }) rfl rfl
  rw [hcleanUp] at hrespond
  rw [turn_delivered hget htake hrespond]
  constructor
  · intro p inUse he
    simp at he
    obtain ⟨rfl, rfl⟩ := he
    exact ⟨rfl, packetSize env s.link, by simp⟩
  · intro s'' hret
    cases Outcome.ret.inj hret
    rw [hlink]
    exact hlive

/-- The turn of a packet with a parameter. -/
theorem turn_owns_some (hsized : SizedBlocks s.link.heap)
    (hget : DbgHeap.Obtains env s.link.heap (packetSize env s.link)) (hgoes : GoesOn env s.link)
    (hparam : DbgHeap.Obtains env (arrived env s.link).heap (requestIn env s.link).paramSize) :
    OwnsMemory s (turn env fuel s) := by
  obtain ⟨hmem, hfind⟩ := arrived_find env s.link
  have hne := hparam.ne hget.1 hmem
  obtain ⟨l', hlive, htake⟩ : ∃ l',
      l'.heap.live = (env.place (arrived env s.link).heap.count,
        (requestIn env s.link).paramSize) :: s.link.heap.live ∧
      takeParam env (arrived env s.link) (contentAt env s.link) (packetSize env s.link)
        (requestIn env s.link) = ⟨[.alloc (env.place (arrived env s.link).heap.count)
            (requestIn env s.link).paramSize, .read (contentAt env s.link + requestHeaderSize)
            (requestIn env s.link).paramSize, .free (contentAt env s.link) true],
          .ret (.statusSuccess, { requestIn env s.link with
            param := some (env.place (arrived env s.link).heap.count) }, l')⟩ := by
    refine ⟨_, ?_, takeParam_some hparam hget.1 hmem hfind⟩
    show List.filter (fun b : ℕ × ℕ => decide (b.1 ≠ contentAt env s.link))
      ((_, _) :: (arrived env s.link).heap.live) = _
    rw [List.filter_cons_of_pos (by simpa using hne), arrived_filter hget hsized]
  obtain ⟨context, header, hhandle⟩ := handle_goesOn env fuel
    (s := { s with
      request := { requestIn env s.link with
        param := some (env.place (arrived env s.link).heap.count) }
      link := l' }) hgoes.1
  have hrespond := respond_running hhandle rfl
  have hfound : l'.heap.live.find? (·.1 = env.place (arrived env s.link).heap.count) =
      some (env.place (arrived env s.link).heap.count, (requestIn env s.link).paramSize) := by
    rw [hlive, List.find?_cons_of_pos (by simp)]
  obtain ⟨s', hlast, hcleanUp⟩ := cleanUp_some env
    (s := { s with
      request := { requestIn env s.link with
        param := some (env.place (arrived env s.link).heap.count) }
      link := l', context, response := ⟨header, none⟩, running := true }) rfl rfl hfound
  rw [hcleanUp] at hrespond
  rw [turn_delivered hget htake hrespond]
  constructor
  · intro p inUse he
    simp at he
    rcases he with ⟨rfl, rfl⟩ | ⟨rfl, rfl⟩
    · exact ⟨rfl, packetSize env s.link, by simp⟩
    · exact ⟨rfl, (requestIn env s.link).paramSize, by simp⟩
  · intro s'' hret
    cases Outcome.ret.inj hret
    -- the block of the parameter is apart from all that were in use before
    have hfresh : s.link.heap.live.filter (·.1 ≠ env.place (arrived env s.link).heap.count) =
        s.link.heap.live := by
      apply List.filter_eq_self.mpr
      intro b hb
      have hb' : b ∈ (arrived env s.link).heap.live := List.mem_cons_of_mem _ hb
      exact decide_eq_true (hparam.ne (hsized b hb) hb').symm
    rw [hlast]
    show List.filter _ l'.heap.live = _
    rw [hlive, List.filter_cons_of_neg (by simp)]
    exact hfresh

/-- A turn of such a command frees the packet and its parameter, and keeps nothing. -/
theorem turn_owns (hsized : SizedBlocks s.link.heap) (h : Balances env s.link) :
    OwnsMemory s (turn env fuel s) := by
  obtain ⟨hsize, hgoes⟩ := h
  by_cases hget : DbgHeap.Obtains env s.link.heap (packetSize env s.link)
  · have hgoes := hgoes hget
    by_cases hzero : (requestIn env s.link).paramSize = 0
    · exact turn_owns_none hsized hget hgoes hzero
    by_cases hparam : DbgHeap.Obtains env (arrived env s.link).heap
        (requestIn env s.link).paramSize
    · exact turn_owns_some hsized hget hgoes hparam
    · unfold turn
      rw [recvRequest_arrives hget, takeParam_panics hparam hzero hgoes.2]
      constructor
      · intro p inUse he
        have he : DbgEvent.free p inUse ∈ [DbgEvent.alloc (contentAt env s.link) _, .read _ _,
          .read _ _] := he
        simp at he
      · exact nofun
  · unfold turn
    rcases recvRequest_fails _ hsize hget with heq | heq
    · rw [heq]
      refine ⟨fun _ _ he => absurd he List.not_mem_nil, fun s' hret => ?_⟩
      cases Outcome.ret.inj hret
      rfl
    · rw [heq]
      exact ⟨fun _ _ he => absurd he List.not_mem_nil, nofun⟩

/-! ## Runs -/

/-- Each turn owns its memory, and after each operation the blocks in use are those from before. -/
structure OwnsThroughout (s : LtDbg) (ops : List DbgOp) : Prop where
  turns : ∀ pre env fuel s', pre ++ [.packet env fuel] <+: ops → Run DbgStep s pre s' →
    s'.running = false → OwnsMemory s' (s'.turn env fuel)
  live : ∀ pre s', pre <+: ops → Run DbgStep s pre s' → s'.link.heap.live = s.link.heap.live

theorem live_of_run {ops pre : List DbgOp} (hsized : SizedBlocks s.link.heap)
    (hgoes : ∀ pre env fuel s', pre ++ [.packet env fuel] <+: ops → Run DbgStep s pre s' →
      s'.running = false → Balances env s'.link) (hrun : Run DbgStep s pre s')
    (hpre : pre <+: ops) : s'.link.heap.live = s.link.heap.live := by
  induction hrun with
  | nil => rfl
  | snoc hbefore hstep ih =>
    have hlive := ih ((List.prefix_append _ _).trans hpre)
    cases hstep with
    | @packet _ env fuel hrunning hret =>
      have hbalances := hgoes _ env fuel _ hpre hbefore hrunning
      have howns : OwnsMemory _ (turn env fuel _) :=
        turn_owns (fun b hb => hsized b (hlive ▸ hb)) hbalances
      exact (howns.live _ hret).trans hlive
    | call _ _ hlink =>
      rw [hlink]
      exact hlive

/-- In a run of packets whose commands let the kernel go on, the debugger owns its memory. -/
theorem ownsThroughout {ops : List DbgOp} (hsized : SizedBlocks s.link.heap)
    (hgoes : ∀ pre env fuel s', pre ++ [.packet env fuel] <+: ops → Run DbgStep s pre s' →
      s'.running = false → Balances env s'.link) : OwnsThroughout s ops := by
  constructor
  · intro pre env fuel s' hpre hrun hrunning
    have hlive := live_of_run hsized hgoes hrun ((List.prefix_append _ _).trans hpre)
    apply turn_owns
    · intro b hb
      exact hsized b (hlive ▸ hb)
    · exact hgoes pre env fuel s' hpre hrun hrunning
  · intro pre s' hpre hrun
    exact live_of_run hsized hgoes hrun hpre

/-- A step with a parameter of one byte. -/
def stepPeer : DbgEnv := peer [9, 0, 0, 0, 1, 0, 0, 0, 1, 0, 0, 0, 7]

/-- The step, and then the bytes of `CMD_CONTINUE` for the next call. -/
def continuePeer : DbgEnv :=
  peer [9, 0, 0, 0, 1, 0, 0, 0, 1, 0, 0, 0, 7, 8, 0, 0, 0, 2, 0, 0, 0, 0, 0, 0, 0]

theorem stepThenContinue_owns :
    OwnsThroughout started [.packet stepPeer 1, .call, .packet continuePeer 1] := by
  apply ownsThroughout
  · exact fun b hb => absurd hb List.not_mem_nil
  rintro pre env fuel s' ⟨rest, hpre⟩ hrun -
  match pre with
  | [] =>
    cases (List.cons.inj hpre).1
    obtain rfl := hrun.of_nil
    exact ⟨by decide, fun _ => ⟨.inl (by decide), by decide⟩⟩
  | [op] => cases (List.cons.inj (List.cons.inj hpre).2).1
  | [op, op'] =>
    obtain ⟨hfirst, hrest⟩ := List.cons.inj hpre
    obtain ⟨hsecond, hlast⟩ := List.cons.inj hrest
    cases hfirst
    cases hsecond
    cases (List.cons.inj hlast).1
    obtain ⟨s₁, hstep, hcall⟩ := hrun.of_cons
    obtain ⟨s₂, hstep', hnil⟩ := hcall.of_cons
    obtain rfl := hnil.of_nil
    obtain ⟨-, hturn⟩ := hstep
    cases hstep' with
    | call _ _ hlink =>
      rw [hlink]
      cases Outcome.ret.inj hturn
      exact ⟨by decide, fun _ => ⟨.inr (.inl (by decide)), by decide⟩⟩
  | _ :: _ :: _ :: _ => simp at hpre

/-- The answer to `CMD_REGISTERS` leaves its buffer behind. -/
theorem registers_not_owned :
    ¬OwnsThroughout started [.packet (peer [8, 0, 0, 0, 4, 0, 0, 0, 0, 0, 0, 0]) 1] := by
  intro howns
  obtain ⟨s', hturn, hlive⟩ : ∃ s' : LtDbg,
      (started.turn (peer [8, 0, 0, 0, 4, 0, 0, 0, 0, 0, 0, 0]) 1).outcome = .ret s' ∧
        s'.link.heap.live = [(0x1001004, 600)] := ⟨_, rfl, rfl⟩
  have hsame := howns.live _ s' (List.prefix_refl _) (.single (.packet rfl hturn))
  rw [hlive] at hsame
  cases hsame

end LtDbg

end LtMicros
