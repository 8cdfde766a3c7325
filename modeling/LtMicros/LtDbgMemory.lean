import LtMicros.LtDbg

/-!
# Dumping memory

`MemoryCommand` looks whether the first and the last address of the range are mapped. It copies all
of the range then, whatever lies between them.
-/

namespace LtMicros

open Lib Lib.Frames

namespace LtDbg

variable {env : DbgEnv} {s s' : LtDbg}

/-- The memory of the process that has been stopped. -/
def stopped (s : LtDbg) : Mmu := s.mmu.setCurrentPageDirectory s.context.cr3

/-- The page of an address is present in its page directory. -/
def Present (s : LtDbg) (v : U32) : Prop := (s.stopped.translate v).isSome = true

instance (s : LtDbg) (v : U32) : Decidable (s.Present v) := inferInstanceAs (Decidable (_ = _))

/-- The range that the parameter of the request asks for. -/
def dumpSize (s : LtDbg) : ℕ := s.link.heap.mem.load32 (s.request.param.getD 0)

def dumpAddr (s : LtDbg) : U32 :=
  BitVec.ofNat 32 (s.link.heap.mem.load32 (s.request.param.getD 0 + 4))

/-- Some page of the range is absent. -/
def HasHole (s : LtDbg) : Prop := ∃ i < s.dumpSize, ¬s.Present (s.dumpAddr + BitVec.ofNat 32 i)

/-- Only present pages are copied, ranges with absent pages are unavailable, and the page directory
is the one from before. -/
structure DumpsPresent (s : LtDbg) (x : Traced DbgEvent LtDbg) : Prop where
  copies : ∀ v, .copied v ∈ x.trace → s.Present v
  unavailable : s.request.paramSize = memoryParamReqSize → s.HasHole →
    ∃ s', x.outcome = .ret s' ∧ s'.response.header.status = .dbgStatusMemoryUnavailable
  restores : ∀ s', x.outcome = .ret s' →
    s'.mmu.getCurrentPageDirectory = s.mmu.getCurrentPageDirectory

/-- What `IsVirtualAddressAvailable` answers for the first address, and then for the last one. -/
def probe (s : LtDbg) : Outcome Bool := do
  let first ← s.stopped.isVirtualAddressAvailable s.dumpAddr
  if first = false then return false
  else s.stopped.isVirtualAddressAvailable (s.dumpAddr + BitVec.ofNat 32 s.dumpSize - 1)

/-- There is no range, or one of its ends is absent, or all of it is present. -/
def EndsTell (s : LtDbg) : Prop :=
  s.request.paramSize ≠ memoryParamReqSize ∨ s.probe = .ret false ∨ ¬s.HasHole

/-! ## The ends of the range -/

/-- The words of the walk. -/
theorem translate_eq_slots (m : Mmu) (v : U32) :
    m.translate v =
      if flagOn (m.phys (slot m.directory (dirIndex v))) pagePresent then
        let pte := m.phys (slot (frameOf (m.phys (slot m.directory (dirIndex v)))) (tableIndex v))
        if flagOn pte pagePresent then some (frameOf pte + (v &&& 0xFFF#32)) else none
      else none := rfl

/-- In a page directory that maps itself, `IsVirtualAddressAvailable` answers whether the page is
present. -/
theorem isVirtualAddressAvailable_eq {m : Mmu} (hself : m.SelfMapped) (v : U32) :
    m.isVirtualAddressAvailable v = .ret (m.translate v).isSome := by
  rw [Mmu.isVirtualAddressAvailable, Mmu.read_pdeOf_self hself, Outcome.ret_bind,
    translate_eq_slots]
  cases hpde : flagOn (m.phys (slot m.directory (dirIndex v))) pagePresent with
  | false => rfl
  | true =>
    have htable : TableOf m.phys m.directory v (frameOf (m.phys (slot m.directory (dirIndex v)))) :=
      pointsTo_frameOf hpde
    have hread : m.read (pteOf v) = .ret (m.phys (slot (frameOf (m.phys (slot m.directory
        (dirIndex v)))) (tableIndex v))) := by
      rw [Mmu.read, Mmu.translate_pteOf_self hself htable]
      rfl
    rw [if_pos rfl, hread, if_pos rfl, Outcome.ret_bind]
    dsimp only
    split
    · rename_i hpte
      rw [hpte]
      rfl
    · rename_i hpte
      rw [Bool.not_eq_true] at hpte
      rw [hpte]
      rfl

/-- So the probes fail exactly when the first page or the last one is absent. -/
theorem probe_eq_false_iff (hself : s.stopped.SelfMapped) : s.probe = .ret false ↔
    ¬s.Present s.dumpAddr ∨ ¬s.Present (s.dumpAddr + BitVec.ofNat 32 s.dumpSize - 1) := by
  rw [probe, isVirtualAddressAvailable_eq hself, isVirtualAddressAvailable_eq hself,
    Outcome.ret_bind]
  unfold Present
  by_cases hfirst : (s.stopped.translate s.dumpAddr).isSome = false
  · rw [if_pos hfirst]
    exact iff_of_true rfl (.inl (Bool.not_eq_true _ ▸ hfirst))
  · rw [if_neg hfirst, Outcome.ret.injEq, Bool.not_eq_true, Bool.not_eq_true]
    exact ⟨.inr, fun h => h.resolve_left hfirst⟩

/-- For the page directories of the kernel, the ends of the range are present or absent. -/
theorem endsTell_iff (hself : s.stopped.SelfMapped) : s.EndsTell ↔
    s.request.paramSize ≠ memoryParamReqSize ∨ ¬s.Present s.dumpAddr ∨
      ¬s.Present (s.dumpAddr + BitVec.ofNat 32 s.dumpSize - 1) ∨ ¬s.HasHole := by
  rw [EndsTell, probe_eq_false_iff hself, or_assoc]

/-! ## The copy -/

/-- The addresses that are copied from. -/
theorem copyInto_only {m : Mmu} {mem : Bytes} {src : U32} {dst n : ℕ} :
    (m.copyInto mem src dst n).Only fun e => ∃ i < n, e = .copied (src + BitVec.ofNat 32 i) := by
  induction n generalizing mem src dst with
  | zero => exact Traced.only_pure
  | succ n ih =>
    rw [Mmu.copyInto]
    apply Traced.Only.bind
    · apply Traced.only_note
      exact ⟨0, Nat.succ_pos n, congrArg DbgEvent.copied (BitVec.add_zero src).symm⟩
    · intro _ _
      apply Traced.only_lift.bind
      intro byte _
      apply ih.mono
      -- the bytes behind the first one are one further
      rintro e ⟨i, hi, rfl⟩
      refine ⟨i + 1, Nat.succ_lt_succ hi, congrArg DbgEvent.copied ?_⟩
      rw [Nat.add_comm i 1, BitVec.ofNat_add, ← BitVec.add_assoc]
      rfl

/-! ## The command -/

/-- How the command leaves, when the response has no data. -/
def withoutData (s : LtDbg) (status : KeDebugStatus) : LtDbg :=
  { s with
    running := false
    response := ⟨{ s.response.header with
      command := cmdMemory, context := s.context, status, dataSize := 0 }, none⟩ }

theorem memoryCommand_wrong (hsize : s.request.paramSize ≠ memoryParamReqSize) :
    s.memoryCommand env = ⟨[.set .command, .set .dataSize, .set .status, .set .data],
      .ret (s.withoutData .dbgStatusWrongParameter)⟩ := by
  rw [memoryCommand]
  simp only [if_pos hsize]
  rfl

/-- Behind the probes. -/
def dump (env : DbgEnv) (s : LtDbg) : Traced DbgEvent LtDbg := do
  let s := { s with running := false }
  let response := setContext { s.response with
    header := { s.response.header with command := cmdMemory } } s.context
  match ← s.link.heap.heapAlloc env s.dumpSize with
  | (none, heap) => do
    let response ← setResult response .dbgStatusFailure 0 none
    return { (s.setHeap heap) with
      response, mmu := s.stopped.setCurrentPageDirectory s.mmu.getCurrentPageDirectory }
  | (some buffer, heap) => do
    let mem ← s.stopped.copyInto heap.mem s.dumpAddr buffer s.dumpSize
    let response ← setResult response .dbgStatusSuccess s.dumpSize (some buffer)
    return { (s.setHeap { heap with mem }) with
      response, mmu := s.stopped.setCurrentPageDirectory s.mmu.getCurrentPageDirectory }

/-- What follows the probes. -/
def probed (env : DbgEnv) (s : LtDbg) (available : Bool) : Traced DbgEvent LtDbg :=
  if available = false then
    ⟨[.set .dataSize, .set .status, .set .data],
      .ret (s.withoutData .dbgStatusMemoryUnavailable)⟩
  else s.dump env

theorem memoryCommand_eq (hsize : s.request.paramSize = memoryParamReqSize) :
    s.memoryCommand env = ⟨.set .command :: (Traced.lift s.probe >>= s.probed env).trace,
      (Traced.lift s.probe >>= s.probed env).outcome⟩ := by
  rw [memoryCommand, probe, Traced.lift_bind]
  simp only [if_neg (not_not.mpr hsize)]
  apply congrArg fun x : Traced DbgEvent LtDbg =>
    (⟨.set .command :: x.trace, x.outcome⟩ : Traced DbgEvent LtDbg)
  apply congrArg (Traced.lift (s.stopped.isVirtualAddressAvailable s.dumpAddr) >>= ·)
  funext first
  cases first with
  | false => rfl
  | true =>
    apply congrArg (Traced.lift (s.stopped.isVirtualAddressAvailable
      (s.dumpAddr + BitVec.ofNat 32 s.dumpSize - 1)) >>= ·)
    funext last
    cases last with
    | false => rfl
    | true => rfl

theorem setResult_only {response : KeDebugResponse} {status : KeDebugStatus} {n : ℕ}
    {data : Option ℕ} :
    (setResult response status n data).Only fun e => ∃ field, e = .set field := by
  apply Traced.Only.bind
  · exact (Traced.only_note ⟨_, rfl⟩).bind fun _ _ => Traced.only_pure
  · intro _ _
    apply Traced.Only.bind
    · exact (Traced.only_note ⟨_, rfl⟩).bind fun _ _ => Traced.only_pure
    · intro _ _
      exact (Traced.only_note ⟨_, rfl⟩).bind fun _ _ => Traced.only_pure

/-- If bytes are copied, then those of the range. -/
def FromRange (s : LtDbg) (e : DbgEvent) : Prop :=
  ∀ v, e = .copied v → ∃ i < s.dumpSize, v = s.dumpAddr + BitVec.ofNat 32 i

theorem fromRange_set {e : DbgEvent} (he : ∃ field, e = .set field) : s.FromRange e := by
  intro v hv
  obtain ⟨field, rfl⟩ := he
  cases hv

/-- Behind the probes, the range is all that is copied. -/
theorem dump_only : (s.dump env).Only s.FromRange := by
  unfold dump
  apply Traced.Only.bind
  · apply DbgHeap.heapAlloc_only.mono
    rintro e rfl v hv
    cases hv
  · rintro ⟨block, heap⟩ -
    cases block with
    | none => exact (setResult_only.mono fun _ => fromRange_set).bind fun _ _ => Traced.only_pure
    | some buffer =>
      apply Traced.Only.bind
      · apply copyInto_only.mono
        rintro e ⟨i, hi, rfl⟩ v hv
        exact ⟨i, hi, (DbgEvent.copied.inj hv).symm⟩
      · intro mem _
        exact (setResult_only.mono fun _ => fromRange_set).bind fun _ _ => Traced.only_pure

/-- Whatever becomes of the copy, the answer is not that the range is unavailable. -/
theorem dump_ret (h : (s.dump env).outcome = .ret s') :
    s'.mmu = s.mmu ∧ s'.response.header.status ≠ .dbgStatusMemoryUnavailable := by
  obtain ⟨⟨block, heap⟩, -, hrest⟩ := Traced.bind_outcome_eq_ret.mp h
  cases block with
  | none =>
    cases Outcome.ret.inj hrest
    exact ⟨rfl, nofun⟩
  | some buffer =>
    obtain ⟨mem, -, hlast⟩ := Traced.bind_outcome_eq_ret.mp hrest
    cases Outcome.ret.inj hlast
    exact ⟨rfl, nofun⟩

theorem memoryCommand_copied {v : U32} (h : DbgEvent.copied v ∈ (s.memoryCommand env).trace) :
    s.request.paramSize = memoryParamReqSize ∧ s.probe = .ret true ∧
      ∃ i < s.dumpSize, v = s.dumpAddr + BitVec.ofNat 32 i := by
  by_cases hsize : s.request.paramSize = memoryParamReqSize
  · rw [memoryCommand_eq hsize] at h
    rcases Traced.mem_bind.mp ((List.mem_cons.mp h).resolve_left nofun) with hlift | ⟨ok, hok, hrest⟩
    · exact absurd hlift Traced.not_mem_lift
    · cases ok with
      | false =>
        have hset : DbgEvent.copied v ∈
            [DbgEvent.set .dataSize, .set .status, .set .data] := hrest
        simp at hset
      | true => exact ⟨hsize, hok, dump_only.mem _ hrest v rfl⟩
  · rw [memoryCommand_wrong hsize] at h
    simp at h

/-- How the command returns. -/
theorem memoryCommand_ret (h : (s.memoryCommand env).outcome = .ret s') : s'.mmu = s.mmu ∧
    (s.request.paramSize = memoryParamReqSize →
      s'.response.header.status = .dbgStatusMemoryUnavailable → s.probe = .ret false) := by
  by_cases hsize : s.request.paramSize = memoryParamReqSize
  · rw [memoryCommand_eq hsize] at h
    obtain ⟨ok, hok, hrest⟩ := Traced.bind_outcome_eq_ret.mp h
    cases ok with
    | false =>
      cases Outcome.ret.inj hrest
      exact ⟨rfl, fun _ _ => hok⟩
    | true =>
      obtain ⟨hmmu, hstatus⟩ := dump_ret hrest
      exact ⟨hmmu, fun _ hunavailable => absurd hunavailable hstatus⟩
  · rw [memoryCommand_wrong hsize] at h
    cases Outcome.ret.inj h
    exact ⟨rfl, fun heq => absurd heq hsize⟩

/-- Only then are ranges with absent pages unavailable. -/
theorem DumpsPresent.endsTell (h : s.DumpsPresent (s.memoryCommand env)) : s.EndsTell := by
  by_cases hsize : s.request.paramSize = memoryParamReqSize
  · by_cases hhole : s.HasHole
    · obtain ⟨s', hret, hstatus⟩ := h.unavailable hsize hhole
      exact .inr (.inl ((memoryCommand_ret hret).2 hsize hstatus))
    · exact .inr (.inr hhole)
  · exact .inl hsize

/-- The command keeps to present pages, and says that the others are unavailable, exactly when the
ends of the range tell. -/
theorem dumpsPresent_iff (env : DbgEnv) (s : LtDbg) :
    s.DumpsPresent (s.memoryCommand env) ↔ s.EndsTell := by
  constructor
  · exact DumpsPresent.endsTell
  · intro h
    constructor
    · intro v hv
      obtain ⟨hsize, hprobe, i, hi, heq⟩ := memoryCommand_copied hv
      -- what is copied has no holes, as the probes have not failed
      have hwhole : ¬s.HasHole := by
        apply (h.resolve_left (not_not.mpr hsize)).resolve_left
        rw [hprobe]
        exact nofun
      rw [heq]
      by_contra habsent
      exact hwhole ⟨i, hi, habsent⟩
    · intro hsize hhole
      have hprobe : s.probe = .ret false :=
        (h.resolve_left (not_not.mpr hsize)).resolve_right (not_not.mpr hhole)
      refine ⟨s.withoutData .dbgStatusMemoryUnavailable, ?_, rfl⟩
      rw [memoryCommand_eq hsize, hprobe]
      rfl
    · intro s' hret
      rw [(memoryCommand_ret hret).1]

/-- A page directory that maps itself, with one table, in which the page between two others is
absent. -/
def holePages (a : U32) : U32 :=
  if a = 0x1FFC then 0x1001 else if a = 0x1000 then 0x2001 else if a = 0x2000 then 0x5001
  else if a = 0x2008 then 0x6001 else 0

/-- All of the three pages are asked for. -/
def holeRequest : LtDbg where
  link := ⟨⟨fun a => if a = 0x1000005 then 0x30 else 0, [(0x1000004, 8)], 1⟩, 0⟩
  mmu := ⟨holePages, 0x1000⟩
  context := ⟨0x1000, 0, 0, 0⟩
  request := ⟨cmdMemory, 8, some 0x1000004⟩
  response := ⟨⟨cmdConnect, .dbgStatusSuccess, ⟨0x1000, 0, 0, 0⟩, [], 0⟩, none⟩
  running := false

/-- The ends are present. -/
theorem not_dumpsPresent_hole :
    ¬holeRequest.DumpsPresent (holeRequest.memoryCommand (LtDbgCom.peer [])) := by
  intro hdumps
  have hself : holeRequest.stopped.SelfMapped := ⟨by decide, by decide⟩
  rcases (endsTell_iff hself).mp hdumps.endsTell with h | h | h | h
  · exact h rfl
  · exact h (by decide)
  · exact h (by decide)
  · exact h ⟨0x1000, by decide, by decide⟩

end LtDbg

end LtMicros
