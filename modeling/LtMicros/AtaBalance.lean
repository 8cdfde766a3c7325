import LtMicros.AtaExact
import LtMicros.Lib.Run

/-!
# What a disk read leaves behind

`AtaRead` turns the interrupts off once it has a buffer of its own, and on again when it has given
the buffer back. When a sector cannot be read it returns from between the two.
-/

namespace LtMicros

open Lib

/-- A call of `AtaRead`, with what the disk answers to it. -/
structure AtaCall where
  dev : AtaDevice
  buf : ℕ
  offset : ℕ
  size : ℕ

namespace AtaProcess

variable {fuel start : ℕ} {s s' s₁ s₂ : AtaProcess} {call : AtaCall} {calls : List AtaCall}
  {dev : AtaDevice} {buf offset size : ℕ}

/-- The call comes back. -/
def Reads (fuel : ℕ) (s : AtaProcess) (call : AtaCall) (s' : AtaProcess) : Prop :=
  ∃ rc, (s.ataRead fuel call.dev call.buf call.offset call.size).outcome = .ret (rc, s')

/-- The call is for a buffer of the program, of at least the size asked for. -/
def Targets (w : UserProgram) (call : AtaCall) : Prop :=
  call.offset < 2 ^ 32 ∧ ∃ n, (call.buf, n) ∈ w.live ∧ call.size ≤ n

/-- The interrupts are on again, and the program has the buffers that it had. -/
def LeavesUsable (s s' : AtaProcess) : Prop :=
  s'.interrupts = true ∧ s'.program.live = s.program.live

/-- Every call of the sequence leaves the process so. -/
def UsableThroughout (fuel : ℕ) (s : AtaProcess) (calls : List AtaCall) : Prop :=
  ∀ pre call s₁ s₂, pre ++ [call] <+: calls → Run (Reads fuel) s pre s₁ → Reads fuel s₁ call s₂ →
    LeavesUsable s₁ s₂

/-- To the memory of the program this is the `AtaRead` without interrupts. -/
theorem ataRead_program {rc : ℤ} (h : (s.ataRead fuel dev buf offset size).outcome = .ret (rc, s')) :
    (s.program.ataRead fuel dev buf offset size).outcome = .ret (rc, s'.program) := by
  rw [ataRead] at h
  rw [UserProgram.ataRead_def]
  obtain ⟨⟨buffer, w₁⟩, halloc, h⟩ := Traced.bind_outcome_eq_ret.mp h
  apply Traced.bind_outcome_eq_ret.mpr
  refine ⟨⟨buffer, w₁⟩, halloc, ?_⟩
  cases buffer with
  | none =>
    cases h
    rfl
  | some buffer =>
    obtain ⟨⟨rc₂, w₂⟩, hloop, h⟩ := Traced.bind_outcome_eq_ret.mp h
    apply Traced.bind_outcome_eq_ret.mpr
    refine ⟨⟨rc₂, w₂⟩, hloop, ?_⟩
    dsimp only at h ⊢
    split at h
    · rename_i hfailed
      rw [if_pos hfailed]
      cases h
      rfl
    · rename_i hread
      rw [if_neg hread]
      obtain ⟨w₃, hcopy, h⟩ := Traced.bind_outcome_eq_ret.mp h
      obtain ⟨w₄, hfree, h⟩ := Traced.bind_outcome_eq_ret.mp h
      cases h
      apply Traced.bind_outcome_eq_ret.mpr
      exact ⟨w₃, hcopy, Traced.bind_outcome_eq_ret.mpr ⟨w₄, hfree, rfl⟩⟩

/-! ## One call -/

variable {c : Traced.Contract Access} {k n p : ℕ}

/-- What a call does to the process `s`: it ends with the interrupts off when a sector cannot be
read, and with the buffers of the program as they were when all of them can. -/
structure Ends (c : Traced.Contract Access) (start k p n : ℕ) (served : Prop)
    (s s' : AtaProcess) : Prop where
  evolves : UserProgram.Evolves c start k [p] s.program s'.program
  target : (p, n) ∈ s'.program.live
  fails : ¬served → s'.interrupts = false
  succeeds : served → s'.program.live = s.program.live ∧
    (s'.interrupts = true ∨ s'.interrupts = s.interrupts)

/-- The buffer that has been given back last is the one that had been got last. -/
theorem filter_cons_fresh {live : List (ℕ × ℕ)} {a : ℕ × ℕ} (hfresh : ∀ b ∈ live, b.1 ≠ a.1) :
    (a :: live).filter (·.1 ≠ a.1) = live := by
  rw [List.filter_cons_of_neg (by simp)]
  apply List.filter_eq_self.mpr
  intro b hb
  exact decide_eq_true (hfresh b hb)

theorem heapAlloc_live {w w' : UserProgram} {a : ℤ} {q : ℕ}
    (h : (w.heapAlloc fuel a).outcome = .ret (some q, w')) : w'.live = (q, a.toNat) :: w.live := by
  rw [UserProgram.heapAlloc] at h
  split at h
  · cases h
    rfl
  all_goals cases h

theorem heapFree_live {w w' : UserProgram} (h : (w.heapFree p).outcome = .ret w') :
    w'.live = w.live.filter (·.1 ≠ p) := by
  rw [UserProgram.heapFree] at h
  obtain ⟨h', -, hret⟩ := Traced.bind_outcome_eq_ret.mp h
  cases hret
  rfl

/-- `AtaRead` from its loop on. -/
theorem ataRead_buffered {w₁ : UserProgram} {buffer : ℕ} (hmem : (p, n) ∈ s.program.live)
    (hev₁ : UserProgram.Evolves c start k [] s.program w₁)
    (hlive₁ : w₁.live = (buffer, UserProgram.sectors offset size * ataBlockSize) :: s.program.live)
    (hfresh : ∀ a ∈ s.program.live, a.1 ≠ buffer)
    (hzero : ∀ i < UserProgram.sectors offset size * ataBlockSize, w₁.h.mem (buffer + i) = 0)
    (hle : size ≤ n) (hoffset : offset < 2 ^ 32) (hok : UserProgram.AllowsInside c)
    (hsmall : UserProgram.sectors offset size * ataBlockSize < 2 ^ 31) (hfuel : 2 ^ 32 ≤ fuel) :
    Traced.Meets c (do
      let (rc, w) ← Traced.loop (UserProgram.ataReadTurn dev
        ((UserProgram.sectors offset size : ℤ) - (if offset + size < 2 ^ 32 then 0 else 2 ^ 23))
        (offset / ataBlockSize)) fuel (0, buffer, w₁)
      let s := { disableIrq { s with program := w₁ } with program := w }
      if rc = -eio then return (-eio, s)
      else do
        let w ← s.program.memCopy (buffer + offset % ataBlockSize) p size
        let w ← w.heapFree buffer
        return (int32 size, enableIrq { s with program := w }))
      fun r => Ends c start k p n (UserProgram.Served dev offset size) s r.2 := by
  have hpne : p ≠ buffer := hfresh _ hmem
  have hbuffer : (buffer, UserProgram.sectors offset size * ataBlockSize) ∈ w₁.live :=
    hlive₁ ▸ List.mem_cons_self
  have hmem₁ : (p, n) ∈ w₁.live := hlive₁ ▸ List.mem_cons_of_mem _ hmem
  apply (UserProgram.loop_meets hev₁.owns hoffset hbuffer hok hsmall hev₁.room hfuel hzero).bind
  rintro ⟨rc, w₂⟩ (⟨rfl, hfailed, hev₂⟩ | ⟨rfl, hdone⟩)
  · -- a sector could not be read
    dsimp only
    rw [if_pos rfl]
    apply Traced.Meets.pure
    constructor
    · exact (hev₁.trans hev₂).weaken (by simpa using Or.inr hfresh)
    · exact (hev₂.rest _ hmem₁ (by simpa using hpne)).1
    · exact fun _ => rfl
    · exact fun hserved => absurd hserved hfailed
  · dsimp only
    rw [if_neg (by decide)]
    have hserved : UserProgram.Served dev offset size := fun hwrap _ => hdone.readable hwrap
    have hcover := UserProgram.sectors_cover offset size
    have hmem₂ : (p, n) ∈ w₂.live := hdone.live ▸ hmem₁
    have hbuffer₂ := hdone.live ▸ hbuffer
    have hin : UserProgram.Inside w₂.live p size := ⟨(p, n), hmem₂, le_rfl, by dsimp only; omega⟩
    apply (UserProgram.memCopy_meets hdone.evolves.owns hmem₂ hbuffer₂ hpne.symm le_rfl (by omega)
      (Nat.le_add_right _ _) (by omega) (hok _ _ _ hin) hdone.evolves.room).bind
    rintro w₃ ⟨hev₃, hlive₃, -⟩
    have hbuffer₃ := hlive₃.symm ▸ hbuffer₂
    apply (UserProgram.heapFree_meets hev₃.owns hbuffer₃ hev₃.room).outcome.bind
    rintro w₄ ⟨hev₄, hfreed⟩
    -- the free of the buffer undoes its allocation
    have hlive₄ : w₄.live = s.program.live := by
      rw [heapFree_live hfreed, hlive₃, hdone.live, hlive₁]
      exact filter_cons_fresh hfresh
    apply Traced.Meets.pure
    constructor
    · refine ((hev₁.trans hdone.evolves).trans (hev₃.trans hev₄)).weaken ?_
      intro q hq
      simp only [List.nil_append, List.cons_append, List.mem_cons, List.not_mem_nil,
        or_false] at hq
      rcases hq with rfl | rfl | rfl
      · exact .inr hfresh
      · exact .inl (List.mem_singleton.mpr rfl)
      · exact .inr hfresh
    · exact hlive₄ ▸ hmem
    · exact fun h => absurd hserved h
    · exact fun _ => ⟨hlive₄, .inl rfl⟩

theorem ataRead_ends (hw : UserProgram.Owns start s.program) (hmem : (p, n) ∈ s.program.live)
    (hle : size ≤ n) (hoffset : offset < 2 ^ 32) (hok : UserProgram.AllowsInside c)
    (hfuel : 2 ^ 32 ≤ fuel) (hroom : UserProgram.Room c s.program (UserHeap.growth (size + 1023) + k)) :
    Traced.Meets c (s.ataRead fuel dev p offset size) fun r =>
      Ends c start k p n (UserProgram.Served dev offset size) s r.2 := by
  have hsize : size < 2 ^ 31 := Nat.lt_of_le_of_lt hle (hw.size_lt hmem)
  rw [ataRead]
  dsimp only
  rw [UserProgram.nbBlocks_eq hoffset hsize]
  rcases Nat.lt_or_ge (UserProgram.sectors offset size * ataBlockSize) (2 ^ 31) with hsmall | hlarge
  · rw [UserProgram.bufferSize_eq hsmall]
    have hpos : 0 < UserProgram.sectors offset size := Nat.succ_pos _
    have hgrowth := UserProgram.growth_sectors offset size
    apply (UserProgram.heapAlloc_meets (n := k) hw (by unfold ataBlockSize; omega) (by omega) hfuel
      (hroom.mono (by rw [Int.toNat_natCast]; omega) (by rw [Int.toNat_natCast]; omega))).outcome.bind
    rintro ⟨_, w₁⟩ ⟨⟨buffer, rfl, hev₁, -, hfresh, hzero⟩, hret⟩
    have hlive₁ := heapAlloc_live hret
    rw [Int.toNat_natCast] at hlive₁ hzero
    exact ataRead_buffered hmem hev₁ hlive₁ hfresh hzero hle hoffset hok hsmall hfuel
  · -- no buffer can be that large, and nothing is read
    rw [UserProgram.heapAlloc_null (UserProgram.bufferSize_neg hsize hlarge)]
    apply Traced.Meets.pure
    constructor
    · exact .refl hw (hroom.mono (by omega) (by omega)) _
    · exact hmem
    · exact fun h => absurd (fun _ h => absurd h (Nat.not_lt.mpr hlarge)) h
    · exact fun _ => ⟨rfl, .inr rfl⟩

/-! ## Sequences of calls -/

/-- What is known of the process during a sequence of calls that began in `s`. -/
structure During (start : ℕ) (s s' : AtaProcess) : Prop where
  owns : UserProgram.Owns start s'.program
  keeps : ∀ a ∈ s.program.live, a ∈ s'.program.live

theorem During.reads (h : During start s s₁) (htarget : Targets s.program call) (hfuel : 2 ^ 32 ≤ fuel)
    (hread : Reads fuel s₁ call s₂) :
    During start s s₂ ∧
    (¬UserProgram.Served call.dev call.offset call.size → s₂.interrupts = false) ∧
    (UserProgram.Served call.dev call.offset call.size → s₂.program.live = s₁.program.live ∧
      (s₂.interrupts = true ∨ s₂.interrupts = s₁.interrupts)) := by
  obtain ⟨hoffset, n, hmem, hle⟩ := htarget
  obtain ⟨rc, hret⟩ := hread
  let c : Traced.Contract Access := ⟨fun _ => True, fun e => e = .exhausted⟩
  have hends := (ataRead_ends (c := c) (k := 0) h.owns (h.keeps _ hmem) hle hoffset
    (fun _ _ _ _ => trivial) hfuel (.inl rfl)).ret _ hret
  refine ⟨⟨hends.evolves.owns, fun a ha => ?_⟩, hends.fails, hends.succeeds⟩
  by_cases hap : a.1 = call.buf
  · have hsame : a = (call.buf, n) :=
      List.inj_on_of_nodup_map h.owns.nodup (h.keeps _ ha) (h.keeps _ hmem) hap
    exact hsame ▸ hends.target
  · exact (hends.evolves.rest a (h.keeps a ha) (by simpa using hap)).1

theorem During.run (h : During start s s₁) (htargets : ∀ call ∈ calls, Targets s.program call)
    (hfuel : 2 ^ 32 ≤ fuel) (hrun : Run (Reads fuel) s₁ calls s₂) : During start s s₂ := by
  induction hrun with
  | nil => exact h
  | snoc _ hlast ih =>
    have hbefore := ih fun call hmem => htargets call (List.mem_append_left _ hmem)
    exact (hbefore.reads (htargets _ (List.mem_append_right _ (List.mem_singleton_self _))) hfuel
      hlast).1

/-- As long as all sectors can be read the interrupts stay on. -/
theorem interrupts_of_served (hw : UserProgram.Owns start s.program) (hon : s.interrupts = true)
    (htargets : ∀ call ∈ calls, Targets s.program call) (hfuel : 2 ^ 32 ≤ fuel)
    (hserved : ∀ call ∈ calls, UserProgram.Served call.dev call.offset call.size)
    (hrun : Run (Reads fuel) s calls s') : s'.interrupts = true := by
  have hnew : During start s s := ⟨hw, fun _ => id⟩
  induction hrun with
  | nil => exact hon
  | @snoc s₁ s₂ pre call hpre hlast ih =>
    have hcall : call ∈ pre ++ [call] := List.mem_append_right _ (List.mem_singleton_self _)
    have hbefore := fun a (ha : a ∈ pre) => htargets a (List.mem_append_left _ ha)
    have hstep := (hnew.run hbefore hfuel hpre).reads (htargets _ hcall) hfuel hlast
    rcases (hstep.2.2 (hserved _ hcall)).2 with hon' | hsame
    · exact hon'
    · rw [hsame]
      exact ih hbefore fun a ha => hserved a (List.mem_append_left _ ha)

/-- A sequence of disk reads leaves the process usable after every call exactly when none of its
calls comes to a sector that cannot be read. -/
theorem usableThroughout_iff (hw : UserProgram.Owns start s.program) (hon : s.interrupts = true)
    (htargets : ∀ call ∈ calls, Targets s.program call) (hfuel : 2 ^ 32 ≤ fuel)
    (hrun : Run (Reads fuel) s calls s') :
    UsableThroughout fuel s calls ↔
      ∀ call ∈ calls, UserProgram.Served call.dev call.offset call.size := by
  have hnew : During start s s := ⟨hw, fun _ => id⟩
  constructor
  · intro husable call hcall
    obtain ⟨pre, post, rfl⟩ := List.append_of_mem hcall
    obtain ⟨s₁, hpre, hrest⟩ := hrun.of_append
    obtain ⟨s₂, hread, -⟩ := hrest.of_cons
    have hbefore := fun a (ha : a ∈ pre) => htargets a (List.mem_append_left _ ha)
    have hinit : pre ++ [call] <+: pre ++ call :: post := ⟨post, by simp⟩
    by_contra hfailed
    have hoff := ((hnew.run hbefore hfuel hpre).reads (htargets _ hcall) hfuel hread).2.1 hfailed
    have hback := (husable pre call s₁ s₂ hinit hpre hread).1
    rw [hoff] at hback
    cases hback
  · intro hserved pre call s₁ s₂ hinit hpre hread
    have hcall : call ∈ calls :=
      hinit.subset (List.mem_append_right _ (List.mem_singleton_self _))
    have hsub : ∀ a ∈ pre, a ∈ calls := fun a ha => hinit.subset (List.mem_append_left _ ha)
    have hbefore := fun a (ha : a ∈ pre) => htargets a (hsub a ha)
    have hstep := (hnew.run hbefore hfuel hpre).reads (htargets _ hcall) hfuel hread
    obtain ⟨hlive, hon'⟩ := hstep.2.2 (hserved _ hcall)
    have hon₁ := interrupts_of_served hw hon hbefore hfuel (fun a ha => hserved a (hsub a ha)) hpre
    exact ⟨hon'.elim id fun hsame => hsame.trans hon₁, hlive⟩

/-- A program with memory left, that nothing stops. -/
def unstopped : Traced.Contract Access := ⟨fun _ => True, fun _ => False⟩

theorem unstopped_reads (dev : AtaDevice) (hw : UserProgram.Owns start s.program)
    (hmem : (p, 512) ∈ s.program.live) (hfuel : 2 ^ 32 ≤ fuel)
    (hroom : UserProgram.Room unstopped s.program (UserHeap.growth (512 + 1023) + k)) :
    ∃ s', Reads fuel s ⟨dev, p, 0, 512⟩ s' ∧
      Ends unstopped start k p 512 (UserProgram.Served dev 0 512) s s' := by
  have hmeets : Traced.Meets unstopped (s.ataRead fuel dev p 0 512) _ :=
    ataRead_ends hw hmem le_rfl (by decide) (fun _ _ _ _ => trivial) hfuel hroom
  obtain ⟨⟨rc, s'⟩, hret, hends⟩ := hmeets.returns fun _ => id
  exact ⟨s', ⟨rc, hret⟩, hends⟩

/-- A program that has a buffer for one sector, with the interrupts on. -/
theorem newProcess_buffer : ∃ (s : AtaProcess) (p : ℕ),
    UserProgram.Owns 0x40002000 s.program ∧ s.interrupts = true ∧
    (p, 512) ∈ s.program.live ∧ UserProgram.Room unstopped s.program (2 ^ 16) := by
  have hroom : UserProgram.Room unstopped UserProgram.newProgram
      (UserHeap.growth (512 : ℤ).toNat + 2 ^ 16) := .inr (by decide)
  obtain ⟨⟨_, w⟩, -, p, rfl, hev, hmem, -⟩ := (UserProgram.heapAlloc_meets
    UserProgram.newProgram_owns (by decide) (by decide) le_rfl hroom).returns fun _ => id
  exact ⟨⟨w, true⟩, p, hev.owns, rfl, hmem, hev.room⟩

/-- Two reads from a good disk. -/
theorem goodDisk_usableThroughout : ∃ (s : AtaProcess) (p : ℕ) (s' : AtaProcess)
    (calls : List AtaCall), calls.length = 2 ∧ (p, 512) ∈ s.program.live ∧
    Run (Reads (2 ^ 32)) s calls s' ∧ UsableThroughout (2 ^ 32) s calls := by
  obtain ⟨s, p, hw, hon, hmem, hroom⟩ := newProcess_buffer
  let dev := AtaDevice.ofBytes fun _ => 7
  have hserved : UserProgram.Served dev 0 512 := UserProgram.served_ofBytes _ _ _
  obtain ⟨s₁, hfirst, hends₁⟩ := unstopped_reads dev (k := 2 ^ 15) hw hmem le_rfl
    (hroom.mono (Nat.add_le_add_left (by decide) _) (by decide))
  obtain ⟨s₂, hsecond, -⟩ := unstopped_reads dev (k := 0) hends₁.evolves.owns
    hends₁.target le_rfl (hends₁.evolves.room.mono (Nat.add_le_add_left (by decide) _) (by decide))
  have hrun : Run (Reads (2 ^ 32)) s [⟨dev, p, 0, 512⟩, ⟨dev, p, 0, 512⟩] s₂ :=
    .cons hfirst (.single hsecond)
  refine ⟨s, p, s₂, _, rfl, hmem, hrun, (usableThroughout_iff hw hon ?_ le_rfl hrun).mpr ?_⟩
  · intro call hcall
    obtain rfl : call = ⟨dev, p, 0, 512⟩ := by simpa using hcall
    exact ⟨Nat.two_pow_pos 32, 512, hmem, le_rfl⟩
  · intro call hcall
    obtain rfl : call = ⟨dev, p, 0, 512⟩ := by simpa using hcall
    exact hserved

/-- A disk without a sector that can be read. -/
theorem badDisk_not_usable : ∃ (s : AtaProcess) (p : ℕ) (s' : AtaProcess),
    UserProgram.Owns 0x40002000 s.program ∧
    s.interrupts = true ∧ (p, 512) ∈ s.program.live ∧
    Reads (2 ^ 32) s ⟨⟨fun _ => none⟩, p, 0, 512⟩ s' ∧ ¬LeavesUsable s s' := by
  obtain ⟨s, p, hw, hon, hmem, hroom⟩ := newProcess_buffer
  obtain ⟨s', hread, hends⟩ := unstopped_reads ⟨fun _ => none⟩ (k := 0) hw hmem le_rfl
    (hroom.mono (Nat.add_le_add_left (by decide) _) (by decide))
  refine ⟨s, p, s', hw, hon, hmem, hread, fun husable => ?_⟩
  have hoff := hends.fails fun hserved => hserved (by decide) (by decide) 0 (by decide) rfl
  rw [husable.1] at hoff
  cases hoff

end AtaProcess

end LtMicros
