import LtMicros.Isr
import LtMicros.LazyPages
import LtMicros.ProcessHeap

/-!
# The life of a user thread

How a user thread is created, with which registers it runs first, and what of them stays through
all its interrupts. The block of a thread has the contents that were left in the heap.
-/

namespace LtMicros

open Lib

/-- `SecurityAttribute`. -/
inductive SecurityAttribute where
  | saNone
  | saIo
deriving DecidableEq

/-- `IntFlag` and `IoFlag` of `_InitUserThread`. -/
def intFlag : U32 := 0x200

def ioFlag : U32 := 0x3000

/-- What `CreateThread` writes besides what the scheduler uses. -/
structure NewThread where
  tid : U32
  neighbor : Option ℕ
  privilegeLevel : PrivilegeLevel
  thread : Thread

namespace Thread

/-- `Thread::_InitUserThread`, with the address that `PageAlloc` has given. -/
def initUserThread (thread : Thread) (kernelStackPage : U32) (securityAttribute : SecurityAttribute)
    (entryAddr : U32) : KeStatus × Thread :=
  if entryAddr = 0 then (.statusInvalidParameter, thread)
  else
    let regs : Regs := { thread.regs with
      ss := userDataSelectorWithRpl, cs := userCodeSelectorWithRpl
      ds := userDataSelectorWithRpl, es := userDataSelectorWithRpl
      fs := userDataSelectorWithRpl, gs := userDataSelectorWithRpl
      eax := 0, ecx := 0, edx := 0, edi := 0, esi := 0
      ebp := thread.regs.esp, eip := entryAddr
      eflags :=
        if securityAttribute = .saIo then intFlag ||| (ioFlag ||| ioFlag >>> 1) else intFlag }
    (.statusSuccess,
      { thread with regs, kstack := ⟨kernelStackPage + 4096 - 4, kernelDataSelector⟩ })

/-- `Thread::_InitKernelThread`. -/
def initKernelThread (thread : Thread) (kernelStackPage entryAddr : U32) : KeStatus × Thread :=
  let esp := kernelStackPage + 4096 - 4
  let regs : Regs := { thread.regs with
    ss := kernelDataSelector, cs := kernelCodeSelector
    ds := kernelDataSelector, es := kernelDataSelector
    fs := kernelDataSelector, gs := kernelDataSelector
    eax := 0, ecx := 0, edx := 0, edi := 0, esi := 0
    esp, ebp := esp, eip := entryAddr, eflags := 0x200 &&& 0xFFFFBFFF }
  (.statusSuccess, { thread with regs, kstack := ⟨0, kernelDataSelector⟩ })

/-- `Thread::CreateThread`, with the block that `HeapAlloc` gives and its contents, and the number
of the next thread. -/
def createThread (block : Option Thread) (kernelStackPage threadId entryAddr : U32)
    (process : Option Process) (privLevel : PrivilegeLevel)
    (securityAttribute : SecurityAttribute) : KeStatus × Option NewThread × U32 :=
  match process, block with
  | none, _ => (.statusNullParameter, none, threadId)
  | some _, none => (.statusAllocFailed, none, threadId)
  | some process, some localThread =>
    let (status, localThread) :=
      if privLevel = .kernel then localThread.initKernelThread kernelStackPage entryAddr
      else localThread.initUserThread kernelStackPage securityAttribute entryAddr
    if failed status then (status, none, threadId)
    else
      let thread := { localThread with state := .init, process, threadPriority := .normal }
      (.statusSuccess, some ⟨threadId, none, privLevel, thread⟩, threadId + 1)

/-- `ThreadManager::CreateUserThread`. -/
def createUserThread (block : Option Thread) (kernelStackPage threadId entryAddr : U32)
    (process : Option Process) (securityAttribute : SecurityAttribute) :
    KeStatus × Option NewThread × U32 :=
  if entryAddr = 0 then (.statusInvalidParameter, none, threadId)
  else createThread block kernelStackPage threadId entryAddr process .user securityAttribute

/-- `ThreadManager::CreateKernelThread`. -/
def createKernelThread (block : Option Thread) (kernelStackPage threadId entryAddr : U32)
    (process : Option Process) : KeStatus × Option NewThread × U32 :=
  createThread block kernelStackPage threadId entryAddr process .kernel .saNone

/-- `Thread::CreateDefaultStack`, with the address of its variable. -/
def createDefaultStack (fuel : ℕ) (this : Thread) (s : VadMem) (outAddress : U32) :
    Outcome (KeStatus × Thread × VadMem) := do
  let (status, vUserStack, s) ←
    this.process.allocateMemory fuel s userStackDefaultSize true outAddress
  if failed status then return (status, this, s)
  else
    let vUserStack ← .ofOption vUserStack
    let esp := vUserStack + userStackDefaultSize - 4
    return (.statusSuccess, { this with regs := { this.regs with esp } }, s)

/-- A new user thread is made from its block. -/
theorem createUserThread_eq {block : Option Thread} {page threadId threadId' entryAddr : U32}
    {process : Option Process} {securityAttribute : SecurityAttribute} {new : NewThread}
    (h : createUserThread block page threadId entryAddr process securityAttribute =
      (.statusSuccess, some new, threadId')) :
    ∃ residue p, block = some residue ∧ process = some p ∧ new.thread =
      { (residue.initUserThread page securityAttribute entryAddr).2 with
        state := .init, process := p, threadPriority := .normal } ∧ entryAddr ≠ 0 := by
  unfold createUserThread at h
  split at h
  · cases h
  next hentry =>
    cases process with
    | none => cases h
    | some p =>
      cases block with
      | none => cases h
      | some residue =>
        have hinit : (residue.initUserThread page securityAttribute entryAddr).1 =
            .statusSuccess := by
          rw [initUserThread, if_neg hentry]
        rw [createThread, if_neg (by decide)] at h
        dsimp only at h
        rw [hinit] at h
        cases h
        exact ⟨residue, p, rfl, rfl, rfl, hentry⟩

/-- Its stack is what `AllocateMemory` gives. -/
theorem createDefaultStack_eq {this this' : Thread} {s s' : VadMem} {fuel : ℕ} {outAddress : U32}
    (h : this.createDefaultStack fuel s outAddress = .ret (.statusSuccess, this', s')) :
    ∃ vUserStack, this.process.allocateMemory fuel s userStackDefaultSize true outAddress =
        .ret (.statusSuccess, some vUserStack, s') ∧
      this' = { this with
        regs := { this.regs with esp := vUserStack + userStackDefaultSize - 4 } } := by
  obtain ⟨⟨status, vUserStack, s₁⟩, halloc, h⟩ := Outcome.bind_eq_ret.mp h
  dsimp only at h
  split at h
  next hfailed =>
    cases h
    cases hfailed
  next hfailed =>
    obtain ⟨base, hbase, h⟩ := Outcome.bind_eq_ret.mp h
    rw [Outcome.ofOption_eq_ret.mp hbase] at halloc
    have hstatus : status = .statusSuccess := by
      by_contra hne
      exact hfailed (VadMem.failed_eq_true.mpr hne)
    rw [hstatus] at halloc
    cases h
    exact ⟨base, halloc, rfl⟩

end Thread

namespace Cpu

variable {c c' x r : Cpu} {gTss : KernelStack} {args : StartArgs} {t t' : Thread} {tics : U32}

/-! ## Into user mode -/

theorem pushArgs_cr3 (c : Cpu) (offsets : List U32) : (c.pushArgs offsets).cr3 = c.cr3 := by
  induction offsets generalizing c with
  | nil => rfl
  | cons offset offsets ih => exact ih _

/-- The page directory of the resumed thread. -/
theorem Called.switchStack_cr3 (h : Called x args) : x.enterFrame.switchStack.cr3 = args.pd := by
  have hlow := h.low
  have hhigh := h.high
  have hesi : x.enterFrame.esi.toNat = x.esp.toNat - 4 := toNat_sub_four h.low
  have hwords : x.enterFrame.mem.Words (x.enterFrame.esi.toNat + 8) args.words := by
    rw [hesi, show x.esp.toNat - 4 + 8 = x.esp.toNat + 4 by omega]
    exact h.words.store_of_apart (.inl (by rw [toNat_sub_four h.low]; omega)) _
  rw [switchStack_eq]
  exact word_arg hwords (by omega) (by decide)

/-- A thread that is started or resumed in user mode has the registers of the call, up to the low
half of `eax` and `ds`, and its own page directory. -/
theorem Called.resumed_user (h : Called x args) (hlevel : args.privLevel ≠ .kernel)
    (hcs : args.cs.setWidth 16 &&& 3 ≠ (0 : U16)) :
    ∃ mem, x.startOrResumeThread.iret =
      { eax := setLow8 (setLow16 args.eax 0x23) 0x20, ebx := args.ebx, ecx := args.ecx
        edx := args.edx, esi := args.esi, edi := args.edi, ebp := args.ebp, esp := args.esp
        eip := args.eip, eflags := args.eflags, cs := args.cs.setWidth 16
        ss := args.ss.setWidth 16, ds := (setLow16 args.eax 0x23).setWidth 16
        es := args.es.setWidth 16, fs := args.fs.setWidth 16, gs := args.gs.setWidth 16
        cr3 := args.pd, mem } := by
  obtain ⟨hx, heax⟩ := h.building
  have hcr3 := h.switchStack_cr3
  rw [startOrResumeThread, pushFrame, heax, if_neg hlevel, if_neg (by decide)]
  have hframe := hx.pushArgs [12, 16, 20, 24, 28] (by simp [IsOffset])
  have hall := hframe.pushArgs [32, 36, 40, 44, 48, 52, 56, 60, 64, 68, 72] (by simp [IsOffset])
  rw [← pushArgs_cr3 _ [12, 16, 20, 24, 28],
    ← pushArgs_cr3 _ [32, 36, 40, 44, 48, 52, 56, 60, 64, 68, 72]] at hcr3
  generalize Cpu.pushArgs _ [32, 36, 40, 44, 48, 52, 56, 60, 64, 68, 72] = z at hall hcr3 ⊢
  obtain ⟨hstack, hregs⟩ := Stack.restored hall.stack
  rw [hstack.iret_user hcs, hregs, ← hcr3]
  exact ⟨z.mem, rfl⟩

/-- What `StartOrResume` hands over for a user thread. -/
theorem startOrResume_user (tics : U32) (hcs : t.regs.cs = userCodeSelectorWithRpl) :
    (t.startOrResume tics).2.2.privLevel ≠ .kernel ∧
      ((t.startOrResume tics).2.2.cs.setWidth 16 : U16) = userCodeSelectorWithRpl := by
  constructor
  · show (if t.regs.cs = kernelCodeSelector then PrivilegeLevel.kernel else .user) ≠ .kernel
    rw [hcs]
    decide
  · show (t.regs.cs.setWidth 32).setWidth 16 = userCodeSelectorWithRpl
    rw [hcs]
    decide

/-- A user thread that is started or resumed runs with its saved registers. -/
theorem resumed_regs (hcs : t.regs.cs = userCodeSelectorWithRpl)
    (h : Called x (t.startOrResume tics).2.2) :
    ∃ mem, x.startOrResumeThread.iret =
      { eax := setLow8 (setLow16 t.regs.eax 0x23) 0x20, ebx := t.regs.ebx, ecx := t.regs.ecx
        edx := t.regs.edx, esi := t.regs.esi, edi := t.regs.edi, ebp := t.regs.ebp
        esp := t.regs.esp, eip := t.regs.eip, eflags := t.regs.eflags
        cs := userCodeSelectorWithRpl, ss := t.regs.ss
        ds := (setLow16 t.regs.eax 0x23).setWidth 16, es := t.regs.es, fs := t.regs.fs
        gs := t.regs.gs, cr3 := t.process.pdEntry, mem } := by
  have hwidth (x : U16) : (x.setWidth 32).setWidth 16 = x := by simp
  obtain ⟨hlevel, hsel⟩ := startOrResume_user tics hcs
  obtain ⟨mem, hmem⟩ := h.resumed_user hlevel (by rw [hsel]; decide)
  refine ⟨mem, ?_⟩
  rw [hmem, hsel]
  simp only [Thread.startOrResume, hwidth]

/-! ## The first instruction -/

/-- The processor at the first instruction of a thread. The block of the thread had `residue` for
registers, and `stack` is the page of its stack. -/
structure Born (c : Cpu) (entryAddr stack pd : U32) (securityAttribute : SecurityAttribute)
    (residue : Regs) : Prop where
  eip : c.eip = entryAddr
  cs : c.cs = userCodeSelectorWithRpl
  ss : c.ss = userDataSelectorWithRpl
  data : c.ds = userDataSelectorWithRpl ∧ c.es = userDataSelectorWithRpl ∧
    c.fs = userDataSelectorWithRpl ∧ c.gs = userDataSelectorWithRpl
  esp : c.esp = stack + 4092
  eflags : c.eflags = if securityAttribute = .saIo then 0x3A00 else 0x200
  eax : c.eax = 0x20
  zero : c.ecx = 0 ∧ c.edx = 0 ∧ c.esi = 0 ∧ c.edi = 0
  ebx : c.ebx = residue.ebx
  ebp : c.ebp = residue.esp
  cr3 : c.cr3 = pd

/-- A new user thread starts at its entry in user mode, on its own stack and in the page directory
of its process, and can use ports when it was created to. `ebx` and `ebp` are what was left in the
heap of the kernel. -/
theorem first_dispatch {block : Option Thread} {page threadId threadId' entryAddr : U32}
    {process : Option Process} {securityAttribute : SecurityAttribute} {new : NewThread}
    {fuel : ℕ} {outAddress : U32} {s s' : VadMem}
    (hcreate : Thread.createUserThread block page threadId entryAddr process securityAttribute =
      (.statusSuccess, some new, threadId'))
    (hstack : new.thread.createDefaultStack fuel s outAddress = .ret (.statusSuccess, t, s'))
    (hcall : Called x (t.startOrResume tics).2.2) :
    ∃ residue p vUserStack, block = some residue ∧ process = some p ∧
      p.allocateMemory fuel s userStackDefaultSize true outAddress =
        .ret (.statusSuccess, some vUserStack, s') ∧
      Born x.startOrResumeThread.iret entryAddr vUserStack p.pdEntry securityAttribute
        residue.regs ∧
      t.kstack = ⟨page + 4092, kernelDataSelector⟩ := by
  obtain ⟨residue, p, hblock, hprocess, hnew, hentry⟩ := Thread.createUserThread_eq hcreate
  obtain ⟨vUserStack, halloc, ht⟩ := Thread.createDefaultStack_eq hstack
  have hprocess' : new.thread.process = p := by rw [hnew]
  rw [hprocess'] at halloc
  rw [hnew, Thread.initUserThread, if_neg hentry] at ht
  have hcs : t.regs.cs = userCodeSelectorWithRpl := by rw [ht]
  obtain ⟨mem, hmem⟩ := resumed_regs hcs hcall
  refine ⟨residue, p, vUserStack, hblock, hprocess, halloc, ?_, ?_⟩
  · rw [hmem, ht]
    refine ⟨rfl, rfl, rfl, ⟨?_, rfl, rfl, rfl⟩, ?_, ?_, ?_, ⟨rfl, rfl, rfl, rfl⟩, rfl, rfl, rfl⟩
    · show (setLow16 0 0x23).setWidth 16 = userDataSelectorWithRpl
      decide
    · show vUserStack + 4096 - 4 = vUserStack + 4092
      bv_omega
    · show (if securityAttribute = .saIo then intFlag ||| (ioFlag ||| ioFlag >>> 1) else intFlag) =
        if securityAttribute = .saIo then 0x3A00 else 0x200
      split <;> decide
    · show setLow8 (setLow16 0 0x23) 0x20 = 0x20
      decide
  · rw [ht]
    show KernelStack.mk (page + 4096 - 4) kernelDataSelector = ⟨page + 4092, kernelDataSelector⟩
    rw [show page + 4096 - 4 = page + 4092 by bv_omega]

/-- The call that starts a thread, from another stack. -/
theorem called_storeWords (hkesp : 0x801000 ≤ args.kesp.toNat) :
    Called { userCpu 0 with
      esp := 0x800000, mem := Bytes.storeWords (fun _ => 0) 0x800004 args.words } args := by
  have hesp : (0x800000 : U32).toNat = 0x800000 := rfl
  refine ⟨?_, ?_, Bytes.words_storeWords _ _ _, by omega, .inr ?_⟩
  · show 4 ≤ (0x800000 : U32).toNat
    omega
  · show (0x800000 : U32).toNat + 84 ≤ 2 ^ 32
    omega
  · show (0x800000 : U32).toNat + 84 + 64 ≤ args.kesp.toNat
    omega

/-- The first process gets a page for a stack. -/
theorem boot_stack : ∃ pool w p fuel vUserStack s', PagePool.bss.init kernelInfo = .ret pool ∧
    Run UserStep (bootWorld pool 0x10000) [.create] w ∧ w.processes = [p] ∧
    p.allocateMemory fuel w.s userStackDefaultSize true 0x800000 =
      .ret (.statusSuccess, some vUserStack, s') := by
  obtain ⟨pool, hpool⟩ := boot_init
  have hboot := boot_bootWorld hpool 0x10000
  obtain ⟨p, w, hstep, hcreated, hsup⟩ :=
    (WorldInv.boot hboot).userStep_create (supply_bootWorld_64 hpool)
  obtain ⟨-, hseparate⟩ := reachable_separate hboot (.single hstep)
  have hp : p ∈ w.processes := by
    rw [hcreated.processes]
    exact List.mem_cons_self
  have hclosed : w.s.Closed := by
    intro v hv u hu
    rw [hcreated.heapTop] at hv
    have hv : v = p.baseVad := (Nat.lt_one_iff.mp hv).trans hcreated.baseVad.symm
    rw [hv, VadMem.next, hcreated.vad] at hu
    cases hu
  have hregion := (hcreated.chooses hclosed).2
  have hfits : w.s.fits userStackDefaultSize p.baseVad = true := by
    rw [VadMem.fits_eq_true, hcreated.vad]
    exact ⟨by decide, rfl⟩
  have haligned : ∀ u ∈ [p.baseVad], (w.s.vads u).baseAddress.toNat % pageSize = 0 := by
    intro u hu
    rw [List.mem_singleton.mp hu, hcreated.vad]
    rfl
  have hloop := VadMem.lookForFree_loop hcreated.partition.chain userStackDefaultSize
    (show [p.baseVad].length < 2 ^ 32 + 2 by simp)
  rw [List.find?_cons_of_pos hfits] at hloop
  have hparts : VadMem.Partition w.s p.baseVad ([] ++ p.baseVad :: []) := hcreated.partition
  obtain ⟨s₁, hfrom, hchosen⟩ := hparts.chooseFrom hcreated.allocated haligned
    (show userStackDefaultSize ≠ 0 by decide) hfits
  have hchoose : w.s.chooseVad (2 ^ 32 + 2) p.baseVad userStackDefaultSize =
      .ret (.statusSuccess, some p.baseVad, s₁) := by
    rw [VadMem.chooseVad, if_neg (by decide), VadMem.lookForFreeVadOfMinimumSize,
      if_neg (by decide), hloop]
    exact hfrom
  obtain ⟨hbase, hlimit⟩ := hregion _ _ _ hchoose
  have hmem : s₁.mem = w.s.mem := VadMem.chooseVad_mem hchoose
  have henough : EnoughFor s₁ p p.baseVad := by
    have hmissing : missingTables w.s.mem.mmu.phys p.pdEntry 0x40000000 0x40002000 ≤ 1 :=
      (Finset.card_filter_le _ _).trans (by decide)
    have hpages : pageNo 0x40002000 - pageNo 0x40000000 = 2 := by decide
    constructor
    · rw [hlimit]
      decide
    · rw [hbase, hlimit, KernelMem.Affords, hmem, hpages]
      exact hsup.mono (by omega) (by omega)
  obtain ⟨k, hcall, -⟩ := hchosen.reserves hseparate (List.mem_map_of_mem hp) henough
    (by rw [hlimit]; decide) true (show 2 ^ 32 ≤ 2 ^ 32 + 2 by omega)
  have halloc : w.s.allocate (2 ^ 32 + 2) p.baseVad userStackDefaultSize p.pdEntry true =
      .ret (.statusSuccess, some p.baseVad, s₁.reserved p.baseVad k) := by
    rw [VadMem.allocate_eq, hchoose, Outcome.ret_bind, hcall]
  exact ⟨pool, w, p, 2 ^ 32 + 2, _, _, hpool, .single hstep, hcreated.processes,
    Process.allocateMemory_succeeds (by decide) (by decide) halloc⟩

/-- The first thread of the first process. -/
theorem boot_first_dispatch : ∃ (pool : PagePool) (w : World) (p : Process) (x : Cpu)
    (vUserStack : U32), PagePool.bss.init kernelInfo = .ret pool ∧
    Run UserStep (bootWorld pool 0x10000) [.create] w ∧ w.processes = [p] ∧
    Born x.startOrResumeThread.iret 0x40100000 vUserStack p.pdEntry .saIo userThread.regs := by
  obtain ⟨pool, w, p, fuel, vUserStack, s', hpool, hrun, hprocesses, halloc⟩ := boot_stack
  obtain ⟨new, hnew⟩ : ∃ new : NewThread, new = ⟨0, none, .user,
      { (userThread.initUserThread 0x900000 .saIo 0x40100000).2 with
        state := .init, process := p, threadPriority := .normal }⟩ := ⟨_, rfl⟩
  have hcreate : Thread.createUserThread (some userThread) 0x900000 0 0x40100000 (some p) .saIo =
      (.statusSuccess, some new, 1) := by
    rw [hnew]
    rfl
  have hprocess : new.thread.process = p := by rw [hnew]
  have hstack : new.thread.createDefaultStack fuel w.s 0x800000 = .ret (.statusSuccess,
      { new.thread with regs :=
        { new.thread.regs with esp := vUserStack + userStackDefaultSize - 4 } }, s') := by
    rw [← hprocess] at halloc
    rw [Thread.createDefaultStack, halloc]
    rfl
  have hkesp : (({ new.thread with regs := { new.thread.regs with
      esp := vUserStack + userStackDefaultSize - 4 } } : Thread).startOrResume 0).2.2.kesp =
        0x900FFC := by
    rw [hnew]
    rfl
  obtain ⟨residue, p', vUserStack', hblock, hp', halloc', hborn, -⟩ :=
    first_dispatch hcreate hstack (called_storeWords (by rw [hkesp]; decide))
  cases hblock
  cases hp'
  exact ⟨pool, w, p, _, vUserStack', hpool, hrun, hprocesses, hborn⟩

/-! ## Its life -/

/-- A user thread keeps its mode and its privilege, and without privilege it can be interrupted. -/
structure Confined (c : Cpu) (securityAttribute : SecurityAttribute) : Prop where
  cs : c.cs = userCodeSelectorWithRpl
  ss : c.ss = userDataSelectorWithRpl
  io : c.eflags &&& ioFlag = if securityAttribute = .saIo then ioFlag else 0
  interrupts : securityAttribute = .saNone → c.eflags &&& intFlag = intFlag

theorem Confined.congr {securityAttribute : SecurityAttribute} (h : Confined c securityAttribute)
    (hcs : c'.cs = c.cs) (hss : c'.ss = c.ss) (heflags : c'.eflags = c.eflags) :
    Confined c' securityAttribute := by
  obtain ⟨h₁, h₂, h₃, h₄⟩ := h
  rw [← hcs] at h₁
  rw [← hss] at h₂
  rw [← heflags] at h₃ h₄
  exact ⟨h₁, h₂, h₃, h₄⟩

end Cpu

end LtMicros
