import LtMicros.Process

/-!
# Threads

`SaveState` copies an interrupted context into a thread, and `StartOrResume`
hands it to `_startOrResumeThread`, which does not return.
-/

namespace LtMicros

/-- `u16`. -/
abbrev U16 := BitVec 16

/-- `ThreadState`. -/
inductive ThreadState where
  | init
  | running
  | paused
  | waiting
  | dead
deriving DecidableEq, Repr

/-- `ThreadPriorityLevel`. -/
inductive ThreadPriorityLevel where
  | normal
  | high
  | max
deriving DecidableEq, Repr

/-- The value of the enumerator. -/
def ThreadPriorityLevel.toNat : ThreadPriorityLevel → ℕ
  | normal => 0
  | high => 1
  | max => 2

/-- `PrivilegeLevel`. -/
inductive PrivilegeLevel where
  | kernel
  | user
deriving DecidableEq, Repr

/-- Segment selectors of `Gdt.hpp`. -/
def kernelCodeSelector : U16 := 0x08
def kernelDataSelector : U16 := 0x10
def userCodeSelectorWithRpl : U16 := 0x1B
def userDataSelectorWithRpl : U16 := 0x23

/-- The words that `SAVE_REGS` and the processor have pushed, from `context` on.
The last two are pushed in user mode only; otherwise they are the words that lie
above on the interrupted stack. -/
structure InterruptContext where
  gs : U32
  fs : U32
  es : U32
  ds : U32
  edi : U32
  esi : U32
  ebp : U32
  esp : U32
  ebx : U32
  edx : U32
  ecx : U32
  eax : U32
  eip : U32
  cs : U32
  eflags : U32
  espI : U32
  ss : U32
deriving DecidableEq, Repr

/-- `Thread::regs`. -/
structure Regs where
  eax : U32
  ebx : U32
  ecx : U32
  edx : U32
  ebp : U32
  esp : U32
  esi : U32
  edi : U32
  eip : U32
  eflags : U32
  cs : U16
  ss : U16
  ds : U16
  es : U16
  fs : U16
  gs : U16
deriving DecidableEq, Repr

/-- A kernel stack: `Thread::kstack`, and what is used of `gTss`. -/
structure KernelStack where
  esp0 : U32
  ss0 : U16
deriving DecidableEq, Repr

/-- `Thread`, with the process it belongs to. -/
structure Thread where
  state : ThreadState
  process : Process
  threadPriority : ThreadPriorityLevel
  ticsOnResume : U32
  kstack : KernelStack
  regs : Regs

/-- The arguments of `_startOrResumeThread`, in their order. -/
structure StartArgs where
  pd : U32
  ss : U32
  esp : U32
  eflags : U32
  cs : U32
  eip : U32
  eax : U32
  ecx : U32
  edx : U32
  ebx : U32
  ebp : U32
  esi : U32
  edi : U32
  ds : U32
  es : U32
  fs : U32
  gs : U32
  privLevel : PrivilegeLevel
  kss : U16
  kesp : U32
deriving DecidableEq, Repr

namespace Thread

/-- `Thread::SaveState`. -/
def saveState (this : Thread) (gTss : KernelStack) (context : InterruptContext) : Thread :=
  let regs : Regs :=
    { eflags := context.eflags
      cs := context.cs.setWidth 16
      eip := context.eip
      eax := context.eax
      ebx := context.ebx
      ecx := context.ecx
      edx := context.edx
      ebp := context.ebp
      esi := context.esi
      edi := context.edi
      gs := context.gs.setWidth 16
      fs := context.fs.setWidth 16
      es := context.es.setWidth 16
      ds := context.ds.setWidth 16
      ss := this.regs.ss
      esp := this.regs.esp }
  let regs :=
    if regs.cs ≠ kernelCodeSelector then
      { regs with ss := context.ss.setWidth 16, esp := context.espI }
    else
      -- eflags, cs and eip were pushed before `pushad` read esp
      { regs with ss := gTss.ss0, esp := context.esp + 12 }
  { this with regs, kstack := gTss }

/-- `Thread::StartOrResume`: the thread, `gTss`, and the call it ends in. -/
def startOrResume (this : Thread) (tics : U32) : Thread × KernelStack × StartArgs :=
  let user := this.regs.cs = userCodeSelectorWithRpl
  let args : StartArgs :=
    { pd := this.process.pdEntry
      ss := this.regs.ss.setWidth 32
      esp := this.regs.esp
      eflags := this.regs.eflags
      cs := this.regs.cs.setWidth 32
      eip := this.regs.eip
      eax := this.regs.eax
      ecx := this.regs.ecx
      edx := this.regs.edx
      ebx := this.regs.ebx
      ebp := this.regs.ebp
      esi := this.regs.esi
      edi := this.regs.edi
      ds := this.regs.ds.setWidth 32
      es := this.regs.es.setWidth 32
      fs := this.regs.fs.setWidth 32
      gs := this.regs.gs.setWidth 32
      privLevel := if this.regs.cs = kernelCodeSelector then .kernel else .user
      kss := if user then this.kstack.ss0 else this.regs.ss
      kesp := if user then this.kstack.esp0 else this.regs.esp }
  ({ this with state := .running, ticsOnResume := tics }, this.kstack, args)

@[simp] theorem saveState_state (this : Thread) (gTss : KernelStack) (context : InterruptContext) :
    (this.saveState gTss context).state = this.state := rfl

@[simp] theorem startOrResume_state (this : Thread) (tics : U32) :
    (this.startOrResume tics).1.state = .running := rfl

end Thread

end LtMicros
