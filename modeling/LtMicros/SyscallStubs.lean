import LtMicros.Isr
import LtMicros.Syscalls

/-!
# The way of a system call

A stub of the library puts the arguments into registers and raises the interrupt; its routine finds
them in the context, calls the function of the system call, and puts the results into the context,
from where they come back to the caller.
-/

namespace LtMicros

open Lib

/-- The value of the enumerator. -/
def KeStatus.code (status : KeStatus) : U32 := BitVec.ofNat 32 status.ctorIdx

/-! ## The kernel -/

/-- `SyscallId`, in the order of `SYSCALLS_LIST`. -/
inductive SyscallId where
  | sysPrintChar
  | sysPrintStr
  | sysSbrk
  | sysIpcServerCreate
  | sysIpcServerConnect
  | sysIpcSend
  | sysIpcRecv
  | sysEnterScreenCriticalSection
  | sysLeaveScreenCriticalSection
  | sysRaiseThreadPriority
  | sysLowerThreadPriority
  | sysInvalid
deriving DecidableEq

/-- `SYSCALLS_LIST`. -/
def syscallsList : List SyscallId :=
  [.sysPrintChar, .sysPrintStr, .sysSbrk, .sysIpcServerCreate, .sysIpcServerConnect, .sysIpcSend,
    .sysIpcRecv, .sysEnterScreenCriticalSection, .sysLeaveScreenCriticalSection,
    .sysRaiseThreadPriority, .sysLowerThreadPriority, .sysInvalid]

/-- `SysIpcReceiveParameter`. -/
structure SysIpcReceiveParameter where
  ipcHandle : U32
  buffer : U32
  size : U32
  readBytesPtr : U32

/-- The functions that the system calls come to, over a state of the kernel. A process or a thread
is 0 for the null pointer. -/
structure KernelFunctions (σ : Type) where
  kprintChar : U32 → σ → Outcome σ
  kprintStr : U32 → σ → Outcome σ
  getCurrentProcess : σ → ℕ
  increaseHeap : ℕ → U32 → σ → Outcome (KeStatus × U32 × σ)
  addNewServer : U32 → ℕ → σ → Outcome (KeStatus × U32 × σ)
  connectToServer : U32 → ℕ → σ → Outcome (KeStatus × U32 × σ)
  send : U32 → ℕ → U32 → U32 → σ → Outcome (KeStatus × σ)
  parameters : U32 → σ → SysIpcReceiveParameter
  receive : ℕ → SysIpcReceiveParameter → σ → Outcome (KeStatus × σ)
  enter : σ → Outcome σ
  leave : σ → Outcome σ
  getCurrentThread : σ → ℕ
  raisePriorityLevel : ℕ → σ → Outcome σ
  lowerPriorityLevel : ℕ → σ → Outcome σ

/-- The registers that a system call writes into the context. -/
structure Answer where
  eax : Option U32
  ebx : Option U32

section Handlers

variable {σ : Type} (F : KernelFunctions σ) (context : InterruptFromUserlandContext) (s : σ)

/-- `SysPrintChar`. -/
def KernelFunctions.sysPrintChar : Outcome (Answer × σ) := do
  let s ← F.kprintChar context.ebx s
  return (⟨none, none⟩, s)

/-- `SysPrintStr`. -/
def KernelFunctions.sysPrintStr : Outcome (Answer × σ) := do
  let s ← F.kprintStr context.ebx s
  return (⟨none, none⟩, s)

/-- `SysSbrk`. -/
def KernelFunctions.sysSbrk : Outcome (Answer × σ) :=
  let currentProcess := F.getCurrentProcess s
  if currentProcess = 0 then .ret (⟨some 0, none⟩, s)
  else do
    let (_, res, s) ← F.increaseHeap currentProcess context.ebx s
    return (⟨some res, none⟩, s)

/-- `SysIpcServerCreate` and `SysIpcServerConnect` differ in the function they call. -/
def KernelFunctions.sysIpcServer (call : U32 → ℕ → σ → Outcome (KeStatus × U32 × σ)) :
    Outcome (Answer × σ) :=
  let process := F.getCurrentProcess s
  if process = 0 then .ret (⟨some KeStatus.statusFailure.code, some 0⟩, s)
  else do
    let (status, handle, s) ← call context.ebx process s
    return (⟨some status.code, some handle⟩, s)

/-- `SysIpcSend`. -/
def KernelFunctions.sysIpcSend : Outcome (Answer × σ) :=
  let process := F.getCurrentProcess s
  if process = 0 then .ret (⟨some KeStatus.statusFailure.code, none⟩, s)
  else do
    let (status, s) ← F.send context.ebx process context.ecx context.edx s
    return (⟨some status.code, none⟩, s)

/-- `SysIpcReceive`. -/
def KernelFunctions.sysIpcReceive : Outcome (Answer × σ) :=
  let serveurProcess := F.getCurrentProcess s
  if serveurProcess = 0 then .ret (⟨some KeStatus.statusFailure.code, none⟩, s)
  else do
    let (status, s) ← F.receive serveurProcess (F.parameters context.ebx s) s
    return (⟨some status.code, none⟩, s)

/-- `SysRaiseThreadPriority` and `SysLowerThreadPriority` differ in the function they call. -/
def KernelFunctions.sysThreadPriority (call : ℕ → σ → Outcome σ) : Outcome (Answer × σ) :=
  let currentThread := F.getCurrentThread s
  if currentThread = 0 then .ret (⟨none, none⟩, s)
  else do
    let s ← call currentThread s
    return (⟨none, none⟩, s)

/-- The function of a system call. -/
def SyscallId.handler : SyscallId → Outcome (Answer × σ)
  | sysPrintChar => F.sysPrintChar context s
  | sysPrintStr => F.sysPrintStr context s
  | sysSbrk => F.sysSbrk context s
  | sysIpcServerCreate => F.sysIpcServer context s F.addNewServer
  | sysIpcServerConnect => F.sysIpcServer context s F.connectToServer
  | sysIpcSend => F.sysIpcSend context s
  | sysIpcRecv => F.sysIpcReceive context s
  | sysEnterScreenCriticalSection => do
    let s ← F.enter s
    return (⟨none, none⟩, s)
  | sysLeaveScreenCriticalSection => do
    let s ← F.leave s
    return (⟨none, none⟩, s)
  | sysRaiseThreadPriority => F.sysThreadPriority s F.raisePriorityLevel
  | sysLowerThreadPriority => F.sysThreadPriority s F.lowerPriorityLevel
  | sysInvalid => .ret (⟨none, none⟩, s)

/-- `SyscallsHandler::ExecuteSyscall`. An unknown number is put in the log. -/
def executeSyscall (sysId : U32) : Outcome (Answer × σ) :=
  if SyscallId.sysInvalid.ctorIdx ≤ sysId.toNat then .ret (⟨none, none⟩, s)
  else
    match syscallsList[sysId.toNat]? with
    | none => .ret (⟨none, none⟩, s)
    | some id => id.handler F context s

end Handlers

namespace InterruptContext

/-- The context as the functions of the system calls see it. -/
def registers (context : InterruptContext) : InterruptFromUserlandContext :=
  ⟨context.ebx, context.ecx, context.edx⟩

/-- The results are put into it. -/
def put (context : InterruptContext) (answer : Answer) : InterruptContext :=
  { context with eax := answer.eax.getD context.eax, ebx := answer.ebx.getD context.ebx }

/-- The words of a context, from its address on. -/
def words (context : InterruptContext) : List U32 :=
  [context.gs, context.fs, context.es, context.ds, context.edi, context.esi, context.ebp,
    context.esp, context.ebx, context.edx, context.ecx, context.eax, context.eip, context.cs,
    context.eflags, context.espI, context.ss]

end InterruptContext

/-- `syscall_isr`, which is called with the address of the context on the stack. -/
def syscallIsr {σ : Type} (F : KernelFunctions σ) (c : Cpu) (s : σ) : Outcome (Answer × σ) :=
  if c.top = 0 then .ret (⟨none, none⟩, s)
  else executeSyscall F (c.context c.top).registers s (c.context c.top).eax

/-- The routine comes back with the results in the context, and has left the rest of it alone. -/
structure SyscallIsr {σ : Type} (F : KernelFunctions σ) (c : Cpu) (s : σ) (c' : Cpu) (s' : σ)
    (answer : Answer) : Prop where
  run : syscallIsr F c s = .ret (answer, s')
  returns : c.Returns c' ((c.context c.top).put answer).words

/-! ## The library -/

/-- A stub: the number of its system call, how many arguments it loads, and whether it stores a
handle where the second one points. -/
structure Stub where
  number : U32
  arguments : ℕ
  storesHandle : Bool
deriving DecidableEq

namespace Stub

/-- `_sysPrint`. -/
def sysPrint : Stub := ⟨0x1, 1, false⟩

/-- `_sysPrintChar`. -/
def sysPrintChar : Stub := ⟨0x0, 1, false⟩

/-- `_sysSbrk`. -/
def sysSbrk : Stub := ⟨0x2, 1, false⟩

/-- `_sysIpcServerCreate`. -/
def sysIpcServerCreate : Stub := ⟨0x3, 2, true⟩

/-- `_sysIpcServerConnect`. -/
def sysIpcServerConnect : Stub := ⟨0x4, 2, true⟩

/-- `_sysIpcSend`. -/
def sysIpcSend : Stub := ⟨0x5, 3, false⟩

/-- `_sysIpcReceive`. -/
def sysIpcReceive : Stub := ⟨0x6, 1, false⟩

/-- `_sysEnterScreenCriticalSection`. -/
def sysEnterScreenCriticalSection : Stub := ⟨0x7, 0, false⟩

/-- `_sysLeaveScreenCriticalSection`. -/
def sysLeaveScreenCriticalSection : Stub := ⟨0x8, 0, false⟩

/-- `_sysRaiseThreadPriority`. -/
def sysRaiseThreadPriority : Stub := ⟨0x9, 0, false⟩

/-- `_sysLowerThreadPriority`. -/
def sysLowerThreadPriority : Stub := ⟨0xA, 0, false⟩

/-- `mov ebx, [ebp+8]` and what follows it. -/
def loadArguments (c : Cpu) : ℕ → Cpu
  | 0 => c
  | 1 => { c with ebx := c.word (c.ebp + 8) }
  | 2 => { c with ebx := c.word (c.ebp + 8), ecx := c.word (c.ebp + 12) }
  | _ => { c with
      ebx := c.word (c.ebp + 8), ecx := c.word (c.ebp + 12), edx := c.word (c.ebp + 16) }

/-- A stub up to its `int`. -/
def enter (stub : Stub) (c : Cpu) : Cpu :=
  let c := c.push c.ebp
  let c := { c with ebp := c.esp }
  let c := loadArguments c stub.arguments
  { c with eax := stub.number }

/-- `leave` and `ret`. -/
def leaveRet (c : Cpu) : Cpu :=
  let c := { c with esp := c.ebp }
  let c := { c.popped with ebp := c.top }
  { c.popped with eip := c.top }

/-- A stub from the instruction behind its `int` on. -/
def leave (stub : Stub) (c : Cpu) : Cpu :=
  leaveRet (if stub.storesHandle then
    { c with mem := c.mem.store32 c.ecx.toNat c.ebx.toNat } else c)

end Stub

/-- The stub of a system call. -/
def SyscallId.stub : SyscallId → Option Stub
  | sysPrintChar => some .sysPrintChar
  | sysPrintStr => some .sysPrint
  | sysSbrk => some .sysSbrk
  | sysIpcServerCreate => some .sysIpcServerCreate
  | sysIpcServerConnect => some .sysIpcServerConnect
  | sysIpcSend => some .sysIpcSend
  | sysIpcRecv => some .sysIpcReceive
  | sysEnterScreenCriticalSection => some .sysEnterScreenCriticalSection
  | sysLeaveScreenCriticalSection => some .sysLeaveScreenCriticalSection
  | sysRaiseThreadPriority => some .sysRaiseThreadPriority
  | sysLowerThreadPriority => some .sysLowerThreadPriority
  | sysInvalid => none

/-- A system call is dispatched by the number that its stub has. -/
theorem executeSyscall_stub {σ : Type} {F : KernelFunctions σ} {s : σ} {id : SyscallId}
    {stub : Stub} {context : InterruptFromUserlandContext} (hstub : id.stub = some stub) :
    executeSyscall F context s stub.number = id.handler F context s := by
  cases id <;> cases hstub <;> rfl

theorem SyscallId.arguments_le {id : SyscallId} {stub : Stub} (hstub : id.stub = some stub) :
    stub.arguments ≤ 3 := by
  cases id <;> cases hstub <;> decide

namespace Cpu

variable {c c' : Cpu} {gTss : KernelStack} {ret : U32} {args : List U32} {stub : Stub}
  {b room : ℕ} {answer : Answer}

/-! ## Into the kernel -/

/-- The stack has come down from an address, and what lies from there on is as it was. -/
structure Below (c c' : Cpu) (b room : ℕ) : Prop where
  room : 4 * room ≤ c'.esp.toNat
  low : c'.esp.toNat ≤ b
  mem : ∀ x, b ≤ x → c'.mem x = c.mem x

theorem Below.push (h : Below c c' b (room + 1)) (w : U32) : Below c (c'.push w) b room := by
  have hroom := h.room
  have hlow := h.low
  have hesp : (c'.esp - 4).toNat = c'.esp.toNat - 4 := toNat_sub_four (by omega)
  refine ⟨?_, ?_, fun x hx => ?_⟩
  · show 4 * room ≤ (c'.esp - 4).toNat
    omega
  · show (c'.esp - 4).toNat ≤ b
    omega
  · rw [← h.mem x hx]
    exact Bytes.store32_of_not_mem (.inr (by omega))

theorem Below.congr {c'' : Cpu} (h : Below c c' b room) (hmem : c''.mem = c'.mem)
    (hesp : c''.esp = c'.esp) : Below c c'' b room := by
  obtain ⟨h₁, h₂, h₃⟩ := h
  rw [← hesp] at h₁ h₂
  rw [← hmem] at h₃
  exact ⟨h₁, h₂, h₃⟩

theorem Below.pushad (h : Below c c' b (room + 8)) : Below c c'.pushad b room :=
  (((((((h.push c'.eax).push c'.ecx).push c'.edx).push c'.ebx).push c'.esp).push c'.ebp).push
    c'.esi).push c'.edi

theorem Below.pushSegments (h : Below c c' b (room + 4)) : Below c c'.pushSegments b room :=
  (((h.push (c'.ds.setWidth 32)).push (c'.es.setWidth 32)).push (c'.fs.setWidth 32)).push
    (c'.gs.setWidth 32)

theorem Below.loadKernelData (h : Below c c' b (room + 1)) :
    Below c c'.loadKernelData b (room + 1) := by
  have hesp : c'.loadKernelData.esp = c'.esp := BitVec.sub_add_cancel _ _
  have hmem : c'.loadKernelData.mem = (c'.push c'.ebx).mem := rfl
  refine ⟨?_, ?_, ?_⟩
  · rw [hesp]
    exact h.room
  · rw [hesp]
    exact h.low
  · rw [hmem]
    exact (h.push c'.ebx).mem

theorem Below.saveRegs (h : Below c c' b (room + 13)) : Below c c'.saveRegs b room :=
  h.pushad.pushSegments.loadKernelData.push _

/-- What lies above the kernel stack is not touched on the way to the routine. -/
theorem below_interrupt_user (hcs : c.cs ≠ kernelCodeSelector) (hroom : 72 ≤ gTss.esp0.toNat) :
    Below c (c.interrupt gTss).saveRegs gTss.esp0.toNat 0 := by
  have hnil : Below c { c with ss := gTss.ss0, esp := gTss.esp0 } gTss.esp0.toNat 18 :=
    ⟨hroom, Nat.le_refl _, fun _ _ => rfl⟩
  have hall := ((((hnil.push (c.ss.setWidth 32)).push c.esp).push c.eflags).push
    (c.cs.setWidth 32)).push c.eip
  refine Below.saveRegs ?_
  rw [interrupt, if_neg hcs]
  exact hall.congr rfl rfl

/-! ## The whole way -/

/-- A user thread at the first instruction of a stub: the return address and the arguments are on
its stack, above the kernel stack. -/
structure Calling (c : Cpu) (gTss : KernelStack) (ret : U32) (args : List U32) : Prop where
  mode : c.cs = userCodeSelectorWithRpl ∧ c.ss = userDataSelectorWithRpl
  words : c.mem.Words c.esp.toNat (ret :: args)
  bound : c.esp.toNat + 4 * (args.length + 1) ≤ 2 ^ 32
  room : 72 ≤ gTss.esp0.toNat
  above : gTss.esp0.toNat + 4 ≤ c.esp.toNat

/-- The registers that the arguments go to, the others as they are. -/
def registersOf (c : Cpu) (args : List U32) : InterruptFromUserlandContext :=
  ⟨args[0]?.getD c.ebx, args[1]?.getD c.ecx, args[2]?.getD c.edx⟩

/-- A stub up to its `int`, as a record. -/
def entered (c : Cpu) (stub : Stub) (args : List U32) : Cpu :=
  { c.push c.ebp with
    ebp := c.esp - 4, eax := stub.number, ebx := (c.registersOf args).ebx
    ecx := (c.registersOf args).ecx, edx := (c.registersOf args).edx }

/-- The stack of a caller after `push ebp`. -/
theorem Calling.pushed (h : Calling c gTss ret args) :
    (c.push c.ebp).Stack 0 (c.ebp :: ret :: args) := by
  have habove := h.above
  have hstack : c.Stack 1 (ret :: args) := ⟨h.words, h.bound, by omega⟩
  exact hstack.push c.ebp

theorem Calling.enter (h : Calling c gTss ret args) (hargs : args.length = stub.arguments)
    (hle : stub.arguments ≤ 3) : stub.enter c = c.entered stub args := by
  obtain ⟨c₁, hc₁⟩ : ∃ c₁ : Cpu, c₁ = { c.push c.ebp with ebp := c.esp - 4 } := ⟨_, rfl⟩
  have hstack : c₁.Stack 0 (c.ebp :: ret :: args) := by
    rw [hc₁]
    exact h.pushed.congr rfl rfl
  have hebp : c₁.ebp = c₁.esp := by
    rw [hc₁]
    rfl
  have harg (i : ℕ) (hi : i < args.length) :
      c₁.word (c₁.ebp + BitVec.ofNat 32 (4 * (i + 2))) = args[i] := by
    rw [hebp]
    exact hstack.word (i := i + 2) (by simp only [List.length_cons]; omega)
  have henter : stub.enter c =
      { Stub.loadArguments c₁ stub.arguments with eax := stub.number } := by
    rw [hc₁]
    rfl
  rw [henter, ← hargs, entered, registersOf]
  match args, hargs, harg with
  | [], _, _ =>
    rw [hc₁]
    rfl
  | [w₁], _, harg =>
    have h₁ : c₁.word (c₁.ebp + 8) = w₁ := harg 0 (by simp)
    simp only [List.length_cons, List.length_nil, Nat.zero_add, Stub.loadArguments, h₁]
    rw [hc₁]
    rfl
  | [w₁, w₂], _, harg =>
    have h₁ : c₁.word (c₁.ebp + 8) = w₁ := harg 0 (by simp)
    have h₂ : c₁.word (c₁.ebp + 12) = w₂ := harg 1 (by simp)
    simp only [List.length_cons, List.length_nil, Nat.zero_add, Nat.reduceAdd, Stub.loadArguments,
      h₁, h₂]
    rw [hc₁]
    rfl
  | [w₁, w₂, w₃], _, harg =>
    have h₁ : c₁.word (c₁.ebp + 8) = w₁ := harg 0 (by simp)
    have h₂ : c₁.word (c₁.ebp + 12) = w₂ := harg 1 (by simp)
    have h₃ : c₁.word (c₁.ebp + 16) = w₃ := harg 2 (by simp)
    simp only [List.length_cons, List.length_nil, Nat.zero_add, Nat.reduceAdd, Stub.loadArguments,
      h₁, h₂, h₃]
    rw [hc₁]
    rfl
  | _ :: _ :: _ :: _ :: args, hargs, _ =>
    simp only [List.length_cons] at hargs
    omega

/-- `leave` and `ret`, with the words of the caller still there. -/
theorem leaveRet_eq {ebp : U32} (h : c.mem.Words c.ebp.toNat [ebp, ret])
    (hbound : c.ebp.toNat + 8 ≤ 2 ^ 32) :
    Stub.leaveRet c = { c with ebp, eip := ret, esp := c.ebp + 8 } := by
  have hstack : ({ c with esp := c.ebp } : Cpu).Stack 0 [ebp, ret] := ⟨h, hbound, Nat.zero_le _⟩
  have htop := hstack.top
  have hnext : c.word (c.ebp + 4) = ret := hstack.word (i := 1) (by simp)
  simp only [Cpu.top] at htop
  have hebp : c.word c.ebp = ebp := htop
  show ({ c with
    ebp := c.word c.ebp, eip := c.word (c.ebp + 4), esp := c.ebp + 4 + 4 } : Cpu) = _
  rw [hebp, hnext, BitVec.add_assoc]
  rfl

theorem Interruptible.user (stub : Stub) (h : Calling c gTss ret args) (next : U32) :
    Interruptible { c.entered stub args with eip := next } gTss := by
  have hcs : c.cs ≠ kernelCodeSelector := by
    rw [h.mode.1]
    decide
  refine ⟨.inr h.mode, ?_⟩
  show if c.cs = kernelCodeSelector then 64 ≤ (c.entered stub args).esp.toNat
    else 72 ≤ gTss.esp0.toNat
  rw [if_neg hcs]
  exact h.room

/-- The context that the routine is called with. -/
theorem Calling.context (stub : Stub) (h : Calling c gTss ret args) (next : U32) :
    ({ c.entered stub args with eip := next } : Cpu).interrupted gTss =
      ⟨c.gs.setWidth 32, c.fs.setWidth 32, c.es.setWidth 32, c.ds.setWidth 32, c.edi, c.esi,
        c.esp - 4, (({ c.entered stub args with eip := next } : Cpu).interrupt gTss).esp,
        (c.registersOf args).ebx, (c.registersOf args).edx, (c.registersOf args).ecx, stub.number,
        next, c.cs.setWidth 32, c.eflags, c.esp - 4, c.ss.setWidth 32⟩ := by
  have hcs : c.cs ≠ kernelCodeSelector := by
    rw [h.mode.1]
    decide
  exact context_user (c := { c.entered stub args with eip := next }) hcs h.room

/-- The routine of a system call runs the function that the stub is for, with the arguments of the
caller. -/
theorem Calling.syscallIsr {σ : Type} (F : KernelFunctions σ) (s : σ) {id : SyscallId} (next : U32)
    (h : Calling c gTss ret args) (hstub : id.stub = some stub) :
    syscallIsr F (({ c.entered stub args with eip := next } : Cpu).interrupt gTss).saveRegs s =
      id.handler F (c.registersOf args) s := by
  have hcontext := h.context stub next
  have hstack := (Interruptible.user stub h next).stack.saveRegs
  have htop :
      (({ c.entered stub args with eip := next } : Cpu).interrupt gTss).saveRegs.top ≠ 0 := by
    have hroom := hstack.2.room
    rw [hstack.1]
    intro hzero
    rw [hzero] at hroom
    exact absurd hroom (by decide)
  rw [interrupted] at hcontext
  rw [LtMicros.syscallIsr, if_neg htop, hcontext]
  exact executeSyscall_stub hstub

/-- Back at the instruction behind the `int`, only the results are new. -/
theorem Calling.back {σ : Type} {F : KernelFunctions σ} {s s' : σ} {next : U32}
    (h : Calling c gTss ret args)
    (hisr : SyscallIsr F
      (({ c.entered stub args with eip := next } : Cpu).interrupt gTss).saveRegs s c' s' answer) :
    c'.intEpilog = { c.entered stub args with
      eax := answer.eax.getD stub.number, ebx := answer.ebx.getD (c.registersOf args).ebx
      eip := next, mem := c'.mem, cr3 := c'.cr3 } := by
  have hwidth (x : U16) : (x.setWidth 32).setWidth 16 = x := by simp
  have hcs : c.cs ≠ kernelCodeSelector := by
    rw [h.mode.1]
    decide
  have hcontext := h.context stub next
  have hreturns := hisr.returns
  rw [interrupted] at hcontext
  rw [hcontext] at hreturns
  have hframe : ({ c.entered stub args with eip := next } : Cpu).iretFrame =
      [next, c.cs.setWidth 32, c.eflags, c.esp - 4, c.ss.setWidth 32] := if_neg hcs
  have hframed : Returns (({ c.entered stub args with eip := next } : Cpu).interrupt gTss).saveRegs
      c' ([c.gs.setWidth 32, c.fs.setWidth 32, c.es.setWidth 32, c.ds.setWidth 32, c.edi, c.esi,
        c.esp - 4, (({ c.entered stub args with eip := next } : Cpu).interrupt gTss).esp,
        answer.ebx.getD (c.registersOf args).ebx, (c.registersOf args).edx,
        (c.registersOf args).ecx, answer.eax.getD stub.number] ++
          ({ c.entered stub args with eip := next } : Cpu).iretFrame) := by
    rw [hframe]
    exact hreturns
  rw [returns_intEpilog (Interruptible.user stub h next) hframed]
  simp only [hwidth]
  rfl

/-- A call of a stub runs the function of its system call with the arguments of the caller, and
comes back behind the call with what the function has answered: its value in `eax`, and a handle
where the caller wants it. `ebx` is not as the caller had it, the other registers that a called
function must keep are. -/
theorem syscall_returns {σ : Type} {F : KernelFunctions σ} {s s' : σ} {id : SyscallId} {next : U32}
    (h : Calling c gTss ret args) (hstub : id.stub = some stub)
    (hargs : args.length = stub.arguments)
    (hisr : SyscallIsr F (({ stub.enter c with eip := next } : Cpu).interrupt gTss).saveRegs s c' s'
      answer)
    (hkept : ∀ x, c.esp.toNat - 4 ≤ x → x < c.esp.toNat + 4 →
      c'.mem x = (({ stub.enter c with eip := next } : Cpu).interrupt gTss).saveRegs.mem x)
    (hapart : stub.storesHandle → (c.registersOf args).ecx.toNat + 4 ≤ c.esp.toNat - 4 ∨
      c.esp.toNat + 4 ≤ (c.registersOf args).ecx.toNat) :
    id.handler F (c.registersOf args) s = .ret (answer, s') ∧
    stub.leave c'.intEpilog = { c with
      eax := answer.eax.getD stub.number, ebx := answer.ebx.getD (c.registersOf args).ebx
      ecx := (c.registersOf args).ecx, edx := (c.registersOf args).edx
      esp := c.esp + 4, eip := ret, cr3 := c'.cr3
      mem := if stub.storesHandle then
          c'.mem.store32 (c.registersOf args).ecx.toNat
            (answer.ebx.getD (c.registersOf args).ebx).toNat
        else c'.mem } := by
  rw [h.enter hargs (SyscallId.arguments_le hstub)] at hisr hkept
  refine ⟨(h.syscallIsr F s next hstub).symm.trans hisr.run, ?_⟩
  have habove := h.above
  have hroom := h.room
  have hesp : (c.esp - 4).toNat = c.esp.toNat - 4 := toNat_sub_four (by omega)
  have hcs : c.cs ≠ kernelCodeSelector := by
    rw [h.mode.1]
    decide
  -- the words of the caller are still on its stack
  have hbelow := below_interrupt_user (c := { c.entered stub args with eip := next }) hcs hroom
  have hwords : c'.mem.Words (c.esp - 4).toNat [c.ebp, ret] := by
    have hpushed := h.pushed.words
    refine Bytes.Words.congr (m := (c.push c.ebp).mem) ?_ fun x h₁ h₂ => ?_
    · exact ⟨hpushed.1, hpushed.2.1, trivial⟩
    · rw [hesp] at h₁ h₂
      simp only [List.length_cons, List.length_nil] at h₂
      rw [hkept x h₁ (by omega)]
      exact (hbelow.mem x (by omega)).symm
  have hbound := h.bound
  have hend : (c.esp - 4).toNat + 8 ≤ 2 ^ 32 := by
    rw [hesp]
    omega
  have hadd : c.esp - 4 + 8 = c.esp + 4 := by bv_omega
  rw [Stub.leave, h.back hisr]
  by_cases hstores : stub.storesHandle
  · rw [if_pos hstores, if_pos hstores]
    have hafter := hwords.store_of_apart (a := (c.registersOf args).ecx.toNat) (by
      rw [hesp, List.length_cons, List.length_cons, List.length_nil]
      have := hapart hstores
      omega) (answer.ebx.getD (c.registersOf args).ebx).toNat
    rw [leaveRet_eq hafter hend, ← hadd]
    rfl
  · rw [if_neg hstores, if_neg hstores, leaveRet_eq hwords hend, ← hadd]
    rfl

/-- A kernel with one server, which has the handle 7. -/
def oneServer : KernelFunctions Unit where
  kprintChar _ := .ret
  kprintStr _ := .ret
  getCurrentProcess _ := 1
  increaseHeap _ _ s := .ret (.statusFailure, 0, s)
  addNewServer _ _ s := .ret (.ipcStatusIdStringAlreadyUsed, 0, s)
  connectToServer _ _ s := .ret (.statusSuccess, 7, s)
  send _ _ _ _ s := .ret (.statusSuccess, s)
  parameters _ _ := ⟨0, 0, 0, 0⟩
  receive _ _ s := .ret (.statusFailure, s)
  enter := .ret
  leave := .ret
  getCurrentThread _ := 1
  raisePriorityLevel _ := .ret
  lowerPriorityLevel _ := .ret

/-- A thread that calls `_sysIpcServerConnect`. -/
def connectingCpu : Cpu :=
  { userCpu 0 with
    mem := Bytes.storeWords (fun _ => 0) 0x40001000 [0x40000200, 0x40000300, 0x40002000] }

theorem connectingCpu_calling :
    Calling connectingCpu userStack 0x40000200 [0x40000300, 0x40002000] :=
  ⟨⟨rfl, rfl⟩, Bytes.words_storeWords _ _ _, by decide, by decide, by decide⟩

/-- The routine for it. -/
def connectEntry : Cpu :=
  (({ Stub.sysIpcServerConnect.enter connectingCpu with eip := 0x40000250 } : Cpu).interrupt
    userStack).saveRegs

/-- A routine that changes nothing but its context. -/
def answered (c : Cpu) (answer : Answer) : Cpu :=
  { c with mem := c.mem.storeWords (c.esp.toNat + 4) ((c.context c.top).put answer).words }

theorem syscallIsr_answered {σ : Type} {F : KernelFunctions σ} {s s' : σ}
    (h : syscallIsr F c s = .ret (answer, s')) : SyscallIsr F c s (c.answered answer) s' answer :=
  ⟨h, ⟨rfl, rfl, Bytes.words_storeWords _ _ _⟩⟩

theorem answered_mem {x : ℕ} (h : c.esp.toNat + 72 ≤ x) : (c.answered answer).mem x = c.mem x := by
  refine Bytes.storeWords_of_not_mem (.inr ?_)
  show c.esp.toNat + 4 + 68 ≤ x
  omega

/-- It has the handle 7 where it wants it. -/
theorem connectingCpu_returns :
    Stub.sysIpcServerConnect.leave (connectEntry.answered ⟨some 0, some 7⟩).intEpilog =
      { connectingCpu with
        eax := 0, ebx := 7, ecx := 0x40002000, esp := 0x40001004, eip := 0x40000200
        cr3 := (connectEntry.answered ⟨some 0, some 7⟩).cr3
        mem := (connectEntry.answered ⟨some 0, some 7⟩).mem.store32 0x40002000 7 } := by
  have h := connectingCpu_calling
  have hentered : Stub.sysIpcServerConnect.enter connectingCpu =
      connectingCpu.entered .sysIpcServerConnect [0x40000300, 0x40002000] :=
    h.enter rfl (by decide)
  have hrun : syscallIsr oneServer connectEntry () = .ret (⟨some 0, some 7⟩, ()) := by
    rw [connectEntry, hentered, h.syscallIsr oneServer () 0x40000250
      (show SyscallId.sysIpcServerConnect.stub = _ from rfl)]
    rfl
  have hesp : connectEntry.esp.toNat = 0x900000 - 72 := rfl
  have hkept : ∀ x, 0x40001000 - 4 ≤ x → x < 0x40001000 + 4 →
      (connectEntry.answered ⟨some 0, some 7⟩).mem x = connectEntry.mem x := by
    intro x hx _
    refine answered_mem ?_
    rw [hesp]
    omega
  have hisr := syscallIsr_answered hrun
  have hstub : SyscallId.sysIpcServerConnect.stub = some .sysIpcServerConnect := rfl
  have hall := (syscall_returns h hstub rfl hisr hkept (fun _ => .inr (by decide))).2
  generalize connectEntry.answered ⟨some 0, some 7⟩ = left at hall ⊢
  exact hall

end Cpu

end LtMicros
