import LtMicros.Thread
import LtMicros.Lib.Words

/-!
# The processor at an interrupt

The registers and the memory, what the processor and `SAVE_REGS` push when it is
interrupted, and the instructions of `_startOrResumeThread`. Segments are flat; an
interrupt does not come in between.
-/

namespace LtMicros

open Lib

/-- The processor. -/
structure Cpu where
  eax : U32
  ebx : U32
  ecx : U32
  edx : U32
  esi : U32
  edi : U32
  ebp : U32
  esp : U32
  eip : U32
  eflags : U32
  cs : U16
  ss : U16
  ds : U16
  es : U16
  fs : U16
  gs : U16
  cr3 : U32
  mem : Bytes

/-- The low half and the low byte of a register are replaced. -/
def setLow16 (r w : U32) : U32 := BitVec.ofNat 32 (r.toNat / 2 ^ 16 * 2 ^ 16 + w.toNat % 2 ^ 16)

def setLow8 (r w : U32) : U32 := BitVec.ofNat 32 (r.toNat / 2 ^ 8 * 2 ^ 8 + w.toNat % 2 ^ 8)

/-- The arguments as they lie on the stack, the first one lowest. -/
def StartArgs.words (args : StartArgs) : List U32 :=
  [args.pd, args.ss, args.esp, args.eflags, args.cs, args.eip, args.eax, args.ecx, args.edx,
    args.ebx, args.ebp, args.esi, args.edi, args.ds, args.es, args.fs, args.gs,
    if args.privLevel = .kernel then 0 else 1, args.kss.setWidth 32, args.kesp]

namespace Cpu

/-- The word at an address. -/
def word (c : Cpu) (a : U32) : U32 := BitVec.ofNat 32 (c.mem.load32 a.toNat)

/-- `push`. -/
def push (c : Cpu) (w : U32) : Cpu :=
  { c with esp := c.esp - 4, mem := c.mem.store32 (c.esp - 4).toNat w.toNat }

/-- The word on top of the stack, and the stack without it: the parts of `pop`. -/
def top (c : Cpu) : U32 := c.word c.esp

def popped (c : Cpu) : Cpu := { c with esp := c.esp + 4 }

/-- A context that `SAVE_REGS` and the processor have pushed. -/
def context (c : Cpu) (p : U32) : InterruptContext where
  gs := c.word p
  fs := c.word (p + 4)
  es := c.word (p + 8)
  ds := c.word (p + 12)
  edi := c.word (p + 16)
  esi := c.word (p + 20)
  ebp := c.word (p + 24)
  esp := c.word (p + 28)
  ebx := c.word (p + 32)
  edx := c.word (p + 36)
  ecx := c.word (p + 40)
  eax := c.word (p + 44)
  eip := c.word (p + 48)
  cs := c.word (p + 52)
  eflags := c.word (p + 56)
  espI := c.word (p + 60)
  ss := c.word (p + 64)

/-! ## The interrupt -/

/-- The part of the processor: from user mode it goes to the stack of the TSS and
pushes five words, otherwise three. -/
def interrupt (c : Cpu) (gTss : KernelStack) : Cpu :=
  let below := { c with ss := gTss.ss0, esp := gTss.esp0 }
  let c' := if c.cs = kernelCodeSelector then c
    else (below.push (c.ss.setWidth 32)).push c.esp
  let c' := ((c'.push c.eflags).push (c.cs.setWidth 32)).push c.eip
  { c' with cs := kernelCodeSelector }

/-- `pushad`. -/
def pushad (c : Cpu) : Cpu :=
  let esp := c.esp
  (((((((c.push c.eax).push c.ecx).push c.edx).push c.ebx).push esp).push c.ebp).push c.esi).push
    c.edi

/-- From `push ds` to `push gs`. -/
def pushSegments (c : Cpu) : Cpu :=
  (((c.push (c.ds.setWidth 32)).push (c.es.setWidth 32)).push (c.fs.setWidth 32)).push
    (c.gs.setWidth 32)

/-- From `push ebx` to `pop ebx`: the data segment of the kernel. -/
def loadKernelData (c : Cpu) : Cpu :=
  let c := c.push c.ebx
  let c := { c with ebx := setLow16 c.ebx 0x10 }
  let c := { c with ds := c.ebx.setWidth 16 }
  { c.popped with ebx := c.top }

/-- `SAVE_REGS`. -/
def saveRegs (c : Cpu) : Cpu :=
  let c := c.pushad.pushSegments.loadKernelData
  c.push c.esp

/-! ## `_startOrResumeThread` -/

/-- `push dword [esi+offset]`, one after the other. -/
def pushArgs (c : Cpu) : List U32 → Cpu
  | [] => c
  | offset :: offsets => (c.push (c.word (c.esi + offset))).pushArgs offsets

/-- From `kernel_mode` or `user_mode` to `next`. -/
def pushFrame (c : Cpu) : Cpu :=
  if c.eax = 0 then c.pushArgs [20, 24, 28]
  else c.pushArgs [12, 16, 20, 24, 28]

/-- From `pop gs` to `pop eax`. -/
def popRegs (c : Cpu) : Cpu :=
  let c := { c.popped with gs := c.top.setWidth 16 }
  let c := { c.popped with fs := c.top.setWidth 16 }
  let c := { c.popped with es := c.top.setWidth 16 }
  let c := { c.popped with ds := c.top.setWidth 16 }
  let c := { c.popped with edi := c.top }
  let c := { c.popped with esi := c.top }
  let c := { c.popped with ebp := c.top }
  let c := { c.popped with ebx := c.top }
  let c := { c.popped with edx := c.top }
  let c := { c.popped with ecx := c.top }
  { c.popped with eax := c.top }

/-- The last instructions before `iret`: the data segment of the user, and the end
of the interrupt. -/
def endOfInterrupt (c : Cpu) : Cpu :=
  let c := { c with eax := setLow16 c.eax 0x23 }
  let c := { c with ds := c.eax.setWidth 16 }
  { c with eax := setLow8 c.eax 0x20 }

/-- From `push ebp` to `mov esi, esp`. -/
def enterFrame (c : Cpu) : Cpu :=
  let c := c.push c.ebp
  { c with esi := c.esp }

/-- From `mov ss, [esi+80]` to `mov eax, [esi+76]`. -/
def switchStack (c : Cpu) : Cpu :=
  let c := { c with ss := (c.word (c.esi + 80)).setWidth 16 }
  let c := { c with esp := c.word (c.esi + 84) }
  let c := { c with eax := c.word (c.esi + 8) }
  let c := { c with cr3 := c.eax }
  { c with eax := c.word (c.esi + 76) }

/-- `_startOrResumeThread` up to its `iret`. -/
def startOrResumeThread (c : Cpu) : Cpu :=
  let c := c.enterFrame.switchStack.pushFrame
  let c := c.pushArgs [32, 36, 40, 44, 48, 52, 56, 60, 64, 68, 72]
  c.popRegs.endOfInterrupt

/-- `iret` in kernel mode. It goes back to user mode when the selector says so. -/
def iret (c : Cpu) : Cpu :=
  let c := { c.popped with eip := c.top }
  let c := { c.popped with cs := c.top.setWidth 16 }
  let c : Cpu := { c.popped with eflags := c.top }
  if c.cs &&& 3 = 0 then c
  else { c with esp := c.top, ss := (c.popped.top).setWidth 16 }

end Cpu

end LtMicros
