import LtMicros.ThreadResume

/-!
# Interrupt routines

The macros around an interrupt routine, `INT_PROLOG` and `INT_EPILOG`, and those around the routine
of an exception. What the routine itself does is not looked at, apart from the frame that lies on
the stack while it runs.
-/

namespace LtMicros

open Lib

namespace Cpu

/-! ## The macros -/

/-- `EOI`. -/
def eoi (c : Cpu) : Cpu := { c with eax := setLow8 c.eax 0x20 }

/-- From `pop gs` to `pop ds`. -/
def popSegments (c : Cpu) : Cpu :=
  let c := { c.popped with gs := c.top.setWidth 16 }
  let c := { c.popped with fs := c.top.setWidth 16 }
  let c := { c.popped with es := c.top.setWidth 16 }
  { c.popped with ds := c.top.setWidth 16 }

/-- `popad`, which throws the word for `esp` away. -/
def popad (c : Cpu) : Cpu :=
  let c := { c.popped with edi := c.top }
  let c := { c.popped with esi := c.top }
  let c := { c.popped with ebp := c.top }
  let c := c.popped
  let c := { c.popped with ebx := c.top }
  let c := { c.popped with edx := c.top }
  let c := { c.popped with ecx := c.top }
  { c.popped with eax := c.top }

/-- `pop ebx`. -/
def popEbx (c : Cpu) : Cpu := { c.popped with ebx := c.top }

/-- `RESTORE_REGS`. -/
def restoreRegs (c : Cpu) : Cpu := c.popEbx.popSegments.popad

/-- `INT_EPILOG`. -/
def intEpilog (c : Cpu) : Cpu := c.eoi.restoreRegs.iret

/-- The control registers are pushed, each of them by way of `ebx`. -/
def pushControl (c : Cpu) (cr0 cr2 : U32) : Cpu :=
  let c := { c with ebx := cr0 }
  let c := c.push c.ebx
  let c := { c with ebx := cr2 }
  let c := c.push c.ebx
  let c := { c with ebx := c.cr3 }
  c.push c.ebx

/-- The last instructions of `SAVE_REGS_EXCEPTION`. -/
def loadDs (c : Cpu) : Cpu :=
  let c := { c with ebx := setLow16 c.ebx 0x10 }
  { c with ds := c.ebx.setWidth 16 }

/-- `SAVE_REGS_EXCEPTION`. -/
def saveRegsException (c : Cpu) (cr0 cr2 : U32) : Cpu :=
  let c := (c.pushad.push c.eflags).pushSegments.pushControl cr0 cr2
  (c.push c.esp).loadDs

/-- The argument and the control registers are dropped. -/
def popControl (c : Cpu) : Cpu := c.popEbx.popEbx.popEbx.popEbx

/-- `RESTORE_REGS_EXCEPTION`. The last word that is dropped is the error code. -/
def restoreRegsException (c : Cpu) : Cpu := c.popControl.popSegments.popEbx.popad.popped

/-- `INT_EPILOG_EXCEPTION`. -/
def intEpilogException (c : Cpu) : Cpu := c.eoi.restoreRegsException.iret

variable {c c' : Cpu} {w w' : U32} {ws : List U32} {room : ℕ} {gTss : KernelStack}
  {gs fs es ds edi esi ebp esp ebx edx ecx eax eip cs eflags ss slot : U32}

/-! ## The stack of the macros -/

theorem Stack.popSegments (h : c.Stack room (gs :: fs :: es :: ds :: w :: ws)) :
    c.popSegments = { c with
      gs := gs.setWidth 16, fs := fs.setWidth 16, es := es.setWidth 16, ds := ds.setWidth 16
      esp := c.esp + 16 } ∧ c.popSegments.Stack (room + 4) (w :: ws) := by
  have hlen (n : ℕ) (hn : n < 4) : n < (gs :: fs :: es :: ds :: w :: ws).length := by
    simp only [List.length_cons]
    omega
  have h0 := h.top
  simp only [Cpu.top, Cpu.word] at h0
  have heq : c.popSegments = { c with
      gs := gs.setWidth 16, fs := fs.setWidth 16, es := es.setWidth 16, ds := ds.setWidth 16
      esp := c.esp + 16 } := by
    simp only [Cpu.popSegments, Cpu.popped, Cpu.top, Cpu.word, BitVec.add_assoc,
      BitVec.reduceAdd, h0, h.word_eq 4 (hlen 1 (by decide)) rfl,
      h.word_eq 8#32 (hlen 2 (by decide)) rfl, h.word_eq 12#32 (hlen 3 (by decide)) rfl]
    rfl
  have hleft := h.popped.popped.popped.popped
  refine ⟨heq, hleft.congr ?_ ?_⟩
  · rw [heq]
    simp only [popped_mem]
  · rw [heq]
    simp only [popped_esp, BitVec.add_assoc, BitVec.reduceAdd]
    rfl

theorem Stack.popad (h : c.Stack room (edi :: esi :: ebp :: esp :: ebx :: edx :: ecx :: eax ::
      w :: ws)) :
    c.popad = { c with edi, esi, ebp, ebx, edx, ecx, eax, esp := c.esp + 32 } ∧
      c.popad.Stack (room + 8) (w :: ws) := by
  have hlen (n : ℕ) (hn : n < 8) : n < (edi :: esi :: ebp :: esp :: ebx :: edx :: ecx :: eax ::
      w :: ws).length := by
    simp only [List.length_cons]
    omega
  have h0 := h.top
  simp only [Cpu.top, Cpu.word] at h0
  have heq : c.popad = { c with edi, esi, ebp, ebx, edx, ecx, eax, esp := c.esp + 32 } := by
    simp only [Cpu.popad, Cpu.popped, Cpu.top, Cpu.word, BitVec.add_assoc, BitVec.reduceAdd, h0,
      h.word_eq 4 (hlen 1 (by decide)) rfl, h.word_eq 8#32 (hlen 2 (by decide)) rfl,
      h.word_eq 16#32 (hlen 4 (by decide)) rfl, h.word_eq 20#32 (hlen 5 (by decide)) rfl,
      h.word_eq 24#32 (hlen 6 (by decide)) rfl, h.word_eq 28#32 (hlen 7 (by decide)) rfl]
    rfl
  have hleft := h.popped.popped.popped.popped.popped.popped.popped.popped
  refine ⟨heq, hleft.congr ?_ ?_⟩
  · rw [heq]
    simp only [popped_mem]
  · rw [heq]
    simp only [popped_esp, BitVec.add_assoc, BitVec.reduceAdd]
    rfl

theorem Stack.popEbx (h : c.Stack room (w :: w' :: ws)) :
    c.popEbx = { c with ebx := w, esp := c.esp + 4 } ∧
      c.popEbx.Stack (room + 1) (w' :: ws) := by
  have heq : c.popEbx = { c with ebx := w, esp := c.esp + 4 } := by
    rw [Cpu.popEbx, h.top]
    rfl
  refine ⟨heq, h.popped.congr ?_ ?_⟩
  · rw [heq]
    rfl
  · rw [heq]
    rfl

theorem Stack.eoi (h : c.Stack room ws) : c.eoi.Stack room ws := h.congr rfl rfl

/-- `RESTORE_REGS` takes the registers from the stack, and leaves the frame of `iret`. -/
theorem Stack.restoreRegs (h : c.Stack room (slot :: gs :: fs :: es :: ds :: edi :: esi :: ebp ::
      esp :: ebx :: edx :: ecx :: eax :: w :: ws)) :
    c.restoreRegs = { c with
      gs := gs.setWidth 16, fs := fs.setWidth 16, es := es.setWidth 16, ds := ds.setWidth 16
      edi, esi, ebp, ebx, edx, ecx, eax, esp := c.esp + 52 } ∧
      c.restoreRegs.Stack (room + 13) (w :: ws) := by
  obtain ⟨h₁, hs₁⟩ := h.popEbx
  obtain ⟨h₂, hs₂⟩ := hs₁.popSegments
  obtain ⟨h₃, hs₃⟩ := hs₂.popad
  refine ⟨?_, hs₃⟩
  rw [Cpu.restoreRegs, h₃, h₂, h₁]
  simp only [BitVec.add_assoc, BitVec.reduceAdd]
  rfl

/-- A kernel thread goes on with the context that lies on its stack. -/
theorem Stack.intEpilog_kernel (h : c.Stack room (slot :: gs :: fs :: es :: ds :: edi :: esi ::
      ebp :: esp :: ebx :: edx :: ecx :: eax :: eip :: cs :: eflags :: ws))
    (hcs : cs.setWidth 16 &&& 3 = (0 : U16)) :
    c.intEpilog = { c with
      gs := gs.setWidth 16, fs := fs.setWidth 16, es := es.setWidth 16, ds := ds.setWidth 16
      edi, esi, ebp, ebx, edx, ecx, eax, eip, cs := cs.setWidth 16, eflags
      esp := c.esp + 64 } := by
  obtain ⟨hregs, hframe⟩ := h.eoi.restoreRegs
  rw [intEpilog, hframe.iret_kernel hcs, hregs]
  simp only [BitVec.add_assoc, BitVec.reduceAdd]
  rfl

/-- A user thread goes on with the context that lies on the kernel stack. -/
theorem Stack.intEpilog_user {uesp : U32} (h : c.Stack room (slot :: gs :: fs :: es :: ds :: edi ::
      esi :: ebp :: esp :: ebx :: edx :: ecx :: eax :: eip :: cs :: eflags :: uesp :: ss :: ws))
    (hcs : cs.setWidth 16 &&& 3 ≠ (0 : U16)) :
    c.intEpilog = { c with
      gs := gs.setWidth 16, fs := fs.setWidth 16, es := es.setWidth 16, ds := ds.setWidth 16
      edi, esi, ebp, ebx, edx, ecx, eax, eip, cs := cs.setWidth 16, eflags
      esp := uesp, ss := ss.setWidth 16 } := by
  obtain ⟨hregs, hframe⟩ := h.eoi.restoreRegs
  rw [intEpilog, hframe.iret_user hcs, hregs]
  rfl

/-! ## A routine that returns -/

/-- A call of a routine comes back. The argument on the stack belongs to the routine; above it lie
these words. -/
structure Returns (c c' : Cpu) (frame : List U32) : Prop where
  esp : c'.esp = c.esp
  ss : c'.ss = c.ss
  words : c'.mem.Words (c.esp.toNat + 4) frame

theorem Returns.stack {frame frame' : List U32} (h : Returns c c' frame')
    (hc : c.Stack room (w :: frame)) (hlen : frame'.length = frame.length) :
    c'.Stack room (c'.top :: frame') := by
  have hesp : c'.esp.toNat = c.esp.toNat := congrArg BitVec.toNat h.esp
  have hbound := hc.bound
  refine ⟨⟨?_, ?_⟩, ?_, ?_⟩
  · rw [top, word, BitVec.toNat_ofNat]
    exact (Nat.mod_eq_of_lt (Bytes.load32_lt _ _)).symm
  · rw [hesp]
    exact h.words
  · rw [List.length_cons] at hbound ⊢
    omega
  · rw [hesp]
    exact hc.room

/-- The registers as `SAVE_REGS` leaves them on the stack. -/
def savedRegs (c : Cpu) : List U32 :=
  [c.gs.setWidth 32, c.fs.setWidth 32, c.es.setWidth 32, c.ds.setWidth 32, c.edi, c.esi, c.ebp,
    c.esp, c.ebx, c.edx, c.ecx, c.eax]

theorem Stack.saved (h : c.Stack 13 ws) :
    c.saveRegs.Stack 0 (c.saveRegs.popped.esp :: c.savedRegs ++ ws) := by
  have hstack := h.pushad.pushSegments.loadKernelData
  have hsame := sameRegs_pushad c
  rw [hsame.ds, hsame.es, hsame.fs, hsame.gs] at hstack
  have hpush := hstack.push c.pushad.pushSegments.loadKernelData.esp
  have hesp : c.saveRegs.popped.esp = c.pushad.pushSegments.loadKernelData.esp :=
    BitVec.sub_add_cancel _ _
  rw [hesp]
  exact hpush

theorem saveRegs_esp (c : Cpu) : c.saveRegs.esp = c.esp - 52 := by
  show c.esp - 4 - 4 - 4 - 4 - 4 - 4 - 4 - 4 - 4 - 4 - 4 - 4 - 4 + 4 - 4 = c.esp - 52
  bv_omega

theorem push_ss (c : Cpu) (w : U32) : (c.push w).ss = c.ss := rfl

theorem saveRegs_ss (c : Cpu) : c.saveRegs.ss = c.ss := by
  have hkernel (c : Cpu) : c.loadKernelData.ss = c.ss := rfl
  simp only [saveRegs, hkernel, pushSegments, pushad, push_ss]

/-- What the processor pushes. -/
def iretFrame (c : Cpu) : List U32 :=
  if c.cs = kernelCodeSelector then [c.eip, c.cs.setWidth 32, c.eflags]
  else [c.eip, c.cs.setWidth 32, c.eflags, c.esp, c.ss.setWidth 32]

theorem Interruptible.stack (hc : Interruptible c gTss) :
    (c.interrupt gTss).Stack 13 c.iretFrame := by
  have hroom := hc.room
  rw [iretFrame]
  split at hroom
  next hcs =>
    rw [if_pos hcs]
    exact interrupt_kernel hcs hroom
  next hcs =>
    rw [if_neg hcs]
    exact interrupt_user hcs hroom

/-- The interrupted thread goes on with the registers that the routine leaves in its context, in
the mode it was in and at the place where it was. -/
theorem returns_intEpilog (hc : Interruptible c gTss)
    (h : Returns (c.interrupt gTss).saveRegs c'
      ([gs, fs, es, ds, edi, esi, ebp, esp, ebx, edx, ecx, eax] ++ c.iretFrame)) :
    c'.intEpilog = { c with
      gs := gs.setWidth 16, fs := fs.setWidth 16, es := es.setWidth 16, ds := ds.setWidth 16
      edi, esi, ebp, ebx, edx, ecx, eax, mem := c'.mem, cr3 := c'.cr3 } := by
  have hwidth (x : U16) : (x.setWidth 32).setWidth 16 = x := by simp
  have hstack := h.stack hc.stack.saved rfl
  rcases hc.mode with ⟨hcs, hss⟩ | ⟨hcs, hss⟩
  · have hframe : c.iretFrame = [c.eip, c.cs.setWidth 32, c.eflags] := if_pos hcs
    rw [hframe] at hstack
    have hkernel : (c.cs.setWidth 32).setWidth 16 &&& 3 = (0 : U16) := by
      rw [hwidth, hcs]
      decide
    have hesp : c'.esp + 64 = c.esp := by
      rw [h.esp, saveRegs_esp, interrupt, if_pos hcs]
      show c.esp - 4 - 4 - 4 - 52 + 64 = c.esp
      bv_omega
    have hss' : c'.ss = c.ss := by
      rw [h.ss, saveRegs_ss, interrupt, if_pos hcs]
      rfl
    rw [hstack.intEpilog_kernel hkernel, hesp, hwidth, ← hss']
  · have hne : c.cs ≠ kernelCodeSelector := by
      rw [hcs]
      decide
    have hframe : c.iretFrame =
        [c.eip, c.cs.setWidth 32, c.eflags, c.esp, c.ss.setWidth 32] := if_neg hne
    rw [hframe] at hstack
    have huser : (c.cs.setWidth 32).setWidth 16 &&& 3 ≠ (0 : U16) := by
      rw [hwidth, hcs]
      decide
    rw [hstack.intEpilog_user huser, hwidth, hwidth]

/-- A routine that leaves its context alone is not noticed: every register of the interrupted
thread is what it was, in either mode. -/
theorem isr_transparent (hc : Interruptible c gTss)
    (h : Returns (c.interrupt gTss).saveRegs c' ((c.interrupt gTss).savedRegs ++ c.iretFrame)) :
    c'.intEpilog = { c with mem := c'.mem, cr3 := c'.cr3 } := by
  have hsame := sameRegs_interrupt c gTss
  have hwidth (x : U16) : (x.setWidth 32).setWidth 16 = x := by simp
  rw [savedRegs] at h
  rw [returns_intEpilog hc h, hsame.gs, hsame.fs, hsame.es, hsame.ds, hsame.edi, hsame.esi,
    hsame.ebp, hsame.ebx, hsame.edx, hsame.ecx, hsame.eax]
  simp only [hwidth]

/-- `default_isr`, which does nothing, in a user thread. -/
theorem default_isr_transparent : Interruptible (userCpu 7) userStack ∧
    ((userCpu 7).interrupt userStack).saveRegs.intEpilog = { userCpu 7 with
      mem := ((userCpu 7).interrupt userStack).saveRegs.mem
      cr3 := ((userCpu 7).interrupt userStack).saveRegs.cr3 } := by
  have hc := userCpu_interruptible 7
  exact ⟨hc, isr_transparent hc ⟨rfl, rfl, hc.stack.saved.words.2⟩⟩

/-- The context of a user thread, on the kernel stack. -/
theorem context_user (hcs : c.cs ≠ kernelCodeSelector) (hroom : 72 ≤ gTss.esp0.toNat) :
    c.interrupted gTss = ⟨c.gs.setWidth 32, c.fs.setWidth 32, c.es.setWidth 32, c.ds.setWidth 32,
      c.edi, c.esi, c.ebp, (c.interrupt gTss).esp, c.ebx, c.edx, c.ecx, c.eax, c.eip,
      c.cs.setWidth 32, c.eflags, c.esp, c.ss.setWidth 32⟩ := by
  have hsame := sameRegs_interrupt c gTss
  have hstack : (c.interrupt gTss).Stack 13 _ := interrupt_user hcs hroom
  have hesp := hstack.saveRegs.2.word (show 15 < 17 by decide)
  have hss := hstack.saveRegs.2.word (show 16 < 17 by decide)
  rw [interrupted, hstack.saveRegs_context, hsame.gs, hsame.fs, hsame.es, hsame.ds, hsame.edi,
    hsame.esi, hsame.ebp, hsame.ebx, hsame.edx, hsame.ecx, hsame.eax]
  exact congrArg₂ _ hesp hss

/-! ## Exceptions -/

/-- The processor raises an exception that has an error code. -/
def fault (c : Cpu) (gTss : KernelStack) (code : U32) : Cpu := (c.interrupt gTss).push code

/-- `ExceptionContextWithCode`. -/
structure ExceptionContextWithCode where
  cr3 : U32
  cr2 : U32
  cr0 : U32
  gs : U32
  fs : U32
  es : U32
  ds : U32
  eflags : U32
  edi : U32
  esi : U32
  ebp : U32
  esp : U32
  ebx : U32
  edx : U32
  ecx : U32
  eax : U32
  code : U32
  eip : U32

/-- The context at an address. -/
def exceptionContext (c : Cpu) (p : U32) : ExceptionContextWithCode where
  cr3 := c.word p
  cr2 := c.word (p + 4)
  cr0 := c.word (p + 8)
  gs := c.word (p + 12)
  fs := c.word (p + 16)
  es := c.word (p + 20)
  ds := c.word (p + 24)
  eflags := c.word (p + 28)
  edi := c.word (p + 32)
  esi := c.word (p + 36)
  ebp := c.word (p + 40)
  esp := c.word (p + 44)
  ebx := c.word (p + 48)
  edx := c.word (p + 52)
  ecx := c.word (p + 56)
  eax := c.word (p + 60)
  code := c.word (p + 64)
  eip := c.word (p + 68)

/-- There is room for the words of an exception. -/
structure Faultable (c : Cpu) (gTss : KernelStack) : Prop where
  mode : c.cs = kernelCodeSelector ∧ c.ss = kernelDataSelector ∨
    c.cs = userCodeSelectorWithRpl ∧ c.ss = userDataSelectorWithRpl
  room : if c.cs = kernelCodeSelector then 84 ≤ c.esp.toNat else 92 ≤ gTss.esp0.toNat

theorem Faultable.stack (hc : Faultable c gTss) : (c.interrupt gTss).Stack 18 c.iretFrame := by
  have hroom := hc.room
  rw [iretFrame, interrupt]
  split at hroom
  next hcs =>
    rw [if_pos hcs, if_pos hcs]
    have hnil : c.Stack 21 [] := .nil hroom
    exact (((hnil.push c.eflags).push (c.cs.setWidth 32)).push c.eip).congr rfl rfl
  next hcs =>
    rw [if_neg hcs, if_neg hcs]
    have hnil : ({ c with ss := gTss.ss0, esp := gTss.esp0 } : Cpu).Stack 23 [] := .nil hroom
    exact (((((hnil.push (c.ss.setWidth 32)).push c.esp).push c.eflags).push
      (c.cs.setWidth 32)).push c.eip).congr rfl rfl

/-- The registers as `SAVE_REGS_EXCEPTION` leaves them on the stack. -/
def savedException (c : Cpu) (cr0 cr2 : U32) : List U32 :=
  [c.cr3, cr2, cr0, c.gs.setWidth 32, c.fs.setWidth 32, c.es.setWidth 32, c.ds.setWidth 32,
    c.eflags, c.edi, c.esi, c.ebp, c.esp, c.ebx, c.edx, c.ecx, c.eax]

theorem Stack.pushControl (cr0 cr2 : U32) (h : c.Stack (room + 3) ws) :
    (c.pushControl cr0 cr2).Stack room (c.cr3 :: cr2 :: cr0 :: ws) :=
  (((h.push cr0).push cr2).push c.cr3).congr rfl rfl

theorem Stack.loadDs (h : c.Stack room ws) : c.loadDs.Stack room ws := h.congr rfl rfl

theorem push_cr3 (c : Cpu) (w : U32) : (c.push w).cr3 = c.cr3 := rfl

theorem Stack.savedException {cr0 cr2 : U32} (h : c.Stack 17 ws) :
    (c.saveRegsException cr0 cr2).Stack 0
      ((c.saveRegsException cr0 cr2).popped.esp :: c.savedException cr0 cr2 ++ ws) := by
  have hpushad : c.pushad.Stack 9 _ := h.pushad
  have hsegments := (hpushad.push c.eflags).pushSegments
  have hsame := (sameRegs_pushad c).push c.eflags
  rw [hsame.ds, hsame.es, hsame.fs, hsame.gs] at hsegments
  have hstack := hsegments.pushControl cr0 cr2
  have hcr3 : (c.pushad.push c.eflags).pushSegments.cr3 = c.cr3 := by
    simp only [Cpu.pushSegments, Cpu.pushad, push_cr3]
  rw [hcr3] at hstack
  have hall := (hstack.push ((c.pushad.push c.eflags).pushSegments.pushControl cr0 cr2).esp).loadDs
  have hesp : (c.saveRegsException cr0 cr2).popped.esp =
      ((c.pushad.push c.eflags).pushSegments.pushControl cr0 cr2).esp :=
    BitVec.sub_add_cancel _ _
  rw [hesp]
  exact hall

theorem Stack.popControl {w₁ w₂ w₃ w₄ : U32} (h : c.Stack room (w₁ :: w₂ :: w₃ :: w₄ :: w :: ws)) :
    c.popControl = { c with ebx := w₄, esp := c.esp + 16 } ∧
      c.popControl.Stack (room + 4) (w :: ws) := by
  obtain ⟨h₁, hs₁⟩ := h.popEbx
  obtain ⟨h₂, hs₂⟩ := hs₁.popEbx
  obtain ⟨h₃, hs₃⟩ := hs₂.popEbx
  obtain ⟨h₄, hs₄⟩ := hs₃.popEbx
  refine ⟨?_, hs₄⟩
  rw [Cpu.popControl, h₄, h₃, h₂, h₁]
  simp only [BitVec.add_assoc, BitVec.reduceAdd]
  rfl

/-- `RESTORE_REGS_EXCEPTION` takes the registers from the stack and drops one word more. -/
theorem Stack.restoreRegsException {cr3 cr2 cr0 code : U32}
    (h : c.Stack room (slot :: cr3 :: cr2 :: cr0 :: gs :: fs :: es :: ds :: eflags :: edi :: esi ::
      ebp :: esp :: ebx :: edx :: ecx :: eax :: code :: w :: ws)) :
    c.restoreRegsException = { c with
      gs := gs.setWidth 16, fs := fs.setWidth 16, es := es.setWidth 16, ds := ds.setWidth 16
      edi, esi, ebp, ebx, edx, ecx, eax, esp := c.esp + 72 } ∧
      c.restoreRegsException.Stack (room + 18) (w :: ws) := by
  obtain ⟨h₁, hs₁⟩ := h.popControl
  obtain ⟨h₂, hs₂⟩ := hs₁.popSegments
  obtain ⟨h₃, hs₃⟩ := hs₂.popEbx
  obtain ⟨h₄, hs₄⟩ := hs₃.popad
  refine ⟨?_, hs₄.popped⟩
  have hpopped (x : Cpu) : x.popped = { x with esp := x.esp + 4 } := rfl
  rw [Cpu.restoreRegsException, hpopped, h₄, h₃, h₂, h₁]
  simp only [BitVec.add_assoc, BitVec.reduceAdd]
  rfl

/-- The context of an exception, which lies on the stack. -/
theorem Stack.exceptionContext {cr3 cr2 cr0 code : U32}
    (h : c.Stack room (cr3 :: cr2 :: cr0 :: gs :: fs :: es :: ds :: eflags :: edi :: esi ::
      ebp :: esp :: ebx :: edx :: ecx :: eax :: code :: eip :: ws)) :
    c.exceptionContext c.esp = ⟨cr3, cr2, cr0, gs, fs, es, ds, eflags, edi, esi, ebp, esp, ebx,
      edx, ecx, eax, code, eip⟩ := by
  have hlen (n : ℕ) (hn : n < 18) : n < (cr3 :: cr2 :: cr0 :: gs :: fs :: es :: ds :: eflags ::
      edi :: esi :: ebp :: esp :: ebx :: edx :: ecx :: eax :: code :: eip :: ws).length := by
    simp only [List.length_cons]
    omega
  have h0 : c.word c.esp = cr3 := h.top
  have h1 : c.word (c.esp + 4) = cr2 := h.word (hlen 1 (by decide))
  have h2 : c.word (c.esp + 8) = cr0 := h.word (hlen 2 (by decide))
  have h3 : c.word (c.esp + 12) = gs := h.word (hlen 3 (by decide))
  have h4 : c.word (c.esp + 16) = fs := h.word (hlen 4 (by decide))
  have h5 : c.word (c.esp + 20) = es := h.word (hlen 5 (by decide))
  have h6 : c.word (c.esp + 24) = ds := h.word (hlen 6 (by decide))
  have h7 : c.word (c.esp + 28) = eflags := h.word (hlen 7 (by decide))
  have h8 : c.word (c.esp + 32) = edi := h.word (hlen 8 (by decide))
  have h9 : c.word (c.esp + 36) = esi := h.word (hlen 9 (by decide))
  have h10 : c.word (c.esp + 40) = ebp := h.word (hlen 10 (by decide))
  have h11 : c.word (c.esp + 44) = esp := h.word (hlen 11 (by decide))
  have h12 : c.word (c.esp + 48) = ebx := h.word (hlen 12 (by decide))
  have h13 : c.word (c.esp + 52) = edx := h.word (hlen 13 (by decide))
  have h14 : c.word (c.esp + 56) = ecx := h.word (hlen 14 (by decide))
  have h15 : c.word (c.esp + 60) = eax := h.word (hlen 15 (by decide))
  have h16 : c.word (c.esp + 64) = code := h.word (hlen 16 (by decide))
  have h17 : c.word (c.esp + 68) = eip := h.word (hlen 17 (by decide))
  rw [Cpu.exceptionContext, h0, h1, h2, h3, h4, h5, h6, h7, h8, h9, h10, h11, h12, h13, h14, h15,
    h16, h17]

theorem Faultable.saved (hc : Faultable c gTss) (code cr0 cr2 : U32) :
    ((c.fault gTss code).saveRegsException cr0 cr2).Stack 0
      (((c.fault gTss code).saveRegsException cr0 cr2).popped.esp ::
        (c.fault gTss code).savedException cr0 cr2 ++ code :: c.iretFrame) :=
  (hc.stack.push code).savedException

theorem saveRegsException_esp (c : Cpu) (cr0 cr2 : U32) :
    (c.saveRegsException cr0 cr2).esp = c.esp - 68 := by
  show c.esp - 4 - 4 - 4 - 4 - 4 - 4 - 4 - 4 - 4 - 4 - 4 - 4 - 4 - 4 - 4 - 4 - 4 = c.esp - 68
  bv_omega

theorem saveRegsException_ss (c : Cpu) (cr0 cr2 : U32) :
    (c.saveRegsException cr0 cr2).ss = c.ss := by
  have hload (c : Cpu) : c.loadDs.ss = c.ss := rfl
  have hcontrol (c : Cpu) : (c.pushControl cr0 cr2).ss = c.ss := rfl
  simp only [saveRegsException, hload, hcontrol, pushSegments, pushad, push_ss]

theorem intEpilogException_kernel {cr3 cr2 cr0 code : U32}
    (h : c.Stack room (slot :: cr3 :: cr2 :: cr0 :: gs :: fs :: es :: ds :: eflags :: edi :: esi ::
      ebp :: esp :: ebx :: edx :: ecx :: eax :: code :: eip :: cs :: w :: ws))
    (hcs : cs.setWidth 16 &&& 3 = (0 : U16)) :
    c.intEpilogException = { c with
      gs := gs.setWidth 16, fs := fs.setWidth 16, es := es.setWidth 16, ds := ds.setWidth 16
      edi, esi, ebp, ebx, edx, ecx, eax, eip, cs := cs.setWidth 16, eflags := w
      esp := c.esp + 84 } := by
  obtain ⟨hregs, hframe⟩ := h.eoi.restoreRegsException
  rw [intEpilogException, hframe.iret_kernel hcs, hregs]
  simp only [BitVec.add_assoc, BitVec.reduceAdd]
  rfl

theorem intEpilogException_user {cr3 cr2 cr0 code uesp : U32}
    (h : c.Stack room (slot :: cr3 :: cr2 :: cr0 :: gs :: fs :: es :: ds :: eflags :: edi :: esi ::
      ebp :: esp :: ebx :: edx :: ecx :: eax :: code :: eip :: cs :: w :: uesp :: ss :: ws))
    (hcs : cs.setWidth 16 &&& 3 ≠ (0 : U16)) :
    c.intEpilogException = { c with
      gs := gs.setWidth 16, fs := fs.setWidth 16, es := es.setWidth 16, ds := ds.setWidth 16
      edi, esi, ebp, ebx, edx, ecx, eax, eip, cs := cs.setWidth 16, eflags := w
      esp := uesp, ss := ss.setWidth 16 } := by
  obtain ⟨hregs, hframe⟩ := h.eoi.restoreRegsException
  rw [intEpilogException, hframe.iret_user hcs, hregs]
  rfl

theorem exceptionContext_popped (c : Cpu) (p : U32) :
    c.popped.exceptionContext p = c.exceptionContext p := rfl

theorem fault_cr3 (c : Cpu) (gTss : KernelStack) (code : U32) :
    (c.fault gTss code).cr3 = c.cr3 := by
  rw [fault, push_cr3, interrupt]
  split <;> rfl

theorem iretFrame_eq (c : Cpu) :
    ∃ ws, c.iretFrame = c.eip :: c.cs.setWidth 32 :: c.eflags :: ws := by
  rw [iretFrame]
  split
  · exact ⟨_, rfl⟩
  · exact ⟨_, rfl⟩

/-- What the routine of an exception finds in its context. -/
theorem Faultable.context (hc : Faultable c gTss) (code cr0 cr2 : U32) :
    ((c.fault gTss code).saveRegsException cr0 cr2).exceptionContext
        ((c.fault gTss code).saveRegsException cr0 cr2).top =
      ⟨c.cr3, cr2, cr0, c.gs.setWidth 32, c.fs.setWidth 32, c.es.setWidth 32, c.ds.setWidth 32,
        (c.fault gTss code).eflags, c.edi, c.esi, c.ebp, (c.fault gTss code).esp, c.ebx, c.edx,
        c.ecx, c.eax, code, c.eip⟩ := by
  have hsame : SameRegs c (c.fault gTss code) := (sameRegs_interrupt c gTss).push code
  obtain ⟨ws, hws⟩ := c.iretFrame_eq
  have hsaved := hc.saved code cr0 cr2
  rw [hws, savedException] at hsaved
  generalize (c.fault gTss code).saveRegsException cr0 cr2 = x at hsaved ⊢
  rw [hsaved.top, ← exceptionContext_popped, hsaved.popped.exceptionContext, fault_cr3, hsame.gs,
    hsame.fs, hsame.es, hsame.ds, hsame.edi, hsame.esi, hsame.ebp, hsame.ebx, hsame.edx, hsame.ecx,
    hsame.eax]

theorem exception_kernel {code cr0 cr2 : U32} (hc : Faultable c gTss)
    (hcs : c.cs = kernelCodeSelector)
    (h : Returns ((c.fault gTss code).saveRegsException cr0 cr2) c'
      ((c.fault gTss code).savedException cr0 cr2 ++ code :: c.iretFrame)) :
    c'.intEpilogException = { c with mem := c'.mem, cr3 := c'.cr3 } := by
  have hwidth (x : U16) : (x.setWidth 32).setWidth 16 = x := by simp
  have hsame : SameRegs c (c.fault gTss code) := (sameRegs_interrupt c gTss).push code
  have hstack := h.stack (hc.saved code cr0 cr2) rfl
  have hframe : c.iretFrame = [c.eip, c.cs.setWidth 32, c.eflags] := if_pos hcs
  rw [hframe, savedException] at hstack
  have hkernel : (c.cs.setWidth 32).setWidth 16 &&& 3 = (0 : U16) := by
    rw [hwidth, hcs]
    decide
  have hesp : c'.esp + 84 = c.esp := by
    rw [h.esp, saveRegsException_esp, fault, interrupt, if_pos hcs]
    show c.esp - 4 - 4 - 4 - 4 - 68 + 84 = c.esp
    bv_omega
  have hss : c'.ss = c.ss := by
    rw [h.ss, saveRegsException_ss, fault, push_ss, interrupt, if_pos hcs]
    rfl
  rw [intEpilogException_kernel hstack hkernel, hesp, hsame.gs, hsame.fs, hsame.es, hsame.ds,
    hsame.edi, hsame.esi, hsame.ebp, hsame.ebx, hsame.edx, hsame.ecx, hsame.eax, ← hss]
  simp only [hwidth]

theorem exception_user {code cr0 cr2 : U32} (hc : Faultable c gTss)
    (hcs : c.cs = userCodeSelectorWithRpl)
    (h : Returns ((c.fault gTss code).saveRegsException cr0 cr2) c'
      ((c.fault gTss code).savedException cr0 cr2 ++ code :: c.iretFrame)) :
    c'.intEpilogException = { c with mem := c'.mem, cr3 := c'.cr3 } := by
  have hwidth (x : U16) : (x.setWidth 32).setWidth 16 = x := by simp
  have hsame : SameRegs c (c.fault gTss code) := (sameRegs_interrupt c gTss).push code
  have hstack := h.stack (hc.saved code cr0 cr2) rfl
  have hne : c.cs ≠ kernelCodeSelector := by
    rw [hcs]
    decide
  have hframe : c.iretFrame =
      [c.eip, c.cs.setWidth 32, c.eflags, c.esp, c.ss.setWidth 32] := if_neg hne
  rw [hframe, savedException] at hstack
  have huser : (c.cs.setWidth 32).setWidth 16 &&& 3 ≠ (0 : U16) := by
    rw [hwidth, hcs]
    decide
  rw [intEpilogException_user hstack huser, hsame.gs, hsame.fs, hsame.es, hsame.ds, hsame.edi,
    hsame.esi, hsame.ebp, hsame.ebx, hsame.edx, hsame.ecx, hsame.eax]
  simp only [hwidth]

/-- The routine of an exception finds the error code, the address of the fault and the registers of
the thread in its context. When it comes back and has left its frame alone, the thread is at the
instruction that raised the exception, with all its registers, in either mode. -/
theorem exception_transparent {code cr0 cr2 : U32} (hc : Faultable c gTss)
    (h : Returns ((c.fault gTss code).saveRegsException cr0 cr2) c'
      ((c.fault gTss code).savedException cr0 cr2 ++ code :: c.iretFrame)) :
    (((c.fault gTss code).saveRegsException cr0 cr2).exceptionContext
        ((c.fault gTss code).saveRegsException cr0 cr2).top =
      ⟨c.cr3, cr2, cr0, c.gs.setWidth 32, c.fs.setWidth 32, c.es.setWidth 32, c.ds.setWidth 32,
        (c.fault gTss code).eflags, c.edi, c.esi, c.ebp, (c.fault gTss code).esp, c.ebx, c.edx,
        c.ecx, c.eax, code, c.eip⟩) ∧
    c'.intEpilogException = { c with mem := c'.mem, cr3 := c'.cr3 } := by
  refine ⟨hc.context code cr0 cr2, ?_⟩
  rcases hc.mode with ⟨hcs, -⟩ | ⟨hcs, -⟩
  · exact exception_kernel hc hcs h
  · exact exception_user hc hcs h

/-- A page of a user thread is not there, and the routine does nothing. -/
theorem page_fault_transparent : Faultable (userCpu 7) userStack ∧
    (((userCpu 7).fault userStack 4).saveRegsException 0x80000001 0x40003000).intEpilogException =
      { userCpu 7 with
        mem := (((userCpu 7).fault userStack 4).saveRegsException 0x80000001 0x40003000).mem
        cr3 := (((userCpu 7).fault userStack 4).saveRegsException 0x80000001 0x40003000).cr3 } := by
  have hcs : (userCpu 7).cs ≠ kernelCodeSelector :=
    show userCodeSelectorWithRpl ≠ kernelCodeSelector by decide
  have hc : Faultable (userCpu 7) userStack := by
    refine ⟨.inr ⟨rfl, rfl⟩, ?_⟩
    rw [if_neg hcs]
    decide
  exact ⟨hc, (exception_transparent hc ⟨rfl, rfl, (hc.saved 4 0x80000001 0x40003000).words.2⟩).2⟩

end Cpu

end LtMicros
