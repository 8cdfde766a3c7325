import LtMicros.Cpu

/-!
# A thread that is interrupted and resumed

The words that an interrupt pushes come back through `SaveState` and
`StartOrResume` as the arguments of `_startOrResumeThread`, which pushes them once
more and pops them into the registers.
-/

namespace LtMicros

open Lib

namespace Cpu

variable {c c' : Cpu} {w p : U32} {ws rest : List U32} {i room : ℕ} {args : StartArgs}

/-! ## The stack -/

/-- The words on the stack, the top one first, with room for more below. -/
structure Stack (c : Cpu) (room : ℕ) (ws : List U32) : Prop where
  words : c.mem.Words c.esp.toNat ws
  bound : c.esp.toNat + 4 * ws.length ≤ 2 ^ 32
  room : 4 * room ≤ c.esp.toNat

theorem Stack.nil (h : 4 * room ≤ c.esp.toNat) : c.Stack room [] :=
  ⟨trivial, Nat.le_of_lt c.esp.isLt, h⟩

/-- The stack does not depend on the other registers. -/
theorem Stack.congr (h : c.Stack room ws) (hmem : c'.mem = c.mem) (hesp : c'.esp = c.esp) :
    c'.Stack room ws := by
  obtain ⟨h₁, h₂, h₃⟩ := h
  rw [← hesp] at h₁ h₂ h₃
  rw [← hmem] at h₁
  exact ⟨h₁, h₂, h₃⟩

theorem popped_esp (c : Cpu) : c.popped.esp = c.esp + 4 := rfl

theorem popped_mem (c : Cpu) : c.popped.mem = c.mem := rfl

theorem toNat_sub_four {a : U32} (h : 4 ≤ a.toNat) : (a - 4).toNat = a.toNat - 4 :=
  BitVec.toNat_sub_of_le (BitVec.le_def.mpr h)

theorem Stack.push (h : c.Stack (room + 1) ws) (w : U32) : (c.push w).Stack room (w :: ws) := by
  have hbound := h.bound
  have hroom := h.room
  have hesp : (c.esp - 4).toNat = c.esp.toNat - 4 := toNat_sub_four (by omega)
  refine ⟨?_, ?_, ?_⟩
  · show (c.mem.store32 (c.esp - 4).toNat w.toNat).Words (c.esp - 4).toNat (w :: ws)
    apply Bytes.Words.store
    rw [hesp, Nat.sub_add_cancel (by omega)]
    exact h.words
  · show (c.esp - 4).toNat + 4 * (ws.length + 1) ≤ 2 ^ 32
    omega
  · show 4 * room ≤ (c.esp - 4).toNat
    omega

/-- A word of the stack, by its distance from the top. -/
theorem Stack.word (h : c.Stack room ws) (hi : i < ws.length) :
    c.word (c.esp + BitVec.ofNat 32 (4 * i)) = ws[i] := by
  have hbound := h.bound
  have haddr : (c.esp + BitVec.ofNat 32 (4 * i)).toNat = c.esp.toNat + 4 * i := by
    rw [BitVec.toNat_add, BitVec.toNat_ofNat]
    omega
  rw [Cpu.word, haddr, h.words.load hi, BitVec.ofNat_toNat, BitVec.setWidth_eq]

theorem Stack.top (h : c.Stack room (w :: ws)) : c.top = w := by
  have := h.word (i := 0) (Nat.succ_pos _)
  rwa [Nat.mul_zero, show BitVec.ofNat 32 0 = 0#32 from rfl, BitVec.add_zero] at this

theorem Stack.popped {w' : U32} (h : c.Stack room (w :: w' :: ws)) :
    c.popped.Stack (room + 1) (w' :: ws) := by
  have hbound := h.bound
  have hroom := h.room
  rw [List.length_cons, List.length_cons] at hbound
  have hesp : (c.esp + 4).toNat = c.esp.toNat + 4 := by
    rw [BitVec.toNat_add]
    exact Nat.mod_eq_of_lt (by show c.esp.toNat + 4 < 2 ^ 32; omega)
  refine ⟨?_, ?_, ?_⟩
  · show c.mem.Words (c.esp + 4).toNat (w' :: ws)
    rw [hesp]
    exact h.words.2
  · show (c.esp + 4).toNat + 4 * (ws.length + 1) ≤ 2 ^ 32
    omega
  · show 4 * (room + 1) ≤ (c.esp + 4).toNat
    omega

/-- The words on the stack are those at the addresses from `esp` on. -/
theorem Stack.word_eq (h : c.Stack room ws) (a : U32) (hi : i < ws.length)
    (ha : BitVec.ofNat 32 (4 * i) = a) :
    BitVec.ofNat 32 (c.mem.load32 (c.esp + a).toNat) = ws[i] :=
  ha ▸ h.word hi

/-- The instructions from `pop gs` on take eleven words. -/
theorem Stack.popRegs {gs fs es ds edi esi ebp ebx edx ecx eax : U32}
    (h : c.Stack room (gs :: fs :: es :: ds :: edi :: esi :: ebp :: ebx :: edx :: ecx :: eax :: ws)) :
    c.popRegs = { c with
      gs := gs.setWidth 16, fs := fs.setWidth 16, es := es.setWidth 16, ds := ds.setWidth 16
      edi, esi, ebp, ebx, edx, ecx, eax, esp := c.esp + 44 } := by
  have hlen (n : ℕ) (hn : n < 11) : n < (gs :: fs :: es :: ds :: edi :: esi :: ebp :: ebx :: edx ::
      ecx :: eax :: ws).length := by
    simp only [List.length_cons]
    omega
  have h0 := h.top
  simp only [Cpu.top, Cpu.word] at h0
  simp only [Cpu.popRegs, Cpu.popped, Cpu.top, Cpu.word, BitVec.add_assoc, BitVec.reduceAdd, h0,
    h.word_eq 4 (hlen 1 (by decide)) rfl, h.word_eq 8#32 (hlen 2 (by decide)) rfl,
    h.word_eq 12#32 (hlen 3 (by decide)) rfl, h.word_eq 16#32 (hlen 4 (by decide)) rfl,
    h.word_eq 20#32 (hlen 5 (by decide)) rfl, h.word_eq 24#32 (hlen 6 (by decide)) rfl,
    h.word_eq 28#32 (hlen 7 (by decide)) rfl, h.word_eq 32#32 (hlen 8 (by decide)) rfl,
    h.word_eq 36#32 (hlen 9 (by decide)) rfl, h.word_eq 40#32 (hlen 10 (by decide)) rfl]
  rfl

/-- The words above them are left. -/
theorem Stack.popRegs_left {gs fs es ds edi esi ebp ebx edx ecx eax : U32}
    (h : c.Stack room (gs :: fs :: es :: ds :: edi :: esi :: ebp :: ebx :: edx :: ecx :: eax ::
      w :: ws)) : c.popRegs.Stack (room + 11) (w :: ws) := by
  have hleft :=
    h.popped.popped.popped.popped.popped.popped.popped.popped.popped.popped.popped
  refine hleft.congr ?_ ?_
  · rw [h.popRegs]
    simp only [popped_mem]
  · rw [h.popRegs]
    simp only [popped_esp, BitVec.add_assoc, BitVec.reduceAdd]
    rfl

/-- A context that lies on the stack. -/
theorem Stack.context {gs fs es ds edi esi ebp esp ebx edx ecx eax eip cs eflags : U32}
    (h : c.Stack room (gs :: fs :: es :: ds :: edi :: esi :: ebp :: esp :: ebx :: edx :: ecx :: eax ::
      eip :: cs :: eflags :: ws)) :
    c.context c.esp = ⟨gs, fs, es, ds, edi, esi, ebp, esp, ebx, edx, ecx, eax, eip, cs, eflags,
      c.word (c.esp + 60), c.word (c.esp + 64)⟩ := by
  have hlen (n : ℕ) (hn : n < 15) : n < (gs :: fs :: es :: ds :: edi :: esi :: ebp :: esp :: ebx ::
      edx :: ecx :: eax :: eip :: cs :: eflags :: ws).length := by
    simp only [List.length_cons]
    omega
  have h0 : c.word c.esp = gs := h.top
  have h1 : c.word (c.esp + 4) = fs := h.word (hlen 1 (by decide))
  have h2 : c.word (c.esp + 8) = es := h.word (hlen 2 (by decide))
  have h3 : c.word (c.esp + 12) = ds := h.word (hlen 3 (by decide))
  have h4 : c.word (c.esp + 16) = edi := h.word (hlen 4 (by decide))
  have h5 : c.word (c.esp + 20) = esi := h.word (hlen 5 (by decide))
  have h6 : c.word (c.esp + 24) = ebp := h.word (hlen 6 (by decide))
  have h7 : c.word (c.esp + 28) = esp := h.word (hlen 7 (by decide))
  have h8 : c.word (c.esp + 32) = ebx := h.word (hlen 8 (by decide))
  have h9 : c.word (c.esp + 36) = edx := h.word (hlen 9 (by decide))
  have h10 : c.word (c.esp + 40) = ecx := h.word (hlen 10 (by decide))
  have h11 : c.word (c.esp + 44) = eax := h.word (hlen 11 (by decide))
  have h12 : c.word (c.esp + 48) = eip := h.word (hlen 12 (by decide))
  have h13 : c.word (c.esp + 52) = cs := h.word (hlen 13 (by decide))
  have h14 : c.word (c.esp + 56) = eflags := h.word (hlen 14 (by decide))
  rw [Cpu.context, h0, h1, h2, h3, h4, h5, h6, h7, h8, h9, h10, h11, h12, h13, h14]

/-! ## The interrupt -/

/-- The registers that a push does not change. -/
structure SameRegs (c c' : Cpu) : Prop where
  eax : c'.eax = c.eax
  ebx : c'.ebx = c.ebx
  ecx : c'.ecx = c.ecx
  edx : c'.edx = c.edx
  esi : c'.esi = c.esi
  edi : c'.edi = c.edi
  ebp : c'.ebp = c.ebp
  ds : c'.ds = c.ds
  es : c'.es = c.es
  fs : c'.fs = c.fs
  gs : c'.gs = c.gs

theorem SameRegs.push (h : SameRegs c c') (w : U32) : SameRegs c (c'.push w) := by
  cases c'
  exact ⟨h.eax, h.ebx, h.ecx, h.edx, h.esi, h.edi, h.ebp, h.ds, h.es, h.fs, h.gs⟩

theorem SameRegs.refl (c : Cpu) : SameRegs c c := by
  constructor <;> rfl

theorem sameRegs_pushad (c : Cpu) : SameRegs c c.pushad :=
  ((((((((SameRegs.refl c).push c.eax).push c.ecx).push c.edx).push c.ebx).push c.esp).push
    c.ebp).push c.esi).push c.edi

theorem sameRegs_interrupt (c : Cpu) (gTss : KernelStack) : SameRegs c (c.interrupt gTss) := by
  have hframe {x : Cpu} (hx : SameRegs c x) (cs : U16) : SameRegs c
      { ((x.push c.eflags).push (c.cs.setWidth 32)).push c.eip with cs } := by
    obtain ⟨h₁, h₂, h₃, h₄, h₅, h₆, h₇, h₈, h₉, h₁₀, h₁₁⟩ :=
      ((hx.push c.eflags).push (c.cs.setWidth 32)).push c.eip
    exact ⟨h₁, h₂, h₃, h₄, h₅, h₆, h₇, h₈, h₉, h₁₀, h₁₁⟩
  unfold interrupt
  split
  · exact hframe (.refl c) _
  · exact hframe ((SameRegs.push (by constructor <;> rfl) _).push _) _

theorem Stack.pushad (h : c.Stack (room + 8) ws) :
    c.pushad.Stack room (c.edi :: c.esi :: c.ebp :: c.esp :: c.ebx :: c.edx :: c.ecx :: c.eax ::
      ws) :=
  (((((((h.push c.eax).push c.ecx).push c.edx).push c.ebx).push c.esp).push c.ebp).push c.esi).push
    c.edi

theorem Stack.pushSegments (h : c.Stack (room + 4) ws) :
    c.pushSegments.Stack room (c.gs.setWidth 32 :: c.fs.setWidth 32 :: c.es.setWidth 32 ::
      c.ds.setWidth 32 :: ws) :=
  (((h.push (c.ds.setWidth 32)).push (c.es.setWidth 32)).push (c.fs.setWidth 32)).push
    (c.gs.setWidth 32)

theorem Stack.loadKernelData (h : c.Stack (room + 1) (w :: ws)) :
    c.loadKernelData.Stack (room + 1) (w :: ws) :=
  (h.push c.ebx).popped.congr rfl rfl

/-- `SAVE_REGS` pushes the registers, and last the address of what it has pushed. -/
theorem Stack.saveRegs (h : c.Stack 13 ws) :
    c.saveRegs.top = c.saveRegs.popped.esp ∧
      c.saveRegs.popped.Stack 1 (c.gs.setWidth 32 :: c.fs.setWidth 32 :: c.es.setWidth 32 ::
        c.ds.setWidth 32 :: c.edi :: c.esi :: c.ebp :: c.esp :: c.ebx :: c.edx :: c.ecx ::
        c.eax :: ws) := by
  have hstack := h.pushad.pushSegments.loadKernelData
  have hsame := sameRegs_pushad c
  rw [hsame.ds, hsame.es, hsame.fs, hsame.gs] at hstack
  have hpush := hstack.push c.pushad.pushSegments.loadKernelData.esp
  exact ⟨hpush.top.trans (BitVec.sub_add_cancel _ _).symm, hpush.popped⟩

/-- The context that is handed to the interrupt routine. -/
def interrupted (c : Cpu) (gTss : KernelStack) : InterruptContext :=
  (c.interrupt gTss).saveRegs.context (c.interrupt gTss).saveRegs.top

theorem context_popped (c : Cpu) (p : U32) : c.popped.context p = c.context p := rfl

/-- The context of a thread whose return frame is on the stack. -/
theorem Stack.saveRegs_context {eip cs eflags : U32} (h : c.Stack 13 (eip :: cs :: eflags :: ws)) :
    c.saveRegs.context c.saveRegs.top = ⟨c.gs.setWidth 32, c.fs.setWidth 32, c.es.setWidth 32,
      c.ds.setWidth 32, c.edi, c.esi, c.ebp, c.esp, c.ebx, c.edx, c.ecx, c.eax, eip, cs, eflags,
      c.saveRegs.popped.word (c.saveRegs.popped.esp + 60),
      c.saveRegs.popped.word (c.saveRegs.popped.esp + 64)⟩ := by
  obtain ⟨htop, hstack⟩ := h.saveRegs
  rw [htop, ← context_popped, hstack.context]

/-- Where a thread was interrupted: three or five words lie on the stack. -/
theorem interrupt_kernel {gTss : KernelStack} (hcs : c.cs = kernelCodeSelector)
    (hroom : 64 ≤ c.esp.toNat) :
    (c.interrupt gTss).Stack 13 [c.eip, c.cs.setWidth 32, c.eflags] := by
  have hnil : c.Stack 16 [] := .nil hroom
  have hstack := ((hnil.push c.eflags).push (c.cs.setWidth 32)).push c.eip
  rw [interrupt, if_pos hcs]
  exact hstack.congr rfl rfl

theorem interrupt_user {gTss : KernelStack} (hcs : c.cs ≠ kernelCodeSelector)
    (hroom : 72 ≤ gTss.esp0.toNat) :
    (c.interrupt gTss).Stack 13
      [c.eip, c.cs.setWidth 32, c.eflags, c.esp, c.ss.setWidth 32] := by
  have hnil : ({ c with ss := gTss.ss0, esp := gTss.esp0 } : Cpu).Stack 18 [] := .nil hroom
  have hstack := ((((hnil.push (c.ss.setWidth 32)).push c.esp).push c.eflags).push
    (c.cs.setWidth 32)).push c.eip
  rw [interrupt, if_neg hcs]
  exact hstack.congr rfl rfl

/-- The values of the registers that a thread has when it is interrupted. -/
structure Saved (c : Cpu) (regs : Regs) : Prop where
  eax : regs.eax = c.eax
  ebx : regs.ebx = c.ebx
  ecx : regs.ecx = c.ecx
  edx : regs.edx = c.edx
  ebp : regs.ebp = c.ebp
  esp : regs.esp = c.esp
  esi : regs.esi = c.esi
  edi : regs.edi = c.edi
  eip : regs.eip = c.eip
  eflags : regs.eflags = c.eflags
  cs : regs.cs = c.cs

/-- What `SaveState` takes from a context. -/
theorem saved_of_context {gTss : KernelStack} {context : InterruptContext} (this : Thread)
    (hcs : context.cs = c.cs.setWidth 32) (heax : context.eax = c.eax)
    (hebx : context.ebx = c.ebx) (hecx : context.ecx = c.ecx) (hedx : context.edx = c.edx)
    (hebp : context.ebp = c.ebp) (hesi : context.esi = c.esi) (hedi : context.edi = c.edi)
    (heip : context.eip = c.eip) (heflags : context.eflags = c.eflags)
    (hesp : if c.cs = kernelCodeSelector then context.esp + 12 = c.esp else context.espI = c.esp) :
    c.Saved (this.saveState gTss context).regs := by
  have hwidth : context.cs.setWidth 16 = c.cs := by
    rw [hcs]
    simp
  unfold Thread.saveState
  dsimp only
  by_cases hmode : c.cs = kernelCodeSelector
  · rw [if_pos hmode] at hesp
    rw [if_neg (not_ne_iff.mpr (hwidth.trans hmode))]
    exact ⟨heax, hebx, hecx, hedx, hebp, hesp, hesi, hedi, heip, heflags, hwidth⟩
  · rw [if_neg hmode] at hesp
    rw [if_pos (by rw [hwidth]; exact hmode)]
    exact ⟨heax, hebx, hecx, hedx, hebp, hesp, hesi, hedi, heip, heflags, hwidth⟩

/-- `SaveState` finds them, in either mode. -/
theorem saved_saveState {gTss : KernelStack} (this : Thread)
    (hroom : if c.cs = kernelCodeSelector then 64 ≤ c.esp.toNat else 72 ≤ gTss.esp0.toNat) :
    c.Saved (this.saveState gTss (c.interrupted gTss)).regs := by
  have hsame := sameRegs_interrupt c gTss
  by_cases hcs : c.cs = kernelCodeSelector
  · rw [if_pos hcs] at hroom
    have hstack : (c.interrupt gTss).Stack 13 _ := interrupt_kernel hcs hroom
    have hesp : (c.interrupt gTss).esp + 12 = c.esp := by
      rw [interrupt, if_pos hcs]
      show c.esp - 4 - 4 - 4 + 12 = c.esp
      bv_omega
    rw [interrupted, hstack.saveRegs_context]
    exact saved_of_context this rfl hsame.eax hsame.ebx hsame.ecx hsame.edx hsame.ebp hsame.esi
      hsame.edi rfl rfl (by rw [if_pos hcs]; exact hesp)
  · rw [if_neg hcs] at hroom
    have hstack : (c.interrupt gTss).Stack 13 _ := interrupt_user hcs hroom
    have hesp : (c.interrupt gTss).saveRegs.popped.word
        ((c.interrupt gTss).saveRegs.popped.esp + 60) = c.esp :=
      hstack.saveRegs.2.word (show 15 < 17 by decide)
    rw [interrupted, hstack.saveRegs_context]
    exact saved_of_context this rfl hsame.eax hsame.ebx hsame.ecx hsame.edx hsame.ebp hsame.esi
      hsame.edi rfl rfl (by rw [if_neg hcs]; exact hesp)

/-! ## `_startOrResumeThread` -/

/-- The processor at a call with these arguments: they lie above the return address,
and not where the words of the resumed thread go. -/
structure Called (c : Cpu) (args : StartArgs) : Prop where
  low : 4 ≤ c.esp.toNat
  high : c.esp.toNat + 84 ≤ 2 ^ 32
  words : c.mem.Words (c.esp.toNat + 4) args.words
  room : 64 ≤ args.kesp.toNat
  apart : args.kesp.toNat ≤ c.esp.toNat + 4 ∨ c.esp.toNat + 84 + 64 ≤ args.kesp.toNat

/-- The stack of the resumed thread while the arguments are pushed onto it. -/
structure Building (args : StartArgs) (c : Cpu) (room : ℕ) (ws : List U32) : Prop where
  stack : c.Stack room ws
  words : c.mem.Words (c.esi.toNat + 8) args.words
  high : c.esi.toNat + 88 ≤ 2 ^ 32
  apart : c.esp.toNat ≤ c.esi.toNat + 8 ∨ c.esi.toNat + 88 + 4 * room ≤ c.esp.toNat
  top : c.esp + BitVec.ofNat 32 (4 * ws.length) = args.kesp

/-- The argument at an offset from `esi`. -/
def argAt (args : StartArgs) (offset : U32) : U32 :=
  (args.words[(offset.toNat - 8) / 4]?).getD 0

/-- The offsets of the arguments. -/
def IsOffset (offset : U32) : Prop :=
  offset.toNat % 4 = 0 ∧ 8 ≤ offset.toNat ∧ offset.toNat < 88

instance (offset : U32) : Decidable (IsOffset offset) :=
  inferInstanceAs (Decidable (_ ∧ _ ∧ _))

theorem word_arg {offset : U32} (hwords : c.mem.Words (c.esi.toNat + 8) args.words)
    (hhigh : c.esi.toNat + 88 ≤ 2 ^ 32) (ho : IsOffset offset) :
    c.word (c.esi + offset) = argAt args offset := by
  obtain ⟨h4, hlow, hlt⟩ := ho
  have hi : (offset.toNat - 8) / 4 < args.words.length := show _ < 20 by omega
  have haddr : (c.esi + offset).toNat = c.esi.toNat + 8 + 4 * ((offset.toNat - 8) / 4) := by
    rw [BitVec.toNat_add]
    omega
  rw [word, haddr, hwords.load hi, argAt, List.getElem?_eq_getElem hi, Option.getD_some,
    BitVec.ofNat_toNat, BitVec.setWidth_eq]

theorem Building.push (h : Building args c (room + 1) ws) (w : U32) :
    Building args (c.push w) room (w :: ws) := by
  have hstack := h.stack.push w
  have hroom := h.stack.room
  have hesp : (c.esp - 4).toNat = c.esp.toNat - 4 := toNat_sub_four (by omega)
  have hapart := h.apart
  refine ⟨hstack, ?_, h.high, ?_, ?_⟩
  · show (c.mem.store32 (c.esp - 4).toNat w.toNat).Words (c.esi.toNat + 8) args.words
    refine h.words.store_of_apart ?_ _
    rw [hesp, show args.words.length = 20 from rfl]
    omega
  · show (c.esp - 4).toNat ≤ c.esi.toNat + 8 ∨ c.esi.toNat + 88 + 4 * room ≤ (c.esp - 4).toNat
    omega
  · show c.esp - 4 + BitVec.ofNat 32 (4 * (ws.length + 1)) = args.kesp
    rw [← h.top]
    bv_omega

theorem Building.pushArgs (offsets : List U32) (h : Building args c (room + offsets.length) ws)
    (hoffsets : ∀ offset ∈ offsets, IsOffset offset) :
    Building args (c.pushArgs offsets) room ((offsets.map (argAt args)).reverse ++ ws) := by
  induction offsets generalizing c ws with
  | nil => exact h
  | cons offset offsets ih =>
    have hword := word_arg h.words h.high (hoffsets offset List.mem_cons_self)
    rw [Cpu.pushArgs, hword, List.map_cons, List.reverse_cons, List.append_assoc]
    exact ih (h.push _) fun o ho => hoffsets o (List.mem_cons_of_mem _ ho)

/-- `iret` to the kernel takes three words. -/
theorem Stack.iret_kernel {eip cs eflags : U32} (h : c.Stack room (eip :: cs :: eflags :: ws))
    (hcs : cs.setWidth 16 &&& 3 = (0 : U16)) :
    c.iret = { c with eip, cs := cs.setWidth 16, eflags, esp := c.esp + 12 } := by
  have hlen (n : ℕ) (hn : n < 3) : n < (eip :: cs :: eflags :: ws).length := by
    simp only [List.length_cons]
    omega
  have h0 := h.top
  simp only [Cpu.top, Cpu.word] at h0
  simp only [Cpu.iret, Cpu.popped, Cpu.top, Cpu.word, BitVec.add_assoc, BitVec.reduceAdd, h0,
    h.word_eq 4 (hlen 1 (by decide)) rfl, h.word_eq 8#32 (hlen 2 (by decide)) rfl,
    List.getElem_cons_succ, List.getElem_cons_zero, hcs, if_true]
  rfl

/-- `iret` to user mode takes five. -/
theorem Stack.iret_user {eip cs eflags esp ss : U32}
    (h : c.Stack room (eip :: cs :: eflags :: esp :: ss :: ws))
    (hcs : cs.setWidth 16 &&& 3 ≠ (0 : U16)) :
    c.iret = { c with eip, cs := cs.setWidth 16, eflags, esp, ss := ss.setWidth 16 } := by
  have hlen (n : ℕ) (hn : n < 5) : n < (eip :: cs :: eflags :: esp :: ss :: ws).length := by
    simp only [List.length_cons]
    omega
  have h0 := h.top
  simp only [Cpu.top, Cpu.word] at h0
  simp only [Cpu.iret, Cpu.popped, Cpu.top, Cpu.word, BitVec.add_assoc, BitVec.reduceAdd, h0,
    h.word_eq 4 (hlen 1 (by decide)) rfl, h.word_eq 8#32 (hlen 2 (by decide)) rfl,
    h.word_eq 12#32 (hlen 3 (by decide)) rfl, h.word_eq 16#32 (hlen 4 (by decide)) rfl,
    List.getElem_cons_succ, List.getElem_cons_zero, hcs, if_false]

/-- The registers of the resumed thread. All are those of the arguments, but for
the low half of `eax`. -/
structure Resumed (args : StartArgs) (c : Cpu) : Prop where
  eax : c.eax = setLow8 (setLow16 args.eax 0x23) 0x20
  ebx : c.ebx = args.ebx
  ecx : c.ecx = args.ecx
  edx : c.edx = args.edx
  ebp : c.ebp = args.ebp
  esp : c.esp = args.esp
  esi : c.esi = args.esi
  edi : c.edi = args.edi
  eip : c.eip = args.eip
  eflags : c.eflags = args.eflags

/-- The arguments are those of a kernel thread, which goes on with its own stack, or
of a user thread. -/
def ModesAgree (args : StartArgs) : Prop :=
  if args.privLevel = .kernel then args.cs.setWidth 16 &&& 3 = (0 : U16) ∧ args.kesp = args.esp
  else args.cs.setWidth 16 &&& 3 ≠ (0 : U16)

theorem switchStack_eq (c : Cpu) : c.switchStack = { c with
    ss := (c.word (c.esi + 80)).setWidth 16, esp := c.word (c.esi + 84),
    cr3 := c.word (c.esi + 8), eax := c.word (c.esi + 76) } := by
  cases c
  rfl

/-- The stack is switched, and the arguments stay where they are. -/
theorem Called.building (h : Called c args) : Building args c.enterFrame.switchStack 16 [] ∧
    c.enterFrame.switchStack.eax = if args.privLevel = .kernel then 0 else 1 := by
  have hesp : (c.esp - 4).toNat = c.esp.toNat - 4 := toNat_sub_four h.low
  have hlow := h.low
  have hhigh := h.high
  have hesi : c.enterFrame.esi.toNat = c.esp.toNat - 4 := hesp
  have hwords : c.enterFrame.mem.Words (c.enterFrame.esi.toNat + 8) args.words := by
    rw [hesi, show c.esp.toNat - 4 + 8 = c.esp.toNat + 4 by omega]
    exact h.words.store_of_apart (.inl (by rw [hesp]; omega)) _
  have hend : c.enterFrame.esi.toNat + 88 ≤ 2 ^ 32 := by omega
  have hkesp : c.enterFrame.word (c.enterFrame.esi + 84) = args.kesp :=
    word_arg hwords hend (by decide)
  have hlevel : c.enterFrame.word (c.enterFrame.esi + 76) =
      if args.privLevel = .kernel then 0 else 1 :=
    word_arg hwords hend (by decide)
  rw [switchStack_eq, hkesp, hlevel]
  have hapart := h.apart
  refine ⟨⟨.nil h.room, hwords, hend, ?_, ?_⟩, rfl⟩
  · show args.kesp.toNat ≤ c.enterFrame.esi.toNat + 8 ∨
      c.enterFrame.esi.toNat + 88 + 4 * 16 ≤ args.kesp.toNat
    omega
  · exact BitVec.add_zero _

/-- What the last instructions leave. -/
theorem endOfInterrupt_eq (c : Cpu) : c.endOfInterrupt = { c with
    eax := setLow8 (setLow16 c.eax 0x23) 0x20, ds := (setLow16 c.eax 0x23).setWidth 16 } := by
  cases c
  rfl

/-- The registers before `iret`, and the frame it takes. -/
theorem Stack.restored (h : c.Stack room (args.gs :: args.fs :: args.es :: args.ds :: args.edi ::
      args.esi :: args.ebp :: args.ebx :: args.edx :: args.ecx :: args.eax :: w :: ws)) :
    c.popRegs.endOfInterrupt.Stack (room + 11) (w :: ws) ∧
      c.popRegs.endOfInterrupt = { c with
        gs := args.gs.setWidth 16, fs := args.fs.setWidth 16, es := args.es.setWidth 16
        ds := (setLow16 args.eax 0x23).setWidth 16, edi := args.edi, esi := args.esi
        ebp := args.ebp, ebx := args.ebx, edx := args.edx, ecx := args.ecx
        eax := setLow8 (setLow16 args.eax 0x23) 0x20, esp := c.esp + 44 } := by
  refine ⟨?_, ?_⟩
  · rw [endOfInterrupt_eq]
    exact h.popRegs_left.congr rfl rfl
  · rw [endOfInterrupt_eq, h.popRegs]

/-- The resumed thread has the registers it was called with. -/
theorem Called.resumed (h : Called c args) (hmode : ModesAgree args) :
    Resumed args c.startOrResumeThread.iret := by
  obtain ⟨hx, heax⟩ := h.building
  rw [startOrResumeThread, pushFrame, heax]
  by_cases hk : args.privLevel = .kernel
  · rw [ModesAgree, if_pos hk] at hmode
    rw [if_pos hk, if_pos rfl]
    have hframe := hx.pushArgs [20, 24, 28] (by simp [IsOffset])
    have hall := hframe.pushArgs [32, 36, 40, 44, 48, 52, 56, 60, 64, 68, 72] (by simp [IsOffset])
    generalize Cpu.pushArgs _ [32, 36, 40, 44, 48, 52, 56, 60, 64, 68, 72] = z at hall ⊢
    obtain ⟨hstack, hregs⟩ := Stack.restored hall.stack
    rw [hstack.iret_kernel hmode.1, hregs]
    refine ⟨rfl, rfl, rfl, rfl, rfl, ?_, rfl, rfl, rfl, rfl⟩
    rw [← hmode.2, ← hall.top]
    exact BitVec.add_assoc _ _ _
  · rw [ModesAgree, if_neg hk] at hmode
    rw [if_neg hk, if_neg (by decide)]
    have hframe := hx.pushArgs [12, 16, 20, 24, 28] (by simp [IsOffset])
    have hall := hframe.pushArgs [32, 36, 40, 44, 48, 52, 56, 60, 64, 68, 72] (by simp [IsOffset])
    generalize Cpu.pushArgs _ [32, 36, 40, 44, 48, 52, 56, 60, 64, 68, 72] = z at hall ⊢
    obtain ⟨hstack, hregs⟩ := Stack.restored hall.stack
    rw [hstack.iret_user hmode, hregs]
    exact ⟨rfl, rfl, rfl, rfl, rfl, rfl, rfl, rfl, rfl, rfl⟩

/-! ## The whole way -/

/-- The resumed thread has the general registers, the stack pointer, `eip` and
`eflags` that it was interrupted with. -/
structure Intact (c c' : Cpu) : Prop where
  eax : c'.eax = c.eax
  ebx : c'.ebx = c.ebx
  ecx : c'.ecx = c.ecx
  edx : c'.edx = c.edx
  ebp : c'.ebp = c.ebp
  esp : c'.esp = c.esp
  esi : c'.esi = c.esi
  edi : c'.edi = c.edi
  eip : c'.eip = c.eip
  eflags : c'.eflags = c.eflags

/-- Where the interrupted thread runs: in the kernel or in user mode, with room on
the stack that the interrupt goes to. -/
structure Interruptible (c : Cpu) (gTss : KernelStack) : Prop where
  mode : c.cs = kernelCodeSelector ∧ c.ss = kernelDataSelector ∨
    c.cs = userCodeSelectorWithRpl ∧ c.ss = userDataSelectorWithRpl
  room : if c.cs = kernelCodeSelector then 64 ≤ c.esp.toNat else 72 ≤ gTss.esp0.toNat

/-- Only the low half of `eax` is lost. -/
theorem setLow_eq_iff (r : U32) :
    setLow8 (setLow16 r 0x23) 0x20 = r ↔ r.toNat % 2 ^ 16 = 0x20 := by
  have hlt := r.isLt
  have h16 : (setLow16 r 0x23).toNat = r.toNat / 2 ^ 16 * 2 ^ 16 + 0x23 := by
    show (r.toNat / 2 ^ 16 * 2 ^ 16 + 0x23 % 2 ^ 16) % 2 ^ 32 = _
    omega
  have h8 : (setLow8 (setLow16 r 0x23) 0x20).toNat = r.toNat / 2 ^ 16 * 2 ^ 16 + 0x20 := by
    show ((setLow16 r 0x23).toNat / 2 ^ 8 * 2 ^ 8 + 0x20 % 2 ^ 8) % 2 ^ 32 = _
    omega
  rw [← BitVec.toNat_inj, h8]
  omega

/-- `StartOrResume` goes to the mode that the thread was in. -/
theorem modesAgree_startOrResume (this : Thread) (tics : U32)
    (hcs : this.regs.cs = kernelCodeSelector ∨ this.regs.cs = userCodeSelectorWithRpl) :
    ModesAgree (this.startOrResume tics).2.2 := by
  unfold ModesAgree Thread.startOrResume
  dsimp only
  rcases hcs with hcs | hcs
  · rw [hcs, if_pos rfl, if_pos rfl]
    exact ⟨by decide, if_neg (by decide)⟩
  · have hne : userCodeSelectorWithRpl ≠ kernelCodeSelector := by decide
    rw [hcs, if_neg hne, if_neg (by decide)]
    decide

section Whole

variable {gTss : KernelStack} {this : Thread} {tics : U32}

/-- The resumed registers come from the thread, and those from the interrupt. -/
theorem saved_resumed (hc : Interruptible c gTss)
    (hcall : Called c' ((this.saveState gTss (c.interrupted gTss)).startOrResume tics).2.2) :
    ∃ t : Thread, c.Saved t.regs ∧ Resumed (t.startOrResume tics).2.2 c'.startOrResumeThread.iret := by
  obtain ⟨t, ht⟩ : ∃ t, t = this.saveState gTss (c.interrupted gTss) := ⟨_, rfl⟩
  have hsaved : c.Saved t.regs := by
    rw [ht]
    exact saved_saveState this hc.room
  rw [← ht] at hcall
  have hcs : t.regs.cs = kernelCodeSelector ∨ t.regs.cs = userCodeSelectorWithRpl := by
    rw [hsaved.cs]
    exact hc.mode.imp And.left And.left
  exact ⟨t, hsaved, hcall.resumed (modesAgree_startOrResume t tics hcs)⟩

/-- `eax` comes back with another low half. -/
theorem resumed_eax (hc : Interruptible c gTss)
    (hcall : Called c' ((this.saveState gTss (c.interrupted gTss)).startOrResume tics).2.2) :
    c'.startOrResumeThread.iret.eax = setLow8 (setLow16 c.eax 0x23) 0x20 := by
  obtain ⟨t, hsaved, hresumed⟩ := saved_resumed hc hcall
  rw [← hsaved.eax]
  exact hresumed.eax

/-- A thread that is interrupted, saved, and resumed some time later has its
registers back exactly when the low half of its `eax` was `0x20`. -/
theorem resumes_intact_iff (hc : Interruptible c gTss)
    (hcall : Called c' ((this.saveState gTss (c.interrupted gTss)).startOrResume tics).2.2) :
    Intact c c'.startOrResumeThread.iret ↔ c.eax.toNat % 2 ^ 16 = 0x20 := by
  obtain ⟨t, hsaved, hresumed⟩ := saved_resumed hc hcall
  rw [← setLow_eq_iff, ← resumed_eax hc hcall]
  refine ⟨Intact.eax, fun h => ⟨h, ?_, ?_, ?_, ?_, ?_, ?_, ?_, ?_, ?_⟩⟩
  · exact hresumed.ebx.trans hsaved.ebx
  · exact hresumed.ecx.trans hsaved.ecx
  · exact hresumed.edx.trans hsaved.edx
  · exact hresumed.ebp.trans hsaved.ebp
  · exact hresumed.esp.trans hsaved.esp
  · exact hresumed.esi.trans hsaved.esi
  · exact hresumed.edi.trans hsaved.edi
  · exact hresumed.eip.trans hsaved.eip
  · exact hresumed.eflags.trans hsaved.eflags

end Whole

/-- A user thread in the middle of its work. -/
def userCpu (eax : U32) : Cpu where
  eax := eax
  ebx := 2
  ecx := 3
  edx := 4
  esi := 5
  edi := 6
  ebp := 0x40002000
  esp := 0x40001000
  eip := 0x40000100
  eflags := 0x202
  cs := userCodeSelectorWithRpl
  ss := userDataSelectorWithRpl
  ds := userDataSelectorWithRpl
  es := userDataSelectorWithRpl
  fs := userDataSelectorWithRpl
  gs := userDataSelectorWithRpl
  cr3 := 0x1000
  mem := fun _ => 0

def userStack : KernelStack := ⟨0x900000, kernelDataSelector⟩

def userThread : Thread where
  state := .running
  process := ⟨0, 0x1000⟩
  threadPriority := .normal
  ticsOnResume := 0
  kstack := userStack
  regs := ⟨0, 0, 0, 0, 0, 0, 0, 0, 0, 0, 0, 0, 0, 0, 0, 0⟩

/-- The call that resumes it, from another stack. -/
def resumingCpu (eax : U32) : Cpu :=
  let args := ((userThread.saveState userStack ((userCpu eax).interrupted userStack)).startOrResume
    0).2.2
  { userCpu 0 with esp := 0x800000, mem := Bytes.storeWords (fun _ => 0) 0x800004 args.words }

theorem userCpu_interruptible (eax : U32) : Interruptible (userCpu eax) userStack := by
  have hcs : (userCpu eax).cs ≠ kernelCodeSelector :=
    show userCodeSelectorWithRpl ≠ kernelCodeSelector by decide
  refine ⟨.inr ⟨rfl, rfl⟩, ?_⟩
  rw [if_neg hcs]
  decide

theorem resumingCpu_called (eax : U32) : Called (resumingCpu eax)
    ((userThread.saveState userStack ((userCpu eax).interrupted userStack)).startOrResume 0).2.2 := by
  have hsaved : (userCpu eax).Saved
      (userThread.saveState userStack ((userCpu eax).interrupted userStack)).regs :=
    saved_saveState userThread (userCpu_interruptible eax).room
  have hkesp : ((userThread.saveState userStack
      ((userCpu eax).interrupted userStack)).startOrResume 0).2.2.kesp = 0x900000 := by
    unfold Thread.startOrResume
    dsimp only
    have hcs : _ = userCodeSelectorWithRpl := hsaved.cs
    rw [if_pos hcs]
    rfl
  have hesp : (resumingCpu eax).esp.toNat = 0x800000 := rfl
  refine ⟨by omega, by omega, Bytes.words_storeWords _ _ _, ?_, .inr ?_⟩
  · rw [hkesp]
    decide
  · rw [hesp, hkesp]
    decide

/-- With that low half the thread is resumed intact. -/
theorem userCpu_resumes :
    Intact (userCpu 0x12340020) (resumingCpu 0x12340020).startOrResumeThread.iret :=
  (resumes_intact_iff (userCpu_interruptible _) (resumingCpu_called _)).mpr (by decide)

/-- A thread with 1 in `eax` goes on with `0x20` there. -/
theorem userCpu_not_intact : Interruptible (userCpu 1) userStack ∧
    Called (resumingCpu 1) ((userThread.saveState userStack
      ((userCpu 1).interrupted userStack)).startOrResume 0).2.2 ∧
    (resumingCpu 1).startOrResumeThread.iret.eax = 0x20 ∧
    ¬ Intact (userCpu 1) (resumingCpu 1).startOrResumeThread.iret := by
  have heax := resumed_eax (userCpu_interruptible 1) (resumingCpu_called 1)
  have h20 : (resumingCpu 1).startOrResumeThread.iret.eax = 0x20 := heax.trans (by decide)
  refine ⟨userCpu_interruptible 1, resumingCpu_called 1, h20, fun h => ?_⟩
  have hone : (resumingCpu 1).startOrResumeThread.iret.eax = 1 := h.eax
  rw [h20] at hone
  exact absurd hone (by decide)

end Cpu

end LtMicros
