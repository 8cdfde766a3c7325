import LtMicros.ReservedBytes
import Mathlib.Data.List.GetD

/-!
# Modules

A module is an ELF file in the part of memory that is identity-mapped. Its program header
table is read there, and the loop of `_MapElfInProcess` copies one entry after the other into
the address space of a process.
-/

namespace LtMicros

open Lib Lib.Frames

/-! ## The file in memory -/

/-- `ElfFile`. -/
structure ElfFile where
  header : U32
  prgHeaderTable : U32

/-- The first bytes of an ELF file. -/
def elfIdent : List U8 := [0x7f, 0x45, 0x4c, 0x46]

namespace Mmu

/-- Reads a half word, lowest byte first. -/
def readU16 (m : Mmu) (vAddr : U32) : Outcome (BitVec 16) := do
  let b₀ ← m.readByte vAddr
  let b₁ ← m.readByte (vAddr + 1)
  return b₁ ++ b₀

/-- Reads a word, lowest byte first. -/
def readU32 (m : Mmu) (vAddr : U32) : Outcome U32 := do
  let b₀ ← m.readByte vAddr
  let b₁ ← m.readByte (vAddr + 1)
  let b₂ ← m.readByte (vAddr + 2)
  let b₃ ← m.readByte (vAddr + 3)
  return b₃ ++ b₂ ++ b₁ ++ b₀

/-- The loop of `ElfCheckIdent` from byte `i` on. -/
def checkIdentFrom (m : Mmu) (header : U32) (i : ℕ) : List U8 → Outcome Bool
  | [] => .ret true
  | byte :: rest => do
    let read ← m.readByte (header + BitVec.ofNat 32 i)
    if read ≠ byte then return false
    else m.checkIdentFrom header (i + 1) rest

/-- `Elf::ElfCheckIdent`. -/
def elfCheckIdent (m : Mmu) (header : U32) : Outcome Bool := m.checkIdentFrom header 0 elfIdent

/-- `Elf::ElfInit`. The value stored in `*elf` is part of the result. -/
def elfInit (m : Mmu) (file elf : U32) : Outcome (KeStatus × Option ElfFile) :=
  if file = 0 then .ret (.statusNullParameter, none)
  else if elf = 0 then .ret (.statusNullParameter, none)
  else do
    let phoff ← m.readU32 (file + 28)
    -- `STATUS_UNEXPECTED` for an offset of 0 is overwritten
    return (.statusSuccess, some ⟨file, file + phoff⟩)

end Mmu

/-- One turn of the loop of `_MapElfInProcess`. -/
def mapElfTurn (fuel : ℕ) (elf : ElfFile) (process : Process) :
    ℕ × VadMem → Outcome ((ℕ × VadMem) ⊕ (KeStatus × VadMem))
  | (i, s) => do
    let phnum ← s.mem.mmu.readU16 (elf.header + 44)
    if i < phnum.toNat then
      let entry := elf.prgHeaderTable + BitVec.ofNat 32 (32 * i)
      let vUserSectionPtr ← s.mem.mmu.readU32 (entry + 8)
      let sectionSize ← s.mem.mmu.readU32 (entry + 20)
      let offset ← s.mem.mmu.readU32 (entry + 4)
      if vUserSectionPtr = 0 then return .inr (.statusSuccess, s)
      else
        let (status, s) ← process.allocateMemoryAtAddress fuel s vUserSectionPtr true sectionSize
        if failed status then return .inr (status, s)
        else
          let mem ← process.memorySetAndCopy s.mem (elf.header + offset) vUserSectionPtr
            sectionSize 0
          return .inl (i + 1, { s with mem })
    else return .inr (.statusSuccess, s)

/-- `Module::_MapElfInProcess`. -/
def mapElfInProcess (fuel : ℕ) (elf : ElfFile) (process : Process) (s : VadMem) :
    Outcome (KeStatus × VadMem) :=
  Outcome.loop (mapElfTurn fuel elf process) fuel (0, s)

/-! ## What the file says -/

/-- The bytes of a file as half words and words. -/
def u16At (file : List U8) (n : ℕ) : BitVec 16 := file.getD (n + 1) 0 ++ file.getD n 0

def u32At (file : List U8) (n : ℕ) : U32 :=
  file.getD (n + 3) 0 ++ file.getD (n + 2) 0 ++ file.getD (n + 1) 0 ++ file.getD n 0

/-- `ElfProgramHeaderTable`: one entry of the table. -/
structure ElfProgramHeaderTable where
  type : U32
  offset : U32
  vaddr : U32
  fileSize : U32
  memSize : U32

/-- The number of entries, and entry `i`. -/
def phnum (file : List U8) : ℕ := (u16At file 44).toNat

def programHeader (file : List U8) (i : ℕ) : ElfProgramHeaderTable :=
  let entry := (u32At file 28).toNat + 32 * i
  { type := u32At file entry
    offset := u32At file (entry + 4)
    vaddr := u32At file (entry + 8)
    fileSize := u32At file (entry + 16)
    memSize := u32At file (entry + 20) }

/-- Entry `i` is of type `PT_LOAD`. -/
def IsLoad (file : List U8) (i : ℕ) : Prop := i < phnum file ∧ (programHeader file i).type = 1

instance (file : List U8) (i : ℕ) : Decidable (IsLoad file i) :=
  inferInstanceAs (Decidable (_ ∧ _))

/-- An executable file for this machine. -/
structure ValidElf (file : List U8) : Prop where
  header : 52 ≤ file.length
  ident : file.take 4 = elfIdent
  type : u16At file 16 = 2
  machine : u16At file 18 = 3
  version : u32At file 20 = 1
  phentsize : u16At file 42 = 32
  table : (u32At file 28).toNat + 32 * phnum file ≤ file.length
  segments : ∀ i, IsLoad file i →
    (programHeader file i).fileSize ≤ (programHeader file i).memSize ∧
    (programHeader file i).offset.toNat + (programHeader file i).fileSize.toNat ≤ file.length

/-- The bytes are in memory from `start` on. -/
structure ModuleAt (phys : U32 → U32) (start : U32) (bytes : List U8) : Prop where
  notNull : start ≠ 0
  limit : start.toNat + bytes.length ≤ 0x800000
  byte : ∀ n < bytes.length, LowByte phys (start + BitVec.ofNat 32 n) (bytes.getD n 0)

section Read

variable {m : Mmu} {phys phys' : U32 → U32} {start a v w : U32} {b : U8}
  {bytes file behind : List U8} {i n k fuel : ℕ} {p : Process} {s : VadMem} {elf : ElfFile}

theorem ModuleAt.mono (h : ModuleAt phys start bytes)
    (hlow : ∀ v b, LowByte phys v b → LowByte phys' v b) : ModuleAt phys' start bytes :=
  ⟨h.notNull, h.limit, fun n hn => hlow _ _ (h.byte n hn)⟩

theorem add_ofNat_add (a : U32) (n k : ℕ) :
    a + BitVec.ofNat 32 n + BitVec.ofNat 32 k = a + BitVec.ofNat 32 (n + k) := by
  rw [BitVec.ofNat_add, BitVec.add_assoc]

section Words

variable (h : ModuleAt m.phys start bytes) (hdir : Directory m.phys m.cr3)

include h hdir

theorem ModuleAt.readByte (hn : n < bytes.length) :
    m.readByte (start + BitVec.ofNat 32 n) = .ret (bytes.getD n 0) :=
  (h.byte n hn).readByte hdir

theorem ModuleAt.readU16 (hn : n + 2 ≤ bytes.length) :
    m.readU16 (start + BitVec.ofNat 32 n) = .ret (u16At bytes n) := by
  have h₁ := h.readByte hdir (n := n + 1) (by omega)
  rw [← add_ofNat_add] at h₁
  rw [Mmu.readU16, h.readByte hdir (by omega), Outcome.ret_bind]
  refine (congrArg (· >>= _) h₁).trans ?_
  rfl

theorem ModuleAt.readU32 (hn : n + 4 ≤ bytes.length) :
    m.readU32 (start + BitVec.ofNat 32 n) = .ret (u32At bytes n) := by
  have hbyte (k : ℕ) (hk : k < 4) : m.readByte (start + BitVec.ofNat 32 n + BitVec.ofNat 32 k) =
      .ret (bytes.getD (n + k) 0) := by
    rw [add_ofNat_add]
    exact h.readByte hdir (by omega)
  rw [Mmu.readU32, h.readByte hdir (by omega), Outcome.ret_bind]
  refine (congrArg (· >>= _) (hbyte 1 (by decide))).trans ?_
  rw [Outcome.ret_bind]
  refine (congrArg (· >>= _) (hbyte 2 (by decide))).trans ?_
  rw [Outcome.ret_bind]
  refine (congrArg (· >>= _) (hbyte 3 (by decide))).trans ?_
  rfl

/-- `ElfCheckIdent` compares the first bytes. -/
theorem ModuleAt.checkIdentFrom (idents : List U8) (hn : n + idents.length ≤ bytes.length) :
    m.checkIdentFrom start n idents =
      .ret (decide ((bytes.drop n).take idents.length = idents)) := by
  induction idents generalizing n with
  | nil =>
    rw [Mmu.checkIdentFrom, List.length_nil, List.take_zero]
    rfl
  | cons ident idents ih =>
    rw [List.length_cons] at hn
    have hlt : n < bytes.length := by omega
    have hdrop : bytes.drop n = bytes[n] :: bytes.drop (n + 1) := List.drop_eq_getElem_cons hlt
    have hread := h.readByte hdir hlt
    rw [List.getD_eq_getElem _ _ hlt] at hread
    rw [Mmu.checkIdentFrom, hread, Outcome.ret_bind, hdrop, List.length_cons, List.take_succ_cons]
    by_cases hsame : bytes[n] = ident
    · rw [if_neg (not_not.mpr hsame), ih (by omega)]
      simp [hsame]
    · rw [if_pos hsame]
      simp [hsame]

end Words

/-- The words of the file are those of the memory that it is at the start of. -/
theorem u16At_append (hn : n + 2 ≤ file.length) : u16At (file ++ behind) n = u16At file n := by
  rw [u16At, u16At, List.getD_append _ _ _ _ (by omega), List.getD_append _ _ _ _ (by omega)]

theorem u32At_append (hn : n + 4 ≤ file.length) : u32At (file ++ behind) n = u32At file n := by
  rw [u32At, u32At, List.getD_append _ _ _ _ (by omega), List.getD_append _ _ _ _ (by omega),
    List.getD_append _ _ _ _ (by omega), List.getD_append _ _ _ _ (by omega)]

section Module

variable (h : ModuleAt m.phys start (file ++ behind)) (hvalid : ValidElf file)
  (hdir : Directory m.phys m.cr3)

include h hvalid hdir

theorem ModuleAt.elfCheckIdent : m.elfCheckIdent start = .ret true := by
  have hlen := hvalid.header
  have hfour : elfIdent.length = 4 := rfl
  have hcheck := h.checkIdentFrom hdir (n := 0) elfIdent (by
    rw [List.length_append, hfour]
    omega)
  rw [List.drop_zero, hfour, List.take_append_of_le_length (by omega), hvalid.ident] at hcheck
  exact hcheck

/-- `ElfInit` finds the table. -/
theorem ModuleAt.elfInit (ha : a ≠ 0) : m.elfInit start a =
    .ret (.statusSuccess, some ⟨start, start + u32At file 28⟩) := by
  have hlen := hvalid.header
  have hread := h.readU32 hdir (n := 28) (by
    rw [List.length_append]
    omega)
  rw [u32At_append (by omega)] at hread
  rw [Mmu.elfInit, if_neg h.notNull, if_neg ha]
  refine (congrArg (· >>= _) hread).trans ?_
  rfl

theorem ModuleAt.phnum : m.readU16 (start + 44) = .ret (u16At file 44) := by
  have hlen := hvalid.header
  have hread := h.readU16 hdir (n := 44) (by
    rw [List.length_append]
    omega)
  rwa [u16At_append (by omega)] at hread

/-- A field of entry `i`. -/
theorem ModuleAt.field (hi : i < LtMicros.phnum file) (hk : k + 4 ≤ 32) :
    m.readU32 (start + u32At file 28 + BitVec.ofNat 32 (32 * i) + BitVec.ofNat 32 k) =
      .ret (u32At file ((u32At file 28).toNat + 32 * i + k)) := by
  have htable := hvalid.table
  have hread := h.readU32 hdir (n := (u32At file 28).toNat + 32 * i + k) (by
    rw [List.length_append]
    omega)
  rw [u32At_append (by omega)] at hread
  have haddr : start + u32At file 28 + BitVec.ofNat 32 (32 * i) + BitVec.ofNat 32 k =
      start + BitVec.ofNat 32 ((u32At file 28).toNat + 32 * i + k) := by
    rw [← add_ofNat_add, ← add_ofNat_add, BitVec.ofNat_toNat, BitVec.setWidth_eq]
  rw [haddr]
  exact hread

end Module

/-- A turn works on the entry that the file has there. -/
theorem mapElfTurn_eq (h : ModuleAt s.mem.mmu.phys start (file ++ behind)) (hvalid : ValidElf file)
    (hdir : Directory s.mem.mmu.phys s.mem.mmu.cr3) (i : ℕ) :
    mapElfTurn fuel ⟨start, start + u32At file 28⟩ p (i, s) =
      if i < phnum file then
        if (programHeader file i).vaddr = 0 then .ret (.inr (.statusSuccess, s))
        else do
          let (status, s) ← p.allocateMemoryAtAddress fuel s (programHeader file i).vaddr true
            (programHeader file i).memSize
          if failed status then return .inr (status, s)
          else
            let mem ← p.memorySetAndCopy s.mem (start + (programHeader file i).offset)
              (programHeader file i).vaddr (programHeader file i).memSize 0
            return .inl (i + 1, { s with mem })
      else .ret (.inr (.statusSuccess, s)) := by
  have hcount : (u16At file 44).toNat = phnum file := rfl
  rw [mapElfTurn, h.phnum hvalid hdir, Outcome.ret_bind, hcount]
  by_cases hi : i < phnum file
  · have hvaddr := h.field hvalid hdir hi (k := 8) (by decide)
    have hsize := h.field hvalid hdir hi (k := 20) (by decide)
    have hoffset := h.field hvalid hdir hi (k := 4) (by decide)
    rw [if_pos hi, if_pos hi]
    refine (congrArg (· >>= _) hvaddr).trans ?_
    rw [Outcome.ret_bind]
    refine (congrArg (· >>= _) hsize).trans ?_
    rw [Outcome.ret_bind]
    refine (congrArg (· >>= _) hoffset).trans ?_
    rfl
  · rw [if_neg hi, if_neg hi]
    rfl

end Read

end LtMicros
