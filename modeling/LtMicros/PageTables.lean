import LtMicros.KernelTables
import LtMicros.PagePoolLists
import LtMicros.Lib.Frames

/-!
# Page directories and page tables

A page directory whose last entry points to itself gives the kernel every entry
of the address space at a fixed virtual address. What the functions of `Vmm` do
through these addresses is said here in slots of physical frames.
-/

namespace LtMicros

open Lib Lib.Frames

variable {v : U32}

/-- The index of the directory entry of an address. -/
def dirIndex (v : U32) : U32 := v >>> 22

/-- The index of the table entry of an address. -/
def tableIndex (v : U32) : U32 := (v >>> 12) &&& 0x3FF#32

theorem toNat_dirIndex (v : U32) : (dirIndex v).toNat = v.toNat / 2 ^ 22 := by
  rw [dirIndex, BitVec.toNat_ushiftRight, Nat.shiftRight_eq_div_pow]

theorem toNat_tableIndex (v : U32) : (tableIndex v).toNat = v.toNat / 2 ^ 12 % 1024 := by
  have hmask : (0x3FF#32).toNat = 2 ^ 10 - 1 := rfl
  rw [tableIndex, BitVec.toNat_and, hmask, Nat.and_two_pow_sub_one_eq_mod,
    BitVec.toNat_ushiftRight, Nat.shiftRight_eq_div_pow]

theorem dirIndex_lt (v : U32) : (dirIndex v).toNat < 1024 := by
  have hlt := v.isLt
  rw [toNat_dirIndex]
  omega

theorem tableIndex_lt (v : U32) : (tableIndex v).toNat < 1024 := by
  rw [toNat_tableIndex]
  exact Nat.mod_lt _ (by decide)

/-- The page of an address, as a number. -/
theorem page_eq (v : U32) :
    v.toNat / 4096 = 1024 * (dirIndex v).toNat + (tableIndex v).toNat := by
  rw [toNat_dirIndex, toNat_tableIndex]
  omega

/-- Two addresses with the same indices are in one page. -/
theorem page_eq_iff {u v : U32} :
    u.toNat / 4096 = v.toNat / 4096 ↔ dirIndex u = dirIndex v ∧ tableIndex u = tableIndex v := by
  have hu := tableIndex_lt u
  have hv := tableIndex_lt v
  rw [page_eq, page_eq, BitVec.toNat_inj.symm, BitVec.toNat_inj.symm]
  omega

theorem dirIndex_kernel (hv : v < vUserBaseAddr) : (dirIndex v).toNat < 256 := by
  have hv : v.toNat < 2 ^ 30 := hv
  rw [toNat_dirIndex]
  omega

/-! ## Entries -/

theorem frameOf_setField (w : U32) {bit : ℕ} (hbit : bit < 12) (value : Bool) :
    frameOf (setField w bit value) = frameOf w := by
  rw [frameOf, frameOf]
  ext i hi
  have hget : (setField w bit value).getLsbD i = if i = bit then value else w.getLsbD i :=
    getLsbD_setField w bit i value hi
  simp only [← BitVec.getLsbD_eq_getElem, BitVec.getLsbD_and, hget]
  split
  · rename_i heq
    have hmask : (0xFFFFF000#32).getLsbD i = false := by
      have hi : i < 12 := by omega
      interval_cases i <;> rfl
    rw [hmask, Bool.and_false, Bool.and_false]
  · rfl

theorem frameOf_setPageTableEntry (pageAddr flags : U32) :
    frameOf (setPageTableEntry pageAddr flags) = frameOf pageAddr := by
  simp (disch := decide) only [setPageTableEntry, setEntryFields, frameOf_setField]

theorem frameOf_setPageDirectoryEntry (ptAddr flags : U32) :
    frameOf (setPageDirectoryEntry ptAddr flags) = frameOf ptAddr := by
  simp (disch := decide) only [setPageDirectoryEntry, setEntryFields, frameOf_setField]

theorem flagOn_setPageDirectoryEntry (ptAddr flags : U32) :
    flagOn (setPageDirectoryEntry ptAddr flags) pagePresent = flagOn flags pagePresent := by
  rw [flagOn_pagePresent, setPageDirectoryEntry, setEntryFields]
  simp (disch := decide) only [getLsbD_setField, ite_true, if_neg]

/-- An entry is present and names its frame. -/
theorem pointsTo_iff {w f : U32} :
    PointsTo w f ↔ flagOn w pagePresent = true ∧ frameOf w = f := Iff.rfl

theorem pointsTo_frameOf {w : U32} (hw : flagOn w pagePresent = true) : PointsTo w (frameOf w) :=
  ⟨hw, rfl⟩

/-! ## The kernel half -/

/-- The directory entry of the kernel table `i`. -/
def kernelPde (i : U32) : U32 := setPageDirectoryEntry (kernelTable i) (pagePresent ||| pageWriteable)

/-- The table entry of a page that the kernel has mapped for itself. -/
def kernelEntry (pAddr : U32) : U32 := setPageTableEntry pAddr (pagePresent ||| pageWriteable)

theorem toNat_kernelTable {i : U32} (hi : i.toNat < 256) :
    (kernelTable i).toNat = 0x400000 + 4096 * i.toNat := by
  have hbase : kernelInfo.pPageTables.toNat = 0x400000 := rfl
  rw [kernelTable, BitVec.toNat_add, BitVec.toNat_shiftLeft, Nat.shiftLeft_eq, hbase]
  omega

theorem isFrame_kernelTable {i : U32} (hi : i.toNat < 256) : IsFrame (kernelTable i) := by
  rw [IsFrame, toNat_kernelTable hi]
  omega

theorem kernelTable_inj {i j : U32} (hi : i.toNat < 256) (hj : j.toNat < 256)
    (heq : kernelTable i = kernelTable j) : i = j := by
  have hnat := congrArg BitVec.toNat heq
  rw [toNat_kernelTable hi, toNat_kernelTable hj] at hnat
  apply BitVec.eq_of_toNat_eq
  omega

theorem pointsTo_kernelPde {i : U32} (hi : i.toNat < 256) :
    PointsTo (kernelPde i) (kernelTable i) := by
  constructor
  · rw [kernelPde, flagOn_setPageDirectoryEntry]
    decide
  · have hframe := frameOf_setPageDirectoryEntry (kernelTable i) (pagePresent ||| pageWriteable)
    rw [(isFrame_kernelTable hi).frameOf_eq] at hframe
    exact hframe

theorem pointsTo_kernelEntry (pAddr : U32) : PointsTo (kernelEntry pAddr) (frameOf pAddr) := by
  constructor
  · rw [kernelEntry, flagOn_setPageTableEntry]
    decide
  · exact frameOf_setPageTableEntry _ _

/-- The entry of a kernel address is a slot of its table. -/
theorem kernelPte_eq (v : U32) : kernelPte v = slot (kernelTable (dirIndex v)) (tableIndex v) := by
  rw [slot, kernelTable, dirIndex, tableIndex, BitVec.add_assoc, table_offset, kernelPte]

/-- `f` is not one of the tables of the kernel half. -/
def OffKernel (f : U32) : Prop := f.toNat + 4096 ≤ 0x400000 ∨ 0x500000 ≤ f.toNat

theorem OffKernel.ne_kernelTable {f i : U32} (hf : OffKernel f) (hi : i.toNat < 256) :
    f ≠ kernelTable i := by
  rintro rfl
  rw [OffKernel, toNat_kernelTable hi] at hf
  omega

/-- A page directory: the kernel half is in place, and the last entry points to
the directory itself. -/
structure Directory (phys : U32 → U32) (d : U32) : Prop where
  frame : IsFrame d
  off : OffKernel d
  self : PointsTo (phys (slot d 1023)) d
  tables : ∀ i : U32, i.toNat < 256 → phys (slot d i) = kernelPde i

/-- The directory entry of `v` is present, and its table is `t`. -/
def TableOf (phys : U32 → U32) (d v t : U32) : Prop := PointsTo (phys (slot d (dirIndex v))) t

section Directory

variable {phys phys' : U32 → U32} {d t f : U32}

theorem TableOf.frame (h : TableOf phys d v t) : IsFrame t := by
  rw [← h.2]
  exact isFrame_frameOf _

theorem TableOf.unique {t' : U32} (h : TableOf phys d v t) (h' : TableOf phys d v t') : t = t' :=
  h.2.symm.trans h'.2

theorem Directory.kernel (h : Directory phys d) (hv : v < vUserBaseAddr) :
    TableOf phys d v (kernelTable (dirIndex v)) := by
  rw [TableOf, h.tables _ (dirIndex_kernel hv)]
  exact pointsTo_kernelPde (dirIndex_kernel hv)

/-- A directory depends on these of its entries only. -/
theorem Directory.congr (h : Directory phys d)
    (hkernel : ∀ i : U32, i.toNat < 256 → phys' (slot d i) = phys (slot d i))
    (hself : phys' (slot d 1023) = phys (slot d 1023)) : Directory phys' d := by
  constructor
  · exact h.frame
  · exact h.off
  · rw [hself]
    exact h.self
  · intro i hi
    rw [hkernel i hi]
    exact h.tables i hi

/-- Writing another frame keeps a directory. -/
theorem Directory.set_other (h : Directory phys d) (hf : IsFrame f) (hne : d ≠ f) {i w : U32}
    (hi : i.toNat < 1024) : Directory (set phys f i w) d := by
  apply h.congr
  · intro j hj
    exact set_of_frame_ne hf h.frame hi (by omega) hne
  · exact set_of_frame_ne hf h.frame hi (by decide) hne

theorem Directory.fill_other (h : Directory phys d) (hf : IsFrame f) (hne : d ≠ f)
    (x : U32 → U32) {n : ℕ} (hn : n ≤ 1024) : Directory (fill phys f x n) d := by
  apply h.congr
  · intro j hj
    exact fill_of_frame_ne hf h.frame (by omega) phys x hn hne
  · exact fill_of_frame_ne hf h.frame (by decide) phys x hn hne

/-- Writing an entry of the user half keeps a directory. -/
theorem Directory.set_user (h : Directory phys d) {i w : U32} (hlo : 256 ≤ i.toNat)
    (hhi : i.toNat < 1023) : Directory (set phys d i w) d := by
  apply h.congr
  · intro j hj
    apply set_of_index_ne h.frame h.frame (by omega) (by omega)
    rintro rfl
    omega
  · apply set_of_index_ne h.frame h.frame (by omega) (by decide)
    rintro rfl
    exact absurd hhi (by decide)

end Directory

/-! ## Memory accesses through the last directory entry -/

namespace Mmu

variable {m : Mmu} {d t : U32}

/-- The last entry of the current page directory points to the directory. -/
def SelfMapped (m : Mmu) : Prop := PointsTo (m.phys (slot m.directory 1023)) m.directory

theorem translate_pdeOf_self (h : m.SelfMapped) (v : U32) :
    m.translate (pdeOf v) = some (slot m.directory (dirIndex v)) := by
  rw [slot, dirIndex, ← pdeOf_offset v]
  apply translate_eq (d := m.directory)
  · rw [pdeOf_dir]
    exact h
  · rw [pdeOf_table]
    exact h

theorem read_pdeOf_self (h : m.SelfMapped) (v : U32) :
    m.read (pdeOf v) = .ret (m.phys (slot m.directory (dirIndex v))) := by
  rw [Mmu.read, translate_pdeOf_self h]
  rfl

theorem translate_pteOf_self (h : m.SelfMapped) (ht : TableOf m.phys m.directory v t) :
    m.translate (pteOf v) = some (slot t (tableIndex v)) := by
  rw [slot, tableIndex, ← pteOf_offset v]
  apply translate_eq (d := m.directory)
  · rw [pteOf_dir]
    exact h
  · rw [pteOf_table]
    exact ht

theorem write_pteOf_self (h : m.SelfMapped) (ht : TableOf m.phys m.directory v t) (w : U32) :
    m.write (pteOf v) w = .ret { m with phys := set m.phys t (tableIndex v) w } := by
  rw [Mmu.write, translate_pteOf_self h ht, set_eq_update]
  rfl

/-- The directory entry of an address is read where it is. -/
theorem translate_pdeOf (h : Directory m.phys m.directory) (v : U32) :
    m.translate (pdeOf v) = some (slot m.directory (dirIndex v)) :=
  translate_pdeOf_self h.self v

theorem read_pdeOf (h : Directory m.phys m.directory) (v : U32) :
    m.read (pdeOf v) = .ret (m.phys (slot m.directory (dirIndex v))) :=
  read_pdeOf_self h.self v

theorem write_pdeOf (h : Directory m.phys m.directory) (v w : U32) :
    m.write (pdeOf v) w = .ret { m with phys := set m.phys m.directory (dirIndex v) w } := by
  rw [Mmu.write, translate_pdeOf h, set_eq_update]
  rfl

/-- So is the table entry. -/
theorem read_pteOf (h : Directory m.phys m.directory) (ht : TableOf m.phys m.directory v t) :
    m.read (pteOf v) = .ret (m.phys (slot t (tableIndex v))) := by
  rw [Mmu.read, translate_pteOf_self h.self ht]
  rfl

theorem write_pteOf (h : Directory m.phys m.directory) (ht : TableOf m.phys m.directory v t)
    (w : U32) :
    m.write (pteOf v) w = .ret { m with phys := set m.phys t (tableIndex v) w } :=
  write_pteOf_self h.self ht w

/-- A page of the kernel half is mapped. -/
theorem addPageToKernelPageDirectory_eq (h : Directory m.phys m.directory)
    (hv : v < vUserBaseAddr) (pAddr flags : U32) :
    m.addPageToKernelPageDirectory v pAddr flags = .ret { m with
      phys := set m.phys (kernelTable (dirIndex v)) (tableIndex v) (kernelEntry pAddr) } := by
  have hpresent := (h.kernel hv).1
  rw [addPageToKernelPageDirectory, if_neg (BitVec.not_lt.mpr (BitVec.le_of_lt hv)),
    read_pdeOf h]
  simp only [Outcome.ret_bind, hpresent, if_true]
  exact write_pteOf h (h.kernel hv) _

/-- The words of a page are read and written where its table entry says. -/
theorem translate_page (h : Directory m.phys m.directory) (hv : v < vUserBaseAddr)
    (halign : IsFrame v) {f i : U32} (hi : i.toNat < 1024)
    (hentry : PointsTo (m.phys (slot (kernelTable (dirIndex v)) (tableIndex v))) f) :
    m.translate (slot v i) = some (slot f i) := by
  have hnat := toNat_slot halign hi
  rw [IsFrame] at halign
  have hdir : dirIndex (slot v i) = dirIndex v := by
    apply BitVec.eq_of_toNat_eq
    rw [toNat_dirIndex, toNat_dirIndex, hnat]
    omega
  have htable : tableIndex (slot v i) = tableIndex v := by
    apply BitVec.eq_of_toNat_eq
    rw [toNat_tableIndex, toNat_tableIndex, hnat]
    omega
  have hoffset : slot v i &&& 0xFFF#32 = i <<< 2 := by
    have hmask : (0xFFF#32).toNat = 2 ^ 12 - 1 := rfl
    apply BitVec.eq_of_toNat_eq
    rw [BitVec.toNat_and, hmask, Nat.and_two_pow_sub_one_eq_mod, hnat, BitVec.toNat_shiftLeft,
      Nat.shiftLeft_eq]
    omega
  rw [dirIndex] at hdir
  rw [tableIndex] at htable
  rw [translate_eq (d := kernelTable (dirIndex v)) (t := f), hoffset, slot]
  · rw [hdir]
    exact h.kernel hv
  · rw [htable]
    exact hentry

/-- The page `v` is mapped to a frame that the walk does not use. -/
structure MapsTo (m : Mmu) (v f : U32) : Prop where
  directory : Directory m.phys m.directory
  lt : v < vUserBaseAddr
  frame : IsFrame v
  entry : PointsTo (m.phys (slot (kernelTable (dirIndex v)) (tableIndex v))) f
  ne : m.directory ≠ f
  off : OffKernel f

variable {f : U32} {x : U32 → U32}

theorem MapsTo.isFrame (h : MapsTo m v f) : IsFrame f := by
  rw [← h.entry.2]
  exact isFrame_frameOf _

theorem MapsTo.write (h : MapsTo m v f) {i : U32} (hi : i.toNat < 1024) (w : U32) :
    m.write (slot v i) w = .ret { m with phys := set m.phys f i w } := by
  rw [Mmu.write, translate_page h.directory h.lt h.frame hi h.entry, set_eq_update]
  rfl

/-- Filling the page does not change how it is mapped. -/
theorem MapsTo.fill (h : MapsTo m v f) {n : ℕ} (hn : n ≤ 1024) :
    MapsTo { m with phys := fill m.phys f x n } v f := by
  have hkernel := dirIndex_kernel h.lt
  constructor
  · exact h.directory.fill_other h.isFrame h.ne x hn
  · exact h.lt
  · exact h.frame
  · dsimp only
    rw [fill_of_frame_ne h.isFrame (isFrame_kernelTable hkernel) (tableIndex_lt v) _ _ hn
      (h.off.ne_kernelTable hkernel).symm]
    exact h.entry
  · exact h.ne
  · exact h.off

/-- The address of word `n` of a page, as the loops over a page compute it. -/
theorem add_four_mul (v : U32) {n : ℕ} (hn : n < 1024) :
    v + BitVec.ofNat 32 (4 * n) = slot v (BitVec.ofNat 32 n) := by
  rw [slot]
  congr 1
  apply BitVec.eq_of_toNat_eq
  rw [BitVec.toNat_ofNat, BitVec.toNat_shiftLeft, toNat_index hn, Nat.shiftLeft_eq, Nat.mul_comm]

/-- One turn of a loop that fills a page. -/
theorem MapsTo.fill_write (h : MapsTo m v f) {n : ℕ} (hn : n < 1024) :
    Mmu.write { m with phys := Frames.fill m.phys f x n } (v + BitVec.ofNat 32 (4 * n))
      (x (BitVec.ofNat 32 n)) = .ret { m with phys := Frames.fill m.phys f x (n + 1) } := by
  have hindex : (BitVec.ofNat 32 n).toNat < 1024 := by rwa [toNat_index hn]
  rw [add_four_mul v hn, (h.fill (Nat.le_of_lt hn)).write hindex, fill_succ]

/-- A loop that fills a page from word `a` on. -/
theorem foldlM_fill {g : Mmu → ℕ → Outcome Mmu} {a n : ℕ}
    (hbody : ∀ i, a ≤ i → i < a + n → g { m with phys := Frames.fill m.phys f x i } i =
      .ret { m with phys := Frames.fill m.phys f x (i + 1) }) :
    (List.range' a n).foldlM g { m with phys := Frames.fill m.phys f x a } =
      .ret { m with phys := Frames.fill m.phys f x (a + n) } := by
  induction n with
  | zero => rfl
  | succ n ih =>
    have hlast := hbody (a + n) (by omega) (by omega)
    rw [List.range'_concat, List.foldlM_append, ih fun i hi hlt => hbody i hi (by omega),
      Outcome.ret_bind, Nat.one_mul, List.foldlM_cons, hlast]
    rfl

/-- A page that is mapped to another frame than those of the walk is cleared. -/
theorem MapsTo.cleanPageTable (h : MapsTo m v f) :
    m.cleanPageTable v = .ret { m with phys := Frames.fill m.phys f (fun _ => 0) 1024 } := by
  have hloop := foldlM_fill (m := m) (f := f) (x := fun _ => 0) (a := 0) (n := 1024)
    (g := fun m i => m.write (v + BitVec.ofNat 32 (4 * i)) 0) (by
      intro i _ hi
      exact h.fill_write (x := fun _ => 0) (by omega))
  rw [fill_zero, Nat.zero_add] at hloop
  rw [Mmu.cleanPageTable, List.range_eq_range']
  exact hloop

end Mmu

end LtMicros
