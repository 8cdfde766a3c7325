import LtMicros.FrameOwners
import LtMicros.LazyPages
import LtMicros.Lib.FrameBytes

/-!
# The bytes of a process

Bytes are read and written through the page tables, like the words of the tables themselves.
In an address space whose pages have frames of their own, and hold none of the tables, a
write changes one byte, and a page that is reserved changes the bytes of that page only.
-/

namespace LtMicros

open Lib Lib.Frames

namespace Mmu

/-- Reads the byte at a virtual address. -/
def readByte (m : Mmu) (vAddr : U32) : Outcome U8 := do
  let pAddr ← .ofOption (m.translate vAddr)
  return getByte m.phys pAddr

/-- Writes the byte at a virtual address. -/
def writeByte (m : Mmu) (vAddr : U32) (byte : U8) : Outcome Mmu := do
  let pAddr ← .ofOption (m.translate vAddr)
  return { m with phys := setByte m.phys pAddr byte }

/-- `MemSet`: `size` is counted down, and the pointer goes up. -/
def memSet (m : Mmu) (src : U32) (byte : U8) : ℕ → Outcome Mmu
  | 0 => .ret m
  | size + 1 => do
    let m ← m.writeByte src byte
    m.memSet (src + 1) byte size

/-- `MemCopy`. -/
def memCopy (m : Mmu) (src dst : U32) : ℕ → Outcome Mmu
  | 0 => .ret m
  | size + 1 => do
    let byte ← m.readByte src
    let m ← m.writeByte dst byte
    m.memCopy (src + 1) (dst + 1) size

/-- The byte at a virtual address of the page directory `d`, if the address is mapped. -/
def byteIn (m : Mmu) (d vAddr : U32) : Option U8 := (m.translateIn d vAddr).map (getByte m.phys)

end Mmu

/-- `Process::MemorySetAndCopy`. -/
def Process.memorySetAndCopy (this : Process) (k : KernelMem) (sourceAddress destAddress size : U32)
    (byte : U8) : Outcome KernelMem :=
  if sourceAddress = 0 then .ret k
  else if destAddress = 0 then .ret k
  else do
    let currentPd := k.mmu.getCurrentPageDirectory
    let m := k.mmu.setCurrentPageDirectory this.pdEntry
    let m ← m.memSet destAddress byte size.toNat
    let m ← m.memCopy sourceAddress destAddress size.toNat
    return { k with mmu := m.setCurrentPageDirectory currentPd }

/-! ## Pages and their frames -/

/-- The page of `v` is mapped to the frame `f` in the directory `d`. -/
def PageAt (phys : U32 → U32) (d v f : U32) : Prop := ∃ w, entryIn phys d v = some w ∧ PointsTo w f

/-- A frame that holds data only: one of the bitmap, in use, and no directory or table. -/
structure DataFrame (k : KernelMem) (pds : List U32) (f : U32) : Prop where
  used : k.gPmm.used (pageOf f) = true
  high : 0x800000 ≤ f.toNat
  notDirectory : f ∉ allDirectories pds
  notTable : ∀ d ∈ pds, ∀ i, UserIndex i → ∀ t, PointsTo (k.mmu.phys (slot d i)) t → t ≠ f

/-- The pages of the user half of `d` have data frames of their own. -/
structure OwnSpace (k : KernelMem) (pds : List U32) (d : U32) : Prop where
  separate : Separate ⟨k, pds⟩
  mem : d ∈ pds
  tables : ∀ i, UserIndex i → ∀ t, PointsTo (k.mmu.phys (slot d i)) t → 0x800000 ≤ t.toNat
  data : ∀ v, InUser v → ∀ f, PageAt k.mmu.phys d v f → DataFrame k pds f
  distinct : ∀ u v, InUser u → InUser v → ∀ f, PageAt k.mmu.phys d u f →
    PageAt k.mmu.phys d v f → pageNo u = pageNo v

/-- A byte of the identity-mapped part of the kernel half, which no process may touch. -/
def LowByte (phys : U32 → U32) (v : U32) (b : U8) : Prop :=
  v.toNat < 0x800000 ∧ ∃ g, PointsTo (phys (kernelPte v)) g ∧ g.toNat < 0x800000 ∧ OffKernel g ∧
    getByte phys (g + (v &&& 0xFFF#32)) = b

/-- Of the user half of `d` only the bytes of `S` have changed, and no byte of the kernel's
part. -/
structure Within (k k' : KernelMem) (pds : List U32) (d : U32) (S : U32 → Prop) : Prop where
  own : OwnSpace k' pds d
  bytes : ∀ u, InUser u → ¬S u → k'.mmu.byteIn d u = k.mmu.byteIn d u
  low : ∀ v b, LowByte k.mmu.phys v b → LowByte k'.mmu.phys v b

section Bytes

variable {m m' : Mmu} {k k' k'' : KernelMem} {pds : List U32} {phys phys' : U32 → U32}
  {d f g u v a src dst limit v' : U32} {b byte : U8} {S S' : U32 → Prop} {n : ℕ}

theorem translateIn_eq_some (hd : IsFrame d) : m.translateIn d v = some a ↔
    ∃ f, PageAt m.phys d v f ∧ a = f + (v &&& 0xFFF#32) := by
  rw [translateIn_eq hd]
  unfold PageAt entryIn
  cases hpresent : flagOn (m.phys (slot d (dirIndex v))) pagePresent with
  | false => simp
  | true =>
    simp only [if_true]
    generalize m.phys (slot (frameOf (m.phys (slot d (dirIndex v)))) (tableIndex v)) = w
    cases hw : flagOn w pagePresent with
    | false => simp [PointsTo, hw]
    | true =>
      have hpoints := pointsTo_frameOf hw
      simp only [if_true]
      constructor
      · intro heq
        exact ⟨_, ⟨w, rfl, hpoints⟩, (Option.some.inj heq).symm⟩
      · rintro ⟨f, ⟨w', hw', hf⟩, rfl⟩
        obtain rfl := Option.some.inj hw'
        rw [hf.unique hpoints]

theorem byteIn_eq_some (hd : IsFrame d) : m.byteIn d v = some b ↔
    ∃ f, PageAt m.phys d v f ∧ getByte m.phys (f + (v &&& 0xFFF#32)) = b := by
  rw [Mmu.byteIn, Option.map_eq_some_iff]
  constructor
  · rintro ⟨a, ha, hb⟩
    obtain ⟨f, hf, rfl⟩ := (translateIn_eq_some hd).mp ha
    exact ⟨f, hf, hb⟩
  · rintro ⟨f, hf, hb⟩
    exact ⟨_, (translateIn_eq_some hd).mpr ⟨f, hf, rfl⟩, hb⟩

theorem PageAt.frame (h : PageAt phys d v f) : IsFrame f := by
  obtain ⟨w, -, hw⟩ := h
  exact hw.frame

theorem PageAt.unique (h : PageAt phys d v f) (h' : PageAt phys d v g) : f = g := by
  obtain ⟨w, hw, hf⟩ := h
  obtain ⟨w', hw', hg⟩ := h'
  rw [hw] at hw'
  cases hw'
  exact hf.unique hg

/-- A byte lies in its page. -/
theorem getByte_page (hf : IsFrame f) (h : ∀ j : U32, j.toNat < 1024 →
    phys' (slot f j) = phys (slot f j)) (v : U32) :
    getByte phys' (f + (v &&& 0xFFF#32)) = getByte phys (f + (v &&& 0xFFF#32)) := by
  apply getByte_congr
  rw [frameOf_add hf]
  · exact h
  · rw [toNat_and_offset]
    exact Nat.mod_lt _ (by decide)

/-- The byte stays when its page and the words of it do. -/
theorem byteIn_congr (hd : IsFrame d) (hpage : ∀ f, PageAt m'.phys d v f ↔ PageAt m.phys d v f)
    (hwords : ∀ f, PageAt m.phys d v f → ∀ j : U32, j.toNat < 1024 →
      m'.phys (slot f j) = m.phys (slot f j)) : m'.byteIn d v = m.byteIn d v := by
  ext b
  rw [byteIn_eq_some hd, byteIn_eq_some hd]
  apply exists_congr
  intro f
  rw [hpage]
  apply and_congr_right
  intro hf
  rw [getByte_page hf.frame (hwords f hf) v]

/-- The kernel's part reads alike in every directory. -/
theorem LowByte.byteIn (h : LowByte m.phys v b) (hdir : Directory m.phys d) :
    m.byteIn d v = some b := by
  obtain ⟨hlow, g, hentry, -, -, hb⟩ := h
  have hv : v < vUserBaseAddr := by
    show v.toNat < 0x40000000
    omega
  rw [byteIn_eq_some hdir.frame]
  rw [kernelPte_eq] at hentry
  refine ⟨g, ⟨_, entryIn_table (hdir.kernel hv), hentry⟩, hb⟩

/-- It stays where its table entry and the low frames do. -/
theorem LowByte.kept (h : LowByte phys v b) (hpte : phys' (kernelPte v) = phys (kernelPte v))
    (hwords : ∀ g, IsFrame g → OffKernel g → g.toNat < 0x800000 →
      ∀ j : U32, j.toNat < 1024 → phys' (slot g j) = phys (slot g j)) : LowByte phys' v b := by
  obtain ⟨hlow, g, hentry, hg, hoff, hb⟩ := h
  refine ⟨hlow, g, ?_, hg, hoff, ?_⟩
  · rw [hpte]
    exact hentry
  · rw [getByte_page hentry.frame (hwords g hentry.frame hoff hg)]
    exact hb

theorem LowByte.readByte (h : LowByte m.phys v b) (hdir : Directory m.phys m.cr3) :
    m.readByte v = .ret b := by
  have hin := h.byteIn hdir
  rw [Mmu.byteIn, Option.map_eq_some_iff] at hin
  obtain ⟨a, ha, hb⟩ := hin
  have htranslate : m.translate v = some a := ha
  rw [Mmu.readByte, htranslate]
  simp only [Outcome.ofOption_some, Outcome.ret_bind, Outcome.pure_eq, hb]

/-- A byte that is mapped can be written. -/
theorem writeByte_returns (hcr3 : m.cr3 = d) (b : U8) (h : m.byteIn d v ≠ none) :
    ∃ m', m.writeByte v b = .ret m' := by
  obtain ⟨x, hx⟩ := Option.ne_none_iff_exists'.mp h
  rw [Mmu.byteIn, Option.map_eq_some_iff] at hx
  obtain ⟨a, ha, -⟩ := hx
  have htranslate : m.translate v = some a := by
    rw [Mmu.translateIn, ← hcr3] at ha
    exact ha
  refine ⟨{ m with phys := setByte m.phys a b }, ?_⟩
  rw [Mmu.writeByte, htranslate]
  rfl

/-- Its frame is neither a page directory nor a table of the process. -/
theorem OwnSpace.lowFrame (h : OwnSpace k pds d) (hg : g.toNat < 0x800000) :
    g ≠ d ∧ ∀ i, UserIndex i → ∀ t, PointsTo (k.mmu.phys (slot d i)) t → g ≠ t := by
  constructor
  · rintro rfl
    have hhigh := (h.separate.spaces.pages _ h.mem).1
    omega
  · rintro i hi _ ht rfl
    have hhigh := h.tables i hi _ ht
    omega

/-! ## What is left alone -/

theorem Within.refl (h : OwnSpace k pds d) (S : U32 → Prop) : Within k k pds d S :=
  ⟨h, fun _ _ _ => rfl, fun _ _ hb => hb⟩

theorem Within.trans (h : Within k k' pds d S) (h' : Within k' k'' pds d S') :
    Within k k'' pds d fun u => S u ∨ S' u := by
  constructor
  · exact h'.own
  · intro u hu hout
    obtain ⟨hS, hS'⟩ := not_or.mp hout
    rw [h'.bytes u hu hS', h.bytes u hu hS]
  · intro v b hb
    exact h'.low v b (h.low v b hb)

theorem Within.mono (h : Within k k' pds d S) (hS : ∀ u, InUser u → S u → S' u) :
    Within k k' pds d S' :=
  ⟨h.own, fun u hu hout => h.bytes u hu (fun hin => hout (hS u hu hin)), h.low⟩

/-- Another directory is current. -/
theorem OwnSpace.switch (h : OwnSpace k pds d) {d' : U32} (hd' : d' ∈ allDirectories pds) :
    OwnSpace { k with mmu := k.mmu.setCurrentPageDirectory d' } pds d := by
  constructor
  · exact h.separate.switch hd'
  · exact h.mem
  · exact h.tables
  · intro v hv f hf
    have hdata := h.data v hv f hf
    exact ⟨hdata.used, hdata.high, hdata.notDirectory, hdata.notTable⟩
  · exact h.distinct

theorem Within.switch (h : Within k k' pds d S) {d' : U32} (hd' : d' ∈ allDirectories pds) :
    Within k { k' with mmu := k'.mmu.setCurrentPageDirectory d' } pds d S :=
  ⟨h.own.switch hd', h.bytes, h.low⟩

theorem Within.of_switch {d' : U32}
    (h : Within { k with mmu := k.mmu.setCurrentPageDirectory d' } k' pds d S) :
    Within k k' pds d S :=
  ⟨h.own, h.bytes, h.low⟩

/-! ## A byte is written -/

/-- Other words in a data frame leave the tables as they are. -/
theorem OwnSpace.overwrite (h : OwnSpace k pds d) (hf : DataFrame k pds f)
    (hsame : ∀ g, IsFrame g → g ≠ f → ∀ j : U32, j.toNat < 1024 →
      phys (slot g j) = k.mmu.phys (slot g j)) :
    OwnSpace (k.withPhys phys) pds d ∧
      ∀ u, InUser u → entryIn phys d u = entryIn k.mmu.phys d u := by
  have hs := h.separate.spaces
  have hdir (g : U32) (hg : g ∈ allDirectories pds) (j : U32) (hj : j.toNat < 1024) :
      phys (slot g j) = k.mmu.phys (slot g j) := by
    apply hsame g (hs.directories g hg).frame _ j hj
    rintro rfl
    exact hf.notDirectory hg
  have hpds (g : U32) (hg : g ∈ pds) (j : U32) (hj : j.toNat < 1024) :=
    hdir g (List.mem_cons_of_mem _ hg) j hj
  have hentry (u : U32) (hu : InUser u) : entryIn phys d u = entryIn k.mmu.phys d u := by
    unfold entryIn
    rw [hpds d h.mem _ (dirIndex_lt u)]
    cases hpresent : flagOn (k.mmu.phys (slot d (dirIndex u))) pagePresent with
    | false => rfl
    | true =>
      have ht := pointsTo_frameOf hpresent
      have hne := hf.notTable d h.mem _ hu.userIndex _ ht
      rw [hsame _ (isFrame_frameOf _) hne _ (tableIndex_lt u)]
  refine ⟨?_, hentry⟩
  have hpage (u : U32) (hu : InUser u) (g : U32) :
      PageAt (k.withPhys phys).mmu.phys d u g ↔ PageAt k.mmu.phys d u g := by
    rw [KernelMem.withPhys_phys, PageAt, PageAt, hentry u hu]
  have hspaces : Spaces (k.withPhys phys) pds := by
    apply hs.update
    · exact fun _ hq => hq
    · exact hs.pool
    · exact hs.current
    · intro g hg i hi
      exact hdir g hg i (lt_of_shared hi)
    · intro g hg i hi t ht
      left
      rwa [KernelMem.withPhys_phys, hpds g hg i (Nat.lt_succ_of_lt hi.2)] at ht
    · intro i hi
      apply hsame _ (isFrame_kernelTable (by decide)) _ i (by omega)
      rintro rfl
      exact absurd hf.high (by decide)
  constructor
  · exact ⟨hspaces, h.separate.unshared.congr fun g hg i hi =>
      hpds g hg i (Nat.lt_succ_of_lt hi.2)⟩
  · exact h.mem
  · intro i hi t ht
    rw [KernelMem.withPhys_phys, hpds d h.mem i (Nat.lt_succ_of_lt hi.2)] at ht
    exact h.tables i hi t ht
  · intro u hu g hg
    have hdata := h.data u hu g ((hpage u hu g).mp hg)
    refine ⟨hdata.used, hdata.high, hdata.notDirectory, ?_⟩
    intro d' hd' i hi t ht
    rw [KernelMem.withPhys_phys, hpds d' hd' i (Nat.lt_succ_of_lt hi.2)] at ht
    exact hdata.notTable d' hd' i hi t ht
  · intro u v hu hv g hg hg'
    exact h.distinct u v hu hv g ((hpage u hu g).mp hg) ((hpage v hv g).mp hg')

/-- Two bytes of the process at one place in memory are the same byte. -/
theorem OwnSpace.byte_inj (h : OwnSpace k pds d) (hu : InUser u) (hv : InUser v)
    (hf : PageAt k.mmu.phys d u f) (hg : PageAt k.mmu.phys d v g)
    (heq : f + (u &&& 0xFFF#32) = g + (v &&& 0xFFF#32)) : u = v := by
  obtain ⟨rfl, hoffset⟩ := add_offset_inj hf.frame hg.frame heq
  have hpage := h.distinct u v hu hv f hf hg
  apply BitVec.eq_of_toNat_eq
  unfold pageNo pageSize at hpage
  omega

/-- A byte of the user half is written, and no other one changes. -/
theorem OwnSpace.writeByte (h : OwnSpace k pds d) (hcr3 : k.mmu.cr3 = d) (hv : InUser v)
    (hr : k.mmu.writeByte v b = .ret m) :
    Within k { k with mmu := m } pds d (· = v) ∧ m.byteIn d v = some b ∧ m.cr3 = d := by
  obtain ⟨a, ha, hr⟩ := Outcome.bind_eq_ret.mp hr
  have ha := Outcome.ofOption_eq_ret.mp ha
  cases hr
  have hd := (h.separate.spaces.directory h.mem).frame
  have htranslate : k.mmu.translateIn d v = some a := by
    rw [Mmu.translateIn, ← hcr3]
    exact ha
  obtain ⟨f, hf, rfl⟩ := (translateIn_eq_some hd).mp htranslate
  have hoffset : (v &&& 0xFFF#32).toNat < 4096 := by
    rw [toNat_and_offset]
    exact Nat.mod_lt _ (by decide)
  have hframe : frameOf (f + (v &&& 0xFFF#32)) = f := frameOf_add hf.frame hoffset
  have hdata := h.data v hv f hf
  have hsame (g : U32) (hg : IsFrame g) (hne : g ≠ f) (j : U32) (hj : j.toNat < 1024) :
      setByte k.mmu.phys (f + (v &&& 0xFFF#32)) b (slot g j) = k.mmu.phys (slot g j) := by
    apply setByte_slot hg hj
    rwa [hframe]
  obtain ⟨hown, hentry⟩ := h.overwrite hdata hsame
  have hpage (u : U32) (hu : InUser u) (g : U32) :
      PageAt (setByte k.mmu.phys (f + (v &&& 0xFFF#32)) b) d u g ↔ PageAt k.mmu.phys d u g := by
    rw [PageAt, PageAt, hentry u hu]
  refine ⟨⟨hown, ?_, ?_⟩, ?_, hcr3⟩
  · intro u hu hne
    ext x
    rw [byteIn_eq_some hd, byteIn_eq_some hd]
    apply exists_congr
    intro g
    rw [hpage u hu]
    apply and_congr_right
    intro hg
    rw [getByte_setByte_of_ne]
    intro heq
    exact hne (h.byte_inj hu hv hg hf heq)
  · intro u x hx
    have hu : u < vUserBaseAddr := by
      show u.toNat < 0x40000000
      have hlow := hx.1
      omega
    have hhigh := hdata.high
    have hkernel := dirIndex_kernel hu
    apply hx.kept
    · rw [kernelPte_eq]
      apply hsame _ (isFrame_kernelTable hkernel) _ _ (tableIndex_lt u)
      rintro rfl
      rw [toNat_kernelTable hkernel] at hhigh
      omega
    · intro g hgf _ hg j hj
      apply hsame g hgf _ j hj
      rintro rfl
      omega
  · rw [byteIn_eq_some hd]
    exact ⟨f, (hpage v hv f).mpr hf, getByte_setByte _ _ _⟩

/-! ## Many bytes are written -/

/-- The `n` addresses from `dst` on. -/
def InRange (dst : U32) (n : ℕ) (u : U32) : Prop := dst.toNat ≤ u.toNat ∧ u.toNat < dst.toNat + n

theorem add_ofNat_succ (v : U32) (i : ℕ) :
    v + BitVec.ofNat 32 (i + 1) = v + 1 + BitVec.ofNat 32 i := by
  rw [BitVec.ofNat_add, BitVec.add_assoc, BitVec.add_comm (BitVec.ofNat 32 i)]
  rfl

/-- Without wrapping around, the next address. -/
theorem toNat_add_one (h : v.toNat + 1 < 2 ^ 32) : (v + 1).toNat = v.toNat + 1 := by
  rw [BitVec.toNat_add]
  exact Nat.mod_eq_of_lt h

/-- The ranges of the first write and of the others. -/
theorem inRange_succ (h : dst.toNat + (n + 1) < 2 ^ 32) (hu : u = dst ∨ InRange (dst + 1) n u) :
    InRange dst (n + 1) u := by
  rcases hu with rfl | ⟨hlo, hhi⟩
  · exact ⟨Nat.le_refl _, by omega⟩
  · rw [toNat_add_one (by omega)] at hlo hhi
    exact ⟨by omega, by omega⟩

section Writes

variable (hlo : vUserBaseAddr ≤ dst) (hhi : dst.toNat + n ≤ 0xFFC00000)

include hlo hhi

theorem OwnSpace.memSet (h : OwnSpace k pds d) (hcr3 : k.mmu.cr3 = d)
    (hr : k.mmu.memSet dst byte n = .ret m) :
    Within k { k with mmu := m } pds d (InRange dst n) ∧ m.cr3 = d ∧
      ∀ u, InRange dst n u → m.byteIn d u = some byte := by
  induction n generalizing k dst with
  | zero =>
    cases hr
    refine ⟨.refl h _, hcr3, ?_⟩
    rintro u ⟨hge, hlt⟩
    omega
  | succ n ih =>
    obtain ⟨m₁, hwrite, hr⟩ := Outcome.bind_eq_ret.mp hr
    have hv : InUser dst := ⟨hlo, show dst.toNat < 0xFFC00000 by omega⟩
    have hnext : (dst + 1).toNat = dst.toNat + 1 := toNat_add_one (by omega)
    have hle : vUserBaseAddr.toNat ≤ dst.toNat := hlo
    obtain ⟨hfirst, hbyte, hcr3₁⟩ := h.writeByte hcr3 hv hwrite
    obtain ⟨hrest, hcr3', hset⟩ := ih (show vUserBaseAddr.toNat ≤ (dst + 1).toNat by omega)
      (by omega) hfirst.own hcr3₁ hr
    refine ⟨(hfirst.trans hrest).mono fun u _ hu => inRange_succ (by omega) hu, hcr3', ?_⟩
    rintro u ⟨hge, hlt⟩
    by_cases hu : u = dst
    · -- the later writes are behind it
      rw [hu, hrest.bytes dst hv, hbyte]
      rintro ⟨hge, -⟩
      omega
    · have hne : u.toNat ≠ dst.toNat := fun heq => hu (BitVec.eq_of_toNat_eq heq)
      exact hset u ⟨by omega, by omega⟩

/-- The bytes that are copied from the kernel's part arrive. -/
theorem OwnSpace.memCopy (h : OwnSpace k pds d) (hcr3 : k.mmu.cr3 = d)
    (hr : k.mmu.memCopy src dst n = .ret m) :
    Within k { k with mmu := m } pds d (InRange dst n) ∧ m.cr3 = d ∧
      ∀ c : ℕ → U8, (∀ i < n, LowByte k.mmu.phys (src + BitVec.ofNat 32 i) (c i)) →
        ∀ i < n, m.byteIn d (dst + BitVec.ofNat 32 i) = some (c i) := by
  induction n generalizing k src dst with
  | zero =>
    cases hr
    exact ⟨.refl h _, hcr3, fun _ _ i hi => absurd hi (Nat.not_lt_zero i)⟩
  | succ n ih =>
    obtain ⟨b, hread, hr⟩ := Outcome.bind_eq_ret.mp hr
    obtain ⟨m₁, hwrite, hr⟩ := Outcome.bind_eq_ret.mp hr
    have hv : InUser dst := ⟨hlo, show dst.toNat < 0xFFC00000 by omega⟩
    have hnext : (dst + 1).toNat = dst.toNat + 1 := toNat_add_one (by omega)
    have hle : vUserBaseAddr.toNat ≤ dst.toNat := hlo
    obtain ⟨hfirst, hbyte, hcr3₁⟩ := h.writeByte hcr3 hv hwrite
    obtain ⟨hrest, hcr3', hbytes⟩ := ih (show vUserBaseAddr.toNat ≤ (dst + 1).toNat by omega)
      (by omega) hfirst.own hcr3₁ hr
    refine ⟨(hfirst.trans hrest).mono fun u _ hu => inRange_succ (by omega) hu, hcr3', ?_⟩
    intro c hc i hi
    cases i with
    | zero =>
      -- the byte that was read is that of the source, and no later write touches it
      have hsource := hc 0 (by omega)
      rw [show src + BitVec.ofNat 32 0 = src from BitVec.add_zero src] at hsource
      rw [show dst + BitVec.ofNat 32 0 = dst from BitVec.add_zero dst]
      have hin := hsource.byteIn (h.separate.spaces.directory h.mem)
      obtain ⟨a, ha, hb⟩ := Outcome.bind_eq_ret.mp hread
      have ha := Outcome.ofOption_eq_ret.mp ha
      have hsame : k.mmu.translateIn d src = some a := by
        rw [Mmu.translateIn, ← hcr3]
        exact ha
      rw [Mmu.byteIn, hsame, Option.map_some, Option.some.injEq] at hin
      rw [hrest.bytes dst hv, hbyte, ← Outcome.ret.inj hb, hin]
      rintro ⟨hge, -⟩
      omega
    | succ i =>
      rw [add_ofNat_succ]
      apply hbytes (fun i => c (i + 1)) _ i (by omega)
      intro j hj
      rw [← add_ofNat_succ]
      exact hfirst.low _ _ (hc (j + 1) (by omega))

/-- Where all pages are mapped, the bytes are written. -/
theorem OwnSpace.memSet_returns (h : OwnSpace k pds d) (hcr3 : k.mmu.cr3 = d)
    (hmapped : ∀ u, InRange dst n u → k.mmu.byteIn d u ≠ none) :
    ∃ m, k.mmu.memSet dst byte n = .ret m := by
  induction n generalizing k dst with
  | zero => exact ⟨_, rfl⟩
  | succ n ih =>
    have hv : InUser dst := ⟨hlo, show dst.toNat < 0xFFC00000 by omega⟩
    have hnext : (dst + 1).toNat = dst.toNat + 1 := toNat_add_one (by omega)
    have hle : vUserBaseAddr.toNat ≤ dst.toNat := hlo
    obtain ⟨m₁, hwrite⟩ := writeByte_returns hcr3 byte (hmapped dst ⟨Nat.le_refl _, by omega⟩)
    obtain ⟨hfirst, -, hcr3₁⟩ := h.writeByte hcr3 hv hwrite
    obtain ⟨m, hrest⟩ := ih (k := { k with mmu := m₁ })
      (show vUserBaseAddr.toNat ≤ (dst + 1).toNat by omega) (by omega) hfirst.own hcr3₁ (by
        rintro u ⟨hge, hlt⟩
        rw [hfirst.bytes u ⟨show vUserBaseAddr.toNat ≤ u.toNat by omega,
          show u.toNat < 0xFFC00000 by omega⟩ (by rintro rfl; omega)]
        exact hmapped u ⟨by omega, by omega⟩)
    refine ⟨m, ?_⟩
    rw [Mmu.memSet, hwrite]
    exact hrest

/-- And so they are copied from the kernel's part. -/
theorem OwnSpace.memCopy_returns (h : OwnSpace k pds d) (hcr3 : k.mmu.cr3 = d)
    (hmapped : ∀ u, InRange dst n u → k.mmu.byteIn d u ≠ none) {c : ℕ → U8}
    (hsource : ∀ i < n, LowByte k.mmu.phys (src + BitVec.ofNat 32 i) (c i)) :
    ∃ m, k.mmu.memCopy src dst n = .ret m := by
  induction n generalizing k src dst c with
  | zero => exact ⟨_, rfl⟩
  | succ n ih =>
    have hv : InUser dst := ⟨hlo, show dst.toNat < 0xFFC00000 by omega⟩
    have hnext : (dst + 1).toNat = dst.toNat + 1 := toNat_add_one (by omega)
    have hle : vUserBaseAddr.toNat ≤ dst.toNat := hlo
    have hbyte := hsource 0 (by omega)
    rw [show src + BitVec.ofNat 32 0 = src from BitVec.add_zero src] at hbyte
    have hread : k.mmu.readByte src = .ret (c 0) := by
      apply hbyte.readByte
      rw [hcr3]
      exact h.separate.spaces.directory h.mem
    obtain ⟨m₁, hwrite⟩ := writeByte_returns hcr3 (c 0) (hmapped dst ⟨Nat.le_refl _, by omega⟩)
    obtain ⟨hfirst, -, hcr3₁⟩ := h.writeByte hcr3 hv hwrite
    have hsource' (i : ℕ) (hi : i < n) :
        LowByte m₁.phys (src + 1 + BitVec.ofNat 32 i) (c (i + 1)) := by
      rw [← add_ofNat_succ]
      exact hfirst.low _ _ (hsource (i + 1) (by omega))
    obtain ⟨m, hrest⟩ := ih (k := { k with mmu := m₁ })
      (show vUserBaseAddr.toNat ≤ (dst + 1).toNat by omega) (by omega) hfirst.own hcr3₁ (by
        rintro u ⟨hge, hlt⟩
        rw [hfirst.bytes u ⟨show vUserBaseAddr.toNat ≤ u.toNat by omega,
          show u.toNat < 0xFFC00000 by omega⟩ (by rintro rfl; omega)]
        exact hmapped u ⟨by omega, by omega⟩) hsource'
    refine ⟨m, ?_⟩
    rw [Mmu.memCopy, hread, Outcome.ret_bind, hwrite]
    exact hrest

end Writes

/-- `MemorySetAndCopy` takes no memory. -/
theorem memorySetAndCopy_supply {p : Process} {size : U32}
    (hr : p.memorySetAndCopy k src dst size byte = .ret k') :
    k'.gPmm = k.gPmm ∧ k'.gPagePool = k.gPagePool := by
  unfold Process.memorySetAndCopy at hr
  split at hr
  · cases hr
    exact ⟨rfl, rfl⟩
  split at hr
  · cases hr
    exact ⟨rfl, rfl⟩
  obtain ⟨m₁, -, hr⟩ := Outcome.bind_eq_ret.mp hr
  obtain ⟨m₂, -, hr⟩ := Outcome.bind_eq_ret.mp hr
  cases hr
  exact ⟨rfl, rfl⟩

/-- `MemorySetAndCopy` changes the bytes of its range only, to those of the source. -/
theorem OwnSpace.memorySetAndCopy {p : Process} {size : U32} (h : OwnSpace k pds p.pdEntry)
    (hcur : k.mmu.cr3 ∈ allDirectories pds) (hlo : vUserBaseAddr ≤ dst)
    (hhi : dst.toNat + size.toNat ≤ 0xFFC00000)
    (hr : p.memorySetAndCopy k src dst size byte = .ret k') :
    Within k k' pds p.pdEntry (InRange dst size.toNat) ∧ k'.mmu.cr3 = k.mmu.cr3 ∧
      (src ≠ 0 → ∀ c : ℕ → U8,
        (∀ i < size.toNat, LowByte k.mmu.phys (src + BitVec.ofNat 32 i) (c i)) →
        ∀ i < size.toNat, k'.mmu.byteIn p.pdEntry (dst + BitVec.ofNat 32 i) = some (c i)) := by
  unfold Process.memorySetAndCopy at hr
  split at hr
  · rename_i hnull
    cases hr
    exact ⟨.refl h _, rfl, fun hne => absurd hnull hne⟩
  split at hr
  · rename_i hnull
    rw [hnull] at hlo
    exact absurd hlo (by decide)
  have hin := h.switch (List.mem_cons_of_mem _ h.mem)
  obtain ⟨m₁, hset, hr⟩ := Outcome.bind_eq_ret.mp hr
  obtain ⟨m₂, hcopy, hr⟩ := Outcome.bind_eq_ret.mp hr
  cases hr
  obtain ⟨hwithin₁, hcr3₁, -⟩ := hin.memSet hlo hhi rfl hset
  obtain ⟨hwithin₂, -, hbytes⟩ := hwithin₁.own.memCopy hlo hhi hcr3₁ hcopy
  have hwithin := (hwithin₁.trans hwithin₂).of_switch.switch hcur
  refine ⟨hwithin.mono fun u _ hu => hu.elim id id, rfl, ?_⟩
  intro _ c hc
  exact hbytes c fun i hi => hwithin₁.low _ _ (hc i hi)

/-- It returns where the pages of the range are mapped. -/
theorem OwnSpace.memorySetAndCopy_returns {p : Process} {size : U32}
    (h : OwnSpace k pds p.pdEntry) (hlo : vUserBaseAddr ≤ dst)
    (hhi : dst.toNat + size.toNat ≤ 0xFFC00000)
    (hmapped : ∀ u, InRange dst size.toNat u → k.mmu.byteIn p.pdEntry u ≠ none) {c : ℕ → U8}
    (hsource : ∀ i < size.toNat, LowByte k.mmu.phys (src + BitVec.ofNat 32 i) (c i)) :
    ∃ k', p.memorySetAndCopy k src dst size byte = .ret k' := by
  unfold Process.memorySetAndCopy
  split
  · exact ⟨_, rfl⟩
  split
  · exact ⟨_, rfl⟩
  have hin := h.switch (List.mem_cons_of_mem _ h.mem)
  obtain ⟨m₁, hset⟩ : ∃ m₁, Mmu.memSet (k.mmu.setCurrentPageDirectory p.pdEntry) dst byte
      size.toNat = .ret m₁ := hin.memSet_returns hlo hhi rfl hmapped
  obtain ⟨hwithin, hcr3, hbytes⟩ := hin.memSet hlo hhi rfl hset
  obtain ⟨m₂, hcopy⟩ := hwithin.own.memCopy_returns hlo hhi hcr3 (fun u hu => by
    rw [hbytes u hu]
    exact Option.some_ne_none byte) fun i hi => hwithin.low _ _ (hsource i hi)
  refine ⟨{ k with mmu := m₂.setCurrentPageDirectory k.mmu.getCurrentPageDirectory }, ?_⟩
  dsimp only at hset hcopy ⊢
  rw [hset, Outcome.ret_bind, hcopy]
  rfl

end Bytes

end LtMicros
