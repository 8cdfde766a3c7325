import LtMicros.Isolation

/-!
# Mapping a page and translating it

What `AddPageToPageDirectory` leaves in an address space, as the processor and
`GetPhysicalAddressOf` see it.
-/

namespace LtMicros

open Lib Lib.Frames

namespace Mmu

/-- `Vmm::GetPhysicalAddressOf`. -/
def getPhysicalAddressOf (m : Mmu) (virtualAddress : U32) : Outcome U32 := do
  let pde ← m.read (pdeOf virtualAddress)
  if flagOn pde pagePresent then
    let pte ← m.read (pteOf virtualAddress)
    if flagOn pte pagePresent then
      return (pte &&& 0xFFFFF000#32) + (virtualAddress &&& 0xFFF#32)
    else return 0
  else return 0

/-- The table entry that the walk of `vAddr` reaches. -/
def walkEntry (m : Mmu) (vAddr : U32) : Option U32 :=
  let pde := m.phys ((m.cr3 &&& 0xFFFFF000#32) + (vAddr >>> 22) <<< 2)
  if flagOn pde pagePresent then
    some (m.phys ((pde &&& 0xFFFFF000#32) + ((vAddr >>> 12) &&& 0x3FF#32) <<< 2))
  else none

/-- `GetPhysicalAddressOf` answers what the processor translates to. -/
theorem getPhysicalAddressOf_eq {m : Mmu} (h : Directory m.phys m.directory) (v : U32) :
    m.getPhysicalAddressOf v = .ret ((m.translate v).getD 0) := by
  rw [getPhysicalAddressOf, read_pdeOf h, Outcome.ret_bind]
  have htranslate := translateIn_eq (m := m) (d := m.directory) h.frame v
  have hcr3 : m.translateIn m.directory v = m.translate v := by
    have hframe : m.directory &&& 0xFFFFF000#32 = m.directory := h.frame.frameOf_eq
    rw [Mmu.translateIn, Mmu.translate, Mmu.translate]
    dsimp only
    rw [hframe]
    rfl
  rw [hcr3] at htranslate
  rw [htranslate]
  cases hpde : flagOn (m.phys (slot m.directory (dirIndex v))) pagePresent with
  | false => rfl
  | true =>
    have ht : TableOf m.phys m.directory v _ := pointsTo_frameOf hpde
    rw [if_pos rfl, if_pos rfl, read_pteOf h ht, Outcome.ret_bind]
    dsimp only
    split
    · rfl
    · rfl

end Mmu

/-- A set of flags made of `PAGE_PRESENT` and any of the other two. -/
def MapFlags (flags : U32) : Prop :=
  flags = pagePresent ∨ flags = pagePresent ||| pageWriteable ∨
    flags = pagePresent ||| pageNonPrivilegedAccess ∨
    flags = pagePresent ||| pageWriteable ||| pageNonPrivilegedAccess

/-- The call maps the page `v` to the frame `p`, and moves no other page. -/
structure Translates (k : KernelMem) (v p flags : U32) (k' : KernelMem) : Prop where
  entry : k'.mmu.walkEntry v = some (p ||| flags)
  physical : ∀ o : U32, o.toNat < pageSize → k'.mmu.getPhysicalAddressOf (v + o) = .ret (p + o)
  others : ∀ u, InUser u → u.toNat / pageSize ≠ v.toNat / pageSize →
    k'.mmu.translate u = k.mmu.translate u

/-- `AddPageToPageDirectory` returns and has mapped the page. -/
def MapsPage (k : KernelMem) (v p flags : U32) : Prop :=
  ∃ k', k.addPageToPageDirectory v p flags = .ret k' ∧ Translates k v p flags k'

/-- The page table that the entry of `v` is written to: that of the directory
entry or, when this is absent, the page that the pool takes from the bitmap. -/
def tableFor (k : KernelMem) (d v : U32) : U32 :=
  if flagOn (k.mmu.phys (slot d (dirIndex v))) pagePresent then
    frameOf (k.mmu.phys (slot d (dirIndex v)))
  else frameOf k.gPmm.getFreePage.1

/-- No other directory entry leads to that table, unless its pages are those that
it will have. -/
def Unaliased (k : KernelMem) (v p : U32) : Prop :=
  ∀ i, UserIndex i → i ≠ dirIndex v →
    PointsTo (k.mmu.phys (slot k.mmu.cr3 i)) (tableFor k k.mmu.cr3 v) →
    PointsTo (k.mmu.phys (slot (tableFor k k.mmu.cr3 v) (tableIndex v))) p ∧
    (flagOn (k.mmu.phys (slot k.mmu.cr3 (dirIndex v))) pagePresent = false →
      ∀ j : U32, j.toNat < 1024 → j ≠ tableIndex v →
        flagOn (k.mmu.phys (slot (tableFor k k.mmu.cr3 v) j)) pagePresent = false)

/-- The words of the directory `d` and of the tables after a page has been added
to it, from a pool that is not empty if the table is missing. -/
structure Added (k : KernelMem) (d v p flags : U32) (k' : KernelMem) : Prop where
  table : TableOf k'.mmu.phys d v (tableFor k d v)
  words : ∀ j : U32, j.toNat < 1024 → k'.mmu.phys (slot (tableFor k d v) j) =
    if j = tableIndex v then setPageTableEntry p flags
    else if flagOn (k.mmu.phys (slot d (dirIndex v))) pagePresent then
      k.mmu.phys (slot (tableFor k d v) j)
    else 0
  directory : ∀ j : U32, j.toNat < 1024 → k'.mmu.phys (slot d j) =
    if j = dirIndex v ∧ flagOn (k.mmu.phys (slot d (dirIndex v))) pagePresent = false then
      setPageDirectoryEntry k.gPmm.getFreePage.1 (pagePresent ||| pageWriteable ||| flags)
    else k.mmu.phys (slot d j)
  others : ∀ g, IsFrame g → OffKernel g → g ≠ d → g ≠ tableFor k d v →
    ∀ j : U32, j.toNat < 1024 → k'.mmu.phys (slot g j) = k.mmu.phys (slot g j)
  cr3 : k'.mmu.cr3 = k.mmu.cr3

section Added

variable {k k' : KernelMem} {pds : List U32} {d u v p flags : U32}

theorem isFrame_tableFor (k : KernelMem) (d v : U32) : IsFrame (tableFor k d v) := by
  rw [tableFor]
  split
  · exact isFrame_frameOf _
  · exact isFrame_frameOf _

/-- That table is no page directory, and none of the kernel half. -/
theorem Spaces.tableFor_spec (h : Spaces k pds) (hd : d ∈ pds) (hv : InUser v) :
    OffKernel (tableFor k d v) ∧ tableFor k d v ∉ allDirectories pds := by
  rw [tableFor]
  split
  · rename_i hpresent
    have htable := h.tables d hd _ hv.userIndex _ (pointsTo_frameOf hpresent)
    exact ⟨htable.off, htable.notDirectory⟩
  · exact ⟨h.isTable_gives.off, h.isTable_gives.notDirectory⟩

theorem Spaces.added (h : Spaces k pds) (hd : d ∈ pds) (hv : InUser v)
    (hpool : flagOn (k.mmu.phys (slot d (dirIndex v))) pagePresent = false →
      k.gPagePool.availPageList ≠ none) (hadds : Adds k d v p flags k') :
    Added k d v p flags k' := by
  have hdf := (h.directory hd).frame
  obtain ⟨hoff, hnot⟩ := h.tableFor_spec hd hv
  have htf := isFrame_tableFor k d v
  have hne : d ≠ tableFor k d v := by
    intro heq
    rw [← heq] at hnot
    exact hnot (List.mem_cons_of_mem _ hd)
  cases hadds with
  | @present t ht =>
    have heq : tableFor k d v = t := by
      rw [tableFor, if_pos ht.1]
      exact ht.2
    rw [heq] at htf hne
    constructor
    · show PointsTo (set _ _ _ _ _) _
      rw [heq, set_of_frame_ne htf hdf (tableIndex_lt v) (dirIndex_lt v) hne]
      exact ht
    · intro j hj
      rw [heq, KernelMem.withPhys_phys, set_slot htf htf (tableIndex_lt v) hj]
      simp only [true_and, ht.1, if_true]
    · intro j hj
      rw [KernelMem.withPhys_phys, set_of_frame_ne htf hdf (tableIndex_lt v) hj hne, if_neg]
      rw [ht.1]
      exact fun h => Bool.noConfusion h.2
    · intro g hg _ _ hgt j hj
      rw [heq] at hgt
      exact set_of_frame_ne htf hg (tableIndex_lt v) hj hgt
    · rfl
  | @fresh b habsent hb =>
    have heq : tableFor k d v = frameOf k.gPmm.getFreePage.1 := by
      rw [tableFor, habsent, if_neg Bool.false_ne_true]
    have hin := h.pool.head hb
    rw [heq] at htf hne
    have hslot (g j : U32) (hg : IsFrame g) (hj : j.toNat < 1024) :=
      @newTable_slot (k.afterPageAlloc b).mmu.phys d v k.gPmm.getFreePage.1 flags
        (setPageTableEntry p flags) g j hdf hg hj
    constructor
    · show PointsTo (newTable _ _ _ _ _ _ _) _
      rw [hslot d _ hdf (dirIndex_lt v), heq, if_neg hne, if_pos ⟨rfl, rfl⟩]
      constructor
      · rw [flagOn_setPageDirectoryEntry, flagOn_pagePresent]
        simp [pagePresent]
      · exact frameOf_setPageDirectoryEntry _ _
    · intro j hj
      rw [heq, KernelMem.withPhys_phys, hslot _ j htf hj, if_pos rfl, habsent,
        if_neg Bool.false_ne_true]
    · intro j hj
      rw [KernelMem.withPhys_phys, hslot d j hdf hj, if_neg hne]
      simp only [true_and, habsent, and_true]
      split
      · rfl
      · exact set_kernel_slot hin.lt hdf (h.directory hd).off hj
    · intro g hg hgoff hgd hgt j hj
      rw [heq] at hgt
      rw [KernelMem.withPhys_phys, hslot g j hg hj, if_neg hgt, if_neg fun h => hgd h.1]
      exact set_kernel_slot hin.lt hg hgoff hj
    · rfl
  | empty habsent hb => exact absurd hb (hpool habsent)

end Added

/-! ## The walk -/

/-- The frame that a table entry maps a page to. -/
def frameIn (w : U32) : Option U32 := if flagOn w pagePresent then some (frameOf w) else none

/-- The frame that the walk of `v` ends in. -/
def Mmu.frameAt (m : Mmu) (v : U32) : Option U32 := (m.walkEntry v).bind frameIn

/-- The first address with these indices. -/
def addressOf (i j : U32) : U32 := BitVec.ofNat 32 (i.toNat * 2 ^ 22 + j.toNat * 2 ^ 12)

section Walk

variable {m m' : Mmu} {k k' : KernelMem} {pds : List U32} {d i j t u v p flags : U32}

theorem frameIn_eq_some {w f : U32} : frameIn w = some f ↔ PointsTo w f := by
  rw [frameIn, pointsTo_iff]
  split
  · rename_i h
    rw [Option.some.injEq]
    exact ⟨fun heq => ⟨h, heq⟩, And.right⟩
  · rename_i h
    constructor
    · intro heq
      cases heq
    · intro heq
      exact absurd heq.1 h

theorem frameIn_eq_none {w : U32} : frameIn w = none ↔ flagOn w pagePresent = false := by
  rw [frameIn]
  cases flagOn w pagePresent <;> simp

theorem walkEntry_eq (hd : IsFrame m.cr3) (v : U32) :
    m.walkEntry v = if flagOn (m.phys (slot m.cr3 (dirIndex v))) pagePresent then
      some (m.phys (slot (frameOf (m.phys (slot m.cr3 (dirIndex v)))) (tableIndex v)))
    else none := by
  have hframe : m.cr3 &&& 0xFFFFF000#32 = m.cr3 := hd.frameOf_eq
  rw [Mmu.walkEntry, hframe]
  rfl

theorem walkEntry_table (hd : IsFrame m.cr3) (ht : TableOf m.phys m.cr3 v t) :
    m.walkEntry v = some (m.phys (slot t (tableIndex v))) := by
  have hframe : frameOf (m.phys (slot m.cr3 (dirIndex v))) = t := ht.2
  rw [walkEntry_eq hd, if_pos ht.1, hframe]

theorem translate_eq_frameAt (m : Mmu) (v : U32) :
    m.translate v = (m.frameAt v).map fun f => f + (v &&& 0xFFF#32) := by
  rw [Mmu.translate, Mmu.frameAt, Mmu.walkEntry]
  dsimp only
  split
  · rw [Option.bind_some, frameIn]
    split
    · rfl
    · rfl
  · rfl

/-- Translations are compared by the frames the walks end in. -/
theorem translate_congr_iff : m'.translate v = m.translate v ↔ m'.frameAt v = m.frameAt v := by
  rw [translate_eq_frameAt, translate_eq_frameAt]
  apply Function.Injective.eq_iff
  apply Option.map_injective
  intro f g heq
  exact (BitVec.add_left_inj _).mp heq

theorem toNat_addressOf (hi : i.toNat < 1024) (hj : j.toNat < 1024) :
    (addressOf i j).toNat = i.toNat * 2 ^ 22 + j.toNat * 2 ^ 12 := by
  rw [addressOf, BitVec.toNat_ofNat, Nat.mod_eq_of_lt]
  omega

theorem dirIndex_addressOf (hi : i.toNat < 1024) (hj : j.toNat < 1024) :
    dirIndex (addressOf i j) = i := by
  apply BitVec.eq_of_toNat_eq
  rw [toNat_dirIndex, toNat_addressOf hi hj]
  omega

theorem tableIndex_addressOf (hi : i.toNat < 1024) (hj : j.toNat < 1024) :
    tableIndex (addressOf i j) = j := by
  apply BitVec.eq_of_toNat_eq
  rw [toNat_tableIndex, toNat_addressOf hi hj]
  omega

theorem inUser_addressOf (hi : UserIndex i) (hj : j.toNat < 1024) : InUser (addressOf i j) := by
  obtain ⟨hlo, hhi⟩ := hi
  have hnat := toNat_addressOf (show i.toNat < 1024 by omega) hj
  constructor
  · show 0x40000000 ≤ (addressOf i j).toNat
    omega
  · show (addressOf i j).toNat < 0xFFC00000
    omega

/-- The addresses of a page have its indices. -/
theorem page_add {o : U32} (hv : IsFrame v) (ho : o.toNat < pageSize) :
    dirIndex (v + o) = dirIndex v ∧ tableIndex (v + o) = tableIndex v ∧ (v + o) &&& 0xFFF#32 = o := by
  have hle := hv.toNat_add_le
  rw [IsFrame] at hv
  rw [pageSize] at ho
  have hnat : (v + o).toNat = v.toNat + o.toNat := by
    rw [BitVec.toNat_add]
    omega
  have hpage := page_eq_iff (u := v + o) (v := v)
  obtain ⟨hdir, htable⟩ := hpage.mp (by omega)
  refine ⟨hdir, htable, ?_⟩
  have hmask : (0xFFF#32).toNat = 2 ^ 12 - 1 := rfl
  apply BitVec.eq_of_toNat_eq
  rw [BitVec.toNat_and, hmask, Nat.and_two_pow_sub_one_eq_mod, hnat]
  omega

theorem setPageTableEntry_eq (hp : IsFrame p) (hflags : MapFlags flags) :
    setPageTableEntry p flags = p ||| flags := by
  have hlow (i : ℕ) (hi : i < 12) : p.getLsbD i = false := by
    rw [← hp.frameOf_eq, frameOf, BitVec.getLsbD_and]
    have hmask : (0xFFFFF000#32).getLsbD i = false := by
      interval_cases i <;> rfl
    rw [hmask, Bool.and_false]
  apply BitVec.eq_of_getLsbD_eq
  intro i hi
  rw [setPageTableEntry, setEntryFields, BitVec.getLsbD_or]
  simp (disch := omega) only [getLsbD_setField]
  by_cases hsmall : i < 7
  · rw [hlow i (by omega)]
    rcases hflags with rfl | rfl | rfl | rfl <;> interval_cases i <;> rfl
  · have hne (n : ℕ) (hn : n < 7) : i ≠ n := by omega
    have hhigh : flags.getLsbD i = false := by
      rcases hflags with rfl | rfl | rfl | rfl <;> interval_cases i <;> rfl
    simp only [hne _ (show 0 < 7 by decide), hne _ (show 1 < 7 by decide),
      hne _ (show 2 < 7 by decide), hne _ (show 3 < 7 by decide), hne _ (show 4 < 7 by decide),
      hne _ (show 5 < 7 by decide), hne _ (show 6 < 7 by decide), if_false, hhigh, Bool.or_false]

end Walk

/-! ## The page that is added, and the others -/

section Translate

variable {k k' : KernelMem} {pds : List U32} {i j t u v p flags : U32}

theorem frameAt_table {m : Mmu} (hd : IsFrame m.cr3) (ht : TableOf m.phys m.cr3 v t) :
    m.frameAt v = frameIn (m.phys (slot t (tableIndex v))) := by
  rw [Mmu.frameAt, walkEntry_table hd ht, Option.bind_some]

theorem frameAt_absent {m : Mmu} (hd : IsFrame m.cr3)
    (habsent : flagOn (m.phys (slot m.cr3 (dirIndex v))) pagePresent = false) :
    m.frameAt v = none := by
  rw [Mmu.frameAt, walkEntry_eq hd, habsent, if_neg Bool.false_ne_true, Option.bind_none]

theorem frameIn_setPageTableEntry (hp : IsFrame p) (hflags : MapFlags flags) :
    frameIn (setPageTableEntry p flags) = some p := by
  rw [frameIn_eq_some]
  constructor
  · rw [flagOn_setPageTableEntry]
    rcases hflags with rfl | rfl | rfl | rfl <;> decide
  · exact (frameOf_setPageTableEntry p flags).trans hp.frameOf_eq

/-- The walk of a page through the table that was written. -/
theorem Added.frameAt (h : Added k k.mmu.cr3 v p flags k') (hd : IsFrame k.mmu.cr3)
    (ht : TableOf k'.mmu.phys k.mmu.cr3 u (tableFor k k.mmu.cr3 v)) :
    k'.mmu.frameAt u = frameIn (if tableIndex u = tableIndex v then setPageTableEntry p flags
      else if flagOn (k.mmu.phys (slot k.mmu.cr3 (dirIndex v))) pagePresent then
        k.mmu.phys (slot (tableFor k k.mmu.cr3 v) (tableIndex u))
      else 0) := by
  have hd' : IsFrame k'.mmu.cr3 := by rwa [h.cr3]
  have ht' : TableOf k'.mmu.phys k'.mmu.cr3 u (tableFor k k.mmu.cr3 v) := by rwa [h.cr3]
  rw [frameAt_table hd' ht', h.words _ (tableIndex_lt u)]

/-- Another directory entry is as it was. -/
theorem Added.tableOf_iff (h : Added k k.mmu.cr3 v p flags k') (hne : dirIndex u ≠ dirIndex v) :
    TableOf k'.mmu.phys k.mmu.cr3 u t ↔ TableOf k.mmu.phys k.mmu.cr3 u t := by
  rw [TableOf, TableOf, h.directory _ (dirIndex_lt u), if_neg fun heq => hne heq.1]

/-- A page whose walk does not go through that table is walked as before. -/
theorem Added.frameAt_other (h : Added k k.mmu.cr3 v p flags k') (hs : Spaces k pds)
    (hd : k.mmu.cr3 ∈ pds) (hu : InUser u) (hne : dirIndex u ≠ dirIndex v)
    (hnot : ¬ TableOf k.mmu.phys k.mmu.cr3 u (tableFor k k.mmu.cr3 v)) :
    k'.mmu.frameAt u = k.mmu.frameAt u := by
  have hdf := (hs.directory hd).frame
  have hdf' : IsFrame k'.mmu.cr3 := by rwa [h.cr3]
  have hpde := h.directory _ (dirIndex_lt u)
  rw [if_neg fun heq => hne heq.1] at hpde
  cases hpresent : flagOn (k.mmu.phys (slot k.mmu.cr3 (dirIndex u))) pagePresent with
  | false =>
    rw [frameAt_absent hdf hpresent, frameAt_absent hdf']
    rw [h.cr3, hpde]
    exact hpresent
  | true =>
    have ht := pointsTo_frameOf hpresent
    generalize frameOf (k.mmu.phys (slot k.mmu.cr3 (dirIndex u))) = t at ht
    have ht' : TableOf k'.mmu.phys k'.mmu.cr3 u t := by
      rw [h.cr3]
      exact (h.tableOf_iff hne).mpr ht
    have htable := hs.tables _ hd _ hu.userIndex t ht
    rw [frameAt_table hdf ht, frameAt_table hdf' ht', h.others t ht'.frame htable.off]
    · rintro rfl
      exact htable.notDirectory (List.mem_cons_of_mem _ hd)
    · rintro rfl
      exact hnot ht
    · exact tableIndex_lt u

/-- The page itself, as the processor and as `GetPhysicalAddressOf` see it. -/
theorem Added.page (h : Added k k.mmu.cr3 v p flags k') (hs : Spaces k' pds)
    (hd : IsFrame k.mmu.cr3) (hv : IsFrame v) (hp : IsFrame p) (hflags : MapFlags flags) :
    k'.mmu.walkEntry v = some (p ||| flags) ∧
    ∀ o : U32, o.toNat < pageSize → k'.mmu.getPhysicalAddressOf (v + o) = .ret (p + o) := by
  have hd' : IsFrame k'.mmu.cr3 := by rwa [h.cr3]
  have ht : TableOf k'.mmu.phys k'.mmu.cr3 v (tableFor k k.mmu.cr3 v) := by
    rw [h.cr3]
    exact h.table
  constructor
  · rw [walkEntry_table hd' ht, h.words _ (tableIndex_lt v), if_pos rfl,
      setPageTableEntry_eq hp hflags]
  · intro o ho
    obtain ⟨hdir, htable, hoffset⟩ := page_add hv ho
    have hto : TableOf k'.mmu.phys k.mmu.cr3 (v + o) (tableFor k k.mmu.cr3 v) := by
      rw [TableOf, hdir]
      exact h.table
    rw [Mmu.getPhysicalAddressOf_eq hs.currentDirectory, translate_eq_frameAt,
      h.frameAt hd hto, if_pos htable, frameIn_setPageTableEntry hp hflags, hoffset]
    rfl

/-- The other pages keep their translations when no table is aliased. -/
theorem Added.others_of_unaliased (h : Added k k.mmu.cr3 v p flags k') (hs : Spaces k pds)
    (hd : k.mmu.cr3 ∈ pds) (hp : IsFrame p) (hflags : MapFlags flags)
    (halias : Unaliased k v p) (hu : InUser u) (hne : u.toNat / pageSize ≠ v.toNat / pageSize) :
    k'.mmu.translate u = k.mmu.translate u := by
  have hdf := (hs.directory hd).frame
  rw [translate_congr_iff]
  by_cases hdir : dirIndex u = dirIndex v
  · -- the page lies in the table that was written, behind another entry
    have htable : tableIndex u ≠ tableIndex v := fun heq => hne (page_eq_iff.mpr ⟨hdir, heq⟩)
    have ht : TableOf k'.mmu.phys k.mmu.cr3 u (tableFor k k.mmu.cr3 v) := by
      rw [TableOf, hdir]
      exact h.table
    rw [h.frameAt hdf ht, if_neg htable]
    cases hpresent : flagOn (k.mmu.phys (slot k.mmu.cr3 (dirIndex v))) pagePresent with
    | false =>
      rw [if_neg Bool.false_ne_true, frameAt_absent hdf]
      · rfl
      · rwa [hdir]
    | true =>
      rw [if_pos rfl, frameAt_table hdf]
      rw [TableOf, hdir, tableFor, if_pos hpresent]
      exact pointsTo_frameOf hpresent
  · by_cases ht : TableOf k.mmu.phys k.mmu.cr3 u (tableFor k k.mmu.cr3 v)
    · obtain ⟨hentry, hcleared⟩ := halias _ hu.userIndex hdir ht
      rw [h.frameAt hdf ((h.tableOf_iff hdir).mpr ht), frameAt_table hdf ht]
      by_cases htable : tableIndex u = tableIndex v
      · rw [if_pos htable, frameIn_setPageTableEntry hp hflags, htable, frameIn_eq_some.mpr hentry]
      · rw [if_neg htable]
        cases hpresent : flagOn (k.mmu.phys (slot k.mmu.cr3 (dirIndex v))) pagePresent with
        | false =>
          rw [if_neg Bool.false_ne_true,
            frameIn_eq_none.mpr (hcleared hpresent _ (tableIndex_lt u) htable)]
          rfl
        | true => rw [if_pos rfl]
    · exact h.frameAt_other hs hd hu hdir ht

/-- A table that is aliased betrays itself in a page of the other entry. -/
theorem Added.unaliased_of_others (h : Added k k.mmu.cr3 v p flags k') (hs : Spaces k pds)
    (hd : k.mmu.cr3 ∈ pds) (hp : IsFrame p) (hflags : MapFlags flags)
    (hothers : ∀ u, InUser u → u.toNat / pageSize ≠ v.toNat / pageSize →
      k'.mmu.translate u = k.mmu.translate u) : Unaliased k v p := by
  have hdf := (hs.directory hd).frame
  intro i hi hne ht
  have hi' : i.toNat < 1024 := Nat.lt_succ_of_lt hi.2
  have hframe (j : U32) (hj : j.toNat < 1024) :
      frameIn (if j = tableIndex v then setPageTableEntry p flags
        else if flagOn (k.mmu.phys (slot k.mmu.cr3 (dirIndex v))) pagePresent then
          k.mmu.phys (slot (tableFor k k.mmu.cr3 v) j)
        else 0) = frameIn (k.mmu.phys (slot (tableFor k k.mmu.cr3 v) j)) := by
    have hdir := dirIndex_addressOf hi' hj
    have htable := tableIndex_addressOf hi' hj
    have hsame := hothers (addressOf i j) (inUser_addressOf hi hj) (by
      intro heq
      have hboth := page_eq_iff.mp heq
      rw [hdir] at hboth
      exact hne hboth.1)
    have hto : TableOf k.mmu.phys k.mmu.cr3 (addressOf i j) (tableFor k k.mmu.cr3 v) := by
      rw [TableOf, hdir]
      exact ht
    have hto' := (h.tableOf_iff (by rwa [hdir])).mpr hto
    rw [translate_congr_iff, h.frameAt hdf hto', frameAt_table hdf hto, htable] at hsame
    exact hsame
  constructor
  · have hentry := hframe _ (tableIndex_lt v)
    rw [if_pos rfl, frameIn_setPageTableEntry hp hflags] at hentry
    exact frameIn_eq_some.mp hentry.symm
  · intro habsent j hj hjv
    have hentry := hframe j hj
    rw [if_neg hjv, habsent, if_neg Bool.false_ne_true] at hentry
    exact frameIn_eq_none.mp hentry.symm

theorem MapsPage.unaliased (h : MapsPage k v p flags) (hs : Spaces k pds)
    (hd : k.mmu.cr3 ∈ pds) (hpool : k.gPagePool.availPageList ≠ none) (hv : InUser v)
    (hp : IsFrame p) (hflags : MapFlags flags) : Unaliased k v p := by
  obtain ⟨k', hr', htranslates⟩ := h
  obtain ⟨k'', hr, hadds⟩ := hs.adds hv p flags
  cases hr.symm.trans hr'
  exact (hs.added hd hv (fun _ => hpool) hadds).unaliased_of_others hs hd hp hflags htranslates.others

/-- A page of the user half is mapped as asked, in an address space with its last
directory entry in place and from a pool that is not empty, exactly when its
table serves no other directory entry. -/
theorem mapsPage_iff (hs : Spaces k pds) (hd : k.mmu.cr3 ∈ pds)
    (hpool : k.gPagePool.availPageList ≠ none) (hv : InUser v) (hvf : IsFrame v)
    (hp : IsFrame p) (hflags : MapFlags flags) : MapsPage k v p flags ↔ Unaliased k v p := by
  constructor
  · intro h
    exact h.unaliased hs hd hpool hv hp hflags
  · intro halias
    obtain ⟨k', hr, hadds⟩ := hs.adds hv p flags
    have hadded := hs.added hd hv (fun _ => hpool) hadds
    obtain ⟨hentry, hphysical⟩ :=
      hadded.page (hs.of_adds hd hv hadds) (hs.directory hd).frame hvf hp hflags
    refine ⟨k', hr, hentry, hphysical, ?_⟩
    intro u hu hne
    exact hadded.others_of_unaliased hs hd hp hflags halias hu hne

/-- No other directory entry leads to the table that is written, as long as there is
a physical page for it when it is missing. -/
theorem Separate.tableFor_unshared {d : U32} (hs : Separate ⟨k, pds⟩) (hd : d ∈ pds)
    (hfree : flagOn (k.mmu.phys (slot d (dirIndex v))) pagePresent = false →
      k.gPmm.freePages.Nonempty) (hv : InUser v) (hi : UserIndex i) (hne : i ≠ dirIndex v) :
    ¬ PointsTo (k.mmu.phys (slot d i)) (tableFor k d v) := by
  intro ht
  have htable := hs.spaces.tables _ hd i hi _ ht
  cases hpresent : flagOn (k.mmu.phys (slot d (dirIndex v))) pagePresent with
  | true =>
    have heq : tableFor k d v = frameOf (k.mmu.phys (slot d (dirIndex v))) := by
      rw [tableFor, if_pos hpresent]
    rw [heq] at ht
    have hsame := hs.unshared _ hd _ hd i _ hi hv.userIndex _ ht (pointsTo_frameOf hpresent)
    exact hne hsame.2
  | false =>
    obtain ⟨f, hfresh⟩ := hs.spaces.freshFrame (hfree hpresent)
    have heq : tableFor k d v = f := by
      rw [tableFor, hpresent, if_neg Bool.false_ne_true, hfresh.eq, hfresh.frame.frameOf_eq]
    rw [heq] at htable
    exact hfresh.ne_used htable.used rfl

/-- So no two directory entries share a table. -/
theorem Separate.unaliased (hs : Separate ⟨k, pds⟩) (hd : k.mmu.cr3 ∈ pds)
    (hfree : k.gPmm.freePages.Nonempty) (hv : InUser v) (p : U32) : Unaliased k v p := by
  intro i hi hne ht
  exact absurd ht (hs.tableFor_unshared hd (fun _ => hfree) hv hi hne)

theorem Separate.switch {t : Tables} (hs : Separate t) {d : U32} (hd : d ∈ allDirectories t.pds) :
    Separate ⟨{ t.k with mmu := t.k.mmu.setCurrentPageDirectory d }, t.pds⟩ :=
  ⟨hs.spaces.switch hd, hs.unshared⟩

/-- The first page of the first process. -/
theorem boot_mapsPage : ∃ pool w p, PagePool.bss.init kernelInfo = .ret pool ∧
    Run UserStep (bootWorld pool 0x10000) [.create] w ∧ w.processes = [p] ∧
    MapsPage { w.s.mem with mmu := w.s.mem.mmu.setCurrentPageDirectory p.pdEntry } 0x40000000
      0x800000 (pagePresent ||| pageWriteable ||| pageNonPrivilegedAccess) := by
  obtain ⟨pool, hpool⟩ := boot_init
  have hboot := boot_bootWorld hpool 0x10000
  obtain ⟨p, w, hstep, hcreated, hsup⟩ :=
    (WorldInv.boot hboot).userStep_create (supply_bootWorld_64 hpool)
  obtain ⟨-, hseparate⟩ := reachable_separate hboot (.single hstep)
  have hd : p.pdEntry ∈ w.pds := by
    rw [World.pds, hcreated.processes]
    exact List.mem_map_of_mem List.mem_cons_self
  have hswitched := hseparate.switch (List.mem_cons_of_mem _ hd)
  have hlasts := hsup.notExhausted
  have hv : InUser 0x40000000 := ⟨by decide, by decide⟩
  refine ⟨pool, w, p, hpool, .single hstep, hcreated.processes, ?_⟩
  exact (mapsPage_iff hswitched.spaces hd hlasts.2 hv (by decide) (by decide)
    (.inr (.inr (.inr rfl)))).mpr (hswitched.unaliased hd hlasts.1 hv _)

theorem frameOf_minusOne : frameOf minusOne = 0xFFFFF000 := by decide

/-- Two tables in a row from an exhausted bitmap: the second mapping takes the
first one away. -/
theorem exhausted_not_mapsPage : ∃ pool w p k₁ k₂, PagePool.bss.init kernelInfo = .ret pool ∧
    Run WorldStep (bootWorld pool 0x2020) (List.replicate 7 .pageAlloc ++ [.create]) w ∧
    w.processes = [p] ∧
    k₁ = { w.s.mem with mmu := w.s.mem.mmu.setCurrentPageDirectory p.pdEntry } ∧
    k₁.addPageToPageDirectory 0x40000000 0x800000 pagePresent = .ret k₂ ∧
    k₂.gPagePool.availPageList ≠ none ∧ ¬ MapsPage k₂ 0x40400000 0x801000 pagePresent := by
  obtain ⟨pool, hpool⟩ := boot_init
  have hinv := WorldInv.boot (boot_bootWorld hpool 0x2020)
  have hsup : (bootWorld pool 0x2020).s.mem.Supply 8 (7 + 2041) :=
    (supply_bootWorld hpool 0x2020).mono (by decide) (Nat.le_refl _)
  have hcard : (bootWorld pool 0x2020).s.mem.gPmm.freePages.card = 8 := by
    rw [bootWorld]
    dsimp only
    rw [freePages_init, Nat.card_Ico]
    decide
  obtain ⟨w₀, hrun, hinv₀, hsup₀, hcard₀, hprocs⟩ := hinv.pageAllocs hsup
  obtain ⟨p, w, hstep, hcreated, hsup'⟩ := hinv₀.create (n := 0) (m := 2040) hsup₀
  -- the directory has taken the last page
  have hempty : w.s.mem.gPmm.freePages = ∅ := by
    have hget := w₀.s.mem.gPmm.card_getFreePage
    rw [hcard₀, hcard] at hget
    rw [hcreated.gPmm]
    exact Finset.card_eq_zero.mp hget
  have hpds : p.pdEntry ∈ w.pds := by
    rw [World.pds, hcreated.processes]
    exact List.mem_map_of_mem List.mem_cons_self
  have hs₁ := hcreated.spaces.switch (List.mem_cons_of_mem _ hpds)
  have hfree₁ := PmmBitmap.getFreePage_of_empty hempty
  have hu₁ : InUser 0x40000000 := ⟨by decide, by decide⟩
  have hu₂ : InUser 0x40400000 := ⟨by decide, by decide⟩
  obtain ⟨k₂, hr, hadds⟩ := hs₁.adds hu₁ 0x800000 pagePresent
  have hsup₁ : KernelMem.Supply { w.s.mem with
      mmu := w.s.mem.mmu.setCurrentPageDirectory p.pdEntry } 0 2040 := ⟨hsup'.pages, hsup'.blocks⟩
  obtain ⟨b₁, hb₁⟩ := hsup₁.block
  have hadded := hs₁.added (d := p.pdEntry) hpds hu₁ (fun _ => by
    rw [hb₁]
    exact Option.some_ne_none _) hadds
  obtain ⟨b₂, hb₂⟩ := (hadds.supply hsup₁).block
  have hpool₂ : k₂.gPagePool.availPageList ≠ none := by
    rw [hb₂]
    exact Option.some_ne_none _
  refine ⟨pool, w, p, _, k₂, hpool, hrun.snoc hstep, ?_, rfl, hr, hpool₂, ?_⟩
  · rw [hcreated.processes, hprocs]
    rfl
  intro hmaps
  have hs₂ := hs₁.of_adds hpds hu₁ hadds
  have hcr3 : k₂.mmu.cr3 = p.pdEntry := hadded.cr3
  have habsent (i : U32) (hi : UserIndex i) :
      flagOn (w.s.mem.mmu.phys (slot p.pdEntry i)) pagePresent = false := by
    rw [hcreated.absent i hi]
    exact not_present_absentEntry
  have htable₁ : tableFor { w.s.mem with
      mmu := w.s.mem.mmu.setCurrentPageDirectory p.pdEntry } p.pdEntry 0x40000000 =
      0xFFFFF000 := by
    rw [tableFor, if_neg]
    · dsimp only
      rw [hfree₁]
      exact frameOf_minusOne
    · show ¬ flagOn (w.s.mem.mmu.phys (slot p.pdEntry _)) pagePresent = true
      rw [habsent _ hu₁.userIndex]
      exact Bool.false_ne_true
  have hpde₂ : k₂.mmu.phys (slot p.pdEntry (dirIndex 0x40400000)) =
      w.s.mem.mmu.phys (slot p.pdEntry (dirIndex 0x40400000)) := by
    rw [hadded.directory _ (dirIndex_lt _), if_neg]
    · rfl
    · exact fun h => absurd h.1 (by decide)
  have htable₂ : tableFor k₂ p.pdEntry 0x40400000 = 0xFFFFF000 := by
    rw [tableFor, hpde₂, habsent _ hu₂.userIndex, if_neg Bool.false_ne_true]
    have hgone : k₂.gPmm.freePages = ∅ :=
      Finset.subset_empty.mp (hempty ▸ (consumes_addPage hr).pages)
    rw [PmmBitmap.getFreePage_of_empty hgone]
    exact frameOf_minusOne
  have hcur : k₂.mmu.cr3 ∈ w.pds := by rwa [hcr3]
  have halias := hmaps.unaliased hs₂ hcur hpool₂ hu₂ (by decide) (.inl rfl)
  have htable := hadded.table
  have hword := hadded.words 0 (by decide)
  rw [htable₁] at htable hword
  rw [if_pos (by decide)] at hword
  obtain ⟨hentry, -⟩ := halias (dirIndex 0x40000000) hu₁.userIndex (by decide) (by
    rw [hcr3, htable₂]
    exact htable)
  rw [hcr3, htable₂, show tableIndex 0x40400000 = 0 by decide, hword] at hentry
  exact absurd hentry.2 (by decide)

end Translate

end LtMicros
