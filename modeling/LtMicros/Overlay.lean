import LtMicros.PageMapping

/-!
# Pages laid over an address space

What a number of calls of `AddPageToPageDirectory` leaves of an address space, in
terms of the entries that were written and of the tables before the first call.
The order of the calls does not matter.
-/

namespace LtMicros

open Lib Lib.Frames

/-- The number of the page of an address. -/
abbrev pageNo (v : U32) : ℕ := v.toNat / pageSize

/-- The table entry of `v` in the directory `d`, if it has a table. -/
def entryIn (phys : U32 → U32) (d v : U32) : Option U32 :=
  if flagOn (phys (slot d (dirIndex v))) pagePresent then
    some (phys (slot (frameOf (phys (slot d (dirIndex v)))) (tableIndex v)))
  else none

/-- Some page behind the directory entry `i` has got an entry. -/
def Touches (r : ℕ → Option U32) (i : U32) : Prop := ∃ v, dirIndex v = i ∧ r (pageNo v) ≠ none

/-- The words `phys` are those of `phys₀` with the entries `r` laid over the address
space `d`. Tables that this takes are new, and empty but for the entries. -/
structure Overlays (phys₀ phys : U32 → U32) (d : U32) (r : ℕ → Option U32) : Prop where
  self : phys (slot d 1023) = phys₀ (slot d 1023)
  kept : ∀ i, UserIndex i → flagOn (phys₀ (slot d i)) pagePresent = true ∨ ¬ Touches r i →
    phys (slot d i) = phys₀ (slot d i)
  made : ∀ i, UserIndex i → flagOn (phys₀ (slot d i)) pagePresent = false → Touches r i →
    ∃ f, phys (slot d i) = setPageDirectoryEntry f presentFlags
  entries : ∀ v, InUser v → ∀ w, r (pageNo v) = some w → entryIn phys d v = some w
  others : ∀ v, InUser v → r (pageNo v) = none →
    flagOn (phys₀ (slot d (dirIndex v))) pagePresent = true ∨ ¬ Touches r (dirIndex v) →
    entryIn phys d v = entryIn phys₀ d v
  cleared : ∀ v, InUser v → r (pageNo v) = none →
    flagOn (phys₀ (slot d (dirIndex v))) pagePresent = false → Touches r (dirIndex v) →
    entryIn phys d v = some 0

/-- What a directory or a table entry allows. -/
structure Rights where
  present : Bool
  writeable : Bool
  nonPrivilegedAccess : Bool
deriving DecidableEq

def rightsOf (w : U32) : Rights :=
  ⟨flagOn w pagePresent, flagOn w pageWriteable, flagOn w pageNonPrivilegedAccess⟩

/-- Every user address has the same rights in its directory entry and in its table
entry, if it has one. -/
def SameRights (phys phys' : U32 → U32) (d : U32) : Prop :=
  ∀ v, vUserBaseAddr ≤ v →
    rightsOf (phys (slot d (dirIndex v))) = rightsOf (phys' (slot d (dirIndex v))) ∧
    (entryIn phys d v).map rightsOf = (entryIn phys' d v).map rightsOf

section Overlay

variable {phys₀ phys phys' : U32 → U32} {k k' : KernelMem} {pds : List U32} {d i t u v w p flags : U32}
  {r r' : ℕ → Option U32}

theorem entryIn_table (ht : TableOf phys d v t) :
    entryIn phys d v = some (phys (slot t (tableIndex v))) := by
  have hframe : frameOf (phys (slot d (dirIndex v))) = t := ht.2
  rw [entryIn, if_pos ht.1, hframe]

theorem entryIn_absent (h : flagOn (phys (slot d (dirIndex v))) pagePresent = false) :
    entryIn phys d v = none := by
  rw [entryIn, h, if_neg Bool.false_ne_true]

theorem Overlays.refl (phys : U32 → U32) (d : U32) : Overlays phys phys d fun _ => none := by
  have hnot (i : U32) : ¬ Touches (fun _ => none) i := by
    rintro ⟨v, -, hv⟩
    exact hv rfl
  constructor
  · rfl
  · exact fun _ _ _ => rfl
  · exact fun i _ _ htouches => absurd htouches (hnot i)
  · intro v _ w hw
    cases hw
  · exact fun _ _ _ _ => rfl
  · exact fun v _ _ _ htouches => absurd htouches (hnot _)

/-- One more entry touches its own directory entry. -/
theorem touches_update : Touches (Function.update r (pageNo v) (some w)) i ↔
    i = dirIndex v ∨ Touches r i := by
  constructor
  · rintro ⟨u, rfl, hu⟩
    by_cases hpage : pageNo u = pageNo v
    · exact .inl (page_eq_iff.mp hpage).1
    · rw [Function.update_of_ne hpage] at hu
      exact .inr ⟨u, rfl, hu⟩
  · rintro (rfl | ⟨u, hu, hr⟩)
    · refine ⟨v, rfl, ?_⟩
      rw [Function.update_self]
      exact Option.some_ne_none w
    · refine ⟨u, hu, ?_⟩
      by_cases hpage : pageNo u = pageNo v
      · rw [hpage, Function.update_self]
        exact Option.some_ne_none w
      · rwa [Function.update_of_ne hpage]

/-- A directory entry that has become present was made, or was there. -/
theorem Overlays.made_of_present (h : Overlays phys₀ phys d r) (hi : UserIndex i)
    (habsent : flagOn (phys₀ (slot d i)) pagePresent = false)
    (hpresent : flagOn (phys (slot d i)) pagePresent = true) : Touches r i := by
  by_contra hnot
  rw [h.kept i hi (.inr hnot), habsent] at hpresent
  cases hpresent

/-- The directory entry of a new table has the same flags for a page that is
present and for one that is not. -/
theorem tableFlags_eq (hflags : flags = presentFlags ∨ flags = absentFlags) :
    pagePresent ||| pageWriteable ||| flags = presentFlags := by
  rcases hflags with rfl | rfl
  · decide
  · decide

/-- A page with another directory entry has the entry it had, as long as the table
that is written is not its table. -/
theorem Added.entryIn_other (h : Added k d v p flags k') (hs : Spaces k pds) (hd : d ∈ pds)
    (hu : InUser u) (hne : dirIndex u ≠ dirIndex v)
    (hnot : ¬ PointsTo (k.mmu.phys (slot d (dirIndex u))) (tableFor k d v)) :
    entryIn k'.mmu.phys d u = entryIn k.mmu.phys d u := by
  have hpde := h.directory _ (dirIndex_lt u)
  rw [if_neg fun heq => hne heq.1] at hpde
  cases hpresent : flagOn (k.mmu.phys (slot d (dirIndex u))) pagePresent with
  | false =>
    rw [entryIn_absent hpresent, entryIn_absent]
    rwa [hpde]
  | true =>
    have ht : TableOf k.mmu.phys d u _ := pointsTo_frameOf hpresent
    generalize frameOf (k.mmu.phys (slot d (dirIndex u))) = t at ht
    have ht' : TableOf k'.mmu.phys d u t := by rwa [TableOf, hpde]
    have hisTable := hs.tables d hd _ hu.userIndex t ht
    rw [entryIn_table ht, entryIn_table ht', h.others t ht.frame hisTable.off]
    · rintro rfl
      exact hisTable.notDirectory (List.mem_cons_of_mem _ hd)
    · rintro rfl
      exact hnot ht
    · exact tableIndex_lt u

/-- The other pages of the table that is written. -/
theorem Added.entryIn_same (h : Added k d v p flags k') (hu : dirIndex u = dirIndex v)
    (hne : pageNo u ≠ pageNo v) : entryIn k'.mmu.phys d u =
      if flagOn (k.mmu.phys (slot d (dirIndex v))) pagePresent then entryIn k.mmu.phys d u
      else some 0 := by
  have htable : TableOf k'.mmu.phys d u (tableFor k d v) := by
    rw [TableOf, hu]
    exact h.table
  have hindex : tableIndex u ≠ tableIndex v := fun heq => hne (page_eq_iff.mpr ⟨hu, heq⟩)
  rw [entryIn_table htable, h.words _ (tableIndex_lt u), if_neg hindex]
  cases hpresent : flagOn (k.mmu.phys (slot d (dirIndex v))) pagePresent with
  | false => rw [if_neg Bool.false_ne_true, if_neg Bool.false_ne_true]
  | true =>
    have ht : TableOf k.mmu.phys d u (tableFor k d v) := by
      rw [TableOf, hu, tableFor, if_pos hpresent]
      exact pointsTo_frameOf hpresent
    rw [if_pos rfl, if_pos rfl, entryIn_table ht]

theorem Added.entryIn_self (h : Added k d v p flags k') (hpage : pageNo u = pageNo v) :
    entryIn k'.mmu.phys d u = some (setPageTableEntry p flags) := by
  obtain ⟨hdir, hindex⟩ := page_eq_iff.mp hpage
  have htable : TableOf k'.mmu.phys d u (tableFor k d v) := by
    rw [TableOf, hdir]
    exact h.table
  rw [entryIn_table htable, h.words _ (tableIndex_lt u), if_pos hindex]

/-- One more page is added. -/
theorem Overlays.add (h : Overlays phys₀ k.mmu.phys d r) (hs : Spaces k pds) (hd : d ∈ pds)
    (hv : InUser v) (hflags : flags = presentFlags ∨ flags = absentFlags)
    (hadded : Added k d v p flags k')
    (hunshared : ∀ i, UserIndex i → i ≠ dirIndex v →
      ¬ PointsTo (k.mmu.phys (slot d i)) (tableFor k d v)) :
    Overlays phys₀ k'.mmu.phys d
      (Function.update r (pageNo v) (some (setPageTableEntry p flags))) := by
  have hdir (i : U32) (hi : UserIndex i) (hne : i ≠ dirIndex v) :
      k'.mmu.phys (slot d i) = k.mmu.phys (slot d i) := by
    rw [hadded.directory i (Nat.lt_succ_of_lt hi.2), if_neg fun heq => hne heq.1]
  have hentry {u : U32} (hu : InUser u) (hne : dirIndex u ≠ dirIndex v) :
      entryIn k'.mmu.phys d u = entryIn k.mmu.phys d u :=
    hadded.entryIn_other hs hd hu hne (hunshared _ hu.userIndex hne)
  have hold {u : U32} (hnone : Function.update r (pageNo v) (some (setPageTableEntry p flags))
      (pageNo u) = none) : pageNo u ≠ pageNo v ∧ r (pageNo u) = none := by
    have hpage : pageNo u ≠ pageNo v := by
      intro hpage
      rw [hpage, Function.update_self] at hnone
      cases hnone
    rw [Function.update_of_ne hpage] at hnone
    exact ⟨hpage, hnone⟩
  constructor
  · rw [hadded.directory 1023 (by decide), if_neg, h.self]
    intro hboth
    exact userIndex_ne hv.userIndex (.inr rfl) hboth.1
  · intro i hi hkept
    rw [touches_update, not_or] at hkept
    by_cases heq : i = dirIndex v
    · have hbefore := hkept.resolve_right fun hnot => hnot.1 heq
      have hpde := h.kept i hi (.inl hbefore)
      rw [hadded.directory i (Nat.lt_succ_of_lt hi.2), if_neg, hpde]
      rw [← heq, hpde, hbefore]
      exact fun hboth => Bool.noConfusion hboth.2
    · rw [hdir i hi heq]
      exact h.kept i hi (hkept.imp_right And.right)
  · intro i hi habsent htouches
    rw [touches_update] at htouches
    cases hpresent : flagOn (k.mmu.phys (slot d (dirIndex v))) pagePresent with
    | true =>
      have hmade : Touches r i := by
        rcases htouches with rfl | htouches
        · exact h.made_of_present hi habsent hpresent
        · exact htouches
      rw [hadded.directory i (Nat.lt_succ_of_lt hi.2), if_neg]
      · exact h.made i hi habsent hmade
      · rw [hpresent]
        exact fun hboth => Bool.noConfusion hboth.2
    | false =>
      by_cases heq : i = dirIndex v
      · refine ⟨k.gPmm.getFreePage.1, ?_⟩
        rw [hadded.directory i (Nat.lt_succ_of_lt hi.2), if_pos ⟨heq, hpresent⟩,
          tableFlags_eq hflags]
      · rw [hdir i hi heq]
        exact h.made i hi habsent (htouches.resolve_left heq)
  · intro u hu w hw
    by_cases hpage : pageNo u = pageNo v
    · rw [hpage, Function.update_self] at hw
      rw [hadded.entryIn_self hpage, hw]
    · rw [Function.update_of_ne hpage] at hw
      have hbefore := h.entries u hu w hw
      by_cases heq : dirIndex u = dirIndex v
      · rw [hadded.entryIn_same heq hpage]
        cases hpresent : flagOn (k.mmu.phys (slot d (dirIndex v))) pagePresent with
        | true => rwa [if_pos rfl]
        | false =>
          rw [← heq] at hpresent
          rw [entryIn_absent hpresent] at hbefore
          cases hbefore
      · rwa [hentry hu heq]
  · intro u hu hnone hkept
    obtain ⟨hpage, hnone⟩ := hold hnone
    rw [touches_update, not_or] at hkept
    by_cases heq : dirIndex u = dirIndex v
    · have hbefore := hkept.resolve_right fun hnot => hnot.1 heq
      have hpresent : flagOn (k.mmu.phys (slot d (dirIndex v))) pagePresent = true := by
        rw [← heq, h.kept _ hu.userIndex (.inl hbefore)]
        exact hbefore
      rw [hadded.entryIn_same heq hpage, hpresent, if_pos rfl]
      exact h.others u hu hnone (.inl hbefore)
    · rw [hentry hu heq]
      exact h.others u hu hnone (hkept.imp_right And.right)
  · intro u hu hnone habsent htouches
    obtain ⟨hpage, hnone⟩ := hold hnone
    rw [touches_update] at htouches
    by_cases heq : dirIndex u = dirIndex v
    · rw [hadded.entryIn_same heq hpage]
      cases hpresent : flagOn (k.mmu.phys (slot d (dirIndex v))) pagePresent with
      | false => rw [if_neg Bool.false_ne_true]
      | true =>
        rw [← heq] at hpresent
        rw [if_pos rfl]
        exact h.cleared u hu hnone habsent (h.made_of_present hu.userIndex habsent hpresent)
    · rw [hentry hu heq]
      exact h.cleared u hu hnone habsent (htouches.resolve_left heq)

/-! ## Rights -/

theorem flagOn_pageWriteable (w : U32) : flagOn w pageWriteable = w.getLsbD 1 := by
  have hpower : pageWriteable = BitVec.twoPow 32 1 := by decide
  rw [flagOn, hpower, BitVec.and_twoPow]
  cases w.getLsbD 1 <;> decide

theorem flagOn_pageNonPrivilegedAccess (w : U32) :
    flagOn w pageNonPrivilegedAccess = w.getLsbD 2 := by
  have hpower : pageNonPrivilegedAccess = BitVec.twoPow 32 2 := by decide
  rw [flagOn, hpower, BitVec.and_twoPow]
  cases w.getLsbD 2 <;> decide

/-- The rights of an entry are those of the flags it is made with. -/
theorem rightsOf_setPageTableEntry (p flags : U32) :
    rightsOf (setPageTableEntry p flags) = rightsOf flags := by
  rw [rightsOf, rightsOf, flagOn_setPageTableEntry, flagOn_pageWriteable (setPageTableEntry p flags),
    flagOn_pageNonPrivilegedAccess (setPageTableEntry p flags), setPageTableEntry, setEntryFields]
  simp (disch := decide) only [getLsbD_setField, ite_true, if_neg]

theorem rightsOf_setPageDirectoryEntry (p flags : U32) :
    rightsOf (setPageDirectoryEntry p flags) = rightsOf flags := by
  rw [rightsOf, rightsOf, flagOn_setPageDirectoryEntry,
    flagOn_pageWriteable (setPageDirectoryEntry p flags),
    flagOn_pageNonPrivilegedAccess (setPageDirectoryEntry p flags), setPageDirectoryEntry,
    setEntryFields]
  simp (disch := decide) only [getLsbD_setField, ite_true, if_neg]

/-- Entries with the same rights are laid over the same pages. -/
theorem touches_congr (hr : ∀ n, (r n).map rightsOf = (r' n).map rightsOf) (i : U32) :
    Touches r i ↔ Touches r' i := by
  have hiff (n : ℕ) : r n ≠ none ↔ r' n ≠ none := by
    have hn := hr n
    cases hrn : r n <;> cases hrn' : r' n <;> simp_all
  constructor
  · rintro ⟨v, hv, hne⟩
    exact ⟨v, hv, (hiff _).mp hne⟩
  · rintro ⟨v, hv, hne⟩
    exact ⟨v, hv, (hiff _).mpr hne⟩

section Agree

variable (h : Overlays phys₀ phys d r) (h' : Overlays phys₀ phys' d r')
  (hr : ∀ n, (r n).map rightsOf = (r' n).map rightsOf)

include h h' hr

theorem Overlays.directory_rights {i : U32} (hi : UserIndex i) :
    rightsOf (phys (slot d i)) = rightsOf (phys' (slot d i)) := by
  have htouches := touches_congr hr i
  by_cases hkept : flagOn (phys₀ (slot d i)) pagePresent = true ∨ ¬ Touches r i
  · rw [h.kept i hi hkept, h'.kept i hi (hkept.imp_right fun hnot => mt htouches.mpr hnot)]
  · obtain ⟨habsent, htouched⟩ := not_or.mp hkept
    have habsent := Bool.eq_false_of_not_eq_true habsent
    have htouched := not_not.mp htouched
    obtain ⟨f, hf⟩ := h.made i hi habsent htouched
    obtain ⟨f', hf'⟩ := h'.made i hi habsent (htouches.mp htouched)
    rw [hf, hf', rightsOf_setPageDirectoryEntry, rightsOf_setPageDirectoryEntry]

theorem Overlays.entry_rights (hv : InUser v) :
    (entryIn phys d v).map rightsOf = (entryIn phys' d v).map rightsOf := by
  have hpage := hr (pageNo v)
  have htouches := touches_congr hr (dirIndex v)
  cases hrv : r (pageNo v) with
  | some w =>
    rw [hrv] at hpage
    obtain ⟨w', hw', heq⟩ := Option.map_eq_some_iff.mp hpage.symm
    rw [h.entries v hv w hrv, h'.entries v hv w' hw', Option.map_some, Option.map_some, heq]
  | none =>
    rw [hrv] at hpage
    have hrv' : r' (pageNo v) = none := Option.map_eq_none_iff.mp hpage.symm
    by_cases hkept : flagOn (phys₀ (slot d (dirIndex v))) pagePresent = true ∨
        ¬ Touches r (dirIndex v)
    · rw [h.others v hv hrv hkept,
        h'.others v hv hrv' (hkept.imp_right fun hnot => mt htouches.mpr hnot)]
    · obtain ⟨habsent, htouched⟩ := not_or.mp hkept
      have habsent := Bool.eq_false_of_not_eq_true habsent
      have htouched := not_not.mp htouched
      rw [h.cleared v hv hrv habsent htouched, h'.cleared v hv hrv' habsent (htouches.mp htouched)]

/-- Two overlays of one address space with the same rights agree on every user
address. Behind the last directory entry lie the directory entries themselves. -/
theorem Overlays.sameRights (hdir : Directory phys d) (hdir' : Directory phys' d) :
    SameRights phys phys' d := by
  have hpde (i : U32) (hi : i.toNat < 1024) :
      rightsOf (phys (slot d i)) = rightsOf (phys' (slot d i)) := by
    by_cases hkernel : i.toNat < 256
    · rw [hdir.tables i hkernel, hdir'.tables i hkernel]
    · by_cases hlast : i.toNat = 1023
      · obtain rfl : i = 1023 := BitVec.eq_of_toNat_eq hlast
        rw [h.self, h'.self]
      · exact h.directory_rights h' hr ⟨by omega, by omega⟩
  intro v hv
  refine ⟨hpde _ (dirIndex_lt v), ?_⟩
  by_cases hwindow : v < 0xFFC00000
  · exact h.entry_rights h' hr ⟨hv, hwindow⟩
  · have hindex : dirIndex v = 1023 := by
      have hlow : 0xFFC00000 ≤ v.toNat := Nat.le_of_not_lt hwindow
      have hlast : (1023 : U32).toNat = 1023 := rfl
      have hlt := v.isLt
      apply BitVec.eq_of_toNat_eq
      rw [toNat_dirIndex]
      omega
    have ht : TableOf phys d v d := by
      rw [TableOf, hindex]
      exact hdir.self
    have ht' : TableOf phys' d v d := by
      rw [TableOf, hindex]
      exact hdir'.self
    rw [entryIn_table ht, entryIn_table ht', Option.map_some, Option.map_some,
      hpde _ (tableIndex_lt v)]

end Agree

end Overlay

end LtMicros
