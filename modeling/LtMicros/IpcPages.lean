import LtMicros.DataFrames
import LtMicros.FrameRuns
import LtMicros.IpcReads

/-!
# The memory behind an IPC buffer

The pages of a buffer are held, and each has a frame of its own as long as there is a
physical page for every page that the buffer takes. Then what is written at a place of
the stream is read there, until the page goes back.
-/

namespace LtMicros

open Lib Lib.Frames

/-- A pool in order serves whoever has pages that are in use. -/
theorem PagePool.InOrder.serves {p : PagePool} {live : List ℕ} (h : p.InOrder)
    (hlive : ∀ a ∈ live, ∃ u, p.InUse u ∧ a = u.toNat) : p.Serves live := by
  obtain ⟨l, hchain, hl⟩ := h.avail
  have hblock (b : ℕ) (hb : b ∈ l) : p.blockAddr b = 0x800000 + b * 4096 :=
    h.addr b (hl b hb).1
  refine ⟨l, hchain, ?_, ?_⟩
  · refine List.Nodup.map_on (fun i hi j hj hij => ?_) hchain.nodup
    rw [hblock i hi, hblock j hj] at hij
    omega
  · intro b hb
    obtain ⟨hlt, havailable⟩ := hl b hb
    refine ⟨?_, fun hmem => ?_⟩
    · rw [hblock b hb]
      unfold PageAddr pageSize
      omega
    · obtain ⟨u, ⟨b', hb', hfree, rfl⟩, hu⟩ := hlive _ hmem
      rw [h.nbPages] at hb'
      obtain rfl := h.addr_inj hlt hb' (BitVec.eq_of_toNat_eq hu)
      rw [havailable] at hfree
      cases hfree

/-- The pages are held, and they are different ones. -/
structure IpcMem.Holds (m : IpcMem) (pds : List U32) (heap : U32 → Prop) (pages : List ℕ) :
    Prop where
  owned : Owned ⟨m.k, pds⟩ heap
  held : ∀ p ∈ pages, HeldPage ⟨m.k, pds⟩ (m.pages p)
  nodup : (pages.map m.vAddr).Nodup

theorem IpcMem.Holds.serves {m : IpcMem} {pds : List U32} {heap : U32 → Prop} {pages : List ℕ}
    (h : m.Holds pds heap pages) : m.k.gPagePool.Serves (pages.map m.vAddr) := by
  apply h.owned.pool.serves
  intro a ha
  obtain ⟨p, hp, rfl⟩ := List.mem_map.mp ha
  exact ⟨_, (h.held p hp).inUse, rfl⟩

namespace IpcState

variable {s s' : IpcState} {pds : List U32} {heap : U32 → Prop} {start f w n pos size fuel i j : ℕ}
  {added message rest : List U8} {c : U8}

/-! ## Places -/

/-- A place of the stream lies in its page. -/
theorem Written.inPage (hw : Written s start f w n) (hlo : 4096 * f ≤ i)
    (hhi : i < 4096 * (w + 1)) :
    start + i / 4096 ∈ s.buf.pagesList ∧
      (BitVec.ofNat 32 (s.place start i)).toNat = s.place start i ∧
      frameOf (BitVec.ofNat 32 (s.place start i)) = (s.mem.pages (start + i / 4096)).vAddr := by
  have hle := hw.le
  have haddr := hw.addr (i / 4096) (by omega) (by omega)
  obtain ⟨haligned, -, hlast⟩ := haddr
  unfold pageSize at haligned hlast
  have hnat : (BitVec.ofNat 32 (s.place start i)).toNat = s.place start i := by
    rw [BitVec.toNat_ofNat]
    apply Nat.mod_eq_of_lt
    unfold place
    omega
  refine ⟨?_, hnat, ?_⟩
  · rw [hw.list, List.mem_range'_1]
    omega
  · apply BitVec.eq_of_toNat_eq
    rw [toNat_frameOf, hnat]
    show s.place start i / 4096 * 4096 = s.mem.vAddr (start + i / 4096)
    unfold place
    omega

/-- Different bytes of the stream have different places. -/
theorem Written.place_inj (hw : Written s start f w n) (hi : 4096 * f ≤ i)
    (hi' : i < 4096 * (w + 1)) (hj : 4096 * f ≤ j) (hj' : j < 4096 * (w + 1))
    (heq : BitVec.ofNat 32 (s.place start i) = BitVec.ofNat 32 (s.place start j)) : i = j := by
  obtain ⟨-, hnat, hframe⟩ := hw.inPage hi hi'
  obtain ⟨-, hnat', hframe'⟩ := hw.inPage hj hj'
  have hpage : s.mem.vAddr (start + i / 4096) = s.mem.vAddr (start + j / 4096) :=
    congrArg BitVec.toNat (hframe.symm.trans ((congrArg frameOf heq).trans hframe'))
  have hdiv := hw.inj _ _ (by omega) (by omega) (by omega) (by omega) hpage
  have hplace : s.place start i = s.place start j := by
    rw [← hnat, ← hnat', heq]
  unfold place at hplace
  rw [hpage] at hplace
  omega

/-- The reader is in the first page of the list. -/
theorem Laid.low (hl : Laid s start f w n pos) : 4096 * f ≤ pos := by
  rcases hl.reading with hu | hr
  · rw [hu.first]
    exact Nat.zero_le _
  · exact hr.low

/-- The pages of the buffer are held, and the bytes from `pos` on are in them. -/
structure Filled (s : IpcState) (pds : List U32) (heap : U32 → Prop) (start f w : ℕ)
    (added : List U8) (pos : ℕ) : Prop where
  stream : Stream s start f w added.length pos
  holds : s.mem.Holds pds heap s.buf.pagesList
  content : ∀ i c, pos ≤ i → added[i]? = some c → s.mem.load (s.place start i) = .ret c

/-! ## Writing -/

/-- The pages that `AddBytes` takes for a message: those for what does not fit into the page
being written. -/
def pagesFor (s : IpcState) (message : List U8) : ℕ :=
  (message.length - (s.buf.currentWriteLimit - s.buf.currentPageWritePtr) + 4095) / 4096

theorem Filled.writeByte (h : Filled s pds heap start f w added pos)
    (hroom : s.buf.currentPageWritePtr < s.buf.currentWriteLimit) (hr : s.writeByte c = .ret s') :
    Filled s' pds heap start f w (added ++ [c]) pos ∧ s'.mem.k.gPmm = s.mem.k.gPmm ∧
      ∀ message, s'.pagesFor message = s.pagesFor (c :: message) := by
  obtain ⟨hs, hholds, hcontent⟩ := h
  have hl := hs.laid.writeByte hroom hr
  obtain ⟨hlt, htop⟩ := hs.written.below hroom
  have hlow := hs.laid.low
  have hle := hs.pos_le
  obtain ⟨hmem, -, hframe⟩ := hs.written.inPage (Nat.le_trans hlow hle) hlt
  have hpage := hholds.held _ hmem
  obtain ⟨mmu, hwrite, rfl⟩ := writeByte_spec hr
  rw [← hs.written.place_eq hlt] at hwrite
  have hover : Overwrites s.mem.k { s.mem.k with mmu } pds := by
    have hover := hpage.overwrites (v := BitVec.ofNat 32 (s.place start added.length)) (c := c)
      hholds.owned
    rw [hpage.writeByte hholds.owned hframe] at hwrite
    cases hwrite
    exact hover
  have hcur : mmu.cr3 ∈ allDirectories pds := by
    rw [hpage.writeByte hholds.owned hframe] at hwrite
    cases hwrite
    exact hholds.owned.separate.spaces.current
  refine ⟨⟨?_, ⟨?_, ?_, hholds.nodup⟩, ?_⟩, rfl, fun message => ?_⟩
  · rw [List.length_append]
    exact hl.stream (Nat.le_succ_of_le hle)
  · exact hover.owned hholds.owned hcur
  · exact fun p hp => hover.heldPage hholds.owned (hholds.held p hp)
  · intro i b hi hb
    have hbefore : i < (added ++ [c]).length := (List.getElem?_eq_some_iff.mp hb).1
    rw [List.length_append, List.length_singleton] at hbefore
    obtain ⟨hmem', -, hframe'⟩ := hs.written.inPage (Nat.le_trans hlow hi)
      (show i < 4096 * (w + 1) by omega)
    have hread := hpage.readByte_writeByte (hholds.held _ hmem') hholds.owned hframe' hframe hwrite
    show mmu.readByte (BitVec.ofNat 32 (s.place start i)) = .ret b
    rw [hread]
    rcases Nat.lt_succ_iff_lt_or_eq.mp hbefore with hold | rfl
    · rw [if_neg, ← hcontent i b hi (by rwa [List.getElem?_append_left hold] at hb)]
      · rfl
      · intro heq
        have heq := hs.written.place_inj (Nat.le_trans hlow hi) (by omega)
          (Nat.le_trans hlow hle) hlt heq
        omega
    · rw [if_pos rfl]
      rw [List.getElem?_concat_length] at hb
      cases hb
      rfl
  · unfold pagesFor
    dsimp only
    rw [add32_of_lt htop, List.length_cons]
    congr 2
    omega

/-- The inner loop of `AddBytes` puts bytes behind those that are there. -/
theorem Filled.writeBytes (h : Filled s pds heap start f w added pos)
    (hr : s.writeBytes message = .ret (rest, s')) :
    ∃ done, message = done ++ rest ∧ Filled s' pds heap start f w (added ++ done) pos ∧
      s'.mem.k.gPmm = s.mem.k.gPmm ∧ s'.pagesFor rest = s.pagesFor message ∧
      (rest ≠ [] → ¬ s'.buf.currentPageWritePtr < s'.buf.currentWriteLimit) := by
  induction message generalizing s added with
  | nil =>
    cases hr
    exact ⟨[], rfl, by rwa [List.append_nil], rfl, rfl, fun hne => absurd rfl hne⟩
  | cons c message ih =>
    rw [IpcState.writeBytes] at hr
    split at hr
    · rename_i hroom
      obtain ⟨t, hbyte, hr⟩ := Outcome.bind_eq_ret.mp hr
      obtain ⟨ht, hpmm, hpages⟩ := h.writeByte hroom hbyte
      obtain ⟨done, rfl, hs', hpmm', hpages', hstop⟩ := ih ht hr
      refine ⟨c :: done, rfl, ?_, hpmm'.trans hpmm, hpages'.trans (hpages _), hstop⟩
      rwa [List.append_assoc] at hs'
    · rename_i hfull
      cases hr
      exact ⟨[], rfl, by rwa [List.append_nil], rfl, rfl, fun _ => hfull⟩

/-- `AllocateWritePage` gets a page with a frame of its own while there is a physical page, and
the other pages keep theirs and what is in them. -/
theorem holds_allocateWritePage {pages : List ℕ} (h : s.mem.Holds pds heap pages)
    (hold : ∀ p ∈ pages, p < s.mem.heapTop) (hfree : s.mem.k.gPmm.freePages.Nonempty)
    (hr : s.allocateWritePage = .ret (.statusSuccess, s')) :
    s'.mem.Holds pds heap (pages ++ [s.mem.heapTop]) ∧
      s'.mem.k.gPmm.freePages.card = s.mem.k.gPmm.freePages.card - 1 ∧
      s'.buf.currentWriteLimit = s'.buf.currentPageWritePtr + 4096 ∧
      ∀ p ∈ pages, s'.mem.vAddr p = s.mem.vAddr p ∧
        ∀ v, frameOf v = (s.mem.pages p).vAddr →
          s'.mem.k.mmu.readByte v = s.mem.k.mmu.readByte v := by
  obtain ⟨i, hi⟩ := Option.ne_none_iff_exists'.mp (allocateWritePage_avail hr)
  obtain ⟨page, hpage, -, hlive, -, -, -, hpages, hbuf⟩ := allocateWritePage_spec h.serves hr
  obtain ⟨hv, hkeep⟩ := vAddr_update hpages
  obtain ⟨howned, hnew, hheld, -⟩ := Owned.pageAlloc h.owned hi hfree hpage
  have hs := h.owned.separate.spaces
  have hsame (p : ℕ) (hp : p ∈ pages) : s'.mem.pages p = s.mem.pages p := by
    rw [hpages, Function.update_of_ne (Nat.ne_of_lt (hold p hp))]
  refine ⟨⟨howned, ?_, ?_⟩, ?_, ?_, ?_⟩
  · intro p hp
    rcases List.mem_append.mp hp with hp | hp
    · rw [hsame p hp]
      exact hheld _ (h.held p hp)
    · rw [List.mem_singleton.mp hp, hpages, Function.update_self]
      exact hnew
  · have hmap : pages.map s'.mem.vAddr = pages.map s.mem.vAddr :=
      List.map_congr_left fun p hp => hkeep p (Nat.ne_of_lt (hold p hp))
    rw [List.map_append, hmap, List.map_singleton, hv]
    exact List.nodup_append_comm.mp (List.nodup_cons.mpr ⟨hlive, h.nodup⟩)
  · rw [pageAlloc_eq hs.currentDirectory hi (hs.pool.head hi)] at hpage
    obtain ⟨-, hk⟩ := Prod.mk.inj (Outcome.ret.inj hpage)
    rw [← hk]
    exact s.mem.k.gPmm.card_getFreePage
  · rw [hbuf]
  · intro p hp
    refine ⟨hkeep p (Nat.ne_of_lt (hold p hp)), fun v hframe => ?_⟩
    have hbefore := h.held p hp
    have hdata := hbefore.dataFrame h.owned
    have hhigh := hdata.high
    refine hbefore.readByte_eq h.owned (hheld _ hbefore) howned (fun j hj => ?_) hframe
    exact pageAlloc_words hs hpage hbefore.entry.frame (.inr (by omega)) hj

/-- The pages of the list are on the heap. -/
theorem Written.lt_heapTop (hw : Written s start f w n) {p : ℕ} (hp : p ∈ s.buf.pagesList) :
    p < s.mem.heapTop := by
  have hle := hw.le
  rw [hw.list, List.mem_range'_1] at hp
  rw [hw.heapTop]
  omega

theorem Filled.allocateWritePage (h : Filled s pds heap start f w added pos)
    (hfull : ¬ s.buf.currentPageWritePtr < s.buf.currentWriteLimit)
    (hfree : s.mem.k.gPmm.freePages.Nonempty)
    (hr : s.allocateWritePage = .ret (.statusSuccess, s')) :
    Filled s' pds heap start f (w + 1) added pos ∧
      s'.mem.k.gPmm.freePages.card = s.mem.k.gPmm.freePages.card - 1 ∧
      s'.buf.currentWriteLimit = s'.buf.currentPageWritePtr + 4096 := by
  obtain ⟨hs, hholds, hcontent⟩ := h
  obtain ⟨hholds', hcard, hlimit, hkeep⟩ :=
    holds_allocateWritePage hholds (fun p hp => hs.written.lt_heapTop hp) hfree hr
  obtain ⟨_, -, -, -, -, -, -, -, hbuf⟩ := allocateWritePage_spec hholds.serves hr
  have hlist : s'.buf.pagesList = s.buf.pagesList ++ [s.mem.heapTop] := by rw [hbuf]
  refine ⟨⟨hs.allocateWritePage hfull hr, by rwa [hlist], ?_⟩, hcard, hlimit⟩
  intro i c hi hc
  have hlt : i < added.length := (List.getElem?_eq_some_iff.mp hc).1
  have hroom := hs.written.room
  obtain ⟨hmem, -, hframe⟩ := hs.written.inPage (Nat.le_trans hs.laid.low hi)
    (Nat.lt_of_lt_of_le hlt hroom)
  obtain ⟨hv, hsame⟩ := hkeep _ hmem
  have hplace : s'.place start i = s.place start i := by
    rw [place, place, hv]
  rw [hplace, ← hcontent i c hi hc]
  exact hsame _ hframe

/-- The first page. -/
theorem Fresh.filled (hf : Fresh s start) (ho : Owned ⟨s.mem.k, pds⟩ heap)
    (hfree : s.mem.k.gPmm.freePages.Nonempty)
    (hr : s.allocateWritePage = .ret (.statusSuccess, s')) :
    Filled s' pds heap start 0 0 [] 0 ∧
      s'.mem.k.gPmm.freePages.card = s.mem.k.gPmm.freePages.card - 1 ∧
      s'.buf.currentWriteLimit = s'.buf.currentPageWritePtr + 4096 := by
  have hholds : s.mem.Holds pds heap [] :=
    ⟨ho, fun p hp => absurd hp List.not_mem_nil, List.nodup_nil⟩
  obtain ⟨hholds', hcard, hlimit, -⟩ :=
    holds_allocateWritePage hholds (fun p hp => absurd hp List.not_mem_nil) hfree hr
  obtain ⟨_, -, -, -, -, -, -, -, hbuf⟩ := allocateWritePage_spec hholds.serves hr
  have hlist : s'.buf.pagesList = [] ++ [s.mem.heapTop] := by
    rw [hbuf, hf.buf]
    rfl
  refine ⟨⟨hf.allocateWritePage hr, by rwa [hlist], ?_⟩, hcard, hlimit⟩
  intro i c _ hc
  cases hc

/-- A turn of the loop of `AddBytes`: it ends with the whole message written, or fails, or goes on
in a new page, with a physical page for each that the rest takes. -/
theorem Filled.addTurn (h : Filled s pds heap start f w added pos)
    (hfree : s.pagesFor message ≤ s.mem.k.gPmm.freePages.card)
    {r : List U8 × IpcState ⊕ KeStatus × IpcState}
    (hr : IpcState.addTurn (message, s) = .ret r) :
    (∃ t, r = .inr (.statusSuccess, t) ∧ Filled t pds heap start f w (added ++ message) pos) ∨
      (∃ status t, r = .inr (status, t) ∧ failed status = true) ∨
      ∃ done rest t, r = .inl (rest, t) ∧ message = done ++ rest ∧ rest ≠ [] ∧
        Filled t pds heap start f (w + 1) (added ++ done) pos ∧
        t.pagesFor rest ≤ t.mem.k.gPmm.freePages.card := by
  obtain ⟨⟨rest, y⟩, hrun, hturn⟩ := Outcome.bind_eq_ret.mp hr
  obtain ⟨done, rfl, hy, hpmm, hpages, hstop⟩ := h.writeBytes hrun
  dsimp only at hturn
  split at hturn
  · rename_i hrest
    subst hrest
    cases hturn
    exact .inl ⟨y, rfl, by rwa [List.append_nil]⟩
  rename_i hrest
  obtain ⟨⟨status, z⟩, halloc, hturn⟩ := Outcome.bind_eq_ret.mp hturn
  dsimp only at hturn
  split at hturn
  · rename_i hfailed
    cases hturn
    exact .inr (.inl ⟨status, z, rfl, hfailed⟩)
  rename_i hok
  cases hturn
  rw [eq_of_not_failed hok] at halloc
  have hfull := hstop hrest
  have hpos := List.length_pos_iff.mpr hrest
  -- the rest takes as many pages as before, so there is one for this page
  rw [← hpages, ← hpmm] at hfree
  unfold pagesFor at hfree
  rw [Nat.sub_eq_zero_of_le (Nat.not_lt.mp hfull), Nat.sub_zero] at hfree
  have hcard : 0 < y.mem.k.gPmm.freePages.card := by omega
  obtain ⟨hz, hcard', hlimit⟩ := hy.allocateWritePage hfull (Finset.card_pos.mp hcard) halloc
  refine .inr (.inr ⟨done, rest, z, rfl, rfl, hrest, hz, ?_⟩)
  rw [hcard']
  unfold pagesFor
  rw [hlimit, Nat.add_sub_cancel_left]
  omega

/-- The rest of `AddBytes` puts the message behind what is there, when there is a physical page
for each page that it takes. -/
theorem Filled.addRest (h : Filled s pds heap start f w added pos) (hne : message ≠ [])
    (hfree : s.pagesFor message ≤ s.mem.k.gPmm.freePages.card)
    (hr : s.addRest fuel message = .ret (.statusSuccess, s')) :
    ∃ w', Filled s' pds heap start f w' (added ++ message) pos ∧
      4096 * w' < (added ++ message).length := by
  obtain ⟨⟨status, t⟩, hloop, hr⟩ := Outcome.bind_eq_ret.mp hr
  have hend : status = .statusSuccess → ∃ w', Filled t pds heap start f w' (added ++ message) pos ∧
      4096 * w' < (added ++ message).length := by
    refine Outcome.loop_invariant
      (I := fun x => x.1 ≠ [] ∧ ∃ done w', message = done ++ x.1 ∧
        Filled x.2 pds heap start f w' (added ++ done) pos ∧
        x.2.pagesFor x.1 ≤ x.2.mem.k.gPmm.freePages.card)
      (Q := fun x => x.1 = .statusSuccess → ∃ w',
        Filled x.2 pds heap start f w' (added ++ message) pos ∧
        4096 * w' < (added ++ message).length) ?_ ?_
      ⟨hne, [], w, rfl, by rwa [List.append_nil], hfree⟩ hloop
    · rintro ⟨msg, x⟩ ⟨msg', x'⟩ ⟨-, done, w', rfl, hx, hfree⟩ hturn
      rcases hx.addTurn hfree hturn with ⟨_, heq, -⟩ | ⟨_, _, heq, -⟩ |
        ⟨done', rest, z, heq, hsplit, hrest, hz, hfree'⟩
      · cases heq
      · cases heq
      · cases heq
        rw [List.append_assoc] at hz
        refine ⟨hrest, done ++ done', w' + 1, ?_, hz, hfree'⟩
        rw [List.append_assoc, ← hsplit]
    · rintro ⟨msg, x⟩ ⟨status', x'⟩ ⟨hmsg, done, w', rfl, hx, hfree⟩ hturn hstatus
      rcases hx.addTurn hfree hturn with ⟨y, heq, hy⟩ | ⟨status, _, heq, hfailed⟩ |
        ⟨_, _, _, heq, -⟩
      · cases heq
        rw [List.append_assoc] at hy
        refine ⟨w', hy, ?_⟩
        have hbegun := hx.stream.written.begun
        have hpos : 0 < msg.length := List.length_pos_iff.mpr hmsg
        simp only [List.length_append] at hbegun ⊢
        omega
      · cases heq
        dsimp only at hstatus
        rw [hstatus] at hfailed
        cases hfailed
      · cases heq
  dsimp only at hr
  split at hr
  · rename_i hfailed
    cases hr
    cases hfailed
  · rename_i hok
    cases hr
    obtain ⟨w', ⟨hs, hholds, hcontent⟩, hlen⟩ := hend (eq_of_not_failed hok)
    exact ⟨w', ⟨hs.signal _, hholds, hcontent⟩, hlen⟩

/-- A successful further `AddBytes`. -/
theorem Filled.addBytes (h : Filled s pds heap start f w added pos)
    (hfree : s.pagesFor message ≤ s.mem.k.gPmm.freePages.card)
    (hr : s.addBytes fuel message = .ret (.statusSuccess, s')) :
    ∃ w', Filled s' pds heap start f w' (added ++ message) pos ∧
      4096 * w' < (added ++ message).length := by
  have hne := ne_nil_of_addBytes hr
  rw [h.stream.laid.addBytes_eq hne] at hr
  exact h.addRest hne hfree hr

/-- A successful first `AddBytes`. -/
theorem Fresh.addBytes_filled (hf : Fresh s start) (ho : Owned ⟨s.mem.k, pds⟩ heap)
    (hfree : s.pagesFor message ≤ s.mem.k.gPmm.freePages.card)
    (hr : s.addBytes fuel message = .ret (.statusSuccess, s')) :
    ∃ w, Filled s' pds heap start 0 w message 0 ∧ 4096 * w < message.length := by
  have hne := ne_nil_of_addBytes hr
  have hpos := List.length_pos_iff.mpr hne
  rw [IpcState.addBytes, if_neg hne, if_pos (by rw [hf.buf]; rfl)] at hr
  obtain ⟨⟨status, t⟩, halloc, hr⟩ := Outcome.bind_eq_ret.mp hr
  dsimp only at hr
  split at hr
  · rename_i hfailed
    cases hr
    cases hfailed
  · rename_i hok
    rw [eq_of_not_failed hok] at halloc
    unfold pagesFor at hfree
    rw [hf.buf] at hfree
    dsimp only [IpcBuffer.init] at hfree
    have hcard : 0 < s.mem.k.gPmm.freePages.card := by omega
    obtain ⟨ht, hcard', hlimit⟩ := hf.filled ho (Finset.card_pos.mp hcard) halloc
    refine ht.addRest hne ?_ hr
    rw [hcard']
    unfold pagesFor
    rw [hlimit, Nat.add_sub_cancel_left]
    omega

/-! ## Reading -/

/-- What is read at the places from `pos` on is what has been added. -/
theorem eq_take_of_reads {m : IpcMem} {g : ℕ → ℕ} {bytes : List U8}
    (hcontent : ∀ i c, pos ≤ i → added[i]? = some c → m.load (g i) = .ret c)
    (hlen : pos + bytes.length ≤ added.length) (hreads : Reads m g pos bytes) :
    bytes = (added.drop pos).take bytes.length := by
  induction bytes generalizing pos with
  | nil => rfl
  | cons byte bytes ih =>
    obtain ⟨hload, hnext⟩ := reads_cons.mp hreads
    rw [List.length_cons] at hlen
    have hlt : pos < added.length := by omega
    have hbyte := hcontent pos _ (Nat.le_refl pos) (List.getElem?_eq_getElem hlt)
    rw [hload] at hbyte
    cases hbyte
    have hrest := ih (fun i c hi => hcontent i c (by omega)) (by omega) hnext
    rw [List.length_cons, List.drop_eq_getElem_cons hlt, List.take_succ_cons, ← hrest]

/-- The page that goes back was held, and the others are still. -/
theorem holds_nextReadPage (h : s.mem.Holds pds heap s.buf.pagesList)
    (hr : s.nextReadPage fuel = .ret s') : s'.mem.Holds pds heap s'.buf.pagesList := by
  obtain ⟨page, next, rest, k, hlist, hk, rfl⟩ := nextReadPage_spec hr
  obtain ⟨howned, hheld, hnodup⟩ := h
  rw [hlist] at hheld hnodup
  obtain ⟨hnot, hnodup⟩ := List.nodup_cons.mp hnodup
  obtain ⟨howned', hkeep⟩ := Owned.pageFree howned (hheld page List.mem_cons_self) hk
  refine ⟨howned', fun p hp => ?_, hnodup⟩
  refine hkeep _ (fun heq => ?_) (hheld p (List.mem_cons_of_mem _ hp))
  apply hnot
  rw [show s.mem.vAddr page = s.mem.vAddr p from congrArg BitVec.toNat heq.symm]
  exact List.mem_map_of_mem hp

/-- The inner loop of `ReadBytes` moves the reader only. -/
theorem readWhile_moves {bytes : List U8} {left : ℕ}
    (h : s.readWhile size = .ret (bytes, left, s')) :
    ∃ currentPageReadPtr, s' = ⟨{ s.buf with currentPageReadPtr }, s.mem⟩ := by
  induction size generalizing s bytes with
  | zero =>
    cases h
    exact ⟨_, rfl⟩
  | succ size ih =>
    rw [readWhile] at h
    split at h
    · obtain ⟨byte, -, h⟩ := Outcome.bind_eq_ret.mp h
      obtain ⟨⟨bytes', left', t⟩, hrest, h⟩ := Outcome.bind_eq_ret.mp h
      cases h
      obtain ⟨ptr, hs'⟩ := ih hrest
      exact ⟨ptr, hs'⟩
    · cases h
      exact ⟨_, rfl⟩

theorem holds_readRest (h : s.mem.Holds pds heap s.buf.pagesList) {status : KeStatus}
    {bytes : List U8} {bytesRead : ℕ}
    (hr : s.readRest fuel size = .ret (status, bytes, bytesRead, s')) :
    s'.mem.Holds pds heap s'.buf.pagesList := by
  obtain ⟨⟨out, left, t⟩, hloop, hr⟩ := Outcome.bind_eq_ret.mp hr
  cases hr
  have hwhile {x y : IpcState} {n left : ℕ} {bytes : List U8}
      (h : x.mem.Holds pds heap x.buf.pagesList) (hr : x.readWhile n = .ret (bytes, left, y)) :
      y.mem.Holds pds heap y.buf.pagesList := by
    obtain ⟨ptr, rfl⟩ := readWhile_moves hr
    exact h
  refine Outcome.loop_invariant
    (I := fun x : List U8 × ℕ × IpcState => x.2.2.mem.Holds pds heap x.2.2.buf.pagesList)
    (Q := fun x : List U8 × ℕ × IpcState => x.2.2.mem.Holds pds heap x.2.2.buf.pagesList) ?_ ?_
    (s := ([], size, s)) h hloop
  · rintro ⟨out, n, x⟩ ⟨out', n', x'⟩ hx hturn
    obtain ⟨⟨bytes', left', y⟩, hrun, hturn⟩ := Outcome.bind_eq_ret.mp hturn
    dsimp only at hturn
    split at hturn
    · split at hturn
      · obtain ⟨z, hnext, hturn⟩ := Outcome.bind_eq_ret.mp hturn
        cases hturn
        exact holds_nextReadPage (hwhile hx hrun) hnext
      · cases hturn
    · cases hturn
  · rintro ⟨out, n, x⟩ ⟨out', n', x'⟩ hx hturn
    obtain ⟨⟨bytes', left', y⟩, hrun, hturn⟩ := Outcome.bind_eq_ret.mp hturn
    dsimp only at hturn
    split at hturn
    · split at hturn
      · obtain ⟨z, -, hturn⟩ := Outcome.bind_eq_ret.mp hturn
        cases hturn
      · cases hturn
        exact hwhile hx hrun
    · cases hturn
      exact hwhile hx hrun

/-- `ReadBytes` gives back held pages only. -/
theorem holds_readBytes (h : s.mem.Holds pds heap s.buf.pagesList) {status : KeStatus}
    {bytes : List U8} {bytesRead : ℕ}
    (hr : s.readBytes fuel size = .ret (status, bytes, bytesRead, s')) :
    s'.mem.Holds pds heap s'.buf.pagesList := by
  rw [IpcState.readBytes] at hr
  split at hr
  · cases hr
    exact h
  split at hr
  · obtain ⟨t, hopen, hr⟩ := Outcome.bind_eq_ret.mp hr
    obtain ⟨page, -, hopen⟩ := Outcome.bind_eq_ret.mp hopen
    cases hopen
    refine holds_readRest ?_ hr
    exact h
  · exact holds_readRest h hr

/-- A successful `ReadBytes` gives the next bytes of those that have been added. -/
theorem Filled.readBytes (h : Filled s pds heap start f w added pos)
    (hsize : size ≤ added.length - pos ∨ w = 0) {bytes : List U8} {bytesRead : ℕ}
    (hr : s.readBytes fuel size = .ret (.statusSuccess, bytes, bytesRead, s')) :
    bytes = (added.drop pos).take size ∧ bytesRead = bytes.length ∧
      ∃ f', Filled s' pds heap start f' w added (pos + bytes.length) := by
  obtain ⟨hs, hholds, hcontent⟩ := h
  obtain ⟨hlen, hread, hreads, hsame, f', hs'⟩ := hs.readBytes hsize hr
  have hbytes := eq_take_of_reads hcontent hs'.pos_le hreads
  refine ⟨?_, hread, f', hs', holds_readBytes hholds hr, ?_⟩
  · refine hbytes.trans (List.take_eq_take_iff.mpr ?_)
    rw [List.length_drop]
    omega
  · intro i c hi hc
    rw [hsame.load, place, hsame.vAddr]
    exact hcontent i c (by omega) hc

end IpcState

end LtMicros
