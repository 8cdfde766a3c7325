import LtMicros.IpcPages

/-!
# When the calls of an IPC buffer succeed

`AddBytes` succeeds as long as there are the pages for the message, and `ReadBytes` as
long as it can give back the pages that it leaves.
-/

namespace LtMicros

open Lib Lib.Frames

namespace IpcState

variable {s s' : IpcState} {pds : List U32} {heap : U32 → Prop} {start f w pos n m fuel i : ℕ}
  {added message rest : List U8} {live : List Page}

/-- There are a physical page and a block for each of `n` pages of the buffer, and its own
pages are live. -/
structure Supplied (s : IpcState) (live : List Page) (n : ℕ) : Prop where
  inv : PoolInv ⟨s.mem.k, live⟩
  supply : s.mem.k.Supply n n
  mine : ∀ p ∈ s.buf.pagesList, p < s.mem.heapTop ∧ s.mem.pages p ∈ live

theorem Supplied.mono (h : Supplied s live n) (hle : m ≤ n) : Supplied s live m :=
  ⟨h.inv, h.supply.mono hle hle, h.mine⟩

/-! ## Writing -/

/-- `AllocateWritePage` gets one of the pages. -/
theorem Supplied.allocateWritePage (h : Supplied s live (n + 1)) (ho : Owned ⟨s.mem.k, pds⟩ heap) :
    ∃ s' page, s.allocateWritePage = .ret (.statusSuccess, s') ∧
      Supplied s' (page :: live) n := by
  obtain ⟨a, ha⟩ := h.supply.block
  have hs := ho.separate.spaces
  have hin := hs.pool.head ha
  have hr := pageAlloc_eq hs.currentDirectory ha hin
  have hne : (s.mem.k.gPagePool.blocks a).addr ≠ 0 := by
    intro h0
    have hlow := hin.2.1
    rw [h0] at hlow
    exact absurd hlow (by decide)
  generalize hpage : (⟨_, _⟩ : Page) = page at hr
  have haddr : page.vAddr ≠ 0 := by
    rw [← hpage]
    exact hne
  have halloc : s.mem.allocatePage = .ret (some s.mem.heapTop, { s.mem with
      k := s.mem.k.afterPageAlloc a
      pages := Function.update s.mem.pages s.mem.heapTop page
      heapTop := s.mem.heapTop + 1 }) := by
    rw [IpcMem.allocatePage, hr]
    exact if_neg haddr
  refine ⟨_, page, by rw [IpcState.allocateWritePage, halloc]; rfl, h.inv.allocate ha hr,
    (h.supply.afterPageAlloc ha).mono (Nat.le_refl n) (Nat.le_refl n), fun p hp => ?_⟩
  show p < s.mem.heapTop + 1 ∧ Function.update s.mem.pages s.mem.heapTop page p ∈ page :: live
  rcases List.mem_append.mp hp with hp | hp
  · obtain ⟨hlt, hmem⟩ := h.mine p hp
    rw [Function.update_of_ne (Nat.ne_of_lt hlt)]
    exact ⟨by omega, List.mem_cons_of_mem _ hmem⟩
  · rw [List.mem_singleton.mp hp, Function.update_self]
    exact ⟨Nat.lt_succ_self _, List.mem_cons_self⟩

/-- A byte is written where there is room. -/
theorem Filled.store (h : Filled s pds heap start f w added pos)
    (hroom : s.buf.currentPageWritePtr < s.buf.currentWriteLimit) (c : U8) :
    ∃ s', s.writeByte c = .ret s' := by
  obtain ⟨hs, hholds, -⟩ := h
  obtain ⟨hlt, -⟩ := hs.written.below hroom
  obtain ⟨hmem, -, hframe⟩ := hs.written.inPage (Nat.le_trans hs.laid.low hs.pos_le) hlt
  have hwrite := (hholds.held _ hmem).writeByte hholds.owned hframe c
  rw [hs.written.place_eq hlt] at hwrite
  rw [IpcState.writeByte, IpcMem.store, hwrite]
  exact ⟨_, rfl⟩

theorem Filled.writeBytes_returns (h : Filled s pds heap start f w added pos)
    (message : List U8) : ∃ rest s', s.writeBytes message = .ret (rest, s') := by
  induction message generalizing s added with
  | nil => exact ⟨[], s, rfl⟩
  | cons c message ih =>
    rw [IpcState.writeBytes]
    split
    · rename_i hroom
      obtain ⟨t, hbyte⟩ := h.store hroom c
      obtain ⟨ht, -⟩ := h.writeByte hroom hbyte
      rw [hbyte, Outcome.ret_bind]
      exact ih ht
    · exact ⟨c :: message, s, rfl⟩

theorem Supplied.writeBytes (h : Supplied s live n) (hr : s.writeBytes message = .ret (rest, s')) :
    Supplied s' live n := by
  induction message generalizing s with
  | nil =>
    cases hr
    exact h
  | cons c message ih =>
    rw [IpcState.writeBytes] at hr
    split at hr
    · obtain ⟨t, hbyte, hr⟩ := Outcome.bind_eq_ret.mp hr
      obtain ⟨mmu, -, rfl⟩ := writeByte_spec hbyte
      refine ih ?_ hr
      exact ⟨h.inv, ⟨h.supply.pages, h.supply.blocks⟩, h.mine⟩
    · cases hr
      exact h

theorem addTurn_leave (h : s.writeBytes message = .ret ([], s')) :
    addTurn (message, s) = .ret (.inr (.statusSuccess, s')) := by
  rw [addTurn, h]
  rfl

theorem addTurn_again {t : IpcState} (h : s.writeBytes message = .ret (rest, t)) (hne : rest ≠ [])
    (halloc : t.allocateWritePage = .ret (.statusSuccess, s')) :
    addTurn (message, s) = .ret (.inl (rest, s')) := by
  obtain ⟨c, rest, rfl⟩ := List.exists_cons_of_ne_nil hne
  rw [addTurn, h]
  simp only [halloc, Outcome.ret_bind, failed]
  rfl

/-- The loop of `AddBytes` comes to its end with the pages for the message. -/
theorem Supplied.addTurns (h : Supplied s live (n + m))
    (hs : Filled s pds heap start f w added pos)
    (hroom : added.length + message.length ≤ 4096 * (w + 1 + n)) :
    ∃ s' live', Outcome.loop addTurn (n + 1) (message, s) = .ret (.statusSuccess, s') ∧
      Supplied s' live' m := by
  induction n generalizing s w added message live with
  | zero =>
    obtain ⟨rest, t, hrun⟩ := hs.writeBytes_returns message
    obtain ⟨done, rfl, ht, -, -, hstop⟩ := hs.writeBytes hrun
    have hrest : rest = [] := by
      refine Classical.byContradiction fun hne => ?_
      have hfull := ht.stream.written.full (hstop hne)
      have hpos := List.length_pos_iff.mpr hne
      simp only [List.length_append] at hfull hroom
      omega
    subst hrest
    exact ⟨t, live, Outcome.loop_leave (addTurn_leave hrun) 0, (h.writeBytes hrun).mono (by omega)⟩
  | succ n ih =>
    obtain ⟨rest, t, hrun⟩ := hs.writeBytes_returns message
    obtain ⟨done, rfl, ht, -, -, hstop⟩ := hs.writeBytes hrun
    have hsup := h.writeBytes hrun
    by_cases hne : rest = []
    · subst hne
      exact ⟨t, live, Outcome.loop_leave (addTurn_leave hrun) _, hsup.mono (by omega)⟩
    · rw [show n + 1 + m = n + m + 1 by omega] at hsup
      obtain ⟨t', page, halloc, hsup'⟩ := hsup.allocateWritePage ht.holds.owned
      rw [Outcome.loop_again (addTurn_again hrun hne halloc)]
      have hfree := hsup.supply.notExhausted.1
      refine ih hsup' (ht.allocateWritePage (hstop hne) hfree halloc).1 ?_
      simp only [List.length_append] at hroom ⊢
      omega

/-- The rest of `AddBytes` succeeds. -/
theorem Supplied.addRest (h : Supplied s live (n + m))
    (hs : Filled s pds heap start f w added pos)
    (hroom : added.length + message.length ≤ 4096 * (w + 1 + n)) :
    ∃ s' live', s.addRest (n + 1) message = .ret (.statusSuccess, s') ∧
      Supplied s' live' m := by
  obtain ⟨s', live', hloop, hs'⟩ := h.addTurns hs hroom
  refine ⟨{ s' with buf := { s'.buf with readyToReadEvent := s'.buf.readyToReadEvent.signal } },
    live', ?_, hs'.inv, hs'.supply, hs'.mine⟩
  rw [IpcState.addRest, hloop]
  rfl

/-- The first `AddBytes` succeeds with the pages for the message. -/
theorem Supplied.addBytes (h : Supplied s live (n + 1 + m)) (hf : Fresh s start)
    (ho : Owned ⟨s.mem.k, pds⟩ heap) (hne : message ≠ [])
    (hroom : message.length ≤ 4096 * (n + 1)) :
    ∃ s' live', s.addBytes (n + 1) message = .ret (.statusSuccess, s') ∧
      Supplied s' live' m := by
  rw [show n + 1 + m = n + m + 1 by omega] at h
  obtain ⟨t, page, halloc, ht⟩ := h.allocateWritePage ho
  obtain ⟨hfilled, -⟩ := hf.filled ho h.supply.notExhausted.1 halloc
  have hroom' : ([] : List U8).length + message.length ≤ 4096 * (0 + 1 + n) := by
    rw [List.length_nil]
    omega
  obtain ⟨s', live', hrest, hs'⟩ := ht.addRest hfilled hroom'
  refine ⟨s', live', ?_, hs'⟩
  rw [IpcState.addBytes, if_neg hne, if_pos (by rw [hf.buf]; rfl), halloc]
  exact hrest

/-- So does a further one. -/
theorem Supplied.addMore (h : Supplied s live (n + m))
    (hs : Filled s pds heap start f w added pos) (hne : message ≠ [])
    (hroom : added.length + message.length ≤ 4096 * (w + 1 + n)) :
    ∃ s' live', s.addBytes (n + 1) message = .ret (.statusSuccess, s') ∧
      Supplied s' live' m := by
  rw [hs.stream.laid.addBytes_eq hne]
  exact h.addRest hs hroom

/-! ## Reading -/

/-- The reader can begin. -/
theorem Supplied.begin (h : Supplied s live m) (hs : Filled s pds heap start f w added pos)
    (hn : n ≠ 0) : ∃ t, Supplied t live m ∧ Filled t pds heap start f w added pos ∧
      Reading t start f w pos ∧ ∀ fuel, s.readBytes fuel n = t.readRest fuel n := by
  obtain ⟨hs, hholds, hcontent⟩ := hs
  rcases hs.reading with hu | hr
  · have hopen : ∃ t, s.openRead = .ret t ∧ t.mem = s.mem ∧
        t.buf.pagesList = s.buf.pagesList := by
      obtain ⟨page, hpage⟩ : ∃ page, s.buf.pagesList.head? = some page :=
        ⟨_, congrArg List.head? hs.written.head⟩
      rw [openRead, hpage]
      exact ⟨_, rfl, rfl, rfl⟩
    obtain ⟨t, hopen, hmem, hlist⟩ := hopen
    obtain ⟨hs', hr'⟩ := hs.openRead hu hopen
    refine ⟨t, ⟨?_, ?_, ?_⟩, ⟨hs', ?_, ?_⟩, hr', fun fuel => ?_⟩
    · rw [hmem]
      exact h.inv
    · rw [hmem]
      exact h.supply
    · rw [hmem, hlist]
      exact h.mine
    · rwa [hmem, hlist]
    · intro i c hi hc
      rw [place, hmem]
      exact hcontent i c hi hc
    · rw [IpcState.readBytes, if_neg hn, if_pos hu.ptr, hopen, Outcome.ret_bind]
  · refine ⟨s, h, ⟨hs, hholds, hcontent⟩, hr, fun fuel => ?_⟩
    rw [IpcState.readBytes, if_neg hn, if_neg (hr.ptr_ne_zero hs.written)]

/-- `ReadBytes` can go on to the next page while the pool has a page. -/
theorem Supplied.nextReadPage (h : Supplied s live (m + 1)) (hw : Written s start f w n)
    (hfw : f < w) : ∃ fuel s', ∀ j, s.nextReadPage (fuel + j) = .ret s' := by
  obtain ⟨a, ha⟩ := h.supply.block
  have hhead := hw.head
  have hmine := (h.mine (start + f) (by rw [hhead]; exact List.mem_cons_self)).2
  obtain ⟨fuel, k, hfree⟩ := h.inv.free_returns hmine ha
  obtain ⟨next, rest, htail⟩ : ∃ next rest, List.range' (start + f + 1) (w - f) = next :: rest := by
    rw [show w - f = w - (f + 1) + 1 by omega, List.range'_succ]
    exact ⟨_, _, rfl⟩
  rw [htail] at hhead
  have hstep (j : ℕ) : s.nextReadPage (fuel + j) = .ret (IpcState.readFrom
      { buf := { s.buf with pagesList := next :: rest }
        mem := { s.mem with k, freed := s.mem.freed ++ [start + f] } }
      next (add32 (s.mem.vAddr next) pageSize)) := by
    rw [IpcState.nextReadPage, hhead, List.head?_cons, Outcome.ofOption_some, Outcome.ret_bind,
      show s.mem.k.pageFree (fuel + j) _ = _ from Outcome.loop_mono hfree j]
    rfl
  exact ⟨fuel, _, hstep⟩

/-- The inner loop of `ReadBytes` comes to its end in readable memory. -/
theorem readWhile_returns (hlimit : s.buf.currentReadLimit < 2 ^ 32)
    (hload : ∀ i, s.buf.currentPageReadPtr ≤ i → i < s.buf.currentReadLimit →
      ∃ byte, s.mem.load i = .ret byte) :
    ∃ bytes left s', s.readWhile n = .ret (bytes, left, s') := by
  induction n generalizing s with
  | zero => exact ⟨[], 0, s, rfl⟩
  | succ n ih =>
    rw [readWhile]
    split
    · rename_i hlt
      obtain ⟨byte, hbyte⟩ := hload _ (Nat.le_refl _) hlt
      have hnext := add32_of_lt (a := s.buf.currentPageReadPtr) (b := 1) (by omega)
      rw [hbyte, Outcome.ret_bind, hnext]
      obtain ⟨bytes, left, t, hrest⟩ := ih (s := s.passed 1) hlimit fun i hi hi' =>
        hload i (Nat.le_of_succ_le hi) hi'
      exact ⟨byte :: bytes, left, t, congrArg (· >>= _) hrest⟩
    · exact ⟨[], n + 1, s, rfl⟩

/-- All of the page that is read from is readable, also where nothing has been written. -/
theorem Holds.readWhile (h : s.mem.Holds pds heap s.buf.pagesList) (hw : Written s start f w m)
    (hr : Reading s start f w pos) (n : ℕ) :
    ∃ bytes left s', s.readWhile n = .ret (bytes, left, s') := by
  apply readWhile_returns (hr.limit_lt hw)
  intro i hi hi'
  have hptr := hr.ptr
  have hlow := hr.low
  have hle := hw.le
  have hlimit : s.buf.currentReadLimit ≤ s.mem.vAddr (start + f) + 4096 := by
    have hroom := hw.room
    have hwrite := hw.ptr
    rw [hr.limit]
    split
    · rename_i hw0
      subst hw0
      obtain rfl : f = 0 := Nat.le_zero.mp hle
      omega
    · exact Nat.le_refl _
  -- the address is that of a byte of page `f`
  obtain ⟨j, hj, rfl⟩ : ∃ j < 4096, i = s.place start (4096 * f + j) := by
    refine ⟨i - s.mem.vAddr (start + f), by omega, ?_⟩
    rw [place, show (4096 * f + (i - s.mem.vAddr (start + f))) / 4096 = f by omega]
    omega
  obtain ⟨hmem, -, hframe⟩ := hw.inPage (i := 4096 * f + j) (by omega) (by omega)
  exact ⟨_, (h.held _ hmem).readByte h.owned hframe⟩

/-- The last turn of `ReadBytes`: all that is asked for lies below the limit. -/
theorem Filled.readTurn_leave (h : Filled s pds heap start f w added pos)
    (hr : Reading s start f w pos) (hbelow : s.below n = n) (fuel : ℕ) (out : List U8) :
    ∃ bytes, bytes.length = n ∧
      IpcState.readTurn fuel (out, n, s) = .ret (.inr (out ++ bytes, 0, s.passed n)) := by
  obtain ⟨bytes, left, t, hrun⟩ := Holds.readWhile h.holds h.stream.written hr n
  obtain ⟨hlen, rfl, rfl, -⟩ := readWhile_spec (hr.limit_lt h.stream.written) hrun
  rw [hbelow] at hlen hrun
  rw [Nat.sub_self] at hrun
  refine ⟨bytes, hlen, ?_⟩
  rw [IpcState.readTurn, hrun]
  rfl

/-- `ReadBytes` succeeds within the page that is read from. -/
theorem Supplied.readBytes (h : Supplied s live m) (hs : Filled s pds heap start f w added pos)
    (hn : n ≠ 0) (hle : pos + n ≤ added.length) (hpage : pos + n ≤ 4096 * (f + 1)) :
    ∃ bytes s', s.readBytes 1 n = .ret (.statusSuccess, bytes, n, s') ∧ Supplied s' live m := by
  obtain ⟨t, hsup, ht, hr, hrun⟩ := h.begin hs hn
  obtain ⟨hbelow, -, hmany, hone⟩ := hr.below_spec ht.stream.written n
  have heq : t.below n = n := by
    have hpos := ht.stream.pos_le
    by_cases hlt : t.below n < n
    · by_cases hw0 : w = 0
      · obtain ⟨-, hend⟩ := hone hw0 hpos
        have hend := hend hlt
        omega
      · have hend := hmany hw0 hlt
        omega
    · omega
  obtain ⟨bytes, -, hturn⟩ := ht.readTurn_leave hr heq 1 []
  refine ⟨[] ++ bytes, t.passed n, ?_, hsup.inv, hsup.supply, hsup.mine⟩
  rw [hrun, readRest, Outcome.loop_leave hturn]
  rfl

/-- A turn of `ReadBytes` that goes on to the next page. -/
theorem readTurn_again {out bytes : List U8} {left : ℕ} {t : IpcState}
    (hrun : s.readWhile n = .ret (bytes, left, t)) (hleft : 0 < left)
    (hne : t.buf.currentPageWrite ≠ t.buf.currentPageRead)
    (hnext : t.nextReadPage fuel = .ret s') :
    readTurn fuel (out, n, s) = .ret (.inl (out ++ bytes, left, s')) := by
  rw [readTurn, hrun, Outcome.ret_bind]
  dsimp only
  rw [if_pos hleft, if_pos hne, hnext]
  rfl

/-- When the reader comes to the page being written in the middle of a call, it
reads on in that page, whether the bytes have been written or not. -/
theorem Supplied.readBytes_over (h : Supplied s live (m + 1))
    (hs : Filled s pds heap start f (f + 1) added pos) (hpage : pos ≤ 4096 * (f + 1))
    (hlow : 4096 * (f + 1) < pos + n) (hhigh : pos + n ≤ 4096 * (f + 1 + 1)) :
    ∃ fuel bytes s', bytes.length = n ∧
      s.readBytes fuel n = .ret (.statusSuccess, bytes, n, s') := by
  obtain ⟨t, hsup, ht, hr, hbegin⟩ := h.begin hs (n := n) (by omega)
  obtain ⟨hle, hend, hmany, -⟩ := hr.below_spec ht.stream.written n
  have hi := hmany (Nat.succ_ne_zero f) (by omega)
  obtain ⟨first, left, t', hrun⟩ := Holds.readWhile ht.holds ht.stream.written hr n
  obtain ⟨hlen, rfl, rfl, -, ht', hr'⟩ := ht.stream.laid.readWhile hr hrun
  have hsup' : Supplied (t.passed (t.below n)) live (m + 1) :=
    ⟨hsup.inv, hsup.supply, hsup.mine⟩
  obtain ⟨fuel, u, hnext⟩ := hsup'.nextReadPage ht'.written (Nat.lt_succ_self f)
  obtain ⟨hu, hru⟩ := ht'.nextReadPage hr' hi (Nat.le_refl _) (hnext 0)
  have hholds : u.mem.Holds pds heap u.buf.pagesList :=
    holds_nextReadPage (s := t.passed (t.below n)) ht.holds (hnext 0)
  -- the rest lies below the end of the page being written
  have hrest : u.below (n - t.below n) = n - t.below n := by
    obtain ⟨hle', -, hmany', -⟩ := hru.below_spec hu.written (n - t.below n)
    by_cases hlt : u.below (n - t.below n) < n - t.below n
    · have hend' := hmany' (Nat.succ_ne_zero f) hlt
      omega
    · omega
  have hne : (t.passed (t.below n)).buf.currentPageWrite ≠
      (t.passed (t.below n)).buf.currentPageRead := by
    rw [ht'.written.write, hr'.page]
    simp
  have hfirst : readTurn (fuel + 2) ([], n, t) =
      .ret (.inl ([] ++ first, n - t.below n, u)) :=
    readTurn_again hrun (by omega) hne (hnext 2)
  obtain ⟨last, left', u', hrun'⟩ := Holds.readWhile hholds hu.written hru (n - t.below n)
  obtain ⟨hlen', rfl, rfl, -⟩ := readWhile_spec (hru.limit_lt hu.written) hrun'
  rw [hrest] at hlen' hrun'
  rw [Nat.sub_self] at hrun'
  have hlast : readTurn (fuel + 2) ([] ++ first, n - t.below n, u) =
      .ret (.inr ([] ++ first ++ last, 0, u.passed (n - t.below n))) := by
    rw [IpcState.readTurn, hrun']
    rfl
  refine ⟨fuel + 2, [] ++ first ++ last, u.passed (n - t.below n), ?_, ?_⟩
  · rw [List.length_append, List.nil_append, hlen, hlen']
    omega
  · rw [hbegin, readRest, Outcome.loop_again hfirst, Outcome.loop_leave hlast]
    rfl

end IpcState

/-! ## The kernel as it starts -/

/-- A new buffer in the kernel as it starts, with 64 megabytes of memory. -/
def bootIpc (p : PagePool) : IpcState where
  buf := .init
  mem := { pages := fun _ => ⟨0, 0⟩, heapTop := 0, k := (bootWorld p 0x10000).s.mem, freed := [] }

section Boot

variable {p : PagePool} (hp : PagePool.bss.init kernelInfo = .ret p)

include hp

theorem bootIpc_fresh : IpcState.Fresh (bootIpc p) 0 :=
  ⟨rfl, rfl, rfl, PagePool.serves_init hp (by decide) (by decide) (by decide) (by decide)⟩

/-- There is no process yet, and nothing on the heap. -/
theorem bootIpc_owned : Owned ⟨(bootIpc p).mem.k, []⟩ (bootWorld p 0x10000).HeapPage :=
  (HoldingInv.boot (boot_bootWorld hp 0x10000)).owned

/-- All pages of the pool are there for it. -/
theorem bootIpc_supplied : IpcState.Supplied (bootIpc p) [] 2048 :=
  ⟨.init hp rfl _ _, (supply_bootWorld_64 hp).mono (by decide) (Nat.le_refl _),
    fun p hp => absurd hp List.not_mem_nil⟩

end Boot

end LtMicros
