import LtMicros.IpcDelivery

/-!
# What a failing `AddBytes` leaves behind

`AddBytes` copies as it goes and takes pages as it needs them, and when a page
cannot be had it returns as it is. All calls are considered here, also those
that fail and those that read past what has been written.
-/

namespace LtMicros

open Lib

namespace IpcState

variable {s s' t : IpcState} {start f w n pos size fuel : ℕ} {message rest done : List U8}
  {status : KeStatus}

/-- The places of the buffer's bytes, page by page. -/
def cells (s : IpcState) : List ℕ :=
  s.buf.pagesList.flatMap fun page => List.range' (s.mem.vAddr page) pageSize

/-- The bytes that have been added and not read: those between the reader, which stands at the
first place as long as it has not begun, and the writer. -/
def unread (s : IpcState) : List (Outcome U8) :=
  ((s.cells.take (s.cells.length - (s.buf.currentWriteLimit - s.buf.currentPageWritePtr))).drop
    (s.buf.currentPageReadPtr - s.cells.headD 0)).map s.mem.load

/-- `s'` has the bytes to read and the pages that `s` has. -/
def SameStream (s s' : IpcState) : Prop :=
  s'.unread = s.unread ∧ s'.buf.pagesList = s.buf.pagesList

/-- There is nothing to add; or the pool has no page, and before one is needed nothing is put
where the reader still comes: the page being written is full, or the reader has come to its end. -/
def FailsClean (s : IpcState) (message : List U8) : Prop :=
  message = [] ∨ s.mem.k.gPagePool.availPageList = none ∧
    (s.buf.currentWriteLimit ≤ s.buf.currentPageWritePtr ∨
      s.buf.pagesList.length = 1 ∧ s.buf.currentPageReadPtr = s.buf.currentWriteLimit)

/-! ## The bytes to read -/

/-- A place in pages of `n` bytes. -/
theorem getElem?_pages {g : ℕ → ℕ} (hn : 0 < n) (l : List ℕ) (i : ℕ) :
    (l.flatMap fun page => List.range' (g page) n)[i]? =
      l[i / n]?.map fun page => g page + i % n := by
  induction l generalizing i with
  | nil => rfl
  | cons page l ih =>
    rw [List.flatMap_cons]
    rcases Nat.lt_or_ge i n with hlt | hge
    · rw [List.getElem?_append_left (by rwa [List.length_range']), List.getElem?_range' hlt,
        Nat.div_eq_of_lt hlt, Nat.mod_eq_of_lt hlt, Nat.one_mul]
      rfl
    · obtain ⟨j, rfl⟩ := Nat.exists_eq_add_of_le hge
      rw [List.getElem?_append_right (by rw [List.length_range']; exact hge), List.length_range',
        Nat.add_sub_cancel_left, ih, Nat.add_div_left _ hn, Nat.add_mod_left]
      rfl

theorem length_pages {g : ℕ → ℕ} (l : List ℕ) :
    (l.flatMap fun page => List.range' (g page) n).length = n * l.length := by
  induction l with
  | nil => rfl
  | cons page l ih =>
    rw [List.flatMap_cons, List.length_append, List.length_range', ih, List.length_cons,
      Nat.mul_succ, Nat.add_comm]

/-- The place of byte `4096 * f + i` of the stream. -/
theorem Written.cells_getElem? (hw : Written s start f w n) {i : ℕ} (hi : 4096 * f + i < n) :
    s.cells[i]? = some (s.place start (4096 * f + i)) := by
  have hroom := hw.room
  have hdiv : (4096 * f + i) / 4096 = f + i / 4096 := Nat.mul_add_div (by decide) f i
  rw [cells, pageSize, getElem?_pages (by decide), hw.list, List.getElem?_range' (by omega),
    place, hdiv, Nat.mul_add_mod, Nat.one_mul, Nat.add_assoc]
  rfl

theorem Written.cells_length (hw : Written s start f w n) :
    s.cells.length - (s.buf.currentWriteLimit - s.buf.currentPageWritePtr) = n - 4096 * f := by
  have hle := hw.le
  have hptr := hw.ptr
  have hroom := hw.room
  have hbegun := hw.begun
  rw [cells, length_pages, hw.list, List.length_range', hw.limit, pageSize]
  omega

/-- Where the reader stands. -/
theorem Laid.readPtr_sub (hl : Laid s start f w n pos) :
    4096 * f + (s.buf.currentPageReadPtr - s.cells.headD 0) = pos := by
  have hhead : s.cells.headD 0 = s.mem.vAddr (start + f) := by
    rw [cells, hl.written.head]
    rfl
  rw [hhead]
  rcases hl.reading with hu | hr
  · rw [hu.ptr, hu.first, hu.pos, Nat.zero_sub]
  · have hptr := hr.ptr
    have hlow := hr.low
    omega

/-- They are the bytes of the stream from `pos` on. -/
theorem Laid.unread_eq (hl : Laid s start f w n pos) :
    s.unread = (List.range' pos (n - pos)).map fun i => s.mem.load (s.place start i) := by
  have hpos := hl.readPtr_sub
  refine List.ext_getElem? fun i => ?_
  rw [unread, hl.written.cells_length, List.getElem?_map, List.getElem?_drop, List.getElem?_take,
    List.getElem?_map]
  split
  · rename_i hlt
    rw [hl.written.cells_getElem? (by omega), List.getElem?_range' (by omega), Nat.one_mul,
      ← Nat.add_assoc, hpos]
    rfl
  · rename_i hge
    rw [List.getElem?_eq_none (by rw [List.length_range']; omega)]
    rfl

theorem Laid.length_unread (hl : Laid s start f w n pos) : s.unread.length = n - pos := by
  rw [hl.unread_eq, List.length_map, List.length_range']

/-- As long as it is asked for no more than these, `ReadBytes` delivers them in order. -/
theorem Stream.readBytes_unread (hs : Stream s start f w n pos) (hsize : size ≤ s.unread.length)
    {bytes : List U8} {bytesRead : ℕ}
    (h : s.readBytes fuel size = .ret (.statusSuccess, bytes, bytesRead, s')) :
    bytes.map .ret = s.unread.take size ∧ s'.unread = s.unread.drop size := by
  rw [hs.laid.length_unread] at hsize
  obtain ⟨hlen, -, hreads, hsame, f', hs'⟩ := hs.readBytes (.inl hsize) h
  rw [Nat.min_eq_left hsize] at hlen
  rw [hs'.laid.unread_eq, hs.laid.unread_eq]
  constructor
  · rw [← List.map_take, List.take_range'_of_length_ge hsize, ← hlen]
    exact hreads.symm
  · rw [← List.map_drop, List.drop_range', hlen, Nat.mul_one, Nat.sub_sub]
    refine List.map_congr_left fun i _ => ?_
    rw [hsame.load, place, place, hsame.vAddr]

theorem Fresh.unread_eq (hf : Fresh s start) : s.unread = [] := by
  rw [unread, cells, hf.buf]
  rfl

/-! ## A failing call -/

/-- A failing call has left the pages and the bytes to read, or not. -/
theorem Laid.sameStream_iff (hl : Laid s start f w n pos) {w' : ℕ}
    (hl' : Laid s' start f w' (n + done.length) pos) (hle : w ≤ w')
    (hself : w' = w → done = [] → s' = s) :
    SameStream s s' ↔ w' = w ∧ (done = [] ∨ n + done.length ≤ pos) := by
  have hlength := hl.length_unread
  have hlength' := hl'.length_unread
  constructor
  · rintro ⟨hunread, hlist⟩
    have hlen := congrArg List.length hlist
    have hfw := hl.written.le
    rw [hl.written.list, hl'.written.list, List.length_range', List.length_range'] at hlen
    rw [hunread, hlength] at hlength'
    refine ⟨by omega, ?_⟩
    rw [← List.length_eq_zero_iff]
    omega
  · rintro ⟨hw, rfl | hpos⟩
    · rw [hself hw rfl]
      exact ⟨rfl, rfl⟩
    · refine ⟨?_, by rw [hl.written.list, hl'.written.list, hw]⟩
      rw [List.length_eq_zero_iff.mp (hlength'.trans (by omega)),
        List.length_eq_zero_iff.mp (hlength.trans (by omega))]

/-- The reader has come to the end of the page being written. -/
theorem Laid.atEnd_iff (hl : Laid s start f w n pos) :
    s.buf.pagesList.length = 1 ∧ s.buf.currentPageReadPtr = s.buf.currentWriteLimit ↔
      4096 * (w + 1) ≤ pos := by
  have hfw := hl.written.le
  rw [hl.written.list, hl.written.limit, List.length_range']
  rcases hl.reading with hu | hr
  · rw [hu.ptr, hu.pos]
    omega
  · have hptr := hr.ptr
    have hhigh := hr.high
    refine ⟨fun ⟨hone, hend⟩ => ?_, fun hpos => ?_⟩
    · obtain rfl : f = w := by omega
      omega
    · obtain rfl : f = w := by omega
      omega

/-- The page being written is full. -/
theorem Written.full_iff (hw : Written s start f w n) :
    s.buf.currentWriteLimit ≤ s.buf.currentPageWritePtr ↔ n = 4096 * (w + 1) := by
  have hptr := hw.ptr
  have hroom := hw.room
  rw [hw.limit]
  omega

/-- A message of some bytes, in a buffer with a page. -/
theorem Laid.addRest_sameStream_iff (hl : Laid s start f w n pos) (hne : message ≠ [])
    (h : s.addRest fuel message = .ret (status, s')) (hfailed : failed status = true) :
    SameStream s s' ↔ FailsClean s message := by
  obtain ⟨done, w', hl', hle, -, hfail⟩ := hl.addRest hne h
  obtain ⟨hlen, hpage, hself⟩ := hfail hfailed
  rw [hl.sameStream_iff hl' hle hself, FailsClean, hl.atEnd_iff, hl.written.full_iff, hpage]
  simp only [hne, false_or]
  refine and_congr_right fun havail => ?_
  -- all that there was room for has been copied
  obtain rfl := hpage.mpr havail
  rw [← List.length_eq_zero_iff]
  omega

/-- A buffer between two calls. -/
def Valid (start : ℕ) (s : IpcState) : Prop :=
  Fresh s start ∨ ∃ f w n pos, Laid s start f w n pos

/-- A failing `AddBytes` leaves the bytes to read and the pages as they were if and only if
it fails clean. -/
theorem Valid.sameStream_iff (hv : Valid start s)
    (h : s.addBytes fuel message = .ret (status, s')) (hfailed : failed status = true) :
    SameStream s s' ↔ FailsClean s message := by
  by_cases hne : message = []
  · subst hne
    rw [addBytes_nil] at h
    cases h
    exact iff_of_true ⟨rfl, rfl⟩ (.inl rfl)
  rcases hv with hf | ⟨f, w, n, pos, hl⟩
  · rcases hf.addBytes_cases hne h with ⟨havail, rfl, -⟩ | ⟨havail, t, ht, hrest⟩
    · refine iff_of_true ⟨rfl, rfl⟩ (.inr ⟨havail, .inl ?_⟩)
      rw [hf.buf]
      exact Nat.le_refl 0
    · obtain ⟨done, w', hl', -⟩ := ht.laid.addRest hne hrest
      refine iff_of_false (fun hsame => ?_) (fun hclean => ?_)
      · have hlist := hsame.2
        rw [hl'.written.head, hf.buf] at hlist
        cases hlist
      · rcases hclean with hnil | ⟨hnone, -⟩
        · exact hne hnil
        · exact havail hnone
  · rw [hl.addBytes_eq hne] at h
    exact hl.addRest_sameStream_iff hne h hfailed

/-- A message that the page being written has no room for fails on an empty pool, when the bytes
that there is room for can be written. -/
theorem Laid.addBytes_fails (hl : Laid s start f w n pos)
    (havail : s.mem.k.gPagePool.availPageList = none) (hrun : s.writeBytes message = .ret (rest, t))
    (hlong : 4096 * (w + 1) < n + message.length) :
    s.addBytes 1 message = .ret (.statusAllocFailed, t) := by
  have hroom := hl.written.room
  have hne : message ≠ [] := by
    rintro rfl
    rw [List.length_nil] at hlong
    omega
  obtain ⟨done, rfl, hl', -⟩ := hl.writeBytes hrun
  have hroom' := hl'.written.room
  cases rest with
  | nil =>
    rw [List.append_nil] at hlong
    omega
  | cons c rest =>
    have ht : t.allocateWritePage = .ret (.statusAllocFailed, t) := by
      have havail' := havail
      rw [← writeBytes_gPagePool hrun] at havail'
      rw [IpcState.allocateWritePage, IpcMem.allocatePage, pageAlloc_none havail']
      rfl
    have hturn : IpcState.addTurn (done ++ c :: rest, s) = .ret (.inr (.statusAllocFailed, t)) := by
      rw [IpcState.addTurn, hrun, Outcome.ret_bind]
      dsimp only
      rw [if_neg (List.cons_ne_nil c rest), ht]
      rfl
    rw [hl.addBytes_eq hne, IpcState.addRest, Outcome.loop_leave hturn]
    rfl

/-! ## The states between the calls -/

theorem Valid.addBytes (hv : Valid start s) (h : s.addBytes fuel message = .ret (status, s')) :
    Valid start s' := by
  by_cases hne : message = []
  · subst hne
    rw [addBytes_nil] at h
    cases h
    exact hv
  rcases hv with hf | ⟨f, w, n, pos, hl⟩
  · rcases hf.addBytes_cases hne h with ⟨-, rfl, -⟩ | ⟨-, t, ht, hrest⟩
    · exact .inl hf
    · obtain ⟨done, w', hl', -⟩ := ht.laid.addRest hne hrest
      exact .inr ⟨0, w', _, 0, hl'⟩
  · rw [hl.addBytes_eq hne] at h
    obtain ⟨done, w', hl', -⟩ := hl.addRest hne h
    exact .inr ⟨f, w', _, pos, hl'⟩

/-- From the page being written there is no next one to go on to. -/
theorem Laid.lt_of_nextReadPage (hl : Laid s start f w n pos)
    (h : s.nextReadPage fuel = .ret s') : f + 1 ≤ w := by
  obtain ⟨page, next, rest, k, hlist, -⟩ := nextReadPage_spec h
  have hlen := congrArg List.length (hlist.symm.trans hl.written.list)
  rw [List.length_cons, List.length_cons, List.length_range'] at hlen
  omega

theorem Laid.readRest (hl : Laid s start f w n pos) (hr : Reading s start f w pos)
    {bytes : List U8} {bytesRead : ℕ}
    (h : s.readRest fuel size = .ret (status, bytes, bytesRead, s')) :
    ∃ f' pos', Laid s' start f' w n pos' := by
  obtain ⟨⟨_, left, _⟩, hloop, h⟩ := Outcome.bind_eq_ret.mp h
  cases h
  refine Outcome.loop_invariant
    (I := fun x => ∃ f' pos', Laid x.2.2 start f' w n pos' ∧ Reading x.2.2 start f' w pos')
    (Q := fun x => ∃ f' pos', Laid x.2.2 start f' w n pos') ?_ ?_ ⟨f, pos, hl, hr⟩ hloop
  all_goals
    rintro ⟨out, size, x⟩ x' ⟨f', pos', hx, hrx⟩ hturn
    obtain ⟨⟨bytes, left', t⟩, hrun, hturn⟩ := Outcome.bind_eq_ret.mp hturn
    obtain ⟨-, -, hend, -⟩ := hrx.below_spec hx.written size
    obtain ⟨-, rfl, rfl, -, hx', hrx'⟩ := hx.readWhile hrx hrun
    dsimp only at hturn
    split at hturn
  · rename_i hleft
    split at hturn
    · rename_i hne
      obtain ⟨y, hnext, hturn⟩ := Outcome.bind_eq_ret.mp hturn
      cases hturn
      have hw0 : w ≠ 0 := by
        rintro rfl
        rw [hx'.written.write, hrx'.page] at hne
        exact hne rfl
      have hlt : x.below size < size := Nat.lt_of_sub_pos hleft
      obtain ⟨hy, hry⟩ := hx'.nextReadPage hrx' (hend hw0 hlt)
        (hx'.lt_of_nextReadPage hnext) hnext
      exact ⟨_, _, hy, hry⟩
    · cases hturn
  · cases hturn
  · split at hturn
    · obtain ⟨y, -, hturn⟩ := Outcome.bind_eq_ret.mp hturn
      cases hturn
    · cases hturn
      exact ⟨_, _, hx'⟩
  · cases hturn
    exact ⟨_, _, hx'⟩

theorem Valid.readBytes (hv : Valid start s) {bytes : List U8} {bytesRead : ℕ}
    (h : s.readBytes fuel size = .ret (status, bytes, bytesRead, s')) : Valid start s' := by
  rw [IpcState.readBytes] at h
  split at h
  · cases h
    exact hv
  rcases hv with hf | ⟨f, w, n, pos, hl⟩
  · rw [if_pos (by rw [hf.buf]; rfl), openRead, hf.buf] at h
    cases h
  rcases hl.reading with hu | hr
  · rw [if_pos hu.ptr] at h
    obtain ⟨t, hopen, h⟩ := Outcome.bind_eq_ret.mp h
    obtain ⟨hl', hr'⟩ := hl.openRead hu hopen
    obtain ⟨f', pos', hl''⟩ := hl'.readRest hr' h
    exact .inr ⟨f', w, n, pos', hl''⟩
  · rw [if_neg (hr.ptr_ne_zero hl.written)] at h
    obtain ⟨f', pos', hl'⟩ := hl.readRest hr h
    exact .inr ⟨f', w, n, pos', hl'⟩

end IpcState

open IpcState

/-- A call that returns, whatever its status, or what the rest of the system does: the pool goes
on serving. -/
inductive BufferCall : IpcState → IpcOp → IpcState → Prop
  | add {s s' : IpcState} {message : List U8} {fuel : ℕ} {status : KeStatus} :
      s.addBytes fuel message = .ret (status, s') → BufferCall s (.add message) s'
  | read {s s' : IpcState} {size fuel bytesRead : ℕ} {bytes : List U8} {status : KeStatus} :
      s.readBytes fuel size = .ret (status, bytes, bytesRead, s') → BufferCall s (.read size) s'
  | others {s : IpcState} {k : KernelMem} :
      k.gPagePool.Serves (s.buf.pagesList.map s.mem.vAddr) →
      BufferCall s .others ⟨s.buf, { s.mem with k }⟩

section

variable {s₀ s s' : IpcState} {op : IpcOp} {ops : List IpcOp} {start fuel : ℕ} {message : List U8}
  {status : KeStatus}

theorem IpcState.Valid.call (hv : Valid start s) (h : BufferCall s op s') : Valid start s' := by
  cases h with
  | add h => exact hv.addBytes h
  | read h => exact hv.readBytes h
  | others hpool =>
    rcases hv with hf | ⟨f, w, n, pos, hl⟩
    · refine .inl ⟨hf.buf, hf.heapTop, hf.freed, ?_⟩
      rw [hf.buf] at hpool
      exact hpool
    · exact .inr ⟨f, w, n, pos, hl.others hpool⟩

/-- In every state of a buffer, a failing `AddBytes` leaves the bytes to read and the pages as
they were if and only if it fails clean. -/
theorem addBytes_sameStream_iff (hfresh : Fresh s₀ start) (hrun : Run BufferCall s₀ ops s)
    (h : s.addBytes fuel message = .ret (status, s')) (hfailed : failed status = true) :
    SameStream s s' ↔ FailsClean s message :=
  IpcState.Valid.sameStream_iff
    (hrun.invariant (fun _ _ _ hv hcall => hv.call hcall) (.inl hfresh)) h hfailed

end

/-- The rest of the kernel has taken all pages of the pool. -/
def KernelMem.exhausted (k : KernelMem) : KernelMem :=
  { k with gPagePool := { k.gPagePool with availPageList := none } }

theorem KernelMem.exhausted_serves (k : KernelMem) (live : List ℕ) :
    k.exhausted.gPagePool.Serves live :=
  ⟨[], rfl, List.nodup_nil, fun _ hb => absurd hb List.not_mem_nil⟩

theorem BufferCall.exhausted (s : IpcState) :
    BufferCall s .others ⟨s.buf, { s.mem with k := s.mem.k.exhausted }⟩ :=
  .others (s.mem.k.exhausted_serves _)

/-- It leaves the tables and the pages that are held as they are. -/
theorem IpcMem.Holds.exhausted {m : IpcMem} {pds : List U32} {heap : U32 → Prop}
    {pages : List ℕ} (h : m.Holds pds heap pages) :
    IpcMem.Holds { m with k := m.k.exhausted } pds heap pages := by
  obtain ⟨howned, hheld, hnodup⟩ := h
  have hs := howned.separate.spaces
  have hnone (b : ℕ) (hb : b ∈ ([] : List ℕ)) : False := List.not_mem_nil hb
  have hpool : m.k.exhausted.gPagePool.InOrder :=
    ⟨howned.pool.nbPages, howned.pool.addr, ⟨[], rfl, fun b hb => (hnone b hb).elim⟩,
      howned.pool.next, howned.pool.used⟩
  refine ⟨⟨⟨?_, howned.separate.unshared⟩, hpool, howned.area, howned.exclusive⟩, ?_, hnodup⟩
  · exact ⟨hs.reserved, hpool.availInPool, hs.nodup, hs.directories, hs.pages, hs.tables,
      hs.pageZero, hs.pageOne, hs.current⟩
  · intro p hp
    obtain ⟨hinUse, hentry, hhigh, hdirectory, htable⟩ := hheld p hp
    exact ⟨hinUse, hentry, hhigh, hdirectory, htable⟩

/-- A message of at most a page is added to a new buffer, and then the pool is exhausted: a
further message that does not fit into the page fails. -/
theorem boot_then_exhausted {p : PagePool} (hp : PagePool.bss.init kernelInfo = .ret p)
    {message more : List U8} (hne : message ≠ []) (hlen : message.length ≤ 4096)
    (hlong : 4096 < message.length + more.length) :
    ∃ s s', Run BufferCall (bootIpc p) [.add message, .others] s ∧
      Laid s 0 0 0 message.length 0 ∧ s.mem.k.gPagePool.availPageList = none ∧
      s.addBytes 1 more = .ret (.statusAllocFailed, s') := by
  have hfresh := bootIpc_fresh hp
  have howned := bootIpc_owned hp
  have hsup : Supplied (bootIpc p) [] (0 + 1 + 1) := (bootIpc_supplied hp).mono (by decide)
  have hpages : (bootIpc p).pagesFor message ≤ (bootIpc p).mem.k.gPmm.freePages.card := by
    have hfree := (bootIpc_supplied hp).supply.pages
    show (message.length - _ + 4095) / 4096 ≤ (bootIpc p).mem.k.gPmm.freePages.card
    omega
  obtain ⟨s₁, live, hadd, -⟩ := hsup.addBytes hfresh howned hne (by omega)
  obtain ⟨w, hs, hlen'⟩ := hfresh.addBytes_filled howned hpages hadd
  obtain rfl : w = 0 := by omega
  have hfull := hs.others hs.holds.exhausted fun _ _ _ _ => rfl
  obtain ⟨rest, t, hwrite⟩ := hfull.writeBytes_returns more
  have hfail := hfull.stream.laid.addBytes_fails rfl hwrite (by omega)
  exact ⟨_, t, (Run.single (.add hadd)).snoc (.exhausted s₁), hfull.stream.laid, rfl, hfail⟩

/-- A page of bytes is pending and the page being written is full: the byte 7 is refused, and
the buffer stays as it is. -/
theorem boot_sameStream : ∃ p s s', PagePool.bss.init kernelInfo = .ret p ∧
    Run BufferCall (bootIpc p) [.add (List.replicate 4096 5), .others] s ∧
    s.unread.length = 4096 ∧ s.addBytes 1 [7] = .ret (.statusAllocFailed, s') ∧
    SameStream s s' := by
  obtain ⟨p, hp⟩ := boot_init
  generalize hmessage : (List.replicate 4096 5 : List U8) = message
  have hlength : message.length = 4096 := by rw [← hmessage, List.length_replicate]
  have hne : message ≠ [] := List.ne_nil_of_length_pos (by omega)
  obtain ⟨s, s', hrun, hl, havail, hfail⟩ := boot_then_exhausted hp hne hlength.le
    (show 4096 < message.length + ([7] : List U8).length by rw [hlength]; decide)
  refine ⟨p, s, s', hp, hrun, ?_, hfail, ?_⟩
  · rw [hl.length_unread, hlength]
  · refine (addBytes_sameStream_iff (bootIpc_fresh hp) hrun hfail rfl).mpr (.inr ⟨havail, .inl ?_⟩)
    rw [hl.written.full_iff, hlength]

/-- Three bytes have been added, and 4093 of the next 4094 are put behind them before the page
for the last one is not to be had. -/
theorem boot_not_sameStream : ∃ p s s', PagePool.bss.init kernelInfo = .ret p ∧
    Run BufferCall (bootIpc p) [.add [1, 2, 3], .others] s ∧
    s.addBytes 1 (List.replicate 4094 7) = .ret (.statusAllocFailed, s') ∧ ¬ SameStream s s' := by
  obtain ⟨p, hp⟩ := boot_init
  generalize hmore : (List.replicate 4094 7 : List U8) = more
  have hlength : more.length = 4094 := by rw [← hmore, List.length_replicate]
  have hthree : ([1, 2, 3] : List U8).length = 3 := rfl
  obtain ⟨s, s', hrun, hl, -, hfail⟩ := boot_then_exhausted hp (List.cons_ne_nil 1 [2, 3])
    (by decide) (show 4096 < _ + more.length by omega)
  refine ⟨p, s, s', hp, hrun, hfail, fun hsame => ?_⟩
  have hclean := (IpcState.Valid.sameStream_iff (.inr ⟨_, _, _, _, hl⟩) hfail rfl).mp hsame
  rw [FailsClean, hl.atEnd_iff, hl.written.full_iff] at hclean
  rcases hclean with hnil | ⟨-, hfull | hend⟩
  · rw [hnil] at hlength
    cases hlength
  · omega
  · omega

end LtMicros
