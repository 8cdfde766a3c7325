import LtMicros.IpcBuffer
import LtMicros.PagePoolServes

/-!
# The bytes in an IPC buffer

The pages of a buffer are numbered from `start` on: the pages before `f` have
been given back, `f` is the first of the list, and `w` is the one being written.
Byte `i` of the stream is in page `i / 4096`. How many bytes there are and where
does not depend on what they are.
-/

namespace LtMicros

open Lib

namespace IpcState

variable {s s' : IpcState} {start f w n pos fuel : ℕ} {message rest : List U8} {c : U8}

/-- The place of byte `i` of the stream. -/
def place (s : IpcState) (start i : ℕ) : ℕ := s.mem.vAddr (start + i / 4096) + i % 4096

/-- The pages of the list, and how far they are written: `n` bytes have been added. -/
structure Written (s : IpcState) (start f w n : ℕ) : Prop where
  le : f ≤ w
  heapTop : s.mem.heapTop = start + w + 1
  list : s.buf.pagesList = List.range' (start + f) (w + 1 - f)
  freed : s.mem.freed = List.range' start f
  addr : ∀ j, f ≤ j → j ≤ w → PageAddr (s.mem.vAddr (start + j))
  inj : ∀ i j, f ≤ i → i ≤ w → f ≤ j → j ≤ w →
    s.mem.vAddr (start + i) = s.mem.vAddr (start + j) → i = j
  pool : s.mem.k.gPagePool.Serves (s.buf.pagesList.map s.mem.vAddr)
  write : s.buf.currentPageWrite = some (start + w)
  limit : s.buf.currentWriteLimit = s.mem.vAddr (start + w) + 4096
  begun : 4096 * w ≤ n
  ptr : s.buf.currentPageWritePtr + 4096 * w = s.mem.vAddr (start + w) + n
  room : n ≤ 4096 * (w + 1)

/-- The reader has not begun. -/
structure Unread (s : IpcState) (f pos : ℕ) : Prop where
  ptr : s.buf.currentPageReadPtr = 0
  page : s.buf.currentPageRead = none
  first : f = 0
  pos : pos = 0

/-- The reader stands at byte `pos`, in the first page of the list. Its limit
follows the writer only in the page it has begun with. -/
structure Reading (s : IpcState) (start f w pos : ℕ) : Prop where
  page : s.buf.currentPageRead = some start
  low : 4096 * f ≤ pos
  high : pos ≤ 4096 * (f + 1)
  ptr : s.buf.currentPageReadPtr + 4096 * f = s.mem.vAddr (start + f) + pos
  limit : s.buf.currentReadLimit =
    if w = 0 then s.buf.currentPageWritePtr else s.mem.vAddr (start + f) + 4096

/-- Both. -/
structure Laid (s : IpcState) (start f w n pos : ℕ) : Prop where
  written : Written s start f w n
  reading : Unread s f pos ∨ Reading s start f w pos

/-- Both, with no byte read that has not been written. -/
structure Stream (s : IpcState) (start f w n pos : ℕ) : Prop where
  written : Written s start f w n
  reading : Unread s f pos ∨ Reading s start f w pos
  pos_le : pos ≤ n

theorem Stream.laid (hs : Stream s start f w n pos) : Laid s start f w n pos :=
  ⟨hs.written, hs.reading⟩

theorem Laid.stream (hl : Laid s start f w n pos) (hpos : pos ≤ n) : Stream s start f w n pos :=
  ⟨hl.written, hl.reading, hpos⟩

/-- A buffer after `Init`. -/
structure Fresh (s : IpcState) (start : ℕ) : Prop where
  buf : s.buf = .init
  heapTop : s.mem.heapTop = start
  freed : s.mem.freed = []
  pool : s.mem.k.gPagePool.Serves []

/-! ## Writing -/

/-- The addresses of the pages when one more is put on the heap. -/
theorem vAddr_update {m m' : IpcMem} {page : Page} {top : ℕ}
    (h : m'.pages = Function.update m.pages top page) :
    m'.vAddr top = page.vAddr.toNat ∧ ∀ p, p ≠ top → m'.vAddr p = m.vAddr p := by
  unfold IpcMem.vAddr
  rw [h, Function.update_self]
  refine ⟨rfl, fun p hp => ?_⟩
  rw [Function.update_of_ne hp]

/-- What `AllocatePage` does when it gives a page. -/
theorem allocateWritePage_spec {live : List ℕ} (hpool : s.mem.k.gPagePool.Serves live)
    (h : s.allocateWritePage = .ret (.statusSuccess, s')) :
    ∃ page, s.mem.k.pageAlloc = .ret (page, s'.mem.k) ∧ PageAddr page.vAddr.toNat ∧
      page.vAddr.toNat ∉ live ∧ s'.mem.k.gPagePool.Serves (page.vAddr.toNat :: live) ∧
      s'.mem.heapTop = s.mem.heapTop + 1 ∧ s'.mem.freed = s.mem.freed ∧
      s'.mem.pages = Function.update s.mem.pages s.mem.heapTop page ∧
      s'.buf = { s.buf with
        currentPageWrite := some s.mem.heapTop
        currentPageWritePtr := page.vAddr.toNat
        currentWriteLimit := page.vAddr.toNat + 4096
        pagesList := s.buf.pagesList ++ [s.mem.heapTop] } := by
  obtain ⟨⟨newPage, mem⟩, halloc, h⟩ := Outcome.bind_eq_ret.mp h
  obtain ⟨⟨page, k⟩, hpage, halloc⟩ := Outcome.bind_eq_ret.mp halloc
  dsimp only at halloc
  split at halloc
  · cases halloc
    cases h
  · rename_i hne
    obtain ⟨haddr, hlive, hserves⟩ := pageAlloc_serves hpool hpage hne
    cases halloc
    cases h
    refine ⟨page, hpage, haddr, hlive, hserves, rfl, rfl, rfl, ?_⟩
    have hv : IpcMem.vAddr { s.mem with
        k, pages := Function.update s.mem.pages s.mem.heapTop page, heapTop := s.mem.heapTop + 1 }
        s.mem.heapTop = page.vAddr.toNat := (vAddr_update (m := s.mem) rfl).1
    rw [hv, add32_of_lt haddr.2.2]

/-- The first page. -/
theorem Fresh.allocateWritePage (hf : Fresh s start)
    (h : s.allocateWritePage = .ret (.statusSuccess, s')) : Stream s' start 0 0 0 0 := by
  obtain ⟨page, -, haddr, -, hserves, htop, hfreed, hpages, hbuf⟩ := allocateWritePage_spec hf.pool h
  obtain ⟨hv, -⟩ := vAddr_update hpages
  rw [hf.heapTop] at htop hv hbuf
  rw [hf.buf] at hbuf
  refine ⟨⟨Nat.le_refl 0, htop, ?_, ?_, fun j _ hj => ?_, fun i j _ hi _ hj _ => ?_, ?_, ?_, ?_,
    Nat.le_refl 0, ?_, Nat.zero_le _⟩, .inl ⟨?_, ?_, rfl, rfl⟩, Nat.le_refl 0⟩
  · rw [hbuf]
    rfl
  · rw [hfreed, hf.freed]
    rfl
  · obtain rfl : j = 0 := by omega
    rwa [Nat.add_zero, hv]
  · omega
  · rw [hbuf]
    simpa [IpcBuffer.init, hv] using hserves
  · rw [hbuf]
    rfl
  · rw [hbuf]
    simp [hv]
  · rw [hbuf]
    simp [hv]
  · rw [hbuf]
    rfl
  · rw [hbuf]
    rfl

theorem Written.full (hw : Written s start f w n)
    (hfull : ¬ s.buf.currentPageWritePtr < s.buf.currentWriteLimit) : n = 4096 * (w + 1) := by
  have hptr := hw.ptr
  have hroom := hw.room
  rw [hw.limit] at hfull
  omega

/-- The reader stays where it is when the writer goes on to another page. In the page that it has
begun with its limit is the end of the page then. -/
theorem Written.reader_newPage (hw : Written s start f w n) (hlen : n = 4096 * (w + 1))
    (hpage : s'.buf.currentPageRead = s.buf.currentPageRead)
    (hptr : s'.buf.currentPageReadPtr = s.buf.currentPageReadPtr)
    (hlimit : s'.buf.currentReadLimit = s.buf.currentReadLimit)
    (hkeep : s'.mem.vAddr (start + f) = s.mem.vAddr (start + f))
    (hr : Unread s f pos ∨ Reading s start f w pos) :
    Unread s' f pos ∨ Reading s' start f (w + 1) pos := by
  rcases hr with hr | hr
  · exact .inl ⟨hptr.trans hr.ptr, hpage.trans hr.page, hr.first, hr.pos⟩
  · refine .inr ⟨hpage.trans hr.page, hr.low, hr.high, ?_, ?_⟩
    · rw [hkeep, hptr]
      exact hr.ptr
    · rw [hkeep, hlimit, hr.limit, if_neg (Nat.succ_ne_zero w)]
      split
      · rename_i hw0
        subst hw0
        obtain rfl : f = 0 := Nat.le_zero.mp hw.le
        have hwriter := hw.ptr
        omega
      · rfl

/-- A further page, when the one being written is full. -/
theorem Laid.allocateWritePage (hl : Laid s start f w n pos)
    (hfull : ¬ s.buf.currentPageWritePtr < s.buf.currentWriteLimit)
    (h : s.allocateWritePage = .ret (.statusSuccess, s')) : Laid s' start f (w + 1) n pos := by
  obtain ⟨hw, hr⟩ := hl
  have hlen := hw.full hfull
  obtain ⟨page, -, haddr, hlive, hserves, htop, hfreed, hpages, hbuf⟩ :=
    allocateWritePage_spec hw.pool h
  obtain ⟨hv, hold⟩ := vAddr_update hpages
  rw [hw.heapTop] at htop hv hbuf hold
  have hkeep (j) (hj : j ≤ w) : s'.mem.vAddr (start + j) = s.mem.vAddr (start + j) :=
    hold _ (by omega)
  have hmem (j) (hj : f ≤ j) (hj' : j ≤ w) : s.mem.vAddr (start + j) ∈
      s.buf.pagesList.map s.mem.vAddr := by
    rw [hw.list]
    exact List.mem_map_of_mem (List.mem_range'_1.mpr ⟨by omega, by have := hw.le; omega⟩)
  have hv' : s'.mem.vAddr (start + (w + 1)) = page.vAddr.toNat := hv
  refine ⟨⟨?_, htop, ?_, ?_, fun j hj hj' => ?_, fun i j hi hi' hj hj' heq => ?_, ?_, ?_, ?_, ?_,
    ?_, ?_⟩, ?_⟩
  · exact Nat.le_succ_of_le hw.le
  · have hle := hw.le
    rw [hbuf, show w + 1 + 1 - f = w + 1 - f + 1 by omega, List.range'_concat]
    dsimp only
    rw [hw.list, Nat.one_mul, show start + f + (w + 1 - f) = start + w + 1 by omega]
  · rw [hfreed, hw.freed]
  · rcases Nat.lt_or_ge w j with hlt | hge
    · obtain rfl : j = w + 1 := by omega
      rwa [hv']
    · rw [hkeep j hge]
      exact hw.addr j hj hge
  · rcases Nat.lt_or_ge w i with hi₁ | hi₁ <;> rcases Nat.lt_or_ge w j with hj₁ | hj₁
    · omega
    · obtain rfl : i = w + 1 := by omega
      rw [hv', hkeep j hj₁] at heq
      exact absurd (hmem j hj hj₁) (heq ▸ hlive)
    · obtain rfl : j = w + 1 := by omega
      rw [hv', hkeep i hi₁] at heq
      exact absurd (hmem i hi hi₁) (heq ▸ hlive)
    · rw [hkeep i hi₁, hkeep j hj₁] at heq
      exact hw.inj i j hi hi₁ hj hj₁ heq
  · refine hserves.mono fun a ha => ?_
    rw [hbuf, List.map_append, List.mem_append] at ha
    rcases ha with ha | ha
    · refine List.mem_cons_of_mem _ ?_
      obtain ⟨p, hp, rfl⟩ := List.mem_map.mp ha
      rw [hw.list] at hp
      obtain ⟨hp₁, hp₂⟩ := List.mem_range'_1.mp hp
      rw [hold p (by have := hw.le; omega)]
      exact List.mem_map_of_mem (by rw [hw.list]; exact hp)
    · rw [List.map_singleton, List.mem_singleton, hv] at ha
      rw [ha]
      exact List.mem_cons_self
  · rw [hbuf]
    rfl
  · rw [hbuf, hv']
  · omega
  · rw [hbuf, hv']
    dsimp only
    omega
  · omega
  · exact hw.reader_newPage hlen (by rw [hbuf]) (by rw [hbuf]) (by rw [hbuf]) (hkeep f hw.le) hr

theorem Stream.allocateWritePage (hs : Stream s start f w n pos)
    (hfull : ¬ s.buf.currentPageWritePtr < s.buf.currentWriteLimit)
    (h : s.allocateWritePage = .ret (.statusSuccess, s')) : Stream s' start f (w + 1) n pos :=
  (hs.laid.allocateWritePage hfull h).stream hs.pos_le

/-- A byte is written only where there is room for it. -/
theorem Written.below (hw : Written s start f w n)
    (hroom : s.buf.currentPageWritePtr < s.buf.currentWriteLimit) :
    n < 4096 * (w + 1) ∧ s.buf.currentPageWritePtr + 1 < 2 ^ 32 := by
  have hptr := hw.ptr
  have hbegun := hw.begun
  have haddr := (hw.addr w hw.le le_rfl).2.2
  rw [hw.limit] at hroom
  unfold pageSize at haddr
  omega

/-- The writer stands at the place of the next byte. -/
theorem Written.place_eq (hw : Written s start f w n) (hlt : n < 4096 * (w + 1)) :
    s.place start n = s.buf.currentPageWritePtr := by
  have hptr := hw.ptr
  have hbegun := hw.begun
  have hdiv : n / 4096 = w := by omega
  rw [place, hdiv]
  omega

/-- What the body of the inner loop of `AddBytes` does. -/
theorem writeByte_spec (h : s.writeByte c = .ret s') :
    ∃ mmu, s.mem.k.mmu.writeByte (BitVec.ofNat 32 s.buf.currentPageWritePtr) c = .ret mmu ∧
      s' = ⟨{ s.buf with
          currentPageWritePtr := add32 s.buf.currentPageWritePtr 1
          currentReadLimit :=
            if s.buf.currentPageWrite = s.buf.currentPageRead then add32 s.buf.currentReadLimit 1
            else s.buf.currentReadLimit },
        { s.mem with k := { s.mem.k with mmu } }⟩ := by
  obtain ⟨mem, hstore, h⟩ := Outcome.bind_eq_ret.mp h
  obtain ⟨mmu, hwrite, hstore⟩ := Outcome.bind_eq_ret.mp hstore
  cases hstore
  cases h
  exact ⟨mmu, hwrite, rfl⟩

theorem Laid.writeByte (hl : Laid s start f w n pos)
    (hroom : s.buf.currentPageWritePtr < s.buf.currentWriteLimit)
    (h : s.writeByte c = .ret s') : Laid s' start f w (n + 1) pos := by
  obtain ⟨hw, hr⟩ := hl
  obtain ⟨hlen, htop⟩ := hw.below hroom
  have hptr := hw.ptr
  have hbegun := hw.begun
  obtain ⟨mmu, -, rfl⟩ := writeByte_spec h
  have hnext := add32_of_lt htop
  refine ⟨⟨hw.le, hw.heapTop, hw.list, hw.freed, hw.addr, hw.inj, hw.pool, hw.write, hw.limit,
    ?_, ?_, ?_⟩, ?_⟩
  · omega
  · show add32 s.buf.currentPageWritePtr 1 + 4096 * w = s.mem.vAddr (start + w) + _
    omega
  · omega
  · rcases hr with hr | hr
    · exact .inl ⟨hr.ptr, hr.page, hr.first, hr.pos⟩
    · refine .inr ⟨hr.page, hr.low, hr.high, hr.ptr, ?_⟩
      show (if s.buf.currentPageWrite = s.buf.currentPageRead then
        add32 s.buf.currentReadLimit 1 else s.buf.currentReadLimit) = _
      rw [hw.write, hr.page, hr.limit]
      by_cases hw0 : w = 0
      · subst hw0
        rw [if_pos (by rw [Nat.add_zero]), if_pos rfl, if_pos rfl]
      · rw [if_neg (by simpa using hw0), if_neg hw0, if_neg hw0]
        rfl

/-- What the inner loop of `AddBytes` has written, and where it stops. -/
theorem Laid.writeBytes (hl : Laid s start f w n pos)
    (h : s.writeBytes message = .ret (rest, s')) :
    ∃ done, message = done ++ rest ∧ Laid s' start f w (n + done.length) pos ∧
      (rest ≠ [] → ¬ s'.buf.currentPageWritePtr < s'.buf.currentWriteLimit) := by
  induction message generalizing s n with
  | nil =>
    cases h
    exact ⟨[], rfl, hl, fun hne => absurd rfl hne⟩
  | cons c message ih =>
    rw [IpcState.writeBytes] at h
    split at h
    · rename_i hroom
      obtain ⟨t, hbyte, h⟩ := Outcome.bind_eq_ret.mp h
      obtain ⟨done, rfl, hl', hstop⟩ := ih (hl.writeByte hroom hbyte) h
      refine ⟨c :: done, rfl, ?_, hstop⟩
      rwa [List.length_cons, Nat.add_comm done.length, ← Nat.add_assoc]
    · rename_i hfull
      cases h
      exact ⟨[], rfl, hl, fun _ => hfull⟩

theorem Stream.writeBytes (hs : Stream s start f w n pos)
    (h : s.writeBytes message = .ret (rest, s')) :
    ∃ done, message = done ++ rest ∧ Stream s' start f w (n + done.length) pos ∧
      (rest ≠ [] → ¬ s'.buf.currentPageWritePtr < s'.buf.currentWriteLimit) := by
  obtain ⟨done, hdone, hl, hstop⟩ := hs.laid.writeBytes h
  exact ⟨done, hdone, hl.stream (Nat.le_add_right_of_le hs.pos_le), hstop⟩

/-- The event does not belong to the stream. -/
theorem Laid.signal (hl : Laid s start f w n pos) (readyToReadEvent : Event) :
    Laid { s with buf := { s.buf with readyToReadEvent } } start f w n pos := by
  obtain ⟨hw, hr⟩ := hl
  refine ⟨⟨hw.le, hw.heapTop, hw.list, hw.freed, hw.addr, hw.inj, hw.pool, hw.write, hw.limit,
    hw.begun, hw.ptr, hw.room⟩, ?_⟩
  rcases hr with hr | hr
  · exact .inl ⟨hr.ptr, hr.page, hr.first, hr.pos⟩
  · exact .inr ⟨hr.page, hr.low, hr.high, hr.ptr, hr.limit⟩

theorem Stream.signal (hs : Stream s start f w n pos) (readyToReadEvent : Event) :
    Stream { s with buf := { s.buf with readyToReadEvent } } start f w n pos :=
  (hs.laid.signal readyToReadEvent).stream hs.pos_le

theorem eq_of_not_failed {status : KeStatus} (h : ¬ failed status = true) :
    status = .statusSuccess := by
  simpa [failed] using h

/-- `AllocateWritePage` fails only on an empty pool, and then does nothing. -/
theorem allocateWritePage_failed {live : List ℕ} (hpool : s.mem.k.gPagePool.Serves live)
    {status : KeStatus} (h : s.allocateWritePage = .ret (status, s'))
    (hfailed : failed status = true) : s.mem.k.gPagePool.availPageList = none ∧ s' = s := by
  cases havail : s.mem.k.gPagePool.availPageList with
  | none =>
    refine ⟨rfl, ?_⟩
    rw [allocateWritePage, IpcMem.allocatePage, pageAlloc_none havail] at h
    cases h
    rfl
  | some a =>
    obtain ⟨⟨newPage, mem⟩, halloc, h⟩ := Outcome.bind_eq_ret.mp h
    obtain ⟨⟨p, k⟩, hp, halloc⟩ := Outcome.bind_eq_ret.mp halloc
    obtain ⟨-, hv⟩ := pageAlloc_some havail hp
    obtain ⟨l, hchain, -, hl⟩ := hpool
    obtain ⟨rest, rfl, -⟩ := hchain.chain_cons havail
    have hpos := (hl a List.mem_cons_self).1.2.1
    have hne : p.vAddr ≠ 0 := by
      intro h0
      rw [PagePool.blockAddr, ← hv, h0] at hpos
      exact absurd hpos (Nat.lt_irrefl 0)
    dsimp only at halloc
    rw [if_neg hne] at halloc
    cases halloc
    cases h
    cases hfailed

/-- It succeeds only on another one. -/
theorem allocateWritePage_avail (h : s.allocateWritePage = .ret (.statusSuccess, s')) :
    s.mem.k.gPagePool.availPageList ≠ none := by
  intro havail
  rw [allocateWritePage, IpcMem.allocatePage, pageAlloc_none havail] at h
  cases h

/-- Copying leaves the page pool alone. -/
theorem writeBytes_gPagePool (h : s.writeBytes message = .ret (rest, s')) :
    s'.mem.k.gPagePool = s.mem.k.gPagePool := by
  induction message generalizing s with
  | nil =>
    cases h
    rfl
  | cons c message ih =>
    rw [writeBytes] at h
    split at h
    · obtain ⟨t, hbyte, h⟩ := Outcome.bind_eq_ret.mp h
      have hpool := ih h
      obtain ⟨mmu, -, rfl⟩ := writeByte_spec hbyte
      exact hpool
    · cases h
      rfl

/-- When nothing is written, nothing changes. -/
theorem writeBytes_self (h : s.writeBytes message = .ret (message, s')) : s' = s := by
  have hlen {t : IpcState} {msg rest : List U8} (h : t.writeBytes msg = .ret (rest, s')) :
      rest.length ≤ msg.length := by
    induction msg generalizing t with
    | nil =>
      cases h
      exact Nat.le_refl _
    | cons c msg ih =>
      rw [writeBytes] at h
      split at h
      · obtain ⟨u, -, h⟩ := Outcome.bind_eq_ret.mp h
        exact Nat.le_succ_of_le (ih h)
      · cases h
        exact Nat.le_refl _
  cases message with
  | nil =>
    cases h
    rfl
  | cons c message =>
    rw [writeBytes] at h
    split at h
    · obtain ⟨u, -, h⟩ := Outcome.bind_eq_ret.mp h
      exact absurd (hlen h) (Nat.not_succ_le_self _)
    · cases h
      rfl

/-- A turn of `AddBytes` writes what there is room for. It then has written all,
gives up on an empty pool, or goes on with a new page. -/
theorem Laid.addTurn (hl : Laid s start f w n pos)
    {r : List U8 × IpcState ⊕ KeStatus × IpcState} (h : addTurn (message, s) = .ret r) :
    (∃ s', r = .inr (.statusSuccess, s') ∧ Laid s' start f w (n + message.length) pos) ∨
    (∃ status, ∃ done : List U8, ∃ s', r = .inr (status, s') ∧ failed status = true ∧
      Laid s' start f w (n + done.length) pos ∧ n + done.length = 4096 * (w + 1) ∧
      (done = [] → s' = s) ∧ s.mem.k.gPagePool.availPageList = none) ∨
    ∃ done rest s', r = .inl (rest, s') ∧ message = done ++ rest ∧ rest ≠ [] ∧
      Laid s' start f (w + 1) (n + done.length) pos ∧
      s.mem.k.gPagePool.availPageList ≠ none := by
  obtain ⟨⟨rest, t⟩, hrun, h⟩ := Outcome.bind_eq_ret.mp h
  obtain ⟨done, hdone, hl', hstop⟩ := hl.writeBytes hrun
  have hpool := writeBytes_gPagePool hrun
  dsimp only at h
  split at h
  · rename_i hrest
    subst hrest
    cases h
    rw [List.append_nil] at hdone
    exact .inl ⟨t, rfl, hdone ▸ hl'⟩
  · rename_i hne
    obtain ⟨⟨status, t'⟩, halloc, h⟩ := Outcome.bind_eq_ret.mp h
    dsimp only at h
    split at h
    · rename_i hfailed
      cases h
      obtain ⟨havail, rfl⟩ := allocateWritePage_failed hl'.written.pool halloc hfailed
      rw [hpool] at havail
      refine .inr (.inl ⟨status, done, t', rfl, hfailed, hl', hl'.written.full (hstop hne), ?_,
        havail⟩)
      rintro rfl
      rw [List.nil_append] at hdone
      exact writeBytes_self (hdone ▸ hrun)
    · rename_i hok
      rw [eq_of_not_failed hok] at halloc
      have havail := allocateWritePage_avail halloc
      rw [hpool] at havail
      cases h
      exact .inr (.inr ⟨done, rest, t', rfl, hdone, hne, hl'.allocateWritePage (hstop hne) halloc,
        havail⟩)

/-- What the rest of `AddBytes` has added: the whole message, or what there was room for in
the page being written and in those that were to be had. -/
theorem Laid.addRest (hl : Laid s start f w n pos) (hmessage : message ≠ [])
    {status : KeStatus} (h : s.addRest fuel message = .ret (status, s')) :
    ∃ (done : List U8) (w' : ℕ), Laid s' start f w' (n + done.length) pos ∧ w ≤ w' ∧
      (status = .statusSuccess → done = message ∧ 4096 * w' < n + message.length) ∧
      (failed status = true → n + done.length = 4096 * (w' + 1) ∧
        (w' = w ↔ s.mem.k.gPagePool.availPageList = none) ∧ (w' = w → done = [] → s' = s)) := by
  obtain ⟨⟨status', t⟩, hloop, h⟩ := Outcome.bind_eq_ret.mp h
  have hend : ∃ (done : List U8) (w' : ℕ), Laid t start f w' (n + done.length) pos ∧ w ≤ w' ∧
      (status' = .statusSuccess → done = message ∧ 4096 * w' < n + message.length) ∧
      (failed status' = true → n + done.length = 4096 * (w' + 1) ∧
        (w' = w ↔ s.mem.k.gPagePool.availPageList = none) ∧ (w' = w → done = [] → t = s)) := by
    refine Outcome.loop_invariant
      (I := fun x => x.1 ≠ [] ∧ ∃ done w', message = done ++ x.1 ∧
        Laid x.2 start f w' (n + done.length) pos ∧
        (w' = w ∧ x.2 = s ∧ done = [] ∨ w < w' ∧ s.mem.k.gPagePool.availPageList ≠ none))
      (Q := fun x => ∃ (done : List U8) (w' : ℕ), Laid x.2 start f w' (n + done.length) pos ∧ w ≤ w' ∧
        (x.1 = .statusSuccess → done = message ∧ 4096 * w' < n + message.length) ∧
        (failed x.1 = true → n + done.length = 4096 * (w' + 1) ∧
          (w' = w ↔ s.mem.k.gPagePool.availPageList = none) ∧
          (w' = w → done = [] → x.2 = s))) ?_ ?_
      ⟨hmessage, [], w, rfl, hl, .inl ⟨rfl, rfl, rfl⟩⟩ hloop
    · rintro ⟨msg, x⟩ ⟨msg', x'⟩ ⟨hne, done, w', rfl, hx, hfirst⟩ hturn
      rcases hx.addTurn hturn with ⟨_, heq, -⟩ | ⟨_, _, _, heq, -⟩ |
        ⟨done', rest, y, heq, h1, h2, hy, havail⟩
      · cases heq
      · cases heq
      · cases heq
        refine ⟨h2, done ++ done', w' + 1, ?_, ?_, .inr ?_⟩
        · rw [List.append_assoc, ← h1]
        · rwa [List.length_append, ← Nat.add_assoc]
        · rcases hfirst with ⟨rfl, rfl, -⟩ | ⟨hlt, havail'⟩
          · exact ⟨Nat.lt_succ_self _, havail⟩
          · exact ⟨Nat.lt_succ_of_lt hlt, havail'⟩
    · rintro ⟨msg, x⟩ ⟨st, x'⟩ ⟨hne, done, w', rfl, hx, hfirst⟩ hturn
      have hle : w ≤ w' := by
        rcases hfirst with ⟨rfl, -⟩ | ⟨hlt, -⟩
        · exact Nat.le_refl _
        · exact Nat.le_of_lt hlt
      rcases hx.addTurn hturn with ⟨y, heq, hy⟩ |
        ⟨_, done', _, heq, hst, hy, hlen, hsame, havail⟩ | ⟨_, _, _, heq, -⟩
      · cases heq
        rw [Nat.add_assoc, ← List.length_append] at hy
        refine ⟨done ++ msg, w', hy, hle, fun _ => ⟨rfl, ?_⟩, ?_⟩
        · have hlen : 0 < msg.length := List.length_pos_iff.mpr hne
          have hbegun := hx.written.begun
          dsimp only
          rw [List.length_append]
          omega
        · rintro ⟨⟩
      · cases heq
        rw [Nat.add_assoc, ← List.length_append] at hy hlen
        refine ⟨done ++ done', w', hy, hle, ?_, fun _ => ⟨hlen, ?_, ?_⟩⟩
        · rintro rfl
          cases hst
        · rcases hfirst with ⟨rfl, rfl, -⟩ | ⟨hlt, havail'⟩
          · exact iff_of_true rfl havail
          · exact iff_of_false (Nat.ne_of_gt hlt) havail'
        · intro hw' hnil
          rcases hfirst with ⟨-, rfl, -⟩ | ⟨hlt, -⟩
          · exact hsame (List.append_eq_nil_iff.mp hnil).2
          · exact absurd hw' (Nat.ne_of_gt hlt)
      · cases heq
  obtain ⟨done, w', ht, hle, hsuccess, hfail⟩ := hend
  dsimp only at h
  split at h
  · rename_i hfailed
    cases h
    exact ⟨done, w', ht, hle, hsuccess, hfail⟩
  · rename_i hok
    cases h
    refine ⟨done, w', ht.signal _, hle, fun _ => hsuccess (eq_of_not_failed hok), ?_⟩
    rintro ⟨⟩

/-- The rest of `AddBytes` puts the whole message behind what is there. -/
theorem Stream.addRest (hs : Stream s start f w n pos) (hmessage : message ≠ [])
    (h : s.addRest fuel message = .ret (.statusSuccess, s')) :
    ∃ w', Stream s' start f w' (n + message.length) pos ∧ 4096 * w' < n + message.length := by
  obtain ⟨done, w', hl, -, hsuccess, -⟩ := hs.laid.addRest hmessage h
  obtain ⟨rfl, hlen⟩ := hsuccess rfl
  exact ⟨w', hl.stream (Nat.le_add_right_of_le hs.pos_le), hlen⟩

/-- The place for the next byte is not the null pointer. -/
theorem Written.ptr_ne_zero (hw : Written s start f w n) : s.buf.currentPageWritePtr ≠ 0 := by
  have hpos := (hw.addr w hw.le le_rfl).2.1
  have hptr := hw.ptr
  have hbegun := hw.begun
  omega

/-- The first call that has something to add gets a page, or does nothing. -/
theorem Fresh.addBytes_cases (hf : Fresh s start) (hne : message ≠ []) {status : KeStatus}
    (h : s.addBytes fuel message = .ret (status, s')) :
    (s.mem.k.gPagePool.availPageList = none ∧ s' = s ∧ failed status = true) ∨
    s.mem.k.gPagePool.availPageList ≠ none ∧
      ∃ t, Stream t start 0 0 0 0 ∧ t.addRest fuel message = .ret (status, s') := by
  rw [IpcState.addBytes, if_neg hne, if_pos (by rw [hf.buf]; rfl)] at h
  obtain ⟨⟨status', t⟩, halloc, h⟩ := Outcome.bind_eq_ret.mp h
  dsimp only at h
  split at h
  · rename_i hfailed
    cases h
    obtain ⟨havail, rfl⟩ := allocateWritePage_failed hf.pool halloc hfailed
    exact .inl ⟨havail, rfl, hfailed⟩
  · rename_i hok
    rw [eq_of_not_failed hok] at halloc
    exact .inr ⟨allocateWritePage_avail halloc, t, hf.allocateWritePage halloc, h⟩

theorem Laid.addBytes_eq (hl : Laid s start f w n pos) (hne : message ≠ []) :
    s.addBytes fuel message = s.addRest fuel message := by
  rw [IpcState.addBytes, if_neg hne, if_neg hl.written.ptr_ne_zero]

theorem addBytes_nil : s.addBytes fuel [] = .ret (.statusInvalidParameter, s) := by
  rw [addBytes, if_pos rfl]

theorem ne_nil_of_addBytes (h : s.addBytes fuel message = .ret (.statusSuccess, s')) :
    message ≠ [] := by
  rintro rfl
  rw [addBytes_nil] at h
  cases h

/-- A successful first `AddBytes`. -/
theorem Fresh.addBytes (hf : Fresh s start)
    (h : s.addBytes fuel message = .ret (.statusSuccess, s')) :
    ∃ w, Stream s' start 0 w message.length 0 ∧ 4096 * w < message.length := by
  have hne := ne_nil_of_addBytes h
  rcases hf.addBytes_cases hne h with ⟨-, -, hfailed⟩ | ⟨-, t, ht, hrest⟩
  · cases hfailed
  · simpa only [Nat.zero_add] using ht.addRest hne hrest

/-- A successful further `AddBytes`. -/
theorem Stream.addBytes (hs : Stream s start f w n pos)
    (h : s.addBytes fuel message = .ret (.statusSuccess, s')) :
    ∃ w', Stream s' start f w' (n + message.length) pos ∧ 4096 * w' < n + message.length := by
  have hne := ne_nil_of_addBytes h
  rw [hs.laid.addBytes_eq hne] at h
  exact hs.addRest hne h

end IpcState

end LtMicros
