import LtMicros.IpcStream

/-!
# Reading from an IPC buffer

`ReadBytes` gives the bytes of the stream from `pos` on, in order, as long as it
is not asked for more than there is. Only in the page that the reader has begun
with does it stop at the last byte written.
-/

namespace LtMicros

open Lib

namespace IpcState

variable {s s' : IpcState} {start f w n pos size fuel : ℕ}

/-- How many of `size` bytes the inner loop of `ReadBytes` finds below the limit. -/
def below (s : IpcState) (size : ℕ) : ℕ :=
  min size (s.buf.currentReadLimit - s.buf.currentPageReadPtr)

/-- The state after `i` bytes have been read. -/
def passed (s : IpcState) (i : ℕ) : IpcState :=
  { s with buf := { s.buf with currentPageReadPtr := s.buf.currentPageReadPtr + i } }

/-- `bytes` are what is read at the places `g i`, `g (i + 1)` and so on. -/
def Reads (m : IpcMem) (g : ℕ → ℕ) (i : ℕ) (bytes : List U8) : Prop :=
  (List.range' i bytes.length).map (fun i => m.load (g i)) = bytes.map .ret

theorem reads_cons {m : IpcMem} {g : ℕ → ℕ} {i : ℕ} {byte : U8} {bytes : List U8} :
    Reads m g i (byte :: bytes) ↔ m.load (g i) = .ret byte ∧ Reads m g (i + 1) bytes := by
  rw [Reads, List.length_cons, List.range'_succ, List.map_cons, List.map_cons, List.cons.injEq]
  rfl

theorem Reads.append {m : IpcMem} {g : ℕ → ℕ} {i : ℕ} {bytes bytes' : List U8}
    (h : Reads m g i bytes) (h' : Reads m g (i + bytes.length) bytes') :
    Reads m g i (bytes ++ bytes') := by
  rw [Reads, List.length_append, ← List.range'_append_1, List.map_append, List.map_append, h, h']

theorem Reads.congr {m m' : IpcMem} {g g' : ℕ → ℕ} {i i' : ℕ} {bytes : List U8}
    (h : Reads m g i bytes)
    (hsame : ∀ j < bytes.length, m'.load (g' (i' + j)) = m.load (g (i + j))) :
    Reads m' g' i' bytes := by
  refine Eq.trans ?_ h
  refine List.ext_getElem (by simp) fun j hj _ => ?_
  rw [List.length_map, List.length_range'] at hj
  simpa using hsame j hj

/-- The inner loop of `ReadBytes` reads what lies below the limit. -/
theorem readWhile_spec (hlimit : s.buf.currentReadLimit < 2 ^ 32) {bytes : List U8} {left : ℕ}
    (h : s.readWhile size = .ret (bytes, left, s')) :
    bytes.length = s.below size ∧ left = size - s.below size ∧ s' = s.passed (s.below size) ∧
      Reads s.mem id s.buf.currentPageReadPtr bytes := by
  induction size generalizing s bytes with
  | zero =>
    cases h
    rw [below, Nat.zero_min]
    exact ⟨rfl, rfl, rfl, rfl⟩
  | succ size ih =>
    rw [readWhile] at h
    split at h
    · rename_i hlt
      obtain ⟨byte, hload, h⟩ := Outcome.bind_eq_ret.mp h
      obtain ⟨⟨rest, left', t⟩, hrest, h⟩ := Outcome.bind_eq_ret.mp h
      cases h
      rw [add32_of_lt (by omega)] at hrest
      obtain ⟨hlen, rfl, rfl, hreads⟩ := ih (s := s.passed 1) hlimit hrest
      have hbelow : s.below (size + 1) = (s.passed 1).below size + 1 := by
        show min (size + 1) _ = min size (s.buf.currentReadLimit - (s.buf.currentPageReadPtr + 1)) + 1
        omega
      refine ⟨?_, ?_, ?_, reads_cons.mpr ⟨hload, hreads⟩⟩
      · rw [List.length_cons, hlen, hbelow]
      · rw [hbelow, Nat.add_sub_add_right]
      · rw [hbelow, passed, passed, passed, Nat.add_assoc, Nat.add_comm 1]
    · rename_i hge
      have hbelow : s.below (size + 1) = 0 := by
        unfold below
        omega
      cases h
      rw [hbelow]
      exact ⟨rfl, rfl, rfl, rfl⟩

/-- The page that is read from lies below the last address. -/
theorem Reading.limit_lt (hr : Reading s start f w pos) (hw : Written s start f w n) :
    s.buf.currentReadLimit < 2 ^ 32 := by
  rw [hr.limit]
  split
  · rename_i hw0
    subst hw0
    have haddr := (hw.addr 0 hw.le le_rfl).2.2
    have hptr := hw.ptr
    have hroom := hw.room
    unfold pageSize at haddr
    omega
  · have haddr := (hw.addr f le_rfl hw.le).2.2
    unfold pageSize at haddr
    omega

/-- Where the inner loop of `ReadBytes` stops: at the end of the page, or, as long as there is
only one, at the writer. -/
theorem Reading.below_spec (hr : Reading s start f w pos) (hw : Written s start f w n)
    (size : ℕ) :
    s.below size ≤ size ∧ pos + s.below size ≤ 4096 * (f + 1) ∧
      (w ≠ 0 → s.below size < size → pos + s.below size = 4096 * (f + 1)) ∧
      (w = 0 → pos ≤ n → pos + s.below size ≤ n ∧
        (s.below size < size → pos + s.below size = n)) := by
  have hlimit := hr.limit
  have hptr := hr.ptr
  have hhigh := hr.high
  have hlow := hr.low
  have hwptr := hw.ptr
  have hroom := hw.room
  unfold below
  by_cases hw0 : w = 0
  · subst hw0
    obtain rfl : f = 0 := Nat.le_zero.mp hw.le
    rw [if_pos rfl] at hlimit
    omega
  · rw [if_neg hw0] at hlimit
    omega

/-- The inner loop of `ReadBytes` reads the next bytes of the page that is read from. -/
theorem Laid.readWhile (hl : Laid s start f w n pos) (hr : Reading s start f w pos)
    {bytes : List U8} {left : ℕ} (h : s.readWhile size = .ret (bytes, left, s')) :
    bytes.length = s.below size ∧ left = size - s.below size ∧ s' = s.passed (s.below size) ∧
      Reads s.mem (s.place start) pos bytes ∧
      Laid s' start f w n (pos + s.below size) ∧ Reading s' start f w (pos + s.below size) := by
  obtain ⟨hw, -⟩ := hl
  obtain ⟨-, hpage, -⟩ := hr.below_spec hw size
  obtain ⟨hlen, rfl, rfl, hreads⟩ := readWhile_spec (hr.limit_lt hw) h
  have hptr := hr.ptr
  have hlow := hr.low
  have hreading : Reading (s.passed (s.below size)) start f w (pos + s.below size) := by
    refine ⟨hr.page, Nat.le_add_right_of_le hr.low, hpage, ?_, hr.limit⟩
    show s.buf.currentPageReadPtr + s.below size + 4096 * f = s.mem.vAddr (start + f) + _
    omega
  refine ⟨hlen, rfl, rfl, ?_, ⟨?_, .inr hreading⟩, hreading⟩
  · apply hreads.congr
    intro j hj
    have hdiv : (pos + j) / 4096 = f := by omega
    rw [place, hdiv, id]
    congr 1
    omega
  · exact ⟨hw.le, hw.heapTop, hw.list, hw.freed, hw.addr, hw.inj, hw.pool, hw.write, hw.limit,
      hw.begun, hw.ptr, hw.room⟩

/-- The list begins with page `f`. -/
theorem Written.head (hw : Written s start f w n) :
    s.buf.pagesList = (start + f) :: List.range' (start + f + 1) (w - f) := by
  have hle := hw.le
  rw [hw.list, show w + 1 - f = w - f + 1 by omega, List.range'_succ]

/-- The reader begins with the first page. -/
theorem Laid.openRead (hl : Laid s start f w n pos) (hu : Unread s f pos)
    (h : s.openRead = .ret s') :
    Laid s' start f w n pos ∧ Reading s' start f w pos := by
  obtain ⟨hw, -⟩ := hl
  obtain ⟨rfl, rfl⟩ : f = 0 ∧ pos = 0 := ⟨hu.first, hu.pos⟩
  obtain ⟨page, hpage, h⟩ := Outcome.bind_eq_ret.mp h
  rw [hw.head] at hpage
  cases hpage
  cases h
  have hend : add32 (s.mem.vAddr start) pageSize = s.mem.vAddr start + pageSize :=
    add32_of_lt (hw.addr 0 le_rfl hw.le).2.2
  have hreading : Reading (({ s with buf := { s.buf with currentPageRead := some start } } :
      IpcState).readFrom start (if some start = s.buf.currentPageWrite then
        s.buf.currentPageWritePtr else add32 (s.mem.vAddr start) pageSize)) start 0 w 0 := by
    refine ⟨rfl, le_rfl, Nat.zero_le _, rfl, ?_⟩
    show (if some start = s.buf.currentPageWrite then _ else _) = _
    rw [hw.write, hend]
    by_cases hw0 : w = 0
    · subst hw0
      rw [if_pos (by rw [Nat.add_zero]), if_pos rfl]
      rfl
    · rw [if_neg (by simpa using hw0), if_neg hw0]
      rfl
  refine ⟨⟨?_, .inr hreading⟩, hreading⟩
  exact ⟨hw.le, hw.heapTop, hw.list, hw.freed, hw.addr, hw.inj, hw.pool, hw.write, hw.limit,
    hw.begun, hw.ptr, hw.room⟩

theorem Stream.openRead (hs : Stream s start f w n pos) (hu : Unread s f pos)
    (h : s.openRead = .ret s') :
    Stream s' start f w n pos ∧ Reading s' start f w pos := by
  obtain ⟨hl, hr⟩ := hs.laid.openRead hu h
  exact ⟨hl.stream hs.pos_le, hr⟩

/-- What the step to the next page does. -/
theorem nextReadPage_spec (h : s.nextReadPage fuel = .ret s') :
    ∃ page next rest k, s.buf.pagesList = page :: next :: rest ∧
      s.mem.k.pageFree fuel (s.mem.pages page) = .ret k ∧
      s' = { buf := { s.buf with
               pagesList := next :: rest
               currentPageReadPtr := s.mem.vAddr next
               currentReadLimit := add32 (s.mem.vAddr next) pageSize }
             mem := { s.mem with k, freed := s.mem.freed ++ [page] } } := by
  obtain ⟨page, hpage, h⟩ := Outcome.bind_eq_ret.mp h
  obtain ⟨k, hk, h⟩ := Outcome.bind_eq_ret.mp h
  obtain ⟨next, hnext, h⟩ := Outcome.bind_eq_ret.mp h
  obtain ⟨rest, hlist⟩ := List.head?_eq_some_iff.mp (Outcome.ofOption_eq_ret.mp hpage)
  dsimp only at hnext
  rw [hlist, List.tail_cons] at hnext
  obtain ⟨rest, rfl⟩ := List.head?_eq_some_iff.mp (Outcome.ofOption_eq_ret.mp hnext)
  cases h
  refine ⟨page, next, rest, k, hlist, hk, ?_⟩
  rw [hlist]
  rfl

/-- The reader goes on to the next page, when there is one. -/
theorem Laid.nextReadPage (hl : Laid s start f w n pos) (hr : Reading s start f w pos)
    (hpos : pos = 4096 * (f + 1)) (hfw : f + 1 ≤ w) (h : s.nextReadPage fuel = .ret s') :
    Laid s' start (f + 1) w n pos ∧ Reading s' start (f + 1) w pos := by
  obtain ⟨hw, -⟩ := hl
  obtain ⟨page, next, rest, k, hlist, hk, hs'⟩ := nextReadPage_spec h
  have htail : next :: rest = List.range' (start + (f + 1)) (w + 1 - (f + 1)) := by
    have htail := congrArg List.tail (hlist.symm.trans hw.head)
    rw [List.tail_cons, List.tail_cons] at htail
    rw [htail, Nat.add_sub_add_right]
    rfl
  obtain ⟨rfl, rfl⟩ : page = start + f ∧ next = start + (f + 1) := by
    have hhead := hlist.symm.trans hw.head
    rw [show w - f = w - (f + 1) + 1 by omega, List.range'_succ] at hhead
    cases hhead
    exact ⟨rfl, rfl⟩
  have hend : add32 (s.mem.vAddr (start + (f + 1))) pageSize =
      s.mem.vAddr (start + (f + 1)) + 4096 := add32_of_lt (hw.addr _ (Nat.le_succ f) hfw).2.2
  have hpool : k.gPagePool.Serves (((start + (f + 1)) :: rest).map s.mem.vAddr) := by
    refine pageFree_serves hw.pool hk (hw.addr f le_rfl hw.le) ?_ fun a ha => ⟨?_, ?_⟩
    · rw [hlist]
      exact List.mem_map_of_mem List.mem_cons_self
    · rw [hlist]
      exact List.mem_cons_of_mem _ ha
    · obtain ⟨p, hp, rfl⟩ := List.mem_map.mp ha
      rw [htail] at hp
      obtain ⟨j, hj, rfl⟩ := List.mem_range'.mp hp
      intro heq
      rw [Nat.one_mul, Nat.add_assoc] at heq
      have := hw.inj _ _ (by omega) (by omega) le_rfl hw.le heq
      omega
  have hfreed : s.mem.freed ++ [start + f] = List.range' start (f + 1) := by
    rw [hw.freed, List.range'_concat, Nat.one_mul]
  have hwritten : Written s' start (f + 1) w n := by
    rw [hs']
    exact ⟨hfw, hw.heapTop, htail, hfreed, fun j hj => hw.addr j (by omega),
      fun i j hi hi' hj hj' => hw.inj i j (by omega) hi' (by omega) hj', hpool, hw.write,
      hw.limit, hw.begun, hw.ptr, hw.room⟩
  have hreading : Reading s' start (f + 1) w pos := by
    rw [hs']
    refine ⟨hr.page, by omega, by omega, ?_, ?_⟩
    · show s.mem.vAddr (start + (f + 1)) + 4096 * (f + 1) = s.mem.vAddr (start + (f + 1)) + pos
      omega
    · rw [if_neg (by omega)]
      exact hend
  exact ⟨⟨hwritten, .inr hreading⟩, hreading⟩

/-- There is one, when there is more of the stream. -/
theorem Stream.nextReadPage (hs : Stream s start f w n pos) (hr : Reading s start f w pos)
    (hpos : pos = 4096 * (f + 1)) (hmore : pos < n)
    (h : s.nextReadPage fuel = .ret s') :
    Stream s' start (f + 1) w n pos ∧ Reading s' start (f + 1) w pos := by
  have hroom := hs.written.room
  obtain ⟨hl, hr'⟩ := hs.laid.nextReadPage hr hpos (by omega) h
  exact ⟨hl.stream hs.pos_le, hr'⟩

/-- The place of the next byte is not the null pointer. -/
theorem Reading.ptr_ne_zero (hr : Reading s start f w pos) (hw : Written s start f w n) :
    s.buf.currentPageReadPtr ≠ 0 := by
  have hpos := (hw.addr f le_rfl hw.le).2.1
  have hptr := hr.ptr
  have hlow := hr.low
  omega

/-- Reading changes neither the pages nor what is in them. -/
structure SameMem (m m' : IpcMem) : Prop where
  pages : m'.pages = m.pages
  mmu : m'.k.mmu = m.k.mmu

theorem SameMem.trans {m m' m'' : IpcMem} (h : SameMem m m') (h' : SameMem m' m'') :
    SameMem m m'' :=
  ⟨h'.pages.trans h.pages, h'.mmu.trans h.mmu⟩

theorem SameMem.load {m m' : IpcMem} (h : SameMem m m') (addr : ℕ) :
    m'.load addr = m.load addr := by
  rw [IpcMem.load, h.mmu]
  rfl

theorem SameMem.vAddr {m m' : IpcMem} (h : SameMem m m') : m'.vAddr = m.vAddr := by
  funext p
  rw [IpcMem.vAddr, h.pages]
  rfl

theorem SameMem.reads {i : ℕ} {bytes : List U8} (h : SameMem s.mem s'.mem)
    (hreads : Reads s'.mem (s'.place start) i bytes) : Reads s.mem (s.place start) i bytes := by
  refine hreads.congr fun j _ => ?_
  rw [place, place, h.vAddr, h.load]

theorem sameMem_nextReadPage (h : s.nextReadPage fuel = .ret s') : SameMem s.mem s'.mem := by
  obtain ⟨page, next, rest, k, -, hk, rfl⟩ := nextReadPage_spec h
  exact ⟨rfl, pageFree_mmu hk⟩

/-- One turn of `ReadBytes` when there is as much as is asked for, or the reader
is in the page being written. It reads the next bytes. -/
theorem Stream.readTurn (hs : Stream s start f w n pos) (hr : Reading s start f w pos)
    (hsize : size ≤ n - pos ∨ w = 0) {out : List U8}
    {r : List U8 × ℕ × IpcState ⊕ List U8 × ℕ × IpcState}
    (h : readTurn fuel (out, size, s) = .ret r) :
    ∃ bytes s', bytes.length ≤ size ∧ Reads s.mem (s.place start) pos bytes ∧
      SameMem s.mem s'.mem ∧
      ((r = .inl (out ++ bytes, size - bytes.length, s') ∧
          ∃ f', Stream s' start f' w n (pos + bytes.length) ∧
            Reading s' start f' w (pos + bytes.length)) ∨
        (r = .inr (out ++ bytes, size - bytes.length, s') ∧
          Stream s' start f w n (pos + bytes.length) ∧
          (bytes.length < size → pos + bytes.length = n))) := by
  have hpos := hs.pos_le
  obtain ⟨hle, -, hmany, hone⟩ := hr.below_spec hs.written size
  have hbelow : pos + s.below size ≤ n := by omega
  obtain ⟨⟨bytes, left, t⟩, hrun, h⟩ := Outcome.bind_eq_ret.mp h
  obtain ⟨hlen, rfl, rfl, hreads, hl', hr'⟩ := hs.laid.readWhile hr hrun
  rw [← hlen] at hle hbelow hmany hone hl' hr' h
  have hs' := hl'.stream hbelow
  refine ⟨bytes, ?_⟩
  dsimp only at h
  split at h
  · rename_i hleft
    split at h
    · rename_i hne
      obtain ⟨s', hnext, h⟩ := Outcome.bind_eq_ret.mp h
      have hw0 : w ≠ 0 := by
        rintro rfl
        rw [hs'.written.write, hr'.page] at hne
        exact hne rfl
      have hend := hmany hw0 (by omega)
      obtain ⟨hs'', hr''⟩ := hs'.nextReadPage hr' hend (by omega) hnext
      have hsame := sameMem_nextReadPage hnext
      cases h
      exact ⟨s', hle, hreads, hsame, .inl ⟨rfl, f + 1, hs'', hr''⟩⟩
    · rename_i heq
      have hw0 : w = 0 := by
        rw [not_ne_iff, hs'.written.write, hr'.page] at heq
        simpa using heq
      cases h
      exact ⟨s.passed bytes.length, hle, hreads, ⟨rfl, rfl⟩,
        .inr ⟨rfl, hs', (hone hw0 hpos).2⟩⟩
  · rename_i hleft
    cases h
    exact ⟨s.passed bytes.length, hle, hreads, ⟨rfl, rfl⟩,
      .inr ⟨rfl, hs', fun hlt => absurd (Nat.sub_pos_of_lt hlt) hleft⟩⟩

/-- What `ReadBytes` gives from its loop on. -/
theorem Stream.readRest (hs : Stream s start f w n pos) (hr : Reading s start f w pos)
    (hsize : size ≤ n - pos ∨ w = 0) {status : KeStatus} {bytes : List U8} {bytesRead : ℕ}
    (h : s.readRest fuel size = .ret (status, bytes, bytesRead, s')) :
    bytes.length = min size (n - pos) ∧ bytesRead = bytes.length ∧
      Reads s.mem (s.place start) pos bytes ∧ SameMem s.mem s'.mem ∧
      ∃ f', Stream s' start f' w n (pos + bytes.length) := by
  obtain ⟨⟨_, left, _⟩, hloop, h⟩ := Outcome.bind_eq_ret.mp h
  cases h
  obtain ⟨f', hlen, hreads, hsame, hs', hstop⟩ : ∃ f', bytes.length + left = size ∧
      Reads s.mem (s.place start) pos bytes ∧ SameMem s.mem s'.mem ∧
      Stream s' start f' w n (pos + bytes.length) ∧
      (0 < left → pos + bytes.length = n) := by
    refine Outcome.loop_invariant
      (I := fun x : List U8 × ℕ × IpcState => ∃ f', x.1.length + x.2.1 = size ∧
        Reads s.mem (s.place start) pos x.1 ∧ SameMem s.mem x.2.2.mem ∧
        Stream x.2.2 start f' w n (pos + x.1.length) ∧
        Reading x.2.2 start f' w (pos + x.1.length))
      (Q := fun x : List U8 × ℕ × IpcState => ∃ f', x.1.length + x.2.1 = size ∧
        Reads s.mem (s.place start) pos x.1 ∧ SameMem s.mem x.2.2.mem ∧
        Stream x.2.2 start f' w n (pos + x.1.length) ∧
        (0 < x.2.1 → pos + x.1.length = n))
      ?_ ?_ (s := ([], size, s)) ⟨f, Nat.zero_add size, rfl, ⟨rfl, rfl⟩, hs, hr⟩ hloop
    · rintro ⟨out, left, x⟩ x' ⟨f', hlen, hreads, hsame, hx, hrx⟩ hturn
      dsimp only at hlen hreads hsame hx hrx
      obtain ⟨more, y, hle, hreads', hsame', ⟨heq, f'', hy, hry⟩ | ⟨heq, -⟩⟩ :=
        hx.readTurn hrx (by omega) hturn
      · cases heq
        rw [Nat.add_assoc, ← List.length_append] at hy hry
        refine ⟨f'', ?_, hreads.append (hsame.reads hreads'), hsame.trans hsame', hy, hry⟩
        dsimp only
        rw [List.length_append]
        omega
      · cases heq
    · rintro ⟨out, left, x⟩ x' ⟨f', hlen, hreads, hsame, hx, hrx⟩ hturn
      dsimp only at hlen hreads hsame hx hrx
      obtain ⟨more, y, hle, hreads', hsame', ⟨heq, -⟩ | ⟨heq, hy, hstop⟩⟩ :=
        hx.readTurn hrx (by omega) hturn
      · cases heq
      · cases heq
        rw [Nat.add_assoc, ← List.length_append] at hy hstop
        refine ⟨f', ?_, hreads.append (hsame.reads hreads'), hsame.trans hsame', hy,
          fun hpos => hstop (Nat.lt_of_sub_pos hpos)⟩
        dsimp only
        rw [List.length_append]
        omega
  have hle := hs'.pos_le
  refine ⟨?_, ?_, hreads, hsame, f', hs'⟩
  · omega
  · split <;> omega

/-- A successful `ReadBytes` gives the next bytes of the stream, as many as are
asked for or as there are. -/
theorem Stream.readBytes (hs : Stream s start f w n pos) (hsize : size ≤ n - pos ∨ w = 0)
    {bytes : List U8} {bytesRead : ℕ}
    (h : s.readBytes fuel size = .ret (.statusSuccess, bytes, bytesRead, s')) :
    bytes.length = min size (n - pos) ∧ bytesRead = bytes.length ∧
      Reads s.mem (s.place start) pos bytes ∧ SameMem s.mem s'.mem ∧
      ∃ f', Stream s' start f' w n (pos + bytes.length) := by
  rw [IpcState.readBytes] at h
  split at h
  · cases h
  rcases hs.reading with hu | hr
  · rw [if_pos hu.ptr] at h
    obtain ⟨t, hopen, h⟩ := Outcome.bind_eq_ret.mp h
    obtain ⟨ht, hrt⟩ := hs.openRead hu hopen
    have hmem : t.mem = s.mem := by
      obtain ⟨page, -, hopen⟩ := Outcome.bind_eq_ret.mp hopen
      cases hopen
      rfl
    obtain ⟨hlen, hread, hreads, hsame, hs'⟩ := ht.readRest hrt hsize h
    have hsame' : SameMem s.mem t.mem := hmem ▸ ⟨rfl, rfl⟩
    exact ⟨hlen, hread, hsame'.reads hreads, hsame'.trans hsame, hs'⟩
  · rw [if_neg (hr.ptr_ne_zero hs.written)] at h
    exact hs.readRest hr hsize h

end IpcState

end LtMicros
