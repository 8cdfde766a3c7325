import LtMicros.IpcSupply
import LtMicros.PrivateMemory

/-!
# Runs of an IPC buffer

Sequences of successful `AddBytes` and `ReadBytes` calls on one buffer, with what
has been added and read. Between them the rest of the system works with its own
pages.
-/

namespace LtMicros

open Lib Lib.Frames

/-- A successful `ReadBytes`: the size it was asked for, the bytes that were
pending, the bytes it delivered, and `bytesRead`. -/
structure ReadRecord where
  size : ℕ
  pending : ℕ
  bytes : List U8
  bytesRead : ℕ

/-- A state of a run, with the bytes added so far and the reads so far. -/
structure IpcRun where
  s : IpcState
  added : List U8
  reads : List ReadRecord

namespace IpcRun

/-- All bytes that were delivered. -/
def delivered (r : IpcRun) : List U8 := (r.reads.map ReadRecord.bytes).flatten

/-- How many of the added bytes have not been delivered. -/
def pending (r : IpcRun) : ℕ := r.added.length - r.delivered.length

end IpcRun

/-- The steps of a run. -/
inductive IpcOp where
  | add (message : List U8)
  | read (size : ℕ)
  | others

/-- One successful call, or what the rest of the system does: the pages of the buffer
stay held, with the bytes that are in them. -/
inductive IpcStep : IpcRun → IpcOp → IpcRun → Prop
  | add {r : IpcRun} {message : List U8} {fuel : ℕ} {s' : IpcState} :
      r.s.addBytes fuel message = .ret (.statusSuccess, s') →
      IpcStep r (.add message) ⟨s', r.added ++ message, r.reads⟩
  | read {r : IpcRun} {size fuel bytesRead : ℕ} {bytes : List U8} {s' : IpcState} :
      r.s.readBytes fuel size = .ret (.statusSuccess, bytes, bytesRead, s') →
      IpcStep r (.read size) ⟨s', r.added, r.reads ++ [⟨size, r.pending, bytes, bytesRead⟩]⟩
  | others {r : IpcRun} {k : KernelMem} {pds : List U32} {heap : U32 → Prop} :
      IpcMem.Holds { r.s.mem with k } pds heap r.s.buf.pagesList →
      (∀ p ∈ r.s.buf.pagesList, ∀ v, frameOf v = (r.s.mem.pages p).vAddr →
        k.mmu.readByte v = r.s.mem.k.mmu.readByte v) →
      IpcStep r .others ⟨⟨r.s.buf, { r.s.mem with k }⟩, r.added, r.reads⟩

/-- There is a physical page for each page that the call takes, and a read asks for no
more than is pending, or no second page was ever needed. -/
def PagesAndBytes (r : IpcRun) : IpcOp → Prop
  | .add message => r.s.pagesFor message ≤ r.s.mem.k.gPmm.freePages.card
  | .read size => size ≤ r.pending ∨ r.added.length ≤ pageSize
  | .others => True

/-- The buffer is a FIFO stream. What was delivered is the beginning of what was
added; each read delivered the smaller of its size and what was pending, and said
so; every page that left the list was given back once, in order, and the page
being written is not among them. -/
structure IsFifo (start : ℕ) (r : IpcRun) : Prop where
  delivered_prefix : r.delivered <+: r.added
  counts : ∀ x ∈ r.reads, x.bytes.length = min x.size x.pending ∧ x.bytesRead = x.bytes.length
  pages : r.s.mem.freed ++ r.s.buf.pagesList = List.range' start (r.s.mem.heapTop - start)
  not_writing : ∀ p ∈ r.s.mem.freed, r.s.buf.currentPageWrite ≠ some p

open IpcState

/-! ## The invariant -/

/-- The buffer is fresh, or holds the bytes that have not been delivered, with a byte in
the page being written. -/
structure IpcInv (start : ℕ) (r : IpcRun) : Prop where
  stream : ∃ pds heap,
    Fresh r.s start ∧ Owned ⟨r.s.mem.k, pds⟩ heap ∧ r.added = [] ∧ r.delivered = [] ∨
      ∃ f w, Filled r.s pds heap start f w r.added r.delivered.length ∧ 4096 * w < r.added.length
  taken : r.delivered = r.added.take r.delivered.length
  counts : ∀ x ∈ r.reads, x.bytes.length = min x.size x.pending ∧ x.bytesRead = x.bytes.length

variable {r r' : IpcRun} {start f w fuel : ℕ} {message : List U8} {s' : IpcState}
  {pds : List U32} {heap : U32 → Prop} {k : KernelMem}

theorem IpcInv.add (h : IpcInv start r) (hguard : PagesAndBytes r (.add message))
    (hr : r.s.addBytes fuel message = .ret (.statusSuccess, s')) :
    IpcInv start ⟨s', r.added ++ message, r.reads⟩ := by
  have htaken : r.delivered = (r.added ++ message).take r.delivered.length := by
    have hle : r.delivered.length ≤ r.added.length := by
      rw [h.taken, List.length_take]
      exact Nat.min_le_right _ _
    rw [List.take_append_of_le_length hle]
    exact h.taken
  obtain ⟨pds, heap, ⟨hf, ho, hadded, hdelivered⟩ | ⟨f, w, hs, -⟩⟩ := h.stream
  · obtain ⟨w, hs', hlen⟩ := hf.addBytes_filled ho hguard hr
    refine ⟨⟨pds, heap, .inr ⟨0, w, ?_⟩⟩, htaken, h.counts⟩
    show Filled s' pds heap start 0 w (r.added ++ message) r.delivered.length ∧ _
    rw [hadded, hdelivered]
    exact ⟨hs', hlen⟩
  · obtain ⟨w', hs', hlen⟩ := hs.addBytes hguard hr
    exact ⟨⟨pds, heap, .inr ⟨f, w', hs', hlen⟩⟩, htaken, h.counts⟩

theorem IpcRun.delivered_snoc (r : IpcRun) (s' : IpcState) (x : ReadRecord) :
    (⟨s', r.added, r.reads ++ [x]⟩ : IpcRun).delivered = r.delivered ++ x.bytes := by
  rw [delivered, delivered, List.map_append, List.flatten_append]
  exact congrArg _ (List.append_nil _)

/-- Before the first `AddBytes` there is no page to read from. -/
theorem IpcState.Fresh.readBytes {s : IpcState} {size : ℕ} (hf : Fresh s start)
    (hsize : size ≠ 0) : s.readBytes fuel size = .fault := by
  have hopen : s.openRead = .fault := by
    rw [openRead, hf.buf]
    rfl
  rw [IpcState.readBytes, if_neg hsize, if_pos (by rw [hf.buf]; rfl), hopen, Outcome.fault_bind]

theorem IpcInv.read {size bytesRead : ℕ} {bytes : List U8} (h : IpcInv start r)
    (hguard : PagesAndBytes r (.read size))
    (hr : r.s.readBytes fuel size = .ret (.statusSuccess, bytes, bytesRead, s')) :
    IpcInv start ⟨s', r.added, r.reads ++ [⟨size, r.pending, bytes, bytesRead⟩]⟩ := by
  obtain ⟨pds, heap, ⟨hf, -⟩ | ⟨f, w, hs, hlen⟩⟩ := h.stream
  · by_cases hsize : size = 0
    · rw [hsize] at hr
      cases hr
    · rw [hf.readBytes hsize] at hr
      cases hr
  have hpage : size ≤ r.added.length - r.delivered.length ∨ w = 0 := by
    refine Or.imp_right (fun hle => ?_) hguard
    unfold pageSize at hle
    omega
  obtain ⟨hbytes, hread, f', hs'⟩ := hs.readBytes hpage hr
  have hcount : bytes.length = min size r.pending := by
    rw [hbytes, List.length_take, List.length_drop]
    rfl
  have hdelivered := r.delivered_snoc s' ⟨size, r.pending, bytes, bytesRead⟩
  refine ⟨⟨pds, heap, .inr ⟨f', w, ?_, hlen⟩⟩, ?_, fun x hx => ?_⟩
  · rwa [hdelivered, List.length_append]
  · rw [hdelivered, List.length_append, List.take_add, ← h.taken]
    have hcount : bytes.length = min size (r.added.length - r.delivered.length) := hcount
    refine congrArg _ (hbytes.trans (List.take_eq_take_iff.mpr ?_))
    rw [List.length_drop]
    dsimp only
    omega
  · rcases List.mem_append.mp hx with hx | hx
    · exact h.counts x hx
    · rw [List.mem_singleton.mp hx]
      exact ⟨hcount, hread⟩

/-- The rest of the system keeps what the stream is made of. -/
theorem IpcState.Laid.others {s : IpcState} {n pos : ℕ} (hl : Laid s start f w n pos)
    (hpool : k.gPagePool.Serves (s.buf.pagesList.map s.mem.vAddr)) :
    Laid ⟨s.buf, { s.mem with k }⟩ start f w n pos := by
  obtain ⟨hw, hread⟩ := hl
  refine ⟨⟨hw.le, hw.heapTop, hw.list, hw.freed, hw.addr, hw.inj, hpool, hw.write,
    hw.limit, hw.begun, hw.ptr, hw.room⟩, ?_⟩
  rcases hread with hu | hread
  · exact .inl ⟨hu.ptr, hu.page, hu.first, hu.pos⟩
  · exact .inr ⟨hread.page, hread.low, hread.high, hread.ptr, hread.limit⟩

theorem IpcState.Filled.others {s : IpcState} {added : List U8} {pos : ℕ} {pds' : List U32}
    {heap' : U32 → Prop} (h : Filled s pds heap start f w added pos)
    (hholds : IpcMem.Holds { s.mem with k } pds' heap' s.buf.pagesList)
    (hbytes : ∀ p ∈ s.buf.pagesList, ∀ v, frameOf v = (s.mem.pages p).vAddr →
      k.mmu.readByte v = s.mem.k.mmu.readByte v) :
    Filled ⟨s.buf, { s.mem with k }⟩ pds' heap' start f w added pos := by
  obtain ⟨hs, -, hcontent⟩ := h
  refine ⟨(hs.laid.others hholds.serves).stream hs.pos_le, hholds, fun i c hi hc => ?_⟩
  have hlt : i < added.length := (List.getElem?_eq_some_iff.mp hc).1
  obtain ⟨hmem, -, hframe⟩ := hs.written.inPage (Nat.le_trans hs.laid.low hi)
    (Nat.lt_of_lt_of_le hlt hs.written.room)
  exact (hbytes _ hmem _ hframe).trans (hcontent i c hi hc)

theorem IpcInv.others (h : IpcInv start r)
    (hholds : IpcMem.Holds { r.s.mem with k } pds heap r.s.buf.pagesList)
    (hbytes : ∀ p ∈ r.s.buf.pagesList, ∀ v, frameOf v = (r.s.mem.pages p).vAddr →
      k.mmu.readByte v = r.s.mem.k.mmu.readByte v) :
    IpcInv start ⟨⟨r.s.buf, { r.s.mem with k }⟩, r.added, r.reads⟩ := by
  refine ⟨⟨pds, heap, ?_⟩, h.taken, h.counts⟩
  obtain ⟨_, _, ⟨hf, -, hrest⟩ | ⟨f, w, hs, hlen⟩⟩ := h.stream
  · have hpool := hholds.serves
    rw [hf.buf] at hpool
    exact .inl ⟨⟨hf.buf, hf.heapTop, hf.freed, hpool⟩, hholds.owned, hrest⟩
  · exact .inr ⟨f, w, hs.others hholds hbytes, hlen⟩

theorem IpcInv.step {op : IpcOp} (h : IpcInv start r) (hguard : PagesAndBytes r op)
    (hstep : IpcStep r op r') : IpcInv start r' := by
  cases hstep with
  | add hr => exact h.add hguard hr
  | read hr => exact h.read hguard hr
  | others hholds hbytes => exact h.others hholds hbytes

/-- The invariant says what the buffer is for. -/
theorem IpcInv.isFifo (h : IpcInv start r) : IsFifo start r := by
  refine ⟨h.taken ▸ List.take_prefix _ _, h.counts, ?_, ?_⟩
  · obtain ⟨_, _, ⟨hf, -⟩ | ⟨f, w, hs, -⟩⟩ := h.stream
    · rw [hf.freed, hf.buf, hf.heapTop, Nat.sub_self]
      rfl
    · have hw := hs.stream.written
      have hle := hw.le
      rw [hw.freed, hw.list, hw.heapTop, List.range'_append_1]
      congr 1
      omega
  · obtain ⟨_, _, ⟨hf, -⟩ | ⟨f, w, hs, -⟩⟩ := h.stream
    · intro p hp
      rw [hf.freed] at hp
      exact absurd hp List.not_mem_nil
    · intro p hp hwrite
      have hw := hs.stream.written
      rw [hw.freed, List.mem_range'_1] at hp
      rw [hw.write] at hwrite
      cases hwrite
      have hle := hw.le
      omega

/-- In every state of a run that starts with a new buffer and every frame in one place, that
finds a physical page for each page it takes, and whose reads ask for no more than is
pending as soon as a second page is needed, the buffer is a FIFO stream. -/
theorem ipc_isFifo {s₀ : IpcState} {ops : List IpcOp} (hfresh : Fresh s₀ start)
    (howned : Owned ⟨s₀.mem.k, pds⟩ heap)
    (h : Run (Guarded PagesAndBytes IpcStep) ⟨s₀, [], []⟩ ops r) : IsFifo start r := by
  have hinv : IpcInv start r := h.guarded_invariant (fun _ _ _ hi hc hs => hi.step hc hs)
    ⟨⟨pds, heap, .inl ⟨hfresh, howned, rfl, rfl⟩⟩, rfl, fun x hx => absurd hx List.not_mem_nil⟩
  exact hinv.isFifo

/-- A message of a page and a byte is added, and read. -/
theorem boot_isFifo : ∃ p r, PagePool.bss.init kernelInfo = .ret p ∧
    Run (Guarded PagesAndBytes IpcStep) ⟨bootIpc p, [], []⟩
      [.add (List.replicate 4096 7 ++ [8]), .read 4097] r ∧ IsFifo 0 r := by
  obtain ⟨p, hp⟩ := boot_init
  generalize hmessage : (List.replicate 4096 7 ++ [8] : List U8) = message
  have hlength : message.length = 4097 := by
    rw [← hmessage, List.length_append, List.length_replicate]
    rfl
  have hfresh := bootIpc_fresh hp
  have howned := bootIpc_owned hp
  have hsup : Supplied (bootIpc p) [] (1 + 1 + 1) := (bootIpc_supplied hp).mono (by decide)
  have hpages : PagesAndBytes ⟨bootIpc p, [], []⟩ (.add message) := by
    have hfree := (bootIpc_supplied hp).supply.pages
    show (message.length - _ + 4095) / 4096 ≤ (bootIpc p).mem.k.gPmm.freePages.card
    omega
  obtain ⟨s₁, live, hadd, hsup⟩ := hsup.addBytes hfresh howned
    (show message ≠ [] from List.ne_nil_of_length_pos (by omega)) (by omega)
  obtain ⟨w, hs, hlen⟩ := hfresh.addBytes_filled howned hpages hadd
  have hroom := hs.stream.written.room
  obtain rfl : w = 1 := by omega
  obtain ⟨fuel, bytes, s₂, -, hread⟩ := hsup.readBytes_over hs (show 0 ≤ _ by omega)
    (show _ < 0 + 4097 by omega) (by omega)
  have hpending : PagesAndBytes ⟨s₁, [] ++ message, []⟩ (.read 4097) := .inl hlength.ge
  have hrun : Run (Guarded PagesAndBytes IpcStep) ⟨bootIpc p, [], []⟩
      [.add message, .read 4097] _ :=
    (Run.single ⟨hpages, .add hadd⟩).snoc ⟨hpending, .read hread⟩
  exact ⟨p, _, hp, hrun, ipc_isFifo hfresh howned hrun⟩

/-- A message of 4097 bytes is added, and a read asks for 4098 of them: it gets a
byte that was never written. -/
theorem boot_not_isFifo : ∃ p r, PagePool.bss.init kernelInfo = .ret p ∧
    Run IpcStep ⟨bootIpc p, [], []⟩ [.add (List.replicate 4097 7), .read 4098] r ∧
    ¬ IsFifo 0 r := by
  obtain ⟨p, hp⟩ := boot_init
  obtain ⟨message, hmessage⟩ : ∃ message : List U8, message = List.replicate 4097 7 := ⟨_, rfl⟩
  have hlength : message.length = 4097 := by rw [hmessage, List.length_replicate]
  rw [← hmessage]
  have hfresh := bootIpc_fresh hp
  have howned := bootIpc_owned hp
  have hsup : Supplied (bootIpc p) [] (1 + 1 + 1) := (bootIpc_supplied hp).mono (by decide)
  have hpages : (bootIpc p).pagesFor message ≤ (bootIpc p).mem.k.gPmm.freePages.card := by
    have hfree := (bootIpc_supplied hp).supply.pages
    show (message.length - _ + 4095) / 4096 ≤ (bootIpc p).mem.k.gPmm.freePages.card
    omega
  obtain ⟨s₁, live, hadd, hsup⟩ := hsup.addBytes hfresh howned
    (show message ≠ [] from List.ne_nil_of_length_pos (by omega)) (by omega)
  obtain ⟨w, hs, hlen⟩ := hfresh.addBytes_filled howned hpages hadd
  have hroom := hs.stream.written.room
  obtain rfl : w = 1 := by omega
  obtain ⟨fuel, bytes, s₂, hbytes, hread⟩ := hsup.readBytes_over hs (show 0 ≤ _ by omega)
    (show _ < 0 + 4098 by omega) (by omega)
  have hrun : Run IpcStep ⟨bootIpc p, [], []⟩ [.add message, .read 4098] _ :=
    (Run.single (.add hadd)).snoc (.read hread)
  refine ⟨p, _, hp, hrun, fun hfifo => ?_⟩
  -- the read reports one byte more than was pending
  have hcount := (hfifo.counts _ (List.mem_append_right _ List.mem_cons_self)).1
  have hpending : ((⟨s₁, [] ++ message, []⟩ : IpcRun).pending) = 4097 := by
    rw [IpcRun.pending, List.nil_append, hlength]
    rfl
  rw [hbytes] at hcount
  dsimp only at hcount
  rw [hpending] at hcount
  omega

/-! ## The rest of the system -/

section Rest

variable {held held' : List Page} {w₀ w₁ : World} {op : MemoryOp} {ops : List MemoryOp}
  {s s' : Holding} {page : Page} {v : U32}

/-- A page that is held keeps its bytes in every step of the system but its own `Free`. -/
theorem MemoryStep.heldPage (h : MemoryStep s op s') (hinv : MemoryInv s)
    (hpage : page ∈ s.held) (hop : op ≠ .kernel (.free page)) (hv : frameOf v = page.vAddr) :
    page ∈ s'.held ∧ s'.w.s.mem.mmu.readByte v = s.w.s.mem.mmu.readByte v := by
  have ho := hinv.holding.owned
  have hheld := hinv.holding.held page hpage
  have hcall {w w' : World} {held : List Page} {call : WorldOp} (hinv : MemoryInv ⟨w, held⟩)
      (hpage : page ∈ held) (hstep : UserStep w call w') :
      w'.s.mem.mmu.readByte v = w.s.mem.mmu.readByte v := by
    obtain ⟨tops, hrun, hframes, -⟩ := hstep.heapPages hinv.holding.inv
    exact (hinv.holding.held page hpage).lasting hrun hinv.holding.owned hframes hv
  cases h with
  | kernel hstep =>
    cases hstep with
    | call hstep => exact ⟨hpage, hcall hinv hpage hstep⟩
    | allocate hr hmem =>
      have hbefore := (consumes_pageAlloc hr).notExhausted hmem
      obtain ⟨i, hi⟩ := Option.ne_none_iff_exists'.mp hbefore.2
      obtain ⟨ho', -, hkeep, -⟩ := Owned.pageAlloc ho hi hbefore.1 hr
      have hdata := hheld.dataFrame ho
      have hhigh := hdata.high
      refine ⟨List.mem_cons_of_mem _ hpage, ?_⟩
      refine hheld.readByte_eq ho (hkeep page hheld) ho' (fun j hj => ?_) hv
      exact pageAlloc_words ho.separate.spaces hr hheld.entry.frame (.inr (by omega)) hj
    | @free w held page' fuel k hmem hr =>
      have hne : page ≠ page' := by
        rintro rfl
        exact hop rfl
      refine ⟨(List.mem_erase_of_ne hne).mpr hpage, ?_⟩
      show k.mmu.readByte v = w.s.mem.mmu.readByte v
      rw [pageFree_mmu hr]
  | fault _ _ hstep => exact ⟨hpage, hcall hinv hpage hstep⟩
  | copy hp _ hlo hhi _ hr =>
    obtain ⟨hinv', hk⟩ := hinv.copy hp hlo hhi hr
    have hcur := hinv'.holding.owned.separate.spaces.current
    exact ⟨hpage, hk.readByte hinv.stores (List.mem_map_of_mem hp) ho hcur hheld hv⟩
  | read => exact ⟨hpage, rfl⟩
  | write hp hcr3 hin hr =>
    obtain ⟨hinv', hk⟩ := hinv.write hp hcr3 hin hr
    have hcur := hinv'.holding.owned.separate.spaces.current
    exact ⟨hpage, hk.readByte hinv.stores (List.mem_map_of_mem hp) ho hcur hheld hv⟩

theorem heldPage_run (h : Run MemoryStep s ops s') (hinv : MemoryInv s) (hpage : page ∈ s.held)
    (hops : MemoryOp.kernel (.free page) ∉ ops) (hv : frameOf v = page.vAddr) :
    page ∈ s'.held ∧ s'.w.s.mem.mmu.readByte v = s.w.s.mem.mmu.readByte v := by
  induction h with
  | nil => exact ⟨hpage, rfl⟩
  | @snoc s₁ s₂ ops op hrun hstep ih =>
    rw [List.mem_append, List.mem_singleton] at hops
    obtain ⟨hpage₁, hsame₁⟩ := ih fun hmem => hops (.inl hmem)
    have hinv₁ : MemoryInv s₁ := hrun.invariant (fun _ _ _ hi hs => hi.step hs) hinv
    obtain ⟨hpage₂, hsame₂⟩ := hstep.heldPage hinv₁ hpage₁ (fun heq => hops (.inr heq.symm)) hv
    exact ⟨hpage₂, hsame₂.trans hsame₁⟩

/-- Whatever the processes and the rest of the kernel do, as long as they free no page of the
buffer, is such a step. -/
theorem IpcStep.of_run (h : Run MemoryStep ⟨w₀, held⟩ ops ⟨w₁, held'⟩)
    (hinv : MemoryInv ⟨w₀, held⟩) (hk : r.s.mem.k = w₀.s.mem)
    (hnodup : (r.s.buf.pagesList.map r.s.mem.vAddr).Nodup)
    (hpages : ∀ p ∈ r.s.buf.pagesList, r.s.mem.pages p ∈ held ∧
      MemoryOp.kernel (.free (r.s.mem.pages p)) ∉ ops) :
    IpcStep r .others ⟨⟨r.s.buf, { r.s.mem with k := w₁.s.mem }⟩, r.added, r.reads⟩ := by
  have hinv₁ : MemoryInv ⟨w₁, held'⟩ := h.invariant (fun _ _ _ hi hs => hi.step hs) hinv
  have hkeep (p : ℕ) (hp : p ∈ r.s.buf.pagesList) (v : U32)
      (hv : frameOf v = (r.s.mem.pages p).vAddr) :=
    heldPage_run h hinv (hpages p hp).1 (hpages p hp).2 hv
  refine .others ⟨hinv₁.holding.owned, fun p hp => ?_, hnodup⟩ fun p hp v hv => ?_
  · have hheld := hinv.holding.held _ (hpages p hp).1
    have hframe : IsFrame (r.s.mem.pages p).vAddr :=
      (hinv.holding.owned.pool.inUse hheld.inUse).1
    exact hinv₁.holding.held _ (hkeep p hp _ hframe.frameOf_eq).1
  · rw [hk]
    exact (hkeep p hp v hv).2

end Rest

end LtMicros
