import LtMicros.IpcLocks

/-!
# Wake-ups of the server

`AddBytes` signals the event of a buffer once for each message, `EventWait` takes
the signal back once for each `Receive`, and a `Receive` takes as many bytes as
its caller has room for. Runs of successful calls on one handle, where calls may
be in progress at the same time.
-/

namespace LtMicros

open Lib IpcState

/-- A state of a run: the handler, the `Receive` that each thread is in with what
its `EventWait` has answered, the bytes that were sent, and how many were
received. -/
structure TalkRun where
  h : IpcHandler
  receiving : ℕ → Option (ReceiveArgs × Bool)
  added : List U8
  delivered : ℕ

/-- How many of the bytes that were sent have not been received. -/
def TalkRun.pending (r : TalkRun) : ℕ := r.added.length - r.delivered

/-- The steps of a run. -/
inductive TalkOp where
  | send
  | receiveBegin
  | receiveEnd (size : ℕ)
  | others

/-- A successful `Send`, one of the two parts of a successful `Receive`, or what the
rest of the system does: it keeps the object, and the pool goes on serving. -/
inductive TalkStep (handle : U32) : TalkRun → TalkOp → TalkRun → Prop
  | send {r : TalkRun} {fuel clientProcess : ℕ} {message : List U8} {h' : IpcHandler} :
      r.h.send fuel handle clientProcess (some message) = .ret (.statusSuccess, h') →
      TalkStep handle r .send { r with h := h', added := r.added ++ message }
  | receiveBegin {r : TalkRun} {thread i : ℕ} {a : ReceiveArgs} {status : KeStatus}
      {passed : Bool} {h' : IpcHandler} :
      r.receiving thread = none → a.handle = handle →
      r.h.receiveBegin a = .ret (.inr (status, i)) →
      r.h.receiveWait thread i = .ret (passed, h') →
      TalkStep handle r .receiveBegin
        { r with h := h', receiving := Function.update r.receiving thread (some (a, passed)) }
  | receiveEnd {r : TalkRun} {thread i fuel bytesRead : ℕ} {a : ReceiveArgs} {passed : Bool}
      {status : KeStatus} {bytes : List U8} {h' : IpcHandler} :
      r.receiving thread = some (a, passed) → r.h.findIpcObjectByHandle handle = some i →
      (if passed then r.h else r.h.receiveWake i).receiveEnd fuel status i a =
        .ret (.statusSuccess, bytes, some bytesRead, h') →
      TalkStep handle r (.receiveEnd a.size)
        { r with
          h := h', receiving := Function.update r.receiving thread none
          delivered := r.delivered + bytesRead }
  | others {r : TalkRun} {i : ℕ} {o : IpcObject} {h' : IpcHandler} {k : KernelMem} :
      r.h.findIpcObjectByHandle handle = some i → r.h.ipcObjects[i]? = some o →
      SameObjects r.h h' → h'.ipcObjects[i]? = some o → h'.mem = { r.h.mem with k } →
      k.gPagePool.Serves (o.buffer.pagesList.map r.h.mem.vAddr) →
      TalkStep handle r .others { r with h := h' }

/-- A `Receive` takes all bytes that are there; once a second page has been needed,
it asks for no more than these. -/
def Drains (r : TalkRun) : TalkOp → Prop
  | .receiveEnd size =>
    r.pending ≤ size ∧ (size ≤ r.pending ∨ r.added.length ≤ pageSize)
  | _ => True

/-- When no call is in progress and there are bytes to receive, the event of the
object is signaled, and the next `Receive` does not block. -/
def ReadyWhilePending (i : ℕ) (r : TalkRun) : Prop :=
  (∀ thread, r.receiving thread = none) → 0 < r.pending →
    ∃ o, r.h.ipcObjects[i]? = some o ∧ o.buffer.readyToReadEvent.signaled = true ∧
      ∀ thread, ∃ h', r.h.receiveWait thread i = .ret (true, h')

/-! ## The buffer, whatever its event -/

/-- The state of a buffer with another event. -/
def IpcState.withEvent (s : IpcState) (evt : Event) : IpcState :=
  { s with buf := { s.buf with readyToReadEvent := evt } }

/-- Nothing has been added, or the stream stands behind the delivered bytes. -/
def Started (s : IpcState) (start n delivered : ℕ) : Prop :=
  (Fresh (s.withEvent IpcBuffer.init.readyToReadEvent) start ∧ n = 0 ∧ delivered = 0) ∨
    ∃ f w, Stream s start f w n delivered ∧ 4096 * w < n

section Buffer

variable {s s' : IpcState} {start n delivered fuel : ℕ} {message : List U8} {evt : Event}

theorem Started.event (h : Started s start n delivered) (evt : Event) :
    Started (s.withEvent evt) start n delivered := by
  rcases h with hfresh | ⟨f, w, hs, hlen⟩
  · exact .inl hfresh
  · exact .inr ⟨f, w, hs.signal evt, hlen⟩

/-- `AllocateWritePage` does not look at the event. -/
theorem IpcState.allocateWritePage_withEvent (s : IpcState) (evt : Event) :
    (s.withEvent evt).allocateWritePage =
      s.allocateWritePage >>= fun r => .ret (r.1, r.2.withEvent evt) := by
  unfold allocateWritePage
  show s.mem.allocatePage >>= _ = (s.mem.allocatePage >>= _) >>= _
  cases s.mem.allocatePage with
  | ret r =>
    obtain ⟨newPage, mem⟩ := r
    cases newPage <;> rfl
  | panic => rfl
  | fault => rfl
  | hang => rfl

theorem Started.addBytes (h : Started s start n delivered)
    (hr : s.addBytes fuel message = .ret (.statusSuccess, s')) :
    Started s' start (n + message.length) delivered := by
  rcases h with ⟨hfresh, rfl, rfl⟩ | ⟨f, w, hs, hlen⟩
  · have hptr : s.buf.currentPageWritePtr = 0 := congrArg IpcBuffer.currentPageWritePtr hfresh.buf
    rw [IpcState.addBytes] at hr
    split at hr
    · cases hr
    rename_i hne
    obtain ⟨⟨status, t⟩, halloc, hr⟩ := Outcome.bind_eq_ret.mp hr
    dsimp only at hr
    split at hr
    · rename_i hfailed
      cases hr
      cases hfailed
    · rename_i hok
      rw [eq_of_not_failed hok] at halloc
      have hreset : (s.withEvent IpcBuffer.init.readyToReadEvent).allocateWritePage =
          .ret (.statusSuccess, t.withEvent IpcBuffer.init.readyToReadEvent) := by
        rw [s.allocateWritePage_withEvent, halloc]
        rfl
      obtain ⟨w, hs, hlen⟩ :=
        ((hfresh.allocateWritePage hreset).signal t.buf.readyToReadEvent).addRest hne hr
      exact .inr ⟨0, w, hs, hlen⟩
  · obtain ⟨w', hs', hlen'⟩ := hs.addBytes hr
    exact .inr ⟨f, w', hs', hlen'⟩

/-- A successful `ReadBytes` that drains the buffer leaves nothing in it. -/
theorem Started.readBytes {size bytesRead : ℕ} {bytes : List U8}
    (h : Started s start n delivered) (hall : n - delivered ≤ size)
    (hpage : size ≤ n - delivered ∨ n ≤ pageSize)
    (hr : s.readBytes fuel size = .ret (.statusSuccess, bytes, bytesRead, s')) :
    Started s' start n (delivered + bytesRead) ∧ n ≤ delivered + bytesRead := by
  rcases h with ⟨hfresh, rfl, rfl⟩ | ⟨f, w, hs, hlen⟩
  · have hptr : s.buf.currentPageReadPtr = 0 := congrArg IpcBuffer.currentPageReadPtr hfresh.buf
    have hlist : s.buf.pagesList = [] := congrArg IpcBuffer.pagesList hfresh.buf
    rw [IpcState.readBytes] at hr
    split at hr
    · cases hr
    rw [openRead, hlist] at hr
    cases hr
  · have hpage : size ≤ n - delivered ∨ w = 0 := by
      apply hpage.imp_right
      intro hle
      unfold pageSize at hle
      omega
    obtain ⟨hcount, hread, -, -, f', hs'⟩ := hs.readBytes hpage hr
    rw [← hread] at hcount
    refine ⟨.inr ⟨f', w, ?_, hlen⟩, ?_⟩
    · rwa [hread]
    · have hle := hs.pos_le
      omega

end Buffer

/-! ## The invariant -/

/-- The handle designates the object, whose buffer stands behind the delivered
bytes. Nothing is pending, or the event is signaled, or a `Receive` is under way. -/
structure TalkInv (handle : U32) (i start : ℕ) (r : TalkRun) : Prop where
  find : r.h.findIpcObjectByHandle handle = some i
  object : ∃ o, r.h.ipcObjects[i]? = some o ∧
    Started ⟨o.buffer, r.h.mem⟩ start r.added.length r.delivered ∧
    o.buffer.readyToReadEvent.value = false ∧
    (r.pending = 0 ∨ o.buffer.readyToReadEvent.signaled = true ∨
      ∃ thread, r.receiving thread ≠ none)

section Runs

variable {handle : U32} {i start : ℕ} {r r' : TalkRun} {op : TalkOp} {h h' : IpcHandler}

/-- A handle is looked up among the handles. -/
theorem SameObjects.find (hs : SameObjects h h') :
    h'.findIpcObjectByHandle handle = h.findIpcObjectByHandle handle := by
  have hmap (l : List IpcObject) : l.findIdx? (fun o => decide (o.handle = handle)) =
      (l.map fun o => (o.id, o.handle, o.serverProcess)).findIdx?
        (fun x => decide (x.2.1 = handle)) := by
    rw [List.findIdx?_map]
    rfl
  rw [IpcHandler.findIpcObjectByHandle, IpcHandler.findIpcObjectByHandle, hmap, hmap, hs.objects]

/-- What a successful `Send` does to the object that its handle designates. -/
theorem IpcHandler.send_object {fuel clientProcess : ℕ} {message : List U8} {o : IpcObject}
    (hfind : h.findIpcObjectByHandle handle = some i) (ho : h.ipcObjects[i]? = some o)
    (hr : h.send fuel handle clientProcess (some message) = .ret (.statusSuccess, h')) :
    ∃ s, (IpcState.mk o.buffer h.mem).addBytes fuel message = .ret (.statusSuccess, s) ∧
      h'.ipcObjects[i]? = some { o with buffer := s.buf, criticalSection := 0 } ∧
      h'.mem = s.mem := by
  unfold send at hr
  split at hr
  · cases hr
  split at hr
  · cases hr
  split at hr
  · cases hr
  · cases hr
  rename_i message hmessage
  cases hmessage
  obtain ⟨nullSection, -, hr⟩ := Outcome.bind_eq_ret.mp hr
  dsimp only at hr
  have hfind' : { h with nullSection }.findIpcObjectByHandle handle = some i := hfind
  rw [hfind'] at hr
  dsimp only at hr
  rw [ho] at hr
  simp only [Outcome.ofOption_some, Outcome.ret_bind] at hr
  split at hr
  · cases hr
  obtain ⟨⟨status, s⟩, hadd, hr⟩ := Outcome.bind_eq_ret.mp hr
  cases hr
  refine ⟨s, hadd, ?_, rfl⟩
  show ((h.ipcObjects.modify i _).modify i _)[i]? = _
  rw [List.getElem?_modify_eq, List.getElem?_modify_eq, ho]
  rfl

/-- What the end of a successful `Receive` does to its object. -/
theorem IpcHandler.receiveEnd_object {fuel bytesRead : ℕ} {status : KeStatus} {a : ReceiveArgs}
    {bytes : List U8} {o : IpcObject} (ho : h.ipcObjects[i]? = some o)
    (hr : h.receiveEnd fuel status i a = .ret (.statusSuccess, bytes, some bytesRead, h')) :
    ∃ s, (IpcState.mk o.buffer h.mem).readBytes fuel a.size =
        .ret (.statusSuccess, bytes, bytesRead, s) ∧
      h'.ipcObjects[i]? = some { o with buffer := s.buf, criticalSection := 0 } ∧
      h'.mem = s.mem := by
  unfold receiveEnd at hr
  rw [ho] at hr
  simp only [Outcome.ofOption_some, Outcome.ret_bind] at hr
  obtain ⟨criticalSection, -, hr⟩ := Outcome.bind_eq_ret.mp hr
  obtain ⟨⟨st, bs, n, s⟩, hread, hr⟩ := Outcome.bind_eq_ret.mp hr
  dsimp only at hr
  split at hr
  · cases hr
  rename_i hok
  rw [eq_of_not_failed hok] at hread
  cases hr
  refine ⟨s, hread, ?_, rfl⟩
  show (((h.ipcObjects.modify i _).modify i _).modify i _)[i]? = _
  rw [List.getElem?_modify_eq, List.getElem?_modify_eq, List.getElem?_modify_eq, ho]
  rfl

/-- The event part of a `Receive`: the signal is taken, or the thread is noted. -/
theorem IpcHandler.receiveWait_object {thread : ℕ} {passed : Bool} {o : IpcObject}
    (ho : h.ipcObjects[i]? = some o) (hr : h.receiveWait thread i = .ret (passed, h')) :
    ∃ evt, evt.value = false ∧ h'.ipcObjects[i]? = some { o with
      buffer := { o.buffer with readyToReadEvent := evt } } ∧ h'.mem = h.mem := by
  unfold receiveWait at hr
  rw [ho] at hr
  simp only [Outcome.ofOption_some, Outcome.ret_bind] at hr
  obtain ⟨⟨b, evt⟩, hwait, hr⟩ := Outcome.bind_eq_ret.mp hr
  cases hr
  refine ⟨evt, ?_, ?_, rfl⟩
  · unfold Event.waitBegin at hwait
    cases hvalue : o.buffer.readyToReadEvent.value with
    | true =>
      rw [hvalue] at hwait
      cases hwait
    | false =>
      rw [hvalue] at hwait
      simp only [Bool.false_eq_true, if_false] at hwait
      split at hwait
      · cases hwait
        rfl
      · cases hwait
        rfl
  · show (h.ipcObjects.modify i _)[i]? = _
    rw [List.getElem?_modify_eq, ho]
    rfl

theorem TalkInv.send {fuel clientProcess : ℕ} {message : List U8} (hi : TalkInv handle i start r)
    (hr : r.h.send fuel handle clientProcess (some message) = .ret (.statusSuccess, h')) :
    TalkInv handle i start { r with h := h', added := r.added ++ message } := by
  obtain ⟨o, ho, hstarted, -, -⟩ := hi.object
  obtain ⟨s, hadd, ho', hmem⟩ := IpcHandler.send_object hi.find ho hr
  obtain ⟨hsignaled, hvalue⟩ := IpcState.addBytes_signaled hadd
  refine ⟨(SameObjects.send hr).find.trans hi.find, _, ho', ?_, hvalue, .inr (.inl hsignaled)⟩
  show Started ⟨s.buf, h'.mem⟩ start (r.added ++ message).length r.delivered
  rw [hmem, List.length_append]
  exact hstarted.addBytes hadd

theorem TalkInv.receiveBegin {thread j : ℕ} {a : ReceiveArgs} {status : KeStatus} {passed : Bool}
    (hi : TalkInv handle i start r) (ha : a.handle = handle)
    (hbegin : r.h.receiveBegin a = .ret (.inr (status, j)))
    (hwait : r.h.receiveWait thread j = .ret (passed, h')) :
    TalkInv handle i start
      { r with h := h', receiving := Function.update r.receiving thread (some (a, passed)) } := by
  obtain ⟨o, ho, hstarted, -, -⟩ := hi.object
  have hj : i = j := by
    have hfind := (IpcHandler.receiveBegin_inr hbegin).2
    rw [ha, hi.find] at hfind
    exact Option.some.inj hfind
  subst hj
  obtain ⟨evt, hvalue, ho', hmem⟩ := IpcHandler.receiveWait_object ho hwait
  refine ⟨(SameObjects.receiveWait hwait).find.trans hi.find, _, ho', ?_, hvalue, ?_⟩
  · show Started ⟨{ o.buffer with readyToReadEvent := evt }, h'.mem⟩ start r.added.length r.delivered
    rw [hmem]
    exact hstarted.event evt
  · refine .inr (.inr ⟨thread, ?_⟩)
    show Function.update r.receiving thread (some (a, passed)) thread ≠ none
    rw [Function.update_self]
    exact Option.some_ne_none _

/-- The handler of a thread that goes on after its wait. -/
theorem TalkInv.wake (hi : TalkInv handle i start r) (passed : Bool) :
    ∃ o, (if passed then r.h else r.h.receiveWake i).ipcObjects[i]? = some o ∧
      Started ⟨o.buffer, (if passed then r.h else r.h.receiveWake i).mem⟩ start
        r.added.length r.delivered ∧
      o.buffer.readyToReadEvent.value = false ∧
      SameObjects r.h (if passed then r.h else r.h.receiveWake i) := by
  obtain ⟨o, ho, hstarted, hvalue, -⟩ := hi.object
  cases passed with
  | true => exact ⟨o, ho, hstarted, hvalue, .refl _⟩
  | false =>
    refine ⟨{ o with buffer := { o.buffer with
      readyToReadEvent := o.buffer.readyToReadEvent.waitEnd } }, ?_,
      hstarted.event o.buffer.readyToReadEvent.waitEnd, rfl, .receiveWake _ _⟩
    show (r.h.ipcObjects.modify i _)[i]? = _
    rw [List.getElem?_modify_eq, ho]
    rfl

/-- Reading does not change the event. -/
theorem IpcState.readBytes_event {s s' : IpcState} {fuel size n : ℕ} {status : KeStatus}
    {bytes : List U8} (h : s.readBytes fuel size = .ret (status, bytes, n, s')) :
    s'.buf.readyToReadEvent = s.buf.readyToReadEvent := by
  have hnext {t t' : IpcState} (h : t.nextReadPage fuel = .ret t') :
      t'.buf.readyToReadEvent = t.buf.readyToReadEvent := by
    obtain ⟨page, -, h⟩ := Outcome.bind_eq_ret.mp h
    obtain ⟨k, -, h⟩ := Outcome.bind_eq_ret.mp h
    obtain ⟨next, -, h⟩ := Outcome.bind_eq_ret.mp h
    cases h
    rfl
  have hturn {x : List U8 × ℕ × IpcState} {y : List U8 × ℕ × IpcState ⊕ List U8 × ℕ × IpcState}
      (h : readTurn fuel x = .ret y) :
      (Sum.elim (fun x : List U8 × ℕ × IpcState => x.2.2) (fun x => x.2.2) y).buf.readyToReadEvent =
        x.2.2.buf.readyToReadEvent := by
    obtain ⟨out, localSize, t⟩ := x
    obtain ⟨⟨bytes, left, t'⟩, hwhile, h⟩ := Outcome.bind_eq_ret.mp h
    obtain ⟨ptr, rfl⟩ := readWhile_moves hwhile
    dsimp only at h ⊢
    split at h
    · split at h
      · obtain ⟨u, hu, h⟩ := Outcome.bind_eq_ret.mp h
        cases h
        exact hnext hu
      · cases h
        rfl
    · cases h
      rfl
  have hrest {t : IpcState} (h : t.readRest fuel size = .ret (status, bytes, n, s')) :
      s'.buf.readyToReadEvent = t.buf.readyToReadEvent := by
    obtain ⟨⟨bs, left, u⟩, hloop, h⟩ := Outcome.bind_eq_ret.mp h
    have hu : u.buf.readyToReadEvent = t.buf.readyToReadEvent := by
      apply Outcome.loop_invariant
        (I := fun x : List U8 × ℕ × IpcState => x.2.2.buf.readyToReadEvent =
          t.buf.readyToReadEvent)
        (Q := fun x : List U8 × ℕ × IpcState => x.2.2.buf.readyToReadEvent =
          t.buf.readyToReadEvent) _ _ rfl hloop
      · intro x x' hx h
        exact (hturn h).trans hx
      · intro x x' hx h
        exact (hturn h).trans hx
    cases h
    exact hu
  unfold readBytes at h
  split at h
  · cases h
    rfl
  split at h
  · obtain ⟨t, hopen, h⟩ := Outcome.bind_eq_ret.mp h
    obtain ⟨page, -, hopen⟩ := Outcome.bind_eq_ret.mp hopen
    cases hopen
    have hevent := hrest h
    exact hevent
  · exact hrest h

theorem TalkInv.receiveEnd {thread j fuel bytesRead : ℕ} {a : ReceiveArgs} {passed : Bool}
    {status : KeStatus} {bytes : List U8} (hi : TalkInv handle i start r)
    (hguard : Drains r (.receiveEnd a.size)) (hfind : r.h.findIpcObjectByHandle handle = some j)
    (hr : (if passed then r.h else r.h.receiveWake j).receiveEnd fuel status j a =
      .ret (.statusSuccess, bytes, some bytesRead, h')) :
    TalkInv handle i start
      { r with
        h := h', receiving := Function.update r.receiving thread none
        delivered := r.delivered + bytesRead } := by
  have hj : i = j := by
    rw [hi.find] at hfind
    exact Option.some.inj hfind
  subst hj
  obtain ⟨o, ho, hstarted, hvalue, hsame⟩ := hi.wake passed
  obtain ⟨s, hread, ho', hmem⟩ := IpcHandler.receiveEnd_object ho hr
  obtain ⟨hstarted', hall⟩ := hstarted.readBytes hguard.1 hguard.2 hread
  have hobjects := hsame.trans (SameObjects.receiveEnd hr)
  refine ⟨hobjects.find.trans hi.find, _, ho', ?_, ?_, .inl (Nat.sub_eq_zero_of_le hall)⟩
  · show Started ⟨s.buf, h'.mem⟩ start r.added.length (r.delivered + bytesRead)
    rw [hmem]
    exact hstarted'
  · exact (congrArg Event.value (IpcState.readBytes_event hread)).trans hvalue

theorem TalkInv.others {o : IpcObject} {j : ℕ} {k : KernelMem}
    (hi : TalkInv handle i start r) (hfind : r.h.findIpcObjectByHandle handle = some j)
    (ho : r.h.ipcObjects[j]? = some o) (hsame : SameObjects r.h h')
    (ho' : h'.ipcObjects[j]? = some o) (hmem : h'.mem = { r.h.mem with k })
    (hpool : k.gPagePool.Serves (o.buffer.pagesList.map r.h.mem.vAddr)) :
    TalkInv handle i start { r with h := h' } := by
  have hj : i = j := by
    rw [hi.find] at hfind
    exact Option.some.inj hfind
  subst hj
  obtain ⟨o₁, ho₁, hstarted, hvalue, hpending⟩ := hi.object
  obtain rfl : o₁ = o := Option.some.inj (ho₁.symm.trans ho)
  refine ⟨hsame.find.trans hi.find, o₁, ho', ?_, hvalue, hpending⟩
  show Started ⟨o₁.buffer, h'.mem⟩ start r.added.length r.delivered
  rw [hmem]
  rcases hstarted with ⟨hfresh, hrest⟩ | ⟨f, w, hs, hlen⟩
  · have hlist : o₁.buffer.pagesList = [] := congrArg IpcBuffer.pagesList hfresh.buf
    rw [hlist] at hpool
    exact .inl ⟨⟨hfresh.buf, hfresh.heapTop, hfresh.freed, hpool⟩, hrest⟩
  · exact .inr ⟨f, w, (hs.laid.others hpool).stream hs.pos_le, hlen⟩

theorem TalkInv.step (hi : TalkInv handle i start r) (hguard : Drains r op)
    (hstep : TalkStep handle r op r') : TalkInv handle i start r' := by
  cases hstep with
  | send hr => exact hi.send hr
  | receiveBegin _ ha hbegin hwait => exact hi.receiveBegin ha hbegin hwait
  | receiveEnd _ hfind hr => exact hi.receiveEnd hguard hfind hr
  | others hfind ho hsame ho' hmem hpool => exact hi.others hfind ho hsame ho' hmem hpool

/-- A signaled event lets the next `Receive` through. -/
theorem TalkInv.ready (hi : TalkInv handle i start r) : ReadyWhilePending i r := by
  intro hnone hpending
  obtain ⟨o, ho, -, hvalue, h0 | hsignaled | ⟨thread, hthread⟩⟩ := hi.object
  · omega
  · refine ⟨o, ho, hsignaled, ?_⟩
    intro thread
    rw [IpcHandler.receiveWait, ho]
    simp only [Outcome.ofOption_some, Outcome.ret_bind, Event.waitBegin, hvalue, hsignaled]
    exact ⟨_, rfl⟩
  · exact absurd (hnone thread) hthread

/-- In every state of a run in which each `Receive` drains the buffer, no wake-up is
lost: with bytes pending and no call in progress the event is signaled. -/
theorem ready_while_pending {h₀ : IpcHandler} {ops : List TalkOp}
    (hfind : h₀.findIpcObjectByHandle handle = some i)
    (hfresh : ∃ o, h₀.ipcObjects[i]? = some o ∧ Fresh ⟨o.buffer, h₀.mem⟩ start)
    (hrun : Run (Guarded Drains (TalkStep handle)) ⟨h₀, fun _ => none, [], 0⟩ ops r) :
    ReadyWhilePending i r := by
  have hinv : TalkInv handle i start r := by
    apply hrun.guarded_invariant
    · intro r op r' hi hguard hstep
      exact hi.step hguard hstep
    · obtain ⟨o, ho, hf⟩ := hfresh
      refine ⟨hfind, o, ho, .inl ⟨?_, rfl, rfl⟩, ?_, .inl rfl⟩
      · have hbuf : o.buffer = .init := hf.buf
        refine ⟨?_, hf.heapTop, hf.freed, hf.pool⟩
        show { o.buffer with readyToReadEvent := IpcBuffer.init.readyToReadEvent } = IpcBuffer.init
        rw [hbuf]
      · exact congrArg (fun b : IpcBuffer => b.readyToReadEvent.value) hf.buf
  exact hinv.ready

end Runs

/-! ## Two bytes in one message -/

/-- The server that process 1 has registered, before the first message. -/
def bootTalk (p : PagePool) : TalkRun := ⟨oneServer (bootIpc p).mem 0 .init, fun _ => none, [], 0⟩

/-- Process 2 sends two bytes and the server receives `n` of them, without having to
wait. Then the word of the critical section at the null pointer becomes zero again, and
process 2 sends another byte. -/
theorem boot_talk {n : ℕ} (hpos : n ≠ 0) (hn : n ≤ 2) : ∃ p r₁ r₂ r₃ r₄ r₅,
    PagePool.bss.init kernelInfo = .ret p ∧ TalkStep 1 (bootTalk p) .send r₁ ∧
    TalkStep 1 r₁ .receiveBegin r₂ ∧ TalkStep 1 r₂ (.receiveEnd n) r₃ ∧
    TalkStep 1 r₃ .others r₄ ∧ TalkStep 1 r₄ .send r₅ ∧
    r₂.pending = 2 ∧ r₃.pending = 2 - n ∧ r₅.pending = 3 - n ∧
    (∀ thread, r₃.receiving thread = none) ∧ (∀ thread, r₅.receiving thread = none) ∧
    ∀ o, r₃.h.ipcObjects[0]? = some o → o.buffer.readyToReadEvent.signaled = false := by
  obtain ⟨p, s, t, s', hp, hsend, hwait, hcleared, hread, hserves, hmore⟩ :=
    boot_receives [1, 2] hpos hn (by decide)
  obtain ⟨s'', hadd⟩ := hmore [3] (by decide) (by decide)
  have hevent : s'.buf.readyToReadEvent.signaled = false := by
    rw [IpcState.readBytes_event hread, hcleared]
  have hbegin : (oneServer s.mem 1 s.buf).receiveBegin ⟨1, 1, 0x40001000, n, 0x40000000⟩ =
      .ret (.inr (.statusFailure, 0)) := by
    simp [IpcHandler.receiveBegin, ReceiveArgs.refusal, hpos, IpcHandler.findIpcObjectByHandle,
      oneServer]
  have hend : (oneServer t.mem 1 t.buf).receiveEnd 1 .statusFailure 0
      ⟨1, 1, 0x40001000, n, 0x40000000⟩ =
        .ret (.statusSuccess, [1, 2].take n, some n, oneServer s'.mem 1 s'.buf) := by
    show t.readBytes 1 n >>= _ = _
    rw [hread]
    rfl
  have hagain : (oneServer s'.mem 0 s'.buf).send 1 1 2 (some [3]) =
      .ret (.statusSuccess, oneServer s''.mem 1 s''.buf) := by
    show s'.addBytes 1 [3] >>= _ = _
    rw [hadd]
    rfl
  have hidle (x : Option (ReceiveArgs × Bool)) (thread : ℕ) :
      Function.update (Function.update (fun _ => none) 9 x) 9 none thread = none := by
    by_cases hthread : thread = 9
    · rw [hthread, Function.update_self]
    · rw [Function.update_of_ne hthread, Function.update_of_ne hthread]
  refine ⟨p, _, _, _, ⟨oneServer s'.mem 0 s'.buf, _, _, _⟩, _, hp, .send hsend,
    .receiveBegin rfl rfl hbegin hwait,
    .receiveEnd (a := ⟨1, 1, 0x40001000, n, 0x40000000⟩) (Function.update_self _ _ _) rfl hend,
    .others rfl rfl ⟨rfl, rfl⟩ rfl rfl hserves,
    .send hagain, rfl, ?_, ?_, fun thread => hidle _ thread, fun thread => hidle _ thread, ?_⟩
  · show 2 - (0 + n) = 2 - n
    rw [Nat.zero_add]
  · show 3 - (0 + n) = 3 - n
    rw [Nat.zero_add]
  · intro o ho
    cases ho
    exact hevent

/-- Both bytes are received, and another one is sent: it is pending, and the event is
signaled. -/
theorem boot_ready_while_pending : ∃ p r, PagePool.bss.init kernelInfo = .ret p ∧
    Run (Guarded Drains (TalkStep 1)) (bootTalk p)
      [.send, .receiveBegin, .receiveEnd 2, .others, .send] r ∧
    r.pending = 1 ∧ (∀ thread, r.receiving thread = none) ∧ ReadyWhilePending 0 r := by
  obtain ⟨p, r₁, r₂, r₃, r₄, r₅, hp, hsend, hbegin, hend, hothers, hagain, hpending, -, hpending',
    -, hnone, -⟩ := boot_talk (show 2 ≠ 0 by decide) (Nat.le_refl 2)
  have hdrains : Drains r₂ (.receiveEnd 2) := ⟨hpending.le, .inl hpending.ge⟩
  have hrun : Run (Guarded Drains (TalkStep 1)) (bootTalk p)
      [.send, .receiveBegin, .receiveEnd 2, .others, .send] r₅ :=
    ((((Run.single ⟨trivial, hsend⟩).snoc ⟨trivial, hbegin⟩).snoc ⟨hdrains, hend⟩).snoc
      ⟨trivial, hothers⟩).snoc ⟨trivial, hagain⟩
  exact ⟨p, r₅, hp, hrun, hpending', hnone,
    ready_while_pending rfl ⟨_, rfl, bootIpc_fresh hp⟩ hrun⟩

/-- One of the bytes is received: the other one is pending, and the event is not
signaled. -/
theorem boot_not_ready_while_pending : ∃ p r, PagePool.bss.init kernelInfo = .ret p ∧
    Run (TalkStep 1) (bootTalk p) [.send, .receiveBegin, .receiveEnd 1] r ∧
    ¬ ReadyWhilePending 0 r := by
  obtain ⟨p, r₁, r₂, r₃, _, _, hp, hsend, hbegin, hend, -, -, -, hpending, -, hnone, -, hevent⟩ :=
    boot_talk (show 1 ≠ 0 by decide) (show 1 ≤ 2 by decide)
  refine ⟨p, r₃, hp, ((Run.single hsend).snoc hbegin).snoc hend, ?_⟩
  intro hready
  obtain ⟨o, ho, hsignaled, -⟩ := hready hnone (by omega)
  rw [hevent o ho] at hsignaled
  cases hsignaled

end LtMicros
