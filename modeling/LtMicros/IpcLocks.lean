import LtMicros.IpcAuthority

/-!
# The critical sections of the IPC handler

Which critical sections `Send` and `Receive` enter and leave, and what becomes of
those of the objects when the calls of several threads are interleaved.
-/

namespace LtMicros

open Lib

/-- An access to the critical section of an object; `none` is the null pointer. -/
inductive LockOp where
  | enter (ipcObject : Option ℕ)
  | leave (ipcObject : Option ℕ)
deriving DecidableEq

/-- A `Receive` that is not refused asks for at least one byte. -/
theorem ReceiveArgs.size_ne_zero {a : ReceiveArgs} (ha : a.refusal = none) : a.size ≠ 0 := by
  intro hsize
  unfold refusal at ha
  split_ifs at ha

/-- `ReadBytes` fails only when it is asked for nothing. -/
theorem IpcState.readBytes_success {s s' : IpcState} {fuel size n : ℕ} {status : KeStatus}
    {bytes : List U8} (hsize : size ≠ 0) (h : s.readBytes fuel size = .ret (status, bytes, n, s')) :
    status = .statusSuccess := by
  have hrest {t : IpcState} (h : t.readRest fuel size = .ret (status, bytes, n, s')) :
      status = .statusSuccess := by
    obtain ⟨x, -, h⟩ := Outcome.bind_eq_ret.mp h
    cases h
    rfl
  rw [readBytes, if_neg hsize] at h
  split at h
  · obtain ⟨t, -, h⟩ := Outcome.bind_eq_ret.mp h
    exact hrest h
  · exact hrest h

namespace IpcHandler

variable {h h' : IpcHandler} {handle : U32} {clientProcess : ℕ} {message : Option (List U8)}
  {a : ReceiveArgs} {fuel i : ℕ} {status status' : KeStatus} {bytes : List U8}
  {bytesRead : Option ℕ}

/-- Whether `Send` refuses its arguments. -/
def sendRefused (handle : U32) (clientProcess : ℕ) (message : Option (List U8)) : Bool :=
  handle = 0 ∨ clientProcess = 0 ∨ message = none ∨ message = some []

/-- The accesses of `Send` on its way to its end. Before the object has been looked
up, the pointer to it is null. -/
def sendLocks (h : IpcHandler) (handle : U32) (clientProcess : ℕ) (message : Option (List U8)) :
    List LockOp :=
  if sendRefused handle clientProcess message then []
  else [.enter none, .leave (h.findIpcObjectByHandle handle)]

/-- The accesses of a `Receive` that is not refused, with what `ReadBytes` answers. -/
def receiveLocks (ipcObject : ℕ) (status : KeStatus) : List LockOp :=
  if failed status then [.enter (some ipcObject)]
  else [.enter (some ipcObject), .leave (some ipcObject)]

/-- The word of a critical section. -/
def sectionOf (h : IpcHandler) (ipcObject : Option ℕ) : Option U32 :=
  ipcObject.elim (some h.nullSection) fun i => h.ipcObjects[i]?.map IpcObject.criticalSection

/-- An access is carried out. -/
def lock (h : IpcHandler) : LockOp → Outcome IpcHandler
  | .enter none => do return { h with nullSection := ← enter h.nullSection }
  | .enter (some i) => do
    let o ← .ofOption h.ipcObjects[i]?
    let criticalSection ← enter o.criticalSection
    return h.modify i fun o => { o with criticalSection }
  | .leave none => .ret { h with nullSection := 0 }
  | .leave (some i) => .ret (h.leave i)

/-- The same accesses, on the words alone. -/
def lockAll (h : IpcHandler) (ops : List LockOp) : Outcome IpcHandler := ops.foldlM lock h

theorem lockAll_cons (h : IpcHandler) (op : LockOp) (ops : List LockOp) :
    h.lockAll (op :: ops) = h.lock op >>= fun h => h.lockAll ops :=
  List.foldlM_cons

/-- The words of the critical sections are the same. -/
def SameSections (h h' : IpcHandler) : Prop := ∀ o, h'.sectionOf o = h.sectionOf o

theorem sectionOf_modify (h : IpcHandler) (i : ℕ) (f : IpcObject → IpcObject) (o : Option ℕ) :
    (h.modify i f).sectionOf o =
      if o = some i then h.ipcObjects[i]?.map fun o => (f o).criticalSection
      else h.sectionOf o := by
  cases o with
  | none => rfl
  | some j =>
    show ((h.ipcObjects.modify i f)[j]?).map _ = _
    rw [List.getElem?_modify]
    by_cases hij : i = j
    · subst hij
      simp only [if_true, Option.map_eq_map, Option.map_map]
      rfl
    · have hji : (some j : Option ℕ) ≠ some i := by
        intro heq
        exact hij (Option.some.inj heq).symm
      rw [if_neg hji]
      cases h' : h.ipcObjects[j]? with
      | none => simp [sectionOf, h']
      | some o => simp [sectionOf, h', hij]

theorem sameSections_setBuffer (h : IpcHandler) (i : ℕ) (s : IpcState) :
    SameSections h (h.setBuffer i s) := by
  intro o
  have hmodify := h.sectionOf_modify i (fun o => { o with buffer := s.buf }) o
  show (h.modify i fun o => { o with buffer := s.buf }).sectionOf o = _
  rw [hmodify]
  split
  · rename_i ho
    subst ho
    rfl
  · rfl

theorem sectionOf_leave (h : IpcHandler) (i : ℕ) (o : Option ℕ) :
    (h.leave i).sectionOf o =
      if o = some i then h.ipcObjects[i]?.map fun _ => 0 else h.sectionOf o :=
  h.sectionOf_modify i _ o

theorem SameSections.leave (hs : SameSections h h') (i : ℕ) :
    SameSections (h.leave i) (h'.leave i) := by
  intro o
  rw [sectionOf_leave, sectionOf_leave]
  split
  · have hi := hs (some i)
    show h'.ipcObjects[i]?.map _ = h.ipcObjects[i]?.map _
    change h'.ipcObjects[i]?.map IpcObject.criticalSection =
      h.ipcObjects[i]?.map IpcObject.criticalSection at hi
    have hmap := congrArg (Option.map fun _ => (0 : U32)) hi
    rwa [Option.map_map, Option.map_map] at hmap
  · exact hs o

theorem SameSections.lock_leave {o : Option ℕ} {h₁' : IpcHandler} (hs : SameSections h h')
    (hr : h'.lock (.leave o) = .ret h₁') :
    ∃ h₁, h.lock (.leave o) = .ret h₁ ∧ SameSections h₁ h₁' := by
  cases o with
  | none =>
    cases hr
    refine ⟨_, rfl, fun p => ?_⟩
    cases p with
    | none => rfl
    | some j => exact hs (some j)
  | some i =>
    cases hr
    exact ⟨_, rfl, hs.leave i⟩

/-! ## The parts of the functions -/

/-- `Receive` from the return of `Enter` on. -/
def receiveRead (fuel : ℕ) (h : IpcHandler) (ipcObject : ℕ) (a : ReceiveArgs) :
    Outcome (KeStatus × List U8 × Option ℕ × IpcHandler) := do
  let o ← .ofOption h.ipcObjects[ipcObject]?
  let (status, bytes, localBytesRead, s) ← (IpcState.mk o.buffer h.mem).readBytes fuel a.size
  let h := h.setBuffer ipcObject s
  if failed status then return (status, bytes, none, h)
  else return (.statusSuccess, bytes, some localBytesRead, h.leave ipcObject)

/-- `Send` from the return of `Enter` up to its end, where it leaves the object found. -/
def sendCopy (fuel : ℕ) (h : IpcHandler) (handle : U32) (clientProcess : ℕ)
    (message : List U8) : Outcome (KeStatus × Option ℕ × IpcHandler) :=
  match h.findIpcObjectByHandle handle with
  | none => .ret (.ipcStatusServerNotFound, none, h)
  | some ipcObject => do
    let o ← .ofOption h.ipcObjects[ipcObject]?
    if clientProcess = o.serverProcess then
      return (.ipcStatusAccessDenied, some ipcObject, h)
    else
      let (status, s) ← (IpcState.mk o.buffer h.mem).addBytes fuel message
      return (status, some ipcObject, h.setBuffer ipcObject s)

/-- `Receive` after its wait is `Enter`, then the rest. -/
theorem receiveEnd_eq (h : IpcHandler) (fuel : ℕ) (status : KeStatus) (i : ℕ)
    (a : ReceiveArgs) : h.receiveEnd fuel status i a =
      h.lock (.enter (some i)) >>= fun h => h.receiveRead fuel i a := by
  rw [receiveEnd, lock]
  cases ho : h.ipcObjects[i]? with
  | none => rfl
  | some o =>
    simp only [Outcome.ofOption_some, Outcome.ret_bind]
    cases henter : enter o.criticalSection with
    | ret value =>
      have hobj : (h.modify i fun o => { o with criticalSection := value }).ipcObjects[i]? =
          some { o with criticalSection := value } := by
        show (h.ipcObjects.modify i _)[i]? = _
        rw [List.getElem?_modify, ho]
        simp
      simp only [Outcome.ret_bind, Outcome.pure_eq, receiveRead, hobj, Outcome.ofOption_some]
    | panic => rfl
    | fault => rfl
    | hang => rfl

theorem sendRefused_eq_false (hr : sendRefused handle clientProcess message = false) :
    handle ≠ 0 ∧ clientProcess ≠ 0 ∧ ∃ c text, message = some (c :: text) := by
  simp only [sendRefused, decide_eq_false_iff_not, not_or] at hr
  obtain ⟨hhandle, hclient, hnone, hempty⟩ := hr
  refine ⟨hhandle, hclient, ?_⟩
  cases message with
  | none => exact absurd rfl hnone
  | some text =>
    cases text with
    | nil => exact absurd rfl hempty
    | cons c text => exact ⟨c, text, rfl⟩

/-- `Send` after the check of its arguments is `Enter` with the null pointer, then the rest. -/
theorem send_eq {message : List U8}
    (hok : sendRefused handle clientProcess (some message) = false)
    (fuel : ℕ) : h.send fuel handle clientProcess (some message) =
      h.lock (.enter none) >>= fun h => h.sendCopy fuel handle clientProcess message >>=
        fun r => r.2.2.lock (.leave r.2.1) >>= fun h => .ret (r.1, h) := by
  obtain ⟨hhandle, hclient, c, text, hmessage⟩ := sendRefused_eq_false hok
  cases hmessage
  unfold send
  rw [if_neg hhandle, if_neg hclient, lock]
  dsimp only
  cases henter : enter h.nullSection with
  | ret nullSection =>
    simp only [Outcome.ret_bind, Outcome.pure_eq, sendCopy]
    cases hfind : IpcHandler.findIpcObjectByHandle { h with nullSection } handle with
    | none => rfl
    | some i =>
      dsimp only
      cases ho : h.ipcObjects[i]? with
      | none => rfl
      | some o =>
        simp only [Outcome.ofOption_some, Outcome.ret_bind]
        split
        · rfl
        · cases (IpcState.mk o.buffer h.mem).addBytes fuel (c :: text) <;> rfl
  | panic => rfl
  | fault => rfl
  | hang => rfl

/-! ## The accesses are those of the functions -/

/-- `Send` gives its arguments back at once, or goes on. -/
theorem send_refused (hr : h.send fuel handle clientProcess message = .ret (status, h'))
    (hrefused : sendRefused handle clientProcess message = true) : h' = h := by
  simp only [sendRefused, decide_eq_true_iff] at hrefused
  unfold send at hr
  by_cases hhandle : handle = 0
  · rw [if_pos hhandle] at hr
    cases hr
    rfl
  by_cases hclient : clientProcess = 0
  · rw [if_neg hhandle, if_pos hclient] at hr
    cases hr
    rfl
  rw [if_neg hhandle, if_neg hclient] at hr
  rcases hrefused with h0 | h0 | rfl | rfl
  · exact absurd h0 hhandle
  · exact absurd h0 hclient
  · cases hr
    rfl
  · cases hr
    rfl

/-- What is left at the end of `Send` is the object that was looked up. -/
theorem sendCopy_spec {message : List U8} {ipcObject : Option ℕ}
    (hr : h.sendCopy fuel handle clientProcess message = .ret (status, ipcObject, h')) :
    ipcObject = h.findIpcObjectByHandle handle ∧ SameSections h h' := by
  unfold sendCopy at hr
  split at hr
  · rename_i hfind
    cases hr
    exact ⟨hfind.symm, fun _ => rfl⟩
  rename_i i hfind
  obtain ⟨o, -, hr⟩ := Outcome.bind_eq_ret.mp hr
  split at hr
  · cases hr
    exact ⟨hfind.symm, fun _ => rfl⟩
  · obtain ⟨⟨st, s⟩, -, hr⟩ := Outcome.bind_eq_ret.mp hr
    cases hr
    exact ⟨hfind.symm, sameSections_setBuffer h _ s⟩

/-- `Send` ends with the critical sections that its accesses leave. -/
theorem send_locks (hr : h.send fuel handle clientProcess message = .ret (status, h')) :
    ∃ h₁, h.lockAll (h.sendLocks handle clientProcess message) = .ret h₁ ∧ SameSections h₁ h' := by
  cases hrefused : sendRefused handle clientProcess message with
  | true =>
    rw [send_refused hr hrefused, sendLocks, hrefused]
    exact ⟨h, rfl, fun _ => rfl⟩
  | false =>
    obtain ⟨-, -, c, text, rfl⟩ := sendRefused_eq_false hrefused
    rw [send_eq hrefused] at hr
    obtain ⟨h₁, henter, hr⟩ := Outcome.bind_eq_ret.mp hr
    obtain ⟨⟨st, o, h₂⟩, hcopy, hr⟩ := Outcome.bind_eq_ret.mp hr
    obtain ⟨h₃, hleave, hr⟩ := Outcome.bind_eq_ret.mp hr
    cases hr
    obtain ⟨rfl, hsame⟩ := sendCopy_spec hcopy
    -- entering the null pointer does not change what is looked up
    have hfind : h₁.findIpcObjectByHandle handle = h.findIpcObjectByHandle handle := by
      obtain ⟨nullSection, -, henter⟩ := Outcome.bind_eq_ret.mp henter
      cases henter
      rfl
    rw [hfind] at hleave
    obtain ⟨h₄, hleave', hsame'⟩ := hsame.lock_leave hleave
    refine ⟨h₄, ?_, hsame'⟩
    rw [sendLocks, hrefused, if_neg Bool.false_ne_true, lockAll_cons, henter, Outcome.ret_bind,
      lockAll_cons, hleave']
    rfl

/-- The rest of `Receive` leaves the critical section, unless `ReadBytes` fails. -/
theorem receiveRead_sections
    (hr : h.receiveRead fuel i a = .ret (status', bytes, bytesRead, h')) :
    SameSections (if failed status' then h else h.leave i) h' := by
  obtain ⟨o, -, hr⟩ := Outcome.bind_eq_ret.mp hr
  obtain ⟨⟨st, bs, n, s⟩, -, hr⟩ := Outcome.bind_eq_ret.mp hr
  dsimp only at hr
  have hbuffer := sameSections_setBuffer h i s
  split at hr
  · rename_i hfailed
    cases hr
    rwa [if_pos hfailed]
  · cases hr
    exact hbuffer.leave i

/-- So does the end of `Receive`. -/
theorem receiveEnd_locks
    (hr : h.receiveEnd fuel status i a = .ret (status', bytes, bytesRead, h')) :
    ∃ h₁, h.lockAll (receiveLocks i status') = .ret h₁ ∧ SameSections h₁ h' := by
  rw [receiveEnd_eq] at hr
  obtain ⟨h₁, henter, hr⟩ := Outcome.bind_eq_ret.mp hr
  refine ⟨_, ?_, receiveRead_sections hr⟩
  rw [receiveLocks]
  split
  · rw [lockAll_cons, henter]
    rfl
  · rw [lockAll_cons, henter]
    rfl

/-- A `Receive` that is not refused reads without a failure. -/
theorem receiveRead_success (ha : a.refusal = none)
    (hr : h.receiveRead fuel i a = .ret (status', bytes, bytesRead, h')) :
    status' = .statusSuccess := by
  obtain ⟨o, -, hr⟩ := Outcome.bind_eq_ret.mp hr
  obtain ⟨⟨st, bs, n, s⟩, hread, hr⟩ := Outcome.bind_eq_ret.mp hr
  rw [IpcState.readBytes_success (ReceiveArgs.size_ne_zero ha) hread] at hr
  cases hr
  rfl

/-- It leaves the critical section at its end. -/
theorem sectionOf_receiveRead (ha : a.refusal = none)
    (hr : h.receiveRead fuel i a = .ret (status', bytes, bytesRead, h')) (o : Option ℕ) :
    h'.sectionOf o = if o = some i then h.ipcObjects[i]?.map fun _ => 0 else h.sectionOf o := by
  obtain rfl := receiveRead_success ha hr
  exact (receiveRead_sections hr o).trans (h.sectionOf_leave i o)

end IpcHandler

/-! ## One call -/

/-- The critical section of an object is entered and left, any number of times. -/
inductive Balanced (ipcObject : ℕ) : List LockOp → Prop
  | nil : Balanced ipcObject []
  | pair {ops : List LockOp} : Balanced ipcObject ops →
      Balanced ipcObject (.enter (some ipcObject) :: .leave (some ipcObject) :: ops)

/-- The accesses of a call are to the object that the handle designates, and leave
its critical section. -/
def CallBalanced (h : IpcHandler) (handle : U32) (ops : List LockOp) : Prop :=
  ops = [] ∨ ∃ ipcObject, h.findIpcObjectByHandle handle = some ipcObject ∧ Balanced ipcObject ops

open IpcHandler

/-- `Send` is balanced exactly when it refuses its arguments. -/
theorem send_balanced_iff (h : IpcHandler) (handle : U32) (clientProcess : ℕ)
    (message : Option (List U8)) :
    CallBalanced h handle (h.sendLocks handle clientProcess message) ↔
      sendRefused handle clientProcess message = true := by
  rw [sendLocks]
  constructor
  · intro hbalanced
    by_cases hrefused : sendRefused handle clientProcess message = true
    · exact hrefused
    rw [if_neg hrefused] at hbalanced
    rcases hbalanced with hnil | ⟨i, -, hpairs⟩
    · cases hnil
    · cases hpairs
  · intro hrefused
    rw [if_pos hrefused]
    exact .inl rfl

/-- What a `Receive` that goes on knows: its object, and that its arguments are
accepted. -/
theorem IpcHandler.receiveBegin_inr {h : IpcHandler} {a : ReceiveArgs} {status : KeStatus} {i : ℕ}
    (hr : h.receiveBegin a = .ret (.inr (status, i))) :
    a.refusal = none ∧ h.findIpcObjectByHandle a.handle = some i := by
  unfold receiveBegin at hr
  split at hr
  · cases hr
  rename_i ha
  split at hr
  · cases hr
  rename_i j hj
  obtain ⟨o, -, hr⟩ := Outcome.bind_eq_ret.mp hr
  cases hr
  exact ⟨ha, hj⟩

/-- Every `Receive` that comes to its end is balanced. -/
theorem receive_balanced {h h₂ h' : IpcHandler} {a : ReceiveArgs} {i fuel : ℕ}
    {status status' : KeStatus} {bytes : List U8} {bytesRead : Option ℕ}
    (hbegin : h.receiveBegin a = .ret (.inr (status, i)))
    (hend : h₂.receiveEnd fuel status i a = .ret (status', bytes, bytesRead, h')) :
    CallBalanced h a.handle (receiveLocks i status') := by
  obtain ⟨ha, hfind⟩ := receiveBegin_inr hbegin
  rw [receiveEnd_eq] at hend
  obtain ⟨h₁, -, hread⟩ := Outcome.bind_eq_ret.mp hend
  obtain rfl := receiveRead_success ha hread
  exact .inr ⟨i, hfind, .pair .nil⟩

/-! ## Interleaved calls -/

/-- A `Receive` in progress: it has not tried to enter yet, it is in the loop of
`_acquire_lock`, or it is inside. -/
inductive ReceiveCall where
  | waiting (ipcObject : ℕ) (a : ReceiveArgs)
  | spinning (ipcObject : ℕ) (a : ReceiveArgs)
  | inside (ipcObject : ℕ) (a : ReceiveArgs)

/-- The arguments of the call. -/
def ReceiveCall.args : ReceiveCall → ReceiveArgs
  | .waiting _ a => a
  | .spinning _ a => a
  | .inside _ a => a

/-- A `Send` in progress: it has not tried to enter yet, it is in the loop of
`_acquire_lock`, it is inside, or it is about to leave an object. -/
inductive SendCall where
  | waiting (handle : U32) (clientProcess : ℕ) (message : List U8)
  | spinning (handle : U32) (clientProcess : ℕ) (message : List U8)
  | inside (handle : U32) (clientProcess : ℕ) (message : List U8)
  | leaving (ipcObject : Option ℕ)

/-- The handler, and the `Receive` or `Send` that each thread is in. -/
structure LockWorld where
  h : IpcHandler
  calls : ℕ → Option ReceiveCall
  sends : ℕ → Option SendCall

/-- The thread is at a new place of its `Receive`. -/
def LockWorld.goto (w : LockWorld) (thread : ℕ) (call : Option ReceiveCall) : LockWorld :=
  { w with calls := Function.update w.calls thread call }

/-- The thread is at a new place of its `Send`. -/
def LockWorld.gotoSend (w : LockWorld) (thread : ℕ) (call : Option SendCall) : LockWorld :=
  { w with sends := Function.update w.sends thread call }

/-- The thread is in no call. -/
def LockWorld.Idle (w : LockWorld) (thread : ℕ) : Prop :=
  w.calls thread = none ∧ w.sends thread = none

/-- The steps of a run. -/
inductive LockCall where
  | addNewServer (criticalSection : U32)
  | send (thread : ℕ)
  | receive (thread : ℕ)

/-- A registration, or a part of the `Send` or the `Receive` of a thread. The first
turn of `_acquire_lock` takes the critical section or finds another word in it; a
turn after one that has found it taken never takes it. -/
inductive LockStep : LockWorld → LockCall → LockWorld → Prop
  | addNewServer {w : LockWorld} {serverIdStr : Option (List U8)} {serverProcess : ℕ}
      {criticalSection : U32} {status : KeStatus} {handle : Option U32} {h' : IpcHandler} :
      w.h.addNewServer serverIdStr serverProcess criticalSection = (status, handle, h') →
      LockStep w (.addNewServer criticalSection) { w with h := h' }
  | sendRefused {w : LockWorld} {thread : ℕ} {handle : U32} {clientProcess : ℕ}
      {message : Option (List U8)} :
      w.Idle thread → sendRefused handle clientProcess message = true →
      LockStep w (.send thread) w
  | sendBegin {w : LockWorld} {thread : ℕ} {handle : U32} {clientProcess : ℕ}
      {message : List U8} :
      w.Idle thread → sendRefused handle clientProcess (some message) = false →
      LockStep w (.send thread) (w.gotoSend thread (some (.waiting handle clientProcess message)))
  | sendEnter {w : LockWorld} {thread : ℕ} {handle : U32} {clientProcess : ℕ}
      {message : List U8} {h' : IpcHandler} :
      w.sends thread = some (.waiting handle clientProcess message) →
      w.h.lock (.enter none) = .ret h' →
      LockStep w (.send thread) (LockWorld.gotoSend { w with h := h' } thread
        (some (.inside handle clientProcess message)))
  | sendSpin {w : LockWorld} {thread : ℕ} {handle : U32} {clientProcess : ℕ}
      {message : List U8} :
      w.sends thread = some (.waiting handle clientProcess message) →
      w.h.sectionOf none = some 1 →
      LockStep w (.send thread) (w.gotoSend thread (some (.spinning handle clientProcess message)))
  | sendSlip {w : LockWorld} {thread : ℕ} {handle : U32} {clientProcess : ℕ}
      {message : List U8} :
      w.sends thread = some (.spinning handle clientProcess message) →
      w.h.sectionOf none ≠ some 1 →
      LockStep w (.send thread) (w.gotoSend thread (some (.inside handle clientProcess message)))
  | sendCopy {w : LockWorld} {thread fuel : ℕ} {handle : U32} {clientProcess : ℕ}
      {message : List U8} {status : KeStatus} {ipcObject : Option ℕ} {h' : IpcHandler} :
      w.sends thread = some (.inside handle clientProcess message) →
      w.h.sendCopy fuel handle clientProcess message = .ret (status, ipcObject, h') →
      LockStep w (.send thread) (LockWorld.gotoSend { w with h := h' } thread
        (some (.leaving ipcObject)))
  | sendLeave {w : LockWorld} {thread : ℕ} {ipcObject : Option ℕ} {h' : IpcHandler} :
      w.sends thread = some (.leaving ipcObject) → w.h.lock (.leave ipcObject) = .ret h' →
      LockStep w (.send thread) (LockWorld.gotoSend { w with h := h' } thread none)
  | receiveBegin {w : LockWorld} {thread i : ℕ} {a : ReceiveArgs} {status : KeStatus} :
      w.Idle thread → w.h.receiveBegin a = .ret (.inr (status, i)) →
      LockStep w (.receive thread) (w.goto thread (some (.waiting i a)))
  | receiveWait {w : LockWorld} {thread i : ℕ} {a : ReceiveArgs} {passed : Bool}
      {h' : IpcHandler} :
      w.calls thread = some (.waiting i a) → w.h.receiveWait thread i = .ret (passed, h') →
      LockStep w (.receive thread) { w with h := h' }
  | receiveWake {w : LockWorld} {thread i : ℕ} {a : ReceiveArgs} :
      w.calls thread = some (.waiting i a) →
      LockStep w (.receive thread) { w with h := w.h.receiveWake i }
  | enter {w : LockWorld} {thread i : ℕ} {a : ReceiveArgs} {h' : IpcHandler} :
      w.calls thread = some (.waiting i a) → w.h.lock (.enter (some i)) = .ret h' →
      LockStep w (.receive thread) (LockWorld.goto { w with h := h' } thread (some (.inside i a)))
  | spin {w : LockWorld} {thread i : ℕ} {a : ReceiveArgs} :
      w.calls thread = some (.waiting i a) → w.h.sectionOf (some i) = some 1 →
      LockStep w (.receive thread) (w.goto thread (some (.spinning i a)))
  | slip {w : LockWorld} {thread i : ℕ} {a : ReceiveArgs} :
      w.calls thread = some (.spinning i a) → w.h.sectionOf (some i) ≠ some 1 →
      LockStep w (.receive thread) (w.goto thread (some (.inside i a)))
  | receiveEnd {w : LockWorld} {thread i fuel : ℕ} {a : ReceiveArgs} {status : KeStatus}
      {bytes : List U8} {bytesRead : Option ℕ} {h' : IpcHandler} :
      w.calls thread = some (.inside i a) →
      w.h.receiveRead fuel i a = .ret (status, bytes, bytesRead, h') →
      LockStep w (.receive thread) (LockWorld.goto { w with h := h' } thread none)

/-- The memory of a new object is zero where its critical section is. -/
def FreshSection (_ : LockWorld) : LockCall → Prop
  | .addNewServer criticalSection => criticalSection = 0
  | _ => True

/-- A critical section that is not free has a thread inside, which will leave it. -/
structure LockInv (w : LockWorld) : Prop where
  sections : ∀ i value, w.h.sectionOf (some i) = some value →
    value = 0 ∨ ∃ thread a, w.calls thread = some (.inside i a)
  accepted : ∀ thread call, w.calls thread = some call → call.args.refusal = none

section Interleaved

variable {w w' : LockWorld} {h' : IpcHandler} {op : LockCall} {thread i : ℕ} {a : ReceiveArgs}
  {call : ReceiveCall}

/-- The handler changes no critical section to another word than 0. -/
theorem LockInv.handler (hw : LockInv w)
    (hh : ∀ i value, h'.sectionOf (some i) = some value →
      value = 0 ∨ w.h.sectionOf (some i) = some value) : LockInv { w with h := h' } := by
  refine ⟨?_, hw.accepted⟩
  intro i value hvalue
  rcases hh i value hvalue with h0 | hold
  · exact .inl h0
  · exact hw.sections i value hold

/-- So does a part of a `Send`. -/
theorem LockInv.gotoSend (hw : LockInv w) {call : Option SendCall}
    (hh : ∀ i value, h'.sectionOf (some i) = some value →
      value = 0 ∨ w.h.sectionOf (some i) = some value) :
    LockInv (LockWorld.gotoSend { w with h := h' } thread call) := by
  obtain ⟨hsections, haccepted⟩ := hw.handler hh
  exact ⟨hsections, haccepted⟩

/-- A thread goes to another place of its call. Where a section is not free, this thread has come
in, or there was one inside that is not this one. -/
theorem LockInv.moves (hw : LockInv w) {call : Option ReceiveCall}
    (haccepted : ∀ c, call = some c → c.args.refusal = none)
    (hh : ∀ i value, h'.sectionOf (some i) = some value → value = 0 ∨
      (∃ a, call = some (.inside i a)) ∨
      w.h.sectionOf (some i) = some value ∧ ∀ a, w.calls thread ≠ some (.inside i a)) :
    LockInv (LockWorld.goto { w with h := h' } thread call) := by
  constructor
  · intro i value hvalue
    rcases hh i value hvalue with h0 | ⟨a, rfl⟩ | ⟨hold, hout⟩
    · exact .inl h0
    · exact .inr ⟨thread, a, Function.update_self _ _ _⟩
    · rcases hw.sections i value hold with h0 | ⟨other, a, hinside⟩
      · exact .inl h0
      · refine .inr ⟨other, a, ?_⟩
        have hne : other ≠ thread := by
          rintro rfl
          exact hout a hinside
        exact (Function.update_of_ne hne _ _).trans hinside
  · intro other c hc
    by_cases hother : other = thread
    · subst hother
      exact haccepted c ((Function.update_self other _ _).symm.trans hc)
    · exact hw.accepted other c ((Function.update_of_ne hother _ _).symm.trans hc)

/-- A thread that was not inside is at a new place. -/
theorem LockInv.goto (hw : LockInv w) (hout : ∀ i a, w.calls thread ≠ some (.inside i a))
    (haccepted : call.args.refusal = none) : LockInv (w.goto thread (some call)) := by
  apply hw.moves
  · intro c hc
    cases hc
    exact haccepted
  · intro i value hvalue
    exact .inr (.inr ⟨hvalue, hout i⟩)

theorem IpcHandler.sectionOf_addNewServer {h : IpcHandler} {serverIdStr : Option (List U8)}
    {serverProcess : ℕ} {status : KeStatus} {handle : Option U32} {value : U32}
    (hr : h.addNewServer serverIdStr serverProcess 0 = (status, handle, h'))
    (hvalue : h'.sectionOf (some i) = some value) :
    value = 0 ∨ h.sectionOf (some i) = some value := by
  unfold addNewServer at hr
  split at hr
  · cases hr
    exact .inr hvalue
  split_ifs at hr
  · cases hr
    exact .inr hvalue
  · cases hr
    exact .inr hvalue
  · cases hr
    change ((h.ipcObjects ++ [_])[i]?).map IpcObject.criticalSection = some value at hvalue
    rcases Nat.lt_or_ge i h.ipcObjects.length with hlt | hge
    · rw [List.getElem?_append_left hlt] at hvalue
      exact .inr hvalue
    · rw [List.getElem?_append_right hge] at hvalue
      cases hi : i - h.ipcObjects.length with
      | zero =>
        rw [hi] at hvalue
        exact .inl (Option.some.inj hvalue).symm
      | succ n =>
        rw [hi] at hvalue
        cases hvalue

/-- `Send` enters the null pointer, and no object. -/
theorem IpcHandler.sectionOf_enter_none {h : IpcHandler} (hr : h.lock (.enter none) = .ret h') :
    h'.sectionOf (some i) = h.sectionOf (some i) := by
  obtain ⟨nullSection, -, hr⟩ := Outcome.bind_eq_ret.mp hr
  cases hr
  rfl

/-- At its end it leaves the critical section of the object found. -/
theorem IpcHandler.sectionOf_lockLeave {h : IpcHandler} {ipcObject : Option ℕ} {value : U32}
    (hr : h.lock (.leave ipcObject) = .ret h') (hvalue : h'.sectionOf (some i) = some value) :
    value = 0 ∨ h.sectionOf (some i) = some value := by
  cases ipcObject with
  | none =>
    cases hr
    exact .inr hvalue
  | some j =>
    cases hr
    rw [sectionOf_leave] at hvalue
    split at hvalue
    · obtain ⟨o, -, hzero⟩ := Option.map_eq_some_iff.mp hvalue
      exact .inl hzero.symm
    · exact .inr hvalue

/-- Changes of the buffers leave the critical sections alone. -/
theorem IpcHandler.sameSections_modify (h : IpcHandler) (i : ℕ) {f : IpcObject → IpcObject}
    (hf : ∀ o, (f o).criticalSection = o.criticalSection) : SameSections h (h.modify i f) := by
  intro o
  rw [sectionOf_modify]
  split
  · rename_i ho
    subst ho
    exact congrArg (fun g => h.ipcObjects[i]?.map g) (funext hf)
  · rfl

/-- Entering changes only the critical section that is entered. -/
theorem IpcHandler.sectionOf_enter {h : IpcHandler} {j : ℕ} (hne : j ≠ i)
    (hr : h.lock (.enter (some i)) = .ret h') : h'.sectionOf (some j) = h.sectionOf (some j) := by
  obtain ⟨o, -, hr⟩ := Outcome.bind_eq_ret.mp hr
  obtain ⟨value, -, hr⟩ := Outcome.bind_eq_ret.mp hr
  cases hr
  rw [sectionOf_modify, if_neg]
  intro heq
  exact hne (Option.some.inj heq)

theorem LockInv.step (hw : LockInv w) (hguard : FreshSection w op) (hstep : LockStep w op w') :
    LockInv w' := by
  cases hstep with
  | addNewServer hr =>
    cases hguard
    apply hw.handler
    intro i value
    exact IpcHandler.sectionOf_addNewServer hr
  | sendRefused => exact hw
  | sendBegin => exact hw.gotoSend fun i value hvalue => .inr hvalue
  | sendEnter _ hr =>
    apply hw.gotoSend
    intro i value hvalue
    rw [IpcHandler.sectionOf_enter_none hr] at hvalue
    exact .inr hvalue
  | sendSpin => exact hw.gotoSend fun i value hvalue => .inr hvalue
  | sendSlip => exact hw.gotoSend fun i value hvalue => .inr hvalue
  | sendCopy _ hr =>
    apply hw.gotoSend
    intro i value hvalue
    rw [(IpcHandler.sendCopy_spec hr).2 (some i)] at hvalue
    exact .inr hvalue
  | sendLeave _ hr =>
    apply hw.gotoSend
    intro i value
    exact IpcHandler.sectionOf_lockLeave hr
  | receiveBegin hidle hr =>
    apply hw.goto
    · simp [hidle.1]
    · exact (IpcHandler.receiveBegin_inr hr).1
  | @receiveWait thread i a passed h' _ hr =>
    obtain ⟨o, -, hr⟩ := Outcome.bind_eq_ret.mp hr
    obtain ⟨⟨_, evt⟩, -, hr⟩ := Outcome.bind_eq_ret.mp hr
    cases hr
    apply hw.handler
    intro j value hvalue
    have hsame := IpcHandler.sameSections_modify w.h i
      (f := fun o => { o with buffer := { o.buffer with readyToReadEvent := evt } }) fun _ => rfl
    exact .inr ((hsame (some j)).symm.trans hvalue)
  | @receiveWake thread i a _ =>
    apply hw.handler
    intro j value hvalue
    have hsame := IpcHandler.sameSections_modify w.h i (f := fun o => { o with
      buffer := { o.buffer with readyToReadEvent := o.buffer.readyToReadEvent.waitEnd } })
      fun _ => rfl
    exact .inr ((hsame (some j)).symm.trans hvalue)
  | @enter thread i a h' hwaiting hr =>
    have haccepted : a.refusal = none := hw.accepted _ _ hwaiting
    apply hw.moves
    · intro c hc
      cases hc
      exact haccepted
    · intro j value hvalue
      by_cases hj : j = i
      · subst hj
        exact .inr (.inl ⟨a, rfl⟩)
      · have hold := (IpcHandler.sectionOf_enter hj hr).symm.trans hvalue
        exact .inr (.inr ⟨hold, by simp [hwaiting]⟩)
  | spin hwaiting _ =>
    apply hw.goto
    · simp [hwaiting]
    · have haccepted := hw.accepted _ _ hwaiting
      exact haccepted
  | slip hspinning _ =>
    apply hw.goto
    · simp [hspinning]
    · have haccepted := hw.accepted _ _ hspinning
      exact haccepted
  | @receiveEnd thread i fuel a status bytes bytesRead h' hinside hr =>
    have hsection := IpcHandler.sectionOf_receiveRead (hw.accepted _ _ hinside) hr
    apply hw.moves
    · intro c hc
      cases hc
    · intro j value hvalue
      rw [hsection] at hvalue
      split at hvalue
      · obtain ⟨o, -, hzero⟩ := Option.map_eq_some_iff.mp hvalue
        exact .inl hzero.symm
      · rename_i hj
        refine .inr (.inr ⟨hvalue, fun b hb => hj ?_⟩)
        rw [hinside] at hb
        cases hb
        rfl

end Interleaved

/-- A `Send` that nothing comes between is the run of its parts. -/
theorem send_run {w : LockWorld} {h' : IpcHandler} {thread fuel clientProcess : ℕ} {handle : U32}
    {message : List U8} {status : KeStatus} (hidle : w.Idle thread)
    (hok : sendRefused handle clientProcess (some message) = false)
    (hr : w.h.send fuel handle clientProcess (some message) = .ret (status, h')) :
    Run (Guarded FreshSection LockStep) w (List.replicate 4 (.send thread)) { w with h := h' } := by
  rw [IpcHandler.send_eq hok] at hr
  obtain ⟨h₁, henter, hr⟩ := Outcome.bind_eq_ret.mp hr
  obtain ⟨⟨st, ipcObject, h₂⟩, hcopy, hr⟩ := Outcome.bind_eq_ret.mp hr
  obtain ⟨h₃, hleave, hr⟩ := Outcome.bind_eq_ret.mp hr
  cases hr
  have hpart {w w' : LockWorld} (hstep : LockStep w (.send thread) w') :
      Guarded FreshSection LockStep w (.send thread) w' := ⟨trivial, hstep⟩
  have hplace (sends : ℕ → Option SendCall) (call : Option SendCall) :
      Function.update sends thread call thread = call := Function.update_self _ _ _
  have hrun := (((Run.single (hpart (.sendBegin hidle hok))).snoc
    (hpart (.sendEnter (hplace _ _) henter))).snoc (hpart (.sendCopy (hplace _ _) hcopy))).snoc
    (hpart (.sendLeave (hplace _ _) hleave))
  -- the thread is where it was
  simp only [LockWorld.gotoSend, Function.update_idem] at hrun
  rwa [Function.update_eq_self_iff.mpr hidle.2.symm] at hrun

/-- So is a `Receive`. -/
theorem receive_run {w : LockWorld} {h₁ h' : IpcHandler} {thread fuel i : ℕ} {a : ReceiveArgs}
    {status status' st : KeStatus} {passed : Bool} {bytes : List U8} {bytesRead : Option ℕ}
    (hidle : w.Idle thread) (hbegin : w.h.receiveBegin a = .ret (.inr (status, i)))
    (hwait : w.h.receiveWait thread i = .ret (passed, h₁))
    (hend : h₁.receiveEnd fuel st i a = .ret (status', bytes, bytesRead, h')) :
    Run (Guarded FreshSection LockStep) w (List.replicate 4 (.receive thread))
      { w with h := h' } := by
  rw [IpcHandler.receiveEnd_eq] at hend
  obtain ⟨h₂, henter, hread⟩ := Outcome.bind_eq_ret.mp hend
  have hpart {w w' : LockWorld} (hstep : LockStep w (.receive thread) w') :
      Guarded FreshSection LockStep w (.receive thread) w' := ⟨trivial, hstep⟩
  have hplace (calls : ℕ → Option ReceiveCall) (call : Option ReceiveCall) :
      Function.update calls thread call thread = call := Function.update_self _ _ _
  have hrun := (((Run.single (hpart (.receiveBegin hidle hbegin))).snoc
    (hpart (.receiveWait (hplace _ _) hwait))).snoc (hpart (.enter (hplace _ _) henter))).snoc
    (hpart (.receiveEnd (hplace _ _) hread))
  simp only [LockWorld.goto, Function.update_idem] at hrun
  rwa [Function.update_eq_self_iff.mpr hidle.1.symm] at hrun

/-- `Send` is balanced exactly when it refuses its arguments, `Receive` always is,
and whenever no call is in progress the critical sections of all objects are free,
if they were when the objects were made. -/
theorem ipc_locks_balanced (h : IpcHandler) (handle : U32) (clientProcess : ℕ)
    (message : Option (List U8)) :
    (CallBalanced h handle (h.sendLocks handle clientProcess message) ↔
      sendRefused handle clientProcess message = true) ∧
    (∀ (h h₂ h' : IpcHandler) (a : ReceiveArgs) (i fuel : ℕ) (status status' : KeStatus)
      (bytes : List U8) (bytesRead : Option ℕ), h.receiveBegin a = .ret (.inr (status, i)) →
      h₂.receiveEnd fuel status i a = .ret (status', bytes, bytesRead, h') →
      CallBalanced h a.handle (receiveLocks i status')) ∧
    ∀ (mem : IpcMem) (nullSection : U32) (ops : List LockCall) (w : LockWorld),
      Run (Guarded FreshSection LockStep) ⟨.init mem nullSection, fun _ => none, fun _ => none⟩
        ops w →
      (∀ thread, w.calls thread = none) → ∀ o ∈ w.h.ipcObjects, o.criticalSection = 0 := by
  refine ⟨send_balanced_iff h handle clientProcess message, ?_, ?_⟩
  · intro h h₂ h' a i fuel status status' bytes bytesRead hbegin hend
    exact receive_balanced hbegin hend
  · intro mem nullSection ops w hrun hnone o ho
    have hinv : LockInv w := by
      apply hrun.guarded_invariant
      · intro w op w' hw hguard hstep
        exact hw.step hguard hstep
      · constructor
        · intro i value hvalue
          cases hvalue
        · intro thread call hcall
          cases hcall
    obtain ⟨i, hi, rfl⟩ := List.mem_iff_getElem.mp ho
    have hsection : w.h.sectionOf (some i) = some w.h.ipcObjects[i].criticalSection := by
      show w.h.ipcObjects[i]?.map _ = _
      rw [List.getElem?_eq_getElem hi]
      rfl
    rcases hinv.sections i _ hsection with h0 | ⟨thread, a, hinside⟩
    · exact h0
    · rw [hnone thread] at hinside
      cases hinside

/-- Process 1 registers a server, process 2 sends it a byte, and the server receives it: the
`Receive` is balanced, and no object is left locked. -/
theorem boot_locks_balanced : ∃ p w, PagePool.bss.init kernelInfo = .ret p ∧
    Run (Guarded FreshSection LockStep) ⟨.init (bootIpc p).mem 0, fun _ => none, fun _ => none⟩
      ([.addNewServer 0] ++ List.replicate 4 (.send 7) ++ List.replicate 4 (.receive 9)) w ∧
    CallBalanced w.h 1 (receiveLocks 0 .statusSuccess) ∧
    w.h.ipcObjects.length = 1 ∧ ∀ o ∈ w.h.ipcObjects, o.criticalSection = 0 := by
  obtain ⟨p, s, t, s', hp, hsend, hwait, -, hread, -⟩ :=
    boot_receives [7] Nat.one_ne_zero (Nat.le_refl 1) (by decide)
  have hend : (oneServer t.mem 1 t.buf).receiveEnd 1 .statusFailure 0
      ⟨1, 1, 0x40001000, 1, 0x40000000⟩ =
        .ret (.statusSuccess, [7], some 1, oneServer s'.mem 1 s'.buf) := by
    show t.readBytes 1 1 >>= _ = _
    rw [hread]
    rfl
  have hnew : (IpcHandler.init (bootIpc p).mem 0).addNewServer (some [115]) 1 0 =
      (.statusSuccess, some 1, oneServer (bootIpc p).mem 0 .init) := rfl
  have hadd : Guarded FreshSection LockStep
      ⟨.init (bootIpc p).mem 0, fun _ => none, fun _ => none⟩ (.addNewServer 0)
      ⟨oneServer (bootIpc p).mem 0 .init, fun _ => none, fun _ => none⟩ := ⟨rfl, .addNewServer hnew⟩
  have hsent : Run (Guarded FreshSection LockStep)
      ⟨oneServer (bootIpc p).mem 0 .init, fun _ => none, fun _ => none⟩
      (List.replicate 4 (.send 7)) ⟨oneServer s.mem 1 s.buf, fun _ => none, fun _ => none⟩ :=
    send_run ⟨rfl, rfl⟩ rfl hsend
  have hreceived : Run (Guarded FreshSection LockStep)
      ⟨oneServer s.mem 1 s.buf, fun _ => none, fun _ => none⟩
      (List.replicate 4 (.receive 9)) ⟨oneServer s'.mem 1 s'.buf, fun _ => none, fun _ => none⟩ :=
    receive_run ⟨rfl, rfl⟩ rfl hwait hend
  have hrun := ((Run.single hadd).trans hsent).trans hreceived
  obtain ⟨-, hreceive, hfree⟩ :=
    ipc_locks_balanced (oneServer s'.mem 1 s'.buf) 1 2 (some [7])
  refine ⟨p, _, hp, hrun, ?_, rfl, hfree _ _ _ _ hrun fun _ => rfl⟩
  exact hreceive (oneServer s'.mem 1 s'.buf) (oneServer t.mem 1 t.buf) (oneServer s'.mem 1 s'.buf)
    ⟨1, 1, 0x40001000, 1, 0x40000000⟩ 0 1 .statusFailure .statusSuccess [7] (some 1) rfl hend

/-- Process 2 sends a byte to the server of process 1: the critical section of the
null pointer is entered, and that of the object is left. -/
theorem oneServer_send_not_balanced :
    (oneServer (bootIpc .bss).mem 0 .init).sendLocks 1 2 (some [7]) =
      [.enter none, .leave (some 0)] ∧
    ¬ CallBalanced (oneServer (bootIpc .bss).mem 0 .init) 1
      ((oneServer (bootIpc .bss).mem 0 .init).sendLocks 1 2 (some [7])) := by
  refine ⟨rfl, ?_⟩
  intro hbalanced
  rw [send_balanced_iff] at hbalanced
  cases hbalanced

end LtMicros
