import LtMicros.Ipc

/-!
# Who may receive

Runs of the IPC handler with the registrations that `AddNewServer` has made, and
what a `Receive` of any process does in a state of such a run.
-/

namespace LtMicros

open Lib

/-- The handler, and each handle that `AddNewServer` has given out with the process
it was for. -/
structure IpcWorld where
  h : IpcHandler
  registered : List (U32 × ℕ)

/-- `sizeof(IpcObject)`, without the header of its heap block. -/
def ipcObjectSize : ℕ := 56

/-- More objects do not fit between `vHeapBase` and `vHeapLimit`: `HeapAlloc` stops
the kernel. -/
def maxIpcObjects : ℕ :=
  (kernelInfo.vHeapLimit - kernelInfo.vHeapBase).toNat / ipcObjectSize

/-- The parts of two handlers that only `AddNewServer` changes. -/
structure SameObjects (h h' : IpcHandler) : Prop where
  count : h'.ipcObjectHandleCount = h.ipcObjectHandleCount
  objects : h'.ipcObjects.map (fun o => (o.id, o.handle, o.serverProcess)) =
    h.ipcObjects.map fun o => (o.id, o.handle, o.serverProcess)

/-- The steps of a run. -/
inductive IpcCall where
  | addNewServer (serverIdStr : Option (List U8)) (serverProcess : ℕ)
  | send (handle : U32) (clientProcess : ℕ) (message : Option (List U8))
  | receiveWait (currentThread ipcObject : ℕ)
  | receiveWake (ipcObject : ℕ)
  | receiveEnd (ipcObject : ℕ) (a : ReceiveArgs)
  | preempted

/-- One call, or one part of a `Receive`, that comes to its end. A thread can also
lose the processor in the middle of a `Send` or a `Receive`: then the buffers, the
critical sections and the memory may be anything, and the objects are the same. A
registration is not interrupted. -/
inductive IpcCallStep : IpcWorld → IpcCall → IpcWorld → Prop
  | addNewServer {w : IpcWorld} {serverIdStr : Option (List U8)} {serverProcess : ℕ}
      {criticalSection : U32} {status : KeStatus} {handle : Option U32} {h' : IpcHandler} :
      w.h.ipcObjects.length < maxIpcObjects →
      w.h.addNewServer serverIdStr serverProcess criticalSection = (status, handle, h') →
      IpcCallStep w (.addNewServer serverIdStr serverProcess)
        ⟨h', w.registered ++ (handle.map fun handle => (handle, serverProcess)).toList⟩
  | send {w : IpcWorld} {fuel : ℕ} {handle : U32} {clientProcess : ℕ}
      {message : Option (List U8)} {status : KeStatus} {h' : IpcHandler} :
      w.h.send fuel handle clientProcess message = .ret (status, h') →
      IpcCallStep w (.send handle clientProcess message) ⟨h', w.registered⟩
  | receiveWait {w : IpcWorld} {currentThread ipcObject : ℕ} {passed : Bool} {h' : IpcHandler} :
      w.h.receiveWait currentThread ipcObject = .ret (passed, h') →
      IpcCallStep w (.receiveWait currentThread ipcObject) ⟨h', w.registered⟩
  | receiveWake {w : IpcWorld} {ipcObject : ℕ} :
      IpcCallStep w (.receiveWake ipcObject) ⟨w.h.receiveWake ipcObject, w.registered⟩
  | receiveEnd {w : IpcWorld} {fuel ipcObject : ℕ} {a : ReceiveArgs} {status status' : KeStatus}
      {bytes : List U8} {bytesRead : Option ℕ} {h' : IpcHandler} :
      w.h.receiveEnd fuel status ipcObject a = .ret (status', bytes, bytesRead, h') →
      IpcCallStep w (.receiveEnd ipcObject a) ⟨h', w.registered⟩
  | preempted {w : IpcWorld} {h' : IpcHandler} :
      SameObjects w.h h' → IpcCallStep w .preempted ⟨h', w.registered⟩

/-- How a `Receive` made in a state ends: its status, the bytes that the caller
gets, and the state. A call that is refused returns at once; one that is not reads
after its wait, and other calls run in between. -/
inductive Receives (w : IpcWorld) (a : ReceiveArgs) : KeStatus → List U8 → IpcWorld → Prop
  | refused {status : KeStatus} :
      w.h.receiveBegin a = .ret (.inl status) → Receives w a status [] w
  | completed {status status' : KeStatus} {fuel currentThread ipcObject : ℕ} {passed : Bool}
      {h₁ h' : IpcHandler} {w₂ : IpcWorld} {ops : List IpcCall} {bytes : List U8}
      {bytesRead : Option ℕ} :
      w.h.receiveBegin a = .ret (.inr (status, ipcObject)) →
      w.h.receiveWait currentThread ipcObject = .ret (passed, h₁) →
      Run IpcCallStep ⟨h₁, w.registered⟩ ops w₂ →
      (if passed then w₂.h else w₂.h.receiveWake ipcObject).receiveEnd fuel status ipcObject a =
        .ret (status', bytes, bytesRead, h') →
      Receives w a status' bytes ⟨h', w₂.registered⟩

/-- The authority to receive. A `Receive` gives bytes only to the process that the
handle was registered for, and one of another process has one end: it is denied,
and nothing has changed. -/
structure ReceiveAuthorized (w : IpcWorld) (a : ReceiveArgs) : Prop where
  reads : ∀ {status bytes w'}, Receives w a status bytes w' → bytes ≠ [] →
    (a.handle, a.serverProcess) ∈ w.registered
  denied : ∀ {owner}, a.refusal = none → (a.handle, owner) ∈ w.registered →
    owner ≠ a.serverProcess → ∀ {status bytes w'},
      Receives w a status bytes w' ↔ (status, bytes, w') = (.ipcStatusAccessDenied, [], w)

/-- The caller is the process that the handle was registered for, or the call ends
before it comes to the question. -/
def ServerCalls (w : IpcWorld) (a : ReceiveArgs) : Prop :=
  (a.handle, a.serverProcess) ∈ w.registered ∨ a.refusal ≠ none ∨
    ∀ owner, (a.handle, owner) ∉ w.registered

/-! ## What a run keeps -/

namespace SameObjects

variable {h h' h'' : IpcHandler}

theorem refl (h : IpcHandler) : SameObjects h h := ⟨rfl, rfl⟩

theorem trans (hs : SameObjects h h') (hs' : SameObjects h' h'') : SameObjects h h'' :=
  ⟨hs'.count.trans hs.count, hs'.objects.trans hs.objects⟩

theorem modify (h : IpcHandler) (ipcObject : ℕ) {f : IpcObject → IpcObject}
    (hf : ∀ o, ((f o).id, (f o).handle, (f o).serverProcess) = (o.id, o.handle, o.serverProcess)) :
    SameObjects h (h.modify ipcObject f) := by
  refine ⟨rfl, List.ext_getElem? fun i => ?_⟩
  show (List.map _ (h.ipcObjects.modify ipcObject f))[i]? = _
  rw [List.getElem?_map, List.getElem?_map, List.getElem?_modify]
  cases h.ipcObjects[i]? with
  | none => rfl
  | some o =>
    refine congrArg some ?_
    dsimp only
    split
    · exact hf o
    · rfl

theorem setBuffer (h : IpcHandler) (ipcObject : ℕ) (s : IpcState) :
    SameObjects h (h.setBuffer ipcObject s) := by
  have hmodify := modify h ipcObject (f := fun o => { o with buffer := s.buf }) fun _ => rfl
  exact ⟨rfl, hmodify.objects⟩

theorem leave (h : IpcHandler) (ipcObject : ℕ) : SameObjects h (h.leave ipcObject) :=
  modify h ipcObject fun _ => rfl

theorem send {fuel : ℕ} {handle : U32} {clientProcess : ℕ} {message : Option (List U8)}
    {status : KeStatus} (hr : h.send fuel handle clientProcess message = .ret (status, h')) :
    SameObjects h h' := by
  unfold IpcHandler.send at hr
  split at hr
  · cases hr
    exact refl h
  split at hr
  · cases hr
    exact refl h
  split at hr
  · cases hr
    exact refl h
  · cases hr
    exact refl h
  obtain ⟨nullSection, -, hr⟩ := Outcome.bind_eq_ret.mp hr
  have henter : SameObjects h { h with nullSection } := ⟨rfl, rfl⟩
  dsimp only at hr
  split at hr
  · cases hr
    exact ⟨rfl, rfl⟩
  rename_i ipcObject _
  obtain ⟨o, -, hr⟩ := Outcome.bind_eq_ret.mp hr
  split at hr
  · cases hr
    exact henter.trans (leave _ ipcObject)
  · obtain ⟨⟨_, s⟩, -, hr⟩ := Outcome.bind_eq_ret.mp hr
    cases hr
    exact henter.trans ((setBuffer _ ipcObject s).trans (leave _ ipcObject))

theorem receiveWait {currentThread ipcObject : ℕ} {passed : Bool}
    (hr : h.receiveWait currentThread ipcObject = .ret (passed, h')) : SameObjects h h' := by
  obtain ⟨o, -, hr⟩ := Outcome.bind_eq_ret.mp hr
  obtain ⟨⟨_, evt⟩, -, hr⟩ := Outcome.bind_eq_ret.mp hr
  cases hr
  exact modify h ipcObject fun _ => rfl

theorem receiveWake (h : IpcHandler) (ipcObject : ℕ) : SameObjects h (h.receiveWake ipcObject) :=
  modify h ipcObject fun _ => rfl

theorem receiveEnd {fuel ipcObject : ℕ} {a : ReceiveArgs} {status status' : KeStatus}
    {bytes : List U8} {bytesRead : Option ℕ}
    (hr : h.receiveEnd fuel status ipcObject a = .ret (status', bytes, bytesRead, h')) :
    SameObjects h h' := by
  obtain ⟨o, -, hr⟩ := Outcome.bind_eq_ret.mp hr
  obtain ⟨criticalSection, -, hr⟩ := Outcome.bind_eq_ret.mp hr
  obtain ⟨⟨st, bs, n, s⟩, -, hr⟩ := Outcome.bind_eq_ret.mp hr
  have hread := (modify h ipcObject (f := fun o => { o with criticalSection }) fun _ => rfl).trans
    (setBuffer _ ipcObject s)
  dsimp only at hr
  split at hr
  · cases hr
    exact hread
  · cases hr
    exact hread.trans (leave _ ipcObject)

end SameObjects

/-- The registrations are those of the objects, and the handles count them. -/
structure IpcWorldInv (w : IpcWorld) : Prop where
  registered : w.registered = w.h.ipcObjects.map fun o => (o.handle, o.serverProcess)
  handles : ∀ i (hi : i < w.h.ipcObjects.length), w.h.ipcObjects[i].handle.toNat = i + 1
  count : w.h.ipcObjectHandleCount.toNat = w.h.ipcObjects.length
  room : w.h.ipcObjects.length ≤ maxIpcObjects

variable {w w' : IpcWorld} {a : ReceiveArgs}

theorem IpcWorldInv.sameObjects {h' : IpcHandler} (hw : IpcWorldInv w) (hs : SameObjects w.h h') :
    IpcWorldInv ⟨h', w.registered⟩ := by
  have hlen : h'.ipcObjects.length = w.h.ipcObjects.length := by
    have := congrArg List.length hs.objects
    rwa [List.length_map, List.length_map] at this
  refine ⟨?_, fun i hi => ?_, ?_, ?_⟩
  · have := congrArg (List.map Prod.snd) hs.objects
    rw [List.map_map, List.map_map] at this
    exact hw.registered.trans this.symm
  · have hi : i < h'.ipcObjects.length := hi
    have hget : h'.ipcObjects[i].handle = w.h.ipcObjects[i].handle := by
      have := congrArg (fun l => (l[i]?).map fun x => x.2.1) hs.objects
      simpa [hi, hlen ▸ hi] using this
    show h'.ipcObjects[i].handle.toNat = i + 1
    rw [hget]
    exact hw.handles i (hlen ▸ hi)
  · show h'.ipcObjectHandleCount.toNat = h'.ipcObjects.length
    rw [hs.count, hlen, hw.count]
  · show h'.ipcObjects.length ≤ maxIpcObjects
    rw [hlen]
    exact hw.room

theorem IpcWorldInv.addNewServer {serverIdStr : Option (List U8)} {serverProcess : ℕ}
    {criticalSection : U32} {status : KeStatus} {handle : Option U32} {h' : IpcHandler}
    (hw : IpcWorldInv w) (hroom : w.h.ipcObjects.length < maxIpcObjects)
    (hr : w.h.addNewServer serverIdStr serverProcess criticalSection = (status, handle, h')) :
    IpcWorldInv
      ⟨h', w.registered ++ (handle.map fun handle => (handle, serverProcess)).toList⟩ := by
  unfold IpcHandler.addNewServer at hr
  split at hr
  · cases hr
    rwa [Option.map_none, Option.toList_none, List.append_nil]
  split at hr
  · cases hr
    rwa [Option.map_none, Option.toList_none, List.append_nil]
  split at hr
  · cases hr
    rwa [Option.map_none, Option.toList_none, List.append_nil]
  cases hr
  have hcount : (w.h.ipcObjectHandleCount + 1).toNat = w.h.ipcObjects.length + 1 := by
    have hmax : maxIpcObjects < 2 ^ 32 - 1 := by decide
    have hcount := hw.count
    rw [BitVec.toNat_add]
    show (_ + 1) % 2 ^ 32 = _
    omega
  refine ⟨?_, fun i hi => ?_, ?_, ?_⟩
  · show _ ++ _ = List.map _ (_ ++ [_])
    rw [List.map_append, ← hw.registered]
    rfl
  · show (w.h.ipcObjects ++ [_])[i].handle.toNat = i + 1
    rcases Nat.lt_or_ge i w.h.ipcObjects.length with hlt | hge
    · rw [List.getElem_append_left hlt]
      exact hw.handles i hlt
    · have hi : i < (w.h.ipcObjects ++ [_]).length := hi
      rw [List.length_append, List.length_singleton] at hi
      obtain rfl : i = w.h.ipcObjects.length := by omega
      rw [List.getElem_concat_length rfl]
      exact hcount
  · show _ = (w.h.ipcObjects ++ [_]).length
    rw [List.length_append, List.length_singleton]
    exact hcount
  · show (w.h.ipcObjects ++ [_]).length ≤ _
    rw [List.length_append, List.length_singleton]
    exact hroom

theorem IpcWorldInv.step {op : IpcCall} (hw : IpcWorldInv w) (hstep : IpcCallStep w op w') :
    IpcWorldInv w' := by
  cases hstep with
  | addNewServer hroom hr => exact hw.addNewServer hroom hr
  | send hr => exact hw.sameObjects (.send hr)
  | receiveWait hr => exact hw.sameObjects (.receiveWait hr)
  | receiveWake => exact hw.sameObjects (.receiveWake _ _)
  | receiveEnd hr => exact hw.sameObjects (.receiveEnd hr)
  | preempted hs => exact hw.sameObjects hs

/-- Two objects do not have one handle. -/
theorem IpcWorldInv.registered_iff (hw : IpcWorldInv w) {i : ℕ} (hi : i < w.h.ipcObjects.length)
    (p : ℕ) : (w.h.ipcObjects[i].handle, p) ∈ w.registered ↔
      p = w.h.ipcObjects[i].serverProcess := by
  rw [hw.registered, List.mem_map]
  constructor
  · rintro ⟨o, ho, heq⟩
    obtain ⟨j, hj, rfl⟩ := List.mem_iff_getElem.mp ho
    have hij : j = i := by
      have h₁ := hw.handles i hi
      have h₂ := hw.handles j hj
      rw [← (Prod.mk.inj heq).1] at h₁
      omega
    subst hij
    exact (Prod.mk.inj heq).2.symm
  · rintro rfl
    exact ⟨_, List.getElem_mem hi, rfl⟩

/-- A call with acceptable arguments goes on exactly when its handle is
registered, whoever makes it. -/
theorem IpcWorldInv.receiveBegin_cases (hw : IpcWorldInv w) (ha : a.refusal = none) :
    (w.h.receiveBegin a = .ret (.inl .ipcStatusServerNotFound) ∧
      ∀ p, (a.handle, p) ∉ w.registered) ∨
    ∃ status i owner, w.h.receiveBegin a = .ret (.inr (status, i)) ∧
      ∀ p, (a.handle, p) ∈ w.registered ↔ p = owner := by
  have hne : a.handle ≠ 0 := by
    intro h0
    rw [ReceiveArgs.refusal, if_pos h0] at ha
    cases ha
  cases hfind : w.h.ipcObjects.findIdx? (·.handle = a.handle) with
  | none =>
    refine .inl ⟨?_, fun p hp => ?_⟩
    · simp only [IpcHandler.receiveBegin, ha, IpcHandler.findIpcObjectByHandle, if_neg hne, hfind]
    · rw [hw.registered, List.mem_map] at hp
      obtain ⟨o, ho, heq⟩ := hp
      have := List.findIdx?_eq_none_iff.mp hfind o ho
      simp [(Prod.mk.inj heq).1] at this
  | some i =>
    obtain ⟨hi, hhandle, -⟩ := List.findIdx?_eq_some_iff_getElem.mp hfind
    refine .inr ⟨if a.serverProcess ≠ w.h.ipcObjects[i].serverProcess then
      .ipcStatusAccessDenied else .statusFailure, i, w.h.ipcObjects[i].serverProcess, ?_,
      fun p => ?_⟩
    · simp only [IpcHandler.receiveBegin, ha, IpcHandler.findIpcObjectByHandle, if_neg hne, hfind,
        List.getElem?_eq_getElem hi, Outcome.ofOption_some, Outcome.ret_bind]
      rfl
    · rw [← of_decide_eq_true hhandle]
      exact hw.registered_iff hi p

/-- What `ReadBytes` can answer. -/
theorem IpcState.readBytes_status {s s' : IpcState} {fuel size n : ℕ} {status : KeStatus}
    {bytes : List U8} (h : s.readBytes fuel size = .ret (status, bytes, n, s')) :
    status = .statusInvalidParameter ∨ status = .statusSuccess := by
  have hrest {t : IpcState} (h : t.readRest fuel size = .ret (status, bytes, n, s')) :
      status = .statusSuccess := by
    obtain ⟨x, -, h⟩ := Outcome.bind_eq_ret.mp h
    cases h
    rfl
  unfold IpcState.readBytes at h
  split at h
  · cases h
    exact .inl rfl
  split at h
  · obtain ⟨t, -, h⟩ := Outcome.bind_eq_ret.mp h
    exact .inr (hrest h)
  · exact .inr (hrest h)

/-- The status that a call ends with after its wait is that of `ReadBytes`. -/
theorem IpcHandler.receiveEnd_status {h h' : IpcHandler} {fuel i : ℕ} {status status' : KeStatus}
    {bytes : List U8} {bytesRead : Option ℕ}
    (hr : h.receiveEnd fuel status i a = .ret (status', bytes, bytesRead, h')) :
    status' ≠ .ipcStatusAccessDenied := by
  obtain ⟨o, -, hr⟩ := Outcome.bind_eq_ret.mp hr
  obtain ⟨criticalSection, -, hr⟩ := Outcome.bind_eq_ret.mp hr
  obtain ⟨⟨st, bs, n, s⟩, hread, hr⟩ := Outcome.bind_eq_ret.mp hr
  dsimp only at hr
  split at hr
  · cases hr
    rcases IpcState.readBytes_status hread with rfl | rfl <;> decide
  · cases hr
    decide

/-- A call that goes on is never denied. -/
theorem Receives.not_denied {status : KeStatus} {i : ℕ}
    (hbegin : w.h.receiveBegin a = .ret (.inr (status, i))) {bytes : List U8} :
    ¬ Receives w a .ipcStatusAccessDenied bytes w' := by
  intro h
  cases h with
  | refused hrefused =>
    rw [hbegin] at hrefused
    cases hrefused
  | completed _ _ _ hend => exact IpcHandler.receiveEnd_status hend rfl

theorem IpcHandler.receiveBegin_refused (h : IpcHandler) (ha : a.refusal ≠ none) :
    ∃ status, h.receiveBegin a = .ret (.inl status) := by
  obtain ⟨status, hstatus⟩ := Option.ne_none_iff_exists'.mp ha
  exact ⟨status, by simp only [receiveBegin, hstatus]⟩

/-- A call that is refused has one end. -/
theorem Receives.eq_of_refused {status status' : KeStatus} {bytes : List U8}
    (hbegin : w.h.receiveBegin a = .ret (.inl status)) (h : Receives w a status' bytes w') :
    status' = status ∧ bytes = [] ∧ w' = w := by
  cases h with
  | refused hrefused =>
    rw [hbegin] at hrefused
    cases hrefused
    exact ⟨rfl, rfl, rfl⟩
  | completed hgoes =>
    rw [hbegin] at hgoes
    cases hgoes

/-- The state after `IpcHandler::Init`. -/
def IpcHandler.init (mem : IpcMem) (nullSection : U32) : IpcHandler where
  ipcObjects := []
  ipcObjectHandleCount := 0
  mem := mem
  nullSection := nullSection

/-- In every state of every run from `Init`, the authority to receive is respected
by exactly those calls that come from the server, or end before the question. -/
theorem receive_authorized_iff {mem : IpcMem} {nullSection : U32} {ops : List IpcCall}
    (h : Run IpcCallStep ⟨.init mem nullSection, []⟩ ops w) (a : ReceiveArgs) :
    ReceiveAuthorized w a ↔ ServerCalls w a := by
  have hw : IpcWorldInv w := h.invariant (fun _ _ _ hi hs => hi.step hs)
    ⟨rfl, fun i hi => absurd hi (Nat.not_lt_zero i), rfl, Nat.zero_le _⟩
  constructor
  · intro hauth
    refine Classical.byContradiction fun hserver => ?_
    obtain ⟨hcaller, ha, owner, howner⟩ : (a.handle, a.serverProcess) ∉ w.registered ∧
        a.refusal = none ∧ ∃ owner, (a.handle, owner) ∈ w.registered := by
      simpa [ServerCalls, not_or] using hserver
    rcases hw.receiveBegin_cases ha with ⟨-, hnone⟩ | ⟨status, i, _, hbegin, -⟩
    · exact hnone owner howner
    · have hne : owner ≠ a.serverProcess := fun heq => hcaller (heq ▸ howner)
      exact Receives.not_denied hbegin ((hauth.denied ha howner hne).mpr rfl)
  · rintro (hcaller | hrefusal | hnone)
    · refine ⟨fun _ _ => hcaller, fun {owner} ha howner hne => ?_⟩
      rcases hw.receiveBegin_cases ha with ⟨-, hnone⟩ | ⟨_, _, o, -, hall⟩
      · exact absurd howner (hnone owner)
      · exact absurd (((hall _).mp howner).trans ((hall _).mp hcaller).symm) hne
    · obtain ⟨status, hbegin⟩ := w.h.receiveBegin_refused hrefusal
      exact ⟨fun h hne => absurd (h.eq_of_refused hbegin).2.1 hne,
        fun ha => absurd ha hrefusal⟩
    · refine ⟨fun {status bytes w'} h hne => ?_, fun _ howner => absurd howner (hnone _)⟩
      by_cases ha : a.refusal = none
      · rcases hw.receiveBegin_cases ha with ⟨hbegin, -⟩ | ⟨_, _, o, -, hall⟩
        · exact absurd (h.eq_of_refused hbegin).2.1 hne
        · exact absurd ((hall o).mpr rfl) (hnone o)
      · obtain ⟨status, hbegin⟩ := w.h.receiveBegin_refused ha
        exact absurd (h.eq_of_refused hbegin).2.1 hne

/-- The handler with one object, of process 1. -/
def oneServer (mem : IpcMem) (nullSection : U32) (buffer : IpcBuffer) : IpcHandler where
  ipcObjects := [⟨[115], 1, 1, buffer, 0⟩]
  ipcObjectHandleCount := 1
  mem := mem
  nullSection := nullSection

theorem oneServer_run (mem : IpcMem) :
    Run IpcCallStep ⟨.init mem 0, []⟩ [.addNewServer (some [115]) 1]
      ⟨oneServer mem 0 .init, [(1, 1)]⟩ := by
  have hadd : (IpcHandler.init mem 0).addNewServer (some [115]) 1 0 =
      (.statusSuccess, some 1, oneServer mem 0 .init) := rfl
  have hroom : (IpcHandler.init mem 0).ipcObjects.length < maxIpcObjects :=
    show 0 < maxIpcObjects by decide
  have hstep : IpcCallStep ⟨.init mem 0, []⟩ (.addNewServer (some [115]) 1)
      ⟨oneServer mem 0 .init, [] ++ ((some 1).map fun handle => (handle, 1)).toList⟩ :=
    .addNewServer hroom hadd
  exact .single hstep

/-- The server itself is served. -/
theorem oneServer_receive_authorized :
    ReceiveAuthorized ⟨oneServer (bootIpc .bss).mem 0 .init, [(1, 1)]⟩
      ⟨1, 1, 0x40001000, 16, 0x40000000⟩ :=
  (receive_authorized_iff (oneServer_run _) _).mpr (.inl (by decide))

/-- `AddBytes` signals the event. -/
theorem IpcState.addBytes_signaled {s s' : IpcState} {fuel : ℕ} {message : List U8}
    (h : s.addBytes fuel message = .ret (.statusSuccess, s')) :
    s'.buf.readyToReadEvent.signaled = true ∧ s'.buf.readyToReadEvent.value = false := by
  have hrest {t : IpcState} (h : t.addRest fuel message = .ret (.statusSuccess, s')) :
      s'.buf.readyToReadEvent.signaled = true ∧ s'.buf.readyToReadEvent.value = false := by
    obtain ⟨⟨status, u⟩, -, h⟩ := Outcome.bind_eq_ret.mp h
    dsimp only at h
    split at h
    · rename_i hfailed
      cases h
      cases hfailed
    · cases h
      exact ⟨rfl, rfl⟩
  unfold IpcState.addBytes at h
  split at h
  · cases h
  split at h
  · obtain ⟨⟨status, t⟩, -, h⟩ := Outcome.bind_eq_ret.mp h
    dsimp only at h
    split at h
    · rename_i hfailed
      cases h
      cases hfailed
    · exact hrest h
  · exact hrest h

/-- Process 2 sends the first message to the server of process 1. A call of `Receive` is not sent
back, as the event of the server is signaled, and reads the first bytes. Then there is room for
more. -/
theorem boot_receives (added : List U8) {n : ℕ} (hpos : n ≠ 0) (hn : n ≤ added.length)
    (hlen : added.length ≤ 4096) :
    ∃ (p : PagePool) (s t s' : IpcState), PagePool.bss.init kernelInfo = .ret p ∧
    (oneServer (bootIpc p).mem 0 .init).send 1 1 2 (some added) =
      .ret (.statusSuccess, oneServer s.mem 1 s.buf) ∧
    (oneServer s.mem 1 s.buf).receiveWait 9 0 = .ret (true, oneServer t.mem 1 t.buf) ∧
    t.buf.readyToReadEvent.signaled = false ∧
    t.readBytes 1 n = .ret (.statusSuccess, added.take n, n, s') ∧
    s'.mem.k.gPagePool.Serves (s'.buf.pagesList.map s'.mem.vAddr) ∧
    ∀ more : List U8, more ≠ [] → added.length + more.length ≤ 4096 →
      ∃ s'', s'.addBytes 1 more = .ret (.statusSuccess, s'') := by
  obtain ⟨p, hp⟩ := boot_init
  have hne : added ≠ [] := by
    rintro rfl
    exact hpos (Nat.le_zero.mp hn)
  have hsup : (bootIpc p).Supplied [] (0 + 1 + 0) := (bootIpc_supplied hp).mono (by decide)
  have hpages : (bootIpc p).pagesFor added ≤ (bootIpc p).mem.k.gPmm.freePages.card := by
    have hfree := (bootIpc_supplied hp).supply.pages
    show (added.length - _ + 4095) / 4096 ≤ (bootIpc p).mem.k.gPmm.freePages.card
    omega
  obtain ⟨s, live, hadd, hsup⟩ := hsup.addBytes (bootIpc_fresh hp) (bootIpc_owned hp) hne hlen
  obtain ⟨w, ⟨hs, hholds, hcontent⟩, -⟩ :=
    (bootIpc_fresh hp).addBytes_filled (bootIpc_owned hp) hpages hadd
  obtain ⟨hsignaled, hvalue⟩ := IpcState.addBytes_signaled hadd
  have hsend : (oneServer (bootIpc p).mem 0 .init).send 1 1 2 (some added) =
      .ret (.statusSuccess, oneServer s.mem 1 s.buf) := by
    obtain ⟨byte, rest, rfl⟩ := List.exists_cons_of_ne_nil hne
    show (bootIpc p).addBytes 1 (byte :: rest) >>= _ = _
    rw [show (0 + 1) = 1 from rfl] at hadd
    rw [hadd]
    rfl
  obtain ⟨evt, hevt⟩ : ∃ evt : Event, evt = { s.buf.readyToReadEvent with signaled := false } :=
    ⟨_, rfl⟩
  obtain ⟨t, hteq⟩ : ∃ t : IpcState, t = { s with buf := { s.buf with readyToReadEvent := evt } } :=
    ⟨_, rfl⟩
  have ht : t.Filled [] (bootWorld p 0x10000).HeapPage 0 0 w added 0 := by
    rw [hteq]
    exact ⟨hs.signal evt, hholds, hcontent⟩
  have hsupply : t.Supplied live 0 := by
    rw [hteq]
    exact ⟨hsup.inv, hsup.supply, hsup.mine⟩
  -- the wait clears the event and leaves the rest as it is
  have hwait : (oneServer s.mem 1 s.buf).receiveWait 9 0 = .ret (true, oneServer t.mem 1 t.buf) := by
    rw [hteq, hevt]
    show s.buf.readyToReadEvent.waitBegin 9 >>= _ = _
    simp only [Event.waitBegin, hvalue, hsignaled]
    rfl
  have hcleared : t.buf.readyToReadEvent.signaled = false := by
    rw [hteq, hevt]
  obtain ⟨bytes, s', hread, hsupply'⟩ := hsupply.readBytes ht hpos (by omega) (by omega)
  obtain ⟨hbytes, -, f, hs'⟩ := ht.readBytes (.inl (by omega)) hread
  rw [List.drop_zero] at hbytes
  rw [hbytes] at hread
  refine ⟨p, s, t, s', hp, hsend, hwait, hcleared, hread, hs'.stream.written.pool,
    fun more hmore hroom => ?_⟩
  obtain ⟨s'', -, hadd', -⟩ :=
    IpcState.Supplied.addMore (n := 0) (m := 0) hsupply' hs' hmore (by omega)
  exact ⟨s'', hadd'⟩

/-- Process 1 has registered a server and process 2 has sent it a byte. Process 3
receives the byte. -/
theorem client_receives : ∃ p w w', PagePool.bss.init kernelInfo = .ret p ∧
    Run IpcCallStep ⟨.init (bootIpc p).mem 0, []⟩
      [.addNewServer (some [115]) 1, .send 1 2 (some [7])] w ∧
    Receives w ⟨1, 3, 0x40001000, 1, 0x40000000⟩ .statusSuccess [7] w' ∧
    ¬ ReceiveAuthorized w ⟨1, 3, 0x40001000, 1, 0x40000000⟩ := by
  obtain ⟨p, s, t, s', hp, hsend, hwait, -, hread, -⟩ :=
    boot_receives [7] Nat.one_ne_zero (Nat.le_refl 1) (by decide)
  have hrun := (oneServer_run (bootIpc p).mem).snoc (.send hsend)
  have hend : (oneServer t.mem 1 t.buf).receiveEnd 1 .ipcStatusAccessDenied 0
      ⟨1, 3, 0x40001000, 1, 0x40000000⟩ =
        .ret (.statusSuccess, [7], some 1, oneServer s'.mem 1 s'.buf) := by
    show t.readBytes 1 1 >>= _ = _
    rw [hread]
    rfl
  have hreceives : Receives ⟨oneServer s.mem 1 s.buf, [(1, 1)]⟩ ⟨1, 3, 0x40001000, 1, 0x40000000⟩
      .statusSuccess [7] ⟨oneServer s'.mem 1 s'.buf, [(1, 1)]⟩ :=
    .completed rfl hwait (.nil _) hend
  have hclient : ((1, 3) : U32 × ℕ) ∉ [(1, 1)] := by decide
  exact ⟨p, _, _, hp, hrun, hreceives,
    fun hauth => absurd (hauth.reads hreceives (by decide)) hclient⟩

end LtMicros
