import LtMicros.Kernel
import LtMicros.Lib.Interning
import LtMicros.Lib.Run
import Mathlib.Data.List.Induction

/-!
# The handle manager

A list of objects with their handles, which a counter provides, and the linked list of the kernel
that it is kept in.
-/

namespace LtMicros

open Lib

/-- `List` of the kernel: the data of its first element, which is the null pointer in an empty
list, and of the elements behind it. -/
structure KernelList (α : Type) where
  data : Option α
  next : List (Option α)

namespace KernelList

variable {α γ : Type}

/-- `ListCreate`. `alloc` says whether there is memory, here as in what follows. -/
def listCreate (alloc : Bool) : Option (KernelList α) := if alloc then some ⟨none, []⟩ else none

/-- `ListPush`. -/
def listPush (alloc : Bool) (list : Option (KernelList α)) (data : α) : Option (KernelList α) :=
  match list with
  | none => none
  | some list =>
    if list.data.isNone then some { list with data := some data }
    else if alloc then some { list with next := list.next ++ [some data] }
    else some list

/-- `ListIsEmpty`. -/
def listIsEmpty (list : KernelList α) : Bool := list.data.isNone && list.next.isEmpty

/-- The loop of `ListEnumerate`. -/
def enumerateFrom (callback : Option α → γ → KeStatus × γ) : List (Option α) → γ → KeStatus × γ
  | [], context => (.statusSuccess, context)
  | data :: next, context =>
    let (status, context) := callback data context
    if failed status then
      (if status = .statusListStopIterating then .statusSuccess else status, context)
    else enumerateFrom callback next context

/-- `ListEnumerate`: the status, and the context that the callback has written. -/
def listEnumerate (list : Option (KernelList α)) (callback : Option α → γ → KeStatus × γ)
    (context : γ) : KeStatus × γ :=
  match list with
  | none => (.statusNullParameter, context)
  | some list =>
    if list.listIsEmpty then (.statusSuccess, context)
    else enumerateFrom callback (list.data :: list.next) context

/-- A list of data without null pointers. -/
def ofList : List α → KernelList α
  | [] => ⟨none, []⟩
  | a :: l => ⟨some a, l.map some⟩

theorem listPush_ofList (l : List α) (a : α) :
    listPush true (some (ofList l)) a = some (ofList (l ++ [a])) := by
  cases l with
  | nil => rfl
  | cons b l => simp [listPush, ofList]

theorem listEnumerate_ofList (l : List α) (callback : Option α → γ → KeStatus × γ) (context : γ) :
    listEnumerate (some (ofList l)) callback context =
      enumerateFrom callback (l.map some) context := by
  cases l with
  | nil => rfl
  | cons a l => rfl

/-- The list is gone through up to the first element that stops the callback. -/
theorem enumerateFrom_find (callback : Option α → γ → KeStatus × γ) (P : α → Bool)
    (update : α → γ → γ) (l : List α) (context : γ)
    (hcallback : ∀ a, callback (some a) context =
      if P a then (.statusListStopIterating, update a context) else (.statusSuccess, context)) :
    enumerateFrom callback (l.map some) context =
      (.statusSuccess, (l.find? P).elim context fun a => update a context) := by
  induction l with
  | nil => rfl
  | cons a l ih =>
    rw [List.map_cons, enumerateFrom, hcallback a]
    cases hP : P a with
    | true => simp [hP, failed]
    | false => simpa [List.find?_cons, hP, failed] using ih

end KernelList

/-- `INVALID_HANDLE_VALUE`. -/
def invalidHandleValue : U32 := 0

/-- `HandleType`. -/
inductive HandleType where
  | processHandle
  | handleTypeMax
deriving DecidableEq, Repr

/-- `FIND_HANDLE_CONTEXT`. -/
structure FindHandleContext where
  found : Bool
  foundHandle : U32
  object : U32

/-- `HandleObject`. -/
structure HandleObject where
  handle : U32
  object : U32

/-- `HandleManager`, and the counter `s_NextHandleValue`. -/
structure HandleManager where
  processHandleList : Option (KernelList HandleObject)
  nextHandleValue : U32

/-- `_FindHandleCallback`, with a context that is not the null pointer. -/
def findHandleCallback (data : Option HandleObject) (context : FindHandleContext) :
    KeStatus × FindHandleContext :=
  match data with
  | none => (.statusNullParameter, context)
  | some handleObject =>
    if handleObject.object = context.object then
      (.statusListStopIterating, { context with found := true, foundHandle := handleObject.handle })
    else (.statusSuccess, context)

namespace HandleManager

/-- `HandleManager::Init`, at the start of the kernel. -/
def init (alloc : Bool) : HandleManager := ⟨KernelList.listCreate alloc, 1⟩

/-- What the functions of the handle manager look at first. The parameter `outHandle` is the word
it points to. -/
def checkParameters (type : HandleType) (object : U32) (outHandle : Option U32) : KeStatus :=
  if type = .handleTypeMax then .statusInvalidParameter
  else if object = 0 then .statusNullParameter
  else if outHandle = none then .statusNullParameter
  else .statusSuccess

/-- `HandleManager::FindFromObjectPtr`. The only type that passes the check is `PROCESS_HANDLE`. -/
def findFromObjectPtr (m : HandleManager) (type : HandleType) (object : U32)
    (outHandle : Option U32) : KeStatus × Option U32 :=
  let status := checkParameters type object outHandle
  if failed status then (status, outHandle)
  else
    let (status, context) := KernelList.listEnumerate m.processHandleList findHandleCallback
      ⟨false, invalidHandleValue, object⟩
    if failed status then (status, outHandle)
    else if context.found = false then (.statusNotFound, outHandle)
    else (.statusSuccess, some context.foundHandle)

/-- `HandleManager::_CreateHandle`. There may be no memory for the new object, or none for an
element of the list. -/
def newHandle (m : HandleManager) (type : HandleType) (object : U32) (outHandle : Option U32)
    (allocObject allocElem : Bool) : KeStatus × Option U32 × HandleManager :=
  let status := checkParameters type object outHandle
  if failed status then (status, outHandle, m)
  else if allocObject = false then (.statusAllocFailed, outHandle, m)
  else
    let newObject : HandleObject := ⟨m.nextHandleValue, object⟩
    (.statusSuccess, some newObject.handle,
      ⟨KernelList.listPush allocElem m.processHandleList newObject, m.nextHandleValue + 1⟩)

/-- `HandleManager::CreateHandle`. -/
def createHandle (m : HandleManager) (type : HandleType) (object : U32) (outHandle : Option U32)
    (allocObject allocElem : Bool) : KeStatus × Option U32 × HandleManager :=
  let status := checkParameters type object outHandle
  if failed status then (status, outHandle, m)
  else
    let (status, localHandle) := m.findFromObjectPtr type object (some invalidHandleValue)
    if failed status ∧ status ≠ .statusNotFound then (status, outHandle, m)
    else if status ≠ .statusNotFound then (.statusHandleAlreadyExist, outHandle, m)
    else
      match m.newHandle type object localHandle allocObject allocElem with
      | (.statusSuccess, localHandle, m) => (.statusSuccess, localHandle, m)
      | (status, _, m) => (status, outHandle, m)

/-- `HandleManager::FindOrCreate`. -/
def findOrCreate (m : HandleManager) (type : HandleType) (object : U32) (outHandle : Option U32)
    (allocObject allocElem : Bool) : KeStatus × Option U32 × HandleManager :=
  let status := checkParameters type object outHandle
  if failed status then (status, outHandle, m)
  else
    match m.findFromObjectPtr type object (some invalidHandleValue) with
    | (.statusSuccess, localHandle) => (.statusSuccess, localHandle, m)
    | (.statusNotFound, localHandle) =>
      match m.createHandle type object localHandle allocObject allocElem with
      | (.statusSuccess, localHandle, m) => (.statusSuccess, localHandle, m)
      | (status, _, m) => (status, outHandle, m)
    | (status, _) => (status, outHandle, m)

end HandleManager

/-! ## Calls -/

/-- The functions of the handle manager. -/
inductive HandleOp where
  | findOrCreate
  | createHandle
  | findFromObjectPtr

/-- A call for an object, with the word that `outHandle` points to before and after it. -/
structure HandleCall where
  op : HandleOp
  object : U32
  outHandle : U32
  status : KeStatus
  handle : U32

/-- A call for a process when there is memory. -/
def HandleManager.call (m : HandleManager) (op : HandleOp) (object outHandle : U32) :
    KeStatus × Option U32 × HandleManager :=
  match op with
  | .findOrCreate => m.findOrCreate .processHandle object (some outHandle) true true
  | .createHandle => m.createHandle .processHandle object (some outHandle) true true
  | .findFromObjectPtr =>
    let (status, handle) := m.findFromObjectPtr .processHandle object (some outHandle)
    (status, handle, m)

/-- The calls of the kernel, for objects that are not the null pointer. -/
def HandleStep (m : HandleManager) (c : HandleCall) (m' : HandleManager) : Prop :=
  c.object ≠ 0 ∧ m.call c.op c.object c.outHandle = (c.status, some c.handle, m')

/-- One of the calls has answered the handle for the object. -/
def Answers (calls : List HandleCall) (object handle : U32) : Prop :=
  ∃ c ∈ calls, c.object = object ∧ c.status = .statusSuccess ∧ c.handle = handle

/-- One of the calls has given the object a handle. -/
def Given (calls : List HandleCall) (object : U32) : Prop :=
  ∃ c ∈ calls, c.op ≠ .findFromObjectPtr ∧ c.object = object ∧ c.status = .statusSuccess

/-- What a call does after the calls `before`. -/
def HandleCall.Correct (before : List HandleCall) (m : HandleManager) (c : HandleCall)
    (m' : HandleManager) : Prop :=
  match c.op with
  | .findOrCreate => c.status = .statusSuccess ∧ ∀ h, Answers before c.object h → c.handle = h
  | .createHandle =>
    (Given before c.object →
      c.status = .statusHandleAlreadyExist ∧ c.handle = c.outHandle ∧ m' = m) ∧
    (¬Given before c.object → c.status = .statusSuccess)
  | .findFromObjectPtr =>
    (Given before c.object → c.status = .statusSuccess) ∧
    (¬Given before c.object → c.status = .statusNotFound)

/-- The handles that the calls have answered are those of a bijection, and each of the calls has
done what it should. -/
structure HandlesBijective (calls : List HandleCall) : Prop where
  one : ∀ o h h', Answers calls o h → Answers calls o h' → h = h'
  distinct : ∀ o o' h, Answers calls o h → Answers calls o' h → o = o'
  valid : ∀ o h, Answers calls o h → h ≠ invalidHandleValue
  correct : ∀ before c m m', before ++ [c] <+: calls →
    Run HandleStep (HandleManager.init true) before m → HandleStep m c m' → c.Correct before m m'

/-! ## The table of the objects -/

/-- The list of the handle manager for the objects that got handles, in this order. -/
def handleObjects (keys : List U32) : List HandleObject :=
  keys.mapIdx fun i object => ⟨BitVec.ofNat 32 (i + 1), object⟩

/-- The handle of an object. -/
def handleOf (keys : List U32) (object : U32) : U32 := BitVec.ofNat 32 (keys.idxOf object + 1)

namespace HandleManager

variable {m m' : HandleManager} {keys : List U32} {o out : U32}

/-- The handle manager keeps the table of these objects. -/
structure Represents (m : HandleManager) (keys : List U32) : Prop where
  list : m.processHandleList = some (KernelList.ofList (handleObjects keys))
  next : m.nextHandleValue = BitVec.ofNat 32 (keys.length + 1)
  nodup : keys.Nodup

theorem init_represents : (init true).Represents [] := ⟨rfl, rfl, List.nodup_nil⟩

theorem handleObjects_concat (keys : List U32) (o : U32) :
    handleObjects (keys ++ [o]) =
      handleObjects keys ++ [⟨BitVec.ofNat 32 (keys.length + 1), o⟩] := List.mapIdx_concat

/-- The first entry for an object has its handle. -/
theorem find_handleObjects (keys : List U32) (o : U32) :
    (handleObjects keys).find? (fun e => e.object = o) =
      if o ∈ keys then some ⟨handleOf keys o, o⟩ else none := by
  induction keys using List.reverseRecOn with
  | nil => rfl
  | append_singleton keys k ih =>
    rw [handleObjects_concat, List.find?_append, ih]
    by_cases hmem : o ∈ keys
    · rw [if_pos hmem, if_pos (List.mem_append_left _ hmem), Option.some_or, handleOf, handleOf,
        List.idxOf_append_of_mem hmem]
    · rw [if_neg hmem, Option.none_or]
      by_cases hk : k = o
      · subst hk
        rw [if_pos (by simp), handleOf, List.idxOf_append_of_notMem hmem]
        simp
      · rw [if_neg (by simp [hmem, Ne.symm hk])]
        simp [hk]

theorem checkParameters_eq (ho : o ≠ 0) :
    checkParameters .processHandle o (some out) = .statusSuccess := by
  rw [checkParameters, if_neg (by decide), if_neg ho, if_neg nofun]

/-- `FindFromObjectPtr` looks the object up. -/
theorem Represents.findFromObjectPtr (out : U32) (h : m.Represents keys) (ho : o ≠ 0) :
    m.findFromObjectPtr .processHandle o (some out) =
      if o ∈ keys then (.statusSuccess, some (handleOf keys o)) else (.statusNotFound, some out) := by
  have henum := KernelList.enumerateFrom_find findHandleCallback
    (fun e => decide (e.object = o))
    (fun e context => { context with found := true, foundHandle := e.handle })
    (handleObjects keys) ⟨false, invalidHandleValue, o⟩ (fun e => by
      simp only [findHandleCallback, decide_eq_true_eq])
  rw [HandleManager.findFromObjectPtr, checkParameters_eq ho, h.list,
    KernelList.listEnumerate_ofList, henum, find_handleObjects]
  by_cases hmem : o ∈ keys
  · rw [if_pos hmem, if_pos hmem]
    rfl
  · rw [if_neg hmem, if_neg hmem]
    rfl

/-- `_CreateHandle` gives a new object the next handle. -/
theorem Represents.newHandle (out : U32) (h : m.Represents keys) (ho : o ≠ 0) (hnew : o ∉ keys) :
    ∃ m', m.newHandle .processHandle o (some out) true true =
        (.statusSuccess, some (handleOf (intern keys o) o), m') ∧
      m'.Represents (intern keys o) := by
  have hhandle : handleOf (intern keys o) o = BitVec.ofNat 32 (keys.length + 1) := by
    rw [handleOf, idxOf_intern hnew]
  refine ⟨⟨some (KernelList.ofList (handleObjects (intern keys o))), m.nextHandleValue + 1⟩, ?_,
    rfl, ?_, nodup_intern h.nodup⟩
  · have hpush := KernelList.listPush_ofList (handleObjects keys)
      ⟨BitVec.ofNat 32 (keys.length + 1), o⟩
    rw [← handleObjects_concat, ← intern_of_not_mem hnew] at hpush
    rw [HandleManager.newHandle, checkParameters_eq ho, h.list, h.next, hhandle, ← hpush]
    rfl
  · show m.nextHandleValue + 1 = _
    rw [h.next, intern_of_not_mem hnew, List.length_append, List.length_singleton]
    exact BitVec.ofNat_add_ofNat (keys.length + 1) 1

theorem Represents.createHandle_old (out : U32) (h : m.Represents keys) (ho : o ≠ 0) (hmem : o ∈ keys) :
    m.createHandle .processHandle o (some out) true true =
      (.statusHandleAlreadyExist, some out, m) := by
  rw [HandleManager.createHandle, checkParameters_eq ho, h.findFromObjectPtr _ ho, if_pos hmem]
  rfl

theorem Represents.createHandle_new (out : U32) (h : m.Represents keys) (ho : o ≠ 0) (hnew : o ∉ keys) :
    ∃ m', m.createHandle .processHandle o (some out) true true =
        (.statusSuccess, some (handleOf (intern keys o) o), m') ∧
      m'.Represents (intern keys o) := by
  obtain ⟨m', heq, hm'⟩ := h.newHandle invalidHandleValue ho hnew
  refine ⟨m', ?_, hm'⟩
  rw [HandleManager.createHandle, checkParameters_eq ho, h.findFromObjectPtr _ ho, if_neg hnew]
  dsimp only
  rw [heq]
  rfl

theorem Represents.findOrCreate (out : U32) (h : m.Represents keys) (ho : o ≠ 0) :
    ∃ m', m.findOrCreate .processHandle o (some out) true true =
        (.statusSuccess, some (handleOf (intern keys o) o), m') ∧
      m'.Represents (intern keys o) := by
  by_cases hmem : o ∈ keys
  · refine ⟨m, ?_, by rwa [intern_of_mem hmem]⟩
    rw [HandleManager.findOrCreate, checkParameters_eq ho, h.findFromObjectPtr _ ho, if_pos hmem,
      intern_of_mem hmem]
    rfl
  · obtain ⟨m', heq, hm'⟩ := h.createHandle_new invalidHandleValue ho hmem
    refine ⟨m', ?_, hm'⟩
    rw [HandleManager.findOrCreate, checkParameters_eq ho, h.findFromObjectPtr _ ho, if_neg hmem]
    dsimp only
    rw [heq]
    rfl

/-! ## Runs -/

variable {calls before : List HandleCall} {c : HandleCall}

/-- The table after the calls: it has the objects that were given a handle, and the calls have
answered the handles in it. -/
structure Tracks (keys : List U32) (calls : List HandleCall) : Prop where
  length : keys.length ≤ calls.length
  given : ∀ o, Given calls o ↔ o ∈ keys
  answers : ∀ o h, Answers calls o h → o ∈ keys ∧ h = handleOf keys o

theorem given_concat : Given (calls ++ [c]) o ↔
    Given calls o ∨ (c.op ≠ .findFromObjectPtr ∧ c.object = o ∧ c.status = .statusSuccess) := by
  simp [Given, or_and_right, exists_or]

theorem answers_concat {h : U32} : Answers (calls ++ [c]) o h ↔
    Answers calls o h ∨ (c.object = o ∧ c.status = .statusSuccess ∧ c.handle = h) := by
  simp [Answers, or_and_right, exists_or]

/-- The table after one more call. -/
theorem Tracks.concat {keys' : List U32} (ht : Tracks keys calls) (hinit : keys <+: keys')
    (hlength : keys'.length ≤ keys.length + 1)
    (hmem : ∀ o, o ∈ keys' ↔
      o ∈ keys ∨ (c.op ≠ .findFromObjectPtr ∧ c.object = o ∧ c.status = .statusSuccess))
    (hanswer : c.status = .statusSuccess →
      c.object ∈ keys' ∧ c.handle = handleOf keys' c.object) :
    Tracks keys' (calls ++ [c]) := by
  constructor
  · have hle := ht.length
    rw [List.length_append, List.length_singleton]
    omega
  · intro o
    rw [given_concat, hmem, ht.given]
  · intro o h ha
    rcases answers_concat.mp ha with ha | ⟨rfl, hs, rfl⟩
    · obtain ⟨ho, rfl⟩ := ht.answers o h ha
      exact ⟨hinit.subset ho, by rw [handleOf, handleOf, idxOf_of_prefix hinit ho]⟩
    · exact hanswer hs

/-- One call keeps a table. -/
theorem Represents.step (h : m.Represents keys) (ht : Tracks keys calls)
    (hstep : HandleStep m c m') :
    c.Correct calls m m' ∧ ∃ keys', m'.Represents keys' ∧ Tracks keys' (calls ++ [c]) := by
  obtain ⟨op, o, out, status, handle⟩ := c
  have ho : o ≠ 0 := hstep.1
  have hcall : m.call op o out = (status, some handle, m') := hstep.2
  clear hstep
  cases op with
  | findOrCreate =>
    obtain ⟨m₁, heq, hm₁⟩ := h.findOrCreate out ho
    cases heq.symm.trans hcall
    refine ⟨⟨rfl, fun h' ha => ?_⟩, intern keys o, hm₁, ?_⟩
    · obtain ⟨hmem, rfl⟩ := ht.answers o h' ha
      rw [intern_of_mem hmem]
    · refine ht.concat prefix_intern length_intern_le (fun o' => ?_) fun _ =>
        ⟨mem_intern.mpr (.inl rfl), rfl⟩
      rw [mem_intern, or_comm, eq_comm]
      simp
  | createHandle =>
    by_cases hmem : o ∈ keys
    · -- the object has a handle, and the call fails
      cases (h.createHandle_old out ho hmem).symm.trans hcall
      refine ⟨⟨fun _ => ⟨rfl, rfl, rfl⟩, fun hnot => absurd ((ht.given o).mpr hmem) hnot⟩, keys, h,
        ?_⟩
      exact ht.concat (List.prefix_refl _) (Nat.le_succ _) (fun o' => by simp) nofun
    · obtain ⟨m₁, heq, hm₁⟩ := h.createHandle_new out ho hmem
      cases heq.symm.trans hcall
      refine ⟨⟨fun hg => absurd ((ht.given o).mp hg) hmem, fun _ => rfl⟩, intern keys o, hm₁, ?_⟩
      refine ht.concat prefix_intern length_intern_le (fun o' => ?_) fun _ =>
        ⟨mem_intern.mpr (.inl rfl), rfl⟩
      rw [mem_intern, or_comm, eq_comm]
      simp
  | findFromObjectPtr =>
    have hfind := h.findFromObjectPtr out ho
    have hcall : ((m.findFromObjectPtr .processHandle o (some out)).1,
        (m.findFromObjectPtr .processHandle o (some out)).2, m) = (status, some handle, m') := hcall
    rw [hfind] at hcall
    by_cases hmem : o ∈ keys
    · rw [if_pos hmem] at hcall
      cases hcall
      refine ⟨⟨fun _ => rfl, fun hnot => absurd ((ht.given o).mpr hmem) hnot⟩, keys, h, ?_⟩
      exact ht.concat (List.prefix_refl _) (Nat.le_succ _) (fun o' => by simp) fun _ => ⟨hmem, rfl⟩
    · rw [if_neg hmem] at hcall
      cases hcall
      refine ⟨⟨fun hg => absurd ((ht.given o).mp hg) hmem, fun _ => rfl⟩, keys, h, ?_⟩
      exact ht.concat (List.prefix_refl _) (Nat.le_succ _) (fun o' => by simp) nofun

theorem represents_run (hrun : Run HandleStep (init true) calls m) :
    ∃ keys, m.Represents keys ∧ Tracks keys calls := by
  induction hrun with
  | nil => exact ⟨[], init_represents, Nat.le_refl 0, by simp [Given], by simp [Answers]⟩
  | snoc _ hstep ih =>
    obtain ⟨keys, h, ht⟩ := ih
    exact (h.step ht hstep).2

/-- In a table of fewer than `2 ^ 32` objects the handles are different, and none is
`INVALID_HANDLE_VALUE`. -/
theorem handleOf_toNat (hmem : o ∈ keys) (hlen : keys.length < 2 ^ 32) :
    (handleOf keys o).toNat = keys.idxOf o + 1 := by
  have hlt := List.idxOf_lt_length_of_mem hmem
  exact Nat.mod_eq_of_lt (by omega)

/-- After fewer than `2 ^ 32` calls the handles are a bijection. -/
theorem handles_bijective (hrun : Run HandleStep (init true) calls m)
    (hlen : calls.length < 2 ^ 32) : HandlesBijective calls := by
  obtain ⟨keys, -, ht⟩ := represents_run hrun
  have hkeys : keys.length < 2 ^ 32 := Nat.lt_of_le_of_lt ht.length hlen
  constructor
  · intro o h h' ha ha'
    exact (ht.answers o h ha).2.trans (ht.answers o h' ha').2.symm
  · intro o o' h ha ha'
    obtain ⟨ho, rfl⟩ := ht.answers o h ha
    obtain ⟨ho', heq⟩ := ht.answers o' _ ha'
    have hnat := congrArg BitVec.toNat heq
    rw [handleOf_toNat ho hkeys, handleOf_toNat ho' hkeys] at hnat
    exact (List.idxOf_inj ho).mp (Nat.succ_injective hnat)
  · intro o h ha
    obtain ⟨ho, rfl⟩ := ht.answers o h ha
    intro hzero
    have hnat := congrArg BitVec.toNat hzero
    rw [handleOf_toNat ho hkeys] at hnat
    exact Nat.succ_ne_zero _ hnat
  · intro before c m₁ m₂ _ hbefore hstep
    obtain ⟨keys₁, h₁, ht₁⟩ := represents_run hbefore
    exact (h₁.step ht₁ hstep).1

/-- Two objects, one of which is looked up again. -/
theorem two_handles : HandlesBijective
    [⟨.createHandle, 0x1000, 0, .statusSuccess, 1⟩, ⟨.findOrCreate, 0x2000, 0, .statusSuccess, 2⟩,
      ⟨.findFromObjectPtr, 0x1000, 0, .statusSuccess, 1⟩] := by
  have hfirst : Run HandleStep (init true) [⟨.createHandle, 0x1000, 0, .statusSuccess, 1⟩] _ :=
    .single ⟨by decide, rfl⟩
  have hsecond : Run HandleStep (init true) [⟨.createHandle, 0x1000, 0, .statusSuccess, 1⟩,
      ⟨.findOrCreate, 0x2000, 0, .statusSuccess, 2⟩] _ := hfirst.snoc ⟨by decide, rfl⟩
  have hthird : Run HandleStep (init true) [⟨.createHandle, 0x1000, 0, .statusSuccess, 1⟩,
      ⟨.findOrCreate, 0x2000, 0, .statusSuccess, 2⟩,
      ⟨.findFromObjectPtr, 0x1000, 0, .statusSuccess, 1⟩] _ := hsecond.snoc ⟨by decide, rfl⟩
  exact handles_bijective hthird (by decide)

end HandleManager

end LtMicros
