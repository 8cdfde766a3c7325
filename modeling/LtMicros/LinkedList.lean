import LtMicros.Kernel
import LtMicros.Lib.Chain

/-!
# The linked list of the kernel

`List.cpp` with its nodes at the addresses where the heap has put them. A null pointer is `none`,
among the nodes as among the data. Each field that is read or written is an event, which says
whether the node is a block in use; so are the blocks that are freed, and the calls of a cleaner or
a callback. What `HeapAlloc` answers is an argument: a block that is not in use, with whatever is in
it, or the null pointer.
-/

namespace LtMicros

open Lib

/-- `ListElem`. -/
structure ListElem (α : Type) where
  prev : Option ℕ
  next : Option ℕ
  data : Option α

/-- The nodes, and the blocks of the heap in use. -/
structure ListMem (α : Type) where
  elem : ℕ → ListElem α
  live : List ℕ

/-- What a call does on the way. `null` is an access through the null pointer. -/
inductive ListEvent (α : Type) where
  | null
  | access (p : ℕ) (inUse : Bool)
  | free (p : ℕ) (inUse : Bool)
  | call (data : Option α)

namespace ListEvent

variable {α : Type}

/-- The event concerns no block that is not in use. -/
def InUse : ListEvent α → Prop
  | null => False
  | access _ inUse => inUse = true
  | free _ inUse => inUse = true
  | call _ => True

/-- The block that is freed. -/
def freed : ListEvent α → Option ℕ
  | free p _ => some p
  | _ => none

/-- The data that a cleaner or a callback is called with. -/
def called : ListEvent α → Option (Option α)
  | call data => some data
  | _ => none

end ListEvent

namespace ListMem

variable {α γ : Type}

/-- The fields of a node. -/
def read (m : ListMem α) : Option ℕ → Traced (ListEvent α) (ListElem α)
  | none => do
    Traced.note .null
    Traced.lift .fault
  | some p => do
    Traced.note (.access p (p ∈ m.live))
    return m.elem p

/-- The nodes with one of them changed. -/
def set (m : ListMem α) (p : ℕ) (f : ListElem α → ListElem α) : ListMem α :=
  { m with elem := Function.update m.elem p (f (m.elem p)) }

/-- An assignment to a field of a node. -/
def modify (m : ListMem α) (f : ListElem α → ListElem α) :
    Option ℕ → Traced (ListEvent α) (ListMem α)
  | none => do
    Traced.note .null
    Traced.lift .fault
  | some p => do
    Traced.note (.access p (p ∈ m.live))
    return m.set p f

/-- `HeapAlloc` of a node. -/
def heapAlloc (m : ListMem α) : Option (ℕ × ListElem α) → Option ℕ × ListMem α
  | none => (none, m)
  | some (p, elem) => (some p, ⟨Function.update m.elem p elem, p :: m.live⟩)

/-- `HeapFree`. -/
def heapFree (m : ListMem α) (p : ℕ) : Traced (ListEvent α) (ListMem α) := do
  Traced.note (.free p (p ∈ m.live))
  return { m with live := m.live.erase p }

/-- `ListCreate`. -/
def listCreate (m : ListMem α) (block : Option (ℕ × ListElem α)) :
    Traced (ListEvent α) (Option ℕ × ListMem α) :=
  match m.heapAlloc block with
  | (none, m) => return (none, m)
  | (some list, m) => do
    let m ← m.modify (fun elem => { elem with prev := none }) (some list)
    let m ← m.modify (fun elem => { elem with next := none }) (some list)
    let m ← m.modify (fun elem => { elem with data := none }) (some list)
    return (some list, m)

/-- The call of the cleaner in a turn of `ListDestroyEx`. -/
def clean (m : ListMem α) (cleaner : Option (α → ListMem α → ListMem α)) (elem : Option ℕ) :
    Traced (ListEvent α) (ListMem α) :=
  match cleaner with
  | none => return m
  | some cleaner => do
    let node ← m.read elem
    match node.data with
    | none => return m
    | some data => do
      Traced.note (.call (some data))
      return cleaner data m

/-- One turn of the loop of `ListDestroyEx`. -/
def destroyTurn (cleaner : Option (α → ListMem α → ListMem α))
    (state : Option ℕ × Option ℕ × ListMem α) :
    Traced (ListEvent α) ((Option ℕ × Option ℕ × ListMem α) ⊕ ListMem α) :=
  let (elem, next, m) := state
  match elem with
  | none => return .inr m
  | some p => do
    let m ← m.clean cleaner elem
    let m ← m.heapFree p
    if next = none then return .inl (next, none, m)
    else do
      let node ← m.read next
      return .inl (next, node.next, m)

/-- `ListDestroyEx`, and `ListDestroy` without a cleaner. -/
def listDestroyEx (fuel : ℕ) (m : ListMem α) (list : Option ℕ)
    (cleaner : Option (α → ListMem α → ListMem α)) : Traced (ListEvent α) (ListMem α) :=
  if list = none then return m
  else do
    let node ← m.read list
    Traced.loop (destroyTurn cleaner) fuel (list, node.next, m)

/-- One turn of the loop with which `ListPush` looks for the last node. -/
def lastTurn (m : ListMem α) (elem : Option ℕ) :
    Traced (ListEvent α) (Option ℕ ⊕ Option ℕ) := do
  let node ← m.read elem
  if node.next = none then return .inr elem
  else return .inl node.next

/-- `ListPush`. -/
def listPush (fuel : ℕ) (m : ListMem α) (list : Option ℕ) (data : Option α)
    (block : Option (ℕ × ListElem α)) : Traced (ListEvent α) (ListMem α) :=
  if list = none then return m
  else do
    let node ← m.read list
    if node.data = none then m.modify (fun elem => { elem with data }) list
    else do
      let elem ← Traced.loop (lastTurn m) fuel list
      let (next, m) := m.heapAlloc block
      let m ← m.modify (fun elem => { elem with next }) elem
      if next = none then return m
      else do
        let m ← m.modify (fun node => { node with prev := elem }) next
        let m ← m.modify (fun elem => { elem with data }) next
        m.modify (fun elem => { elem with next := none }) next

/-- One turn of the loop of `ListGet`. -/
def getTurn (m : ListMem α) (state : Option ℕ × ℕ) :
    Traced (ListEvent α) ((Option ℕ × ℕ) ⊕ (Option ℕ × ℕ)) :=
  let (list, index) := state
  if index = 0 then return .inr (list, index)
  else do
    let node ← m.read list
    let list := node.next
    let node ← m.read list
    if node.next = none then return .inr (list, index - 1)
    else return .inl (list, index - 1)

/-- `ListGet`. -/
def listGet (fuel : ℕ) (m : ListMem α) (list : Option ℕ) (index : ℕ) :
    Traced (ListEvent α) (Option α) :=
  if list = none then return none
  else do
    let (list, index) ← Traced.loop (getTurn m) fuel (list, index)
    if index = 0 then do
      let node ← m.read list
      return node.data
    else return none

/-- `ListTop`. -/
def listTop (m : ListMem α) (list : Option ℕ) : Traced (ListEvent α) (Option α) :=
  if list = none then return none
  else do
    let node ← m.read list
    return node.data

/-- `ListPop`: the data, what is behind the pointer to the list then, and the nodes. -/
def listPop (m : ListMem α) (list : Option ℕ) :
    Traced (ListEvent α) (Option α × Option ℕ × ListMem α) :=
  match list with
  | none => return (none, none, m)
  | some p => do
    let node ← m.read list
    if node.data = none then return (none, list, m)
    else if node.next ≠ none then do
      let m ← m.heapFree p
      return (node.data, node.next, m)
    else do
      let m ← m.modify (fun elem => { elem with data := none }) list
      return (node.data, list, m)

/-- `ListIsEmpty`. -/
def listIsEmpty (m : ListMem α) (list : Option ℕ) : Traced (ListEvent α) Bool :=
  if list = none then return true
  else do
    let node ← m.read list
    return node.data.isNone && node.next.isNone

/-- One turn of the loop of `ListEnumerate`, with the context that the callback has written. -/
def enumerateTurn (m : ListMem α) (callback : Option α → γ → KeStatus × γ)
    (state : Option ℕ × Option ℕ × γ) :
    Traced (ListEvent α) ((Option ℕ × Option ℕ × γ) ⊕ (KeStatus × γ)) :=
  let (elem, next, context) := state
  if elem = none then return .inr (.statusSuccess, context)
  else do
    let node ← m.read elem
    Traced.note (.call node.data)
    let (status, context) := callback node.data context
    if failed status then
      return .inr (if status = .statusListStopIterating then .statusSuccess else status, context)
    else if next = none then return .inl (next, none, context)
    else do
      let node ← m.read next
      return .inl (next, node.next, context)

/-- `ListEnumerate`. -/
def listEnumerate (fuel : ℕ) (m : ListMem α) (list : Option ℕ)
    (callback : Option (Option α → γ → KeStatus × γ)) (context : γ) :
    Traced (ListEvent α) (KeStatus × γ) :=
  if list = none then return (.statusNullParameter, context)
  else match callback with
  | none => return (.statusNullParameter, context)
  | some callback => do
    let empty ← m.listIsEmpty list
    if empty then return (.statusSuccess, context)
    else do
      let node ← m.read list
      Traced.loop (enumerateTurn m callback) fuel (list, node.next, context)

end ListMem

end LtMicros
