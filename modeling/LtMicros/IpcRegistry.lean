import LtMicros.IpcAuthority

/-!
# The registry of server names

What sequences of `AddNewServer` and `ConnectToServer` do with the names of servers.
Each call comes with a name, with a process, and with a place for the handle.
`StrCmp` tells any two names apart that are not empty; the empty name is equal to
every name.
-/

namespace LtMicros

open Lib

theorem strCmp_nil_left (t : List U8) : strCmp [] t = 0 := by
  simp only [strCmp]

theorem strCmp_nil_right (s : List U8) : strCmp s [] = 0 := by
  cases s <;> simp only [strCmp]

theorem U8.eq_of_not_slt {c d : U8} (h : ¬c.slt d) (h' : ¬d.slt c) : c = d := by
  rw [BitVec.slt_iff_toInt_lt, not_lt] at h h'
  exact BitVec.eq_of_toInt_eq (le_antisymm h' h)

theorem U8.not_slt_self (c : U8) : ¬c.slt c := by
  rw [BitVec.slt_iff_toInt_lt]
  exact lt_irrefl _

/-- The strings that `StrCmp` takes for equal. -/
theorem strCmp_eq_zero_iff (s t : List U8) : strCmp s t = 0 ↔ s = t ∨ s = [] ∨ t = [] := by
  induction s generalizing t with
  | nil => simp [strCmp_nil_left]
  | cons c s ih =>
    cases t with
    | nil => simp [strCmp_nil_right]
    | cons d t =>
      have hne : ¬(c :: s = [] ∨ d :: t = []) := by simp
      rw [or_iff_left hne, strCmp, List.cons.injEq]
      split_ifs with hlt hgt hs ht
      · have hcd : c ≠ d := fun h => U8.not_slt_self d (h ▸ hlt)
        simp [hcd]
      · have hcd : c ≠ d := fun h => U8.not_slt_self d (h ▸ hgt)
        simp [hcd]
      · have hst : s ≠ t := fun h => hs.2 (h ▸ hs.1)
        simp [hst]
      · have hst : s ≠ t := fun h => ht.2 (h ▸ ht.1)
        simp [hst]
      · -- the strings end together, or neither does
        have hcd : c = d := U8.eq_of_not_slt hlt hgt
        have hends : s = [] ↔ t = [] := by tauto
        rw [ih t, hends, or_self]
        constructor
        · rintro (h | h)
          · exact ⟨hcd, h⟩
          · exact ⟨hcd, (hends.2 h).trans h.symm⟩
        · exact fun h => .inl h.2

theorem strCmp_eq_zero_iff_eq {s t : List U8} (h : s = [] ↔ t = []) :
    strCmp s t = 0 ↔ s = t := by
  rw [strCmp_eq_zero_iff]
  constructor
  · rintro (h' | h' | h')
    · exact h'
    · exact h'.trans (h.1 h').symm
    · exact (h.2 h').trans h'.symm
  · exact .inl

/-- The calls of the registry. -/
inductive RegistryCall where
  | addNewServer (serverIdStr : List U8) (serverProcess : ℕ) (criticalSection : U32)
  | connectToServer (serverIdStr : List U8) (clientProcess : ℕ)

/-- The name that a call asks for. -/
def RegistryCall.serverIdStr : RegistryCall → List U8
  | addNewServer serverIdStr _ _ => serverIdStr
  | connectToServer serverIdStr _ => serverIdStr

/-- The process that makes a call. -/
def RegistryCall.process : RegistryCall → ℕ
  | addNewServer _ serverProcess _ => serverProcess
  | connectToServer _ clientProcess => clientProcess

/-- The handler, and each name that `AddNewServer` has registered with the handle
that it gave. -/
structure IpcRegistry where
  h : IpcHandler
  given : List (List U8 × U32)

namespace IpcRegistry

/-- What a call leaves. -/
def after (w : IpcRegistry) : RegistryCall → IpcRegistry
  | .addNewServer serverIdStr serverProcess criticalSection =>
    let (_, handle, h) := w.h.addNewServer (some serverIdStr) serverProcess criticalSection
    ⟨h, w.given ++ (handle.map (serverIdStr, ·)).toList⟩
  | .connectToServer _ _ => w

/-- No two objects have the same name or the same handle, and no handle is
`INVALID_HANDLE_VALUE`. -/
structure Distinct (w : IpcRegistry) : Prop where
  ids : (w.h.ipcObjects.map IpcObject.id).Nodup
  handles : (w.h.ipcObjects.map IpcObject.handle).Nodup
  valid : ∀ o ∈ w.h.ipcObjects, o.handle ≠ 0

/-- The answer that a call should have: a name is refused when it is registered, and
only then, and a client gets the handle that was given to the server of that name. -/
def Answers (w : IpcRegistry) : RegistryCall → Prop
  | .addNewServer serverIdStr serverProcess criticalSection =>
    let (status, _, h) := w.h.addNewServer (some serverIdStr) serverProcess criticalSection
    (status = .ipcStatusIdStringAlreadyUsed ↔ ∃ handle, (serverIdStr, handle) ∈ w.given) ∧
      (status = .ipcStatusIdStringAlreadyUsed → h = w.h)
  | .connectToServer serverIdStr clientProcess =>
    let answer := w.h.connectToServer (some serverIdStr) clientProcess
    (∀ handle, (serverIdStr, handle) ∈ w.given → answer = (.statusSuccess, some handle)) ∧
      ((∀ handle, (serverIdStr, handle) ∉ w.given) → answer = (.ipcStatusServerNotFound, none))

/-- The registry is as it should be before and after every call of a sequence, and
every call has the answer that it should have. -/
def Correct : IpcRegistry → List RegistryCall → Prop
  | w, [] => w.Distinct
  | w, call :: calls => w.Distinct ∧ w.Answers call ∧ (w.after call).Correct calls

/-- The name that a call asks for is empty when the registered names are, and only
then. -/
def Comparable (w : IpcRegistry) (call : RegistryCall) : Prop :=
  ∀ o ∈ w.h.ipcObjects, o.id = [] ↔ call.serverIdStr = []

/-- This is so for every call of a sequence. -/
def AllComparable : IpcRegistry → List RegistryCall → Prop
  | _, [] => True
  | w, call :: calls => w.Comparable call ∧ (w.after call).AllComparable calls

variable {w : IpcRegistry} {id : List U8} {process : ℕ} {criticalSection : U32}
  {call : RegistryCall}

/-- The registry of a handler on which `AddNewServer` has been called: the handles
are counted from 1, and no name or every name is empty. -/
structure Inv (w : IpcRegistry) : Prop where
  given : w.given = w.h.ipcObjects.map fun o => (o.id, o.handle)
  count : w.h.ipcObjectHandleCount.toNat = w.h.ipcObjects.length
  handles : w.h.ipcObjects.map (·.handle.toNat) = List.range' 1 w.h.ipcObjects.length
  ids : (w.h.ipcObjects.map IpcObject.id).Nodup
  empty : ∀ o ∈ w.h.ipcObjects, ∀ o' ∈ w.h.ipcObjects, o.id = [] ↔ o'.id = []

theorem isServerIdStrAlreadyUsed_iff (h : IpcHandler) (id : List U8) :
    h.isServerIdStrAlreadyUsed id ↔ ∃ o ∈ h.ipcObjects, strCmp o.id id = 0 := by
  simp [IpcHandler.isServerIdStrAlreadyUsed, IpcHandler.findIpcObjectByServerId,
    List.findIdx?_isSome]

/-- `AddNewServer` for a process. -/
theorem addNewServer_eq (h : IpcHandler) (hp : process ≠ 0) :
    h.addNewServer (some id) process criticalSection =
      if h.isServerIdStrAlreadyUsed id then (.ipcStatusIdStringAlreadyUsed, none, h)
      else (.statusSuccess, some (h.ipcObjectHandleCount + 1), { h with
        ipcObjectHandleCount := h.ipcObjectHandleCount + 1
        ipcObjects := h.ipcObjects ++
          [IpcHandler.create id process (h.ipcObjectHandleCount + 1) criticalSection] }) := by
  simp only [IpcHandler.addNewServer, if_neg hp]

theorem Inv.mem_given_iff (hw : w.Inv) (id : List U8) :
    (∃ handle, (id, handle) ∈ w.given) ↔ ∃ o ∈ w.h.ipcObjects, o.id = id := by
  simp only [hw.given, List.mem_map, Prod.mk.injEq]
  constructor
  · rintro ⟨handle, o, ho, hid, -⟩
    exact ⟨o, ho, hid⟩
  · rintro ⟨o, ho, hid⟩
    exact ⟨o.handle, o, ho, hid, rfl⟩

theorem Inv.distinct (hw : w.Inv) : w.Distinct where
  ids := hw.ids
  handles := by
    have hnat : (w.h.ipcObjects.map (·.handle.toNat)).Nodup := by
      rw [hw.handles]
      exact List.nodup_range'
    have hmap : w.h.ipcObjects.map (·.handle.toNat) =
        (w.h.ipcObjects.map IpcObject.handle).map BitVec.toNat := by
      rw [List.map_map]
      rfl
    rw [hmap] at hnat
    exact hnat.of_map _
  valid := by
    intro o ho h0
    have hmem : o.handle.toNat ∈ w.h.ipcObjects.map (·.handle.toNat) :=
      List.mem_map_of_mem ho
    rw [hw.handles, List.mem_range'_1, h0] at hmem
    have hpos : 1 ≤ (0 : U32).toNat := hmem.1
    simp at hpos

theorem Inv.after (hw : w.Inv) (hp : call.process ≠ 0)
    (hcount : w.h.ipcObjects.length + 1 < 2 ^ 32) : (w.after call).Inv := by
  cases call with
  | connectToServer id process => exact hw
  | addNewServer id process criticalSection =>
    have hp' : process ≠ 0 := hp
    simp only [IpcRegistry.after]
    rw [addNewServer_eq w.h hp']
    by_cases hused : w.h.isServerIdStrAlreadyUsed id
    · rw [if_pos hused]
      simpa using hw
    · rw [if_neg hused]
      rw [isServerIdStrAlreadyUsed_iff] at hused
      have hne : ∀ o ∈ w.h.ipcObjects, o.id ≠ id ∧ o.id ≠ [] ∧ id ≠ [] := by
        intro o ho
        have h0 : ¬strCmp o.id id = 0 := fun h => hused ⟨o, ho, h⟩
        rw [strCmp_eq_zero_iff] at h0
        tauto
      have hcnt : (w.h.ipcObjectHandleCount + 1).toNat = 1 + w.h.ipcObjects.length := by
        rw [BitVec.toNat_add, hw.count]
        simp
        omega
      constructor
      · simp [hw.given, IpcHandler.create]
      · rw [List.length_append, List.length_singleton, Nat.add_comm]
        exact hcnt
      · rw [List.map_append, List.length_append, List.length_singleton, List.range'_concat,
          hw.handles, Nat.one_mul]
        exact congrArg _ (congrArg (fun n => [n]) hcnt)
      · have hids : ∀ o ∈ w.h.ipcObjects, o.id ≠ id := fun o ho => (hne o ho).1
        simp [List.nodup_append, hw.ids, IpcHandler.create]
        exact fun o ho => hids o ho
      · intro o ho o' ho'
        simp only [List.mem_append, List.mem_singleton] at ho ho'
        rcases ho with ho | rfl <;> rcases ho' with ho' | rfl
        · exact hw.empty o ho o' ho'
        · simp [IpcHandler.create, (hne o ho).2]
        · simp [IpcHandler.create, (hne o' ho').2]
        · rfl

theorem length_after_le (w : IpcRegistry) (call : RegistryCall) :
    (w.after call).h.ipcObjects.length ≤ w.h.ipcObjects.length + 1 := by
  cases call with
  | connectToServer id process => exact Nat.le_succ _
  | addNewServer id process criticalSection =>
    simp only [after, IpcHandler.addNewServer]
    split_ifs <;> simp

theorem Comparable.strCmp_iff (hc : w.Comparable call) {o : IpcObject}
    (ho : o ∈ w.h.ipcObjects) : strCmp o.id call.serverIdStr = 0 ↔ o.id = call.serverIdStr :=
  strCmp_eq_zero_iff_eq (hc o ho)

/-- Where the names cannot be compared, none of them is the one asked for, and
`StrCmp` takes one of them for it. -/
theorem Inv.not_comparable (hw : w.Inv) (hc : ¬w.Comparable call) :
    (∃ o ∈ w.h.ipcObjects, strCmp o.id call.serverIdStr = 0) ∧
      ∀ o ∈ w.h.ipcObjects, o.id ≠ call.serverIdStr := by
  simp only [Comparable, not_forall] at hc
  obtain ⟨o, ho, hmix⟩ := hc
  constructor
  · refine ⟨o, ho, ?_⟩
    rw [strCmp_eq_zero_iff]
    tauto
  · intro o' ho' heq
    have halike := hw.empty o ho o' ho'
    rw [heq] at halike
    tauto

theorem Inv.answers_addNewServer_iff (hw : w.Inv) (hp : process ≠ 0) :
    w.Answers (.addNewServer id process criticalSection) ↔
      w.Comparable (.addNewServer id process criticalSection) := by
  simp only [Answers]
  rw [addNewServer_eq w.h hp, hw.mem_given_iff]
  constructor
  · rintro ⟨hused, -⟩
    by_contra hc
    obtain ⟨hfound, hnone⟩ := hw.not_comparable hc
    rw [if_pos ((isServerIdStrAlreadyUsed_iff w.h id).2 hfound)] at hused
    obtain ⟨o, ho, heq⟩ := hused.1 rfl
    exact hnone o ho heq
  · intro hc
    have hiff : w.h.isServerIdStrAlreadyUsed id ↔ ∃ o ∈ w.h.ipcObjects, o.id = id := by
      rw [isServerIdStrAlreadyUsed_iff]
      exact exists_congr fun o => and_congr_right fun ho => hc.strCmp_iff ho
    rw [← hiff]
    split_ifs with hused <;> simp [hused]

theorem Inv.answers_connectToServer_iff (hw : w.Inv) (hp : process ≠ 0) :
    w.Answers (.connectToServer id process) ↔ w.Comparable (.connectToServer id process) := by
  have hgiven : ∀ handle, (id, handle) ∈ w.given ↔
      ∃ o ∈ w.h.ipcObjects, o.id = id ∧ o.handle = handle := by
    simp [hw.given]
  simp only [Answers, IpcHandler.connectToServer, if_neg hp, IpcHandler.findIpcObjectByServerId,
    hgiven]
  cases hfind : w.h.ipcObjects.findIdx? (strCmp ·.id id = 0) with
  | none =>
    have hnone : ∀ o ∈ w.h.ipcObjects, strCmp o.id id ≠ 0 := by
      simpa using hfind
    have hfree : ∀ o ∈ w.h.ipcObjects, o.id ≠ id := fun o ho heq =>
      hnone o ho ((strCmp_eq_zero_iff _ _).2 (.inl heq))
    constructor
    · intro _
      by_contra hc
      obtain ⟨⟨o, ho, h0⟩, -⟩ := hw.not_comparable hc
      exact hnone o ho h0
    · intro _
      refine ⟨?_, fun _ => rfl⟩
      rintro handle ⟨o, ho, heq, -⟩
      exact absurd heq (hfree o ho)
  | some i =>
    obtain ⟨hi, h0, -⟩ := List.findIdx?_eq_some_iff_getElem.1 hfind
    have hmem : w.h.ipcObjects[i] ∈ w.h.ipcObjects := List.getElem_mem hi
    simp only [List.getElem?_eq_getElem hi, Option.map_some]
    constructor
    · rintro ⟨-, hnone⟩
      by_contra hc
      obtain ⟨-, hfree⟩ := hw.not_comparable hc
      have hanswer := hnone fun handle ⟨o, ho, heq, _⟩ => hfree o ho heq
      simp at hanswer
    · intro hc
      have hzero : strCmp w.h.ipcObjects[i].id id = 0 := of_decide_eq_true h0
      have heq : w.h.ipcObjects[i].id = id := (hc.strCmp_iff hmem).1 hzero
      constructor
      · rintro handle ⟨o, ho, hid, rfl⟩
        have hsame : o = w.h.ipcObjects[i] :=
          List.inj_on_of_nodup_map hw.ids ho hmem (hid.trans heq.symm)
        rw [hsame]
      · intro hnone
        exact absurd ⟨_, hmem, heq, rfl⟩ (hnone w.h.ipcObjects[i].handle)

theorem Inv.answers_iff (hw : w.Inv) (hp : call.process ≠ 0) :
    w.Answers call ↔ w.Comparable call := by
  cases call with
  | addNewServer id process criticalSection => exact hw.answers_addNewServer_iff hp
  | connectToServer id process => exact hw.answers_connectToServer_iff hp

theorem Inv.correct_iff (hw : w.Inv) {calls : List RegistryCall}
    (hlen : w.h.ipcObjects.length + calls.length < 2 ^ 32)
    (hp : ∀ call ∈ calls, call.process ≠ 0) : w.Correct calls ↔ w.AllComparable calls := by
  induction calls generalizing w with
  | nil => simp [Correct, AllComparable, hw.distinct]
  | cons call calls ih =>
    rw [List.length_cons] at hlen
    have hpc : call.process ≠ 0 := hp call List.mem_cons_self
    have hafter : (w.after call).Inv := hw.after hpc (by omega)
    have hle := w.length_after_le call
    rw [Correct, AllComparable, hw.answers_iff hpc,
      ih hafter (by omega) fun c hc => hp c (List.mem_cons_of_mem _ hc)]
    simp [hw.distinct]

/-- The registry at boot. -/
def init (mem : IpcMem) (nullSection : U32) : IpcRegistry := ⟨.init mem nullSection, []⟩

theorem init_inv (mem : IpcMem) (nullSection : U32) : (init mem nullSection).Inv := by
  constructor <;> simp [init, IpcHandler.init]

/-- Sequences of calls, and when the registry is as it should be in them: exactly
when no call compares an empty name with one that is not empty. -/
theorem registry_correct_iff (mem : IpcMem) (nullSection : U32) (calls : List RegistryCall)
    (hlen : calls.length < 2 ^ 32) (hp : ∀ call ∈ calls, call.process ≠ 0) :
    (init mem nullSection).Correct calls ↔ (init mem nullSection).AllComparable calls :=
  (init_inv mem nullSection).correct_iff (by simpa [init, IpcHandler.init] using hlen) hp

/-- Two servers, one with the start of the other's name, and a client of each. -/
theorem two_servers_correct : (init (bootIpc .bss).mem 0).Correct
    [.addNewServer [102, 115] 1 0, .addNewServer [102] 2 0, .connectToServer [102] 3,
      .connectToServer [102, 115] 3] := by
  refine (registry_correct_iff (bootIpc .bss).mem 0 _ (by decide) (by decide)).2 ?_
  simp [AllComparable, Comparable, after, IpcHandler.addNewServer, init, IpcHandler.init,
    RegistryCall.serverIdStr, IpcHandler.create, isServerIdStrAlreadyUsed_iff, strCmp]

/-- A client that asks for the empty name gets the handle of the server `fs`. -/
theorem empty_name_not_correct : ¬ (init (bootIpc .bss).mem 0).Correct
    [.addNewServer [102, 115] 1 0, .connectToServer [] 2] := by
  rintro ⟨-, -, -, hanswers, -⟩
  have hnone : ∀ handle, (([], handle) : List U8 × U32) ∉
      ((init (bootIpc .bss).mem 0).after (.addNewServer [102, 115] 1 0)).given := by
    intro handle
    simp [after, init, IpcHandler.init, IpcHandler.addNewServer]
  cases hanswers.2 hnone

end IpcRegistry

end LtMicros
