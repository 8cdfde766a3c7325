import LtMicros.FsService

/-!
# Connecting twice

What a connect request does for a process that is registered already: the entry of
the list is freed as if it were one of the request's own.
-/

namespace LtMicros

namespace FsService

/-- An entry of the list, in a block that has not been freed, for a handle. -/
structure Registered (s : FsService) (p : ℕ) (processHandle : U32) : Prop where
  listed : p ∈ s.processes
  allocated : s.block p = .processEntry
  handle : (s.entry p).processHandle = processHandle

/-- A connect request succeeds and leaves the registry as it was. -/
structure ConnectKeeps (s : FsService) (processHandle : U32) (parameters : Option (List U8))
    (calls : ConnectCalls) : Prop where
  status : (s.requestConnect processHandle parameters calls).1 = .statusSuccess
  processes : (s.requestConnect processHandle parameters calls).2.processes = s.processes
  entries : ∀ p ∈ s.processes,
    (s.requestConnect processHandle parameters calls).2.entry p = s.entry p
  allocated : ∀ p ∈ s.processes,
    (s.requestConnect processHandle parameters calls).2.block p = s.block p
  found : ∀ p handle, s.Registered p handle →
    (s.requestConnect processHandle parameters calls).2.lookForProcessFromHandle handle =
      (.statusSuccess, some p)

variable {s : FsService} {processHandle : U32} {calls : ConnectCalls}

/-- A registered handle is found, perhaps through another entry. -/
theorem Registered.find {p : ℕ} (h : s.Registered p processHandle) (h0 : processHandle ≠ 0) :
    ∃ q ∈ s.processes, s.lookForProcessFromHandle processHandle = (.statusSuccess, some q) := by
  have hsome : (s.processes.find? fun q => (s.entry q).processHandle = processHandle).isSome :=
    List.find?_isSome.2 ⟨p, h.listed, by simpa using h.handle⟩
  obtain ⟨q, hq⟩ := Option.isSome_iff_exists.1 hsome
  refine ⟨q, List.mem_of_find?_eq_some hq, ?_⟩
  rw [lookForProcessFromHandle_eq s h0, hq]

/-- A request for a handle that is found frees the entry that was found. -/
theorem requestConnect_found {q : ℕ} {ipcServerId : List U8}
    (hq : s.lookForProcessFromHandle processHandle = (.statusSuccess, some q)) :
    s.requestConnect processHandle (some ipcServerId) calls = (.statusSuccess, s.heapFree q) := by
  simp [requestConnect, hq, Status.failed, connectClean]

theorem heapFree_block_self (s : FsService) (q : ℕ) : (s.heapFree q).block q = .free := by
  unfold heapFree
  split_ifs with hfree
  · exact hfree
  · simp

/-- No connect request for a registered handle leaves the registry as it was. -/
theorem connect_not_kept {p : ℕ} (h : s.Registered p processHandle)
    (parameters : Option (List U8)) (calls : ConnectCalls) :
    ¬s.ConnectKeeps processHandle parameters calls := by
  rintro ⟨hstatus, -, -, hallocated, hfound⟩
  rcases parameters with _ | ipcServerId
  · simp [requestConnect] at hstatus
  by_cases h0 : processHandle = 0
  · simp [requestConnect, lookForProcessFromHandle, h0, Status.failed] at hstatus
  obtain ⟨q, hmem, hq⟩ := h.find h0
  rw [requestConnect_found hq] at hallocated hfound
  have hfree : s.block q = .free := (hallocated q hmem).symm.trans (s.heapFree_block_self q)
  -- the entry that was found had been freed before, and nothing is changed
  have hsame : s.heapFree q = s := if_pos hfree
  have hagain : s.lookForProcessFromHandle processHandle = (.statusSuccess, some p) := by
    simpa only [hsame] using hfound p processHandle h
  have hqp : q = p := by
    rw [hq] at hagain
    simpa using hagain
  rw [hqp, h.allocated] at hfree
  cases hfree

/-- The service after `ServiceCommandInit`. -/
def init : FsService where
  processes := []
  fileEntries := []
  currentFileHandle := 0
  block := fun _ => .free
  entry := fun _ => .zero

/-- A process with the handle 7 connects, from the start. -/
def connected : FsService :=
  (init.requestConnect 7 (some [97]) ⟨0x40001004, .statusSuccess, some 3⟩).2

theorem connected_registered : connected.Registered 0x40001004 7 := by
  constructor <;> decide

/-- It connects once more. -/
theorem connected_not_kept :
    ¬connected.ConnectKeeps 7 (some [97]) ⟨0x40001018, .statusSuccess, some 3⟩ :=
  connect_not_kept connected_registered _ _

/-- After the second request its handle is not found. -/
theorem connected_twice_not_found : ¬∀ p processHandle parameters calls,
    connected.Registered p processHandle →
      connected.ConnectKeeps processHandle parameters calls := by
  intro h
  have hkept := h 0x40001004 7 (some [97]) ⟨0x40001018, .statusSuccess, some 3⟩
    connected_registered
  have hfound := hkept.found 0x40001004 7 connected_registered
  exact absurd hfound (by decide)

end FsService

end LtMicros
