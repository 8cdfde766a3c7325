import LtMicros.FsShare
import LtMicros.FsConnect

/-!
# Entries of open files

Sequences of requests to the service. An open request that is granted enters the file before its
answer is sent. No list is ever made for the files of a process, so that the service's own list
is the only one that grows.
-/

namespace LtMicros

/-- A request of a process, with what is answered to the service meanwhile. -/
inductive FsRequest where
  | terminate
  | connect (ipcServerId : List U8) (calls : ConnectCalls)
  | openFile (parameters : LtFsOpenFileParameters) (calls : OpenFileCalls)
  | other

/-- An open request of a process. -/
def FsRequest.asOpen (processHandle : U32) : FsRequest → Option OpenRequest
  | .openFile parameters calls => some ⟨processHandle, some parameters, calls⟩
  | _ => none

namespace FsService

/-- What `ServiceExecuteCommand` does with a request that it has read from a message: the status,
`*serviceTerminate`, and the service. -/
def execute (s : FsService) (processHandle : U32) : FsRequest → Status × Bool × FsService
  | .terminate => (.statusSuccess, true, s)
  | .connect ipcServerId calls =>
    let (status, s) := s.requestConnect processHandle (some ipcServerId) calls
    (status, false, s)
  | .openFile parameters calls =>
    let (status, _, s) := s.requestOpenFile processHandle (some parameters) calls
    (status, false, s)
  | .other => (.statusUnexpected, false, s)

/-- The service after a request. -/
def after (s : FsService) (request : U32 × FsRequest) : FsService :=
  (s.execute request.1 request.2).2.2

/-- Something holds of every open request of a sequence, in the state that it is executed in. -/
def EveryOpen (P : FsService → OpenRequest → Prop) : FsService → List (U32 × FsRequest) → Prop
  | _, [] => True
  | s, request :: requests =>
    (∀ r ∈ request.2.asOpen request.1, P s r) ∧ EveryOpen P (s.after request) requests

theorem everyOpen_congr {P Q : FsService → OpenRequest → Prop} (h : ∀ s r, P s r ↔ Q s r)
    (s : FsService) (requests : List (U32 × FsRequest)) :
    EveryOpen P s requests ↔ EveryOpen Q s requests := by
  induction requests generalizing s with
  | nil => rfl
  | cons request requests ih => simp only [EveryOpen, h, ih]

/-! ## Requests that fail -/

/-- An open request that fails leaves the lists of open files as they were. -/
def FailedOpenKeeps (s : FsService) (r : OpenRequest) : Prop :=
  (s.requestOpenFile r.processHandle r.parameters r.calls).1.failed →
    (s.opened r).fileEntries = s.fileEntries ∧
      ∀ p, ((s.opened r).entry p).fileEntries = (s.entry p).fileEntries

/-- When a request is granted, its process gets the answer. -/
def GrantDelivered (s : FsService) (r : OpenRequest) : Prop :=
  ∀ fileEntry process, s.granted r = some (fileEntry, process) →
    (s.send process r.calls).failed = false

variable {s : FsService} {r : OpenRequest}

theorem failedOpenKeeps_iff (s : FsService) (r : OpenRequest) :
    s.FailedOpenKeeps r ↔ s.GrantDelivered r := by
  rw [FailedOpenKeeps, GrantDelivered, opened_eq]
  rcases hgranted : s.granted r with _ | ⟨fileEntry, process⟩
  · simp
  · rw [requestOpenFile_granted hgranted]
    simp [enter]

/-- In a sequence of requests, the open requests that fail leave nothing behind exactly when each
one that is granted is also answered. -/
theorem failedOpensKeep_iff (s : FsService) (requests : List (U32 × FsRequest)) :
    EveryOpen FailedOpenKeeps s requests ↔ EveryOpen GrantDelivered s requests :=
  everyOpen_congr failedOpenKeeps_iff s requests

/-- A process connects, and opens a file. Its answer cannot be sent. -/
def openUnanswered : List (U32 × FsRequest) :=
  [(7, .connect [97] ⟨0x40001004, .statusSuccess, some 3⟩),
    (7, .openFile ⟨[97], fileRead, 0⟩ ⟨fun _ => (.statusSuccess, some 0x40002004), .statusFailure⟩)]

/-- Its file stays entered. -/
theorem openUnanswered_not_kept : ¬EveryOpen FailedOpenKeeps init openUnanswered := by
  rintro ⟨-, hkept, -⟩
  have hsame := (hkept _ rfl rfl).1
  exact absurd hsame (by decide)

/-! ## Files of the processes -/

/-- The files of a process. -/
def files (s : FsService) (p : ℕ) : List FileEntry := (s.entry p).fileEntries.getD []

/-- The open files of the service are those of its processes, each with one process, which is the
one that has opened it. -/
structure FilesAgree (s : FsService) (openedBy : List (FileEntry × ℕ)) : Prop where
  owned : ∀ e ∈ s.fileEntries, ∃ p ∈ s.processes, (e, p) ∈ openedBy ∧
    ∀ q ∈ s.processes, e ∈ s.files q ↔ q = p
  listed : ∀ p ∈ s.processes, ∀ e ∈ s.files p, e ∈ s.fileEntries
  handles : (s.fileEntries.map FileEntry.handle).Nodup

/-- The entry that a request makes, and for which process. -/
def opens (s : FsService) (request : U32 × FsRequest) : Option (FileEntry × ℕ) :=
  (request.2.asOpen request.1).bind s.granted

/-- This is so at every moment of a sequence of requests. -/
def AlwaysAgree : FsService → List (FileEntry × ℕ) → List (U32 × FsRequest) → Prop
  | s, openedBy, [] => s.FilesAgree openedBy
  | s, openedBy, request :: requests => s.FilesAgree openedBy ∧
    AlwaysAgree (s.after request) (openedBy ++ (s.opens request).toList) requests

/-- A request is not granted. -/
def NotGranted (s : FsService) (r : OpenRequest) : Prop := s.granted r = none

instance (s : FsService) (r : OpenRequest) : Decidable (s.NotGranted r) :=
  inferInstanceAs (Decidable (s.granted r = none))

/-- No file is open, and no process has a list for files. -/
structure NoFiles (s : FsService) : Prop where
  fileEntries : s.fileEntries = []
  entry : ∀ p, (s.entry p).fileEntries = none

theorem NoFiles.init : NoFiles init := ⟨rfl, fun _ => rfl⟩

theorem NoFiles.agree (h : s.NoFiles) (openedBy : List (FileEntry × ℕ)) : s.FilesAgree openedBy := by
  constructor <;> simp [h.fileEntries, files, h.entry]

theorem NoFiles.heapFree (h : s.NoFiles) (p : ℕ) : (s.heapFree p).NoFiles := by
  unfold FsService.heapFree
  split_ifs with hfree
  · exact h
  · refine ⟨h.fileEntries, fun q => ?_⟩
    by_cases hq : q = p <;> simp [hq, h.entry, ProcessEntry.zero]

/-- A connect request makes no list for the files of a process. -/
theorem NoFiles.requestConnect (h : s.NoFiles) (processHandle : U32) (parameters : Option (List U8))
    (calls : ConnectCalls) : (s.requestConnect processHandle parameters calls).2.NoFiles := by
  rcases parameters with _ | ipcServerId
  · exact h
  by_cases h0 : processHandle = 0
  · simpa [FsService.requestConnect, lookForProcessFromHandle, h0, Status.failed, connectClean] using h
  rw [FsService.requestConnect, lookForProcessFromHandle_eq s h0]
  rcases s.processes.find? _ with _ | process
  · have hok : Status.statusSuccess.failed = false := rfl
    rcases calls with ⟨block, status, handle⟩
    simp only [createProcessEntry, if_neg h0, hok, Option.isSome_none, Bool.false_eq_true, if_false]
    split_ifs
    · apply NoFiles.heapFree
      refine ⟨h.fileEntries, fun q => ?_⟩
      by_cases hq : q = block <;> simp [hq, h.entry, ProcessEntry.zero]
    · refine ⟨h.fileEntries, fun q => ?_⟩
      by_cases hq : q = block <;> simp [hq, h.entry, ProcessEntry.zero]
  · exact h.heapFree process

/-- A granted request adds to a list of the service only. -/
theorem NoFiles.not_agree_enter (h : s.NoFiles) (p : ℕ) (e : FileEntry)
    (openedBy : List (FileEntry × ℕ)) : ¬(s.enter p e).FilesAgree openedBy := by
  intro hagree
  obtain ⟨q, hq, -, hfiles⟩ := hagree.owned e (by simp [enter])
  have hmem : e ∈ (s.enter p e).files q := (hfiles q hq).mpr rfl
  have hnone : ((s.enter p e).entry q).fileEntries = none := by
    by_cases hqp : q = p <;> simp [enter, hqp, h.entry, listPush]
  simp [files, hnone] at hmem

theorem NoFiles.after (h : s.NoFiles) (request : U32 × FsRequest) (hnone : s.opens request = none) :
    (s.after request).NoFiles := by
  rcases request with ⟨processHandle, _ | ⟨ipcServerId, calls⟩ | ⟨parameters, calls⟩ | _⟩
  · exact h
  · exact h.requestConnect processHandle (some ipcServerId) calls
  · show (s.opened ⟨processHandle, some parameters, calls⟩).NoFiles
    rw [opened_eq, show s.granted _ = none from hnone]
    exact h
  · exact h

/-- What a granted request leaves. -/
theorem after_of_opens {request : U32 × FsRequest} {fileEntry : FileEntry} {process : ℕ}
    (hsome : s.opens request = some (fileEntry, process)) :
    s.after request = s.enter process fileEntry := by
  rcases request with ⟨processHandle, _ | ⟨ipcServerId, calls⟩ | ⟨parameters, calls⟩ | _⟩
  · cases hsome
  · cases hsome
  · show s.opened ⟨processHandle, some parameters, calls⟩ = _
    rw [opened_eq, show s.granted _ = some (fileEntry, process) from hsome]
  · cases hsome

theorem AlwaysAgree.agree {openedBy : List (FileEntry × ℕ)} {requests : List (U32 × FsRequest)}
    (h : s.AlwaysAgree openedBy requests) : s.FilesAgree openedBy := by
  cases requests with
  | nil => exact h
  | cons request requests => exact h.1

theorem NoFiles.alwaysAgree_iff (h : s.NoFiles) (openedBy : List (FileEntry × ℕ))
    (requests : List (U32 × FsRequest)) :
    s.AlwaysAgree openedBy requests ↔ EveryOpen NotGranted s requests := by
  induction requests generalizing s openedBy with
  | nil => exact iff_of_true (h.agree openedBy) trivial
  | cons request requests ih =>
    have hnot : (∀ r ∈ request.2.asOpen request.1, s.NotGranted r) ↔ s.opens request = none := by
      simp [opens, NotGranted, Option.bind_eq_none_iff]
    rw [AlwaysAgree, EveryOpen, hnot]
    rcases hopens : s.opens request with _ | ⟨fileEntry, process⟩
    · simp [h.agree, ih (h.after request hopens)]
    · -- the entry is in no list of a process
      have hdisagree := h.not_agree_enter process fileEntry
      rw [← after_of_opens hopens] at hdisagree
      simp only [reduceCtorEq, false_and, iff_false]
      exact fun hagree => hdisagree _ hagree.2.agree

/-- From the start of the service on, the open files are those of the processes exactly as long as
no request has been granted. -/
theorem filesAgree_iff (requests : List (U32 × FsRequest)) :
    init.AlwaysAgree [] requests ↔ EveryOpen NotGranted init requests :=
  NoFiles.init.alwaysAgree_iff [] requests

/-- A process connects, and opens a file. -/
def openAnswered : List (U32 × FsRequest) :=
  [(7, .connect [97] ⟨0x40001004, .statusSuccess, some 3⟩),
    (7, .openFile ⟨[97], fileRead, 0⟩ ⟨fun _ => (.statusSuccess, some 0x40002004), .statusSuccess⟩)]

/-- Its file is not among those of the process. -/
theorem openAnswered_not_agree : ¬∀ requests, init.AlwaysAgree [] requests := by
  intro h
  have hnot := (NoFiles.init.alwaysAgree_iff [] openAnswered).mp (h openAnswered)
  exact absurd (hnot.2.1 _ rfl) (by decide)

end FsService

end LtMicros
