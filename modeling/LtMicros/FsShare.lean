import LtMicros.FsService

/-!
# Share modes

Sequences of open requests, and which of them are granted. A request is compared
with the first entry for its file only.
-/

namespace LtMicros

/-- A message that asks for a file, and what is answered to the service meanwhile. -/
structure OpenRequest where
  processHandle : U32
  parameters : Option LtFsOpenFileParameters
  calls : OpenFileCalls

/-!
### A list whose first member decides

A member is let in when the first one agrees to share, and each of them should have
agreed.
-/

section Admission

variable {α : Type*} (shares : α → Bool)

/-- The first member of a list, if any, shares. -/
def HeadShares (members : List α) : Prop := ∀ x ∈ members.head?, shares x

instance (members : List α) : Decidable (HeadShares shares members) :=
  inferInstanceAs (Decidable (∀ x ∈ members.head?, shares x = true))

/-- A member asks to be let in. -/
def admitted (members : List α) (x : α) : List α :=
  if HeadShares shares members then members ++ [x] else members

/-- Whenever one that asks is let in, all members share. -/
def AdmitsRightly : List α → List α → Prop
  | _, [] => True
  | members, x :: asked =>
    (HeadShares shares members → ∀ y ∈ members, shares y) ∧
      AdmitsRightly (admitted shares members x) asked

/-- Where the first that asks shares, so do the others but the last. -/
def FirstDecides (asked : List α) : Prop :=
  (∃ x ∈ asked.head?, shares x) → ∀ x ∈ asked.dropLast, shares x

instance (asked : List α) : Decidable (FirstDecides shares asked) :=
  inferInstanceAs (Decidable ((∃ x ∈ asked.head?, shares x = true) →
    ∀ x ∈ asked.dropLast, shares x = true))

variable {shares} {members asked : List α}

theorem admitsRightly_of_not_head (h : ¬HeadShares shares members) :
    AdmitsRightly shares members asked := by
  induction asked with
  | nil => trivial
  | cons x asked ih =>
    have hsame : admitted shares members x = members := if_neg h
    exact ⟨fun hhead => absurd hhead h, by rw [hsame]; exact ih⟩

theorem admitsRightly_iff_of_head (hne : members ≠ []) (h : HeadShares shares members) :
    AdmitsRightly shares members asked ↔
      (asked ≠ [] → ∀ y ∈ members ++ asked.dropLast, shares y) := by
  induction asked generalizing members with
  | nil => simp [AdmitsRightly]
  | cons x asked ih =>
    have hmore : admitted shares members x = members ++ [x] := if_pos h
    have hhead : HeadShares shares (members ++ [x]) := by
      obtain ⟨y, rest, rfl⟩ := List.exists_cons_of_ne_nil hne
      exact h
    rw [AdmitsRightly, hmore, ih (by simp) hhead]
    cases asked with
    | nil => simp [h]
    | cons z asked =>
      simp only [List.dropLast_cons_cons, List.append_assoc, List.singleton_append, ne_eq,
        reduceCtorEq, not_false_eq_true, forall_true_left]
      exact ⟨fun hall => hall.2,
        fun hall => ⟨fun _ y hy => hall y (List.mem_append_left _ hy), hall⟩⟩

/-- From the empty list on, no member is let in wrongly exactly when the first that
asks does not share, or only the last does not. -/
theorem admitsRightly_iff : AdmitsRightly shares [] asked ↔ FirstDecides shares asked := by
  cases asked with
  | nil => simp [AdmitsRightly, FirstDecides]
  | cons x asked =>
    have hone : admitted shares [] x = [x] := if_pos (by simp [HeadShares])
    rw [AdmitsRightly, hone]
    by_cases hx : shares x
    · rw [admitsRightly_iff_of_head (by simp) (by simpa [HeadShares] using hx)]
      cases asked with
      | nil => simp [FirstDecides]
      | cons z asked => simp [FirstDecides, hx]
    · have hnot : ¬HeadShares shares [x] := by simpa [HeadShares] using hx
      simp [admitsRightly_of_not_head hnot, FirstDecides, hx]

end Admission

namespace FsService

/-- The service after a request. -/
def opened (s : FsService) (r : OpenRequest) : FsService :=
  (s.requestOpenFile r.processHandle r.parameters r.calls).2.2

/-- The file and the share mode of a request from a connected process for a file that
is on the disk, with values of its enumerations. -/
def asks (s : FsService) (r : OpenRequest) : Option (ℕ × U32) :=
  match (s.lookForProcessFromHandle r.processHandle).2, r.parameters with
  | some _, some parameters =>
    let (status, file) := r.calls.openFileFromName parameters.filePath
    if status.failed then none
    else file.bind fun file =>
      if parameters.access < fileAccessMax ∧ parameters.shareMode < fileShareMax then
        some (file, parameters.shareMode)
      else none
  | _, _ => none

/-- `FILE_SHARE_READ` is in a share mode. -/
def sharesRead (shareMode : U32) : Bool := flagOn fileShareRead shareMode

/-- A request is granted only if every entry for the file that is there already
shares reading. -/
def SharesKept (s : FsService) (r : OpenRequest) : Prop :=
  ∀ e, (s.opened r).fileEntries = s.fileEntries ++ [e] →
    ∀ e' ∈ s.fileEntries, e'.file = e.file → sharesRead e'.shareMode

/-- This is so for every request of a sequence. -/
def AllSharesKept : FsService → List OpenRequest → Prop
  | _, [] => True
  | s, r :: requests => s.SharesKept r ∧ (s.opened r).AllSharesKept requests

/-- The share modes of the requests for a file, in their order. -/
def modesAsked (s : FsService) (requests : List OpenRequest) (file : ℕ) : List U32 :=
  (requests.filterMap s.asks).filterMap fun (f, mode) => if f = file then some mode else none

/-- The share modes of the entries for a file. -/
def modes (s : FsService) (file : ℕ) : List U32 :=
  (s.fileEntries.filter (·.file = file)).map FileEntry.shareMode

variable {s : FsService} {r : OpenRequest}

theorem headShares_modes_iff (s : FsService) (file : ℕ) :
    HeadShares sharesRead (s.modes file) ↔
      ∀ e ∈ s.fileEntries.find? (·.file = file), sharesRead e.shareMode := by
  simp [HeadShares, modes, List.head?_map, List.head?_filter]

/-- The entry that a request makes when it is granted, and the process it is for. -/
def granted (s : FsService) (r : OpenRequest) : Option (FileEntry × ℕ) :=
  match (s.lookForProcessFromHandle r.processHandle).2, s.asks r with
  | some process, some (file, mode) =>
    if HeadShares sharesRead (s.modes file) then
      some (⟨s.currentFileHandle + 1, 0, file, mode⟩, process)
    else none
  | _, _ => none

/-- An entry is pushed to both lists. -/
def enter (s : FsService) (process : ℕ) (fileEntry : FileEntry) : FsService :=
  { s with
    fileEntries := s.fileEntries ++ [fileEntry]
    currentFileHandle := fileEntry.handle
    entry := fun p =>
      if p = process then
        { s.entry process with fileEntries := listPush (s.entry process).fileEntries fileEntry }
      else s.entry p }

/-- A request is not granted and changes nothing, or it is granted, entered and answered. -/
theorem requestOpenFile_cases (s : FsService) (r : OpenRequest) :
    (s.granted r = none ∧ s.opened r = s) ∨ ∃ fileEntry process,
      s.granted r = some (fileEntry, process) ∧
      s.requestOpenFile r.processHandle r.parameters r.calls =
        (s.send process r.calls, some ⟨.statusSuccess, some fileEntry.handle⟩,
          s.enter process fileEntry) := by
  rcases r with ⟨processHandle, _ | parameters, openFileFromName, answer⟩
  · exact .inl ⟨by simp [granted, asks], by simp [opened, requestOpenFile]⟩
  by_cases h0 : processHandle = 0
  · left
    simp [granted, opened, requestOpenFile, lookForProcessFromHandle, h0, Status.failed]
  obtain ⟨process, hprocess⟩ : ∃ process, s.lookForProcessFromHandle processHandle =
      (.statusSuccess, process) := ⟨_, s.lookForProcessFromHandle_eq h0⟩
  rcases process with _ | process
  · left
    simp [granted, opened, requestOpenFile, hprocess, Status.failed]
  rcases hopen : openFileFromName parameters.filePath with ⟨status, file⟩
  by_cases hstatus : status = .statusSuccess
  swap
  · left
    simp [granted, opened, requestOpenFile, asks, hprocess, hopen, Status.failed, hstatus]
  subst hstatus
  have hok : Status.statusSuccess.failed = false := rfl
  rcases file with _ | file
  · left
    simp [granted, opened, requestOpenFile, asks, hprocess, hopen, Status.failed,
      lookForFileEntryFromFilePtr]
  simp only [granted, opened, requestOpenFile, asks, hprocess, hopen, lookForFileEntryFromFilePtr_eq,
    newFileEntry, hok, Bool.false_eq_true, if_false, Option.bind_some]
  by_cases haccess : fileAccessMax ≤ parameters.access
  · left
    have hrefused : ¬(parameters.access < fileAccessMax ∧ parameters.shareMode < fileShareMax) :=
      fun h => BitVec.not_lt.2 haccess h.1
    simp only [if_pos haccess, if_neg hrefused]
    split_ifs <;> exact ⟨trivial, rfl⟩
  by_cases hmode : fileShareMax ≤ parameters.shareMode
  · left
    have hrefused : ¬(parameters.access < fileAccessMax ∧ parameters.shareMode < fileShareMax) :=
      fun h => BitVec.not_lt.2 hmode h.2
    simp only [if_neg haccess, if_pos hmode, if_neg hrefused]
    split_ifs <;> exact ⟨trivial, rfl⟩
  have hread : parameters.access = fileRead := by
    simp only [fileAccessMax, fileRead] at haccess ⊢
    bv_omega
  have haccessible : ∀ e, isFileAccessible e parameters.access = sharesRead e.shareMode := by
    intro e
    rw [hread]
    rfl
  have hvalid : parameters.access < fileAccessMax ∧ parameters.shareMode < fileShareMax :=
    ⟨BitVec.not_le.1 haccess, BitVec.not_le.1 hmode⟩
  simp only [if_neg haccess, if_neg hmode, if_pos hvalid, haccessible]
  have hhead := headShares_modes_iff s file
  rcases hfound : s.fileEntries.find? (·.file = file) with _ | e
  · right
    rw [if_pos (hhead.mpr (by simp [hfound]))]
    exact ⟨_, _, rfl, by simp [hfound, send, enter]⟩
  · cases hshares : sharesRead e.shareMode with
    | true =>
      right
      rw [if_pos (hhead.mpr (by simp [hfound, hshares]))]
      exact ⟨_, _, rfl, by simp [hfound, hshares, send, enter]⟩
    | false =>
      left
      rw [if_neg (fun h => by simpa [hfound, hshares] using hhead.mp h)]
      simp [hfound, hshares]

theorem requestOpenFile_granted {fileEntry : FileEntry} {process : ℕ}
    (h : s.granted r = some (fileEntry, process)) :
    s.requestOpenFile r.processHandle r.parameters r.calls =
      (s.send process r.calls, some ⟨.statusSuccess, some fileEntry.handle⟩,
        s.enter process fileEntry) := by
  rcases requestOpenFile_cases s r with ⟨hnone, -⟩ | ⟨_, _, hsome, heq⟩
  · rw [hnone] at h
    cases h
  · rw [hsome] at h
    cases h
    exact heq

/-- What a request does to the service. -/
theorem opened_eq (s : FsService) (r : OpenRequest) :
    s.opened r = match s.granted r with
      | none => s
      | some (fileEntry, process) => s.enter process fileEntry := by
  rcases requestOpenFile_cases s r with ⟨hnone, heq⟩ | ⟨_, _, hsome, heq⟩
  · rw [hnone, heq]
  · rw [hsome, opened, heq]

/-- What a request does to the entries. -/
theorem opened_fileEntries (s : FsService) (r : OpenRequest) :
    (s.opened r).fileEntries = match s.asks r with
      | none => s.fileEntries
      | some (file, mode) =>
        if HeadShares sharesRead (s.modes file) then
          s.fileEntries ++ [⟨s.currentFileHandle + 1, 0, file, mode⟩]
        else s.fileEntries := by
  rw [opened_eq, granted]
  rcases hprocess : (s.lookForProcessFromHandle r.processHandle).2 with _ | process
  · simp [asks, hprocess]
  · rcases s.asks r with _ | ⟨file, mode⟩
    · rfl
    · dsimp only
      split_ifs <;> rfl

/-- The processes that are found stay the same. -/
theorem opened_lookForProcessFromHandle (s : FsService) (r : OpenRequest) :
    (s.opened r).lookForProcessFromHandle = s.lookForProcessFromHandle := by
  have hsame : (s.opened r).processes = s.processes ∧
      ∀ p, ((s.opened r).entry p).processHandle = (s.entry p).processHandle := by
    rw [opened_eq]
    rcases s.granted r with _ | ⟨fileEntry, process⟩
    · exact ⟨rfl, fun _ => rfl⟩
    · refine ⟨rfl, fun p => ?_⟩
      by_cases hp : p = process <;> simp [enter, hp]
  funext processHandle
  by_cases h0 : processHandle = 0
  · simp [lookForProcessFromHandle, h0]
  · simp only [lookForProcessFromHandle_eq _ h0, hsame.1, hsame.2]

theorem opened_asks (s : FsService) (r : OpenRequest) : (s.opened r).asks = s.asks := by
  funext r'
  simp only [asks, opened_lookForProcessFromHandle]

/-- A request admits its share mode to those of its file, and to no others. -/
theorem modes_opened (s : FsService) (r : OpenRequest) (file : ℕ) :
    (s.opened r).modes file = match s.asks r with
      | none => s.modes file
      | some (f, mode) => if f = file then admitted sharesRead (s.modes file) mode else s.modes file := by
  have hentries := opened_fileEntries s r
  rcases hasks : s.asks r with _ | ⟨f, mode⟩
  · simp only [hasks] at hentries
    simp only [modes, hentries]
  · simp only [hasks] at hentries
    by_cases hhead : HeadShares sharesRead (s.modes f)
    · rw [if_pos hhead] at hentries
      by_cases hf : f = file
      · subst hf
        simp only [if_true, admitted, if_pos hhead]
        simp [modes, hentries]
      · simp [modes, hentries, hf]
    · rw [if_neg hhead] at hentries
      by_cases hf : f = file
      · subst hf
        simp only [if_true, admitted, if_neg hhead]
        simp [modes, hentries]
      · simp [modes, hentries, hf]

/-- A request keeps to the share modes exactly when each entry for its file shares
where the first does. -/
theorem sharesKept_iff (s : FsService) (r : OpenRequest) :
    s.SharesKept r ↔ ∀ file mode, s.asks r = some (file, mode) →
      HeadShares sharesRead (s.modes file) → ∀ m ∈ s.modes file, sharesRead m := by
  have hentries := opened_fileEntries s r
  have hmodes : ∀ file, (∀ m ∈ s.modes file, sharesRead m) ↔
      ∀ e' ∈ s.fileEntries, e'.file = file → sharesRead e'.shareMode := by
    intro file
    simp only [modes, List.forall_mem_map, List.mem_filter, decide_eq_true_eq, and_imp]
  simp only [hmodes, SharesKept]
  constructor
  · intro hkept file mode hasks hhead
    simp only [hasks, if_pos hhead] at hentries
    exact hkept _ hentries
  · intro hkept e heq
    rw [heq] at hentries
    rcases hasks : s.asks r with _ | ⟨f, mode⟩
    · simp [hasks] at hentries
    · simp only [hasks] at hentries
      by_cases hhead : HeadShares sharesRead (s.modes f)
      · rw [if_pos hhead, List.append_cancel_left_eq, List.singleton_inj] at hentries
        rw [hentries]
        exact hkept f mode hasks hhead
      · simp [if_neg hhead] at hentries

theorem modesAsked_cons (s : FsService) (r : OpenRequest) (requests : List OpenRequest)
    (file : ℕ) :
    s.modesAsked (r :: requests) file = match s.asks r with
      | none => s.modesAsked requests file
      | some (f, mode) =>
        if f = file then mode :: s.modesAsked requests file else s.modesAsked requests file := by
  rcases hasks : s.asks r with _ | ⟨f, mode⟩
  · simp [modesAsked, hasks]
  · by_cases hf : f = file <;> simp [modesAsked, hasks, hf]

theorem allSharesKept_iff_admits (s : FsService) (requests : List OpenRequest) :
    s.AllSharesKept requests ↔
      ∀ file, AdmitsRightly sharesRead (s.modes file) (s.modesAsked requests file) := by
  induction requests generalizing s with
  | nil => simp [AllSharesKept, modesAsked, AdmitsRightly]
  | cons r requests ih =>
    have hasked : (s.opened r).modesAsked requests = s.modesAsked requests := by
      funext file
      simp only [modesAsked, opened_asks]
    rw [AllSharesKept, ih, sharesKept_iff, hasked]
    simp only [modesAsked_cons, modes_opened]
    rcases s.asks r with _ | ⟨f, mode⟩
    · simp
    · constructor
      · rintro ⟨hkept, hrest⟩ file
        have hfile := hrest file
        by_cases hf : f = file
        · subst hf
          simp only [if_true] at hfile ⊢
          exact ⟨hkept f mode rfl, hfile⟩
        · simpa only [if_neg hf] using hfile
      · intro hall
        constructor
        · intro file mode' heq
          cases heq
          have hfile := hall f
          simp only [if_true] at hfile
          exact hfile.1
        · intro file
          have hfile := hall file
          by_cases hf : f = file
          · simp only [if_pos hf] at hfile ⊢
            exact hfile.2
          · simpa only [if_neg hf] using hfile

/-- From a service that has no file open, all requests of a sequence keep to the share
modes exactly when for each file the first that asks for it does not share reading, or
only the last does not. -/
theorem share_modes_kept_iff (s : FsService) (hstart : s.fileEntries = [])
    (requests : List OpenRequest) :
    s.AllSharesKept requests ↔ ∀ file, FirstDecides sharesRead (s.modesAsked requests file) := by
  rw [allSharesKept_iff_admits]
  have hempty : ∀ file, s.modes file = [] := by
    intro file
    simp [modes, hstart]
  simp only [hempty, admitsRightly_iff]

/-- The service with one process connected, and no file open. -/
def oneProcess : FsService where
  processes := [0x40001004]
  fileEntries := []
  currentFileHandle := 0
  block := fun p => if p = 0x40001004 then .processEntry else .free
  entry := fun p => if p = 0x40001004 then ⟨3, 7, none⟩ else .zero

/-- The process opens the one file of the disk with a share mode. -/
def openOnly (shareMode : U32) : OpenRequest where
  processHandle := 7
  parameters := some ⟨[97], fileRead, shareMode⟩
  calls := ⟨fun _ => (.statusSuccess, some 0x40002004), .statusSuccess⟩

/-- A file that is shared twice, and then not. -/
theorem shared_twice_kept : oneProcess.AllSharesKept [openOnly 1, openOnly 1, openOnly 0] := by
  refine (share_modes_kept_iff oneProcess rfl _).2 fun file => ?_
  by_cases hfile : 0x40002004 = file
  · subst hfile
    decide
  · have hnone : oneProcess.modesAsked [openOnly 1, openOnly 1, openOnly 0] file = [] := by
      have hasked : [openOnly 1, openOnly 1, openOnly 0].filterMap oneProcess.asks =
          [(0x40002004, 1), (0x40002004, 1), (0x40002004, 0)] := by
        decide
      rw [modesAsked, hasked]
      simp [hfile]
    rw [hnone]
    decide

/-- A file that is shared, then not, and opened once more. -/
theorem opened_after_not_shared : oneProcess.fileEntries = [] ∧
    ¬ oneProcess.AllSharesKept [openOnly 1, openOnly 0, openOnly 1] := by
  refine ⟨rfl, ?_⟩
  rintro ⟨-, -, hkept, -⟩
  have hshares : sharesRead 0 := hkept ⟨3, 0, 0x40002004, 1⟩ rfl ⟨2, 0, 0x40002004, 0⟩ (by decide) rfl
  exact absurd hshares (by decide)

end FsService

end LtMicros
