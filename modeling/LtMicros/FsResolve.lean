import LtMicros.Lib.Run
import LtMicros.FsPath

/-!
# What a path means

`OpenFileFromName` from every state that the service reaches, compared with what the path means in
the tree on the disk, and when it gives the string of the caller back as it was.
-/

namespace LtMicros

open Lib CString

namespace FsTree

/-- The first record with a name and an inode. -/
def live (tree : FsTree) (inum : U32) (name : List U8) : Option (List U8 × U32) :=
  (tree.entries inum).find? fun e => e.1 = name ∧ e.2 ≠ 0

/-- The place that a path means: its components are taken in order, and a component that is empty
or `.` leads nowhere else. -/
def resolve (tree : FsTree) (path : List U8) : Option Place :=
  (components path).foldlM (step (fun component => component = dotDot) tree.live) []

/-- The place of the file that `OpenFileFromName` opens. -/
def opensAt (tree : FsTree) (path : List U8) : Option Place :=
  (tree.walk [] (dirs (relative path))).bind fun place =>
    (tree.openable (inumOf place) (last (relative path))).map fun e => e :: place

end FsTree

namespace FsFiles

variable {tree : FsTree} {fs : FsFiles} {m : Bytes} {fuel path n : ℕ} {s : List U8}
  {file : Option ℕ}

/-- A call of `OpenFileFromName` with a string that ends. -/
def OpensPath (disk : DiskReads) (fs : FsFiles) (call : ℕ × Bytes × ℕ) (fs' : FsFiles) : Prop :=
  (∃ s, PathAt call.2.1 call.2.2 s ∧ 2 ^ 32 + s.length ≤ call.1) ∧ ∃ status file m',
    (openFileFromName call.1 disk fs call.2.1 (some call.2.2)).outcome = .ret (status, file, m', fs')

/-- The service has been started, and has opened files since. -/
def Reached (tree : FsTree) (fs : FsFiles) : Prop :=
  ∃ fuel fs₀ calls, 2 ^ 32 ≤ fuel ∧
    (initRoot fuel tree.disk empty).outcome = .ret (.statusSuccess, fs₀) ∧
      Run (OpensPath tree.disk) fs₀ calls fs

/-- Files in the tree, with the root directory browsed. -/
def Ready (fs : FsFiles) (tree : FsTree) : Prop := fs.Nodes tree ∧ ∃ l, fs.Listed tree fs.gRootFile l

theorem Ready.walks (h : fs.Ready tree) (hpath : PathAt m path s) (hfuel : 2 ^ 32 + s.length ≤ fuel) :
    Traced.Meets anything (FsFiles.openFileFromName fuel tree.disk fs m (some path)) fun a =>
      fs.Answers tree m path s.length (if s = [slash] then some fs.gRootFile else none)
        (tree.walk [] (dirs (relative s))) (last (relative s)) a ∧
      (a.2.2.2 = fs ↔ fs.Undisturbed tree [] (dirs (relative s)) (last (relative s))) := by
  obtain ⟨hnodes, l, hl⟩ := h
  exact hnodes.openFileFromName_meets hl hpath (fun _ _ => trivial) (fun _ _ => trivial) hfuel

theorem Ready.openFileFromName (h : fs.Ready tree) (hpath : PathAt m path s)
    (hfuel : 2 ^ 32 + s.length ≤ fuel) :
    Traced.Meets anything (openFileFromName fuel tree.disk fs m (some path))
      (fs.Answers tree m path s.length (if s = [slash] then some fs.gRootFile else none)
        (tree.walk [] (dirs (relative s))) (last (relative s))) :=
  (h.walks hpath hfuel).mono fun _ => And.left

theorem Ready.answers {walked : Option Place} {component : List U8}
    {a : Status × Option ℕ × Bytes × FsFiles} (h : fs.Ready tree)
    (ha : fs.Answers tree m path n file walked component a) : a.2.2.2.Ready tree := by
  obtain ⟨hnodes, l, hl⟩ := h
  refine ⟨ha.nodes, l, ?_⟩
  rw [ha.keeps.gRootFile]
  exact ha.keeps.listed _ hnodes.rootLt l hl

/-- The file that is given for a path, when it is in memory. -/
def GivenFile (fs : FsFiles) (tree : FsTree) (s : List U8) (p : ℕ) : Prop :=
  s = [slash] ∧ p = fs.gRootFile ∨ ∃ place, tree.opensAt s = some place ∧ fs.At place p

/-- What an answer that changes nothing gives. -/
theorem Answers.given_iff {a : Status × Option ℕ × Bytes × FsFiles} {p : ℕ}
    (h : fs.Answers tree m path n (if s = [slash] then some fs.gRootFile else none)
      (tree.walk [] (dirs (relative s))) (last (relative s)) a) (hsame : a.2.2.2 = fs) :
    a.1 = .statusSuccess ∧ a.2.1 = some p ↔ fs.GivenFile tree s p := by
  have hfailed (hf : a.1.failed) : a.1 ≠ .statusSuccess := by
    simpa [Status.failed] using hf
  have hempty (inum : U32) : tree.openable inum [] = none := by
    simp [FsTree.openable, FsTree.first, Skipped]
  by_cases hroot : s = [slash]
  · subst hroot
    have hwalk : tree.walk [] (dirs (relative [slash])) = some [] := rfl
    have hlast : last (relative [slash]) = [] := rfl
    have hno : tree.opensAt [slash] = none := by
      rw [FsTree.opensAt, hwalk, hlast, Option.bind_some, hempty, Option.map_none]
    obtain ⟨hstatus, hfile⟩ := h.unset [] rfl rfl
    rw [GivenFile, hno]
    simp [hstatus, hfile, eq_comm]
  rw [if_neg hroot] at h
  simp only [GivenFile, hroot, false_and, false_or, FsTree.opensAt]
  rcases hwalk : tree.walk [] (dirs (relative s)) with _ | place
  · simp [hfailed (h.lost hwalk).1]
  by_cases hlast : last (relative s) = []
  · obtain ⟨-, hfile⟩ := h.unset place hwalk hlast
    simp [hfile, hlast, hempty]
  rcases hopenable : tree.openable (inumOf place) (last (relative s)) with _ | e
  · simp [hfailed (h.missing place hwalk hlast hopenable), hopenable]
  · obtain ⟨hstatus, q, hfile, hat⟩ := h.found place e hwalk hopenable
    rw [hsame] at hat
    have hnodes : fs.Nodes tree := hsame ▸ h.nodes
    simp only [hstatus, hfile, hopenable, true_and, Option.bind_some, Option.map_some,
      Option.some.injEq, exists_eq_left']
    constructor
    · rintro rfl
      exact hat
    · exact hnodes.at_inj hat

theorem Reached.ready (h : Reached tree fs) : fs.Ready tree := by
  obtain ⟨fuel, fs₀, calls, hfuel, hret, hrun⟩ := h
  refine hrun.invariant (I := fun fs => fs.Ready tree) ?_ (initRoot_nodes hfuel hret)
  rintro fs ⟨fuel, m, path⟩ fs' hready ⟨⟨s, hpath, hfuel⟩, status, file, m', hret⟩
  exact hready.answers ((hready.openFileFromName hpath hfuel).ret _ hret)

/-! ## The file -/

/-- The answer is right: a success when the path means a place, with the file at this place. -/
def RightFor (tree : FsTree) (s : List U8) (a : Status × Option ℕ × Bytes × FsFiles) : Prop :=
  (a.1 = .statusSuccess ↔ (tree.resolve s).isSome) ∧
    (a.1 = .statusSuccess → ∃ place p, tree.resolve s = some place ∧ a.2.1 = some p ∧
      a.2.2.2.At place p)

/-- `OpenFileFromName` returns, and its answer is right. -/
def ResolvesRightly (fs : FsFiles) (tree : FsTree) (fuel : ℕ) (m : Bytes) (path : ℕ) (s : List U8) :
    Prop :=
  ∃ a, (openFileFromName fuel tree.disk fs m (some path)).outcome = .ret a ∧ RightFor tree s a

theorem Answers.rightFor_iff {a : Status × Option ℕ × Bytes × FsFiles}
    (h : fs.Answers tree m path n (if s = [slash] then some fs.gRootFile else none)
      (tree.walk [] (dirs (relative s))) (last (relative s)) a) :
    RightFor tree s a ↔ s = [slash] ∨ tree.resolve s = tree.opensAt s ∧
      (last (relative s) = [] → tree.walk [] (dirs (relative s)) = none) := by
  have hfailed (hf : a.1.failed) : a.1 ≠ .statusSuccess := by
    simpa [Status.failed] using hf
  by_cases hroot : s = [slash]
  · subst hroot
    obtain ⟨hstatus, hfile⟩ := h.unset [] rfl rfl
    rw [if_pos rfl] at hfile
    refine iff_of_true ⟨iff_of_true hstatus rfl, fun _ => ⟨[], _, rfl, hfile, ?_⟩⟩ (.inl rfl)
    exact h.keeps.gRootFile.symm
  rw [if_neg hroot] at h
  rw [or_iff_right hroot]
  rcases hwalk : tree.walk [] (dirs (relative s)) with _ | place
  · have hno : tree.opensAt s = none := by rw [FsTree.opensAt, hwalk, Option.bind_none]
    have hne := hfailed (h.lost hwalk).1
    simp [RightFor, hne, hno]
  have hopensAt : tree.opensAt s =
      (tree.openable (inumOf place) (last (relative s))).map fun e => e :: place := by
    rw [FsTree.opensAt, hwalk, Option.bind_some]
  by_cases hlast : last (relative s) = []
  · -- the status is a success, and no file is given
    obtain ⟨hstatus, hfile⟩ := h.unset place hwalk hlast
    simp [RightFor, hstatus, hfile, hlast]
  rcases hopenable : tree.openable (inumOf place) (last (relative s)) with _ | e
  · have hne := hfailed (h.missing place hwalk hlast hopenable)
    simp [RightFor, hne, hopensAt, hopenable, hlast]
  · obtain ⟨hstatus, p, hfile, hat⟩ := h.found place e hwalk hopenable
    rw [hopensAt, hopenable, Option.map_some]
    simp only [RightFor, hstatus, hfile, hlast, true_iff, true_implies, false_implies, and_true]
    constructor
    · rintro ⟨-, place', p', hresolve, hp, hat'⟩
      obtain rfl := Option.some.inj hp
      rw [hresolve, h.nodes.at_unique hat' hat]
    · intro hresolve
      exact ⟨by simp [hresolve], e :: place, p, hresolve, rfl, hat⟩

/-- The status and the file are what the path means, if it is `/`, or if the first records with the
names of its components lead there, with an empty component that leads up, and the last component is
not empty. -/
theorem openFileFromName_resolvesRightly_iff (hreached : Reached tree fs) (hpath : PathAt m path s)
    (hfuel : 2 ^ 32 + s.length ≤ fuel) :
    fs.ResolvesRightly tree fuel m path s ↔ s = [slash] ∨ tree.resolve s = tree.opensAt s ∧
      (last (relative s) = [] → tree.walk [] (dirs (relative s)) = none) := by
  have hmeets := hreached.ready.openFileFromName hpath hfuel
  obtain ⟨a, hret, ha⟩ := hmeets.returns fun _ => id
  rw [← ha.rightFor_iff]
  constructor
  · rintro ⟨a', hret', hright⟩
    rw [hret] at hret'
    cases hret'
    exact hright
  · intro hright
    exact ⟨a, hret, hright⟩

/-- The bytes of a string, somewhere in memory. -/
def pathBytes (path : ℕ) (s : List U8) : Bytes := fun i => s.getD (i - path) 0

theorem pathAt_pathBytes (path : ℕ) (h : ∀ b ∈ s, b ≠ 0) : PathAt (pathBytes path s) path s :=
  ⟨h, fun i _ => by rw [pathBytes, Nat.add_sub_cancel_left]⟩

/-- A disk whose root directory has a file with the name `a`. -/
def singleFile : FsTree where
  disk :=
    { ext2ReadInode inum := .ok (if inum = ext2RootInodeNumber then ⟨ext2SIfdir, 36⟩ else ⟨0, 0⟩)
      ext2ReadFile _ _ := .ok (entryBytes 11 1) }
  entries inum := if inum = ext2RootInodeNumber then [([46], 2), ([46, 46], 2), ([97], 11)] else []
  directory {inum inode content} hgives hmode := by
    obtain ⟨hinode, hcontent⟩ := hgives
    cases hinode
    cases hcontent
    by_cases hroot : inum = ext2RootInodeNumber
    · rw [if_pos hroot, if_pos hroot]
      exact ⟨threeEntries_fits 11, [0, 12, 24], threeEntries_tiles 11, by decide⟩
    · rw [if_neg hroot] at hmode
      exact absurd rfl hmode
  other {inum inode content} hgives hmode := by
    obtain ⟨hinode, -⟩ := hgives
    cases hinode
    by_cases hroot : inum = ext2RootInodeNumber
    · rw [if_pos hroot] at hmode
      exact absurd hmode (by decide)
    · exact if_neg hroot
  inodeError h := nomatch h
  contentError h := nomatch h

/-- The service can be started where the root directory can be read. -/
theorem initRoot_reached {inode : Inode} {content : FileContent}
    (hgives : tree.disk.Gives ext2RootInodeNumber inode content)
    (hmode : inode.mode &&& ext2SIfdir ≠ 0) : ∃ fs, Reached tree fs := by
  have hnodes := rootOnly_nodes hgives.readInode
  obtain ⟨hopens, -⟩ := (hnodes.node 0 hnodes.rootLt).opens hgives
  obtain ⟨hfits, places, htiles, -⟩ := tree.directory hgives hmode
  have hlength := htiles.length_le
  have hchildren : (rootOnly inode).Children 0 [] :=
    children_nil (by simp [rootOnly, create, empty])
  have hmeets : Traced.Meets anything
      (browseAndCacheDirectory (2 ^ 32) tree.disk (rootOnly inode) (some 0)) _ :=
    hopens.browse_meets hmode hchildren Nat.one_pos (fun _ => trivial) hfits htiles
      (by rw [List.length_nil]; omega)
  obtain ⟨⟨_, fs⟩, hret, rfl, -⟩ := hmeets.returns fun _ => id
  refine ⟨fs, 2 ^ 32, fs, [], le_rfl, ?_, .nil fs⟩
  rw [initRoot, hgives.readInode]
  exact hret

theorem singleFile_reached : ∃ fs, Reached singleFile fs :=
  have hgives : singleFile.disk.Gives ext2RootInodeNumber ⟨ext2SIfdir, 36⟩ (entryBytes 11 1) :=
    ⟨rfl, rfl⟩
  initRoot_reached hgives (by decide)

/-- `/a` is opened. -/
theorem singleFile_resolvesRightly : ∃ fs, Reached singleFile fs ∧
    fs.ResolvesRightly singleFile (2 ^ 32 + 2) (pathBytes 0x40001000 [47, 97]) 0x40001000 [47, 97] := by
  obtain ⟨fs, hreached⟩ := singleFile_reached
  exact ⟨fs, hreached, (openFileFromName_resolvesRightly_iff hreached
    (pathAt_pathBytes _ (by decide)) (by decide)).mpr (.inr (by decide))⟩

/-- With `a/` the status is a success, and no file is given. -/
theorem singleFile_not_resolvesRightly : ∃ fs, Reached singleFile fs ∧
    ¬fs.ResolvesRightly singleFile (2 ^ 32 + 2) (pathBytes 0x40001000 [97, 47]) 0x40001000 [97, 47] := by
  obtain ⟨fs, hreached⟩ := singleFile_reached
  refine ⟨fs, hreached, ?_⟩
  rintro ⟨a, hret, hright⟩
  have hpath : PathAt (pathBytes 0x40001000 [97, 47]) 0x40001000 [97, 47] :=
    pathAt_pathBytes _ (by decide)
  have ha := (hreached.ready.openFileFromName hpath (by decide)).ret a hret
  exact absurd (ha.rightFor_iff.mp hright) (by decide)

/-! ## The string of the caller -/

/-- `OpenFileFromName` returns, with the string and its zero byte as they were. -/
def PathSurvives (fs : FsFiles) (tree : FsTree) (fuel : ℕ) (m : Bytes) (path : ℕ) (s : List U8) :
    Prop :=
  ∃ a, (openFileFromName fuel tree.disk fs m (some path)).outcome = .ret a ∧
    ∀ i ≤ s.length, a.2.2.1 (path + i) = m (path + i)

theorem Answers.survives_iff {walked : Option Place} {component : List U8}
    {a : Status × Option ℕ × Bytes × FsFiles}
    (h : fs.Answers tree m path s.length file walked component a) :
    (∀ i ≤ s.length, a.2.2.1 (path + i) = m (path + i)) ↔ walked ≠ none := by
  constructor
  · rintro hsame hwalked
    obtain ⟨-, i, hle, hlt, hne⟩ := h.lost hwalked
    have hi := hsame (i - path) (by omega)
    rw [Nat.add_sub_cancel' hle] at hi
    exact hne hi
  · intro hwalked i _
    rw [h.kept hwalked]

/-- The string is as it was when every component before its last `/` leads somewhere, and only
then. -/
theorem openFileFromName_pathSurvives_iff (hreached : Reached tree fs) (hpath : PathAt m path s)
    (hfuel : 2 ^ 32 + s.length ≤ fuel) :
    fs.PathSurvives tree fuel m path s ↔ tree.walk [] (dirs (relative s)) ≠ none := by
  obtain ⟨a, hret, ha⟩ := (hreached.ready.openFileFromName hpath hfuel).returns fun _ => id
  rw [← ha.survives_iff]
  constructor
  · rintro ⟨a', hret', hsame⟩
    rw [hret] at hret'
    cases hret'
    exact hsame
  · intro hsame
    exact ⟨a, hret, hsame⟩

/-- `a/b`, in which `a` leads somewhere. -/
theorem singleFile_pathSurvives : ∃ fs, Reached singleFile fs ∧ fs.PathSurvives singleFile (2 ^ 32 + 3)
    (pathBytes 0x40001000 [97, 47, 98]) 0x40001000 [97, 47, 98] := by
  obtain ⟨fs, hreached⟩ := singleFile_reached
  exact ⟨fs, hreached, (openFileFromName_pathSurvives_iff hreached
    (pathAt_pathBytes _ (by decide)) (by decide)).mpr (by decide)⟩

/-- `b/a` is cut behind `b`. -/
theorem singleFile_not_pathSurvives : ∃ fs, Reached singleFile fs ∧
    ¬fs.PathSurvives singleFile (2 ^ 32 + 3) (pathBytes 0x40001000 [98, 47, 97]) 0x40001000
      [98, 47, 97] := by
  obtain ⟨fs, hreached⟩ := singleFile_reached
  refine ⟨fs, hreached, ?_⟩
  rintro ⟨a, hret, hsame⟩
  have hpath : PathAt (pathBytes 0x40001000 [98, 47, 97]) 0x40001000 [98, 47, 97] :=
    pathAt_pathBytes _ (by decide)
  have ha := (hreached.ready.openFileFromName hpath (by decide)).ret a hret
  exact absurd (ha.survives_iff.mp hsame) (by decide)

end FsFiles

end LtMicros
