import LtMicros.Lib.Chain
import LtMicros.FsFile

/-!
# Parsing a directory

What the functions that `BrowseAndCacheDirectory` calls read and give, and when all bytes that it
reads itself are inside the content of the directory.
-/

namespace LtMicros

open Lib CString

/-- `recLen` of the entry at a place. -/
def recLenAt (bytes : Bytes) (entry : ℕ) : ℕ :=
  (bytes (entry + 4)).toNat + 256 * (bytes (entry + 5)).toNat

/-- `nameLen` of the entry at a place. -/
def nameLenAt (bytes : Bytes) (entry : ℕ) : ℕ := (bytes (entry + 6)).toNat

/-- The bytes of the name of the entry at a place. -/
def nameBytesAt (bytes : Bytes) (entry : ℕ) : List U8 :=
  (List.range (nameLenAt bytes entry)).map fun i => bytes (entry + 8 + i)

/-- The inode number of the entry at a place. -/
def inodeAt (bytes : Bytes) (entry : ℕ) : U32 := BitVec.ofNat 32 (bytes.load32 entry)

theorem littleEndian_four (bytes : Bytes) (index : ℕ) :
    littleEndian ((List.range 4).map fun i => bytes (index + i)) = bytes.load32 index := by
  simp [littleEndian, List.range_succ, Bytes.load32]
  omega

theorem littleEndian_recLen (bytes : Bytes) (entry : ℕ) :
    littleEndian ((List.range 2).map fun i => bytes (entry + 4 + i)) = recLenAt bytes entry := by
  simp [littleEndian, List.range_succ, recLenAt, Nat.add_assoc]

variable {c : Traced.Contract FsRead} {directory index n fuel : ℕ} {content : FileContent}
  {fs : FsFiles}

/-- The bytes are read one after the other. -/
theorem copyContent_eq (directory : ℕ) (content : FileContent) (index n : ℕ) :
    copyContent directory content index n =
      ⟨(List.range n).map fun i => .content directory (index + i),
        .ret ((List.range n).map fun i => content.bytes (index + i))⟩ := by
  induction n generalizing index with
  | zero => rfl
  | succ n ih =>
    have hnext (i : ℕ) : index + 1 + i = index + (i + 1) := by omega
    have hread : readContent directory content index =
        ⟨[.content directory index], .ret (content.bytes index)⟩ := rfl
    rw [copyContent, hread, ih, Traced.bind_of_ret rfl, Traced.bind_of_ret rfl]
    simp [List.range_succ_eq_map, Function.comp_def, hnext]

/-- The bytes may be read. -/
def AllowsContent (c : Traced.Contract FsRead) (directory index n : ℕ) : Prop :=
  ∀ i < n, c.ok (.content directory (index + i))

theorem copyContent_meets (hok : AllowsContent c directory index n) :
    Traced.Meets c (copyContent directory content index n) fun bytes =>
      bytes = (List.range n).map fun i => content.bytes (index + i) := by
  rw [copyContent_eq]
  refine ⟨fun e he => ?_, fun r hr => (Outcome.ret.inj hr).symm, nofun, nofun, nofun⟩
  obtain ⟨i, hi, rfl⟩ := List.mem_map.mp he
  exact .inl (hok i (List.mem_range.mp hi))

theorem readContent_meets (hok : c.ok (.content directory index)) :
    Traced.Meets c (readContent directory content index) fun b => b = content.bytes index :=
  (Traced.Meets.note (Q := fun _ => True) hok trivial).bind fun _ _ => Traced.Meets.pure rfl

/-- A disk that cannot be read. -/
def DiskReads.failing : DiskReads where
  ext2ReadInode _ := .error .statusFailure
  ext2ReadFile _ _ := .error .statusFailure

namespace FsFiles

/-- `StrCmp` finds no difference between the name of a file and a string. -/
def nameMatches (fs : FsFiles) (s : List U8) (p : ℕ) : Bool :=
  match (fs.file p).name with
  | none => false
  | some name => upToZero name = s ∨ upToZero name = [] ∨ s = []

/-- The files that are linked as the children of a directory. -/
structure Siblings (fs : FsFiles) (directory : ℕ) (l : List ℕ) : Prop where
  chain : Chain (fun p => (fs.file p).next) (fs.file directory).leaf l
  below : ∀ p ∈ l, p < fs.count

/-- `IsCached` finds the first child with the name. -/
theorem isCached_meets {l : List ℕ} {fileName : CString FsRead} {s : List U8}
    (hl : fs.Siblings directory l) (hname : Holds c fileName s) (hlen : l.length < fuel)
    (hs : s.length < fuel) :
    Traced.Meets c (fs.isCached fuel (some directory) fileName) fun r =>
      r = l.find? (fs.nameMatches s) := by
  refine hl.chain.meets_search (fun p => ?_) (by exact Traced.Meets.pure rfl) hlen
  rw [isCachedTurn, nameMatches]
  cases (fs.file p).name with
  | none => exact Traced.Meets.pure rfl
  | some name =>
    refine (StdLib.strCmp_meets (holds_own name) hname (by omega)).bind fun r hr => ?_
    by_cases heq : upToZero name = s ∨ upToZero name = [] ∨ s = []
    · rw [if_pos (hr.mpr heq)]
      exact Traced.Meets.pure (by simp [heq])
    · rw [if_neg fun h => heq (hr.mp h)]
      exact Traced.Meets.pure (by simp [heq])

/-- What a new first child changes. -/
theorem addLeaf_file (inum : U32) (fileName : List U8) (hdir : directory < fs.count)
    (hleaf : ∀ q ∈ (fs.file directory).leaf, q < fs.count) (p : ℕ) :
    (fs.addLeaf directory inum fileName).file p =
      if p = fs.count then
        { inum, name := some fileName, parent := some directory, next := (fs.file directory).leaf }
      else { fs.file p with
        leaf := if p = directory then some fs.count else (fs.file p).leaf
        prev := if some p = (fs.file directory).leaf then some fs.count else (fs.file p).prev } := by
  have hne : directory ≠ fs.count := Nat.ne_of_lt hdir
  rw [addLeaf]
  cases hfirst : (fs.file directory).leaf with
  | none =>
    by_cases hp : p = fs.count
    · subst hp
      simp [create, modify, hne.symm]
    · by_cases hpd : p = directory
      · subst hpd
        simp [create, modify, hp]
      · simp [create, modify, hp, hpd]
  | some leaf =>
    have hlt : leaf ≠ fs.count := Nat.ne_of_lt (hleaf leaf hfirst)
    by_cases hp : p = fs.count
    · subst hp
      simp [create, modify, hne.symm, hlt.symm]
    · by_cases hpd : p = directory
      · subst hpd
        by_cases hpl : p = leaf
        · subst hpl
          simp [create, modify, hp]
        · simp [create, modify, hp, hpl]
      · by_cases hpl : p = leaf
        · subst hpl
          simp [create, modify, hp, hpd]
        · simp [create, modify, hp, hpd, hpl]

@[simp] theorem addLeaf_count {inum : U32} {fileName : List U8} :
    (fs.addLeaf directory inum fileName).count = fs.count + 1 := by
  rw [addLeaf]
  split <;> rfl

@[simp] theorem addLeaf_gRootFile {inum : U32} {fileName : List U8} :
    (fs.addLeaf directory inum fileName).gRootFile = fs.gRootFile := by
  rw [addLeaf]
  split <;> rfl

theorem Siblings.leaf_lt {l : List ℕ} (hl : fs.Siblings directory l) :
    ∀ q ∈ (fs.file directory).leaf, q < fs.count := by
  intro q hq
  obtain ⟨rest, rfl, -⟩ := hl.chain.chain_cons hq
  exact hl.below q List.mem_cons_self

/-- The new child is in front of the others. -/
theorem Siblings.addLeaf {l : List ℕ} (hl : fs.Siblings directory l) (hdir : directory < fs.count)
    (inum : U32) (fileName : List U8) :
    (fs.addLeaf directory inum fileName).Siblings directory (fs.count :: l) := by
  have hfile := addLeaf_file inum fileName hdir hl.leaf_lt
  constructor
  · refine ⟨?_, ?_⟩
    · rw [hfile, if_neg (Nat.ne_of_lt hdir)]
      simp
    · simp only [hfile, if_true]
      refine (Seg.congr fun p hp => ?_).mp hl.chain
      have := hl.below p hp
      rw [if_neg (by omega)]
  · intro p hp
    rw [addLeaf_count]
    rcases List.mem_cons.mp hp with rfl | hp
    · exact Nat.lt_succ_self _
    · exact Nat.lt_succ_of_lt (hl.below p hp)

/-- An entry of this name is never cached. -/
def Skipped (s : List U8) : Prop := s = [] ∨ s = dot ∨ s = dotDot

instance (s : List U8) : Decidable (Skipped s) :=
  inferInstanceAs (Decidable (s = [] ∨ s = dot ∨ s = dotDot))

/-- The files after an entry of a directory with the children `l`. -/
def withEntry (fs : FsFiles) (directory : ℕ) (l : List ℕ) (inum : U32) (fileName : List U8) :
    FsFiles :=
  if Skipped (upToZero fileName) ∨ l.find? (fs.nameMatches (upToZero fileName)) ≠ none then fs
  else fs.addLeaf directory inum fileName

theorem cacheEntry_meets {l : List ℕ} {entry : ℕ} {fileName : List U8}
    (hl : fs.Siblings directory l) (hlen : l.length < fuel) (hname : fileName.length < fuel)
    (hok : AllowsContent c directory entry 4) :
    Traced.Meets c (cacheEntry fuel directory content entry fileName fs) fun fs' =>
      fs' = fs.withEntry directory l (inodeAt content.bytes entry) fileName := by
  have hshort : (upToZero fileName).length < fuel :=
    Nat.lt_of_le_of_lt ((List.takeWhile_sublist _).length_le) hname
  have hdot : upToZero dot = dot := by decide
  have hdotDot : upToZero dotDot = dotDot := by decide
  rw [cacheEntry, withEntry]
  refine (StdLib.strCmp_meets (holds_own fileName) (holds_own dot) (by omega)).bind fun r hr => ?_
  rw [hdot] at hr
  by_cases hfirst : upToZero fileName = dot ∨ upToZero fileName = []
  · rw [if_pos (hr.mpr (by tauto)), if_pos (.inl (by unfold Skipped; tauto))]
    exact Traced.Meets.pure rfl
  rw [if_neg fun h => hfirst (by simpa using hr.mp h)]
  refine (StdLib.strCmp_meets (holds_own fileName) (holds_own dotDot) (by omega)).bind fun r' hr' => ?_
  rw [hdotDot] at hr'
  by_cases hsecond : upToZero fileName = dotDot
  · rw [if_pos (hr'.mpr (.inl hsecond)), if_pos (.inl (.inr (.inr hsecond)))]
    exact Traced.Meets.pure rfl
  rw [if_neg fun h => (hr'.mp h).elim hsecond (by simpa using fun h => hfirst (.inr h))]
  refine (isCached_meets hl (holds_own fileName) hlen hshort).bind fun cached hcached => ?_
  have hskip : ¬Skipped (upToZero fileName) := by
    unfold Skipped
    tauto
  rw [← hcached]
  cases cached with
  | some p =>
    rw [if_pos (.inr (Option.some_ne_none p))]
    exact Traced.Meets.pure rfl
  | none =>
    rw [if_neg (by simpa using hskip)]
    refine (copyContent_meets hok).bind fun inode hinode => Traced.Meets.pure ?_
    rw [hinode, littleEndian_four]
    rfl

/-- The bytes of an entry that are read, with one behind its name, may be read. -/
structure AllowsEntry (c : Traced.Contract FsRead) (directory : ℕ) (bytes : Bytes) (entry : ℕ) :
    Prop where
  recLen : AllowsContent c directory (entry + 4) 2
  rest : recLenAt bytes entry ≠ 0 → AllowsContent c directory entry (9 + nameLenAt bytes entry)

/-- The end of a turn of the loop of `BrowseAndCacheDirectory`. -/
def turned (content : FileContent) (size entry : ℕ) (fs : FsFiles) :
    ℕ × ℕ × FsFiles ⊕ Status × FsFiles :=
  if add32 content.address (add32 entry (recLenAt content.bytes entry)) = 0 then
    .inr (.statusUnexpected, fs)
  else
    .inl (sub32 size (recLenAt content.bytes entry), add32 entry (recLenAt content.bytes entry), fs)

theorem browseTurn_meets {l : List ℕ} {size entry : ℕ} (hl : fs.Siblings directory l)
    (hlen : l.length < fuel) (hfuel : 2 ^ 8 ≤ fuel) (hsize : size ≠ 0)
    (hok : AllowsEntry c directory content.bytes entry) :
    Traced.Meets c (browseTurn fuel directory content (size, entry, fs)) fun r =>
      r = if recLenAt content.bytes entry = 0 then .inr (.statusSuccess, fs)
        else turned content size entry (fs.withEntry directory l (inodeAt content.bytes entry)
          (nameBytesAt content.bytes entry)) := by
  rw [browseTurn, if_neg hsize]
  refine (copyContent_meets hok.recLen).bind fun recLen hrecLen => ?_
  rw [hrecLen, littleEndian_recLen]
  by_cases hzero : recLenAt content.bytes entry = 0
  · rw [if_pos hzero, if_pos hzero]
    exact Traced.Meets.pure rfl
  have hrest := hok.rest hzero
  rw [if_neg hzero, if_neg hzero]
  refine (readContent_meets (hrest 6 (by omega))).bind fun nameLen hnameLen => ?_
  subst hnameLen
  have hname : AllowsContent c directory (entry + 8) (nameLenAt content.bytes entry + 1) := by
    intro i hi
    rw [Nat.add_assoc]
    exact hrest _ (by omega)
  refine (copyContent_meets hname).bind fun copied hcopied => ?_
  have htake : copied.take (nameLenAt content.bytes entry) = nameBytesAt content.bytes entry := by
    rw [hcopied, nameBytesAt, ← List.map_take, List.take_range, Nat.min_eq_left (Nat.le_succ _)]
  have hlt : nameLenAt content.bytes entry < 2 ^ 8 := (content.bytes (entry + 6)).isLt
  have hshort : (nameBytesAt content.bytes entry).length < fuel := by
    rw [nameBytesAt, List.length_map, List.length_range]
    omega
  have hinode : AllowsContent c directory entry 4 := fun i hi => hrest i (by omega)
  rw [show copied.take (content.bytes (entry + 6)).toNat = nameBytesAt content.bytes entry from htake]
  refine (cacheEntry_meets hl hlen hshort hinode).bind fun fs' hfs' => ?_
  rw [hfs', turned]
  dsimp only
  split <;> exact Traced.Meets.pure rfl

/-- A turn that returns has read its entry. -/
theorem browseTurn_reads {size entry : ℕ} {r : ℕ × ℕ × FsFiles ⊕ Status × FsFiles} (hsize : size ≠ 0)
    (h : (browseTurn fuel directory content (size, entry, fs)).outcome = .ret r) :
    (∀ i < 2, .content directory (entry + 4 + i) ∈
        (browseTurn fuel directory content (size, entry, fs)).trace) ∧
      (recLenAt content.bytes entry = 0 ∨
        .content directory (entry + 8 + nameLenAt content.bytes entry) ∈
            (browseTurn fuel directory content (size, entry, fs)).trace ∧
          ∃ fs', r = turned content size entry fs') := by
  rw [browseTurn, if_neg hsize] at h ⊢
  obtain ⟨recLen, hrecLen, h⟩ := Traced.bind_outcome_eq_ret.mp h
  have hvalue : littleEndian recLen = recLenAt content.bytes entry := by
    rw [copyContent_eq] at hrecLen
    rw [← Outcome.ret.inj hrecLen, littleEndian_recLen]
  constructor
  · intro i hi
    apply Traced.mem_bind_left
    rw [copyContent_eq]
    exact List.mem_map.mpr ⟨i, List.mem_range.mpr hi, rfl⟩
  rw [or_iff_not_imp_left]
  intro hzero
  rw [hvalue, if_neg hzero] at h
  obtain ⟨nameLen, hnameLen, h⟩ := Traced.bind_outcome_eq_ret.mp h
  obtain rfl : content.bytes (entry + 6) = nameLen := Outcome.ret.inj hnameLen
  obtain ⟨copied, hcopied, h⟩ := Traced.bind_outcome_eq_ret.mp h
  obtain ⟨fs', -, h⟩ := Traced.bind_outcome_eq_ret.mp h
  constructor
  · apply Traced.mem_bind_right hrecLen
    rw [hvalue, if_neg hzero]
    apply Traced.mem_bind_right hnameLen
    apply Traced.mem_bind_left
    rw [copyContent_eq]
    exact List.mem_map.mpr ⟨_, List.mem_range.mpr (Nat.lt_succ_self _), rfl⟩
  · refine ⟨fs', ?_⟩
    rw [turned]
    dsimp only at h
    split at h
    · rename_i hnull
      rw [if_pos hnull]
      exact (Outcome.ret.inj h).symm
    · rename_i hnull
      rw [if_neg hnull]
      exact (Outcome.ret.inj h).symm

/-! ## Reading inside the content -/

/-- From a place on, the entries of a directory are such that the bytes read of each of them, with
one behind its name, are in the content. The last one ends with the content, or has no length, or
is the last one of the address space. -/
inductive EntriesInside (content : FileContent) (size : ℕ) : ℕ → Prop
  | done : EntriesInside content size size
  | unused (entry : ℕ) : entry + 6 ≤ size → recLenAt content.bytes entry = 0 →
      EntriesInside content size entry
  | last (entry : ℕ) : entry + 9 + nameLenAt content.bytes entry ≤ size →
      recLenAt content.bytes entry ≠ 0 →
      add32 content.address (entry + recLenAt content.bytes entry) = 0 →
      EntriesInside content size entry
  | entry (entry : ℕ) : entry + 9 + nameLenAt content.bytes entry ≤ size →
      recLenAt content.bytes entry ≠ 0 →
      EntriesInside content size (entry + recLenAt content.bytes entry) →
      EntriesInside content size entry

theorem EntriesInside.le {size entry : ℕ} (h : EntriesInside content size entry) : entry ≤ size := by
  cases h <;> omega

/-- An entry that another one follows. -/
theorem EntriesInside.next {size entry : ℕ} (h : EntriesInside content size entry)
    (hlt : entry < size) (hrec : recLenAt content.bytes entry ≠ 0)
    (hend : add32 content.address (entry + recLenAt content.bytes entry) ≠ 0) :
    entry + 9 + nameLenAt content.bytes entry ≤ size ∧
      EntriesInside content size (entry + recLenAt content.bytes entry) := by
  cases h with
  | done => exact absurd hlt (Nat.lt_irrefl _)
  | unused _ _ hzero => exact absurd hzero hrec
  | last _ _ _ hzero => exact absurd hzero hend
  | entry _ hle _ hrest => exact ⟨hle, hrest⟩

/-- A directory that has the inode, and the content once it is open. -/
structure Opens (fs : FsFiles) (disk : DiskReads) (directory : ℕ) (inode : Inode)
    (content : FileContent) : Prop where
  hasInode : (fs.file directory).inode = some inode ∨
    (fs.file directory).inode = none ∧ disk.ext2ReadInode (fs.file directory).inum = .ok inode
  hasContent : (fs.file directory).opened = true ∧ (fs.file directory).content = some content ∨
    (fs.file directory).opened = false ∧
      disk.ext2ReadFile inode (fs.file directory).inum = .ok content

/-- The files when a file has been opened. -/
def withContent (fs : FsFiles) (file : ℕ) (inode : Inode) (content : FileContent) : FsFiles :=
  fs.modify file fun f => { f with inode := some inode, content := some content, opened := true }

theorem modify_of_eq {p : ℕ} {f : File → File} (h : f (fs.file p) = fs.file p) : fs.modify p f = fs := by
  rcases fs with ⟨file, count, gRootFile⟩
  simp only [modify, FsFiles.mk.injEq, and_true]
  funext q
  by_cases hq : q = p
  · rw [if_pos hq, hq]
    exact h
  · exact if_neg hq

theorem modify_modify (p : ℕ) (f g : File → File) :
    (fs.modify p f).modify p g = fs.modify p fun file => g (f file) := by
  simp only [modify, FsFiles.mk.injEq, and_true]
  funext q
  by_cases hq : q = p <;> simp [hq]

@[simp] theorem modify_file_self (p : ℕ) (f : File → File) : (fs.modify p f).file p = f (fs.file p) :=
  if_pos rfl

theorem readMissingInode_eq {disk : DiskReads} {p : ℕ} {inode : Inode}
    (h : (fs.file p).inode = some inode ∨
      (fs.file p).inode = none ∧ disk.ext2ReadInode (fs.file p).inum = .ok inode) :
    fs.readMissingInode disk p =
      (.statusSuccess, fs.modify p fun f => { f with inode := some inode }) := by
  rw [readMissingInode]
  rcases h with hinode | ⟨hnone, hread⟩
  · rw [hinode, modify_of_eq (by rw [← hinode])]
  · rw [hnone, hread]

variable {disk : DiskReads} {inode : Inode}

/-- Opening a file that is open or can be opened. -/
theorem Opens.openClosed (h : fs.Opens disk directory inode content)
    (hinode : (fs.file directory).opened = true → (fs.file directory).inode = some inode) :
    fs.openClosed disk directory = (.statusSuccess, fs.withContent directory inode content) := by
  rw [FsFiles.openClosed]
  rcases h.hasContent with ⟨hopened, hcontent⟩ | ⟨hclosed, hread⟩
  · rw [if_pos hopened, withContent, modify_of_eq]
    rw [← hinode hopened, ← hcontent, ← hopened]
  · rw [if_neg (by simp [hclosed]), openFile, readMissingInode_eq h.hasInode]
    simp [Status.failed, hread, modify_modify, withContent]

/-- `BrowseAndCacheDirectory` opens the file, and goes through its content if it is a directory. -/
theorem Opens.browse_opened (h : fs.Opens disk directory inode content) :
    browseAndCacheDirectory fuel disk fs (some directory) =
      if inode.mode &&& ext2SIfdir = 0 then
        return (.statusNotADirectory, fs.withContent directory inode content)
      else Traced.loop (browseTurn fuel directory content) fuel
        (inode.size.toNat, 0, fs.withContent directory inode content) := by
  have hnext : (fs.modify directory fun f => { f with inode := some inode }).Opens disk directory
      inode content := by
    constructor
    · simp
    · simpa using h.hasContent
  have hopen : (fs.modify directory fun f => { f with inode := some inode }).openClosed disk directory =
      (.statusSuccess, fs.withContent directory inode content) := by
    rw [hnext.openClosed (by simp), withContent, withContent, modify_modify]
  have hdirectory : (fs.withContent directory inode content).isDirectory disk directory =
      (decide (inode.mode &&& ext2SIfdir ≠ 0), fs.withContent directory inode content) := by
    simp [isDirectory, readMissingInode, withContent, Status.failed]
  have hok : Status.statusSuccess.failed = false := rfl
  simp only [browseAndCacheDirectory, readMissingInode_eq h.hasInode, hopen, hdirectory, hok,
    Bool.false_eq_true, if_false]
  simp [withContent]

theorem Opens.browse_eq (h : fs.Opens disk directory inode content)
    (hmode : inode.mode &&& ext2SIfdir ≠ 0) :
    browseAndCacheDirectory fuel disk fs (some directory) =
      Traced.loop (browseTurn fuel directory content) fuel
        (inode.size.toNat, 0, fs.withContent directory inode content) := by
  rw [h.browse_opened, if_neg hmode]

theorem Opens.browse_other (h : fs.Opens disk directory inode content)
    (hmode : inode.mode &&& ext2SIfdir = 0) :
    browseAndCacheDirectory fuel disk fs (some directory) =
      pure (.statusNotADirectory, fs.withContent directory inode content) := by
  rw [h.browse_opened, if_pos hmode]

/-- `BrowseAndCacheDirectory` returns, and the bytes of a content that it has read are those of the
directory, below the size in the inode. -/
def ReadsInside (fs : FsFiles) (disk : DiskReads) (directory size : ℕ) : Prop :=
  ∃ fuel r, (browseAndCacheDirectory fuel disk fs (some directory)).outcome = .ret r ∧
    ∀ d i, .content d i ∈ (browseAndCacheDirectory fuel disk fs (some directory)).trace →
      d = directory ∧ i < size

theorem modify_file_ne {p q : ℕ} (h : q ≠ p) (f : File → File) : (fs.modify p f).file q = fs.file q :=
  if_neg h

/-- The files differ in what has been read from the disk only. -/
structure SameTree (fs fs' : FsFiles) : Prop where
  count : fs'.count = fs.count
  gRootFile : fs'.gRootFile = fs.gRootFile
  file : ∀ p, ∃ inode content opened, fs'.file p = { fs.file p with inode, content, opened }

theorem SameTree.modify {file : ℕ} {f : File → File}
    (hf : ∃ inode content opened, f (fs.file file) = { fs.file file with inode, content, opened }) :
    SameTree fs (fs.modify file f) := by
  refine ⟨rfl, rfl, fun p => ?_⟩
  by_cases hp : p = file
  · subst hp
    rwa [modify_file_self]
  · rw [modify_file_ne hp]
    exact ⟨_, _, _, rfl⟩

theorem SameTree.siblings {fs' : FsFiles} {l : List ℕ} (h : SameTree fs fs')
    (hl : fs.Siblings directory l) : fs'.Siblings directory l := by
  have hnext (p : ℕ) : (fs'.file p).next = (fs.file p).next := by
    obtain ⟨_, _, _, hfile⟩ := h.file p
    rw [hfile]
  have hleaf : (fs'.file directory).leaf = (fs.file directory).leaf := by
    obtain ⟨_, _, _, hfile⟩ := h.file directory
    rw [hfile]
  refine ⟨?_, fun p hp => h.count ▸ hl.below p hp⟩
  rw [hleaf]
  exact (Seg.congr fun p _ => (hnext p).symm).mp hl.chain

/-- Opening a file moves nothing in the tree. -/
theorem sameTree_withContent (fs : FsFiles) (file : ℕ) (inode : Inode) (content : FileContent) :
    SameTree fs (fs.withContent file inode content) := .modify ⟨_, _, _, rfl⟩

theorem Siblings.withEntry {l : List ℕ} (hl : fs.Siblings directory l) (hdir : directory < fs.count)
    (inum : U32) (fileName : List U8) :
    ∃ l', (fs.withEntry directory l inum fileName).Siblings directory l' ∧
      l'.length ≤ l.length + 1 ∧ directory < (fs.withEntry directory l inum fileName).count := by
  rw [FsFiles.withEntry]
  split
  · exact ⟨l, hl, Nat.le_succ _, hdir⟩
  · exact ⟨_, hl.addLeaf hdir inum fileName, le_rfl, by rw [addLeaf_count]; omega⟩

/-- The bytes of the content of a directory below a bound. -/
def contentBelow (directory size : ℕ) : Traced.Contract FsRead where
  ok e := ∀ d i, e = .content d i → d = directory ∧ i < size
  stop _ := False

theorem EntriesInside.allows {size entry : ℕ} (h : EntriesInside content size entry)
    (hlt : entry < size) : AllowsEntry (contentBelow directory size) directory content.bytes entry := by
  have hcontent {index n : ℕ} (hle : index + n ≤ size) :
      AllowsContent (contentBelow directory size) directory index n := by
    intro i hi d j heq
    cases heq
    exact ⟨rfl, by omega⟩
  cases h with
  | done => omega
  | unused _ hle hzero => exact ⟨hcontent (by omega), fun h => absurd hzero h⟩
  | last _ hle => exact ⟨hcontent (by omega), fun _ => hcontent (by omega)⟩
  | entry _ hle => exact ⟨hcontent (by omega), fun _ => hcontent (by omega)⟩

theorem recLenAt_lt (bytes : Bytes) (entry : ℕ) : recLenAt bytes entry < 2 ^ 16 := by
  have hlo := (bytes (entry + 4)).isLt
  have hhi := (bytes (entry + 5)).isLt
  unfold recLenAt
  omega

/-- While the entries are inside, the loop comes to an end and reads below the bound only. -/
theorem EntriesInside.loop_meets {size entry : ℕ} {l : List ℕ}
    (h : EntriesInside content size entry) (hsize : size < 2 ^ 31) (hl : fs.Siblings directory l)
    (hdir : directory < fs.count) (hfuel : l.length + size + 2 ^ 8 ≤ fuel) :
    Traced.Meets (contentBelow directory size) (Traced.loop (browseTurn fuel directory content) fuel
      (size - entry, entry, fs)) fun _ => True := by
  refine Traced.Meets.loop (I := fun s : ℕ × ℕ × FsFiles => ∃ l', EntriesInside content size s.2.1 ∧
      s.1 = size - s.2.1 ∧ s.2.2.Siblings directory l' ∧ directory < s.2.2.count ∧
      l'.length + (size - s.2.1) ≤ l.length + (size - entry)) (fun s => s.1) ?_
    ⟨l, h, rfl, hl, hdir, le_rfl⟩ (by dsimp only; omega)
  rintro ⟨left, place, fs'⟩ ⟨l', hinside, hleft, hl', hdir', hlen⟩
  dsimp only at hinside hleft hl' hdir' hlen
  subst hleft
  by_cases hend : size - place = 0
  · rw [browseTurn, if_pos hend]
    exact Traced.Meets.pure ⟨nofun, fun _ _ => trivial⟩
  refine (browseTurn_meets hl' (by omega) (by omega) hend (hinside.allows (by omega))).mono ?_
  rintro r rfl
  refine ⟨fun s' hs' => ?_, fun _ _ => trivial⟩
  have hlt := recLenAt_lt content.bytes place
  have hle := hinside.le
  cases hinside with
  | done => exact absurd (Nat.sub_self _) hend
  | unused _ _ hzero =>
    rw [if_pos hzero] at hs'
    cases hs'
  | last _ _ hrec hnull =>
    rw [if_neg hrec, turned, add32_of_lt (by omega : place + recLenAt content.bytes place < 2 ^ 32),
      if_pos hnull] at hs'
    cases hs'
  | entry _ _ hrec hrest =>
    rw [if_neg hrec, turned, add32_of_lt (by omega : place + recLenAt content.bytes place < 2 ^ 32)]
      at hs'
    split at hs'
    · cases hs'
    · cases hs'
      have hle' := hrest.le
      obtain ⟨l'', hl'', hlen'', hdir''⟩ := hl'.withEntry hdir' (inodeAt content.bytes place)
        (nameBytesAt content.bytes place)
      dsimp only
      rw [sub32_of_le (by omega) (by omega)]
      exact ⟨⟨l'', hrest, by omega, hl'', hdir'', by omega⟩, by omega⟩

/-- A loop that returns and reads below the bound only has gone through entries that are inside. -/
theorem entriesInside_of_reads {size entry n : ℕ} {r : Status × FsFiles} (hsize : size < 2 ^ 31)
    (hle : entry ≤ size)
    (hret : (Traced.loop (browseTurn fuel directory content) n (size - entry, entry, fs)).outcome =
      .ret r)
    (hreads : ∀ d i, .content d i ∈
      (Traced.loop (browseTurn fuel directory content) n (size - entry, entry, fs)).trace → i < size) :
    EntriesInside content size entry := by
  induction n generalizing entry fs with
  | zero => cases hret
  | succ n ih =>
    rcases Nat.eq_or_lt_of_le hle with rfl | hlt
    · exact .done
    obtain ⟨t, hturn, -⟩ := Traced.bind_outcome_eq_ret.mp hret
    obtain ⟨hrecLen, hentry⟩ := browseTurn_reads (by omega) hturn
    have hhead := hreads _ _ (Traced.mem_loop_turn (hrecLen 1 (by omega)) n)
    by_cases hzero : recLenAt content.bytes entry = 0
    · exact .unused entry (by omega) hzero
    obtain ⟨hname, fs', rfl⟩ := hentry.resolve_left hzero
    have hname := hreads _ _ (Traced.mem_loop_turn hname n)
    have hlt16 := recLenAt_lt content.bytes entry
    have hadd : add32 entry (recLenAt content.bytes entry) = entry + recLenAt content.bytes entry :=
      add32_of_lt (by omega)
    by_cases hnull : add32 content.address (entry + recLenAt content.bytes entry) = 0
    · exact .last entry (by omega) hzero hnull
    rw [turned, hadd, if_neg hnull] at hturn
    rw [Traced.loop_again hturn] at hret hreads
    have hrest (d i : ℕ) (hi : .content d i ∈ (Traced.loop (browseTurn fuel directory content) n
        (sub32 (size - entry) (recLenAt content.bytes entry),
          entry + recLenAt content.bytes entry, fs')).trace) : i < size :=
      hreads d i (List.mem_append_right _ hi)
    by_cases hfits : entry + recLenAt content.bytes entry ≤ size
    · rw [sub32_of_le (by omega) (by omega), Nat.sub_sub] at hret hrest
      exact .entry entry (by omega) hzero (ih hfits hret hrest)
    · -- the next entry begins behind the end, and the counter is not zero there
      cases n with
      | zero => cases hret
      | succ n =>
        obtain ⟨t, hturn', -⟩ := Traced.bind_outcome_eq_ret.mp hret
        have hne : sub32 (size - entry) (recLenAt content.bytes entry) ≠ 0 := by
          unfold sub32
          omega
        have hbehind := (browseTurn_reads hne hturn').1 0 (by omega)
        have := hrest _ _ (Traced.mem_loop_turn hbehind n)
        omega

theorem EntriesInside.readsInside {l : List ℕ} (hinside : EntriesInside content inode.size.toNat 0)
    (h : fs.Opens disk directory inode content) (hmode : inode.mode &&& ext2SIfdir ≠ 0)
    (hl : fs.Siblings directory l) (hdir : directory < fs.count) (hsize : inode.size.toNat < 2 ^ 31) :
    fs.ReadsInside disk directory inode.size.toNat := by
  let fuel := l.length + inode.size.toNat + 2 ^ 8
  have hmeets : Traced.Meets _ (Traced.loop (browseTurn fuel directory content) fuel _) _ :=
    hinside.loop_meets hsize ((sameTree_withContent fs directory inode content).siblings hl) hdir
      le_rfl
  rw [Nat.sub_zero] at hmeets
  obtain ⟨r, hret, -⟩ := hmeets.returns fun _ => id
  refine ⟨fuel, r, ?_, fun d i hi => ?_⟩
  · rw [h.browse_eq hmode]
    exact hret
  · rw [h.browse_eq hmode] at hi
    exact (hmeets.ok _ hi).resolve_right id d i rfl

/-- `BrowseAndCacheDirectory` stays inside the content of a directory when all its entries do, and
only then. -/
theorem browse_readsInside_iff {l : List ℕ} (h : fs.Opens disk directory inode content)
    (hmode : inode.mode &&& ext2SIfdir ≠ 0) (hl : fs.Siblings directory l)
    (hdir : directory < fs.count) (hsize : inode.size.toNat < 2 ^ 31) :
    fs.ReadsInside disk directory inode.size.toNat ↔ EntriesInside content inode.size.toNat 0 := by
  refine ⟨?_, fun hinside => hinside.readsInside h hmode hl hdir hsize⟩
  rintro ⟨fuel, r, hret, hreads⟩
  rw [h.browse_eq hmode] at hret hreads
  exact entriesInside_of_reads hsize (Nat.zero_le _) hret fun d i hi => (hreads d i hi).2

/-- The 36 bytes of the entries `.` and `..` and of one for an inode, with a name of `nameLen`
letters. -/
def entryBytes (inode nameLen : U8) : FileContent where
  address := 0x40001000
  bytes i :=
    [2, 0, 0, 0, 12, 0, 1, 2, 46, 0, 0, 0, 2, 0, 0, 0, 12, 0, 2, 2, 46, 46, 0, 0,
      inode, 0, 0, 0, 12, 0, nameLen, 1, 97, 97, 97, 97].getD i 0

/-- An open directory with these entries only. -/
def threeEntries (inode nameLen : U8) : FsFiles where
  file _ :=
    { inum := 2, inode := some ⟨ext2SIfdir, 36⟩, content := some (entryBytes inode nameLen),
      opened := true }
  count := 1
  gRootFile := 0

theorem threeEntries_holds (inode nameLen : U8) (disk : DiskReads) :
    (threeEntries inode nameLen).Opens disk 0 ⟨ext2SIfdir, 36⟩ (entryBytes inode nameLen) :=
  ⟨.inl rfl, .inl ⟨rfl, rfl⟩⟩

theorem threeEntries_siblings (inode nameLen : U8) : (threeEntries inode nameLen).Siblings 0 [] :=
  ⟨rfl, nofun⟩

/-- With a name of one letter the last entry ends before the content does. -/
theorem threeEntries_readsInside : (threeEntries 11 1).ReadsInside .failing 0 36 := by
  have hinside : EntriesInside (entryBytes 11 1) 36 0 :=
    .entry 0 (by decide) (by decide) (.entry 12 (by decide) (by decide)
      (.entry 24 (by decide) (by decide) .done))
  exact (browse_readsInside_iff (threeEntries_holds 11 1 .failing) (by decide)
    (threeEntries_siblings 11 1) (by decide) (by decide)).mpr hinside

/-- With a name of four letters the byte behind the content is read. -/
theorem threeEntries_not_readsInside : ¬(threeEntries 11 4).ReadsInside .failing 0 36 := by
  rintro ⟨fuel, r, hret, hreads⟩
  rw [(threeEntries_holds 11 4 .failing).browse_eq (by decide)] at hret hreads
  have hinside := entriesInside_of_reads (by decide) (Nat.zero_le _) hret
    fun d i hi => (hreads d i hi).2
  -- the first two entries are inside, and the third one is not
  have hsecond := (hinside.next (by decide) (by decide) (by decide)).2
  have hthird := (hsecond.next (by decide) (by decide) (by decide)).2
  exact absurd (hthird.next (by decide) (by decide) (by decide)).1 (by decide)

end FsFiles

end LtMicros
