import LtMicros.FsCache

/-!
# The tree of files

The records of the directories of a disk make up a tree, and the files in memory are nodes of it
that have been come to. Opening a file and browsing a directory keep what is known of the nodes,
and a directory that has been browsed has a child for each name in its records.
-/

namespace LtMicros

open Lib CString

namespace DiskReads

/-- The inode and the content of a file can be read. -/
structure Gives (disk : DiskReads) (inum : U32) (inode : Inode) (content : FileContent) : Prop where
  readInode : disk.ext2ReadInode inum = .ok inode
  readFile : disk.ext2ReadFile inode inum = .ok content

/-- A file can be opened. -/
def opens (disk : DiskReads) (inum : U32) : Bool :=
  match disk.ext2ReadInode inum with
  | .error _ => false
  | .ok inode =>
    match disk.ext2ReadFile inode inum with
    | .error _ => false
    | .ok _ => true

theorem opens_iff {disk : DiskReads} {inum : U32} :
    disk.opens inum ↔ ∃ inode content, disk.Gives inum inode content := by
  constructor
  · intro h
    rw [opens] at h
    split at h
    · exact absurd h Bool.false_ne_true
    · rename_i inode hinode
      split at h
      · exact absurd h Bool.false_ne_true
      · rename_i content hcontent
        exact ⟨inode, content, hinode, hcontent⟩
  · rintro ⟨inode, content, hinode, hcontent⟩
    simp [opens, hinode, hcontent]

theorem Gives.unique {disk : DiskReads} {inum : U32} {inode inode' : Inode}
    {content content' : FileContent} (h : disk.Gives inum inode content)
    (h' : disk.Gives inum inode' content') : inode = inode' ∧ content = content' := by
  obtain rfl : inode = inode' := Except.ok.inj (h.readInode.symm.trans h'.readInode)
  exact ⟨rfl, Except.ok.inj (h.readFile.symm.trans h'.readFile)⟩

end DiskReads

/-- The names and the inode numbers in the records of each directory of a disk, by the number of
its inode. The content of a directory that can be read consists of its records, and a file that is
not a directory has none. What cannot be read gives the status of a failure. -/
structure FsTree where
  disk : DiskReads
  entries : U32 → List (List U8 × U32)
  directory : ∀ {inum inode content}, disk.Gives inum inode content →
    inode.mode &&& ext2SIfdir ≠ 0 → content.address + inode.size.toNat < 2 ^ 32 ∧
      ∃ places, EntriesTile content.bytes inode.size.toNat 0 places ∧
        places.map (entryAt content.bytes) = entries inum
  other : ∀ {inum inode content}, disk.Gives inum inode content →
    inode.mode &&& ext2SIfdir = 0 → entries inum = []
  inodeError : ∀ {inum status}, disk.ext2ReadInode inum = .error status → status.failed
  contentError : ∀ {inum inode status}, disk.ext2ReadFile inode inum = .error status → status.failed

namespace FsTree

/-- The record that `IsCached` finds in a directory that has been browsed: the first one with the
name. -/
def first (tree : FsTree) (inum : U32) (name : List U8) : Option (List U8 × U32) :=
  if FsFiles.Skipped name then none else (tree.entries inum).find? fun e => e.1 = name

theorem length_entries (tree : FsTree) {inum : U32} (h : tree.disk.opens inum) :
    (tree.entries inum).length < 2 ^ 29 := by
  obtain ⟨inode, content, hgives⟩ := DiskReads.opens_iff.mp h
  by_cases hmode : inode.mode &&& ext2SIfdir = 0
  · simp [tree.other hgives hmode]
  · obtain ⟨hfits, places, htiles, hentries⟩ := tree.directory hgives hmode
    have hlen := htiles.length_le
    rw [← hentries, List.length_map]
    omega

end FsTree

/-- Where a file is in the tree: the records on the way to it, the last one first. -/
abbrev Place := List (List U8 × U32)

/-- The inode number of the file at a place. -/
def inumOf : Place → U32
  | [] => ext2RootInodeNumber
  | e :: _ => e.2

/-- What has been read of a file is what its disk gives. -/
structure FromDisk (tree : FsTree) (file : File) : Prop where
  inode : ∀ inode, file.inode = some inode → tree.disk.ext2ReadInode file.inum = .ok inode
  opened : file.opened → ∃ inode content, tree.disk.Gives file.inum inode content ∧
    file.inode = some inode ∧ file.content = some content

theorem FromDisk.hasInode {tree : FsTree} {file : File} {inode : Inode} (h : FromDisk tree file)
    (hread : tree.disk.ext2ReadInode file.inum = .ok inode) : file.inode = some inode ∨
      file.inode = none ∧ tree.disk.ext2ReadInode file.inum = .ok inode := by
  rcases hinode : file.inode with _ | inode'
  · exact .inr ⟨rfl, hread⟩
  · left
    exact congrArg some (Except.ok.inj ((h.inode inode' hinode).symm.trans hread))

/-- What an open file has is what its disk gives. -/
theorem FromDisk.holds {tree : FsTree} {file : File} {inode : Inode} {content : FileContent}
    (h : FromDisk tree file) (hopen : file.opened)
    (hgives : tree.disk.Gives file.inum inode content) :
    file.inode = some inode ∧ file.content = some content := by
  obtain ⟨inode', content', hgives', hinode, hcontent⟩ := h.opened hopen
  obtain ⟨rfl, rfl⟩ := hgives.unique hgives'
  exact ⟨hinode, hcontent⟩

theorem FromDisk.opens {tree : FsTree} {file : File} (h : FromDisk tree file) (hopen : file.opened) :
    tree.disk.opens file.inum := by
  obtain ⟨inode, content, hgives, -⟩ := h.opened hopen
  exact DiskReads.opens_iff.mpr ⟨inode, content, hgives⟩

namespace FsFiles

/-- An open file whose children are those in the records of the disk. They are newer than it. -/
structure Listed (fs : FsFiles) (tree : FsTree) (p : ℕ) (l : List ℕ) : Prop where
  opened : (fs.file p).opened
  children : fs.Children p l
  newer : ∀ q ∈ l, p < q
  cached : l.map fs.nameAndInum = cacheAll [] (tree.entries (fs.file p).inum)

/-- What is known of each file: it has no children, or those on the disk. -/
structure Node (fs : FsFiles) (tree : FsTree) (p : ℕ) : Prop where
  fromDisk : FromDisk tree (fs.file p)
  children : fs.Children p [] ∨ ∃ l, fs.Listed tree p l

/-- The files in memory are nodes of the tree. -/
structure Nodes (fs : FsFiles) (tree : FsTree) : Prop where
  node : ∀ p < fs.count, fs.Node tree p
  rootLt : fs.gRootFile < fs.count
  rootInum : (fs.file fs.gRootFile).inum = ext2RootInodeNumber
  rootParent : (fs.file fs.gRootFile).parent = some fs.gRootFile

/-- The nodes that there were are where they have been. -/
structure Keeps (fs fs' : FsFiles) (tree : FsTree) : Prop where
  count : fs.count ≤ fs'.count
  gRootFile : fs'.gRootFile = fs.gRootFile
  nameAndInum : ∀ p < fs.count, fs'.nameAndInum p = fs.nameAndInum p
  parent : ∀ p < fs.count, (fs'.file p).parent = (fs.file p).parent
  listed : ∀ p < fs.count, ∀ l, fs.Listed tree p l → fs'.Listed tree p l

variable {tree : FsTree} {fs fs' fs'' : FsFiles} {p q : ℕ} {l : List ℕ}
  {c : Traced.Contract FsRead} {fuel : ℕ}

theorem Keeps.refl (fs : FsFiles) (tree : FsTree) : Keeps fs fs tree :=
  ⟨le_rfl, rfl, fun _ _ => rfl, fun _ _ => rfl, fun _ _ _ => id⟩

theorem Keeps.trans (h : Keeps fs fs' tree) (h' : Keeps fs' fs'' tree) : Keeps fs fs'' tree := by
  have hlt (p : ℕ) (hp : p < fs.count) : p < fs'.count := Nat.lt_of_lt_of_le hp h.count
  refine ⟨h.count.trans h'.count, h'.gRootFile.trans h.gRootFile, fun p hp => ?_, fun p hp => ?_,
    fun p hp l hl => h'.listed p (hlt p hp) l (h.listed p hp l hl)⟩
  · rw [h'.nameAndInum p (hlt p hp), h.nameAndInum p hp]
  · rw [h'.parent p (hlt p hp), h.parent p hp]

/-- The listed children of a file are all that it has. -/
theorem Listed.isChild_iff (h : fs.Listed tree p l) : fs.IsChild p q ↔ q ∈ l :=
  FsFiles.isChild_iff h.children

theorem Nodes.listed_of_isChild (h : fs.Nodes tree) (hp : p < fs.count) (hq : fs.IsChild p q) :
    ∃ l, fs.Listed tree p l ∧ q ∈ l := by
  rcases (h.node p hp).children with hnil | ⟨l, hl⟩
  · exact absurd ((FsFiles.isChild_iff hnil).mp hq) List.not_mem_nil
  · exact ⟨l, hl, hl.isChild_iff.mp hq⟩

/-- `IsCached` of a name finds the child with the first record of this name. -/
theorem Listed.find_eq (h : fs.Listed tree p l) {s : List U8} (hs : s ≠ []) :
    (l.find? (fs.nameMatches s)).map fs.nameAndInum = tree.first (fs.file p).inum s := by
  have hknown := h.children.find_ne_none hs
  have hmem (e : List U8 × U32) : e ∈ l.map fs.nameAndInum ↔
      ¬Skipped e.1 ∧ (tree.entries (fs.file p).inum).find? (fun e' => e'.1 = e.1) = some e := by
    rw [h.cached, cacheAll, mem_addAll]
    simp
  rw [FsTree.first]
  rcases hfind : l.find? (fs.nameMatches s) with _ | q
  · rw [Option.map_none, eq_comm, ite_eq_left_iff]
    intro hskip
    rw [hfind, ne_eq, eq_self, not_true_eq_false, false_iff] at hknown
    rw [List.find?_eq_none]
    intro e he heq
    -- a record with the name has a child
    obtain rfl : e.1 = s := by simpa using heq
    rcases hfirst : (tree.entries (fs.file p).inum).find? (fun e' => e'.1 = e.1) with _ | e'
    · rw [List.find?_eq_none] at hfirst
      exact hfirst e he (by simp)
    · have hname : e'.1 = e.1 := by simpa using List.find?_some hfirst
      obtain ⟨q, hq, rfl⟩ := List.mem_map.mp ((hmem e').mpr (hname ▸ ⟨hskip, hfirst⟩))
      exact hknown (List.mem_map.mpr ⟨q, hq, hname⟩)
  · have hq := List.mem_of_find?_eq_some hfind
    have hsame := (h.children.nameMatches_iff hs hq).mp (List.find?_some hfind)
    obtain ⟨-, hskip⟩ := h.children.named q hq
    obtain ⟨-, hfirst⟩ := (hmem _).mp (List.mem_map_of_mem hq)
    rw [hsame] at hskip hfirst
    rw [if_neg hskip, hfirst, Option.map_some]

/-! ## Opening a file -/

/-- A change of what has been read of a file, to what its disk gives. -/
theorem Nodes.modify {f : File → File} (h : fs.Nodes tree)
    (hf : ∃ inode content opened, f (fs.file p) = { fs.file p with inode, content, opened })
    (hdisk : FromDisk tree (f (fs.file p)))
    (hopened : (fs.file p).opened → (f (fs.file p)).opened) :
    (fs.modify p f).Nodes tree ∧ Keeps fs (fs.modify p f) tree := by
  have hsame := SameTree.modify hf
  have hinum (q : ℕ) : ((fs.modify p f).file q).inum = (fs.file q).inum := by
    obtain ⟨_, _, _, hfile⟩ := hsame.file q
    rw [hfile]
  have hparent (q : ℕ) : ((fs.modify p f).file q).parent = (fs.file q).parent := by
    obtain ⟨_, _, _, hfile⟩ := hsame.file q
    rw [hfile]
  have hlisted (q : ℕ) (l : List ℕ) (hl : fs.Listed tree q l) :
      (fs.modify p f).Listed tree q l := by
    refine ⟨?_, hsame.children hl.children, hl.newer, ?_⟩
    · by_cases hq : q = p
      · subst hq
        rw [modify_file_self]
        exact hopened hl.opened
      · rw [modify_file_ne hq]
        exact hl.opened
    · rw [hsame.nameAndInum, hinum]
      exact hl.cached
  refine ⟨⟨fun q hq => ⟨?_, ?_⟩, h.rootLt, (hinum _).trans h.rootInum, (hparent _).trans h.rootParent⟩,
    le_rfl, rfl, fun _ _ => by rw [hsame.nameAndInum], fun q _ => hparent q, fun q _ => hlisted q⟩
  · by_cases hqp : q = p
    · subst hqp
      rwa [modify_file_self]
    · rw [modify_file_ne hqp]
      exact (h.node q hq).fromDisk
  · exact (h.node q hq).children.imp hsame.children fun ⟨l, hl⟩ => ⟨l, hlisted q l hl⟩

theorem Nodes.withContent {inode : Inode} {content : FileContent} (h : fs.Nodes tree)
    (hgives : tree.disk.Gives (fs.file p).inum inode content) :
    (fs.withContent p inode content).Nodes tree ∧
      Keeps fs (fs.withContent p inode content) tree := by
  refine h.modify ⟨_, _, _, rfl⟩ ⟨fun i hi => ?_, fun _ => ⟨inode, content, hgives, rfl, rfl⟩⟩
    fun _ => rfl
  obtain rfl : inode = i := Option.some.inj hi
  exact hgives.readInode

/-- A file that can be opened is open, or is opened by reading from the disk. -/
theorem Node.opens {inode : Inode} {content : FileContent} (h : fs.Node tree p)
    (hgives : tree.disk.Gives (fs.file p).inum inode content) :
    fs.Opens tree.disk p inode content ∧
      ((fs.file p).opened = true → (fs.file p).inode = some inode) := by
  refine ⟨⟨h.fromDisk.hasInode hgives.readInode, ?_⟩, fun hopen => (h.fromDisk.holds hopen hgives).1⟩
  cases hopen : (fs.file p).opened with
  | false => exact .inr ⟨rfl, hgives.readFile⟩
  | true => exact .inl ⟨rfl, (h.fromDisk.holds hopen hgives).2⟩

/-- Reading once more what an open file has. -/
theorem Node.withContent_same {inode : Inode} {content : FileContent} (h : fs.Node tree p)
    (hgives : tree.disk.Gives (fs.file p).inum inode content) (hopen : (fs.file p).opened) :
    fs.withContent p inode content = fs := by
  obtain ⟨hinode, hcontent⟩ := h.fromDisk.holds hopen hgives
  refine modify_of_eq ?_
  rw [← hinode, ← hcontent, ← hopen]

theorem Nodes.hasInode {inode : Inode} (h : fs.Nodes tree) (hp : p < fs.count)
    (hread : tree.disk.ext2ReadInode (fs.file p).inum = .ok inode) :
    (fs.modify p fun f => { f with inode := some inode }).Nodes tree ∧
      Keeps fs (fs.modify p fun f => { f with inode := some inode }) tree := by
  refine h.modify ⟨_, _, _, rfl⟩ ⟨fun i hi => ?_, fun hopen => ?_⟩ id
  · obtain rfl : inode = i := Option.some.inj hi
    exact hread
  · obtain ⟨inode', content, hgives, -, hcontent⟩ := (h.node p hp).fromDisk.opened hopen
    obtain rfl : inode' = inode := Except.ok.inj (hgives.readInode.symm.trans hread)
    exact ⟨inode', content, hgives, rfl, hcontent⟩

/-- Where the inode of a file comes from. -/
theorem Node.readMissingInode (h : fs.Node tree p) :
    (∃ status, tree.disk.ext2ReadInode (fs.file p).inum = .error status ∧
        fs.readMissingInode tree.disk p = (status, fs)) ∨
      ∃ inode, tree.disk.ext2ReadInode (fs.file p).inum = .ok inode ∧
        fs.readMissingInode tree.disk p =
          (.statusSuccess, fs.modify p fun f => { f with inode := some inode }) := by
  rcases hread : tree.disk.ext2ReadInode (fs.file p).inum with status | inode
  · left
    have hnone : (fs.file p).inode = none := by
      rw [Option.eq_none_iff_forall_ne_some]
      intro inode hsome
      have hok := h.fromDisk.inode inode hsome
      rw [hread] at hok
      exact nomatch hok
    exact ⟨status, rfl, by simp only [FsFiles.readMissingInode, hnone, hread]⟩
  · right
    exact ⟨inode, rfl, readMissingInode_eq (h.fromDisk.hasInode hread)⟩

/-- A file that cannot be opened. -/
theorem Nodes.openClosed_failed (h : fs.Nodes tree) (hp : p < fs.count)
    (hfails : tree.disk.opens (fs.file p).inum = false) :
    (fs.openClosed tree.disk p).1.failed ∧ (fs.openClosed tree.disk p).2.Nodes tree ∧
      Keeps fs (fs.openClosed tree.disk p).2 tree := by
  have hnode := h.node p hp
  have hclosed : ¬(fs.file p).opened := by
    intro hopen
    have hopens := hnode.fromDisk.opens hopen
    rw [hfails] at hopens
    exact Bool.false_ne_true hopens
  rw [FsFiles.openClosed, if_neg hclosed, openFile]
  rcases hnode.readMissingInode with ⟨status, hread, hmissing⟩ | ⟨inode, hread, hmissing⟩
  · have hfailed := tree.inodeError hread
    simp only [hmissing, hfailed, if_true]
    exact ⟨trivial, h, .refl fs tree⟩
  · have hok : Status.statusSuccess.failed = false := rfl
    simp only [hmissing, hok, Bool.false_eq_true, if_false, modify_file_self]
    rcases hcontent : tree.disk.ext2ReadFile inode (fs.file p).inum with status | content
    · exact ⟨tree.contentError hcontent, h.hasInode hp hread⟩
    · have hopens := DiskReads.opens_iff.mpr ⟨inode, content, hread, hcontent⟩
      rw [hfails] at hopens
      exact absurd hopens Bool.false_ne_true

/-- `OpenFile` fails exactly when the file cannot be opened. -/
theorem Nodes.openClosed (h : fs.Nodes tree) (hp : p < fs.count) :
    (fs.openClosed tree.disk p).1.failed = !tree.disk.opens (fs.file p).inum ∧
      (fs.openClosed tree.disk p).2.Nodes tree ∧ Keeps fs (fs.openClosed tree.disk p).2 tree := by
  cases hopens : tree.disk.opens (fs.file p).inum with
  | false => exact h.openClosed_failed hp hopens
  | true =>
    obtain ⟨inode, content, hgives⟩ := DiskReads.opens_iff.mp hopens
    obtain ⟨hopen, hinode⟩ := (h.node p hp).opens hgives
    rw [hopen.openClosed hinode]
    exact ⟨rfl, h.withContent hgives⟩

/-- Opening a file changes nothing: it is open already, or cannot be opened, with its inode in memory
if this can be read. -/
def Settled (fs : FsFiles) (disk : DiskReads) (p : ℕ) : Prop :=
  (fs.file p).opened ∨ disk.opens (fs.file p).inum = false ∧
    ((fs.file p).inode.isSome ∨ ∃ status, disk.ext2ReadInode (fs.file p).inum = .error status)

theorem Nodes.openClosed_same_iff (h : fs.Nodes tree) (hp : p < fs.count) :
    (fs.openClosed tree.disk p).2 = fs ↔ fs.Settled tree.disk p := by
  have hnode := h.node p hp
  by_cases hopen : (fs.file p).opened
  · exact iff_of_true (by rw [FsFiles.openClosed, if_pos hopen]) (.inl hopen)
  rw [Settled, or_iff_right hopen]
  cases hopens : tree.disk.opens (fs.file p).inum with
  | true =>
    -- the file becomes an open one
    obtain ⟨inode, content, hgives⟩ := DiskReads.opens_iff.mp hopens
    obtain ⟨hholds, hinode⟩ := hnode.opens hgives
    refine iff_of_false (fun hsame => hopen ?_) (by simp)
    rw [hholds.openClosed hinode] at hsame
    rw [← hsame]
    simp [FsFiles.withContent]
  | false =>
    have hok : Status.statusSuccess.failed = false := rfl
    simp only [true_and]
    rw [FsFiles.openClosed, if_neg hopen, openFile]
    rcases hnode.readMissingInode with ⟨status, hread, hmissing⟩ | ⟨inode, hread, hmissing⟩
    · simp [hmissing, tree.inodeError hread, hread]
    simp only [hmissing, hok, Bool.false_eq_true, if_false, modify_file_self, hread, reduceCtorEq,
      exists_false, or_false]
    rcases hcontent : tree.disk.ext2ReadFile inode (fs.file p).inum with status | content
    · dsimp only
      constructor
      · intro hsame
        rw [← hsame, modify_file_self, Option.isSome_some]
      · intro hsome
        refine modify_of_eq ?_
        rcases hnode.fromDisk.hasInode hread with hinode | ⟨hnone, -⟩
        · rw [← hinode]
        · rw [hnone] at hsome
          cases hsome
    · have hopens' := DiskReads.opens_iff.mpr ⟨inode, content, hread, hcontent⟩
      rw [hopens] at hopens'
      exact absurd hopens' Bool.false_ne_true

/-! ## Browsing a directory -/

/-- The children of the other files stay as they are when a directory without children is gone
through. -/
theorem Frame.children (h : Frame fs fs' p []) (hq : q < fs.count) (hne : q ≠ p)
    (hl : fs.Children q l) : fs'.Children q l := by
  have hfile (r : ℕ) (hr : r < fs.count) : ∃ leaf, fs'.file r = { fs.file r with leaf } := by
    obtain ⟨leaf, prev, hfile⟩ := h.file r hr
    have hprev := h.prev r hr List.not_mem_nil
    rw [hfile] at hprev
    exact ⟨leaf, hfile.trans (congrArg (fun prev => { fs.file r with leaf, prev }) hprev)⟩
  have hname (r : ℕ) (hr : r ∈ l) : fs'.nameAndInum r = fs.nameAndInum r := by
    obtain ⟨leaf, hr'⟩ := hfile r (hl.below r hr)
    rw [nameAndInum, nameAndInum, hr']
  refine ⟨⟨?_, fun r hr => Nat.lt_of_lt_of_le (hl.below r hr) h.count⟩, fun r q' hq' => ?_,
    fun r hr => ?_, fun r hr => ?_, ?_⟩
  · rw [h.leaf q hq hne]
    refine (Seg.congr fun r hr => ?_).mp hl.chain
    obtain ⟨leaf, hr'⟩ := hfile r (hl.below r hr)
    rw [hr']
  · obtain ⟨leaf, hq''⟩ := hfile q' (hl.below q' hq')
    rw [hq'']
    refine (hl.prev r q' hq').trans (and_congr_right fun hr => ?_)
    obtain ⟨leaf, hr'⟩ := hfile r (hl.below r hr)
    rw [hr']
  · obtain ⟨leaf, hr'⟩ := hfile r (hl.below r hr)
    rw [hr']
    exact hl.parent r hr
  · obtain ⟨leaf, hr'⟩ := hfile r (hl.below r hr)
    rw [hname r hr, hr']
    exact hl.named r hr
  · rw [List.map_congr_left fun r hr => congrArg Prod.fst (hname r hr)]
    exact hl.distinct

/-- Nothing is new when the records of a directory that is listed are gone through. -/
theorem Listed.grown_same {l' : List ℕ} (h : fs.Listed tree p l)
    (hgrown : Grown fs fs' p l (tree.entries (fs.file p).inum) l') : fs' = fs := by
  refine hgrown.same fun e he => ?_
  have hknown : Skipped e.1 ∨
      e.1 ∈ (cacheAll [] (tree.entries (fs.file p).inum)).map Prod.fst := known_addAll he
  rwa [← h.cached, List.map_map] at hknown

/-- When the records of an open directory have been gone through, they are its children. -/
theorem Nodes.grown {l' : List ℕ} (h : fs.Nodes tree) (hp : p < fs.count)
    (hopened : (fs.file p).opened) (hl : fs.Children p l)
    (hgrown : Grown fs fs' p l (tree.entries (fs.file p).inum) l') :
    fs'.Nodes tree ∧ Keeps fs fs' tree ∧ fs'.Listed tree p l' := by
  by_cases hlisted : ∃ l₀, fs.Listed tree p l₀
  · obtain ⟨l₀, hl₀⟩ := hlisted
    obtain rfl := hl.chain.unique hl₀.children.chain
    have hchildren := hgrown.children
    rw [hl₀.grown_same hgrown] at hchildren ⊢
    obtain rfl := hl.chain.unique hchildren.chain
    exact ⟨h, .refl fs tree, hl₀⟩
  have hnil : l = [] := by
    rcases (h.node p hp).children with hnil | hlisted'
    · exact hl.chain.unique hnil.chain
    · exact absurd hlisted' hlisted
  subst hnil
  have hframe := hgrown.frame
  have hread (q : ℕ) (hq : q < fs.count) : (fs'.file q).inum = (fs.file q).inum ∧
      (fs'.file q).opened = (fs.file q).opened ∧ (fs'.file q).parent = (fs.file q).parent ∧
        fs'.nameAndInum q = fs.nameAndInum q ∧
          (FromDisk tree (fs.file q) → FromDisk tree (fs'.file q)) := by
    obtain ⟨leaf, prev, hfile⟩ := hframe.file q hq
    rw [nameAndInum, nameAndInum, hfile]
    exact ⟨rfl, rfl, rfl, rfl, fun hdisk => ⟨hdisk.inode, hdisk.opened⟩⟩
  have hkept (q : ℕ) (hq : q < fs.count) (l : List ℕ) (hl : fs.Listed tree q l) :
      fs'.Listed tree q l := by
    have hne : q ≠ p := fun heq => hlisted ⟨l, heq ▸ hl⟩
    obtain ⟨hinum, hopened, -⟩ := hread q hq
    refine ⟨hopened ▸ hl.opened, hframe.children hq hne hl.children, hl.newer, ?_⟩
    rw [List.map_congr_left fun r hr => (hread r (hl.children.below r hr)).2.2.2.1, hinum]
    exact hl.cached
  obtain ⟨hinum, hopened', -⟩ := hread p hp
  have hnew : fs'.Listed tree p l' := by
    refine ⟨hopened' ▸ hopened, hgrown.children, fun q hq => ?_, ?_⟩
    · by_contra hle
      exact absurd (hgrown.kept q (by omega) hq) List.not_mem_nil
    · rw [hinum]
      exact hgrown.cached
  obtain ⟨hrootInum, -, hrootParent, -⟩ := hread fs.gRootFile h.rootLt
  refine ⟨⟨fun q hq => ?_, ?_, ?_, ?_⟩, ⟨hframe.count, hframe.gRootFile,
    fun q hq => (hread q hq).2.2.2.1, fun q hq => (hread q hq).2.2.1, hkept⟩, hnew⟩
  · by_cases hold : q < fs.count
    · refine ⟨(hread q hold).2.2.2.2 (h.node q hold).fromDisk, ?_⟩
      by_cases hqp : q = p
      · subst hqp
        exact .inr ⟨l', hnew⟩
      · exact (h.node q hold).children.imp (hframe.children hold hqp)
          (Exists.imp (hkept q hold))
    · have hge := Nat.le_of_not_lt hold
      obtain ⟨hinode, hclosed, hleaf⟩ := hframe.fresh q hge hq
      have hqp : q ≠ p := fun heq => hold (heq ▸ hp)
      refine ⟨⟨fun inode hsome => ?_, fun hopen => ?_⟩, .inl (children_nil (hleaf hqp))⟩
      · rw [hinode] at hsome
        cases hsome
      · rw [hclosed] at hopen
        cases hopen
  · rw [hframe.gRootFile]
    exact Nat.lt_of_lt_of_le h.rootLt hframe.count
  · rw [hframe.gRootFile, hrootInum]
    exact h.rootInum
  · rw [hframe.gRootFile, hrootParent]
    exact h.rootParent

/-- The children of a file are at most as many as its records. -/
theorem Node.length_children (h : fs.Node tree p) (hopens : tree.disk.opens (fs.file p).inum)
    (hl : fs.Children p l) : l.length < 2 ^ 29 := by
  rcases h.children with hnil | ⟨l', hlisted⟩
  · rw [hl.chain.unique hnil.chain, List.length_nil]
    exact Nat.two_pow_pos 29
  · have hle : (cacheAll [] (tree.entries (fs.file p).inum)).length ≤ _ :=
      length_addAll_le [] (tree.entries (fs.file p).inum)
    rw [ ← hlisted.cached, List.length_map, List.length_nil, Nat.zero_add,
      ← hl.chain.unique hlisted.children.chain] at hle
    exact Nat.lt_of_le_of_lt hle (tree.length_entries hopens)

theorem Node.exists_children (h : fs.Node tree p) : ∃ l, fs.Children p l :=
  h.children.elim (fun hnil => ⟨[], hnil⟩) fun ⟨l, hlisted⟩ => ⟨l, hlisted.children⟩

/-- `BrowseAndCacheDirectory` lists the children of a file that can be opened, and changes nothing if
they are listed. -/
theorem Nodes.browse_meets (h : fs.Nodes tree) (hp : p < fs.count)
    (hok : ∀ directory, AllowsDirectory c directory) (hfuel : 2 ^ 32 ≤ fuel) :
    Traced.Meets c (browseAndCacheDirectory fuel tree.disk fs (some p)) fun r =>
      r.2.Nodes tree ∧ Keeps fs r.2 tree ∧ (∀ l, fs.Listed tree p l → r.2 = fs) ∧
        if tree.disk.opens (fs.file p).inum then ∃ l, r.2.Listed tree p l else r.1.failed := by
  have hnode := h.node p hp
  cases hopens : tree.disk.opens (fs.file p).inum with
  | false =>
    have hnot (l : List ℕ) (hl : fs.Listed tree p l) (fs' : FsFiles) : fs' = fs := by
      have hopens' := hnode.fromDisk.opens hl.opened
      rw [hopens] at hopens'
      exact absurd hopens' Bool.false_ne_true
    simp only [Bool.false_eq_true, if_false]
    rw [browseAndCacheDirectory]
    rcases hnode.readMissingInode with ⟨status, hread, hmissing⟩ | ⟨inode, hread, hmissing⟩
    · have hfailed := tree.inodeError hread
      simp only [hmissing, hfailed, if_true]
      exact Traced.Meets.pure ⟨h, .refl fs tree, fun _ _ => rfl, hfailed⟩
    · obtain ⟨hnodes, hkeeps⟩ := h.hasInode hp hread
      obtain ⟨hfailed, hnodes', hkeeps'⟩ := hnodes.openClosed_failed hp (by simpa using hopens)
      have hsuccess : Status.statusSuccess.failed = false := rfl
      simp only [hmissing, hsuccess, Bool.false_eq_true, if_false, hfailed, if_true]
      exact Traced.Meets.pure ⟨hnodes', hkeeps.trans hkeeps', fun l hl => hnot l hl _, hfailed⟩
  | true =>
    obtain ⟨inode, content, hgives⟩ := DiskReads.opens_iff.mp hopens
    obtain ⟨hopen, -⟩ := hnode.opens hgives
    obtain ⟨hnodes, hkeeps⟩ := h.withContent hgives
    have hinum : ((fs.withContent p inode content).file p).inum = (fs.file p).inum := by
      simp [FsFiles.withContent]
    have hopened : ((fs.withContent p inode content).file p).opened := by
      simp [FsFiles.withContent]
    obtain ⟨l, hl⟩ := hnode.exists_children
    have hl' := (sameTree_withContent fs p inode content).children hl
    simp only [if_true]
    by_cases hmode : inode.mode &&& ext2SIfdir = 0
    · rw [hopen.browse_other hmode]
      have hgrown := hl'.grown
      rw [← tree.other hgives hmode, ← hinum] at hgrown
      exact Traced.Meets.pure ⟨hnodes, hkeeps, fun _ hlisted =>
        hnode.withContent_same hgives hlisted.opened, l, (hnodes.grown hp hopened hl' hgrown).2.2⟩
    · obtain ⟨hfits, places, htiles, hentries⟩ := tree.directory hgives hmode
      have hlength := hnode.length_children hopens hl
      have hlength' := htiles.length_le
      refine (hopen.browse_meets hmode hl hp (hok p) hfits htiles (by omega)).mono ?_
      rintro r ⟨-, l', hgrown⟩
      rw [hentries, ← hinum] at hgrown
      obtain ⟨hnodes', hkeeps', hlisted⟩ := hnodes.grown hp hopened hl' hgrown
      refine ⟨hnodes', hkeeps.trans hkeeps', fun l₀ hl₀ => ?_, l', hlisted⟩
      have hsame := hnode.withContent_same hgives hl₀.opened
      rw [hsame, hl.chain.unique hl₀.children.chain] at hgrown
      exact hl₀.grown_same hgrown

/-! ## The root directory, and places in the tree -/

/-- The root directory before it is browsed. -/
def rootOnly (inode : Inode) : FsFiles :=
  (empty.create { inum := ext2RootInodeNumber, inode := some inode }).modify 0 fun f =>
    { f with name := some [slash], parent := some 0 }

theorem rootOnly_nodes {inode : Inode}
    (hread : tree.disk.ext2ReadInode ext2RootInodeNumber = .ok inode) :
    (rootOnly inode).Nodes tree := by
  have hroot : (rootOnly inode).file 0 =
      { inum := ext2RootInodeNumber, inode := some inode, name := some [slash], parent := some 0 } := by
    simp [rootOnly, create, empty]
  refine ⟨fun p hp => ?_, Nat.one_pos, congrArg File.inum hroot, congrArg File.parent hroot⟩
  obtain rfl : p = 0 := Nat.lt_one_iff.mp hp
  refine ⟨?_, .inl (children_nil (by rw [hroot]))⟩
  rw [hroot]
  refine ⟨fun i hi => ?_, fun hopened => absurd hopened Bool.false_ne_true⟩
  obtain rfl : inode = i := Option.some.inj hi
  exact hread

/-- After a successful `InitRoot` the root directory has been browsed. -/
theorem initRoot_nodes (hfuel : 2 ^ 32 ≤ fuel)
    (hret : (initRoot fuel tree.disk empty).outcome = .ret (.statusSuccess, fs)) :
    fs.Nodes tree ∧ ∃ l, fs.Listed tree fs.gRootFile l := by
  rw [initRoot] at hret
  rcases hread : tree.disk.ext2ReadInode ext2RootInodeNumber with status | inode
  · have hfailed := tree.inodeError hread
    rw [hread] at hret
    cases hret
    exact absurd hfailed (by decide)
  · have hnodes := rootOnly_nodes hread
    have hok : ∀ directory, AllowsDirectory anything directory := fun _ _ => trivial
    rw [hread] at hret
    obtain ⟨hnodes', hkeeps, -, hlisted⟩ := (hnodes.browse_meets hnodes.rootLt hok hfuel).ret _ hret
    rw [← hkeeps.gRootFile] at hlisted
    refine ⟨hnodes', ?_⟩
    split at hlisted
    · exact hlisted
    · exact absurd hlisted (show ¬Status.statusSuccess.failed by decide)

/-- A file is found at a place by going through lists of children from the root. -/
def At (fs : FsFiles) : Place → ℕ → Prop
  | [], p => p = fs.gRootFile
  | e :: place, p => ∃ d, fs.At place d ∧ fs.IsChild d p ∧ fs.nameAndInum p = e

variable {place : Place}

theorem Nodes.at_lt (h : fs.Nodes tree) (hat : fs.At place p) : p < fs.count := by
  cases place with
  | nil => exact (show p = fs.gRootFile from hat) ▸ h.rootLt
  | cons e place =>
    obtain ⟨d, -, ⟨l, hl, hmem⟩, -⟩ := hat
    exact hl.below p hmem

theorem Nodes.at_inum (h : fs.Nodes tree) (hat : fs.At place p) : (fs.file p).inum = inumOf place := by
  cases place with
  | nil =>
    obtain rfl : p = fs.gRootFile := hat
    exact h.rootInum
  | cons e place =>
    obtain ⟨d, -, -, rfl⟩ := hat
    rfl

/-- The directory that a file is in. -/
theorem Nodes.at_cons (h : fs.Nodes tree) {e : List U8 × U32} (hat : fs.At (e :: place) p) :
    ∃ d l, fs.At place d ∧ fs.Listed tree d l ∧ p ∈ l ∧ fs.nameAndInum p = e := by
  obtain ⟨d, hd, hchild, hname⟩ := hat
  obtain ⟨l, hl, hmem⟩ := h.listed_of_isChild (h.at_lt hd) hchild
  exact ⟨d, l, hd, hl, hmem, hname⟩

/-- There is one file at a place. -/
theorem Nodes.at_inj (h : fs.Nodes tree) (hat : fs.At place p) (hat' : fs.At place q) : p = q := by
  induction place generalizing p q with
  | nil => exact Eq.trans hat (Eq.symm hat')
  | cons e place ih =>
    obtain ⟨d, l, hd, hl, hmem, rfl⟩ := h.at_cons hat
    obtain ⟨d', l', hd', hl', hmem', hname⟩ := h.at_cons hat'
    obtain rfl : d = d' := ih hd hd'
    obtain rfl := hl.children.chain.unique hl'.children.chain
    -- the names of the children are different
    exact (List.inj_on_of_nodup_map hl.children.distinct hmem' hmem (congrArg Prod.fst hname)).symm

/-- Files stay at their places. -/
theorem Keeps.at (hkeeps : Keeps fs fs' tree) (h : fs.Nodes tree) (hat : fs.At place p) :
    fs'.At place p := by
  induction place generalizing p with
  | nil => exact Eq.trans hat hkeeps.gRootFile.symm
  | cons e place ih =>
    obtain ⟨d, l, hd, hl, hmem, hname⟩ := h.at_cons hat
    have hl' := hkeeps.listed d (h.at_lt hd) l hl
    exact ⟨d, ih hd, hl'.isChild_iff.mpr hmem, (hkeeps.nameAndInum p (h.at_lt hat)).trans hname⟩

/-- The parent of a file is the directory above, and the root is its own parent. -/
theorem Nodes.at_parent (h : fs.Nodes tree) (hat : fs.At place p) (hl : fs.Listed tree p l) :
    ∃ d l', (fs.file p).parent = some d ∧ fs.At place.tail d ∧ fs.Listed tree d l' := by
  cases place with
  | nil =>
    obtain rfl : p = fs.gRootFile := hat
    exact ⟨fs.gRootFile, l, h.rootParent, rfl, hl⟩
  | cons e place =>
    obtain ⟨d, l', hd, hl', hmem, -⟩ := h.at_cons hat
    exact ⟨d, l', hl'.children.parent p hmem, hd, hl'⟩

/-- A file is at one place only. -/
theorem Nodes.at_unique (h : fs.Nodes tree) {place' : Place} (hat : fs.At place p)
    (hat' : fs.At place' p) : place = place' := by
  induction place generalizing p place' with
  | nil =>
    obtain rfl : p = fs.gRootFile := hat
    cases place' with
    | nil => rfl
    | cons e place' =>
      -- the root would be newer than itself
      obtain ⟨d, l, -, hl, hmem, -⟩ := h.at_cons hat'
      have hparent := (h.rootParent).symm.trans (hl.children.parent _ hmem)
      have hlt := hl.newer _ hmem
      rw [Option.some_inj] at hparent
      omega
  | cons e place ih =>
    obtain ⟨d, l, hd, hl, hmem, rfl⟩ := h.at_cons hat
    have hparent := hl.children.parent p hmem
    cases place' with
    | nil =>
      obtain rfl : p = fs.gRootFile := hat'
      have hroot := (h.rootParent).symm.trans hparent
      have hlt := hl.newer _ hmem
      rw [Option.some_inj] at hroot
      omega
    | cons e' place' =>
      obtain ⟨d', l', hd', hl', hmem', rfl⟩ := h.at_cons hat'
      obtain rfl : d = d' := Option.some.inj (hparent.symm.trans (hl'.children.parent p hmem'))
      rw [ih hd hd']

end FsFiles

end LtMicros
