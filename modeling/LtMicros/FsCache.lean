import LtMicros.Lib.Keyed
import LtMicros.Lib.Run
import LtMicros.FsDirectory

/-!
# The children of a directory

What a directory whose entries tile its content has as children after it has been browsed: a
doubly linked list with one child for each name, in the order opposite to that of the entries. An
entry without an inode is not told from the others.
-/

namespace LtMicros

open Lib CString

/-- From a place on, there are entries at the places of a list, up to the end of the content. Each
is long enough for its name. -/
def EntriesTile (bytes : Bytes) (size : ℕ) : ℕ → List ℕ → Prop
  | place, [] => place = size
  | place, entry :: entries => entry = place ∧
      8 + nameLenAt bytes entry ≤ recLenAt bytes entry ∧
      EntriesTile bytes size (place + recLenAt bytes entry) entries

theorem EntriesTile.le {bytes : Bytes} {size place : ℕ} {entries : List ℕ}
    (h : EntriesTile bytes size place entries) : place ≤ size := by
  induction entries generalizing place with
  | nil => exact Nat.le_of_eq h
  | cons entry entries ih => exact Nat.le_trans (Nat.le_add_right _ _) (ih h.2.2)

theorem EntriesTile.length_le {bytes : Bytes} {size place : ℕ} {entries : List ℕ}
    (h : EntriesTile bytes size place entries) : place + 8 * entries.length ≤ size := by
  induction entries generalizing place with
  | nil => exact Nat.le_of_eq h
  | cons entry entries ih =>
    obtain ⟨rfl, hname, htiles⟩ := h
    have hrest := ih htiles
    rw [List.length_cons]
    omega

/-- The name and the inode number of an entry. -/
def entryAt (bytes : Bytes) (entry : ℕ) : List U8 × U32 :=
  (upToZero (nameBytesAt bytes entry), inodeAt bytes entry)

namespace FsFiles

/-- The entries whose names are new become children, the last one in front. -/
def cacheAll (children entries : List (List U8 × U32)) : List (List U8 × U32) :=
  addAll Prod.fst Skipped children entries

/-- The name and the inode number of a file. -/
def nameAndInum (fs : FsFiles) (p : ℕ) : List U8 × U32 :=
  (upToZero ((fs.file p).name.getD []), (fs.file p).inum)

/-- The children of a directory are a finite list that is linked in both directions. All of them
have the directory as their parent, and each has a name of its own. -/
structure Children (fs : FsFiles) (directory : ℕ) (l : List ℕ) : Prop
    extends Siblings fs directory l where
  prev : ∀ p, ∀ q ∈ l, (fs.file q).prev = some p ↔ p ∈ l ∧ (fs.file p).next = some q
  parent : ∀ p ∈ l, (fs.file p).parent = some directory
  named : ∀ p ∈ l, (fs.file p).name ≠ none ∧ ¬Skipped (fs.nameAndInum p).1
  distinct : (l.map fun p => (fs.nameAndInum p).1).Nodup

variable {c : Traced.Contract FsRead} {directory size place entry fuel : ℕ} {l entries : List ℕ}
  {content : FileContent} {inode : Inode} {disk : DiskReads} {fs fs' : FsFiles}

/-- Names are never empty, so that `StrCmp` tells them apart. -/
theorem Children.nameMatches_iff (h : fs.Children directory l) {s : List U8} (hs : s ≠ []) {p : ℕ}
    (hp : p ∈ l) : fs.nameMatches s p ↔ (fs.nameAndInum p).1 = s := by
  obtain ⟨hname, hskip⟩ := h.named p hp
  obtain ⟨name, hname⟩ := Option.ne_none_iff_exists'.mp hname
  have hne : (fs.nameAndInum p).1 ≠ [] := fun heq => hskip (.inl heq)
  simp only [nameAndInum, hname, Option.getD_some] at hne ⊢
  simp [nameMatches, hname, hne, hs]

/-- A name is found exactly when a child has it. -/
theorem Children.find_ne_none (h : fs.Children directory l) {s : List U8} (hs : s ≠ []) :
    l.find? (fs.nameMatches s) ≠ none ↔ s ∈ l.map fun p => (fs.nameAndInum p).1 := by
  rw [ne_eq, List.find?_eq_none, List.mem_map]
  constructor
  · intro hfound
    push Not at hfound
    obtain ⟨p, hp, hps⟩ := hfound
    exact ⟨p, hp, (h.nameMatches_iff hs hp).mp (by simpa using hps)⟩
  · rintro ⟨p, hp, hps⟩ hall
    exact hall p hp ((h.nameMatches_iff hs hp).mpr hps)

/-- Everything but the children of the directory, and the links between them, is as it was. New
files are closed. -/
structure Frame (fs fs' : FsFiles) (directory : ℕ) (l : List ℕ) : Prop where
  count : fs.count ≤ fs'.count
  gRootFile : fs'.gRootFile = fs.gRootFile
  file : ∀ p < fs.count, ∃ leaf prev, fs'.file p = { fs.file p with leaf, prev }
  leaf : ∀ p < fs.count, p ≠ directory → (fs'.file p).leaf = (fs.file p).leaf
  prev : ∀ p < fs.count, p ∉ l → (fs'.file p).prev = (fs.file p).prev
  fresh : ∀ p, fs.count ≤ p → p < fs'.count → (fs'.file p).inode = none ∧
    (fs'.file p).opened = false ∧ (p ≠ directory → (fs'.file p).leaf = none)

theorem Frame.refl (fs : FsFiles) (directory : ℕ) (l : List ℕ) : Frame fs fs directory l :=
  ⟨le_rfl, rfl, fun _ _ => ⟨_, _, rfl⟩, fun _ _ _ => rfl, fun _ _ _ => rfl,
    fun _ hle hlt => absurd hlt (Nat.not_lt.mpr hle)⟩

theorem Frame.trans {fs'' : FsFiles} {l' : List ℕ} (h : Frame fs fs' directory l)
    (h' : Frame fs' fs'' directory l') (hl : ∀ p < fs.count, p ∈ l' → p ∈ l) :
    Frame fs fs'' directory l := by
  have hlt (p : ℕ) (hp : p < fs.count) : p < fs'.count := Nat.lt_of_lt_of_le hp h.count
  refine ⟨h.count.trans h'.count, h'.gRootFile.trans h.gRootFile, fun p hp => ?_,
    fun p hp hne => ?_, fun p hp hnot => ?_, fun p hle hp => ?_⟩
  · obtain ⟨leaf, prev, hfile⟩ := h.file p hp
    obtain ⟨leaf', prev', hfile'⟩ := h'.file p (hlt p hp)
    exact ⟨leaf', prev', by rw [hfile', hfile]⟩
  · rw [h'.leaf p (hlt p hp) hne, h.leaf p hp hne]
  · rw [h'.prev p (hlt p hp) fun hmem => hnot (hl p hp hmem), h.prev p hp hnot]
  · by_cases hp' : p < fs'.count
    · obtain ⟨hinode, hopened, hleaf⟩ := h.fresh p hle hp'
      obtain ⟨leaf, prev, hfile⟩ := h'.file p hp'
      refine ⟨by rw [hfile, hinode], by rw [hfile, hopened], fun hne => ?_⟩
      rw [h'.leaf p hp' hne, hleaf hne]
    · exact h'.fresh p (Nat.le_of_not_lt hp') hp

theorem Frame.addLeaf (hl : fs.Siblings directory l) (hdir : directory < fs.count) (inum : U32)
    (fileName : List U8) : Frame fs (fs.addLeaf directory inum fileName) directory l := by
  have hfile := addLeaf_file inum fileName hdir hl.leaf_lt
  refine ⟨by simp, by simp, fun p hp => ?_, fun p hp hne => ?_, fun p hp hnot => ?_,
    fun p hle hp => ?_⟩
  · rw [hfile, if_neg (Nat.ne_of_lt hp)]
    exact ⟨_, _, rfl⟩
  · rw [hfile, if_neg (Nat.ne_of_lt hp)]
    exact if_neg hne
  · rw [hfile, if_neg (Nat.ne_of_lt hp)]
    apply if_neg
    intro hleaf
    obtain ⟨rest, rfl, -⟩ := hl.chain.chain_cons hleaf.symm
    exact hnot List.mem_cons_self
  · obtain rfl : p = fs.count := by
      rw [addLeaf_count] at hp
      omega
    rw [hfile, if_pos rfl]
    exact ⟨rfl, rfl, fun _ => rfl⟩

/-- A file with a new name becomes the first child. -/
theorem Children.addLeaf {fileName : List U8} (h : fs.Children directory l)
    (hdir : directory < fs.count) (inum : U32) (hskip : ¬Skipped (upToZero fileName))
    (hnew : upToZero fileName ∉ l.map fun p => (fs.nameAndInum p).1) :
    (fs.addLeaf directory inum fileName).Children directory (fs.count :: l) ∧
      (fs.count :: l).map (fs.addLeaf directory inum fileName).nameAndInum =
        (upToZero fileName, inum) :: l.map fs.nameAndInum := by
  have hfile := addLeaf_file inum fileName hdir h.leaf_lt
  have hframe := Frame.addLeaf h.toSiblings hdir inum fileName
  have hsame (p : ℕ) (hp : p ∈ l) :
      (fs.addLeaf directory inum fileName).nameAndInum p = fs.nameAndInum p := by
    obtain ⟨leaf, prev, hp'⟩ := hframe.file p (h.below p hp)
    rw [nameAndInum, nameAndInum, hp']
  have hself : (fs.addLeaf directory inum fileName).nameAndInum fs.count =
      (upToZero fileName, inum) := by
    rw [nameAndInum, hfile, if_pos rfl]
    rfl
  have hpairs : (fs.count :: l).map (fs.addLeaf directory inum fileName).nameAndInum =
      (upToZero fileName, inum) :: l.map fs.nameAndInum := by
    rw [List.map_cons, hself, List.map_congr_left hsame]
  refine ⟨⟨h.toSiblings.addLeaf hdir inum fileName, ?_, ?_, ?_, ?_⟩, hpairs⟩
  · intro p q hq
    have hfresh (p : ℕ) (hp : p ∈ l) : p ≠ fs.count := Nat.ne_of_lt (h.below p hp)
    rcases List.mem_cons.mp hq with rfl | hq
    · -- nothing comes before the new file
      have hno : ¬(p ∈ fs.count :: l ∧
          ((fs.addLeaf directory inum fileName).file p).next = some fs.count) := by
        rintro ⟨hp, hnext⟩
        rw [hfile] at hnext
        rcases List.mem_cons.mp hp with rfl | hp
        · rw [if_pos rfl] at hnext
          exact Nat.lt_irrefl _ (h.leaf_lt _ hnext)
        · rw [if_neg (hfresh p hp)] at hnext
          exact hfresh _ (h.chain.next_mem hp hnext) rfl
      simp only [hno, iff_false]
      rw [hfile, if_pos rfl]
      exact nofun
    rw [hfile, if_neg (hfresh q hq), hfile, List.mem_cons]
    dsimp only
    by_cases hfirst : some q = (fs.file directory).leaf
    · have hno (hp : p ∈ l) : (fs.file p).next ≠ some q := Seg.next_ne_head (hfirst ▸ h.chain) hp
      rw [if_pos hfirst]
      by_cases hp : p = fs.count
      · subst hp
        simp [hfirst]
      · rw [if_neg hp]
        have hne : some fs.count ≠ some p := fun heq => hp (Option.some.inj heq).symm
        simp only [hne, hp, false_or, false_iff, not_and]
        exact hno
    · rw [if_neg hfirst, h.prev p q hq]
      by_cases hp : p = fs.count
      · subst hp
        have hnot : fs.count ∉ l := fun hmem => hfresh _ hmem rfl
        rw [if_pos rfl]
        simp [hnot, Ne.symm hfirst]
      · simp [hp]
  · intro p hp
    rw [hfile]
    rcases List.mem_cons.mp hp with rfl | hp
    · rw [if_pos rfl]
    · rw [if_neg (Nat.ne_of_lt (h.below p hp))]
      exact h.parent p hp
  · intro p hp
    rcases List.mem_cons.mp hp with rfl | hp
    · rw [hself, hfile, if_pos rfl]
      exact ⟨by simp, hskip⟩
    · rw [hsame p hp, hfile, if_neg (Nat.ne_of_lt (h.below p hp))]
      exact h.named p hp
  · have hnames : (fs.count :: l).map (fun p => ((fs.addLeaf directory inum fileName).nameAndInum p).1) =
        upToZero fileName :: l.map fun p => (fs.nameAndInum p).1 := by
      simpa [List.map_map, Function.comp_def] using congrArg (List.map Prod.fst) hpairs
    rw [hnames, List.nodup_cons]
    exact ⟨hnew, h.distinct⟩

/-- The files after some entries of a directory with the children `l` have been gone through. -/
structure Grown (fs fs' : FsFiles) (directory : ℕ) (l : List ℕ) (entries : List (List U8 × U32))
    (l' : List ℕ) : Prop where
  children : fs'.Children directory l'
  cached : l'.map fs'.nameAndInum = cacheAll (l.map fs.nameAndInum) entries
  frame : Frame fs fs' directory l
  kept : ∀ p < fs.count, p ∈ l' → p ∈ l
  length : l'.length ≤ l.length + entries.length
  same : (∀ e ∈ entries, Skipped e.1 ∨ e.1 ∈ l.map fun p => (fs.nameAndInum p).1) → fs' = fs

theorem Children.grown (h : fs.Children directory l) : Grown fs fs directory l [] l :=
  ⟨h, rfl, .refl _ _ _, fun _ _ => id, le_rfl, fun _ => rfl⟩

theorem Children.withEntry (h : fs.Children directory l) (hdir : directory < fs.count) (inum : U32)
    (fileName : List U8) :
    ∃ l', Grown fs (fs.withEntry directory l inum fileName) directory l
      [(upToZero fileName, inum)] l' := by
  have hnames : (l.map fs.nameAndInum).map Prod.fst = l.map fun p => (fs.nameAndInum p).1 := by
    simp [List.map_map, Function.comp_def]
  have hknown : (Skipped (upToZero fileName) ∨
      l.find? (fs.nameMatches (upToZero fileName)) ≠ none) ↔
      Skipped (upToZero fileName) ∨ upToZero fileName ∈ l.map fun p => (fs.nameAndInum p).1 :=
    or_congr_right' fun hskip => h.find_ne_none fun hnil => hskip (.inl hnil)
  rw [FsFiles.withEntry]
  by_cases hold : Skipped (upToZero fileName) ∨
      upToZero fileName ∈ l.map fun p => (fs.nameAndInum p).1
  · rw [if_pos (hknown.mpr hold)]
    refine ⟨l, h, ?_, .refl _ _ _, fun _ _ => id, by simp, fun _ => rfl⟩
    rw [cacheAll, addAll_cons, addAll_nil, addNew_of_known (by rwa [hnames])]
  · rw [if_neg (mt hknown.mp hold)]
    obtain ⟨hchildren, hpairs⟩ := h.addLeaf hdir inum (fun hskip => hold (.inl hskip))
      fun hmem => hold (.inr hmem)
    refine ⟨_, hchildren, ?_, .addLeaf h.toSiblings hdir inum fileName, fun p hp hmem => ?_, by simp,
      fun hall => absurd (hall _ List.mem_cons_self) hold⟩
    · rw [hpairs, cacheAll, addAll_cons, addAll_nil, addNew_of_new (by rwa [hnames])]
    · exact (List.mem_cons.mp hmem).resolve_left (Nat.ne_of_lt hp)

theorem Grown.trans {fs'' : FsFiles} {l' l'' : List ℕ} {before behind : List (List U8 × U32)}
    (h : Grown fs fs' directory l before l') (h' : Grown fs' fs'' directory l' behind l'') :
    Grown fs fs'' directory l (before ++ behind) l'' := by
  have hnames (fs : FsFiles) (l : List ℕ) :
      (l.map fs.nameAndInum).map Prod.fst = l.map fun p => (fs.nameAndInum p).1 := by
    simp [List.map_map, Function.comp_def]
  refine ⟨h'.children, ?_, h.frame.trans h'.frame h.kept, fun p hp hmem => ?_, ?_, fun hall => ?_⟩
  · rw [h'.cached, h.cached]
    exact (List.foldl_append).symm
  · exact h.kept p hp (h'.kept p (Nat.lt_of_lt_of_le hp h.frame.count) hmem)
  · have := h.length
    have := h'.length
    rw [List.length_append]
    omega
  · have hfirst := h.same fun e he => hall e (List.mem_append_left _ he)
    refine (h'.same fun e he => (hall e (List.mem_append_right _ he)).imp_right fun hmem => ?_).trans
      hfirst
    rw [← hnames] at hmem ⊢
    rw [h.cached]
    exact ((addAll_sublist _ _).map _).subset hmem

/-- The content of a directory may be read. -/
def AllowsDirectory (c : Traced.Contract FsRead) (directory : ℕ) : Prop :=
  ∀ i, c.ok (.content directory i)

theorem AllowsDirectory.reads (h : AllowsDirectory c directory) (index n : ℕ) :
    AllowsContent c directory index n := fun i _ => h (index + i)

/-- The loop of `BrowseAndCacheDirectory` goes through all entries that tile the content. -/
theorem Children.loop_meets (h : fs.Children directory l) (hdir : directory < fs.count)
    (hok : AllowsDirectory c directory) (hfits : content.address + size < 2 ^ 32)
    (htiles : EntriesTile content.bytes size place entries)
    (hfuel : l.length + entries.length + 2 ^ 8 ≤ fuel) {n : ℕ} (hn : entries.length < n) :
    Traced.Meets c (Traced.loop (browseTurn fuel directory content) n (size - place, place, fs))
      fun r => r.1 = .statusSuccess ∧
        ∃ l', Grown fs r.2 directory l (entries.map (entryAt content.bytes)) l' := by
  induction entries generalizing fs l place n with
  | nil =>
    obtain ⟨k, rfl⟩ := Nat.exists_eq_add_of_lt hn
    obtain rfl : place = size := htiles
    rw [Nat.sub_self]
    refine Traced.Meets.bind (P := fun r => r = .inr (.statusSuccess, fs)) (by
      rw [browseTurn, if_pos rfl]
      exact Traced.Meets.pure rfl) fun r hr => ?_
    subst hr
    exact Traced.Meets.pure ⟨rfl, l, h.grown⟩
  | cons entry entries ih =>
    obtain ⟨k, rfl⟩ : ∃ k, n = k + 1 := ⟨n - 1, by simp at hn; omega⟩
    obtain ⟨rfl, hname, hrest⟩ := htiles
    have hle := hrest.le
    have hrec : recLenAt content.bytes entry ≠ 0 := by omega
    simp only [List.length_cons] at hfuel hn
    refine (browseTurn_meets h.toSiblings (by omega) (by omega) (by omega)
      ⟨hok.reads _ _, fun _ => hok.reads _ _⟩).bind fun r hr => ?_
    obtain ⟨l', hgrown⟩ := h.withEntry hdir (inodeAt content.bytes entry)
      (nameBytesAt content.bytes entry)
    have hlen := hgrown.length
    have hdir' := Nat.lt_of_lt_of_le hdir hgrown.frame.count
    rw [if_neg hrec, turned, add32_of_lt (by omega : entry + recLenAt content.bytes entry < 2 ^ 32),
      add32_of_lt (by omega), if_neg (by omega), sub32_of_le (by omega) (by omega), Nat.sub_sub] at hr
    subst hr
    refine (ih hgrown.children hdir' hrest ?_ (by omega)).mono ?_
    · simp only [List.length_cons, List.length_nil] at hlen
      omega
    · rintro r ⟨hstatus, l'', hgrown'⟩
      exact ⟨hstatus, l'', hgrown.trans hgrown'⟩

/-! ## Browsing a directory -/

theorem SameTree.nameAndInum (h : SameTree fs fs') : fs'.nameAndInum = fs.nameAndInum := by
  funext p
  obtain ⟨_, _, _, hfile⟩ := h.file p
  rw [FsFiles.nameAndInum, FsFiles.nameAndInum, hfile]

theorem SameTree.children (h : SameTree fs fs') (hl : fs.Children directory l) :
    fs'.Children directory l := by
  refine ⟨h.siblings hl.toSiblings, fun p q hq => ?_, fun p hp => ?_, fun p hp => ?_, ?_⟩
  · obtain ⟨_, _, _, hq'⟩ := h.file q
    obtain ⟨_, _, _, hp'⟩ := h.file p
    rw [hq', hp']
    exact hl.prev p q hq
  · obtain ⟨_, _, _, hp'⟩ := h.file p
    rw [hp']
    exact hl.parent p hp
  · obtain ⟨_, _, _, hp'⟩ := h.file p
    rw [h.nameAndInum, hp']
    exact hl.named p hp
  · rw [h.nameAndInum]
    exact hl.distinct

/-- `BrowseAndCacheDirectory` of a directory whose entries tile its content. -/
theorem Opens.browse_meets (h : fs.Opens disk directory inode content)
    (hmode : inode.mode &&& ext2SIfdir ≠ 0) (hl : fs.Children directory l)
    (hdir : directory < fs.count) (hok : AllowsDirectory c directory)
    (hfits : content.address + inode.size.toNat < 2 ^ 32)
    (htiles : EntriesTile content.bytes inode.size.toNat 0 entries)
    (hfuel : l.length + entries.length + 2 ^ 8 ≤ fuel) :
    Traced.Meets c (browseAndCacheDirectory fuel disk fs (some directory)) fun r =>
      r.1 = .statusSuccess ∧ ∃ l', Grown (fs.withContent directory inode content) r.2 directory l
        (entries.map (entryAt content.bytes)) l' := by
  rw [h.browse_eq hmode]
  have hl' := (sameTree_withContent fs directory inode content).children hl
  exact hl'.loop_meets hdir hok hfits htiles hfuel (by omega)

/-- A successful call of `BrowseAndCacheDirectory`. -/
def Browses (directory : ℕ) (fs : FsFiles) (call : ℕ × DiskReads) (fs' : FsFiles) : Prop :=
  2 ^ 32 ≤ call.1 ∧
    (browseAndCacheDirectory call.1 call.2 fs (some directory)).outcome = .ret (.statusSuccess, fs')

/-- The contract that allows everything. -/
def anything : Traced.Contract FsRead := ⟨fun _ => True, fun _ => False⟩

theorem children_nil (h : (fs.file directory).leaf = none) : fs.Children directory [] where
  chain := h
  below _ hp := absurd hp List.not_mem_nil
  prev _ _ hq := absurd hq List.not_mem_nil
  parent _ hp := absurd hp List.not_mem_nil
  named _ hp := absurd hp List.not_mem_nil
  distinct := List.nodup_nil

/-- A directory that is open and has all its entries among its children. -/
structure Browsed (fs : FsFiles) (directory : ℕ) (inode : Inode) (content : FileContent)
    (entries : List ℕ) (l : List ℕ) : Prop where
  hasInode : (fs.file directory).inode = some inode
  hasContent : (fs.file directory).content = some content
  opened : (fs.file directory).opened = true
  children : fs.Children directory l
  known : ∀ e ∈ entries.map (entryAt content.bytes),
    Skipped e.1 ∨ e.1 ∈ l.map fun p => (fs.nameAndInum p).1

theorem Grown.browsed {l' : List ℕ} (hdir : directory < fs.count)
    (h : Grown (fs.withContent directory inode content) fs' directory l
      (entries.map (entryAt content.bytes)) l') : Browsed fs' directory inode content entries l' := by
  obtain ⟨leaf, prev, hfile⟩ := h.frame.file directory hdir
  rw [FsFiles.withContent, modify_file_self] at hfile
  refine ⟨by rw [hfile], by rw [hfile], by rw [hfile], h.children, fun e he => ?_⟩
  have hknown : Skipped e.1 ∨ e.1 ∈ (cacheAll (l.map (fs.withContent directory inode
      content).nameAndInum) (entries.map (entryAt content.bytes))).map Prod.fst := known_addAll he
  rw [← h.cached, List.map_map] at hknown
  exact hknown

/-- Browsing it again changes nothing. -/
theorem Browsed.again (h : Browsed fs directory inode content entries l)
    (hmode : inode.mode &&& ext2SIfdir ≠ 0) (hdir : directory < fs.count)
    (hok : AllowsDirectory c directory) (hfits : content.address + inode.size.toNat < 2 ^ 32)
    (htiles : EntriesTile content.bytes inode.size.toNat 0 entries)
    (hfuel : l.length + entries.length + 2 ^ 8 ≤ fuel) :
    Traced.Meets c (browseAndCacheDirectory fuel disk fs (some directory)) fun r =>
      r = (.statusSuccess, fs) := by
  have hholds : fs.Opens disk directory inode content := ⟨.inl h.hasInode, .inl ⟨h.opened, h.hasContent⟩⟩
  have hsame : fs.withContent directory inode content = fs :=
    modify_of_eq (by rw [← h.hasInode, ← h.hasContent, ← h.opened])
  refine (hholds.browse_meets hmode h.children hdir hok hfits htiles hfuel).mono ?_
  rintro ⟨status, fs'⟩ ⟨rfl, l', hgrown⟩
  rw [hsame] at hgrown
  exact Prod.ext rfl (hgrown.same h.known)

/-- A first successful call browses the directory. -/
theorem Browses.browsed {fs₁ : FsFiles} (hfirst : Browses directory fs (fuel, disk) fs₁)
    (hdir : directory < fs.count) (hleaf : (fs.file directory).leaf = none)
    (h : fs.Opens disk directory inode content) (hmode : inode.mode &&& ext2SIfdir ≠ 0)
    (hfits : content.address + inode.size.toNat < 2 ^ 32)
    (htiles : EntriesTile content.bytes inode.size.toNat 0 entries) :
    directory < fs₁.count ∧ ∃ l, Browsed fs₁ directory inode content entries l ∧
      l.length ≤ entries.length ∧
      l.map fs₁.nameAndInum = cacheAll [] (entries.map (entryAt content.bytes)) := by
  obtain ⟨hfuel, hret⟩ := hfirst
  dsimp only at hfuel hret
  have hlen := htiles.length_le
  have hok : AllowsDirectory anything directory := fun _ => trivial
  obtain ⟨-, l, hgrown⟩ := (h.browse_meets hmode (children_nil hleaf) hdir hok hfits htiles
    (by rw [List.length_nil]; omega)).ret _ hret
  refine ⟨Nat.lt_of_lt_of_le hdir hgrown.frame.count, l, hgrown.browsed hdir, ?_, hgrown.cached⟩
  simpa using hgrown.length

/-- However often a directory is browsed, its children are as they were after the first time, a
doubly linked list with a child for each name. -/
theorem browse_idempotent {fs₁ : FsFiles} {calls : List (ℕ × DiskReads)}
    (hdir : directory < fs.count) (hleaf : (fs.file directory).leaf = none)
    (h : fs.Opens disk directory inode content) (hmode : inode.mode &&& ext2SIfdir ≠ 0)
    (hfits : content.address + inode.size.toNat < 2 ^ 32)
    (htiles : EntriesTile content.bytes inode.size.toNat 0 entries)
    (hfirst : Browses directory fs (fuel, disk) fs₁) (hrun : Run (Browses directory) fs₁ calls fs') :
    (∃ l, fs'.Children directory l) ∧ fs' = fs₁ := by
  obtain ⟨hdir₁, l, hbrowsed, hshort, -⟩ := hfirst.browsed hdir hleaf h hmode hfits htiles
  have hlen := htiles.length_le
  have hok : AllowsDirectory anything directory := fun _ => trivial
  have hsame : fs' = fs₁ := by
    refine hrun.invariant (I := fun fs => fs = fs₁) ?_ rfl
    rintro fs ⟨fuel, disk⟩ fs' rfl ⟨hfuel, hret⟩
    dsimp only at hfuel hret
    have hagain := (hbrowsed.again hmode hdir₁ hok hfits htiles (by omega)).ret _ hret
    exact congrArg Prod.snd hagain
  exact ⟨⟨l, hsame ▸ hbrowsed.children⟩, hsame⟩

theorem threeEntries_tiles (inode : U8) : EntriesTile (entryBytes inode 1).bytes 36 0 [0, 12, 24] :=
  ⟨rfl, show 8 + 1 ≤ 12 + 256 * 0 by decide, rfl, show 8 + 2 ≤ 12 + 256 * 0 by decide, rfl,
    show 8 + 1 ≤ 12 + 256 * 0 by decide, rfl⟩

theorem threeEntries_fits (inode : U8) :
    (entryBytes inode 1).address + (36 : U32).toNat < 2 ^ 32 :=
  show 0x40001000 + 36 < 2 ^ 32 by decide

/-- A directory with three entries can be browsed. -/
theorem threeEntries_browses (inode : U8) :
    ∃ fs₁, Browses 0 (threeEntries inode 1) (2 ^ 32, .failing) fs₁ := by
  have hok : AllowsDirectory anything 0 := fun _ => trivial
  have hmeets : Traced.Meets anything
      (browseAndCacheDirectory (2 ^ 32) .failing (threeEntries inode 1) (some 0)) _ :=
    (threeEntries_holds inode 1 .failing).browse_meets (by decide) (children_nil rfl) Nat.one_pos hok
      (threeEntries_fits inode) (threeEntries_tiles inode) (by decide)
  obtain ⟨⟨_, fs₁⟩, hret, rfl, -⟩ := hmeets.returns fun _ => id
  exact ⟨fs₁, le_rfl, hret⟩

/-- It can be browsed once more. -/
theorem threeEntries_browses_again {inode : U8} {fs₁ : FsFiles}
    (hfirst : Browses 0 (threeEntries inode 1) (2 ^ 32, .failing) fs₁) :
    Browses 0 fs₁ (2 ^ 32, .failing) fs₁ := by
  have hok : AllowsDirectory anything 0 := fun _ => trivial
  obtain ⟨hdir, l, hbrowsed, hshort, -⟩ := hfirst.browsed Nat.one_pos rfl
    (threeEntries_holds inode 1 .failing) (by decide) (threeEntries_fits inode) (threeEntries_tiles inode)
  have hmeets : Traced.Meets anything
      (browseAndCacheDirectory (2 ^ 32) .failing fs₁ (some 0)) _ :=
    hbrowsed.again (by decide) hdir hok (threeEntries_fits inode) (threeEntries_tiles inode)
      (by simp only [List.length_cons, List.length_nil] at hshort ⊢; omega)
  obtain ⟨r, hret, rfl⟩ := hmeets.returns fun _ => id
  exact ⟨le_rfl, hret⟩

/-- A directory with three entries, browsed twice. -/
theorem threeEntries_idempotent : ∃ fs₁ fs₂, Browses 0 (threeEntries 11 1) (2 ^ 32, .failing) fs₁ ∧
    Browses 0 fs₁ (2 ^ 32, .failing) fs₂ ∧ (∃ l, fs₂.Children 0 l) ∧ fs₂ = fs₁ := by
  obtain ⟨fs₁, hfirst⟩ := threeEntries_browses 11
  have hagain := threeEntries_browses_again hfirst
  exact ⟨fs₁, fs₁, hfirst, hagain, browse_idempotent (by decide) rfl (threeEntries_holds 11 1 .failing)
    (by decide) (by decide) (threeEntries_tiles 11) hfirst (.single hagain)⟩

/-! ## Live entries -/

/-- A file is among the children of a directory. -/
def IsChild (fs : FsFiles) (directory p : ℕ) : Prop := ∃ l, fs.Siblings directory l ∧ p ∈ l

/-- The children of a directory are its entries with an inode, but for `.` and `..`. -/
def ListsLive (fs : FsFiles) (directory : ℕ) (entries : List (List U8 × U32)) : Prop :=
  ∀ name inum, (∃ p, fs.IsChild directory p ∧ fs.nameAndInum p = (name, inum)) ↔
    (name, inum) ∈ entries ∧ inum ≠ 0 ∧ name ≠ dot ∧ name ≠ dotDot

/-- Entries without an inode have no name of their own, and those with one have a name. -/
def NamesTell (entries : List (List U8 × U32)) : Prop :=
  ∀ e ∈ entries, (e.2 = 0 → Skipped e.1) ∧ (e.2 ≠ 0 → e.1 ≠ [])

instance (entries : List (List U8 × U32)) : Decidable (NamesTell entries) :=
  inferInstanceAs (Decidable (∀ e ∈ entries, (e.2 = 0 → Skipped e.1) ∧ (e.2 ≠ 0 → e.1 ≠ [])))

/-- No two entries have the same name, unless they have none. -/
def DistinctNames (entries : List (List U8 × U32)) : Prop :=
  entries.Pairwise fun e e' => e.1 = e'.1 → e.1 = []

instance (entries : List (List U8 × U32)) : Decidable (DistinctNames entries) :=
  inferInstanceAs (Decidable (entries.Pairwise fun e e' => e.1 = e'.1 → e.1 = []))

/-- The children of a browsed directory. -/
theorem isChild_iff (hl : fs.Children directory l) {p : ℕ} : fs.IsChild directory p ↔ p ∈ l := by
  constructor
  · rintro ⟨l', hl', hp⟩
    rwa [hl.chain.unique hl'.chain]
  · intro hp
    exact ⟨l, hl.toSiblings, hp⟩

theorem listsLive_iff_of_cached {es : List (List U8 × U32)} (hl : fs.Children directory l)
    (hcached : l.map fs.nameAndInum = cacheAll [] es) (hdistinct : DistinctNames es) :
    fs.ListsLive directory es ↔ NamesTell es := by
  have hpairwise : es.Pairwise fun e e' => e.1 = e'.1 → Skipped e.1 :=
    hdistinct.imp fun h heq => .inl (h heq)
  have hchild (e : List U8 × U32) : (∃ p, fs.IsChild directory p ∧ fs.nameAndInum p = e) ↔
      e ∈ es ∧ ¬Skipped e.1 := by
    rw [← mem_addAll_of_pairwise hpairwise, ← cacheAll, ← hcached, List.mem_map]
    simp only [isChild_iff hl]
  simp only [ListsLive, hchild, NamesTell, Skipped, Prod.forall]
  constructor
  · intro hlive name inum hmem
    have hname := hlive name inum
    simp only [hmem, true_and] at hname
    refine ⟨fun hzero => ?_, ?_⟩
    · by_contra hskip
      exact (hname.mp hskip).1 hzero
    · rintro hne rfl
      exact hname.mpr ⟨hne, by decide, by decide⟩ (.inl rfl)
  · intro htell name inum
    rw [and_congr_right_iff]
    intro hmem
    obtain ⟨hzero, hne⟩ := htell name inum hmem
    tauto

/-- After a directory has been browsed, its children are its live entries when the names tell these
from the others, and only then. -/
theorem browse_listsLive_iff {fs₁ : FsFiles} (hdir : directory < fs.count)
    (hleaf : (fs.file directory).leaf = none) (h : fs.Opens disk directory inode content)
    (hmode : inode.mode &&& ext2SIfdir ≠ 0) (hfits : content.address + inode.size.toNat < 2 ^ 32)
    (htiles : EntriesTile content.bytes inode.size.toNat 0 entries)
    (hdistinct : DistinctNames (entries.map (entryAt content.bytes)))
    (hfirst : Browses directory fs (fuel, disk) fs₁) :
    fs₁.ListsLive directory (entries.map (entryAt content.bytes)) ↔
      NamesTell (entries.map (entryAt content.bytes)) := by
  obtain ⟨-, l, hbrowsed, -, hcached⟩ := hfirst.browsed hdir hleaf h hmode hfits htiles
  exact listsLive_iff_of_cached hbrowsed.children hcached hdistinct

/-- Of the entries `.`, `..` and `a` the last one is a child. -/
theorem threeEntries_listsLive : ∃ fs₁, Browses 0 (threeEntries 11 1) (2 ^ 32, .failing) fs₁ ∧
    fs₁.ListsLive 0 [([46], 2), ([46, 46], 2), ([97], 11)] := by
  obtain ⟨fs₁, hfirst⟩ := threeEntries_browses 11
  exact ⟨fs₁, hfirst, (browse_listsLive_iff (by decide) rfl (threeEntries_holds 11 1 .failing)
    (by decide) (by decide) (threeEntries_tiles 11) (by decide) hfirst).mpr (by decide)⟩

/-- An entry without an inode becomes a child too. -/
theorem threeEntries_not_listsLive : ∃ fs₁, Browses 0 (threeEntries 0 1) (2 ^ 32, .failing) fs₁ ∧
    ¬fs₁.ListsLive 0 [([46], 2), ([46, 46], 2), ([97], 0)] := by
  obtain ⟨fs₁, hfirst⟩ := threeEntries_browses 0
  obtain ⟨-, l, hbrowsed, -, hcached⟩ := hfirst.browsed (by decide) rfl
    (threeEntries_holds 0 1 .failing) (by decide) (by decide) (threeEntries_tiles 0)
  refine ⟨fs₁, hfirst, fun hlive => ?_⟩
  have htell := (listsLive_iff_of_cached hbrowsed.children hcached (by decide)).mp hlive
  exact absurd htell (by decide)

end FsFiles

end LtMicros
