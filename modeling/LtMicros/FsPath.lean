import LtMicros.FsTree

/-!
# Walking along a path

What `OpenFileFromName` makes of a path. Its components but for the last one are walked along, and
each `/` behind one of them is a zero byte meanwhile. An empty component leads to the directory
above, since `StrCmp` finds no difference between an empty string and `".."`.
-/

namespace LtMicros

open Lib CString

/-- A string with its zero byte in the memory of the caller. -/
structure PathAt (m : Bytes) (path : ℕ) (s : List U8) : Prop where
  ne_zero : ∀ b ∈ s, b ≠ 0
  bytes : ∀ i ≤ s.length, m (path + i) = s.getD i 0

/-- The bytes of a string of the caller, with its zero byte, may be read. -/
def AllowsPath (c : Traced.Contract FsRead) (path n : ℕ) : Prop :=
  ∀ i ≤ n, c.ok (.caller (path + i))

variable {c : Traced.Contract FsRead} {m : Bytes} {path fuel n : ℕ} {s before behind : List U8}

theorem readCaller_meets (hok : c.ok (.caller path)) :
    Traced.Meets c (readCaller m path) fun b => b = m path :=
  (Traced.Meets.note (Q := fun _ => True) hok trivial).bind fun _ _ => Traced.Meets.pure rfl

theorem PathAt.holds (h : PathAt m path s) (hok : AllowsPath c path s.length) :
    Holds c (callerPath m path) s where
  ne_zero := h.ne_zero
  reads i hi := (readCaller_meets (hok i hi)).mono fun _ hb => hb.trans (h.bytes i hi)

/-- Only one string is at a place. -/
theorem PathAt.unique {s' : List U8} (h : PathAt m path s) (h' : PathAt m path s') : s = s' := by
  have hlen {s s' : List U8} (h : PathAt m path s) (h' : PathAt m path s') : s.length ≤ s'.length := by
    by_contra hlt
    have hzero := (h'.bytes s'.length le_rfl).symm.trans (h.bytes s'.length (by omega))
    rw [List.getD_eq_default _ _ le_rfl, List.getD_eq_getElem _ _ (by omega)] at hzero
    exact h.ne_zero _ (List.getElem_mem _) hzero.symm
  have heq := Nat.le_antisymm (hlen h h') (hlen h' h)
  apply List.ext_getElem heq
  intro i hi hi'
  rw [← List.getD_eq_getElem _ 0 hi, ← List.getD_eq_getElem _ 0 hi', ← h.bytes i hi.le,
    ← h'.bytes i hi'.le]

/-- The string ends where a zero byte has been put. -/
theorem PathAt.cut (h : PathAt m path (before ++ slash :: behind)) :
    PathAt (Function.update m (path + before.length) 0) path before := by
  refine ⟨fun b hb => h.ne_zero b (List.mem_append_left _ hb), fun i hi => ?_⟩
  rcases Nat.eq_or_lt_of_le hi with rfl | hlt
  · simp
  · rw [Function.update_of_ne (by omega), h.bytes i (by simp; omega),
      List.getD_append _ _ _ _ hlt]

theorem PathAt.separator (h : PathAt m path (before ++ slash :: behind)) :
    m (path + before.length) = slash := by
  rw [h.bytes before.length (by simp), List.getD_append_right _ _ _ _ le_rfl]
  simp

theorem PathAt.next (h : PathAt m path (before ++ slash :: behind)) :
    PathAt m (path + before.length + 1) behind := by
  refine ⟨fun b hb => h.ne_zero b (by simp [hb]), fun i hi => ?_⟩
  rw [show path + before.length + 1 + i = path + (before.length + (i + 1)) by omega,
    h.bytes _ (by simp; omega), List.getD_append_right _ _ _ _ (by omega)]
  simp

theorem PathAt.restore (h : PathAt m path (before ++ slash :: behind)) :
    Function.update (Function.update m (path + before.length) 0) (path + before.length) slash = m := by
  rw [Function.update_idem, ← h.separator, Function.update_eq_self]

/-- The components of a path. -/
def components (path : List U8) : List (List U8) := path.splitOn slash

theorem components_ne_nil (path : List U8) : components path ≠ [] := List.splitOn_ne_nil slash path

theorem components_of_not_mem (h : slash ∉ s) : components s = [s] := List.splitOn_eq_singleton h

theorem components_append (h : slash ∉ before) :
    components (before ++ slash :: behind) = before :: components behind :=
  List.splitOn_append_cons_self_of_not_mem h behind

/-- The components of a path but for the last one. -/
def dirs (path : List U8) : List (List U8) := (components path).dropLast

/-- The last component of a path. -/
def last (path : List U8) : List U8 := (components path).getLast (components_ne_nil path)

theorem dirs_of_not_mem (h : slash ∉ s) : dirs s = [] := by
  rw [dirs, components_of_not_mem h, List.dropLast_singleton]

theorem last_of_not_mem (h : slash ∉ s) : last s = s := by
  simp only [last, components_of_not_mem h, List.getLast_singleton]

theorem dirs_append (h : slash ∉ before) :
    dirs (before ++ slash :: behind) = before :: dirs behind := by
  rw [dirs, components_append h, List.dropLast_cons_of_ne_nil (components_ne_nil behind), dirs]

theorem last_append (h : slash ∉ before) : last (before ++ slash :: behind) = last behind := by
  simp only [last, components_append h]
  exact List.getLast_cons _

/-- A path without the `/` in front. -/
def relative (path : List U8) : List U8 := if path.head? = some slash then path.tail else path

/-- Where a component of a path leads, when some of them lead to the directory above, and records
are found by their names. -/
def step (up : List U8 → Prop) [DecidablePred up] (record : U32 → List U8 → Option (List U8 × U32))
    (place : Place) (component : List U8) : Option Place :=
  if up component then some place.tail
  else if component = [] ∨ component = dot then some place
  else (record (inumOf place) component).map fun e => e :: place

namespace FsTree

/-- The record of a file that `OpenFileFromName` finds and can open. -/
def openable (tree : FsTree) (inum : U32) (name : List U8) : Option (List U8 × U32) :=
  (tree.first inum name).filter fun e => tree.disk.opens e.2

/-- Where `OpenFileFromName` goes to for a component that is not the last one. -/
def follow (tree : FsTree) (place : Place) (component : List U8) : Option Place :=
  step (fun component => component = [] ∨ component = dotDot) tree.openable place component

/-- Where it goes to for some of them. -/
def walk (tree : FsTree) (place : Place) (components : List (List U8)) : Option Place :=
  components.foldlM tree.follow place

end FsTree

namespace FsFiles

variable {tree : FsTree} {fs : FsFiles} {place : Place} {d : ℕ} {l : List ℕ} {file : Option ℕ}

/-- What `OpenFileFromName` answers when it has walked to a place, or got lost, with the last
component of the path to come. -/
structure Answers (fs : FsFiles) (tree : FsTree) (m : Bytes) (path n : ℕ) (file : Option ℕ)
    (walked : Option Place) (last : List U8) (r : Status × Option ℕ × Bytes × FsFiles) : Prop where
  nodes : r.2.2.2.Nodes tree
  keeps : Keeps fs r.2.2.2 tree
  lost : walked = none → r.1.failed ∧ ∃ i, path ≤ i ∧ i < path + n ∧ r.2.2.1 i ≠ m i
  kept : walked ≠ none → r.2.2.1 = m
  unset : ∀ place, walked = some place → last = [] → r.1 = .statusSuccess ∧ r.2.1 = file
  missing : ∀ place, walked = some place → last ≠ [] →
    tree.openable (inumOf place) last = none → r.1.failed
  found : ∀ place e, walked = some place → tree.openable (inumOf place) last = some e →
    r.1 = .statusSuccess ∧ ∃ p, r.2.1 = some p ∧ r.2.2.2.At (e :: place) p

/-- Looking a component up at a place changes nothing: the file that it leads to is settled. -/
def LookedUp (fs : FsFiles) (tree : FsTree) (place : Place) (component : List U8) : Prop :=
  ∀ e p, tree.first (inumOf place) component = some e → fs.At (e :: place) p → fs.Settled tree.disk p

/-- Walking from a place changes nothing: the directories on the way have been listed, and the file that
is looked up last, or that the way ends at, is settled. -/
def Undisturbed (fs : FsFiles) (tree : FsTree) : Place → List (List U8) → List U8 → Prop
  | place, [], last => fs.LookedUp tree place last
  | place, component :: rest, last =>
    match tree.follow place component with
    | none => fs.LookedUp tree place component
    | some place' =>
      (∃ p l, fs.At place' p ∧ fs.Listed tree p l) ∧ fs.Undisturbed tree place' rest last

theorem undisturbed_lost {component : List U8} {rest : List (List U8)} {last : List U8}
    (h : tree.follow place component = none) :
    fs.Undisturbed tree place (component :: rest) last ↔ fs.LookedUp tree place component := by
  rw [Undisturbed, h]

theorem undisturbed_follow {component : List U8} {rest : List (List U8)} {last : List U8}
    {place' : Place} (h : tree.follow place component = some place') :
    fs.Undisturbed tree place (component :: rest) last ↔
      (∃ p l, fs.At place' p ∧ fs.Listed tree p l) ∧ fs.Undisturbed tree place' rest last := by
  rw [Undisturbed, h]

/-- `IsCached` of a component, in a directory that is listed. -/
theorem Nodes.isCached_meets (h : fs.Nodes tree) (hd : d < fs.count) (hl : fs.Listed tree d l)
    {fileName : CString FsRead} (hname : Holds c fileName s) (hs : s ≠ [])
    (hfuel : 2 ^ 32 + s.length ≤ fuel) :
    Traced.Meets c (fs.isCached fuel (some d) fileName) fun r =>
      (r = none ∧ tree.first (fs.file d).inum s = none) ∨
        ∃ p ∈ l, r = some p ∧ tree.first (fs.file d).inum s = some (fs.nameAndInum p) := by
  have hlength := (h.node d hd).length_children ((h.node d hd).fromDisk.opens hl.opened) hl.children
  refine (FsFiles.isCached_meets hl.children.toSiblings hname (by omega) (by omega)).mono ?_
  rintro r rfl
  have hfind := hl.find_eq hs
  rcases hr : l.find? (fs.nameMatches s) with _ | p
  · rw [hr] at hfind
    exact .inl ⟨rfl, hfind.symm⟩
  · rw [hr] at hfind
    exact .inr ⟨p, List.mem_of_find?_eq_some hr, rfl, hfind.symm⟩

/-- A component that no record has the name of. -/
theorem Nodes.lookedUp_missing (h : fs.Nodes tree) (hat : fs.At place d)
    (hnone : tree.first (fs.file d).inum s = none) : fs.LookedUp tree place s := by
  intro e p hfirst
  rw [← h.at_inum hat, hnone] at hfirst
  cases hfirst

/-- `OpenFile` of a child that `IsCached` has found. -/
theorem Nodes.open_child {p : ℕ} (h : fs.Nodes tree) (hat : fs.At place d) (hl : fs.Listed tree d l)
    (hp : p ∈ l) (hfirst : tree.first (fs.file d).inum s = some (fs.nameAndInum p)) :
    (fs.openClosed tree.disk p).2.Nodes tree ∧ Keeps fs (fs.openClosed tree.disk p).2 tree ∧
      fs.At (fs.nameAndInum p :: place) p ∧
        ((fs.openClosed tree.disk p).2 = fs ↔ fs.LookedUp tree place s) ∧
          (tree.disk.opens (fs.file p).inum = true ∧
              tree.openable (inumOf place) s = some (fs.nameAndInum p) ∧
                (fs.openClosed tree.disk p).1.failed = false ∨
            tree.openable (inumOf place) s = none ∧ (fs.openClosed tree.disk p).1.failed = true) := by
  obtain ⟨hstatus, hnodes, hkeeps⟩ := h.openClosed (hl.children.below p hp)
  have hat' : fs.At (fs.nameAndInum p :: place) p := ⟨d, hat, hl.isChild_iff.mpr hp, rfl⟩
  rw [h.at_inum hat] at hfirst
  refine ⟨hnodes, hkeeps, hat', ?_, ?_⟩
  · rw [h.openClosed_same_iff (hl.children.below p hp)]
    constructor
    · intro hsettled e q he hq
      obtain rfl : fs.nameAndInum p = e := Option.some.inj (hfirst.symm.trans he)
      rwa [← h.at_inj hat' hq]
    · intro hlooked
      exact hlooked _ p hfirst hat'
  have hopenable : tree.openable (inumOf place) s =
      (some (fs.nameAndInum p)).filter fun e => tree.disk.opens e.2 := by
    rw [FsTree.openable, hfirst]
  have hinum : (fs.nameAndInum p).2 = (fs.file p).inum := rfl
  cases hopens : tree.disk.opens (fs.file p).inum with
  | false =>
    rw [hopens] at hstatus
    exact .inr ⟨by simp [hopenable, hinum, hopens], hstatus⟩
  | true =>
    rw [hopens] at hstatus
    exact .inl ⟨rfl, by simp [hopenable, hinum, hopens], hstatus⟩

/-- The last component is looked up, and its file is opened. -/
theorem Nodes.turn_last (h : fs.Nodes tree) (hat : fs.At place d) (hl : fs.Listed tree d l)
    (hpath : PathAt m path s) (hread : AllowsPath c path s.length) (hs : s ≠ []) (hlast : slash ∉ s)
    (hfuel : 2 ^ 32 + s.length ≤ fuel) :
    Traced.Meets c (openFileFromNameTurn fuel tree.disk file (path, some d, m, fs)) fun r =>
      ∃ a, r = .inr a ∧ fs.Answers tree m path s.length file (some place) s a ∧
        (a.2.2.2 = fs ↔ fs.LookedUp tree place s) := by
  have hholds := hpath.holds hread
  have hpos : 0 < s.length := List.length_pos_iff.mpr hs
  rw [openFileFromNameTurn]
  refine (readCaller_meets (hread 0 (Nat.zero_le _))).bind fun char hchar => ?_
  have hchar' : ¬char = 0 := by
    rw [hchar, hpath.bytes 0 (Nat.zero_le _), hholds.getD_eq_zero (Nat.zero_le _)]
    omega
  rw [if_neg hchar']
  refine (StdLib.firstIndexOf_meets hholds (by omega)).bind fun index hindex => ?_
  have hneg : index < 0 := by
    rcases hindex with ⟨rfl, -⟩ | ⟨before, behind, rfl, -⟩
    · decide
    · exact absurd (by simp) hlast
  rw [if_pos hneg]
  refine (h.isCached_meets (h.at_lt hat) hl hholds hs hfuel).bind fun cached hcached => ?_
  rcases hcached with ⟨rfl, hnone⟩ | ⟨p, hp, rfl, hsome⟩
  · have hopenable : tree.openable (inumOf place) s = none := by
      rw [FsTree.openable, ← h.at_inum hat, hnone, Option.filter_none]
    exact Traced.Meets.pure ⟨_, rfl, ⟨h, .refl fs tree, nofun, fun _ => rfl,
      fun _ _ hnil => absurd hnil hs, fun _ _ _ _ => rfl, fun _ _ hplace hfound => by
        cases hplace
        rw [hopenable] at hfound
        cases hfound⟩, iff_of_true rfl (h.lookedUp_missing hat hnone)⟩
  · obtain ⟨hnodes, hkeeps, hat', hsame, hopen⟩ := h.open_child hat hl hp hsome
    dsimp only
    rcases hopen with ⟨-, hopenable, hok⟩ | ⟨hopenable, hfailed⟩
    · rw [if_neg (by simp [hok])]
      refine Traced.Meets.pure ⟨_, rfl, ⟨hnodes, hkeeps, nofun, fun _ => rfl,
        fun _ _ hnil => absurd hnil hs, fun _ hplace _ hmissing => ?_, fun _ e hplace hfound => ?_⟩,
        hsame⟩
      · cases hplace
        rw [hopenable] at hmissing
        cases hmissing
      · cases hplace
        rw [hopenable] at hfound
        cases hfound
        exact ⟨rfl, p, rfl, hkeeps.at h hat'⟩
    · rw [if_pos hfailed]
      refine Traced.Meets.pure ⟨_, rfl, ⟨hnodes, hkeeps, nofun, fun _ => rfl,
        fun _ _ hnil => absurd hnil hs, fun _ _ _ _ => hfailed, fun _ e hplace hfound => ?_⟩, hsame⟩
      cases hplace
      rw [hopenable] at hfound
      cases hfound

/-- What is known when `OpenFileFromName` has come to a place with the next component to come. The
directory there has been listed, and nothing has changed if it was. -/
structure Arrives (fs : FsFiles) (tree : FsTree) (place : Place) (directory : Option ℕ)
    (fs' : FsFiles) : Prop where
  nodes : fs'.Nodes tree
  keeps : Keeps fs fs' tree
  listed : ∃ d l, directory = some d ∧ fs.At place d ∧ fs'.Listed tree d l ∧
    ∀ l₀, fs.Listed tree d l₀ → fs' = fs

/-- A child that could be opened is browsed, and arrived at. -/
theorem Nodes.browse_child {p : ℕ} (h : fs.Nodes tree) (hat : fs.At (fs.nameAndInum p :: place) p)
    (hopens : tree.disk.opens (fs.file p).inum = true)
    (hok : ∀ directory, AllowsDirectory c directory) (hfuel : 2 ^ 32 ≤ fuel) :
    Traced.Meets c
      (browseAndCacheDirectory fuel tree.disk (fs.openClosed tree.disk p).2 (some p)) fun r =>
        fs.Arrives tree (fs.nameAndInum p :: place) (some p) r.2 := by
  have hlt := h.at_lt hat
  obtain ⟨-, hnodes, hkeeps⟩ := h.openClosed hlt
  have hinum := congrArg Prod.snd (hkeeps.nameAndInum p hlt)
  refine (hnodes.browse_meets (Nat.lt_of_lt_of_le hlt hkeeps.count) hok hfuel).mono ?_
  rintro ⟨status, fs'⟩ ⟨hnodes', hkeeps', hbrowsed, hlisted⟩
  dsimp only [FsFiles.nameAndInum] at hinum
  rw [hinum, if_pos hopens] at hlisted
  obtain ⟨l', hl'⟩ := hlisted
  refine ⟨hnodes', hkeeps.trans hkeeps', p, l', rfl, hat, hl', fun l₀ hl₀ => ?_⟩
  have hopened : (fs.openClosed tree.disk p).2 = fs :=
    (h.openClosed_same_iff hlt).mpr (.inl hl₀.opened)
  exact (hbrowsed l₀ (hopened.symm ▸ hl₀)).trans hopened

/-- A component before the last one is walked along. -/
theorem Nodes.turn_along {before behind : List U8} (h : fs.Nodes tree) (hat : fs.At place d)
    (hl : fs.Listed tree d l) (hpath : PathAt m path (before ++ slash :: behind))
    (hread : AllowsPath c path (before ++ slash :: behind).length) (hbefore : slash ∉ before)
    (hok : ∀ directory, AllowsDirectory c directory)
    (hfuel : 2 ^ 32 + (before ++ slash :: behind).length ≤ fuel) :
    Traced.Meets c (openFileFromNameTurn fuel tree.disk file (path, some d, m, fs)) fun r =>
      (tree.follow place before = none ∧
        ∃ status fs', r = .inr (status, file, Function.update m (path + before.length) 0, fs') ∧
          status.failed ∧ fs'.Nodes tree ∧ Keeps fs fs' tree ∧
            (fs' = fs ↔ fs.LookedUp tree place before)) ∨
      ∃ place' directory fs', tree.follow place before = some place' ∧
        r = .inl (path + before.length + 1, directory, m, fs') ∧
          fs.Arrives tree place' directory fs' := by
  have hlen : (before ++ slash :: behind).length = before.length + (behind.length + 1) := by simp
  have hholds := hpath.holds hread
  have hcut := hpath.cut.holds fun i hi => hread i (by omega)
  have hrestore := hpath.restore
  have hdot : upToZero dot = dot := by decide
  have hdotDot : upToZero dotDot = dotDot := by decide
  rw [openFileFromNameTurn]
  refine (readCaller_meets (hread 0 (Nat.zero_le _))).bind fun char hchar => ?_
  have hchar' : ¬char = 0 := by
    rw [hchar, hpath.bytes 0 (Nat.zero_le _), hholds.getD_eq_zero (Nat.zero_le _)]
    omega
  rw [if_neg hchar']
  refine (StdLib.firstIndexOf_meets hholds (by omega)).bind fun index hindex => ?_
  obtain rfl : index = before.length := by
    rcases hindex with ⟨-, hnot⟩ | ⟨before', behind', hsplit, hbefore', rfl⟩
    · exact absurd (by simp) hnot
    · have hcomponents := congrArg (List.splitOn slash) hsplit
      rw [List.splitOn_append_cons_self_of_not_mem hbefore,
        List.splitOn_append_cons_self_of_not_mem hbefore', List.cons.injEq] at hcomponents
      rw [hcomponents.1]
  rw [if_neg (by omega)]
  dsimp only
  rw [Int.toNat_natCast, hrestore]
  refine (StdLib.strCmp_meets hcut (holds_own dotDot) (by omega)).bind fun r hr => ?_
  rw [hdotDot] at hr
  by_cases hup : before = [] ∨ before = dotDot
  · rw [if_pos (hr.mpr (by tauto))]
    obtain ⟨d', l', hparent, hat', hl'⟩ := h.at_parent hat hl
    exact Traced.Meets.pure (.inr ⟨place.tail, _, fs, by rw [FsTree.follow, step, if_pos hup], rfl, h,
      .refl fs tree, d', l', hparent, hat', hl', fun _ _ => rfl⟩)
  have hne : before ≠ [] := fun hnil => hup (.inl hnil)
  rw [if_neg fun hzero => hup ((hr.mp hzero).elim .inr fun hnil => .inl (hnil.resolve_right nofun))]
  refine (StdLib.strCmp_meets hcut (holds_own dot) (by omega)).bind fun r' hr' => ?_
  rw [hdot] at hr'
  by_cases hstay : before = dot
  · rw [if_pos (hr'.mpr (.inl hstay))]
    exact Traced.Meets.pure (.inr ⟨place, _, fs, by
      rw [FsTree.follow, step, if_neg hup, if_pos (.inr hstay)], rfl, h, .refl fs tree, d, l, rfl, hat,
        hl, fun _ _ => rfl⟩)
  rw [if_neg fun hzero => (hr'.mp hzero).elim hstay fun hnil => hnil.elim hne nofun]
  have hfollow : tree.follow place before =
      (tree.openable (inumOf place) before).map fun e => e :: place := by
    rw [FsTree.follow, step, if_neg hup, if_neg fun h => h.elim hne hstay]
  refine (h.isCached_meets (h.at_lt hat) hl hcut hne (by omega)).bind fun cached hcached => ?_
  rcases hcached with ⟨rfl, hnone⟩ | ⟨p, hp, rfl, hsome⟩
  · have hopenable : tree.openable (inumOf place) before = none := by
      rw [FsTree.openable, ← h.at_inum hat, hnone, Option.filter_none]
    exact Traced.Meets.pure (.inl ⟨by rw [hfollow, hopenable, Option.map_none], _, fs, rfl, rfl, h,
      .refl fs tree, iff_of_true rfl (h.lookedUp_missing hat hnone)⟩)
  obtain ⟨hnodes, hkeeps, hat', hsame, hopen⟩ := h.open_child hat hl hp hsome
  dsimp only
  rcases hopen with ⟨hopens, hopenable, hsuccess⟩ | ⟨hopenable, hfailed⟩
  · rw [if_neg (by simp [hsuccess])]
    refine (h.browse_child hat' hopens hok (by omega)).bind fun r harrives => ?_
    exact Traced.Meets.pure (.inr ⟨fs.nameAndInum p :: place, _, r.2, by
      rw [hfollow, hopenable, Option.map_some], rfl, harrives⟩)
  · rw [if_pos hfailed]
    exact Traced.Meets.pure (.inl ⟨by rw [hfollow, hopenable, Option.map_none], _, _, rfl, hfailed,
      hnodes, hkeeps, hsame⟩)

/-- A walk goes on from where it has arrived. -/
theorem Arrives.same_iff {place' : Place} {directory : Option ℕ} {fs' fs'' : FsFiles}
    {rest : List (List U8)} {last : List U8} (h : fs.Nodes tree)
    (harrives : fs.Arrives tree place' directory fs') (hkeeps : Keeps fs' fs'' tree)
    (hrest : fs'' = fs' ↔ fs'.Undisturbed tree place' rest last) :
    fs'' = fs ↔
      (∃ p l, fs.At place' p ∧ fs.Listed tree p l) ∧ fs.Undisturbed tree place' rest last := by
  obtain ⟨d, l, -, hat, hl, hsame⟩ := harrives.listed
  constructor
  · rintro rfl
    -- what has been listed on the way is listed at the end
    have hlisted := hkeeps.listed d (Nat.lt_of_lt_of_le (h.at_lt hat) harrives.keeps.count) l hl
    obtain rfl := hsame l hlisted
    exact ⟨⟨d, l, hat, hlisted⟩, hrest.mp rfl⟩
  · rintro ⟨⟨p, l₀, hp, hl₀⟩, hundisturbed⟩
    obtain rfl := h.at_inj hat hp
    obtain rfl := hsame l₀ hl₀
    exact hrest.mpr hundisturbed

/-- The loop of `OpenFileFromName`, by induction on its turns: what is left of the path begins where
the last turn has ended. -/
theorem Nodes.loop_meets (h : fs.Nodes tree) (hat : fs.At place d) (hl : fs.Listed tree d l)
    (hpath : PathAt m path s) (hread : AllowsPath c path s.length)
    (hok : ∀ directory, AllowsDirectory c directory) (hfuel : 2 ^ 32 + s.length ≤ fuel)
    (hn : s.length < n) :
    Traced.Meets c (Traced.loop (openFileFromNameTurn fuel tree.disk file) n (path, some d, m, fs))
      fun r => fs.Answers tree m path s.length file (tree.walk place (dirs s)) (last s) r ∧
        (r.2.2.2 = fs ↔ fs.Undisturbed tree place (dirs s) (last s)) := by
  induction n generalizing fs place d l path s with
  | zero => exact absurd hn (Nat.not_lt_zero _)
  | succ n ih =>
    by_cases hslash : slash ∈ s
    · obtain ⟨before, behind, rfl, hbefore⟩ := List.eq_append_cons_of_mem hslash
      have hlen : (before ++ slash :: behind).length = before.length + (behind.length + 1) := by simp
      have hwalk : tree.walk place (dirs (before ++ slash :: behind)) =
          (tree.follow place before).bind fun place' => tree.walk place' (dirs behind) := by
        rw [dirs_append hbefore, FsTree.walk, List.foldlM_cons]
        rfl
      rw [last_append hbefore, hwalk, dirs_append hbefore]
      refine (h.turn_along hat hl hpath hread hbefore hok hfuel).bind fun r hr => ?_
      rcases hr with ⟨hlost, status, fs', rfl, hstatus, hnodes, hkeeps, hsame⟩ |
        ⟨place', _, fs', hfollow, rfl, harrives⟩
      · rw [hlost, Option.bind_none, undisturbed_lost hlost]
        have hsome (place : Place) : some place ≠ none := Option.some_ne_none place
        refine Traced.Meets.pure ⟨⟨hnodes, hkeeps, fun _ => ⟨hstatus, path + before.length, by omega,
          by omega, ?_⟩, fun hne => absurd rfl hne, fun _ hplace => absurd hplace.symm (hsome _),
          fun _ hplace => absurd hplace.symm (hsome _), fun _ _ hplace => absurd hplace.symm (hsome _)⟩,
          hsame⟩
        dsimp only
        rw [Function.update_self, hpath.separator]
        decide
      · obtain ⟨d', l', rfl, hat', hl', -⟩ := harrives.listed
        have hthere := harrives.keeps.at h hat'
        rw [hfollow, Option.bind_some, undisturbed_follow hfollow]
        refine (ih harrives.nodes hthere hl' hpath.next (fun i hi => ?_) (by omega) (by omega)).mono ?_
        · rw [Nat.add_assoc, Nat.add_assoc]
          exact hread _ (by omega)
        · rintro r ⟨hr, hrest⟩
          refine ⟨⟨hr.nodes, harrives.keeps.trans hr.keeps, fun hnone => ?_, hr.kept, hr.unset,
            hr.missing, hr.found⟩, harrives.same_iff h hr.keeps hrest⟩
          obtain ⟨hfailed, i, hle, hlt, hne⟩ := hr.lost hnone
          exact ⟨hfailed, i, by omega, by omega, hne⟩
    · have hwalk : tree.walk place (dirs s) = some place := by
        rw [dirs_of_not_mem hslash]
        rfl
      rw [last_of_not_mem hslash, hwalk, dirs_of_not_mem hslash, Undisturbed]
      by_cases hs : s = []
      · subst hs
        have hend : m path = 0 := hpath.bytes 0 le_rfl
        refine Traced.Meets.bind (P := fun r => r = .inr (.statusSuccess, file, m, fs)) ?_ fun r hr => ?_
        · rw [openFileFromNameTurn]
          refine (readCaller_meets (hread 0 le_rfl)).bind fun char hchar => ?_
          rw [if_pos (hchar.trans hend)]
          exact Traced.Meets.pure rfl
        · subst hr
          have hnone : tree.first (fs.file d).inum [] = none := by simp [FsTree.first, Skipped]
          exact Traced.Meets.pure ⟨⟨h, .refl fs tree, fun hlost => absurd hlost (Option.some_ne_none _),
            fun _ => rfl, fun _ _ _ => ⟨rfl, rfl⟩, fun _ _ hne => absurd rfl hne, fun _ _ _ hfound => by
              simp [FsTree.openable, FsTree.first, Skipped] at hfound⟩,
            iff_of_true rfl (h.lookedUp_missing hat hnone)⟩
      · refine (h.turn_last hat hl hpath hread hs hslash hfuel).bind fun r hr => ?_
        obtain ⟨a, rfl, ha⟩ := hr
        exact Traced.Meets.pure ha

/-- `OpenFileFromName` walks along the path from the root directory, and changes the files in memory
unless what it comes to is known. -/
theorem Nodes.openFileFromName_meets (h : fs.Nodes tree) (hl : fs.Listed tree fs.gRootFile l)
    (hpath : PathAt m path s) (hread : AllowsPath c path s.length)
    (hok : ∀ directory, AllowsDirectory c directory) (hfuel : 2 ^ 32 + s.length ≤ fuel) :
    Traced.Meets c (openFileFromName fuel tree.disk fs m (some path)) fun r =>
      fs.Answers tree m path s.length (if s = [slash] then some fs.gRootFile else none)
        (tree.walk [] (dirs (relative s))) (last (relative s)) r ∧
      (r.2.2.2 = fs ↔ fs.Undisturbed tree [] (dirs (relative s)) (last (relative s))) := by
  have hroot : fs.At [] fs.gRootFile := rfl
  rw [openFileFromName]
  refine (readCaller_meets (hread 0 (Nat.zero_le _))).bind fun char hchar => ?_
  rw [hpath.bytes 0 (Nat.zero_le _)] at hchar
  cases s with
  | nil =>
    have hne : ¬char = slash := by
      rw [hchar]
      decide
    rw [if_neg hne, if_neg (List.cons_ne_nil _ _).symm]
    exact h.loop_meets hroot hl hpath hread hok hfuel (by omega)
  | cons b rest =>
    obtain rfl : char = b := hchar
    by_cases hslash : char = slash
    · subst hslash
      have hnext : PathAt m (path + 1) rest := by
        simpa using PathAt.next (show PathAt m path ([] ++ slash :: rest) from hpath)
      have hend : m (path + 1) = 0 ↔ rest = [] := by
        have hzero := (hnext.holds (c := ⟨fun _ => True, fun _ => False⟩) fun _ _ => trivial).getD_eq_zero
          (Nat.zero_le _)
        rw [← hnext.bytes 0 (Nat.zero_le _)] at hzero
        exact hzero.trans ⟨fun h => List.eq_nil_of_length_eq_zero h.symm, fun h => by rw [h]; rfl⟩
      rw [List.length_cons] at hread hfuel
      rw [if_pos rfl, List.length_cons]
      refine (readCaller_meets (hread 1 (by omega))).bind fun char hchar => ?_
      have hfile : (if char = 0 then some fs.gRootFile else none) =
          if slash :: rest = [slash] then some fs.gRootFile else none := by
        simp only [hchar, hend, List.cons.injEq, true_and]
      rw [hfile]
      refine (h.loop_meets hroot hl hnext (fun i hi => ?_) hok (by omega) (by omega)).mono ?_
      · rw [Nat.add_assoc]
        exact hread _ (by omega)
      · rintro r ⟨hr, hsame⟩
        refine ⟨⟨hr.nodes, hr.keeps, fun hnone => ?_, hr.kept, hr.unset, hr.missing, hr.found⟩, hsame⟩
        obtain ⟨hfailed, i, hle, hlt, hne⟩ := hr.lost hnone
        exact ⟨hfailed, i, by omega, by omega, hne⟩
    · have hrelative : relative (char :: rest) = char :: rest := by
        rw [relative, if_neg (by simpa using hslash)]
      have hne : char :: rest ≠ [slash] := fun heq => hslash (List.cons.inj heq).1
      rw [if_neg hslash, hrelative, if_neg hne]
      exact h.loop_meets hroot hl hpath hread hok hfuel (by omega)

end FsFiles

end LtMicros
