import LtMicros.HandleManager
import LtMicros.LinkedList

/-!
# The linked list as a queue

A list holds its nodes in the order of their links, and an empty list is a node without data.
`ListPush` finds the last node or fills the first one, `ListPop` frees the first one or empties it,
and `ListEnumerate` goes through the nodes, so a list of data that are not null is a queue.
-/

namespace LtMicros

open Lib

namespace ListMem

variable {α γ : Type} {m : ListMem α} {list : Option ℕ} {nodes : List ℕ}
  {contents : List (Option α)} {p q fuel : ℕ} {f : ListElem α → ListElem α}

/-! ## The nodes of a list -/

/-- The link of a node. -/
def next (m : ListMem α) (p : ℕ) : Option ℕ := (m.elem p).next

/-- The list has these nodes, which are in use and have these data. -/
structure Holds (m : ListMem α) (list : Option ℕ) (nodes : List ℕ) (contents : List (Option α)) :
    Prop where
  chain : Chain m.next list nodes
  live : ∀ p ∈ nodes, p ∈ m.live
  data : nodes.map (fun p => (m.elem p).data) = contents

@[simp] theorem set_live : (m.set p f).live = m.live := rfl

@[simp] theorem set_elem_self : (m.set p f).elem p = f (m.elem p) := Function.update_self _ _ _

theorem set_elem_ne (h : q ≠ p) : (m.set p f).elem q = m.elem q := Function.update_of_ne h _ _

theorem Holds.nodup (h : Holds m list nodes contents) : nodes.Nodup := h.chain.nodup

theorem Holds.unique {nodes' : List ℕ} {contents' : List (Option α)}
    (h : Holds m list nodes contents) (h' : Holds m list nodes' contents') :
    nodes = nodes' ∧ contents = contents' := by
  obtain rfl := h.chain.unique h'.chain
  exact ⟨rfl, h.data.symm.trans h'.data⟩

/-- The first node. -/
theorem Holds.cons {d : Option α} {rest : List (Option α)} (h : Holds m list nodes (d :: rest)) :
    ∃ p nodes', list = some p ∧ nodes = p :: nodes' ∧ p ∈ m.live ∧ (m.elem p).data = d ∧
      Holds m (m.next p) nodes' rest := by
  obtain ⟨hchain, hlive, hdata⟩ := h
  cases nodes with
  | nil => cases hdata
  | cons p nodes' =>
    obtain ⟨rfl, hrest⟩ := Seg.cons_iff.mp hchain
    obtain ⟨hd, hdata⟩ := List.cons.inj hdata
    exact ⟨p, nodes', rfl, rfl, hlive p List.mem_cons_self, hd, hrest,
      fun q hq => hlive q (List.mem_cons_of_mem _ hq), hdata⟩

theorem Holds.of_cons {d : Option α} (hlive : p ∈ m.live) (hd : (m.elem p).data = d)
    (h : Holds m (m.next p) nodes contents) : Holds m (some p) (p :: nodes) (d :: contents) where
  chain := ⟨rfl, h.chain⟩
  live q hq := by
    rcases List.mem_cons.mp hq with rfl | hq
    · exact hlive
    · exact h.live q hq
  data := by rw [List.map_cons, hd, h.data]

/-- Nodes that are changed elsewhere do not matter. -/
theorem Holds.congr {m' : ListMem α} (h : Holds m list nodes contents)
    (helem : ∀ p ∈ nodes, m'.elem p = m.elem p) (hlive : ∀ p ∈ nodes, p ∈ m'.live) :
    Holds m' list nodes contents where
  chain := (Seg.congr fun p hp => (congrArg ListElem.next (helem p hp)).symm).mp h.chain
  live := hlive
  data := by
    rw [← h.data]
    exact List.map_congr_left fun p hp => congrArg ListElem.data (helem p hp)

theorem Holds.set_of_not_mem (h : Holds m list nodes contents) (hp : p ∉ nodes) :
    Holds (m.set p f) list nodes contents :=
  h.congr (fun _ hq => set_elem_ne (ne_of_mem_of_not_mem hq hp)) h.live

/-- The data of the first node are set. -/
theorem Holds.set_head {d : Option α} (h : Holds m (some p) nodes (d :: contents))
    (data : Option α) :
    Holds (m.set p fun elem => { elem with data }) (some p) nodes (data :: contents) := by
  have hnodup := h.nodup
  obtain ⟨_, nodes', hp, rfl, hlive, -, hrest⟩ := h.cons
  cases hp
  have hnext : (m.set p fun elem => { elem with data }).next p = m.next p := by
    rw [next, set_elem_self]
    rfl
  refine .of_cons hlive (congrArg ListElem.data set_elem_self) ?_
  rw [hnext]
  exact hrest.set_of_not_mem (List.nodup_cons.mp hnodup).1

/-- A node is put behind the last one. -/
theorem Holds.link {last : ℕ} (node : ListElem α) (h : Holds m list (nodes ++ [last]) contents)
    (hnode : node.next = none) {m' : ListMem α}
    (hothers : ∀ p ∈ nodes, m'.elem p = m.elem p)
    (hlast : m'.elem last = { m.elem last with next := some q }) (hnew : m'.elem q = node)
    (hlive : m'.live = q :: m.live) :
    Holds m' list (nodes ++ [last, q]) (contents ++ [node.data]) where
  chain := by
    refine Seg.mid_iff.mpr ⟨?_, ?_⟩
    · refine (Seg.congr fun p hp => ?_).mp (Seg.mid_iff.mp h.chain).1
      rw [next, next, hothers p hp]
    · rw [next, hlast]
      exact ⟨rfl, by rw [next, hnew, hnode]; rfl⟩
  live p hp := by
    rw [hlive]
    have hp' : p ∈ nodes ++ [last] ∨ p = q := by
      simpa [or_assoc] using hp
    rcases hp' with hp' | rfl
    · exact List.mem_cons_of_mem _ (h.live p hp')
    · exact List.mem_cons_self
  data := by
    rw [← h.data, List.map_append, List.map_append, List.append_assoc]
    congr 1
    · exact List.map_congr_left fun p hp => congrArg ListElem.data (hothers p hp)
    · simp [hlast, hnew]

/-! ## What the calls do -/

/-- No block is freed, none is accessed that is not in use, and nothing is called. -/
def quiet : Traced.Contract (ListEvent α) where
  ok e := e.InUse ∧ e.freed = none ∧ e.called = none
  stop _ := False

theorem access_meets (hp : p ∈ m.live) :
    Traced.Meets quiet (Traced.note (ListEvent.access (α := α) p (p ∈ m.live))) fun _ => True :=
  .note ⟨decide_eq_true hp, rfl, rfl⟩ trivial

theorem read_meets (hp : p ∈ m.live) :
    Traced.Meets quiet (m.read (some p)) fun node => node = m.elem p :=
  (access_meets hp).bind fun _ _ => Traced.Meets.pure rfl

theorem modify_meets (hp : p ∈ m.live) :
    Traced.Meets quiet (m.modify f (some p)) fun m' => m' = m.set p f :=
  (access_meets hp).bind fun _ _ => Traced.Meets.pure rfl

theorem lastTurn_meets (hp : p ∈ m.live) : Traced.Meets quiet (lastTurn m (some p)) fun r =>
    r = if m.next p = none then .inr (some p) else .inl (m.next p) := by
  rw [lastTurn]
  refine (read_meets hp).bind fun node hnode => ?_
  rw [hnode, next]
  split
  · exact Traced.Meets.pure rfl
  · exact Traced.Meets.pure rfl

/-- The loop of `ListPush` ends at the last node. -/
theorem last_meets {last : ℕ} (h : Chain m.next list (nodes ++ [last]))
    (hlive : ∀ p ∈ nodes ++ [last], p ∈ m.live) (hfuel : nodes.length < fuel) :
    Traced.Meets quiet (Traced.loop (lastTurn m) fuel list) fun r => r = some last := by
  induction nodes generalizing list fuel with
  | nil =>
    obtain ⟨fuel, rfl⟩ : ∃ k, fuel = k + 1 := ⟨fuel - 1, by omega⟩
    obtain ⟨rfl, hnext⟩ := h
    have hnone : m.next last = none := hnext
    refine (lastTurn_meets (hlive last (List.mem_singleton_self _))).bind fun r hr => ?_
    rw [hr, if_pos hnone]
    exact Traced.Meets.pure rfl
  | cons p nodes ih =>
    obtain ⟨fuel, rfl⟩ : ∃ k, fuel = k + 1 := ⟨fuel - 1, by omega⟩
    obtain ⟨rfl, hrest⟩ := h
    have hsome : m.next p ≠ none := by
      intro hnone
      rw [hnone] at hrest
      cases nodes with
      | nil => cases hrest.1
      | cons _ _ => cases hrest.1
    refine (lastTurn_meets (hlive p List.mem_cons_self)).bind fun r hr => ?_
    rw [hr, if_neg hsome]
    exact ih hrest (fun q hq => hlive q (List.mem_cons_of_mem _ hq)) (Nat.lt_of_succ_lt_succ hfuel)

/-- The data of a list behind a `ListPush`. -/
def pushed (data : Option α) (alloc : Bool) : List (Option α) → List (Option α)
  | none :: rest => data :: rest
  | contents => if alloc then contents ++ [data] else contents

/-- The heap gives a block that is not in use. -/
def Fresh (m : ListMem α) (block : Option (ℕ × ListElem α)) : Prop :=
  ∀ p elem, block = some (p, elem) → p ∉ m.live

theorem listPush_meets (data : Option α) {block : Option (ℕ × ListElem α)}
    (h : Holds m list nodes contents) (hne : contents ≠ []) (hblock : Fresh m block)
    (hfuel : nodes.length ≤ fuel) :
    Traced.Meets quiet (m.listPush fuel list data block) fun m' => ∃ nodes', nodes <+: nodes' ∧
      Holds m' list nodes' (pushed data block.isSome contents) := by
  obtain ⟨d, rest, rfl⟩ := List.exists_cons_of_ne_nil hne
  obtain ⟨p, nodes, rfl, rfl, hp, hd, hrest⟩ := h.cons
  rw [listPush, if_neg (Option.some_ne_none p)]
  refine (read_meets hp).bind fun node hnode => ?_
  rw [hnode, hd]
  cases d with
  | none =>
    -- the only node of an empty list takes the data
    rw [if_pos rfl]
    refine (modify_meets hp).mono fun m' hm' => ⟨p :: nodes, List.prefix_rfl, ?_⟩
    rw [hm']
    exact h.set_head data
  | some a =>
    rw [if_neg (Option.some_ne_none a)]
    obtain ⟨init, last, hinit⟩ : ∃ init last, p :: nodes = init ++ [last] :=
      ⟨_, _, (List.dropLast_append_getLast (List.cons_ne_nil p nodes)).symm⟩
    have hlast : last ∈ m.live := h.live last (by rw [hinit]; simp)
    have hlength : init.length < fuel := by
      have := congrArg List.length hinit
      simp at this hfuel
      omega
    rw [hinit] at h ⊢
    refine (last_meets h.chain h.live hlength).bind fun elem helem => ?_
    subst helem
    cases block with
    | none =>
      -- the link of the last node is the null pointer already
      have hnext : (m.elem last).next = none := (Seg.mid_iff.mp h.chain).2
      refine (modify_meets hlast).bind fun m' hm' => Traced.Meets.pure ⟨_, List.prefix_rfl, ?_⟩
      subst hm'
      have hsame : m.set last (fun elem => { elem with next := none }) = m := by
        rw [set, ← hnext, Function.update_eq_self]
      rw [hsame]
      exact h
    | some block =>
      obtain ⟨q, elem⟩ := block
      have hq : q ∉ m.live := hblock q elem rfl
      have hne {p : ℕ} (hp : p ∈ init ++ [last]) : p ≠ q := ne_of_mem_of_not_mem (h.live p hp) hq
      refine (modify_meets (List.mem_cons_of_mem _ hlast)).bind fun m₂ hm₂ => ?_
      subst hm₂
      rw [if_neg (Option.some_ne_none q)]
      refine (modify_meets List.mem_cons_self).bind fun m₃ hm₃ => ?_
      subst hm₃
      refine (modify_meets List.mem_cons_self).bind fun m₄ hm₄ => ?_
      subst hm₄
      refine (modify_meets List.mem_cons_self).mono fun m₅ hm₅ =>
        ⟨init ++ [last, q], ⟨[q], List.append_assoc _ _ _⟩, ?_⟩
      subst hm₅
      -- the writes to the new node leave the others as they are, and the last one is linked to it
      have hlastq : last ≠ q := hne (by simp)
      refine h.link ⟨some last, none, data⟩ rfl (fun p' hp' => ?_) ?_ ?_ rfl
      · have hp'q : p' ≠ q := hne (List.mem_append_left _ hp')
        have hp'last : p' ≠ last := by
          rintro rfl
          exact List.disjoint_of_nodup_append h.nodup hp' (List.mem_singleton_self _)
        rw [set_elem_ne hp'q, set_elem_ne hp'q, set_elem_ne hp'q, set_elem_ne hp'last]
        exact Function.update_of_ne hp'q _ _
      · rw [set_elem_ne hlastq, set_elem_ne hlastq, set_elem_ne hlastq, set_elem_self]
        dsimp only
        rw [Function.update_of_ne hlastq]
      · simp only [set_elem_self]

theorem listCreate_meets {elem : ListElem α} :
    Traced.Meets quiet (m.listCreate (some (p, elem))) fun r =>
      r.1 = some p ∧ Holds r.2 (some p) [p] [none] := by
  refine (modify_meets List.mem_cons_self).bind fun m₁ hm₁ => ?_
  subst hm₁
  refine (modify_meets List.mem_cons_self).bind fun m₂ hm₂ => ?_
  subst hm₂
  refine (modify_meets List.mem_cons_self).bind fun m₃ hm₃ => ?_
  subst hm₃
  refine Traced.Meets.pure ⟨rfl, .of_cons List.mem_cons_self ?_ ⟨Seg.nil_iff.mpr ?_, nofun, rfl⟩⟩
  · simp only [set_elem_self]
  · simp only [next, set_elem_self]

theorem read_eq (hp : p ∈ m.live) : m.read (some p) = ⟨[.access p true], .ret (m.elem p)⟩ := by
  rw [← decide_eq_true hp]
  rfl

theorem modify_eq (hp : p ∈ m.live) :
    m.modify f (some p) = ⟨[.access p true], .ret (m.set p f)⟩ := by
  rw [← decide_eq_true hp]
  rfl

theorem heapFree_eq (hp : p ∈ m.live) :
    m.heapFree p = ⟨[.free p true], .ret { m with live := m.live.erase p }⟩ := by
  rw [← decide_eq_true hp]
  rfl

/-- An empty list is left as it is. -/
theorem listPop_empty (h : Holds m list nodes (none :: contents)) :
    ∃ p, m.listPop list = ⟨[.access p true], .ret (none, list, m)⟩ := by
  obtain ⟨p, nodes, rfl, rfl, hp, hd, -⟩ := h.cons
  refine ⟨p, ?_⟩
  rw [listPop, read_eq hp, Traced.bind_of_ret rfl, if_pos hd]
  rfl

/-- The only node stays, without its data. -/
theorem listPop_last {a : α} (h : Holds m list nodes [some a]) : ∃ p m',
    m.listPop list = ⟨[.access p true, .access p true], .ret (some a, list, m')⟩ ∧
      Holds m' list nodes [none] := by
  obtain ⟨p, nodes, rfl, rfl, hp, hd, hrest⟩ := h.cons
  have hnil : nodes = [] := List.map_eq_nil_iff.mp hrest.data
  subst hnil
  have hnext : (m.elem p).next = none := hrest.chain
  refine ⟨p, m.set p fun elem => { elem with data := none }, ?_, h.set_head none⟩
  rw [listPop, read_eq hp, Traced.bind_of_ret rfl, hd, if_neg (Option.some_ne_none a),
    if_neg (not_not_intro hnext), modify_eq hp]
  rfl

/-- The first node is freed. -/
theorem listPop_next {a : α} {d : Option α} (h : Holds m list nodes (some a :: d :: contents)) :
    ∃ p rest m', nodes = p :: rest ∧
      m.listPop list = ⟨[.access p true, .free p true], .ret (some a, m.next p, m')⟩ ∧
      Holds m' (m.next p) rest (d :: contents) := by
  have hnodup := h.nodup
  obtain ⟨p, nodes, rfl, rfl, hp, hd, hrest⟩ := h.cons
  obtain ⟨hfirst, -⟩ := List.nodup_cons.mp hnodup
  refine ⟨p, nodes, { m with live := m.live.erase p }, rfl, ?_, hrest.congr (fun _ _ => rfl) ?_⟩
  · obtain ⟨q, -, hq, -⟩ := hrest.cons
    have hne : (m.elem p).next ≠ none := by
      intro hnone
      rw [next, hnone] at hq
      cases hq
    rw [listPop, read_eq hp, Traced.bind_of_ret rfl, hd, if_neg (Option.some_ne_none a), if_pos hne,
      heapFree_eq hp]
    rfl
  · intro q hq
    exact (List.mem_erase_of_ne (ne_of_mem_of_not_mem hq hfirst)).mpr (hrest.live q hq)

theorem listTop_eq {d : Option α} (h : Holds m list nodes (d :: contents)) :
    ∃ p, m.listTop list = ⟨[.access p true], .ret d⟩ := by
  obtain ⟨p, nodes, rfl, rfl, hp, rfl, -⟩ := h.cons
  refine ⟨p, ?_⟩
  rw [listTop, if_neg (Option.some_ne_none p), read_eq hp]
  rfl

theorem listIsEmpty_eq {d : Option α} (h : Holds m list nodes (d :: contents)) :
    ∃ p, m.listIsEmpty list = ⟨[.access p true], .ret (d.isNone && contents.isEmpty)⟩ := by
  obtain ⟨p, nodes, rfl, rfl, hp, hd, hrest⟩ := h.cons
  have hnext : (m.elem p).next.isNone = contents.isEmpty := by
    cases contents with
    | nil =>
      obtain rfl := List.map_eq_nil_iff.mp hrest.data
      have hnone : (m.elem p).next = none := hrest.chain
      rw [hnone]
      rfl
    | cons d' contents =>
      obtain ⟨q, -, hq, -⟩ := hrest.cons
      have hsome : (m.elem p).next = some q := hq
      rw [hsome]
      rfl
  refine ⟨p, ?_⟩
  rw [listIsEmpty, if_neg (Option.some_ne_none p), read_eq hp, ← hd, ← hnext]
  rfl

/-! ## Enumerating -/

/-- The data that the callback is called with: those up to the first one that it fails for. -/
def enumerateCalls (callback : Option α → γ → KeStatus × γ) : List (Option α) → γ → List (Option α)
  | [], _ => []
  | data :: next, context =>
    let (status, context) := callback data context
    data :: if failed status then [] else enumerateCalls callback next context

/-- One turn of the loop of `ListEnumerate`, whose second pointer is one node ahead. -/
theorem enumerateTurn_eq {callback : Option α → γ → KeStatus × γ} {context context' : γ}
    {status : KeStatus} (hp : p ∈ m.live) (hnext : ∀ q, m.next p = some q → q ∈ m.live)
    (hcall : callback (m.elem p).data context = (status, context')) :
    enumerateTurn m callback (some p, m.next p, context) =
      if failed status then
        ⟨[.access p true, .call (m.elem p).data], .ret (.inr
          (if status = .statusListStopIterating then .statusSuccess else status, context'))⟩
      else
        ⟨.access p true :: .call (m.elem p).data :: (m.next p).toList.map (.access · true),
          .ret (.inl (m.next p, (m.next p).bind m.next, context'))⟩ := by
  rw [enumerateTurn]
  dsimp only
  rw [if_neg (Option.some_ne_none p), read_eq hp, Traced.bind_of_ret rfl, hcall]
  dsimp only
  split
  · rfl
  · rcases hq : m.next p with _ | q
    · rfl
    · rw [if_neg (Option.some_ne_none q), read_eq (hnext q hq)]
      rfl

/-- The loop from any node on. -/
theorem enumerateLoop_eq (callback : Option α → γ → KeStatus × γ) (context : γ)
    (h : Holds m list nodes contents) (hfuel : nodes.length < fuel) :
    ∃ t, Traced.loop (enumerateTurn m callback) fuel (list, list.bind m.next, context) =
        ⟨t, .ret (KernelList.enumerateFrom callback contents context)⟩ ∧
      (∀ e ∈ t, e.InUse ∧ e.freed = none) ∧
      t.filterMap ListEvent.called = enumerateCalls callback contents context := by
  induction nodes generalizing list contents context fuel with
  | nil =>
    obtain ⟨fuel, rfl⟩ : ∃ k, fuel = k + 1 := ⟨fuel - 1, by omega⟩
    obtain rfl : list = none := h.chain
    obtain rfl : [] = contents := h.data
    exact ⟨[], rfl, nofun, rfl⟩
  | cons p nodes ih =>
    obtain ⟨fuel, rfl⟩ : ∃ k, fuel = k + 1 := ⟨fuel - 1, by omega⟩
    cases contents with
    | nil => cases h.data
    | cons d contents =>
      obtain ⟨_, _, rfl, heq, hp, rfl, hrest⟩ := h.cons
      obtain ⟨rfl, rfl⟩ := List.cons.inj heq
      obtain ⟨t, hloop, hok, hcalls⟩ :=
        ih (callback (m.elem p).data context).2 hrest (Nat.lt_of_succ_lt_succ hfuel)
      rcases hcall : callback (m.elem p).data context with ⟨status, context'⟩
      rw [hcall] at hloop hcalls
      -- the turn reads the next node too
      have hlive (q) (hq : m.next p = some q) : q ∈ m.live := by
        obtain ⟨_, rfl, -⟩ := hrest.chain.chain_cons hq
        exact hrest.live q List.mem_cons_self
      have hturn := enumerateTurn_eq hp hlive hcall
      rw [KernelList.enumerateFrom, enumerateCalls, hcall]
      dsimp only
      by_cases hfailed : failed status
      · rw [if_pos hfailed] at hturn
        rw [if_pos hfailed, if_pos hfailed]
        refine ⟨_, Traced.loop_leave hturn fuel, ?_, rfl⟩
        simp [ListEvent.InUse, ListEvent.freed]
      · rw [if_neg hfailed] at hturn
        rw [if_neg hfailed, if_neg hfailed]
        refine ⟨_, Traced.loop_eq hturn hloop, fun e he => ?_, ?_⟩
        · have hcases : e = .access p true ∨ e = .call (m.elem p).data ∨
              (∃ q, e = .access q true) ∨ e ∈ t := by
            simp only [List.cons_append, List.mem_cons, List.mem_append, List.mem_map] at he
            rcases he with he | he | ⟨q, -, he⟩ | he
            · exact .inl he
            · exact .inr (.inl he)
            · exact .inr (.inr (.inl ⟨q, he.symm⟩))
            · exact .inr (.inr (.inr he))
          rcases hcases with rfl | rfl | ⟨q, rfl⟩ | he
          · exact ⟨rfl, rfl⟩
          · exact ⟨trivial, rfl⟩
          · exact ⟨rfl, rfl⟩
          · exact hok e he
        · rw [List.filterMap_append, hcalls]
          cases m.next p with
          | none => rfl
          | some q => rfl

/-- The callback is not called for an empty list. -/
theorem listEnumerate_empty (fuel : ℕ) (callback : Option α → γ → KeStatus × γ) (context : γ)
    (h : Holds m list nodes [none]) : ∃ p, m.listEnumerate fuel list (some callback) context =
      ⟨[.access p true], .ret (.statusSuccess, context)⟩ := by
  obtain ⟨p, heq⟩ := listIsEmpty_eq h
  obtain ⟨q, -, rfl, -⟩ := h.cons
  refine ⟨p, ?_⟩
  rw [listEnumerate, if_neg (Option.some_ne_none q), heq]
  rfl

theorem listEnumerate_eq (callback : Option α → γ → KeStatus × γ) (context : γ) {a : α}
    (h : Holds m list nodes (some a :: contents)) (hfuel : nodes.length < fuel) :
    ∃ t, m.listEnumerate fuel list (some callback) context =
        ⟨t, .ret (KernelList.enumerateFrom callback (some a :: contents) context)⟩ ∧
      (∀ e ∈ t, e.InUse ∧ e.freed = none) ∧
      t.filterMap ListEvent.called = enumerateCalls callback (some a :: contents) context := by
  obtain ⟨t, hloop, hok, hcalls⟩ := enumerateLoop_eq callback context h hfuel
  obtain ⟨p, heq⟩ := listIsEmpty_eq h
  obtain ⟨q, nodes, rfl, rfl, hq, -, -⟩ := h.cons
  refine ⟨.access p true :: .access q true :: t, ?_, fun e he => ?_, hcalls⟩
  · rw [listEnumerate, if_neg (Option.some_ne_none q), heq]
    refine Traced.bind_eq rfl ?_
    rw [if_neg (by simp), read_eq hq]
    exact Traced.bind_eq rfl hloop
  · rcases List.mem_cons.mp he with rfl | he
    · exact ⟨rfl, rfl⟩
    · rcases List.mem_cons.mp he with rfl | he
      · exact ⟨rfl, rfl⟩
      · exact hok e he

end ListMem

/-! ## Queues -/

/-- A list of the kernel: its nodes and the pointer to it. -/
structure ListState (α : Type) where
  mem : ListMem α
  list : Option ℕ

inductive ListOp (α γ : Type) where
  | push (data : Option α) (block : Option (ℕ × ListElem α))
  | pop
  | top
  | isEmpty
  | enumerate (callback : Option α → γ → KeStatus × γ) (context : γ)

/-- What a call returns: `done` is that of `ListPush`, which returns nothing. -/
inductive ListAnswer (α γ : Type) where
  | done
  | data (data : Option α)
  | empty (isEmpty : Bool)
  | status (status : KeStatus) (context : γ)

namespace ListOp

variable {α γ : Type}

/-- The call on a list. -/
def call (fuel : ℕ) (s : ListState α) :
    ListOp α γ → Traced (ListEvent α) (ListAnswer α γ × ListState α)
  | push data block => do
    let mem ← s.mem.listPush fuel s.list data block
    return (.done, { s with mem })
  | pop => do
    let (data, list, mem) ← s.mem.listPop s.list
    return (.data data, ⟨mem, list⟩)
  | top => do
    let data ← s.mem.listTop s.list
    return (.data data, s)
  | isEmpty => do
    let isEmpty ← s.mem.listIsEmpty s.list
    return (.empty isEmpty, s)
  | enumerate callback context => do
    let (status, context) ← s.mem.listEnumerate fuel s.list (some callback) context
    return (.status status context, s)

/-- Data that are not null are pushed, and the heap has a block for them. -/
def Admitted (s : ListState α) : ListOp α γ → Prop
  | push data block => data.isSome ∧ block.isSome ∧ s.mem.Fresh block
  | _ => True

/-- What a queue answers: the oldest element, whether there is one, and how the callback went
through the elements. -/
def answer (queue : List α) : ListOp α γ → ListAnswer α γ
  | push _ _ => .done
  | pop => .data queue.head?
  | top => .data queue.head?
  | isEmpty => .empty queue.isEmpty
  | enumerate callback context =>
    let (status, context) := KernelList.enumerateFrom callback (queue.map some) context
    .status status context

/-- The elements that the callback is called with. -/
def calls (queue : List α) : ListOp α γ → List (Option α)
  | enumerate callback context => ListMem.enumerateCalls callback (queue.map some) context
  | _ => []

/-- The queue behind the call. -/
def after (queue : List α) : ListOp α γ → List α
  | push data _ => queue ++ data.toList
  | pop => queue.tail
  | _ => queue

/-- The data of the nodes of a queue. -/
def contents : List α → List (Option α)
  | [] => [none]
  | queue => queue.map some

/-- The list is this queue. -/
def Represents (s : ListState α) (nodes : List ℕ) (queue : List α) : Prop :=
  s.mem.Holds s.list nodes (contents queue)

/-- The call does on a list what it does on a queue. It frees the nodes that it takes out of the
list, each of them once. -/
def IsQueueCall (op : ListOp α γ) (s : ListState α) (queue : List α)
    (x : Traced (ListEvent α) (ListAnswer α γ × ListState α)) : Prop :=
  ∃ s' nodes nodes', x.outcome = .ret (op.answer queue, s') ∧ (∀ e ∈ x.trace, e.InUse) ∧
    x.trace.filterMap ListEvent.called = op.calls queue ∧
    Represents s nodes queue ∧ nodes.Nodup ∧ Represents s' nodes' (op.after queue) ∧
    x.trace.filterMap ListEvent.freed = nodes.filter (· ∉ nodes')

variable {op : ListOp α γ} {s s' : ListState α} {nodes : List ℕ} {queue : List α} {fuel : ℕ}

theorem contents_ne_nil (queue : List α) : contents queue ≠ [] := by
  cases queue with
  | nil => exact List.cons_ne_nil _ _
  | cons a queue => exact List.cons_ne_nil _ _

theorem contents_eq (queue : List α) : contents queue = queue.head? :: queue.tail.map some := by
  cases queue with
  | nil => rfl
  | cons a queue => rfl

theorem contents_concat (queue : List α) (a : α) :
    ListMem.pushed (some a) true (contents queue) = contents (queue ++ [a]) := by
  cases queue with
  | nil => rfl
  | cons b queue => simp [contents, ListMem.pushed]

/-- No node is taken out. -/
theorem filter_nodes_kept {nodes' : List ℕ} (h : nodes <+: nodes') :
    nodes.filter (· ∉ nodes') = [] := by
  apply List.filter_eq_nil_iff.mpr
  intro p hp
  simpa using h.subset hp

theorem isQueueCall_push {data : Option α} {block : Option (ℕ × ListElem α)}
    (h : Represents s nodes queue) (hop : Admitted s (push (γ := γ) data block))
    (hfuel : nodes.length ≤ fuel) :
    IsQueueCall (push data block) s queue (call fuel s (push (γ := γ) data block)) := by
  obtain ⟨hdata, hblock, hfresh⟩ := hop
  obtain ⟨a, rfl⟩ := Option.isSome_iff_exists.mp hdata
  obtain ⟨m', hret, hok, nodes', hnodes, hholds⟩ :=
    (ListMem.listPush_meets (some a) h (contents_ne_nil queue) hfresh hfuel).yields fun _ => id
  rw [hblock, contents_concat] at hholds
  have hcall : call fuel s (push (γ := γ) (some a) block) =
      ⟨(s.mem.listPush fuel s.list (some a) block).trace, .ret (.done, ⟨m', s.list⟩)⟩ := by
    rw [call, Traced.bind_pure_eq, hret]
    rfl
  rw [hcall]
  refine ⟨_, nodes, nodes', rfl, fun e he => (hok e he).1, ?_, h, h.nodup, hholds, ?_⟩
  · exact List.filterMap_eq_nil_iff.mpr fun e he => (hok e he).2.2
  · rw [filter_nodes_kept hnodes]
    exact List.filterMap_eq_nil_iff.mpr fun e he => (hok e he).2.1

/-- A call that leaves the list as it is, and accesses nodes only. -/
theorem isQueueCall_same {t : List (ListEvent α)} (h : Represents s nodes queue)
    (hafter : op.after queue = queue) (hok : ∀ e ∈ t, e.InUse ∧ e.freed = none)
    (hcalls : t.filterMap ListEvent.called = op.calls queue) :
    IsQueueCall op s queue ⟨t, .ret (op.answer queue, s)⟩ := by
  refine ⟨s, nodes, nodes, rfl, fun e he => (hok e he).1, hcalls, h, h.nodup, ?_, ?_⟩
  · rw [hafter]
    exact h
  · rw [filter_nodes_kept List.prefix_rfl]
    exact List.filterMap_eq_nil_iff.mpr fun e he => (hok e he).2

theorem isQueueCall_top (h : Represents s nodes queue) :
    IsQueueCall (top : ListOp α γ) s queue (call fuel s top) := by
  have hholds := h
  rw [Represents, contents_eq] at hholds
  obtain ⟨p, heq⟩ := ListMem.listTop_eq hholds
  have hcall : call fuel s (top : ListOp α γ) =
      ⟨[.access p true], .ret (answer queue (top : ListOp α γ), s)⟩ := by
    rw [call, heq]
    rfl
  rw [hcall]
  exact isQueueCall_same h rfl (by simp [ListEvent.InUse, ListEvent.freed]) rfl

theorem isQueueCall_isEmpty (h : Represents s nodes queue) :
    IsQueueCall (isEmpty : ListOp α γ) s queue (call fuel s isEmpty) := by
  have hholds := h
  rw [Represents, contents_eq] at hholds
  obtain ⟨p, heq⟩ := ListMem.listIsEmpty_eq hholds
  have hempty : (queue.head?.isNone && (queue.tail.map some).isEmpty) = queue.isEmpty := by
    cases queue with
    | nil => rfl
    | cons a queue => rfl
  have hcall : call fuel s (isEmpty : ListOp α γ) =
      ⟨[.access p true], .ret (answer queue (isEmpty : ListOp α γ), s)⟩ := by
    rw [call, heq, hempty]
    rfl
  rw [hcall]
  exact isQueueCall_same h rfl (by simp [ListEvent.InUse, ListEvent.freed]) rfl

theorem isQueueCall_pop (h : Represents s nodes queue) :
    IsQueueCall (pop : ListOp α γ) s queue (call fuel s pop) := by
  match queue with
  | [] =>
    obtain ⟨p, heq⟩ := ListMem.listPop_empty h
    have hcall : call fuel s (pop : ListOp α γ) =
        ⟨[.access p true], .ret (answer [] (pop : ListOp α γ), s)⟩ := by
      rw [call, heq]
      rfl
    rw [hcall]
    exact isQueueCall_same h rfl (by simp [ListEvent.InUse, ListEvent.freed]) rfl
  | [a] =>
    obtain ⟨p, m', heq, hholds⟩ := ListMem.listPop_last h
    have hcall : call fuel s (pop : ListOp α γ) = ⟨[.access p true, .access p true],
        .ret (answer [a] (pop : ListOp α γ), ⟨m', s.list⟩)⟩ := by
      rw [call, heq]
      rfl
    rw [hcall]
    refine ⟨_, nodes, nodes, rfl, by simp [ListEvent.InUse], rfl, h, h.nodup, hholds, ?_⟩
    rw [filter_nodes_kept List.prefix_rfl]
    rfl
  | a :: b :: queue =>
    obtain ⟨p, rest, m', rfl, heq, hholds⟩ := ListMem.listPop_next h
    have hcall : call fuel s (pop : ListOp α γ) = ⟨[.access p true, .free p true],
        .ret (answer (a :: b :: queue) (pop : ListOp α γ), ⟨m', s.mem.next p⟩)⟩ := by
      rw [call, heq]
      rfl
    rw [hcall]
    refine ⟨_, p :: rest, rest, rfl, by simp [ListEvent.InUse], rfl, h, h.nodup, hholds, ?_⟩
    have hfirst : p ∉ rest := (List.nodup_cons.mp h.nodup).1
    rw [List.filter_cons_of_pos (by simpa using hfirst), filter_nodes_kept List.prefix_rfl]
    rfl

theorem isQueueCall_enumerate (callback : Option α → γ → KeStatus × γ) (context : γ)
    (h : Represents s nodes queue) (hfuel : nodes.length < fuel) :
    IsQueueCall (enumerate callback context) s queue
      (call fuel s (enumerate callback context)) := by
  cases queue with
  | nil =>
    obtain ⟨p, heq⟩ := ListMem.listEnumerate_empty fuel callback context h
    have hcall : call fuel s (enumerate callback context) =
        ⟨[.access p true], .ret (answer [] (enumerate callback context), s)⟩ := by
      rw [call, heq]
      rfl
    rw [hcall]
    exact isQueueCall_same h rfl (by simp [ListEvent.InUse, ListEvent.freed]) rfl
  | cons a queue =>
    obtain ⟨t, heq, hok, hcalls⟩ := ListMem.listEnumerate_eq callback context h hfuel
    have hcall : call fuel s (enumerate callback context) =
        ⟨t, .ret (answer (a :: queue) (enumerate callback context), s)⟩ := by
      rw [call, heq]
      exact (Traced.bind_eq rfl rfl).trans (congrArg (Traced.mk · _) (List.append_nil t))
    rw [hcall]
    exact isQueueCall_same h rfl hok hcalls

/-- A call on a list that is a queue. -/
theorem isQueueCall (h : Represents s nodes queue) (hop : Admitted s op)
    (hfuel : nodes.length < fuel) : op.IsQueueCall s queue (op.call fuel s) := by
  cases op with
  | push data block => exact isQueueCall_push h hop hfuel.le
  | pop => exact isQueueCall_pop h
  | top => exact isQueueCall_top h
  | isEmpty => exact isQueueCall_isEmpty h
  | enumerate callback context => exact isQueueCall_enumerate callback context h hfuel

/-! ## Runs -/

/-- A call that returns. -/
def ListStep (fuel : ℕ) (s : ListState α) (op : ListOp α γ) (s' : ListState α) : Prop :=
  ∃ answer, (op.call fuel s).outcome = .ret (answer, s')

/-- The queue behind the calls. -/
def queueAfter (ops : List (ListOp α γ)) : List α := ops.foldl after []

theorem queueAfter_concat (ops : List (ListOp α γ)) (op : ListOp α γ) :
    queueAfter (ops ++ [op]) = op.after (queueAfter ops) := by
  simp [queueAfter]

theorem length_queueAfter_le (ops : List (ListOp α γ)) : (queueAfter ops).length ≤ ops.length := by
  induction ops using List.reverseRecOn with
  | nil => exact Nat.le_refl 0
  | append_singleton ops op ih =>
    rw [queueAfter_concat, List.length_append, List.length_singleton]
    cases op with
    | push data block =>
      have hdata : data.toList.length ≤ 1 := Option.length_toList_le
      simp only [after, List.length_append]
      omega
    | pop =>
      simp only [after, List.length_tail]
      omega
    | _ => exact Nat.le_succ_of_le ih

/-- There are not more nodes than calls, and always the first one. -/
theorem Represents.length_le (h : Represents s nodes queue) {n : ℕ} (hn : queue.length ≤ n)
    (hpos : 0 < n) : nodes.length ≤ n := by
  have hlength := congrArg List.length h.data
  rw [List.length_map, contents_eq, List.length_cons, List.length_map, List.length_tail] at hlength
  omega

theorem represents_run {ops : List (ListOp α γ)} {s₀ : ListState α} (h : Represents s₀ nodes [])
    (hrun : Run (Guarded Admitted (ListStep fuel)) s₀ ops s) (hfuel : ops.length + 1 < fuel) :
    ∃ nodes, Represents s nodes (queueAfter ops) := by
  induction hrun with
  | nil => exact ⟨nodes, h⟩
  | @snoc s s' ops op _ hstep ih =>
    rw [List.length_append, List.length_singleton] at hfuel
    obtain ⟨nodes, hs⟩ := ih (by omega)
    obtain ⟨hop, answer, hret⟩ := hstep
    -- a loop takes one turn for each node, and there are not more nodes than calls
    have hlength := hs.length_le ((length_queueAfter_le ops).trans (Nat.le_succ _)) (Nat.succ_pos _)
    have hlt : ops.length.succ < fuel := by omega
    obtain ⟨s'', -, nodes', hret', -, -, -, -, hs', -⟩ := isQueueCall hs hop (hlength.trans_lt hlt)
    cases hret.symm.trans hret'
    rw [queueAfter_concat]
    exact ⟨nodes', hs'⟩

/-- Behind any calls on a list made by `ListCreate` the next one is that of a queue. -/
theorem linkedList_queue {m m₀ : ListMem α} {block : ℕ × ListElem α} {list : Option ℕ}
    {ops : List (ListOp α γ)} (hcreate : (m.listCreate (some block)).outcome = .ret (list, m₀))
    (hrun : Run (Guarded Admitted (ListStep fuel)) ⟨m₀, list⟩ ops s) (hop : Admitted s op)
    (hfuel : ops.length + 1 < fuel) : op.IsQueueCall s (queueAfter ops) (op.call fuel s) := by
  obtain ⟨p, elem⟩ := block
  obtain ⟨rfl, hcreated⟩ := ListMem.listCreate_meets.ret _ hcreate
  have hempty : Represents ⟨m₀, some p⟩ [p] [] := hcreated
  obtain ⟨nodes, hs⟩ := represents_run hempty hrun hfuel
  have hlength := hs.length_le ((length_queueAfter_le ops).trans (Nat.le_succ _)) (Nat.succ_pos _)
  exact isQueueCall hs hop (by omega)

/-- An element that has not been set, and a heap without blocks in use. -/
def noElem : ListElem ℕ := ⟨none, none, none⟩

def noBlocks : ListMem ℕ := ⟨fun _ => noElem, []⟩

/-- The nodes of the list that is created at the address 8. -/
def createdAt8 : ListMem ℕ :=
  (((noBlocks.heapAlloc (some (8, noElem))).2.set 8 fun elem => { elem with prev := none }).set 8
    fun elem => { elem with next := none }).set 8 fun elem => { elem with data := none }

/-- Three pushes and a `ListPop`. -/
def threePushesPop : List (ListOp ℕ ℕ) :=
  [push (some 1) (some (16, noElem)), push (some 2) (some (16, noElem)),
    push (some 3) (some (24, noElem)), pop]

/-- The callback adds up the data. -/
def sumData (data : Option ℕ) (sum : ℕ) : KeStatus × ℕ := (.statusSuccess, sum + data.getD 0)

/-- Behind three pushes and a `ListPop`, the next call is that of a queue of two elements. -/
theorem threePushesPop_queue : ∃ s : ListState ℕ,
    Run (Guarded Admitted (ListStep 8)) ⟨createdAt8, some 8⟩ threePushesPop s ∧
      (push (some 4) (some (8, noElem)) : ListOp ℕ ℕ).IsQueueCall s [2, 3]
        (call 8 s (push (some 4) (some (8, noElem)))) ∧
      (pop : ListOp ℕ ℕ).IsQueueCall s [2, 3] (call 8 s pop) ∧
      (enumerate sumData 0).IsQueueCall s [2, 3] (call 8 s (enumerate sumData 0)) := by
  have hcreate : (noBlocks.listCreate (some (8, noElem))).outcome = .ret (some 8, createdAt8) := rfl
  have hfresh {p : ℕ} {l : List ℕ} (h : p ∉ l) (q : ℕ) (elem : ListElem ℕ)
      (heq : some (p, noElem) = some (q, elem)) : q ∉ l := by
    cases heq
    exact h
  have hruns : ∃ s : ListState ℕ,
      Run (Guarded Admitted (ListStep 8)) ⟨createdAt8, some 8⟩ threePushesPop s ∧
        s.mem.live = [24, 16] := by
    have hfirst : 16 ∉ [8] := by decide
    have hsecond : 24 ∉ [16, 8] := by decide
    exact ⟨_, .snoc (.snoc (.snoc (.single ⟨⟨rfl, rfl, hfresh hfirst⟩, _, rfl⟩)
      ⟨⟨rfl, rfl, hfresh hfirst⟩, _, rfl⟩) ⟨⟨rfl, rfl, hfresh hsecond⟩, _, rfl⟩)
      ⟨trivial, _, rfl⟩, rfl⟩
  obtain ⟨s, hrun, hlive⟩ := hruns
  have hpush : Admitted s (push (γ := ℕ) (some 4) (some (8, noElem))) :=
    ⟨rfl, rfl, hfresh (hlive ▸ by decide)⟩
  exact ⟨s, hrun, linkedList_queue hcreate hrun hpush (by decide),
    linkedList_queue hcreate hrun trivial (by decide),
    linkedList_queue hcreate hrun trivial (by decide)⟩

end ListOp

end LtMicros
