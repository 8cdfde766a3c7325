import LtMicros.LinkedListQueue

/-!
# Going through a linked list

`ListDestroyEx` goes through the nodes that it frees with a second pointer that is one node ahead,
and `ListGet` looks at the node behind the one that it has come to.
-/

namespace LtMicros

open Lib

/-- The node that is read or written. -/
def ListEvent.accessed {α : Type} : ListEvent α → Option ℕ
  | access p _ => some p
  | _ => none

namespace ListMem

variable {α : Type} {m m₀ : ListMem α} {list : Option ℕ} {nodes : List ℕ}
  {contents : List (Option α)} {p q fuel : ℕ} {cleaner : Option (α → ListMem α → ListMem α)}

/-! ## Destroying a list -/

/-- The nodes behind the call of the cleaner for some data. -/
def cleaned (cleaner : Option (α → ListMem α → ListMem α)) (data : Option α) (m : ListMem α) :
    ListMem α :=
  match cleaner, data with
  | some cleaner, some data => cleaner data m
  | _, _ => m

/-- The cleaner leaves the node it is called for, and those behind it, as they are. -/
def Spares (cleaner : Option (α → ListMem α → ListMem α)) (m₀ : ListMem α) (nodes : List ℕ) :
    Prop :=
  ∀ pre p rest m, nodes = pre ++ p :: rest →
    (∀ q ∈ p :: rest, q ∈ m.live ∧ m.elem q = m₀.elem q) →
      ∀ q ∈ p :: rest, q ∈ (cleaned cleaner (m₀.elem p).data m).live ∧
        (cleaned cleaner (m₀.elem p).data m).elem q = m₀.elem q

/-- What the turn for a node does before it frees it. -/
def cleanEvents (cleaner : Option (α → ListMem α → ListMem α)) (p : ℕ) (data : Option α) :
    List (ListEvent α) :=
  if cleaner.isNone then [] else .access p true :: (data.toList.map fun a => .call (some a))

theorem clean_eq (hp : p ∈ m.live) : m.clean cleaner (some p) =
    ⟨cleanEvents cleaner p (m.elem p).data, .ret (cleaned cleaner (m.elem p).data m)⟩ := by
  cases cleaner with
  | none => rfl
  | some cleaner =>
    rw [clean, read_eq hp]
    refine Traced.bind_eq rfl ?_
    cases (m.elem p).data with
    | none => rfl
    | some data => rfl

theorem destroyTurn_eq {m₁ : ListMem α} (hp : p ∈ m.live)
    (hm₁ : cleaned cleaner (m.elem p).data m = m₁) (hkept : p ∈ m₁.live) (next : Option ℕ)
    (hnext : ∀ q, next = some q → q ∈ m₁.live.erase p) :
    destroyTurn cleaner (some p, next, m) =
      ⟨cleanEvents cleaner p (m.elem p).data ++
          (.free p true :: next.toList.map (.access · true)),
        .ret (.inl (next, next.bind m₁.next, { m₁ with live := m₁.live.erase p }))⟩ := by
  rw [destroyTurn]
  refine Traced.bind_eq (clean_eq hp) ?_
  rw [hm₁]
  rw [heapFree_eq hkept, Traced.bind_of_ret rfl]
  cases next with
  | none => rfl
  | some q =>
    rw [if_neg (Option.some_ne_none q), read_eq (hnext q rfl)]
    rfl

/-- What is done when the nodes of a list with these data are freed. -/
structure Destroys (cleaner : Option (α → ListMem α → ListMem α)) (nodes : List ℕ)
    (contents : List (Option α)) (t : List (ListEvent α)) : Prop where
  inUse : ∀ e ∈ t, e.InUse
  called : t.filterMap ListEvent.called =
    if cleaner.isSome then contents.filter Option.isSome else []
  freed : t.filterMap ListEvent.freed = nodes
  notAfterFree : t.Pairwise fun e e' => ∀ p, e.freed = some p → e'.accessed ≠ some p

/-- Before it frees its node, a turn accesses no other one. -/
theorem mem_cleanEvents {data : Option α} {e : ListEvent α} (he : e ∈ cleanEvents cleaner p data) :
    e.InUse ∧ e.freed = none ∧ ∀ q, e.accessed = some q → q = p := by
  cases cleaner with
  | none => cases he
  | some cleaner =>
    have hcases : e = .access p true ∨ ∃ a ∈ data.toList, .call (some a) = e := by
      simpa [cleanEvents] using he
    rcases hcases with rfl | ⟨a, -, rfl⟩
    · exact ⟨rfl, rfl, fun q hq => (Option.some.inj hq).symm⟩
    · exact ⟨trivial, rfl, nofun⟩

theorem called_cleanEvents (cleaner : Option (α → ListMem α → ListMem α)) (p : ℕ)
    (data : Option α) : (cleanEvents cleaner p data).filterMap ListEvent.called =
      if cleaner.isSome then [data].filter Option.isSome else [] := by
  cases cleaner with
  | none => rfl
  | some cleaner =>
    cases data with
    | none => rfl
    | some data => rfl

/-- The events of a turn in front of those of the rest. -/
theorem Destroys.cons (data : Option α) {t : List (ListEvent α)} {next : Option ℕ}
    (h : Destroys cleaner nodes contents t) (hp : p ∉ nodes)
    (hnext : ∀ q, next = some q → q ∈ nodes) (ht : ∀ e ∈ t, ∀ q, e.accessed = some q → q ∈ nodes) :
    Destroys cleaner (p :: nodes) (data :: contents)
        (cleanEvents cleaner p data ++ (.free p true :: next.toList.map (.access · true)) ++ t) ∧
      ∀ e ∈ cleanEvents cleaner p data ++ (.free p true :: next.toList.map (.access · true)) ++ t,
        ∀ q, e.accessed = some q → q ∈ p :: nodes := by
  -- what follows the free
  have hbehind : ∀ e ∈ next.toList.map (.access · true) ++ t,
      e.InUse ∧ ∀ q, e.accessed = some q → q ∈ nodes := by
    intro e he
    rcases List.mem_append.mp he with he | he
    · obtain ⟨q, hq, rfl⟩ := List.mem_map.mp he
      refine ⟨rfl, fun q' hq' => ?_⟩
      cases hq'
      exact hnext q (Option.mem_toList.mp hq)
    · exact ⟨h.inUse e he, ht e he⟩
  have hnotFreed : (next.toList.map fun q => (ListEvent.access q true : ListEvent α)).filterMap
      ListEvent.freed = [] := by
    cases next with
    | none => rfl
    | some q => rfl
  have hnotCalled : (next.toList.map fun q => (ListEvent.access q true : ListEvent α)).filterMap
      ListEvent.called = [] := by
    cases next with
    | none => rfl
    | some q => rfl
  rw [List.append_assoc, List.cons_append]
  constructor
  · constructor
    · intro e he
      rcases List.mem_append.mp he with he | he
      · exact (mem_cleanEvents he).1
      · rcases List.mem_cons.mp he with rfl | he
        · rfl
        · exact (hbehind e he).1
    · rw [List.filterMap_append, called_cleanEvents, List.filterMap_cons_none rfl,
        List.filterMap_append, hnotCalled, List.nil_append, h.called]
      cases cleaner with
      | none => rfl
      | some cleaner => exact (List.filter_append [data] contents).symm
    · have hclean : (cleanEvents cleaner p data).filterMap ListEvent.freed = [] :=
        List.filterMap_eq_nil_iff.mpr fun e he => (mem_cleanEvents he).2.1
      have hfree : (.free p true : ListEvent α).freed = some p := rfl
      rw [List.filterMap_append, hclean, List.nil_append, List.filterMap_cons_some hfree,
        List.filterMap_append, hnotFreed, List.nil_append, h.freed]
    · -- only the free of the node itself, and those of the rest, come before an access
      have hquiet {e e' : ListEvent α} (he : e.freed = none) (q) (hq : e.freed = some q) :
          e'.accessed ≠ some q := by
        rw [he] at hq
        cases hq
      refine List.pairwise_append.mpr ⟨?_, List.pairwise_cons.mpr ⟨?_, ?_⟩, ?_⟩
      · exact List.pairwise_of_forall_mem_list fun e he _ _ => hquiet (mem_cleanEvents he).2.1
      · intro e he q hq haccess
        cases hq
        exact hp ((hbehind e he).2 p haccess)
      · refine List.pairwise_append.mpr ⟨?_, h.notAfterFree, ?_⟩
        · exact List.pairwise_of_forall_mem_list fun e he _ _ =>
            hquiet (List.filterMap_eq_nil_iff.mp hnotFreed e he)
        · exact fun e he _ _ => hquiet (List.filterMap_eq_nil_iff.mp hnotFreed e he)
      · exact fun e he _ _ => hquiet (mem_cleanEvents he).2.1
  · intro e he q hq
    rcases List.mem_append.mp he with he | he
    · exact (mem_cleanEvents he).2.2 q hq ▸ List.mem_cons_self
    · rcases List.mem_cons.mp he with rfl | he
      · cases hq
      · exact List.mem_cons_of_mem _ ((hbehind e he).2 q hq)

/-- The loop of `ListDestroyEx` from any node on. -/
theorem destroyLoop (pre : List ℕ) (hspares : Spares cleaner m₀ (pre ++ nodes))
    (hchain : Chain m₀.next list nodes) (hnodes : ∀ q ∈ nodes, q ∈ m.live ∧ m.elem q = m₀.elem q)
    (hfuel : nodes.length < fuel) :
    ∃ t m', Traced.loop (destroyTurn cleaner) fuel (list, list.bind m₀.next, m) = ⟨t, .ret m'⟩ ∧
      Destroys cleaner nodes (nodes.map fun p => (m₀.elem p).data) t ∧
      ∀ e ∈ t, ∀ q, e.accessed = some q → q ∈ nodes := by
  induction nodes generalizing pre list m fuel with
  | nil =>
    obtain ⟨fuel, rfl⟩ : ∃ k, fuel = k + 1 := ⟨fuel - 1, by omega⟩
    obtain rfl : list = none := hchain
    refine ⟨[], m, rfl, ⟨nofun, ?_, rfl, .nil⟩, nofun⟩
    simp
  | cons p nodes ih =>
    obtain ⟨fuel, rfl⟩ : ∃ k, fuel = k + 1 := ⟨fuel - 1, by omega⟩
    have hnodup := List.nodup_cons.mp hchain.nodup
    obtain ⟨rfl, hrest⟩ := hchain
    have hp := hnodes p List.mem_cons_self
    -- the cleaner leaves the node and those behind it, whose second pointer is read after the free
    have hkept := hspares pre p nodes m rfl hnodes
    rw [← hp.2] at hkept
    obtain ⟨m₁, hm₁⟩ : ∃ m₁, cleaned cleaner (m.elem p).data m = m₁ := ⟨_, rfl⟩
    rw [hm₁] at hkept
    -- what is left of the list behind the free of its first node
    have hleft (q) (hq : q ∈ nodes) : q ∈ m₁.live.erase p ∧ m₁.elem q = m₀.elem q := by
      obtain ⟨hlive, helem⟩ := hkept q (List.mem_cons_of_mem _ hq)
      exact ⟨(List.mem_erase_of_ne (ne_of_mem_of_not_mem hq hnodup.1)).mpr hlive, helem⟩
    have hnext (q) (hq : m₀.next p = some q) : q ∈ nodes := by
      obtain ⟨_, rfl, -⟩ := hrest.chain_cons hq
      exact List.mem_cons_self
    have hturn := destroyTurn_eq hp.1 hm₁ (hkept p List.mem_cons_self).1 (m₀.next p)
      fun q hq => (hleft q (hnext q hq)).1
    have hbind : (m₀.next p).bind m₁.next = (m₀.next p).bind m₀.next := by
      rcases hq : m₀.next p with _ | q
      · rfl
      · exact congrArg ListElem.next (hleft q (hnext q hq)).2
    rw [hbind] at hturn
    have hspares' : Spares cleaner m₀ (pre ++ [p] ++ nodes) := by
      rw [List.append_assoc]
      exact hspares
    obtain ⟨t, m', hloop, hdestroys, haccessed⟩ := ih (m := { m₁ with live := m₁.live.erase p })
      (pre ++ [p]) hspares' hrest hleft (Nat.lt_of_succ_lt_succ hfuel)
    have hcons := hdestroys.cons (m.elem p).data hnodup.1 hnext haccessed
    rw [hp.2] at hcons hturn
    exact ⟨_, m', Traced.loop_eq hturn hloop, hcons.1, hcons.2⟩

/-- Reading a field of a node in use, before anything is freed. -/
theorem Destroys.access {t : List (ListEvent α)} (h : Destroys cleaner nodes contents t) (p : ℕ) :
    Destroys cleaner nodes contents (.access p true :: t) where
  inUse e he := by
    rcases List.mem_cons.mp he with rfl | he
    · rfl
    · exact h.inUse e he
  called := h.called
  freed := h.freed
  notAfterFree := by
    refine List.pairwise_cons.mpr ⟨fun e _ q hq => ?_, h.notAfterFree⟩
    cases hq

/-- `ListDestroyEx` calls the cleaner for the data of a list and frees its nodes. -/
theorem listDestroyEx_destroys (hchain : Chain m.next list nodes) (hlive : ∀ p ∈ nodes, p ∈ m.live)
    (hspares : Spares cleaner m nodes) (hfuel : nodes.length < fuel) :
    ∃ t m', m.listDestroyEx fuel list cleaner = ⟨t, .ret m'⟩ ∧ nodes.Nodup ∧
      Destroys cleaner nodes (nodes.map fun p => (m.elem p).data) t := by
  obtain ⟨t, m', hloop, hdestroys, -⟩ :=
    destroyLoop [] hspares hchain (fun q hq => ⟨hlive q hq, rfl⟩) hfuel
  cases nodes with
  | nil =>
    obtain rfl : list = none := hchain
    exact ⟨[], m, rfl, .nil, nofun, by simp, rfl, .nil⟩
  | cons p nodes =>
    obtain rfl : list = some p := hchain.1
    refine ⟨.access p true :: t, m', ?_, hchain.nodup, hdestroys.access p⟩
    rw [listDestroyEx, if_neg (Option.some_ne_none p), read_eq (hlive p List.mem_cons_self)]
    exact Traced.bind_eq rfl hloop

/-- Two nodes, the second one without data, and a block that is the data of the first one. -/
def twoNodes : ListMem ℕ where
  elem p := if p = 8 then ⟨none, some 16, some 32⟩ else ⟨some 8, none, none⟩
  live := [8, 16, 32]

/-- A cleaner that frees the data. -/
def freeData (data : ℕ) (m : ListMem ℕ) : ListMem ℕ := { m with live := m.live.erase data }

theorem twoNodes_destroys : ∃ t m', twoNodes.listDestroyEx 3 (some 8) (some freeData) =
    ⟨t, .ret m'⟩ ∧ [8, 16].Nodup ∧ Destroys (some freeData) [8, 16] [some 32, none] t := by
  have hspares : Spares (some freeData) twoNodes [8, 16] := by
    intro pre p rest m heq hkept q hq
    have hmem : q ∈ [8, 16] := by
      rw [heq]
      exact List.mem_append_right pre hq
    obtain ⟨hlive, helem⟩ := hkept q hq
    by_cases hp : p = 8
    · subst hp
      have hne : q ≠ 32 := by
        rintro rfl
        simp at hmem
      exact ⟨(List.mem_erase_of_ne hne).mpr hlive, helem⟩
    · have hdata : (twoNodes.elem p).data = none := by simp [twoNodes, hp]
      rw [hdata]
      exact ⟨hlive, helem⟩
  exact listDestroyEx_destroys ⟨rfl, rfl, rfl⟩ (by decide) hspares (by decide)

/-! ## Going to an index -/

/-- There is nothing behind the null pointer. -/
theorem Holds.of_none (h : Holds m none nodes contents) : contents = [] := by
  cases nodes with
  | nil => exact h.data.symm
  | cons p nodes => cases h.chain.1

/-- Nor is there a node where there are no data. -/
theorem Holds.eq_none (h : Holds m list nodes []) : list = none := by
  cases nodes with
  | nil => exact h.chain
  | cons p nodes => cases h.data

/-- The loop of `ListGet` does not come to the null pointer when there is a node behind the one
that it starts at. -/
theorem getLoop_meets {d : Option α} {index : ℕ} (h : Holds m list nodes (d :: contents))
    (hindex : index = 0 ∨ contents ≠ []) (hfuel : nodes.length ≤ fuel) :
    Traced.Meets quiet (Traced.loop (getTurn m) fuel (list, index)) fun r =>
      ∃ q j, r = (some q, j) ∧ q ∈ m.live ∧
        (if j = 0 then (m.elem q).data else none) = (d :: contents)[index]?.join := by
  induction contents generalizing list nodes d index fuel with
  | nil =>
    obtain ⟨p, nodes, rfl, rfl, hp, hd, hrest⟩ := h.cons
    obtain ⟨fuel, rfl⟩ : ∃ k, fuel = k + 1 := ⟨fuel - 1, by simp at hfuel; omega⟩
    -- with one node left, the loop is not entered
    obtain rfl := hindex.resolve_right (not_not_intro rfl)
    exact Traced.Meets.pure ⟨p, 0, rfl, hp, hd⟩
  | cons d' contents ih =>
    obtain ⟨p, nodes, rfl, rfl, hp, hd, hrest⟩ := h.cons
    obtain ⟨fuel, rfl⟩ : ∃ k, fuel = k + 1 := ⟨fuel - 1, by simp at hfuel; omega⟩
    cases index with
    | zero => exact Traced.Meets.pure ⟨p, 0, rfl, hp, hd⟩
    | succ index =>
      have hturn : Traced.Meets quiet (getTurn m (some p, index + 1)) fun r =>
          ∃ q, m.next p = some q ∧ q ∈ m.live ∧
            r = if m.next q = none then .inr (some q, index) else .inl (some q, index) := by
        obtain ⟨q, -, hq, -, hlive, -⟩ := hrest.cons
        refine (read_meets hp).bind fun node hnode => ?_
        have hnext : node.next = some q := by
          rw [hnode]
          exact hq
        rw [hnext]
        refine (read_meets hlive).bind fun node' hnode' => ?_
        rw [hnode']
        split
        next hnone => exact Traced.Meets.pure ⟨q, hq, hlive, (if_pos hnone).symm⟩
        next hsome => exact Traced.Meets.pure ⟨q, hq, hlive, (if_neg hsome).symm⟩
      refine hturn.bind fun r hr => ?_
      obtain ⟨q, hq, hlive, rfl⟩ := hr
      rw [hq] at hrest
      obtain ⟨_, rest, heq, -, -, hd', hlast⟩ := hrest.cons
      cases heq
      by_cases hnone : m.next q = none
      · rw [if_pos hnone]
        rw [hnone] at hlast
        obtain rfl := hlast.of_none
        refine Traced.Meets.pure ⟨q, index, rfl, hlive, ?_⟩
        cases index with
        | zero => exact hd'
        | succ index => rfl
      · rw [if_neg hnone]
        refine ih hrest (.inr ?_) (Nat.le_of_succ_le_succ hfuel)
        rintro rfl
        exact hnone hlast.eq_none

/-- `ListGet` in a list with a node behind the first one, and for the first one. -/
theorem listGet_meets {d : Option α} {index : ℕ} (h : Holds m list nodes (d :: contents))
    (hindex : index = 0 ∨ contents ≠ []) (hfuel : nodes.length ≤ fuel) :
    Traced.Meets quiet (m.listGet fuel list index) (· = (d :: contents)[index]?.join) := by
  have hloop := getLoop_meets h hindex hfuel
  obtain ⟨p, -, rfl, -⟩ := h.cons
  rw [listGet, if_neg (Option.some_ne_none p)]
  refine hloop.bind fun r hr => ?_
  obtain ⟨q, j, rfl, hlive, hdata⟩ := hr
  rw [← hdata]
  dsimp only
  split
  · exact (read_meets hlive).bind fun node hnode => Traced.Meets.pure (by rw [hnode])
  · exact Traced.Meets.pure rfl

/-- In a list with one node it goes through the null pointer behind that node. -/
theorem listGet_single {d : Option α} (h : Holds m list nodes [d]) (hfuel : 0 < fuel) {index : ℕ}
    (hindex : index ≠ 0) :
    ∃ p, m.listGet fuel list index = ⟨[.access p true, .null], .fault⟩ := by
  obtain ⟨fuel, rfl⟩ : ∃ k, fuel = k + 1 := ⟨fuel - 1, by omega⟩
  obtain ⟨p, nodes, rfl, rfl, hp, hd, hrest⟩ := h.cons
  have hnext : (m.elem p).next = none := hrest.eq_none
  refine ⟨p, ?_⟩
  have hturn : getTurn m (some p, index) = ⟨[.access p true, .null], .fault⟩ := by
    rw [getTurn]
    dsimp only
    rw [if_neg hindex, read_eq hp]
    refine Traced.bind_eq rfl ?_
    rw [hnext]
    rfl
  rw [listGet, if_neg (Option.some_ne_none p), Traced.loop, hturn]
  rfl

end ListMem

/-! ## Lists made by pushes -/

/-- A `ListPush` of any data, for which the heap may have no block. -/
def PushStep {α : Type} (fuel : ℕ) (s : ListState α)
    (op : Option α × Option (ℕ × ListElem α)) (s' : ListState α) : Prop :=
  s.mem.Fresh op.2 ∧ ∃ mem, (s.mem.listPush fuel s.list op.1 op.2).outcome = .ret mem ∧
    s' = { s with mem }

namespace ListState

variable {α : Type} {fuel : ℕ} {s s₀ : ListState α} {nodes : List ℕ}
  {ops : List (Option α × Option (ℕ × ListElem α))} {elements : List (Option α)}

/-- The elements behind a push. The null pointer is none in an empty list. -/
def pushElement (elements : List (Option α)) (op : Option α × Option (ℕ × ListElem α)) :
    List (Option α) :=
  match elements with
  | [] => op.1.toList.map some
  | elements => if op.2.isSome then elements ++ [op.1] else elements

/-- The elements of a list made by these pushes. -/
def elementsAfter (ops : List (Option α × Option (ℕ × ListElem α))) : List (Option α) :=
  ops.foldl pushElement []

/-- `ListGet` finds the element with the index, and nothing behind the last one. -/
def GetsElement (fuel : ℕ) (s : ListState α) (elements : List (Option α)) (index : ℕ) : Prop :=
  Traced.Yields ListEvent.InUse (s.mem.listGet fuel s.list index) (· = elements[index]?.join)

/-- The list has these elements. The data of its first node are not null unless it is empty. -/
def HasElements (s : ListState α) (nodes : List ℕ) : List (Option α) → Prop
  | [] => s.mem.Holds s.list nodes [none]
  | d :: rest => d.isSome ∧ s.mem.Holds s.list nodes (d :: rest)

theorem hasElements_push {op : Option α × Option (ℕ × ListElem α)} {s' : ListState α}
    (h : HasElements s nodes elements) (hstep : PushStep fuel s op s')
    (hfuel : nodes.length ≤ fuel) :
    ∃ nodes', HasElements s' nodes' (pushElement elements op) := by
  obtain ⟨hfresh, mem, hret, rfl⟩ := hstep
  cases elements with
  | nil =>
    obtain ⟨nodes', -, hholds⟩ := (ListMem.listPush_meets op.1 h (List.cons_ne_nil _ _) hfresh
      hfuel).ret mem hret
    refine ⟨nodes', ?_⟩
    rw [pushElement]
    rcases hdata : op.1 with _ | a
    · rw [hdata] at hholds
      exact hholds
    · rw [hdata] at hholds
      exact ⟨rfl, hholds⟩
  | cons d rest =>
    obtain ⟨hd, h⟩ := h
    obtain ⟨a, rfl⟩ := Option.isSome_iff_exists.mp hd
    obtain ⟨nodes', -, hholds⟩ := (ListMem.listPush_meets op.1 h (List.cons_ne_nil _ _) hfresh
      hfuel).ret mem hret
    refine ⟨nodes', ?_⟩
    have hsame : pushElement (some a :: rest) op =
        ListMem.pushed op.1 op.2.isSome (some a :: rest) := rfl
    rw [hsame]
    cases halloc : op.2.isSome with
    | true =>
      rw [halloc] at hholds
      exact ⟨rfl, hholds⟩
    | false =>
      rw [halloc] at hholds
      exact ⟨rfl, hholds⟩

theorem elementsAfter_concat (ops : List (Option α × Option (ℕ × ListElem α)))
    (op : Option α × Option (ℕ × ListElem α)) :
    elementsAfter (ops ++ [op]) = pushElement (elementsAfter ops) op := by
  simp [elementsAfter]

theorem length_pushElement_le (elements : List (Option α))
    (op : Option α × Option (ℕ × ListElem α)) :
    (pushElement elements op).length ≤ elements.length + 1 := by
  cases elements with
  | nil =>
    rw [pushElement, List.length_map]
    exact Option.length_toList_le
  | cons d rest =>
    rw [pushElement]
    · split
      · exact (List.length_append).le
      · exact Nat.le_succ _
    · exact List.cons_ne_nil d rest

theorem length_elementsAfter_le (ops : List (Option α × Option (ℕ × ListElem α))) :
    (elementsAfter ops).length ≤ ops.length := by
  induction ops using List.reverseRecOn with
  | nil => exact Nat.le_refl 0
  | append_singleton ops op ih =>
    rw [elementsAfter_concat, List.length_append, List.length_singleton]
    exact (length_pushElement_le _ op).trans (Nat.succ_le_succ ih)

/-- An empty list has a node too. -/
theorem HasElements.length_le (h : HasElements s nodes elements) {n : ℕ}
    (hn : elements.length ≤ n) : nodes.length ≤ n + 1 := by
  have hlength {contents : List (Option α)} (h : s.mem.Holds s.list nodes contents) :
      nodes.length = contents.length := by
    rw [← h.data, List.length_map]
  cases elements with
  | nil =>
    rw [hlength h]
    exact Nat.le_add_left 1 n
  | cons d rest =>
    rw [hlength h.2]
    exact Nat.le_succ_of_le hn

theorem hasElements_run (h : HasElements s₀ nodes []) (hrun : Run (PushStep fuel) s₀ ops s)
    (hfuel : ops.length < fuel) : ∃ nodes, HasElements s nodes (elementsAfter ops) := by
  induction hrun with
  | nil => exact ⟨nodes, h⟩
  | @snoc s s' ops op _ hstep ih =>
    rw [List.length_append, List.length_singleton] at hfuel
    obtain ⟨nodes, hs⟩ := ih (by omega)
    rw [elementsAfter_concat]
    exact hasElements_push hs hstep ((hs.length_le (length_elementsAfter_le ops)).trans hfuel.le)

theorem HasElements.getsElement_iff (h : HasElements s nodes elements) {index : ℕ}
    (hpos : 0 < fuel) (hfuel : nodes.length ≤ fuel) :
    s.GetsElement fuel elements index ↔ index = 0 ∨ 2 ≤ elements.length := by
  constructor
  · rintro ⟨r, hret, -, -⟩
    by_contra hfew
    obtain ⟨hindex, hlength⟩ := not_or.mp hfew
    obtain ⟨d, hsingle⟩ : ∃ d, s.mem.Holds s.list nodes [d] := by
      rcases elements with _ | ⟨d, _ | ⟨d', rest⟩⟩
      · exact ⟨none, h⟩
      · exact ⟨d, h.2⟩
      · exact absurd (by simp) hlength
    obtain ⟨p, heq⟩ := ListMem.listGet_single hsingle hpos hindex
    rw [heq] at hret
    cases hret
  · intro hindex
    have hok : ∃ r, (s.mem.listGet fuel s.list index).outcome = .ret r ∧
        (∀ e ∈ (s.mem.listGet fuel s.list index).trace, ListMem.quiet.ok e) ∧
        r = elements[index]?.join := by
      cases elements with
      | nil =>
        obtain rfl : index = 0 := hindex.resolve_right (by simp)
        exact (ListMem.listGet_meets h (.inl rfl) hfuel).yields fun _ => id
      | cons d rest =>
        refine (ListMem.listGet_meets h.2 (hindex.imp_right ?_) hfuel).yields fun _ => id
        rintro htwo rfl
        simp at htwo
    obtain ⟨r, hret, hquiet, hr⟩ := hok
    exact ⟨r, hret, fun e he => (hquiet e he).1, hr⟩

/-- In a list made by pushes `ListGet` finds its elements if and only if there are two of them, or
the first one is asked for. -/
theorem listGet_gets_iff {m m₀ : ListMem α} {block : ℕ × ListElem α} {list : Option ℕ}
    (hcreate : (m.listCreate (some block)).outcome = .ret (list, m₀))
    (hrun : Run (PushStep fuel) ⟨m₀, list⟩ ops s) (hfuel : ops.length < fuel) (index : ℕ) :
    s.GetsElement fuel (elementsAfter ops) index ↔ index = 0 ∨ 2 ≤ (elementsAfter ops).length := by
  obtain ⟨p, elem⟩ := block
  obtain ⟨rfl, hcreated⟩ := ListMem.listCreate_meets.ret _ hcreate
  have hempty : HasElements ⟨m₀, some p⟩ [p] [] := hcreated
  obtain ⟨nodes, hs⟩ := hasElements_run hempty hrun hfuel
  exact hs.getsElement_iff (by omega) ((hs.length_le (length_elementsAfter_le ops)).trans hfuel)

/-- The list that is created at the address 8, behind a push of the data 1. -/
def oneElement : ListState ℕ :=
  ⟨ListOp.createdAt8.set 8 fun elem => { elem with data := some 1 }, some 8⟩

theorem push_oneElement :
    Run (PushStep 3) ⟨ListOp.createdAt8, some 8⟩ [(some 1, none)] oneElement := by
  refine .single ⟨fun p elem heq => ?_, _, rfl, rfl⟩
  cases heq

/-- Behind one push the element with the index 1 is looked for through the null pointer. -/
theorem oneElement_not_getsElement :
    (ListOp.noBlocks.listCreate (some (8, ListOp.noElem))).outcome =
        .ret (some 8, ListOp.createdAt8) ∧
      Run (PushStep 3) ⟨ListOp.createdAt8, some 8⟩ [(some 1, none)] oneElement ∧
      oneElement.mem.listGet 3 oneElement.list 1 = ⟨[.access 8 true, .null], .fault⟩ ∧
      ¬oneElement.GetsElement 3 (elementsAfter [(some 1, none)]) 1 := by
  have hget : oneElement.mem.listGet 3 oneElement.list 1 = ⟨[.access 8 true, .null], .fault⟩ := rfl
  refine ⟨rfl, push_oneElement, hget, ?_⟩
  rintro ⟨r, hret, -⟩
  rw [hget] at hret
  cases hret

/-- Behind three pushes, the last element is found. -/
theorem threeElements_get_last : ∃ s : ListState ℕ,
    Run (PushStep 8) ⟨ListOp.createdAt8, some 8⟩
        [(some 1, none), (some 2, some (16, ListOp.noElem)), (some 3, some (24, ListOp.noElem))] s ∧
      s.GetsElement 8 [some 1, some 2, some 3] 2 := by
  have hcreate : (ListOp.noBlocks.listCreate (some (8, ListOp.noElem))).outcome =
      .ret (some 8, ListOp.createdAt8) := rfl
  have hfresh {p : ℕ} {l : List ℕ} (h : p ∉ l) (q : ℕ) (elem : ListElem ℕ)
      (heq : some (p, ListOp.noElem) = some (q, elem)) : q ∉ l := by
    cases heq
    exact h
  have hruns : ∃ s : ListState ℕ, Run (PushStep 8) ⟨ListOp.createdAt8, some 8⟩
      [(some 1, none), (some 2, some (16, ListOp.noElem)), (some 3, some (24, ListOp.noElem))] s := by
    have hsecond : 16 ∉ [8] := by decide
    have hthird : 24 ∉ [16, 8] := by decide
    exact ⟨_, .snoc (.snoc (.single ⟨fun _ _ heq => (Option.some_ne_none _ heq.symm).elim, _, rfl,
      rfl⟩) ⟨hfresh hsecond, _, rfl, rfl⟩) ⟨hfresh hthird, _, rfl, rfl⟩⟩
  obtain ⟨s, hrun⟩ := hruns
  exact ⟨s, hrun, (listGet_gets_iff hcreate hrun (by decide) 2).mpr (.inr (by decide))⟩

end ListState

end LtMicros
