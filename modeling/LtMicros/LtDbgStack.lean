import LtMicros.LtDbgAnswers

/-!
# Stack traces

`StackTraceCommand` walks from frame to frame as long as the saved `ebp` is not null, and puts the
addresses into a list whose mark for the end is null data. It comes back only if the frames end, and
loses the addresses from the first null one on.
-/

namespace LtMicros

open Lib Traced

namespace LtDbg

variable {env : DbgEnv} {s : LtDbg} {m : Mmu} {h h' : DbgHeap} {list list' : List (ℕ × U32)}
  {ebp data : U32} {addrs : List U32} {p n k fuel nbPtr : ℕ} {b : ℕ × ℕ}

/-! ## What a stack trace is -/

/-- The frames from `ebp` on, with their return addresses. -/
inductive Frames (m : Mmu) : U32 → List U32 → Prop
  | done : Frames m 0 []
  | frame {ebp addr next : U32} {addrs : List U32} : ebp ≠ 0 → m.readWord (ebp + 4) = .ret addr →
      m.readWord ebp = .ret next → Frames m next addrs → Frames m ebp (addr :: addrs)

/-- The words of a block. -/
def words (mem : Bytes) (p n : ℕ) : List ℕ := (List.range n).map fun i => mem.load32 (p + 4 * i)

/-- The response holds `eip` and the return addresses of all the frames. -/
def HoldsTrace (s s' : LtDbg) : Prop :=
  ∃ addrs, Frames s.mmu s.context.ebp addrs ∧
    s'.response.header.dataSize = 4 * (addrs.length + 1) ∧
    ∃ p, s'.response.data = some p ∧
      words s'.link.heap.mem p (addrs.length + 1) = (s.context.eip :: addrs).map BitVec.toNat

/-- The same call with other bytes in the heap and another response to fill in. -/
def withOutput (s : LtDbg) (mem : Bytes) (response : KeDebugResponse) : LtDbg :=
  { (s.setHeap { s.link.heap with mem }) with response }

/-- Whatever is in the heap and in the response before, the command returns with the addresses of
the frames. -/
def TracesStack (env : DbgEnv) (s : LtDbg) : Prop :=
  ∀ mem response, ∃ fuel s',
    ((s.withOutput mem response).stackTraceCommand env fuel).outcome = .ret s' ∧ s.HoldsTrace s'

/-- `HeapAlloc` serves the sizes, one after the other. -/
def Serves (env : DbgEnv) (h : DbgHeap) : List ℕ → Prop
  | [] => True
  | size :: sizes => h.Obtains env size ∧ Serves env (h.grown env size) sizes

/-- The frames end, none of the addresses is null, and the heap has blocks for the list and for the
result. -/
def WalksOut (env : DbgEnv) (s : LtDbg) : Prop :=
  ∃ addrs, Frames s.mmu s.context.ebp addrs ∧ (∀ addr ∈ s.context.eip :: addrs, addr ≠ 0) ∧
    Serves env s.link.heap (listElemSize :: (List.replicate addrs.length listElemSize ++
      [4 * (addrs.length + 1)]))

theorem Frames.unique {addrs' : List U32} (hframes : Frames m ebp addrs)
    (hframes' : Frames m ebp addrs') : addrs = addrs' := by
  induction hframes generalizing addrs' with
  | done =>
    cases hframes' with
    | done => rfl
    | frame hne => exact absurd rfl hne
  | frame hne haddr hnext _ ih =>
    cases hframes' with
    | done => exact absurd rfl hne
    | frame _ haddr' hnext' hrest =>
      cases haddr.symm.trans haddr'
      cases hnext.symm.trans hnext'
      rw [ih hrest]

/-- The bytes of the heap do not matter for it. -/
theorem Serves.setMem {sizes : List ℕ} (mem : Bytes) (hserves : Serves env h sizes) :
    Serves env { h with mem } sizes := by
  induction sizes generalizing h with
  | nil => trivial
  | cons size sizes ih => exact ⟨hserves.1, ih hserves.2⟩

/-! ## The words of the buffer -/

theorem words_congr {mem mem' : Bytes} (hmem : ∀ x, p ≤ x → x < p + 4 * n → mem' x = mem x) :
    words mem' p n = words mem p n := by
  apply List.map_congr_left
  intro i hi
  have hlt := List.mem_range.mp hi
  exact Bytes.load32_congr fun x hle hx => hmem x (by omega) (by omega)

/-- A word is put behind those that have been written. -/
theorem words_store (mem : Bytes) (p n : ℕ) (data : U32) :
    words (mem.store32 (p + 4 * n) data.toNat) p (n + 1) = words mem p n ++ [data.toNat] := by
  have hkept : words (mem.store32 (p + 4 * n) data.toNat) p n = words mem p n :=
    words_congr fun x _ hx => Bytes.store32_of_not_mem (.inl hx)
  rw [words, List.range_succ, List.map_append]
  refine congrArg₂ (· ++ ·) hkept ?_
  rw [List.map_singleton, Bytes.load32_store32, Nat.mod_eq_of_lt data.isLt]

/-! ## Freeing the nodes -/

/-- The block overlaps no other block in use. -/
def Apart (b : ℕ × ℕ) (h : DbgHeap) : Prop :=
  ∀ c ∈ h.live, c.1 ≠ b.1 → c.1 + c.2 ≤ b.1 ∨ b.1 + b.2 ≤ c.1

/-- No node of the list is in the block. -/
structure Safe (b : ℕ × ℕ) (h : DbgHeap) (list : List (ℕ × U32)) : Prop where
  apart : Apart b h
  nodes : ∀ e ∈ list, e.1 ≠ b.1

/-- The bytes of the block are the same. -/
def Keeps (b : ℕ × ℕ) (h h' : DbgHeap) : Prop :=
  ∀ x, b.1 ≤ x → x < b.1 + b.2 → h'.mem x = h.mem x

theorem Keeps.words_eq (hkeeps : Keeps b h h') (hn : 4 * n ≤ b.2) :
    words h'.mem b.1 n = words h.mem b.1 n :=
  words_congr fun x hle hlt => hkeeps x hle (by omega)

theorem heapFree_safe (hapart : Apart b h) (hne : p ≠ b.1) :
    ∃ t h', h.heapFree p = ⟨t, .ret h'⟩ ∧ Apart b h' ∧ Keeps b h h' := by
  rw [DbgHeap.heapFree]
  cases hfind : h.live.find? (·.1 = p) with
  | none => exact ⟨_, h, rfl, hapart, fun _ _ _ => rfl⟩
  | some c =>
    obtain ⟨q, size⟩ := c
    have hq : q = p := by simpa using List.find?_some hfind
    have hdisjoint := hapart (q, size) (List.mem_of_find?_eq_some hfind) (hq ▸ hne)
    refine ⟨_, _, rfl, fun c hc => hapart c (List.mem_of_mem_filter hc), fun x hle hlt => ?_⟩
    dsimp only at hdisjoint ⊢
    rw [hq] at hdisjoint
    exact Bytes.fill_of_not_mem (by omega)

theorem listDestroy_safe (hsafe : Safe b h list) :
    ∃ t h', listDestroy h list = ⟨t, .ret h'⟩ ∧ Keeps b h h' := by
  induction list generalizing h with
  | nil => exact ⟨[], h, rfl, fun _ _ _ => rfl⟩
  | cons e rest ih =>
    obtain ⟨t, h₁, hfree, hapart, hkeeps⟩ :=
      heapFree_safe hsafe.apart (hsafe.nodes e List.mem_cons_self)
    obtain ⟨t', h', hdestroy, hkeeps'⟩ :=
      ih ⟨hapart, fun e' he' => hsafe.nodes e' (List.mem_cons_of_mem _ he')⟩
    refine ⟨_, h', Traced.bind_eq hfree hdestroy, fun x hle hlt => ?_⟩
    rw [hkeeps' x hle hlt, hkeeps x hle hlt]

/-! ## Popping the addresses -/

/-- What `ListPop` leaves of a list whose first element is `e`. -/
def popped (e : ℕ × U32) (rest : List (ℕ × U32)) : List (ℕ × U32) :=
  if rest = [] then [(e.1, 0)] else rest

theorem listPop_safe {e : ℕ × U32} {rest : List (ℕ × U32)} (hsafe : Safe b h (e :: rest))
    (hne : e.2 ≠ 0) : ∃ t h', listPop h (e :: rest) = ⟨t, .ret (e.2, popped e rest, h')⟩ ∧
      Safe b h' (popped e rest) ∧ Keeps b h h' := by
  rw [listPop, if_neg hne, popped]
  by_cases hrest : rest = []
  · rw [if_pos hrest, if_pos hrest]
    refine ⟨_, h, rfl, ⟨hsafe.apart, fun e' he' => ?_⟩, fun _ _ _ => rfl⟩
    rw [List.mem_singleton.mp he']
    exact hsafe.nodes e List.mem_cons_self
  · rw [if_neg hrest, if_neg hrest]
    obtain ⟨t, h', hfree, hapart, hkeeps⟩ :=
      heapFree_safe hsafe.apart (hsafe.nodes e List.mem_cons_self)
    exact ⟨_, h', Traced.bind_eq hfree rfl,
      ⟨hapart, fun e' he' => hsafe.nodes e' (List.mem_cons_of_mem _ he')⟩, hkeeps⟩

/-- One address is moved to the buffer. -/
theorem popTurn_store {e : ℕ × U32} {rest : List (ℕ × U32)} (hsafe : Safe b h (e :: rest))
    (hne : e.2 ≠ 0) : ∃ t h', popTurn b.1 (n, e :: rest, h) = ⟨t, .ret (.inl (n + 1, popped e rest,
        { h' with mem := h'.mem.store32 (b.1 + 4 * n) e.2.toNat }))⟩ ∧
      Safe b h' (popped e rest) ∧ Keeps b h h' := by
  obtain ⟨t, h', hpop, hsafe', hkeeps⟩ := listPop_safe hsafe hne
  refine ⟨t ++ [], h', Traced.bind_eq hpop ?_, hsafe', hkeeps⟩
  dsimp only
  rw [if_neg hne]
  rfl

theorem popTurn_leave (hzero : ∀ e ∈ list.head?, e.2 = 0) :
    popTurn p (n, list, h) = ⟨[], .ret (.inr (list, h))⟩ := by
  cases list with
  | nil => rfl
  | cons e rest =>
    have hnull : e.2 = 0 := hzero e rfl
    have hpop : listPop h (e :: rest) = ⟨[], .ret (0, e :: rest, h)⟩ := by
      rw [listPop, if_pos hnull]
      rfl
    exact Traced.bind_eq hpop rfl

/-- The addresses of a list without null come one behind the other. -/
theorem pops_ret (n fuel : ℕ) (hsafe : Safe b h list) (hlist : list ≠ [])
    (hne : ∀ e ∈ list, e.2 ≠ 0) (hsize : 4 * (n + list.length) ≤ b.2) (hfuel : list.length < fuel) :
    ∃ t list' h', Traced.loop (popTurn b.1) fuel (n, list, h) = ⟨t, .ret (list', h')⟩ ∧
      Safe b h' list' ∧ words h'.mem b.1 (n + list.length) =
        words h.mem b.1 n ++ list.map fun e => e.2.toNat := by
  induction list generalizing h n fuel with
  | nil => exact absurd rfl hlist
  | cons e rest ih =>
    rw [List.length_cons] at hsize hfuel
    obtain ⟨fuel, rfl⟩ := Nat.exists_eq_add_one.mpr (Nat.zero_lt_of_lt hfuel)
    obtain ⟨t, h₁, hturn, hsafe₁, hkeeps⟩ := popTurn_store (n := n) hsafe (hne e List.mem_cons_self)
    have hstored : words (h₁.mem.store32 (b.1 + 4 * n) e.2.toNat) b.1 (n + 1) =
        words h.mem b.1 n ++ [e.2.toNat] := by
      rw [words_store, hkeeps.words_eq (by omega)]
    by_cases hrest : rest = []
    · -- the last node stays, and its null ends the loop in the next turn
      obtain ⟨fuel, rfl⟩ := Nat.exists_eq_add_one.mpr (show 0 < fuel by omega)
      have hpopped : popped e rest = [(e.1, 0)] := if_pos hrest
      rw [hpopped] at hturn hsafe₁
      have hleave : popTurn b.1 (n + 1, [(e.1, 0)],
          { h₁ with mem := h₁.mem.store32 (b.1 + 4 * n) e.2.toNat }) = ⟨[], .ret (.inr _)⟩ :=
        popTurn_leave fun e' he' => by
          cases he'
          rfl
      refine ⟨_, _, _, Traced.loop_eq hturn (Traced.loop_leave hleave fuel), ⟨hsafe₁.apart,
        hsafe₁.nodes⟩, ?_⟩
      rw [hrest]
      exact hstored
    · have hpopped : popped e rest = rest := if_neg hrest
      rw [hpopped] at hturn hsafe₁
      have hsafe₂ : Safe b { h₁ with mem := h₁.mem.store32 (b.1 + 4 * n) e.2.toNat } rest :=
        ⟨hsafe₁.apart, hsafe₁.nodes⟩
      obtain ⟨t', list', h', hloop, hsafe', hwords⟩ := ih (n + 1) fuel hsafe₂ hrest
        (fun e' he' => hne e' (List.mem_cons_of_mem _ he')) (by omega) (by omega)
      refine ⟨_, list', h', Traced.loop_eq hturn hloop, hsafe', ?_⟩
      rw [List.length_cons, ← Nat.add_assoc, Nat.add_right_comm, hwords, hstored, List.append_assoc]
      rfl

/-! ## Walking through the frames -/

/-- There is a first address, and it is not null. -/
def Headed (list : List (ℕ × U32)) : Prop := ∃ e rest, list = e :: rest ∧ e.2 ≠ 0

theorem listPush_grows (hhead : Headed list) (hget : h.Obtains env listElemSize) :
    listPush env h list data = ⟨[.alloc (env.place h.count) listElemSize] ++ [],
      .ret (list ++ [(env.place h.count, data)], h.grown env listElemSize)⟩ := by
  obtain ⟨e, rest, rfl, hne⟩ := hhead
  rw [listPush, if_neg hne]
  exact Traced.bind_eq (DbgHeap.heapAlloc_obtains hget) rfl

theorem frames_ret (nbPtr fuel : ℕ) (hframes : Frames m ebp addrs) {sizes : List ℕ}
    (hhead : Headed list)
    (hserves : Serves env h (List.replicate addrs.length listElemSize ++ sizes))
    (hfuel : addrs.length < fuel) : ∃ t list' h',
      Traced.loop (frameTurn env m) fuel (ebp, nbPtr, list, h) =
        ⟨t, .ret (nbPtr + addrs.length, list', h')⟩ ∧
      list'.map Prod.snd = list.map Prod.snd ++ addrs ∧ Serves env h' sizes := by
  obtain ⟨fuel, rfl⟩ := Nat.exists_eq_add_one.mpr (Nat.zero_lt_of_lt hfuel)
  induction hframes generalizing nbPtr list h fuel with
  | done =>
    exact ⟨[], list, h, Traced.loop_leave rfl fuel, (List.append_nil _).symm, hserves⟩
  | frame hne haddr hnext hrest ih =>
    rename_i ebp addr next addrs
    -- the first block is for this frame, the others for the ones behind it
    obtain ⟨hget, hserves⟩ := hserves
    rw [List.length_cons] at hfuel
    obtain ⟨fuel, rfl⟩ := Nat.exists_eq_add_one.mpr (show 0 < fuel by omega)
    have hturn : ∃ t, frameTurn env m (ebp, nbPtr, list, h) = ⟨t, .ret (.inl (next, nbPtr + 1,
        list ++ [(env.place h.count, addr)], h.grown env listElemSize))⟩ := by
      rw [frameTurn, if_neg hne, haddr, hnext]
      exact ⟨_, Traced.bind_eq rfl (Traced.bind_eq (listPush_grows hhead hget) rfl)⟩
    obtain ⟨t, hturn⟩ := hturn
    have hhead' : Headed (list ++ [(env.place h.count, addr)]) := by
      obtain ⟨e, rest, rfl, hnull⟩ := hhead
      exact ⟨e, rest ++ _, rfl, hnull⟩
    obtain ⟨t', list', h', hloop, hlist, hserves'⟩ :=
      ih (nbPtr + 1) hhead' hserves fuel (by omega)
    have hcount : nbPtr + 1 + addrs.length = nbPtr + (addr :: addrs).length := by
      rw [List.length_cons, Nat.add_assoc, Nat.add_comm 1]
    refine ⟨_, list', h', hcount ▸ Traced.loop_eq hturn hloop, ?_, hserves'⟩
    rw [hlist, List.map_append, List.append_assoc]
    rfl

/-- `HeapAlloc` answers the null pointer, or has got its block. -/
theorem heapAlloc_gets : (h.heapAlloc env n).Gives fun _ r =>
    r = (none, h) ∨ h.Obtains env n ∧ r = (some (env.place h.count), h.grown env n) := by
  constructor
  intro r hret
  by_cases hget : h.Obtains env n
  · rw [DbgHeap.heapAlloc_obtains hget] at hret
    exact .inr ⟨hget, (Outcome.ret.inj hret).symm⟩
  · rcases DbgHeap.heapAlloc_fails hget with halloc | halloc
    · rw [halloc] at hret
      exact .inl (Outcome.ret.inj hret).symm
    · rw [halloc] at hret
      cases hret

theorem heapAlloc_served (hservable : DbgHeap.Servable n) : (h.heapAlloc env n).Gives
    fun _ r => h.Obtains env n ∧ r = (some (env.place h.count), h.grown env n) := by
  constructor
  intro r hret
  apply (heapAlloc_gets.ret r hret).resolve_left
  rintro rfl
  exact (DbgHeap.heapAlloc_grants.ret _ hret).null rfl hservable

/-- The push touches no byte, and allocates when the first address is not null. -/
theorem listPush_served : (listPush env h list data).Gives fun _ r => r.2.mem = h.mem ∧
    (Headed list → Headed r.1 ∧ h.Obtains env listElemSize ∧ r.2 = h.grown env listElemSize) := by
  by_cases hhead : Headed list
  · obtain ⟨e, rest, rfl, hnull⟩ := hhead
    rw [listPush, if_neg hnull]
    apply (heapAlloc_served ⟨by decide, by decide⟩).bind
    rintro t r ⟨hget, rfl⟩
    apply Gives.pure
    exact ⟨rfl, fun _ => ⟨⟨e, rest ++ _, rfl, hnull⟩, hget, rfl⟩⟩
  · have hsame : (listPush env h list data).Gives fun _ r => r.2.mem = h.mem := by
      unfold listPush
      split
      · exact Gives.pure rfl
      · rename_i p first rest
        rw [if_pos (by_contra fun hne => hhead ⟨(p, first), rest, rfl, hne⟩)]
        exact Gives.pure rfl
    exact hsame.mono fun _ _ hmem => ⟨hmem, fun h => absurd h hhead⟩

/-- A turn takes the walk to the next frame. -/
theorem frameTurn_walk (hne : ebp ≠ 0) : (frameTurn env m (ebp, nbPtr, list, h)).Gives fun _ r =>
    ∃ addr next list' h', r = .inl (next, nbPtr + 1, list', h') ∧
      m.readWord (ebp + 4) = .ret addr ∧ m.readWord ebp = .ret next ∧ h'.mem = h.mem ∧
      (Headed list → Headed list' ∧ h.Obtains env listElemSize ∧
        h' = h.grown env listElemSize) := by
  rw [frameTurn, if_neg hne]
  apply Gives.bind_lift
  intro addr haddr
  apply listPush_served.bind
  rintro t ⟨list', h'⟩ ⟨hmem, hpush⟩
  apply Gives.bind_lift
  intro next hnext
  apply Gives.pure
  exact ⟨addr, next, list', h', rfl, haddr, hnext, hmem, hpush⟩

/-- A walk that comes to an end has counted the frames, and has got a node for each. -/
theorem frames_walk : (Traced.loop (frameTurn env m) fuel (ebp, nbPtr, list, h)).Gives fun _ r =>
    ∃ addrs, Frames m ebp addrs ∧ r.1 = nbPtr + addrs.length ∧ r.2.2.mem = h.mem ∧
      (Headed list → ∀ sizes, Serves env r.2.2 sizes →
        Serves env h (List.replicate addrs.length listElemSize ++ sizes)) := by
  induction fuel generalizing ebp nbPtr list h with
  | zero => exact ⟨fun _ hret => nomatch hret⟩
  | succ fuel ih =>
    by_cases hzero : ebp = 0
    · have hleave : frameTurn env m (ebp, nbPtr, list, h) = ⟨[], .ret (.inr (nbPtr, list, h))⟩ := by
        rw [frameTurn, if_pos hzero]
        rfl
      rw [Traced.loop_leave hleave]
      constructor
      intro r hret
      cases hret
      exact ⟨[], hzero ▸ .done, rfl, rfl, fun _ _ hserves => hserves⟩
    · rw [Traced.loop]
      apply (frameTurn_walk hzero).bind
      rintro t r ⟨addr, next, list', h', rfl, haddr, hnext, hmem, hpush⟩
      apply ih.mono
      rintro t' r ⟨addrs, hframes, hcount, hmem', hserves⟩
      refine ⟨addr :: addrs, .frame hzero haddr hnext hframes, ?_, hmem'.trans hmem,
        fun hhead sizes hrest => ?_⟩
      · rw [hcount, List.length_cons]
        omega
      · obtain ⟨hhead', hget, rfl⟩ := hpush hhead
        exact ⟨hget, hserves hhead' sizes hrest⟩

/-! ## Traces that are complete -/

/-- The list and the buffer, when the walk is over. -/
theorem safe_buffer (hget : h.Obtains env n) (hnodes : NodesLive h list) :
    Safe (env.place h.count, n) (h.grown env n) list := by
  refine ⟨fun c hc hne => ?_, fun e he => (hget.ne (by decide) (hnodes e he)).symm⟩
  rcases List.mem_cons.mp hc with rfl | hc
  · exact absurd rfl hne
  · exact (hget.2.2.2.2 c hc).symm

/-- The buffer has the addresses, also when the list has been destroyed. -/
theorem buffer_ret (hget : h.Obtains env (4 * list.length)) (hnodes : NodesLive h list)
    (hlist : list ≠ []) (hne : ∀ e ∈ list, e.2 ≠ 0) (hfuel : list.length < fuel) : ∃ r h',
      (Traced.loop (popTurn (env.place h.count)) fuel
        (0, list, h.grown env (4 * list.length))).outcome = .ret r ∧
      (listDestroy r.2 r.1).outcome = .ret h' ∧
      words h'.mem (env.place h.count) list.length = (list.map Prod.snd).map BitVec.toNat := by
  have hsize : 4 * (0 + list.length) ≤ 4 * list.length := by rw [Nat.zero_add]
  obtain ⟨t, list', h₁, hpops, hsafe, hwords⟩ :=
    pops_ret 0 fuel (safe_buffer hget hnodes) hlist hne hsize hfuel
  obtain ⟨t', h', hdestroy, hkeeps⟩ := listDestroy_safe hsafe
  refine ⟨(list', h₁), h', congrArg outcome hpops, congrArg outcome hdestroy, ?_⟩
  have hkept : words h'.mem (env.place h.count) list.length =
      words h₁.mem (env.place h.count) list.length := hkeeps.words_eq (Nat.le_refl _)
  rw [Nat.zero_add] at hwords
  rw [hkept, hwords, List.map_map]
  rfl

/-- The node that the list begins with. -/
theorem nodesLive_first (mem : Bytes) (data : U32) :
    NodesLive (DbgHeap.grown env { h with mem } listElemSize) [(env.place h.count, data)] := by
  intro e he
  rw [List.mem_singleton.mp he]
  exact List.mem_cons_self

theorem stackTraceCommand_holds (hwalks : WalksOut env s) : TracesStack env s := by
  intro mem response
  obtain ⟨addrs, hframes, hne, hfirst, hserves⟩ := hwalks
  let h₁ : DbgHeap := { s.link.heap.grown env listElemSize with mem }
  let node : ℕ × U32 := (env.place s.link.heap.count, s.context.eip)
  have halloc : DbgHeap.heapAlloc env { s.link.heap with mem } listElemSize =
      ⟨_, .ret (some node.1, h₁)⟩ := DbgHeap.heapAlloc_obtains hfirst
  obtain ⟨t, list, h₂, hwalk, hlist, hbuffer, -⟩ :=
    frames_ret 1 (addrs.length + 2) hframes ⟨node, [], rfl, hne _ List.mem_cons_self⟩
      (hserves.setMem mem) (Nat.lt_add_of_pos_right Nat.zero_lt_two)
  have hnodes : NodesLive h₂ list :=
    ((frames_gives (nodesLive_first mem _) rfl rfl).ret _ (congrArg outcome hwalk)).1
  have hlist : list.map Prod.snd = s.context.eip :: addrs := hlist
  have hlength : list.length = addrs.length + 1 := by
    rw [← List.length_map Prod.snd, hlist, List.length_cons]
  have hsize : (1 + addrs.length) * 4 % 2 ^ 32 = 4 * list.length := by
    have hlt := hbuffer.2.1
    omega
  rw [← hlength] at hbuffer
  have hget : (h₂.heapAlloc env ((1 + addrs.length) * 4 % 2 ^ 32)).outcome =
      .ret (some (env.place h₂.count), h₂.grown env (4 * list.length)) := by
    rw [hsize, DbgHeap.heapAlloc_obtains hbuffer]
  have hnotNull : ∀ e ∈ list, e.2 ≠ 0 := by
    intro e he
    exact hne e.2 (hlist ▸ List.mem_map_of_mem he)
  obtain ⟨⟨list', h₃⟩, h₄, hpops, hdestroy, hwords⟩ :=
    buffer_ret hbuffer hnodes (List.ne_nil_of_length_eq_add_one hlength) hnotNull
      (show list.length < addrs.length + 2 by omega)
  let header : KeDebugResponseHeader :=
    { response.header with
      command := cmdStackTrace, context := s.context, status := .dbgStatusSuccess,
      dataSize := 4 * list.length }
  refine ⟨addrs.length + 2, { s.setHeap h₄ with
    running := false, response := ⟨header, some (env.place h₂.count)⟩ }, ?_, addrs, hframes, ?_,
    env.place h₂.count, rfl, ?_⟩
  · refine bind_outcome_eq_ret.mpr ⟨_, congrArg outcome halloc, ?_⟩
    refine bind_outcome_eq_ret.mpr ⟨([node], h₁), rfl, ?_⟩
    refine bind_outcome_eq_ret.mpr ⟨_, congrArg outcome hwalk, ?_⟩
    refine bind_outcome_eq_ret.mpr ⟨_, hget, ?_⟩
    refine bind_outcome_eq_ret.mpr ⟨_, hpops, ?_⟩
    refine bind_outcome_eq_ret.mpr ⟨_, rfl, ?_⟩
    refine bind_outcome_eq_ret.mpr ⟨_, rfl, ?_⟩
    refine bind_outcome_eq_ret.mpr ⟨_, hdestroy, ?_⟩
    dsimp only
    rw [hsize]
    rfl
  · exact congrArg (4 * ·) hlength
  · rw [← hlist, ← hlength]
    exact hwords

/-! ## Traces that are not -/

/-- No word of the block is null. -/
def NotNull (mem : Bytes) (b : ℕ × ℕ) : Prop :=
  ∀ i, 4 * (i + 1) ≤ b.2 → mem.load32 (b.1 + 4 * i) ≠ 0

/-- Only addresses that are not null are stored. -/
theorem NotNull.store32 {mem : Bytes} (hnull : NotNull mem b) (hne : data ≠ 0) :
    NotNull (mem.store32 (b.1 + 4 * n) data.toNat) b := by
  intro i hi
  by_cases heq : i = n
  · rw [heq, Bytes.load32_store32, Nat.mod_eq_of_lt data.isLt]
    exact fun hzero => hne (BitVec.eq_of_toNat_eq hzero)
  · rw [Bytes.load32_store32_of_disjoint (by omega)]
    exact hnull i hi

theorem Keeps.notNull (hkeeps : Keeps b h h') (hnull : NotNull h.mem b) : NotNull h'.mem b := by
  intro i hi
  rw [Bytes.load32_congr fun x hle hlt => hkeeps x (by omega) (by omega)]
  exact hnull i hi

theorem pops_notNull (hsafe : Safe b h list) (hnull : NotNull h.mem b) :
    (Traced.loop (popTurn b.1) fuel (n, list, h)).Gives
      fun _ r => Safe b r.2 r.1 ∧ NotNull r.2.mem b := by
  apply Gives.loop (I := fun state => Safe b state.2.2 state.2.1 ∧ NotNull state.2.2.mem b)
  · rintro ⟨n, list, h⟩ ⟨hsafe, hnull⟩
    constructor
    intro r hret
    by_cases hzero : ∀ e ∈ list.head?, e.2 = 0
    · rw [popTurn_leave hzero] at hret
      cases hret
      refine ⟨fun _ hr => (Sum.inr_ne_inl hr).elim, fun r hr => ?_⟩
      cases hr
      exact ⟨hsafe, hnull⟩
    · cases list with
      | nil => exact absurd (fun _ he => nomatch he) hzero
      | cons e rest =>
        have hne : e.2 ≠ 0 := fun heq => hzero fun e' he' => by
          cases he'
          exact heq
        obtain ⟨t, h', hturn, hsafe', hkeeps⟩ := popTurn_store (n := n) hsafe hne
        rw [hturn] at hret
        cases hret
        refine ⟨fun state hstate => ?_, fun _ hr => (Sum.inl_ne_inr hr).elim⟩
        cases hstate
        exact ⟨⟨hsafe'.apart, hsafe'.nodes⟩, (hkeeps.notNull hnull).store32 hne⟩
  · exact ⟨hsafe, hnull⟩

theorem listDestroy_notNull (hsafe : Safe b h list) (hnull : NotNull h.mem b) :
    (listDestroy h list).Gives fun _ h' => NotNull h'.mem b := by
  obtain ⟨t, h', hdestroy, hkeeps⟩ := listDestroy_safe hsafe
  rw [hdestroy]
  constructor
  intro r hret
  cases hret
  exact hkeeps.notNull hnull

/-- The walk has ended, and there were blocks for the list and for the result. -/
def Walked (env : DbgEnv) (s : LtDbg) (n : ℕ) : Prop :=
  ∃ addrs, Frames s.mmu s.context.ebp addrs ∧ n = (1 + addrs.length) * 4 % 2 ^ 32 ∧
    (s.context.eip ≠ 0 → Serves env s.link.heap (listElemSize ::
      (List.replicate addrs.length listElemSize ++ [n])))

/-- A response with data tells so, and has stored nothing but addresses. -/
theorem stackTraceCommand_walk {mem : Bytes} {response : KeDebugResponse}
    (hmem : ∀ b, NotNull mem b) (hdata : response.data = none) :
    ((s.withOutput mem response).stackTraceCommand env fuel).Gives fun _ s' =>
      s'.response.data = none ∨ ∃ p, s'.response.data = some p ∧
        Walked env s s'.response.header.dataSize ∧
        NotNull s'.link.heap.mem (p, s'.response.header.dataSize) := by
  unfold stackTraceCommand
  apply (heapAlloc_served ⟨by decide, by decide⟩).bind
  rintro t₁ r ⟨hfirst, rfl⟩
  let node : ℕ × U32 := (env.place s.link.heap.count, s.context.eip)
  apply Gives.bind_eq (a := ([node], _)) rfl
  apply Gives.bind (P := fun _ r => NodesLive r.2.2 r.2.1 ∧ ∃ addrs,
    Frames s.mmu s.context.ebp addrs ∧ r.1 = 1 + addrs.length ∧ r.2.2.mem = mem ∧
      (Headed [node] → ∀ sizes, Serves env r.2.2 sizes →
        Serves env _ (List.replicate addrs.length listElemSize ++ sizes)))
  · constructor
    intro r hret
    exact ⟨((frames_gives (nodesLive_first mem _) rfl rfl).ret r hret).1, frames_walk.ret r hret⟩
  rintro t₂ ⟨nbPtr, list, h₂⟩ ⟨hnodes, addrs, hframes, rfl, hmem₂, hserves⟩
  apply heapAlloc_gets.bind
  rintro t₃ r (rfl | ⟨hget, rfl⟩)
  · -- without a buffer the response stays without data
    apply Gives.bind (P := fun _ _ => True) ⟨fun _ _ => trivial⟩
    intro t₄ h₃ _
    exact Gives.pure (.inl hdata)
  · have hnull : NotNull (h₂.grown env ((1 + addrs.length) * 4 % 2 ^ 32)).mem
        (env.place h₂.count, (1 + addrs.length) * 4 % 2 ^ 32) := hmem₂ ▸ hmem _
    apply (pops_notNull (safe_buffer hget hnodes) hnull).bind
    rintro t₄ ⟨list', h₃⟩ ⟨hsafe, hnull⟩
    apply Gives.bind_eq (setCommand_eq _ _)
    apply Gives.bind_eq (setResult_eq _ _ _ _)
    apply (listDestroy_notNull hsafe hnull).bind
    intro t₅ h₄ hnull
    apply Gives.pure
    refine .inr ⟨_, rfl, ⟨addrs, hframes, rfl, fun heip => ?_⟩, hnull⟩
    exact ⟨hfirst, (hserves ⟨node, [], rfl, heip⟩ [_] ⟨hget, trivial⟩).setMem s.link.heap.mem⟩

/-- Bytes that are no address. -/
def filled : Bytes := fun _ => 0xFF

theorem filled_notNull : NotNull filled b := by
  intro i _
  rw [Bytes.load32]
  exact Nat.succ_ne_zero _

/-- None of the addresses can have been null, since null is never stored. -/
theorem walksOut_of_tracesStack (htraces : TracesStack env s) : WalksOut env s := by
  -- bytes that are not null and a response without data show what the command has set
  obtain ⟨fuel, s', hret, addrs, hframes, hdataSize, p, hp, hwords⟩ :=
    htraces filled { s.response with data := none }
  rcases (stackTraceCommand_walk (fun _ => filled_notNull) rfl).ret s' hret with
    hnone | ⟨q, hq, ⟨addrs', hframes', -, hserves⟩, hnull⟩
  · rw [hp] at hnone
    cases hnone
  · cases hp.symm.trans hq
    cases hframes.unique hframes'
    rw [hdataSize] at hserves hnull
    have hne : ∀ addr ∈ s.context.eip :: addrs, addr ≠ 0 := by
      rintro addr haddr rfl
      have hword := List.mem_map_of_mem (f := BitVec.toNat) haddr
      rw [← hwords] at hword
      obtain ⟨i, hi, hzero⟩ := List.mem_map.mp hword
      exact hnull i (Nat.mul_le_mul_left 4 (List.mem_range.mp hi)) hzero
    exact ⟨addrs, hframes, hne, hserves (hne _ List.mem_cons_self)⟩

/-- The command returns with all addresses of the stack exactly when the frames end, with addresses
that are not null, and the heap has the blocks. -/
theorem tracesStack_iff (env : DbgEnv) (s : LtDbg) : TracesStack env s ↔ WalksOut env s :=
  ⟨walksOut_of_tracesStack, stackTraceCommand_holds⟩

/-- Every word of the memory is the address of a word of the memory. -/
def endless : Mmu := ⟨fun _ => 0x01010101, 0⟩

theorem endless_readWord (v : U32) : endless.readWord v = .ret 0x01010101 := by
  have hbyte (v : U32) : endless.readByte v = .ret 1 := by
    have hlane : ∀ i < 4, Lib.Frames.byteOf 0x01010101 i = 1 := by decide
    have hon : flagOn 0x01010101 pagePresent = true := by decide
    have hmapped : endless.translate v = some ((0x01010101 &&& 0xFFFFF000#32) +
        (v &&& 0xFFF#32)) := by
      simp only [Mmu.translate, endless, hon, if_true]
    rw [Mmu.readByte, hmapped]
    exact congrArg Outcome.ret (hlane _ (Nat.mod_lt _ (by decide)))
  rw [Mmu.readWord, hbyte, hbyte, hbyte, hbyte]
  rfl

theorem not_frames_endless (hne : ebp ≠ 0) : ¬Frames endless ebp addrs := by
  intro hframes
  induction hframes with
  | done => exact hne rfl
  | frame _ _ hnext _ ih =>
    rw [endless_readWord] at hnext
    cases hnext
    exact ih (by decide)

/-- A walk that comes back to its frame never ends, and a null address is taken for the end of the
list. -/
theorem endless_null_not_traced :
    ¬TracesStack (LtDbgCom.peer [])
        { started with mmu := endless, context := ⟨0, 0x01010101, 1, 0⟩ } ∧
      ¬TracesStack (LtDbgCom.peer []) { started with context := ⟨0, 0, 0, 0⟩ } := by
  constructor
  · intro htraces
    obtain ⟨_, _, _, addrs, hframes, _⟩ := htraces filled started.response
    exact not_frames_endless (by decide) hframes
  · intro htraces
    obtain ⟨addrs, -, hne, -⟩ := walksOut_of_tracesStack htraces
    exact hne 0 List.mem_cons_self rfl

end LtDbg

end LtMicros
