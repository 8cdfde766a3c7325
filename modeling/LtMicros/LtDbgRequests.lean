import LtMicros.LtDbgCom

/-!
# Requests in their packets

`RecvRequest` does not compare the sizes that the peer sends: it reads a header from packets that
are too short for one, and copies as many bytes of the parameter as the header says.
-/

namespace LtMicros

open Lib

namespace DbgHeap

variable {env : DbgEnv} {h : DbgHeap} {p size : ℕ}

/-- `HeapAlloc` answers a block of this size. -/
def Obtains (env : DbgEnv) (h : DbgHeap) (size : ℕ) : Prop :=
  size ≠ 0 ∧ size < 2 ^ 31 ∧ h.Room (env.place h.count) size

/-- The heap with one more block. -/
def grown (env : DbgEnv) (h : DbgHeap) (size : ℕ) : DbgHeap :=
  { h with live := (env.place h.count, size) :: h.live, count := h.count + 1 }

theorem heapAlloc_obtains (hget : Obtains env h size) : h.heapAlloc env size =
    ⟨[.alloc (env.place h.count) size], .ret (some (env.place h.count), h.grown env size)⟩ := by
  have hsize : ¬(size = 0 ∨ 2 ^ 31 ≤ size) := not_or.mpr ⟨hget.1, Nat.not_le.mpr hget.2.1⟩
  rw [heapAlloc, if_neg hsize, if_pos hget.2.2]
  rfl

theorem heapAlloc_null (hsize : size = 0 ∨ 2 ^ 31 ≤ size) :
    h.heapAlloc env size = ⟨[], .ret (none, h)⟩ := by
  rw [heapAlloc, if_pos hsize]
  rfl

theorem heapAlloc_panics (hget : ¬Obtains env h size) (hsize : ¬(size = 0 ∨ 2 ^ 31 ≤ size)) :
    h.heapAlloc env size = ⟨[], .panic⟩ := by
  obtain ⟨hpos, hlt⟩ := not_or.mp hsize
  rw [heapAlloc, if_neg hsize, if_neg fun hroom => hget ⟨hpos, Nat.lt_of_not_le hlt, hroom⟩]
  rfl

/-- Otherwise it answers the null pointer, or not at all. -/
theorem heapAlloc_fails (hget : ¬Obtains env h size) :
    h.heapAlloc env size = ⟨[], .ret (none, h)⟩ ∨ h.heapAlloc env size = ⟨[], .panic⟩ := by
  by_cases hsize : size = 0 ∨ 2 ^ 31 ≤ size
  · exact .inl (heapAlloc_null hsize)
  · exact .inr (heapAlloc_panics hget hsize)

/-- In either case, a block that is given out is all that happens. -/
theorem heapAlloc_only :
    (h.heapAlloc env size).Only fun e => e = .alloc (env.place h.count) size := by
  rw [heapAlloc]
  split
  · exact Traced.only_pure
  · split
    · apply Traced.Only.bind
      · exact Traced.only_note rfl
      · exact fun _ _ => Traced.only_pure
    · exact Traced.only_lift

/-- A freed block is no longer in use, and holds zeros. -/
theorem heapFree_eq {n : ℕ} (hfind : h.live.find? (·.1 = p) = some (p, n)) :
    h.heapFree p = ⟨[.free p true],
      .ret { h with mem := h.mem.fill p 0 n, live := h.live.filter (·.1 ≠ p) }⟩ := by
  have hused : p ∈ h.live.map Prod.fst := List.mem_map_of_mem (List.mem_of_find?_eq_some hfind)
  rw [heapFree, hfind, decide_eq_true hused]
  rfl

/-- A new block does not start where one in use does. -/
theorem Obtains.ne {n q : ℕ} (hget : Obtains env h n) (hsize : size ≠ 0) (hmem : (q, size) ∈ h.live) :
    env.place h.count ≠ q := by
  have hapart : env.place h.count + n ≤ q ∨ q + size ≤ env.place h.count :=
    hget.2.2.2.2 _ hmem
  have hpos := hget.1
  omega

end DbgHeap

namespace LtDbgCom

open DbgHeap

variable {env : DbgEnv} {s s' : DbgLink} {request r : KeDebugRequest} {content size n : ℕ}

theorem readBytes_eq (s : DbgLink) (buffer n : ℕ) : readBytes env s buffer n =
    ⟨{ s.heap with mem := s.heap.mem.patch buffer (fun i => env.bytes (s.received + i)) n },
      s.received + n⟩ := by
  induction n generalizing s buffer with
  | zero =>
    have hmem : s.heap.mem.patch buffer (fun i => env.bytes (s.received + i)) 0 = s.heap.mem := by
      funext x
      exact if_neg (by omega)
    rw [readBytes, hmem]
    rfl
  | succ n ih =>
    rw [readBytes, ih]
    have hmem : Bytes.patch (Function.update s.heap.mem buffer (env.bytes s.received)) (buffer + 1)
        (fun i => env.bytes (s.received + 1 + i)) n =
        s.heap.mem.patch buffer (fun i => env.bytes (s.received + i)) (n + 1) := by
      funext x
      unfold Bytes.patch
      by_cases hx : x = buffer
      · subst hx
        rw [if_neg (by omega), if_pos (by omega), Function.update_self, Nat.sub_self]
        rfl
      · rw [Function.update_of_ne hx]
        by_cases hin : buffer + 1 ≤ x ∧ x < buffer + 1 + n
        · rw [if_pos hin, if_pos (by omega)]
          exact congrArg env.bytes (show s.received + 1 + (x - (buffer + 1)) =
            s.received + (x - buffer) by omega)
        · rw [if_neg hin, if_neg (by omega)]
    dsimp only
    rw [hmem, Nat.add_assoc, Nat.add_comm 1 n]

/-- The size of the packet that arrives, and the size of the parameter that it declares. -/
def packetSize (env : DbgEnv) (s : DbgLink) : ℕ := Bytes.load32 env.bytes s.received

def declaredSize (env : DbgEnv) (s : DbgLink) : ℕ := Bytes.load32 env.bytes (s.received + 8)

/-- The block of the packet. -/
def contentAt (env : DbgEnv) (s : DbgLink) : ℕ := env.place s.heap.count

/-- Only the packet is read. What is delivered is the parameter that it declares, and lies in the
packet. A packet that is too short for its parameter is not delivered; one of no bytes has no
request. -/
structure ParsesWithin (env : DbgEnv) (s : DbgLink)
    (x : Traced DbgEvent (KeStatus × KeDebugRequest × DbgLink)) : Prop where
  reads : ∀ a n, .read a n ∈ x.trace →
    contentAt env s ≤ a ∧ a + n ≤ contentAt env s + packetSize env s
  param : ∀ r s', packetSize env s ≠ 0 → x.outcome = .ret (.statusSuccess, r, s') →
    r.paramSize = declaredSize env s ∧ (r.paramSize = 0 → r.param = none) ∧
    (r.paramSize ≠ 0 → ∃ p, r.param = some p ∧ (p, r.paramSize) ∈ s'.heap.live ∧
      ∀ i < r.paramSize, s'.heap.mem (p + i) = env.bytes (s.received + 4 + requestHeaderSize + i))
  rejects : packetSize env s ≠ 0 → packetSize env s < requestHeaderSize + declaredSize env s →
    ∀ r s', x.outcome ≠ .ret (.statusSuccess, r, s')

/-- The packet has no bytes, or no block, or a header and all of its parameter, or there is no
block for the parameter. -/
def FitsPacket (env : DbgEnv) (s : DbgLink) : Prop :=
  packetSize env s = 0 ∨ ¬Obtains env s.heap (packetSize env s) ∨
  (requestHeaderSize ≤ packetSize env s ∧
    (requestHeaderSize + declaredSize env s ≤ packetSize env s ∨
      ¬Obtains env (s.heap.grown env (packetSize env s)) (declaredSize env s)))

/-! ## What `RecvRequest` does -/

/-- The heap and the port when the packet has arrived. -/
def arrived (env : DbgEnv) (s : DbgLink) : DbgLink :=
  ⟨{ s.heap.grown env (packetSize env s) with
      mem := s.heap.mem.patch (contentAt env s) (fun i => env.bytes (s.received + 4 + i))
        (packetSize env s) }, s.received + 4 + packetSize env s⟩

theorem recvPacket_empty (hsize : packetSize env s = 0) : recvPacket env s ⟨0, none⟩ =
    ⟨[], .ret (.statusSuccess, ⟨0, none⟩, { s with received := s.received + 4 })⟩ := by
  have hsize : Bytes.load32 env.bytes s.received = 0 := hsize
  rw [recvPacket]
  simp only [hsize]
  rfl

theorem recvPacket_arrives (hget : Obtains env s.heap (packetSize env s)) :
    recvPacket env s ⟨0, none⟩ = ⟨[.alloc (contentAt env s) (packetSize env s)],
      .ret (.statusSuccess, ⟨packetSize env s, some (contentAt env s)⟩, arrived env s)⟩ := by
  have halloc := heapAlloc_obtains hget
  have hne : ¬Bytes.load32 env.bytes s.received = 0 := hget.1
  unfold packetSize at halloc ⊢
  rw [recvPacket]
  simp only [if_neg hne]
  rw [halloc, Traced.bind_of_ret rfl]
  dsimp only
  rw [readBytes_eq]
  rfl

theorem recvPacket_fails (hne : packetSize env s ≠ 0)
    (hget : ¬Obtains env s.heap (packetSize env s)) :
    recvPacket env s ⟨0, none⟩ =
        ⟨[], .ret (.statusAllocFailed, ⟨0, none⟩, { s with received := s.received + 4 })⟩ ∨
      recvPacket env s ⟨0, none⟩ = ⟨[], .panic⟩ := by
  have hne : ¬Bytes.load32 env.bytes s.received = 0 := hne
  unfold packetSize at hget
  rw [recvPacket]
  simp only [if_neg hne]
  rcases heapAlloc_fails hget with halloc | halloc
  · rw [halloc, Traced.bind_of_ret rfl]
    exact .inl rfl
  · rw [halloc]
    exact .inr rfl

theorem recvRequest_empty (hsize : packetSize env s = 0) : recvRequest env s request =
    ⟨[], .ret (.statusSuccess, request, { s with received := s.received + 4 })⟩ := by
  rw [recvRequest, recvPacket_empty hsize]
  rfl

theorem recvRequest_fails (request : KeDebugRequest) (hne : packetSize env s ≠ 0)
    (hget : ¬Obtains env s.heap (packetSize env s)) :
    recvRequest env s request =
        ⟨[], .ret (.statusAllocFailed, request, { s with received := s.received + 4 })⟩ ∨
      recvRequest env s request = ⟨[], .panic⟩ := by
  rw [recvRequest]
  rcases recvPacket_fails hne hget with hpacket | hpacket
  · rw [hpacket]
    exact .inl rfl
  · rw [hpacket]
    exact .inr rfl

/-- The request in the packet, before there is a block for its parameter. -/
def requestIn (env : DbgEnv) (s : DbgLink) : KeDebugRequest :=
  ⟨(arrived env s).heap.mem.load32 (contentAt env s),
    (arrived env s).heap.mem.load32 (contentAt env s + 4), none⟩

/-- Behind the header of a packet that has arrived. -/
def takeParam (env : DbgEnv) (s : DbgLink) (content size : ℕ) (r : KeDebugRequest) :
    Traced DbgEvent (KeStatus × KeDebugRequest × DbgLink) := do
  if 0 < r.paramSize then
    match ← s.heap.heapAlloc env r.paramSize with
    | (none, heap) => return (.statusAllocFailed, r, { s with heap })
    | (some param, heap) => do
      Traced.note (.read (content + requestHeaderSize) r.paramSize)
      let mem := heap.mem.copy (content + requestHeaderSize) param r.paramSize
      let s ← cleanupPacket { s with heap := { heap with mem } } ⟨size, some content⟩
      return (.statusSuccess, { r with param := some param }, s)
  else do
    let s ← cleanupPacket s ⟨size, some content⟩
    return (.statusSuccess, r, s)

theorem recvRequest_arrives (hget : Obtains env s.heap (packetSize env s)) :
    recvRequest env s request =
      ⟨.alloc (contentAt env s) (packetSize env s) :: .read (contentAt env s) 4 ::
          .read (contentAt env s + 4) 4 ::
          (takeParam env (arrived env s) (contentAt env s) (packetSize env s)
            (requestIn env s)).trace,
        (takeParam env (arrived env s) (contentAt env s) (packetSize env s)
          (requestIn env s)).outcome⟩ := by
  rw [recvRequest, recvPacket_arrives hget, Traced.bind_of_ret rfl]
  dsimp only
  rw [if_neg hget.1]
  rfl

theorem cleanupPacket_eq (hfind : s.heap.live.find? (·.1 = content) = some (content, size)) :
    cleanupPacket s ⟨n, some content⟩ = ⟨[.free content true],
      .ret { s with heap := { s.heap with
        mem := s.heap.mem.fill content 0 size, live := s.heap.live.filter (·.1 ≠ content) } }⟩ := by
  rw [cleanupPacket]
  dsimp only
  rw [heapFree_eq hfind]
  rfl

theorem takeParam_none (hzero : r.paramSize = 0)
    (hfind : s.heap.live.find? (·.1 = content) = some (content, size)) :
    takeParam env s content n r = ⟨[.free content true], .ret (.statusSuccess, r,
      { s with heap := { s.heap with
        mem := s.heap.mem.fill content 0 size, live := s.heap.live.filter (·.1 ≠ content) } })⟩ := by
  rw [takeParam, if_neg (by omega), cleanupPacket_eq hfind]
  rfl

theorem takeParam_panics (hget : ¬Obtains env s.heap r.paramSize) (hpos : r.paramSize ≠ 0)
    (hlt : r.paramSize < 2 ^ 31) : takeParam env s content n r = ⟨[], .panic⟩ := by
  have hsize : ¬(r.paramSize = 0 ∨ 2 ^ 31 ≤ r.paramSize) := not_or.mpr ⟨hpos, Nat.not_le.mpr hlt⟩
  rw [takeParam, if_pos (Nat.pos_of_ne_zero hpos), heapAlloc_panics hget hsize]
  rfl

theorem takeParam_fails (hpos : r.paramSize ≠ 0) (hget : ¬Obtains env s.heap r.paramSize) :
    takeParam env s content n r = ⟨[], .ret (.statusAllocFailed, r, s)⟩ ∨
      takeParam env s content n r = ⟨[], .panic⟩ := by
  by_cases hlt : r.paramSize < 2 ^ 31
  · exact .inr (takeParam_panics hget hpos hlt)
  · rw [takeParam, if_pos (Nat.pos_of_ne_zero hpos), heapAlloc_null (.inr (Nat.le_of_not_lt hlt))]
    exact .inl rfl

/-- The parameter is copied, and the packet is freed. -/
theorem takeParam_some (hget : Obtains env s.heap r.paramSize) (hsize : size ≠ 0)
    (hmem : (content, size) ∈ s.heap.live)
    (hfind : s.heap.live.find? (·.1 = content) = some (content, size)) :
    takeParam env s content n r =
      ⟨[.alloc (env.place s.heap.count) r.paramSize,
          .read (content + requestHeaderSize) r.paramSize, .free content true],
        .ret (.statusSuccess, { r with param := some (env.place s.heap.count) },
          { s with heap :=
            { mem := (s.heap.mem.copy (content + requestHeaderSize) (env.place s.heap.count)
                r.paramSize).fill content 0 size
              live := (s.heap.grown env r.paramSize).live.filter (·.1 ≠ content)
              count := s.heap.count + 1 } })⟩ := by
  have hne := hget.ne hsize hmem
  have hfind' : (s.heap.grown env r.paramSize).live.find? (·.1 = content) =
      some (content, size) := by
    rw [grown, List.find?_cons_of_neg (by simpa using hne)]
    exact hfind
  rw [takeParam, if_pos (Nat.pos_of_ne_zero hget.1), heapAlloc_obtains hget,
    Traced.bind_of_ret rfl]
  dsimp only
  rw [cleanupPacket_eq (s := ⟨{ s.heap.grown env r.paramSize with
    mem := (s.heap.grown env r.paramSize).mem.copy (content + requestHeaderSize)
      (env.place s.heap.count) r.paramSize }, s.received⟩) hfind']
  rfl

/-! ## The sizes of a request -/

/-- The bytes of a packet that has arrived. -/
theorem arrived_mem {i : ℕ} (hi : i < packetSize env s) :
    (arrived env s).heap.mem (contentAt env s + i) = env.bytes (s.received + 4 + i) := by
  show s.heap.mem.patch (contentAt env s) (fun i => env.bytes (s.received + 4 + i))
    (packetSize env s) (contentAt env s + i) = _
  rw [Bytes.patch, if_pos (by omega), Nat.add_sub_cancel_left]

theorem requestIn_paramSize (hheader : requestHeaderSize ≤ packetSize env s) :
    (requestIn env s).paramSize = declaredSize env s := by
  have h8 : requestHeaderSize = 8 := rfl
  have hshift := Bytes.load32_shift (m := (arrived env s).heap.mem) (a := contentAt env s)
    (f := fun i => env.bytes (s.received + 4 + i)) (n := packetSize env s) (k := 4)
    (fun i hi => arrived_mem hi) (by omega)
  rw [requestIn, hshift, declaredSize]
  rfl

/-- The parameter is that of the packet, where there are so many bytes. -/
theorem taken_mem (hparam : Obtains env (arrived env s).heap n)
    (hfits : requestHeaderSize + n ≤ packetSize env s) {i : ℕ} (hi : i < n) :
    ((arrived env s).heap.mem.copy (contentAt env s + requestHeaderSize)
        (env.place (arrived env s).heap.count) n).fill (contentAt env s) 0 (packetSize env s)
        (env.place (arrived env s).heap.count + i) =
      env.bytes (s.received + 4 + requestHeaderSize + i) := by
  have hapart : env.place (arrived env s).heap.count + n ≤ contentAt env s ∨
      contentAt env s + packetSize env s ≤ env.place (arrived env s).heap.count :=
    hparam.2.2.2.2 (contentAt env s, packetSize env s) List.mem_cons_self
  rw [Bytes.fill_of_not_mem (by omega), Bytes.copy_apply (by omega), if_pos (by omega),
    Nat.add_sub_cancel_left, Nat.add_assoc (contentAt env s),
    arrived_mem (by omega), Nat.add_assoc (s.received + 4)]

/-! ## The claim about packets -/

/-- Where the packet has arrived, `takeParam` starts with its block. -/
theorem arrived_find (env : DbgEnv) (s : DbgLink) :
    (contentAt env s, packetSize env s) ∈ (arrived env s).heap.live ∧
      (arrived env s).heap.live.find? (·.1 = contentAt env s) =
        some (contentAt env s, packetSize env s) := by
  refine ⟨List.mem_cons_self, ?_⟩
  show List.find? _ ((contentAt env s, packetSize env s) :: s.heap.live) = _
  rw [List.find?_cons_of_pos (by simp)]

/-- A packet that is too short for its header is read behind its end. -/
theorem not_within_of_short (hget : Obtains env s.heap (packetSize env s))
    (hshort : packetSize env s < requestHeaderSize) :
    ¬ParsesWithin env s (recvRequest env s request) := by
  intro hwithin
  have h8 : requestHeaderSize = 8 := rfl
  have hread := hwithin.reads (contentAt env s + 4) 4 (by
    rw [recvRequest_arrives hget]
    simp)
  omega

/-- So is one that is too short for its parameter. -/
theorem not_within_of_declared (hget : Obtains env s.heap (packetSize env s))
    (hheader : requestHeaderSize ≤ packetSize env s)
    (hlong : packetSize env s < requestHeaderSize + declaredSize env s)
    (hparam : Obtains env (s.heap.grown env (packetSize env s)) (declaredSize env s)) :
    ¬ParsesWithin env s (recvRequest env s request) := by
  intro hwithin
  have hsize := requestIn_paramSize hheader
  have hparam' : Obtains env (arrived env s).heap (requestIn env s).paramSize := by
    rw [hsize]
    exact hparam
  obtain ⟨hmem, hfind⟩ := arrived_find env s
  have htake := takeParam_some (n := packetSize env s) hparam' hget.1 hmem hfind
  have hread := hwithin.reads (contentAt env s + requestHeaderSize) (requestIn env s).paramSize (by
    rw [recvRequest_arrives hget, htake]
    simp)
  rw [hsize] at hread
  omega

/-- Nothing but the header is read, and nothing is delivered. -/
theorem within_of_no_param (hget : Obtains env s.heap (packetSize env s))
    (hheader : requestHeaderSize ≤ packetSize env s) (hpos : declaredSize env s ≠ 0)
    (hparam : ¬Obtains env (s.heap.grown env (packetSize env s)) (declaredSize env s)) :
    ParsesWithin env s (recvRequest env s request) := by
  have h8 : requestHeaderSize = 8 := rfl
  have hsize := requestIn_paramSize hheader
  have hparam' : ¬Obtains env (arrived env s).heap (requestIn env s).paramSize := by
    rw [hsize]
    exact hparam
  have hfails : takeParam env (arrived env s) (contentAt env s) (packetSize env s)
        (requestIn env s) = ⟨[], .ret (.statusAllocFailed, requestIn env s, arrived env s)⟩ ∨
      takeParam env (arrived env s) (contentAt env s) (packetSize env s) (requestIn env s) =
        ⟨[], .panic⟩ := takeParam_fails (hsize.symm ▸ hpos) hparam'
  have htrace : (takeParam env (arrived env s) (contentAt env s) (packetSize env s)
      (requestIn env s)).trace = [] := by
    rcases hfails with htake | htake <;> rw [htake]
  have hout : ∀ r s', (takeParam env (arrived env s) (contentAt env s) (packetSize env s)
      (requestIn env s)).outcome ≠ .ret (.statusSuccess, r, s') := by
    intro r s'
    rcases hfails with htake | htake
    · rw [htake]
      intro heq
      cases congrArg Prod.fst (Outcome.ret.inj heq)
    · rw [htake]
      exact nofun
  rw [recvRequest_arrives hget, htrace]
  refine ⟨fun a n he => ?_, fun r s' _ hret => absurd hret (hout r s'), fun _ _ => hout⟩
  simp only [List.mem_cons, List.not_mem_nil, or_false, reduceCtorEq, false_or,
    DbgEvent.read.injEq] at he
  omega

/-- The header and the parameter are read, and the parameter is delivered. -/
theorem within_of_fits (hget : Obtains env s.heap (packetSize env s))
    (hheader : requestHeaderSize ≤ packetSize env s)
    (hfits : requestHeaderSize + declaredSize env s ≤ packetSize env s)
    (hparam : declaredSize env s = 0 ∨
      Obtains env (s.heap.grown env (packetSize env s)) (declaredSize env s)) :
    ParsesWithin env s (recvRequest env s request) := by
  have h8 : requestHeaderSize = 8 := rfl
  have hsize := requestIn_paramSize hheader
  obtain ⟨hmem, hfind⟩ := arrived_find env s
  rw [recvRequest_arrives hget]
  rcases hparam with hzero | hparam
  · have hnone : (requestIn env s).paramSize = 0 := hsize.trans hzero
    have htake : takeParam env (arrived env s) (contentAt env s) (packetSize env s)
        (requestIn env s) = _ := takeParam_none hnone hfind
    rw [htake]
    refine ⟨fun a n he => ?_, fun r s' _ hret => ?_, fun _ hlt => absurd hfits (Nat.not_le.mpr hlt)⟩
    · simp only [List.mem_cons, List.not_mem_nil, or_false, reduceCtorEq, false_or,
        DbgEvent.read.injEq] at he
      omega
    · cases hret
      exact ⟨hsize, fun _ => rfl, fun hne => absurd (hsize.trans hzero) hne⟩
  · have hparam' : Obtains env (arrived env s).heap (requestIn env s).paramSize := by
      rw [hsize]
      exact hparam
    have htake := takeParam_some (n := packetSize env s) hparam' hget.1 hmem hfind
    rw [htake]
    refine ⟨fun a n he => ?_, fun r s' _ hret => ?_, fun _ hlt => absurd hfits (Nat.not_le.mpr hlt)⟩
    · simp only [List.mem_cons, List.not_mem_nil, or_false, reduceCtorEq, false_or,
        DbgEvent.read.injEq] at he
      omega
    · obtain ⟨hr, hs'⟩ := Prod.mk.inj (Prod.mk.inj (Outcome.ret.inj hret)).2
      subst hr hs'
      refine ⟨hsize, fun hzero => absurd hzero hparam'.1, fun _ => ⟨_, rfl, ?_, fun i hi => ?_⟩⟩
      · apply List.mem_filter.mpr
        exact ⟨List.mem_cons_self, by simpa using hparam'.ne hget.1 hmem⟩
      · exact taken_mem hparam' (hsize.symm ▸ hfits) hi

/-- A request is parsed within its packet exactly when the sizes that the peer has sent fit, or
there is no block for them. -/
theorem parsesWithin_iff (env : DbgEnv) (s : DbgLink) (request : KeDebugRequest) :
    ParsesWithin env s (recvRequest env s request) ↔ FitsPacket env s := by
  by_cases hsize : packetSize env s = 0
  · refine iff_of_true ?_ (.inl hsize)
    rw [recvRequest_empty hsize]
    exact ⟨fun _ _ he => absurd he List.not_mem_nil, fun _ _ hne => absurd hsize hne,
      fun hne => absurd hsize hne⟩
  by_cases hget : Obtains env s.heap (packetSize env s)
  swap
  · refine iff_of_true ?_ (.inr (.inl hget))
    rcases recvRequest_fails request hsize hget with heq | heq
    · rw [heq]
      have hno : ∀ r s', Outcome.ret (KeStatus.statusAllocFailed, request,
          { s with received := s.received + 4 }) ≠ .ret (.statusSuccess, r, s') := by
        intro r s' hret
        cases congrArg Prod.fst (Outcome.ret.inj hret)
      exact ⟨fun _ _ he => absurd he List.not_mem_nil, fun r s' _ hret => absurd hret (hno r s'),
        fun _ _ => hno⟩
    · rw [heq]
      exact ⟨fun _ _ he => absurd he List.not_mem_nil, fun _ _ _ => nofun, fun _ _ _ _ => nofun⟩
  by_cases hheader : requestHeaderSize ≤ packetSize env s
  swap
  · refine iff_of_false (not_within_of_short hget (Nat.lt_of_not_le hheader)) ?_
    rintro (h | h | h)
    · exact hsize h
    · exact h hget
    · exact hheader h.1
  by_cases hparam : Obtains env (s.heap.grown env (packetSize env s)) (declaredSize env s)
  · by_cases hfits : requestHeaderSize + declaredSize env s ≤ packetSize env s
    · exact iff_of_true (within_of_fits hget hheader hfits (.inr hparam))
        (.inr (.inr ⟨hheader, .inl hfits⟩))
    · refine iff_of_false
        (not_within_of_declared hget hheader (Nat.lt_of_not_le hfits) hparam) ?_
      rintro (h | h | ⟨-, h | h⟩)
      · exact hsize h
      · exact h hget
      · exact hfits h
      · exact h hparam
  · refine iff_of_true ?_ (.inr (.inr ⟨hheader, .inr hparam⟩))
    by_cases hzero : declaredSize env s = 0
    · exact within_of_fits hget hheader (by omega) (.inl hzero)
    · exact within_of_no_param hget hheader hzero hparam

/-- A heap with no blocks in use, whose blocks are put one behind the other. -/
def freshLink : DbgLink := ⟨⟨fun _ => 0, [], 0⟩, 0⟩

/-- The bytes of a list arrive, and then zeros. -/
def peer (l : List U8) : DbgEnv := ⟨fun k => 0x1000004 + 0x1000 * k, fun i => l.getD i 0, none⟩

/-- A command with a parameter of four bytes. -/
theorem disass_within : ParsesWithin (peer [12, 0, 0, 0, 5, 0, 0, 0, 4, 0, 0, 0, 3, 0, 0, 0])
    freshLink (recvRequest (peer [12, 0, 0, 0, 5, 0, 0, 0, 4, 0, 0, 0, 3, 0, 0, 0]) freshLink
      ⟨0, 0, none⟩) := by
  apply (parsesWithin_iff _ _ _).mpr
  exact .inr (.inr ⟨by decide, .inl (by decide)⟩)

/-- A packet of one byte, and one that declares four bytes too many. -/
theorem short_packets_not_within :
    ¬ParsesWithin (peer [1, 0, 0, 0, 4]) freshLink
      (recvRequest (peer [1, 0, 0, 0, 4]) freshLink ⟨0, 0, none⟩) ∧
    ¬ParsesWithin (peer [8, 0, 0, 0, 5, 0, 0, 0, 4, 0, 0, 0]) freshLink
      (recvRequest (peer [8, 0, 0, 0, 5, 0, 0, 0, 4, 0, 0, 0]) freshLink ⟨0, 0, none⟩) := by
  constructor
  · apply not_within_of_short
    · exact ⟨by decide, by decide, by decide⟩
    · decide
  · apply not_within_of_declared
    · exact ⟨by decide, by decide, by decide⟩
    · decide
    · decide
    · exact ⟨by decide, by decide, by decide⟩

end LtDbgCom

end LtMicros
