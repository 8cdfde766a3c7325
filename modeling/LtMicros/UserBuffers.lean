import LtMicros.UserHeapRuns
import LtMicros.Lib.Traced

/-!
# The buffers of the file system service

`HeapAlloc`, `HeapFree` and `MemCopy` as a user program calls them, with the list of the
pointers it has got and not freed. Where a call writes to, and what else its safety hangs on,
is in the trace. `_Sbrk` writes through the null pointer when there is no more memory; this
end of a program is explained by an event of its own.
-/

namespace LtMicros

open Lib

/-- What a call of the service does on the way: writes of some bytes, with the live pointers at
that time; the same for copies of bytes of a file; entries of a block table that are read; divisions;
elements of the group table that are used; and that the heap has no more room. -/
inductive Access where
  | write (live : List (ℕ × ℕ)) (dst size : ℕ)
  | content (live : List (ℕ × ℕ)) (fileContent fileOffset fileSize size : ℕ)
  | entry (index : ℕ)
  | div (divisor : ℕ)
  | group (index : ℕ)
  | exhausted

namespace UserProgram

/-- `HeapAlloc`, with `none` for the null pointer. -/
def heapAlloc (fuel : ℕ) (w : UserProgram) (size : ℤ) : Traced Access (Option ℕ × UserProgram) :=
  match w.h.heapAlloc fuel size with
  | .ret (some p, h) => pure (some p, ⟨h, (p, size.toNat) :: w.live⟩)
  | .ret (none, h) => pure (none, { w with h })
  | .fault => ⟨[.exhausted], .fault⟩
  | .panic => ⟨[], .panic⟩
  | .hang => ⟨[], .hang⟩

/-- `HeapFree`. -/
def heapFree (w : UserProgram) (ptr : ℕ) : Traced Access UserProgram := do
  let h ← w.h.heapFree ptr
  return ⟨h, w.live.filter (·.1 ≠ ptr)⟩

/-- The bytes of the program's memory are changed. -/
def setMem (w : UserProgram) (mem : Bytes) : UserProgram := { w with h := { w.h with mem } }

/-- A write of `size` bytes to `dst`, after which the memory is `mem`. -/
def store (w : UserProgram) (dst size : ℕ) (mem : Bytes) : Traced Access UserProgram := do
  Traced.note (.write w.live dst size)
  if 0 < dst ∧ dst + size ≤ vProcessLimitAddr.toNat then return w.setMem mem
  else Traced.lift .fault

/-- `MemCopy`. -/
def memCopy (w : UserProgram) (src dst size : ℕ) : Traced Access UserProgram :=
  w.store dst size (w.h.mem.copy src dst size)

/-! ## What is kept -/

variable {start p q n size fuel : ℕ} {w w' : UserProgram} {m m' : Bytes} {live : List (ℕ × ℕ)}
  {l : List ℕ} {c : Traced.Contract Access}

/-- The heap is in order, with the live pointers to blocks in use. -/
def Owns (start : ℕ) (w : UserProgram) : Prop := ∃ l, Inv start w l

/-- The heap may still grow by `n` bytes, or need not be able to. -/
def Room (c : Traced.Contract Access) (w : UserProgram) (n : ℕ) : Prop :=
  c.stop .exhausted ∨ n < 2 ^ 31 ∧ w.h.brk + n ≤ vProcessLimitAddr.toNat

theorem Room.mono (h : Room c w n) (hsize : w'.h.brk + size ≤ w.h.brk + n) (hle : size ≤ n) :
    Room c w' size :=
  h.imp_right fun h => ⟨by omega, by omega⟩

/-- What a call does to the buffers that it is not about: they stay live, with the same bytes. -/
structure Evolves (c : Traced.Contract Access) (start n : ℕ) (except : List ℕ)
    (w w' : UserProgram) : Prop where
  owns : Owns start w'
  room : Room c w' n
  rest : ∀ a ∈ w.live, a.1 ∉ except →
    a ∈ w'.live ∧ ∀ i < a.2, w'.h.mem (a.1 + i) = w.h.mem (a.1 + i)

theorem Evolves.refl (hw : Owns start w) (hroom : Room c w n) (except : List ℕ) :
    Evolves c start n except w w := ⟨hw, hroom, fun _ ha _ => ⟨ha, fun _ _ => rfl⟩⟩

theorem Evolves.trans {k : ℕ} {except except' : List ℕ} {w'' : UserProgram}
    (h : Evolves c start n except w w') (h' : Evolves c start k except' w' w'') :
    Evolves c start k (except ++ except') w w'' := by
  refine ⟨h'.owns, h'.room, fun a ha hex => ?_⟩
  rw [List.mem_append, not_or] at hex
  obtain ⟨ha', hbytes⟩ := h.rest a ha hex.1
  obtain ⟨ha'', hbytes'⟩ := h'.rest a ha' hex.2
  exact ⟨ha'', fun i hi => (hbytes' i hi).trans (hbytes i hi)⟩

/-- With less room. -/
theorem Evolves.le {except : List ℕ} {k : ℕ} (h : Evolves c start n except w w') (hle : k ≤ n) :
    Evolves c start k except w w' :=
  ⟨h.owns, h.room.mono (by omega) hle, h.rest⟩

/-- Pointers that were not live at the beginning need not be excepted. -/
theorem Evolves.weaken {except except' : List ℕ} (h : Evolves c start n except w w')
    (hsub : ∀ q ∈ except, q ∈ except' ∨ ∀ a ∈ w.live, a.1 ≠ q) :
    Evolves c start n except' w w' := by
  refine ⟨h.owns, h.room, fun a ha hex => h.rest a ha fun hmem => ?_⟩
  rcases hsub _ hmem with hmem | hfresh
  · exact hex hmem
  · exact hfresh a ha rfl

theorem Evolves.andThen {k : ℕ} {except : List ℕ} {w'' : UserProgram}
    (h : Evolves c start n except w w') (h' : Evolves c start k except w' w'') :
    Evolves c start k except w w'' :=
  (h.trans h').weaken fun _ hq => .inl (by simpa using hq)

/-- Live pointers point into the memory of the program, and to different buffers. -/
theorem Owns.bounds (hw : Owns start w) (hmem : (p, n) ∈ w.live) :
    0 < p ∧ p + n ≤ vProcessLimitAddr.toNat := by
  obtain ⟨l, hw⟩ := hw
  obtain ⟨u, rfl, hu, hsize⟩ := hw.live _ hmem
  have hb := (hw.blocks hu).2
  have hbounds := hb.bounds hu.1
  have hlimit := hb.limit
  unfold blockEnd at hbounds
  dsimp only at hsize
  unfold blockHeaderSize at hsize ⊢
  omega

/-- With a buffer, the memory that has been given lies in the user space. -/
theorem Owns.room (hw : Owns start w) (hmem : (p, n) ∈ w.live) (c : Traced.Contract Access) :
    Room c w 0 := by
  obtain ⟨l, hw⟩ := hw
  obtain ⟨u, -, hu, -⟩ := hw.live _ hmem
  exact .inr ⟨by decide, (hw.blocks hu).2.limit⟩

theorem Owns.apart (hw : Owns start w) (hp : (p, n) ∈ w.live) (hq : (q, size) ∈ w.live)
    (hne : p ≠ q) : p + n ≤ q ∨ q + size ≤ p := by
  obtain ⟨l, hw⟩ := hw
  obtain ⟨u, rfl, hu, hsize⟩ := hw.live _ hp
  obtain ⟨v, rfl, hv, hsize'⟩ := hw.live _ hq
  have hdisjoint : blockEnd w.h.mem u ≤ v ∨ blockEnd w.h.mem v ≤ u :=
    (hw.blocks hu).2.tiles.disjoint hu.1 hv.1 fun heq => hne (by rw [heq])
  unfold blockEnd at hdisjoint
  dsimp only at hsize hsize'
  omega

theorem Owns.nodup (hw : Owns start w) : (w.live.map Prod.fst).Nodup := hw.choose_spec.nodup

/-- Each live pointer has one size. -/
theorem Owns.size_eq (hw : Owns start w) (hp : (p, n) ∈ w.live) (hq : (p, size) ∈ w.live) :
    n = size :=
  congrArg Prod.snd (List.inj_on_of_nodup_map hw.nodup hp hq rfl)

/-- Writes into one buffer keep the others. -/
theorem Owns.setMem (hw : Owns start w) (hmem : (p, n) ∈ w.live) {k : ℕ} (hroom : Room c w k)
    (hm : ∀ x, x < p ∨ p + n ≤ x → m' x = w.h.mem x) : Evolves c start k [p] w (w.setMem m') := by
  refine ⟨?_, hroom, fun a ha hne => ⟨ha, fun i hi => hm _ ?_⟩⟩
  · obtain ⟨l, hw⟩ := hw
    refine ⟨l, hw.writes hmem fun x hx => hm x ?_⟩
    have hsize : p + n ≤ payloadEnd w.h.mem p := hw.safe.size _ hmem
    omega
  · have hapart := hw.apart ha hmem fun heq => hne (List.mem_singleton.mpr heq)
    omega

/-! ## The calls -/

/-- What a pointer that `HeapAlloc` has given points to. -/
theorem Owns.heapAlloc {s : ℤ} {h' : UserHeap} (hw : Owns start w) (hpos : 0 < s)
    (hmax : s < 2 ^ 31) (hret : w.h.heapAlloc fuel s = .ret (some p, h')) :
    Owns start ⟨h', (p, s.toNat) :: w.live⟩ ∧ (∀ a ∈ w.live, a.1 ≠ p) ∧
      (∀ i < s.toNat, h'.mem (p + i) = 0) ∧
      ∀ a ∈ w.live, ∀ i < a.2, h'.mem (a.1 + i) = w.h.mem (a.1 + i) := by
  obtain ⟨l, hw⟩ := hw
  have hw' := hw.heapAlloc hpos hmax hret
  obtain ⟨b, l', heq, ha⟩ := hw.ready.heapAlloc_ret hpos hmax hret
  cases heq
  refine ⟨hw', fun a hmem heq => ?_, fun i hi => ?_, fun a hmem i hi => ?_⟩
  · obtain ⟨u, hua, hu, -⟩ := hw.live a hmem
    have hub : u = b := Nat.add_right_cancel (hua.symm.trans heq)
    exact ha.wasFree (hub ▸ hu)
  · refine ha.cleared _ ?_ ?_
    · unfold blockHeaderSize
      omega
    · have hle := le_roundUp (m := 4) (by decide) (s.toNat + blockHeaderSize)
      have hsize := ha.size
      unfold blockEnd
      omega
  · obtain ⟨u, hua, hu, hsize⟩ := hw.live a hmem
    apply ha.bytes u hu _ (by omega)
    unfold blockEnd
    omega

/-- `HeapAlloc` gives a new buffer of zeros. -/
theorem heapAlloc_meets {s : ℤ} (hw : Owns start w) (hpos : 0 < s) (hmax : s < 2 ^ 31)
    (hfuel : 2 ^ 32 ≤ fuel) (hroom : Room c w (UserHeap.growth s.toNat + n)) :
    Traced.Meets c (w.heapAlloc fuel s) fun r => ∃ p, r.1 = some p ∧ Evolves c start n [] w r.2 ∧
      (p, s.toNat) ∈ r.2.live ∧ (∀ a ∈ w.live, a.1 ≠ p) ∧ ∀ i < s.toNat, r.2.h.mem (p + i) = 0 := by
  obtain ⟨l, hinv⟩ := id hw
  unfold heapAlloc
  rcases hinv.ready.heapAlloc_cases hpos hmax hfuel with ⟨hfault, hfull⟩ | ⟨p, h', hret, hbrk⟩
  · have hstop : c.stop .exhausted := hroom.resolve_right fun h => hfull ⟨by omega, by omega⟩
    rw [hfault]
    refine ⟨fun e he => ?_, nofun, fun _ => ⟨_, List.mem_cons_self, hstop⟩, nofun, nofun⟩
    rw [List.mem_singleton.mp he]
    exact .inr hstop
  · rw [hret]
    obtain ⟨hw', hfresh, hzero, hsame⟩ := hw.heapAlloc hpos hmax hret
    refine Traced.Meets.pure ⟨_, rfl, ⟨hw', hroom.mono (by dsimp only; omega) (by omega),
      fun a hmem _ => ⟨List.mem_cons_of_mem _ hmem, hsame a hmem⟩⟩, List.mem_cons_self, hfresh, hzero⟩

/-- `HeapAlloc` of nothing, or of more than an `int` holds. -/
theorem heapAlloc_null {s : ℤ} (hs : s ≤ 0) : w.heapAlloc fuel s = pure (none, w) := by
  rw [heapAlloc, UserHeap.heapAlloc_def, if_pos hs]

/-- `HeapFree` gives a buffer back. -/
theorem heapFree_meets (hw : Owns start w) (hmem : (p, size) ∈ w.live) (hroom : Room c w n) :
    Traced.Meets c (w.heapFree p) fun w' => Evolves c start n [p] w w' := by
  obtain ⟨l, hw⟩ := hw
  obtain ⟨u, hpu, hu, -⟩ := hw.live _ hmem
  obtain ⟨m', hret, hr, -⟩ := (hw.blocks hu).2.heapFree_eq hu.1 hu.2
  rw [← hpu] at hret
  have heq : w.heapFree p = pure ⟨{ w.h with mem := m' }, w.live.filter (·.1 ≠ p)⟩ := by
    show (Traced.lift (w.h.heapFree p) >>= fun h => pure _) = _
    rw [hret]
    rfl
  rw [heq]
  refine Traced.Meets.pure ⟨⟨l, hw.heapFree hmem hret⟩, hroom, fun a ha hne => ⟨?_, fun i hi => ?_⟩⟩
  · exact List.mem_filter.mpr ⟨ha, decide_eq_true fun heq => hne (List.mem_singleton.mpr heq)⟩
  · obtain ⟨v, hav, hv, hsize⟩ := hw.live a ha
    have hvu : v ≠ u := fun heq => hne (List.mem_singleton.mpr (by rw [hav, heq]; exact hpu.symm))
    refine hr.bytes v hv.1 hvu _ (by omega) ?_
    unfold blockEnd
    omega

/-- A write inside a buffer. -/
theorem store_meets {dst k : ℕ} (hw : Owns start w) (hmem : (p, n) ∈ w.live) (hlo : p ≤ dst)
    (hhi : dst + size ≤ p + n) (hm : ∀ x, x < dst ∨ dst + size ≤ x → m' x = w.h.mem x)
    (hok : c.ok (.write w.live dst size)) (hroom : Room c w k) :
    Traced.Meets c (w.store dst size m') fun w' => Evolves c start k [p] w w' ∧
      w'.live = w.live ∧ w'.h.mem = m' := by
  have hbounds := hw.bounds hmem
  refine (Traced.Meets.note hok (Q := fun _ => True) trivial).bind fun _ _ => ?_
  rw [if_pos ⟨by omega, by omega⟩]
  exact Traced.Meets.pure ⟨hw.setMem hmem hroom fun x hx => hm x (by omega), rfl, rfl⟩

/-- A copy from one buffer into another one. -/
theorem memCopy_meets {src dst k k' : ℕ} (hw : Owns start w) (hmem : (p, n) ∈ w.live)
    (hsrc : (q, k') ∈ w.live) (hne : q ≠ p) (hlo : p ≤ dst) (hhi : dst + size ≤ p + n)
    (hlo' : q ≤ src) (hhi' : src + size ≤ q + k') (hok : c.ok (.write w.live dst size))
    (hroom : Room c w k) :
    Traced.Meets c (w.memCopy src dst size) fun w' => Evolves c start k [p] w w' ∧
      w'.live = w.live ∧
      ∀ x, w'.h.mem x = if dst ≤ x ∧ x < dst + size then w.h.mem (src + (x - dst)) else w.h.mem x := by
  have hapart := hw.apart hmem hsrc hne.symm
  have hcopy (x) : w.h.mem.copy src dst size x =
      if dst ≤ x ∧ x < dst + size then w.h.mem (src + (x - dst)) else w.h.mem x :=
    Bytes.copy_apply (by omega)
  refine (store_meets hw hmem hlo hhi (fun x hx => ?_) hok hroom).mono ?_
  · rw [hcopy, if_neg (by omega)]
  · rintro w' ⟨hev, hlive, hmem'⟩
    exact ⟨hev, hlive, fun x => by rw [hmem', hcopy]⟩

/-- A program with a new heap. -/
def newProgram : UserProgram := init ⟨fun _ => 0, 0, 0, 0x40002000⟩

theorem newProgram_owns : Owns 0x40002000 newProgram :=
  ⟨[], ⟨by decide, by decide, .inl ⟨rfl, rfl, rfl⟩⟩, by simp [newProgram, init],
    by simp [newProgram, init]⟩

end UserProgram

end LtMicros
