import LtMicros.UserHeapAllocate
import LtMicros.Lib.Run

/-!
# What a user program gets from its heap

Runs of a program that allocates, frees what it has, and writes into it.
-/

namespace LtMicros

open Lib

/-- A program with its heap, and the pointers that it has got and not freed, each with
the size that was asked for. -/
structure UserProgram where
  h : UserHeap
  live : List (ℕ × ℕ)

/-- What a program does with its heap. -/
inductive UserOp where
  | heapAlloc (size : ℤ)
  | heapFree (ptr : ℕ)
  | write (address : ℕ) (byte : U8)

/-- Where the block behind a pointer ends. -/
def payloadEnd (m : Bytes) (p : ℕ) : ℕ := blockEnd m (p - blockHeaderSize)

/-- The steps of a program that frees live pointers and writes into live payloads. -/
inductive UserHeapStep : UserProgram → UserOp → UserProgram → Prop
  | heapAlloc {w : UserProgram} {fuel p : ℕ} {size : ℤ} {h' : UserHeap} :
      0 < size → size < 2 ^ 31 → w.h.heapAlloc fuel size = .ret (some p, h') →
      UserHeapStep w (.heapAlloc size) ⟨h', (p, size.toNat) :: w.live⟩
  | heapFree {w : UserProgram} {p size : ℕ} {h' : UserHeap} :
      (p, size) ∈ w.live → w.h.heapFree p = .ret h' →
      UserHeapStep w (.heapFree p) ⟨h', w.live.filter (·.1 ≠ p)⟩
  | write {w : UserProgram} {p size address : ℕ} {byte : U8} :
      (p, size) ∈ w.live → p ≤ address → address < payloadEnd w.h.mem p →
      UserHeapStep w (.write address byte)
        ⟨{ w.h with mem := Function.update w.h.mem address byte }, w.live⟩

namespace UserProgram

/-- The payloads of the live pointers, in the memory that `_sysSbrk` has given from
`start` on. -/
structure Safe (start : ℕ) (w : UserProgram) : Prop where
  disjoint : w.live.Pairwise fun a b =>
    payloadEnd w.h.mem a.1 ≤ b.1 ∨ payloadEnd w.h.mem b.1 ≤ a.1
  inside : ∀ a ∈ w.live, start ≤ a.1 ∧ payloadEnd w.h.mem a.1 ≤ w.h.brk
  aligned : ∀ a ∈ w.live, a.1 % 4 = 0
  size : ∀ a ∈ w.live, a.1 + a.2 ≤ payloadEnd w.h.mem a.1

/-- The pointers that `HeapAlloc` may answer have payloads of zeros. -/
def ClearedNext (w : UserProgram) : Prop :=
  ∀ (fuel p : ℕ) (size : ℤ) (h' : UserHeap), 0 < size → size < 2 ^ 31 →
    w.h.heapAlloc fuel size = .ret (some p, h') → Cleared h'.mem p (payloadEnd h'.mem p)

/-- The live pointers are to blocks in use. -/
structure Inv (start : ℕ) (w : UserProgram) (l : List ℕ) : Prop where
  ready : UserHeap.Ready start w.h l
  live : ∀ a ∈ w.live, ∃ u, a.1 = u + blockHeaderSize ∧ UserHeap.InUse w.h.mem l u ∧
    a.2 + blockHeaderSize ≤ blockSize w.h.mem u
  nodup : (w.live.map Prod.fst).Nodup

variable {start u b p size : ℕ} {w w' : UserProgram} {op : UserOp} {l l' : List ℕ} {m' : Bytes}

theorem payloadEnd_add (m : Bytes) (u : ℕ) : payloadEnd m (u + blockHeaderSize) = blockEnd m u := by
  rw [payloadEnd, Nat.add_sub_cancel]

/-- With a block in use there are blocks. -/
theorem Inv.blocks (hw : Inv start w l) (hu : UserHeap.InUse w.h.mem l u) :
    w.h.baseBlock = start ∧ w.h.Blocks l := by
  rcases hw.ready.blocks with ⟨-, -, rfl⟩ | hb
  · cases hu.1
  · exact hb

theorem Inv.safe (hw : Inv start w l) : Safe start w := by
  constructor
  · have hne : w.live.Pairwise fun a b => a.1 ≠ b.1 := List.pairwise_map.mp hw.nodup
    refine hne.imp_of_mem fun {a b} ha hb hab => ?_
    obtain ⟨u, hua, hu, -⟩ := hw.live a ha
    obtain ⟨v, hvb, hv, -⟩ := hw.live b hb
    rw [hua, hvb] at hab ⊢
    have huv : u ≠ v := fun heq => hab (by rw [heq])
    have hdisjoint : blockEnd w.h.mem u ≤ v ∨ blockEnd w.h.mem v ≤ u :=
      (hw.blocks hu).2.tiles.disjoint hu.1 hv.1 huv
    rw [payloadEnd_add, payloadEnd_add]
    omega
  · intro a ha
    obtain ⟨u, hua, hu, -⟩ := hw.live a ha
    obtain ⟨hbase, hb⟩ := hw.blocks hu
    have hbounds := hb.bounds hu.1
    rw [hua, payloadEnd_add, ← hbase]
    omega
  · intro a ha
    obtain ⟨u, hua, hu, -⟩ := hw.live a ha
    obtain ⟨hbase, hb⟩ := hw.blocks hu
    have h4 := hb.aligned hu.1
    rw [hua, Nat.add_mod, h4]
    rfl
  · intro a ha
    obtain ⟨u, hua, hu, hsize⟩ := hw.live a ha
    rw [hua, payloadEnd_add, blockEnd]
    omega

theorem Inv.clearedNext (hw : Inv start w l) : w.ClearedNext := by
  intro fuel p size h' hpos hmax hret
  obtain ⟨b, l', heq, ha⟩ := hw.ready.heapAlloc_ret hpos hmax hret
  cases heq
  rw [payloadEnd_add]
  exact ha.cleared

/-- A change inside one block keeps the live pointers to the others. -/
theorem Inv.rewrites_live (hw : Inv start w l) (hr : w.h.Rewrites m' l l' b) {a : ℕ × ℕ}
    (ha : a ∈ w.live) (hne : a.1 ≠ b + blockHeaderSize) :
    ∃ u, a.1 = u + blockHeaderSize ∧ UserHeap.InUse m' l' u ∧
      a.2 + blockHeaderSize ≤ blockSize m' u := by
  obtain ⟨u, hua, hu, hsize⟩ := hw.live a ha
  have hub : u ≠ b := fun heq => hne (by rw [hua, heq])
  have h8 := ((hw.blocks hu).2.good u hu.1).size
  have hheader := UserHeap.header_of_bytes (by omega) (hr.bytes u hu.1 hub)
  exact ⟨u, hua, (hr.inUse u hub).mpr hu, by rw [hheader.1]; exact hsize⟩

theorem Inv.heapAlloc {fuel : ℕ} {size : ℤ} {h' : UserHeap} (hw : Inv start w l)
    (hpos : 0 < size) (hmax : size < 2 ^ 31)
    (hret : w.h.heapAlloc fuel size = .ret (some p, h')) :
    ∃ l', Inv start ⟨h', (p, size.toNat) :: w.live⟩ l' := by
  obtain ⟨b, l', heq, ha⟩ := hw.ready.heapAlloc_ret hpos hmax hret
  cases heq
  refine ⟨l', ⟨⟨hw.ready.pos, hw.ready.page, .inr ⟨ha.base, ha.blocks⟩⟩, ?_, ?_⟩⟩
  · intro a hmem
    rcases List.mem_cons.mp hmem with rfl | hmem
    · refine ⟨b, rfl, (ha.inUse b).mpr (.inl rfl), ?_⟩
      exact (le_roundUp (by decide) _).trans ha.size
    · obtain ⟨u, hua, hu, hsize⟩ := hw.live a hmem
      have h8 := ((hw.blocks hu).2.good u hu.1).size
      have hheader := UserHeap.header_of_bytes (by omega) (ha.bytes u hu)
      exact ⟨u, hua, (ha.inUse u).mpr (.inr hu), by rw [hheader.1]; exact hsize⟩
  · rw [List.map_cons, List.nodup_cons]
    refine ⟨?_, hw.nodup⟩
    rw [List.mem_map]
    rintro ⟨a, hmem, hab⟩
    obtain ⟨u, hua, hu, -⟩ := hw.live a hmem
    have hub : u = b := Nat.add_right_cancel (hua.symm.trans hab)
    exact ha.wasFree (hub ▸ hu)

theorem Inv.heapFree {h' : UserHeap} (hw : Inv start w l) (hmem : (p, size) ∈ w.live)
    (hret : w.h.heapFree p = .ret h') :
    Inv start ⟨h', w.live.filter (·.1 ≠ p)⟩ l := by
  obtain ⟨b, rfl, hb, -⟩ := hw.live _ hmem
  obtain ⟨hbase, hblocks⟩ := hw.blocks hb
  obtain ⟨m', heq, hr, -⟩ := hblocks.heapFree_eq hb.1 hb.2
  rw [heq] at hret
  cases hret
  refine ⟨⟨hw.ready.pos, hw.ready.page, .inr ⟨hbase, hr.blocks⟩⟩, ?_, ?_⟩
  · intro a ha
    obtain ⟨ha, hne⟩ := List.mem_filter.mp ha
    exact hw.rewrites_live hr ha (of_decide_eq_true hne)
  · exact (List.filter_sublist.map Prod.fst).nodup hw.nodup

/-- Writes into a live payload change nothing else. -/
theorem Inv.writes (hw : Inv start w l) (hmem : (p, size) ∈ w.live)
    (hm : ∀ x, x < p ∨ payloadEnd w.h.mem p ≤ x → m' x = w.h.mem x) :
    Inv start ⟨{ w.h with mem := m' }, w.live⟩ l := by
  obtain ⟨b, rfl, hb, hsize⟩ := hw.live _ hmem
  obtain ⟨hbase, hblocks⟩ := hw.blocks hb
  rw [payloadEnd_add] at hm
  have hheader : blockSize m' b = blockSize w.h.mem b ∧ blockState m' b = blockState w.h.mem b :=
    header_congr fun x _ hx => hm x (.inl (by unfold blockHeaderSize; omega))
  have hr : w.h.Rewrites m' l l b := by
    refine hblocks.rewrite_self hb.1 ?_ hheader.1 ?_
    · intro x hx
      exact hm x (by unfold blockHeaderSize; omega)
    · intro hfree
      rw [hheader.2, hb.2] at hfree
      cases hfree
  refine ⟨⟨hw.ready.pos, hw.ready.page, .inr ⟨hbase, hr.blocks⟩⟩, ?_, hw.nodup⟩
  intro a ha
  by_cases hab : a.1 = b + blockHeaderSize
  · obtain ⟨u, hua, -, hua'⟩ := hw.live a ha
    have hub : u = b := Nat.add_right_cancel (hua.symm.trans hab)
    subst hub
    exact ⟨u, hua, ⟨hb.1, hheader.2.trans hb.2⟩, by rw [hheader.1]; exact hua'⟩
  · exact hw.rewrites_live hr ha hab

theorem Inv.write {address : ℕ} {byte : U8} (hw : Inv start w l) (hmem : (p, size) ∈ w.live)
    (hlo : p ≤ address) (hhi : address < payloadEnd w.h.mem p) :
    Inv start ⟨{ w.h with mem := Function.update w.h.mem address byte }, w.live⟩ l :=
  hw.writes hmem fun x hx => Function.update_of_ne (by omega) _ _

theorem Inv.step (hw : Inv start w l) (hstep : UserHeapStep w op w') : ∃ l', Inv start w' l' := by
  cases hstep with
  | heapAlloc hpos hmax hret => exact hw.heapAlloc hpos hmax hret
  | heapFree hmem hret => exact ⟨l, hw.heapFree hmem hret⟩
  | write hmem hlo hhi => exact ⟨l, hw.write hmem hlo hhi⟩

/-- The memory of a program that has just called `InitMalloc`, whatever is in it. -/
def init (h : UserHeap) : UserProgram := ⟨h.initMalloc, []⟩

/-- After every run from `InitMalloc`, the live payloads are disjoint, aligned, long
enough and inside the memory that `_sysSbrk` has given, and what `HeapAlloc` answers next
is filled with zeros. -/
theorem userHeap_safe {h : UserHeap} {ops : List UserOp} (hpos : 0 < h.brk)
    (hpage : h.brk % pageSize = 0) (hrun : Run UserHeapStep (init h) ops w) :
    Safe h.brk w ∧ w.ClearedNext := by
  have hstart : Inv h.brk (init h) [] :=
    ⟨⟨hpos, hpage, .inl ⟨rfl, rfl, rfl⟩⟩, by simp [init], by simp [init]⟩
  obtain ⟨l, hw⟩ : ∃ l, Inv h.brk w l :=
    hrun.invariant (I := fun w => ∃ l, Inv h.brk w l)
      (fun _ _ _ ⟨_, hw⟩ hstep => hw.step hstep) ⟨[], hstart⟩
  exact ⟨hw.safe, hw.clearedNext⟩

/-- `HeapFree` of a live pointer returns. -/
theorem Inv.heapFree_returns (hw : Inv start w l) (hmem : (p, size) ∈ w.live) :
    ∃ h', w.h.heapFree p = .ret h' := by
  obtain ⟨b, rfl, hb, -⟩ := hw.live _ hmem
  obtain ⟨m', heq, -⟩ := (hw.blocks hb).2.heapFree_eq hb.1 hb.2
  exact ⟨_, heq⟩

/-- A program gets 10 bytes at the start of its heap and then 100 bytes, writes into these, and
frees the first ones. -/
theorem userHeap_ten_bytes : ∃ h p q w,
    Run UserHeapStep (init h) [.heapAlloc 10, .heapAlloc 100, .write q 7, .heapFree p] w ∧
    w.live = [(q, 100)] ∧ Safe 0x40002000 w ∧ w.ClearedNext := by
  let h : UserHeap := ⟨fun _ => 0xAA, 0, 0, 0x40002000⟩
  have hready : UserHeap.Ready 0x40002000 h.initMalloc [] :=
    ⟨by decide, by decide, .inl ⟨rfl, rfl, rfl⟩⟩
  obtain ⟨p, h₁, hret₁, hbrk₁⟩ := (hready.heapAlloc_cases (show (0 : ℤ) < 10 by decide)
    (by decide) (Nat.le_refl (2 ^ 32))).resolve_left fun hfault => hfault.2 (by decide)
  obtain ⟨l₁, hw₁⟩ : ∃ l, Inv 0x40002000 ⟨h₁, [(p, 10)]⟩ l :=
    Inv.heapAlloc (w := init h) ⟨hready, by simp [init], by simp [init]⟩ (by decide) (by decide)
      hret₁
  have hroom : h₁.brk ≤ 0x40002000 + 8192 := hbrk₁
  have hgrowth : UserHeap.growth (100 : ℤ).toNat = 8192 := rfl
  obtain ⟨q, h₂, hret₂, -⟩ := (hw₁.ready.heapAlloc_cases (show (0 : ℤ) < 100 by decide)
    (by decide) (Nat.le_refl (2 ^ 32))).resolve_left fun hfault => hfault.2 (by
      have hlimit : vProcessLimitAddr.toNat = 0xFFFFFFFF := rfl
      rw [hgrowth]
      dsimp only
      omega)
  obtain ⟨l₂, hw₂⟩ : ∃ l, Inv 0x40002000 ⟨h₂, [(q, 100), (p, 10)]⟩ l :=
    hw₁.heapAlloc (by decide) (by decide) hret₂
  have hsize : q + 100 ≤ payloadEnd h₂.mem q := hw₂.safe.size (q, 100) List.mem_cons_self
  have hin : q < payloadEnd h₂.mem q := by omega
  have hw₃ : Inv _ ⟨{ h₂ with mem := Function.update h₂.mem q 7 }, _⟩ l₂ :=
    hw₂.write List.mem_cons_self (Nat.le_refl q) hin
  have hp : (p, 10) ∈ [(q, 100), (p, 10)] := List.mem_cons_of_mem _ (List.mem_singleton_self _)
  obtain ⟨h₄, hret₄⟩ := hw₃.heapFree_returns hp
  have hne : q ≠ p := by simpa using hw₂.nodup
  have hrun : Run UserHeapStep (init h)
      [.heapAlloc 10, .heapAlloc 100, .write q 7, .heapFree p] _ :=
    .cons (.heapAlloc (by decide) (by decide) hret₁)
      (.cons (.heapAlloc (by decide) (by decide) hret₂)
        (.cons (.write List.mem_cons_self (Nat.le_refl q) hin) (.single (.heapFree hp hret₄))))
  have hlive : [(q, 100), (p, 10)].filter (·.1 ≠ p) = [(q, 100)] := by simp [hne]
  exact ⟨h, p, q, _, hrun, hlive, userHeap_safe (by decide) (by decide) hrun⟩

end UserProgram

end LtMicros
