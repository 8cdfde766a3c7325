import Mathlib.Data.Nat.Digits.Defs
import LtMicros.Lib.Traced
import LtMicros.Thread

/-!
# Printing integers

`printInt` of the kernel and of the user programs. The two have the same digit loop, in which the
number is without a sign in the kernel and has one in the user programs. Each access to the table of
digits is an event, and so are the writes to the buffer and the characters that are printed. A
`quotient` that is the least integer stays itself when its sign is changed.
-/

namespace LtMicros

open Lib

/-- What `printInt` does on the way. -/
inductive PrintEvent where
  | readHex (index : ℤ)
  | write (index : ℕ)
  | printChar (c : Char)

namespace PrintEvent

/-- Nothing is read that is not in `HEX`, or written that is not in the buffer. -/
def Inside : PrintEvent → Prop
  | readHex index => 0 ≤ index ∧ index < 16
  | write index => index < 34
  | printChar _ => True

/-- The character that is printed. -/
def printed : PrintEvent → Option Char
  | printChar c => some c
  | _ => none

end PrintEvent

/-- `HEX`. -/
def hex : List Char :=
  ['0', '1', '2', '3', '4', '5', '6', '7', '8', '9', 'A', 'B', 'C', 'D', 'E', 'F']

/-- What is in memory before a call: the bytes around `HEX`, and those of the buffer. -/
structure PrintMem where
  outside : ℤ → Char
  chaine : ℕ → Char

/-- `HEX[index]`. -/
def readHex (outside : ℤ → Char) (index : ℤ) : Traced PrintEvent Char := do
  Traced.note (.readHex index)
  return if 0 ≤ index ∧ index < 16 then hex.getD index.toNat '0' else outside index

/-- `chaine[cpt] = c`. -/
def writeChaine (chaine : ℕ → Char) (cpt : ℕ) (c : Char) : Traced PrintEvent (ℕ → Char) := do
  Traced.note (.write cpt)
  return Function.update chaine cpt c

/-- One turn of the digit loop, with the division of the type of `quotient`. -/
def digitTurn (rem div : U32 → U32 → U32) (outside : ℤ → Char) (base : U32)
    (state : U32 × ℕ × (ℕ → Char)) :
    Traced PrintEvent ((U32 × ℕ × (ℕ → Char)) ⊕ (ℕ × (ℕ → Char))) :=
  let (quotient, cpt, chaine) := state
  if quotient = 0 then return .inr (cpt, chaine)
  else do
    let reste := rem quotient base
    let quotient := div quotient base
    let c ← readHex outside reste.toInt
    let chaine ← writeChaine chaine cpt c
    return .inl (quotient, cpt + 1, chaine)

/-- The loop that prints the buffer from its end. -/
def printChaine (chaine : ℕ → Char) : ℕ → Traced PrintEvent Unit
  | 0 => return ()
  | i + 1 => do
    Traced.note (.printChar (chaine i))
    printChaine chaine i

/-- The beginning of both functions. -/
def printZero (x : U32) : Traced PrintEvent Unit :=
  if x = 0 then Traced.note (.printChar '0') else return ()

/-- `printInt` of the kernel, whose `quotient` is never negative. -/
def StdIo.printInt (fuel : ℕ) (mem : PrintMem) (x : U32) (base : U16) : Traced PrintEvent Unit := do
  printZero x
  if base.toNat < 2 ∨ 16 < base.toNat then return ()
  else do
    let (cpt, chaine) ← Traced.loop
      (digitTurn (· % ·) (· / ·) mem.outside (base.setWidth 32)) fuel (x, 0, mem.chaine)
    printChaine chaine cpt

/-- `printInt` of the user programs. -/
def UserStdIo.printInt (fuel : ℕ) (mem : PrintMem) (x : U32) (base : U16) :
    Traced PrintEvent Unit := do
  printZero x
  if base.toNat < 2 ∨ 16 < base.toNat then return ()
  else do
    let quotient := if x.slt 0 then -x else x
    let (cpt, chaine) ← Traced.loop
      (digitTurn BitVec.srem BitVec.sdiv mem.outside (base.setWidth 32)) fuel
        (quotient, 0, mem.chaine)
    if x.slt 0 then do
      let chaine ← writeChaine chaine cpt '-'
      printChaine chaine (cpt + 1)
    else printChaine chaine cpt

/-! ## The digit loop -/

/-- The character of a digit. -/
def hexChar (d : ℕ) : Char := hex.getD d '0'

/-- Everything is inside, and nothing is printed. -/
def digitContract : Traced.Contract PrintEvent where
  ok e := e.Inside ∧ e.printed = none
  stop _ := False

/-- The division of numbers in `P` by a base is that of natural numbers. -/
structure DividesBy (P : U32 → Prop) (rem div : U32 → U32 → U32) (base : U32) : Prop where
  base_pos : 2 ≤ base.toNat
  base_le : base.toNat ≤ 16
  rem_eq : ∀ q, P q → (rem q base).toInt = (q.toNat % base.toNat : ℕ)
  div_eq : ∀ q, P q → (div q base).toNat = q.toNat / base.toNat
  div_mem : ∀ q, P q → P (div q base)

variable {P : U32 → Prop} {rem div : U32 → U32 → U32} {base : U32} {outside : ℤ → Char}
  {chaine : ℕ → Char} {x : U32} {fuel : ℕ}

theorem readHex_meets {d : ℕ} (hd : d < 16) :
    Traced.Meets digitContract (readHex outside d) fun c => c = hexChar d := by
  have hin : (0 : ℤ) ≤ d ∧ (d : ℤ) < 16 := by omega
  have hnote : Traced.Meets digitContract (Traced.note (.readHex d)) fun _ => True :=
    .note ⟨hin, rfl⟩ trivial
  rw [readHex, if_pos hin]
  exact hnote.bind fun _ _ => Traced.Meets.pure rfl

theorem writeChaine_meets (chaine : ℕ → Char) {cpt : ℕ} (hcpt : cpt < 34) (c : Char) :
    Traced.Meets digitContract (writeChaine chaine cpt c) fun chaine' =>
      chaine' = Function.update chaine cpt c := by
  have hnote : Traced.Meets digitContract (Traced.note (.write cpt)) fun _ => True :=
    .note ⟨hcpt, rfl⟩ trivial
  exact hnote.bind fun _ _ => Traced.Meets.pure rfl

theorem digitTurn_meets (h : DividesBy P rem div base) {q : U32} (hq : P q) (hne : q ≠ 0) {cpt : ℕ}
    (hcpt : cpt < 34) : Traced.Meets digitContract (digitTurn rem div outside base (q, cpt, chaine))
      fun r => r = .inl (div q base, cpt + 1,
        Function.update chaine cpt (hexChar (q.toNat % base.toNat))) := by
  have hlt : q.toNat % base.toNat < 16 :=
    (Nat.mod_lt _ (by have := h.base_pos; omega)).trans_le h.base_le
  rw [digitTurn]
  dsimp only
  rw [if_neg hne, h.rem_eq q hq]
  refine (readHex_meets hlt).bind fun c hc => ?_
  refine (writeChaine_meets chaine hcpt c).bind fun chaine' hchaine' => ?_
  rw [hchaine', hc]
  exact Traced.Meets.pure rfl

/-- A character is put behind those in the buffer. -/
theorem map_update_range (chaine : ℕ → Char) (n : ℕ) (c : Char) :
    (List.range (n + 1)).map (Function.update chaine n c) = (List.range n).map chaine ++ [c] := by
  have hkept : (List.range n).map (Function.update chaine n c) = (List.range n).map chaine :=
    List.map_congr_left fun i hi => Function.update_of_ne (List.mem_range.mp hi).ne _ _
  rw [List.range_succ, List.map_append, hkept, List.map_singleton, Function.update_self]

/-- In the loop of the digits of `n`: the buffer holds the last digits, `quotient` the others. -/
structure InDigits (P : U32 → Prop) (base : U32) (n : ℕ) (s : U32 × ℕ × (ℕ → Char)) : Prop where
  mem : P s.1
  lt : s.1.toNat < 2 ^ (32 - s.2.1)
  le : s.2.1 ≤ 32
  digits : ∃ behind, Nat.digits base.toNat n = behind ++ Nat.digits base.toNat s.1.toNat ∧
    (List.range s.2.1).map s.2.2 = behind.map hexChar

theorem InDigits.turn (h : DividesBy P rem div base) {n cpt : ℕ} {q : U32}
    (hs : InDigits P base n (q, cpt, chaine)) (hne : q ≠ 0) :
    cpt < 32 ∧ InDigits P base n (div q base, cpt + 1,
      Function.update chaine cpt (hexChar (q.toNat % base.toNat))) := by
  obtain ⟨hq, hlt, hle, behind, hdigits, hbuffer⟩ := hs
  dsimp only at hq hlt hle hdigits hbuffer
  have hpos : 0 < q.toNat := Nat.pos_of_ne_zero fun hzero => hne (BitVec.eq_of_toNat_eq hzero)
  -- a quotient that is not zero has used up fewer than 32 binary digits
  have hcpt : cpt < 32 := by
    refine Nat.lt_of_le_of_ne hle ?_
    rintro rfl
    exact absurd hlt (Nat.not_lt.mpr hpos)
  have hbase := h.base_pos
  refine ⟨hcpt, h.div_mem q hq, ?_, hcpt, behind ++ [q.toNat % base.toNat], ?_, ?_⟩
  · dsimp only
    rw [h.div_eq q hq, Nat.div_lt_iff_lt_mul (by omega)]
    have hpow : 2 ^ (32 - cpt) = 2 ^ (32 - (cpt + 1)) * 2 := by
      rw [← Nat.pow_succ]
      congr 1
      omega
    rw [hpow] at hlt
    exact hlt.trans_le (Nat.mul_le_mul_left _ hbase)
  · dsimp only
    rw [h.div_eq q hq, hdigits, Nat.digits_def' (by omega) hpos, List.append_assoc,
      List.singleton_append]
  · dsimp only
    rw [map_update_range, hbuffer, List.map_append]
    rfl

/-- The loop leaves the digits of a number in the buffer, the last one first. -/
theorem digitLoop_meets (outside : ℤ → Char) (chaine : ℕ → Char) (h : DividesBy P rem div base)
    {q : U32} (hq : P q) (hfuel : 32 < fuel) :
    Traced.Meets digitContract (Traced.loop (digitTurn rem div outside base) fuel (q, 0, chaine))
      fun r => r.1 ≤ 32 ∧
        (List.range r.1).map r.2 = (Nat.digits base.toNat q.toNat).map hexChar := by
  refine Traced.Meets.loop (I := InDigits P base q.toNat) (fun s => 32 - s.2.1) ?_
    ⟨hq, q.isLt, Nat.zero_le _, [], rfl, rfl⟩ hfuel
  rintro ⟨q', cpt, chaine'⟩ hs
  by_cases hzero : q' = 0
  · rw [digitTurn]
    dsimp only
    rw [if_pos hzero]
    refine Traced.Meets.pure ⟨nofun, fun r hr => ?_⟩
    cases hr
    obtain ⟨-, -, hle, behind, hdigits, hbuffer⟩ := hs
    refine ⟨hle, hbuffer.trans ?_⟩
    rw [hdigits, hzero]
    simp
  · obtain ⟨hcpt, hnext⟩ := hs.turn h hzero
    refine (digitTurn_meets h hs.mem hzero (by omega)).mono fun r hr => ⟨fun s' hs' => ?_, ?_⟩
    · cases hr.symm.trans hs'
      exact ⟨hnext, by dsimp only; omega⟩
    · intro r' hr'
      cases hr.symm.trans hr'

theorem printChaine_eq (chaine : ℕ → Char) (n : ℕ) : printChaine chaine n =
    ⟨((List.range n).map chaine).reverse.map .printChar, .ret ⟨⟩⟩ := by
  induction n with
  | zero => rfl
  | succ n ih =>
    rw [List.range_succ, List.map_append, List.reverse_append]
    exact Traced.bind_eq rfl ih

/-! ## The two functions -/

/-- The characters of a number to a base. -/
def numeralIn (base n : ℕ) : List Char :=
  (if n = 0 then ['0'] else []) ++ ((Nat.digits base n).map hexChar).reverse

/-- The call returns, stays inside `HEX` and the buffer, and prints these characters. -/
structure Prints {α : Type} (x : Traced PrintEvent α) (a : α) (chars : List Char) : Prop where
  outcome : x.outcome = .ret a
  inside : ∀ e ∈ x.trace, e.Inside
  printed : x.trace.filterMap PrintEvent.printed = chars

theorem Prints.bind {α β : Type} {x : Traced PrintEvent α} {f : α → Traced PrintEvent β} {a : α}
    {b : β} {chars chars' : List Char} (hx : Prints x a chars) (hf : Prints (f a) b chars') :
    Prints (x >>= f) b (chars ++ chars') := by
  rw [Traced.bind_of_ret hx.outcome]
  refine ⟨hf.outcome, fun e he => ?_, ?_⟩
  · exact (List.mem_append.mp he).elim (hx.inside e) (hf.inside e)
  · rw [List.filterMap_append, hx.printed, hf.printed]

/-- A call that prints nothing. -/
theorem prints_nil {α : Type} {x : Traced PrintEvent α} {Q : α → Prop}
    (h : Traced.Meets digitContract x Q) : ∃ a, Q a ∧ Prints x a [] := by
  obtain ⟨a, hret, hok, ha⟩ := h.yields fun _ => id
  exact ⟨a, ha, hret, fun e he => (hok e he).1, List.filterMap_eq_nil_iff.mpr fun e he =>
    (hok e he).2⟩

theorem prints_chars (chars : List Char) :
    Prints ⟨chars.map .printChar, .ret ()⟩ () chars := by
  refine ⟨rfl, fun e he => ?_, ?_⟩
  · obtain ⟨c, -, rfl⟩ := List.mem_map.mp he
    trivial
  · rw [List.filterMap_map]
    exact List.filterMap_some

section

variable {base : U16}

theorem base_toNat : (base.setWidth 32).toNat = base.toNat := by
  rw [BitVec.toNat_setWidth]
  exact Nat.mod_eq_of_lt (base.isLt.trans (by decide))

/-- A remainder is small enough not to be taken for a negative number. -/
theorem rem_toInt (q : U32) (hpos : 2 ≤ base.toNat) (hle : base.toNat ≤ 16) :
    (q % base.setWidth 32).toInt = (q.toNat % base.toNat : ℕ) := by
  have hrem : (q % base.setWidth 32).toNat = q.toNat % base.toNat := by
    rw [BitVec.toNat_umod, base_toNat]
  have hlt : q.toNat % base.toNat < base.toNat := Nat.mod_lt _ (by omega)
  rw [BitVec.toInt_eq_toNat_of_lt (by omega), hrem]

theorem quotient_toNat (q : U32) : (q / base.setWidth 32).toNat = q.toNat / base.toNat := by
  rw [BitVec.toNat_udiv, base_toNat]

theorem dividesBy_unsigned (hpos : 2 ≤ base.toNat) (hle : base.toNat ≤ 16) :
    DividesBy (fun _ => True) (· % ·) (· / ·) (base.setWidth 32) where
  base_pos := by rwa [base_toNat]
  base_le := by rwa [base_toNat]
  rem_eq q _ := by rw [base_toNat, rem_toInt q hpos hle]
  div_eq q _ := by rw [base_toNat, quotient_toNat]
  div_mem _ _ := trivial

/-- The signed division of numbers that are not negative. -/
theorem dividesBy_signed (hpos : 2 ≤ base.toNat) (hle : base.toNat ≤ 16) :
    DividesBy (·.msb = false) BitVec.srem BitVec.sdiv (base.setWidth 32) := by
  have hbase : (base.setWidth 32).msb = false := by
    rw [BitVec.msb_eq_false_iff_two_mul_lt, base_toNat]
    omega
  have hrem (q : U32) (hq : q.msb = false) :
      q.srem (base.setWidth 32) = q % base.setWidth 32 := by
    rw [BitVec.srem_eq, hq, hbase]
  have hdiv (q : U32) (hq : q.msb = false) :
      q.sdiv (base.setWidth 32) = q / base.setWidth 32 := by
    rw [BitVec.sdiv_eq, hq, hbase]
    rfl
  constructor
  · rwa [base_toNat]
  · rwa [base_toNat]
  · intro q hq
    rw [hrem q hq, base_toNat, rem_toInt q hpos hle]
  · intro q hq
    rw [hdiv q hq, base_toNat, quotient_toNat]
  · intro q hq
    rw [hdiv q hq, BitVec.msb_eq_false_iff_two_mul_lt, quotient_toNat]
    rw [BitVec.msb_eq_false_iff_two_mul_lt] at hq
    have := Nat.div_le_self q.toNat base.toNat
    omega

theorem printZero_eq (x : U32) :
    printZero x = ⟨(if x.toNat = 0 then ['0'] else []).map .printChar, .ret ⟨⟩⟩ := by
  by_cases hx : x = 0
  · subst hx
    rfl
  · have hne : x.toNat ≠ 0 := fun hzero => hx (BitVec.eq_of_toNat_eq hzero)
    rw [printZero, if_neg hx, if_neg hne]
    rfl

theorem StdIo.printInt_prints (mem : PrintMem) (x : U32) (hpos : 2 ≤ base.toNat)
    (hle : base.toNat ≤ 16) (hfuel : 32 < fuel) :
    Prints (StdIo.printInt fuel mem x base) () (numeralIn base.toNat x.toNat) := by
  have hinvalid : ¬(base.toNat < 2 ∨ 16 < base.toNat) := by omega
  obtain ⟨⟨cpt, chaine⟩, ⟨-, hbuffer⟩, hloop⟩ :=
    prints_nil (digitLoop_meets mem.outside mem.chaine
      (dividesBy_unsigned hpos hle) (q := x) trivial hfuel)
  rw [base_toNat] at hbuffer
  have hzero := prints_chars (if x.toNat = 0 then ['0'] else [])
  rw [← printZero_eq] at hzero
  refine hzero.bind ?_
  rw [if_neg hinvalid]
  refine hloop.bind ?_
  dsimp only
  rw [printChaine_eq, hbuffer]
  exact prints_chars _

/-- The change of the sign gives the absolute value, which is not negative. -/
theorem quotient_abs {x : U32} (hx : x ≠ BitVec.intMin 32) :
    (if x.slt 0 then -x else x).msb = false ∧
      (if x.slt 0 then -x else x).toNat = x.toInt.natAbs := by
  have hlt : x.slt 0 ↔ x.toInt < 0 := BitVec.slt_iff_toInt_lt
  have htoInt : (if x.slt 0 then -x else x).toInt = |x.toInt| := by
    split
    next hneg => rw [BitVec.toInt_neg_of_ne_intMin hx, abs_of_neg (hlt.mp hneg)]
    next hpos => rw [abs_of_nonneg (not_lt.mp fun h => hpos (hlt.mpr h))]
  have hmsb : (if x.slt 0 then -x else x).msb = false := by
    rw [BitVec.msb_eq_toInt, htoInt]
    exact decide_eq_false (abs_nonneg _).not_gt
  refine ⟨hmsb, ?_⟩
  have hcast : ((if x.slt 0 then -x else x).toNat : ℤ) = |x.toInt| := by
    rw [← htoInt, BitVec.toInt_eq_toNat_of_msb hmsb]
  rw [← Int.natCast_natAbs] at hcast
  exact_mod_cast hcast

/-- The sign is put behind the digits, and printed before them. -/
theorem printSigned_prints {x : U32} {chaine : ℕ → Char} {cpt : ℕ} (hcpt : cpt ≤ 32) :
    Prints (if x.slt 0 then do
        let chaine ← writeChaine chaine cpt '-'
        printChaine chaine (cpt + 1)
      else printChaine chaine cpt) ()
      ((if x.slt 0 then ['-'] else []) ++ ((List.range cpt).map chaine).reverse) := by
  split
  · obtain ⟨chaine', rfl, hwrite⟩ := prints_nil (writeChaine_meets chaine
      (hcpt.trans_lt (by decide)) '-')
    refine hwrite.bind ?_
    rw [printChaine_eq, map_update_range, List.reverse_append]
    exact prints_chars _
  · rw [printChaine_eq]
    exact prints_chars _

theorem UserStdIo.printInt_prints (mem : PrintMem) {x : U32} (hx : x ≠ BitVec.intMin 32)
    (hpos : 2 ≤ base.toNat) (hle : base.toNat ≤ 16) (hfuel : 32 < fuel) :
    Prints (UserStdIo.printInt fuel mem x base) ()
      ((if x.slt 0 then ['-'] else []) ++ numeralIn base.toNat x.toInt.natAbs) := by
  have hinvalid : ¬(base.toNat < 2 ∨ 16 < base.toNat) := by omega
  obtain ⟨hmsb, habs⟩ := quotient_abs hx
  obtain ⟨⟨cpt, chaine⟩, ⟨hcpt, hbuffer⟩, hloop⟩ :=
    prints_nil (digitLoop_meets mem.outside mem.chaine
      (dividesBy_signed hpos hle) hmsb hfuel)
  rw [base_toNat, habs] at hbuffer
  have hzero := prints_chars (if x.toNat = 0 then ['0'] else [])
  rw [← printZero_eq] at hzero
  -- a negative number is not zero, so that nothing is printed before its sign
  have hchars : (if x.slt 0 then ['-'] else []) ++ numeralIn base.toNat x.toInt.natAbs =
      (if x.toNat = 0 then ['0'] else []) ++ ([] ++ ((if x.slt 0 then ['-'] else []) ++
        ((List.range cpt).map chaine).reverse)) := by
    rw [hbuffer, numeralIn]
    by_cases hx0 : x = 0
    · subst hx0
      rfl
    · have hnat : x.toNat ≠ 0 := fun h => hx0 (BitVec.eq_of_toNat_eq h)
      have hint : x.toInt.natAbs ≠ 0 := fun h =>
        hx0 (BitVec.eq_of_toInt_eq (Int.natAbs_eq_zero.mp h))
      rw [if_neg hnat, if_neg hint]
      rfl
  rw [hchars]
  refine hzero.bind ?_
  rw [if_neg hinvalid]
  exact hloop.bind (printSigned_prints hcpt)

end

/-! ## Decimal numerals -/

/-- The decimal numeral of an integer. -/
def decimal (x : ℤ) : List Char := (if x < 0 then ['-'] else []) ++ Nat.toDigits 10 x.natAbs

/-- The integer that a numeral denotes. -/
def valueOf : List Char → ℤ
  | [] => 0
  | c :: chars =>
    if c = '-' then -(Nat.ofDigitChars 10 chars 0 : ℤ) else Nat.ofDigitChars 10 (c :: chars) 0

/-- The numeral reads back. -/
theorem valueOf_decimal (x : ℤ) : valueOf (decimal x) = x := by
  by_cases hx : x < 0
  · rw [decimal, if_pos hx, List.singleton_append, valueOf, if_pos rfl,
      Nat.ofDigitChars_ten_toDigits]
    omega
  · obtain ⟨c, chars, hchars⟩ := List.exists_cons_of_ne_nil (Nat.toDigits_ne_nil (n := x.natAbs)
      (b := 10))
    have hdigit : c.isDigit := by
      refine Nat.isDigit_of_mem_toDigits (n := x.natAbs) (b := 10) (by decide) (by decide) ?_
      rw [hchars]
      exact List.mem_cons_self
    have hc : c ≠ '-' := by
      rintro rfl
      exact absurd hdigit (by decide)
    rw [decimal, if_neg hx, List.nil_append, hchars, valueOf, if_neg hc, ← hchars,
      Nat.ofDigitChars_ten_toDigits]
    omega

theorem hexChar_eq_digitChar {d : ℕ} (hd : d < 10) : hexChar d = Nat.digitChar d := by
  have hall : ∀ d < 10, hexChar d = Nat.digitChar d := by decide
  exact hall d hd

theorem digits_eq_toDigits {n : ℕ} (hn : 0 < n) :
    ((Nat.digits 10 n).map hexChar).reverse = Nat.toDigits 10 n := by
  induction n using Nat.strongRecOn with
  | ind n ih =>
    rw [Nat.digits_def' (by decide) hn, List.map_cons, List.reverse_cons,
      hexChar_eq_digitChar (Nat.mod_lt n (by decide)), Nat.toDigits_eq_if (by decide)]
    split
    next hlt =>
      rw [Nat.div_eq_of_lt hlt, Nat.mod_eq_of_lt hlt, Nat.digits_zero]
      rfl
    next hge => rw [ih (n / 10) (by omega) (by omega)]

theorem numeralIn_ten (n : ℕ) : numeralIn 10 n = Nat.toDigits 10 n := by
  rcases Nat.eq_zero_or_pos n with rfl | hn
  · rw [numeralIn, if_pos rfl, Nat.digits_zero, Nat.toDigits_zero]
    rfl
  · rw [numeralIn, if_neg hn.ne', List.nil_append, digits_eq_toDigits hn]

theorem hexChar_ne_minus (d : ℕ) : hexChar d ≠ '-' := by
  rcases Nat.lt_or_ge d 16 with hd | hd
  · have hall : ∀ d < 16, hexChar d ≠ '-' := by decide
    exact hall d hd
  · rw [hexChar, List.getD_eq_getElem?_getD, List.getElem?_eq_none hd]
    decide

/-- No sign is among the digits. -/
theorem minus_not_mem_numeralIn (base n : ℕ) : '-' ∉ numeralIn base n := by
  rw [numeralIn, List.mem_append, List.mem_reverse, List.mem_map]
  rintro (hzero | ⟨d, -, hd⟩)
  · split at hzero
    · exact absurd hzero (by decide)
    · cases hzero
  · exact hexChar_ne_minus d hd

/-! ## What is printed for a number -/

/-- Both functions print the decimal numeral of the number. -/
def PrintsNumeral (fuel : ℕ) (kernel user : PrintMem) (x : U32) : Prop :=
  ∃ chars, Prints (StdIo.printInt fuel kernel x 10) () chars ∧
    Prints (UserStdIo.printInt fuel user x 10) () chars ∧ chars = decimal x.toInt

/-- To no base is anything accessed outside `HEX` and the buffer. -/
def StaysInside (fuel : ℕ) (kernel user : PrintMem) (x : U32) : Prop :=
  ∀ base : U16, 2 ≤ base.toNat → base.toNat ≤ 16 →
    (∀ e ∈ (StdIo.printInt fuel kernel x base).trace, e.Inside) ∧
      ∀ e ∈ (UserStdIo.printInt fuel user x base).trace, e.Inside

section

variable {kernel user : PrintMem}

theorem intMin_neg {x : U32} (hx : 0 ≤ x.toInt) : x ≠ BitVec.intMin 32 := by
  rintro rfl
  exact absurd hx (by decide)

theorem printsNumeral_iff (hfuel : 32 < fuel) :
    PrintsNumeral fuel kernel user x ↔ 0 ≤ x.toInt := by
  have hkernel : Prints (StdIo.printInt fuel kernel x 10) () (numeralIn 10 x.toNat) :=
    StdIo.printInt_prints kernel x (by decide) (by decide) hfuel
  constructor
  · rintro ⟨chars, hprints, -, hchars⟩
    by_contra hneg
    -- the kernel prints no sign
    have hsame : chars = numeralIn 10 x.toNat := hprints.printed.symm.trans hkernel.printed
    have hminus : '-' ∈ decimal x.toInt := by
      rw [decimal, if_pos (not_le.mp hneg)]
      exact List.mem_cons_self
    rw [← hchars, hsame] at hminus
    exact minus_not_mem_numeralIn 10 _ hminus
  · intro hx
    have huser : Prints (UserStdIo.printInt fuel user x 10) ()
        ((if x.slt 0 then ['-'] else []) ++ numeralIn 10 x.toInt.natAbs) :=
      UserStdIo.printInt_prints user (intMin_neg hx) (by decide) (by decide) hfuel
    have hslt : ¬x.slt 0 := fun h => absurd (BitVec.slt_iff_toInt_lt.mp h) (not_lt.mpr hx)
    have hnat : x.toInt.natAbs = x.toNat := by
      have hmsb : x.msb = false := by
        rw [BitVec.msb_eq_toInt]
        exact decide_eq_false (not_lt.mpr hx)
      rw [BitVec.toInt_eq_toNat_of_msb hmsb, Int.natAbs_natCast]
    rw [if_neg hslt, List.nil_append, hnat] at huser
    refine ⟨_, hkernel, huser, ?_⟩
    rw [decimal, if_neg (not_lt.mpr hx), List.nil_append, hnat]
    exact numeralIn_ten _

/-- The remainder of the least integer is negative. -/
theorem intMin_reads_outside (hfuel : 32 < fuel) :
    .readHex (-8) ∈ (UserStdIo.printInt fuel user (BitVec.intMin 32) 10).trace := by
  obtain ⟨fuel, rfl⟩ : ∃ k, fuel = k + 1 := ⟨fuel - 1, by omega⟩
  refine Traced.mem_bind_right (a := ⟨⟩) rfl ?_
  refine Traced.mem_bind_left (Traced.mem_loop_turn ?_ fuel)
  exact List.mem_cons_self

theorem staysInside_iff (hfuel : 32 < fuel) :
    StaysInside fuel kernel user x ↔ x ≠ BitVec.intMin 32 := by
  constructor
  · rintro hinside rfl
    have hevent := (hinside 10 (by decide) (by decide)).2 _ (intMin_reads_outside hfuel)
    exact absurd hevent.1 (by decide)
  · intro hx base hpos hle
    exact ⟨(StdIo.printInt_prints kernel x hpos hle hfuel).inside,
      (UserStdIo.printInt_prints user hx hpos hle hfuel).inside⟩

/-- Printed integers read back if and only if they are not negative. -/
theorem printInt_readsBack_iff (hfuel : 32 < fuel) :
    PrintsNumeral fuel kernel user x ∧ StaysInside fuel kernel user x ↔ 0 ≤ x.toInt := by
  rw [printsNumeral_iff hfuel, staysInside_iff hfuel]
  exact and_iff_left_of_imp intMin_neg

end

/-- Memory filled with blanks. -/
def blankMem : PrintMem := ⟨fun _ => ' ', fun _ => ' '⟩

/-- For -1 the kernel prints the numeral of a large number, and the least integer is not printed
from `HEX` by a user program. -/
theorem negative_not_readsBack :
    Prints (StdIo.printInt 33 blankMem (-1) 10) () (Nat.toDigits 10 4294967295) ∧
      Prints (UserStdIo.printInt 33 blankMem (-1) 10) () ['-', '1'] ∧
      ¬(PrintsNumeral 33 blankMem blankMem (-1) ∧ StaysInside 33 blankMem blankMem (-1)) ∧
      ¬StaysInside 33 blankMem blankMem (BitVec.intMin 32) := by
  refine ⟨?_, ?_, fun h => ?_, fun h => ?_⟩
  · rw [← numeralIn_ten]
    exact StdIo.printInt_prints blankMem (-1) (by decide) (by decide) (by decide)
  · exact UserStdIo.printInt_prints blankMem (by decide) (by decide) (by decide) (by decide)
  · exact absurd ((printsNumeral_iff (by decide)).mp h.1) (by decide)
  · exact (staysInside_iff (by decide)).mp h rfl

/-- A number of seven digits is printed as it should, and the word of ones, which is -1, is not. -/
theorem million_readsBack :
    (PrintsNumeral 33 blankMem blankMem 1234567 ∧ StaysInside 33 blankMem blankMem 1234567) ∧
      ¬(PrintsNumeral 33 blankMem blankMem 0xFFFFFFFF ∧
        StaysInside 33 blankMem blankMem 0xFFFFFFFF) :=
  ⟨(printInt_readsBack_iff (by decide)).mpr (by decide),
    mt (printInt_readsBack_iff (by decide)).mp (by decide)⟩

end LtMicros
