import LtMicros.Format

/-!
# The text of a format string

The text that the system calls of `printfEx` leave behind is the one that `kprintEx` prints, except
for numbers that are negative and for statuses to which the two sides give different names. The
digits that `printBin` prints are those of its value.
-/

namespace LtMicros

open Lib

/-- `SysPrintChar` and `SysPrintStr`. -/
def PrintCall.kprint (P : Printers Char) : PrintCall → List Char
  | .sysPrintChar c => printFormat P ⟨fun _ => BitVec.ofNat 32 c.toNat, fun _ => []⟩ ['%', 'c']
  | .sysPrintStr str => printFormat P ⟨fun _ => 0, fun _ => str⟩ ['%', 's']

/-- The statuses that have one name in the kernel and in the user programs: three numbers, and
those that have none on either side. -/
def SameStatus (status : U32) : Prop := status ∈ [0, 1, 3] ∨ 16 ≤ status.toNat

/-- What a piece takes is printed alike: numbers are not negative, and statuses have one name. -/
def Piece.PrintedAlike (ap : VaList) (i : ℕ) (p : Piece) : Prop :=
  (p = .int ∨ p = .hex → 0 ≤ (ap.arg i).toInt) ∧ (p = .status → SameStatus (ap.arg i))

/-- All that is printed is. -/
def PrintedAlike (ap : VaList) : List Piece → ℕ → Prop
  | [], _ => True
  | p :: ps, i => p.PrintedAlike ap i ∧ PrintedAlike ap ps (i + p.args)

section

variable {fuel : ℕ} {kernel user : PrintMem} {ap : VaList}
  {format : List Char} {ps : List Piece} {p : Piece} {i : ℕ} {nbBits : ℤ} {x : U32} {base : U16}

/-! ## System calls -/

theorem toChar_ofNat {c : Char} (hc : c.toNat < 256) : toChar (BitVec.ofNat 32 c.toNat) = c := by
  have hlt : c.toNat < 2 ^ 32 := hc.trans (by decide)
  rw [toChar, BitVec.toNat_ofNat, Nat.mod_eq_of_lt hlt, Nat.mod_eq_of_lt hc, Char.ofNat_toNat]

theorem toChar_toNat (x : U32) : (toChar x).toNat = x.toNat % 256 := by
  have hlt : x.toNat % 256 < 256 := Nat.mod_lt _ (by decide)
  have hvalid : (x.toNat % 256).isValidChar := .inl (hlt.trans (by decide))
  rw [toChar, Char.ofNat, dif_pos hvalid]
  rfl

theorem toChar_lt (x : U32) : (toChar x).toNat < 256 := by
  rw [toChar_toNat]
  exact Nat.mod_lt _ (by decide)

theorem kprint_char (P : Printers Char) {c : Char} (hc : c.toNat < 256) :
    (PrintCall.sysPrintChar c).kprint P = P.printChar c := by
  rw [PrintCall.kprint, printFormat, printEx_type rfl (by decide)]
  simp [Piece.ofType, Piece.print, toChar_ofNat hc, printEx]

theorem kprint_str (P : Printers Char) (str : List Char) :
    (PrintCall.sysPrintStr str).kprint P = P.printStr str := by
  rw [PrintCall.kprint, printFormat, printEx_type rfl (by decide)]
  simp [Piece.ofType, Piece.print, printEx]

/-- The text of system calls. -/
def textOf (fuel : ℕ) (kernel : PrintMem) (calls : List PrintCall) :
    List Char :=
  calls.flatMap (PrintCall.kprint (StdIo.printers fuel kernel))

theorem textOf_append (calls calls' : List PrintCall) :
    textOf fuel kernel (calls ++ calls') =
      textOf fuel kernel calls ++ textOf fuel kernel calls' :=
  List.flatMap_append

/-- Characters that are printed one by one. -/
theorem textOf_chars {chars : List Char} (h : ∀ c ∈ chars, c.toNat < 256) :
    textOf fuel kernel (chars.map .sysPrintChar) = chars := by
  induction chars with
  | nil => rfl
  | cons c chars ih =>
    rw [List.map_cons, ← List.singleton_append, textOf_append,
      ih fun d hd => h d (List.mem_cons_of_mem c hd)]
    have hc : textOf fuel kernel [.sysPrintChar c] = [c] := by
      rw [textOf, List.flatMap_singleton, kprint_char _ (h c List.mem_cons_self)]
      rfl
    rw [hc]
    rfl

theorem textOf_str (str : List Char) : textOf fuel kernel [.sysPrintStr str] = str := by
  rw [textOf, List.flatMap_singleton, kprint_str]
  rfl

/-! ## Numbers -/

theorem hexChar_lt (d : ℕ) : (hexChar d).toNat < 256 := by
  rcases Nat.lt_or_ge d 16 with hd | hd
  · have hall : ∀ d < 16, (hexChar d).toNat < 256 := by decide
    exact hall d hd
  · rw [hexChar, List.getD_eq_getElem?_getD, List.getElem?_eq_none hd]
    decide

theorem numeralIn_lt {base n : ℕ} {c : Char} (hc : c ∈ numeralIn base n) : c.toNat < 256 := by
  rw [numeralIn, List.mem_append, List.mem_reverse, List.mem_map] at hc
  obtain hzero | ⟨d, -, rfl⟩ := hc
  · split at hzero
    · obtain rfl := List.mem_singleton.mp hzero
      decide
    · cases hzero
  · exact hexChar_lt d

/-- A numeral has a first digit. -/
theorem numeralIn_ne_nil {base n : ℕ} : numeralIn base n ≠ [] := by
  rw [numeralIn]
  by_cases hn : n = 0
  · simp [hn]
  · simp [hn, Nat.digits_ne_nil_iff_ne_zero]

/-- The text of a number that a user program prints. -/
theorem textOf_printInt (hfuel : 32 < fuel) (hx : x ≠ BitVec.intMin 32) (hpos : 2 ≤ base.toNat)
    (hle : base.toNat ≤ 16) :
    textOf fuel kernel ((UserStdIo.printers fuel user).printInt x base) =
      (if x.slt 0 then ['-'] else []) ++ numeralIn base.toNat x.toInt.natAbs := by
  have hprints := (UserStdIo.printInt_prints user hx hpos hle hfuel).printed
  show textOf fuel kernel (((UserStdIo.printInt fuel user x base).trace.filterMap
    PrintEvent.printed).map .sysPrintChar) = _
  rw [hprints]
  refine textOf_chars fun c hc => ?_
  rcases List.mem_append.mp hc with hsign | hdigit
  · split at hsign
    · obtain rfl := List.mem_singleton.mp hsign
      decide
    · cases hsign
  · exact numeralIn_lt hdigit

/-- The kernel prints the same digits when the number is not negative, and no sign otherwise. -/
theorem printInt_agrees_iff (hfuel : 32 < fuel) (hx : x ≠ BitVec.intMin 32)
    (hpos : 2 ≤ base.toNat) (hle : base.toNat ≤ 16) (rest rest' : List Char) :
    textOf fuel kernel ((UserStdIo.printers fuel user).printInt x base) ++ rest =
        (StdIo.printers fuel kernel).printInt x base ++ rest' ↔
      0 ≤ x.toInt ∧ rest = rest' := by
  have hkernel : (StdIo.printers fuel kernel).printInt x base =
      numeralIn base.toNat x.toNat :=
    (StdIo.printInt_prints kernel x hpos hle hfuel).printed
  rw [textOf_printInt hfuel hx hpos hle, hkernel]
  by_cases hneg : x.toInt < 0
  · have hslt : x.slt 0 = true := BitVec.slt_iff_toInt_lt.mpr hneg
    rw [if_pos hslt]
    refine iff_of_false (fun heq => ?_) fun h => not_le.mpr hneg h.1
    -- the first character is a sign on one side, and a digit on the other
    have hne : numeralIn base.toNat x.toNat ≠ [] := numeralIn_ne_nil
    obtain ⟨c, digits, hdigits⟩ := List.exists_cons_of_ne_nil hne
    rw [hdigits] at heq
    obtain rfl : '-' = c := (List.cons.inj heq).1
    exact minus_not_mem_numeralIn base.toNat x.toNat (hdigits ▸ List.mem_cons_self)
  · have hslt : ¬x.slt 0 = true := fun h => hneg (BitVec.slt_iff_toInt_lt.mp h)
    have hmsb : x.msb = false := by
      rw [BitVec.msb_eq_toInt]
      exact decide_eq_false hneg
    rw [if_neg hslt, List.nil_append, BitVec.toInt_eq_toNat_of_msb hmsb, Int.natAbs_natCast,
      List.append_cancel_left_eq]
    exact (and_iff_right (Int.natCast_nonneg _)).symm

/-! ## Statuses -/

theorem statusGetStringFromInt_of_le {statusList : List String} (h : statusList.length ≤ x.toNat) :
    statusGetStringFromInt statusList x = unknownStatus.toList := by
  rw [statusGetStringFromInt, List.getD_eq_getElem?_getD, List.getElem?_eq_none h, Option.getD_none]

/-- Where the names differ, neither is the beginning of the other. -/
theorem status_names (x : U32) :
    (SameStatus x ∧ statusGetStringFromInt UserStdIo.statusList x =
        statusGetStringFromInt StdIo.statusList x) ∨
      (¬SameStatus x ∧
        ¬statusGetStringFromInt UserStdIo.statusList x <+:
          statusGetStringFromInt StdIo.statusList x ∧
        ¬statusGetStringFromInt StdIo.statusList x <+:
          statusGetStringFromInt UserStdIo.statusList x) := by
  have hlisted : ∀ n < 16,
      (BitVec.ofNat 32 n ∈ ([0, 1, 3] : List U32) ∧
        (UserStdIo.statusList.getD n unknownStatus).toList =
          (StdIo.statusList.getD n unknownStatus).toList) ∨
      (BitVec.ofNat 32 n ∉ ([0, 1, 3] : List U32) ∧
        ¬(UserStdIo.statusList.getD n unknownStatus).toList <+:
          (StdIo.statusList.getD n unknownStatus).toList ∧
        ¬(StdIo.statusList.getD n unknownStatus).toList <+:
          (UserStdIo.statusList.getD n unknownStatus).toList) := by
    decide
  rcases Nat.lt_or_ge x.toNat 16 with hlt | hge
  · have hsame : SameStatus x ↔ x ∈ ([0, 1, 3] : List U32) := or_iff_left (not_le.mpr hlt)
    have hx := hlisted x.toNat hlt
    rw [BitVec.ofNat_toNat, BitVec.setWidth_eq] at hx
    rw [hsame]
    exact hx
  · refine .inl ⟨.inr hge, ?_⟩
    have huser : UserStdIo.statusList.length ≤ x.toNat := le_trans (by decide) hge
    have hkernel : StdIo.statusList.length ≤ x.toNat := hge
    rw [statusGetStringFromInt_of_le huser, statusGetStringFromInt_of_le hkernel]

/-- Two names in front of two texts. -/
theorem status_agrees_iff (x : U32) (rest rest' : List Char) :
    statusGetStringFromInt UserStdIo.statusList x ++ rest =
        statusGetStringFromInt StdIo.statusList x ++ rest' ↔ SameStatus x ∧ rest = rest' := by
  obtain ⟨hsame, heq⟩ | ⟨hdiff, huser, hkernel⟩ := status_names x
  · rw [heq, List.append_cancel_left_eq]
    exact (and_iff_right hsame).symm
  · refine iff_of_false (fun heq => ?_) fun h => hdiff h.1
    -- of two beginnings of one text, one is the beginning of the other
    have hbegin : statusGetStringFromInt StdIo.statusList x <+:
        statusGetStringFromInt UserStdIo.statusList x ++ rest := ⟨rest', heq.symm⟩
    rcases List.prefix_or_prefix_of_prefix (List.prefix_append _ rest) hbegin with h | h
    · exact huser h
    · exact hkernel h

/-! ## Pieces -/

theorem printBits_lt {value : U32} {n : ℤ} {offset i : ℕ} {c : Char}
    (hc : c ∈ printBits value n offset i) : c = '.' ∨ c = '0' ∨ c = '1' := by
  induction offset generalizing i with
  | zero => cases hc
  | succ offset ih =>
    rw [printBits, List.mem_append, List.mem_cons] at hc
    obtain hdot | hbit | hrest := hc
    · split at hdot
      · exact .inl (List.mem_singleton.mp hdot)
      · cases hdot
    · split at hbit
      · exact .inr (.inr hbit)
      · exact .inr (.inl hbit)
    · exact ih hrest

theorem textOf_printBin (value : U32) (n : ℤ) :
    textOf fuel kernel ((UserStdIo.printers fuel user).printBin value n) =
      (StdIo.printers fuel kernel).printBin value n := by
  have huser : (UserStdIo.printers fuel user).printBin value n =
      (binChars value n).map .sysPrintChar := List.map_eq_flatMap.symm
  have hkernel : (StdIo.printers fuel kernel).printBin value n = binChars value n :=
    List.flatMap_singleton' (binChars value n)
  rw [huser, hkernel]
  refine textOf_chars fun c hc => ?_
  rw [binChars, List.mem_append] at hc
  rcases hc with hc | hc
  · rcases printBits_lt hc with rfl | rfl | rfl <;> decide
  · obtain rfl := List.mem_singleton.mp hc
    decide

/-- A piece has the same text in both, if what it takes is printed alike. -/
theorem print_agrees_iff (hfuel : 32 < fuel) (hmin : ∀ i, ap.arg i ≠ BitVec.intMin 32)
    (hp : ∀ c ∈ p.spell, c.toNat < 256) (rest rest' : List Char) :
    textOf fuel kernel (p.print (UserStdIo.printers fuel user) ap i nbBits) ++ rest =
        p.print (StdIo.printers fuel kernel) ap i nbBits ++ rest' ↔
      p.PrintedAlike ap i ∧ rest = rest' := by
  have hstr (str : List Char) :
      textOf fuel kernel ((UserStdIo.printers fuel user).printStr str) =
        (StdIo.printers fuel kernel).printStr str := textOf_str str
  have hchar (c : Char) (hc : c.toNat < 256) :
      textOf fuel kernel ((UserStdIo.printers fuel user).printChar c) =
        (StdIo.printers fuel kernel).printChar c :=
    textOf_chars (List.forall_mem_singleton.mpr hc)
  have hstatus (x : U32) :
      textOf fuel kernel ((UserStdIo.printers fuel user).printStatus x) =
        statusGetStringFromInt UserStdIo.statusList x := textOf_str _
  cases p with
  | lit c => simp [Piece.print, Piece.PrintedAlike, hchar c (hp c (List.mem_singleton_self c))]
  | int =>
    simpa [Piece.print, Piece.PrintedAlike] using
      printInt_agrees_iff hfuel (hmin i) (by decide) (by decide) rest rest'
  | hex =>
    simpa [Piece.print, Piece.PrintedAlike, textOf_append, hstr] using
      printInt_agrees_iff hfuel (hmin i) (by decide) (by decide) rest rest'
  | bin => simp [Piece.print, Piece.PrintedAlike, textOf_printBin]
  | binOf => simp [Piece.print, Piece.PrintedAlike, textOf_printBin]
  | str => simp [Piece.print, Piece.PrintedAlike, hstr]
  | status =>
    have hkernel : (StdIo.printers fuel kernel).printStatus (ap.arg i) =
        statusGetStringFromInt StdIo.statusList (ap.arg i) := rfl
    rw [Piece.print, Piece.print, hstatus, hkernel]
    simpa [Piece.PrintedAlike] using status_agrees_iff (ap.arg i) rest rest'
  | char => simp [Piece.print, Piece.PrintedAlike, hchar _ (toChar_lt _)]

theorem printPieces_agrees_iff (hfuel : 32 < fuel) (hmin : ∀ i, ap.arg i ≠ BitVec.intMin 32)
    (hps : ∀ c ∈ ps.flatMap Piece.spell, c.toNat < 256) :
    textOf fuel kernel
        (printPieces (UserStdIo.printers fuel user) ap ps i nbBits) =
        printPieces (StdIo.printers fuel kernel) ap ps i nbBits ↔
      PrintedAlike ap ps i := by
  induction ps generalizing i nbBits with
  | nil => exact iff_of_true rfl trivial
  | cons p ps ih =>
    have hp : ∀ c ∈ p.spell, c.toNat < 256 := fun c hc => hps c (List.mem_append_left _ hc)
    have hrest : ∀ c ∈ ps.flatMap Piece.spell, c.toNat < 256 :=
      fun c hc => hps c (List.mem_append_right _ hc)
    rw [printPieces, printPieces, textOf_append, print_agrees_iff hfuel hmin hp, ih hrest,
      PrintedAlike]

/-- What a user program prints is what the kernel prints for the same format and arguments if and
only if no number among them is negative and each status has one name on both sides. -/
theorem user_text_eq_kernel_text_iff (hfuel : 32 < fuel)
    (hmin : ∀ i, ap.arg i ≠ BitVec.intMin 32) (hformat : ∀ c ∈ format, c.toNat < 256) :
    textOf fuel kernel (printFormat (UserStdIo.printers fuel user) ap format) =
        printFormat (StdIo.printers fuel kernel) ap format ↔
      PrintedAlike ap (pieces format) 0 := by
  obtain ⟨hsep, hspell⟩ := pieces_spec format
  have hprint {ε : Type} (P : Printers ε) :
      printFormat P ap format = printPieces P ap (pieces format) 0 8 := by
    rw [printFormat, ← printEx_flatMap hsep, hspell]
  rw [hprint, hprint]
  exact printPieces_agrees_iff hfuel hmin (by rwa [hspell])

end

/-- Two numbers, a character and a status. -/
theorem user_text_eq_kernel_text_numbers :
    textOf 33 blankMem
        (printFormat (UserStdIo.printers 33 blankMem) ⟨fun i => if i = 2 then 3 else 255, fun _ => []⟩
          ['%', 'd', '!', '%', 'x', '%', 't']) =
        printFormat (StdIo.printers 33 blankMem) ⟨fun i => if i = 2 then 3 else 255, fun _ => []⟩
          ['%', 'd', '!', '%', 'x', '%', 't'] ↔
      PrintedAlike ⟨fun i => if i = 2 then 3 else 255, fun _ => []⟩
        (pieces ['%', 'd', '!', '%', 'x', '%', 't']) 0 :=
  have hmin (i : ℕ) : (if i = 2 then 3 else 255 : U32) ≠ BitVec.intMin 32 := by
    split <;> decide
  user_text_eq_kernel_text_iff (by decide) hmin (by simp)

/-! ## Bits -/

/-- The number that binary digits denote. -/
def bitsValue (digits : List Char) : ℕ :=
  digits.foldl (fun n c => 2 * n + if c = '1' then 1 else 0) 0

/-- The digits that are left to print. -/
def bitDigits (value : U32) : ℕ → List Char
  | 0 => []
  | k + 1 => (if value.sshiftRight k &&& 1 = 1 then '1' else '0') :: bitDigits value k

section

variable {value : U32} {n : ℤ} {k i : ℕ} {c : Char}

theorem bitDigits_length (value : U32) (k : ℕ) : (bitDigits value k).length = k := by
  induction k with
  | zero => rfl
  | succ k ih => rw [bitDigits, List.length_cons, ih]

theorem mem_bitDigits (h : c ∈ bitDigits value k) : c = '0' ∨ c = '1' := by
  induction k with
  | zero => cases h
  | succ k ih =>
    rcases List.mem_cons.mp h with rfl | h
    · split
      · exact .inr rfl
      · exact .inl rfl
    · exact ih h

theorem printBits_filter : (printBits value n k i).filter (· ≠ '.') = bitDigits value k := by
  induction k generalizing i with
  | zero => rfl
  | succ k ih =>
    have hdots : ((if 8 < n ∧ i % 8 = 0 ∧ i ≠ 0 then ['.'] else []).filter (· ≠ '.')) = [] := by
      split <;> rfl
    have hbit : (if value.sshiftRight k &&& 1 = 1 then '1' else '0') ≠ '.' := by
      split <;> decide
    rw [printBits, List.filter_append, hdots, List.nil_append,
      List.filter_cons_of_pos (by simpa using hbit), ih, bitDigits]

/-- The first character is number `i + (i - 1) / 8` of the whole text. A dot stands behind eight
digits, if there is one more digit. -/
theorem printBits_dot (h : 8 < n) (j : ℕ) :
    (printBits value n k i)[j]? = some '.' ↔
      (i + (i - 1) / 8 + j) % 9 = 8 ∧ 8 * ((i + (i - 1) / 8 + j) / 9 + 1) < i + k := by
  induction k generalizing i j with
  | zero =>
    simp only [printBits, List.getElem?_nil, reduceCtorEq, false_iff]
    omega
  | succ k ih =>
    have hbit : (if value.sshiftRight k &&& 1 = 1 then '1' else '0') ≠ '.' := by
      split <;> decide
    rw [printBits]
    by_cases hdot : i % 8 = 0 ∧ i ≠ 0
    · rw [if_pos ⟨h, hdot⟩]
      rcases j with _ | _ | j
      · simp only [List.cons_append, List.getElem?_cons_zero, true_iff]
        omega
      · simp only [List.cons_append, List.nil_append, List.getElem?_cons_succ,
          List.getElem?_cons_zero, Option.some.injEq, hbit, false_iff]
        omega
      · have hpos : i + 1 + (i + 1 - 1) / 8 + j = i + (i - 1) / 8 + (j + 1 + 1) := by omega
        simp only [List.cons_append, List.nil_append, List.getElem?_cons_succ, ih, hpos,
          Nat.add_right_comm i 1 k, Nat.add_assoc i k 1]
    · rw [if_neg fun hall => hdot hall.2, List.nil_append]
      rcases j with _ | j
      · simp only [List.getElem?_cons_zero, Option.some.injEq, hbit, false_iff]
        omega
      · have hpos : i + 1 + (i + 1 - 1) / 8 + j = i + (i - 1) / 8 + (j + 1) := by omega
        simp only [List.getElem?_cons_succ, ih, hpos, Nat.add_right_comm i 1 k,
          Nat.add_assoc i k 1]

theorem dot_not_mem_printBits (h : n ≤ 8) : '.' ∉ printBits value n k i := by
  induction k generalizing i with
  | zero => exact List.not_mem_nil
  | succ k ih =>
    have hbit : '.' ≠ (if value.sshiftRight k &&& 1 = 1 then '1' else '0') := by
      split <;> decide
    have hdot : ¬(8 < n ∧ i % 8 = 0 ∧ i ≠ 0) := fun hall => absurd hall.1 (not_lt.mpr h)
    rw [printBits, if_neg hdot, List.nil_append, List.mem_cons]
    exact not_or.mpr ⟨hbit, ih⟩

theorem sshiftRight_and_one (hk : k < 32) :
    value.sshiftRight k &&& 1 = 1 ↔ value.toNat / 2 ^ k % 2 = 1 := by
  have hlow : (value.sshiftRight k).getLsbD 0 = value.getLsbD k := by
    rw [BitVec.getLsbD_sshiftRight]
    simp [hk]
  have hbit : value.getLsbD k = decide (value.toNat / 2 ^ k % 2 = 1) :=
    Nat.testBit_eq_decide_div_mod_eq
  have hand : value.sshiftRight k &&& 1#32 =
      (BitVec.ofBool ((value.sshiftRight k).getLsbD 0)).setWidth 32 :=
    BitVec.and_one_eq_setWidth_ofBool_getLsbD
  rw [show (1 : U32) = 1#32 from rfl, hand, hlow, hbit]
  by_cases h : value.toNat / 2 ^ k % 2 = 1
  · simp [h]
  · simp [h]

/-- The digits from bit `k - 1` on continue a number by the low bits of the value. -/
theorem foldl_bitDigits (hk : k ≤ 32) (a : ℕ) :
    (bitDigits value k).foldl (fun n c => 2 * n + if c = '1' then 1 else 0) a =
      a * 2 ^ k + value.toNat % 2 ^ k := by
  induction k generalizing a with
  | zero => simp [bitDigits, Nat.mod_one]
  | succ k ih =>
    have hbit : (if (if value.sshiftRight k &&& 1 = 1 then '1' else '0') = '1' then 1 else 0) =
        value.toNat / 2 ^ k % 2 := by
      by_cases h : value.sshiftRight k &&& 1 = 1
      · rw [if_pos h, (sshiftRight_and_one hk).mp h]
        rfl
      · have h0 : value.toNat / 2 ^ k % 2 = 0 :=
          Nat.mod_two_ne_one.mp fun h1 => h ((sshiftRight_and_one hk).mpr h1)
        rw [if_neg h, h0]
        rfl
    rw [bitDigits, List.foldl_cons, ih (Nat.le_of_succ_le hk), hbit, Nat.mod_pow_succ]
    ring

end

/-- `printBin` prints the digits of the value modulo the power of two that the number of bits
names, 32 at most. With `k % 9 = 8`, the character at `k` is a dot if more than the `k / 9 + 1`
groups of eight digits before it are printed; there are no other dots. -/
theorem binChars_value (value : U32) (nbBits : ℕ) :
    ∃ digits, (binChars value nbBits).filter (· ≠ '.') = digits ++ ['b'] ∧
      digits.length = min nbBits 32 ∧ (∀ c ∈ digits, c = '0' ∨ c = '1') ∧
      bitsValue digits = value.toNat % 2 ^ min nbBits 32 ∧
      ∀ k, (binChars value nbBits)[k]? = some '.' ↔
        k % 9 = 8 ∧ 8 * (k / 9 + 1) < min nbBits 32 := by
  have hmin : (if maxBits < (nbBits : ℤ) then maxBits else (nbBits : ℤ)) = (min nbBits 32 : ℕ) := by
    rw [maxBits]
    split <;> omega
  have hchars : binChars value nbBits =
      printBits value (min nbBits 32 : ℕ) (min nbBits 32) 0 ++ ['b'] := by
    rw [binChars, hmin]
    rfl
  have hvalue : bitsValue (bitDigits value (min nbBits 32)) =
      0 * 2 ^ min nbBits 32 + value.toNat % 2 ^ min nbBits 32 := foldl_bitDigits (by omega) 0
  rw [Nat.zero_mul, Nat.zero_add] at hvalue
  refine ⟨bitDigits value (min nbBits 32), ?_, bitDigits_length _ _, fun c => mem_bitDigits, hvalue,
    fun k => ?_⟩
  · rw [hchars, List.filter_append, printBits_filter]
    rfl
  · -- the last character is no dot
    have hlast : (binChars value nbBits)[k]? = some '.' ↔
        (printBits value (min nbBits 32 : ℕ) (min nbBits 32) 0)[k]? = some '.' := by
      rw [hchars, List.getElem?_append]
      split_ifs with hlen
      · rfl
      · rw [List.getElem?_eq_none (not_lt.mp hlen)]
        simp [List.getElem?_singleton]
    rw [hlast]
    rcases le_or_gt (min nbBits 32) 8 with hle | hlt
    · refine iff_of_false (fun h => ?_) (by omega)
      exact dot_not_mem_printBits (by omega) (List.mem_of_getElem? h)
    · have hdot : (printBits value (min nbBits 32 : ℕ) (min nbBits 32) 0)[k]? = some '.' ↔ _ :=
        printBits_dot (by omega) k
      simpa using hdot

end LtMicros
