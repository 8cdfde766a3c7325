import LtMicros.PrintInt

/-!
# Format strings

`kprintEx` of the kernel and `printfEx` of the user programs go through a format string in the same
way, and differ in what they print with. A format string is a sequence of pieces, and what is
printed is the output of its pieces in their order. Strings that arguments point to have an end.
-/

namespace LtMicros

/-- `printChar`, `printStr`, `printInt` and `printStatus`, by what they put out. -/
structure Printers (ε : Type*) where
  printChar : Char → List ε
  printStr : List Char → List ε
  printInt : U32 → U16 → List ε
  printStatus : U32 → List ε

/-- The arguments behind a format string, and the strings that they point to. -/
structure VaList where
  arg : ℕ → U32
  str : U32 → List Char

/-- The conversion to `char`. -/
def toChar (x : U32) : Char := Char.ofNat (x.toNat % 256)

/-- `checkType`. -/
def checkType (type : Char) : Bool := type ∈ ['d', 'c', 's', 'x', 'b', 't']

/-- `MAX_BITS`. -/
def maxBits : ℤ := 32

/-- The loop of `printBin`, with the number of bits that are left and of those that have been
printed. -/
def printBits (value : U32) (nbBits : ℤ) : ℕ → ℕ → List Char
  | 0, _ => []
  | offset + 1, i =>
    (if 8 < nbBits ∧ i % 8 = 0 ∧ i ≠ 0 then ['.'] else []) ++
      (if value.sshiftRight offset &&& 1 = 1 then '1' else '0') ::
        printBits value nbBits offset (i + 1)

/-- The characters that `printBin` prints. `nbBits` is an `int`; for the smallest one the source
subtracts 1 and overflows, and the text here is that of 0 bits. -/
def binChars (value : U32) (nbBits : ℤ) : List Char :=
  let nbBits := if maxBits < nbBits then maxBits else nbBits
  printBits value nbBits nbBits.toNat 0 ++ ['b']

section

variable {ε : Type*} (P : Printers ε) (ap : VaList)

/-- `printBin`. -/
def Printers.printBin (value : U32) (nbBits : ℤ) : List ε :=
  (binChars value nbBits).flatMap P.printChar

/-- The loop of `kprintEx` and `printfEx`, with the number of arguments that have been taken and
with `nbBits`. -/
def printEx : List Char → ℕ → ℤ → List ε
  | [], _, _ => []
  -- behind the last character comes the terminator, which is no type
  | [c], _, _ => P.printChar c
  | c :: type :: format, i, nbBits =>
    if c = '%' then
      if checkType type = false then P.printChar c ++ printEx (type :: format) i nbBits
      else if type = 'd' then P.printInt (ap.arg i) 10 ++ printEx format (i + 1) nbBits
      else if type = 'x' ∨ type = 'p' then
        P.printStr ['0', 'x'] ++ P.printInt (ap.arg i) 16 ++ printEx format (i + 1) nbBits
      else if type = 'b' then
        match format with
        | '*' :: format =>
          -- the width stays for the rest of the format
          let nbBits := (ap.arg (i + 1)).toInt
          P.printBin (ap.arg i) nbBits ++ printEx format (i + 2) nbBits
        | format => P.printBin (ap.arg i) nbBits ++ printEx format (i + 1) nbBits
      else if type = 's' then P.printStr (ap.str (ap.arg i)) ++ printEx format (i + 1) nbBits
      else if type = 't' then P.printStatus (ap.arg i) ++ printEx format (i + 1) nbBits
      else P.printChar (toChar (ap.arg i)) ++ printEx format (i + 1) nbBits
    else P.printChar c ++ printEx (type :: format) i nbBits

/-- A format string is printed with eight bits for `%b` at first. -/
def printFormat (format : List Char) : List ε := printEx P ap format 0 8

end

/-- `UNKNOWN_STATUS`, as both sides spell it. -/
def unknownStatus : String := "UNKOWN_STATUS"

/-- `STATUS_LIST` of the kernel. -/
def StdIo.statusList : List String :=
  ["STATUS_SUCCESS", "STATUS_FAILURE", "STATUS_NOT_FOUND", "STATUS_INVALID_PARAMETER",
    "STATUS_NULL_PARAMETER", "STATUS_INAVLID_HANDLE", "STATUS_ALLOC_FAILED",
    "STATUS_INVALID_VIRTUAL_USER_ADDRESS", "STATUS_PHYSICAL_MEMORY_FULL",
    "STATUS_PROCESS_HEAP_LIMIT_REACHED", "IPC_STATUS_ID_STRING_ALREADY_USED",
    "IPC_STATUS_SERVER_NOT_FOUND", "IPC_STATUS_ACCESS_DENIED", "STATUS_HANDLE_ALREADY_EXIST",
    "STATUS_LIST_STOP_ITERATING", "STATUS_UNEXPECTED"]

/-- `STATUS_LIST` of the user programs. -/
def UserStdIo.statusList : List String :=
  ["STATUS_SUCCESS", "STATUS_FAILURE", "STATUS_NULL_PARAMETER", "STATUS_INVALID_PARAMETER",
    "STATUS_ALLOC_FAILED", "STATUS_FILE_NOT_FOUND", "STATUS_NOT_A_DIRECTORY",
    "STATUS_UNEXPECTED", "STATUS_PATH_TOO_LONG", "STATUS_LIST_STOP_ITERATING",
    "STATUS_ACCESS_DENIED"]

/-- `StatusGetStringFromInt`: the name at the number in the list, if there is one. -/
def statusGetStringFromInt (statusList : List String) (status : U32) : List Char :=
  (statusList.getD status.toNat unknownStatus).toList

/-- `kprintEx`. -/
def StdIo.printers (fuel : ℕ) (mem : PrintMem) : Printers Char where
  printChar c := [c]
  printStr str := str
  printInt x base := (StdIo.printInt fuel mem x base).trace.filterMap PrintEvent.printed
  printStatus := statusGetStringFromInt StdIo.statusList

/-- The system calls that print. -/
inductive PrintCall where
  | sysPrintChar (c : Char)
  | sysPrintStr (str : List Char)
deriving DecidableEq

/-- `printfEx` of the user programs. -/
def UserStdIo.printers (fuel : ℕ) (mem : PrintMem) : Printers PrintCall where
  printChar c := [.sysPrintChar c]
  printStr str := [.sysPrintStr str]
  printInt x base := ((UserStdIo.printInt fuel mem x base).trace.filterMap
    PrintEvent.printed).map .sysPrintChar
  printStatus x := [.sysPrintStr (statusGetStringFromInt UserStdIo.statusList x)]

/-! ## The pieces of a format string -/

/-- A character, or a conversion. `binOf` is `%b*`, which takes the number of bits as well. -/
inductive Piece where
  | lit (c : Char)
  | int
  | hex
  | bin
  | binOf
  | str
  | status
  | char

namespace Piece

/-- How a piece is written. -/
def spell : Piece → List Char
  | lit c => [c]
  | int => ['%', 'd']
  | hex => ['%', 'x']
  | bin => ['%', 'b']
  | binOf => ['%', 'b', '*']
  | str => ['%', 's']
  | status => ['%', 't']
  | char => ['%', 'c']

/-- The number of arguments that it takes. -/
def args : Piece → ℕ
  | lit _ => 0
  | binOf => 2
  | _ => 1

/-- `nbBits` behind it. -/
def bits (ap : VaList) (i : ℕ) (nbBits : ℤ) : Piece → ℤ
  | binOf => (ap.arg (i + 1)).toInt
  | _ => nbBits

/-- What is printed for it. -/
def print {ε : Type*} (P : Printers ε) (ap : VaList) (i : ℕ) (nbBits : ℤ) : Piece → List ε
  | lit c => P.printChar c
  | int => P.printInt (ap.arg i) 10
  | hex => P.printStr ['0', 'x'] ++ P.printInt (ap.arg i) 16
  | bin => P.printBin (ap.arg i) nbBits
  | binOf => P.printBin (ap.arg i) (ap.arg (i + 1)).toInt
  | str => P.printStr (ap.str (ap.arg i))
  | status => P.printStatus (ap.arg i)
  | char => P.printChar (toChar (ap.arg i))

/-- A piece ends where the rest of the format begins: the rest does not make a conversion of a
single `%`, or a width of a star. -/
def Ends (rest : List Char) : Piece → Prop
  | lit c => c = '%' → ∀ type ∈ rest.head?, checkType type = false
  | bin => rest.head? ≠ some '*'
  | _ => True

/-- The piece of a type other than `b`. -/
def ofType (type : Char) : Piece :=
  if type = 'd' then int else if type = 'x' then hex else if type = 's' then str
  else if type = 't' then status else char

end Piece

/-- The pieces of a format string. -/
def pieces : List Char → List Piece
  | [] => []
  | [c] => [.lit c]
  | c :: type :: format =>
    if c = '%' ∧ checkType type then
      if type = 'b' then
        match format with
        | '*' :: format => .binOf :: pieces format
        | format => .bin :: pieces format
      else .ofType type :: pieces format
    else .lit c :: pieces (type :: format)

/-- The pieces are written one behind the other, each of them ending where the next one begins. -/
def Separated : List Piece → Prop
  | [] => True
  | p :: ps => p.Ends (ps.flatMap Piece.spell) ∧ Separated ps

section

variable {ε : Type*} {P : Printers ε} {ap : VaList} {f g format : List Char} {ps : List Piece}
  {i : ℕ} {nbBits : ℤ} {p : Piece} {rest : List Char} {type : Char}

/-- What is printed for pieces. -/
def printPieces (P : Printers ε) (ap : VaList) : List Piece → ℕ → ℤ → List ε
  | [], _, _ => []
  | p :: ps, i, nbBits =>
    p.print P ap i nbBits ++ printPieces P ap ps (i + p.args) (p.bits ap i nbBits)

theorem pieces_lit {c : Char} (h : ¬(c = '%' ∧ checkType type)) :
    pieces (c :: type :: format) = .lit c :: pieces (type :: format) := by
  rw [pieces.eq_def]
  exact if_neg h

theorem pieces_ofType (htype : checkType type = true) (hb : type ≠ 'b') :
    pieces ('%' :: type :: format) = .ofType type :: pieces format := by
  rw [pieces.eq_def]
  simp only [htype, and_self, if_true, if_neg hb]

/-- The beginning of the format is read as the piece that ends there. -/
theorem pieces_spell (h : p.Ends rest) : pieces (p.spell ++ rest) = p :: pieces rest := by
  cases p with
  | lit c =>
    cases rest with
    | nil => rfl
    | cons type format =>
      refine pieces_lit ?_
      rintro ⟨hc, htype⟩
      rw [h hc type rfl] at htype
      cases htype
  | bin =>
    cases rest with
    | nil => rfl
    | cons c format =>
      have hc : c ≠ '*' := fun heq => h (congrArg some heq)
      simp [Piece.spell, pieces, checkType, hc]
  | binOf => simp [Piece.spell, pieces, checkType]
  | int => exact pieces_ofType rfl (by decide)
  | hex => exact pieces_ofType rfl (by decide)
  | str => exact pieces_ofType rfl (by decide)
  | status => exact pieces_ofType rfl (by decide)
  | char => exact pieces_ofType rfl (by decide)

theorem printEx_lit {c : Char} (h : c = '%' → checkType type = false) :
    printEx P ap (c :: type :: format) i nbBits =
      P.printChar c ++ printEx P ap (type :: format) i nbBits := by
  rw [printEx.eq_def]
  by_cases hc : c = '%'
  · simp only [if_pos hc, h hc, if_true]
  · simp only [if_neg hc]

theorem printEx_type (htype : checkType type = true) (hb : type ≠ 'b') :
    printEx P ap ('%' :: type :: format) i nbBits = (Piece.ofType type).print P ap i nbBits ++
      printEx P ap format (i + 1) nbBits := by
  rw [printEx.eq_def]
  have hp : type ≠ 'p' := by
    rintro rfl
    exact absurd htype (by decide)
  simp only [if_true, htype, Bool.true_eq_false, if_false, hp, or_false, Piece.ofType, hb]
  split_ifs <;> simp [Piece.print]

/-- It is printed as the piece is. -/
theorem printEx_spell (h : p.Ends rest) : printEx P ap (p.spell ++ rest) i nbBits =
    p.print P ap i nbBits ++ printEx P ap rest (i + p.args) (p.bits ap i nbBits) := by
  cases p with
  | lit c =>
    cases rest with
    | nil => simp [Piece.spell, Piece.print, printEx]
    | cons type format => exact printEx_lit fun hc => h hc type rfl
  | bin =>
    cases rest with
    | nil => simp [Piece.spell, Piece.print, printEx, checkType]
    | cons c format =>
      have hc : c ≠ '*' := fun heq => h (congrArg some heq)
      simp [Piece.spell, Piece.print, Piece.args, Piece.bits, printEx, checkType, hc]
  | binOf => simp [Piece.spell, Piece.print, Piece.args, Piece.bits, printEx, checkType]
  | int => exact printEx_type rfl (by decide)
  | hex => exact printEx_type rfl (by decide)
  | str => exact printEx_type rfl (by decide)
  | status => exact printEx_type rfl (by decide)
  | char => exact printEx_type rfl (by decide)

theorem pieces_flatMap (h : Separated ps) : pieces (ps.flatMap Piece.spell) = ps := by
  induction ps with
  | nil => rfl
  | cons p ps ih =>
    obtain ⟨hends, hrest⟩ := h
    rw [List.flatMap_cons, pieces_spell hends, ih hrest]

theorem printEx_flatMap (h : Separated ps) :
    printEx P ap (ps.flatMap Piece.spell) i nbBits = printPieces P ap ps i nbBits := by
  induction ps generalizing i nbBits with
  | nil => rfl
  | cons p ps ih =>
    obtain ⟨hends, hrest⟩ := h
    rw [List.flatMap_cons, printEx_spell hends, ih hrest]
    rfl

theorem spell_ofType (htype : checkType type = true) (hb : type ≠ 'b') :
    (Piece.ofType type).spell = ['%', type] := by
  simp only [checkType, decide_eq_true_eq, List.mem_cons, List.not_mem_nil, or_false] at htype
  rcases htype with rfl | rfl | rfl | rfl | rfl | rfl
  · rfl
  · rfl
  · rfl
  · rfl
  · exact absurd rfl hb
  · rfl

theorem ends_ofType (type : Char) (rest : List Char) : (Piece.ofType type).Ends rest := by
  rw [Piece.ofType]
  split_ifs <;> trivial

/-- The pieces spell the format, and end where the next one begins. -/
theorem pieces_spec (format : List Char) :
    Separated (pieces format) ∧ (pieces format).flatMap Piece.spell = format := by
  induction format using pieces.induct with
  | case1 => exact ⟨trivial, rfl⟩
  | case2 c => exact ⟨⟨by simp [Piece.Ends], trivial⟩, rfl⟩
  | case3 c format h ih =>
    obtain ⟨rfl, -⟩ := h
    have heq : pieces ('%' :: 'b' :: '*' :: format) = .binOf :: pieces format := by
      simp [pieces, checkType]
    rw [heq, List.flatMap_cons, ih.2]
    exact ⟨⟨trivial, ih.1⟩, rfl⟩
  | case4 c format hstar h ih =>
    obtain ⟨rfl, -⟩ := h
    have hends : Piece.bin.Ends format := by
      intro hhead
      obtain ⟨format', rfl⟩ := List.head?_eq_some_iff.mp hhead
      exact hstar format' rfl
    have heq : pieces ('%' :: 'b' :: format) = .bin :: pieces format := pieces_spell hends
    rw [heq, List.flatMap_cons, ih.2]
    exact ⟨⟨by rwa [ih.2], ih.1⟩, rfl⟩
  | case5 c type format h hb ih =>
    obtain ⟨rfl, htype⟩ := h
    rw [pieces_ofType htype hb, List.flatMap_cons, ih.2, spell_ofType htype hb]
    exact ⟨⟨ends_ofType type _, ih.1⟩, rfl⟩
  | case6 c type format h ih =>
    have hends : (Piece.lit c).Ends (type :: format) := by
      rintro rfl type' ⟨⟩
      simpa using h
    rw [pieces_lit h, List.flatMap_cons, ih.2]
    exact ⟨⟨by rwa [ih.2], ih.1⟩, rfl⟩

/-! ## Arguments, and formats one behind the other -/

/-- The number of arguments that pieces take. -/
def argsOf (ps : List Piece) : ℕ := (ps.map Piece.args).sum

/-- `nbBits` behind pieces. -/
def bitsOf (ap : VaList) : List Piece → ℕ → ℤ → ℤ
  | [], _, nbBits => nbBits
  | p :: ps, i, nbBits => bitsOf ap ps (i + p.args) (p.bits ap i nbBits)

/-- The arguments behind the first ones. -/
def VaList.drop (ap : VaList) (n : ℕ) : VaList := ⟨fun i => ap.arg (n + i), ap.str⟩

theorem print_congr {ap' : VaList} {i' : ℕ} (hstr : ap'.str = ap.str)
    (harg : ∀ k < p.args, ap'.arg (i' + k) = ap.arg (i + k)) :
    p.print P ap' i' nbBits = p.print P ap i nbBits ∧
      p.bits ap' i' nbBits = p.bits ap i nbBits := by
  cases p with
  | lit c => exact ⟨rfl, rfl⟩
  | binOf =>
    have h0 := harg 0 (by decide)
    have h1 := harg 1 (by decide)
    simp only [Nat.add_zero] at h0
    simp only [Piece.print, Piece.bits, h0, h1, and_self]
  | _ =>
    have h0 := harg 0 (by simp [Piece.args])
    simp only [Nat.add_zero] at h0
    simp only [Piece.print, Piece.bits, h0, hstr, and_self]

/-- Only the arguments that the pieces take are looked at. -/
theorem printPieces_congr {ap' : VaList} {i' : ℕ} (hstr : ap'.str = ap.str)
    (harg : ∀ k < argsOf ps, ap'.arg (i' + k) = ap.arg (i + k)) :
    printPieces P ap' ps i' nbBits = printPieces P ap ps i nbBits := by
  induction ps generalizing i i' nbBits with
  | nil => rfl
  | cons p ps ih =>
    have hsum : argsOf (p :: ps) = p.args + argsOf ps := rfl
    obtain ⟨hprint, hbits⟩ : p.print P ap' i' nbBits = p.print P ap i nbBits ∧
        p.bits ap' i' nbBits = p.bits ap i nbBits :=
      print_congr hstr fun k hk => harg k (by omega)
    have hrest : ∀ k < argsOf ps, ap'.arg (i' + p.args + k) = ap.arg (i + p.args + k) := by
      intro k hk
      rw [Nat.add_assoc, Nat.add_assoc]
      exact harg (p.args + k) (by omega)
    rw [printPieces, printPieces, hprint, hbits, ih hrest]

theorem printPieces_append (ps qs : List Piece) :
    printPieces P ap (ps ++ qs) i nbBits = printPieces P ap ps i nbBits ++
      printPieces P ap qs (i + argsOf ps) (bitsOf ap ps i nbBits) := by
  induction ps generalizing i nbBits with
  | nil => rfl
  | cons p ps ih =>
    have hsum : i + argsOf (p :: ps) = i + p.args + argsOf ps := (Nat.add_assoc _ _ _).symm
    rw [List.cons_append, printPieces, printPieces, ih, hsum, List.append_assoc, bitsOf]

theorem Piece.Ends.append (h : p.Ends f) (hg : f = [] → p.Ends g) : p.Ends (f ++ g) := by
  cases f with
  | nil => exact hg rfl
  | cons c f => cases p <;> exact h

theorem Separated.append {qs : List Piece} (h : Separated ps) (hqs : Separated qs)
    (hlast : ∀ p ∈ ps.getLast?, p.Ends (qs.flatMap Piece.spell)) : Separated (ps ++ qs) := by
  induction ps with
  | nil => exact hqs
  | cons p ps ih =>
    obtain ⟨hends, hrest⟩ := h
    have hlast' : ∀ q ∈ ps.getLast?, q.Ends (qs.flatMap Piece.spell) := by
      intro q hq
      exact hlast q (by rw [List.getLast?_cons, Option.mem_def.mp hq]; rfl)
    refine ⟨?_, ih hrest hlast'⟩
    rw [List.append_eq, List.flatMap_append]
    refine hends.append fun hnil => ?_
    have hps : ps = [] := by
      cases ps with
      | nil => rfl
      | cons q ps => cases q <;> simp [Piece.spell] at hnil
    subst hps
    exact hlast p rfl

/-- Two formats, of which the first one ends where the second one begins. -/
theorem printEx_append (h : ∀ p ∈ (pieces f).getLast?, p.Ends g) :
    printEx P ap (f ++ g) i nbBits = printEx P ap f i nbBits ++
      printEx P ap g (i + argsOf (pieces f)) (bitsOf ap (pieces f) i nbBits) := by
  obtain ⟨hf, hfspell⟩ := pieces_spec f
  obtain ⟨hg, hgspell⟩ := pieces_spec g
  have hsep : Separated (pieces f ++ pieces g) := hf.append hg (by rwa [hgspell])
  have hall : f ++ g = (pieces f ++ pieces g).flatMap Piece.spell := by
    rw [List.flatMap_append, hfspell, hgspell]
  have hfirst : printEx P ap f i nbBits = printPieces P ap (pieces f) i nbBits := by
    rw [← printEx_flatMap hf, hfspell]
  have hsecond (j : ℕ) (n : ℤ) : printEx P ap g j n = printPieces P ap (pieces g) j n := by
    rw [← printEx_flatMap hg, hgspell]
  rw [hall, printEx_flatMap hsep, printPieces_append, hfirst, hsecond]

/-- A format string is read in exactly one way, and printed piece by piece. No argument is looked
at behind those that the pieces take. -/
theorem format_reading {ε : Type*} (format : List Char) :
    ∃ ps, Separated ps ∧ ps.flatMap Piece.spell = format ∧
      (∀ ps', Separated ps' → ps'.flatMap Piece.spell = format → ps' = ps) ∧
      ∀ (P : Printers ε) (ap : VaList) (i : ℕ) (nbBits : ℤ),
        printEx P ap format i nbBits = printPieces P ap ps i nbBits ∧
        ∀ ap' : VaList, ap'.str = ap.str → (∀ k < argsOf ps, ap'.arg (i + k) = ap.arg (i + k)) →
          printEx P ap' format i nbBits = printEx P ap format i nbBits := by
  obtain ⟨hsep, hspell⟩ := pieces_spec format
  have hprint (P : Printers ε) (ap : VaList) (i : ℕ) (nbBits : ℤ) :
      printEx P ap format i nbBits = printPieces P ap (pieces format) i nbBits := by
    rw [← printEx_flatMap hsep, hspell]
  refine ⟨pieces format, hsep, hspell, fun ps' hsep' hspell' => ?_,
    fun P ap i nbBits => ⟨hprint P ap i nbBits, fun ap' hstr harg => ?_⟩⟩
  · rw [← pieces_flatMap hsep', hspell']
  · rw [hprint, hprint]
    exact printPieces_congr hstr harg

/-- One call with two formats prints what two calls print, unless the first format leaves
another number of bits. -/
theorem printFormat_append (h : ∀ p ∈ (pieces f).getLast?, p.Ends g)
    (hbits : bitsOf ap (pieces f) 0 8 = 8) :
    printFormat P ap (f ++ g) =
      printFormat P ap f ++ printFormat P (ap.drop (argsOf (pieces f))) g := by
  obtain ⟨hg, hgspell⟩ := pieces_spec g
  have hdrop : printEx P ap g (argsOf (pieces f)) 8 =
      printEx P (ap.drop (argsOf (pieces f))) g 0 8 := by
    rw [← hgspell, printEx_flatMap hg, printEx_flatMap hg]
    have hstr : (ap.drop (argsOf (pieces f))).str = ap.str := rfl
    refine (printPieces_congr hstr fun k _ => ?_).symm
    rw [Nat.zero_add]
    rfl
  rw [printFormat, printEx_append h, Nat.zero_add, hbits, hdrop]
  rfl

end

/-- A letter and a number, and a second number behind them. -/
theorem printFormat_append_two :
    printFormat (StdIo.printers 33 blankMem) ⟨fun i => BitVec.ofNat 32 i, fun _ => []⟩
        (['a', '%', 'd'] ++ ['%', 'x']) =
      printFormat (StdIo.printers 33 blankMem) ⟨fun i => BitVec.ofNat 32 i, fun _ => []⟩
          ['a', '%', 'd'] ++
        printFormat (StdIo.printers 33 blankMem)
          (VaList.drop ⟨fun i => BitVec.ofNat 32 i, fun _ => []⟩ 1) ['%', 'x'] := by
  have hends : ∀ p ∈ (pieces ['a', '%', 'd']).getLast?, p.Ends ['%', 'x'] := by
    rintro p ⟨⟩
    trivial
  exact printFormat_append hends rfl

end LtMicros
