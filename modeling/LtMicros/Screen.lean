import LtMicros.Kernel
import LtMicros.Lib.Run
import LtMicros.Lib.Traced

/-!
# The text screen

`ScreenDriver` with the bytes of memory. A character has two bytes, and the text buffer has 25 lines
of 80 characters. `ScrollUp` goes one byte too far, and takes a place behind the buffer for the last
line, so that what is behind the buffer comes into that line.
-/

namespace LtMicros

open Lib

namespace ScreenDriver

/-- `SCREEN_PTR`, `SCREEN_END_PTR`, `LINES`, `COLUMNS`, `LF` and `CR`. -/
def screenPtr : ℕ := 0xB8000
def screenEndPtr : ℕ := 0xB8FA0
def lines : ℕ := 25
def columns : ℕ := 80
def lf : U8 := 10
def cr : U8 := 13

/-- The bytes of memory. -/
abbrev ScreenMem := ℕ → U8

/-- `Line`, `Column` and `Color`, and the memory. -/
structure Screen where
  line : ℕ
  column : ℕ
  color : U8
  mem : ScreenMem

/-- Accesses to memory, and the calls of `ScrollUp` with the memory that they find. -/
inductive ScreenEvent where
  | read (address : ℕ)
  | write (address : ℕ)
  | scroll (mem : ScreenMem)

/-- `*address = value`. -/
def write (mem : ScreenMem) (address : ℕ) (value : U8) : Traced ScreenEvent ScreenMem := do
  Traced.note (.write address)
  return Function.update mem address value

/-- `*address`. -/
def read (mem : ScreenMem) (address : ℕ) : Traced ScreenEvent U8 := do
  Traced.note (.read address)
  return mem address

/-- One turn of the loop of `ScrollUp`. -/
def scrollTurn (state : ℕ × ScreenMem) : Traced ScreenEvent ((ℕ × ScreenMem) ⊕ ScreenMem) :=
  let (ptr, mem) := state
  if ptr ≤ screenEndPtr then do
    let lastLinePtr := screenPtr + (1 + lines * columns) * 2
    let mem ←
      if ptr < lastLinePtr then do
        let value ← read mem (ptr + columns * 2)
        write mem ptr value
      else write mem ptr 0
    return .inl (ptr + 1, mem)
  else return .inr mem

/-- `ScreenDriver::ScrollUp`. -/
def scrollUp (fuel : ℕ) (mem : ScreenMem) : Traced ScreenEvent ScreenMem :=
  Traced.loop scrollTurn fuel (screenPtr, mem)

/-- The first test of `PrintChar` for the end of the line, and the one behind the character. -/
def wrap (s : Screen) : Screen :=
  if s.column > columns - 1 then { s with column := 0, line := s.line + 1 } else s

/-- The tests of `PrintChar` for the end of the screen. -/
def scroll (fuel : ℕ) (s : Screen) : Traced ScreenEvent Screen :=
  if s.line > lines - 1 then do
    Traced.note (.scroll s.mem)
    let mem ← scrollUp fuel s.mem
    return { s with mem, line := s.line - 1 }
  else return s

/-- The branch of `PrintChar` for a character that is shown. -/
def printShown (fuel : ℕ) (s : Screen) (c : U8) : Traced ScreenEvent Screen := do
  let s ← scroll fuel (wrap s)
  let ptr := screenPtr + (s.column + s.line * columns) * 2
  let mem ← write s.mem ptr c
  let mem ← write mem (ptr + 1) s.color
  return { s with mem, column := s.column + 1 }

/-- The branches of `PrintChar`. -/
def printBranch (fuel : ℕ) (s : Screen) (c : U8) : Traced ScreenEvent Screen :=
  if c = lf then return { s with line := s.line + 1, column := 0 }
  else if c = cr then return { s with column := 0 }
  else printShown fuel s c

/-- `ScreenDriver::PrintChar`. -/
def printChar (fuel : ℕ) (s : Screen) (c : U8) : Traced ScreenEvent Screen := do
  let s ← printBranch fuel s c
  scroll fuel (wrap s)

/-- The loop of `Clear`, which leaves the attributes of the characters as they are. -/
def clearMem (mem : ScreenMem) : ScreenMem :=
  (List.range (lines * columns)).foldl
    (fun mem i => Function.update mem (screenPtr + 2 * i) 32) mem

/-- `ScreenDriver::Clear`. -/
def clear (s : Screen) : Screen := ⟨0, 0, s.color, clearMem s.mem⟩

/-! ## Scrolling -/

/-- The text buffer. -/
def InBuffer (address : ℕ) : Prop :=
  screenPtr ≤ address ∧ address < screenPtr + lines * columns * 2

/-- The memory with the bytes from an address on moved up by one line. -/
def movedFrom (ptr : ℕ) (mem : ScreenMem) : ScreenMem := fun a =>
  if ptr ≤ a ∧ a ≤ screenEndPtr then mem (a + columns * 2) else mem a

variable {fuel : ℕ} {mem : ScreenMem} {s s' : Screen} {c : U8} {a ptr : ℕ}

theorem movedFrom_end (mem : ScreenMem) : movedFrom (screenEndPtr + 1) mem = mem := by
  funext a
  exact if_neg (by omega)

/-- The byte at the address itself is moved first. -/
theorem movedFrom_succ (h : ptr ≤ screenEndPtr) :
    movedFrom (ptr + 1) (Function.update mem ptr (mem (ptr + columns * 2))) =
      movedFrom ptr mem := by
  funext a
  have hcolumns : 0 < columns * 2 := by decide
  rcases Nat.lt_trichotomy a ptr with hlt | rfl | hgt
  · rw [movedFrom, movedFrom, if_neg (by omega), if_neg (by omega), Function.update_of_ne hlt.ne]
  · rw [movedFrom, movedFrom, if_neg (by omega), if_pos ⟨Nat.le_refl a, h⟩, Function.update_self]
  · -- the source of a later move is behind the byte that has been written
    rw [movedFrom, movedFrom, Function.update_of_ne (by omega), Function.update_of_ne hgt.ne']
    exact if_congr (by omega) rfl rfl

theorem scrollTurn_eq (h : ptr ≤ screenEndPtr) :
    scrollTurn (ptr, mem) = ⟨[.read (ptr + columns * 2), .write ptr],
      .ret (.inl (ptr + 1,
        Function.update mem ptr (mem (ptr + columns * 2))))⟩ := by
  -- the place taken for the last line is behind the last address
  have hlast : ptr < screenPtr + (1 + lines * columns) * 2 :=
    h.trans_lt (by decide)
  rw [scrollTurn]
  dsimp only
  rw [if_pos h, if_pos hlast]
  rfl

/-- The loop of `ScrollUp` from any address on. -/
theorem scrollLoop_eq {n : ℕ} (hptr : ptr + n = screenEndPtr + 1) (hfuel : n < fuel) :
    ∃ t, Traced.loop scrollTurn fuel (ptr, mem) = ⟨t, .ret (movedFrom ptr mem)⟩ ∧
      ∀ a, ptr ≤ a → a ≤ screenEndPtr → .write a ∈ t := by
  induction n generalizing ptr mem fuel with
  | zero =>
    obtain ⟨fuel, rfl⟩ : ∃ k, fuel = k + 1 := ⟨fuel - 1, by omega⟩
    obtain rfl : ptr = screenEndPtr + 1 := hptr
    rw [movedFrom_end]
    refine ⟨[], Traced.loop_leave rfl fuel, fun a hle hend => ?_⟩
    omega
  | succ n ih =>
    obtain ⟨fuel, rfl⟩ : ∃ k, fuel = k + 1 := ⟨fuel - 1, by omega⟩
    have hle : ptr ≤ screenEndPtr := by omega
    have hptr' : ptr + 1 + n = screenEndPtr + 1 := by omega
    obtain ⟨t, hloop, hwrites⟩ := ih hptr' (Nat.lt_of_succ_lt_succ hfuel)
    rw [movedFrom_succ hle] at hloop
    refine ⟨_, Traced.loop_eq (scrollTurn_eq hle) hloop, fun a ha hend => ?_⟩
    rcases Nat.eq_or_lt_of_le ha with rfl | hlt
    · exact List.mem_append_left t (List.mem_cons_of_mem _ List.mem_cons_self)
    · exact List.mem_append_right _ (hwrites a hlt hend)

/-- `ScrollUp` moves every byte of the buffer up by one line, and one byte behind it too. -/
theorem scrollUp_eq (mem : ScreenMem) (hfuel : 4001 < fuel) :
    ∃ t, scrollUp fuel mem = ⟨t, .ret (movedFrom screenPtr mem)⟩ ∧ .write screenEndPtr ∈ t := by
  have hptr : screenPtr + 4001 = screenEndPtr + 1 := rfl
  obtain ⟨t, hloop, hwrites⟩ := scrollLoop_eq hptr hfuel
  exact ⟨t, hloop, hwrites screenEndPtr (by decide) (Nat.le_refl _)⟩

/-- The `j`-th byte of a line. -/
def lineByte (mem : ScreenMem) (line j : ℕ) : U8 := mem (screenPtr + line * (columns * 2) + j)

/-- The lines move up, and what is behind the buffer comes into the last one. -/
theorem lineByte_movedFrom {line j : ℕ} (hline : line < lines) (hj : j < columns * 2) :
    lineByte (movedFrom screenPtr mem) line j = lineByte mem (line + 1) j := by
  simp only [lines, columns] at hline hj
  have hin : screenPtr ≤ screenPtr + line * (columns * 2) + j ∧
      screenPtr + line * (columns * 2) + j ≤ screenEndPtr := by
    simp only [screenPtr, screenEndPtr, columns]
    omega
  rw [lineByte, movedFrom, if_pos hin, lineByte, Nat.succ_mul]
  congr 1
  omega

/-! ## Printing a character -/

/-- The cursor is on the screen. -/
structure CursorIn (s : Screen) : Prop where
  line : s.line < lines
  column : s.column < columns

/-- The character makes the screen scroll: it ends the last line. -/
def Scrolls (s : Screen) (c : U8) : Prop :=
  s.line = lines - 1 ∧ (c = lf ∨ c ≠ cr ∧ s.column = columns - 1)

theorem scrolls_lf : Scrolls s lf ↔ s.line = lines - 1 :=
  and_iff_left (.inl rfl)

theorem not_scrolls_cr : ¬Scrolls s cr := by
  rintro ⟨-, hlf | hcr⟩
  · exact absurd hlf (by decide)
  · exact hcr.1 rfl

theorem scrolls_shown (hlf : c ≠ lf) (hcr : c ≠ cr) :
    Scrolls s c ↔ s.line = lines - 1 ∧ s.column = columns - 1 := by
  rw [Scrolls, or_iff_right hlf, and_iff_right hcr]

theorem wrap_eq (h : s.column < columns) : wrap s = s :=
  if_neg (by omega)

theorem scroll_eq (h : s.line < lines) : scroll fuel s = ⟨[], .ret s⟩ := by
  rw [scroll, if_neg (by omega)]
  rfl

/-- Behind the last line the screen is scrolled. -/
theorem scroll_last (h : s.line = lines) (hfuel : 4001 < fuel) :
    ∃ t, scroll fuel s = ⟨.scroll s.mem :: t,
        .ret { s with mem := movedFrom screenPtr s.mem, line := lines - 1 }⟩ ∧
      .write screenEndPtr ∈ t := by
  obtain ⟨t, hscroll, hwrite⟩ := scrollUp_eq s.mem hfuel
  have hlines : lines - 1 < lines := by decide
  refine ⟨t, ?_, hwrite⟩
  rw [scroll, h, if_pos hlines, hscroll]
  refine (Traced.bind_eq rfl (Traced.bind_eq rfl rfl)).trans ?_
  rw [List.append_nil]
  rfl

theorem printShown_eq (fuel : ℕ) (h : CursorIn s) (c : U8) :
    ∃ p mem', InBuffer p ∧ InBuffer (p + 1) ∧ printShown fuel s c =
      ⟨[.write p, .write (p + 1)], .ret { s with mem := mem', column := s.column + 1 }⟩ := by
  obtain ⟨hline, hcolumn⟩ := h
  rw [printShown, wrap_eq hcolumn, scroll_eq hline]
  refine ⟨_, _, ?_, ?_, rfl⟩
  · simp only [InBuffer, lines, columns] at hline hcolumn ⊢
    omega
  · simp only [InBuffer, lines, columns] at hline hcolumn ⊢
    omega

/-- What the branches leave to the tests behind them. -/
theorem printBranch_eq (fuel : ℕ) (h : CursorIn s) (c : U8) : ∃ t s₁,
    printBranch fuel s c = ⟨t, .ret s₁⟩ ∧
    (∀ e ∈ t, ∃ p, e = .write p ∧ InBuffer p) ∧ (wrap s₁).column < columns ∧
    (Scrolls s c ∧ (wrap s₁).line = lines ∨ ¬Scrolls s c ∧ (wrap s₁).line < lines) := by
  have hline := h.line
  have hcolumn := h.column
  have hpos : 0 < columns := by decide
  rw [printBranch]
  by_cases hlf : c = lf
  · subst hlf
    refine ⟨[], { s with line := s.line + 1, column := 0 }, if_pos rfl,
      fun e he => absurd he List.not_mem_nil, ?_, ?_⟩
    · rw [wrap_eq hpos]
      exact hpos
    · rw [wrap_eq hpos, scrolls_lf]
      dsimp only
      omega
  rw [if_neg hlf]
  by_cases hcr : c = cr
  · subst hcr
    refine ⟨[], { s with column := 0 }, if_pos rfl, fun e he => absurd he List.not_mem_nil, ?_,
      .inr ⟨not_scrolls_cr, ?_⟩⟩
    · rw [wrap_eq hpos]
      exact hpos
    · rw [wrap_eq hpos]
      exact hline
  rw [if_neg hcr, scrolls_shown hlf hcr]
  obtain ⟨p, mem', hp, hp', heq⟩ := printShown_eq fuel h c
  refine ⟨_, _, heq, fun e he => ?_, ?_⟩
  · have hcases : e = .write p ∨ e = .write (p + 1) := by simpa using he
    rcases hcases with rfl | rfl
    · exact ⟨p, rfl, hp⟩
    · exact ⟨p + 1, rfl, hp'⟩
  -- the column behind the last one is the first one of the next line
  by_cases hlast : s.column = columns - 1
  · rw [wrap, if_pos (by dsimp only; omega)]
    refine ⟨hpos, ?_⟩
    dsimp only
    omega
  · rw [wrap_eq (by dsimp only; omega)]
    dsimp only
    omega

/-- What a call does: the cursor stays on the screen, and what is written without scrolling is in
the buffer. -/
theorem printChar_eq (h : CursorIn s) (c : U8) (hfuel : 4001 < fuel) :
    ∃ t s', printChar fuel s c = ⟨t, .ret s'⟩ ∧ CursorIn s' ∧
      (¬Scrolls s c → ∀ e ∈ t, ∃ p, e = .write p ∧ InBuffer p) ∧
      (Scrolls s c → .write screenEndPtr ∈ t) := by
  obtain ⟨t, s₁, hbranch, hwrites, hcolumn, hcases⟩ := printBranch_eq fuel h c
  rcases hcases with ⟨hscrolls, hline⟩ | ⟨hscrolls, hline⟩
  · obtain ⟨t', hscroll, hwrite⟩ := scroll_last (s := wrap s₁) hline hfuel
    have hlines : lines - 1 < lines := by decide
    refine ⟨_, _, Traced.bind_eq hbranch hscroll, ⟨hlines, hcolumn⟩, (absurd hscrolls ·),
      fun _ => ?_⟩
    exact List.mem_append_right t (List.mem_cons_of_mem _ hwrite)
  · have heq : printChar fuel s c = ⟨t, .ret (wrap s₁)⟩ :=
      (Traced.bind_eq hbranch (scroll_eq (s := wrap s₁) hline)).trans
        (congrArg (Traced.mk · _) (List.append_nil t))
    exact ⟨t, wrap s₁, heq, ⟨hline, hcolumn⟩, fun _ => hwrites, (absurd · hscrolls)⟩

/-! ## Sequences of characters -/

/-- What `ScrollUp` should do: each line becomes the one below it, and the last line blank. -/
def ScrollsByOne (mem : ScreenMem) (x : Traced ScreenEvent ScreenMem) : Prop :=
  ∃ t mem', x = ⟨t, .ret mem'⟩ ∧ (∀ a, .write a ∈ t → InBuffer a) ∧
    (∀ a, .read a ∈ t → InBuffer a) ∧ ∀ j < columns * 2,
      (∀ i < lines - 1, lineByte mem' i j = lineByte mem (i + 1) j) ∧
        lineByte mem' (lines - 1) j = 0

/-- The call writes in the text buffer, leaves the cursor on the screen, and scrolls by one line. -/
def StaysOnScreen (fuel : ℕ) (s : Screen) (c : U8) : Prop :=
  ∃ t s', printChar fuel s c = ⟨t, .ret s'⟩ ∧ (∀ a, .write a ∈ t → InBuffer a) ∧ CursorIn s' ∧
    ∀ mem, .scroll mem ∈ t → ScrollsByOne mem (scrollUp fuel mem)

/-- So do the calls for some characters, one after the other. -/
def StaysThroughout (fuel : ℕ) (s : Screen) : List U8 → Prop
  | [] => True
  | c :: chars => StaysOnScreen fuel s c ∧
    ∀ s', (printChar fuel s c).outcome = .ret s' → StaysThroughout fuel s' chars

/-- None of the characters makes the screen scroll. -/
def NeverScrolls (fuel : ℕ) (s : Screen) : List U8 → Prop
  | [] => True
  | c :: chars => ¬Scrolls s c ∧
    ∀ s', (printChar fuel s c).outcome = .ret s' → NeverScrolls fuel s' chars

/-- A character is printed, the screen is cleared, or its bytes and the color are changed, as
`SetColor` and `SetBackground` do. -/
inductive ScreenOp where
  | printChar (c : U8)
  | clear
  | other (mem : ScreenMem) (color : U8)

def ScreenStep (fuel : ℕ) (s : Screen) (op : ScreenOp) (s' : Screen) : Prop :=
  match op with
  | .printChar c => (printChar fuel s c).outcome = .ret s'
  | .clear => s' = clear s
  | .other mem color => s' = { s with mem, color }

/-- `Line`, `Column` and `Color` as they are initialised. -/
def boot (mem : ScreenMem) : Screen := ⟨1, 1, 7, mem⟩

theorem cursorIn_step (hfuel : 4001 < fuel) {op : ScreenOp} (h : CursorIn s)
    (hstep : ScreenStep fuel s op s') : CursorIn s' := by
  cases op with
  | printChar c =>
    obtain ⟨t, s₁, heq, hcursor, -⟩ := printChar_eq h c hfuel
    have hret : (printChar fuel s c).outcome = .ret s' := hstep
    rw [heq] at hret
    cases hret
    exact hcursor
  | clear =>
    obtain rfl : s' = clear s := hstep
    have hlines : 0 < lines := by decide
    have hcolumns : 0 < columns := by decide
    exact ⟨hlines, hcolumns⟩
  | other mem color =>
    obtain rfl : s' = { s with mem, color } := hstep
    exact ⟨h.line, h.column⟩

/-- Whatever is printed, the cursor stays on the screen. -/
theorem cursorIn_run (hfuel : 4001 < fuel) {ops : List ScreenOp}
    (hrun : Run (ScreenStep fuel) (boot mem) ops s) : CursorIn s := by
  have hlines : 1 < lines := by decide
  have hcolumns : 1 < columns := by decide
  exact hrun.invariant (fun _ _ _ => cursorIn_step hfuel) ⟨hlines, hcolumns⟩

theorem staysOnScreen_iff (h : CursorIn s) (hfuel : 4001 < fuel) :
    StaysOnScreen fuel s c ↔ ¬Scrolls s c := by
  obtain ⟨t, s₁, heq, hcursor, hstays, hscrolls⟩ := printChar_eq h c hfuel
  constructor
  · rintro ⟨t', s', heq', hwrites, -⟩ hs
    cases heq.symm.trans heq'
    -- the byte behind the buffer is written
    have hend : InBuffer screenEndPtr := hwrites _ (hscrolls hs)
    exact absurd hend.2 (by decide)
  · intro hs
    refine ⟨t, s₁, heq, fun a ha => ?_, hcursor, fun mem hmem => ?_⟩
    · obtain ⟨p, hp, hin⟩ := hstays hs _ ha
      cases hp
      exact hin
    · -- the events are writes, so that nothing is scrolled
      obtain ⟨p, hp, -⟩ := hstays hs _ hmem
      cases hp

theorem staysThroughout_iff (hfuel : 4001 < fuel) {chars : List U8} (h : CursorIn s) :
    StaysThroughout fuel s chars ↔ NeverScrolls fuel s chars := by
  induction chars generalizing s with
  | nil => exact Iff.rfl
  | cons c chars ih =>
    refine and_congr (staysOnScreen_iff h hfuel) (forall_congr' fun s' => ?_)
    refine imp_congr_right fun hret => ih ?_
    have hstep : ScreenStep fuel s (.printChar c) s' := hret
    exact cursorIn_step hfuel h hstep

/-- From every reachable cursor position, characters are printed as they should if and only if none
of them makes the screen scroll. -/
theorem printChars_stay_iff {ops : List ScreenOp} (hrun : Run (ScreenStep fuel) (boot mem) ops s)
    (hfuel : 4001 < fuel) (chars : List U8) :
    StaysThroughout fuel s chars ↔ NeverScrolls fuel s chars :=
  staysThroughout_iff hfuel (cursorIn_run hfuel hrun)

/-- Before the last line a line feed only moves the cursor. -/
theorem printChar_lf (fuel : ℕ) (h : s.line < lines - 1) :
    (printChar fuel s lf).outcome = .ret { s with line := s.line + 1, column := 0 } := by
  have hpos : 0 < columns := by decide
  have hline : s.line + 1 < lines := by omega
  have hbranch :
      printBranch fuel s lf = ⟨[], .ret { s with line := s.line + 1, column := 0 }⟩ := rfl
  rw [printChar, hbranch, Traced.bind_of_ret rfl, wrap_eq hpos, scroll_eq hline]

/-- Line feeds behind `Clear` lead to the last line. -/
theorem clear_lineFeeds {n : ℕ} (hn : n < lines) :
    Run (ScreenStep fuel) s (.clear :: List.replicate n (.printChar lf))
      ⟨n, 0, s.color, clearMem s.mem⟩ := by
  induction n with
  | zero =>
    have hclear : ScreenStep fuel s .clear (clear s) := rfl
    exact .single hclear
  | succ n ih =>
    have hline : n < lines - 1 := by omega
    have hlf : ScreenStep fuel ⟨n, 0, s.color, clearMem s.mem⟩ (.printChar lf)
        ⟨n + 1, 0, s.color, clearMem s.mem⟩ := by
      have hret := printChar_lf (s := ⟨n, 0, s.color, clearMem s.mem⟩) fuel hline
      dsimp only at hret
      rw [ScreenStep]
      exact hret
    rw [List.replicate_succ', ← List.cons_append]
    exact (ih (by omega)).snoc hlf

/-- A screen that was full of the letter A and has been cleared. The cursor is in the last line. -/
def lastLine : Screen := ⟨24, 0, 7, clearMem fun _ => 65⟩

theorem lastLine_run : Run (ScreenStep 4002) (boot fun _ => 65)
    (.clear :: List.replicate 24 (.printChar lf)) lastLine := by
  have hlines : 24 < lines := by decide
  exact clear_lineFeeds hlines

/-- A line feed in the last line scrolls, and writes behind the buffer. -/
theorem lastLine_not_stays :
    Run (ScreenStep 4002) (boot fun _ => 65) (.clear :: List.replicate 24 (.printChar lf))
        lastLine ∧
      ¬StaysThroughout 4002 lastLine [lf] ∧
      ¬ScrollsByOne lastLine.mem (scrollUp 4002 lastLine.mem) := by
  have hfuel : 4001 < 4002 := Nat.lt_succ_self 4001
  refine ⟨lastLine_run, fun hstays => ?_, ?_⟩
  · have hnever := (staysThroughout_iff hfuel (cursorIn_run hfuel lastLine_run)).mp hstays
    exact hnever.1 (scrolls_lf.mpr rfl)
  · rintro ⟨t, mem', heq, hwrites, -⟩
    obtain ⟨t', heq', hend⟩ := scrollUp_eq lastLine.mem hfuel
    have htrace : t' = t := congrArg Traced.trace (heq'.symm.trans heq)
    have hin : InBuffer screenEndPtr := hwrites _ (htrace ▸ hend)
    exact absurd hin.2 (by decide)

/-- Characters, a line feed and a carriage return in the two lines before the last one. -/
theorem twoLines_stay :
    Run (ScreenStep 4002) (boot fun _ => 65) (.clear :: List.replicate 22 (.printChar lf))
        ⟨22, 0, 7, clearMem fun _ => 65⟩ ∧
      StaysThroughout 4002 ⟨22, 0, 7, clearMem fun _ => 65⟩ [65, lf, 66, cr, 67] := by
  have hlines : 22 < lines := by decide
  have hrun : Run (ScreenStep 4002) (boot fun _ => 65) _ _ := clear_lineFeeds hlines
  refine ⟨hrun, (printChars_stay_iff hrun (Nat.lt_succ_self 4001) _).mpr ?_⟩
  generalize clearMem (fun _ => 65) = mem
  have habove {s : Screen} {c : U8} (h : s.line ≠ lines - 1) : ¬Scrolls s c :=
    fun hscrolls => h hscrolls.1
  refine ⟨habove (by decide), fun s₁ h₁ => ?_⟩
  obtain rfl := Outcome.ret.inj h₁
  refine ⟨habove (by decide), fun s₂ h₂ => ?_⟩
  obtain rfl := Outcome.ret.inj h₂
  refine ⟨habove (by decide), fun s₃ h₃ => ?_⟩
  obtain rfl := Outcome.ret.inj h₃
  refine ⟨habove (by decide), fun s₄ h₄ => ?_⟩
  obtain rfl := Outcome.ret.inj h₄
  exact ⟨habove (by decide), fun _ _ => trivial⟩

end ScreenDriver

end LtMicros
