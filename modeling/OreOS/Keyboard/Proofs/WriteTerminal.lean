import OreOS.Console.Proofs.Terminal
import OreOS.Keyboard.Proofs.Steps

/-!
# What `write_terminal` prints

`write_terminal` prints one byte more than it is asked to and takes it back with `backspacing`.
Nothing is assumed of the screen but that the cursor is on it: the video page need not agree with
`scr_buf`. Whether the byte is taken back depends on where the cursor is when it is printed, which
is a matter of cursor arithmetic alone.
-/

namespace OreOS
open Machine

/-! ## The cursor -/

/-- Where `putc` leaves the cursor, as column and row. -/
def advance (p : Nat × Nat) (b : UInt8) : Nat × Nat :=
  if b = 10 ∨ b = 13 ∨ p.1 + 1 = numCols then (0, if p.2 = numRows - 1 then p.2 else p.2 + 1)
  else (p.1 + 1, p.2)

/-- Where `backspacing` leaves it. -/
def retreat (p : Nat × Nat) : Nat × Nat :=
  if p.1 ≠ 0 then (p.1 - 1, p.2) else if p.2 ≠ 0 then (79, p.2 - 1) else p

/-- Where the next character goes. -/
def Console.cursor (c : Console) : Nat × Nat := (c.screenX, c.screenY)

/-- The position is on the screen. -/
def OnScreen (p : Nat × Nat) : Prop := p.1 < numCols ∧ p.2 < numRows

theorem OnScreen.advance {p : Nat × Nat} (h : OnScreen p) (b : UInt8) : OnScreen (advance p b) := by
  obtain ⟨hx, hy⟩ := h
  unfold OreOS.advance
  split
  · refine ⟨by simp [numCols], ?_⟩
    simp only
    split <;> omega
  next hstay =>
    refine ⟨?_, hy⟩
    simp only [not_or] at hstay ⊢
    omega

/-- A character that stays in its row. -/
theorem advance_char {x y : Nat} {b : UInt8} (hb : ¬(b = 10 ∨ b = 13)) (hx : x + 1 < numCols) :
    advance (x, y) b = (x + 1, y) := by
  apply if_neg
  simp only [not_or] at hb ⊢
  exact ⟨hb.1, hb.2, Nat.ne_of_lt hx⟩

/-- A new line, or a character in the last column. -/
theorem advance_wrap {x y : Nat} {b : UInt8} (h : b = 10 ∨ b = 13 ∨ x + 1 = numCols) :
    advance (x, y) b = (0, if y = numRows - 1 then y else y + 1) := if_pos h

section cursor
variable {bg page : Nat} {c c' : Console}

theorem withCells_cursor {g : Cells → Cells} (h : c.withCells bg page g = some c') :
    c'.cursor = c.cursor := by
  simp only [Console.withCells, Option.bind_eq_bind, Option.bind_eq_some_iff, Option.pure_def,
    Option.some.injEq] at h
  obtain ⟨buf, -, scrBuf, -, rfl⟩ := h
  rfl

theorem withCells_isSome (hbg : bg < 3) (page : Nat) (g : Cells → Cells) (c : Console) :
    ∃ c', c.withCells bg page g = some c' := by
  obtain ⟨c', hc', -⟩ := withCells_spec page (Vector.getElem?_eq_getElem hbg) g
  exact ⟨c', hc'⟩

theorem nextLine_cursor (hbg : bg < 3) (page : Nat) (c : Console) :
    ∃ c', c.nextLine bg page = some c' ∧
      c'.cursor = (0, if c.screenY = numRows - 1 then c.screenY else c.screenY + 1) := by
  unfold Console.nextLine
  by_cases hlast : c.screenY = numRows - 1
  · obtain ⟨d, hd⟩ := withCells_isSome hbg page Cells.shiftDown c
    rw [if_pos hlast, if_pos hlast, hlast, Console.shiftDown, hd]
    exact ⟨_, rfl, rfl⟩
  · rw [if_neg hlast, if_neg hlast]
    exact ⟨_, rfl, rfl⟩

theorem showChar_cursor (hbg : bg < 3) (page : Nat) (b : UInt8) (h : OnScreen c.cursor) :
    ∃ c', c.showChar bg page b = some c' ∧
      c'.cursor = if c.screenX + 1 = numCols then
        (0, if c.screenY = numRows - 1 then c.screenY else c.screenY + 1)
      else (c.screenX + 1, c.screenY) := by
  obtain ⟨hx, hy⟩ := h
  change c.screenX < 80 at hx
  change c.screenY < 25 at hy
  have hcell : ¬numRows * numCols ≤ numCols * c.screenY + c.screenX := by
    show ¬25 * 80 ≤ 80 * c.screenY + c.screenX
    omega
  obtain ⟨d, hd⟩ := withCells_isSome hbg page (Cells.set (numCols * c.screenY + c.screenX) b) c
  have hcursor := withCells_cursor hd
  simp only [Console.cursor, Prod.mk.injEq] at hcursor
  obtain ⟨hdx, hdy⟩ := hcursor
  simp only [Console.showChar, if_neg hcell, hd, Option.bind_eq_bind, Option.bind_some, hdx]
  by_cases hend : c.screenX + 1 = numCols
  · rw [if_pos hend, if_pos hend, ← hdy]
    exact nextLine_cursor hbg page { d with screenX := c.screenX + 1 }
  · have hmod : (c.screenX + 1) % numCols = c.screenX + 1 := by
      apply Nat.mod_eq_of_lt
      change c.screenX + 1 ≠ 80 at hend
      show c.screenX + 1 < 80
      omega
    rw [if_neg hend, if_neg hend]
    refine ⟨_, rfl, ?_⟩
    simp only [Console.cursor, hmod, hdy, Prod.mk.injEq, true_and]
    show (c.screenY + (c.screenX + 1) / 80) % 25 = c.screenY
    change c.screenX + 1 ≠ 80 at hend
    omega

/-- `putc` is defined on the screen and moves the cursor as `advance` says. -/
theorem putc_cursor (hbg : bg < 3) (page : Nat) (b : UInt8) (h : OnScreen c.cursor) :
    ∃ c', c.putc bg page b = some c' ∧ c'.cursor = advance c.cursor b := by
  unfold Console.putc advance
  by_cases hline : b = 10 ∨ b = 13
  · obtain ⟨d, hd, hcursor⟩ := nextLine_cursor hbg page c
    rw [if_pos hline, if_pos (by tauto), hd]
    exact ⟨_, rfl, hcursor⟩
  · obtain ⟨d, hd, hcursor⟩ := showChar_cursor hbg page b h
    have hcond : (b = 10 ∨ b = 13 ∨ c.cursor.1 + 1 = numCols) ↔ c.screenX + 1 = numCols := by
      simp only [not_or] at hline
      simp only [hline, false_or]
      rfl
    simp only [if_neg hline, hd, hcond]
    exact ⟨_, rfl, hcursor⟩

theorem backspacing_cursor (hbg : bg < 3) (page : Nat) (h : OnScreen c.cursor) :
    ∃ c', c.backspacing bg page = some c' ∧ c'.cursor = retreat c.cursor := by
  obtain ⟨hx, hy⟩ := h
  change c.screenX < 80 at hx
  change c.screenY < 25 at hy
  unfold Console.backspacing retreat
  by_cases hx0 : c.screenX = 0
  · rw [if_neg (not_not.mpr hx0), if_neg (not_not.mpr (show c.cursor.1 = 0 from hx0))]
    by_cases hy0 : c.screenY = 0
    · rw [if_neg (not_not.mpr hy0), if_neg (not_not.mpr (show c.cursor.2 = 0 from hy0))]
      exact ⟨_, rfl, rfl⟩
    · rw [if_pos hy0, if_pos (show c.cursor.2 ≠ 0 from hy0)]
      -- the blank at the end of the row above wraps back to this row
      have hwrap : advance (79, c.screenY - 1) 32 = (0, c.screenY) := by
        have hrow : c.screenY - 1 ≠ numRows - 1 := by
          show c.screenY - 1 ≠ 24
          omega
        rw [advance_wrap (.inr (.inr rfl)), if_neg hrow, Nat.sub_add_cancel (by omega)]
      obtain ⟨d, hd, hcursor⟩ := putc_cursor hbg page 32
        (c := { c with screenY := c.screenY - 1, screenX := 79 })
        ⟨(by decide : 79 < numCols), show c.screenY - 1 < 25 by omega⟩
      have hdy : d.screenY = c.screenY := congrArg Prod.snd (hcursor.trans hwrap)
      rw [hd]
      exact ⟨_, rfl, Prod.ext rfl (congrArg (· - 1) hdy)⟩
  · rw [if_pos hx0, if_pos (show c.cursor.1 ≠ 0 from hx0)]
    have hback : advance (c.screenX - 1, c.screenY) 32 = (c.screenX, c.screenY) := by
      rw [advance_char (by decide) (show c.screenX - 1 + 1 < 80 by omega),
        Nat.sub_add_cancel (by omega)]
    obtain ⟨d, hd, hcursor⟩ := putc_cursor hbg page 32 (c := { c with screenX := c.screenX - 1 })
      ⟨show c.screenX - 1 < 80 by omega, hy⟩
    have hcursor' := hcursor.trans hback
    simp only [Console.cursor, Prod.mk.injEq] at hcursor'
    rw [hd]
    exact ⟨_, rfl, Prod.ext (congrArg (· - 1) hcursor'.1) hcursor'.2⟩

/-- Printing bytes moves the cursor by each of them. -/
theorem putcs_cursor (hbg : bg < 3) (page : Nat) (bytes : List UInt8) (h : OnScreen c.cursor) :
    ∃ c', runFrom (Console.run bg page) c (bytes.map .putc) = some c' ∧
      c'.cursor = bytes.foldl advance c.cursor ∧ OnScreen c'.cursor := by
  induction bytes generalizing c with
  | nil => exact ⟨c, rfl, rfl, h⟩
  | cons b bytes ih =>
    obtain ⟨d, hd, hcursor⟩ := putc_cursor hbg page b h
    obtain ⟨c', hc', hcursor', honscreen⟩ := ih (c := d) (hcursor ▸ h.advance b)
    refine ⟨c', (runFrom_cons hd).trans hc', ?_, honscreen⟩
    rw [hcursor', hcursor, List.foldl_cons]

end cursor

/-! ## The end of a row -/

/-- What a screen function of `bg` works on. -/
def Console.cells (bg : Fin 3) (page : Nat) (c : Console) : Cells := ⟨c.mem page, c.scrBuf[bg.val]⟩

/-- The console with cell `i` set to `b`, in the video page and in `scr_buf`. -/
def Console.setCell (bg : Fin 3) (page i : Nat) (b : UInt8) (c : Console) : Console :=
  { c with
    mem := Function.update c.mem page ((c.cells bg page).set i b).video
    scrBuf := c.scrBuf.set bg.val ((c.cells bg page).set i b).buf }

section rowEnd
variable (bg : Fin 3) (page : Nat) {c : Console}

theorem withCells_set (i : Nat) (b : UInt8) (c : Console) :
    c.withCells bg page (Cells.set i b) = some (c.setCell bg page i b) := by
  simp only [Console.withCells, Vector.getElem?_eq_getElem bg.isLt, Option.bind_eq_bind,
    Option.bind_some, store_isSome _ bg.isLt]
  rfl

theorem set_set (i : Nat) (a b : UInt8) (s : Cells) : (s.set i a).set i b = s.set i b := by
  simp only [Cells.set, Cells.mk.injEq, Function.update_idem, and_true]
  funext j
  simp only [Function.update_apply]
  split_ifs <;> rfl

theorem cells_setCell (i : Nat) (b : UInt8) (c : Console) :
    (c.setCell bg page i b).cells bg page = (c.cells bg page).set i b := by
  simp [Console.cells, Console.setCell]

theorem setCell_setCell (i : Nat) (a b : UInt8) (c : Console) :
    (c.setCell bg page i a).setCell bg page i b = c.setCell bg page i b := by
  have hcells := cells_setCell bg page i a c
  simp only [Console.setCell] at hcells ⊢
  rw [hcells, set_set]
  simp [Vector.set_set]

/-- A character in the last column of a row that is not the last. -/
theorem putc_at_end {b : UInt8} (hb : ¬(b = 10 ∨ b = 13)) (hx : c.screenX = 79) {y : Nat}
    (hy : c.screenY = y) (hlt : y < 24) :
    c.putc bg page b = some ((c.setCell bg page (numCols * y + 79) b).changeCoord 0 (y + 1)) := by
  have hcell : ¬numRows * numCols ≤ numCols * y + 79 := by
    show ¬25 * 80 ≤ 80 * y + 79
    omega
  have hrow : (c.setCell bg page (numCols * y + 79) b).screenY ≠ numRows - 1 := by
    show c.screenY ≠ 24
    omega
  have hshow : c.showChar bg page b = some
      { c.setCell bg page (numCols * y + 79) b with screenX := 0, screenY := y + 1 } := by
    simp only [Console.showChar, hx, hy, if_neg hcell, withCells_set, Option.bind_eq_bind,
      Option.bind_some]
    have hend : (c.setCell bg page (numCols * y + 79) b).screenX + 1 = numCols :=
      congrArg (· + 1) hx
    rw [if_pos hend, Console.nextLine, if_neg hrow]
    have hy' : (c.setCell bg page (numCols * y + 79) b).screenY = y := hy
    simp only [hy']
  simp only [Console.putc, if_neg hb, hshow]
  rfl

theorem putc_newline {b : UInt8} (hb : b = 10 ∨ b = 13) {y : Nat} (hy : c.screenY = y)
    (hlt : y < 24) : c.putc bg page b = some (c.changeCoord 0 (y + 1)) := by
  subst hy
  have hrow : c.screenY ≠ numRows - 1 := by
    show c.screenY ≠ 24
    omega
  simp only [Console.putc, if_pos hb, Console.nextLine, if_neg hrow]
  rfl

/-- A backspace at the beginning of a row blanks the end of the row above. -/
theorem backspacing_at_start (hx : c.screenX = 0) {y : Nat} (hy : c.screenY = y + 1)
    (hlt : y < 24) :
    c.backspacing bg page = some ((c.setCell bg page (numCols * y + 79) 32).changeCoord 79 y) := by
  have hputc := putc_at_end bg page (c := { c with screenY := y, screenX := 79 })
    (by decide : ¬((32 : UInt8) = 10 ∨ (32 : UInt8) = 13)) rfl rfl hlt
  unfold Console.backspacing
  rw [if_neg (not_not.mpr hx), if_pos (show c.screenY ≠ 0 by omega), hy, Nat.add_sub_cancel, hputc]
  rfl

/-- Whatever byte is printed in the last column, a backspace leaves a blank there. -/
theorem putc_backspacing_at_end (b : UInt8) (hx : c.screenX = 79) {y : Nat} (hy : c.screenY = y)
    (hlt : y < 24) :
    runFrom (Console.run bg page) c [.putc b, .backspacing] =
      some ((c.setCell bg page (numCols * y + 79) 32).changeCoord 79 y) := by
  by_cases hb : b = 10 ∨ b = 13
  · have hputc : c.run bg page (.putc b) = _ := putc_newline bg page hb hy hlt
    have hback := backspacing_at_start bg page (c := c.changeCoord 0 (y + 1)) rfl rfl hlt
    rw [runFrom_cons hputc, runFrom, Console.run, hback]
    rfl
  · have hputc : c.run bg page (.putc b) = _ := putc_at_end bg page hb hx hy hlt
    have hback := backspacing_at_start bg page
      (c := (c.setCell bg page (numCols * y + 79) b).changeCoord 0 (y + 1)) rfl rfl hlt
    have hcells := setCell_setCell bg page (numCols * y + 79) b 32 c
    have hsame := congrArg (fun d : Console => some (d.changeCoord 79 y)) hcells
    rw [runFrom_cons hputc, runFrom, Console.run, hback]
    exact hsame

end rowEnd

/-! ## The call -/

/-- `write_terminal` (`keyboard.c:297-308`) on the line buffers and the screen. The loop counter
    is a signed 32-bit number, which must be able to pass `nbytes`. -/
def writeTerminal (bg page : Nat) (buf1 : Nat → UInt8) (nbytes : Nat) (k : Keyboard) (c : Console) :
    Option (Nat × Keyboard × Console) :=
  if 2 ^ 31 ≤ nbytes + 1 then none
  else do
    let (ops, k') ← k.writeTerminal buf1 nbytes
    let c' ← runFrom (Console.run bg page) c ops
    return (nbytes, k', c')

/-- What is on the screen is the same, but possibly for the cell under the cursor. -/
structure SameScreen (bg page : Nat) (c c' : Console) : Prop where
  cursor : c'.cursor = c.cursor
  video : ∀ i < numRows * numCols, i ≠ numCols * c.screenY + c.screenX →
    c'.mem page (2 * i) = c.mem page (2 * i) ∧ c'.mem page (2 * i + 1) = c.mem page (2 * i + 1)
  scrBuf : ∃ buf buf', c.scrBuf[bg]? = some buf ∧ c'.scrBuf[bg]? = some buf' ∧
    ∀ i < numRows * numCols, i ≠ numCols * c.screenY + c.screenX → buf' i = buf i

/-- The call prints its buffer: it is defined, returns `nbytes`, leaves the screen as `putc` on the
first `nbytes` bytes does, has the same effect for any bytes after them, and keeps the characters
that wait in the line buffer of the active terminal. -/
def WritesExactly (bg page : Nat) (buf1 : Nat → UInt8) (nbytes : Nat) (k : Keyboard) (c : Console) :
    Prop :=
  ∃ k' c' ref, writeTerminal bg page buf1 nbytes k c = some (nbytes, k', c') ∧
    runFrom (Console.run bg page) c ((slice buf1 0 nbytes).map .putc) = some ref ∧
    SameScreen bg page ref c' ∧
    (∀ buf2 : Nat → UInt8, (∀ i < nbytes, buf2 i = buf1 i) →
      writeTerminal bg page buf2 nbytes k c = writeTerminal bg page buf1 nbytes k c) ∧
    k'.text k.active = k.text k.active

section call
variable {bg page : Nat} {buf1 : Nat → UInt8} {nbytes : Nat} {k k' : Keyboard} {c c' : Console}

/-- The bytes that are printed, and the byte after them. -/
theorem writeTerminal_shown (buf1 : Nat → UInt8) (nbytes : Nat) :
    (List.range ((nbytes : Int) + 1).toNat).map (fun i => ScreenOp.putc (buf1 i)) =
      (slice buf1 0 nbytes ++ [buf1 nbytes]).map .putc := by
  have hlen : ((nbytes : Int) + 1).toNat = nbytes + 1 := by omega
  have hlast := slice_succ_last buf1 0 nbytes
  rw [Nat.zero_add] at hlast
  rw [hlen, ← hlast, slice, List.map_map, List.range_eq_range']
  rfl

theorem setIndex_zero_bufIndex {l : Keyboard} (h : l.active = k.active) :
    (l.setIndex 0).bufIndex k.active = 0 := by
  rw [setIndex_bufIndex, if_pos h.symm]

/-- The screen functions that the call runs. -/
theorem keyboardWriteTerminal_eq_some {ops : List ScreenOp}
    (h : k.writeTerminal buf1 nbytes = some (ops, k')) :
    k'.bufIndex k.active = 0 ∧
      ops = (slice buf1 0 nbytes ++ [buf1 nbytes]).map .putc ++
        if nbytes = 1023 then [] else [.backspacing] := by
  simp only [Keyboard.writeTerminal, writeTerminal_shown] at h
  split at h
  next hne =>
    have hne : nbytes ≠ 1023 := fun heq => hne (by rw [heq]; rfl)
    obtain ⟨⟨back, l⟩, hl, hl'⟩ := Option.bind_eq_some_iff.mp h
    have hback := backspacing_ops hl
    cases hl'
    rw [if_neg hne]
    exact ⟨setIndex_zero_bufIndex (backspacing_active hl), congrArg _ hback⟩
  next heq =>
    have heq : nbytes = 1023 := by
      have := not_not.mp heq
      simp only [bufSize] at this
      omega
    cases h
    rw [if_pos heq]
    exact ⟨setIndex_zero_bufIndex rfl, rfl⟩

/-- A call that is defined prints one byte more, takes it back unless `nbytes` is 1023, and empties
the line buffer. -/
theorem writeTerminal_eq_some {v : Nat}
    (h : writeTerminal bg page buf1 nbytes k c = some (v, k', c')) :
    nbytes + 1 < 2 ^ 31 ∧ k'.bufIndex k.active = 0 ∧
      runFrom (Console.run bg page) c ((slice buf1 0 nbytes ++ [buf1 nbytes]).map .putc ++
        if nbytes = 1023 then [] else [.backspacing]) = some c' := by
  unfold writeTerminal at h
  split at h
  · cases h
  next hlt =>
    simp only [Option.bind_eq_bind, Option.bind_eq_some_iff, Option.pure_def, Option.some.injEq,
      Prod.mk.injEq] at h
    obtain ⟨⟨ops, l⟩, hops, d, hd, rfl, rfl, rfl⟩ := h
    obtain ⟨hindex, hops'⟩ := keyboardWriteTerminal_eq_some hops
    rw [hops'] at hd
    exact ⟨by omega, hindex, hd⟩

/-- Where the call leaves the cursor: past the extra byte, and back. -/
theorem writeTerminal_cursor {v : Nat} (hbg : bg < 3) (hc : OnScreen c.cursor)
    (h : writeTerminal bg page buf1 nbytes k c = some (v, k', c')) :
    c'.cursor =
      (if nbytes = 1023 then id else retreat)
        (advance ((slice buf1 0 nbytes).foldl advance c.cursor) (buf1 nbytes)) := by
  obtain ⟨-, -, hrun⟩ := writeTerminal_eq_some h
  obtain ⟨d, hd, hcursor, hon⟩ := putcs_cursor hbg page (slice buf1 0 nbytes ++ [buf1 nbytes]) hc
  rw [List.foldl_append] at hcursor
  rw [runFrom_append, hd, Option.bind_some] at hrun
  by_cases hn : nbytes = 1023
  · rw [if_pos hn] at hrun ⊢
    cases hrun
    exact hcursor
  · obtain ⟨e, he, hback⟩ := backspacing_cursor hbg page hon
    rw [if_neg hn] at hrun ⊢
    have he' : runFrom (Console.run bg page) d [.backspacing] = some e := runFrom_cons he
    cases he'.symm.trans hrun
    exact hback.trans (congrArg retreat hcursor)

/-- The extra byte is taken back, whatever it is, exactly from the last column of a row that is not
the last one. -/
theorem taken_back_iff {p : Nat × Nat} (hp : OnScreen p) (nbytes : Nat) :
    (∀ b, (if nbytes = 1023 then id else retreat) (advance p b) = p) ↔
      nbytes ≠ 1023 ∧ p.1 = 79 ∧ p.2 < 24 := by
  obtain ⟨x, y⟩ := p
  obtain ⟨hx, hy⟩ := hp
  change x < 80 at hx
  change y < 25 at hy
  by_cases hn : nbytes = 1023
  · subst hn
    refine iff_of_false (fun h => ?_) (by simp)
    -- a letter moves the cursor
    have hletter : advance (x, y) 97 = (x, y) := h 97
    by_cases hend : x + 1 = numCols
    · rw [advance_wrap (.inr (.inr hend)), Prod.mk.injEq] at hletter
      change x + 1 = 80 at hend
      omega
    · change x + 1 ≠ 80 at hend
      rw [advance_char (by decide) (show x + 1 < 80 by omega), Prod.mk.injEq] at hletter
      omega
  · rw [if_neg hn, and_iff_right hn]
    constructor
    · intro h
      -- a new line moves to the next row, and back is the end of the row above that
      have hline := h 10
      rw [advance_wrap (.inl rfl)] at hline
      by_cases hlast : y = numRows - 1
      · change y = 24 at hlast
        subst hlast
        cases hline
      · rw [if_neg hlast] at hline
        cases hline
        change y ≠ 24 at hlast
        exact ⟨rfl, by omega⟩
    · rintro ⟨rfl, hrow⟩ b
      have hne : y ≠ numRows - 1 := by
        show y ≠ 24
        omega
      rw [advance_wrap (.inr (.inr rfl)), if_neg hne]
      rfl

/-- From an empty line buffer the call is defined as far as the keyboard is concerned. -/
theorem writeTerminal_of_empty (bg page : Nat) (c : Console) (hlt : nbytes + 1 < 2 ^ 31)
    (hn : nbytes ≠ 1023) (hk : k.index = 0) :
    ∃ k', (∀ buf2, writeTerminal bg page buf2 nbytes k c =
        (runFrom (Console.run bg page) c
          ((slice buf2 0 nbytes ++ [buf2 nbytes]).map .putc ++ [.backspacing])).map fun c' =>
            (nbytes, k', c')) ∧
      k'.text k.active = k.text k.active := by
  have hback := backspacing_eq false (show k.index < bufSize by rw [hk]; decide)
  rw [if_neg (by simp)] at hback
  refine ⟨k.dropped.setIndex 0, ?_, ?_⟩
  · intro buf2
    have hne : (nbytes : Int) ≠ bufSize - 1 := by
      simp only [bufSize]
      omega
    simp only [writeTerminal, if_neg (Nat.not_le.mpr hlt), Keyboard.writeTerminal,
      if_pos hne, hback, writeTerminal_shown, Option.bind_eq_bind, Option.bind_some,
      Option.pure_def]
    cases runFrom (Console.run bg page) c _ <;> rfl
  · have hactive : k.dropped.active = k.active := rfl
    rw [text_eq_nil _ hk, text_eq_nil _ (setIndex_zero_bufIndex hactive)]

/-- The cells other than the one that is set. -/
theorem sameScreen_setCell {bg : Fin 3} {y : Nat} (hx : c.screenX = 79) (hy : c.screenY = y) :
    SameScreen bg page c ((c.setCell bg page (numCols * y + 79) 32).changeCoord 79 y) := by
  have hmem : (c.setCell bg page (numCols * y + 79) 32).mem page =
      ((c.cells bg page).set (numCols * y + 79) 32).video := by
    simp [Console.setCell]
  subst hy
  refine ⟨?_, fun i _ hne => ?_, _, ((c.cells bg page).set (numCols * c.screenY + 79) 32).buf,
    Vector.getElem?_eq_getElem bg.isLt, ?_, fun i _ hne => ?_⟩
  · simp [Console.cursor, Console.changeCoord, hx]
  · rw [hx] at hne
    simp only [Console.changeCoord, hmem, set_video, set_attrib, if_neg hne]
    exact ⟨rfl, rfl⟩
  · simp [Console.changeCoord, Console.setCell]
  · rw [hx] at hne
    rw [set_buf, if_neg hne]
    rfl

end call

/-- On every screen with the cursor on it, the call prints exactly its buffer if and only if the
loop counter can pass `nbytes`, `nbytes` is not 1023, no character waits in the line buffer, and the
cursor is at the end of a row above the last one when the buffer has been printed. -/
theorem write_terminal_prints_exactly_iff (bg : Fin 3) (page : Nat) (buf1 : Nat → UInt8)
    (nbytes : Nat) (k : Keyboard) (c : Console) (hc : OnScreen c.cursor) :
    WritesExactly bg page buf1 nbytes k c ↔
      nbytes + 1 < 2 ^ 31 ∧ nbytes ≠ 1023 ∧ k.index = 0 ∧
        ((slice buf1 0 nbytes).foldl advance c.cursor).1 = 79 ∧
        ((slice buf1 0 nbytes).foldl advance c.cursor).2 < 24 := by
  obtain ⟨ref, href, hcursor, hon⟩ := putcs_cursor bg.isLt page (slice buf1 0 nbytes) hc
  constructor
  · rintro ⟨k', c', ref', hwrite, href', hsame, hall, htext⟩
    cases href.symm.trans href'
    obtain ⟨hlt, hindex, -⟩ := writeTerminal_eq_some hwrite
    have hk : k.index = 0 := by
      have hlen := congrArg List.length htext
      rw [text_length, text_length, hindex] at hlen
      exact hlen.symm
    -- another byte after the buffer leads to the same cursor
    have hback : ∀ b, (if nbytes = 1023 then id else retreat)
        (advance ((slice buf1 0 nbytes).foldl advance c.cursor) b) =
          (slice buf1 0 nbytes).foldl advance c.cursor := by
      intro b
      have hagree : ∀ i < nbytes, Function.update buf1 nbytes b i = buf1 i :=
        fun i hi => Function.update_of_ne (Nat.ne_of_lt hi) _ _
      have hslice : slice (Function.update buf1 nbytes b) 0 nbytes = slice buf1 0 nbytes :=
        slice_congr _ fun i _ hi => hagree i (by omega)
      have hother := writeTerminal_cursor bg.isLt hc ((hall _ hagree).trans hwrite)
      rw [hslice, Function.update_self, hsame.cursor, hcursor] at hother
      exact hother.symm
    obtain ⟨hn, hcol, hrow⟩ := (taken_back_iff (hcursor ▸ hon) nbytes).mp hback
    exact ⟨hlt, hn, hk, hcol, hrow⟩
  · rintro ⟨hlt, hn, hk, hcol, hrow⟩
    rw [← hcursor] at hcol hrow
    obtain ⟨k', hwrite, htext⟩ := writeTerminal_of_empty bg page c hlt hn hk
    have hrun : ∀ buf2 : Nat → UInt8, (∀ i < nbytes, buf2 i = buf1 i) →
        writeTerminal bg page buf2 nbytes k c = some (nbytes, k',
          (ref.setCell bg page (numCols * ref.screenY + 79) 32).changeCoord 79 ref.screenY) := by
      intro buf2 hagree
      have hslice : slice buf2 0 nbytes = slice buf1 0 nbytes :=
        slice_congr _ fun i _ hi => hagree i (by omega)
      have hend := putc_backspacing_at_end bg page (buf2 nbytes) hcol rfl hrow
      rw [hwrite buf2, hslice, List.map_append, List.append_assoc, runFrom_append, href,
        Option.bind_some]
      exact congrArg (Option.map _) hend
    refine ⟨k', _, ref, hrun buf1 fun _ _ => rfl, href, sameScreen_setCell hcol rfl, ?_, htext⟩
    intro buf2 hagree
    rw [hrun buf2 hagree, hrun buf1 fun _ _ => rfl]

/-- A console full of blanks with the cursor at column `x` and row `y`. -/
def blankConsole (x y : Nat) : Console :=
  ⟨x, y, Vector.replicate 3 fun _ => 32, fun _ _ => 32, numCols * y + x⟩

/-- Nothing is printed at the end of the first row. -/
theorem write_nothing_at_row_end :
    WritesExactly (0 : Fin 3) 0xB8 (fun _ => 10) 0 bootKeyboard (blankConsole 79 0) :=
  (write_terminal_prints_exactly_iff 0 0xB8 (fun _ => 10) 0 bootKeyboard (blankConsole 79 0)
    ⟨by decide, by decide⟩).mpr ⟨by decide, by decide, rfl, rfl, by decide⟩

/-- One letter in the first column, with a new line after it in the buffer: the cursor ends up in
column 79 instead of column 1. -/
theorem write_letter_before_newline_moves_cursor :
    ¬WritesExactly (0 : Fin 3) 0xB8 (fun i => if i = 0 then 97 else 10) 1 bootKeyboard
      (blankConsole 0 0) := by
  rintro ⟨k', c', ref, hwrite, href, hsame, -, -⟩
  have hon : OnScreen (blankConsole 0 0).cursor := ⟨by decide, by decide⟩
  have hcursor := writeTerminal_cursor (by decide) hon hwrite
  obtain ⟨ref', href', hcursor', -⟩ := putcs_cursor (show (0 : Fin 3).val < 3 by decide) 0xB8
    (slice (fun i => if i = 0 then 97 else 10) 0 1) hon
  cases href.symm.trans href'
  have hsame' := hsame.cursor
  rw [hcursor, hcursor'] at hsame'
  revert hsame'
  decide

end OreOS
