import OreOS.Console
import OreOS.Machine.TextScreen

/-!
# The console is a text screen

`Shows` relates the bytes of a page, a row of `scr_buf` and the cursor to a text screen of 25 rows
and 80 columns. Every screen function keeps the relation to the screen that is fed the corresponding
operation, sends the cursor to the CRT controller, and touches no other page or row.
-/

namespace OreOS
open Machine TextScreen

/-- What a screen function is on a text screen. -/
def ScreenOp.toText : ScreenOp → TextScreen.Op UInt8
  | .putc c => if c = 10 ∨ c = 13 then .newline else .put c
  | .backspacing => .backspace
  | .clear => .clear

/-- The 25 by 80 screen after `op`. -/
def feedText (s : TextScreen UInt8) (op : ScreenOp) : TextScreen UInt8 :=
  feed numRows numCols 32 s op.toText

/-- The cell that is the `i`-th in the console's row-major order. -/
def flatCell (s : TextScreen UInt8) (i : Nat) : UInt8 := s.cell (i / numCols) (i % numCols)

/-- The position of the cursor in that order. -/
def flatCursor (s : TextScreen UInt8) : Nat := numCols * s.y + s.x

/-! ## The loops -/

theorem set_buf (i : Nat) (c : UInt8) (s : Cells) (j : Nat) :
    (s.set i c).buf j = if j = i then c else s.buf j := by
  simp only [Cells.set, Function.update_apply]

theorem set_video (i : Nat) (c : UInt8) (s : Cells) (j : Nat) :
    (s.set i c).video (2 * j) = if j = i then c else s.video (2 * j) := by
  have hodd : ¬ 2 * j = 2 * i + 1 := by omega
  simp only [Cells.set, Function.update_apply, hodd, if_false]
  by_cases hj : j = i
  · rw [if_pos hj, if_pos (by rw [hj])]
  · rw [if_neg hj, if_neg (by omega)]

/-- A loop whose value at a cell does not depend on earlier cells sees the original contents. -/
theorem loop_spec (value : (Nat → UInt8) → Nat → UInt8)
    (hvalue : ∀ b b' j, (∀ k, j ≤ k → b k = b' k) → value b j = value b' j)
    (n : Nat) : ∀ (i : Nat) (s : Cells) (j : Nat),
      (Cells.loop value n i s).buf j =
        (if i ≤ j ∧ j < i + n then value s.buf j else s.buf j) ∧
      (Cells.loop value n i s).video (2 * j) =
        (if i ≤ j ∧ j < i + n then value s.buf j else s.video (2 * j)) := by
  induction n with
  | zero =>
    intro i s j
    rw [if_neg (by omega), if_neg (by omega)]
    exact ⟨rfl, rfl⟩
  | succ n ih =>
    intro i s j
    have hnext := ih (i + 1) (s.set i (value s.buf i)) j
    rw [set_buf, set_video] at hnext
    simp only [Cells.loop]
    rw [hnext.1, hnext.2]
    by_cases hin : i + 1 ≤ j ∧ j < i + 1 + n
    · -- the cells written so far are all below `j`
      have hsame : value (s.set i (value s.buf i)).buf j = value s.buf j := by
        apply hvalue
        intro k hk
        rw [set_buf, if_neg (by omega)]
      rw [if_pos hin, if_pos hin, if_pos (by omega), if_pos (by omega), hsame]
      exact ⟨rfl, rfl⟩
    · rw [if_neg hin, if_neg hin]
      by_cases hj : j = i
      · subst hj
        rw [if_pos rfl, if_pos rfl, if_pos (by omega), if_pos (by omega)]
        exact ⟨rfl, rfl⟩
      · rw [if_neg hj, if_neg hj, if_neg (by omega), if_neg (by omega)]
        exact ⟨rfl, rfl⟩

/-- Both copies of the cells hold the text `g`. -/
def Cells.Hold (s : Cells) (g : Nat → UInt8) : Prop :=
  ∀ i < numRows * numCols, s.video (2 * i) = g i ∧ s.buf i = g i

theorem hold_set {s : Cells} {g : Nat → UInt8} (h : s.Hold g) (i : Nat) (c : UInt8) :
    (s.set i c).Hold (fun j => if j = i then c else g j) := by
  intro j hj
  rw [set_buf, set_video]
  obtain ⟨hvideo, hbuf⟩ := h j hj
  rw [hvideo, hbuf]
  exact ⟨rfl, rfl⟩

theorem hold_clear (s : Cells) : s.clear.Hold (fun _ => 32) := by
  intro j hj
  obtain ⟨hbuf, hvideo⟩ := loop_spec (fun _ _ => 32) (fun _ _ _ _ => rfl) (numRows * numCols) 0 s j
  rw [Cells.clear, hbuf, hvideo, if_pos (by omega), if_pos (by omega)]
  exact ⟨rfl, rfl⟩

/-- `shift_down` moves every row up and blanks the last one. -/
theorem hold_shiftDown {s : Cells} {g : Nat → UInt8} (h : s.Hold g) :
    s.shiftDown.Hold (fun i => if i < 24 * numCols then g (i + numCols) else 32) := by
  intro j hj
  have hmove := loop_spec (fun buf i => buf (i + numCols)) (fun _ _ _ hb => hb _ (by omega))
    (24 * numCols) 0 s j
  have hblank := loop_spec (fun _ _ => 32) (fun _ _ _ _ => rfl)
    (numRows * numCols - 24 * numCols) (24 * numCols)
    (Cells.loop (fun buf i => buf (i + numCols)) (24 * numCols) 0 s) j
  have hcols : numCols = 80 := rfl
  have hcells : numRows * numCols = 25 * numCols := rfl
  simp only [Cells.shiftDown]
  rw [hblank.1, hblank.2, hmove.1, hmove.2]
  by_cases hlast : j < 24 * numCols
  · have hkeep : ¬ (24 * numCols ≤ j ∧ j < 24 * numCols + (numRows * numCols - 24 * numCols)) := by
      omega
    have hin : 0 ≤ j ∧ j < 0 + 24 * numCols := by omega
    obtain ⟨-, hbuf⟩ := h (j + numCols) (by omega)
    simp only [if_neg hkeep, if_pos hin, if_pos hlast]
    exact ⟨hbuf, hbuf⟩
  · have hin : 24 * numCols ≤ j ∧ j < 24 * numCols + (numRows * numCols - 24 * numCols) := by
      omega
    simp only [if_pos hin, if_neg hlast, and_self]

/-! ## The console -/

/-- The page and the row of `scr_buf` hold the text of `s`. -/
def Texts (bg page : Nat) (c : Console) (s : TextScreen UInt8) : Prop :=
  ∃ buf, c.scrBuf[bg]? = some buf ∧ Cells.Hold ⟨c.mem page, buf⟩ (flatCell s)

/-- The page holds the text of `s`. -/
def PageText (page : Nat) (c : Console) (s : TextScreen UInt8) : Prop :=
  ∀ i < numRows * numCols, c.mem page (2 * i) = flatCell s i

/-- The row of `scr_buf` does. -/
def RowText (t : Nat) (c : Console) (s : TextScreen UInt8) : Prop :=
  ∃ buf, c.scrBuf[t]? = some buf ∧ ∀ i < numRows * numCols, buf i = flatCell s i

theorem texts_iff {bg page : Nat} {c : Console} {s : TextScreen UInt8} :
    Texts bg page c s ↔ PageText page c s ∧ RowText bg c s := by
  constructor
  · rintro ⟨buf, hbuf, hhold⟩
    exact ⟨fun i hi => (hhold i hi).1, buf, hbuf, fun i hi => (hhold i hi).2⟩
  · rintro ⟨hpage, buf, hbuf, hrow⟩
    exact ⟨buf, hbuf, fun i hi => ⟨hpage i hi, hrow i hi⟩⟩

/-- The page and the row hold the text of `s`, and the cursor is where it is in `s`. -/
structure Shows (bg page : Nat) (c : Console) (s : TextScreen UInt8) : Prop where
  text : Texts bg page c s
  x : c.screenX = s.x
  y : c.screenY = s.y
  range : InRange numRows numCols s

/-- Everything outside the page and the row is as it was. -/
structure OnlyCells (bg page : Nat) (c c' : Console) : Prop where
  mem : ∀ p, p ≠ page → c'.mem p = c.mem p
  buf : ∀ t : Nat, t ≠ bg → c'.scrBuf[t]? = c.scrBuf[t]?

theorem OnlyCells.trans {bg page : Nat} {c c' c'' : Console} (h : OnlyCells bg page c c')
    (h' : OnlyCells bg page c' c'') : OnlyCells bg page c c'' :=
  ⟨fun p hp => (h'.mem p hp).trans (h.mem p hp), fun t ht => (h'.buf t ht).trans (h.buf t ht)⟩

section console
variable {bg page : Nat} {c : Console} {s : TextScreen UInt8}

/-- Running `g` on the cells gives the text that `g` makes of the text before. -/
theorem withCells_spec (page : Nat) {buf : Nat → UInt8} (hbuf : c.scrBuf[bg]? = some buf)
    (g : Cells → Cells) :
    ∃ c', c.withCells bg page g = some c' ∧
      c'.scrBuf[bg]? = some (g ⟨c.mem page, buf⟩).buf ∧
      c'.mem page = (g ⟨c.mem page, buf⟩).video ∧ c'.screenX = c.screenX ∧
      c'.screenY = c.screenY ∧ OnlyCells bg page c c' := by
  have hbg : bg < 3 := (Vector.getElem?_eq_some_iff.mp hbuf).1
  have hstore := store_isSome (a := c.scrBuf) (g ⟨c.mem page, buf⟩).buf hbg
  simp only [Console.withCells, hbuf, hstore, Option.bind_eq_bind, Option.bind_some,
    Option.pure_def]
  refine ⟨_, rfl, ?_, ?_, rfl, rfl, ?_, ?_⟩
  · simp only [getElem?_of_store hstore, if_true]
  · simp only [Function.update_self]
  · intro p hp
    simp only [Function.update_of_ne hp]
  · intro t ht
    simp only [getElem?_of_store hstore, if_neg (Ne.symm ht)]

theorem flatCell_setCell {r col : Nat} (hcol : col < numCols) (a : UInt8) (s : TextScreen UInt8) :
    flatCell (s.setCell r col a) = fun i => if i = numCols * r + col then a else flatCell s i := by
  funext i
  have hidx : (i / numCols = r ∧ i % numCols = col) ↔ i = numCols * r + col := by
    change col < 80 at hcol
    show (i / 80 = r ∧ i % 80 = col) ↔ i = 80 * r + col
    omega
  simp only [flatCell, setCell, hidx]

theorem flatCell_scroll (s : TextScreen UInt8) (x y i : Nat) :
    flatCell ⟨fun r col => if r + 1 < numRows then s.cell (r + 1) col else 32, x, y⟩ i =
      if i < 24 * numCols then flatCell s (i + numCols) else 32 := by
  have hrow : i / numCols + 1 < numRows ↔ i < 24 * numCols := by
    show i / 80 + 1 < 25 ↔ i < 24 * 80
    omega
  have hdiv : (i + numCols) / numCols = i / numCols + 1 := Nat.add_div_right i (by decide)
  simp only [flatCell, hrow, hdiv, Nat.add_mod_right]

/-- `shift_down` on the bottom line is the new line of the screen. -/
theorem shiftDown_refines (h : Texts bg page c s) (hrange : InRange numRows numCols s)
    (hy : s.y = 24) :
    ∃ c', c.shiftDown bg page = some c' ∧ Shows bg page c' (newline numRows 32 s) ∧
      OnlyCells bg page c c' := by
  obtain ⟨buf, hbuf, hhold⟩ := h
  obtain ⟨c', hc', hrow, hpage, -, -, honly⟩ := withCells_spec page hbuf Cells.shiftDown
  have hnew : newline numRows 32 s =
      ⟨fun r col => if r + 1 < numRows then s.cell (r + 1) col else 32, 0, s.y⟩ := by
    simp [newline, numRows, hy]
  simp only [Console.shiftDown, hc', Option.bind_eq_bind, Option.bind_some, Option.pure_def]
  refine ⟨_, rfl, ⟨⟨_, hrow, ?_⟩, ?_, ?_, hrange.newline⟩, ⟨honly.mem, honly.buf⟩⟩
  · intro i hi
    have hcell := hold_shiftDown hhold i hi
    simp only [Console.changeCoord, hpage]
    rw [hnew, flatCell_scroll]
    exact hcell
  · rw [hnew]
    rfl
  · rw [hnew, hy]
    rfl

/-- The cursor that `change_coord` sends. -/
theorem changeCoord_crtc (h : InRange numRows numCols s) (c : Console) :
    (c.changeCoord s.x s.y).crtc = flatCursor s := by
  have hx := h.x_lt
  have hy := h.y_lt
  change s.x < 80 at hx
  change s.y < 25 at hy
  simp only [Console.changeCoord, flatCursor]
  apply Nat.mod_eq_of_lt
  show 80 * s.y + s.x < 65536
  omega

/-- The new line needs the row of the cursor only. -/
theorem nextLine_refines (h : Texts bg page c s) (hrow : c.screenY = s.y)
    (hrange : InRange numRows numCols s) :
    ∃ c', c.nextLine bg page = some c' ∧ Shows bg page c' (newline numRows 32 s) ∧
      OnlyCells bg page c c' := by
  have hy := hrange.y_lt
  unfold Console.nextLine
  by_cases hbottom : s.y = 24
  · rw [if_pos (by rw [hrow, hbottom]; rfl)]
    exact shiftDown_refines h hrange hbottom
  · change s.y < 25 at hy
    have hlt : s.y + 1 < numRows := by
      show s.y + 1 < 25
      omega
    have hnew : newline numRows 32 s = { s with x := 0, y := s.y + 1 } := by
      rw [newline, if_pos hlt]
    rw [if_neg (by rw [hrow]; exact hbottom), hnew]
    exact ⟨_, rfl, ⟨h, rfl, by rw [hrow], by simp [numCols], hlt⟩, ⟨fun _ _ => rfl, fun _ _ => rfl⟩⟩

theorem showChar_refines (h : Shows bg page c s) (a : UInt8) :
    ∃ c', c.showChar bg page a = some c' ∧ Shows bg page c' (put numRows numCols 32 a s) ∧
      OnlyCells bg page c c' := by
  have hx := h.range.x_lt
  have hy := h.range.y_lt
  obtain ⟨buf, hbuf, hhold⟩ := h.text
  have hcell : ¬ numRows * numCols ≤ numCols * c.screenY + c.screenX := by
    rw [h.x, h.y]
    change s.x < 80 at hx
    change s.y < 25 at hy
    show ¬ 25 * 80 ≤ 80 * s.y + s.x
    omega
  obtain ⟨c₁, hc₁, hrow, hpage, hx₁, hy₁, honly⟩ :=
    withCells_spec page hbuf (Cells.set (numCols * c.screenY + c.screenX) a)
  -- the screen with the character in it, before the cursor moves
  have htext : Texts bg page c₁ (s.setCell s.y s.x a) := by
    refine ⟨_, hrow, ?_⟩
    intro i hi
    rw [hpage, flatCell_setCell hx, ← h.x, ← h.y]
    exact hold_set hhold _ a i hi
  have hrange : InRange numRows numCols (put numRows numCols 32 a s) := h.range.feed (.put a)
  simp only [Console.showChar, if_neg hcell, hc₁, Option.bind_eq_bind, Option.bind_some]
  by_cases hend : s.x + 1 < numCols
  · have hne : ¬ c₁.screenX + 1 = numCols := by
      rw [hx₁, h.x]
      omega
    have hput : put numRows numCols 32 a s = { s.setCell s.y s.x a with x := s.x + 1 } := by
      rw [put, if_pos hend]
    rw [hput] at hrange
    rw [if_neg hne, hput]
    refine ⟨_, rfl, ⟨htext, ?_, ?_, hrange⟩, ⟨honly.mem, honly.buf⟩⟩
    · simp only [hx₁, h.x]
      exact Nat.mod_eq_of_lt hend
    · simp only [hx₁, hy₁, h.x, h.y]
      rw [Nat.mod_eq_of_lt hend, Nat.div_eq_of_lt hend, Nat.add_zero, Nat.mod_eq_of_lt hy]
      rfl
  · have heq : c₁.screenX + 1 = numCols := by
      rw [hx₁, h.x]
      omega
    have hput : put numRows numCols 32 a s = newline numRows 32 (s.setCell s.y s.x a) := by
      rw [put, if_neg hend]
    rw [if_pos heq, hput]
    -- the column is past the end of the line here, and `nextLine` does not look at it
    obtain ⟨c', hc', hshow, honly'⟩ := nextLine_refines (c := { c₁ with screenX := c₁.screenX + 1 })
      htext (hy₁.trans h.y) ⟨hx, hy⟩
    exact ⟨c', hc', hshow, honly.trans ⟨honly'.mem, honly'.buf⟩⟩

/-- `change_coord` at the present position sends it to the controller. -/
theorem changeCoord_refines {c' : Console} (h : Shows bg page c s)
    (honly : OnlyCells bg page c' c) :
    Shows bg page (c.changeCoord c.screenX c.screenY) s ∧
      (c.changeCoord c.screenX c.screenY).crtc = flatCursor s ∧
      OnlyCells bg page c' (c.changeCoord c.screenX c.screenY) := by
  refine ⟨⟨h.text, h.x, h.y, h.range⟩, ?_, ⟨honly.mem, honly.buf⟩⟩
  rw [h.x, h.y]
  exact changeCoord_crtc h.range c

theorem putc_refines (h : Shows bg page c s) (a : UInt8) :
    ∃ c', c.putc bg page a = some c' ∧ Shows bg page c' (feedText s (.putc a)) ∧
      c'.crtc = flatCursor (feedText s (.putc a)) ∧ OnlyCells bg page c c' := by
  unfold Console.putc
  by_cases hline : a = 10 ∨ a = 13
  · obtain ⟨c', hc', hshow, honly⟩ := nextLine_refines h.text h.y h.range
    have hfeed : feedText s (.putc a) = newline numRows 32 s := by
      simp only [feedText, ScreenOp.toText, if_pos hline, feed]
    simp only [if_pos hline, hc', Option.bind_eq_bind, Option.bind_some, hfeed]
    exact ⟨_, rfl, changeCoord_refines hshow honly⟩
  · obtain ⟨c', hc', hshow, honly⟩ := showChar_refines h a
    have hfeed : feedText s (.putc a) = put numRows numCols 32 a s := by
      simp only [feedText, ScreenOp.toText, if_neg hline, feed]
    simp only [if_neg hline, hc', Option.bind_eq_bind, Option.bind_some, hfeed]
    exact ⟨_, rfl, changeCoord_refines hshow honly⟩

/-- Moving the cursor by hand, as `backspacing` does. -/
theorem Shows.move (h : Shows bg page c s) {x y : Nat} (hx : x < numCols) (hy : y < numRows) :
    Shows bg page { c with screenX := x, screenY := y } { s with x := x, y := y } :=
  ⟨h.text, rfl, rfl, hx, hy⟩

/-- A blank at `(x, y)` and the cursor back on it: one round of `backspacing`. -/
theorem blankAt_refines (h : Shows bg page c s) {x y : Nat} (hx : x < numCols)
    (hy : y + 1 < numRows ∨ y < numRows ∧ x + 1 < numCols) :
    ∃ c', Console.putc bg page 32 { c with screenX := x, screenY := y } = some c' ∧
      c'.screenX = (if x + 1 < numCols then x + 1 else 0) ∧
      c'.screenY = (if x + 1 < numCols then y else y + 1) ∧
      Shows bg page { c' with screenX := x, screenY := y }
        { s.setCell y x 32 with x := x, y := y } ∧
      OnlyCells bg page c c' := by
  have hy' : y < numRows := by omega
  obtain ⟨c', hc', hshow, -, honly⟩ := putc_refines (h.move hx hy') 32
  have hfeed : feedText { s with x := x, y := y } (.putc 32) =
      { s.setCell y x 32 with
        x := if x + 1 < numCols then x + 1 else 0
        y := if x + 1 < numCols then y else y + 1 } := by
    simp only [feedText, ScreenOp.toText, feed]
    rw [if_neg (by decide)]
    by_cases hend : x + 1 < numCols
    · simp only [put, if_pos hend]
      rfl
    · have hlt : y + 1 < numRows := by omega
      simp only [put, if_neg hend, newline, setCell, if_pos hlt]
  rw [hfeed] at hshow
  exact ⟨c', hc', hshow.x, hshow.y, ⟨hshow.text, rfl, rfl, hx, hy'⟩, ⟨honly.mem, honly.buf⟩⟩

theorem backspacing_refines (h : Shows bg page c s) :
    ∃ c', c.backspacing bg page = some c' ∧ Shows bg page c' (feedText s .backspacing) ∧
      c'.crtc = flatCursor (feedText s .backspacing) ∧ OnlyCells bg page c c' := by
  have hx := h.range.x_lt
  have hy := h.range.y_lt
  have hfeed : feedText s .backspacing = backspace numCols 32 s := rfl
  rw [hfeed]
  unfold Console.backspacing
  by_cases hx0 : s.x = 0
  · by_cases hy0 : s.y = 0
    · have hback : backspace numCols 32 s = s := by
        simp [backspace, hx0, hy0]
      rw [if_neg (by rw [h.x, hx0]; simp), if_neg (by rw [h.y, hy0]; simp), hback]
      exact ⟨_, rfl, changeCoord_refines h ⟨fun _ _ => rfl, fun _ _ => rfl⟩⟩
    · have hback : backspace numCols 32 s =
          { s.setCell (s.y - 1) 79 32 with x := 79, y := s.y - 1 } := by
        simp only [backspace, hx0, ne_eq, not_true_eq_false, if_neg, hy0,
          not_false_eq_true, if_true]
        rfl
      obtain ⟨c', hc', hx', hy', hshow, honly⟩ := blankAt_refines h (x := 79) (y := s.y - 1)
        (by decide) (.inl (by omega))
      have hrow : c'.screenY - 1 = s.y - 1 := by
        rw [hy', if_neg (by decide)]
        omega
      rw [if_neg (by rw [h.x, hx0]; simp), if_pos (by rw [h.y]; exact hy0), h.y, hback]
      simp only [hc', Option.bind_eq_bind, Option.bind_some, hrow]
      exact ⟨_, rfl, changeCoord_refines hshow ⟨honly.mem, honly.buf⟩⟩
  · have hback : backspace numCols 32 s =
        { s.setCell s.y (s.x - 1) 32 with x := s.x - 1, y := s.y } := by
      rw [backspace, if_pos hx0]
      rfl
    have hlt : s.x - 1 + 1 < numCols := by omega
    obtain ⟨c', hc', hx', hy', hshow, honly⟩ := blankAt_refines h (x := s.x - 1) (y := s.y)
      (by omega) (.inr ⟨hy, hlt⟩)
    have hcol : c'.screenX - 1 = s.x - 1 := by
      rw [hx', if_pos hlt]
      omega
    rw [if_pos hlt] at hy'
    have hstart : { c with screenX := s.x - 1, screenY := s.y } =
        { c with screenX := s.x - 1 } := by
      rw [← h.y]
    have hend : { c' with screenX := s.x - 1, screenY := s.y } =
        { c' with screenX := s.x - 1 } := by
      rw [← hy']
    rw [hstart] at hc'
    rw [hend] at hshow
    rw [if_pos (by rw [h.x]; exact hx0), h.x, hback]
    simp only [hc', Option.bind_eq_bind, Option.bind_some, hcol]
    exact ⟨_, rfl, changeCoord_refines hshow ⟨honly.mem, honly.buf⟩⟩

theorem clear_refines (page : Nat) {buf : Nat → UInt8} (hbuf : c.scrBuf[bg]? = some buf) :
    ∃ c', c.clear bg page = some c' ∧ Shows bg page c' (blankScreen 32) ∧ c'.crtc = 0 ∧
      OnlyCells bg page c c' := by
  obtain ⟨c', hc', hrow, hpage, -, -, honly⟩ := withCells_spec page hbuf Cells.clear
  simp only [Console.clear, hc', Option.bind_eq_bind, Option.bind_some, Option.pure_def]
  refine ⟨_, rfl, ⟨⟨_, hrow, ?_⟩, rfl, rfl, by simp [blankScreen, numCols],
    by simp [blankScreen, numRows]⟩, rfl, ⟨honly.mem, honly.buf⟩⟩
  intro i hi
  rw [show (c'.changeCoord 0 0).mem page = c'.mem page from rfl, hpage]
  obtain ⟨hvideo, hrow'⟩ := hold_clear ⟨c.mem page, buf⟩ i hi
  have hblank : flatCell (blankScreen 32) i = 32 := rfl
  simp only [hvideo, hrow', hblank, and_self]

/-- Every screen function is defined where the cursor is on the screen, does what the operation does
    to the text screen, and leaves the cursor with the controller. -/
theorem run_refines (h : Shows bg page c s) (op : ScreenOp) :
    ∃ c', c.run bg page op = some c' ∧ Shows bg page c' (feedText s op) ∧
      c'.crtc = flatCursor (feedText s op) ∧ OnlyCells bg page c c' := by
  cases op with
  | putc a => exact putc_refines h a
  | backspacing => exact backspacing_refines h
  | clear =>
    obtain ⟨buf, hbuf, -⟩ := h.text
    exact clear_refines page hbuf

end console

end OreOS
