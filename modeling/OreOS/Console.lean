import Mathlib.Logic.Function.Basic
import OreOS.Machine.Cells

/-!
# The text console

Model of the screen functions of `lib.c`. Output goes to the virtual page 0xB8000, 25 rows of 80
cells of two bytes each, and to `scr_buf[bg_term]`, from which `shift_down` redraws. Which
physical page is behind 0xB8000 is up to the page table, so the functions here take it as the
argument `page`; `bg` is the value of `bg_term`, which does not change while they run. Physical
memory is a function of page number and offset, and the CRT controller's two cursor registers
are one sixteen-bit number.
-/

namespace OreOS
open Machine

/-- `NUM_COLS` (`lib.c:10`). -/
def numCols : Nat := 80

/-- `NUM_ROWS` (`lib.c:11`). -/
def numRows : Nat := 25

/-- `ATTRIB` (`lib.c:12`), light grey on black. -/
def attrib : UInt8 := 0x7

/-- The globals of `lib.c:14-17`, physical memory by page, and the cursor position that was last
    sent to the CRT controller. -/
structure Console where
  screenX : Nat
  screenY : Nat
  scrBuf : Vector (Nat → UInt8) 3
  mem : Nat → Nat → UInt8
  crtc : Nat

/-- The two places that a cell is written to: the bytes of the video page and a
    row of `scr_buf`. -/
structure Cells where
  video : Nat → UInt8
  buf : Nat → UInt8

/-- The three assignments for cell `i`: character, attribute, copy in `scr_buf`. -/
def Cells.set (i : Nat) (c : UInt8) (s : Cells) : Cells where
  video := Function.update (Function.update s.video (2 * i) c) (2 * i + 1) attrib
  buf := Function.update s.buf i c

/-- A loop over the cells from `i` on, `n` of them, that sets each to a value computed from the
    present contents of `scr_buf`. -/
def Cells.loop (value : (Nat → UInt8) → Nat → UInt8) : Nat → Nat → Cells → Cells
  | 0, _, s => s
  | n + 1, i, s => loop value n (i + 1) (s.set i (value s.buf i))

/-- The two loops of `shift_down` (`lib.c:104-114`). -/
def Cells.shiftDown (s : Cells) : Cells :=
  let s := Cells.loop (fun buf i => buf (i + numCols)) (24 * numCols) 0 s
  Cells.loop (fun _ _ => 32) (numRows * numCols - 24 * numCols) (24 * numCols) s

/-- The loop of `clear` (`lib.c:129-133`). -/
def Cells.clear (s : Cells) : Cells := Cells.loop (fun _ _ => 32) (numRows * numCols) 0 s

namespace Console

/-- Run `g` on the video page and on `scr_buf[bg]`. -/
def withCells (bg page : Nat) (g : Cells → Cells) (s : Console) : Option Console := do
  let buf ← s.scrBuf[bg]?
  let cells := g ⟨s.mem page, buf⟩
  let scrBuf ← store s.scrBuf bg cells.buf
  return { s with mem := Function.update s.mem page cells.video, scrBuf := scrBuf }

/-- `change_coord_silent` (`lib.c:48-51`). -/
def changeCoordSilent (x y : Nat) (s : Console) : Console := { s with screenX := x, screenY := y }

/-- `change_coord` (`lib.c:31-46`). -/
def changeCoord (x y : Nat) (s : Console) : Console :=
  { s with screenX := x, screenY := y, crtc := (numCols * y + x) % 65536 }

/-- `shift_down` (`lib.c:101-117`). -/
def shiftDown (bg page : Nat) (s : Console) : Option Console := do
  let s ← s.withCells bg page Cells.shiftDown
  return s.changeCoord 0 24

/-- `clear` (`lib.c:125-136`). -/
def clear (bg page : Nat) (s : Console) : Option Console := do
  let s ← s.withCells bg page Cells.clear
  return s.changeCoord 0 0

/-- The move to the next line that `putc` makes for a new line and at the end of a line
    (`lib.c:296-301` and `lib.c:310-316`). -/
def nextLine (bg page : Nat) (s : Console) : Option Console :=
  if s.screenY = numRows - 1 then s.shiftDown bg page
  else some { s with screenX := 0, screenY := s.screenY + 1 }

/-- The branch of `putc` for a character that is shown (`lib.c:303-322`). A cell outside `scr_buf`
    is undefined. -/
def showChar (bg page : Nat) (c : UInt8) (s : Console) : Option Console :=
  if numRows * numCols ≤ numCols * s.screenY + s.screenX then none
  else do
    let s ← s.withCells bg page (Cells.set (numCols * s.screenY + s.screenX) c)
    let s := { s with screenX := s.screenX + 1 }
    if s.screenX = numCols then s.nextLine bg page
    else
      let s := { s with screenX := s.screenX % numCols }
      return { s with screenY := (s.screenY + s.screenX / numCols) % numRows }

/-- `putc` (`lib.c:292-326`). -/
def putc (bg page : Nat) (c : UInt8) (s : Console) : Option Console := do
  let s ← if c = 10 ∨ c = 13 then s.nextLine bg page else s.showChar bg page c
  return s.changeCoord s.screenX s.screenY

/-- What `backspacing` (`lib.c:60-91`) does to the screen. It also drops a character of the line
    buffer, which no screen function reads. -/
def backspacing (bg page : Nat) (s : Console) : Option Console := do
  let s ←
    if s.screenX ≠ 0 then do
      let s ← putc bg page 32 { s with screenX := s.screenX - 1 }
      some { s with screenX := s.screenX - 1 }
    else if s.screenY ≠ 0 then do
      let s ← putc bg page 32 { s with screenY := s.screenY - 1, screenX := 79 }
      some { s with screenY := s.screenY - 1, screenX := 79 }
    else some s
  return s.changeCoord s.screenX s.screenY

/-- `memcpy` of a whole page. -/
def copyPage (dst src : Nat) (s : Console) : Console :=
  { s with mem := Function.update s.mem dst (s.mem src) }

end Console

/-- A screen function that a program or the keyboard handler calls. -/
inductive ScreenOp where
  | putc (c : UInt8)
  | backspacing
  | clear
  deriving DecidableEq, Repr

/-- One screen function. It is undefined where `bg` has no row in `scr_buf`. -/
def Console.run (bg page : Nat) (s : Console) : ScreenOp → Option Console
  | .putc c => s.putc bg page c
  | .backspacing => s.backspacing bg page
  | .clear => s.clear bg page

end OreOS
