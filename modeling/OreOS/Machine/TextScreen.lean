import Mathlib.Tactic.Common

/-!
# Text screens

A text screen of `rows` by `cols` cells with a cursor, and the operations of a terminal on it:
writing at the cursor, going to a new line, erasing backwards, clearing. The bottom line scrolls.
Cells are indexed by row and column; only those inside the screen matter.
-/

namespace OreOS.Machine

variable {α : Type}

/-- A screen with its cursor in column `x` of row `y`. -/
structure TextScreen (α : Type) where
  cell : Nat → Nat → α
  x : Nat
  y : Nat

namespace TextScreen

/-- What can be fed to a screen. -/
inductive Op (α : Type) where
  | put (a : α)
  | newline
  | backspace
  | clear
  deriving DecidableEq, Repr

/-- The screen with the cell in row `r`, column `c` set to `a`. -/
def setCell (r c : Nat) (a : α) (s : TextScreen α) : TextScreen α :=
  { s with cell := fun i j => if i = r ∧ j = c then a else s.cell i j }

section
variable (rows cols : Nat) (blank : α)

/-- An empty screen, with the cursor at its start. -/
def blankScreen : TextScreen α := ⟨fun _ _ => blank, 0, 0⟩

/-- The cursor goes to the start of the next row. On the last row the screen scrolls. -/
def newline (s : TextScreen α) : TextScreen α :=
  if s.y + 1 < rows then { s with x := 0, y := s.y + 1 }
  else { s with cell := fun i j => if i + 1 < rows then s.cell (i + 1) j else blank, x := 0 }

/-- `a` goes into the cell of the cursor, and the cursor to the next cell. -/
def put (a : α) (s : TextScreen α) : TextScreen α :=
  let s' := s.setCell s.y s.x a
  if s.x + 1 < cols then { s' with x := s.x + 1 } else newline rows blank s'

/-- The cursor goes back by a cell, which becomes blank. -/
def backspace (s : TextScreen α) : TextScreen α :=
  if s.x ≠ 0 then { s.setCell s.y (s.x - 1) blank with x := s.x - 1 }
  else if s.y ≠ 0 then { s.setCell (s.y - 1) (cols - 1) blank with x := cols - 1, y := s.y - 1 }
  else s

/-- One operation on a screen. -/
def feed (s : TextScreen α) : Op α → TextScreen α
  | .put a => put rows cols blank a s
  | .newline => newline rows blank s
  | .backspace => backspace cols blank s
  | .clear => blankScreen blank

end

/-- The cursor is inside the screen. -/
structure InRange (rows cols : Nat) (s : TextScreen α) : Prop where
  x_lt : s.x < cols
  y_lt : s.y < rows

variable {rows cols : Nat} {blank : α} {s : TextScreen α}

theorem InRange.newline (h : InRange rows cols s) : InRange rows cols (newline rows blank s) := by
  have hx := h.x_lt
  have hy := h.y_lt
  unfold TextScreen.newline
  split
  next hlt => exact ⟨by simp only; omega, hlt⟩
  next => exact ⟨by simp only; omega, hy⟩

/-- No operation moves the cursor out of the screen. -/
theorem InRange.feed (h : InRange rows cols s) (op : Op α) :
    InRange rows cols (feed rows cols blank s op) := by
  have hx := h.x_lt
  have hy := h.y_lt
  cases op with
  | put a =>
    simp only [TextScreen.feed, TextScreen.put]
    split
    next hlt => exact ⟨hlt, hy⟩
    next => exact InRange.newline (s := s.setCell s.y s.x a) ⟨hx, hy⟩
  | newline => exact h.newline
  | backspace =>
    simp only [TextScreen.feed, TextScreen.backspace]
    split
    next => exact ⟨by simp only; omega, hy⟩
    next =>
      split
      next => exact ⟨by simp only; omega, by simp only; omega⟩
      next => exact h
  | clear => exact ⟨by simp only [TextScreen.feed, blankScreen]; omega,
      by simp only [TextScreen.feed, blankScreen]; omega⟩

end TextScreen

end OreOS.Machine
