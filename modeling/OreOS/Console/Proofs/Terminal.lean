import OreOS.Console.Proofs.Refines
import OreOS.Keyboard
import OreOS.Machine.Trace

/-!
# The screen functions as a terminal

The calls `putc`, `puts`, `clear` and `backspacing` in any order, from a cleared screen. Besides the
text of `Shows`, the attribute byte of every cell and the registers of the controller are followed.
-/

namespace OreOS
open Machine TextScreen

/-! ## Calls -/

/-- `puts` (`lib.c:273-284`): the bytes of the string up to its NUL. -/
def Console.puts (bg page : Nat) : List UInt8 → Console → Option Console
  | [], c => some c
  | b :: s, c => if b = 0 then some c else (c.putc bg page b).bind (puts bg page s)

/-- A call of a screen function. `index` is the value of `*buff_index()` when
    `backspacing` is called. -/
inductive ScreenCall where
  | putc (c : UInt8)
  | puts (s : List UInt8)
  | clear
  | backspacing (physical : Bool) (index : Nat)
  deriving DecidableEq, Repr

/-- The call on the screen. `backspacing(1)` with an empty line is not performed. -/
def Console.call (bg page : Nat) (c : Console) : ScreenCall → Option Console
  | .putc a => c.putc bg page a
  | .puts s => c.puts bg page s
  | .clear => c.clear bg page
  | .backspacing physical index =>
      if physical ∧ index = 0 then some c else c.backspacing bg page

/-- The screen functions that the call runs. -/
def ScreenCall.ops : ScreenCall → List ScreenOp
  | .putc a => [.putc a]
  | .puts s => (s.takeWhile (· ≠ 0)).map .putc
  | .clear => [.clear]
  | .backspacing physical index => if physical ∧ index = 0 then [] else [.backspacing]

theorem puts_eq_runFrom (bg page : Nat) (s : List UInt8) (c : Console) :
    c.puts bg page s = runFrom (Console.run bg page) c ((s.takeWhile (· ≠ 0)).map .putc) := by
  induction s generalizing c with
  | nil => rfl
  | cons b s ih =>
    by_cases hb : b = 0
    · simp [Console.puts, hb]
    · simp only [Console.puts, hb, if_false, List.takeWhile_cons, ne_eq, not_false_eq_true,
        decide_true, if_true, List.map_cons, runFrom]
      exact congrArg ((c.putc bg page b).bind ·) (funext fun c => ih c)

theorem call_eq_runFrom (bg page : Nat) (c : Console) (call : ScreenCall) :
    c.call bg page call = runFrom (Console.run bg page) c call.ops := by
  cases call with
  | putc a => simp [Console.call, ScreenCall.ops, runFrom, Console.run]
  | puts s => exact puts_eq_runFrom bg page s c
  | clear => simp [Console.call, ScreenCall.ops, runFrom, Console.run]
  | backspacing physical index =>
    simp only [Console.call, ScreenCall.ops]
    split <;> simp [runFrom, Console.run]

/-- The line buffer decides the same way whether a backspace is performed. -/
theorem backspacing_ops {k k' : Keyboard} {physical : Bool} {ops : List ScreenOp}
    (h : k.backspacing physical = some (ops, k')) :
    ops = (ScreenCall.backspacing physical k.index).ops := by
  unfold Keyboard.backspacing at h
  simp only [ScreenCall.ops]
  split at h
  next hempty =>
    cases h
    rw [if_pos hempty]
  next hempty =>
    obtain ⟨l, -, hl⟩ := Option.bind_eq_some_iff.mp h
    cases hl
    rw [if_neg hempty]

/-! ## Attributes -/

/-- The attribute byte of every cell is that of `lib.c`. -/
def Cells.Painted (s : Cells) : Prop := ∀ i < numRows * numCols, s.video (2 * i + 1) = attrib

theorem set_attrib (i : Nat) (a : UInt8) (s : Cells) (j : Nat) :
    (s.set i a).video (2 * j + 1) = if j = i then attrib else s.video (2 * j + 1) := by
  simp only [Cells.set, Function.update_apply]
  by_cases hj : j = i
  · simp [hj]
  · rw [if_neg (by omega), if_neg (by omega), if_neg hj]

theorem loop_attrib (value : (Nat → UInt8) → Nat → UInt8) (n : Nat) (i : Nat) (s : Cells)
    (j : Nat) :
    (Cells.loop value n i s).video (2 * j + 1) =
      if i ≤ j ∧ j < i + n then attrib else s.video (2 * j + 1) := by
  induction n generalizing i s with
  | zero => rw [if_neg (by omega)]; rfl
  | succ n ih =>
    rw [Cells.loop, ih, set_attrib]
    by_cases hj : j = i
    · simp [hj]
    · rw [if_neg hj]
      exact if_congr (by omega) rfl rfl

theorem Cells.Painted.set {s : Cells} (h : s.Painted) (i : Nat) (a : UInt8) :
    (s.set i a).Painted := by
  intro j hj
  rw [set_attrib]
  split
  · rfl
  · exact h j hj

theorem Cells.Painted.loop {s : Cells} (h : s.Painted) (value : (Nat → UInt8) → Nat → UInt8)
    (n i : Nat) : (Cells.loop value n i s).Painted := by
  intro j hj
  rw [loop_attrib]
  split
  · rfl
  · exact h j hj

theorem painted_clear (s : Cells) : s.clear.Painted := by
  intro j hj
  rw [Cells.clear, loop_attrib, if_pos (by omega)]

theorem Cells.Painted.shiftDown {s : Cells} (h : s.Painted) : s.shiftDown.Painted :=
  (h.loop _ _ _).loop _ _ _

/-- The attribute bytes of the page. -/
def Console.Painted (page : Nat) (c : Console) : Prop :=
  ∀ i < numRows * numCols, c.mem page (2 * i + 1) = attrib

namespace Console.Painted
variable {bg page : Nat} {c c' : Console}

theorem withCells {g : Cells → Cells} (h : c.Painted page)
    (hg : ∀ s : Cells, s.Painted → (g s).Painted)
    (hc' : c.withCells bg page g = some c') : c'.Painted page := by
  simp only [Console.withCells, Option.bind_eq_bind, Option.bind_eq_some_iff, Option.pure_def,
    Option.some.injEq] at hc'
  obtain ⟨buf, -, scrBuf, -, rfl⟩ := hc'
  intro i hi
  simp only [Function.update_self]
  exact hg ⟨c.mem page, buf⟩ h i hi

theorem nextLine (h : c.Painted page) (hc' : c.nextLine bg page = some c') : c'.Painted page := by
  unfold Console.nextLine at hc'
  split at hc'
  · obtain ⟨d, hd, hd'⟩ := Option.bind_eq_some_iff.mp hc'
    cases hd'
    have hpainted := h.withCells (fun s hs => hs.shiftDown) hd
    exact hpainted
  · cases hc'
    exact h

theorem showChar {a : UInt8} (h : c.Painted page) (hc' : c.showChar bg page a = some c') :
    c'.Painted page := by
  unfold Console.showChar at hc'
  split at hc'
  · cases hc'
  · obtain ⟨d, hd, hd'⟩ := Option.bind_eq_some_iff.mp hc'
    have hpainted := h.withCells (fun s hs => hs.set _ a) hd
    simp only at hd'
    split at hd'
    · exact nextLine (c := { d with screenX := d.screenX + 1 }) hpainted hd'
    · cases hd'
      exact hpainted

theorem putc {a : UInt8} (h : c.Painted page) (hc' : c.putc bg page a = some c') :
    c'.Painted page := by
  unfold Console.putc at hc'
  split at hc' <;> obtain ⟨d, hd, hd'⟩ := Option.bind_eq_some_iff.mp hc' <;> cases hd'
  · have hpainted := h.nextLine hd
    exact hpainted
  · have hpainted := h.showChar hd
    exact hpainted

theorem backspacing (h : c.Painted page) (hc' : c.backspacing bg page = some c') :
    c'.Painted page := by
  unfold Console.backspacing at hc'
  split at hc'
  · obtain ⟨d, hd, hd'⟩ := Option.bind_eq_some_iff.mp hc'
    cases hd'
    have hpainted := putc (c := { c with screenX := c.screenX - 1 }) h hd
    exact hpainted
  · split at hc'
    · obtain ⟨d, hd, hd'⟩ := Option.bind_eq_some_iff.mp hc'
      cases hd'
      have hpainted := putc (c := { c with screenY := c.screenY - 1, screenX := 79 }) h hd
      exact hpainted
    · cases hc'
      exact h

end Console.Painted

theorem Console.painted_clear {bg page : Nat} {c c' : Console} (hc' : c.clear bg page = some c') :
    c'.Painted page := by
  simp only [Console.clear, Console.withCells, Option.bind_eq_bind, Option.bind_eq_some_iff,
    Option.pure_def, Option.some.injEq] at hc'
  obtain ⟨d, ⟨buf, -, scrBuf, -, rfl⟩, rfl⟩ := hc'
  intro i hi
  simp only [Console.changeCoord, Function.update_self]
  exact OreOS.painted_clear ⟨c.mem page, buf⟩ i hi

theorem Console.Painted.run {bg page : Nat} {c c' : Console} {op : ScreenOp} (h : c.Painted page)
    (hc' : c.run bg page op = some c') : c'.Painted page := by
  cases op with
  | putc a => exact h.putc hc'
  | backspacing => exact h.backspacing hc'
  | clear => exact Console.painted_clear hc'

/-! ## The terminal -/

/-- The console is the terminal `s`: text, attributes, cursor and controller. -/
structure Emulates (bg page : Nat) (c : Console) (s : TextScreen UInt8) : Prop extends
    Shows bg page c s where
  painted : c.Painted page
  crtc : c.crtc = flatCursor s

theorem Emulates.run {bg page : Nat} {c : Console} {s : TextScreen UInt8} (h : Emulates bg page c s)
    (op : ScreenOp) : ∃ c', c.run bg page op = some c' ∧ Emulates bg page c' (feedText s op) := by
  obtain ⟨c', hc', hshows, hcrtc, -⟩ := run_refines h.toShows op
  exact ⟨c', hc', hshows, h.painted.run hc', hcrtc⟩

/-- What a call is on the terminal. -/
def ScreenCall.toText (call : ScreenCall) : List (TextScreen.Op UInt8) :=
  call.ops.map ScreenOp.toText

/-- The terminal after the calls, from a cleared screen. -/
def terminalAfter (calls : List ScreenCall) : TextScreen UInt8 :=
  (calls.flatMap ScreenCall.toText).foldl (feed numRows numCols 32) (blankScreen 32)

theorem terminalAfter_eq (calls : List ScreenCall) :
    terminalAfter calls = (calls.flatMap ScreenCall.ops).foldl feedText (blankScreen 32) := by
  have hmap : calls.flatMap ScreenCall.toText =
      (calls.flatMap ScreenCall.ops).map ScreenOp.toText := (List.map_flatMap ..).symm
  rw [terminalAfter, hmap, List.foldl_map]
  rfl

/-- For every `bg_term` and from any state, after `clear` every sequence of calls is defined
and leaves the console as the terminal has it: the cursor on the screen, each cell of video
memory equal to `scr_buf` with attribute 7, the controller at the cursor, and the text and
cursor of the terminal. -/
theorem console_refines_terminal (bg : Fin 3) (page : Nat) (c₀ : Console) :
    ∃ c, c₀.clear bg page = some c ∧ ∀ calls : List ScreenCall,
      ∃ c', runFrom (Console.call bg page) c calls = some c' ∧
        (c'.screenX < 80 ∧ c'.screenY < 25) ∧
        (∃ buf, c'.scrBuf[bg]? = some buf ∧
          ∀ k < 2000, c'.mem page (2 * k) = buf k ∧ c'.mem page (2 * k + 1) = 7) ∧
        c'.crtc = 80 * c'.screenY + c'.screenX ∧
        c'.screenX = (terminalAfter calls).x ∧ c'.screenY = (terminalAfter calls).y ∧
        ∀ k < 2000, c'.mem page (2 * k) = (terminalAfter calls).cell (k / 80) (k % 80) := by
  have hbuf : c₀.scrBuf[bg.val]? = some c₀.scrBuf[bg.val] := Vector.getElem?_eq_getElem bg.isLt
  obtain ⟨c, hc, hshows, hcrtc, -⟩ := clear_refines page hbuf
  refine ⟨c, hc, ?_⟩
  intro calls
  have hstart : Emulates bg page c (blankScreen 32) :=
    ⟨hshows, Console.painted_clear hc, hcrtc⟩
  have hstep : ∀ (c : Console) s op, Emulates bg page c s →
      ∃ c', c.run bg page op = some c' ∧ Emulates bg page c' (feedText s op) :=
    fun _ _ op h => h.run op
  obtain ⟨c', hrun, hend⟩ := runFrom_simulates hstep (calls.flatMap ScreenCall.ops) hstart
  rw [← terminalAfter_eq] at hend
  rw [← runFrom_flatMap (call_eq_runFrom bg page)] at hrun
  obtain ⟨buf, hbuf, hhold⟩ := hend.text
  refine ⟨c', hrun, ⟨?_, ?_⟩, ⟨buf, hbuf, fun k hk => ⟨?_, hend.painted k hk⟩⟩, ?_, hend.x, hend.y,
    fun k hk => (hhold k hk).1⟩
  · rw [hend.x]
    exact hend.range.x_lt
  · rw [hend.y]
    exact hend.range.y_lt
  · exact (hhold k hk).1.trans (hhold k hk).2.symm
  · rw [hend.crtc, hend.x, hend.y]
    rfl

end OreOS
