import Mathlib.Logic.Function.Basic
import OreOS.Console
import OreOS.Lib.Strings
import OreOS.Machine.Bytes

/-!
# The keyboard and the line buffers

Model of `keyboard.c` and of the part of `backspacing` (`lib.c:60-91`) that works on a line buffer.
A key is handled in two stages: `decode` finds out what the scancode means under the modifiers,
`keyboardHandler` applies it to the line buffer of the active terminal. What goes to the screen is
returned as a list of screen operations.

`buf` has 6 rows of 1024 bytes, one after the other; an access beyond the last row is undefined.
Three bytes come from outside: `past` is what is found after the table `kbd`, which a scancode from
0x80 on reads; `junk` is the value of the local `x` of the handler before it is assigned; and the
argument of `resume` is that value in a handler that `switchTerm` has left.

`read_terminal` waits, and other code runs while it does, so it is three steps: `readStart` up to
the loop, `readWake` for the round that finds `fflag` set, and `readDone` from there on. Each step
asks for the active terminal again.

`left` and `written` are not in the source. `left` counts the handlers that `switchTerm` has left.
`written` lists the elements of `buf` that were assigned through `assign`; `keyboardStep` empties it
first, so that after a key it lists what the handler wrote.
-/

namespace OreOS
open Machine

/-- The key flags (`keyboard.h:25-28`). -/
structure Modifiers where
  capson : Bool
  shiftOn : Bool
  ctrlOn : Bool
  altOn : Bool
  deriving DecidableEq, Repr

/-- The line buffers (`keyboard.h:30-36`) and the active terminal. -/
structure Keyboard where
  mods : Modifiers
  active : Fin 6
  fflag : Bool
  buf : Nat → UInt8
  bufIndex : Fin 6 → Nat
  indEntered : Fin 6 → Word
  left : Nat
  written : List (Fin 6 × Nat)

/-- `BUF_SIZE` (`keyboard.h:21`). -/
def bufSize : Nat := 1024

/-- The bytes in all rows of `buf`. -/
def bufBytes : Nat := 6 * bufSize

/-! ## Scancodes -/

/-- The initialised part of `kbd` (`keyboard.c:9-47`); the rest of its 128 elements are zero. -/
def kbd : List UInt8 :=
  [0, 27, 49, 50, 51, 52, 53, 54, 55, 56,
    57, 48, 45, 61, 8,
    9,
    113, 119, 101, 114,
    116, 121, 117, 105, 111, 112, 91, 93, 10,
    0,
    97, 115, 100, 102, 103, 104, 106, 107, 108, 59,
    39, 96, 0,
    92, 122, 120, 99, 118, 98, 110,
    109, 44, 46, 47, 0,
    42,
    0,
    32,
    0,
    0,
    0, 0, 0, 0, 0, 0, 0, 0,
    0,
    0,
    0,
    0,
    0,
    0,
    45,
    0,
    0,
    0,
    43]

/-- `kbd[scancode]`. -/
def kbdAt (scancode past : UInt8) : UInt8 :=
  if scancode.toNat < 128 then kbd.getD scancode.toNat 0 else past

/-- `kbd_sym` (`keyboard.c:49-52`). -/
def kbdSym : Vector UInt8 21 :=
  #v[60, 95, 62, 63, 41, 33, 64,
    35, 36, 37, 94, 38, 42, 40,
    126, 43, 123, 125, 58, 124, 34]

/-- A character between `a` and `z`. -/
def isLetter (c : UInt8) : Bool := 97 ≤ c && c ≤ 122

/-- The character on the upper half of a key that is not a letter (`keyboard.c:160-204`). The
    difference `temp` is unsigned, so it is small for the characters from 44 to 57 only. -/
def shifted (c : UInt8) : Option UInt8 :=
  if 44 ≤ c ∧ c < 58 then kbdSym[c.toNat - 44]?
  else
    match c with
    | 96 => some kbdSym[14]
    | 61 => some kbdSym[15]
    | 91 => some kbdSym[16]
    | 93 => some kbdSym[17]
    | 59 => some kbdSym[18]
    | 92 => some kbdSym[19]
    | 39 => some kbdSym[20]
    | _ => none

/-- What the handler does with a key. -/
inductive KeyAction where
  | modify (m : Modifiers)
  | backspace
  | tab
  | switchTerm (t : Fin 6)
  /-- The store of `keyboard.c:213-218`. -/
  | char (x : UInt8)
  | ignore
  deriving DecidableEq, Repr

/-- The branch for scancodes up to 0x80 (`keyboard.c:130-218`): what it shows and what it does. With
    Caps Lock the upper-case letter is only shown; the branch without Shift shows and stores the
    other one as well. -/
def decodeChar (m : Modifiers) (scancode past junk : UInt8) : List ScreenOp × KeyAction :=
  let c := kbdAt scancode past
  let caps := m.capson && isLetter c
  let x := if caps then c - 32 else junk
  let shown : List ScreenOp := if caps then [.putc x] else []
  if m.altOn then
    if h : 0x3B ≤ scancode.toNat ∧ scancode.toNat - 0x3B < 6 then
      (shown, .switchTerm ⟨scancode.toNat - 0x3B, h.2⟩)
    else (shown, .ignore)
  else if m.shiftOn then
    if isLetter c then (shown ++ [.putc (c - 32)], .char (c - 32))
    else
      match shifted c with
      | some y => (shown ++ [.putc y], .char y)
      | none => (shown, .char x)
  else (shown ++ [.putc c], .char c)

/-- The tests of `keyboard_handler` on the scancode, in their order (`keyboard.c:65-130`). -/
def decode (m : Modifiers) (scancode past junk : UInt8) : List ScreenOp × KeyAction :=
  if scancode = 0x3A then ([], .modify { m with capson := !m.capson })
  else if scancode = 0x2A ∨ scancode = 0x36 then ([], .modify { m with shiftOn := true })
  else if scancode = 0xAA ∨ scancode = 0xB6 then ([], .modify { m with shiftOn := false })
  else if scancode = 0x1D ∨ scancode = 0xE0 then ([], .modify { m with ctrlOn := true })
  else if scancode = 0x9D then ([], .modify { m with ctrlOn := false })
  else if scancode = 0x38 then ([], .modify { m with altOn := true })
  else if scancode = 0xB8 then ([], .modify { m with altOn := false })
  else if scancode = 0x0E then ([], .backspace)
  else if scancode = 0x0F then (List.replicate 4 (.putc 32), .tab)
  else if m.ctrlOn ∧ kbdAt scancode past = 108 then ([.clear], .ignore)
  else if scancode ≤ 0x80 then decodeChar m scancode past junk
  else ([], .ignore)

/-! ## Line buffers -/

namespace Keyboard

/-- The place of `buf[t][i]` in `buf`. -/
def offset (t : Fin 6) (i : Nat) : Nat := bufSize * t + i

/-- The element `buf[t][i]`. -/
def row (k : Keyboard) (t : Fin 6) (i : Nat) : UInt8 := k.buf (offset t i)

/-- The characters of terminal `t` that are waiting in its row. -/
def text (k : Keyboard) (t : Fin 6) : List UInt8 := slice (k.row t) 0 (k.bufIndex t)

/-- The index of the active terminal. -/
def index (k : Keyboard) : Nat := k.bufIndex k.active

/-- `buf[active][i] = x`. -/
def assign (i : Nat) (x : UInt8) (k : Keyboard) : Option Keyboard :=
  if offset k.active i < bufBytes then
    some { k with
      buf := Function.update k.buf (offset k.active i) x
      written := k.written ++ [(k.active, i)] }
  else none

/-- `buf_index[active] = i`. -/
def setIndex (i : Nat) (k : Keyboard) : Keyboard :=
  { k with bufIndex := Function.update k.bufIndex k.active i }

/-- The assignment at the index, and its increment. -/
def push (x : UInt8) (k : Keyboard) : Option Keyboard := do
  let k' ← k.assign k.index x
  return k'.setIndex (k.index + 1)

/-- `check_buf(0, ' ')` with `n` rounds of its loop left (`keyboard.c:253-258`). -/
def pushBlanks : Nat → Keyboard → Option Keyboard
  | 0, k => some k
  | n + 1, k => (k.push 32).bind (pushBlanks n)

/-- `check_buf(1, x)` (`keyboard.c:260-269`). -/
def checkBuf (x : UInt8) (k : Keyboard) : List ScreenOp × Keyboard :=
  if x = 10 then
    (if k.index = bufSize - 1 ∧ k.fflag = false then [.putc 10] else [],
      { k with
        indEntered := Function.update k.indEntered k.active (BitVec.ofNat 32 k.index)
        fflag := true })
  else ([], k)

/-- `keyboard.c:213-218`. -/
def storeChar (x : UInt8) (k : Keyboard) : Option (List ScreenOp × Keyboard) := do
  let k ← if k.index ≠ 127 then k.push x else some k
  return k.checkBuf x

/-- `backspacing` (`lib.c:60-91`). The index is decremented as a signed number and negative values
    become zero. -/
def backspacing (physical : Bool) (k : Keyboard) : Option (List ScreenOp × Keyboard) :=
  if physical ∧ k.index = 0 then some ([], k)
  else do
    let k ← (k.setIndex (k.index - 1)).assign (k.index - 1) 32
    return ([.backspacing], k)

/-- `init_buffers` (`keyboard.c:236-242`). -/
def initBuffers (k : Keyboard) : Keyboard :=
  { k with bufIndex := fun _ => 0, indEntered := fun _ => 0 }

/-- `clear_buffer` (`keyboard.c:332-342`), with the bytes it copies to the caller's buffer. -/
def clearBuffer (n : Int) (k : Keyboard) : Option (List UInt8 × Keyboard) := do
  let data ← strcpy (k.row k.active) (bufBytes - offset k.active 0)
  if (bufBytes : Int) < offset k.active 0 + n then none
  else
    let k' := { k with
      buf := fun a =>
        if offset k.active 0 ≤ a ∧ (a : Int) < offset k.active 0 + n then 32 else k.buf a }
    return (data, k'.setIndex 0)

/-- `read_terminal` up to the loop (`keyboard.c:280-281`). -/
def readStart (nbytes : Int) (k : Keyboard) : Keyboard :=
  { k.setIndex 0 with
    indEntered := Function.update k.indEntered k.active (BitVec.ofInt 32 nbytes) }

/-- One round of the loop, and the assignment after it when it ends (`keyboard.c:283-285`). -/
def readWake (k : Keyboard) : Keyboard := if k.fflag then { k with fflag := false } else k

/-- The rest of `read_terminal` (`keyboard.c:286-287`): the value returned and the bytes stored. -/
def readDone (nbytes : Int) (k : Keyboard) : Option (Int × List UInt8 × Keyboard) := do
  let (data, k') ← k.clearBuffer nbytes
  return ((k'.indEntered k'.active).toInt, data, k')

/-- `write_terminal` (`keyboard.c:297-308`), which returns `nbytes`. It shows one character more
    than that and takes it back. -/
def writeTerminal (buf1 : Nat → UInt8) (nbytes : Int) (k : Keyboard) :
    Option (List ScreenOp × Keyboard) := do
  let shown := (List.range (nbytes + 1).toNat).map fun i => ScreenOp.putc (buf1 i)
  let (back, k) ← if nbytes ≠ bufSize - 1 then k.backspacing false else some ([], k)
  return (shown ++ back, k.setIndex 0)

end Keyboard

/-- `keyboard_handler` (`keyboard.c:60-226`). -/
def keyboardHandler (scancode past junk : UInt8) (k : Keyboard) :
    Option (List ScreenOp × Keyboard) :=
  let (shown, action) := decode k.mods scancode past junk
  match action with
  | .modify m => some (shown, { k with mods := m })
  | .backspace => k.backspacing true
  | .tab => (k.pushBlanks 4).map fun k => (shown, k)
  | .switchTerm t => some (shown, { k with active := t, left := k.left + 1 })
  | .char x => (k.storeChar x).map fun (more, k) => (shown ++ more, k)
  | .ignore => some (shown, k)

/-- What happens to the keyboard and its buffers. -/
inductive KeyboardEvent where
  | key (scancode past junk : UInt8)
  /-- The end of a handler that `switchTerm` has left; nothing, when there is none. -/
  | resume (x : UInt8)
  | readStart (nbytes : Int)
  | readWake
  | readDone (nbytes : Int)
  | write (buf1 : Nat → UInt8) (nbytes : Int)

/-- One event. It is undefined where an access leaves `buf`. -/
def keyboardStep (k : Keyboard) (e : KeyboardEvent) : Option Keyboard :=
  let k := { k with written := [] }
  match e with
  | .key scancode past junk => (keyboardHandler scancode past junk k).map Prod.snd
  | .resume x =>
      if k.left = 0 then some k
      else ({ k with left := k.left - 1 }.storeChar x).map Prod.snd
  | .readStart nbytes => some (k.readStart nbytes)
  | .readWake => some k.readWake
  | .readDone nbytes => (k.readDone nbytes).map fun r => r.2.2
  | .write buf1 nbytes => (k.writeTerminal buf1 nbytes).map fun r => { r.2 with written := [] }

/-- The keyboard after `init_buffers`, over zeroed globals. -/
def bootKeyboard : Keyboard :=
  Keyboard.initBuffers
    { mods := ⟨false, false, false, false⟩
      active := 0
      fflag := false
      buf := fun _ => 0
      bufIndex := fun _ => 0
      indEntered := fun _ => 0
      left := 0
      written := [] }

/-- The terminal that is active at boot. -/
abbrev firstTerm : Fin 6 := 0

end OreOS
