import Mathlib.Data.List.Basic
import OreOS.Console.Proofs.Refines
import OreOS.Keyboard.Proofs.Steps
import OreOS.Machine.Trace

/-!
# What is echoed and what is stored

The branches of `keyboard_handler` echo on their own, and the store behind them is common to all of
them. Here the line buffer of the one terminal runs next to the screen. The history is a log of the
echoes: for every character that was put on the screen for the line, and not taken back, the place
where its echo starts. Places count rows from the start of the run, so that they stay the same when
the screen scrolls.

Echo and store come apart where a branch echoes twice, where it echoes and nothing is stored, where
it stores a character that was never echoed, and where `backspacing` goes to another place than the
one the character was echoed at.
-/

namespace OreOS
open Machine Keyboard TextScreen

/-! ## The line and the screen -/

/-- `keyboardStep` with what it puts on the screen. -/
def Keyboard.respond (k : Keyboard) (e : KeyboardEvent) : Option (List ScreenOp × Keyboard) :=
  let k := { k with written := [] }
  match e with
  | .key scancode past junk => keyboardHandler scancode past junk k
  | .resume x => if k.left = 0 then some ([], k) else { k with left := k.left - 1 }.storeChar x
  | .readStart nbytes => some ([], k.readStart nbytes)
  | .readWake => some ([], k.readWake)
  | .readDone nbytes => (k.readDone nbytes).map fun r => ([], r.2.2)
  | .write buf1 nbytes => (k.writeTerminal buf1 nbytes).map fun r =>
  (r.1, { r.2 with written := [] })

theorem keyboardStep_eq_respond (k : Keyboard) (e : KeyboardEvent) :
    keyboardStep k e = (k.respond e).map Prod.snd := by
  cases e with
  | resume x =>
    simp only [keyboardStep, Keyboard.respond]
    split <;> rfl
  | readDone nbytes => simp [keyboardStep, Keyboard.respond, Function.comp_def]
  | write buf1 nbytes => simp [keyboardStep, Keyboard.respond, Function.comp_def]
  | _ => rfl

/-- Row and column, with the rows counted from the start of the run. -/
abbrev Place := Nat × Nat

/-- Where `putc` leaves the cursor. -/
def nextPlace (p : Place) (c : UInt8) : Place :=
  if c = 10 ∨ c = 13 ∨ p.2 + 1 = numCols then (p.1 + 1, 0) else (p.1, p.2 + 1)

theorem nextPlace_wrap {p : Place} {c : UInt8} (h : c = 10 ∨ c = 13 ∨ p.2 + 1 = numCols) :
    nextPlace p c = (p.1 + 1, 0) := if_pos h

theorem nextPlace_stay {p : Place} {c : UInt8} (h : ¬ (c = 10 ∨ c = 13 ∨ p.2 + 1 = numCols)) :
    nextPlace p c = (p.1, p.2 + 1) := if_neg h

/-- The keyboard and the screen of the one terminal. `scrolled` counts the rows that have
    left the screen. `log` has the echoes of the line, the last one first; an echo that was
    cleared has no place. -/
structure EchoState where
  kbd : Keyboard
  screen : TextScreen UInt8
  scrolled : Nat
  log : List (UInt8 × Option Place)

namespace EchoState

/-- The characters that are waiting in the row. -/
def line (s : EchoState) : List UInt8 := s.kbd.text firstTerm

/-- The place of the cursor. -/
def place (s : EchoState) : Place := (s.scrolled + s.screen.y, s.screen.x)

/-- One screen operation of the handler. -/
def display (s : EchoState) (op : ScreenOp) : EchoState :=
  let s' := { s with screen := feedText s.screen op }
  match op with
  | .putc c =>
      { s' with
        scrolled := if s.screen.y + 1 = numRows ∧ (c = 10 ∨ c = 13 ∨ s.screen.x + 1 = numCols) then
          s.scrolled + 1 else s.scrolled
        log := (c, some s.place) :: s.log }
  | .backspacing => { s' with log := s.log.tail }
  | .clear => { s' with log := s.log.map fun e => (e.1, none) }

end EchoState

/-- Reads and writes start a new line. -/
def KeyboardEvent.keepsLine : KeyboardEvent → Bool
  | .key .. => true
  | .resume _ => true
  | .readWake => true
  | _ => false

/-- One event and what it shows. -/
def echoStep (s : EchoState) (e : KeyboardEvent) : Option EchoState := do
  let (ops, kbd) ← s.kbd.respond e
  let s' := ops.foldl EchoState.display s
  return { s' with kbd := kbd, log := if e.keepsLine then s'.log else [] }

/-- A screen before anything is typed. -/
def startEcho (screen : TextScreen UInt8) : EchoState := ⟨bootKeyboard, screen, 0, []⟩

/-! ## The property and the condition -/

/-- What a key does to the line it does to the screen: it stores and echoes the same
    characters, as long as there is room for them; or it removes the last character, and the
    cursor returns to the place where this one was echoed and blanks the cell; or it clears
    the screen and not the line. -/
inductive Echoed (s : EchoState) (ops : List ScreenOp) (s' : EchoState) : Prop where
  | typed (xs : List UInt8) (hline : s'.line = s.line ++ xs) (hops : ops = xs.map .putc)
      (hroom : xs ≠ [] → s'.line.length ≤ 127)
  | erased (c : UInt8) (hline : s.line = s'.line ++ [c]) (hops : ops = [.backspacing])
      (hecho : s.log.head? = some (c, some s'.place))
      (hcell : s'.screen.cell = (s.screen.setCell s'.screen.y s'.screen.x 32).cell)
  | cleared (hline : s'.line = s.line) (hops : ops = [.clear])

/-- Every key, and the rest of a handler that `switchTerm` has left. -/
def EchoExact (s : EchoState) (e : KeyboardEvent) (s' : EchoState) : Prop :=
  match e with
  | .key .. => ∀ ops kbd, s.kbd.respond e = some (ops, kbd) → Echoed s ops s'
  | .resume _ => ∀ ops kbd, s.kbd.respond e = some (ops, kbd) → Echoed s ops s'
  | _ => True

/-- The scancodes of the modifier keys. -/
def modifierCodes : List UInt8 := [0x3A, 0x2A, 0x36, 0xAA, 0xB6, 0x1D, 0xE0, 0x9D, 0x38, 0xB8]

/-- The last character was echoed after the screen was last cleared, a new line in the last column,
    and the cursor is not at the top left, where `backspacing` leaves it. -/
def EchoState.Erasable (s : EchoState) : Prop :=
  match s.log with
  | (c, some p) :: _ =>
      (c = 10 ∨ c = 13 → p.2 + 1 = numCols) ∧ ¬ (s.screen.x = 0 ∧ s.screen.y = 0)
  | _ => False

instance (s : EchoState) : Decidable s.Erasable := by
  unfold EchoState.Erasable
  split <;> infer_instance

/-- A letter of which Caps Lock shows the upper case. -/
def capsLetter (m : Modifiers) (c : UInt8) : Bool := m.capson && isLetter c

/-- When a key is echoed as it is stored. A character must not be a letter under Caps Lock and must
    find room, but for a key without a character on its upper half: under Shift this one must not
    find room. Tab must find room for four characters. -/
def KeyEchoes (s : EchoState) (scancode past : UInt8) : Prop :=
  let m := s.kbd.mods
  let c := kbdAt scancode past
  if scancode ∈ modifierCodes then True
  else if scancode = 0x0E then s.kbd.index = 0 ∨ s.Erasable
  else if scancode = 0x0F then s.kbd.index + 4 ≤ 127
  else if m.ctrlOn ∧ c = 108 then True
  else if 0x80 < scancode then True
  else if m.altOn then capsLetter m c = false
  else if m.shiftOn ∧ isLetter c = false then (shifted c).isSome ↔ s.kbd.index < 127
  else capsLetter m c = false ∧ s.kbd.index < 127

instance (s : EchoState) (scancode past : UInt8) : Decidable (KeyEchoes s scancode past) := by
  unfold KeyEchoes
  infer_instance

/-- The same for every step: the handler that goes on after `switchTerm` must not find room. -/
def StepEchoes (s : EchoState) : KeyboardEvent → Prop
  | .key scancode past _ => KeyEchoes s scancode past
  | .resume _ => s.kbd.left = 0 ∨ s.kbd.index = 127
  | _ => True

instance decidableStepEchoes (s : EchoState) : ∀ e, Decidable (StepEchoes s e)
  | .key scancode past _ => inferInstanceAs (Decidable (KeyEchoes s scancode past))
  | .resume _ => inferInstanceAs (Decidable (s.kbd.left = 0 ∨ s.kbd.index = 127))
  | .readStart _ => isTrue trivial
  | .readWake => isTrue trivial
  | .readDone _ => isTrue trivial
  | .write _ _ => isTrue trivial

/-- No key that changes to another terminal. -/
def OneTerminal (s : EchoState) : KeyboardEvent → Prop
  | .key scancode past junk => ∀ t, (decode s.kbd.mods scancode past junk).2 = .switchTerm t →
  t = firstTerm
  | _ => True

instance decidableOneTerminal (s : EchoState) : ∀ e, Decidable (OneTerminal s e)
  | .key scancode past junk =>
      inferInstanceAs (Decidable (∀ t, (decode s.kbd.mods scancode past junk).2 = .switchTerm t →
        t = firstTerm))
  | .resume _ => isTrue trivial
  | .readStart _ => isTrue trivial
  | .readWake => isTrue trivial
  | .readDone _ => isTrue trivial
  | .write _ _ => isTrue trivial

/-! ## The screen and the log -/

/-- Every echo starts where the one before it left the cursor, as far back as the last clearing. -/
def LogOk : List (UInt8 × Option Place) → Place → Prop
  | [], _ => True
  | (_, none) :: _, _ => True
  | (c, some p) :: log, q => q = nextPlace p c ∧ LogOk log p

/-- The cursor is on the screen and the log leads to it. -/
structure ScreenOk (s : EchoState) : Prop where
  range : InRange numRows numCols s.screen
  log : LogOk s.log s.place

theorem logOk_cleared (log : List (UInt8 × Option Place)) (p : Place) :
    LogOk (log.map fun e => (e.1, none)) p := by
  cases log <;> trivial

section display
variable {s : EchoState}

theorem display_putc_place (h : InRange numRows numCols s.screen) (c : UInt8) :
    (s.display (.putc c)).place = nextPlace s.place c := by
  have hx := h.x_lt
  have hy := h.y_lt
  by_cases hline : c = 10 ∨ c = 13
  · have hwrap : c = 10 ∨ c = 13 ∨ s.screen.x + 1 = numCols := by tauto
    have hnext : nextPlace s.place c = (s.place.1 + 1, 0) := if_pos (by tauto)
    rw [hnext]
    simp only [EchoState.display, EchoState.place, feedText, ScreenOp.toText, if_pos hline,
      feed, newline, hwrap, and_true]
    by_cases hlast : s.screen.y + 1 = numRows
    · rw [if_pos hlast, if_neg (by omega)]
      exact Prod.ext (by simp only; omega) rfl
    · rw [if_neg hlast, if_pos (by omega)]
      rfl
  · have hcond : (c = 10 ∨ c = 13 ∨ s.screen.x + 1 = numCols) ↔ s.screen.x + 1 = numCols := by tauto
    have hput : feedText s.screen (.putc c) = TextScreen.put numRows numCols 32 c s.screen := by
      simp only [feedText, ScreenOp.toText, if_neg hline, feed]
    simp only [EchoState.display, EchoState.place, hput, hcond, nextPlace]
    by_cases hend : s.screen.x + 1 = numCols
    · have hnew : TextScreen.put numRows numCols 32 c s.screen =
          newline numRows 32 (s.screen.setCell s.screen.y s.screen.x c) := by
        rw [TextScreen.put, if_neg (by omega)]
      have hsety : (s.screen.setCell s.screen.y s.screen.x c).y = s.screen.y := rfl
      rw [hnew, if_pos hend]
      simp only [newline, hsety, hend, and_true]
      by_cases hlast : s.screen.y + 1 = numRows
      · rw [if_pos hlast, if_neg (by omega)]
        exact Prod.ext (by simp only; omega) rfl
      · rw [if_neg hlast, if_pos (by omega)]
        rfl
    · have hstay : TextScreen.put numRows numCols 32 c s.screen =
          { s.screen.setCell s.screen.y s.screen.x c with x := s.screen.x + 1 } := by
        rw [TextScreen.put, if_pos (by omega)]
      rw [hstay, if_neg hend, if_neg (fun hand => hend hand.2)]
      rfl

theorem ScreenOk.putc (h : ScreenOk s) (c : UInt8) : ScreenOk (s.display (.putc c)) where
  range := h.range.feed _
  log := ⟨display_putc_place h.range c, h.log⟩

/-- Characters one after the other. -/
theorem ScreenOk.putcs (h : ScreenOk s) (xs : List UInt8) :
    ScreenOk ((xs.map ScreenOp.putc).foldl EchoState.display s) ∧
      (((xs.map ScreenOp.putc).foldl EchoState.display s).log.map Prod.fst).reverse =
        (s.log.map Prod.fst).reverse ++ xs := by
  induction xs generalizing s with
  | nil => exact ⟨h, by simp⟩
  | cons x xs ih =>
    obtain ⟨hok, hlog⟩ := ih (h.putc x)
    refine ⟨hok, ?_⟩
    have hhead : (s.display (.putc x)).log = (x, some s.place) :: s.log := rfl
    rw [List.map_cons, List.foldl_cons, hlog, hhead]
    simp

theorem ScreenOk.clear (h : ScreenOk s) : ScreenOk (s.display .clear) where
  range := h.range.feed TextScreen.Op.clear
  log := logOk_cleared _ _

/-- Where `backspacing` takes the cursor. -/
theorem display_backspacing_place (s : EchoState) : (s.display .backspacing).place =
    if s.screen.x ≠ 0 then (s.scrolled + s.screen.y, s.screen.x - 1)
    else if s.screen.y ≠ 0 then (s.scrolled + (s.screen.y - 1), 79) else (s.scrolled, 0) := by
  simp only [EchoState.display, EchoState.place, feedText, ScreenOp.toText, feed,
    TextScreen.backspace]
  by_cases hx : s.screen.x = 0
  · by_cases hy : s.screen.y = 0
    · simp [hx, hy]
    · simp [hx, hy, numCols]
  · simp [hx, TextScreen.setCell]

/-- It blanks the cell it goes to, if it moves at all. -/
theorem display_backspacing_cell (h : ¬ (s.screen.x = 0 ∧ s.screen.y = 0)) :
    (s.display .backspacing).screen.cell = (s.screen.setCell (s.display .backspacing).screen.y
      (s.display .backspacing).screen.x 32).cell := by
  simp only [EchoState.display, feedText, ScreenOp.toText, feed, TextScreen.backspace]
  by_cases hx : s.screen.x = 0
  · have hy : s.screen.y ≠ 0 := fun hy => h ⟨hx, hy⟩
    simp [hx, hy, TextScreen.setCell]
  · simp [hx, TextScreen.setCell]

/-- `backspacing` returns to the place of the last echo exactly if this one can be erased. -/
theorem erasable_iff (h : ScreenOk s) :
    s.Erasable ↔ ∃ c, s.log.head? = some (c, some (s.display .backspacing).place) := by
  have hx := h.range.x_lt
  have hlog := h.log
  unfold EchoState.Erasable
  rcases hs : s.log with _ | ⟨⟨c, _ | p⟩, log⟩
  · simp
  · simp
  rw [hs] at hlog
  have hplace := hlog.1
  simp only [List.head?_cons, Option.some.injEq, Prod.mk.injEq, exists_eq_left']
  rw [display_backspacing_place]
  obtain ⟨r, col⟩ := p
  change s.screen.x < 80 at hx
  by_cases hwrap : c = 10 ∨ c = 13 ∨ col + 1 = numCols
  · rw [nextPlace_wrap hwrap, EchoState.place, Prod.mk.injEq] at hplace
    obtain ⟨hrow, hcol⟩ := hplace
    rw [if_neg (not_not.mpr hcol)]
    simp only [numCols] at hwrap ⊢
    by_cases hy : s.screen.y = 0
    · rw [if_neg (not_not.mpr hy), Prod.mk.injEq]
      constructor
      · rintro ⟨-, hcorner⟩
        exact absurd ⟨hcol, hy⟩ hcorner
      · rintro ⟨hr, -⟩
        omega
    · rw [if_pos hy, Prod.mk.injEq]
      constructor
      · rintro ⟨hnl, -⟩
        have hend : col + 1 = 80 := by
          rcases hwrap with hc | hc | hc
          · exact hnl (.inl hc)
          · exact hnl (.inr hc)
          · exact hc
        omega
      · rintro ⟨-, hc⟩
        exact ⟨fun _ => by omega, fun hand => hy hand.2⟩
  · rw [nextPlace_stay hwrap, EchoState.place, Prod.mk.injEq] at hplace
    obtain ⟨hrow, hcol⟩ := hplace
    have hne : s.screen.x ≠ 0 := by omega
    rw [if_pos hne, Prod.mk.injEq]
    constructor
    · intro _
      exact ⟨hrow.symm, by omega⟩
    · intro _
      refine ⟨fun hnl => absurd ?_ hwrap, fun hand => hne hand.1⟩
      rcases hnl with hc | hc
      · exact .inl hc
      · exact .inr (.inl hc)

theorem ScreenOk.backspacing (h : ScreenOk s) (herase : s.Erasable) :
    ScreenOk (s.display .backspacing) where
  range := h.range.feed TextScreen.Op.backspace
  log := by
    obtain ⟨c, hhead⟩ := (erasable_iff h).mp herase
    have hlog := h.log
    have htail : (s.display .backspacing).log = s.log.tail := rfl
    rw [htail]
    rcases hs : s.log with _ | ⟨e, log⟩
    · trivial
    rw [hs, List.head?_cons, Option.some.injEq] at hhead
    subst hhead
    rw [hs] at hlog
    exact hlog.2

end display

/-! ## The line buffer -/

/-- The first terminal is active, and its line is not too long. -/
structure LineOk (k : Keyboard) : Prop where
  active : k.active = 0
  index : k.index ≤ 127

section line
variable {k : Keyboard}

theorem LineOk.index_lt (h : LineOk k) : k.index < bufSize := Nat.lt_of_le_of_lt h.index (by decide)

theorem LineOk.length (h : LineOk k) : (k.text 0).length = k.index := by
  rw [text_length, Keyboard.index, h.active]

/-- A store adds the character where there is room, and shows nothing. -/
theorem LineOk.storeChar (h : LineOk k) (x : UInt8) : ∃ k', k.storeChar x = some ([], k') ∧
    LineOk k' ∧ k'.text 0 = k.text 0 ++ if k.index = 127 then [] else [x] := by
  have hle := h.index
  obtain ⟨m, hm, hok, htext⟩ : ∃ m, (if k.index = 127 then k else k.pushed x) = m ∧ LineOk m ∧
      m.text 0 = k.text 0 ++ if k.index = 127 then [] else [x] := by
    by_cases hfull : k.index = 127
    · exact ⟨k, if_pos hfull, h, by simp [hfull]⟩
    · have hpush := pushed_text k x h.index_lt
      rw [h.active] at hpush
      have hindex : (k.pushed x).index = k.index + 1 := setIndex_index _ _
      exact ⟨_, if_neg hfull, ⟨h.active, by omega⟩, by rw [hpush, if_neg hfull]⟩
  have hshort : ¬ (m.index = bufSize - 1 ∧ m.fflag = false) := by
    have := hok.index
    unfold bufSize
    omega
  have hcheck : (m.checkBuf x).1 = [] := by
    unfold Keyboard.checkBuf
    split
    · rfl
    · rfl
  have hkept : LineOk (m.checkBuf x).2 ∧ (m.checkBuf x).2.text 0 = m.text 0 := by
    unfold Keyboard.checkBuf
    split
    · exact ⟨⟨hok.active, hok.index⟩, rfl⟩
    · exact ⟨hok, rfl⟩
  refine ⟨(m.checkBuf x).2, ?_, hkept.1, hkept.2.trans htext⟩
  rw [storeChar_eq x h.index_lt, hm, ← hcheck]

/-- Blanks are added whether or not there is room for them. -/
theorem pushBlanks_text {n : Nat} (hactive : k.active = 0) (hroom : k.index + n < bufSize) :
    ∃ k', k.pushBlanks n = some k' ∧ k'.active = 0 ∧
    k'.text 0 = k.text 0 ++ List.replicate n 32 := by
  refine pushBlanks_inv (P := fun i m => m.active = 0 ∧ m.text 0 = k.text 0 ++ List.replicate i 32)
    ?_ (Nat.le_of_lt hroom) ?_
  · exact ⟨hactive, (List.append_nil _).symm⟩
  · rintro i m hi hindex ⟨hm, htext⟩
    have hpush := pushed_text m 32 (by omega)
    rw [hm, htext, List.append_assoc, ← List.replicate_succ'] at hpush
    exact ⟨hm, hpush⟩

/-- Backspace removes the last character, if there is one. -/
theorem LineOk.backspacing (h : LineOk k) : ∃ k', k.backspacing true =
      some (if k.index = 0 then [] else [.backspacing], k') ∧
    LineOk k' ∧ k'.text 0 = (k.text 0).dropLast := by
  rw [backspacing_eq true h.index_lt]
  by_cases hzero : k.index = 0
  · have hnil : k.text 0 = [] := List.eq_nil_of_length_eq_zero (h.length.trans hzero)
    rw [if_pos ⟨rfl, hzero⟩, if_pos hzero]
    exact ⟨k, rfl, h, by rw [hnil]; rfl⟩
  · have hdrop := dropped_text k h.index_lt
    rw [h.active] at hdrop
    have hindex : k.dropped.bufIndex k.active = k.index - 1 := by
      simp [Keyboard.dropped, setIndex_bufIndex]
    rw [if_neg fun hand => hzero hand.2, if_neg hzero]
    have hle := h.index
    exact ⟨_, rfl, ⟨h.active, show k.dropped.bufIndex k.active ≤ 127 by omega⟩, hdrop⟩

end line

/-! ## One step -/

/-- The log has the characters of the line. -/
structure EchoInv (s : EchoState) : Prop where
  line : LineOk s.kbd
  screen : ScreenOk s
  chars : (s.log.map Prod.fst).reverse = s.line

/-- What the handler leaves after the screen operations `ops`. -/
def EchoState.after (s : EchoState) (ops : List ScreenOp) (kbd : Keyboard) : EchoState :=
  { ops.foldl EchoState.display s with kbd := kbd }

section step
variable {s : EchoState} {kbd : Keyboard}

theorem echoStep_key {e : KeyboardEvent} {ops : List ScreenOp} (hkeep : e.keepsLine = true)
    (h : s.kbd.respond e = some (ops, kbd)) : echoStep s e = some (s.after ops kbd) := by
  simp only [echoStep, h, hkeep]
  rfl

/-- A key that echoes the characters `ys` and adds `zs` to the line. -/
theorem echoed_putcs_iff (ys zs : List UInt8) (htext : kbd.text 0 = s.line ++ zs) :
    Echoed s (ys.map .putc) (s.after (ys.map .putc) kbd) ↔
      ys = zs ∧ (zs ≠ [] → s.line.length + zs.length ≤ 127) := by
  have hafter : (s.after (ys.map .putc) kbd).line = s.line ++ zs := htext
  constructor
  · rintro (⟨xs, hline, hops, hroom⟩ | ⟨c, hline, hops, hecho, hcell⟩ | ⟨hline, hops⟩)
    · have hys : ys = xs := (List.map_inj_right fun _ _ => ScreenOp.putc.inj).mp hops
      have hzs : zs = xs := List.append_cancel_left (hafter.symm.trans hline)
      subst hys hzs
      rw [hafter, List.length_append] at hroom
      exact ⟨rfl, hroom⟩
    · cases ys <;> simp at hops
    · cases ys <;> simp at hops
  · rintro ⟨rfl, hroom⟩
    refine .typed ys hafter rfl ?_
    intro hne
    rw [hafter, List.length_append]
    exact hroom hne

theorem EchoInv.putcs (h : EchoInv s) (ys : List UInt8) (hline : LineOk kbd)
    (htext : kbd.text 0 = s.line ++ ys) : EchoInv (s.after (ys.map .putc) kbd) := by
  obtain ⟨hok, hlog⟩ := h.screen.putcs ys
  refine ⟨hline, ⟨hok.range, hok.log⟩, ?_⟩
  exact hlog.trans ((congrArg (· ++ ys) h.chars).trans htext.symm)

/-- A key that does nothing to either. -/
theorem EchoInv.unchanged (h : EchoInv s) (hline : LineOk kbd) (htext : kbd.text 0 = s.line) :
    Echoed s [] (s.after [] kbd) ∧ EchoInv (s.after [] kbd) := by
  have hnil : kbd.text 0 = s.line ++ [] := htext.trans (List.append_nil _).symm
  exact ⟨(echoed_putcs_iff (s := s) [] [] hnil).mpr ⟨rfl, fun hne => absurd rfl hne⟩,
    h.putcs [] hline hnil⟩

theorem EchoInv.clear (h : EchoInv s) {kbd : Keyboard} (hline : LineOk kbd)
    (htext : kbd.text 0 = s.line) :
    Echoed s [.clear] (s.after [.clear] kbd) ∧ EchoInv (s.after [.clear] kbd) := by
  have hok := h.screen.clear
  refine ⟨.cleared htext rfl, hline, ⟨hok.range, hok.log⟩, ?_⟩
  have hmap : (s.after [.clear] kbd).log.map Prod.fst = s.log.map Prod.fst := by
    simp [EchoState.after, EchoState.display, Function.comp_def]
  rw [hmap, h.chars]
  exact htext.symm

/-- Backspace on a line that is not empty. -/
theorem EchoInv.backspacing (h : EchoInv s) (hline : LineOk kbd)
    (htext : kbd.text 0 = s.line.dropLast) :
    (Echoed s [.backspacing] (s.after [.backspacing] kbd) ↔ s.Erasable) ∧
      (s.Erasable → EchoInv (s.after [.backspacing] kbd)) := by
  have hafter : (s.after [.backspacing] kbd).line = s.line.dropLast := htext
  constructor
  · rw [erasable_iff h.screen]
    constructor
    · rintro (⟨xs, -, hops, -⟩ | ⟨c, -, -, hecho, -⟩ | ⟨-, hops⟩)
      · cases xs <;> simp at hops
      · exact ⟨c, hecho⟩
      · cases hops
    · rintro ⟨c, hhead⟩
      have herase := (erasable_iff h.screen).mpr ⟨c, hhead⟩
      have hcorner : ¬ (s.screen.x = 0 ∧ s.screen.y = 0) := by
        unfold EchoState.Erasable at herase
        split at herase
        · exact herase.2
        · exact herase.elim
      have hlast : s.line.getLast? = some c := by
        rw [← h.chars, List.getLast?_reverse, List.head?_map, hhead]
        rfl
      have hsplit : s.line = s.line.dropLast ++ [c] := (List.dropLast_append_getLast? c hlast).symm
      exact .erased c (by rw [hafter]; exact hsplit) rfl hhead (display_backspacing_cell hcorner)
  · intro herase
    have hok := h.screen.backspacing herase
    refine ⟨hline, ⟨hok.range, hok.log⟩, ?_⟩
    have hlog : (s.after [.backspacing] kbd).log = s.log.tail := rfl
    have htail : (s.log.tail.map Prod.fst).reverse = (s.log.map Prod.fst).reverse.dropLast := by
      rw [List.map_tail, List.dropLast_reverse]
    rw [hlog, htail, h.chars]
    exact htext.symm

/-- A key that echoes `ys` and adds `zs`, judged by a condition that says when
these are the same. -/
theorem EchoInv.answer (h : EchoInv s) (ys zs : List UInt8) {C : Prop}
    (htext : kbd.text 0 = s.line ++ zs)
    (hC : C ↔ ys = zs ∧ (zs ≠ [] → s.line.length + zs.length ≤ 127)) (hok : C → LineOk kbd) :
    (Echoed s (ys.map .putc) (s.after (ys.map .putc) kbd) ↔ C) ∧
      (C → EchoInv (s.after (ys.map .putc) kbd)) := by
  refine ⟨(echoed_putcs_iff ys zs htext).trans hC.symm, ?_⟩
  intro hc
  have hsame := (hC.mp hc).1
  exact h.putcs ys (hok hc) (by rw [hsame]; exact htext)

/-- The keyboard at the start of a step. -/
theorem EchoInv.start (h : EchoInv s) : LineOk { s.kbd with written := [] } :=
  ⟨h.line.active, h.line.index⟩

/-- The characters that a store adds. -/
def EchoState.stored (s : EchoState) (x : UInt8) :
    List UInt8 := if s.kbd.index = 127 then [] else [x]

/-- A key whose character goes to the store. -/
theorem EchoInv.char (h : EchoInv s) {scancode past junk x : UInt8} {ys : List UInt8} {C : Prop}
    (hdecode : decode s.kbd.mods scancode past junk = (ys.map .putc, .char x))
    (hC : C ↔ ys = s.stored x) :
    ∃ ops kbd, s.kbd.respond (.key scancode past junk) = some (ops, kbd) ∧
      (Echoed s ops (s.after ops kbd) ↔ C) ∧ (C → EchoInv (s.after ops kbd)) := by
  obtain ⟨kbd, hstore, hline, htext⟩ := h.start.storeChar x
  have hresp : s.kbd.respond (.key scancode past junk) = some (ys.map .putc, kbd) := by
    simp only [Keyboard.respond, keyboardHandler, hdecode, hstore, Option.map_some, List.append_nil]
  have hroom : s.stored x ≠ [] → s.line.length + (s.stored x).length ≤ 127 := by
    intro hne
    have hlen : s.line.length = s.kbd.index := h.line.length
    have hle := h.line.index
    unfold EchoState.stored at hne ⊢
    split at hne
    · exact absurd rfl hne
    next hfull =>
      rw [if_neg hfull, List.length_singleton]
      omega
  refine ⟨_, kbd, hresp, h.answer ys (s.stored x) htext ?_ fun _ => hline⟩
  rw [hC]
  exact ⟨fun heq => ⟨heq, hroom⟩, And.left⟩

/-- A key that leaves the line alone. -/
theorem EchoInv.silent (h : EchoInv s) (ys : List UInt8) {e : KeyboardEvent} {C : Prop}
    (hresp : s.kbd.respond e = some (ys.map .putc, kbd)) (hline : LineOk kbd)
    (htext : kbd.text 0 = s.line) (hC : C ↔ ys = []) :
    ∃ ops kbd, s.kbd.respond e = some (ops, kbd) ∧
      (Echoed s ops (s.after ops kbd) ↔ C) ∧ (C → EchoInv (s.after ops kbd)) := by
  refine ⟨_, kbd, hresp, h.answer ys [] (by rw [htext, List.append_nil]) ?_ fun _ => hline⟩
  rw [hC]
  exact ⟨fun heq => ⟨heq, fun hne => absurd rfl hne⟩, And.left⟩

end step

/-! ## The keys -/

section decode
variable {m : Modifiers} {scancode past junk : UInt8}

theorem decode_modifier (h : scancode ∈ modifierCodes) :
    ∃ m', decode m scancode past junk = ([], .modify m') := by
  simp only [modifierCodes, List.mem_cons, List.not_mem_nil, or_false] at h
  rcases h with rfl | rfl | rfl | rfl | rfl | rfl | rfl | rfl | rfl | rfl <;> exact ⟨_, rfl⟩

theorem decode_other (m : Modifiers) (past junk : UInt8) (h : scancode ∉ modifierCodes) :
    decode m scancode past junk =
      if scancode = 0x0E then ([], .backspace)
      else if scancode = 0x0F then (List.replicate 4 (.putc 32), .tab)
      else if m.ctrlOn ∧ kbdAt scancode past = 108 then ([.clear], .ignore)
      else if scancode ≤ 0x80 then decodeChar m scancode past junk
      else ([], .ignore) := by
  simp only [modifierCodes, List.mem_cons, List.not_mem_nil, or_false, not_or] at h
  obtain ⟨h1, h2, h3, h4, h5, h6, h7, h8, h9, h10⟩ := h
  unfold decode
  rw [if_neg h1, if_neg (by simp [h2, h3]), if_neg (by simp [h4, h5]), if_neg (by simp [h6, h7]),
    if_neg h8, if_neg h9, if_neg h10]

/-- The echo of the Caps Lock branch. -/
def capsEcho (m : Modifiers) (c : UInt8) : List UInt8 := if capsLetter m c then [c - 32] else []

theorem capsEcho_eq_nil {c : UInt8} : capsEcho m c = [] ↔ capsLetter m c = false := by
  unfold capsEcho
  cases capsLetter m c <;> simp

theorem capsShown (m : Modifiers) (c : UInt8) :
    (if (m.capson && isLetter c) = true then
      [ScreenOp.putc (if (m.capson && isLetter c) = true then c - 32 else junk)] else []) =
    (capsEcho m c).map .putc := by
  unfold capsEcho capsLetter
  cases (m.capson && isLetter c) <;> rfl

theorem decodeChar_alt (scancode past junk : UInt8) (h : m.altOn = true) :
    (decodeChar m scancode past junk).1 = (capsEcho m (kbdAt scancode past)).map .putc ∧
      ((decodeChar m scancode past junk).2 = .ignore ∨
        ∃ t, (decodeChar m scancode past junk).2 = .switchTerm t) := by
  simp only [decodeChar, capsShown, if_pos h]
  split
  · exact ⟨rfl, .inr ⟨_, rfl⟩⟩
  · exact ⟨rfl, .inl rfl⟩

/-- Without Alt a letter, or any character without Shift, is echoed and stored. -/
theorem decodeChar_plain (junk : UInt8) (halt : m.altOn = false)
    (hshift : ¬ (m.shiftOn = true ∧ isLetter (kbdAt scancode past) = false)) :
    ∃ x, decodeChar m scancode past junk =
      ((capsEcho m (kbdAt scancode past) ++ [x]).map .putc, .char x) := by
  simp only [decodeChar, capsShown, halt, Bool.false_eq_true, if_false, List.map_append]
  by_cases hs : m.shiftOn = true
  · have hletter : isLetter (kbdAt scancode past) = true := by
      by_contra hno
      exact hshift ⟨hs, by simpa using hno⟩
    rw [if_pos hs, if_pos hletter]
    exact ⟨_, rfl⟩
  · rw [if_neg hs]
    exact ⟨_, rfl⟩

/-- Shift and a key that is not a letter. -/
theorem decodeChar_symbol (halt : m.altOn = false) (hs : m.shiftOn = true)
    (hletter : isLetter (kbdAt scancode past) = false) :
    decodeChar m scancode past junk =
      match shifted (kbdAt scancode past) with
      | some y => ([y].map .putc, .char y)
      | none => (([] : List UInt8).map .putc, .char junk) := by
  simp only [decodeChar, halt, hs, hletter, Bool.and_false, Bool.false_eq_true, if_false, if_true,
    List.nil_append]
  cases shifted (kbdAt scancode past) <;> rfl

end decode

section keys
variable {s : EchoState}

/-- A store with room, and one without. -/
theorem stored_eq_singleton_iff (h : EchoInv s) (x y : UInt8) (ys : List UInt8) :
    (ys ++ [y] = s.stored x) ↔ ys = [] ∧ s.kbd.index < 127 ∧ y = x := by
  have hle := h.line.index
  unfold EchoState.stored
  by_cases hfull : s.kbd.index = 127
  · rw [if_pos hfull]
    exact iff_of_false (by simp) fun hand => by omega
  · rw [if_neg hfull]
    have hlt : s.kbd.index < 127 := by omega
    cases ys with
    | nil => simp [hlt]
    | cons z ys => simp

theorem stored_eq_nil_iff (h : EchoInv s) {x : UInt8} :
    ([] = s.stored x) ↔ ¬ s.kbd.index < 127 := by
  have hle := h.line.index
  unfold EchoState.stored
  by_cases hfull : s.kbd.index = 127
  · rw [if_pos hfull]
    exact iff_of_true rfl (by omega)
  · rw [if_neg hfull]
    exact iff_of_false (by simp) (by omega)

/-- What the handler does with a decoded key. -/
theorem respond_key {k : Keyboard} {scancode past junk : UInt8} {d : List ScreenOp × KeyAction}
    (h : decode k.mods scancode past junk = d) : k.respond (.key scancode past junk) =
      match d.2 with
      | .modify m => some (d.1, { k with mods := m, written := [] })
      | .backspace => Keyboard.backspacing true { k with written := [] }
      | .tab => (Keyboard.pushBlanks 4 { k with written := [] }).map fun k => (d.1, k)
      | .switchTerm t => some (d.1, { k with active := t, left := k.left + 1, written := [] })
      | .char x => (Keyboard.storeChar x { k with written := [] }).map fun (more, k) =>
      (d.1 ++ more, k)
      | .ignore => some (d.1, { k with written := [] }) := by
  subst h
  rfl

/-- One key: whether it is echoed as it is stored, and that the log then still has the line. -/
theorem EchoInv.key (h : EchoInv s) {scancode past junk : UInt8}
    (hone : OneTerminal s (.key scancode past junk)) :
    ∃ ops kbd, s.kbd.respond (.key scancode past junk) = some (ops, kbd) ∧
      (Echoed s ops (s.after ops kbd) ↔ KeyEchoes s scancode past) ∧
      (KeyEchoes s scancode past → EchoInv (s.after ops kbd)) := by
  have hstart := h.start
  have hline : s.line.length = s.kbd.index := h.line.length
  unfold KeyEchoes
  by_cases hmod : scancode ∈ modifierCodes
  · obtain ⟨m', hdecode⟩ := decode_modifier hmod
    exact h.silent [] (respond_key hdecode) ⟨hstart.active, hstart.index⟩ rfl
      (iff_of_true (by simp only [if_pos hmod]) rfl)
  have hother := decode_other s.kbd.mods past junk hmod
  rw [if_neg hmod]
  by_cases hback : scancode = 0x0E
  · rw [if_pos hback] at hother ⊢
    obtain ⟨kbd, hkbd, hok, htext⟩ := hstart.backspacing
    have hresp := (respond_key hother).trans hkbd
    have hindex : ({ s.kbd with written := [] } : Keyboard).index = s.kbd.index := rfl
    rw [hindex] at hresp
    by_cases hzero : s.kbd.index = 0
    · have hnil : s.line = [] := List.eq_nil_of_length_eq_zero (hline.trans hzero)
      rw [if_pos hzero] at hresp
      exact h.silent [] hresp hok (htext.trans (by change s.line.dropLast = s.line; rw [hnil]; rfl))
        (iff_of_true (.inl hzero) rfl)
    · rw [if_neg hzero] at hresp
      have herase := h.backspacing hok htext
      refine ⟨_, kbd, hresp, ?_, fun hc => herase.2 (hc.resolve_left hzero)⟩
      rw [herase.1, or_iff_right hzero]
  rw [if_neg hback] at hother ⊢
  by_cases htab : scancode = 0x0F
  · rw [if_pos htab] at hother ⊢
    obtain ⟨kbd, hkbd, hactive, htext⟩ := pushBlanks_text (n := 4) hstart.active
      (Nat.lt_of_le_of_lt (Nat.add_le_add_right hstart.index 4) (by decide))
    have hresp : s.kbd.respond (.key scancode past junk) =
        some ((List.replicate 4 32).map .putc, kbd) := by
      rw [respond_key hother]
      simp only [hkbd]
      rfl
    have hlen := congrArg List.length htext
    rw [List.length_append, List.length_replicate, text_length] at hlen
    have hlen' : kbd.index = s.kbd.index + 4 := by
      rw [Keyboard.index, hactive, hlen]
      exact congrArg (· + 4) hline
    refine ⟨_, kbd, hresp, h.answer (List.replicate 4 32) (List.replicate 4 32) htext ?_
      fun hc => ⟨hactive, by omega⟩⟩
    rw [hline, List.length_replicate]
    exact ⟨fun hle => ⟨rfl, fun _ => hle⟩, fun hand => hand.2 (by simp)⟩
  rw [if_neg htab] at hother ⊢
  by_cases hclear : s.kbd.mods.ctrlOn = true ∧ kbdAt scancode past = 108
  · rw [if_pos hclear] at hother ⊢
    obtain ⟨hechoed, hinv⟩ := h.clear hstart rfl
    exact ⟨_, _, respond_key hother, iff_of_true hechoed trivial, fun _ => hinv⟩
  rw [if_neg hclear] at hother ⊢
  by_cases hbreak : 0x80 < scancode
  · rw [if_neg (UInt8.not_le.mpr hbreak)] at hother
    exact h.silent [] (respond_key hother) ⟨hstart.active, hstart.index⟩ rfl
      (iff_of_true (by rw [if_pos hbreak]; trivial) rfl)
  rw [if_pos (UInt8.not_lt.mp hbreak)] at hother
  rw [if_neg hbreak]
  by_cases halt : s.kbd.mods.altOn = true
  · rw [if_pos halt]
    obtain ⟨hshown, haction⟩ := decodeChar_alt scancode past junk halt
    have hresp := respond_key hother
    rcases haction with haction | ⟨t, haction⟩
    · simp only [haction] at hresp
      rw [hshown] at hresp
      exact h.silent _ hresp ⟨hstart.active, hstart.index⟩ rfl capsEcho_eq_nil.symm
    · have ht : t = 0 := hone t (by rw [hother, haction])
      simp only [haction] at hresp
      rw [hshown] at hresp
      exact h.silent _ hresp ⟨ht, by rw [ht]; exact h.line.active ▸ hstart.index⟩ rfl
        capsEcho_eq_nil.symm
  have halt' : s.kbd.mods.altOn = false := by simpa using halt
  rw [if_neg halt]
  by_cases hsym : s.kbd.mods.shiftOn = true ∧ isLetter (kbdAt scancode past) = false
  · rw [if_pos hsym]
    have hdecode := hother.trans (decodeChar_symbol halt' hsym.1 hsym.2)
    cases hshifted : shifted (kbdAt scancode past) with
    | some y =>
      rw [hshifted] at hdecode
      apply h.char hdecode
      have hsingle := stored_eq_singleton_iff h y y []
      rw [List.nil_append] at hsingle
      rw [hsingle]
      simp
    | none =>
      rw [hshifted] at hdecode
      apply h.char hdecode
      rw [stored_eq_nil_iff h]
      simp
  · rw [if_neg hsym]
    obtain ⟨x, hplain⟩ := decodeChar_plain junk halt' hsym
    apply h.char (hother.trans hplain)
    rw [stored_eq_singleton_iff h x x, capsEcho_eq_nil]
    simp

/-- The rest of a handler that was left: nothing is echoed any more. -/
theorem EchoInv.resume (h : EchoInv s) (x : UInt8) :
    ∃ ops kbd, s.kbd.respond (.resume x) = some (ops, kbd) ∧
    (Echoed s ops (s.after ops kbd) ↔ StepEchoes s (.resume x)) ∧
    (StepEchoes s (.resume x) → EchoInv (s.after ops kbd)) := by
  have hline : s.line.length = s.kbd.index := h.line.length
  have hresp : s.kbd.respond (.resume x) = if s.kbd.left = 0 then
      some ([], { s.kbd with written := [] })
      else Keyboard.storeChar x { s.kbd with written := [], left := s.kbd.left - 1 } := rfl
  by_cases hleft : s.kbd.left = 0
  · rw [if_pos hleft] at hresp
    exact h.silent [] hresp h.start rfl (iff_of_true (.inl hleft) rfl)
  · rw [if_neg hleft] at hresp
    have hok : LineOk { s.kbd with written := [], left := s.kbd.left - 1 } :=
      ⟨h.line.active, h.line.index⟩
    obtain ⟨kbd, hstore, hkbd, htext⟩ := hok.storeChar x
    have hC : StepEchoes s (.resume x) ↔ s.kbd.index = 127 := or_iff_right hleft
    refine ⟨[], kbd, hresp.trans hstore, h.answer [] (s.stored x) htext ?_ fun _ => hkbd⟩
    rw [hC]
    unfold EchoState.stored
    by_cases hfull : s.kbd.index = 127
    · simp [hfull]
    · simp [hfull]

/-- No operation moves the cursor off the screen. -/
theorem range_display (h : InRange numRows numCols s.screen) (ops : List ScreenOp) :
    InRange numRows numCols (ops.foldl EchoState.display s).screen := by
  induction ops generalizing s with
  | nil => exact h
  | cons op ops ih =>
    apply ih
    cases op with
    | putc c => exact h.feed _
    | backspacing => exact h.feed TextScreen.Op.backspace
    | clear => exact h.feed TextScreen.Op.clear

/-- A step that empties the line and the log, whatever it writes. -/
theorem EchoInv.emptied (h : EchoInv s) (ops : List ScreenOp) {kbd : Keyboard}
    (hactive : kbd.active = 0)
    (hzero : kbd.bufIndex 0 = 0) :
    EchoInv { ops.foldl EchoState.display s with kbd := kbd, log := [] } := by
  refine ⟨⟨hactive, ?_⟩, ⟨range_display h.screen.range ops, trivial⟩, (text_eq_nil kbd hzero).symm⟩
  rw [Keyboard.index, hactive, hzero]
  decide

/-- What a write leaves: an empty line in the terminal it was called in. -/
theorem writeTerminal_empties {k k' : Keyboard} {buf1 : Nat → UInt8} {n : Int} {ops : List ScreenOp}
    (hk : k.active = 0) (h : k.writeTerminal buf1 n = some (ops, k')) :
    k'.active = 0 ∧ k'.bufIndex 0 = 0 := by
  have hset : ∀ l : Keyboard, l.active = 0 → (l.setIndex 0).active = 0 ∧
      (l.setIndex 0).bufIndex 0 = 0 := by
    intro l hl
    rw [setIndex_bufIndex, if_pos hl.symm]
    exact ⟨hl, rfl⟩
  unfold Keyboard.writeTerminal at h
  by_cases hn : n ≠ bufSize - 1
  · simp only [if_pos hn, Option.bind_eq_bind] at h
    obtain ⟨⟨back, l⟩, hback, heq⟩ := Option.bind_eq_some_iff.mp h
    cases heq
    exact hset l ((backspacing_active hback).trans hk)
  · simp only [if_neg hn, Option.bind_eq_bind, Option.bind_some] at h
    cases h
    exact hset k hk

/-- A step that is judged right keeps the invariant. -/
theorem EchoInv.step (h : EchoInv s) {e : KeyboardEvent} {s' : EchoState} (hone : OneTerminal s e)
    (hc : StepEchoes s e) (hstep : echoStep s e = some s') : EchoInv s' := by
  have hstart := h.start
  cases e with
  | key scancode past junk =>
    obtain ⟨ops, kbd, hresp, -, hinv⟩ := h.key hone
    cases (echoStep_key rfl hresp).symm.trans hstep
    exact hinv hc
  | resume x =>
    obtain ⟨ops, kbd, hresp, -, hinv⟩ := h.resume x
    cases (echoStep_key rfl hresp).symm.trans hstep
    exact hinv hc
  | readStart n =>
    cases hstep
    refine h.emptied [] h.line.active ?_
    rw [← h.line.active]
    exact Function.update_self _ _ _
  | readWake =>
    cases hstep
    have hkept : LineOk (Keyboard.readWake { s.kbd with written := [] }) ∧
        (Keyboard.readWake { s.kbd with written := [] }).text 0 = s.line := by
      unfold Keyboard.readWake
      split
      · exact ⟨⟨hstart.active, hstart.index⟩, rfl⟩
      · exact ⟨hstart, rfl⟩
    exact ⟨hkept.1, ⟨h.screen.range, h.screen.log⟩, h.chars.trans hkept.2.symm⟩
  | readDone n =>
    obtain ⟨⟨ops, kbd⟩, hresp, heq⟩ := Option.bind_eq_some_iff.mp hstep
    cases heq
    obtain ⟨⟨value, data, k⟩, hdone, hk⟩ := Option.map_eq_some_iff.mp hresp
    cases hk
    obtain ⟨⟨data', k'⟩, hclear, heq⟩ := Option.bind_eq_some_iff.mp hdone
    cases heq
    rw [(clearBuffer_eq_some_iff.mp hclear).2.2]
    refine h.emptied [] h.line.active ?_
    rw [← h.line.active]
    exact Function.update_self _ _ _
  | write buf1 n =>
    obtain ⟨⟨ops, kbd⟩, hresp, heq⟩ := Option.bind_eq_some_iff.mp hstep
    cases heq
    obtain ⟨⟨ops', k⟩, hwrite, hk⟩ := Option.map_eq_some_iff.mp hresp
    cases hk
    obtain ⟨hactive, hzero⟩ := writeTerminal_empties hstart.active hwrite
    exact h.emptied _ hactive hzero

/-- The condition decides whether a step is right. -/
theorem EchoInv.stepEchoes_iff (h : EchoInv s) {e : KeyboardEvent} (hone : OneTerminal s e) :
    StepEchoes s e ↔ ∀ s', echoStep s e = some s' → EchoExact s e s' := by
  cases e with
  | key scancode past junk =>
    obtain ⟨ops, kbd, hresp, hiff, -⟩ := h.key hone
    have hstep := echoStep_key (e := .key scancode past junk) rfl hresp
    constructor
    · rintro hc s' hs' ops' kbd' hresp'
      cases hstep.symm.trans hs'
      cases hresp.symm.trans hresp'
      exact hiff.mpr hc
    · intro hall
      exact hiff.mp (hall _ hstep ops kbd hresp)
  | resume x =>
    obtain ⟨ops, kbd, hresp, hiff, -⟩ := h.resume x
    have hstep := echoStep_key (e := .resume x) rfl hresp
    constructor
    · rintro hc s' hs' ops' kbd' hresp'
      cases hstep.symm.trans hs'
      cases hresp.symm.trans hresp'
      exact hiff.mpr hc
    · intro hall
      exact hiff.mp (hall _ hstep ops kbd hresp)
  | _ => exact iff_of_true trivial fun _ _ => trivial

end keys

/-! ## Runs -/

theorem echoInv_start {screen : TextScreen UInt8} (h : InRange numRows numCols screen) :
    EchoInv (startEcho screen) where
  line := ⟨rfl, show 0 ≤ 127 by decide⟩
  screen := ⟨h, trivial⟩
  chars := rfl

theorem echo_iff {screen : TextScreen UInt8} (h : InRange numRows numCols screen)
    {es : List KeyboardEvent} (hone : EachStep echoStep OneTerminal (startEcho screen) es) :
    Along echoStep EchoExact (startEcho screen) es ↔
    EachStep echoStep StepEchoes (startEcho screen) es :=
  along_iff_eachStep (fun _ _ hs hd => EchoInv.stepEchoes_iff hs hd)
    (fun _ _ _ hs hd hc ht => EchoInv.step hs hd hc ht) hone (echoInv_start h)

/-- On any screen: every key stores what it echoes, and erases what it removes, exactly if every key
    meets the condition when it comes. -/
theorem echoed_is_stored_iff (screen : TextScreen UInt8) (es : List KeyboardEvent)
    (hscreen : InRange numRows numCols screen)
    (hone : EachStep echoStep OneTerminal (startEcho screen) es) :
    Along echoStep EchoExact (startEcho screen) es ↔
      EachStep echoStep StepEchoes (startEcho screen) es := echo_iff hscreen hone

/-- "l", then Caps Lock, then "l" again. -/
def capsLockTyped : List KeyboardEvent := [.key 0x26 0 0, .key 0x3A 0 0, .key 0x26 0 0]

theorem caps_lock_echoes_twice :
    EachStep echoStep OneTerminal (startEcho (blankScreen 32)) capsLockTyped ∧
      ¬ Along echoStep EchoExact (startEcho (blankScreen 32)) capsLockTyped := by
  have hone : EachStep echoStep OneTerminal (startEcho (blankScreen 32)) capsLockTyped := by decide
  refine ⟨hone, ?_⟩
  rw [echo_iff ⟨by decide, by decide⟩ hone]
  decide

/-- "l" with Shift, a Tab, and both of them taken back. -/
def shiftTyped : List KeyboardEvent :=
  [.key 0x2A 0 0, .key 0x26 0 0, .key 0xAA 0 0, .key 0x0F 0 0, .key 0x0E 0 0, .key 0x0E 0 0,
    .key 0x0E 0 0, .key 0x0E 0 0, .key 0x0E 0 0]

theorem shift_tab_and_backspaces :
    EachStep echoStep StepEchoes (startEcho (blankScreen 32)) shiftTyped ∧
      Along echoStep EchoExact (startEcho (blankScreen 32)) shiftTyped := by
  have hechoes : EachStep echoStep StepEchoes (startEcho (blankScreen 32)) shiftTyped := by decide
  exact ⟨hechoes, (echoed_is_stored_iff (blankScreen 32) shiftTyped ⟨by decide, by decide⟩
    (by decide)).mpr hechoes⟩

end OreOS
