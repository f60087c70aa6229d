import OreOS.Keyboard.Proofs.Steps
import OreOS.Machine.Trace

/-!
# Lines and the readers they were typed for

A reader in each terminal, the keyboard, and the user. `read_terminal` never says for which terminal
it reads: it resets, copies and clears the row of the terminal that is active at that moment, and
`fflag` is one flag for all terminals. So whose line a reader gets depends on what happens between
its steps. This module keeps a history of what was typed and of what was delivered, and states when
the two agree.

A reader may be in any of the six terminals that have a row, not only in the three that run
processes.
-/

namespace OreOS
open Machine Keyboard

/-- Where the process of a terminal is in `read_terminal`. -/
inductive Reading where
  | idle
  /-- In the loop. -/
  | waiting (nbytes : Int)
  /-- Past the loop, before `clear_buffer`. -/
  | woken (nbytes : Int)
  deriving DecidableEq, Repr

/-- It is in the loop. -/
def Reading.isWaiting : Reading → Bool
  | .waiting _ => true
  | _ => false

/-- The keyboard and the readers. The last three fields are the history: the line being typed in
    each terminal, the lines completed there, and the lines that its readers have received. -/
structure Tty where
  kbd : Keyboard
  reader : Fin 6 → Reading
  typed : Fin 6 → List UInt8
  completed : Fin 6 → List (List UInt8)
  delivered : Fin 6 → List (List UInt8)

namespace Tty

/-- The line of the active terminal. -/
def line (s : Tty) : List UInt8 := s.typed s.kbd.active

/-- The line of the active terminal is `l`. -/
def setLine (l : List UInt8) (s : Tty) : Tty :=
  { s with typed := Function.update s.typed s.kbd.active l }

/-- The process of terminal `t` has come to `r`. -/
def setReader (t : Fin 6) (r : Reading) (s : Tty) : Tty :=
  { s with reader := Function.update s.reader t r }

/-- The line is complete, and the next one starts. -/
def complete (s : Tty) : Tty :=
  { s.setLine [] with
    completed := Function.update s.completed s.kbd.active (s.completed s.kbd.active ++ [s.line]) }

/-- The history of a character. A full row takes no more of them. -/
def noteChar (x : UInt8) (s : Tty) : Tty :=
  let s := if s.kbd.index = 127 then s else s.setLine (s.line ++ [x])
  if x = 10 then s.complete else s

/-- The history of a key. -/
def note (s : Tty) : KeyAction → Tty
  | .char x => s.noteChar x
  | .tab => s.setLine (s.line ++ List.replicate 4 32)
  | .backspace => s.setLine s.line.dropLast
  | _ => s

/-- What a reader receives: the first bytes of its buffer, as many as `read_terminal` returned. -/
def deliver (t : Fin 6) (value : Int) (data : List UInt8) (s : Tty) : Tty :=
  { s with
    delivered := Function.update s.delivered t (s.delivered t ++ [data.take value.toNat]) }

/-- The reader of `t` is about to copy a line. -/
def Released (s : Tty) (t : Fin 6) : Prop :=
  match s.reader t with
  | .idle => False
  | .waiting _ => s.kbd.fflag = true
  | .woken _ => True

end Tty

/-- A key, the end of a handler that `switchTerm` left, or a step of the reader of a terminal. -/
inductive TtyEvent where
  | key (scancode past junk : UInt8)
  | resume (x : UInt8)
  | readStart (t : Fin 6) (nbytes : Int)
  | readWake (t : Fin 6)
  | readDone (t : Fin 6)
  deriving DecidableEq, Repr

/-- A reader that is elsewhere does not take the step, and one that finds `fflag` clear
    stays in the loop. -/
def ttyStep (s : Tty) : TtyEvent → Option Tty
  | .key scancode past junk => do
      let (_, kbd) ← keyboardHandler scancode past junk s.kbd
      return { s.note (decode s.kbd.mods scancode past junk).2 with kbd := kbd }
  | .resume x =>
      if s.kbd.left = 0 then some s
      else do
        let s := { s with kbd := { s.kbd with left := s.kbd.left - 1 } }
        let (_, kbd) ← s.kbd.storeChar x
        return { s.noteChar x with kbd := kbd }
  | .readStart t nbytes =>
      match s.reader t with
      | .idle => some { s.setReader t (.waiting nbytes) with kbd := s.kbd.readStart nbytes }
      | _ => some s
  | .readWake t =>
      match s.reader t with
      | .waiting nbytes =>
          if s.kbd.fflag then
            some { s.setReader t (.woken nbytes) with kbd := s.kbd.readWake }
          else some s
      | _ => some s
  | .readDone t =>
      match s.reader t with
      | .woken nbytes => do
          let (value, data, kbd) ← s.kbd.readDone nbytes
          return { (s.setReader t .idle).deliver t value data with kbd := kbd }
      | _ => some s

/-- Nothing typed and nobody reading. -/
def bootTty : Tty where
  kbd := bootKeyboard
  reader := fun _ => .idle
  typed := fun _ => []
  completed := fun _ => []
  delivered := fun _ => []

/-! ## The property and the condition -/

/-- In every terminal the readers have received the completed lines, each once and in order, except
    perhaps the last, which the reader of the terminal is about to copy. -/
def LinesDelivered (s : Tty) : Prop :=
  ∀ t, s.completed t = s.delivered t ∨
    ∃ l, s.completed t = s.delivered t ++ [l] ∧ s.Released t

/-- The steps of a reader leave what was typed in the other terminals. -/
def KeepsOthers (s : Tty) (e : TtyEvent) (s' : Tty) : Prop :=
  match e with
  | .readStart t _ => ∀ u ≠ t, s'.kbd.text u = s.kbd.text u
  | .readWake t => ∀ u ≠ t, s'.kbd.text u = s.kbd.text u
  | .readDone t => ∀ u ≠ t, s'.kbd.text u = s.kbd.text u
  | _ => True

/-- There is room for a character and a NUL. Enter is pressed while `fflag` is clear and the reader
    of the active terminal waits, on a line without a NUL. -/
def CarefulChar (s : Tty) (x : UInt8) : Prop :=
  (s.kbd.index = 127 ∨ s.kbd.index < bufSize - 1) ∧
    (x = 10 → s.kbd.fflag = false ∧ (s.reader s.kbd.active).isWaiting = true ∧ 0 ∉ s.line)

instance decidableCarefulChar (s : Tty) (x : UInt8) : Decidable (CarefulChar s x) :=
  inferInstanceAs (Decidable (_ ∧ _))

/-- The same for the action of a key. Tab needs room for four characters. -/
def CarefulKey (s : Tty) : KeyAction → Prop
  | .char x => CarefulChar s x
  | .tab => s.kbd.index + 4 < bufSize
  -- not into a completed line
  | .backspace => s.line = [] → s.kbd.index = 0
  | _ => True

instance decidableCarefulKey (s : Tty) : ∀ a, Decidable (CarefulKey s a)
  | .char x => decidableCarefulChar s x
  | .tab => inferInstanceAs (Decidable (s.kbd.index + 4 < bufSize))
  | .backspace => inferInstanceAs (Decidable (s.line = [] → s.kbd.index = 0))
  | .modify _ => isTrue trivial
  | .switchTerm _ => isTrue trivial
  | .ignore => isTrue trivial

/-- A read is started for less than a row and while nothing is waiting in the row of the active
    terminal. A reader finds `fflag` set only if a line of its own terminal is complete, and copies
    while its terminal is active and nothing was typed after the line. -/
def Careful (s : Tty) : TtyEvent → Prop
  | .key scancode past junk => CarefulKey s (decode s.kbd.mods scancode past junk).2
  | .resume x => s.kbd.left ≠ 0 → CarefulChar s x
  | .readStart t nbytes => s.reader t = .idle → s.kbd.index = 0 ∧ nbytes < bufSize
  | .readWake t =>
      (s.reader t).isWaiting = true ∧ s.kbd.fflag = true → s.completed t ≠ s.delivered t
  | .readDone t =>
      match s.reader t with
      | .woken _ => s.kbd.active = t ∧ s.line = []
      | _ => True

instance decidableCareful (s : Tty) : ∀ e, Decidable (Careful s e)
  | .key scancode past junk => decidableCarefulKey s (decode s.kbd.mods scancode past junk).2
  | .resume x => inferInstanceAs (Decidable (s.kbd.left ≠ 0 → CarefulChar s x))
  | .readStart t nbytes =>
      inferInstanceAs (Decidable (s.reader t = .idle → s.kbd.index = 0 ∧ nbytes < bufSize))
  | .readWake t =>
      inferInstanceAs (Decidable
        ((s.reader t).isWaiting = true ∧ s.kbd.fflag = true → s.completed t ≠ s.delivered t))
  | .readDone t =>
      match h : s.reader t with
      | .woken _ =>
          decidable_of_iff (s.kbd.active = t ∧ s.line = []) (by simp only [Careful, h])
      | .idle => isTrue (by simp only [Careful, h])
      | .waiting _ => isTrue (by simp only [Careful, h])

/-! ## The invariant -/

/-- Terminal `t` has no completed line that is not delivered, and its row holds the
    line being typed. -/
structure Drained (s : Tty) (t : Fin 6) : Prop where
  completed : s.completed t = s.delivered t
  text : s.kbd.text t = s.typed t
  reader : ∀ n, s.reader t ≠ .woken n

/-- Terminal `t` has one such line, `l`. It is at the start of the row, its length is noted, and the
    reader is about to copy it. -/
structure Holding (s : Tty) (t : Fin 6) (l : List UInt8) : Prop where
  completed : s.completed t = s.delivered t ++ [l]
  text : s.kbd.text t = l ++ s.typed t
  nonempty : l ≠ []
  noNul : 0 ∉ l
  length : s.kbd.indEntered t = BitVec.ofNat 32 l.length
  released : s.Released t

/-- Terminal `t` is in one of the two conditions. -/
def RowOk (s : Tty) (t : Fin 6) : Prop := Drained s t ∨ ∃ l, Holding s t l

/-- The flag stands for at most one line: of the readers in the loop at most one is in a terminal
    with a line to copy. -/
structure TtyInv (s : Tty) : Prop where
  last : s.kbd.buf (bufBytes - 1) = 0
  index : ∀ t, s.kbd.bufIndex t < bufSize
  nbytes : ∀ t n, s.reader t = .waiting n ∨ s.reader t = .woken n → n < bufSize
  row : ∀ t, RowOk s t
  single : ∀ t u, s.completed t ≠ s.delivered t → (s.reader t).isWaiting = true →
    s.completed u ≠ s.delivered u → (s.reader u).isWaiting = true → t = u

section rows
variable {s s' : Tty} {t : Fin 6} {l : List UInt8}

theorem Holding.ne (h : Holding s t l) : s.completed t ≠ s.delivered t := by
  rw [h.completed]
  simp

/-- A reader in the loop is released by the flag. -/
theorem Holding.fflag (h : Holding s t l) (hwait : (s.reader t).isWaiting = true) :
    s.kbd.fflag = true := by
  have hrel := h.released
  unfold Tty.Released at hrel
  cases hr : s.reader t with
  | waiting n => simpa [hr] using hrel
  | idle => simp [hr, Reading.isWaiting] at hwait
  | woken n => simp [hr, Reading.isWaiting] at hwait

theorem Tty.released_of_isWaiting (hwait : (s.reader t).isWaiting = true)
    (hflag : s.kbd.fflag = true) : s.Released t := by
  unfold Tty.Released
  cases hr : s.reader t with
  | waiting n => exact hflag
  | idle => simp [hr, Reading.isWaiting] at hwait
  | woken n => trivial

theorem RowOk.holding (h : RowOk s t) (hne : s.completed t ≠ s.delivered t) : ∃ l, Holding s t l :=
  h.resolve_left fun hdrained => hne hdrained.completed

theorem RowOk.holding_of_woken (h : RowOk s t) {n : Int} (hw : s.reader t = .woken n) :
    ∃ l, Holding s t l :=
  h.resolve_left fun hdrained => hdrained.reader n hw

theorem RowOk.drained_of_not_released (h : RowOk s t) (hr : ¬ s.Released t) : Drained s t :=
  h.resolve_right fun ⟨_, hhold⟩ => hr hhold.released

theorem RowOk.linesDelivered (h : RowOk s t) :
    s.completed t = s.delivered t ∨ ∃ l, s.completed t = s.delivered t ++ [l] ∧ s.Released t := by
  rcases h with hdrained | ⟨l, hhold⟩
  · exact .inl hdrained.completed
  · exact .inr ⟨l, hhold.completed, hhold.released⟩

/-- What a terminal's part of the invariant depends on. -/
structure SameRow (s s' : Tty) (t : Fin 6) : Prop where
  completed : s'.completed t = s.completed t
  delivered : s'.delivered t = s.delivered t
  typed : s'.typed t = s.typed t
  text : s'.kbd.text t = s.kbd.text t
  reader : s'.reader t = s.reader t
  length : s'.kbd.indEntered t = s.kbd.indEntered t

theorem RowOk.same (h : RowOk s t) (heq : SameRow s s' t)
    (hrel : s.completed t ≠ s.delivered t → s.Released t → s'.Released t) : RowOk s' t := by
  rcases h with hdrained | ⟨l, hhold⟩
  · left
    constructor
    · rw [heq.completed, heq.delivered, hdrained.completed]
    · rw [heq.text, heq.typed, hdrained.text]
    · rw [heq.reader]
      exact hdrained.reader
  · right
    refine ⟨l, ?_, ?_, hhold.nonempty, hhold.noNul, ?_, hrel hhold.ne hhold.released⟩
    · rw [heq.completed, heq.delivered, hhold.completed]
    · rw [heq.text, heq.typed, hhold.text]
    · rw [heq.length, hhold.length]

theorem Tty.Released.same (h : s.Released t) (hreader : s'.reader t = s.reader t)
    (hflag : s'.kbd.fflag = s.kbd.fflag) : s'.Released t := by
  unfold Tty.Released at *
  rw [hreader, hflag]
  exact h

/-- An empty row belongs to a terminal without a line to copy. -/
theorem RowOk.drained_of_empty (h : RowOk s t) (hempty : s.kbd.bufIndex t = 0) : Drained s t := by
  apply h.resolve_right
  rintro ⟨l, hhold⟩
  have hnil := text_eq_nil s.kbd hempty
  rw [hhold.text, List.append_eq_nil_iff] at hnil
  exact hhold.nonempty hnil.1

end rows

theorem TtyInv.linesDelivered {s : Tty} (h : TtyInv s) : LinesDelivered s :=
  fun t => (h.row t).linesDelivered

theorem bootTty_inv : TtyInv bootTty where
  last := rfl
  index := by
    intro t
    change 0 < bufSize
    decide
  nbytes := by
    rintro t n (h | h) <;> cases h
  row := by
    intro t
    left
    exact ⟨rfl, rfl, by simp [bootTty]⟩
  single := by
    intro t u ht
    exact absurd rfl ht

/-! ## Keys -/

section keys
variable {s : Tty}

theorem setLine_self (s : Tty) : s.setLine s.line = s := by
  simp [Tty.setLine, Tty.line]

/-- An edit of the end of the active terminal's row keeps the invariant, if the line is edited in
    the same way whatever stands before it. -/
theorem TtyInv.edit (h : TtyInv s) {kbd : Keyboard} {l : List UInt8}
    (hlast : kbd.buf (bufBytes - 1) = 0) (hindex : ∀ t, kbd.bufIndex t < bufSize)
    (hlength : kbd.indEntered = s.kbd.indEntered) (hflag : kbd.fflag = s.kbd.fflag)
    (hactive : ∀ pre, s.kbd.text s.kbd.active = pre ++ s.line →
      kbd.text s.kbd.active = pre ++ l)
    (hother : ∀ t ≠ s.kbd.active, kbd.text t = s.kbd.text t) :
    TtyInv { s.setLine l with kbd := kbd } where
  last := hlast
  index := hindex
  nbytes := h.nbytes
  row := by
    intro t
    by_cases ht : t = s.kbd.active
    · subst ht
      have htyped : (s.setLine l).typed s.kbd.active = l := Function.update_self _ _ _
      rcases h.row s.kbd.active with hdrained | ⟨m, hhold⟩
      · left
        refine ⟨hdrained.completed, ?_, hdrained.reader⟩
        exact (hactive [] hdrained.text).trans htyped.symm
      · right
        refine ⟨m, hhold.completed, ?_, hhold.nonempty, hhold.noNul, ?_, ?_⟩
        · exact (hactive m hhold.text).trans (congrArg (m ++ ·) htyped.symm)
        · exact (congrFun hlength _).trans hhold.length
        · exact hhold.released.same rfl hflag
    · apply (h.row t).same
      · constructor
        case text => exact hother t ht
        case typed => exact Function.update_of_ne ht _ _
        case length => exact congrFun hlength t
        all_goals rfl
      · intro _ hrel
        exact hrel.same rfl hflag
  single := h.single

/-- The key flags and the active terminal do not matter to the invariant. -/
theorem TtyInv.withKbd (h : TtyInv s) {kbd : Keyboard} (hbuf : kbd.buf = s.kbd.buf)
    (hindex : kbd.bufIndex = s.kbd.bufIndex) (hlength : kbd.indEntered = s.kbd.indEntered)
    (hflag : kbd.fflag = s.kbd.fflag) : TtyInv { s with kbd := kbd } := by
  have htext : ∀ t, kbd.text t = s.kbd.text t := by
    intro t
    apply text_congr
    · exact congrFun hindex t
    · intro i _
      exact congrFun hbuf _
  have hedit : TtyInv { s.setLine s.line with kbd := kbd } := by
    apply h.edit (hbuf ▸ h.last) (hindex ▸ h.index) hlength hflag
    · intro pre hpre
      exact (htext _).trans hpre
    · intro t _
      exact htext t
  rw [setLine_self] at hedit
  exact hedit

theorem TtyInv.index_lt (h : TtyInv s) : s.kbd.index < bufSize := h.index s.kbd.active

/-- A character goes to the end of the row and of the line. -/
theorem TtyInv.push (h : TtyInv s) (x : UInt8) (hroom : s.kbd.index < bufSize - 1) :
    TtyInv { s.setLine (s.line ++ [x]) with kbd := s.kbd.pushed x } := by
  apply h.edit
  case hlast => exact (put_last s.kbd _ x hroom).trans h.last
  case hindex =>
    intro t
    rw [pushed, setIndex_bufIndex]
    split
    · omega
    · exact h.index t
  case hlength => rfl
  case hflag => rfl
  case hactive =>
    intro pre hpre
    rw [pushed_text s.kbd x h.index_lt, hpre, List.append_assoc]
  case hother =>
    intro t ht
    exact pushed_text_ne s.kbd x h.index_lt ht (Nat.le_of_lt (h.index t))

theorem TtyInv.pushBlanks (h : TtyInv s) {n : Nat} (hroom : s.kbd.index + n < bufSize) :
    ∃ kbd, s.kbd.pushBlanks n = some kbd ∧
      TtyInv { s.setLine (s.line ++ List.replicate n 32) with kbd := kbd } := by
  have hblanks : ∃ kbd, s.kbd.pushBlanks n = some kbd ∧ kbd.active = s.kbd.active ∧
      TtyInv { s.setLine (s.line ++ List.replicate n 32) with kbd := kbd } := by
    refine pushBlanks_inv (P := fun i m => m.active = s.kbd.active ∧
      TtyInv { s.setLine (s.line ++ List.replicate i 32) with kbd := m }) ?_ (Nat.le_of_lt hroom) ?_
    · rw [List.replicate_zero, List.append_nil, setLine_self]
      exact ⟨rfl, h⟩
    · rintro i m hi hindex ⟨hactive, hm⟩
      have hpush := hm.push 32 (by change m.index < bufSize - 1; omega)
      have hline : ({ s.setLine (s.line ++ List.replicate i 32) with kbd := m } : Tty).line =
          s.line ++ List.replicate i 32 := by
        rw [Tty.line, hactive]
        exact Function.update_self _ _ _
      rw [hline, List.append_assoc, ← List.replicate_succ'] at hpush
      refine ⟨hactive, ?_⟩
      simpa [Tty.setLine, hactive] using hpush
  obtain ⟨kbd, hkbd, -, hinv⟩ := hblanks
  exact ⟨kbd, hkbd, hinv⟩

theorem TtyInv.line_eq_nil (h : TtyInv s) (hempty : s.kbd.index = 0) : s.line = [] :=
  ((h.row s.kbd.active).drained_of_empty hempty).text.symm.trans (text_eq_nil s.kbd hempty)

/-- Backspace takes the last character of the row and of the line. -/
theorem TtyInv.drop (h : TtyInv s) (hline : s.line ≠ []) :
    TtyInv { s.setLine s.line.dropLast with kbd := s.kbd.dropped } := by
  have hlt := h.index_lt
  have hpos : s.kbd.index ≠ 0 := fun hzero => hline (h.line_eq_nil hzero)
  apply h.edit
  case hlast =>
    exact (put_last (s.kbd.setIndex (s.kbd.index - 1)) _ 32 (by omega)).trans h.last
  case hindex =>
    intro t
    change (s.kbd.setIndex (s.kbd.index - 1)).bufIndex t < bufSize
    rw [setIndex_bufIndex]
    split
    · omega
    · exact h.index t
  case hlength => rfl
  case hflag => rfl
  case hactive =>
    intro pre hpre
    rw [dropped_text s.kbd hlt, hpre, List.dropLast_append_of_ne_nil hline]
  case hother =>
    intro t ht
    exact dropped_text_ne s.kbd hlt ht (Nat.le_of_lt (h.index t))

/-- Enter completes the line of a terminal whose reader waits. -/
theorem TtyInv.complete (h : TtyInv s) (hflag : s.kbd.fflag = false)
    (hwait : (s.reader s.kbd.active).isWaiting = true) (hnul : 0 ∉ s.line)
    (hpos : s.kbd.index ≠ 0) : TtyInv { s.complete with kbd := (s.kbd.checkBuf 10).2 } := by
  -- no reader in the loop has a line, because the flag is clear
  have hfree : ∀ t l, (s.reader t).isWaiting = true → ¬ Holding s t l := by
    intro t l ht hhold
    rw [hhold.fflag ht] at hflag
    cases hflag
  have hdrained : Drained s s.kbd.active :=
    (h.row s.kbd.active).resolve_right fun ⟨l, hhold⟩ => hfree _ l hwait hhold
  have hlen : s.kbd.index = s.line.length := by
    rw [Tty.line, ← hdrained.text, text_length, Keyboard.index]
  have hne : s.line ≠ [] := by
    intro hnil
    rw [hnil] at hlen
    exact hpos hlen
  have honly : ∀ t, s.complete.completed t ≠ s.delivered t → (s.reader t).isWaiting = true →
      t = s.kbd.active := by
    intro t hct ht
    by_contra hta
    have hsame : s.complete.completed t = s.completed t := Function.update_of_ne hta _ _
    obtain ⟨l, hhold⟩ := (h.row t).holding (hsame ▸ hct)
    exact hfree t l ht hhold
  constructor
  · exact h.last
  · exact h.index
  · exact h.nbytes
  · intro t
    by_cases ht : t = s.kbd.active
    · subst ht
      right
      refine ⟨s.line, ?_, ?_, hne, hnul, ?_, ?_⟩
      · exact (Function.update_self _ _ _).trans (by rw [hdrained.completed]; rfl)
      · have htyped : s.complete.typed s.kbd.active = [] := Function.update_self _ _ _
        have htext : s.kbd.text s.kbd.active = s.line ++ s.complete.typed s.kbd.active := by
          rw [htyped, List.append_nil]
          exact hdrained.text
        exact htext
      · exact (Function.update_self _ _ _).trans (by rw [hlen])
      · exact Tty.released_of_isWaiting hwait rfl
    · apply (h.row t).same
      · constructor
        case completed => exact Function.update_of_ne ht _ _
        case typed => exact Function.update_of_ne ht _ _
        case length => exact Function.update_of_ne ht _ _
        all_goals rfl
      · intro _ hrel
        cases hr : s.reader t with
        | idle => simp [Tty.Released, hr] at hrel
        | waiting m => simp [Tty.Released, Tty.complete, Tty.setLine, hr, checkBuf]
        | woken m => simp [Tty.Released, Tty.complete, Tty.setLine, hr]
  · intro t u hct ht hcu hu
    exact (honly t hct ht).trans (honly u hcu hu).symm

/-- A character is stored, in the row and in the history. -/
theorem TtyInv.char (h : TtyInv s) {x : UInt8} (hc : CarefulChar s x) :
    ∃ r, s.kbd.storeChar x = some r ∧ TtyInv { s.noteChar x with kbd := r.2 } := by
  obtain ⟨hroom, henter⟩ := hc
  refine ⟨_, storeChar_eq x h.index_lt, ?_⟩
  by_cases hfull : s.kbd.index = 127
  · rw [if_pos hfull]
    by_cases hx : x = 10
    · subst hx
      obtain ⟨hflag, hwait, hnul⟩ := henter rfl
      have hnote : s.noteChar 10 = s.complete := by simp [Tty.noteChar, hfull]
      rw [hnote]
      exact h.complete hflag hwait hnul (by omega)
    · have hnote : s.noteChar x = s := by simp [Tty.noteChar, hfull, hx]
      rw [hnote, checkBuf_of_ne hx]
      exact h
  · have hpush := h.push x (hroom.resolve_left hfull)
    rw [if_neg hfull]
    by_cases hx : x = 10
    · subst hx
      obtain ⟨hflag, hwait, hnul⟩ := henter rfl
      have hnote : s.noteChar 10 = (s.setLine (s.line ++ [10])).complete := by
        simp [Tty.noteChar, hfull]
      have hline : ({ s.setLine (s.line ++ [10]) with kbd := s.kbd.pushed 10 } : Tty).line =
          s.line ++ [10] := Function.update_self _ _ _
      have hindex : (s.kbd.pushed 10).index = s.kbd.index + 1 := setIndex_index _ _
      rw [hnote]
      apply hpush.complete hflag hwait
      · rw [hline]
        simp [hnul]
      · change (s.kbd.pushed 10).index ≠ 0
        omega
    · have hnote : s.noteChar x = s.setLine (s.line ++ [x]) := by simp [Tty.noteChar, hfull, hx]
      rw [hnote, checkBuf_of_ne hx]
      exact hpush

theorem TtyInv.key (h : TtyInv s) {scancode past junk : UInt8}
    (hc : Careful s (.key scancode past junk)) :
    ∃ s', ttyStep s (.key scancode past junk) = some s' ∧ TtyInv s' := by
  simp only [ttyStep, keyboardHandler, Careful] at hc ⊢
  generalize decode s.kbd.mods scancode past junk = decoded at hc ⊢
  obtain ⟨shown, action⟩ := decoded
  cases action with
  | modify m => exact ⟨_, rfl, h.withKbd rfl rfl rfl rfl⟩
  | switchTerm t => exact ⟨_, rfl, h.withKbd rfl rfl rfl rfl⟩
  | ignore => exact ⟨_, rfl, h⟩
  | tab =>
    obtain ⟨kbd, hkbd, hinv⟩ := h.pushBlanks hc
    exact ⟨_, by simp only [hkbd]; rfl, hinv⟩
  | char x =>
    obtain ⟨r, hr, hinv⟩ := h.char hc
    exact ⟨_, by simp only [hr]; rfl, hinv⟩
  | backspace =>
    have hback := backspacing_eq true h.index_lt
    by_cases hempty : s.kbd.index = 0
    · rw [if_pos ⟨rfl, hempty⟩] at hback
      refine ⟨_, by simp only [hback]; rfl, ?_⟩
      have hnote : s.note .backspace = s := by
        calc s.note .backspace = s.setLine s.line.dropLast := rfl
          _ = s.setLine s.line := by rw [h.line_eq_nil hempty, List.dropLast_nil]
          _ = s := setLine_self s
      rw [hnote]
      exact h
    · rw [if_neg (fun hand => hempty hand.2)] at hback
      exact ⟨_, by simp only [hback]; rfl, h.drop fun hnil => hempty (hc hnil)⟩

theorem TtyInv.resume (h : TtyInv s) {x : UInt8} (hc : Careful s (.resume x)) :
    ∃ s', ttyStep s (.resume x) = some s' ∧ TtyInv s' := by
  by_cases hleft : s.kbd.left = 0
  · exact ⟨s, if_pos hleft, h⟩
  · have h0 : TtyInv { s with kbd := { s.kbd with left := s.kbd.left - 1 } } :=
      h.withKbd rfl rfl rfl rfl
    obtain ⟨r, hr, hinv⟩ := h0.char (hc hleft)
    refine ⟨_, ?_, hinv⟩
    simp only [ttyStep, if_neg hleft, hr]
    rfl

end keys

/-! ## Readers -/

section readers
variable {s : Tty} {t : Fin 6}

/-- A step of the reader of `t` keeps the invariant if it keeps the rows: it leaves `t` without a
    line to copy or its reader outside the loop. -/
theorem TtyInv.reader_step (h : TtyInv s) {s' : Tty} (hlast : s'.kbd.buf (bufBytes - 1) = 0)
    (hindex : ∀ u, s'.kbd.bufIndex u < bufSize)
    (hnbytes : ∀ n, s'.reader t = .waiting n ∨ s'.reader t = .woken n → n < bufSize)
    (hrow : ∀ u, RowOk s' u) (hreader : ∀ u ≠ t, s'.reader u = s.reader u)
    (hcompleted : s'.completed = s.completed) (hdelivered : ∀ u ≠ t, s'.delivered u = s.delivered u)
    (hdone : s'.completed t = s'.delivered t ∨ (s'.reader t).isWaiting = false) : TtyInv s' where
  last := hlast
  index := hindex
  nbytes := by
    intro u n hn
    by_cases hu : u = t
    · exact hnbytes n (hu ▸ hn)
    · rw [hreader u hu] at hn
      exact h.nbytes u n hn
  row := hrow
  single := by
    have hold : ∀ u, s'.completed u ≠ s'.delivered u → (s'.reader u).isWaiting = true →
        s.completed u ≠ s.delivered u ∧ (s.reader u).isWaiting = true := by
      intro u hne hwait
      have hu : u ≠ t := by
        rintro rfl
        rcases hdone with heq | hout
        · exact hne heq
        · rw [hout] at hwait
          cases hwait
      rw [hcompleted, hdelivered u hu] at hne
      rw [hreader u hu] at hwait
      exact ⟨hne, hwait⟩
    intro u v hcu hu hcv hv
    obtain ⟨hcu, hu⟩ := hold u hcu hu
    obtain ⟨hcv, hv⟩ := hold v hcv hv
    exact h.single u v hcu hu hcv hv

theorem setReader_self (r : Reading) : (s.setReader t r).reader t = r := Function.update_self _ _ _

theorem setReader_ne (r : Reading) {u : Fin 6} (hu : u ≠ t) :
    (s.setReader t r).reader u = s.reader u := Function.update_of_ne hu _ _

theorem deliver_self (s : Tty) (t : Fin 6) (value : Int) (data : List UInt8) :
    (s.deliver t value data).delivered t = s.delivered t ++ [data.take value.toNat] :=
  Function.update_self _ _ _

/-- Starting a read when the row of the active terminal is empty changes no text. -/
theorem readStart_text (k : Keyboard) (n : Int) (hempty : k.index = 0) (u : Fin 6) :
    (k.readStart n).text u = k.text u := by
  apply text_congr
  · change (k.setIndex 0).bufIndex u = k.bufIndex u
    rw [setIndex_bufIndex]
    split
    next hu => rw [hu]; exact hempty.symm
    next => rfl
  · intro i _
    rfl

theorem TtyInv.readStart (h : TtyInv s) {n : Int} (hc : Careful s (.readStart t n)) :
    ∃ s', ttyStep s (.readStart t n) = some s' ∧ KeepsOthers s (.readStart t n) s' ∧ TtyInv s' := by
  cases hr : s.reader t with
  | waiting m => exact ⟨s, by simp only [ttyStep, hr], fun _ _ => rfl, h⟩
  | woken m => exact ⟨s, by simp only [ttyStep, hr], fun _ _ => rfl, h⟩
  | idle =>
    obtain ⟨hempty, hn⟩ := hc hr
    have htext := readStart_text s.kbd n hempty
    have hdrained : Drained s t := by
      apply (h.row t).drained_of_not_released
      simp [Tty.Released, hr]
    refine ⟨{ s.setReader t (.waiting n) with kbd := s.kbd.readStart n },
      by simp only [ttyStep, hr], fun u _ => htext u, ?_⟩
    apply TtyInv.reader_step h (t := t)
    case hlast => exact h.last
    case hindex =>
      intro u
      have hlen := congrArg List.length (htext u)
      rw [text_length, text_length] at hlen
      exact hlen ▸ h.index u
    case hnbytes =>
      rintro m (hm | hm)
      · cases (setReader_self _).symm.trans hm
        exact hn
      · cases (setReader_self _).symm.trans hm
    case hrow =>
      intro u
      by_cases hut : u = t
      · subst hut
        left
        refine ⟨hdrained.completed, (htext u).trans hdrained.text, ?_⟩
        intro m hm
        cases (setReader_self _).symm.trans hm
      · by_cases hactive : u = s.kbd.active
        · -- the noted length is overwritten, but no line is waiting in an empty row
          have hq := (h.row u).drained_of_empty (hactive ▸ hempty)
          left
          refine ⟨hq.completed, (htext u).trans hq.text, ?_⟩
          intro m hm
          exact hq.reader m ((setReader_ne _ hut).symm.trans hm)
        · apply (h.row u).same
          · constructor
            case text => exact htext u
            case reader => exact setReader_ne _ hut
            case length => exact Function.update_of_ne hactive _ _
            all_goals rfl
          · intro _ hrel
            exact hrel.same (setReader_ne _ hut) rfl
    case hreader => exact fun u hu => setReader_ne _ hu
    case hcompleted => rfl
    case hdelivered => exact fun _ _ => rfl
    case hdone => exact .inl hdrained.completed

/-- The reader that finds the flag set is the one whose line it stands for. -/
theorem TtyInv.readWake (h : TtyInv s) (hc : Careful s (.readWake t)) :
    ∃ s', ttyStep s (.readWake t) = some s' ∧ KeepsOthers s (.readWake t) s' ∧ TtyInv s' := by
  cases hr : s.reader t with
  | idle => exact ⟨s, by simp only [ttyStep, hr], fun _ _ => rfl, h⟩
  | woken m => exact ⟨s, by simp only [ttyStep, hr], fun _ _ => rfl, h⟩
  | waiting n =>
    by_cases hflag : s.kbd.fflag = true
    · have hwaiting : (s.reader t).isWaiting = true := by rw [hr]; rfl
      have hct := hc ⟨hwaiting, hflag⟩
      obtain ⟨l, hhold⟩ := (h.row t).holding hct
      refine ⟨{ s.setReader t (.woken n) with kbd := { s.kbd with fflag := false } },
        by simp only [ttyStep, hr, Keyboard.readWake, hflag, if_true], fun _ _ => rfl, ?_⟩
      apply TtyInv.reader_step h (t := t)
      case hlast => exact h.last
      case hindex => exact h.index
      case hnbytes =>
        rintro m (hm | hm)
        · cases (setReader_self _).symm.trans hm
        · cases (setReader_self _).symm.trans hm
          exact h.nbytes t n (.inl hr)
      case hrow =>
        intro u
        by_cases hut : u = t
        · subst hut
          right
          refine ⟨l, hhold.completed, hhold.text, hhold.nonempty, hhold.noNul, hhold.length, ?_⟩
          unfold Tty.Released
          simp [Tty.setReader]
        · apply (h.row u).same
          · constructor
            case reader => exact setReader_ne _ hut
            all_goals rfl
          · -- a reader still in the loop would have a line of its own
            intro hcu hrel
            unfold Tty.Released at *
            change match (s.setReader t (.woken n)).reader u with
              | .idle => False
              | .waiting _ => false = true
              | .woken _ => True
            rw [setReader_ne _ hut]
            cases hu : s.reader u with
            | idle => simp [hu] at hrel
            | woken m => trivial
            | waiting m =>
              have hwaitu : (s.reader u).isWaiting = true := by rw [hu]; rfl
              exact absurd (h.single u t hcu hwaitu hct hwaiting) hut
      case hreader => exact fun u hu => setReader_ne _ hu
      case hcompleted => rfl
      case hdelivered => exact fun _ _ => rfl
      case hdone => exact .inr (congrArg Reading.isWaiting (setReader_self _))
    · exact ⟨s, by simp only [ttyStep, hr, if_neg hflag], fun _ _ => rfl, h⟩

/-- The reader of the active terminal receives the line at the start of its row. -/
theorem Holding.received {l : List UInt8} (h : Holding s t l) (hnil : s.typed t = [])
    (hindex : s.kbd.bufIndex t < bufSize) {len : Nat} {data : List UInt8}
    (hcopy : strcpy (s.kbd.row t) len = some data) :
    data.take (s.kbd.indEntered t).toInt.toNat = l := by
  have htext : s.kbd.text t = l := by rw [h.text, hnil, List.append_nil]
  have hlen : s.kbd.bufIndex t = l.length := by rw [← text_length, htext]
  have hvalue : (s.kbd.indEntered t).toInt.toNat = l.length := by
    unfold bufSize at hindex
    have hsmall : (BitVec.ofNat 32 l.length).toNat = l.length := by
      rw [BitVec.toNat_ofNat]
      omega
    rw [h.length, BitVec.toInt_eq_toNat_of_lt (by omega), hsmall, Int.toNat_natCast]
  have hne : ∀ j < l.length, s.kbd.row t j ≠ 0 := by
    intro j hj hzero
    apply h.noNul
    rw [← htext, Keyboard.text, mem_slice]
    exact ⟨j, ⟨by omega, by omega⟩, hzero⟩
  rw [hvalue, strcpy_take hcopy hne, ← hlen]
  exact htext

theorem TtyInv.readDone (h : TtyInv s) (hc : Careful s (.readDone t)) :
    ∃ s', ttyStep s (.readDone t) = some s' ∧ KeepsOthers s (.readDone t) s' ∧ TtyInv s' := by
  cases hr : s.reader t with
  | idle => exact ⟨s, by simp only [ttyStep, hr], fun _ _ => rfl, h⟩
  | waiting m => exact ⟨s, by simp only [ttyStep, hr], fun _ _ => rfl, h⟩
  | woken n =>
    simp only [Careful, hr] at hc
    obtain ⟨rfl, hline⟩ := hc
    obtain ⟨l, hhold⟩ := (h.row s.kbd.active).holding_of_woken hr
    have hn := h.nbytes s.kbd.active n (.inr hr)
    obtain ⟨data, hcopy, hclear⟩ := clearBuffer_eq h.last hn
    have hreceived := hhold.received hline h.index_lt hcopy
    have hothers : ∀ u ≠ s.kbd.active, (s.kbd.cleared n).text u = s.kbd.text u :=
      fun u hu => cleared_text_ne s.kbd hn hu (Nat.le_of_lt (h.index u))
    have hdone : s.kbd.readDone n =
        some ((s.kbd.indEntered s.kbd.active).toInt, data, s.kbd.cleared n) := by
      rw [Keyboard.readDone, hclear]
      rfl
    have hdelivered : s.delivered s.kbd.active ++
        [data.take (s.kbd.indEntered s.kbd.active).toInt.toNat] = s.completed s.kbd.active := by
      rw [hreceived, hhold.completed]
    refine ⟨{ (s.setReader s.kbd.active .idle).deliver s.kbd.active
        (s.kbd.indEntered s.kbd.active).toInt data with kbd := s.kbd.cleared n },
      by simp only [ttyStep, hr, hdone]; rfl, hothers, ?_⟩
    have hequal : s.completed s.kbd.active = ((s.setReader s.kbd.active .idle).deliver s.kbd.active
        (s.kbd.indEntered s.kbd.active).toInt data).delivered s.kbd.active :=
      hdelivered.symm.trans (deliver_self _ _ _ _).symm
    apply TtyInv.reader_step h (t := s.kbd.active)
    case hlast => exact (cleared_last hn).trans h.last
    case hindex =>
      intro u
      change (s.kbd.setIndex 0).bufIndex u < bufSize
      rw [setIndex_bufIndex]
      split
      · decide
      · exact h.index u
    case hnbytes =>
      rintro m (hm | hm) <;> cases (setReader_self _).symm.trans hm
    case hrow =>
      intro u
      by_cases hu : u = s.kbd.active
      · subst hu
        left
        refine ⟨hequal, ?_, ?_⟩
        · exact (text_eq_nil (s.kbd.cleared n) (Function.update_self _ _ _)).trans hline.symm
        · intro m hm
          cases (setReader_self _).symm.trans hm
      · apply (h.row u).same
        · constructor
          case text => exact hothers u hu
          case reader => exact setReader_ne _ hu
          case delivered => exact Function.update_of_ne hu _ _
          all_goals rfl
        · intro _ hrel
          exact hrel.same (setReader_ne _ hu) rfl
    case hreader => exact fun u hu => setReader_ne _ hu
    case hcompleted => rfl
    case hdelivered => exact fun u hu => Function.update_of_ne hu _ _
    case hdone => exact .inl hequal

end readers

/-! ## Runs -/

theorem TtyInv.step {s : Tty} (h : TtyInv s) {e : TtyEvent} (hc : Careful s e) :
    ∃ s', ttyStep s e = some s' ∧ KeepsOthers s e s' ∧ TtyInv s' := by
  cases e with
  | key scancode past junk =>
    obtain ⟨s', hs', hinv⟩ := h.key hc
    exact ⟨s', hs', trivial, hinv⟩
  | resume x =>
    obtain ⟨s', hs', hinv⟩ := h.resume hc
    exact ⟨s', hs', trivial, hinv⟩
  | readStart t n => exact h.readStart hc
  | readWake t => exact h.readWake hc
  | readDone t => exact h.readDone hc

/-- In a run of careful steps every completed line goes to a reader of its terminal, once and in
    order, and no reader discards what was typed in another terminal. -/
theorem lines_delivered {es : List TtyEvent} (h : EachStep ttyStep Careful bootTty es) :
    Holds ttyStep LinesDelivered bootTty es ∧ Runs ttyStep KeepsOthers bootTty es := by
  constructor
  · refine holds_of_inv (fun s (hs : TtyInv s) => hs.linesDelivered) ?_ bootTty_inv h
    intro s e hs hc
    obtain ⟨s', hs', -, hinv⟩ := hs.step hc
    exact ⟨s', hs', hinv⟩
  · exact runs_of_inv_each (fun s e hs hc => hs.step hc) bootTty_inv h

/-- Alt with the function key of terminal `t`. -/
def switchTo (t : Fin 6) : List TtyEvent :=
  [.key 0x38 0 0, .key (0x3B + UInt8.ofNat t) 0 0, .key 0xB8 0 0]

/-- The shells of `t` and `u` wait. The user has typed `l` in `t`, types a line in
    `u`, and comes back. -/
def lineEach (t u : Fin 6) : List TtyEvent :=
  [.readStart t 128, .key 0x26 0 0] ++ switchTo u ++ [.readStart u 128, .resume 46, .key 0x1F 0 0,
    .key 0x1C 0 0, .readWake u, .readDone u] ++ switchTo t ++ [.key 0x1C 0 0, .readWake t,
    .readDone t]

theorem lines_delivered_lineEach :
    EachStep ttyStep Careful bootTty (lineEach 0 1) ∧
      Holds ttyStep LinesDelivered bootTty (lineEach 0 1) ∧
      Runs ttyStep KeepsOthers bootTty (lineEach 0 1) := by
  have hcareful : EachStep ttyStep Careful bootTty (lineEach 0 1) := by decide
  exact ⟨hcareful, lines_delivered hcareful⟩

/-- Both shells wait and a line is typed in `u`. If the shell of `t` runs next, out of the handler
    that switched away from it, it takes the line, and the other one goes on waiting. -/
def lineTaken (t u : Fin 6) : List TtyEvent :=
  [.readStart t 128] ++ switchTo u ++ [.readStart u 128, .key 0x26 0 0, .key 0x1C 0 0, .resume 46,
    .readWake t, .readDone t]

theorem line_goes_to_another_terminal :
    ¬ ∀ es, Holds ttyStep LinesDelivered bootTty es ∧ Runs ttyStep KeepsOthers bootTty es := by
  intro hall
  have hrun : (runFrom ttyStep bootTty (lineTaken 0 1)).map
      (fun s => (s.completed 0, s.delivered 0)) = some ([], [[108, 10]]) := by decide
  obtain ⟨s, hs, heq⟩ := Option.map_eq_some_iff.mp hrun
  obtain ⟨hcompleted, hdelivered⟩ := Prod.mk.inj heq
  rcases (hall (lineTaken 0 1)).1.last hs 0 with hsame | ⟨l, happend, -⟩
  · rw [hcompleted, hdelivered] at hsame
    cases hsame
  · rw [hcompleted, hdelivered] at happend
    cases happend

end OreOS
