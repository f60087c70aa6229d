import OreOS.Keyboard.Proofs.Modifiers
import OreOS.Keyboard.Proofs.Steps

/-!
# Reading a line back

A line goes into the row of the terminal key by key and comes out of it by a `strcpy`, which also
copies what earlier lines and the blanks of `clear_buffer` left behind it. As long as nothing is
stored in the last byte of the row, there is a NUL behind all of that, and the first bytes of the
copy are the line as it was edited, whatever was read before.
-/

namespace OreOS
open Machine Keyboard

/-! ## Editing a line -/

/-- A key that is pressed, with the two bytes that the handler may find outside. -/
structure KeyPress where
  scancode : UInt8
  past : UInt8
  junk : UInt8
  deriving DecidableEq, Repr

/-- The interrupt of the key. -/
def KeyPress.event (p : KeyPress) : KeyboardEvent := .key p.scancode p.past p.junk

/-- The make code of a key other than Enter that has a character in `kbd`. -/
def KeyPress.Edits (p : KeyPress) : Prop :=
  p.scancode.toNat < 128 ∧ kbdAt p.scancode p.past ≠ 0 ∧ p.scancode ≠ 0x1C

instance (p : KeyPress) : Decidable p.Edits := inferInstanceAs (Decidable (_ ∧ _))

/-- What a key does to the line that is being typed. -/
def KeyPress.edit (line : List UInt8) (p : KeyPress) : List UInt8 :=
  if p.scancode = 0x0E then line.dropLast
  else if p.scancode = 0x0F then line ++ List.replicate 4 32
  else line ++ [kbdAt p.scancode p.past]

/-- The line after the keys `keys`. -/
def edited (keys : List KeyPress) : List UInt8 := keys.foldl KeyPress.edit []

/-- Never more than 126 characters are pending, from the line `line` on. -/
def StaysShort : List UInt8 → List KeyPress → Prop
  | line, [] => line.length ≤ 126
  | line, p :: keys => line.length ≤ 126 ∧ StaysShort (p.edit line) keys

/-- What an action of the handler does to the line that is being typed. -/
def KeyAction.edit (line : List UInt8) : KeyAction → List UInt8
  | .backspace => line.dropLast
  | .tab => line ++ List.replicate 4 32
  | .char x => line ++ [x]
  | .modify _ | .switchTerm _ | .ignore => line

/-- An action that keeps to the terminal and to a line of at most 126 characters that are neither
NUL nor a newline. -/
def KeyAction.InLine (line : List UInt8) : KeyAction → Prop
  | .backspace | .modify _ | .ignore => True
  | .tab => line.length + 4 ≤ 126
  | .char x => x ≠ 0 ∧ x ≠ 10 ∧ line.length + 1 ≤ 126
  | .switchTerm t => t = firstTerm

instance (line : List UInt8) : ∀ a, Decidable (KeyAction.InLine line a)
  | .backspace | .modify _ | .ignore => isTrue trivial
  | .tab => inferInstanceAs (Decidable (_ ≤ _))
  | .char _ => inferInstanceAs (Decidable (_ ∧ _))
  | .switchTerm _ => inferInstanceAs (Decidable (_ = _))

theorem KeyAction.InLine.length_edit {line : List UInt8} (hfit : line.length ≤ 126) {a : KeyAction}
    (h : a.InLine line) : (a.edit line).length ≤ 126 := by
  cases a with
  | backspace =>
    rw [KeyAction.edit, List.length_dropLast]
    omega
  | tab =>
    rw [KeyAction.edit, List.length_append, List.length_replicate]
    exact h
  | char x =>
    rw [KeyAction.edit, List.length_append, List.length_singleton]
    exact h.2.2
  | modify _ | switchTerm _ | ignore => exact hfit

/-! ## The row of the terminal -/

/-- The first terminal is active, and the last byte of its row is still NUL. -/
structure InRow (k : Keyboard) : Prop where
  active : k.active = 0
  index : k.index < bufSize
  last : k.row 0 (bufSize - 1) = 0

/-- The key does not leave the terminal and stores nothing in the last byte of its row. -/
def KeyInRow (k : Keyboard) : KeyAction → Prop
  | .switchTerm t => t = firstTerm
  | .char _ => k.index = 127 ∨ k.index < bufSize - 1
  | .tab => k.index + 4 < bufSize
  | _ => True

instance decidableKeyInRow (k : Keyboard) : ∀ a, Decidable (KeyInRow k a)
  | .modify _ => isTrue trivial
  | .backspace => isTrue trivial
  | .tab => inferInstanceAs (Decidable (k.index + 4 < bufSize))
  | .switchTerm t => inferInstanceAs (Decidable (t = firstTerm))
  | .char _ => inferInstanceAs (Decidable (k.index = 127 ∨ k.index < bufSize - 1))
  | .ignore => isTrue trivial

/-- The same for every step. -/
def StaysInRow (k : Keyboard) : KeyboardEvent → Prop
  | .key scancode past junk => KeyInRow k (decode k.mods scancode past junk).2
  | .resume _ => k.left = 0 ∨ k.index = 127 ∨ k.index < bufSize - 1
  | .readStart _ => True
  | .readWake => True
  | .readDone nbytes => nbytes < bufSize
  | .write _ _ => True

instance decidableStaysInRow (k : Keyboard) : ∀ e, Decidable (StaysInRow k e)
  | .key scancode past junk => decidableKeyInRow k (decode k.mods scancode past junk).2
  | .resume _ => inferInstanceAs (Decidable (k.left = 0 ∨ k.index = 127 ∨ k.index < bufSize - 1))
  | .readStart _ => isTrue trivial
  | .readWake => isTrue trivial
  | .readDone nbytes => inferInstanceAs (Decidable (nbytes < bufSize))
  | .write _ _ => isTrue trivial

namespace InRow
variable {k k' : Keyboard}

/-- What the row depends on. -/
theorem same (h : InRow k) (hactive : k'.active = k.active) (hindex : k'.bufIndex = k.bufIndex)
    (hbuf : k'.buf = k.buf) : InRow k' where
  active := hactive.trans h.active
  index := by
    rw [Keyboard.index, hactive, hindex]
    exact h.index
  last := by
    rw [Keyboard.row, hbuf]
    exact h.last

theorem put (h : InRow k) {i : Nat} (x : UInt8) (hi : i < bufSize - 1) : InRow (k.put i x) where
  active := h.active
  index := h.index
  last := by
    have hne : bufSize - 1 ≠ i := Nat.ne_of_gt hi
    rw [put_row k x (Nat.lt_of_lt_of_le hi (Nat.sub_le _ _)) (by decide),
      if_neg fun hand => hne hand.2]
    exact h.last

theorem setIndex (h : InRow k) {i : Nat} (hi : i < bufSize) : InRow (k.setIndex i) where
  active := h.active
  index := by
    rw [setIndex_index]
    exact hi
  last := h.last

theorem pushed (h : InRow k) (x : UInt8) (hroom : k.index < bufSize - 1) : InRow (k.pushed x) :=
  (h.put x hroom).setIndex (by omega)

theorem dropped (h : InRow k) : InRow k.dropped := by
  have hlt := h.index
  unfold bufSize at hlt
  exact (h.setIndex (by unfold bufSize; omega)).put 32 (by unfold bufSize; omega)

theorem checkBuf (h : InRow k) (x : UInt8) : InRow (k.checkBuf x).2 := by
  unfold Keyboard.checkBuf
  split
  · exact h.same rfl rfl rfl
  · exact h

theorem pushBlanks (h : InRow k) {n : Nat} (hroom : k.index + n < bufSize) :
    k.pushBlanks n = some k' → InRow k' := by
  intro hk'
  obtain ⟨m, hm, hend⟩ := pushBlanks_inv (P := fun _ m => InRow m) h (Nat.le_of_lt hroom)
    fun i m hi hindex hm => hm.pushed 32 (by omega)
  cases hm.symm.trans hk'
  exact hend

theorem storeChar (h : InRow k) {x : UInt8} (hroom : k.index = 127 ∨ k.index < bufSize - 1)
    {shown : List ScreenOp} (hk' : k.storeChar x = some (shown, k')) : InRow k' := by
  rw [storeChar_eq x h.index] at hk'
  obtain ⟨-, rfl⟩ := Prod.mk.inj (Option.some.inj hk')
  apply InRow.checkBuf
  split
  · exact h
  next hfull => exact h.pushed x (hroom.resolve_left hfull)

theorem backspacing (h : InRow k) {physical : Bool} {shown : List ScreenOp}
    (hk' : k.backspacing physical = some (shown, k')) : InRow k' := by
  rw [backspacing_eq physical h.index] at hk'
  split at hk'
  · cases hk'
    exact h
  · cases hk'
    exact h.dropped

/-- `clear_buffer` leaves the last byte of the row. -/
theorem cleared (h : InRow k) {n : Int} (hn : n < bufSize) : InRow (k.cleared n) where
  active := h.active
  index := by
    have hzero : (k.cleared n).index = 0 := Function.update_self _ _ _
    rw [hzero]
    decide
  last := by
    rw [Keyboard.row, cleared_buf hn]
    · exact h.last
    · intro i hi heq
      have := ((offset_inj (by decide) (by omega)).mp heq).2
      omega

/-- One step that stays in the row. -/
theorem step (h : InRow k) {e : KeyboardEvent} (hc : StaysInRow k e)
    (hk' : keyboardStep k e = some k') : InRow k' := by
  have h0 : InRow { k with written := [] } := h.same rfl rfl rfl
  cases e with
  | key scancode past junk =>
    obtain ⟨⟨shown, k''⟩, hkey, rfl⟩ := Option.map_eq_some_iff.mp hk'
    unfold keyboardHandler at hkey
    unfold StaysInRow at hc
    cases hact : (decode k.mods scancode past junk).2 with
    | modify m =>
      simp only [hact] at hkey
      cases hkey
      exact h.same rfl rfl rfl
    | backspace =>
      simp only [hact] at hkey
      exact h0.backspacing hkey
    | tab =>
      simp only [hact] at hkey hc
      obtain ⟨k3, hpush, heq⟩ := Option.map_eq_some_iff.mp hkey
      cases heq
      exact h0.pushBlanks hc hpush
    | switchTerm t =>
      simp only [hact] at hkey hc
      cases hkey
      exact h0.same (hc.trans h.active.symm) rfl rfl
    | char x =>
      simp only [hact] at hkey hc
      obtain ⟨⟨more, k3⟩, hstore, heq⟩ := Option.map_eq_some_iff.mp hkey
      cases heq
      exact h0.storeChar hc hstore
    | ignore =>
      simp only [hact] at hkey
      cases hkey
      exact h0
  | resume x =>
    simp only [keyboardStep] at hk'
    split at hk'
    · cases hk'
      exact h0
    next hleft =>
      obtain ⟨⟨shown, k''⟩, hstore, rfl⟩ := Option.map_eq_some_iff.mp hk'
      have h1 : InRow { k with written := [], left := k.left - 1 } := h.same rfl rfl rfl
      exact h1.storeChar (hc.resolve_left hleft) hstore
  | readStart n =>
    cases hk'
    exact (h0.setIndex (i := 0) (by decide)).same rfl rfl rfl
  | readWake =>
    cases hk'
    unfold Keyboard.readWake
    split
    · exact h0.same rfl rfl rfl
    · exact h0
  | readDone n =>
    obtain ⟨⟨value, data, k''⟩, hdone, rfl⟩ := Option.map_eq_some_iff.mp hk'
    obtain ⟨⟨data', k3⟩, hclear, heq⟩ := Option.bind_eq_some_iff.mp hdone
    cases heq
    rw [(clearBuffer_eq_some_iff.mp hclear).2.2]
    exact h0.cleared hc
  | write buf1 n =>
    obtain ⟨⟨shown, k''⟩, hwrite, rfl⟩ := Option.map_eq_some_iff.mp hk'
    unfold Keyboard.writeTerminal at hwrite
    by_cases hn : n ≠ bufSize - 1
    · simp only [if_pos hn, Option.bind_eq_bind] at hwrite
      obtain ⟨⟨back, k3⟩, hback, heq⟩ := Option.bind_eq_some_iff.mp hwrite
      cases heq
      exact ((h0.backspacing hback).setIndex (i := 0) (by decide)).same rfl rfl rfl
    · simp only [if_neg hn, Option.bind_eq_bind, Option.bind_some] at hwrite
      cases hwrite
      exact (h0.setIndex (i := 0) (by decide)).same rfl rfl rfl

end InRow

theorem inRow_boot : InRow bootKeyboard := ⟨rfl, show 0 < bufSize by decide, rfl⟩

/-! ## A line in the row -/

/-- The keyboard while a reader waits and `line` is being typed, whatever keys are held. -/
structure Waiting (k : Keyboard) (line : List UInt8) : Prop extends InRow k where
  fflag : k.fflag = false
  text : k.text 0 = line
  noNul : 0 ∉ line

namespace Waiting
variable {k : Keyboard} {line : List UInt8}

theorem index_eq (h : Waiting k line) : k.index = line.length := by
  rw [Keyboard.index, h.active, ← text_length, h.text]

theorem pushed (h : Waiting k line) {x : UInt8} (hx : x ≠ 0) (hroom : k.index < bufSize - 1) :
    Waiting (k.pushed x) (line ++ [x]) where
  toInRow := h.toInRow.pushed x hroom
  fflag := h.fflag
  text := by
    have hpush := pushed_text k x h.index
    rw [h.active, h.text] at hpush
    exact hpush
  noNul := by
    have hline := h.noNul
    simp [hline, hx.symm]

theorem pushBlanks (h : Waiting k line) {n : Nat} (hroom : k.index + n < bufSize) :
    ∃ k', k.pushBlanks n = some k' ∧ Waiting k' (line ++ List.replicate n 32) := by
  refine pushBlanks_inv (P := fun i m => Waiting m (line ++ List.replicate i 32)) ?_
    (Nat.le_of_lt hroom) ?_
  · rw [List.replicate_zero, List.append_nil]
    exact h
  · intro i m hi hindex hm
    have hpush := hm.pushed (x := 32) (by decide) (by omega)
    rw [List.append_assoc, ← List.replicate_succ'] at hpush
    exact hpush

theorem dropped (h : Waiting k line) : Waiting k.dropped line.dropLast where
  toInRow := h.toInRow.dropped
  fflag := h.fflag
  text := by
    have hdrop := dropped_text k h.index
    rw [h.active, h.text] at hdrop
    exact hdrop
  noNul := fun hmem => h.noNul (List.dropLast_subset line hmem)

/-- What a line that is being typed depends on. -/
theorem same (h : Waiting k line) {k' : Keyboard} (hactive : k'.active = k.active)
    (hindex : k'.bufIndex = k.bufIndex) (hbuf : k'.buf = k.buf) (hflag : k'.fflag = k.fflag) :
    Waiting k' line where
  toInRow := h.toInRow.same hactive hindex hbuf
  fflag := hflag.trans h.fflag
  text := by
    have hsame : k'.text 0 = k.text 0 :=
      text_congr (congrFun hindex 0) fun i _ => congrFun hbuf _
    exact hsame.trans h.text
  noNul := h.noNul

/-- `written` is emptied before every step. -/
theorem fresh (h : Waiting k line) : Waiting { k with written := [] } line := h.same rfl rfl rfl rfl

/-- A key of the line, under whatever modifiers. -/
theorem handled (h : Waiting k line) {scancode past junk : UInt8} (hfit : line.length ≤ 126)
    (ha : (decode k.mods scancode past junk).2.InLine line) :
    ∃ r, keyboardHandler scancode past junk k = some r ∧
      Waiting r.2 ((decode k.mods scancode past junk).2.edit line) := by
  have hindex := h.index_eq
  have hroom : line.length < bufSize - 1 := Nat.lt_of_le_of_lt hfit (by decide)
  unfold keyboardHandler
  generalize decode k.mods scancode past junk = decoded at ha ⊢
  obtain ⟨shown, action⟩ := decoded
  cases action with
  | modify m => exact ⟨_, rfl, h.same rfl rfl rfl rfl⟩
  | backspace =>
    simp only [backspacing_eq true h.index]
    by_cases hempty : line = []
    · subst hempty
      rw [if_pos ⟨trivial, hindex⟩]
      exact ⟨_, rfl, h⟩
    · have hpos : k.index ≠ 0 := by
        rw [hindex]
        exact mt List.eq_nil_of_length_eq_zero hempty
      rw [if_neg fun hand => hpos hand.2]
      exact ⟨_, rfl, h.dropped⟩
  | tab =>
    have hblanks : k.index + 4 < bufSize := by
      rw [hindex]
      exact Nat.lt_of_le_of_lt ha (by decide)
    obtain ⟨k', hk', hinv⟩ := h.pushBlanks hblanks
    exact ⟨_, by simp only [hk']; rfl, hinv⟩
  | switchTerm t =>
    have ht : t = firstTerm := ha
    exact ⟨_, rfl, h.same (ht.trans h.active.symm) rfl rfl rfl⟩
  | char x =>
    obtain ⟨hnul, hnewline, -⟩ := ha
    simp only [storeChar_eq _ h.index, if_neg (show k.index ≠ 127 by omega),
      checkBuf_of_ne hnewline]
    exact ⟨_, rfl, h.pushed hnul (by omega)⟩
  | ignore => exact ⟨_, rfl, h⟩

end Waiting

/-- The same while no modifier key is held. -/
structure Typing (k : Keyboard) (line : List UInt8) : Prop extends Waiting k line where
  mods : k.mods = ⟨false, false, false, false⟩

/-- `written` is emptied before every step. -/
theorem Typing.fresh {k : Keyboard} {line : List UInt8} (h : Typing k line) :
    Typing { k with written := [] } line := ⟨h.toWaiting.fresh, h.mods⟩

/-- Without modifiers a key other than Tab and Backspace shows and stores its character. -/
theorem decode_edits {p : KeyPress} (h : p.Edits) :
    decode ⟨false, false, false, false⟩ p.scancode p.past p.junk =
      if p.scancode = 0x0E then ([], .backspace)
      else if p.scancode = 0x0F then (List.replicate 4 (.putc 32), .tab)
      else ([.putc (kbdAt p.scancode p.past)], .char (kbdAt p.scancode p.past)) := by
  obtain ⟨hmake, hchar, -⟩ := h
  have hne : ∀ s : UInt8, kbdAt s p.past = 0 → p.scancode ≠ s := by
    rintro s hs rfl
    exact hchar hs
  have hbig : ∀ s : UInt8, 128 ≤ s.toNat → p.scancode ≠ s := by
    rintro s hs rfl
    omega
  have hle : p.scancode ≤ 0x80 := by
    rw [UInt8.le_iff_toNat_le]
    exact Nat.le_of_lt hmake
  unfold decode
  simp only [hne 0x3A rfl, hne 0x2A rfl, hne 0x36 rfl, hne 0x1D rfl, hne 0x38 rfl,
    hbig 0xAA (by decide), hbig 0xB6 (by decide), hbig 0xE0 (by decide), hbig 0x9D (by decide),
    hbig 0xB8 (by decide), hle, or_self, if_false, if_true, Bool.false_eq_true, false_and]
  rfl

/-- Enter is the only key with a newline. -/
theorem kbdAt_ne_newline {p : KeyPress} (h : p.Edits) : kbdAt p.scancode p.past ≠ 10 := by
  have hall : ∀ i < 128, kbd.getD i 0 = 10 → i = 28 := by decide
  obtain ⟨hmake, -, henter⟩ := h
  rw [kbdAt, if_pos hmake]
  intro h10
  exact henter (UInt8.toNat_inj.mp (hall _ hmake h10))

/-- Without modifiers it edits the line. -/
theorem KeyPress.Edits.action {p : KeyPress} (h : p.Edits) {line : List UInt8}
    (hnext : (p.edit line).length ≤ 126) :
    let a := (decode ⟨false, false, false, false⟩ p.scancode p.past p.junk).2
    a.InLine line ∧ a.edit line = p.edit line := by
  unfold KeyPress.edit at hnext ⊢
  simp only [decode_edits h]
  by_cases hback : p.scancode = 0x0E
  · simp only [if_pos hback]
    exact ⟨trivial, rfl⟩
  by_cases htab : p.scancode = 0x0F
  · simp only [if_neg hback, if_pos htab] at hnext ⊢
    rw [List.length_append, List.length_replicate] at hnext
    exact ⟨hnext, rfl⟩
  · simp only [if_neg hback, if_neg htab] at hnext ⊢
    rw [List.length_append, List.length_singleton] at hnext
    exact ⟨⟨h.2.1, kbdAt_ne_newline h, hnext⟩, rfl⟩

/-- A key with a character leaves the modifiers as they are. -/
theorem KeyPress.Edits.mods {p : KeyPress} (h : p.Edits) :
    (⟨false, false, false, false⟩ : Modifiers).scan p.scancode = ⟨false, false, false, false⟩ := by
  rw [Modifiers.scan, decode_mods, ← decode_mods _ p.scancode p.past p.junk, decode_edits h]
  split
  · rfl
  · split <;> rfl

/-- A key of the line. -/
theorem Typing.handled {k : Keyboard} {line : List UInt8} (h : Typing k line) {p : KeyPress}
    (hp : p.Edits) (hfit : line.length ≤ 126) (hnext : (p.edit line).length ≤ 126) :
    ∃ r, keyboardHandler p.scancode p.past p.junk k = some r ∧ Typing r.2 (p.edit line) := by
  obtain ⟨hin, hedit⟩ := hp.action hnext
  rw [← h.mods] at hin hedit
  obtain ⟨r, hr, hline⟩ := h.toWaiting.handled hfit hin
  rw [hedit] at hline
  refine ⟨r, hr, hline, ?_⟩
  rw [keyboardHandler_mods hr, h.mods, hp.mods]

theorem Typing.key {k : Keyboard} {line : List UInt8} (h : Typing k line) {p : KeyPress}
    (hp : p.Edits) (hfit : line.length ≤ 126) (hnext : (p.edit line).length ≤ 126) :
    ∃ k', keyboardStep k p.event = some k' ∧ Typing k' (p.edit line) := by
  obtain ⟨r, hr, hinv⟩ := h.fresh.handled hp hfit hnext
  exact ⟨r.2, by simp only [keyboardStep, KeyPress.event, hr, Option.map_some], hinv⟩

/-- The keys of the line, one after the other. -/
theorem Typing.keys {k : Keyboard} {line : List UInt8} (h : Typing k line) {keys : List KeyPress}
    (hkeys : ∀ p ∈ keys, p.Edits) (hshort : StaysShort line keys) :
    ∃ k', runFrom keyboardStep k (keys.map KeyPress.event) = some k' ∧
      Typing k' (keys.foldl KeyPress.edit line) ∧ (keys.foldl KeyPress.edit line).length ≤ 126 := by
  induction keys generalizing k line with
  | nil => exact ⟨k, rfl, h, hshort⟩
  | cons p keys ih =>
    have hnext : (p.edit line).length ≤ 126 := by
      cases keys with
      | nil => exact hshort.2
      | cons q keys => exact hshort.2.1
    obtain ⟨k', hk', hinv⟩ := h.key (hkeys p (by simp)) hshort.1 hnext
    obtain ⟨k'', hk'', hrest⟩ := ih hinv (fun q hq => hkeys q (by simp [hq])) hshort.2
    refine ⟨k'', ?_, hrest⟩
    rw [List.map_cons, runFrom_cons hk']
    exact hk''

/-- The line with its length noted and the flag set. -/
def Keyboard.noted (k : Keyboard) (len : Nat) (flag : Bool) : Keyboard :=
  { k with
    indEntered := Function.update k.indEntered k.active (BitVec.ofNat 32 len)
    fflag := flag
    written := [] }

theorem noted_indEntered (k : Keyboard) (len : Nat) (flag : Bool) :
    (k.noted len flag).indEntered k.active = BitVec.ofNat 32 len := Function.update_self _ _ _

/-- A newline behind the line. -/
theorem Waiting.enter_handled {k : Keyboard} {line : List UInt8} (h : Waiting k line)
    (hfit : line.length ≤ 126) {scancode past junk : UInt8}
    (henter : (decode k.mods scancode past junk).2 = .char 10) :
    ∃ r, keyboardHandler scancode past junk k = some r ∧
      { r.2 with written := [] } = (k.pushed 10).noted (line.length + 1) true := by
  have hindex := h.index_eq
  have hnext : (k.pushed 10).index = line.length + 1 := by
    rw [← hindex]
    exact setIndex_index _ _
  unfold keyboardHandler
  generalize decode k.mods scancode past junk = decoded at henter ⊢
  obtain ⟨shown, action⟩ := decoded
  cases henter
  simp only [storeChar_eq _ h.index, if_neg (show k.index ≠ 127 by omega)]
  refine ⟨_, rfl, ?_⟩
  simp only [Keyboard.checkBuf, if_true, hnext]
  rfl

/-- Enter behind the line, and the reader that finds the flag set. -/
theorem Typing.entered {k : Keyboard} {line : List UInt8} (h : Typing k line)
    (hfit : line.length ≤ 126) {enter : KeyPress} (henter : enter.scancode = 0x1C) :
    ∃ k', runFrom keyboardStep k [enter.event, .readWake] = some k' ∧ Typing k' (line ++ [10]) ∧
      k'.indEntered 0 = BitVec.ofNat 32 (line.length + 1) := by
  have h0 := h.fresh
  have hroom : line.length < bufSize - 1 := Nat.lt_of_le_of_lt hfit (by decide)
  have hdecode : (decode k.mods enter.scancode enter.past enter.junk).2 = .char 10 := by
    rw [h.mods, henter]
    rfl
  obtain ⟨r, hr, hnoted⟩ := h0.toWaiting.enter_handled hfit hdecode
  have hkey : keyboardStep k enter.event = some r.2 := by
    simp only [keyboardStep, KeyPress.event, hr, Option.map_some]
  have hwake : keyboardStep r.2 .readWake =
      some ((({ k with written := [] } : Keyboard).pushed 10).noted (line.length + 1) false) := by
    simp only [keyboardStep, hnoted]
    rfl
  have hpush := h0.toWaiting.pushed (x := 10) (by decide) (by rw [h0.index_eq]; exact hroom)
  refine ⟨_, (runFrom_cons hkey).trans (runFrom_cons hwake), ?_, ?_⟩
  · exact ⟨⟨hpush.toInRow.same rfl rfl rfl, rfl, hpush.text, hpush.noNul⟩, h.mods⟩
  · rw [← hpush.active]
    exact noted_indEntered _ _ _

/-- `readStart` on whatever the row holds. -/
theorem InRow.waits {k : Keyboard} (h : InRow k) (hflag : k.fflag = false) (n : Int) :
    ∃ k', keyboardStep k (.readStart n) = some k' ∧ Waiting k' [] ∧ k'.mods = k.mods := by
  refine ⟨_, rfl, ?_, rfl⟩
  have hzero : (({ k with written := [] } : Keyboard).readStart n).bufIndex 0 = 0 := by
    rw [← h.active]
    exact Function.update_self _ _ _
  have hrow : InRow (({ k with written := [] } : Keyboard).readStart n) :=
    (((h.same rfl rfl rfl : InRow { k with written := [] }).setIndex (i := 0) (by decide))).same
    rfl rfl rfl
  exact ⟨hrow, hflag, text_eq_nil _ hzero, by simp⟩

theorem InRow.readStart {k : Keyboard} (h : InRow k) (hmods : k.mods = ⟨false, false, false, false⟩)
    (hflag : k.fflag = false) (n : Int) :
    ∃ k', keyboardStep k (.readStart n) = some k' ∧ Typing k' [] := by
  obtain ⟨k', hk', hwaits, hsame⟩ := h.waits hflag n
  exact ⟨k', hk', hwaits, hsame.trans hmods⟩

/-- The copy of the line, and the empty row behind it. -/
theorem Waiting.readDone {k : Keyboard} {line : List UInt8} (h : Waiting k line) {n : Int}
    (hn : n < bufSize) : ∃ data, k.readDone n = some ((k.indEntered 0).toInt, data, k.cleared n) ∧
      data.take line.length = line ∧ data.length ≤ bufSize := by
  have hfit : (offset k.active 0 : Int) + n ≤ bufBytes := by
    rw [h.active]
    unfold offset bufBytes bufSize at *
    omega
  obtain ⟨data, hcopy⟩ := strcpy_isSome (m := bufSize - 1) (n := bufBytes - offset k.active 0)
    (by rw [h.active]; decide) (show k.row k.active (bufSize - 1) =
      0 by rw [h.active]; exact h.last)
  have hclear := clearBuffer_eq_some_iff.mpr ⟨hcopy, hfit, rfl⟩
  rw [h.active] at hcopy
  refine ⟨data, ?_, ?_, ?_⟩
  · rw [Keyboard.readDone, hclear, ← h.active]
    rfl
  · have hlen : line.length = k.bufIndex 0 := by rw [← h.text, text_length]
    have hne : ∀ j < line.length, k.row 0 j ≠ 0 := by
      intro j hj hzero
      apply h.noNul
      rw [← h.text, Keyboard.text, mem_slice]
      exact ⟨j, ⟨by omega, by omega⟩, hzero⟩
    rw [strcpy_take hcopy hne, hlen]
    exact h.text
  · exact (strcpy_length_le hcopy).mpr ⟨bufSize - 1, by decide, h.last⟩

/-! ## Reading a line -/

/-- A call of `read_terminal` up to the copy, with the keys and Enter pressed while it waits. -/
def lineTyped (nbytes : Int) (keys : List KeyPress) (enter : KeyPress) : List KeyboardEvent :=
  .readStart nbytes :: (keys.map KeyPress.event ++ [enter.event, .readWake])

/-- The call returns the length of the line with its newline and copies it to the start of the
    buffer, which is no longer than a row. Nothing is left for the next call. -/
structure ReadsBack (k : Keyboard) (nbytes : Int) (keys : List KeyPress) (enter : KeyPress)
    (k' : Keyboard) (value : Int) (data : List UInt8) (after : Keyboard) : Prop where
  typed : runFrom keyboardStep k (lineTyped nbytes keys enter) = some k'
  done : k'.readDone nbytes = some (value, data, after)
  value : value = (edited keys).length + 1
  line : data.take ((edited keys).length + 1) = edited keys ++ [10]
  fits : data.length ≤ bufSize
  empty : after.text 0 = []
  waits : after.fflag = false

theorem InRow.readsBack {k : Keyboard} (h : InRow k) (hmods : k.mods = ⟨false, false, false, false⟩)
    (hflag : k.fflag = false) {n : Int} (hn : n < bufSize) {keys : List KeyPress}
    (hkeys : ∀ p ∈ keys, p.Edits) (hshort : StaysShort [] keys) {enter : KeyPress}
    (henter : enter.scancode = 0x1C) :
    ∃ k' value data after, ReadsBack k n keys enter k' value data after := by
  obtain ⟨k1, hk1, hstart⟩ := h.readStart hmods hflag n
  obtain ⟨k2, hk2, hline, hfit⟩ := hstart.keys hkeys hshort
  obtain ⟨k3, hk3, hentered, hlen⟩ := hline.entered hfit henter
  obtain ⟨data, hdone, htake, hdata⟩ := hentered.readDone hn
  rw [List.length_append, List.length_singleton] at htake
  refine ⟨k3, _, data, _, ?_, hdone, ?_, htake, hdata, ?_, hentered.fflag⟩
  · rw [lineTyped, runFrom_cons hk1, runFrom_append, hk2]
    exact hk3
  · have hsmall : (BitVec.ofNat 32 ((keys.foldl KeyPress.edit []).length + 1)).toNat =
        (keys.foldl KeyPress.edit []).length + 1 := by
      rw [BitVec.toNat_ofNat]
      omega
    rw [hlen, BitVec.toInt_eq_toNat_of_lt (by omega), hsmall]
    rfl
  · have hzero : (k3.cleared n).bufIndex 0 = 0 := by
      rw [← hentered.active]
      exact Function.update_self _ _ _
    exact text_eq_nil _ hzero

/-- Whatever was typed, read and written before in the row of the terminal. -/
theorem read_terminal_reads_the_edited_line (es : List KeyboardEvent) (k : Keyboard) (nbytes : Int)
    (keys : List KeyPress) (enter : KeyPress)
    (hes : EachStep keyboardStep StaysInRow bootKeyboard es)
    (hrun : runFrom keyboardStep bootKeyboard es = some k)
    (hmods : k.mods = ⟨false, false, false, false⟩) (hflag : k.fflag = false) (hn : nbytes ≤ 1023)
    (hkeys : ∀ p ∈ keys, p.Edits) (hshort : StaysShort [] keys) (henter : enter.scancode = 0x1C) :
    ∃ k' value data after, ReadsBack k nbytes keys enter k' value data after := by
  have hrow : InRow k := inv_runFrom (fun _ _ _ h hc hstep => h.step hc hstep) inRow_boot hes hrun
  exact hrow.readsBack hmods hflag (by unfold bufSize; omega) hkeys hshort henter

/-- A first line, of ten characters with its newline. -/
def longLine : List KeyPress := [⟨0x1E, 0, 0⟩, ⟨0x0F, 0, 0⟩, ⟨0x0F, 0, 0⟩]

/-- "as", with a mistyped "l" taken back. -/
def shortLine : List KeyPress := [⟨0x1E, 0, 0⟩, ⟨0x26, 0, 0⟩, ⟨0x0E, 0, 0⟩, ⟨0x1F, 0, 0⟩]

/-- The first line is read. -/
def longLineRead : List KeyboardEvent := lineTyped 128 longLine ⟨0x1C, 0, 0⟩ ++ [.readDone 128]

/-- The keyboard behind it. -/
def afterLongLine : Keyboard := (runFrom keyboardStep bootKeyboard longLineRead).getD bootKeyboard

theorem afterLongLine_run : runFrom keyboardStep bootKeyboard longLineRead =
    some afterLongLine := by
  have hsome : (runFrom keyboardStep bootKeyboard longLineRead).isSome = true := by decide +kernel
  obtain ⟨k, hk⟩ := Option.isSome_iff_exists.mp hsome
  rw [afterLongLine, hk, Option.getD_some]

theorem afterLongLine_waits :
    afterLongLine.mods = ⟨false, false, false, false⟩ ∧ afterLongLine.fflag = false := by
  decide +kernel

theorem longLineRead_staysInRow : EachStep keyboardStep StaysInRow bootKeyboard longLineRead := by
  decide +kernel

theorem shortLine_edits : ∀ p ∈ shortLine, p.Edits := by decide

theorem shortLine_staysShort : StaysShort [] shortLine := by
  simp [StaysShort, shortLine, KeyPress.edit]

theorem short_line_after_long_line : edited shortLine = [97, 115] ∧ ∃ k' value data after,
    ReadsBack afterLongLine 128 shortLine ⟨0x1C, 0, 0⟩ k' value data after :=
  ⟨by decide, read_terminal_reads_the_edited_line longLineRead afterLongLine 128 shortLine
    ⟨0x1C, 0, 0⟩ longLineRead_staysInRow afterLongLine_run afterLongLine_waits.1
    afterLongLine_waits.2 (by decide) shortLine_edits shortLine_staysShort rfl⟩

/-! ## A line that leaves the row -/

/-- Lines that were read before, with 128 bytes asked for. -/
def linesRead (lines : List (List KeyPress)) : List KeyboardEvent :=
  lines.flatMap fun keys => lineTyped 128 keys ⟨0x1C, 0, 0⟩ ++ [.readDone 128]

/-- Tab, 256 times. -/
def tabLine : List KeyPress := List.replicate 256 ⟨0x0F, 0, 0⟩

/-- `n` blanks have been typed into zeroed memory. -/
structure Blanks (k : Keyboard) (n : Nat) : Prop where
  active : k.active = 0
  mods : k.mods = ⟨false, false, false, false⟩
  fflag : k.fflag = false
  index : k.index = n
  blank : ∀ j < n, k.buf j = 32
  zero : ∀ j, n ≤ j → k.buf j = 0

/-- No byte of the first row is a NUL. -/
structure FullRow (k : Keyboard) : Prop where
  active : k.active = 0
  mods : k.mods = ⟨false, false, false, false⟩
  fflag : k.fflag = false
  full : ∀ j < bufSize, k.buf j ≠ 0

/-- A character goes to the index of the first terminal. -/
theorem pushed_buf {k : Keyboard} (h : k.active = 0) (x : UInt8) (j : Nat) :
    (k.pushed x).buf j = if j = k.index then x else k.buf j := by
  have hput := put_buf k k.index x j
  rw [h, show offset 0 k.index = k.index by simp [offset]] at hput
  exact hput

theorem checkBuf_same (k : Keyboard) (x : UInt8) :
    (k.checkBuf x).2.active = k.active ∧ (k.checkBuf x).2.mods = k.mods ∧
      (k.checkBuf x).2.bufIndex = k.bufIndex ∧ (k.checkBuf x).2.buf = k.buf := by
  unfold Keyboard.checkBuf
  split
  · exact ⟨rfl, rfl, rfl, rfl⟩
  · exact ⟨rfl, rfl, rfl, rfl⟩

theorem readWake_same (k : Keyboard) :
    k.readWake.active = k.active ∧ k.readWake.mods = k.mods ∧ k.readWake.fflag = false ∧
      k.readWake.buf = k.buf := by
  unfold Keyboard.readWake
  split
  · exact ⟨rfl, rfl, rfl, rfl⟩
  next hflag => exact ⟨rfl, rfl, by simpa using hflag, rfl⟩

/-- A key with a character, at any index at which the handler stores it. -/
theorem char_stored {k : Keyboard} (hactive : k.active = 0) {p : KeyPress} {x : UInt8}
    (hdecode : decode k.mods p.scancode p.past p.junk = ([.putc x], .char x))
    (hfull : k.index ≠ 127) (hroom : k.index < bufBytes) :
    ∃ k', keyboardStep k p.event = some k' ∧ k'.active = 0 ∧ k'.mods = k.mods ∧
      k'.index = k.index + 1 ∧ ∀ j, k'.buf j = if j = k.index then x else k.buf j := by
  let k₀ : Keyboard := { k with written := [] }
  have hindex : k₀.index = k.index := rfl
  have hoffset : offset k₀.active k₀.index < bufBytes := by
    rw [show k₀.active = 0 from hactive, offset, hindex]
    simpa using hroom
  have hpush : k₀.push x = some (k₀.pushed x) := by
    simp only [push, assign, if_pos hoffset, Option.bind_eq_bind, Option.bind_some]
    rfl
  obtain ⟨hactive', hmods', hindex', hbuf'⟩ := checkBuf_same (k₀.pushed x) x
  have hnext : (k₀.pushed x).index = k.index + 1 := setIndex_index _ _
  refine ⟨((k₀.pushed x).checkBuf x).2, ?_, hactive'.trans hactive, hmods', ?_, ?_⟩
  · simp only [keyboardStep, KeyPress.event, keyboardHandler, hdecode, storeChar]
    rw [if_pos (show k₀.index ≠ 127 from hfull), hpush]
    rfl
  · rw [← hnext, Keyboard.index, Keyboard.index, hactive', hindex']
  · intro j
    rw [hbuf', pushed_buf (show k₀.active = 0 from hactive)]
    rfl

namespace Blanks
variable {k : Keyboard} {n : Nat}

theorem pushed (h : Blanks k n) : Blanks (k.pushed 32) (n + 1) where
  active := h.active
  mods := h.mods
  fflag := h.fflag
  index := by
    rw [Keyboard.pushed, setIndex_index, h.index]
  blank := by
    intro j hj
    rw [pushed_buf h.active, h.index]
    split
    · rfl
    · exact h.blank j (by omega)
  zero := by
    intro j hj
    rw [pushed_buf h.active, h.index, if_neg (by omega)]
    exact h.zero j (by omega)

theorem tab (h : Blanks k n) (hroom : n + 4 ≤ bufSize) :
    ∃ k', keyboardStep k (.key 0x0F 0 0) = some k' ∧ Blanks k' (n + 4) := by
  have h0 : Blanks { k with written := [] } n :=
    ⟨h.active, h.mods, h.fflag, h.index, h.blank, h.zero⟩
  obtain ⟨k', hk', hend⟩ := pushBlanks_inv (P := fun i m => Blanks m (n + i)) h0
    (show k.index + 4 ≤ bufSize by rw [h.index]; exact hroom) fun i m _ _ hm => hm.pushed
  have hdecode : decode k.mods 0x0F 0 0 = (List.replicate 4 (.putc 32), .tab) := by
    rw [h.mods]
    rfl
  refine ⟨k', ?_, hend⟩
  simp only [keyboardStep, keyboardHandler, hdecode, hk', Option.map_some]

theorem tabs (h : Blanks k n) {m : Nat} (hroom : n + 4 * m ≤ bufSize) :
    ∃ k', runFrom keyboardStep k ((List.replicate m ⟨0x0F, 0, 0⟩).map KeyPress.event) = some k' ∧
      Blanks k' (n + 4 * m) := by
  induction m generalizing k n with
  | zero => exact ⟨k, rfl, h⟩
  | succ m ih =>
    obtain ⟨k₁, hk₁, h₁⟩ := h.tab (by omega)
    obtain ⟨k₂, hk₂, h₂⟩ := ih h₁ (by omega)
    refine ⟨k₂, (runFrom_cons hk₁).trans hk₂, ?_⟩
    rw [show n + 4 * (m + 1) = n + 4 + 4 * m by omega]
    exact h₂

/-- Enter behind a full row goes into the next one, and the NUL is found behind it. -/
theorem enter (h : Blanks k bufSize) :
    ∃ k', runFrom keyboardStep k [.key 0x1C 0 0, .readWake, .readDone 128] = some k' ∧
    FullRow k' := by
  have hdecode : decode k.mods 0x1C 0 0 = ([.putc 10], .char 10) := by
    rw [h.mods]
    rfl
  obtain ⟨k₁, hk₁, hactive₁, hmods₁, -, hbuf₁⟩ := char_stored h.active (p := ⟨0x1C, 0, 0⟩) hdecode
    (by rw [h.index]; decide) (by rw [h.index]; decide)
  rw [h.index] at hbuf₁
  obtain ⟨hactive₂, hmods₂, hflag₂, hbuf₂⟩ := readWake_same { k₁ with written := [] }
  let k₂ : Keyboard := { { k₁ with written := [] }.readWake with written := [] }
  have hactive : k₂.active = 0 := hactive₂.trans hactive₁
  have hbuf (j : Nat) : k₂.buf j = if j = bufSize then 10 else k.buf j :=
    (congrArg (· j) hbuf₂).trans (hbuf₁ j)
  -- the copy ends at the NUL behind the newline
  have hnul : k₂.row k₂.active (bufSize + 1) = 0 := by
    rw [Keyboard.row, hactive, show offset 0 (bufSize + 1) = bufSize + 1 by simp [offset], hbuf,
      if_neg (by omega)]
    exact h.zero _ (by omega)
  obtain ⟨data, hcopy⟩ := strcpy_isSome (n := bufBytes - offset k₂.active 0)
    (show bufSize + 1 < bufBytes - offset k₂.active 0 by rw [hactive]; decide) hnul
  have hfit : (offset k₂.active 0 : Int) + 128 ≤ bufBytes := by
    rw [hactive]
    decide
  have hclear := clearBuffer_eq_some_iff.mpr ⟨hcopy, hfit, rfl⟩
  have hdone : keyboardStep { k₁ with written := [] }.readWake (.readDone 128) =
    some (k₂.cleared 128) := by
    simp only [keyboardStep, Keyboard.readDone]
    rw [hclear]
    rfl
  refine ⟨k₂.cleared 128, (runFrom_cons hk₁).trans
    ((runFrom_cons rfl).trans ((runFrom_cons hdone).trans rfl)), hactive,
    hmods₂.trans (hmods₁.trans h.mods), hflag₂, fun j hj => ?_⟩
  simp only [Keyboard.cleared]
  split
  · decide
  · rw [hbuf, if_neg (by omega), h.blank j hj]
    decide

end Blanks

theorem readStart_index (k : Keyboard) (n : Int) :
    (k.readStart n).index = 0 := Function.update_self _ _ _

/-- One letter is read after such a line. -/
theorem FullRow.letter {k : Keyboard} (h : FullRow k) (n : Int) {k' : Keyboard}
    (hrun : runFrom keyboardStep k (lineTyped n [⟨0x1E, 0, 0⟩] ⟨0x1C, 0, 0⟩) = some k') :
    k'.active = 0 ∧ ∀ j < bufSize, k'.buf j ≠ 0 := by
  let k₁ : Keyboard := ({ k with written := [] } : Keyboard).readStart n
  have hindex₁ : k₁.index = 0 := readStart_index _ n
  obtain ⟨k₂, hk₂, hactive₂, hmods₂, hindex₂, hbuf₂⟩ :=
    char_stored (k := k₁) (p := ⟨0x1E, 0, 0⟩) (x := 97)
    h.active (by rw [show k₁.mods = k.mods from rfl, h.mods]; rfl) (by omega)
    (by rw [hindex₁]; decide)
  obtain ⟨k₃, hk₃, hactive₃, -, -, hbuf₃⟩ := char_stored (k := k₂) (p := ⟨0x1C, 0, 0⟩) (x := 10)
    hactive₂ (by rw [hmods₂, show k₁.mods = k.mods from rfl, h.mods]; rfl) (by omega)
    (by rw [hindex₂, hindex₁]; decide)
  obtain ⟨hactive₄, -, -, hbuf₄⟩ := readWake_same { k₃ with written := [] }
  have htyped : runFrom keyboardStep k (lineTyped n [⟨0x1E, 0, 0⟩] ⟨0x1C, 0, 0⟩) =
      some { k₃ with written := [] }.readWake :=
    (runFrom_cons (show keyboardStep k (.readStart n) = some k₁ from rfl)).trans
      ((runFrom_cons hk₂).trans ((runFrom_cons hk₃).trans rfl))
  cases htyped.symm.trans hrun
  refine ⟨hactive₄.trans hactive₃, ?_⟩
  intro j hj
  rw [hbuf₄]
  simp only [hbuf₃, hbuf₂]
  split
  · decide
  split
  · decide
  · exact h.full j hj

/-- After a line of 256 Tabs, a line of one letter is copied with all of the row
before it finds a NUL. -/
theorem line_read_after_tabs_overruns :
    ¬ ∀ (earlier : List (List KeyPress)) (k : Keyboard) (nbytes : Int) (keys : List KeyPress)
      (enter : KeyPress), (∀ line ∈ earlier, ∀ p ∈ line, p.Edits) →
      runFrom keyboardStep bootKeyboard (linesRead earlier) = some k →
      k.mods = ⟨false, false, false, false⟩ → k.fflag = false → 128 ≤ nbytes → nbytes ≤ 1023 →
      (∀ p ∈ keys, p.Edits) → StaysShort [] keys → enter.scancode = 0x1C →
        ∃ k' value data after, ReadsBack k nbytes keys enter k' value data after := by
  intro hall
  have hstart : keyboardStep bootKeyboard (.readStart 128) =
      some (({ bootKeyboard with written := [] } : Keyboard).readStart 128) := rfl
  have hblanks : Blanks (({ bootKeyboard with written := [] } : Keyboard).readStart 128) 0 :=
    ⟨rfl, rfl, rfl, readStart_index _ 128, by simp, fun _ _ => rfl⟩
  obtain ⟨k₁, hk₁, htabs⟩ := hblanks.tabs (m := 256) (by decide)
  obtain ⟨k₂, hk₂, hfull⟩ := htabs.enter
  have hrun : runFrom keyboardStep bootKeyboard (linesRead [tabLine]) = some k₂ := by
    simp only [linesRead, lineTyped, List.flatMap_cons, List.flatMap_nil, List.append_nil,
      List.cons_append, List.append_assoc]
    rw [runFrom_cons hstart, runFrom_append, tabLine, hk₁, Option.bind_some]
    exact hk₂
  have hedits : ∀ line ∈ [tabLine], ∀ p ∈ line, p.Edits := by
    intro line hline p hp
    rw [List.mem_singleton.mp hline] at hp
    rw [List.eq_of_mem_replicate hp]
    decide
  obtain ⟨k', value, data, after, hreads⟩ :=
    hall [tabLine] k₂ 128 [⟨0x1E, 0, 0⟩] ⟨0x1C, 0, 0⟩ hedits hrun
    hfull.mods hfull.fflag (by decide) (by decide) (by decide) (by simp [StaysShort, KeyPress.edit])
    rfl
  obtain ⟨hactive, hrow⟩ := hfull.letter 128 hreads.typed
  -- the copy would have to find a NUL in the row
  obtain ⟨⟨data', k''⟩, hclear, hdone⟩ := Option.bind_eq_some_iff.mp hreads.done
  cases hdone
  obtain ⟨i, hi, hnul⟩ := (strcpy_length_le (clearBuffer_eq_some_iff.mp hclear).1).mp hreads.fits
  rw [Keyboard.row, hactive, show offset 0 i = i by simp [offset]] at hnul
  exact hrow i hi hnul

end OreOS
