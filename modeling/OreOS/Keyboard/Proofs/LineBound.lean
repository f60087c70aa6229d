import OreOS.Keyboard.Proofs.Steps
import OreOS.Machine.Trace

/-!
# The length of a line

The handler keeps a row of `buf` at 127 characters by a test for exactly that index. Tab adds four
blanks without the test. A line stays within its 128 bytes as long as Tab is pressed with room for
them, and the first Tab without room steps over the limit.
-/

namespace OreOS
open Machine Keyboard

/-- Every index is within the line, and so was every store of the last key. -/
structure LineBounded (k : Keyboard) : Prop where
  index : ∀ t, k.bufIndex t ≤ 127
  written : ∀ w ∈ k.written, w.2 < 128

/-- Calls of `read_terminal` and `write_terminal` for at most 1023 bytes. -/
def ShortCall : KeyboardEvent → Prop
  | .readStart nbytes => nbytes ≤ 1023
  | .readDone nbytes => nbytes ≤ 1023
  | .write _ nbytes => nbytes ≤ 1023
  | _ => True

/-- Tab is pressed with room for four characters before the last. -/
def TabFits (k : Keyboard) : KeyboardEvent → Prop
  | .key scancode _ _ => scancode = 0x0F → k.index ≤ 123
  | _ => True

instance decidableShortCall : ∀ e, Decidable (ShortCall e)
  | .key .. => isTrue trivial
  | .resume _ => isTrue trivial
  | .readStart nbytes => inferInstanceAs (Decidable (nbytes ≤ 1023))
  | .readWake => isTrue trivial
  | .readDone nbytes => inferInstanceAs (Decidable (nbytes ≤ 1023))
  | .write _ nbytes => inferInstanceAs (Decidable (nbytes ≤ 1023))

instance decidableTabFits (k : Keyboard) : ∀ e, Decidable (TabFits k e)
  | .key scancode _ _ => inferInstanceAs (Decidable (scancode = 0x0F → k.index ≤ 123))
  | .resume _ => isTrue trivial
  | .readStart _ => isTrue trivial
  | .readWake => isTrue trivial
  | .readDone _ => isTrue trivial
  | .write .. => isTrue trivial

/-- The last byte of `buf` stays zero while lines are short, so `strcpy` finds a NUL. -/
structure LinesKept (k : Keyboard) : Prop extends LineBounded k where
  last : k.buf (bufBytes - 1) = 0

theorem snd_ite_ne {α β : Type} {c : Prop} [Decidable c] {x y : α × β} {b : β} (hx : x.2 ≠ b)
    (hy : y.2 ≠ b) : (if c then x else y).2 ≠ b := by
  split
  · exact hx
  · exact hy

theorem decodeChar_ne_tab (m : Modifiers) (scancode past junk : UInt8) :
    (decodeChar m scancode past junk).2 ≠ .tab := by
  simp only [decodeChar]
  split
  · split <;> simp
  · split
    · split
      · simp
      · split <;> simp
    · simp

theorem decode_eq_tab {m : Modifiers} {scancode past junk : UInt8}
    (h : (decode m scancode past junk).2 = .tab) : scancode = 0x0F := by
  by_contra hne
  revert h
  unfold decode
  rw [if_neg hne]
  -- the tests for the modifier keys, Backspace and Control-l
  iterate 9 refine snd_ite_ne nofun ?_
  exact snd_ite_ne (decodeChar_ne_tab m scancode past junk) nofun

namespace LinesKept
variable {k : Keyboard}

theorem index_le (h : LinesKept k) : k.index ≤ 127 := h.index k.active

theorem index_lt (h : LinesKept k) : k.index < bufSize := by
  have := h.index_le
  unfold bufSize
  omega

theorem put (h : LinesKept k) {i : Nat} (x : UInt8) (hi : i < 128) : LinesKept (k.put i x) where
  index := h.index
  written := by
    intro w hw
    rcases List.mem_append.mp hw with hold | hnew
    · exact h.written w hold
    · rw [List.mem_singleton.mp hnew]
      exact hi
  last := by
    rw [put_last k i x (by unfold bufSize; omega)]
    exact h.last

theorem setIndex (h : LinesKept k) {i : Nat} (hi : i ≤ 127) : LinesKept (k.setIndex i) where
  index := by
    intro t
    rw [setIndex_bufIndex]
    split
    · exact hi
    · exact h.index t
  written := h.written
  last := h.last

theorem checkBuf (h : LinesKept k) (x : UInt8) : LinesKept (k.checkBuf x).2 := by
  unfold Keyboard.checkBuf
  split
  · exact { index := h.index, written := h.written, last := h.last }
  · exact h

theorem storeChar (h : LinesKept k) (x : UInt8) :
    ∃ r, k.storeChar x = some r ∧ LinesKept r.2 := by
  refine ⟨_, storeChar_eq x h.index_lt, ?_⟩
  apply LinesKept.checkBuf
  split
  · exact h
  · have hle := h.index_le
    exact (h.put x (by omega)).setIndex (by omega)

theorem pushBlanks {n : Nat} (h : LinesKept k) (hroom : k.index + n ≤ 127) :
    ∃ k', k.pushBlanks n = some k' ∧ LinesKept k' := by
  refine pushBlanks_inv (P := fun _ m => LinesKept m) h ?_ ?_
  · exact Nat.le_trans hroom (by decide)
  · intro i m hi hindex hm
    exact (hm.put 32 (i := m.index) (by omega)).setIndex (i := m.index + 1) (by omega)

theorem backspacing (h : LinesKept k) (physical : Bool) :
    ∃ r, k.backspacing physical = some r ∧ LinesKept r.2 := by
  have hle := h.index_le
  rw [backspacing_eq physical h.index_lt]
  split
  · exact ⟨_, rfl, h⟩
  · exact ⟨_, rfl, (h.setIndex (by omega)).put 32 (by omega)⟩

theorem writeTerminal (h : LinesKept k) (buf1 : Nat → UInt8) (n : Int) :
    ∃ r, k.writeTerminal buf1 n = some r ∧ LinesKept r.2 := by
  unfold Keyboard.writeTerminal
  by_cases hn : n ≠ bufSize - 1
  · obtain ⟨r, hr, hkept⟩ := h.backspacing false
    refine ⟨_, by simp only [if_pos hn, hr, Option.bind_eq_bind, Option.bind_some]; rfl, ?_⟩
    exact hkept.setIndex (by omega)
  · refine ⟨_, by simp only [if_neg hn, Option.bind_eq_bind, Option.bind_some]; rfl, ?_⟩
    exact h.setIndex (by omega)

theorem readDone (h : LinesKept k) {n : Int} (hn : n ≤ 1023) :
    ∃ r, k.readDone n = some r ∧ LinesKept r.2.2 := by
  have hlt : n < bufSize := by
    unfold bufSize
    omega
  obtain ⟨data, -, hclear⟩ := clearBuffer_eq h.last hlt
  have h0 := h.setIndex (i := 0) (by omega)
  have hdone : k.readDone n =
      some (((k.cleared n).indEntered (k.cleared n).active).toInt, data, k.cleared n) := by
    simp only [Keyboard.readDone, hclear, Option.bind_eq_bind, Option.bind_some]
    rfl
  refine ⟨_, hdone, ?_⟩
  exact { index := h0.index, written := h.written, last := (cleared_last hlt).trans h.last }

theorem handler (h : LinesKept k) {scancode : UInt8} (past junk : UInt8)
    (htab : scancode = 0x0F → k.index ≤ 123) :
    ∃ r, keyboardHandler scancode past junk k = some r ∧ LinesKept r.2 := by
  unfold keyboardHandler
  rcases hdecode : decode k.mods scancode past junk with ⟨shown, action⟩
  cases action with
  | modify m => exact ⟨_, rfl, { index := h.index, written := h.written, last := h.last }⟩
  | backspace => exact h.backspacing true
  | tab =>
    have hscan : scancode = 0x0F := decode_eq_tab (congrArg Prod.snd hdecode)
    have hroom := htab hscan
    obtain ⟨k', hk', hkept⟩ := h.pushBlanks (n := 4) (by omega)
    exact ⟨(shown, k'), by simp [hk'], hkept⟩
  | switchTerm t => exact ⟨_, rfl, { index := h.index, written := h.written, last := h.last }⟩
  | char x =>
    obtain ⟨⟨more, k'⟩, hk', hkept⟩ := h.storeChar x
    exact ⟨(shown ++ more, k'), by simp [hk'], hkept⟩
  | ignore => exact ⟨_, rfl, h⟩

/-- A step keeps the bound unless it is a Tab without room. -/
theorem step (h : LinesKept k) {e : KeyboardEvent} (hcall : ShortCall e) (htab : TabFits k e) :
    ∃ k', keyboardStep k e = some k' ∧ LinesKept k' := by
  have h0 : LinesKept { k with written := [] } :=
    { index := h.index, written := by simp, last := h.last }
  cases e with
  | key scancode past junk =>
    obtain ⟨r, hr, hkept⟩ := h0.handler past junk htab
    exact ⟨r.2, by simp [keyboardStep, hr], hkept⟩
  | resume x =>
    have h1 : LinesKept { k with written := [], left := k.left - 1 } :=
      { index := h.index, written := by simp, last := h.last }
    obtain ⟨r, hr, hkept⟩ := h1.storeChar x
    by_cases hleft : k.left = 0
    · exact ⟨_, by simp only [keyboardStep, hleft, if_true], h0⟩
    · exact ⟨r.2, by simp [keyboardStep, hleft, hr], hkept⟩
  | readStart n =>
    have h1 := h0.setIndex (i := 0) (by omega)
    exact ⟨_, rfl, { index := h1.index, written := h1.written, last := h1.last }⟩
  | readWake =>
    refine ⟨_, rfl, ?_⟩
    unfold readWake
    split
    · exact { index := h0.index, written := h0.written, last := h0.last }
    · exact h0
  | readDone n =>
    obtain ⟨r, hr, hkept⟩ := h0.readDone hcall
    exact ⟨r.2.2, by simp [keyboardStep, hr], hkept⟩
  | write buf1 n =>
    obtain ⟨r, hr, hkept⟩ := h0.writeTerminal buf1 n
    exact ⟨{ r.2 with written := [] }, by simp [keyboardStep, hr],
      { index := hkept.index, written := by simp, last := hkept.last }⟩

end LinesKept

/-- A Tab that leaves the index within the line had room for four characters. -/
theorem tabFits_of_bounded {k k' : Keyboard} {e : KeyboardEvent} (h : keyboardStep k e = some k')
    (hb : LineBounded k') : TabFits k e := by
  cases e with
  | key scancode past junk =>
    rintro rfl
    simp only [keyboardStep, Option.map_eq_some_iff] at h
    obtain ⟨⟨shown, m⟩, hm, rfl⟩ := h
    have hpush : ({ k with written := [] }.pushBlanks 4).map
      (fun k => (List.replicate 4 (.putc 32), k))
        = some (shown, m) := hm
    obtain ⟨m', hm', heq⟩ := Option.map_eq_some_iff.mp hpush
    cases heq
    have hindex : m.index = k.index + 4 := (pushBlanks_index hm').2
    have hle : m.index ≤ 127 := hb.index m.active
    omega
  | _ => trivial

theorem bootKeyboard_kept : LinesKept bootKeyboard where
  index := by simp [bootKeyboard, initBuffers]
  written := by simp [bootKeyboard, initBuffers]
  last := rfl

/-- Over any sequence of keys and of terminal calls, the lines stay bounded exactly if no Tab is
    pressed with an index above 123. -/
theorem lines_bounded_iff {es : List KeyboardEvent} (hcalls : ∀ e ∈ es, ShortCall e) :
    Holds keyboardStep LineBounded bootKeyboard es ↔
      EachStep keyboardStep TabFits bootKeyboard es := by
  have hkeep : ∀ k e k', LinesKept k → LineBounded k → ShortCall e → TabFits k e →
      keyboardStep k e = some k' → LinesKept k' := by
    intro k e k' hk _ hcall htab hstep
    obtain ⟨m, hm, hkept⟩ := hk.step hcall htab
    exact Option.some.inj (hm.symm.trans hstep) ▸ hkept
  have hexact : ∀ k e, LinesKept k → LineBounded k → ShortCall e →
      (TabFits k e ↔ ∃ k', keyboardStep k e = some k' ∧ LineBounded k') := by
    intro k e hk _ hcall
    constructor
    · intro htab
      obtain ⟨m, hm, hkept⟩ := hk.step hcall htab
      exact ⟨m, hm, hkept.toLineBounded⟩
    · rintro ⟨m, hm, hb⟩
      exact tabFits_of_bounded hm hb
  exact holds_iff_eachStep_mem hkeep hexact hcalls bootKeyboard_kept bootKeyboard_kept.toLineBounded

/-- A prompt is written and a line is read: `l`, Tab, Backspace and Enter. -/
def oneLine : List KeyboardEvent :=
  [.write (cstr [62, 32]) 2, .readStart 128, .key 0x26 0 0, .key 0x0F 0 0, .key 0x0E 0 0,
    .key 0x1C 0 0, .readWake, .readDone 128]

theorem lines_bounded_iff_oneLine : Holds keyboardStep LineBounded bootKeyboard oneLine :=
  (lines_bounded_iff (by decide)).mpr (by decide +kernel)

/-- The thirty-second Tab on one line is stored beyond the limit. -/
theorem tabs_pass_the_limit :
    ¬ Holds keyboardStep LineBounded bootKeyboard (List.replicate 32 (.key 0x0F 0 0)) := by
  intro h
  have hrun : (runFrom keyboardStep bootKeyboard (List.replicate 32 (.key 0x0F 0 0))).map
      (fun k => k.bufIndex 0) = some 128 := by decide +kernel
  obtain ⟨k, hk, hindex⟩ := Option.map_eq_some_iff.mp hrun
  have hle := (h.last hk).index 0
  omega

end OreOS
