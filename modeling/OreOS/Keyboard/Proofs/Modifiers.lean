import Mathlib.Data.Finset.Erase
import Mathlib.Data.Finset.Insert
import OreOS.Keyboard
import OreOS.Machine.Trace

/-!
# The modifier flags and the keys that are held

A key of scancode set 1 sends its code when it is pressed and its code with the top bit set when it
is released, after the byte 0xE0 if it is one of the extended keys. The handler has one flag for
each modifier and reads the bytes one at a time, with 0xE0 as one more code for Ctrl. The results
here say exactly which presses and releases leave the flags in agreement with the keys held.
-/

namespace OreOS
open Machine

/-! ## Keys and what they send -/

/-- The keys that are held while others are pressed. -/
inductive Modifier where
  | shift
  | ctrl
  | alt
  deriving DecidableEq, Repr

/-- A key of scancode set 1. No key without the prefix has code 0x60: its release would be the
    prefix byte. -/
structure Key where
  extended : Bool
  code : BitVec 7
  isCode : extended = true ∨ code ≠ 0x60#7
  deriving DecidableEq, Repr

namespace Key

/-- The two Shift keys have no prefix; Ctrl and Alt have one code each, the right key of each pair
    with the prefix. -/
def modifier (k : Key) : Option Modifier :=
  if k.code = 0x1D#7 then some .ctrl
  else if k.code = 0x38#7 then some .alt
  else if k.extended = false ∧ (k.code = 0x2A#7 ∨ k.code = 0x36#7) then some .shift
  else none

/-- The codes of the Shift keys. Extended keys send them too, as fake shifts. -/
def HasShiftCode (k : Key) : Prop := k.code = 0x2A#7 ∨ k.code = 0x36#7

instance (k : Key) : Decidable k.HasShiftCode := inferInstanceAs (Decidable (_ ∨ _))

/-- The left Shift key. -/
def leftShift : Key := ⟨false, 0x2A#7, .inr (by decide)⟩

/-- The right Shift key. -/
def rightShift : Key := ⟨false, 0x36#7, .inr (by decide)⟩

/-- The bytes of a press. -/
def makeBytes (k : Key) : List UInt8 :=
  (if k.extended then [0xE0] else []) ++ [UInt8.ofNat k.code.toNat]

/-- The bytes of a release. -/
def breakBytes (k : Key) : List UInt8 :=
  (if k.extended then [0xE0] else []) ++ [UInt8.ofNat (k.code.toNat + 0x80)]

end Key

/-- A key goes down, or is held down long enough to repeat; or it goes up. -/
inductive KeyEvent where
  | press (k : Key)
  | release (k : Key)
  deriving DecidableEq, Repr

/-- The flags after an action of the handler. -/
def KeyAction.mods (m : Modifiers) : KeyAction → Modifiers
  | .modify m' => m'
  | _ => m

/-- The flags after one byte. They do not depend on what the handler finds outside its tables
    (`keyboardHandler_mods`), so zeros stand for it. -/
def Modifiers.scan (m : Modifiers) (scancode : UInt8) :
    Modifiers := (decode m scancode 0 0).2.mods m

/-- The flags and the keys that are held. -/
structure KeyRun where
  mods : Modifiers
  held : Finset Key
  deriving DecidableEq

namespace KeyRun

/-- All flags are zero and no key is held. -/
def start : KeyRun := ⟨⟨false, false, false, false⟩, ∅⟩

/-- One complete key event. A key that is not held cannot be released. -/
def step (r : KeyRun) : KeyEvent → Option KeyRun
  | .press k => some ⟨k.makeBytes.foldl Modifiers.scan r.mods, insert k r.held⟩
  | .release k =>
      if k ∈ r.held then some ⟨k.breakBytes.foldl Modifiers.scan r.mods, r.held.erase k⟩ else some r

/-- A key of the modifier is held. -/
def Holding (r : KeyRun) (m : Modifier) : Prop := ∃ k ∈ r.held, k.modifier = some m

/-- A key of the modifier other than `k` is held. -/
def HoldingOther (r : KeyRun) (k : Key) (m : Modifier) : Prop :=
  ∃ k' ∈ r.held, k' ≠ k ∧ k'.modifier = some m

/-- Each flag is set exactly when a key of its modifier is held. -/
def Agrees (r : KeyRun) : Prop :=
  (r.mods.shiftOn = true ↔ r.Holding .shift) ∧ (r.mods.ctrlOn = true ↔ r.Holding .ctrl) ∧
    (r.mods.altOn = true ↔ r.Holding .alt)

end KeyRun

/-! ## One byte -/

section decode
variable (m : Modifiers) (b past junk : UInt8)

theorem decodeChar_mods : (decodeChar m b past junk).2.mods m = m := by
  simp only [decodeChar]
  split
  · split <;> rfl
  · split
    · split
      · rfl
      · split <;> rfl
    · rfl

/-- What the tests on the scancode do to the flags. -/
theorem decode_mods :
    (decode m b past junk).2.mods m =
      { capson := if b = 0x3A then !m.capson else m.capson
        shiftOn :=
          if b = 0x2A ∨ b = 0x36 then true else if b = 0xAA ∨ b = 0xB6 then false else m.shiftOn
        ctrlOn := if b = 0x1D ∨ b = 0xE0 then true else if b = 0x9D then false else m.ctrlOn
        altOn := if b = 0x38 then true else if b = 0xB8 then false else m.altOn } := by
  unfold decode
  by_cases hflag : b = 0x3A ∨ b = 0x2A ∨ b = 0x36 ∨ b = 0xAA ∨ b = 0xB6 ∨ b = 0x1D ∨ b = 0xE0 ∨
      b = 0x9D ∨ b = 0x38 ∨ b = 0xB8
  · rcases hflag with rfl | rfl | rfl | rfl | rfl | rfl | rfl | rfl | rfl | rfl <;> rfl
  · simp only [not_or] at hflag
    obtain ⟨h1, h2, h3, h4, h5, h6, h7, h8, h9, h10⟩ := hflag
    simp only [h1, h2, h3, h4, h5, h6, h7, h8, h9, h10, or_self, if_false]
    -- what is left of the chain of tests does not change a flag
    split
    · rfl
    · split
      · rfl
      · split
        · rfl
        · split
          · exact decodeChar_mods m b past junk
          · rfl

end decode

theorem assign_mods {k k' : Keyboard} {i : Nat} {x : UInt8} (h : k.assign i x = some k') :
    k'.mods = k.mods := by
  unfold Keyboard.assign at h
  split at h
  · cases h
    rfl
  · cases h

theorem push_mods {k k' : Keyboard} {x : UInt8} (h : k.push x = some k') : k'.mods = k.mods := by
  obtain ⟨l, hl, hk'⟩ := Option.bind_eq_some_iff.mp h
  cases hk'
  have hassign := assign_mods hl
  exact hassign

theorem pushBlanks_mods {n : Nat} {k k' : Keyboard} (h : k.pushBlanks n = some k') :
    k'.mods = k.mods := by
  induction n generalizing k with
  | zero =>
    cases h
    rfl
  | succ n ih =>
    obtain ⟨l, hl, hk'⟩ := Option.bind_eq_some_iff.mp h
    exact (ih hk').trans (push_mods hl)

theorem checkBuf_mods (k : Keyboard) (x : UInt8) : (k.checkBuf x).2.mods = k.mods := by
  unfold Keyboard.checkBuf
  split <;> rfl

theorem storeChar_mods {k k' : Keyboard} {x : UInt8} {ops : List ScreenOp}
    (h : k.storeChar x = some (ops, k')) : k'.mods = k.mods := by
  unfold Keyboard.storeChar at h
  split at h
  · obtain ⟨l, hl, hk'⟩ := Option.bind_eq_some_iff.mp h
    have hchecked := checkBuf_mods l x
    rw [Option.some.inj hk'] at hchecked
    exact hchecked.trans (push_mods hl)
  · have hchecked := checkBuf_mods k x
    rw [Option.some.inj h] at hchecked
    exact hchecked

theorem backspacing_mods {k k' : Keyboard} {physical : Bool} {ops : List ScreenOp}
    (h : k.backspacing physical = some (ops, k')) : k'.mods = k.mods := by
  unfold Keyboard.backspacing at h
  split at h
  · cases h
    rfl
  · obtain ⟨l, hl, hk'⟩ := Option.bind_eq_some_iff.mp h
    cases hk'
    have hassign := assign_mods hl
    exact hassign

/-- The handler changes the flags as `scan` says, wherever its bytes come from. -/
theorem keyboardHandler_mods {scancode past junk : UInt8} {k k' : Keyboard} {ops : List ScreenOp}
    (h : keyboardHandler scancode past junk k = some (ops, k')) :
    k'.mods = k.mods.scan scancode := by
  rw [Modifiers.scan, decode_mods, ← decode_mods k.mods scancode past junk]
  unfold keyboardHandler at h
  generalize decode k.mods scancode past junk = decoded at h ⊢
  obtain ⟨shown, action⟩ := decoded
  cases action with
  | modify m =>
    cases h
    rfl
  | backspace => exact backspacing_mods h
  | tab =>
    obtain ⟨l, hl, hk'⟩ := Option.map_eq_some_iff.mp h
    cases hk'
    exact pushBlanks_mods hl
  | switchTerm t =>
    cases h
    rfl
  | char x =>
    obtain ⟨⟨more, l⟩, hl, hk'⟩ := Option.map_eq_some_iff.mp h
    cases hk'
    exact storeChar_mods hl
  | ignore =>
    cases h
    rfl

/-- The flags after a step of the keyboard. -/
def KeyboardEvent.mods (m : Modifiers) : KeyboardEvent → Modifiers
  | .key scancode _ _ => m.scan scancode
  | _ => m

/-- Only keys change the flags. -/
theorem keyboardStep_mods {k k' : Keyboard} {e : KeyboardEvent} (h : keyboardStep k e = some k') :
    k'.mods = e.mods k.mods := by
  cases e with
  | key scancode past junk =>
    obtain ⟨⟨shown, l⟩, hl, rfl⟩ := Option.map_eq_some_iff.mp h
    have hmods := keyboardHandler_mods hl
    exact hmods
  | resume x =>
    simp only [keyboardStep] at h
    split at h
    · cases h
      rfl
    · obtain ⟨⟨shown, l⟩, hl, rfl⟩ := Option.map_eq_some_iff.mp h
      have hmods := storeChar_mods hl
      exact hmods
  | readStart n =>
    cases h
    rfl
  | readWake =>
    cases h
    unfold Keyboard.readWake
    split <;> rfl
  | readDone n =>
    obtain ⟨⟨value, data, l⟩, hl, rfl⟩ := Option.map_eq_some_iff.mp h
    obtain ⟨⟨copied, l'⟩, hclear, hdone⟩ := Option.bind_eq_some_iff.mp hl
    obtain ⟨data', -, hl'⟩ := Option.bind_eq_some_iff.mp hclear
    cases hdone
    split at hl'
    · cases hl'
    · cases hl'
      rfl
  | write buf1 n =>
    obtain ⟨⟨shown, l⟩, hl, rfl⟩ := Option.map_eq_some_iff.mp h
    simp only [Keyboard.writeTerminal, Option.bind_eq_bind] at hl
    split at hl
    · obtain ⟨⟨back, l'⟩, hback, hl'⟩ := Option.bind_eq_some_iff.mp hl
      cases hl'
      have hmods := backspacing_mods hback
      exact hmods
    · cases hl
      rfl

/-! ## One key event -/

namespace Key
variable (k : Key) (m : Modifiers)

theorem make_eq_iff (b : UInt8) : UInt8.ofNat k.code.toNat = b ↔ k.code.toNat = b.toNat := by
  have hcode := k.code.isLt
  rw [← UInt8.toNat_inj, UInt8.toNat_ofNat_of_lt' (by simp [UInt8.size]; omega)]

theorem break_eq_iff (b : UInt8) :
    UInt8.ofNat (k.code.toNat + 0x80) = b ↔ k.code.toNat + 0x80 = b.toNat := by
  have hcode := k.code.isLt
  rw [← UInt8.toNat_inj, UInt8.toNat_ofNat_of_lt' (by simp [UInt8.size]; omega)]

/-- The byte of a press alone. -/
theorem scan_make :
    let m' := m.scan (UInt8.ofNat k.code.toNat)
    m'.shiftOn = (m.shiftOn || decide k.HasShiftCode) ∧
      m'.ctrlOn = (m.ctrlOn || decide (k.code = 0x1D#7)) ∧
      m'.altOn = (m.altOn || decide (k.code = 0x38#7)) := by
  have hcode := k.code.isLt
  simp only [Modifiers.scan, decode_mods, make_eq_iff, HasShiftCode, BitVec.toNat_inj.symm]
  generalize k.code.toNat = n at hcode ⊢
  refine ⟨?_, ?_, ?_⟩
  · by_cases h : n = 0x2A ∨ n = 0x36
    · simp [h]
    · have hoff : ¬(n = 0xAA ∨ n = 0xB6) := by omega
      simp [h, hoff]
  · by_cases h : n = 0x1D
    · simp [h]
    · have hoff : n ≠ 0xE0 ∧ n ≠ 0x9D := by omega
      simp [h, hoff]
  · by_cases h : n = 0x38
    · simp [h]
    · have hoff : n ≠ 0xB8 := by omega
      simp [h, hoff]

/-- The byte of a release alone. That of code 0x60 is the prefix byte. -/
theorem scan_break :
    let m' := m.scan (UInt8.ofNat (k.code.toNat + 0x80))
    m'.shiftOn = (m.shiftOn && !decide k.HasShiftCode) ∧
      m'.ctrlOn = ((m.ctrlOn || decide (k.code = 0x60#7)) && !decide (k.code = 0x1D#7)) ∧
      m'.altOn = (m.altOn && !decide (k.code = 0x38#7)) := by
  have hcode := k.code.isLt
  simp only [Modifiers.scan, decode_mods, break_eq_iff, HasShiftCode, BitVec.toNat_inj.symm]
  generalize k.code.toNat = n at hcode ⊢
  refine ⟨?_, ?_, ?_⟩
  · by_cases h : n = 0x2A ∨ n = 0x36 <;> simp [h]
  · by_cases h : n = 0x1D
    · simp [h]
    · by_cases hextension : n = 0x60 <;> simp [h, hextension]
  · by_cases h : n = 0x38 <;> simp [h]

/-- The prefix byte, taken as a code of Ctrl. -/
theorem scan_extension :
    m.scan 0xE0 = { m with ctrlOn := true } := by
  simp [Modifiers.scan, decode_mods]

/-- The flags after a press. -/
theorem scan_makeBytes :
    let m' := k.makeBytes.foldl Modifiers.scan m
    m'.shiftOn = (m.shiftOn || decide k.HasShiftCode) ∧
      m'.ctrlOn = (m.ctrlOn || k.extended || decide (k.code = 0x1D#7)) ∧
      m'.altOn = (m.altOn || decide (k.code = 0x38#7)) := by
  cases hext : k.extended with
  | false =>
    simpa [makeBytes, hext] using scan_make k m
  | true =>
    simpa [makeBytes, hext, scan_extension] using scan_make k { m with ctrlOn := true }

/-- The flags after a release. -/
theorem scan_breakBytes :
    let m' := k.breakBytes.foldl Modifiers.scan m
    m'.shiftOn = (m.shiftOn && !decide k.HasShiftCode) ∧
      m'.ctrlOn = ((m.ctrlOn || k.extended) && !decide (k.code = 0x1D#7)) ∧
      m'.altOn = (m.altOn && !decide (k.code = 0x38#7)) := by
  cases hext : k.extended with
  | false =>
    have hcode : k.code ≠ 0x60#7 := k.isCode.resolve_left (by simp [hext])
    simpa [breakBytes, hext, hcode] using scan_break k m
  | true =>
    simpa [breakBytes, hext, scan_extension] using scan_break k { m with ctrlOn := true }

theorem modifier_eq_shift : k.modifier = some .shift ↔ k.extended = false ∧ k.HasShiftCode := by
  unfold modifier HasShiftCode
  grind

theorem modifier_eq_ctrl : k.modifier = some .ctrl ↔ k.code = 0x1D#7 := by
  unfold modifier
  grind

theorem modifier_eq_alt : k.modifier = some .alt ↔ k.code = 0x38#7 := by
  unfold modifier
  grind

theorem not_hasShiftCode (h : k.code = 0x1D#7) : ¬k.HasShiftCode := by
  simp [HasShiftCode, h]

end Key

namespace KeyRun
variable (r : KeyRun) (k : Key)

theorem holding_press (m : Modifier) (mods : Modifiers) :
    (⟨mods, insert k r.held⟩ : KeyRun).Holding m ↔ k.modifier = some m ∨ r.Holding m := by
  simp [Holding]

theorem holding_release (m : Modifier) (mods : Modifiers) :
    (⟨mods, r.held.erase k⟩ : KeyRun).Holding m ↔ r.HoldingOther k m := by
  simp only [Holding, HoldingOther, Finset.mem_erase, and_assoc]
  exact exists_congr fun k' => and_left_comm

/-- The key events after which the flags still agree with the keys held. An extended key counts as
Ctrl, and with the code of a Shift key as Shift too; a release counts for both keys of a pair. -/
def Tracked : KeyEvent → Prop
  | .press k =>
      k.extended = true → k.modifier ≠ some .ctrl →
        r.Holding .ctrl ∧ (k.HasShiftCode → r.Holding .shift)
  | .release k =>
      k ∈ r.held →
        (∀ m, k.modifier = some m → ¬r.HoldingOther k m) ∧
          (k.extended = true → k.modifier ≠ some .ctrl →
            r.Holding .ctrl ∧ (k.HasShiftCode → ¬r.Holding .shift))

/-- After a press. -/
theorem agrees_press_iff (h : r.Agrees) :
    (⟨k.makeBytes.foldl Modifiers.scan r.mods, insert k r.held⟩ : KeyRun).Agrees ↔
      r.Tracked (.press k) := by
  obtain ⟨hshift, hctrl, halt⟩ := h
  obtain ⟨hs, hc, ha⟩ := k.scan_makeBytes r.mods
  simp only [Agrees, hs, hc, ha, holding_press, Bool.or_eq_true, decide_eq_true_eq, hshift, hctrl,
    halt, Key.modifier_eq_shift, Key.modifier_eq_ctrl, Key.modifier_eq_alt, Tracked, ne_eq]
  have hcode := Key.not_hasShiftCode k
  cases k.extended with
  | false => simp [or_comm]
  | true =>
    constructor
    · rintro ⟨hs', hc', -⟩ - hne
      have hholds := (hc'.mp (.inl (.inr rfl))).resolve_left hne
      exact ⟨hholds, fun hsc => (hs'.mp (.inr hsc)).resolve_left (by simp)⟩
    · intro hcond
      refine ⟨?_, ?_, or_comm⟩
      · constructor
        · rintro (hheld | hsc)
          · exact .inr hheld
          · exact .inr ((hcond rfl fun hc' => hcode hc' hsc).2 hsc)
        · rintro (⟨hext, -⟩ | hheld)
          · cases hext
          · exact .inl hheld
      · constructor
        · intro _
          by_cases hc' : k.code = 0x1D#7
          · exact .inl hc'
          · exact .inr (hcond rfl hc').1
        · intro _
          exact .inl (.inr rfl)

/-- The keys that are held are the one to be released and the others. -/
theorem holding_iff_of_mem (hk : k ∈ r.held) (m : Modifier) :
    r.Holding m ↔ k.modifier = some m ∨ r.HoldingOther k m := by
  constructor
  · rintro ⟨k', hk', hm⟩
    by_cases heq : k' = k
    · exact .inl (heq ▸ hm)
    · exact .inr ⟨k', hk', heq, hm⟩
  · rintro (hm | ⟨k', hk', -, hm⟩)
    · exact ⟨k, hk, hm⟩
    · exact ⟨k', hk', hm⟩

theorem or_and_not_iff {p q : Prop} : ((p ∨ q) ∧ ¬p ↔ q) ↔ (p → ¬q) := by
  tauto

theorem and_not_iff {p q : Prop} : (q ∧ ¬p ↔ q) ↔ (p → ¬q) := by
  tauto

theorem not_iff_other {p q : Prop} : (¬p ↔ q) ↔ (p → ¬q) ∧ (¬p → q) := by
  tauto

/-- After a release. -/
theorem agrees_release_iff (h : r.Agrees) (hk : k ∈ r.held) :
    (⟨k.breakBytes.foldl Modifiers.scan r.mods, r.held.erase k⟩ : KeyRun).Agrees ↔
      r.Tracked (.release k) := by
  obtain ⟨hshift, hctrl, halt⟩ := h
  obtain ⟨hs, hc, ha⟩ := k.scan_breakBytes r.mods
  have hall (P : Modifier → Prop) : (∀ m, P m) ↔ P .shift ∧ P .ctrl ∧ P .alt :=
    ⟨fun hP => ⟨hP _, hP _, hP _⟩, fun hP m => by cases m <;> simp [hP]⟩
  simp only [Agrees, hs, hc, ha, holding_release, Bool.or_eq_true, Bool.and_eq_true,
    Bool.not_eq_true', decide_eq_false_iff_not, hshift, hctrl, halt, Tracked, hk, true_imp_iff,
    hall, holding_iff_of_mem r k hk, Key.modifier_eq_shift, Key.modifier_eq_ctrl,
    Key.modifier_eq_alt, ne_eq]
  have hcode := Key.not_hasShiftCode k
  cases k.extended with
  | false =>
    simp only [true_and, Bool.false_eq_true, or_false, false_imp_iff, and_true, or_and_not_iff]
  | true =>
    simp only [Bool.true_eq_false, false_and, false_or, or_true, true_and, true_imp_iff,
      false_imp_iff, or_and_not_iff, and_not_iff, not_iff_other]
    constructor
    · rintro ⟨hs', ⟨hc', hother⟩, ha'⟩
      exact ⟨⟨hc', ha'⟩, fun hne => ⟨.inr (hother hne), hs'⟩⟩
    · rintro ⟨⟨hc', ha'⟩, hrest⟩
      refine ⟨fun hsc => (hrest fun hc => hcode hc hsc).2 hsc, ⟨hc', ?_⟩, ha'⟩
      intro hne
      exact (hrest hne).1.resolve_left hne

/-- One key event, from flags that agree with the keys held. -/
theorem agrees_step_iff (e : KeyEvent) (h : r.Agrees) :
    r.Tracked e ↔ ∃ r', r.step e = some r' ∧ r'.Agrees := by
  cases e with
  | press k => simp only [step, Option.some.injEq, exists_eq_left', agrees_press_iff r k h]
  | release k =>
    by_cases hk : k ∈ r.held
    · simp only [step, if_pos hk, Option.some.injEq, exists_eq_left', agrees_release_iff r k h hk]
    · refine iff_of_true (fun hmem => absurd hmem hk) ⟨r, ?_, h⟩
      simp [step, hk]

theorem agrees_start : start.Agrees := by
  simp [Agrees, Holding, start]

/-- The flags agree with the keys held after every key event of a run exactly when each event is one
of the tracked ones. -/
theorem flags_follow_held_keys_iff (es : List KeyEvent) :
    Holds step Agrees start es ↔ EachStep step Tracked start es := by
  have hbase : ∀ (r : KeyRun) e r', True → r.step e = some r' → True := fun _ _ _ _ _ => trivial
  exact holds_iff_eachStep hbase (fun r e _ h => agrees_step_iff r e h) trivial agrees_start

/-- With both Shift keys down, the release of the left one turns Shift off. -/
theorem release_of_one_shift_clears_flag :
    ¬Holds step Agrees start [.press .leftShift, .press .rightShift, .release .leftShift] := by
  intro h
  have hrun : runFrom step start [.press .leftShift, .press .rightShift, .release .leftShift] =
      some ⟨⟨false, false, false, false⟩, {Key.rightShift}⟩ := by
    decide
  have hflag := (h.last hrun).1.mpr ⟨Key.rightShift, by simp, by decide⟩
  cases hflag

end KeyRun

end OreOS
