import OreOS.Keyboard.Proofs.ReadBack
import OreOS.Programs.Shell

/-!
# The shell reads what is typed

Keys arrive one by one, while the shell waits in `read_terminal`, and the shell passes the line that
they make to `ece391_execute`. Over the lines it is a small machine that knows neither rows nor
buffers, and the shell does what this machine does.
-/

namespace OreOS
open Machine Keyboard

/-! ## A session -/

/-- Where a session is, with the line that is being typed. -/
inductive Talk where
  | prompt
  | reading (line : List UInt8)
  /-- Enter has been pressed behind the line. -/
  | entered (line : List UInt8)
  | running
  | returned (value : Int)
  deriving DecidableEq, Repr

/-- What has been printed and executed so far, and the modifier keys that are held. -/
structure ShellSession where
  talk : Talk
  mods : Modifiers
  out : List UInt8
  commands : List (List UInt8)

/-- What an event means to the line that is being typed, under the modifiers. -/
def KeyboardEvent.action (m : Modifiers) : KeyboardEvent → KeyAction
  | .key scancode past junk => (decode m scancode past junk).2
  | _ => .ignore

namespace ShellSession

/-- Before the first prompt. -/
def start (m : Modifiers) : ShellSession := ⟨.prompt, m, shellGreeting, []⟩

/-- What a key does while the shell waits. -/
def press (a : KeyAction) : Talk → Talk
  | .reading line => if a = .char 10 then .entered line else .reading (a.edit line)
  | talk => talk

/-- A line that has been read. -/
def conclude (t : ShellSession) (line : List UInt8) : ShellSession :=
  if line = exitCommand then { t with talk := .returned 0 }
  else if line = [] then { t with talk := .prompt }
  else { t with talk := .running, commands := t.commands ++ [line] }

/-- One event of the session. -/
def next (t : ShellSession) : ShellEvent → ShellSession
  | .input e => { t with talk := press (e.action t.mods) t.talk, mods := e.mods t.mods }
  | .goes =>
      match t.talk with
      | .prompt => { t with talk := .reading [], out := t.out ++ shellPrompt }
      | .entered line => t.conclude line
      | _ => t
  | .done rval =>
      match t.talk with
      | .running => { t with talk := .prompt, out := t.out ++ complaint rval }
      | _ => t

end ShellSession

/-- An action that leaves the line as it is, as the release of a key does. -/
def KeyAction.Silent : KeyAction → Prop
  | .modify _ | .ignore => True
  | _ => False

instance : ∀ a, Decidable (KeyAction.Silent a)
  | .modify _ | .ignore => isTrue trivial
  | .backspace | .tab | .switchTerm _ | .char _ => isFalse id

/-- While the shell waits, keys that are pressed, held and released type a line of at
most 126 characters, and behind Enter keys are only released or held. Nothing else
happens to the keyboard. -/
def KeyOfLine (k : Keyboard) : KeyboardEvent → Prop
  | .key scancode past junk =>
      if k.fflag then (decode k.mods scancode past junk).2.Silent
      else (decode k.mods scancode past junk).2 = .char 10 ∨
        (decode k.mods scancode past junk).2.InLine (k.text k.active)
  | _ => False

instance (k : Keyboard) : ∀ e, Decidable (KeyOfLine k e)
  | .key scancode past junk =>
      inferInstanceAs (Decidable (if k.fflag then (decode k.mods scancode past junk).2.Silent
        else (decode k.mods scancode past junk).2 = .char 10 ∨
          (decode k.mods scancode past junk).2.InLine (k.text k.active)))
  | .resume _ | .readStart _ | .readWake | .readDone _ | .write _ _ => isFalse id

/-- The terminal is not left and its row not filled. The shell gets lines of at most 126 characters,
and Enter is not typed ahead of the read. -/
def Orderly (sh : Shell) : ShellEvent → Prop
  | .input e => if sh.phase = .reading then KeyOfLine sh.keyboard e else StaysInRow sh.keyboard e
  | .goes => sh.phase = .prompt → sh.keyboard.fflag = false
  | .done _ => True

instance (sh : Shell) : ∀ e, Decidable (Orderly sh e)
  | .input e =>
      inferInstanceAs (Decidable (if sh.phase = .reading then KeyOfLine sh.keyboard e
        else StaysInRow sh.keyboard e))
  | .goes => inferInstanceAs (Decidable (sh.phase = .prompt → sh.keyboard.fflag = false))
  | .done _ => isTrue trivial

/-! ## The keyboard -/

theorem InRow.write {k : Keyboard} (h : InRow k) (buf1 : Nat → UInt8) (n : Int) :
    ∃ k', keyboardStep k (.write buf1 n) = some k' ∧ InRow k' ∧ k'.mods = k.mods ∧
    k'.fflag = k.fflag := by
  have h0 : InRow { k with written := [] } := h.same rfl rfl rfl
  have hback := backspacing_eq false h0.index
  simp only [Bool.false_eq_true, false_and, if_false] at hback
  have hsome : ∃ k', keyboardStep k (.write buf1 n) = some k' ∧ k'.mods = k.mods ∧
      k'.fflag = k.fflag := by
    simp only [keyboardStep, Keyboard.writeTerminal]
    split
    · rw [hback]
      exact ⟨_, rfl, rfl, rfl⟩
    · exact ⟨_, rfl, rfl, rfl⟩
  obtain ⟨k', hk', hsame⟩ := hsome
  exact ⟨k', hk', h.step (e := .write buf1 n) trivial hk', hsame⟩

/-- A step that stays in the row is defined. -/
theorem InRow.defined {k : Keyboard} (h : InRow k) {e : KeyboardEvent} (hc : StaysInRow k e) :
    ∃ k', keyboardStep k e = some k' := by
  have h0 : InRow { k with written := [] } := h.same rfl rfl rfl
  cases e with
  | key scancode past junk =>
    simp only [keyboardStep, keyboardHandler]
    unfold StaysInRow at hc
    cases hact : (decode k.mods scancode past junk).2 with
    | modify m => exact ⟨_, rfl⟩
    | backspace =>
      simp only [backspacing_eq true h0.index]
      split <;> exact ⟨_, rfl⟩
    | tab =>
      simp only [hact] at hc
      have hroom : k.index + 4 < bufSize := hc
      obtain ⟨m, hm, -⟩ := pushBlanks_inv (P := fun _ _ => True)
        (k := { k with written := [] }) trivial (Nat.le_of_lt hroom) fun _ _ _ _ _ => trivial
      simp only [hm]
      exact ⟨_, rfl⟩
    | switchTerm t => exact ⟨_, rfl⟩
    | char x =>
      simp only [storeChar_eq x h0.index]
      exact ⟨_, rfl⟩
    | ignore => exact ⟨_, rfl⟩
  | resume x =>
    simp only [keyboardStep]
    split
    · exact ⟨_, rfl⟩
    · have h1 : InRow { k with written := [], left := k.left - 1 } := h.same rfl rfl rfl
      simp only [storeChar_eq x h1.index]
      exact ⟨_, rfl⟩
  | readStart n => exact ⟨_, rfl⟩
  | readWake => exact ⟨_, rfl⟩
  | readDone n =>
    have hn : n < bufSize := hc
    have hfit : (offset k.active 0 : Int) + n ≤ bufBytes := by
      rw [h.active]
      unfold offset bufBytes bufSize at *
      omega
    obtain ⟨data, hdata⟩ := strcpy_isSome (m := bufSize - 1) (n := bufBytes - offset k.active 0)
      (by rw [h.active]; decide) (show k.row k.active (bufSize - 1) =
        0 by rw [h.active]; exact h.last)
    have hclear : ({ k with written := [] } : Keyboard).clearBuffer n = some (data, _) :=
      clearBuffer_eq_some_iff.mpr ⟨hdata, hfit, rfl⟩
    simp only [keyboardStep, Keyboard.readDone, hclear]
    exact ⟨_, rfl⟩
  | write buf1 n =>
    obtain ⟨k', hk', -⟩ := h.write buf1 n
    exact ⟨k', hk'⟩

/-- The keyboard after Enter, before the reader has woken. -/
structure Entered (k : Keyboard) (line : List UInt8) : Prop extends InRow k where
  fflag : k.fflag = true
  text : k.text 0 = line ++ [10]
  noNul : 0 ∉ line
  length : k.indEntered 0 = BitVec.ofNat 32 (line.length + 1)

theorem Waiting.enter {k : Keyboard} {line : List UInt8} (h : Waiting k line)
    (hfit : line.length ≤ 126)
    {scancode past junk : UInt8} (henter : (decode k.mods scancode past junk).2 = .char 10) :
    ∃ k', keyboardStep k (.key scancode past junk) = some k' ∧ Entered k' line := by
  obtain ⟨r, hr, hnoted⟩ := h.fresh.enter_handled hfit henter
  have hroom : ({ k with written := [] } : Keyboard).index < bufSize - 1 := by
    rw [h.fresh.index_eq]
    exact Nat.lt_of_le_of_lt hfit (by decide)
  have hpush := h.fresh.pushed (x := 10) (by decide) hroom
  have hentered : Entered { r.2 with written := [] } line := by
    rw [hnoted]
    refine ⟨hpush.toInRow.same rfl rfl rfl, rfl, hpush.text, h.noNul, ?_⟩
    rw [← hpush.active]
    exact noted_indEntered _ _ _
  refine ⟨r.2, by simp only [keyboardStep, hr, Option.map_some], ?_⟩
  exact ⟨hentered.toInRow.same rfl rfl rfl, hentered.fflag, hentered.text, hentered.noNul,
    hentered.length⟩

namespace Entered
variable {k : Keyboard} {line : List UInt8}

/-- A key that is released or held before the reader wakes. -/
theorem released (h : Entered k line) {scancode past junk : UInt8}
    (hsilent : (decode k.mods scancode past junk).2.Silent) :
    ∃ k', keyboardStep k (.key scancode past junk) = some k' ∧ Entered k' line := by
  have hsame : ∀ m, Entered { k with written := [], mods := m } line := fun m =>
    ⟨h.toInRow.same rfl rfl rfl, h.fflag, h.text, h.noNul, h.length⟩
  simp only [keyboardStep, keyboardHandler]
  generalize decode k.mods scancode past junk = decoded at hsilent ⊢
  obtain ⟨shown, action⟩ := decoded
  cases action with
  | modify m => exact ⟨_, rfl, hsame m⟩
  | ignore => exact ⟨_, rfl, hsame k.mods⟩
  | backspace | tab | switchTerm _ | char _ => exact absurd hsilent id

/-- The reader that wakes finds the line with its newline. -/
theorem wakes (h : Entered k line) :
    ∃ k', keyboardStep k .readWake = some k' ∧ Waiting k' (line ++ [10]) ∧
      k'.indEntered 0 = BitVec.ofNat 32 (line.length + 1) := by
  have hnoNul : 0 ∉ line ++ [10] := by
    simp [h.noNul]
  refine ⟨{ k with written := [], fflag := false }, ?_, ?_, h.length⟩
  · simp only [keyboardStep, Keyboard.readWake, h.fflag, if_true]
  · exact ⟨h.toInRow.same rfl rfl rfl, rfl, h.text, hnoNul⟩

end Entered

/-! ## The line -/

/-- `ece391_strcmp` of a string in an array with a string. -/
theorem ece391Strcmp_eq {b : Nat → UInt8} {l s : List UInt8} {i fuel : Nat}
    (hl : slice b i l.length = l)
    (hend : b (i + l.length) = 0) (hl0 : 0 ∉ l) (hs0 : 0 ∉ s) (hfuel : l.length < fuel)
    {f : Nat → UInt8}
    (hf : ∀ j, f (i + j) = cstr s j) : ∃ r, ece391Strcmp b f fuel i = some r ∧ (r = 0 ↔ l = s) := by
  induction l generalizing i s fuel with
  | nil =>
    obtain ⟨fuel, rfl⟩ : ∃ k, fuel = k + 1 := ⟨fuel - 1, by omega⟩
    have hi : b i = 0 := hend
    have h0 : f i = cstr s 0 := hf 0
    rw [ece391Strcmp, hi, h0]
    cases s with
    | nil => exact ⟨0, rfl, by simp⟩
    | cons y s =>
      have hy : y ≠ 0 := fun h => hs0 (by simp [h])
      have hy' : y.toNat ≠ 0 := fun h => hy (UInt8.toNat_inj.mp h)
      refine ⟨(0 : UInt8).toNat - (y.toNat : Int), if_neg fun h => hy h.symm, ?_⟩
      simp [hy']
  | cons x l ih =>
    obtain ⟨fuel, rfl⟩ : ∃ k, fuel = k + 1 := ⟨fuel - 1, by omega⟩
    rw [List.length_cons, slice_succ] at hl
    obtain ⟨hx, hrest⟩ := List.cons.inj hl
    obtain ⟨hx0, hl0'⟩ := not_or.mp (List.mem_cons.not.mp hl0)
    have h0 : f i = cstr s 0 := hf 0
    rw [ece391Strcmp, hx, h0]
    cases s with
    | nil =>
      have hx' : x.toNat ≠ 0 := fun h => hx0 (UInt8.toNat_inj.mp h).symm
      refine ⟨x.toNat - ((0 : UInt8).toNat : Int), if_neg fun h => hx0 h.symm, ?_⟩
      simp [hx']
    | cons y s =>
      have hs0' : 0 ∉ s := fun h => hs0 (List.mem_cons_of_mem _ h)
      change ∃ r, (if x = y then _ else _) = some r ∧ _
      by_cases hxy : x = y
      · subst hxy
        rw [List.length_cons, Nat.add_comm l.length, ← Nat.add_assoc] at hend
        obtain ⟨r, hr, hr0⟩ := ih hrest hend hl0' hs0' (by simpa using hfuel) (fun j => by
          rw [Nat.add_assoc, hf, Nat.add_comm]
          rfl)
        refine ⟨r, by rw [if_pos rfl, if_neg (Ne.symm hx0), hr], ?_⟩
        rw [hr0, List.cons.injEq]
        exact (and_iff_right rfl).symm
      · have hne : x.toNat ≠ y.toNat := fun h => hxy (UInt8.toNat_inj.mp h)
        refine ⟨x.toNat - (y.toNat : Int), if_neg hxy, ?_⟩
        simp [hxy]
        omega

/-- What the shell does with a line that ends with its newline. -/
theorem handle_line {sh : Shell} {line : List UInt8} (hphase : sh.phase = .prompt) (h0 : 0 ∉ line)
    (hlen : line.length ≤ 126) (hline : slice sh.buf 0 (line.length + 1) = line ++ [10]) :
    ∃ sh', sh.handle ((line.length : Int) + 1) = some sh' ∧ sh'.keyboard = sh.keyboard ∧
    sh'.out = sh.out ∧
      (sh'.phase, sh'.commands) =
        if line = exitCommand then (.returned 0, sh.commands)
        else if line = [] then (.prompt, sh.commands)
        else (.running, sh.commands ++ [line]) := by
  rw [slice_succ_last, Nat.zero_add] at hline
  obtain ⟨hchars, hnewline⟩ := List.append_inj hline (by simp)
  have hnewline' : sh.buf line.length = 10 := List.head_eq_of_cons_eq hnewline
  have hcnt : ((line.length : Int) + 1).toNat = line.length + 1 := by omega
  have hpos : 0 < (line.length : Int) + 1 ∧ sh.buf (((line.length : Int) + 1).toNat - 1) = 10 := by
    rw [hcnt, Nat.add_sub_cancel]
    exact ⟨by omega, hnewline'⟩
  -- The array with the newline replaced.
  have hbuf : slice (Function.update sh.buf line.length 0) 0 line.length = line := by
    rw [slice_congr (g := sh.buf) _ fun j _ hj => Function.update_of_ne (by omega) _ _]
    exact hchars
  have hnul : Function.update sh.buf line.length 0 (0 + line.length) = 0 := by
    rw [Nat.zero_add, Function.update_self]
  obtain ⟨r, hr, hr0⟩ := ece391Strcmp_eq hbuf hnul h0 (by decide : 0 ∉ exitCommand)
    (show line.length < 1024 by omega) fun j => congrArg (cstr exitCommand) (Nat.zero_add j)
  have hfirst : Function.update sh.buf line.length 0 0 = 0 ↔ line = [] := by
    cases line with
    | nil => simp
    | cons x l =>
      rw [List.length_cons, slice_succ] at hbuf
      rw [List.length_cons, (List.cons.inj hbuf).1]
      simp only [reduceCtorEq, iff_false]
      exact fun h => h0 (by simp [h])
  have hcommand : cstring (slice (Function.update sh.buf line.length 0) 0 1024) = line := by
    rw [show 1024 = line.length + (1 + (1023 - line.length)) by
      omega, slice_add, hbuf, slice_add, slice_succ, hnul]
    exact cstring_append_nul h0 _
  rw [Shell.handle, if_neg (by omega), if_neg (by omega), if_pos hpos, hcnt, Nat.add_sub_cancel,
    if_neg (by omega)]
  simp only [hr, Option.bind_eq_bind, Option.bind_some, hr0, hfirst, hcommand]
  split
  · exact ⟨_, rfl, rfl, rfl, rfl⟩
  · split
    · exact ⟨_, rfl, rfl, rfl, by rw [hphase]⟩
    · exact ⟨_, rfl, rfl, rfl, rfl⟩

/-! ## The simulation -/

/-- How the shell stands when a session is at the given place. -/
def Shell.StandsAt (sh : Shell) : Talk → Prop
  | .prompt => sh.phase = .prompt ∧ InRow sh.keyboard
  | .reading line => sh.phase = .reading ∧ Waiting sh.keyboard line ∧ line.length ≤ 126
  | .entered line => sh.phase = .reading ∧ Entered sh.keyboard line ∧ line.length ≤ 126
  | .running => sh.phase = .running ∧ InRow sh.keyboard
  | .returned value => sh.phase = .returned value ∧ InRow sh.keyboard

/-- The shell is at the place of the session and has printed and executed the same. -/
structure Shell.Follows (sh : Shell) (t : ShellSession) : Prop where
  stands : sh.StandsAt t.talk
  mods : sh.keyboard.mods = t.mods
  out : sh.out = t.out
  commands : sh.commands = t.commands

namespace Shell
variable {sh : Shell} {t : ShellSession}

theorem puts_eq (h : InRow sh.keyboard) (s : List UInt8) :
    ∃ k, sh.puts s = some { sh with keyboard := k, out := sh.out ++ s } ∧ InRow k ∧
      k.mods = sh.keyboard.mods ∧ k.fflag = sh.keyboard.fflag := by
  obtain ⟨k, hk, hrest⟩ := h.write (cstr s) s.length
  refine ⟨k, ?_, hrest⟩
  rw [puts, hk, Option.bind_eq_bind, Option.bind_some]
  rfl

/-- Outside the read nothing that happens to the keyboard is of account to the session. -/
theorem Follows.elsewhere (h : sh.Follows t) (hphase : sh.phase ≠ .reading) {e : KeyboardEvent}
    (hc : StaysInRow sh.keyboard e) :
    ∃ k, keyboardStep sh.keyboard e = some k ∧ Follows { sh with keyboard := k }
    (t.next (.input e)) := by
  have hstands := h.stands
  have hnext : InRow sh.keyboard → ∃ k, keyboardStep sh.keyboard e = some k ∧ InRow k ∧
      k.mods = e.mods t.mods := by
    intro hrow
    obtain ⟨k, hk⟩ := hrow.defined hc
    exact ⟨k, hk, hrow.step hc hk, (keyboardStep_mods hk).trans (congrArg e.mods h.mods)⟩
  cases htalk : t.talk with
  | prompt =>
    rw [htalk] at hstands
    obtain ⟨k, hk, hrow, hmods⟩ := hnext hstands.2
    refine ⟨k, hk, ?_, hmods, h.out, h.commands⟩
    simp only [ShellSession.next, htalk]
    exact ⟨hstands.1, hrow⟩
  | reading line =>
    rw [htalk] at hstands
    exact absurd hstands.1 hphase
  | entered line =>
    rw [htalk] at hstands
    exact absurd hstands.1 hphase
  | running =>
    rw [htalk] at hstands
    obtain ⟨k, hk, hrow, hmods⟩ := hnext hstands.2
    refine ⟨k, hk, ?_, hmods, h.out, h.commands⟩
    simp only [ShellSession.next, htalk]
    exact ⟨hstands.1, hrow⟩
  | returned value =>
    rw [htalk] at hstands
    obtain ⟨k, hk, hrow, hmods⟩ := hnext hstands.2
    refine ⟨k, hk, ?_, hmods, h.out, h.commands⟩
    simp only [ShellSession.next, htalk]
    exact ⟨hstands.1, hrow⟩

/-- A key that is pressed, held or released while the shell waits. -/
theorem Follows.pressed (h : sh.Follows t) (hphase : sh.phase = .reading) {e : KeyboardEvent}
    (he : KeyOfLine sh.keyboard e) :
    ∃ k, keyboardStep sh.keyboard e = some k ∧ Follows { sh with keyboard := k }
    (t.next (.input e)) := by
  obtain ⟨scancode, past, junk, rfl⟩ : ∃ scancode past junk, e = .key scancode past junk := by
    cases e with
    | key scancode past junk => exact ⟨scancode, past, junk, rfl⟩
    | _ => exact absurd he id
  have hstands := h.stands
  have haction : KeyboardEvent.action t.mods (.key scancode past junk) =
      (decode sh.keyboard.mods scancode past junk).2 := by
    rw [h.mods]
    rfl
  have hmods : ∀ {k}, keyboardStep sh.keyboard (.key scancode past junk) = some k →
      k.mods = KeyboardEvent.mods t.mods (.key scancode past junk) := fun hk =>
    (keyboardStep_mods hk).trans (congrArg (KeyboardEvent.mods · _) h.mods)
  simp only [KeyOfLine] at he
  cases htalk : t.talk with
  | reading line =>
    rw [htalk] at hstands
    obtain ⟨-, hwaiting, hfit⟩ := hstands
    rw [hwaiting.fflag, if_neg (by decide), hwaiting.active, hwaiting.text] at he
    by_cases henter : (decode sh.keyboard.mods scancode past junk).2 = .char 10
    · obtain ⟨k, hk, hentered⟩ := hwaiting.enter hfit henter
      refine ⟨k, hk, ?_, hmods hk, h.out, h.commands⟩
      simp only [ShellSession.next, htalk, haction, ShellSession.press, if_pos henter]
      exact ⟨hphase, hentered, hfit⟩
    · have hin := he.resolve_left henter
      obtain ⟨r, hr, hline⟩ := hwaiting.fresh.handled hfit hin
      have hk : keyboardStep sh.keyboard (.key scancode past junk) = some r.2 := by
        simp only [keyboardStep, hr, Option.map_some]
      refine ⟨r.2, hk, ?_, hmods hk, h.out, h.commands⟩
      simp only [ShellSession.next, htalk, haction, ShellSession.press, if_neg henter]
      exact ⟨hphase, hline, hin.length_edit hfit⟩
  | entered line =>
    rw [htalk] at hstands
    obtain ⟨-, hentered, hfit⟩ := hstands
    rw [hentered.fflag, if_pos rfl] at he
    obtain ⟨k, hk, hsame⟩ := hentered.released he
    refine ⟨k, hk, ?_, hmods hk, h.out, h.commands⟩
    simp only [ShellSession.next, htalk, ShellSession.press]
    exact ⟨hphase, hsame, hfit⟩
  | prompt =>
    rw [htalk] at hstands
    exact absurd (hstands.1.symm.trans hphase) (by decide)
  | running =>
    rw [htalk] at hstands
    exact absurd (hstands.1.symm.trans hphase) (by decide)
  | returned value =>
    rw [htalk] at hstands
    exact absurd (hstands.1.symm.trans hphase) (by simp)

/-- The end of the read and what the shell makes of the line. -/
theorem Follows.take (h : sh.Follows t) {line : List UInt8} (htalk : t.talk = .entered line) :
    ∃ sh', sh.take = some sh' ∧ sh'.Follows (t.conclude line) := by
  have hstands := h.stands
  rw [htalk] at hstands
  obtain ⟨-, hentered, hfit⟩ := hstands
  have h0 := hentered.noNul
  obtain ⟨k, hwake, hwaiting, hlength⟩ := hentered.wakes
  obtain ⟨data, hdone, htake, hdata⟩ := hwaiting.readDone (n := 1023) (by decide)
  have hsmall : (BitVec.ofNat 32 (line.length + 1)).toNat = line.length + 1 := by
    rw [BitVec.toNat_ofNat]
    omega
  have hvalue : (k.indEntered 0).toInt = (line.length : Int) + 1 := by
    rw [hlength, BitVec.toInt_eq_toNat_of_lt (by omega), hsmall]
    rfl
  rw [hvalue] at hdone
  have hbuf : slice (overwrite sh.buf 0 data) 0 (line.length + 1) = line ++ [10] := by
    rw [List.length_append, List.length_singleton] at htake
    have hlen := congrArg List.length htake
    rw [List.length_take, List.length_append, List.length_singleton] at hlen
    have hfirst := slice_take (overwrite sh.buf 0 data) data.length (line.length + 1)
    rw [slice_overwrite, Nat.min_eq_left (by omega), htake] at hfirst
    exact hfirst.symm
  let read : Shell :=
    { sh with keyboard := k.cleared 1023, buf := overwrite sh.buf 0 data, phase := .prompt }
  have hread : read.phase = .prompt := rfl
  obtain ⟨sh', hsh', hkeyboard, hout, hplace⟩ := handle_line hread h0 hfit hbuf
  have hrow : InRow sh'.keyboard := by
    rw [hkeyboard]
    exact hwaiting.toInRow.cleared (by decide)
  have hmods : sh'.keyboard.mods = t.mods := by
    rw [hkeyboard]
    exact (keyboardStep_mods hwake).trans h.mods
  refine ⟨sh', ?_, ?_⟩
  · rw [Shell.take, hwake, Option.bind_eq_bind, Option.bind_some, hdone, Option.bind_eq_bind,
      Option.bind_some]
    simp only
    rw [if_neg (show ¬ 1024 < data.length from Nat.not_lt.mpr hdata)]
    exact hsh'
  · unfold ShellSession.conclude
    rw [← h.commands, ← h.out]
    split at hplace
    · obtain ⟨hphase, hcommands⟩ := Prod.mk.inj hplace
      rw [if_pos ‹_›]
      exact ⟨⟨hphase, hrow⟩, hmods, hout, hcommands⟩
    · rw [if_neg ‹_›]
      split at hplace
      · obtain ⟨hphase, hcommands⟩ := Prod.mk.inj hplace
        rw [if_pos ‹_›]
        exact ⟨⟨hphase, hrow⟩, hmods, hout, hcommands⟩
      · obtain ⟨hphase, hcommands⟩ := Prod.mk.inj hplace
        rw [if_neg ‹_›]
        exact ⟨⟨hphase, hrow⟩, hmods, hout, hcommands⟩

/-- One step of the shell. -/
theorem Follows.step (h : sh.Follows t) {e : ShellEvent} (hc : Orderly sh e) :
    ∃ sh', shellStep sh e = some sh' ∧ sh'.Follows (t.next e) := by
  cases e with
  | input e =>
    simp only [shellStep, Option.map_eq_some_iff]
    simp only [Orderly] at hc
    by_cases hphase : sh.phase = .reading
    · rw [if_pos hphase] at hc
      obtain ⟨k, hk, hnext⟩ := h.pressed hphase hc
      exact ⟨_, ⟨k, hk, rfl⟩, hnext⟩
    · rw [if_neg hphase] at hc
      obtain ⟨k, hk, hnext⟩ := h.elsewhere hphase hc
      exact ⟨_, ⟨k, hk, rfl⟩, hnext⟩
  | goes =>
    have hstands := h.stands
    cases htalk : t.talk with
    | prompt =>
      rw [htalk] at hstands
      obtain ⟨hphase, hrow⟩ := hstands
      obtain ⟨k, hputs, hrow', hmods', hflag'⟩ := puts_eq hrow shellPrompt
      obtain ⟨k', hk', hwaiting, hmods''⟩ := hrow'.waits (hflag'.trans (hc hphase)) 1023
      refine ⟨{ sh with keyboard := k', phase := .reading, out := sh.out ++ shellPrompt }, ?_, ?_⟩
      · simp only [shellStep, hphase]
        rw [ask, hputs, Option.bind_eq_bind, Option.bind_some]
        simp only [hk', Option.bind_eq_bind, Option.bind_some]
        rfl
      · simp only [ShellSession.next, htalk]
        exact ⟨⟨rfl, hwaiting, by decide⟩, hmods''.trans (hmods'.trans h.mods),
          congrArg (· ++ shellPrompt) h.out, h.commands⟩
    | reading line =>
      rw [htalk] at hstands
      obtain ⟨hphase, hwaiting, -⟩ := hstands
      refine ⟨sh, ?_, ?_⟩
      · simp only [shellStep, hphase, hwaiting.fflag]
        rfl
      · simpa only [ShellSession.next, htalk] using h
    | entered line =>
      rw [htalk] at hstands
      obtain ⟨hphase, hentered, -⟩ := hstands
      obtain ⟨sh', htake, hnext⟩ := h.take htalk
      refine ⟨sh', ?_, ?_⟩
      · simp only [shellStep, hphase, hentered.fflag, if_true]
        exact htake
      · simpa only [ShellSession.next, htalk] using hnext
    | running =>
      rw [htalk] at hstands
      exact ⟨sh, by simp only [shellStep, hstands.1],
        by simpa only [ShellSession.next, htalk] using h⟩
    | returned value =>
      rw [htalk] at hstands
      exact ⟨sh, by simp only [shellStep, hstands.1],
        by simpa only [ShellSession.next, htalk] using h⟩
  | done rval =>
    have hstands := h.stands
    by_cases hrunning : t.talk = .running
    · rw [hrunning] at hstands
      obtain ⟨hphase, hrow⟩ := hstands
      simp only [shellStep, hphase, ShellSession.next, hrunning]
      by_cases hquiet : complaint rval = []
      · refine ⟨{ sh with phase := .prompt }, ?_, ⟨rfl, hrow⟩, h.mods, ?_, h.commands⟩
        · rw [if_pos hquiet]
          rfl
        · simp only [hquiet, List.append_nil]
          exact h.out
      · obtain ⟨k, hputs, hrow', hmods', -⟩ := puts_eq hrow (complaint rval)
        refine ⟨{ sh with keyboard := k, phase := .prompt, out := sh.out ++ complaint rval },
          ?_, ⟨rfl, hrow'⟩, hmods'.trans h.mods, ?_, h.commands⟩
        · rw [if_neg hquiet, hputs]
          rfl
        · exact congrArg (· ++ complaint rval) h.out
    · have hphase : sh.phase ≠ .running := by
        intro hphase
        cases htalk : t.talk with
        | running => exact hrunning htalk
        | _ =>
          rw [htalk] at hstands
          exact absurd (hstands.1.symm.trans hphase) (by simp)
      exact ⟨sh, by simp only [shellStep], by simpa only [ShellSession.next] using h⟩

end Shell

end OreOS
