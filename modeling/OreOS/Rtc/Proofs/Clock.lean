import OreOS.Machine.Trace
import OreOS.Rtc.Driver

/-!
# The driver and the clock

The driver together with the clock that it programs and with the request that the interrupt
controller keeps for it. In every run after `rtc_init` the clock ticks at the frequency that was
last asked for, and it never waits for a read of register C that nobody will make.
-/

namespace OreOS
open Machine

/-- The clock, whether the controller has a request of the clock, and whether the handler has not
read register C yet. -/
structure ClockMachine where
  cmos : Cmos
  pending : Bool
  handling : Bool

/-- What can happen next. -/
inductive ClockEvent where
  /-- The clock runs on. -/
  | advance (date : Nat → BitVec 8) (updating : Bool) (flags : BitVec 8)
  /-- A process writes to a descriptor of the clock. -/
  | write (mem : Word → UInt8) (myBuf : Word) (bus : Nat → BitVec 8)
  /-- The processor takes the interrupt of the clock, if there is one. -/
  | accept
  /-- The handler reads register C. -/
  | status (bus : Nat → BitVec 8)

namespace ClockMachine

/-- The clock changes, and the controller keeps a request when the clock begins to ask. -/
def follow (m : ClockMachine) (c : Cmos) : ClockMachine :=
  { m with cmos := c, pending := m.pending || !m.cmos.asks && c.asks }

/-- One event. -/
def step (m : ClockMachine) : ClockEvent → Option ClockMachine
  | .advance date updating flags => some (m.follow (m.cmos.advance date updating flags))
  | .write mem myBuf bus => some (m.follow (fncRtcWrite mem myBuf bus m.cmos).2)
  | .accept => some (if m.pending && !m.handling then { m with pending := false, handling := true }
    else m)
  | .status bus =>
      some (if m.handling then { m.follow (readStatus bus m.cmos) with handling := false } else m)

/-- After `rtc_init`. -/
def start (bus : Nat → BitVec 8) (c : Cmos) : ClockMachine :=
  follow ⟨c, false, false⟩ (rtcInit bus c)

/-- What holds in every run after `rtc_init` has found the clock `c`. -/
structure Sound (c : Cmos) (m : ClockMachine) : Prop where
  divider : m.cmos.divider = c.divider
  control : m.cmos.reg 11 = (c.reg 11 &&& 0xF0) ||| 0x40
  memory : ∀ i, 12 < i → m.cmos.reg i = c.reg i
  /-- The clock does not wait in vain. -/
  heard : m.cmos.asks = true → m.pending = true ∨ m.handling = true

/-- A period that ends is heard of: there is a request for it, or the handler has yet
to read register C. -/
def HearsPeriods (m : ClockMachine) : Prop :=
  ∀ date updating flags, flags.getLsbD 6 = true →
    ∃ m', m.step (.advance date updating flags) = some m' ∧ (m'.pending = true ∨ m'.handling = true)

end ClockMachine

/-- The frequency asked for after the event, when it was `f` before. A frequency that is not on the
list changes nothing. -/
def ClockEvent.asked (f : Nat) : ClockEvent → Nat
  | .write mem myBuf _ => if (rateOf (readWord mem myBuf)).isSome then (readWord mem myBuf).toNat
  else f
  | _ => f

/-! ## The registers -/

/-- A register that is selected, read and written again: A. -/
theorem Cmos.change_a (c : Cmos) (bus : Nat → BitVec 8) (f : BitVec 8 → BitVec 8) :
    ((((c.outb 0x8A 0x70).inb bus 0x71).2.outb 0x8A 0x70).outb
      (f ((c.outb 0x8A 0x70).inb bus 0x71).1) 0x71) =
      ⟨0x8A, Function.update c.reg 10 ((c.reg 10 &&& 0x80) ||| (f (c.reg 10) &&& 0x7F))⟩ := by
  have hselected : (Cmos.mk 0x8A c.reg).selected = 10 := by
    show ((0x8A : BitVec 8) &&& 0x7F).toNat = 10
    decide
  rw [Cmos.outb_index, Cmos.inb_data _ _ hselected (by decide), Cmos.outb_index, Cmos.outb_data,
    Cmos.store_a _ _ hselected]

/-- The same for B. -/
theorem Cmos.change_b (c : Cmos) (bus : Nat → BitVec 8) (f : BitVec 8 → BitVec 8) :
    ((((c.outb 0x8B 0x70).inb bus 0x71).2.outb 0x8B 0x70).outb
      (f ((c.outb 0x8B 0x70).inb bus 0x71).1) 0x71) =
      ⟨0x8B, Function.update c.reg 11 (f (c.reg 11))⟩ := by
  have hselected : (Cmos.mk 0x8B c.reg).selected = 11 := by
    show ((0x8B : BitVec 8) &&& 0x7F).toNat = 11
    decide
  rw [Cmos.outb_index, Cmos.inb_data _ _ hselected (by decide), Cmos.outb_index, Cmos.outb_data,
    Cmos.store_b _ _ hselected]

/-- The accesses of `rtc_init` and `rtc_write`, whatever the two ports give that the clock
does not answer at. -/
theorem programClock_eq (rate : BitVec 8) (bus : Nat → BitVec 8) (c : Cmos) :
    programClock rate bus c =
      ⟨bus 0xF0, Function.update (Function.update c.reg 10
        ((c.reg 10 &&& 0x80) ||| (((c.reg 10 &&& 0xF0) ||| rate) &&& 0x7F)))
        11 ((c.reg 11 &&& 0xF0) ||| 0x40)⟩ := by
  have ha := Cmos.change_a ⟨bus 0x70 &&& 0x7F, c.reg⟩ bus fun prev => (prev &&& 0xF0) ||| rate
  have hb := Cmos.change_b ⟨0x8A, Function.update c.reg 10
    ((c.reg 10 &&& 0x80) ||| (((c.reg 10 &&& 0xF0) ||| rate) &&& 0x7F))⟩ bus
    fun prev => (prev &&& 0xF0) ||| 0x40
  rw [programClock, Cmos.inb_other _ _ (show 0x70 ≠ 0x71 by decide)]
  simp only [Cmos.outb_index _ (bus 0x70 &&& 0x7F), ha, hb]
  rw [Cmos.inb_other _ _ (show 0x70 ||| 0x80 ≠ 0x71 by decide), Cmos.outb_index]
  simp

/-- The read of register C. -/
theorem readStatus_eq (bus : Nat → BitVec 8) (c : Cmos) :
    readStatus bus c = ⟨0x0C, Function.update c.reg 12 0⟩ := by
  have hselected : (Cmos.mk 0x0C c.reg).selected = 12 := by
    show ((0x0C : BitVec 8) &&& 0x7F).toNat = 12
    decide
  rw [readStatus, Cmos.outb_index, Cmos.inb_status _ _ hselected]

/-- The rate that is left in A. -/
theorem programClock_rate (rate : BitVec 8) (bus : Nat → BitVec 8) (c : Cmos) :
    (programClock rate bus c).reg 10 &&& 0x0F = rate &&& 0x0F := by
  rw [programClock_eq]
  simp only [Function.update_of_ne (show 10 ≠ 11 by decide), Function.update_self,
    BitVec.and_or_distrib_right, BitVec.and_assoc]
  simp

/-- `FREQ_MASK` keeps the divider. -/
theorem programClock_divider {rate : BitVec 8} (hrate : rate &&& 0x70 = 0) (bus : Nat → BitVec 8)
    (c : Cmos) :
    (programClock rate bus c).divider = c.divider := by
  rw [programClock_eq, Cmos.divider, Cmos.divider]
  simp only [Function.update_of_ne (show 10 ≠ 11 by decide), Function.update_self,
    BitVec.and_or_distrib_right, BitVec.and_assoc]
  have hnone : rate &&& 0x70#8 = 0#8 := hrate
  simp [hnone]

theorem rateOf_frequency {freq : Word} {rate : BitVec 8} (h : rateOf freq = some rate) :
    Cmos.rateFrequency (rate &&& 0x0F) = freq.toNat := by
  unfold rateOf at h
  split_ifs at h with h2 h4 h8 h16 h32 h64 h128 h256 h512 h1024 <;> cases h <;> subst
    freq <;> decide

theorem rateOf_divider {freq : Word} {rate : BitVec 8} (h : rateOf freq = some rate) :
    rate &&& 0x70 = 0 := by
  unfold rateOf at h
  split_ifs at h with h2 h4 h8 h16 h32 h64 h128 h256 h512 h1024 <;> cases h <;> decide

theorem programClock_frequency {rate : BitVec 8} (hrate : rate &&& 0x70 = 0) (bus : Nat → BitVec 8)
    {c : Cmos} (hc : c.divider = 0x20) :
    (programClock rate bus c).frequency = some (Cmos.rateFrequency (rate &&& 0x0F)) := by
  rw [Cmos.frequency, programClock_rate, programClock_divider hrate, if_pos hc]

/-- The low seven bits of A are not those that change while the clock runs. -/
theorem advance_low (date : Nat → BitVec 8) (updating : Bool) (flags : BitVec 8) (c : Cmos)
    {mask : BitVec 8} (hmask : 0x80 &&& mask = 0) (hlow : 0x7F &&& mask = mask) :
    (c.advance date updating flags).reg 10 &&& mask = c.reg 10 &&& mask := by
  change ((if updating then 0x80 else 0) ||| (c.reg 10 &&& 0x7F)) &&& mask = _
  rw [BitVec.and_or_distrib_right, BitVec.and_assoc, hlow]
  cases updating with
  | false => simp
  | true => exact (congrArg (· ||| (c.reg 10 &&& mask)) hmask).trans BitVec.zero_or

theorem advance_frequency (date : Nat → BitVec 8) (updating : Bool) (flags : BitVec 8) (c : Cmos) :
    (c.advance date updating flags).frequency = c.frequency := by
  rw [Cmos.frequency, Cmos.frequency, Cmos.divider, Cmos.divider,
    advance_low date updating flags c (by decide) (by decide),
    advance_low date updating flags c (by decide) (by decide)]

/-! ## The run -/

namespace ClockMachine
variable {c d : Cmos} {m : ClockMachine}

/-- Whatever the clock does, it is heard if it was heard before. -/
theorem follow_heard (h : m.cmos.asks = true → m.pending = true ∨ m.handling = true) (d : Cmos)
    (hasks : d.asks = true) : (m.follow d).pending = true ∨ (m.follow d).handling = true := by
  cases hbefore : m.cmos.asks with
  | true => exact (h hbefore).imp (fun hp => by simp [follow, hp]) id
  | false => exact .inl (by simp [follow, hbefore, hasks])

theorem Sound.follow (h : m.Sound c) (hdivider : d.divider = m.cmos.divider)
    (hcontrol : d.reg 11 = (c.reg 11 &&& 0xF0) ||| 0x40)
    (hmemory : ∀ i, 12 < i → d.reg i = m.cmos.reg i) :
    (m.follow d).Sound c where
  divider := hdivider.trans h.divider
  control := hcontrol
  memory i hi := (hmemory i hi).trans (h.memory i hi)
  heard := follow_heard h.heard d

/-- What programming the clock leaves as it is, and that it enables the periodic interrupt. -/
theorem programClock_kept (rate : BitVec 8) (bus : Nat → BitVec 8) :
    (programClock rate bus c).reg 11 = (c.reg 11 &&& 0xF0) ||| 0x40 ∧
      ∀ i, 12 < i → (programClock rate bus c).reg i = c.reg i := by
  rw [programClock_eq]
  refine ⟨by simp only [Function.update_self], fun i hi => ?_⟩
  simp only
  rw [Function.update_of_ne (by omega), Function.update_of_ne (by omega)]

/-- The clock as it was found, with another rate. -/
theorem Sound.programClock (h : m.Sound c) {rate : BitVec 8} (hrate : rate &&& 0x70 = 0)
    (bus : Nat → BitVec 8) :
    (m.follow (programClock rate bus m.cmos)).Sound c := by
  obtain ⟨hcontrol, hmemory⟩ := programClock_kept (c := m.cmos) rate bus
  refine h.follow (programClock_divider hrate bus m.cmos) ?_ hmemory
  rw [hcontrol, h.control, BitVec.and_or_distrib_right, BitVec.and_assoc]
  simp [BitVec.or_assoc]

/-- One step. -/
theorem Sound.step (h : m.Sound c) (hc : c.divider = 0x20) {f : Nat}
    (hf : m.cmos.frequency = some f) (e : ClockEvent) :
    ∃ m', m.step e = some m' ∧ m'.Sound c ∧ m'.cmos.frequency = some (e.asked f) := by
  cases e with
  | advance date updating flags =>
    refine ⟨_, rfl, h.follow (advance_low date updating flags m.cmos (by decide) (by decide))
      h.control fun i hi => ?_, (advance_frequency date updating flags m.cmos).trans hf⟩
    simp only [Cmos.advance]
    rw [if_neg (by omega), if_neg (by omega), if_neg (by omega)]
  | write mem myBuf bus =>
    refine ⟨_, rfl, ?_⟩
    simp only [fncRtcWrite, rtcWrite, ClockEvent.asked]
    cases hrate : rateOf (readWord mem myBuf) with
    | none => exact ⟨h.follow rfl h.control fun _ _ => rfl, hf⟩
    | some rate =>
      refine ⟨h.programClock (rateOf_divider hrate) bus, ?_⟩
      apply (programClock_frequency (rateOf_divider hrate) bus (h.divider.trans hc)).trans
      rw [rateOf_frequency hrate]
      rfl
  | accept =>
    refine ⟨_, rfl, ?_⟩
    split
    · exact ⟨⟨h.divider, h.control, h.memory, fun _ => .inr rfl⟩, hf⟩
    · exact ⟨h, hf⟩
  | status bus =>
    refine ⟨_, rfl, ?_⟩
    split
    · refine ⟨⟨?_, ?_, ?_, ?_⟩, ?_⟩
      · simpa [ClockMachine.follow, readStatus_eq, Cmos.divider] using h.divider
      · simpa [ClockMachine.follow, readStatus_eq] using h.control
      · intro i hi
        simpa [ClockMachine.follow, readStatus_eq, Function.update_of_ne (show i ≠ 12 by omega)]
          using h.memory i hi
      · intro hasks
        simp [ClockMachine.follow, readStatus_eq, Cmos.asks] at hasks
      · have hsame : (readStatus bus m.cmos).frequency = m.cmos.frequency := by
          rw [readStatus_eq]
          rfl
        exact hsame.trans hf
    · exact ⟨h, hf⟩

theorem Sound.hearsPeriods (h : m.Sound c) : m.HearsPeriods := by
  intro date updating flags hflag
  refine ⟨_, rfl, follow_heard h.heard _ ?_⟩
  have henabled : (m.cmos.reg 11).getLsbD 6 = true := by
    rw [h.control]
    simp
  have hbit : ((m.cmos.advance date updating flags).reg 11 &&&
      (m.cmos.advance date updating flags).reg 12 &&& 0x70).getLsbD 6 = true := by
    simp [Cmos.advance, henabled, hflag]
  unfold Cmos.asks
  rw [bne_iff_ne]
  intro hzero
  rw [hzero] at hbit
  exact absurd hbit (by decide)

end ClockMachine

/-- Whatever rate and interrupts the clock was programmed for before, if its divider is the one for
its oscillator, which the kernel never sets, and if it was not waiting for a read of register C. -/
theorem clock_runs_at_the_frequency_asked_for (bus : Nat → BitVec 8) {c : Cmos}
    (hdivider : c.divider = 0x20) (hasks : c.asks = false) (es : List ClockEvent) :
    ∃ m, runFrom ClockMachine.step (.start bus c) es = some m ∧
      m.cmos.frequency = some (es.foldl ClockEvent.asked 64) ∧ m.Sound c ∧ m.HearsPeriods := by
  have hstart : (ClockMachine.start bus c).Sound c := by
    obtain ⟨hcontrol, hmemory⟩ := ClockMachine.programClock_kept (c := c) 10 bus
    exact ⟨programClock_divider (by decide) bus c, hcontrol, hmemory,
      ClockMachine.follow_heard (fun h => absurd (hasks.symm.trans h) (by decide)) _⟩
  have hfirst : (ClockMachine.start bus c).cmos.frequency = some 64 :=
    programClock_frequency (by decide) bus hdivider
  have hstep : ∀ (m : ClockMachine) (f : Nat) (e : ClockEvent),
      (m.Sound c ∧ m.cmos.frequency = some f) →
      ∃ m', m.step e = some m' ∧ m'.Sound c ∧ m'.cmos.frequency = some (ClockEvent.asked f e) := by
    rintro m f e ⟨hsound, hf⟩
    exact hsound.step hdivider hf e
  obtain ⟨m, hm, hsound, hfreq⟩ := runFrom_simulates hstep es ⟨hstart, hfirst⟩
  exact ⟨m, hm, hfreq, hsound, hsound.hearsPeriods⟩

/-- A clock that was left with the divider of a PC and without interrupts. -/
def idleClock : Cmos := ⟨0, fun i => if i = 10 then 0x26 else 0⟩

/-- A process asks for 32 Hz, and another one for a frequency that is not on the list. -/
def askForThirtyTwo : List ClockEvent :=
  [.write (fun a => if a = 0 then 32 else 0) 0 fun _ => 0xFF, .advance (fun _ => 0) false 0x40,
    .accept, .status fun _ => 0xFF, .write (fun a => if a = 0 then 33 else 0) 0 fun _ => 0xFF]

theorem clock_runs_at_the_frequency_asked_for_thirty_two : ∃ m,
    runFrom ClockMachine.step (.start (fun _ => 0xFF) idleClock) askForThirtyTwo = some m ∧
      m.cmos.frequency = some 32 ∧ m.Sound idleClock ∧ m.HearsPeriods := by
  obtain ⟨m, hm, hfreq, hrest⟩ := clock_runs_at_the_frequency_asked_for (fun _ => 0xFF)
    (c := idleClock) (by decide) (by decide) askForThirtyTwo
  have hlast : askForThirtyTwo.foldl ClockEvent.asked 64 = 32 := by decide
  rw [hlast] at hfreq
  exact ⟨m, hm, hfreq, hrest⟩

end OreOS
