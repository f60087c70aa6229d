import OreOS.I8259.Proofs.Masks
import OreOS.Machine.Pic

/-!
# The driver and the controllers

The functions of `i8259.c` together with the two controllers that they program. Whatever state the
controllers are in before, `i8259_init` takes them through ICW1 to ICW4 and gives line `n` the
vector `32 + n`. The calls after it never leave the programmed state, keep the masks of the
controllers equal to the two variables, and an end of interrupt reaches the lines it is meant for.
-/

namespace OreOS
open Machine

/-- What happens to the driver and its controllers. -/
inductive IrqEvent where
  | enable (line : Fin 16)
  | disable (line : Fin 16)
  | eoi (line : Fin 16)
  /-- A device asks for an interrupt. -/
  | raise (line : Fin 16)
  /-- The processor takes an interrupt, if there is one. -/
  | accept
  deriving DecidableEq, Repr

namespace IrqMachine

/-- One event. An interrupt that nobody asked for is none. -/
def step (m : IrqMachine) : IrqEvent → Option IrqMachine
  | .enable line => m.call (I8259.enableIrq line)
  | .disable line => m.call (I8259.disableIrq line)
  | .eoi line => m.call (I8259.sendEoi line)
  | .raise line => some { m with hard := m.hard.raise line }
  | .accept =>
      match m.hard.acknowledge with
      | none => some m
      | some (_, hard) => some { m with hard }

/-- The words the controllers were sent, and the masks of the driver. -/
structure Programmed (m : IrqMachine) : Prop where
  master : m.hard.master.toPicProgram = ⟨.ready, false, true, 0x20, 0x04, 0x01, m.soft.masterMask⟩
  slave : m.hard.slave.toPicProgram = ⟨.ready, false, true, 0x28, 0x02, 0x01, m.soft.slaveMask⟩

/-- What `disable_irq` does to the mask of line `j`. For a line of the slave it opens the others. -/
def maskOnDisable (P : PicPair) (line j : Fin 16) : Bool :=
  if line.val < 8 then P.masked j || decide (j = line)
  else if j.val < 8 then P.masked j
  else P.masked j && decide (j = line)

/-- What a step does to the masks, the requests and the lines in service. -/
def Serves (m : IrqMachine) (e : IrqEvent) (m' : IrqMachine) : Prop :=
  match e with
  | .enable line =>
      (∀ j : Fin 16, m'.hard.masked j = (m.hard.masked j && !decide (j = line))) ∧
        m.hard.SameRequests m'.hard ∧ m.hard.SameService m'.hard
  | .disable line =>
      (∀ j : Fin 16, m'.hard.masked j = maskOnDisable m.hard line j) ∧
        m.hard.SameRequests m'.hard ∧ m.hard.SameService m'.hard
  | .eoi line =>
      m.hard.SameMasks m'.hard ∧ m.hard.SameRequests m'.hard ∧
        ∀ j < 16, m'.hard.inService j =
        (m.hard.inService j && !decide (j = line ∨ j = masterLine line))
  | .raise line =>
      m.hard.SameMasks m'.hard ∧
        (∀ j < 16, m'.hard.requested j = (m.hard.requested j || decide (j = line.val))) ∧
        m.hard.SameService m'.hard
  | .accept =>
      (m.hard.acknowledge = none ∧ m' = m) ∨
        ∃ line, m.hard.acknowledge = some (BitVec.ofNat 8 (32 + line), m'.hard) ∧
          m.hard.Takes line m'.hard

end IrqMachine

open IrqMachine

theorem IrqMachine.call_soft {m m' : IrqMachine} {f : I8259 → I8259} (h : m.call f = some m') :
    m'.soft = f m.soft := by
  obtain ⟨hard, -, rfl⟩ := Option.map_eq_some_iff.mp h
  rfl

/-- `i8259_init` on controllers in any state. -/
theorem i8259Init_programmed (m : IrqMachine) :
    ∃ m', m.call I8259.i8259Init = some m' ∧ m'.Programmed ∧ ∀ line,
    m'.hard.inService line = false := by
  refine ⟨_, rfl, ⟨rfl, rfl⟩, ?_⟩
  intro line
  unfold PicPair.inService
  split <;> rfl

namespace IrqMachine.Programmed

variable {m : IrqMachine} (h : m.Programmed)
include h

theorem masterPhase : m.hard.master.phase = .ready := congrArg PicProgram.phase h.master

theorem slavePhase : m.hard.slave.phase = .ready := congrArg PicProgram.phase h.slave

theorem normalEoi : m.hard.NormalEoi := by
  have hmaster : m.hard.master.mode = 1 := congrArg PicProgram.mode h.master
  have hslave : m.hard.slave.mode = 1 := congrArg PicProgram.mode h.slave
  rw [PicPair.NormalEoi, hmaster, hslave]
  decide

/-- The vector of line `n` is `32 + n`. -/
theorem vector_eq (line : Nat) : m.hard.vector line = BitVec.ofNat 8 (32 + line) := by
  unfold PicPair.vector
  rw [congrArg PicProgram.base h.master, congrArg PicProgram.base h.slave]
  split
  · exact (BitVec.ofNat_add ..).symm
  · rw [show 32 + line = 0x28 + (line - 8) by omega]
    exact (BitVec.ofNat_add ..).symm

/-- The masks are those of the driver. -/
theorem masked_eq (line : Fin 16) : m.hard.masked line = m.soft.masked line := by
  unfold PicPair.masked I8259.masked
  rw [congrArg PicProgram.imr h.master, congrArg PicProgram.imr h.slave]
  split
  · rw [Nat.mod_eq_of_lt ‹_›]
  · rw [show line.val % 8 = line.val - 8 by omega]

/-- A byte at one of the data ports is the new mask. -/
theorem data_master (d : BitVec 8) : m.hard.outs [(0x21, d)] =
    some { m.hard with master := { m.hard.master with imr := d } } := by
  simp [PicPair.outs, PicPair.outb, Pic.data, h.masterPhase]

theorem data_slave (d : BitVec 8) : m.hard.outs [(0xA1, d)] =
    some { m.hard with slave := { m.hard.slave with imr := d } } := by
  simp [PicPair.outs, PicPair.outb, Pic.data, h.slavePhase]

/-- A call that changes a mask and sends it. -/
theorem sends_mask {f : I8259 → I8259}
    (hf : (m.soft.bytesSent f = [(0x21, (f m.soft).masterMask)] ∧
      (f m.soft).slaveMask = m.soft.slaveMask) ∨
      m.soft.bytesSent f = [(0xA1, (f m.soft).slaveMask)] ∧
      (f m.soft).masterMask = m.soft.masterMask) :
    ∃ m', m.call f = some m' ∧ m.hard.SameRequests m'.hard ∧ m.hard.SameService m'.hard ∧
      m'.Programmed := by
  rcases hf with ⟨hbytes, hother⟩ | ⟨hbytes, hother⟩
  · rw [call, hbytes, h.data_master]
    refine ⟨_, rfl, fun _ _ => rfl, fun _ => rfl, ?_, ?_⟩
    · simp [h.master]
    · simp [h.slave, hother]
  · rw [call, hbytes, h.data_slave]
    refine ⟨_, rfl, fun _ _ => rfl, fun _ => rfl, ?_, ?_⟩
    · simp [h.master, hother]
    · simp [h.slave]

theorem enableIrq (line : Fin 16) : ∃ m', m.call (I8259.enableIrq line) = some m' ∧
    Serves m (.enable line) m' ∧ m'.Programmed := by
  obtain ⟨m', hm', hrequests, hservice, hp⟩ := h.sends_mask (f := I8259.enableIrq line) (by
    unfold I8259.bytesSent I8259.enableIrq
    split
    · exact .inl ⟨rfl, rfl⟩
    · exact .inr ⟨rfl, rfl⟩)
  refine ⟨m', hm', ⟨?_, hrequests, hservice⟩, hp⟩
  intro j
  rw [hp.masked_eq, call_soft hm', I8259.enableIrq_masked, h.masked_eq]

theorem disableIrq (line : Fin 16) : ∃ m', m.call (I8259.disableIrq line) = some m' ∧
    Serves m (.disable line) m' ∧ m'.Programmed := by
  obtain ⟨m', hm', hrequests, hservice, hp⟩ := h.sends_mask (f := I8259.disableIrq line) (by
    unfold I8259.bytesSent I8259.disableIrq
    split
    · exact .inl ⟨rfl, rfl⟩
    · exact .inr ⟨rfl, rfl⟩)
  refine ⟨m', hm', ⟨?_, hrequests, hservice⟩, hp⟩
  intro j
  rw [hp.masked_eq, call_soft hm', maskOnDisable, h.masked_eq]
  by_cases hline : line.val < 8
  · rw [if_pos hline, I8259.disableIrq_masked_of_master _ hline]
  · rw [if_neg hline, I8259.disableIrq_masked_of_slave _ hline]

/-- An end of interrupt for a line of the slave goes to both controllers. -/
theorem sendEoi (line : Fin 16) : ∃ m', m.call (I8259.sendEoi line) = some m' ∧
    Serves m (.eoi line) m' ∧ m'.Programmed := by
  obtain ⟨line, hline⟩ := line
  by_cases h8 : line < 8
  · have hbytes : m.soft.bytesSent (I8259.sendEoi line) =
        [(0x20, 0x60#8 ||| BitVec.ofNat 8 line)] := by
      rw [I8259.bytesSent, I8259.sendEoi, if_pos h8]
      rfl
    have hsoft : I8259.sendEoi line m.soft = m.soft.outb (0x60#8 ||| BitVec.ofNat 8 line) 0x20 := by
      rw [I8259.sendEoi, if_pos h8]
      rfl
    rw [call, hbytes, PicPair.outs, PicPair.outb, if_pos rfl, Pic.command_eoi _ h8, hsoft]
    refine ⟨_, rfl, ⟨fun _ _ => rfl, fun _ _ => rfl, ?_⟩, h.master, h.slave⟩
    intro j _
    rw [masterLine, if_pos h8]
    by_cases hj : j < 8
    · by_cases hjl : j = line <;> simp [PicPair.inService, h8, hj, Pic.endOf, hjl]
    · have hne : j ≠ line := by omega
      simp [PicPair.inService, hj, hne]
  · have h8' : line - 8 < 8 := by omega
    have hbytes : m.soft.bytesSent (I8259.sendEoi line) =
        [(0xA0, 0x60#8 ||| BitVec.ofNat 8 (line - 8)), (0x20, 0x60#8 ||| BitVec.ofNat 8 2)] := by
      rw [I8259.bytesSent, I8259.sendEoi, if_neg h8, I8259.sendEoi, if_pos (by decide)]
      rfl
    have hsoft : I8259.sendEoi line m.soft =
        (m.soft.outb (0x60#8 ||| BitVec.ofNat 8 (line - 8)) 0xA0).outb
        (0x60#8 ||| BitVec.ofNat 8 2) 0x20 := by
      rw [I8259.sendEoi, if_neg h8, I8259.sendEoi, if_pos (by decide)]
      rfl
    have houts : m.hard.outs
        [(0xA0, 0x60#8 ||| BitVec.ofNat 8 (line - 8)), (0x20, 0x60#8 ||| BitVec.ofNat 8 2)] =
        some ⟨m.hard.master.endOf 2, m.hard.slave.endOf (line - 8)⟩ := by
      have hmaster := Pic.command_eoi m.hard.master (show 2 < 8 by decide)
      simp only [PicPair.outs, PicPair.outb, Pic.command_eoi _ h8', hmaster, Nat.reduceEqDiff,
        ↓reduceIte, Option.map_some, Option.bind_some]
    rw [call, hbytes, houts, hsoft]
    refine ⟨_, rfl, ⟨fun _ _ => rfl, fun _ _ => rfl, ?_⟩, h.master, h.slave⟩
    intro j _
    rw [masterLine, if_neg h8]
    by_cases hj : j < 8
    · have hne : j ≠ line := by omega
      by_cases h2 : j = 2 <;> simp [PicPair.inService, hj, Pic.endOf, hne, h2]
    · have hsame : j - 8 = line - 8 ↔ j = line ∨ j = 2 := by omega
      by_cases hjl : j = line ∨ j = 2 <;>
        simp [PicPair.inService, hj, Pic.endOf, Function.update_apply, hsame, hjl]

theorem raise (line : Nat) : m.hard.SameService (m.hard.raise line) ∧
    Programmed { m with hard := m.hard.raise line } := by
  unfold PicPair.raise
  split
  · exact ⟨fun _ => rfl, h.master, h.slave⟩
  · exact ⟨fun _ => rfl, h.master, h.slave⟩

end IrqMachine.Programmed

/-- A request of a device sets its bit. -/
theorem raise_serves (m : IrqMachine) (line : Fin 16) :
    Serves m (.raise line) { m with hard := m.hard.raise line } := by
  unfold PicPair.raise
  by_cases hline : line.val < 8
  · simp only [if_pos hline]
    refine ⟨fun _ _ => rfl, ?_, fun _ => rfl⟩
    intro j _
    by_cases hj : j < 8
    · by_cases hjl : j = line.val <;> simp [PicPair.requested, hj, hjl, hline]
    · have hne : j ≠ line.val := by omega
      simp [PicPair.requested, hj, hne]
  · simp only [if_neg hline]
    refine ⟨fun _ _ => rfl, ?_, fun _ => rfl⟩
    intro j _
    by_cases hj : j < 8
    · have hne : j ≠ line.val := by omega
      simp [PicPair.requested, hj, hne]
    · have hsame : j - 8 = line.val - 8 ↔ j = line.val := by omega
      by_cases hjl : j = line.val <;> simp [PicPair.requested, hj, hjl, hline, hsame]

/-- Every step keeps the controllers programmed. -/
theorem irqStep_serves {m : IrqMachine} (h : m.Programmed) (e : IrqEvent) :
    ∃ m', step m e = some m' ∧ Serves m e m' ∧ m'.Programmed := by
  cases e with
  | enable line => exact h.enableIrq line
  | disable line => exact h.disableIrq line
  | eoi line => exact h.sendEoi line
  | raise line => exact ⟨_, rfl, raise_serves m line, (h.raise line).2⟩
  | accept =>
    cases ha : m.hard.acknowledge with
    | none => exact ⟨m, by rw [step, ha], .inl ⟨ha, rfl⟩, h⟩
    | some r =>
      obtain ⟨v, hard⟩ := r
      obtain ⟨line, hv, htakes⟩ := PicPair.acknowledge_takes h.normalEoi ha
      obtain ⟨hmaster, hslave⟩ := htakes.program
      rw [h.vector_eq line] at hv
      exact ⟨{ m with hard }, by
        rw [step, ha], .inr ⟨line, hv ▸ ha, htakes⟩, hmaster.trans h.master, hslave.trans h.slave⟩

/-- From `i8259_init` on, in any order of calls, requests and interrupts. -/
theorem controllers_follow_the_driver (m : IrqMachine) (es : List IrqEvent) :
    ∃ m', m.call I8259.i8259Init = some m' ∧ Runs step (fun m e m' => Serves m e m' ∧ m'.Programmed)
    m' es := by
  obtain ⟨m', hinit, hprogrammed, -⟩ := i8259Init_programmed m
  have hstep : ∀ m : IrqMachine, ∀ e, m.Programmed →
      ∃ m', step m e = some m' ∧ (Serves m e m' ∧ m'.Programmed) ∧ m'.Programmed := by
    intro m e h
    obtain ⟨m', hm', hserves, hp⟩ := irqStep_serves h e
    exact ⟨m', hm', ⟨hserves, hp⟩, hp⟩
  exact ⟨m', hinit, runs_of_inv hstep es hprogrammed⟩

end OreOS
