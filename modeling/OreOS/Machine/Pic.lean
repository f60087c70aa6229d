import Mathlib.Logic.Function.Basic

/-!
# The interrupt controllers of a PC

Two 8259A controllers, the slave behind line 2 of the master. A controller is programmed with the
words ICW1 to ICW4, the first at its command port and the others at its data port, and from then on
the data port sets the mask. A device that asks for an interrupt sets a bit of the request register.
The processor acknowledges the request of highest priority, which moves to the in-service register
and keeps its own line and those below it closed until the processor sends an end of interrupt.

Lines are numbered from 0 to 15, those of the slave from 8 on. Inputs are edge-triggered; rotation
of priorities, polling and the end of interrupt that names no line are left out.
-/

namespace OreOS.Machine

/-- What the next byte at the data port is taken for. -/
inductive PicPhase where
  | ready
  | icw2
  | icw3
  | icw4
  deriving DecidableEq, Repr

/-- What the processor sets. -/
structure PicProgram where
  phase : PicPhase
  /-- Bits 1 and 0 of ICW1: no other controller, and whether ICW4 is sent. -/
  single : Bool
  needsIcw4 : Bool
  /-- The vector of line 0. -/
  base : BitVec 8
  cascade : BitVec 8
  mode : BitVec 8
  imr : BitVec 8
  deriving DecidableEq, Repr

/-- A controller: its program, the lines that are requested and those in service. -/
structure Pic extends PicProgram where
  irr : Nat → Bool
  isr : Nat → Bool

namespace Pic

/-- An end of interrupt that names a line. -/
def endOf (k : Nat) (p : Pic) : Pic := { p with isr := Function.update p.isr k false }

/-- A byte at the command port. -/
def command (d : BitVec 8) (p : Pic) : Option Pic :=
  if d.getLsbD 4 then
    some { p with
      phase := .icw2
      single := d.getLsbD 1
      needsIcw4 := d.getLsbD 0
      imr := 0
      irr := fun _ => false
      isr := fun _ => false }
  else if d >>> 3 = 12 then some (p.endOf (d &&& 7).toNat)
  else none

theorem command_eoi (p : Pic) {k : Nat} (hk : k < 8) :
    p.command (0x60#8 ||| BitVec.ofNat 8 k) = some (p.endOf k) := by
  have hbyte : ∀ k < 8, (0x60#8 ||| BitVec.ofNat 8 k).getLsbD 4 = false ∧
      (0x60#8 ||| BitVec.ofNat 8 k) >>> 3 = 12 ∧
      ((0x60#8 ||| BitVec.ofNat 8 k) &&& 7).toNat = k := by
    decide
  obtain ⟨hicw, heoi, hline⟩ := hbyte k hk
  rw [command, hicw, if_neg (by decide), if_pos heoi, hline]

/-- The phase after the words that both kinds of controllers are sent. -/
def lastPhase (p : Pic) : PicPhase := if p.needsIcw4 then .icw4 else .ready

/-- A byte at the data port. -/
def data (d : BitVec 8) (p : Pic) : Pic :=
  match p.phase with
  | .ready => { p with imr := d }
  | .icw2 => { p with base := d &&& 0xF8, phase := if p.single then p.lastPhase else .icw3 }
  | .icw3 => { p with cascade := d, phase := p.lastPhase }
  | .icw4 => { p with mode := d, phase := .ready }

/-- The first requested line that is not masked, unless it or a line before it is in service. -/
def request (p : Pic) : Option Nat :=
  match (List.range 8).find? fun k => p.irr k && !p.imr.getLsbD k with
  | none => none
  | some k => if (List.range (k + 1)).any p.isr then none else some k

/-- The request of line `k` is acknowledged. With bit 1 of ICW4 set, it ends there. -/
def acknowledge (k : Nat) (p : Pic) : Pic :=
  { p with
    irr := Function.update p.irr k false
    isr := Function.update p.isr k (!p.mode.getLsbD 1) }

variable {p : Pic} {k : Nat}

theorem acknowledge_irr (i : Nat) : (p.acknowledge k).irr i = (p.irr i && !decide (i = k)) := by
  simp only [acknowledge, Function.update_apply]
  by_cases h : i = k <;> simp [h]

theorem acknowledge_isr (hmode : p.mode.getLsbD 1 = false) (i : Nat) :
    (p.acknowledge k).isr i = (p.isr i || decide (i = k)) := by
  simp only [acknowledge, hmode, Bool.not_false, Function.update_apply]
  by_cases h : i = k <;> simp [h]

theorem request_spec (h : p.request = some k) :
    k < 8 ∧ p.irr k = true ∧ p.imr.getLsbD k = false ∧ ∀ j ≤ k, p.isr j = false := by
  unfold request at h
  split at h
  · cases h
  next j hj =>
    split at h
    · cases h
    next hfree =>
      cases h
      have hmem := List.mem_of_find?_eq_some hj
      have hbits := List.find?_some hj
      rw [Bool.and_eq_true, Bool.not_eq_true'] at hbits
      refine ⟨List.mem_range.mp hmem, hbits.1, hbits.2, ?_⟩
      intro i hi
      rw [Bool.not_eq_true, List.any_eq_false] at hfree
      simpa using hfree i (List.mem_range.mpr (Nat.lt_succ_of_le hi))

/-- With nothing in service, an open line that is requested makes the controller ask. -/
theorem request_isSome (hidle : ∀ j < 8, p.isr j = false) (hk : k < 8) (hirr : p.irr k = true)
    (himr : p.imr.getLsbD k = false) : p.request.isSome = true := by
  have hfound : ((List.range 8).find? fun k => p.irr k && !p.imr.getLsbD k).isSome = true := by
    rw [List.find?_isSome]
    exact ⟨k, List.mem_range.mpr hk, by simp [hirr, himr]⟩
  obtain ⟨j, hj⟩ := Option.isSome_iff_exists.mp hfound
  have hlt := List.mem_range.mp (List.mem_of_find?_eq_some hj)
  have hfree : (List.range (j + 1)).any p.isr = false := by
    rw [List.any_eq_false]
    intro i hi
    rw [hidle i (by have := List.mem_range.mp hi; omega)]
    exact Bool.false_ne_true
  simp [request, hj, hfree]

end Pic

/-- The master and, behind its line 2, the slave. -/
structure PicPair where
  master : Pic
  slave : Pic

namespace PicPair

/-- A byte at a port. Other ports belong to other devices. -/
def outb (d : BitVec 8) (port : Nat) (P : PicPair) : Option PicPair :=
  if port = 0x20 then (P.master.command d).map fun p => { P with master := p }
  else if port = 0x21 then some { P with master := P.master.data d }
  else if port = 0xA0 then (P.slave.command d).map fun p => { P with slave := p }
  else if port = 0xA1 then some { P with slave := P.slave.data d }
  else some P

/-- Bytes at ports, one after the other. -/
def outs (P : PicPair) : List (Nat × BitVec 8) → Option PicPair
  | [] => some P
  | (port, d) :: rest => (P.outb d port).bind fun P => P.outs rest

/-- A device asks for an interrupt. -/
def raise (line : Nat) (P : PicPair) : PicPair :=
  if line < 8 then { P with master := { P.master with
    irr := Function.update P.master.irr line true } }
  else { P with slave := { P.slave with irr := Function.update P.slave.irr (line - 8) true } }

/-- The master with the slave's output at its line 2. -/
def wired (P : PicPair) : Pic :=
  { P.master with irr := Function.update P.master.irr 2 P.slave.request.isSome }

/-- The processor takes an interrupt: the vector it is given, and the controllers after that. -/
def acknowledge (P : PicPair) : Option (BitVec 8 × PicPair) :=
  match P.wired.request with
  | none => none
  | some k =>
      if k = 2 then
        match P.slave.request with
        | none => none
        | some j => some (P.slave.base + BitVec.ofNat 8 j,
            ⟨P.master.acknowledge 2, P.slave.acknowledge j⟩)
      else some (P.master.base + BitVec.ofNat 8 k, { P with master := P.master.acknowledge k })

/-- Whether the line is in service. -/
def inService (P : PicPair) (line : Nat) : Bool :=
  if line < 8 then P.master.isr line else P.slave.isr (line - 8)

/-- Whether the line is masked. -/
def masked (P : PicPair) (line : Nat) : Bool :=
  if line < 8 then P.master.imr.getLsbD line else P.slave.imr.getLsbD (line - 8)

/-- Whether a device has asked for an interrupt on the line that was not acknowledged yet. -/
def requested (P : PicPair) (line : Nat) : Bool :=
  if line < 8 then P.master.irr line else P.slave.irr (line - 8)

/-- The vector of a line. -/
def vector (P : PicPair) (line : Nat) : BitVec 8 :=
  if line < 8 then P.master.base + BitVec.ofNat 8 line else P.slave.base + BitVec.ofNat 8 (line - 8)

/-- Neither controller is in the mode in which an acknowledged request ends at once. -/
def NormalEoi (P : PicPair) : Prop :=
  P.master.mode.getLsbD 1 = false ∧ P.slave.mode.getLsbD 1 = false

/-- The same lines are masked. -/
def SameMasks (P Q : PicPair) : Prop := ∀ j < 16, Q.masked j = P.masked j

/-- The same lines are requested. -/
def SameRequests (P Q : PicPair) : Prop := ∀ j < 16, Q.requested j = P.requested j

/-- The same lines are in service. -/
def SameService (P Q : PicPair) : Prop := ∀ j, Q.inService j = P.inService j

/-- The same words were sent to both pairs. -/
def SameProgram (P Q : PicPair) : Prop :=
  P.master.toPicProgram = Q.master.toPicProgram ∧ P.slave.toPicProgram = Q.slave.toPicProgram

end PicPair

/-- The line of the master at which a line arrives. -/
def masterLine (line : Nat) : Nat := if line < 8 then line else 2

/-- The processor takes the interrupt of `line`, and the controllers go from `P` to `P'`. -/
structure PicPair.Takes (P : PicPair) (line : Nat) (P' : PicPair) : Prop where
  device : line < 16 ∧ line ≠ 2
  requested : P.requested line = true
  unmasked : P.masked line = false ∧ P.masked (masterLine line) = false
  /-- Nothing that comes before it is in service. -/
  prior : ∀ j, j ≤ masterLine line ∨ 8 ≤ j ∧ j ≤ line → P.inService j = false
  served : ∀ j, P'.inService j = (P.inService j || decide (j = line ∨ j = masterLine line))
  /-- The request is answered. -/
  answered : ∀ j < 16, P'.requested j = (P.requested j && !decide (j = line ∨ j = masterLine line))
  program : P'.SameProgram P

namespace PicPair

variable {P P' : PicPair} {v : BitVec 8} {line : Nat}

theorem acknowledge_takes (hmode : P.NormalEoi) (h : P.acknowledge = some (v, P')) :
    ∃ line, v = P.vector line ∧ P.Takes line P' := by
  obtain ⟨hmaster, hslave⟩ := hmode
  unfold acknowledge at h
  split at h
  · cases h
  next k hk =>
    obtain ⟨hk8, hirr, himr, hfree⟩ := Pic.request_spec hk
    by_cases h2 : k = 2
    · subst h2
      rw [if_pos rfl] at h
      split at h
      · cases h
      next j hj =>
        cases h
        obtain ⟨hj8, hirr', himr', hfree'⟩ := Pic.request_spec hj
        have hline : ¬j + 8 < 8 := by omega
        have hentry : masterLine (j + 8) = 2 := if_neg hline
        refine ⟨j + 8, ?_, ⟨by omega, by omega⟩, ?_, ?_, ?_, ?_, ?_, rfl, rfl⟩
        · rw [vector, if_neg hline, Nat.add_sub_cancel]
        · rwa [PicPair.requested, if_neg hline, Nat.add_sub_cancel]
        · rw [hentry, masked, if_neg hline, Nat.add_sub_cancel]
          exact ⟨himr', himr⟩
        · rw [hentry]
          rintro i (hi | ⟨hi8, hij⟩)
          · rw [inService, if_pos (by omega)]
            exact hfree i hi
          · rw [inService, if_neg (by omega)]
            exact hfree' (i - 8) (by omega)
        · intro i
          rw [hentry]
          by_cases hi : i < 8
          · have hne : i ≠ j + 8 := by omega
            simp [inService, hi, Pic.acknowledge_isr hmaster, hne]
          · have hsame : i - 8 = j ↔ i = j + 8 ∨ i = 2 := by omega
            simp [inService, hi, Pic.acknowledge_isr hslave, hsame]
        · intro i _
          rw [hentry]
          by_cases hi : i < 8
          · have hne : i ≠ j + 8 := by omega
            simp [PicPair.requested, hi, Pic.acknowledge_irr, hne]
          · have hsame : i - 8 = j ↔ i = j + 8 ∨ i = 2 := by omega
            simp [PicPair.requested, hi, Pic.acknowledge_irr, hsame]
    · rw [if_neg h2] at h
      cases h
      have hentry : masterLine k = k := if_pos hk8
      refine ⟨k, ?_, ⟨by omega, h2⟩, ?_, ?_, ?_, ?_, ?_, rfl, rfl⟩
      · rw [vector, if_pos hk8]
      · rw [PicPair.requested, if_pos hk8]
        simpa [wired, Function.update_of_ne h2] using hirr
      · rw [hentry, masked, if_pos hk8]
        exact ⟨himr, himr⟩
      · rw [hentry]
        intro i hi
        rw [inService, if_pos (by omega)]
        exact hfree i (by omega)
      · intro i
        rw [hentry]
        by_cases hi : i < 8
        · simp [inService, hi, Pic.acknowledge_isr hmaster]
        · have hne : i ≠ k := by omega
          simp [inService, hi, hne]
      · intro i _
        rw [hentry]
        by_cases hi : i < 8
        · simp [PicPair.requested, hi, Pic.acknowledge_irr]
        · have hne : i ≠ k := by omega
          simp [PicPair.requested, hi, hne]

/-- With nothing in service, an interrupt is taken as soon as an open line asks for one. -/
theorem acknowledge_isSome (hidle : ∀ j < 16, P.inService j = false) (hline : line < 16)
    (h2 : line ≠ 2) (hrequested : P.requested line = true) (hopen : P.masked line = false)
    (hopen' : P.masked (masterLine line) = false) : P.acknowledge.isSome = true := by
  have hmaster : ∀ j < 8, P.wired.isr j = false := by
    intro j hj
    have := hidle j (by omega)
    rwa [inService, if_pos hj] at this
  have hask : P.wired.request.isSome = true := by
    by_cases h8 : line < 8
    · rw [PicPair.requested, if_pos h8] at hrequested
      rw [masked, if_pos h8] at hopen
      exact Pic.request_isSome hmaster h8 ((Function.update_of_ne h2 _ _).trans hrequested) hopen
    · rw [PicPair.requested, if_neg h8] at hrequested
      rw [masked, if_neg h8] at hopen
      rw [masterLine, if_neg h8, masked, if_pos (by decide)] at hopen'
      have hslave : P.slave.request.isSome = true := by
        refine Pic.request_isSome (fun j hj => ?_) (by omega) hrequested hopen
        have := hidle (j + 8) (by omega)
        rwa [inService, if_neg (by omega), Nat.add_sub_cancel] at this
      exact Pic.request_isSome hmaster (by decide) ((Function.update_self _ _ _).trans hslave)
        hopen'
  obtain ⟨k, hk⟩ := Option.isSome_iff_exists.mp hask
  by_cases hk2 : k = 2
  · subst hk2
    -- line 2 asks because the slave does
    have hasks : P.slave.request.isSome = true := by
      simpa [wired] using (Pic.request_spec hk).2.1
    obtain ⟨j, hj⟩ := Option.isSome_iff_exists.mp hasks
    simp [acknowledge, hk, hj]
  · simp [acknowledge, hk, hk2]

end PicPair

end OreOS.Machine
