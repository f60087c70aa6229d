import Mathlib.Algebra.GroupWithZero.Nat
import Mathlib.Logic.Function.Basic

/-!
# The real-time clock of a PC

An MC146818: 128 registers behind an index port and a data port. Registers 0 to 9 hold the date and
the alarm, A to D (10 to 13) control the clock, and the rest is memory. The clock sets flags in C,
also those whose interrupts are not enabled in B, and asks for an interrupt when a flag and its
enable bit come together; a read of C clears the flags. Until then it does not ask again.
-/

namespace OreOS.Machine

/-- The byte last sent to the index port and the registers. -/
structure Cmos where
  index : BitVec 8
  reg : Nat → BitVec 8

namespace Cmos

/-- The register at the data port. Bit 7 of the index is not part of its number. -/
def selected (c : Cmos) : Nat := (c.index &&& 0x7F).toNat

/-- A byte at the data port. C, D and bit 7 of A cannot be written. -/
def store (d : BitVec 8) (c : Cmos) : Cmos :=
  if c.selected = 12 ∨ c.selected = 13 then c
  else if c.selected = 10 then
    { c with reg := Function.update c.reg 10 ((c.reg 10 &&& 0x80) ||| (d &&& 0x7F)) }
  else { c with reg := Function.update c.reg c.selected d }

/-- A byte at a port. Other ports belong to other devices. -/
def outb (d : BitVec 8) (port : Nat) (c : Cmos) : Cmos :=
  if port = 0x70 then { c with index := d } else if port = 0x71 then c.store d else c

/-- A read of a port. `bus` is what ports give that are not the clock's or cannot be read. -/
def inb (bus : Nat → BitVec 8) (port : Nat) (c : Cmos) : BitVec 8 × Cmos :=
  if port = 0x71 then
    (c.reg c.selected, if c.selected = 12 then { c with reg := Function.update c.reg 12 0 } else c)
  else (bus port, c)

section
variable (c : Cmos) (d : BitVec 8) (bus : Nat → BitVec 8)

theorem outb_index : c.outb d 0x70 = { c with index := d } := if_pos rfl

theorem inb_other {port : Nat} (h : port ≠ 0x71) : c.inb bus port = (bus port, c) := if_neg h

theorem outb_data : c.outb d 0x71 = c.store d := by
  rw [outb, if_neg (by decide), if_pos rfl]

theorem inb_data {k : Nat} (h : c.selected = k) (hk : k ≠ 12) : c.inb bus 0x71 = (c.reg k, c) := by
  rw [inb, if_pos rfl, h, if_neg hk]

theorem inb_status (h : c.selected = 12) :
    c.inb bus 0x71 = (c.reg 12, { c with reg := Function.update c.reg 12 0 }) := by
  rw [inb, if_pos rfl, h, if_pos rfl]

theorem store_a (h : c.selected = 10) :
    c.store d = { c with reg := Function.update c.reg 10 ((c.reg 10 &&& 0x80) ||| (d &&& 0x7F)) } :=
    by
  rw [store, h, if_neg (by decide), if_pos rfl]

theorem store_b (h : c.selected = 11) :
    c.store d = { c with reg := Function.update c.reg 11 d } := by
  rw [store, h, if_neg (by decide), if_neg (by decide)]

end

/-- The clock runs on: the date changes, an update begins or ends, and flags are set. -/
def advance (date : Nat → BitVec 8) (updating : Bool) (flags : BitVec 8) (c : Cmos) : Cmos :=
  { c with
    reg := fun i =>
      if i < 10 then date i
      else if i = 10 then (if updating then 0x80 else 0) ||| (c.reg 10 &&& 0x7F)
      else if i = 12 then c.reg 12 ||| (flags &&& 0x70)
      else c.reg i }

/-- Whether the clock asks for an interrupt. -/
def asks (c : Cmos) : Bool := c.reg 11 &&& c.reg 12 &&& 0x70 != 0

/-- The divider in A, by which the clock makes its seconds out of the oscillator. -/
def divider (c : Cmos) : BitVec 8 := c.reg 10 &&& 0x70

/-- Periodic interrupts for a second at a rate. Rate 0 is no interrupt, and rates 1 and 2 are
those of 8 and 9. -/
def rateFrequency (rate : BitVec 8) : Nat :=
  if rate = 0 then 0
  else if rate = 1 then 256
  else if rate = 2 then 128
  else 2 ^ 15 / 2 ^ (rate.toNat - 1)

/-- Periodic interrupts for a second. The oscillator of a PC has 32768 Hz, for which the divider is
2: others are for other oscillators or stop the clock. -/
def frequency (c : Cmos) : Option Nat :=
  if c.divider = 0x20 then some (rateFrequency (c.reg 10 &&& 0x0F)) else none

/-- Whether periodic interrupts are enabled. -/
def periodic (c : Cmos) : Bool := (c.reg 11).getLsbD 6

end Cmos

end OreOS.Machine
