import OreOS.Machine.Pic

/-!
# The interrupt controllers

Model of `i8259.c`. The two masks are the variables `master_mask` and `slave_mask`; the bytes that
`outb` sends are kept in order, the newest first, so that the value a port was last given can be
asked for.
-/

namespace OreOS
open Machine

/-- `MASTER_8259_PORT` and `SLAVE_8259_PORT` (`i8259.h:12-13`); the data ports are the next ones. -/
def master8259Port : Nat := 0x20

/-- The same for the slave. -/
def slave8259Port : Nat := 0xA0

/-- The two masks and the bytes sent so far, each with its port. -/
structure I8259 where
  masterMask : BitVec 8
  slaveMask : BitVec 8
  sent : List (Nat × BitVec 8)
  deriving DecidableEq, Repr

namespace I8259

/-- `outb(data, port)`. -/
def outb (data : BitVec 8) (port : Nat) (s : I8259) : I8259 :=
  { s with sent := (port, data) :: s.sent }

/-- The byte that the port was last given. -/
def lastSent (s : I8259) (port : Nat) : Option (BitVec 8) :=
  (s.sent.find? fun b => b.1 = port).map Prod.snd

/-- `i8259_init` (`i8259.c:19-41`). -/
def i8259Init (s : I8259) : I8259 :=
  -- the control words ICW1 to ICW4
  let s := (s.outb 0x11 master8259Port).outb 0x11 slave8259Port
  let s := (s.outb 0x20 (master8259Port + 1)).outb 0x28 (slave8259Port + 1)
  let s := (s.outb 0x04 (master8259Port + 1)).outb 0x02 (slave8259Port + 1)
  let s := (s.outb 0x01 (master8259Port + 1)).outb 0x01 (slave8259Port + 1)
  let s := { s with masterMask := 0xFF, slaveMask := 0xFF }
  (s.outb s.masterMask (master8259Port + 1)).outb s.slaveMask (slave8259Port + 1)

/-- `enable_irq` (`i8259.c:49-61`). -/
def enableIrq (irqNum : Nat) (s : I8259) : I8259 :=
  if irqNum ≤ 7 then
    let s := { s with masterMask := s.masterMask &&& ~~~(1#8 <<< (irqNum % 8)) }
    s.outb s.masterMask (master8259Port + 1)
  else
    let s := { s with slaveMask := s.slaveMask &&& ~~~(1#8 <<< (irqNum % 8)) }
    s.outb s.slaveMask (slave8259Port + 1)

/-- `disable_irq` (`i8259.c:69-85`). The slave's mask is combined with `&=`, the
    master's with `|=`. -/
def disableIrq (irqNum : Nat) (s : I8259) : I8259 :=
  if irqNum ≤ 7 then
    let s := { s with masterMask := s.masterMask ||| (1#8 <<< (irqNum % 8)) }
    s.outb s.masterMask (master8259Port + 1)
  else
    let s := { s with slaveMask := s.slaveMask &&& (1#8 <<< (irqNum % 8)) }
    s.outb s.slaveMask (slave8259Port + 1)

/-- `send_eoi` (`i8259.c:93-111`). -/
def sendEoi (irqNum : Nat) (s : I8259) : I8259 :=
  if irqNum < 8 then s.outb (0x60#8 ||| BitVec.ofNat 8 irqNum) master8259Port
  else sendEoi 2 (s.outb (0x60#8 ||| BitVec.ofNat 8 (irqNum - 8)) slave8259Port)
termination_by irqNum

/-- The bytes that a function sends, the oldest first. -/
def bytesSent (f : I8259 → I8259) (s : I8259) : List (Nat × BitVec 8) :=
  (f { s with sent := [] }).sent.reverse

/-- Whether the line is masked: its bit in the mask of its controller. -/
def masked (s : I8259) (line : Fin 16) : Bool :=
  if line.val < 8 then s.masterMask.getLsbD (line % 8) else s.slaveMask.getLsbD (line % 8)

end I8259

/-- A call of one of the two functions. -/
inductive IrqCall where
  | enable (line : Fin 16)
  | disable (line : Fin 16)
  deriving DecidableEq, Repr

/-- The line that the call names. -/
def IrqCall.line : IrqCall → Fin 16
  | .enable line => line
  | .disable line => line

/-- The controllers with the calls made since `i8259_init`, the newest first. -/
structure IrqHistory where
  pic : I8259
  calls : List IrqCall
  deriving DecidableEq, Repr

namespace IrqHistory

/-- Right after `i8259_init`. -/
def start (s : I8259) : IrqHistory := ⟨s.i8259Init, []⟩

/-- One call. -/
def step (h : IrqHistory) (call : IrqCall) : Option IrqHistory :=
  match call with
  | .enable line => some ⟨h.pic.enableIrq line, call :: h.calls⟩
  | .disable line => some ⟨h.pic.disableIrq line, call :: h.calls⟩

/-- The last call that named the line. -/
def lastNaming (h : IrqHistory) (line : Fin 16) : Option IrqCall :=
  h.calls.find? fun call => call.line = line

end IrqHistory

/-! ## The driver with the controllers -/

/-- The variables of the driver and the controllers. -/
structure IrqMachine where
  soft : I8259
  hard : PicPair

/-- A function of the driver runs, and the controllers get what it sends. -/
def IrqMachine.call (f : I8259 → I8259) (m : IrqMachine) : Option IrqMachine :=
  (m.hard.outs (m.soft.bytesSent f)).map fun hard => ⟨f m.soft, hard⟩

end OreOS
