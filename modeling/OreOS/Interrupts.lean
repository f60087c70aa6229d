import OreOS.I8259
import OreOS.Machine.Trace
import OreOS.X86Desc

/-!
# Interrupts and their handlers

The clock and keyboard handlers (`rtc.c:47-59`, `keyboard.c:60-226`) as far as they concern
interrupts: the interrupt flag, the bytes sent to the controllers, and the change to another kernel
stack in the middle of `do_events` and `switchTerm` (`sched.c:13-188`). Handlers nest: between `sti`
and `iret` another interrupt may come.

The code of a handler is a list of operations, of which one is executed at a time. Whether
`do_events` or `switchTerm` goes to another terminal is an input of the interrupt. `proc_esp` refers
to a kernel stack as it was when its context was saved; a stack is the list of the handlers that are
active on it, the innermost first, and whatever runs below them, a program or a system call, is not
looked into. `new_process` sets `bg_term` to the slot of the program (`sched.c:226-229`), and where
that is no terminal there is no place in `proc_esp` for the next context.

`owes` is not in the source. It lists the lines that the controllers put in service for this handler
and that were not acknowledged while its stack was in use.
-/

namespace OreOS
open Machine

/-! ## The code of the handlers -/

/-- An operation of a handler. -/
inductive IrqOp where
  | cli
  | sti
  | outb (port : Nat) (data : BitVec 8)
  /-- The context is saved for `bg_term`, and then `bg_term = t`. -/
  | leave (t : Nat)
  /-- `%ebp` and `%esp` are loaded from the context of terminal `t` (`sched.c:181-187`). -/
  | load (t : Nat)
  /-- `execute` starts a program in a slot (`new_process`, and the `iret` into it). -/
  | start (slot : Nat)
  /-- `do_events` or `switchTerm` returns. A saved context goes on from here. -/
  | returns
  | iret
  deriving DecidableEq, Repr

/-- Where the body of a handler goes. -/
inductive Switch where
  | stay
  /-- To terminal `t`, which has been used before. -/
  | resume (t : Nat)
  /-- To the new shell of terminal `t`, which gets a slot. -/
  | opens (t slot : Nat)
  /-- To terminal `t`, where the shell cannot be started and `execute` returns. -/
  | fails (t : Nat)
  deriving DecidableEq, Repr

/-- `send_eoi`. -/
def sendEoiOps (irq : Nat) : List IrqOp :=
  (I8259.bytesSent (I8259.sendEoi irq) ⟨0, 0, []⟩).map fun b => .outb b.1 b.2

/-- `run_proc` (`sched.c:156-188`). -/
def runProcOps (eoi t : Nat) : List IrqOp := .sti :: sendEoiOps eoi ++ [.load t]

/-- `do_events` (`sched.c:13-56`). It returns at once with one terminal in use. -/
def doEventsOps : Switch → List IrqOp
  | .resume t => .leave t :: runProcOps 8 t
  | _ => []

/-- `switchTerm` (`sched.c:65-114`), or a key that does not call it. -/
def switchTermOps : Switch → List IrqOp
  | .stay => []
  | .resume t => .leave t :: runProcOps 1 t
  | .opens t slot => .leave t :: .sti :: sendEoiOps 1 ++ [.start slot]
  | .fails t => .leave t :: .sti :: sendEoiOps 1

/-- `periodic_interrupt_handler` (`rtc.c:47-59`). -/
def periodicInterruptHandlerOps (c : Switch) : List IrqOp :=
  .cli :: doEventsOps c ++ .returns :: .sti :: sendEoiOps 8 ++ [.iret]

/-- `keyboard_handler` (`keyboard.c:60-226`). -/
def keyboardHandlerOps (c : Switch) : List IrqOp :=
  .cli :: switchTermOps c ++ .returns :: .sti :: sendEoiOps 1 ++ [.iret]

/-- `rtc_handler` (`handlers.c:170-178`). -/
def rtcHandlerOps : List IrqOp := .cli :: .sti :: sendEoiOps 0 ++ [.iret]

/-- The handlers of exceptions print and then loop. -/
def Handler.ops (c : Switch) : Handler → List IrqOp
  | .periodicInterruptHandler => periodicInterruptHandlerOps c
  | .keyboardHandler => keyboardHandlerOps c
  | .rtcHandler => rtcHandlerOps
  | _ => []

/-! ## Runs -/

/-- A handler that has begun, with the operations it still has to execute. -/
structure Activation where
  ops : List IrqOp
  owes : List Nat
  deriving DecidableEq, Repr

/-- The line whose end of interrupt is sent. -/
def ackedLine (port : Nat) (data : BitVec 8) : Option Nat :=
  if port = master8259Port then some (data &&& 7).toNat
  else if port = slave8259Port then some (8 + (data &&& 7).toNat)
  else none

namespace Activation

/-- The handler after its first operation. -/
def pop (f : Activation) : Activation := { f with ops := f.ops.tail }

/-- The handler after an `outb`. What the byte acknowledges is owed no longer. -/
def acked (port : Nat) (data : BitVec 8) (f : Activation) : Activation :=
  { f with owes := f.owes.filter fun n => some n ≠ ackedLine port data }

/-- A handler as a saved context goes on with it. -/
def resumed (f : Activation) : Activation := ⟨(f.ops.dropWhile (· ≠ .returns)).tail, []⟩

/-- A handler further down on a stack that is left. -/
def settled (f : Activation) : Activation := { f with owes := [] }

end Activation

/-- The controllers, the interrupt flag, and the handlers on the kernel stacks. -/
structure Irqs where
  pics : PicPair
  ifOn : Bool
  /-- The handlers on the kernel stack in use. -/
  stack : List Activation
  /-- What `proc_esp` refers to. -/
  saved : Nat → Option (List Activation)
  bgTerm : Nat

/-- What can happen next. -/
inductive IrqStep where
  /-- A device asks for an interrupt. -/
  | raise (line : Nat)
  /-- The processor takes the interrupt that the controllers offer. -/
  | accept (c : Switch)
  /-- The innermost handler executes an operation. -/
  | exec
  /-- The code below the handlers sets or clears the interrupt flag. -/
  | flag (on : Bool)
  /-- It executes a program, which gets a slot. -/
  | program (slot : Nat)
  deriving DecidableEq, Repr

namespace Irqs

/-- One operation of the handler `f`, with `fs` below it. -/
def execOp (f : Activation) (fs : List Activation) (s : Irqs) : IrqOp → Option Irqs
  | .cli => some { s with ifOn := false, stack := f.pop :: fs }
  | .sti => some { s with ifOn := true, stack := f.pop :: fs }
  | .outb port data =>
      (s.pics.outb data port).map fun pics => { s with pics, stack := f.pop.acked port data :: fs }
  | .leave t =>
      if s.bgTerm < 3 then
        some { s with
          saved := Function.update s.saved s.bgTerm (some (f.resumed :: fs.map Activation.settled))
          bgTerm := t
          stack := f.pop :: fs }
      else none
  | .load t => (s.saved t).map fun stack => { s with stack }
  | .start slot => some { s with ifOn := true, stack := [], bgTerm := slot }
  | .returns => some { s with stack := f.pop :: fs }
  | .iret => some { s with ifOn := true, stack := fs }

/-- The lines that `P` has in service and the controllers of `s` have not. -/
def newlyServed (s : Irqs) (P : PicPair) : List Nat :=
  (List.range 16).filter fun n => P.inService n && !s.pics.inService n

/-- One step. It is undefined where the processor would not take it. -/
def step (s : Irqs) : IrqStep → Option Irqs
  | .raise line => some { s with pics := s.pics.raise line }
  | .accept c =>
      if s.ifOn then
        match s.pics.acknowledge with
        | none => none
        | some (v, P) =>
            some { s with
              pics := P
              ifOn := false
              stack := ⟨(handlerOf v.toNat).ops c, s.newlyServed P⟩ :: s.stack }
      else none
  | .exec =>
      match s.stack with
      | [] => none
      | f :: fs =>
          match f.ops.head? with
          | none => some s
          | some op => s.execOp f fs op
  | .flag on => if s.stack = [] then some { s with ifOn := on } else none
  | .program slot => if s.stack = [] then some { s with ifOn := true, bgTerm := slot } else none

/-- The controllers after `i8259_init` and the three calls of `enable_irq` (`kernel.c:269`,
`:298-300`). -/
def bootPics (hw : PicPair) : Option PicPair := do
  let m ← IrqMachine.call I8259.i8259Init ⟨⟨0, 0, []⟩, hw⟩
  let m ← m.call (I8259.enableIrq 1)
  let m ← m.call (I8259.enableIrq 2)
  let m ← m.call (I8259.enableIrq 8)
  return m.hard

/-- The kernel before the first interrupt. -/
def boot (hw : PicPair) : Option Irqs :=
  (bootPics hw).map fun pics => ⟨pics, true, [], fun _ => none, 0⟩

end Irqs

end OreOS
