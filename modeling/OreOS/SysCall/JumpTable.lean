import Mathlib.Logic.Function.Basic
import OreOS.Machine.Bytes

/-!
# The system call stub

Model of `sys_call` (`sys_call_jmptable.S`). The stub stores ESI and EDI in the two global words
`restore_esi` and `restore_edi`, calls a handler through `jump_table`, and loads the registers from
the same words when the handler returns. Between the two other processes can run: the child that
`execute` starts, or a process of another terminal while the handler waits.

A process is a number. `regs` gives the ESI and EDI that a process has, and `call` the handler it is
in, with the registers it had at its own entry. Registers that a process changes in user mode show
in its next entry.
-/

namespace OreOS
open Machine

/-- The entries of `jump_table`. -/
inductive Syscall where
  | halt
  | execute
  | read
  | write
  | open
  | close
  | getargs
  | vidmap
  | setHandler
  | sigreturn
  | error
  deriving DecidableEq, Repr

/-- `jump_table`, in its order. -/
def jumpTable : Vector Syscall 11 :=
  #v[.halt, .execute, .read, .write, .open, .close, .getargs, .vidmap, .setHandler, .sigreturn,
    .error]

/-- The handler that the stub calls (`sys_call_jmptable.S:37-46`). Both comparisons are signed. -/
def dispatch (eax : Word) : Syscall :=
  let i := (eax - 1#32).toInt
  if i < 0 ∨ 10 < i then .error else jumpTable[i.toNat]?.getD .error

/-- The registers that the stub saves in globals. -/
structure Regs where
  esi : Word
  edi : Word
  deriving DecidableEq, Repr

/-- The globals of the stub and the processes. -/
structure Stub where
  restoreEsi : Word
  restoreEdi : Word
  regs : Nat → Regs
  call : Nat → Option (Syscall × Regs)

/-- Before the first call. -/
def Stub.idle : Stub := ⟨0, 0, fun _ => ⟨0, 0⟩, fun _ => none⟩

/-- The events at the stub. -/
inductive SysEvent where
  /-- Process `p` executes `int 0x80` with these registers. -/
  | enter (p : Nat) (eax : Word) (r : Regs)
  /-- The handler of `p` returns to the stub. -/
  | ret (p : Nat)
  /-- Process `p` ends inside its call, as `halt` does. -/
  | finish (p : Nat)
  deriving DecidableEq, Repr

namespace Stub

/-- The stub up to the call of the handler. -/
def enter (p : Nat) (eax : Word) (r : Regs) (s : Stub) : Stub where
  restoreEsi := r.esi
  restoreEdi := r.edi
  regs := Function.update s.regs p r
  call := Function.update s.call p (some (dispatch eax, r))

/-- The stub after the handler. -/
def ret (p : Nat) (s : Stub) : Stub :=
  { s with
    regs := Function.update s.regs p ⟨s.restoreEsi, s.restoreEdi⟩
    call := Function.update s.call p none }

/-- The call of `p` does not return. -/
def finish (p : Nat) (s : Stub) : Stub := { s with call := Function.update s.call p none }

end Stub

/-- A process enters when it is not in a call, and leaves when it is. -/
def sysStep (s : Stub) : SysEvent → Option Stub
  | .enter p eax r => if (s.call p).isSome then none else some (s.enter p eax r)
  | .ret p => if (s.call p).isSome then some (s.ret p) else none
  | .finish p => if (s.call p).isSome then some (s.finish p) else none

end OreOS
