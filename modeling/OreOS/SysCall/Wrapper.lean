import OreOS.Machine.Stack
import OreOS.SysCall.JumpTable

/-!
# System calls from a program

The wrappers of the library (`ece391syscall.S`), the change of stacks by `int $0x80` and `iret`, and
the stub `sys_call` (`sys_call_jmptable.S:19-71`), instruction by instruction. A handler is a
function on the processor that ends behind its own `ret`; what the interrupt flag and the segment
registers do in the meantime is left out.
-/

namespace OreOS
open Machine

/-- The numbers of `ece391sysnum.h`. -/
def Syscall.number : Syscall → Option Word
  | .halt => some 1
  | .execute => some 2
  | .read => some 3
  | .write => some 4
  | .open => some 5
  | .close => some 6
  | .getargs => some 7
  | .vidmap => some 8
  | .setHandler => some 9
  | .sigreturn => some 10
  | .error => none

/-- What the processor keeps of a program on the kernel's stack, beside the stack pointer. -/
structure UserMode where
  ss : Word
  eflags : Word
  cs : Word
  eip : Word
  deriving DecidableEq, Repr

/-- The words of the kernel that the stub names: `restore_esi`, `restore_edi`, and the address
behind the `call` of `do_sys_call`. -/
structure StubWords where
  restoreEsi : Word
  restoreEdi : Word
  behindCall : Word

/-- `int $0x80` in user mode, with the stack that `tss.esp0` names. -/
def intSyscall (esp0 : Word) (m : UserMode) (c : Core) : Core :=
  let k := c.setEsp esp0
  ((((k.push m.ss).push c.esp).push m.eflags).push m.cs).push m.eip

/-- `iret` to user mode. -/
def iret (c : Core) : UserMode × Core :=
  (⟨c.load (c.esp + 16), c.load (c.esp + 8), c.load (c.esp + 4), c.load c.esp⟩,
    c.setEsp (c.load (c.esp + 12)))

/-- `%eax` when `jump_table` is indexed. -/
def tableIndex (eax : Word) : Word :=
  let i := eax - 1
  if i.toInt < 0 ∨ 10 < i.toInt then 10 else i

/-- The stub up to the first instruction of the handler. -/
def stubEntry (g : StubWords) (c : Core) : Core :=
  let c := c.push c.ebp
  let c := c.setEbp c.esp
  let c := (c.store g.restoreEsi c.esi).store g.restoreEdi c.edi
  let c := ((c.push c.edx).push c.ecx).push c.ebx
  (c.setEax (tableIndex c.eax)).push g.behindCall

/-- The stub behind the call of the handler, up to its `iret`. -/
def stubExit (g : StubWords) (c : Core) : Core :=
  let c := c.setEsp (c.esp + 12)
  let c := c.setEdi (c.load g.restoreEdi)
  let c := c.setEsi (c.load g.restoreEsi)
  c.leave

/-- `sys_call`. -/
def sysCallStub (g : StubWords) (handler : Syscall → Core → Core) (c : Core) : Core :=
  stubExit g (handler (dispatch c.eax) (stubEntry g c))

/-- A wrapper up to its `int $0x80`. -/
def wrapperEntry (number : Word) (c : Core) : Core :=
  let c := c.push c.ebx
  let c := c.setEax number
  let c := c.setEbx (c.load (c.esp + 8))
  let c := c.setEcx (c.load (c.esp + 12))
  c.setEdx (c.load (c.esp + 16))

/-- `DO_CALL(name, number)`: the address that the wrapper returns to, what the interrupt gives back,
and the processor behind the wrapper's `ret`. -/
def doCall (esp0 : Word) (m : UserMode) (g : StubWords) (handler : Syscall → Core → Core)
    (number : Word) (c : Core) : Word × UserMode × Core :=
  let (m, c) := iret (sysCallStub g handler (intSyscall esp0 m (wrapperEntry number c)))
  let c := c.popEbx
  (c.top, m, c.drop)

end OreOS
