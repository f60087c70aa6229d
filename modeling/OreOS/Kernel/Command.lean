import OreOS.Kernel.Stack
import OreOS.SysCall.Command

/-!
# `execute` with its checks

`execute` from the command it is given on (`sys_call.c:108-226`): the lookup, the file that is read
into `file_buf` and checked there, and the entry address from its header. `execute` of
`OreOS.Kernel` is what follows. Two of the arrays are not initialised, so a file that is too short
leaves stack contents in them.
-/

namespace OreOS
open Machine

/-- The check of the first bytes of `file_buf` (`sys_call.c:169-173`). -/
def elfMagic (fileBuf : Nat → UInt8) : Bool :=
  fileBuf 0 == 0x7F && fileBuf 1 == 0x45 && fileBuf 2 == 0x4C && fileBuf 3 == 0x46

/-- `addr`, put together from `new_addr` (`sys_call.c:176`). -/
def addrWord (newAddr : Nat → UInt8) : Word :=
  (newAddr 0).toBitVec.setWidth 32 ||| (newAddr 1).toBitVec.setWidth 32 <<< 8 |||
    (newAddr 2).toBitVec.setWidth 32 <<< 16 ||| (newAddr 3).toBitVec.setWidth 32 <<< 24

/-- What a call of `execute` comes with: the command and what follows it, what its arrays `temp2`,
    `file_buf` and `new_addr` hold to begin with, and the depth of the stack where it reads `%esp`
    and `%ebp`. `above` bytes lie between `tss.esp0` and the end of `file_buf`, `below` bytes are
    pushed under it by the calls that it makes, and `left` is what ends up in these. -/
structure CommandCall where
  command : List UInt8
  behind : Nat → UInt8
  junk : Nat → UInt8
  fileBuf : Nat → UInt8
  newAddr : Nat → UInt8
  frame : Frame
  above : Nat
  below : Nat
  left : Nat → Option UInt8

/-- The array `temp2` of the call. -/
def CommandCall.temp2 (c : CommandCall) :
    Nat → Option UInt8 := OreOS.temp2 c.command c.behind c.junk

/-- The checks of the file that was looked up (`sys_call.c:162-177`): the entry address, or `none`
    within when one of them fails. An array cannot have a negative size. -/
def checkFile (fs : Filesys) (c : CommandCall) (l : Lookup) : Option (Option Word) :=
  if l.fileSize = -1 then some none
  else if l.fileSize < 0 then none
  else do
    let de ← l.dentry
    let (bytesRead, bytes) := readData fs de.inodeNum 0 (BitVec.ofInt 32 l.fileSize)
    if bytesRead = -1 then return none
    else if elfMagic fun i => bytes.getD i (c.fileBuf i) then
      let (_, header) := readData fs de.inodeNum 24#32 4#32
      return some (addrWord fun i => header.getD i (c.newAddr i))
    else return none

/-- The bytes that are read into `file_buf` (`sys_call.c:165-166`). There is no array for a file
    that does not exist. -/
def loadedBytes (fs : Filesys) (l : Lookup) : List UInt8 :=
  match l.dentry with
  | none => []
  | some de => (readData fs de.inodeNum 0 (BitVec.ofInt 32 l.fileSize)).2

/-- The stack of the call, from `tss.esp0` down: `file_buf` with its bytes in reverse order, and
    what is above and below it. -/
def CommandCall.stackUse (fs : Filesys) (c : CommandCall) (l : Lookup) : StackUse where
  taken := c.above + l.fileSize.toNat + c.below
  written i :=
    if c.above ≤ i ∧ i < c.above + l.fileSize.toNat then
      (loadedBytes fs l)[c.above + l.fileSize.toNat - 1 - i]?
    else c.left i

/-- `execute` (`sys_call.c:108-255`) in terminal `term`: where control goes, and the kernel and the
    string in `args` after it. -/
def executeCommand (fs : Filesys) (addr : Option Fotp → Word) (c : CommandCall) (term : Nat)
    (K : Kernel) : Option (Exit × Kernel × List UInt8) := do
  let l ← lookUpCommand fs c.temp2
  let entry ← checkFile fs c l
  let (x, K) ← execute term entry c.frame (K.takeStack addr (c.stackUse fs l))
  return (x, K, l.args)

end OreOS
