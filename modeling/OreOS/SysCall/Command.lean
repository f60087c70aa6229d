import OreOS.Filesys
import OreOS.SysCall.Arguments

/-!
# Looking up a command

The start of `execute` as a whole (`sys_call.c:110-162`): it takes the name and the arguments out of
its copy of the command, stores the arguments, and asks the file system for the name.
-/

namespace OreOS
open Machine

/-- `strncpy` out of the array `t` (`lib.c:663-678`), at index `i` with `n` bytes left. The loop
    reads the source before it looks at the count. -/
def strncpyIn (t : Nat → Option UInt8) (i : Nat) : Nat → Option (List UInt8)
  | 0 => do
      let _ ← t i
      return []
  | n + 1 => do
      let c ← t i
      if c = 0 then return List.replicate (n + 1) 0 else return c :: (← strncpyIn t (i + 1) n)

/-- The array `file_name` of 32 bytes and the string stored in `args`. -/
structure CommandParts where
  fileName : List UInt8
  args : List UInt8
  deriving DecidableEq, Repr

/-- Taking the command apart (`sys_call.c:137-157`). `file_name` starts out as zeros, and a name of
    more than 32 bytes does not fit into it. -/
def takeCommand (t : Nat → Option UInt8) : Option CommandParts := do
  let i ← scan t (fun c => c == 32 || c == 0 || c == 10) 65 0
  if 32 < i then none
  else
    let copied ← strncpyIn t 0 i
    let j ← scan t (· != 32) 65 i
    let args ← copyArgs t 65 j
    return ⟨copied ++ List.replicate (32 - i) 0, args⟩

/-- The string in an array. Without a NUL it does not end in the array. -/
def arrayString (a : List UInt8) : Option (List UInt8) := if 0 ∈ a then some (cstring a) else none

/-- What `execute` has when `read_dentry_by_name` returns: the name it looked up, the string in
    `args`, `file_size` and `dentry`. -/
structure Lookup where
  name : List UInt8
  args : List UInt8
  fileSize : Int
  dentry : Option Dentry
  deriving DecidableEq, Repr

/-- `execute` up to the check that the file exists (`sys_call.c:110-162`). A `fileSize` of -1 is
    what makes it return -1 there. -/
def lookUpCommand (fs : Filesys) (t : Nat → Option UInt8) : Option Lookup := do
  let c ← takeCommand t
  let name ← arrayString c.fileName
  let (fileSize, dentry) ← readDentryByName fs name
  return ⟨name, c.args, fileSize, dentry⟩

/-- The characters that end the name in a command line. -/
def endsName (c : UInt8) : Bool := c == 32 || c == 0 || c == 10

/-- The name in a command line. -/
def commandName (command : List UInt8) : List UInt8 := command.takeWhile fun c => !endsName c

end OreOS
