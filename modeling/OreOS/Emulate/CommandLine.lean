import OreOS.Lib.Printf
import OreOS.Machine.Cells
import OreOS.SysCall.Command

/-!
# Command lines in the emulation layer

Model of `ece391_execute` up to its `fork` and of `ece391_getargs` (`ece391emulate.c:67-111`,
`:131-157`). `ece391_execute` takes a copy of the command apart in place and collects pointers into
it, which `execv` reads. A pointer into `buf` is an index. `ece391_getargs` puts the arguments
together again in the buffer of its caller, of which it does not know the end but `nbytes`; every
store is recorded.
-/

namespace OreOS
open Machine

/-! ## `ece391_execute` -/

/-- The variables of `ece391_execute`. In `args`, `none` is `NULL`. -/
structure ExecuteVars where
  buf : Vector UInt8 1026
  args : Vector (Option Nat) 1024
  scan : Nat
  nArg : Nat

namespace ExecuteVars

/-- `scan++` until a character satisfies `stop`. -/
def scanTo (stop : UInt8 → Bool) (s : ExecuteVars) : Option ExecuteVars :=
  (OreOS.scan (fun i => s.buf[i]?) stop 1027 s.scan).map fun scan => { s with scan }

/-- `*scan = '\0'`. -/
def terminate (s : ExecuteVars) : Option ExecuteVars :=
  (store s.buf s.scan 0).map fun buf => { s with buf }

/-- `args[n_arg++] = scan`. -/
def pushArg (s : ExecuteVars) : Option ExecuteVars :=
  (store s.args s.nArg (some s.scan)).map fun args => { s with args, nArg := s.nArg + 1 }

end ExecuteVars

/-- The loop `while (1)` (`ece391emulate.c:88-98`). -/
def parseArguments : Nat → ExecuteVars → Option ExecuteVars
  | 0, _ => none
  | fuel + 1, s => do
      let s ← s.scanTo (· != 32)
      let c ← s.buf[s.scan]?
      if c = 0 ∨ c = 10 then s.terminate
      else
        let s ← s.pushArg
        let s ← s.scanTo endsName
        let c ← s.buf[s.scan]?
        if c = 0 then parseArguments fuel s
        else
          let s ← s.terminate
          parseArguments fuel { s with scan := s.scan + 1 }

/-- `ece391_execute` up to `fork` (`ece391emulate.c:76-100`), with what `buf` and `args` contain at
first. It is `some none` where the call returns -1 before. -/
def ece391Execute (command : CString) (buf : Vector UInt8 1026) (args : Vector (Option Nat) 1024) :
    Option (Option ExecuteVars) :=
  if 1023 < command.chars.length then some none
  else do
    let buf ← storeAll buf 0 [46, 47]
    let buf ← storeAll buf 2 command.bytes
    let s ← ExecuteVars.scanTo endsName { buf, args, scan := 2, nArg := 0 }
    let args ← store s.args 0 (some 0)
    let s := { s with args, nArg := 1 }
    let c ← s.buf[s.scan]?
    let s ←
      if c = 0 then some s
      else do
        let s ← s.terminate
        parseArguments 1026 { s with scan := s.scan + 1 }
    let args ← store s.args s.nArg none
    return some { s with args }

/-- The strings that `execv` hands to the new program, from `args[i]` on. -/
def execv (s : ExecuteVars) : Nat → Nat → Option (List (List UInt8))
  | 0, _ => none
  | fuel + 1, i => do
      match ← s.args[i]? with
      | none => return []
      | some p => return (← arrayString (s.buf.toList.drop p)) :: (← execv s fuel (i + 1))

/-! ## `ece391_getargs` -/

/-- The memory of the caller, counted from `buf`, and the indices that were written. -/
structure ArgsBuffer where
  mem : Nat → UInt8
  written : List Nat

namespace ArgsBuffer

/-- `buf[i] = x`. -/
def put (b : ArgsBuffer) (i : Nat) (x : UInt8) :
    ArgsBuffer := ⟨Function.update b.mem i x, i :: b.written⟩

/-- `ece391_strcpy` (`ece391support.c:15-18`) of the bytes of a string to the index `i`. -/
def strcpy (b : ArgsBuffer) (i : Nat) : List UInt8 → ArgsBuffer
  | [] => b
  | x :: s => (b.put i x).strcpy (i + 1) s

end ArgsBuffer

/-- What follows the loop (`ece391emulate.c:153-156`), with `buf` at index `i`. -/
def finishArgs (b : ArgsBuffer) (i : Nat) (nbytes : Int) : Int × ArgsBuffer :=
  if nbytes < 1 then (-1, b) else (0, b.put i 0)

/-- The loop of `ece391_getargs` (`ece391emulate.c:138-152`) over the strings that are left, and
what follows it. -/
def putArgs (b : ArgsBuffer) (i : Nat) (nbytes : Int) : List (List UInt8) → Int × ArgsBuffer
  | [] => finishArgs b i nbytes
  | arg :: args =>
      let len := arg.length
      if nbytes < len then (-1, b)
      else
        let b := b.strcpy i (arg ++ [0])
        let nbytes := nbytes - len
        if args = [] then finishArgs b (i + len) nbytes
        else if nbytes < 1 then (-1, b)
        else putArgs (b.put (i + len) 32) (i + len + 1) (nbytes - 1) args

/-- `ece391_getargs` (`ece391emulate.c:131-157`). -/
def ece391Getargs (argv : List (List UInt8)) (mem : Nat → UInt8) (nbytes : Int) :
    Int × ArgsBuffer :=
  putArgs ⟨mem, []⟩ 0 nbytes argv.tail

end OreOS
