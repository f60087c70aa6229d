import OreOS.Lib.Strings

/-!
# Command lines and their arguments

The part of `execute` that takes the command apart (`sys_call.c:123-157`) and `getargs`
(`sys_call.c:81-97`). `execute` copies 20 bytes of the command into an array of 64, the rest of
which is whatever the stack holds, and looks for the end of the name, the first argument and the end
of the line in it. The arguments go to the one array `args` of the kernel. They never contain a NUL
and everything that reads `args` stops at the NUL behind them, so `args` is a string here.
-/

namespace OreOS

/-- The bytes found at a pointer to the command line `command`; `behind` is what follows its NUL. -/
def commandByte (command : List UInt8) (behind : Nat → UInt8) (i : Nat) : UInt8 :=
  (command ++ [0]).getD i (behind i)

/-- The array `temp2` after the copy; `junk` is its uninitialised part. Reads
outside are undefined. -/
def temp2 (command : List UInt8) (behind junk : Nat → UInt8) (i : Nat) : Option UInt8 :=
  if i < 20 then some (commandByte command behind i) else if i < 64 then some (junk i) else none

section
variable (t : Nat → Option UInt8)

/-- A loop that advances an index until a character satisfies `stop`, at most
`fuel` rounds of it. -/
def scan (stop : UInt8 → Bool) : Nat → Nat → Option Nat
  | 0, _ => none
  | fuel + 1, i => do
      let c ← t i
      if stop c then return i else scan stop fuel (i + 1)

/-- The loop that copies the arguments, from index `j` on (`sys_call.c:151-156`). -/
def copyArgs : Nat → Nat → Option (List UInt8)
  | 0, _ => none
  | fuel + 1, j => do
      let c ← t j
      if c = 10 ∨ c = 0 then return [] else return c :: (← copyArgs fuel (j + 1))

/-- The arguments that `execute` stores (`sys_call.c:137-157`). The name is copied into an array of
    32 bytes. Every loop ends within 65 rounds, at the latest where it leaves the array `t`. -/
def parseArgs : Option (List UInt8) := do
  let i ← scan t (fun c => c == 32 || c == 0 || c == 10) 65 0
  if 32 < i then none
  else
    let j ← scan t (· != 32) 65 i
    copyArgs t 65 j

end

/-- The loop of `getargs` at index `i`: the index at which it ends, or `none` when it gives up. -/
def getargsLoop (args : Nat → UInt8) (nbytes : Int) : Nat → Nat → Option Nat
  | 0, _ => none
  | fuel + 1, i =>
      if args i = 32 ∨ args i = 0 ∨ args i = 10 ∨ nbytes ≤ i then some i
      else if 30 ≤ i then none
      else getargsLoop args nbytes fuel (i + 1)

/-- `getargs` (`sys_call.c:81-97`): the value returned and the bytes stored in the caller's buffer.
    The loop gives up at index 30. -/
def getargs (args : List UInt8) (nbytes : Int) : Int × List UInt8 :=
  if cstr args 0 = 10 ∨ cstr args 0 = 0 then (-1, [])
  else
    match getargsLoop (cstr args) nbytes 31 0 with
    | none => (-1, args.take 31)
    | some i => (0, (args ++ [0]).set i 0)

/-! ## What a command line says -/

/-- The characters that end a command line. -/
def endsLine (c : UInt8) : Bool := c == 0 || c == 10

/-- A command line up to its end. -/
def lineOf (command : List UInt8) : List UInt8 := command.takeWhile fun c => !endsLine c

/-- The arguments of a command line: what follows the name and the spaces after it. -/
def arguments (command : List UInt8) : List UInt8 :=
  ((lineOf command).dropWhile (· != 32)).dropWhile (· == 32)

end OreOS
