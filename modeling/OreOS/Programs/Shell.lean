import OreOS.Keyboard
import OreOS.Lib.Strings
import OreOS.Machine.Buffer

/-!
# The shell

`main` of `shell` (`ece391shell.c:8-36`) over the keyboard that it reads and writes. Its steps are
those between which something else may happen to the keyboard: keys that are pressed, and the
programs that the shell has started. `out` is what the shell hands to `ece391_write`.
-/

namespace OreOS
open Machine

/-- `ece391_strcmp`, at index `i`. -/
def ece391Strcmp (s1 s2 : Nat → UInt8) : Nat → Nat → Option Int
  | 0, _ => none
  | fuel + 1, i =>
      if s1 i = s2 i then if s1 i = 0 then some 0 else ece391Strcmp s1 s2 fuel (i + 1)
      else some ((s1 i).toNat - (s2 i).toNat)

/-- `"Starting 391 Shell\n"`. -/
def shellGreeting : List UInt8 := "Starting 391 Shell\n".toUTF8.data.toList

/-- `"391OS> "`. -/
def shellPrompt : List UInt8 := "391OS> ".toUTF8.data.toList

/-- `"read from keyboard failed\n"`. -/
def keyboardFailed : List UInt8 := "read from keyboard failed\n".toUTF8.data.toList

/-- `"no such command\n"`. -/
def noSuchCommand : List UInt8 := "no such command\n".toUTF8.data.toList

/-- `"program terminated by exception\n"`. -/
def endedByException : List UInt8 := "program terminated by exception\n".toUTF8.data.toList

/-- `"program terminated abnormally\n"`. -/
def endedAbnormally : List UInt8 := "program terminated abnormally\n".toUTF8.data.toList

/-- `"exit"`. -/
def exitCommand : List UInt8 := "exit".toUTF8.data.toList

/-- Where the shell is. -/
inductive ShellPhase where
  /-- Before it prints its prompt. -/
  | prompt
  /-- In the loop of `read_terminal`. -/
  | reading
  /-- In `ece391_execute`. -/
  | running
  /-- `main` has returned. -/
  | returned (value : Int)
  deriving DecidableEq, Repr

/-- The shell, with the commands that it has passed to `ece391_execute`. -/
structure Shell where
  keyboard : Keyboard
  buf : Nat → UInt8
  phase : ShellPhase
  out : List UInt8
  commands : List (List UInt8)

/-- What can happen next. -/
inductive ShellEvent where
  /-- Something happens to the keyboard, outside the shell. -/
  | input (e : KeyboardEvent)
  /-- The shell goes on. -/
  | goes
  /-- `ece391_execute` returns. -/
  | done (rval : Int)

/-- What the shell says about the value of `ece391_execute`. -/
def complaint (rval : Int) : List UInt8 :=
  if rval = -1 then noSuchCommand
  else if rval = 256 then endedByException
  else if rval ≠ 0 then endedAbnormally
  else []

namespace Shell

/-- `ece391_fdputs (1, s)`. -/
def puts (s : List UInt8) (sh : Shell) : Option Shell := do
  let k ← keyboardStep sh.keyboard (.write (cstr s) s.length)
  return { sh with keyboard := k, out := sh.out ++ s }

/-- What the shell does when `ece391_read` has returned `cnt` (`ece391shell.c:16-26`). `buf` has
1024 elements. -/
def handle (cnt : Int) (sh : Shell) : Option Shell :=
  if cnt = -1 then (sh.puts keyboardFailed).map fun sh => { sh with phase := .returned 3 }
  else if cnt < 0 ∨ 1024 < cnt then none
  else
    let cnt := if 0 < cnt ∧ sh.buf (cnt.toNat - 1) = 10 then cnt.toNat - 1 else cnt.toNat
    if 1024 ≤ cnt then none
    else do
      let sh := { sh with buf := Function.update sh.buf cnt 0 }
      let differs ← ece391Strcmp sh.buf (cstr exitCommand) 1024 0
      if differs = 0 then return { sh with phase := .returned 0 }
      else if sh.buf 0 = 0 then return sh
      else return { sh with phase := .running, commands := sh.commands ++ [cstring
        (slice sh.buf 0 1024)] }

/-- The prompt, and `read_terminal` up to its loop. -/
def ask (sh : Shell) : Option Shell := do
  let sh ← sh.puts shellPrompt
  let k ← keyboardStep sh.keyboard (.readStart 1023)
  return { sh with keyboard := k, phase := .reading }

/-- The end of `read_terminal`. The copy has to fit into `buf`. -/
def take (sh : Shell) : Option Shell := do
  let k ← keyboardStep sh.keyboard .readWake
  let (cnt, data, k) ← k.readDone 1023
  if 1024 < data.length then none
  else
    let sh := { sh with keyboard := k, buf := overwrite sh.buf 0 data, phase := .prompt }
    sh.handle cnt

/-- The start of `main`. -/
def start (k : Keyboard) (buf : Nat → UInt8) :
    Option Shell := puts shellGreeting ⟨k, buf, .prompt, [], []⟩

end Shell

/-- One step. An event for another place than the one where the shell is does nothing. -/
def shellStep (sh : Shell) : ShellEvent → Option Shell
  | .input e => (keyboardStep sh.keyboard e).map fun k => { sh with keyboard := k }
  | .goes =>
      match sh.phase with
      | .prompt => sh.ask
      | .reading => if sh.keyboard.fflag then sh.take else some sh
      | _ => some sh
  | .done rval =>
      match sh.phase with
      | .running =>
          (if complaint rval = [] then some sh else sh.puts (complaint rval)).map fun sh =>
            { sh with phase := .prompt }
      | _ => some sh

end OreOS
