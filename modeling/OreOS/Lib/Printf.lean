import OreOS.Lib.Itoa

/-!
# `printf`

Model of `printf` and `puts` (`lib.c:138-283`). The format is what can be read from `format` on: its
characters and the terminating NUL. The pointer `buf` into it is the rest of the format, and a read
behind the NUL, where nothing is known of the memory, makes the call undefined. What is printed is
the sequence of the arguments of `putc`.
-/

namespace OreOS
open Machine

/-- A NUL-terminated string. -/
structure CString where
  chars : List UInt8
  nulFree : 0 ∉ chars

/-- The bytes of the string in memory. -/
def CString.bytes (s : CString) : List UInt8 := s.chars ++ [0]

/-- `puts` (`lib.c:272-283`): the characters it gives to `putc`. -/
def puts : List UInt8 → Option (List UInt8)
  | [] => none
  | c :: s => if c = 0 then some [] else (puts s).map (c :: ·)

/-- What `printf` finds in memory. -/
structure PrintfArgs where
  /-- The words on the stack above `format`. -/
  stack : Nat → Word
  /-- The strings that pointers point to. -/
  string : Word → CString
  /-- What `conv_buf`, which is not initialised, contains when an argument is converted. -/
  convBuf : Nat → Nat → UInt8

/-- The variables of `printf`: what was printed, and the numbers of words and of characters that
`esp` and `buf` have passed. -/
structure PrintfState where
  out : List UInt8
  esp : Nat
  buf : Nat
  deriving DecidableEq, Repr

namespace PrintfState

/-- Characters are printed. -/
def print (s : PrintfState) (cs : List UInt8) : PrintfState := { s with out := s.out ++ cs }

/-- `esp++`. -/
def nextArg (s : PrintfState) : PrintfState := { s with esp := s.esp + 1 }

/-- `buf++`. -/
def nextChar (s : PrintfState) : PrintfState := { s with buf := s.buf + 1 }

end PrintfState

/-- `while(i < 8) { conv_buf[i] = '0'; i++; }`, with the number of iterations. -/
def padLoop (m : Nat → UInt8) (i : Nat) : Nat → Nat → UInt8
  | 0 => m
  | n + 1 => padLoop (Function.update m i 48) (i + 1) n

/-- The cases of `format_char_switch` (`lib.c:182-250`) but for `'#'`. -/
def formatChar (a : PrintfArgs) (alternate : Bool) (c : UInt8) (s : PrintfState) :
    Option PrintfState :=
  if c = 37 then -- '%'
    some (s.print [37])
  else if c = 120 then -- 'x'
    if alternate = false then do
      let convBuf ← itoa (a.stack s.esp) (a.convBuf s.esp) 0 64 16
      let cs ← puts (slice convBuf 0 64)
      some (s.print cs).nextArg
    else do
      let convBuf ← itoa (a.stack s.esp) (a.convBuf s.esp) 8 56 16
      let startingIndex ← strlen (slice convBuf 8 56)
      let convBuf := padLoop convBuf startingIndex (8 - startingIndex)
      let cs ← puts (slice convBuf startingIndex (64 - startingIndex))
      some (s.print cs).nextArg
  else if c = 117 then do -- 'u'
    let convBuf ← itoa (a.stack s.esp) (a.convBuf s.esp) 0 36 10
    let cs ← puts (slice convBuf 0 36)
    some (s.print cs).nextArg
  else if c = 100 then -- 'd'
    let value := a.stack s.esp
    if value.toInt < 0 then do
      let convBuf ← itoa (-value) (Function.update (a.convBuf s.esp) 0 45) 1 35 10
      let cs ← puts (slice convBuf 0 36)
      some (s.print cs).nextArg
    else do
      let convBuf ← itoa value (a.convBuf s.esp) 0 36 10
      let cs ← puts (slice convBuf 0 36)
      some (s.print cs).nextArg
  else if c = 99 then -- 'c'
    some (s.print [UInt8.ofNat (a.stack s.esp).toNat]).nextArg
  else if c = 115 then do -- 's'
    let cs ← puts (a.string (a.stack s.esp)).bytes
    some (s.print cs).nextArg
  else some s

mutual

/-- The loop of `printf` (`lib.c:166-261`). -/
def printfLoop (a : PrintfArgs) : List UInt8 → PrintfState → Option PrintfState
  | [], _ => none
  | c :: buf, s =>
      if c = 0 then some s
      else if c = 37 then formatCharSwitch a false buf s.nextChar
      else printfLoop a buf (s.print [c]).nextChar

/-- `format_char_switch` and the `buf++` after it. -/
def formatCharSwitch (a : PrintfArgs) (alternate : Bool) :
    List UInt8 → PrintfState → Option PrintfState
  | [], _ => none
  | c :: buf, s =>
      if c = 35 then formatCharSwitch a true buf s.nextChar
      else (formatChar a alternate c s).bind fun s => printfLoop a buf s.nextChar

end

/-- `printf`: what it printed, how many arguments it took, and what it returned (`buf`). -/
def printf (format : CString) (a : PrintfArgs) : Option PrintfState :=
  printfLoop a format.bytes ⟨[], 0, 0⟩

end OreOS
