import OreOS.Lib.Printf
import OreOS.Lib.Strings

/-!
# The search of `grep`

Model of `do_one_file` (`ece391grep.c:9-66`) and of the functions of `ece391support.c` that it
calls. The array `data` has indices 0 to 1024, and an access to any other index is undefined. What
the system calls answer is a parameter; `fullReads` is a file that is read as far as it goes.
-/

namespace OreOS
open Machine

/-- `BUFSIZE`. -/
def grepBufsize : Nat := 1024

/-- The read `data[i]`. -/
def loadData (data : Nat → UInt8) (i : Nat) : Option UInt8 :=
  if i < grepBufsize + 1 then some (data i) else none

/-- The write `data[i] = x`. -/
def storeData (data : Nat → UInt8) (i : Nat) (x : UInt8) : Option (Nat → UInt8) :=
  if i < grepBufsize + 1 then some (Function.update data i x) else none

/-- `ece391_strlen` of the string at `data + i`. -/
def ece391Strlen (data : Nat → UInt8) (i : Nat) : Option Nat :=
  strlen (slice data i (grepBufsize + 1 - i))

/-- `ece391_strcpy(data + dst, data + src)`, with enough fuel for every string in the array. -/
def ece391Strcpy : Nat → (Nat → UInt8) → Nat → Nat → Option (Nat → UInt8)
  | 0, _, _, _ => none
  | fuel + 1, data, dst, src => do
      let x ← loadData data src
      let data ← storeData data dst x
      if x ≠ 0 then ece391Strcpy fuel data (dst + 1) (src + 1) else some data

/-- `ece391_strncmp(data + i, s + j, n)`. -/
def ece391Strncmp (data s : Nat → UInt8) : Nat → Nat → Nat → Option Int
  | 0, _, _ => some 0
  | n + 1, i, j => do
      let x ← loadData data i
      if x = s j then
        if x = 0 ∨ n = 0 then some 0 else ece391Strncmp data s n (i + 1) (j + 1)
      else some ((x.toNat : Int) - (s j).toNat)

/-- What the system calls of `do_one_file` answer: `ece391_open` and `ece391_close` succeed or not,
and `ece391_read` at an offset gives at most as many bytes as are asked for, or fails. -/
structure GrepFile where
  opens : Bool
  read : Nat → Nat → Option (List UInt8)
  closes : Bool

/-- A file whose reads return the full count until its end. -/
def fullReads (content : List UInt8) : GrepFile :=
  ⟨true, fun offset count => some ((content.drop offset).take count), true⟩

/-- The variables of `do_one_file`, with what was written to standard output and the
bytes read so far. -/
structure GrepState where
  data : Nat → UInt8
  last : Nat
  out : List UInt8
  offset : Nat

section
variable (s fname : CString)

/-- `while (line_end < last && '\n' != data[line_end]) line_end++;`, with `last -
line_end` bytes to go. -/
def scanLineEnd (data : Nat → UInt8) : Nat → Nat → Option Nat
  | 0, lineEnd => some lineEnd
  | n + 1, lineEnd => do
      let x ← loadData data lineEnd
      if x ≠ 10 then scanLineEnd data n (lineEnd + 1) else some lineEnd

/-- The `for` loop over `check`, with `line_end - check` places to go: whether it comes to its body.
A `char` is signed, an element of `data` is not. -/
def checkLine (data : Nat → UInt8) : Nat → Nat → Option Bool
  | 0, _ => some false
  | n + 1, check => do
      let x ← loadData data check
      if (cstr s.chars 0).toInt8.toInt = x.toNat then
        let r ← ece391Strncmp data (cstr s.chars) s.chars.length check 0
        if r = 0 then some true else checkLine data n (check + 1)
      else checkLine data n (check + 1)

/-- What the body of the loop prints of the line at `data + line_start`. -/
def printLine (data : Nat → UInt8) (lineStart : Nat) : Option (List UInt8) := do
  let len ← ece391Strlen data lineStart
  some (fname.chars ++ [58] ++ slice data lineStart len ++ [10])

/-- The loop over the lines of the buffer (`ece391grep.c:30-56`). -/
def lineLoop (cnt : Nat) : Nat → Nat → GrepState → Option GrepState
  | 0, _, _ => none
  | fuel + 1, lineStart, g => do
      let lineEnd ← scanLineEnd g.data (g.last - lineStart) lineStart
      let x ← loadData g.data lineEnd
      let data ← storeData g.data lineEnd 0
      if x ≠ 10 ∧ cnt ≠ 0 ∧ lineStart ≠ 0 then
        let data ← ece391Strcpy (grepBufsize + 1) data 0 lineStart
        some { g with data, last := g.last - lineStart }
      else
        let found ← checkLine s data (lineEnd - lineStart) lineStart
        let printed ← (if found then printLine fname data lineStart else some [])
        let g := { g with data, out := g.out ++ printed }
        if lineEnd + 1 ≥ g.last then some { g with last := 0 }
          else lineLoop cnt fuel (lineEnd + 1) g

/-- `"file open failed\n"`. -/
def openFailed : List UInt8 := "file open failed\n".toUTF8.data.toList

/-- `"file read failed\n"`. -/
def readFailed : List UInt8 := "file read failed\n".toUTF8.data.toList

/-- `"file close failed\n"`. -/
def closeFailed : List UInt8 := "file close failed\n".toUTF8.data.toList

/-- The loop over the reads (`ece391grep.c:22-59`) and the `ece391_close` after it: what is returned
and what was written. -/
def readLoop (file : GrepFile) : Nat → GrepState → Option (Int × List UInt8)
  | 0, _ => none
  | fuel + 1, g =>
      match file.read g.offset (grepBufsize - g.last) with
      | none => some (-1, g.out ++ readFailed)
      | some bytes => do
          let cnt := bytes.length
          let g ← lineLoop s fname cnt (grepBufsize + 2) 0
            { data := overwrite g.data g.last bytes, last := g.last + cnt, out := g.out,
              offset := g.offset + cnt }
          if cnt = 0 then
            if file.closes then some (0, g.out) else some (-1, g.out ++ closeFailed)
          else readLoop file fuel g

/-- `do_one_file`, with the contents that `data` starts with. -/
def doOneFile (file : GrepFile) (data : Nat → UInt8) (fuel : Nat) : Option (Int × List UInt8) :=
  if file.opens then readLoop s fname file fuel ⟨data, 0, [], 0⟩ else some (-1, openFailed)

end

end OreOS
