import OreOS.Grep.Search
import OreOS.Lib.Itoa
import OreOS.SysCall.Arguments
import OreOS.SysCall.Descriptors

/-!
# User programs

`cat`, `ls`, `grep` and `counter` (`ece391cat.c`, `ece391ls.c`, `ece391grep.c`, `ece391counter.c`)
on top of the system calls. `out` is what a program hands to `ece391_write` for the terminal. The
terminal shows one character more for each call and takes it back (`write_terminal`), and `out` has
only what the program handed over. `term` is what a read of the terminal would deliver. Arrays that
are not initialised are parameters.
-/

namespace OreOS
open Machine

/-- A program that runs: its descriptors, the kernel's `args`, and the bytes that it has handed to
`ece391_write` for the terminal. -/
structure Task where
  files : Files
  args : List UInt8
  out : List UInt8

namespace Task

variable (fs : Filesys)

/-- `ece391_open`. -/
def open' (fname : List UInt8) (w : Task) : Option (Int × Task) := do
  let (r, files) ← sysOpen fs fname w.files
  return (r.value, { w with files })

/-- `ece391_read`. -/
def read (term : Ret) (fd : Int) (nbytes : Nat) (w : Task) : Option (Ret × Task) := do
  let (r, files) ← sysRead fs (BitVec.ofInt 32 fd) (BitVec.ofNat 32 nbytes) term w.files
  return (r, { w with files })

/-- `ece391_write` of the bytes `data`. -/
def write (fd : Int) (data : List UInt8) (w : Task) : Option (Int × Task) := do
  let (r, files) ← sysWrite (BitVec.ofInt 32 fd) (BitVec.ofNat 32 data.length) w.files
  let shown := if r.value ≠ -1 ∧ (w.files.pcb.fd fd.toNat).fotp = some .terminal then data else []
  return (r.value, { w with files, out := w.out ++ shown })

/-- `ece391_close`. -/
def close (fd : Int) (w : Task) : Int × Task :=
  let (r, files) := sysClose (BitVec.ofInt 32 fd) w.files
  (r.value, { w with files })

/-- `ece391_fdputs` of a string without its NUL. -/
def fdputs (fd : Int) (s : List UInt8) (w : Task) : Option Task := (w.write fd s).map Prod.snd

/-- Calls of `ece391_fdputs` whose strings make up `s`. Nothing but the bytes of all of them
together depends on where one call ends, so there is one call for each byte. -/
def fdputsAll (fd : Int) (s : List UInt8) (w : Task) :
    Option Task := s.foldlM (fun w c => w.fdputs fd [c]) w

end Task

section
variable (fs : Filesys) (term : Ret)

/-- The loop of `cat` and `ls` that reads up to `nbytes` bytes and writes them with
`suffix` behind them. -/
def copyOut (fd : Int) (nbytes : Nat) (suffix failed : List UInt8) :
    Nat → (Nat → UInt8) → Task → Option (Int × Task)
  | 0, _, _ => none
  | fuel + 1, buf, w => do
      let (r, w) ← w.read fs term fd nbytes
      let buf := overwrite buf 0 r.data
      if r.value = 0 then return (0, w)
      else if r.value = -1 then return (3, ← w.fdputs 1 failed)
      else
        let cnt := r.value.toNat
        let buf := overwrite buf cnt suffix
        let (v, w) ← w.write 1 (slice buf 0 (cnt + suffix.length))
        if v = -1 then return (3, w) else copyOut fd nbytes suffix failed fuel buf w

/-- `"could not read arguments\n"`. -/
def noArguments : List UInt8 := "could not read arguments\n".toUTF8.data.toList

/-- `"file not found\n"`. -/
def fileNotFound : List UInt8 := "file not found\n".toUTF8.data.toList

/-- `"directory open failed\n"`. -/
def dirOpenFailed : List UInt8 := "directory open failed\n".toUTF8.data.toList

/-- `"directory entry read failed\n"`. -/
def dirReadFailed : List UInt8 := "directory entry read failed\n".toUTF8.data.toList

/-- `"could not read argument\n"`. -/
def noArgument : List UInt8 := "could not read argument\n".toUTF8.data.toList

/-- `main` of `cat` (`ece391cat.c:6-30`). -/
def cat (fuel : Nat) (buf : Nat → UInt8) (w : Task) : Option (Int × Task) := do
  let (r, name) := getargs w.args 1024
  let buf := overwrite buf 0 name
  if r ≠ 0 then return (3, ← w.fdputs 1 noArguments)
  else
    let (fd, w) ← w.open' fs (cstring (slice buf 0 1024))
    if fd = -1 then return (2, ← w.fdputs 1 fileNotFound)
    else copyOut fs term fd 1024 [] readFailed fuel buf w

/-- `main` of `ls` (`ece391ls.c:8-30`). -/
def ls (fuel : Nat) (buf : Nat → UInt8) (w : Task) : Option (Int × Task) := do
  let (fd, w) ← w.open' fs [46]
  if fd = -1 then return (2, ← w.fdputs 1 dirOpenFailed)
  else copyOut fs term fd 32 [10] dirReadFailed fuel buf w

/-! ## `grep` -/

/-- The loop over the reads of `do_one_file` (`ece391grep.c:22-66`). `lineLoop` says what the loop
over the lines prints. -/
def readLoopIn (s fname : CString) (fd : Int) : Nat → GrepState → Task → Option (Int × Task)
  | 0, _, _ => none
  | fuel + 1, g, w => do
      let (r, w) ← w.read fs term fd (grepBufsize - g.last)
      if r.value = -1 then return (-1, ← w.fdputs 1 readFailed)
      else
        let cnt := r.value.toNat
        let g ← lineLoop s fname cnt (grepBufsize + 2) 0
          {
              data := overwrite g.data g.last r.data, last := g.last + cnt, out := [], offset :=
                g.offset + cnt }
        let w ← w.fdputsAll 1 g.out
        if cnt = 0 then
          let (v, w) := w.close fd
          if v = -1 then return (-1, ← w.fdputs 1 closeFailed) else return (0, w)
        else readLoopIn s fname fd fuel g w

/-- `do_one_file` (`ece391grep.c:9-66`). -/
def doOneFileIn (fuel : Nat) (s fname : CString) (data : Nat → UInt8) (w : Task) :
    Option (Int × Task) := do
  let (fd, w) ← w.open' fs fname.chars
  if fd = -1 then return (-1, ← w.fdputs 1 openFailed)
  else readLoopIn fs term s fname fd fuel ⟨data, 0, [], 0⟩ w

/-- The loop over the directory (`ece391grep.c:84-95`). `data name` is what the array of
`do_one_file` holds when it is called for `name`. -/
def grepLoop (fileFuel : Nat) (s : CString) (fd : Int) (data : List UInt8 → Nat → UInt8) :
    Nat → (Nat → UInt8) → Task → Option (Int × Task)
  | 0, _, _ => none
  | fuel + 1, buf, w => do
      let (r, w) ← w.read fs term fd 32
      let buf := overwrite buf 0 r.data
      if r.value = 0 then return (0, w)
      else if r.value = -1 then return (3, ← w.fdputs 1 dirReadFailed)
      else if buf 0 = 46 then grepLoop fileFuel s fd data fuel buf w
      else
        let buf := Function.update buf r.value.toNat 0
        let fname : CString := ⟨cstring (slice buf 0 33), nul_not_mem_cstring _⟩
        let (v, w) ← doOneFileIn fs term fileFuel s fname (data fname.chars) w
        if v ≠ 0 then return (3, w) else grepLoop fileFuel s fd data fuel buf w

/-- `main` of `grep` (`ece391grep.c:68-97`). -/
def grep (fuel : Nat) (search buf : Nat → UInt8) (data : List UInt8 → Nat → UInt8) (w : Task) :
    Option (Int × Task) := do
  let (r, word) := getargs w.args 1024
  if r ≠ 0 then return (3, ← w.fdputs 1 noArgument)
  else
    let search := overwrite search 0 word
    let s : CString := ⟨cstring (slice search 0 1024), nul_not_mem_cstring _⟩
    let (fd, w) ← w.open' fs [46]
    if fd = -1 then return (2, ← w.fdputs 1 dirOpenFailed)
    else grepLoop fs term fuel s fd data fuel buf w

/-! ## `counter` -/

end

end OreOS
