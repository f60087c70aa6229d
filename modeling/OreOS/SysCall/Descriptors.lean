import Mathlib.Logic.Function.Basic
import OreOS.Filesys

/-!
# Process control blocks and file descriptors

Model of `fd_t` and `pcb_t` (`sys_call.h:57-72`) and of the calls that work on a descriptor
table: `sys_open`, `sys_read`, `sys_write` and `sys_close` with the operation tables behind
them (`sys_call.c:265-385`, `sys_call.c:501-546`). Arguments and results are 32-bit words; a
result is given as the signed number the caller sees.

Two things come from outside the table. The bytes and the count that a terminal read delivers
depend on the keyboard, so they are an input of the call. The test `filename == ""` compares
pointers and is never true of a caller's buffer.
-/

namespace OreOS
open Machine

/-- The four file operation tables (`sys_call.h:51-54`). -/
inductive Fotp where
  | terminal
  | dir
  | rtc
  | file
  deriving DecidableEq, Repr

/-- `fd_t`. `fotp` is `none` while the pointer has never been set. -/
structure Fd where
  fotp : Option Fotp
  inode : Word
  fp : Word
  flags : Word
  deriving DecidableEq, Repr

/-- The test `flags & 0x1`. -/
def Fd.present (f : Fd) : Bool := (f.flags &&& 1#32) != 0#32

/-- `pcb_t`. `fd` has the eight elements `0..7`. -/
structure Pcb where
  fd : Nat → Fd
  oldPcb : Word
  kstack : Word
  oldEbp : Word
  procId : Int

/-- What the descriptor calls of one process read and write: its PCB and the global `dir_index`. -/
structure Files where
  pcb : Pcb
  dirIndex : Word

/-- The value a call returns and the bytes it stores in the caller's buffer. -/
structure Ret where
  value : Int
  data : List UInt8
  deriving DecidableEq, Repr

/-- A call that fails stores nothing. -/
def Ret.fail : Ret := ⟨-1, []⟩

/-- Descriptor `i` is `f`. -/
def Pcb.setFd (p : Pcb) (i : Nat) (f : Fd) : Pcb := { p with fd := Function.update p.fd i f }

/-- The same in the table of a process. -/
def Files.setFd (s : Files) (i : Nat) (f : Fd) : Files := { s with pcb := s.pcb.setFd i f }

/-- The loop that looks for a descriptor whose present bit is clear, from `i` on, `n` left. -/
def Pcb.findFree (p : Pcb) : Nat → Nat → Option Nat
  | _, 0 => none
  | i, n + 1 => if (p.fd i).present = false then some i else p.findFree (i + 1) n

/-- The search for an available slot among `2..7` (`sys_call.c:270-276`). -/
def Pcb.freeFd (p : Pcb) : Option Nat := p.findFree 2 6

/-- The descriptor that `sys_open` fills in before it calls the open function
    (`sys_call.c:289-308`). A type other than 0, 1 or 2 leaves the operations table as it was. -/
def describe (fileType : Word) (f : Fd) : Fd :=
  if fileType = 0 then { f with flags := 0x1#32 ||| 0x0#32, inode := 0, fotp := some .rtc }
  else if fileType = 1 then { f with flags := 0x1#32 ||| 0x2#32, inode := 0, fotp := some .dir }
  else if fileType = 2 then { f with flags := 0x1#32 ||| 0x4#32, fotp := some .file, fp := 0 }
  else { f with flags := 0x1#32 }

/-- `file_open` (`filesys.c:146-153`). -/
def fileOpen (fs : Filesys) (fname : List UInt8) (f : Fd) : Option (Int × Fd) := do
  match ← readDentryByName fs fname with
  | (r, some de) => if r < 0 then return (-1, f) else return (0, { f with inode := de.inodeNum })
  | (_, none) => return (-1, f)

/-- The call `fotp[0](fd, filename, 0)`. -/
def fotpOpen (fs : Filesys) (fname : List UInt8) (f : Fd) : Option (Int × Fd) :=
  match f.fotp with
  | none => none
  | some .file => fileOpen fs fname f
  | some .terminal => some (0, f)
  | some .dir => some (0, f)
  | some .rtc => some (0, f)

/-- `sys_open` (`sys_call.c:265-321`). -/
def sysOpen (fs : Filesys) (fname : List UInt8) (s : Files) : Option (Ret × Files) :=
  match s.pcb.freeFd with
  | none => some (.fail, s)
  | some fd => do
      let (r, found) ← readDentryByName fs fname
      if r = -1 then return (.fail, s)
      else
        let de ← found
        let (r, f) ← fotpOpen fs fname (describe de.fileType (s.pcb.fd fd))
        if r < 0 then return (.fail, s.setFd fd { f with flags := 0 })
        else return (⟨fd, []⟩, s.setFd fd f)

/-- `fnc_fread` (`sys_call.c:504-510`). -/
def fncFread (fs : Filesys) (fd : Nat) (nbytes : Word) (s : Files) : Ret × Files :=
  let f := s.pcb.fd fd
  let (r, bytes) := readData fs f.inode f.fp nbytes
  (⟨r, bytes⟩, s.setFd fd { f with fp := f.fp + BitVec.ofInt 32 r })

/-- `fnc_dir_read` (`sys_call.c:541-543`). -/
def fncDirRead (fs : Filesys) (s : Files) : Ret × Files :=
  let (r, bytes, next) := dirRead fs s.dirIndex
  (⟨r, bytes⟩, { s with dirIndex := next })

/-- `sys_read` (`sys_call.c:330-343`). `term` is what the terminal delivers, should it be asked;
    `rtc_read` returns 0 after it has waited. The test `fd < 0` is false of every unsigned `fd`. -/
def sysRead (fs : Filesys) (fd nbytes : Word) (term : Ret) (s : Files) : Option (Ret × Files) :=
  if 7 < fd ∨ fd = 1 then some (.fail, s)
  else if (s.pcb.fd fd.toNat).present = false then some (.fail, s)
  else
    match (s.pcb.fd fd.toNat).fotp with
    | none => none
    | some .terminal => some (term, s)
    | some .dir => some (fncDirRead fs s)
    | some .rtc => some (⟨0, []⟩, s)
    | some .file => some (fncFread fs fd.toNat nbytes s)

/-- `sys_write` (`sys_call.c:352-363`). `write_terminal` returns `nbytes`, `file_write` fails, the
    other tables return 0. -/
def sysWrite (fd nbytes : Word) (s : Files) : Option (Ret × Files) :=
  if fd = 0 ∨ 7 < fd then some (.fail, s)
  else if (s.pcb.fd fd.toNat).present = false then some (.fail, s)
  else
    match (s.pcb.fd fd.toNat).fotp with
    | none => none
    | some .terminal => some (⟨nbytes.toInt, []⟩, s)
    | some .dir => some (⟨0, []⟩, s)
    | some .rtc => some (⟨0, []⟩, s)
    | some .file => some (.fail, s)

/-- `sys_close` (`sys_call.c:373-385`). -/
def sysClose (fd : Word) (s : Files) : Ret × Files :=
  if fd < 2 ∨ 7 < fd then (.fail, s)
  else if (s.pcb.fd fd.toNat).present = false then (.fail, s)
  else (⟨0, []⟩, s.setFd fd.toNat { s.pcb.fd fd.toNat with flags := 0 })

/-- A call of a process on its descriptor table. -/
inductive FileCall where
  | open (fname : List UInt8)
  | read (fd nbytes : Word) (term : Ret)
  | write (fd nbytes : Word)
  | close (fd : Word)
  deriving DecidableEq, Repr

/-- The system call, with its result. -/
def fileCall (fs : Filesys) (s : Files) : FileCall → Option (Ret × Files)
  | .open fname => sysOpen fs fname s
  | .read fd nbytes term => sysRead fs fd nbytes term s
  | .write fd nbytes => sysWrite fd nbytes s
  | .close fd => some (sysClose fd s)

/-- The descriptor table after a call. -/
def fileStep (fs : Filesys) (s : Files) (c : FileCall) : Option Files :=
  (fileCall fs s c).map Prod.snd

@[simp] theorem setFd_fd_same (p : Pcb) (i : Nat) (f : Fd) : (p.setFd i f).fd i = f := by
  simp [Pcb.setFd]

theorem setFd_fd_ne (p : Pcb) {i j : Nat} (f : Fd) (h : j ≠ i) : (p.setFd i f).fd j = p.fd j := by
  simp [Pcb.setFd, h]

end OreOS
