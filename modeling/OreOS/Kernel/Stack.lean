import OreOS.Kernel
import OreOS.Machine.Bytes

/-!
# The kernel stack of a process

The 8 KB block of a process has its PCB at the bottom and its kernel stack above
(`sys_call.c:193-200`). Nothing keeps the stack from growing into the PCB, or over the blocks of
other slots below it, so what a call leaves on the stack is laid over the bytes of the PCBs that it
reaches.

The compiler decides how deep the frames are and where the operation tables lie; both are
parameters.
-/

namespace OreOS
open Machine

/-- `sizeof(pcb_t)` (`sys_call.h:57-72`): eight descriptors of four words, and five words. -/
def pcbSize : Nat := 8 * 16 + 5 * 4

/-! ## The bytes of a PCB -/

/-- The operation table at an address. `addr none` is a pointer to none of them. -/
def fotpAt (addr : Option Fotp → Word) (w : Word) : Option Fotp :=
  [Fotp.terminal, .dir, .rtc, .file].find? fun f => addr (some f) = w

/-- The words of an `fd_t`. -/
def Fd.words (addr : Option Fotp → Word) (f : Fd) :
    List Word := [addr f.fotp, f.inode, f.fp, f.flags]

/-- The words of a `pcb_t`. The last one, `command_2`, is never set. -/
def Pcb.words (addr : Option Fotp → Word) (p : Pcb) : List Word :=
  ((List.range 8).flatMap fun i => (p.fd i).words addr) ++
    [p.oldPcb, p.kstack, p.oldEbp, BitVec.ofInt 32 p.procId, 0]

/-- A `pcb_t` as it lies in memory. -/
def Pcb.bytes (addr : Option Fotp → Word) (p : Pcb) : List UInt8 := (p.words addr).flatMap wordBytes

/-- The `pcb_t` that some bytes are. -/
def Pcb.ofBytes (addr : Option Fotp → Word) (bytes : Nat → UInt8) : Pcb :=
  let word (n : Nat) : Word := readWord (fun a => bytes a.toNat) (BitVec.ofNat 32 (4 * n))
  { fd := fun i => ⟨fotpAt addr (word (4 * i)), word (4 * i + 1), word (4 * i + 2),
      word (4 * i + 3)⟩
    oldPcb := word 32
    kstack := word 33
    oldEbp := word 34
    procId := (word 35).toInt }

/-! ## What a call leaves on the stack -/

/-- `taken` bytes below `tss.esp0` are used. `written i` is what is left in the `i`-th of them,
    counted downwards, or `none` if it keeps its value. -/
structure StackUse where
  taken : Nat
  written : Nat → Option UInt8

namespace Kernel
variable (K : Kernel)

/-- The physical address of the `i`-th byte below `tss.esp0`. -/
def stackPhys (i : Nat) : Option Word := K.phys (K.tss.esp0 - 1#32 - BitVec.ofNat 32 i)

/-- The PCB at `a` lies, with one byte at least, in the `taken` bytes below `tss.esp0`. -/
def StackHits (taken : Nat) (a : Word) : Prop :=
  ∃ i < taken, (K.stackPhys i).any (fun b => (b - a).toNat < pcbSize) = true

instance (taken : Nat) (a : Word) : Decidable (K.StackHits taken a) :=
  decidable_of_iff
    ((List.range taken).any (fun i => (K.stackPhys i).any fun b => (b - a).toNat < pcbSize) = true)
    (by simp [StackHits])

/-- What is left at the physical address `b`. -/
def stackByte (u : StackUse) (b : Word) : Option UInt8 :=
  ((List.range u.taken).find? fun i => K.stackPhys i = some b).bind u.written

/-- The kernel after the stack was used. -/
def takeStack (addr : Option Fotp → Word) (u : StackUse) (K : Kernel) : Kernel :=
  { K with
    pcb := fun a =>
      if K.StackHits u.taken a then
        Pcb.ofBytes addr fun k =>
          (K.stackByte u (a + BitVec.ofNat 32 k)).getD (((K.pcb a).bytes addr).getD k 0)
      else K.pcb a }

end Kernel

/-- One event, with what it leaves on the stack below it. -/
def stackStep (fs : Filesys) (addr : Option Fotp → Word) (K : Kernel) (e : Event × StackUse) :
    Option Kernel :=
  if K.down then some K else kernelStep fs (K.takeStack addr e.2) e.1

/-- The kernel boots with `mem` where the PCBs will be. -/
def bootWith (pteAddr : Word) (mem : Word → Pcb) : Kernel := { boot pteAddr with pcb := mem }

end OreOS
