import OreOS.Filesys.Checked
import OreOS.Machine.VirtualMemory
import OreOS.Paging.Proofs.Vidmap

/-!
# Programs in memory

What `execute` does to memory once its checks are passed (`sys_call.c:179-197`): a slot is taken,
`cr3` is loaded with its directory, and `read_data` copies the file to `0x8048000` byte by byte,
each byte going through the page tables on both ends. Next to it stand the other events that change
the memory of programs or the tables that map it.

The specification gives every slot a memory of its own. A slot's memory is not cleared when a
program ends: the next program of the slot finds what was there, except where its file is loaded.
-/

namespace OreOS
open Machine

/-- Physical memory without the page tables, and these. -/
structure Memory where
  tables : Paging
  ram : Word → UInt8

section
variable (tr : Word → Option Mapping)

/-- The byte at a virtual address. -/
def byteThrough (ram : Word → UInt8) (va : Word) : Option UInt8 := (tr va).map fun m => ram m.phys

/-- The word at a virtual address, whose bytes may lie on two pages. -/
def wordThrough (ram : Word → UInt8) (va : Word) : Option Word := do
  let b0 ← byteThrough tr ram va
  let b1 ← byteThrough tr ram (va + 1#32)
  let b2 ← byteThrough tr ram (va + 2#32)
  let b3 ← byteThrough tr ram (va + 3#32)
  return BitVec.ofNat 32 (b0.toNat + 256 * b1.toNat + 65536 * b2.toNat + 16777216 * b3.toNat)

variable (fs : Filesys) (boot : Word)

/-- The byte of a file at position `pos` (`filesys.c:129-137`). -/
def dataByteThrough (ram : Word → UInt8) (inode pos : Word) : Option UInt8 := do
  let block ← wordThrough tr ram (boot + Filesys.blockOff inode (pos / 4096#32))
  byteThrough tr ram (boot + (fs.dbOff + (4096#32 * block + pos % 4096#32)))

/-- The copy loop of `read_data` (`filesys.c:126-138`) at index `i`, with `fuel` iterations left. -/
def copyTo (inode offset size dst : Word) : Nat → Nat → (Word → UInt8) → Option (Word → UInt8)
  | 0, _, ram => some ram
  | fuel + 1, i, ram =>
      if size ≤ BitVec.ofNat 32 i + offset then some ram
      else do
        let b ← dataByteThrough tr fs boot ram inode (offset + BitVec.ofNat 32 i)
        let m ← tr (dst + BitVec.ofNat 32 i)
        copyTo inode offset size dst fuel (i + 1) (Function.update ram m.phys b)

/-- `read_data` (`filesys.c:111-141`) into the memory at `dst`. -/
def readDataTo (inode offset dst length : Word) (ram : Word → UInt8) : Option (Word → UInt8) := do
  let size ← wordThrough tr ram (boot + Filesys.inodeOff inode)
  if fs.n ≤ inode then return ram else copyTo tr fs boot inode offset size dst length.toNat 0 ram

end

/-- `_PROC_STORAGE`. -/
def procStorage : Word := 0x8048000#32

/-- `execute` from `new_pde` to the copy of the file (`sys_call.c:179-197`). -/
def loadProgram (fs : Filesys) (boot entry inode fileSize : Word) (M : Memory) : Option Memory := do
  let (procId, tables) ← newPde entry M.tables
  if procId = -1 then return { M with tables }
  else
    let tables := { tables with cr3 := procId + 1 }
    let ram ← readDataTo (tables.translateIn (procId.toNat + 1)) fs boot inode 0#32 procStorage
        fileSize M.ram
    return ⟨tables, ram⟩

/-! ## Events -/

/-- What changes the page tables or the memory. -/
inductive MemEvent where
  /-- `execute` of a file with this entry address, inode and size. -/
  | load (entry inode fileSize : Word)
  /-- `remove_page`, as `halt` calls it. -/
  | exit (p : Nat)
  | vidmap (p : Nat) (addr : Word)
  /-- The scheduler points entry 0xB8 of the page table somewhere else. -/
  | schedule (value : Nat)
  /-- Program `p` stores bytes in user mode. -/
  | store (p : Nat) (va : Word) (data : List UInt8)
  deriving DecidableEq, Repr

/-- The translation of user mode, which needs the permission of both levels. -/
def Paging.userTranslate (P : Paging) (p : Nat) (va : Word) : Option Mapping :=
  (P.translateIn (p + 1) va).filter fun m => m.user && m.write

/-- One event. It is undefined where an access faults. -/
def Memory.step (fs : Filesys) (boot : Word) (M : Memory) : MemEvent → Option Memory
  | .load entry inode fileSize => loadProgram fs boot entry inode fileSize M
  | .exit p => (removePage p M.tables).map fun tables => { M with tables }
  | .vidmap p addr => (sysVidmapIn p addr M.tables M.ram).map fun r => ⟨r.2.1, r.2.2⟩
  | .schedule value => some { M with tables := changePte 0xB8 value M.tables }
  | .store p va data => (storeBytes (M.tables.userTranslate p) M.ram va data).map fun ram =>
  { M with ram }

/-! ## The specification -/

/-- The bytes of each slot, by their distance from 128 MB. -/
structure Processes where
  live : Nat → Bool
  mem : Nat → Nat → UInt8

namespace Processes

/-- No program has been started. -/
def start (mem : Nat → Nat → UInt8) : Processes := ⟨fun _ => false, mem⟩

/-- The bytes `data` in the memory of slot `p` from `o` on. -/
def put (p o : Nat) (data : List UInt8) (A : Processes) : Processes :=
  { A with
    mem := Function.update A.mem p fun k => if o ≤ k then (data[k - o]?).getD (A.mem p k)
      else A.mem p k }

/-- `file` gives the contents of an inode. -/
def next (file : Word → List UInt8) (A : Processes) : MemEvent → Processes
  | .load _ inode _ =>
      match (List.range 7).find? fun p => !A.live p with
      | none => A
      | some p => { A with live := Function.update A.live p true }.put p 0x48000 (file inode)
  | .exit p => { A with live := Function.update A.live p false }
  | .vidmap p addr => A.put p (addr.toNat - 0x8000000) (wordBytes vidAddr)
  | .schedule _ => A
  | .store p va data => A.put p (va.toNat - 0x8000000) data

end Processes

end OreOS
