import OreOS.Filesys

/-!
# The file system on an image of known size

`read_dentry_by_name` and `read_data` once more, on the bytes of the image alone: the image has
`4096 * (1 + N + D)` bytes, and a read of any other byte is undefined. Offsets are relative to the
boot block and wrap as pointers do. Where these functions are defined, their results are those of
`readDentryByName` and `readData`.
-/

namespace OreOS
open Machine

namespace Filesys

/-- The boot block, the inodes and the data blocks. -/
def imageSize (fs : Filesys) : Nat := 4096 * (1 + fs.n.toNat + fs.d.toNat)

/-- The byte at an offset, if it is in the image. -/
def byteAt (fs : Filesys) (a : Word) : Option UInt8 :=
  if a.toNat < fs.imageSize then some (fs.mem a) else none

/-- The little-endian word at an offset. -/
def wordAt (fs : Filesys) (a : Word) : Option Word := do
  let b0 ← fs.byteAt a
  let b1 ← fs.byteAt (a + 1#32)
  let b2 ← fs.byteAt (a + 2#32)
  let b3 ← fs.byteAt (a + 3#32)
  return BitVec.ofNat 32 (b0.toNat + 256 * b1.toNat + 65536 * b2.toNat + 16777216 * b3.toNat)

/-- `strncmp` of a string with the bytes from offset `a` on (`lib.c:614-631`), at index `i` with `n`
    iterations left. -/
def strncmpAt (fs : Filesys) (s1 : Nat → UInt8) (a : Nat) (i : Nat) : Nat → Option Int
  | 0 => some 0
  | n + 1 => do
      let b ← fs.byteAt (BitVec.ofNat 32 (a + i))
      if s1 i ≠ b ∨ s1 i = 0 then return (s1 i).toInt8.toInt - b.toInt8.toInt
      else strncmpAt fs s1 a (i + 1) n

/-- The bytes that `strncpy` stores from offset `a` on (`lib.c:663-678`), at index `i` with
    `n` of them left. -/
def strncpyAt (fs : Filesys) (a : Nat) (i : Nat) : Nat → Option (List UInt8)
  | 0 => some []
  | n + 1 => do
      let b ← fs.byteAt (BitVec.ofNat 32 (a + i))
      if b = 0 then return List.replicate (n + 1) 0
      else
        let rest ← strncpyAt fs a (i + 1) n
        return b :: rest

/-- The search of `read_dentry_by_name` through `n` entries from entry `i` on
    (`filesys.c:54-67`). -/
def findDentryIn (fs : Filesys) (fname : List UInt8) : Nat → Nat → Option (Option Dentry)
  | 0, _ => some none
  | n + 1, i => do
      let check ← fs.strncmpAt (cstr fname) (64 + 64 * i) 0 32
      if check = 0 then
        let fileName ← fs.strncpyAt (64 + 64 * i) 0 32
        let fileType ← fs.wordAt (BitVec.ofNat 32 (64 + 64 * i + 32))
        let inodeNum ← fs.wordAt (BitVec.ofNat 32 (64 + 64 * i + 36))
        return some ⟨fileName, fileType, inodeNum⟩
      else findDentryIn fs fname n (i + 1)

/-- `read_dentry_by_name` (`filesys.c:43-76`). -/
def readDentryByNameIn (fs : Filesys) (fname : List UInt8) : Option (Int × Option Dentry) :=
  if 31 < fname.length then some (-1, none)
  else if fs.numDe.toInt ≤ 0 then none
  else do
    match ← fs.findDentryIn fname fs.numDe.toNat 0 with
    | none => return (-1, none)
    | some de =>
        let size ← fs.wordAt (inodeOff de.inodeNum)
        return (size.toInt, some de)

/-- Where `read_data` finds the number of block `k` of an inode. -/
def blockOff (inode k : Word) : Word := inodeOff inode + 4#32 * (k + 1#32)

/-- The byte of a file at position `pos` (`filesys.c:129-137`). -/
def dataByteIn (fs : Filesys) (inode pos : Word) : Option UInt8 := do
  let block ← fs.wordAt (blockOff inode (pos / 4096#32))
  fs.byteAt (fs.dbOff + (4096#32 * block + pos % 4096#32))

/-- The copy loop of `read_data` (`filesys.c:126-138`). -/
def copyLoopIn (fs : Filesys) (inode offset size : Word) : Nat → Nat → Option (List UInt8)
  | 0, _ => some []
  | fuel + 1, i =>
      if size ≤ BitVec.ofNat 32 i + offset then some []
      else do
        let b ← fs.dataByteIn inode (offset + BitVec.ofNat 32 i)
        let rest ← copyLoopIn fs inode offset size fuel (i + 1)
        return b :: rest

/-- `read_data` (`filesys.c:111-141`). The length is read before the inode number is checked. -/
def readDataIn (fs : Filesys) (inode offset length : Word) : Option (Int × List UInt8) := do
  let size ← fs.wordAt (inodeOff inode)
  if fs.n ≤ inode then return (-1, [])
  else
    let bytes ← fs.copyLoopIn inode offset size length.toNat 0
    return ((bytes.length : Int), bytes)

end Filesys

end OreOS
