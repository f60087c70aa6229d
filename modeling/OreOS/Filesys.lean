import OreOS.Lib.Strings
import OreOS.Machine.Bytes

/-!
# The read-only file system

Model of `filesys.c`. The image starts with the boot block: a header (number of directory
entries, of inodes, of data blocks) and 64-byte directory entries; then come `N` inodes and `D`
data blocks of 4096 bytes. An inode holds the file size and the numbers of its data blocks.

Addresses are offsets from the boot block, modulo 2^32. The functions do not know where the image
ends: `mem` also gives the bytes around it, about which nothing is assumed. Buffers that a
function fills are returned as the bytes it writes from index 0 on.
-/

namespace OreOS
open Machine

/-- The memory seen from the boot block, with the globals that `set_filesys_meta` sets. -/
structure Filesys where
  mem : Word → UInt8
  numDe : Word
  n : Word
  d : Word

/-- `dentry_t` without its reserved bytes (`filesys.h:8-13`). -/
structure Dentry where
  fileName : List UInt8
  fileType : Word
  inodeNum : Word
  deriving DecidableEq, Repr

/-- `set_filesys_meta` (`filesys.c:23-37`). -/
def setFilesysMeta (mem : Word → UInt8) : Filesys where
  mem := mem
  numDe := readWord mem 0
  n := readWord mem 4
  d := readWord mem 8

namespace Filesys

/-- Offset of an inode: `inode_ptr + size_block * inode`. -/
def inodeOff (inode : Word) : Word := 4096#32 + 4096#32 * inode

/-- Offset of the data blocks: `db_ptr`. -/
def dbOff (fs : Filesys) : Word := 4096#32 + fs.n * 4096#32

/-- The file length `curr_inode_ptr[0]`. -/
def inodeSize (fs : Filesys) (inode : Word) : Word := readWord fs.mem (inodeOff inode)

/-- The block number `curr_inode_ptr[k+1]`. -/
def inodeBlock (fs : Filesys) (inode k : Word) : Word :=
  readWord fs.mem (inodeOff inode + 4#32 * (k + 1#32))

/-- The byte of a file at position `pos`, as `read_data` finds it (`filesys.c:129-137`). -/
def dataByte (fs : Filesys) (inode pos : Word) : UInt8 :=
  fs.mem (fs.dbOff + (4096#32 * fs.inodeBlock inode (pos / 4096#32) + pos % 4096#32))

/-- The directory entry `de_ptr[i]`. -/
def dentryAt (fs : Filesys) (i : Nat) : Dentry where
  fileName := (List.range 32).map fun k => fs.mem (BitVec.ofNat 32 (64 + 64 * i + k))
  fileType := readWord fs.mem (BitVec.ofNat 32 (64 + 64 * i + 32))
  inodeNum := readWord fs.mem (BitVec.ofNat 32 (64 + 64 * i + 36))

end Filesys

/-- The search of `read_dentry_by_name` through `n` entries from entry `i` on; the entry it finds
    is copied with `strncpy` (`filesys.c:54-67`). -/
def findDentry (fs : Filesys) (fname : List UInt8) : Nat → Nat → Option Dentry
  | 0, _ => none
  | n + 1, i =>
      let de := fs.dentryAt i
      if strncmp (cstr fname) (cstr de.fileName) 32 = 0 then
        some { de with fileName := strncpy (cstr de.fileName) 32 }
      else findDentry fs fname n (i + 1)

/-- `read_dentry_by_name` (`filesys.c:43-76`): the value returned and the entry stored, if one is.
    With no directory entries the loop leaves `check` uninitialised, and the call is undefined. -/
def readDentryByName (fs : Filesys) (fname : List UInt8) : Option (Int × Option Dentry) :=
  if 31 < fname.length then some (-1, none)
  else if fs.numDe.toInt ≤ 0 then none
  else
    match findDentry fs fname fs.numDe.toNat 0 with
    | none => some (-1, none)
    | some de => some ((fs.inodeSize de.inodeNum).toInt, some de)

/-- `read_dentry_by_index` (`filesys.c:84-99`). The comparison with `num_de` is unsigned. -/
def readDentryByIndex (fs : Filesys) (index : Word) : Int × Option Dentry :=
  if fs.numDe ≤ index then (-1, none) else (0, some (fs.dentryAt index.toNat))

/-- The copy loop of `read_data` at index `i`, with `fuel` iterations left before `length`
    (`filesys.c:126-138`). -/
def copyLoop (fs : Filesys) (inode offset size : Word) : Nat → Nat → List UInt8
  | 0, _ => []
  | fuel + 1, i =>
      if size ≤ BitVec.ofNat 32 i + offset then []
      else fs.dataByte inode (offset + BitVec.ofNat 32 i) ::
        copyLoop fs inode offset size fuel (i + 1)

/-- `read_data` (`filesys.c:111-141`): the value returned and the bytes stored in the buffer. -/
def readData (fs : Filesys) (inode offset length : Word) : Int × List UInt8 :=
  if fs.n ≤ inode then (-1, [])
  else
    let bytes := copyLoop fs inode offset (fs.inodeSize inode) length.toNat 0
    ((bytes.length : Int), bytes)

/-- `dir_read` (`filesys.c:173-188`) from the directory position `dirIndex`: the value returned,
    the bytes stored and the next position. -/
def dirRead (fs : Filesys) (dirIndex : Word) : Int × List UInt8 × Word :=
  match readDentryByIndex fs dirIndex with
  | (_, none) => (0, [], 0)
  | (_, some de) => (32, strncpy (cstr de.fileName) 32, dirIndex + 1)

end OreOS
