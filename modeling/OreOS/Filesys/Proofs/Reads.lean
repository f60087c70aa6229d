import OreOS.Filesys

/-!
# Lookups and reads in a well-formed image

The conditions on an image are separate predicates, since the callers of the file system rely on
different ones. A lookup reports an entry of the directory. A file is what its data blocks make up,
in the order in which the inode lists them, cut at the file size; `read_data` looks the block up for
every byte, and what it delivers is a slice of that file.
-/

namespace OreOS
open Machine

namespace Filesys

/-- The directory is not empty, fits the boot block, and names existing inodes. -/
structure DirectoryOk (fs : Filesys) : Prop where
  numDe_pos : 1 ≤ fs.numDe.toNat
  numDe_le : fs.numDe.toNat ≤ 63
  inodes : ∀ i < fs.numDe.toNat, (fs.dentryAt i).inodeNum.toNat < fs.n.toNat

/-- No file is longer than `m` bytes. -/
def SizesAtMost (fs : Filesys) (m : Nat) : Prop :=
  ∀ inode, inode.toNat < fs.n.toNat → (fs.inodeSize inode).toNat ≤ m

/-- The entry is an RTC, a directory or a regular file. -/
def KnownType (de : Dentry) : Prop := de.fileType = 0 ∨ de.fileType = 1 ∨ de.fileType = 2

/-- So are all entries of the directory. -/
def KnownTypes (fs : Filesys) : Prop := ∀ i < fs.numDe.toNat, KnownType (fs.dentryAt i)

end Filesys

open Filesys
variable {fs : Filesys}

/-- An entry that the search reports is one of those it looked at. -/
theorem findDentry_mem {fname : List UInt8} {n i : Nat} {de : Dentry}
    (h : findDentry fs fname n i = some de) :
    ∃ j, i ≤ j ∧ j < i + n ∧ de.fileType = (fs.dentryAt j).fileType ∧
      de.inodeNum = (fs.dentryAt j).inodeNum := by
  induction n generalizing i with
  | zero => cases h
  | succ n ih =>
    simp only [findDentry] at h
    split at h
    · cases h
      exact ⟨i, Nat.le_refl i, by omega, rfl, rfl⟩
    · obtain ⟨j, h1, h2, htype, hinode⟩ := ih h
      exact ⟨j, by omega, by omega, htype, hinode⟩

/-- A lookup in a well-formed directory returns; what it fills in is an entry of the directory,
    and the value is the length of its inode. -/
theorem readDentryByName_spec (hd : fs.DirectoryOk) (fname : List UInt8) :
    readDentryByName fs fname = some (-1, none) ∨
    ∃ de, readDentryByName fs fname = some ((fs.inodeSize de.inodeNum).toInt, some de) ∧
      de.inodeNum.toNat < fs.n.toNat ∧
      ∃ j < fs.numDe.toNat, de.fileType = (fs.dentryAt j).fileType := by
  unfold readDentryByName
  split
  · exact .inl rfl
  have hint : fs.numDe.toInt = fs.numDe.toNat := by
    have := hd.numDe_le
    exact BitVec.toInt_eq_toNat_of_lt (by omega)
  have hpos := hd.numDe_pos
  rw [if_neg (by omega)]
  cases hfind : findDentry fs fname fs.numDe.toNat 0 with
  | none => exact .inl rfl
  | some de =>
    obtain ⟨j, -, hj, htype, hinode⟩ := findDentry_mem hfind
    rw [Nat.zero_add] at hj
    exact .inr ⟨de, rfl, hinode ▸ hd.inodes j hj, j, hj, htype⟩

/-! ## Files as chains of data blocks -/

namespace Filesys
variable (fs : Filesys)

/-- The bytes of data block `b`. The boot block and the inodes stand before the first one. -/
def block (b : Nat) : List UInt8 :=
  slice (fun j => fs.mem (BitVec.ofNat 32 (4096 * (1 + fs.n.toNat + b) + j))) 0 4096

/-- The number of the `k`-th data block that an inode lists, behind its size. -/
def blockNumber (inode : Word) (k : Nat) : Nat :=
  (readWord fs.mem (BitVec.ofNat 32 (4096 * (1 + inode.toNat) + 4 * (1 + k)))).toNat

/-- The data blocks of a file, in the order of its inode. -/
def blocksOf (inode : Word) : List Nat :=
  slice (fs.blockNumber inode) 0 (((fs.inodeSize inode).toNat + 4095) / 4096)

/-- The file that the data blocks make up. -/
def fileOf (inode : Word) : List UInt8 :=
  ((fs.blocksOf inode).flatMap fs.block).take (fs.inodeSize inode).toNat

end Filesys

/-- The byte that `read_data` stores for position `k` of a file. -/
def Filesys.fileBytes (fs : Filesys) (inode : Word) (k : Nat) : UInt8 :=
  fs.dataByte inode (BitVec.ofNat 32 k)

theorem inodeBlock_ofNat (inode : Word) (k : Nat) :
    (fs.inodeBlock inode (BitVec.ofNat 32 k)).toNat = fs.blockNumber inode k := by
  rw [inodeBlock, blockNumber, inodeOff]
  congr 2
  apply BitVec.eq_of_toNat_eq
  simp only [BitVec.toNat_add, BitVec.toNat_mul, BitVec.toNat_ofNat]
  omega

/-- The byte that `read_data` finds is the one in the block. -/
theorem fileBytes_eq (inode : Word) {p : Nat} (hp : p < 2 ^ 32) :
    fs.fileBytes inode p =
      fs.mem (BitVec.ofNat 32 (4096 * (1 + fs.n.toNat + fs.blockNumber inode (p / 4096)) + p %
        4096)) := by
  have hconst : (4096#32).toNat = 4096 := rfl
  have hin : p % 2 ^ 32 = p := Nat.mod_eq_of_lt hp
  have hdiv : BitVec.ofNat 32 p / 4096#32 = BitVec.ofNat 32 (p / 4096) := by
    apply BitVec.eq_of_toNat_eq
    have hquot : p / 4096 % 2 ^ 32 = p / 4096 := Nat.mod_eq_of_lt (by omega)
    rw [BitVec.toNat_udiv, hconst, BitVec.toNat_ofNat, BitVec.toNat_ofNat, hin, hquot]
  have hmod : BitVec.ofNat 32 p % 4096#32 = BitVec.ofNat 32 (p % 4096) := by
    apply BitVec.eq_of_toNat_eq
    have hrem : p % 4096 % 2 ^ 32 = p % 4096 := Nat.mod_eq_of_lt (by omega)
    rw [BitVec.toNat_umod, hconst, BitVec.toNat_ofNat, BitVec.toNat_ofNat, hin, hrem]
  rw [fileBytes, dataByte, hdiv, hmod, ← inodeBlock_ofNat, dbOff]
  congr 1
  apply BitVec.eq_of_toNat_eq
  simp only [BitVec.toNat_add, BitVec.toNat_mul, BitVec.toNat_ofNat]
  omega

/-- Byte for byte the file is what `read_data` finds. -/
theorem fileOf_eq_slice (inode : Word) :
    fs.fileOf inode = slice (fs.fileBytes inode) 0 (fs.inodeSize inode).toNat := by
  have hsize := (fs.inodeSize inode).isLt
  have hblocks : (fs.blocksOf inode).flatMap fs.block =
      (slice id 0 (((fs.inodeSize inode).toNat + 4095) / 4096)).flatMap fun k =>
        slice (fun j => fs.mem (BitVec.ofNat 32
          (4096 * (1 + fs.n.toNat + fs.blockNumber inode k) + j))) 0 4096 := by
    simp only [blocksOf, block, slice, List.map_id, List.flatMap_map]
  rw [fileOf, hblocks, slice_flatMap _ (by decide), slice_take,
    show min (fs.inodeSize inode).toNat (((fs.inodeSize inode).toNat + 4095) / 4096 * 4096) =
      (fs.inodeSize inode).toNat by omega]
  apply slice_congr
  intro p _ hp
  rw [fileBytes_eq inode (by omega)]

@[simp] theorem fileOf_length (fs : Filesys) (inode : Word) :
    (fs.fileOf inode).length = (fs.inodeSize inode).toNat := by
  rw [fileOf_eq_slice, slice_length]

/-- The copy loop delivers the slice of the file from its offset, cut at the end of the file. -/
theorem copyLoop_eq (inode offset size : Word) (fuel : Nat) {i : Nat}
    (h : offset.toNat + i ≤ size.toNat) :
    copyLoop fs inode offset size fuel i =
      slice (fs.fileBytes inode) (offset.toNat + i)
        (min fuel (size.toNat - (offset.toNat + i))) := by
  have hsize := size.isLt
  induction fuel generalizing i with
  | zero => simp [copyLoop]
  | succ fuel ih =>
    -- neither the position nor the comparison with the size can wrap
    have hsum : (BitVec.ofNat 32 i + offset).toNat = offset.toNat + i := by
      rw [BitVec.toNat_add, BitVec.toNat_ofNat]
      omega
    unfold copyLoop
    by_cases hend : size ≤ BitVec.ofNat 32 i + offset
    · have hge := BitVec.le_def.mp hend
      rw [if_pos hend, show size.toNat - (offset.toNat + i) = 0 by omega]
      simp
    · have hlt := BitVec.lt_def.mp (BitVec.not_le.mp hend)
      have hbyte : fs.dataByte inode (offset + BitVec.ofNat 32 i) =
          fs.fileBytes inode (offset.toNat + i) := by
        unfold Filesys.fileBytes
        congr 1
        apply BitVec.eq_of_toNat_eq
        rw [BitVec.add_comm, hsum, BitVec.toNat_ofNat]
        omega
      rw [if_neg hend, hbyte, ih (i := i + 1) (by omega), ← Nat.add_assoc, ← slice_succ]
      congr 1
      omega

/-- `read_data` from an offset inside the file delivers the bytes there, as many as were asked
    for or as there are. -/
theorem readData_spec {inode offset length : Word} (h : inode.toNat < fs.n.toNat)
    (hoff : offset.toNat ≤ (fs.inodeSize inode).toNat) :
    readData fs inode offset length =
      (((((fs.fileOf inode).drop offset.toNat).take length.toNat).length : Int),
        ((fs.fileOf inode).drop offset.toNat).take length.toNat) := by
  have hn : ¬ fs.n ≤ inode := by
    rw [BitVec.le_def]
    omega
  have hcopy : copyLoop fs inode offset (fs.inodeSize inode) length.toNat 0 =
      ((fs.fileOf inode).drop offset.toNat).take length.toNat := by
    rw [copyLoop_eq inode offset _ length.toNat (by omega), Nat.add_zero, fileOf_eq_slice]
    exact (slice_drop_take _ _ _ _).symm
  simp only [readData, hn, if_false, hcopy]

end OreOS
