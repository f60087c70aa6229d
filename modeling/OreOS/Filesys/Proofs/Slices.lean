import OreOS.Filesys.Proofs.Reads

/-!
# Slices of a file

What `read_data` returns and stores for every inode number, offset and length, those behind the end
of the file included.
-/

namespace OreOS
open Machine Filesys

/-- The buffer after a read that found it as `buf`. -/
def filled (r : Int × List UInt8) (buf : Nat → UInt8) (i : Nat) : UInt8 := r.2.getD i (buf i)

section
variable {fs : Filesys}

/-- A read that starts behind the end of the file. -/
theorem readData_behind {inode offset : Word} (length : Word) (h : inode < fs.n)
    (hoff : fs.inodeSize inode ≤ offset) : readData fs inode offset length = (0, []) := by
  have hcopy : copyLoop fs inode offset (fs.inodeSize inode) length.toNat 0 = [] := by
    cases length.toNat with
    | zero => rfl
    | succ fuel =>
      rw [copyLoop, if_pos (by simpa using hoff)]
  rw [readData, if_neg (BitVec.not_le.mpr h)]
  simp only [hcopy]
  rfl

/-- What a read of an inode delivers. -/
theorem readData_eq {inode : Word} (offset length : Word) (h : inode < fs.n) :
    (readData fs inode offset length).1 =
        (min length.toNat ((fs.inodeSize inode).toNat - offset.toNat) : Nat) ∧
      (readData fs inode offset length).2 =
        ((fs.fileOf inode).drop offset.toNat).take length.toNat := by
  have hlen := fileOf_length fs inode
  by_cases hoff : fs.inodeSize inode ≤ offset
  · have hle := BitVec.le_def.mp hoff
    rw [readData_behind length h hoff, List.drop_eq_nil_of_le (by omega), List.take_nil]
    refine ⟨?_, rfl⟩
    rw [show (fs.inodeSize inode).toNat - offset.toNat = 0 by omega, Nat.min_zero]
    rfl
  · have hlt := BitVec.lt_def.mp (BitVec.not_le.mp hoff)
    rw [readData_spec (BitVec.lt_def.mp h) (by omega), List.length_take,
      List.length_drop, hlen]
    exact ⟨rfl, rfl⟩

theorem filled_slice (value : Int) (file : List UInt8) (offset n : Nat) (buf : Nat → UInt8)
    (i : Nat) :
    filled (value, (file.drop offset).take n) buf i =
      if i < min n (file.length - offset) then file.getD (offset + i) (buf i) else buf i := by
  rw [filled, List.getD_eq_getElem?_getD, List.getD_eq_getElem?_getD, List.getElem?_take,
    List.getElem?_drop]
  by_cases hn : i < n
  · rw [if_pos hn]
    by_cases hlen : i < file.length - offset
    · rw [if_pos (by omega)]
    · rw [if_neg (by omega), List.getElem?_eq_none (by omega)]
      rfl
  · rw [if_neg hn, if_neg (by omega)]
    rfl

end

/-- `read_data` refuses exactly the numbers that are no inode's, and fills the start of the buffer
    with the part of the file that was asked for. -/
theorem read_data_returns_the_slice_of_the_file (fs : Filesys) (inode offset length : Word)
    (buf : Nat → UInt8) :
    ((readData fs inode offset length).1 = -1 ↔ fs.n ≤ inode) ∧
    (fs.n ≤ inode → filled (readData fs inode offset length) buf = buf) ∧
    (inode < fs.n → ∃ r : Nat, r = min length.toNat ((fs.inodeSize inode).toNat - offset.toNat) ∧
      (readData fs inode offset length).1 = r ∧
      ∀ i, filled (readData fs inode offset length) buf i =
        if i < r then (fs.fileOf inode).getD (offset.toNat + i) (buf i) else buf i) := by
  by_cases h : fs.n ≤ inode
  · have hret : readData fs inode offset length = (-1, []) := by rw [readData, if_pos h]
    rw [hret]
    exact ⟨iff_of_true rfl h, fun _ => rfl, fun hlt => absurd h (BitVec.not_le.mpr hlt)⟩
  · have hin := BitVec.not_le.mp h
    obtain ⟨hvalue, hdata⟩ := readData_eq offset length hin
    refine ⟨iff_of_false ?_ h, fun hle => absurd hle h, fun _ => ⟨_, rfl, hvalue, ?_⟩⟩
    · rw [hvalue]
      omega
    · intro i
      have hret : readData fs inode offset length =
          ((readData fs inode offset length).1, (readData fs inode offset length).2) := rfl
      rw [hret, hdata, filled_slice, fileOf_length]

end OreOS
