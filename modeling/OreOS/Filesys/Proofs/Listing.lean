import OreOS.Filesys.Proofs.Reads

/-!
# Opening what is listed

`dir_read` delivers the whole 32-byte field of a name, and a program that lists the directory adds
the terminating NUL itself. `read_dentry_by_name` refuses every name of more than 31 characters
(`filesys.c:49-51`; the comment above the test says 32), so a name that fills its field can be
listed and cannot be looked up.
-/

namespace OreOS
open Machine

/-- The name of a directory entry: its field up to the padding. -/
def Dentry.name (de : Dentry) : List UInt8 := cstring de.fileName

/-- The name in a field of 32 bytes. -/
def Dentry.field (de : Dentry) : List UInt8 :=
  de.name ++ List.replicate (32 - de.name.length) 0

namespace Filesys

/-- The names of the directory are non-empty, distinct and padded with NULs. -/
structure NamesOk (fs : Filesys) : Prop where
  numDe_pos : 1 ≤ fs.numDe.toNat
  numDe_le : fs.numDe.toNat ≤ 63
  nonempty : ∀ i < fs.numDe.toNat, (fs.dentryAt i).name ≠ []
  padded : ∀ i < fs.numDe.toNat, (fs.dentryAt i).fileName = (fs.dentryAt i).field
  distinct : ∀ i < fs.numDe.toNat, ∀ j < fs.numDe.toNat,
    (fs.dentryAt i).name = (fs.dentryAt j).name → i = j

/-- The string that a program makes of the bytes of entry `i` by storing a NUL after the 32nd. -/
def listedName (fs : Filesys) (i : Nat) : List UInt8 :=
  cstring ((dirRead fs (BitVec.ofNat 32 i)).2.1 ++ [0])

/-- The listed name of entry `i` is found, with the type and the inode number of the entry. -/
def OpensListed (fs : Filesys) (i : Nat) : Prop :=
  ∃ r de, readDentryByName fs (fs.listedName i) = some (r, some de) ∧
    de.fileType = (fs.dentryAt i).fileType ∧ de.inodeNum = (fs.dentryAt i).inodeNum

end Filesys

open Filesys
variable {fs : Filesys}

theorem nul_not_mem_name (de : Dentry) : 0 ∉ de.name := nul_not_mem_cstring de.fileName

theorem name_length_le (fs : Filesys) (i : Nat) : (fs.dentryAt i).name.length ≤ 32 := by
  have hle := (List.takeWhile_prefix (· != 0) (l := (fs.dentryAt i).fileName)).length_le
  have hlen : (fs.dentryAt i).fileName.length = 32 := by simp [Filesys.dentryAt]
  rw [hlen] at hle
  exact hle

/-- Inside the directory, `dir_read` delivers the next name and moves on. -/
theorem dirRead_lt {pos : Word} (h : pos.toNat < fs.numDe.toNat) :
    dirRead fs pos = (32, (fs.dentryAt pos.toNat).field, pos + 1) := by
  have hin : ¬ fs.numDe ≤ pos := by
    rw [BitVec.le_def]
    omega
  have hread : readDentryByIndex fs pos = (0, some (fs.dentryAt pos.toNat)) := by
    rw [readDentryByIndex, if_neg hin]
  have hcopy := strncpy_eq (fs.dentryAt pos.toNat).fileName (name_length_le fs pos.toNat)
  simp only [dirRead, hread, hcopy]
  rfl

/-- At the end it delivers nothing and starts over. -/
theorem dirRead_ge {pos : Word} (h : fs.numDe.toNat ≤ pos.toNat) : dirRead fs pos = (0, [], 0) := by
  have hread : readDentryByIndex fs pos = (-1, none) := by
    rw [readDentryByIndex, if_pos (BitVec.le_def.mpr h)]
  simp only [dirRead, hread]

theorem listedName_eq (h : fs.NamesOk) {i : Nat} (hi : i < fs.numDe.toNat) :
    fs.listedName i = (fs.dentryAt i).name := by
  have hle := h.numDe_le
  have hnum : (BitVec.ofNat 32 i).toNat = i := by
    rw [BitVec.toNat_ofNat]
    omega
  rw [Filesys.listedName, dirRead_lt (by omega), hnum, Dentry.field, List.append_assoc,
    ← List.replicate_succ', List.replicate_succ]
  exact cstring_append_nul (nul_not_mem_name _) _

/-- A name that is looked up matches the entry it belongs to and no other. -/
theorem strncmp_name (h : fs.NamesOk) {i j : Nat} (hi : i < fs.numDe.toNat)
    (hj : j < fs.numDe.toNat) :
    strncmp (cstr (fs.dentryAt i).name) (cstr (fs.dentryAt j).fileName) 32 = 0 ↔ i = j := by
  rw [h.padded j hj, Dentry.field, cstr_append_zeros, strncmp_eq_zero (nul_not_mem_name _)
    (nul_not_mem_name _) (name_length_le fs i) (name_length_le fs j)]
  constructor
  · exact h.distinct i hi j hj
  · rintro rfl
    rfl

/-- The search reaches entry `i` from any entry before it. -/
theorem findDentry_name (h : fs.NamesOk) {i : Nat} (hi : i < fs.numDe.toNat) {n j : Nat}
    (hj : j ≤ i) (hn : j + n = fs.numDe.toNat) :
    ∃ de, findDentry fs (fs.dentryAt i).name n j = some de ∧
      de.fileType = (fs.dentryAt i).fileType ∧ de.inodeNum = (fs.dentryAt i).inodeNum := by
  induction n generalizing j with
  | zero => omega
  | succ n ih =>
    simp only [findDentry]
    by_cases heq : i = j
    · subst heq
      rw [if_pos ((strncmp_name h hi hi).mpr rfl)]
      exact ⟨_, rfl, rfl, rfl⟩
    · rw [if_neg (fun hzero => heq ((strncmp_name h hi (by omega)).mp hzero))]
      exact ih (by omega) (by omega)

/-- A listed entry can be opened exactly when its name leaves room for a NUL in the field. -/
theorem opensListed_iff (h : fs.NamesOk) {i : Nat} (hi : i < fs.numDe.toNat) :
    fs.OpensListed i ↔ (fs.dentryAt i).name.length ≤ 31 := by
  have hpos := h.numDe_pos
  have hint : fs.numDe.toInt = fs.numDe.toNat := by
    have := h.numDe_le
    exact BitVec.toInt_eq_toNat_of_lt (by omega)
  unfold Filesys.OpensListed
  rw [listedName_eq h hi, readDentryByName]
  constructor
  · rintro ⟨r, de, hfound, -⟩
    by_contra hlong
    rw [if_pos (by omega)] at hfound
    cases hfound
  · intro hshort
    obtain ⟨de, hfind, htype, hinode⟩ := findDentry_name h hi (Nat.zero_le i) (Nat.zero_add _)
    rw [if_neg (by omega), if_neg (by omega), hfind]
    exact ⟨_, de, rfl, htype, hinode⟩

/-- An image with two empty files. The first is called `a`, the name of the second is
    `verylargetxtwithverylongname.txt` and fills its field. -/
def longNameMem (a : Word) : UInt8 :=
  let fname : List UInt8 := [118, 101, 114, 121, 108, 97, 114, 103, 101, 116, 120, 116,
    119, 105, 116, 104, 118, 101, 114, 121, 108, 111, 110, 103, 110, 97, 109, 101, 46,
    116, 120, 116]
  if a = 0 then 2
  else if a = 4 ∨ a = 8 then 1
  else if a = 64 then 97
  else if a = 96 ∨ a = 160 then 2
  else if 128 ≤ a ∧ a < 160 then fname.getD (a - 128).toNat 0
  else 0

/-- The file system over this memory. -/
def longNameFs : Filesys := setFilesysMeta longNameMem

theorem longNameFs_namesOk : longNameFs.NamesOk := by
  refine ⟨by decide, by decide, ?_, ?_, ?_⟩
  · decide
  · decide
  · decide

theorem opensListed_iff_short :
    longNameFs.NamesOk ∧ 0 < longNameFs.numDe.toNat ∧
      (longNameFs.OpensListed 0 ↔ (longNameFs.dentryAt 0).name.length ≤ 31) :=
  ⟨longNameFs_namesOk, by decide, opensListed_iff longNameFs_namesOk (by decide)⟩

/-- The second file is listed and cannot be opened. -/
theorem long_name_not_opened :
    ¬ ∀ fs : Filesys, fs.NamesOk → ∀ i < fs.numDe.toNat, fs.OpensListed i := by
  intro hall
  obtain ⟨r, de, hfound, -⟩ := hall longNameFs longNameFs_namesOk 1 (by decide)
  have hrefused : readDentryByName longNameFs (longNameFs.listedName 1) = some (-1, none) := by
    decide
  rw [hrefused] at hfound
  cases hfound

end OreOS
