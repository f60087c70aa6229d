import OreOS.Filesys.Proofs.Listing

/-!
# Which entry a name finds

`read_dentry_by_name` compares 32 bytes. A name of at most 31 characters has its NUL among them, so
it matches a field exactly if the field holds this name, also where the field has no NUL of its own.
The loop ends at the first match.
-/

namespace OreOS
open Machine Filesys

namespace Filesys

/-- The directory is not empty and fits the boot block, its names are padded with NULs, and the
    files it lists are smaller than 2 GB. -/
structure DirectoryPadded (fs : Filesys) : Prop where
  numDe_pos : 1 ≤ fs.numDe.toNat
  numDe_le : fs.numDe.toNat ≤ 63
  padded : ∀ i < fs.numDe.toNat, (fs.dentryAt i).fileName = (fs.dentryAt i).field
  sizes : ∀ i < fs.numDe.toNat, (fs.inodeSize (fs.dentryAt i).inodeNum).toNat < 2 ^ 31

/-- Entry `i` is the first one with this name. -/
structure FirstNamed (fs : Filesys) (fname : List UInt8) (i : Nat) : Prop where
  inside : i < fs.numDe.toNat
  name : (fs.dentryAt i).name = fname
  first : ∀ j < i, (fs.dentryAt j).name ≠ fname

end Filesys

/-- What a lookup has to do with a name: report the first entry that has it, or fail. -/
structure LookupExact (fs : Filesys) (fname : List UInt8) : Prop where
  succeeds : (∃ value de, readDentryByName fs fname = some (value, de) ∧ value ≠ -1) ↔
    ∃ i < fs.numDe.toNat, (fs.dentryAt i).name = fname
  found : ∀ i, fs.FirstNamed fname i → readDentryByName fs fname =
    some (((fs.inodeSize (fs.dentryAt i).inodeNum).toNat : Int), some (fs.dentryAt i))
  missing : (∀ i < fs.numDe.toNat, (fs.dentryAt i).name ≠ fname) →
    readDentryByName fs fname = some (-1, none)

variable {fs : Filesys}

/-- The comparison with a field decides equality with its name. -/
theorem strncmp_field {de : Dentry} {fname : List UInt8} (hpad : de.fileName = de.field)
    (hlen : de.name.length ≤ 32) (hfname : 0 ∉ fname) (hshort : fname.length ≤ 32) :
    strncmp (cstr fname) (cstr de.fileName) 32 = 0 ↔ de.name = fname := by
  rw [hpad, Dentry.field, cstr_append_zeros,
    strncmp_eq_zero hfname (nul_not_mem_name de) hshort hlen]
  exact eq_comm

/-- The copy of a padded field is the field. -/
theorem strncpy_field {de : Dentry} (hpad : de.fileName = de.field) (hlen : de.name.length ≤ 32) :
    strncpy (cstr de.fileName) 32 = de.fileName := by
  rw [strncpy_eq de.fileName hlen]
  exact hpad.symm

theorem exists_firstNamed {fname : List UInt8}
    (h : ∃ i < fs.numDe.toNat, (fs.dentryAt i).name = fname) : ∃ i, fs.FirstNamed fname i := by
  classical
  obtain ⟨hin, hname⟩ := Nat.find_spec h
  exact ⟨Nat.find h, hin, hname, fun j hj hsame => Nat.find_min h hj ⟨hj.trans hin, hsame⟩⟩

section
variable (h : fs.DirectoryPadded) {fname : List UInt8} (hfname : 0 ∉ fname)
include h hfname

/-- The search passes the entries with other names and stops at the first match. -/
theorem findDentry_first (hshort : fname.length ≤ 32) {i : Nat} (hi : fs.FirstNamed fname i)
    {n j : Nat}
    (hj : j ≤ i) (hn : j + n = fs.numDe.toNat) :
    findDentry fs fname n j = some (fs.dentryAt i) := by
  induction n generalizing j with
  | zero =>
    have := hi.inside
    omega
  | succ n ih =>
    have hpad := h.padded j (by omega)
    have hlen := name_length_le fs j
    simp only [findDentry, strncmp_field hpad hlen hfname hshort]
    by_cases heq : j = i
    · subst heq
      rw [if_pos hi.name, strncpy_field hpad hlen]
    · rw [if_neg (hi.first j (by omega))]
      exact ih (by omega) (by omega)

theorem findDentry_missing (hshort : fname.length ≤ 32)
    (hnone : ∀ i < fs.numDe.toNat, (fs.dentryAt i).name ≠ fname) {n j : Nat}
    (hn : j + n = fs.numDe.toNat) : findDentry fs fname n j = none := by
  induction n generalizing j with
  | zero => rfl
  | succ n ih =>
    have hpad := h.padded j (by omega)
    simp only [findDentry, strncmp_field hpad (name_length_le fs j) hfname hshort]
    rw [if_neg (hnone j (by omega))]
    exact ih (by omega)

theorem lookupExact (hshort : fname.length ≤ 31) : LookupExact fs fname := by
  have hpos := h.numDe_pos
  have hint : fs.numDe.toInt = fs.numDe.toNat := by
    have := h.numDe_le
    exact BitVec.toInt_eq_toNat_of_lt (by omega)
  have hfound : ∀ i, fs.FirstNamed fname i → readDentryByName fs fname =
      some (((fs.inodeSize (fs.dentryAt i).inodeNum).toNat : Int), some (fs.dentryAt i)) := by
    intro i hi
    have hsize : (fs.inodeSize (fs.dentryAt i).inodeNum).toInt =
        (fs.inodeSize (fs.dentryAt i).inodeNum).toNat := by
      have := h.sizes i hi.inside
      exact BitVec.toInt_eq_toNat_of_lt (by omega)
    rw [readDentryByName, if_neg (by omega), if_neg (by omega),
      findDentry_first h hfname (by omega) hi (Nat.zero_le i) (Nat.zero_add _)]
    simp only [hsize]
  have hmissing : (∀ i < fs.numDe.toNat, (fs.dentryAt i).name ≠ fname) →
      readDentryByName fs fname = some (-1, none) := by
    intro hnone
    rw [readDentryByName, if_neg (by omega), if_neg (by omega),
      findDentry_missing h hfname (by omega) hnone (Nat.zero_add _)]
  refine ⟨⟨?_, ?_⟩, hfound, hmissing⟩
  · rintro ⟨value, de, hret, hvalue⟩
    by_contra hnone
    have hother : ∀ i < fs.numDe.toNat, (fs.dentryAt i).name ≠ fname :=
      fun i hi hsame => hnone ⟨i, hi, hsame⟩
    rw [hmissing hother] at hret
    cases hret
    exact hvalue rfl
  · intro hsome
    obtain ⟨i, hi⟩ := exists_firstNamed hsome
    exact ⟨_, _, hfound i hi, by omega⟩

end

/-- A name that fits the field with its NUL is found exactly if an entry has it; every
    longer one is refused. -/
theorem read_dentry_by_name_is_exact (fs : Filesys) (fname : List UInt8) (h : fs.DirectoryPadded)
    (hfname : 0 ∉ fname) :
    (fname.length ≤ 31 → LookupExact fs fname) ∧
      (31 < fname.length → readDentryByName fs fname = some (-1, none)) :=
  ⟨lookupExact h hfname, fun hlong => by rw [readDentryByName, if_pos hlong]⟩

/-- A directory with the two names `ab` and `abc`. -/
def abcMem (a : Word) : UInt8 :=
  if a = 0 then 2
  else if a = 4 ∨ a = 8 then 1
  else if a = 64 ∨ a = 128 then 97
  else if a = 65 ∨ a = 129 then 98
  else if a = 130 then 99
  else if a = 96 ∨ a = 160 then 2
  else 0

theorem directoryPadded_abc : (setFilesysMeta abcMem).DirectoryPadded where
  numDe_pos := by decide
  numDe_le := by decide
  padded := by decide
  sizes := by decide

/-- The longer of two names with a common start. -/
theorem abc_is_found_exactly :
    ([97, 98, 99].length ≤ 31 → LookupExact (setFilesysMeta abcMem) [97, 98, 99]) ∧
      (31 < [97, 98, 99].length →
        readDentryByName (setFilesysMeta abcMem) [97, 98, 99] = some (-1, none)) :=
  read_dentry_by_name_is_exact (setFilesysMeta abcMem) [97, 98, 99] directoryPadded_abc (by decide)

end OreOS
