import Mathlib.Algebra.BigOperators.Group.List.Basic
import OreOS.Filesys.Proofs.Reads
import OreOS.Machine.Trace
import OreOS.SysCall.Descriptors

/-!
# The descriptor table as a state machine

`CallLaw` says what a call may do to the present bits, what it returns, and that it leaves every
other present descriptor alone. `fileCall_law` proves it for one call from any table whose
present descriptors are usable (`TableOk`), and `descriptor_calls_obey_law` for every sequence of
calls.
-/

namespace OreOS
open Machine Filesys

/-- Descriptor `i` has its present bit set. -/
def Files.Present (s : Files) (i : Nat) : Prop := (s.pcb.fd i).present = true

/-- The lookup of `fname` succeeds. -/
def Found (fs : Filesys) (fname : List UInt8) : Prop :=
  ∃ r de, readDentryByName fs fname = some (r, de) ∧ r ≠ -1

/-- `fd` is the least of `2..7` whose present bit is clear. -/
structure LeastFree (s : Files) (fd : Nat) : Prop where
  two_le : 2 ≤ fd
  lt : fd < 8
  free : ¬ s.Present fd
  below : ∀ j, 2 ≤ j → j < fd → s.Present j

/-- All of `2..7` are in use. -/
def TableFull (s : Files) : Prop := ∀ i, 2 ≤ i → i < 8 → s.Present i

/-- `open` gives the least free descriptor, and fails exactly when there is none or the
name is not found. -/
def OpenLaw (fs : Filesys) (s : Files) (fname : List UInt8) (r : Ret) (t : Files) : Prop :=
  (Found fs fname → ∀ fd, LeastFree s fd →
    r.value = fd ∧ ∀ i < 8, t.Present i ↔ s.Present i ∨ i = fd) ∧
  ((r.value = -1 ∧ ∀ i < 8, t.Present i ↔ s.Present i) ↔ TableFull s ∨ ¬ Found fs fname)

/-- `close` frees a descriptor from 2 to 7 that is in use, and fails for all others. -/
def CloseLaw (s : Files) (fd : Word) (r : Ret) (t : Files) : Prop :=
  (r.value = 0 ↔ 2 ≤ fd.toNat ∧ fd.toNat ≤ 7 ∧ s.Present fd.toNat) ∧
  (r.value = 0 → ∀ i < 8, t.Present i ↔ s.Present i ∧ i ≠ fd.toNat)

/-- The descriptor a call is given, if it is given one. -/
def FileCall.target : FileCall → Option Nat
  | .open _ => none
  | .read fd _ _ => some fd.toNat
  | .write fd _ => some fd.toNat
  | .close fd => some fd.toNat

/-- What a call returns and which present bits it changes. -/
def ResultLaw (fs : Filesys) (s : Files) (r : Ret) (t : Files) : FileCall → Prop
  | .open fname => OpenLaw fs s fname r t
  | .close fd => CloseLaw s fd r t
  | .read fd _ _ => ¬ (fd.toNat ≤ 7 ∧ s.Present fd.toNat ∧ fd.toNat ≠ 1) → r.value = -1
  | .write fd _ => ¬ (fd.toNat ≤ 7 ∧ s.Present fd.toNat ∧ fd.toNat ≠ 0) → r.value = -1

/-- The law of one call; a present descriptor other than the call's own keeps all its fields. -/
structure CallLaw (fs : Filesys) (s : Files) (c : FileCall) (r : Ret) (t : Files) : Prop where
  result : ResultLaw fs s r t c
  frame : ∀ i < 8, s.Present i → c.target ≠ some i → t.pcb.fd i = s.pcb.fd i

/-- A descriptor that can be read through: its table is set, and a file's inode exists. -/
def Usable (fs : Filesys) (f : Fd) : Prop :=
  ∃ tbl, f.fotp = some tbl ∧ (tbl = .file → f.inode.toNat < fs.n.toNat)

/-- Every present descriptor is usable. -/
def TableOk (fs : Filesys) (s : Files) : Prop := ∀ i < 8, s.Present i → Usable fs (s.pcb.fd i)

section table
variable {fs : Filesys} {s : Files} {fd : Nat} {f : Fd}

theorem present_setFd (i : Nat) :
    (s.setFd fd f).Present i ↔ if i = fd then f.present = true else s.Present i := by
  unfold Files.Present Files.setFd
  by_cases h : i = fd
  · subst h
    simp
  · simp [setFd_fd_ne _ _ h, h]

theorem TableOk.setFd (hok : TableOk fs s) (hf : f.present = true → Usable fs f) :
    TableOk fs (s.setFd fd f) := by
  intro i hi hp
  by_cases h : i = fd
  · subst h
    rw [present_setFd, if_pos rfl] at hp
    simpa [Files.setFd] using hf hp
  · rw [present_setFd, if_neg h] at hp
    simpa [Files.setFd, setFd_fd_ne _ _ h] using hok i hi hp

theorem findFree_some {p : Pcb} {i n fd : Nat} (h : p.findFree i n = some fd) :
    i ≤ fd ∧ fd < i + n ∧ (p.fd fd).present = false ∧
      ∀ j, i ≤ j → j < fd → (p.fd j).present = true := by
  induction n generalizing i with
  | zero => cases h
  | succ n ih =>
    unfold Pcb.findFree at h
    split at h
    next hfree =>
      cases h
      exact ⟨Nat.le_refl _, by omega, hfree, fun j h1 h2 => by omega⟩
    next hbusy =>
      obtain ⟨h1, h2, h3, h4⟩ := ih h
      refine ⟨by omega, by omega, h3, fun j hj hlt => ?_⟩
      rcases Nat.eq_or_lt_of_le hj with rfl | hj
      · simpa using hbusy
      · exact h4 j hj hlt

theorem findFree_none {p : Pcb} {i n : Nat} (h : p.findFree i n = none) :
    ∀ j, i ≤ j → j < i + n → (p.fd j).present = true := by
  induction n generalizing i with
  | zero => intro j h1 h2; omega
  | succ n ih =>
    unfold Pcb.findFree at h
    split at h
    next => cases h
    next hbusy =>
      intro j h1 h2
      rcases Nat.eq_or_lt_of_le h1 with rfl | h1
      · simpa using hbusy
      · exact ih h j h1 (by omega)

theorem leastFree_of_freeFd (h : s.pcb.freeFd = some fd) : LeastFree s fd := by
  obtain ⟨h1, h2, h3, h4⟩ := findFree_some h
  exact ⟨h1, h2, by simp [Files.Present, h3], h4⟩

theorem tableFull_of_freeFd (h : s.pcb.freeFd = none) : TableFull s :=
  fun i h1 h2 => findFree_none h i h1 h2

theorem LeastFree.unique {fd' : Nat} (h : LeastFree s fd) (h' : LeastFree s fd') : fd = fd' := by
  rcases Nat.lt_trichotomy fd fd' with hlt | heq | hgt
  · exact absurd (h'.below fd h.two_le hlt) h.free
  · exact heq
  · exact absurd (h.below fd' h'.two_le hgt) h'.free

theorem LeastFree.not_full (h : LeastFree s fd) : ¬ TableFull s :=
  fun hfull => h.free (hfull fd h.two_le h.lt)

end table

/-! ## One call at a time -/

section calls
variable {fs : Filesys} {s : Files}

/-- The open function of a described entry succeeds when the entry's type is known and the second
    lookup of `file_open` cannot fail. -/
theorem fotpOpen_describe {fname : List UInt8} {de : Dentry} {r : Int} (f : Fd)
    (hlook : readDentryByName fs fname = some (r, some de)) (hr : 0 ≤ r)
    (hin : de.inodeNum.toNat < fs.n.toNat) (htype : KnownType de) :
    ∃ f', fotpOpen fs fname (describe de.fileType f) = some (0, f') ∧ f'.present = true ∧
      Usable fs f' := by
  have hneg : ¬ r < 0 := by omega
  rcases htype with h | h | h <;> rw [h]
  · exact ⟨_, rfl, by simp [describe, Fd.present], .rtc, rfl, by simp⟩
  · exact ⟨_, rfl, by simp [describe, Fd.present], .dir, rfl, by simp⟩
  · refine ⟨{ describe 2 f with inode := de.inodeNum }, ?_, by simp [describe, Fd.present], .file,
      rfl, fun _ => hin⟩
    simp [describe, fotpOpen, fileOpen, hlook, hneg]

/-- `sys_open` either leaves the table alone because no descriptor is free or the name is not
    found, or fills in the least free descriptor. -/
theorem sysOpen_spec (hd : fs.DirectoryOk) (hsizes : fs.SizesAtMost (2 ^ 31 - 1))
    (htypes : fs.KnownTypes) (fname : List UInt8) :
    (sysOpen fs fname s = some (.fail, s) ∧ (TableFull s ∨ ¬ Found fs fname)) ∨
    ∃ fd f, sysOpen fs fname s = some (⟨fd, []⟩, s.setFd fd f) ∧ LeastFree s fd ∧
      Found fs fname ∧ f.present = true ∧ Usable fs f := by
  unfold sysOpen
  cases hfree : s.pcb.freeFd with
  | none => exact .inl ⟨rfl, .inl (tableFull_of_freeFd hfree)⟩
  | some fd =>
    rcases readDentryByName_spec hd fname with hlook | ⟨de, hlook, hin, j, hj, htype⟩
    · refine .inl ⟨by simp [hlook], .inr ?_⟩
      rintro ⟨r, found, hfound, hr⟩
      rw [hlook] at hfound
      cases hfound
      exact hr rfl
    · have hle := hsizes de.inodeNum hin
      have hint : (fs.inodeSize de.inodeNum).toInt = (fs.inodeSize de.inodeNum).toNat :=
        BitVec.toInt_eq_toNat_of_lt (by omega)
      have hne : (fs.inodeSize de.inodeNum).toInt ≠ -1 := by omega
      have hknown : KnownType de := by
        unfold KnownType
        rw [htype]
        exact htypes j hj
      obtain ⟨f, hopen, hpres, huse⟩ := fotpOpen_describe (s.pcb.fd fd) hlook (by omega) hin hknown
      refine .inr ⟨fd, f, ?_, leastFree_of_freeFd hfree, ⟨_, _, hlook, hne⟩, hpres, huse⟩
      simp [hlook, hne, hopen]

theorem sysOpen_law (hd : fs.DirectoryOk) (hsizes : fs.SizesAtMost (2 ^ 31 - 1))
    (htypes : fs.KnownTypes) (hok : TableOk fs s) (fname : List UInt8) :
    ∃ r t, sysOpen fs fname s = some (r, t) ∧ CallLaw fs s (.open fname) r t ∧ TableOk fs t := by
  rcases sysOpen_spec (s := s) hd hsizes htypes fname with
    ⟨h, hwhy⟩ | ⟨fd, f, h, hleast, hfound, hpres, huse⟩
  · refine ⟨_, _, h, ⟨⟨?_, ?_⟩, fun _ _ _ _ => rfl⟩, hok⟩
    · intro hfound fd hleast
      rcases hwhy with hfull | hnot
      · exact absurd hfull hleast.not_full
      · exact absurd hfound hnot
    · exact ⟨fun _ => hwhy, fun _ => ⟨rfl, fun _ _ => Iff.rfl⟩⟩
  · refine ⟨_, _, h, ⟨⟨?_, ?_⟩, ?_⟩, hok.setFd fun _ => huse⟩
    · intro _ fd' hleast'
      rw [← hleast.unique hleast']
      refine ⟨rfl, ?_⟩
      intro i _
      rw [present_setFd]
      by_cases hi : i = fd <;> simp [hi, hpres]
    · constructor
      · rintro ⟨hneg, -⟩
        simp only at hneg
        omega
      · rintro (hfull | hnot)
        · exact absurd hfull hleast.not_full
        · exact absurd hfound hnot
    · intro i _ hp _
      have hne : i ≠ fd := fun heq => hleast.free (heq ▸ hp)
      simp [Files.setFd, setFd_fd_ne _ _ hne]

theorem sysClose_law (hok : TableOk fs s) (fd : Word) :
    CallLaw fs s (.close fd) (sysClose fd s).1 (sysClose fd s).2 ∧
    TableOk fs (sysClose fd s).2 := by
  have h2 : fd < 2 ↔ fd.toNat < 2 := Iff.rfl
  have h7 : 7 < fd ↔ 7 < fd.toNat := Iff.rfl
  have hfail : Ret.fail.value ≠ 0 := by decide
  unfold sysClose
  split
  next hrange =>
    rw [h2, h7] at hrange
    refine ⟨⟨⟨?_, fun h => absurd h hfail⟩, fun _ _ _ _ => rfl⟩, hok⟩
    exact ⟨fun h => absurd h hfail, fun h => absurd h (by omega)⟩
  next hrange =>
    rw [h2, h7] at hrange
    split
    next habs =>
      refine ⟨⟨⟨?_, fun h => absurd h hfail⟩, fun _ _ _ _ => rfl⟩, hok⟩
      exact ⟨fun h => absurd h hfail, fun h => absurd (habs.symm.trans h.2.2) (by simp)⟩
    next hpres =>
      have hp : s.Present fd.toNat := by simpa [Files.Present] using hpres
      refine ⟨⟨⟨⟨fun _ => ⟨by omega, by omega, hp⟩, fun _ => rfl⟩, fun _ i _ => ?_⟩,
        fun i _ _ harg => ?_⟩, hok.setFd fun h => ?_⟩
      · rw [present_setFd]
        by_cases hi : i = fd.toNat <;> simp [hi, Fd.present]
      · have hne : i ≠ fd.toNat := fun heq => harg (by rw [heq]; rfl)
        simp [Files.setFd, setFd_fd_ne _ _ hne]
      · simp [Fd.present] at h

/-- At most the position of descriptor `fd` differs. -/
structure OnlyPosition (s : Files) (fd : Nat) (t : Files) : Prop where
  others : ∀ i, i ≠ fd → t.pcb.fd i = s.pcb.fd i
  own : t.pcb.fd fd = { s.pcb.fd fd with fp := (t.pcb.fd fd).fp }

theorem OnlyPosition.refl (s : Files) (fd : Nat) : OnlyPosition s fd s := ⟨fun _ _ => rfl, rfl⟩

theorem OnlyPosition.present {t : Files} {fd : Nat} (h : OnlyPosition s fd t) (i : Nat) :
    t.Present i ↔ s.Present i := by
  unfold Files.Present
  by_cases hi : i = fd
  · subst hi
    rw [h.own]
    exact Iff.rfl
  · rw [h.others i hi]

theorem OnlyPosition.tableOk {t : Files} {fd : Nat} (h : OnlyPosition s fd t)
    (hok : TableOk fs s) : TableOk fs t := by
  intro i hi hp
  have huse := hok i hi ((h.present i).mp hp)
  by_cases heq : i = fd
  · subst heq
    rw [h.own]
    exact huse
  · rw [h.others i heq]
    exact huse

/-- `sys_read` refuses a descriptor that is absent, out of range or 1, and otherwise moves at most
    the position of its own descriptor. -/
theorem sysRead_spec (hok : TableOk fs s) (fd nbytes : Word) (term : Ret) :
    ∃ r t, sysRead fs fd nbytes term s = some (r, t) ∧ OnlyPosition s fd.toNat t ∧
      (¬ (fd.toNat ≤ 7 ∧ s.Present fd.toNat ∧ fd.toNat ≠ 1) → r = .fail) := by
  have h7 : 7 < fd ↔ 7 < fd.toNat := Iff.rfl
  have h1 : fd = 1 ↔ fd.toNat = 1 := ⟨fun h => h ▸ rfl, fun h => BitVec.eq_of_toNat_eq h⟩
  unfold sysRead
  split
  next => exact ⟨_, _, rfl, .refl _ _, fun _ => rfl⟩
  next hrange =>
    rw [h7, h1] at hrange
    split
    next => exact ⟨_, _, rfl, .refl _ _, fun _ => rfl⟩
    next habs =>
      have hp : s.Present fd.toNat := by simpa [Files.Present] using habs
      have hin : fd.toNat ≤ 7 ∧ s.Present fd.toNat ∧ fd.toNat ≠ 1 := ⟨by omega, hp, by omega⟩
      obtain ⟨tbl, htbl, -⟩ := hok fd.toNat (by omega) hp
      rw [htbl]
      cases tbl with
      | terminal => exact ⟨_, _, rfl, .refl _ _, fun h => absurd hin h⟩
      | dir => exact ⟨_, _, rfl, ⟨fun _ _ => rfl, rfl⟩, fun h => absurd hin h⟩
      | rtc => exact ⟨_, _, rfl, .refl _ _, fun h => absurd hin h⟩
      | file =>
        refine ⟨_, _, rfl, ⟨fun i hi => setFd_fd_ne _ _ hi, ?_⟩, fun h => absurd hin h⟩
        simp [Files.setFd]

/-- `sys_write` refuses a descriptor that is absent, out of range or 0, and never
    changes the table. -/
theorem sysWrite_spec (hok : TableOk fs s) (fd nbytes : Word) :
    ∃ r, sysWrite fd nbytes s = some (r, s) ∧
      (¬ (fd.toNat ≤ 7 ∧ s.Present fd.toNat ∧ fd.toNat ≠ 0) → r = .fail) := by
  have h7 : 7 < fd ↔ 7 < fd.toNat := Iff.rfl
  have h0 : fd = 0 ↔ fd.toNat = 0 := ⟨fun h => h ▸ rfl, fun h => BitVec.eq_of_toNat_eq h⟩
  unfold sysWrite
  split
  next => exact ⟨_, rfl, fun _ => rfl⟩
  next hrange =>
    rw [h7, h0] at hrange
    split
    next => exact ⟨_, rfl, fun _ => rfl⟩
    next habs =>
      have hp : s.Present fd.toNat := by simpa [Files.Present] using habs
      have hin : fd.toNat ≤ 7 ∧ s.Present fd.toNat ∧ fd.toNat ≠ 0 := ⟨by omega, hp, by omega⟩
      obtain ⟨tbl, htbl, -⟩ := hok fd.toNat (by omega) hp
      rw [htbl]
      cases tbl <;> exact ⟨_, rfl, fun h => absurd hin h⟩

/-- Every call is defined, obeys the law, and keeps the table usable. -/
theorem fileCall_law (hd : fs.DirectoryOk) (hsizes : fs.SizesAtMost (2 ^ 31 - 1))
    (htypes : fs.KnownTypes) (hok : TableOk fs s) (c : FileCall) :
    ∃ r t, fileCall fs s c = some (r, t) ∧ CallLaw fs s c r t ∧ TableOk fs t := by
  cases c with
  | «open» fname => exact sysOpen_law hd hsizes htypes hok fname
  | close fd => exact ⟨_, _, rfl, sysClose_law hok fd⟩
  | read fd nbytes term =>
    obtain ⟨r, t, hread, hpos, hfail⟩ := sysRead_spec hok fd nbytes term
    refine ⟨r, t, hread, ⟨fun h => by rw [hfail h]; rfl, fun i _ _ harg => ?_⟩, hpos.tableOk hok⟩
    exact hpos.others i fun heq => harg (by rw [heq]; rfl)
  | write fd nbytes =>
    obtain ⟨r, hwrite, hfail⟩ := sysWrite_spec hok fd nbytes
    exact ⟨r, s, hwrite, ⟨fun h => by rw [hfail h]; rfl, fun _ _ _ _ => rfl⟩, hok⟩

end calls

/-- The table that `execute` leaves: 0 and 1 are the terminal, nothing else is present. -/
structure FreshTable (s : Files) : Prop where
  present : ∀ i < 8, s.Present i ↔ i < 2
  terminal : ∀ i < 2, (s.pcb.fd i).fotp = some .terminal

theorem FreshTable.tableOk {fs : Filesys} {s : Files} (h : FreshTable s) : TableOk fs s := by
  intro i hi hp
  exact ⟨.terminal, h.terminal i ((h.present i hi).mp hp), by simp⟩

/-- From a fresh table, every call of every sequence is defined and obeys `CallLaw`. -/
theorem descriptor_calls_obey_law {fs : Filesys} {s : Files} (hd : fs.DirectoryOk)
    (hsizes : fs.SizesAtMost (2 ^ 31 - 1)) (htypes : fs.KnownTypes) (hs : FreshTable s)
    (cs : List FileCall) :
    Runs (fileStep fs) (fun s c t => ∃ r, fileCall fs s c = some (r, t) ∧ CallLaw fs s c r t)
      s cs := by
  have hstep : ∀ u c, TableOk fs u → ∃ t, fileStep fs u c = some t ∧
      (∃ r, fileCall fs u c = some (r, t) ∧ CallLaw fs u c r t) ∧ TableOk fs t := by
    intro u c hok
    obtain ⟨r, t, hcall, hlaw, hok'⟩ := fileCall_law hd hsizes htypes hok c
    exact ⟨t, by simp [fileStep, hcall], ⟨r, hcall, hlaw⟩, hok'⟩
  exact runs_of_inv hstep cs hs.tableOk

/-- A one-file image: the regular file `a` with the three bytes `xyz` in data block 0. -/
def sampleMem (a : Word) : UInt8 :=
  if a = 0 ∨ a = 4 ∨ a = 8 then 1
  else if a = 64 then 97
  else if a = 96 then 2
  else if a = 4096 then 3
  else if a = 8192 then 120
  else if a = 8193 then 121
  else if a = 8194 then 122
  else 0

/-- The file system over this memory. -/
def sampleFs : Filesys := setFilesysMeta sampleMem

theorem sampleFs_directoryOk : sampleFs.DirectoryOk := ⟨by decide, by decide, by decide⟩

theorem sampleFs_sizes : sampleFs.SizesAtMost 3 := by
  intro inode h
  have hn : sampleFs.n.toNat = 1 := by decide
  have hz : inode = 0 := BitVec.eq_of_toNat_eq (by rw [hn] at h; simp; omega)
  subst hz
  decide

theorem sampleFs_knownTypes : sampleFs.KnownTypes := by
  unfold KnownTypes KnownType
  decide

/-- The table of a process that has just been started. -/
def freshFiles : Files where
  pcb :=
    { fd := fun i => if i < 2 then ⟨some .terminal, 0, 0, 7⟩ else ⟨none, 0, 0, 0⟩
      oldPcb := 0
      kstack := 0
      oldEbp := 0
      procId := 1 }
  dirIndex := 0

theorem freshFiles_fresh : FreshTable freshFiles := by
  constructor
  · unfold Files.Present
    decide
  · decide

theorem descriptor_calls_obey_law_sample :
    FreshTable freshFiles ∧
    Runs (fileStep sampleFs)
      (fun s c t => ∃ r, fileCall sampleFs s c = some (r, t) ∧ CallLaw sampleFs s c r t)
      freshFiles [.open [97], .read 2 2 ⟨0, []⟩, .close 2, .close 2] :=
  ⟨freshFiles_fresh, descriptor_calls_obey_law sampleFs_directoryOk
    (fun inode h => Nat.le_trans (sampleFs_sizes inode h) (by decide)) sampleFs_knownTypes
    freshFiles_fresh _⟩

end OreOS
