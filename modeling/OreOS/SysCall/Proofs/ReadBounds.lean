import OreOS.Filesys.Proofs.Listing
import OreOS.Keyboard.Proofs.Steps
import OreOS.Machine.Trace
import OreOS.SysCall.Proofs.DescriptorLaws

/-!
# The caller's buffer

`sys_read` passes the size of the caller's buffer on to the device. The file read counts up to it.
`dir_read` always stores a field of 32 bytes, and `clear_buffer` copies the line buffer up to its
NUL. So a read of a directory or of the terminal stays inside the buffer exactly if what is there
to read happens to fit.
-/

namespace OreOS
open Machine Keyboard

/-- The caller's buffer after a call that found it as `before`. -/
def Ret.stored (r : Ret) (before : Nat → UInt8) (i : Nat) : UInt8 := r.data.getD i (before i)

/-- The result is -1 or a count of at most `nbytes`, and no byte from `nbytes` on is changed. -/
structure WithinBuffer (nbytes : Word) (r : Ret) : Prop where
  value : r.value = -1 ∨ (0 ≤ r.value ∧ r.value ≤ nbytes.toNat)
  kept : ∀ before i, nbytes.toNat ≤ i → r.stored before i = before i

/-- The read of `fd` gets as far as `read_terminal`. -/
def Files.AsksTerminal (s : Files) (fd : Word) : Prop :=
  ¬ (7 < fd ∨ fd = 1) ∧ (s.pcb.fd fd.toNat).present = true ∧
    (s.pcb.fd fd.toNat).fotp = some .terminal

instance (s : Files) (fd : Word) : Decidable (s.AsksTerminal fd) :=
  inferInstanceAs (Decidable (_ ∧ _))

/-- `sys_read` with the terminal behind it. `k` is the keyboard as `read_terminal` finds it after
    its loop, should it be called. -/
def sysReadWith (fs : Filesys) (k : Keyboard) (fd nbytes : Word) (s : Files) :
    Option (Ret × Files × Keyboard) :=
  if s.AsksTerminal fd then do
    let (value, data, k) ← k.readDone nbytes.toInt
    let (r, s) ← sysRead fs fd nbytes ⟨value, data⟩ s
    return (r, s, k)
  else do
    let (r, s) ← sysRead fs fd nbytes .fail s
    return (r, s, k)

/-- The call returns and stays within the caller's buffer. -/
def ReadsWithin (fs : Filesys) (k : Keyboard) (fd nbytes : Word) (s : Files) : Prop :=
  ∃ r out, sysReadWith fs k fd nbytes s = some (r, out) ∧ WithinBuffer nbytes r

/-- The active terminal's row has a NUL among its first `nbytes` bytes, the length noted for it is
    within `nbytes`, and `nbytes` blanks from its start on are inside `buf`. -/
structure LineFits (k : Keyboard) (nbytes : Word) : Prop where
  nul : ∃ i < nbytes.toNat, offset k.active i < bufBytes ∧ k.row k.active i = 0
  length : (k.indEntered k.active).toInt = -1 ∨
    (0 ≤ (k.indEntered k.active).toInt ∧ (k.indEntered k.active).toInt ≤ nbytes.toNat)
  blanks : (offset k.active 0 : Int) + nbytes.toInt ≤ bufBytes

/-- When a read through `fd`, whose table is `tbl`, fits the buffer. -/
def ReadFits (fs : Filesys) (k : Keyboard) (fd nbytes : Word) (s : Files) : Fotp → Prop
  | .file => True
  | .rtc => True
  | .dir => fd = 1 ∨ 32 ≤ nbytes.toNat ∨ fs.numDe.toNat ≤ s.dirIndex.toNat
  | .terminal => fd = 1 ∨ LineFits k nbytes

/-! ## Results -/

/-- A call leaves the bytes from `n` on alone exactly if it stores at most `n`. -/
theorem kept_iff_length_le {r : Ret} {n : Nat} :
    (∀ before i, n ≤ i → r.stored before i = before i) ↔ r.data.length ≤ n := by
  constructor
  · intro hkept
    by_contra hlong
    have hin : n < r.data.length := by omega
    -- a buffer that differs from the byte stored at `n`
    have hsame := hkept (fun _ => r.data[n] + 1) n (Nat.le_refl n)
    rw [Ret.stored, List.getD_eq_getElem _ _ hin] at hsame
    simp at hsame
  · intro hle before i hi
    exact List.getD_eq_default _ _ (by omega)

theorem withinBuffer_iff {nbytes : Word} {r : Ret} :
    WithinBuffer nbytes r ↔
      (r.value = -1 ∨ (0 ≤ r.value ∧ r.value ≤ nbytes.toNat)) ∧ r.data.length ≤ nbytes.toNat :=
  ⟨fun h => ⟨h.value, kept_iff_length_le.mp h.kept⟩, fun h => ⟨h.1, kept_iff_length_le.mpr h.2⟩⟩

theorem withinBuffer_fail (nbytes : Word) : WithinBuffer nbytes .fail :=
  withinBuffer_iff.mpr ⟨.inl rfl, Nat.zero_le _⟩

section devices
variable {fs : Filesys}

theorem copyLoop_length_le (fs : Filesys) (inode offset size : Word) (fuel i : Nat) :
    (copyLoop fs inode offset size fuel i).length ≤ fuel := by
  induction fuel generalizing i with
  | zero => exact Nat.le_refl 0
  | succ fuel ih =>
    unfold copyLoop
    split
    · exact Nat.zero_le _
    · exact Nat.succ_le_succ (ih (i + 1))

/-- A file read is within the buffer from any position of any inode. -/
theorem readData_within (inode offset nbytes : Word) :
    WithinBuffer nbytes ⟨(readData fs inode offset nbytes).1,
      (readData fs inode offset nbytes).2⟩ := by
  unfold readData
  split
  · exact withinBuffer_fail nbytes
  · have hle := copyLoop_length_le fs inode offset (fs.inodeSize inode) nbytes.toNat 0
    exact withinBuffer_iff.mpr ⟨.inr ⟨Int.natCast_nonneg _, Int.ofNat_le.mpr hle⟩, hle⟩

theorem field_length (fs : Filesys) (i : Nat) : (fs.dentryAt i).field.length = 32 := by
  have := name_length_le fs i
  simp only [Dentry.field, List.length_append, List.length_replicate]
  omega

/-- A directory read stores 32 bytes, or none at the end of the directory. -/
theorem fncDirRead_within_iff (nbytes : Word) (s : Files) :
    WithinBuffer nbytes (fncDirRead fs s).1 ↔
      32 ≤ nbytes.toNat ∨ fs.numDe.toNat ≤ s.dirIndex.toNat := by
  rw [withinBuffer_iff]
  unfold fncDirRead
  by_cases hend : fs.numDe.toNat ≤ s.dirIndex.toNat
  · rw [dirRead_ge hend]
    simp [hend]
  · rw [dirRead_lt (by omega)]
    simp only [field_length, hend, or_false]
    omega

/-- A terminal read stays within the buffer exactly if the line fits. -/
theorem readDone_within_iff (k : Keyboard) (nbytes : Word) :
    (∃ value data k', k.readDone nbytes.toInt = some (value, data, k') ∧
      WithinBuffer nbytes ⟨value, data⟩) ↔ LineFits k nbytes := by
  simp only [Keyboard.readDone, Option.bind_eq_bind, Option.bind_eq_some_iff, withinBuffer_iff]
  constructor
  · rintro ⟨value, data, k', ⟨⟨d, m⟩, hclear, heq⟩, hvalue, hlen⟩
    obtain ⟨hcopy, hfit, hm⟩ := clearBuffer_eq_some_iff.mp hclear
    cases heq
    subst hm
    obtain ⟨m, hm, -, hnul, hdata⟩ := strcpy_eq_some_iff.mp hcopy
    have hin : m < nbytes.toNat := by
      rw [hdata, slice_length] at hlen
      omega
    refine ⟨⟨m, hin, ?_, hnul⟩, hvalue, hfit⟩
    unfold offset at hm ⊢
    omega
  · rintro ⟨⟨i, hi, hin, hnul⟩, hvalue, hfit⟩
    have hlt : i < bufBytes - offset k.active 0 := by
      unfold offset at hin ⊢
      omega
    obtain ⟨data, hcopy⟩ := strcpy_isSome hlt hnul
    have hclear := clearBuffer_eq_some_iff.mpr ⟨hcopy, hfit, rfl⟩
    exact ⟨_, data, _, ⟨_, hclear, rfl⟩, hvalue, (strcpy_length_le hcopy).mpr ⟨i, hi, hnul⟩⟩

end devices

/-! ## `sys_read` -/

section sysRead
variable {fs : Filesys} {k : Keyboard} {fd nbytes : Word} {s : Files}

/-- The call `fotp[1](fd, my_buf, nbytes)`. -/
def fotpRead (fs : Filesys) (fd : Nat) (nbytes : Word) (term : Ret) (s : Files) : Fotp → Ret × Files
  | .terminal => (term, s)
  | .dir => fncDirRead fs s
  | .rtc => (⟨0, []⟩, s)
  | .file => fncFread fs fd nbytes s

theorem sysRead_eq {tbl : Fotp} (hin : ¬ (7 < fd ∨ fd = 1))
    (hpresent : (s.pcb.fd fd.toNat).present = true) (hfotp : (s.pcb.fd fd.toNat).fotp = some tbl)
    (term : Ret) : sysRead fs fd nbytes term s = some (fotpRead fs fd.toNat nbytes term s tbl) := by
  rw [sysRead, if_neg hin, hpresent, if_neg (by simp), hfotp]
  cases tbl <;> rfl

theorem readsWithin_one : ReadsWithin fs k 1 nbytes s := by
  have hno : ¬ s.AsksTerminal 1 := fun h => h.1 (.inr rfl)
  refine ⟨.fail, (s, k), ?_, withinBuffer_fail nbytes⟩
  rw [sysReadWith, if_neg hno]
  rfl

/-- For the descriptors of the other tables the call is the read function of the table. -/
theorem readsWithin_iff {tbl : Fotp} (htbl : tbl ≠ .terminal) (hin : ¬ (7 < fd ∨ fd = 1))
    (hpresent : (s.pcb.fd fd.toNat).present = true) (hfotp : (s.pcb.fd fd.toNat).fotp = some tbl) :
    ReadsWithin fs k fd nbytes s ↔
      WithinBuffer nbytes (fotpRead fs fd.toNat nbytes .fail s tbl).1 := by
  have hno : ¬ s.AsksTerminal fd := by
    rintro ⟨-, -, hterm⟩
    exact htbl (Option.some.inj (hfotp.symm.trans hterm))
  unfold ReadsWithin sysReadWith
  rw [if_neg hno, sysRead_eq hin hpresent hfotp]
  constructor
  · rintro ⟨r', out, heq, hwithin⟩
    cases heq
    exact hwithin
  · intro hwithin
    exact ⟨_, (_, k), rfl, hwithin⟩

theorem readsWithin_terminal_iff (hask : s.AsksTerminal fd) :
    ReadsWithin fs k fd nbytes s ↔ LineFits k nbytes := by
  have hread : ∀ r, sysRead fs fd nbytes r s = some (r, s) :=
    fun r => sysRead_eq hask.1 hask.2.1 hask.2.2 r
  rw [← readDone_within_iff]
  unfold ReadsWithin sysReadWith
  rw [if_pos hask]
  simp only [hread, Option.bind_eq_bind, Option.bind_eq_some_iff]
  constructor
  · rintro ⟨r, out, ⟨⟨value, data, k'⟩, hdone, rs, hrs, heq⟩, hwithin⟩
    cases hrs
    cases heq
    exact ⟨value, data, k', hdone, hwithin⟩
  · rintro ⟨value, data, k', hdone, hwithin⟩
    exact ⟨⟨value, data⟩, (s, k'), ⟨(value, data, k'), hdone, _, rfl, rfl⟩, hwithin⟩

/-- A read through a present descriptor stays within the caller's buffer exactly if what the device
    has to deliver fits. -/
theorem sysRead_within_iff {tbl : Fotp} (hfd : fd ≤ 7)
    (hpresent : (s.pcb.fd fd.toNat).present = true) (hfotp : (s.pcb.fd fd.toNat).fotp = some tbl) :
    ReadsWithin fs k fd nbytes s ↔ ReadFits fs k fd nbytes s tbl := by
  by_cases hone : fd = 1
  · subst hone
    have hfits : ReadFits fs k 1 nbytes s tbl := by
      cases tbl <;> simp [ReadFits]
    exact ⟨fun _ => hfits, fun _ => readsWithin_one⟩
  have hin : ¬ (7 < fd ∨ fd = 1) := by
    rw [not_or, BitVec.not_lt]
    exact ⟨hfd, hone⟩
  cases tbl with
  | terminal =>
    rw [readsWithin_terminal_iff ⟨hin, hpresent, hfotp⟩]
    exact (or_iff_right hone).symm
  | dir =>
    rw [readsWithin_iff (by simp) hin hpresent hfotp]
    exact (fncDirRead_within_iff nbytes s).trans (or_iff_right hone).symm
  | rtc =>
    rw [readsWithin_iff (by simp) hin hpresent hfotp]
    exact ⟨fun _ => trivial, fun _ => withinBuffer_iff.mpr
      ⟨.inr (by simp [fotpRead]), Nat.zero_le _⟩⟩
  | file =>
    rw [readsWithin_iff (by simp) hin hpresent hfotp]
    exact ⟨fun _ => trivial, fun _ => readData_within _ _ nbytes⟩

end sysRead

/-- The keyboard when `ls` and Enter have been typed for a reader. -/
def typedLs : Keyboard :=
  (runFrom keyboardStep bootKeyboard
    [.readStart 1, .key 0x26 0 0, .key 0x1F 0 0, .key 0x1C 0 0, .readWake]).getD bootKeyboard

theorem sysRead_within_iff_typedLs :
    (freshFiles.pcb.fd 0).present = true ∧ (freshFiles.pcb.fd 0).fotp = some .terminal ∧
      ReadsWithin sampleFs typedLs 0 128 freshFiles := by
  refine ⟨by decide, by decide, ?_⟩
  apply (sysRead_within_iff (by decide) (by decide) (by decide : _ = some Fotp.terminal)).mpr
  exact .inr ⟨⟨3, by decide, by decide, by decide⟩, by decide, by decide⟩

/-- A program that reads a single byte gets the three of the line, and the NUL. -/
theorem sysRead_passes_the_buffer :
    ¬ ∀ (fs : Filesys) (k : Keyboard) (fd nbytes : Word) (s : Files) (tbl : Fotp), fd ≤ 7 →
      (s.pcb.fd fd.toNat).present = true → (s.pcb.fd fd.toNat).fotp = some tbl →
      ReadsWithin fs k fd nbytes s := by
  intro hall
  have hreads := hall sampleFs typedLs 0 1 freshFiles .terminal (by decide) (by decide) (by decide)
  have hfits := (readsWithin_terminal_iff ⟨by decide, by decide, by decide⟩).mp hreads
  exact absurd hfits.length (by decide)

end OreOS
