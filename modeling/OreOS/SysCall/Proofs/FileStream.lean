import Mathlib.Algebra.BigOperators.Group.List.Basic
import Mathlib.Algebra.GroupWithZero.Nat
import OreOS.SysCall.Proofs.DescriptorLaws

/-!
# Reads through a descriptor stream the file

`StreamsFrom file k rs` says that the reads `rs` (requested sizes with their results) deliver the
file from position `k` on, each as much as it asked for or as is left. A descriptor on a regular
file satisfies it whatever calls on other descriptors come in between, because those calls leave
its position alone.
-/

namespace OreOS
open Machine Filesys

/-- The results of reads that stream `file` from position `k`. -/
def StreamsFrom (file : List UInt8) : Nat → List (Word × Ret) → Prop
  | _, [] => True
  | k, (n, r) :: rest =>
      r = ⟨(((file.drop k).take n.toNat).length : Int), (file.drop k).take n.toNat⟩ ∧
      StreamsFrom file (k + ((file.drop k).take n.toNat).length) rest

/-- The bytes that a list of reads delivered. -/
def delivered (rs : List (Word × Ret)) : List UInt8 := (rs.map fun p => p.2.data).flatten

/-- The number of bytes that a list of reads asked for. -/
def requested (rs : List (Word × Ret)) : Nat := (rs.map fun p => p.1.toNat).sum

theorem StreamsFrom.delivered_eq {file : List UInt8} {rs : List (Word × Ret)} {k : Nat}
    (h : StreamsFrom file k rs) : delivered rs = (file.drop k).take (requested rs) := by
  induction rs generalizing k with
  | nil => simp [delivered, requested]
  | cons p rest ih =>
    obtain ⟨n, r⟩ := p
    obtain ⟨rfl, hrest⟩ := h
    have hnext := ih hrest
    simp only [delivered, requested, List.map_cons, List.flatten_cons, List.sum_cons] at hnext ⊢
    rw [hnext, List.take_add, List.drop_drop, List.length_take]
    rcases Nat.le_total n.toNat (file.drop k).length with hle | hge
    · rw [Nat.min_eq_left hle]
    · -- the file ended inside this read, so nothing is left for the later ones
      rw [List.length_drop] at hge
      have hleft : file.drop (k + (file.length - k)) = [] := List.drop_eq_nil_of_le (by omega)
      have hright : file.drop (k + n.toNat) = [] := List.drop_eq_nil_of_le (by omega)
      rw [List.length_drop, Nat.min_eq_right hge, hleft, hright]

theorem StreamsFrom.value_eq {file : List UInt8} {rs : List (Word × Ret)} {k : Nat}
    (h : StreamsFrom file k rs) : ∀ p ∈ rs, p.2.value = p.2.data.length := by
  induction rs generalizing k with
  | nil => simp
  | cons p rest ih =>
    obtain ⟨n, r⟩ := p
    obtain ⟨rfl, hrest⟩ := h
    intro p hp
    rcases List.mem_cons.mp hp with rfl | hp
    · rfl
    · exact ih hrest p hp

/-- What is left to read after the reads `pre`. -/
theorem StreamsFrom.append {file : List UInt8} {pre post : List (Word × Ret)} {k : Nat}
    (h : StreamsFrom file k (pre ++ post)) :
    StreamsFrom file (k + (delivered pre).length) post := by
  induction pre generalizing k with
  | nil => simpa [delivered] using h
  | cons p rest ih =>
    obtain ⟨n, r⟩ := p
    obtain ⟨rfl, hrest⟩ := h
    have hnext := ih hrest
    simpa [delivered, Nat.add_assoc] using hnext

/-- After the whole file has been delivered, a read returns 0. -/
theorem StreamsFrom.at_end {file : List UInt8} {pre post : List (Word × Ret)} {n : Word} {r : Ret}
    (h : StreamsFrom file 0 (pre ++ (n, r) :: post)) (hend : delivered pre = file) :
    r.value = 0 := by
  obtain ⟨rfl, -⟩ := h.append
  rw [hend]
  simp

/-! ## The calls of one process -/

/-- The reads on descriptor `fd` in a sequence of calls, with their results. -/
def readsOn (fs : Filesys) (fd : Nat) : Files → List FileCall → Option (List (Word × Ret))
  | _, [] => some []
  | s, c :: cs => do
      let (r, t) ← fileCall fs s c
      let rest ← readsOn fs fd t cs
      match c with
      | .read fd' n _ => if fd'.toNat = fd then return (n, r) :: rest else return rest
      | _ => return rest

/-- The sizes that the reads on `fd` ask for. -/
def sizesOn (fd : Nat) (cs : List FileCall) : List Nat :=
  cs.filterMap fun
    | .read fd' n _ => if fd'.toNat = fd then some n.toNat else none
    | _ => none

/-- Descriptor `fd` is open on the regular file `inode` at position `k`. -/
structure OpenAt (fs : Filesys) (s : Files) (fd : Nat) (inode : Word) (k : Nat) : Prop where
  range : 2 ≤ fd ∧ fd < 8
  present : s.Present fd
  fotp : (s.pcb.fd fd).fotp = some .file
  inode_eq : (s.pcb.fd fd).inode = inode
  fp : (s.pcb.fd fd).fp.toNat = k
  le : k ≤ (fs.inodeSize inode).toNat

section
variable {fs : Filesys} {s t : Files}

theorem present_describe (fileType : Word) (f : Fd) : (describe fileType f).present = true := by
  unfold describe
  split
  · simp [Fd.present]
  split
  · simp [Fd.present]
  split
  · simp [Fd.present]
  · simp [Fd.present]

/-- The open functions set no flags. -/
theorem fotpOpen_flags {fname : List UInt8} {f g : Fd} {x : Int}
    (h : fotpOpen fs fname f = some (x, g)) : g.flags = f.flags := by
  unfold fotpOpen at h
  split at h
  · cases h
  · simp only [fileOpen, Option.bind_eq_bind, Option.bind_eq_some_iff] at h
    obtain ⟨⟨r, found⟩, -, h⟩ := h
    cases found with
    | none => cases h; rfl
    | some de =>
      simp only at h
      split at h <;> cases h <;> rfl
  · cases h; rfl
  · cases h; rfl
  · cases h; rfl

/-- What `sys_open` does, whatever the image: nothing, or it writes the first free descriptor. -/
theorem sysOpen_cases {fname : List UInt8} {r : Ret} (h : sysOpen fs fname s = some (r, t)) :
    (r = .fail ∧ t = s) ∨
    ∃ fd f, LeastFree s fd ∧ t = s.setFd fd f ∧
      ((r = .fail ∧ f.flags = 0) ∨ (r = ⟨fd, []⟩ ∧ f.present = true)) := by
  unfold sysOpen at h
  cases hfree : s.pcb.freeFd with
  | none =>
    rw [hfree] at h
    cases h
    exact .inl ⟨rfl, rfl⟩
  | some fd =>
    simp only [hfree, Option.bind_eq_bind, Option.bind_eq_some_iff] at h
    obtain ⟨⟨r1, found⟩, -, h⟩ := h
    split at h
    · cases h
      exact .inl ⟨rfl, rfl⟩
    · simp only [Option.bind_eq_some_iff] at h
      obtain ⟨de, -, ⟨r2, f⟩, hf, h⟩ := h
      have hleast := leastFree_of_freeFd hfree
      split at h
      · cases h
        exact .inr ⟨fd, _, hleast, rfl, .inl ⟨rfl, rfl⟩⟩
      · cases h
        refine .inr ⟨fd, f, hleast, rfl, .inr ⟨rfl, ?_⟩⟩
        have hpres := present_describe de.fileType (s.pcb.fd fd)
        unfold Fd.present at hpres ⊢
        rw [fotpOpen_flags hf]
        exact hpres

/-- `sys_open` touches no present descriptor, whatever the type of the file. -/
theorem sysOpen_frame {fname : List UInt8} {r : Ret} (h : sysOpen fs fname s = some (r, t))
    {i : Nat} (hp : s.Present i) : t.pcb.fd i = s.pcb.fd i := by
  rcases sysOpen_cases h with ⟨-, rfl⟩ | ⟨fd, f, hleast, rfl, -⟩
  · rfl
  · have hne : i ≠ fd := fun heq => hleast.free (heq ▸ hp)
    exact setFd_fd_ne _ _ hne

theorem sysWrite_table {fd n : Word} {r : Ret} (h : sysWrite fd n s = some (r, t)) : t = s := by
  unfold sysWrite at h
  split at h
  · cases h; rfl
  split at h
  · cases h; rfl
  split at h <;> cases h <;> rfl

/-- What a call does to the files of its process: nothing, or `sys_open` writes the first free
    descriptor, or another call writes its own descriptor and sets no flags in it, or a directory
    read advances the position. -/
inductive FileEffect (fs : Filesys) (s : Files) (c : FileCall) : Files → Prop where
  | same : FileEffect fs s c s
  | opened {fname : List UInt8} {fd : Nat} (f : Fd) : c = .open fname → LeastFree s fd →
      FileEffect fs s c (s.setFd fd f)
  | wrote {i : Nat} {f : Fd} : c.target = some i → (f.flags = (s.pcb.fd i).flags ∨ f.flags = 0) →
      FileEffect fs s c (s.setFd i f)
  | listed : FileEffect fs s c { s with dirIndex := (dirRead fs s.dirIndex).2.2 }

theorem fileCall_cases {c : FileCall} {r : Ret} (h : fileCall fs s c = some (r, t)) :
    FileEffect fs s c t := by
  cases c with
  | «open» fname =>
    rcases sysOpen_cases h with ⟨-, rfl⟩ | ⟨fd, f, hleast, rfl, -⟩
    · exact .same
    · exact .opened f rfl hleast
  | write w n =>
    cases sysWrite_table h
    exact .same
  | close w =>
    simp only [fileCall, sysClose, Option.some.injEq] at h
    split at h
    · cases h; exact .same
    split at h
    · cases h; exact .same
    · cases h; exact .wrote rfl (.inr rfl)
  | read w n term =>
    simp only [fileCall, sysRead] at h
    split at h
    · cases h; exact .same
    split at h
    · cases h; exact .same
    split at h
    · cases h
    · cases h; exact .same
    · cases h; exact .listed
    · cases h; exact .same
    · cases h; exact .wrote rfl (.inl rfl)

/-- A call other than `sys_open` changes at most its own descriptor, and sets no flags in it. -/
theorem fileCall_fd {c : FileCall} {r : Ret} (hc : ∀ fname, c ≠ .open fname)
    (h : fileCall fs s c = some (r, t)) (i : Nat) :
    t.pcb.fd i = s.pcb.fd i ∨ c.target = some i ∧
      ((t.pcb.fd i).flags = (s.pcb.fd i).flags ∨ (t.pcb.fd i).flags = 0) := by
  cases fileCall_cases h with
  | same => exact .inl rfl
  | opened f hopen => exact absurd hopen (hc _)
  | wrote htarget hflags =>
    rename_i j f
    by_cases hi : i = j
    · subst hi
      refine .inr ⟨htarget, ?_⟩
      simpa [Files.setFd] using hflags
    · exact .inl (setFd_fd_ne _ _ hi)
  | listed => exact .inl rfl

/-- The position after a call. -/
theorem fileCall_dirIndex {c : FileCall} {r : Ret} (h : fileCall fs s c = some (r, t)) :
    t.dirIndex = s.dirIndex ∨ t.dirIndex = (dirRead fs s.dirIndex).2.2 := by
  cases fileCall_cases h with
  | same => exact .inl rfl
  | opened f => exact .inl rfl
  | wrote => exact .inl rfl
  | listed => exact .inr rfl

/-- No call touches the process number. -/
theorem fileCall_procId {c : FileCall} {r : Ret} (h : fileCall fs s c = some (r, t)) :
    t.pcb.procId = s.pcb.procId := by
  cases fileCall_cases h <;> rfl

/-- A call that is not given `fd` leaves it alone. -/
theorem fileCall_frame {c : FileCall} {r : Ret} (h : fileCall fs s c = some (r, t)) {fd : Nat}
    (hp : s.Present fd) (hc : c.target ≠ some fd) : t.pcb.fd fd = s.pcb.fd fd := by
  by_cases hopen : ∃ fname, c = .open fname
  · obtain ⟨fname, rfl⟩ := hopen
    exact sysOpen_frame h hp
  · exact (fileCall_fd (fun fname heq => hopen ⟨fname, heq⟩) h fd).resolve_right
      fun htarget => hc htarget.1

theorem OpenAt.of_eq {fd k : Nat} {inode : Word} (h : OpenAt fs s fd inode k)
    (heq : t.pcb.fd fd = s.pcb.fd fd) : OpenAt fs t fd inode k := by
  refine ⟨h.range, ?_, ?_, ?_, ?_, h.le⟩
  · unfold Files.Present
    rw [heq]
    exact h.present
  · rw [heq, h.fotp]
  · rw [heq, h.inode_eq]
  · rw [heq, h.fp]

/-- A read on the descriptor delivers the next bytes and moves the position past them. -/
theorem OpenAt.read {w n : Word} {k : Nat} {inode : Word} {term r : Ret}
    (hin : inode.toNat < fs.n.toNat) (h : OpenAt fs s w.toNat inode k)
    (hread : sysRead fs w n term s = some (r, t)) :
    r = ⟨((((fs.fileOf inode).drop k).take n.toNat).length : Int),
      ((fs.fileOf inode).drop k).take n.toNat⟩ ∧
    OpenAt fs t w.toNat inode (k + (((fs.fileOf inode).drop k).take n.toNat).length) := by
  obtain ⟨h2, h8⟩ := h.range
  have hrange : ¬ (7 < w ∨ w = 1) := by
    rintro (hgt | rfl)
    · have : 7 < w.toNat := hgt
      omega
    · simp at h2
  have hpres : ¬ (s.pcb.fd w.toNat).present = false := by
    rw [h.present]
    simp
  simp only [sysRead, hrange, if_false, hpres, h.fotp, fncFread, h.inode_eq] at hread
  rw [readData_spec hin (by rw [h.fp]; exact h.le), h.fp] at hread
  cases hread
  have hk := h.le
  have hsize := (fs.inodeSize inode).isLt
  have hlen : k + (((fs.fileOf inode).drop k).take n.toNat).length ≤
      (fs.inodeSize inode).toNat := by
    rw [List.length_take, List.length_drop, fileOf_length]
    omega
  refine ⟨rfl, ⟨⟨h2, h8⟩, ?_, ?_, ?_, ?_, hlen⟩⟩
  · rw [present_setFd, if_pos rfl]
    exact h.present
  · simp [Files.setFd]
  · simp [Files.setFd]
  · simp only [Files.setFd, setFd_fd_same]
    rw [BitVec.toNat_add, h.fp, BitVec.ofInt_natCast, BitVec.toNat_ofNat]
    omega

theorem readsOn_streams {fd : Nat} {inode : Word} (hin : inode.toNat < fs.n.toNat)
    {cs : List FileCall} (hclose : ∀ w, FileCall.close w ∈ cs → w.toNat ≠ fd) :
    ∀ {s : Files} {k : Nat} {rs : List (Word × Ret)}, OpenAt fs s fd inode k →
      readsOn fs fd s cs = some rs → StreamsFrom (fs.fileOf inode) k rs := by
  induction cs with
  | nil =>
    intro s k rs _ hrs
    cases hrs
    trivial
  | cons c cs ih =>
    intro s k rs hopen hrs
    have hclose' := fun w hw => hclose w (List.mem_cons_of_mem _ hw)
    simp only [readsOn, Option.bind_eq_bind, Option.bind_eq_some_iff] at hrs
    obtain ⟨⟨r, t⟩, hcall, rest, hrest, hrs⟩ := hrs
    by_cases htarget : c.target = some fd
    · cases c with
      | «open» fname => cases htarget
      | close w => exact absurd (Option.some.inj htarget) (hclose w (by simp))
      | write w n =>
        cases hrs
        have hsame : t.pcb.fd fd = s.pcb.fd fd := by rw [sysWrite_table hcall]
        exact ih hclose' (hopen.of_eq hsame) hrest
      | read w n term =>
        obtain rfl : w.toNat = fd := Option.some.inj htarget
        simp only [if_true] at hrs
        cases hrs
        obtain ⟨hr, hnext⟩ := hopen.read hin hcall
        exact ⟨hr, ih hclose' hnext hrest⟩
    · have hkeep := ih hclose' (hopen.of_eq (fileCall_frame hcall hopen.present htarget)) hrest
      cases c with
      | «open» fname => cases hrs; exact hkeep
      | close w => cases hrs; exact hkeep
      | write w n => cases hrs; exact hkeep
      | read w n term =>
        have hne : w.toNat ≠ fd := fun heq => htarget (by rw [← heq]; rfl)
        simp only [hne, if_false] at hrs
        cases hrs
        exact hkeep

theorem requested_readsOn {fd : Nat} {cs : List FileCall} :
    ∀ {s : Files} {rs : List (Word × Ret)}, readsOn fs fd s cs = some rs →
      requested rs = (sizesOn fd cs).sum := by
  induction cs with
  | nil =>
    intro s rs hrs
    cases hrs
    rfl
  | cons c cs ih =>
    intro s rs hrs
    simp only [readsOn, Option.bind_eq_bind, Option.bind_eq_some_iff] at hrs
    obtain ⟨⟨r, t⟩, -, rest, hrest, hrs⟩ := hrs
    have hsum := ih hrest
    cases c with
    | «open» fname => cases hrs; exact hsum
    | close w => cases hrs; exact hsum
    | write w n => cases hrs; exact hsum
    | read w n term =>
      by_cases heq : w.toNat = fd
      · simp only [heq, if_true] at hrs
        cases hrs
        simpa [requested, sizesOn, heq] using hsum
      · simp only [heq, if_false] at hrs
        cases hrs
        simpa [requested, sizesOn, heq] using hsum

/-- In an image whose file types are known, no call of the sequence is undefined. -/
theorem readsOn_defined (hd : fs.DirectoryOk) (hsizes : fs.SizesAtMost (2 ^ 31 - 1))
    (htypes : fs.KnownTypes) (fd : Nat) (cs : List FileCall) :
    ∀ {s : Files}, TableOk fs s → ∃ rs, readsOn fs fd s cs = some rs := by
  induction cs with
  | nil => intro s _; exact ⟨[], rfl⟩
  | cons c cs ih =>
    intro s hok
    obtain ⟨r, t, hcall, -, hok'⟩ := fileCall_law hd hsizes htypes hok c
    obtain ⟨rest, hrest⟩ := ih hok'
    simp only [readsOn, hcall, hrest, Option.bind_eq_bind, Option.bind_some]
    cases c with
    | «open» fname => exact ⟨_, rfl⟩
    | close w => exact ⟨_, rfl⟩
    | write w n => exact ⟨_, rfl⟩
    | read w n term =>
      by_cases heq : w.toNat = fd
      · simp only [heq, if_true]
        exact ⟨_, rfl⟩
      · simp only [heq, if_false]
        exact ⟨_, rfl⟩

/-- `sys_open` of a regular file leaves the descriptor it returns at position 0. -/
theorem sysOpen_openAt {fname : List UInt8} {v : Int} {de : Dentry} {fd : Nat}
    (hname : readDentryByName fs fname = some (v, some de)) (hregular : de.fileType = 2)
    (hopen : sysOpen fs fname s = some (⟨(fd : Int), []⟩, t)) : OpenAt fs t fd de.inodeNum 0 := by
  unfold sysOpen at hopen
  cases hfree : s.pcb.freeFd with
  | none =>
    simp [hfree, Ret.fail] at hopen
  | some i =>
    have hleast := leastFree_of_freeFd hfree
    simp only [hfree, hname, Option.bind_eq_bind, Option.bind_some] at hopen
    split at hopen
    · simp [Ret.fail] at hopen
    · by_cases hneg : v < 0
      · simp [describe, hregular, fotpOpen, fileOpen, hname, hneg, Ret.fail] at hopen
      · simp [describe, hregular, fotpOpen, fileOpen, hname, hneg] at hopen
        obtain ⟨hfd, rfl⟩ := hopen
        obtain rfl : i = fd := by exact_mod_cast hfd
        refine ⟨⟨hleast.two_le, hleast.lt⟩, ?_, ?_, ?_, ?_, Nat.zero_le _⟩
        · rw [present_setFd, if_pos rfl]
          simp [Fd.present]
        · simp [Files.setFd]
        · simp [Files.setFd]
        · simp [Files.setFd]

end

/-- Reads through a descriptor on a regular file deliver the file from its start, whatever calls
    on other descriptors come in between; in an image of known file types all calls return. -/
theorem descriptor_reads_stream_file {fs : Filesys} {s t : Files} {fname : List UInt8} {v : Int}
    {de : Dentry} {fd : Nat} {cs : List FileCall} (hd : fs.DirectoryOk)
    (hsizes : fs.SizesAtMost (1023 * 4096))
    (hname : readDentryByName fs fname = some (v, some de)) (hregular : de.fileType = 2)
    (hopen : sysOpen fs fname s = some (⟨(fd : Int), []⟩, t))
    (hclose : ∀ w, FileCall.close w ∈ cs → w.toNat ≠ fd) :
    (∀ rs, readsOn fs fd t cs = some rs →
      delivered rs = (fs.fileOf de.inodeNum).take (sizesOn fd cs).sum ∧
      (∀ p ∈ rs, p.2.value = p.2.data.length) ∧
      ∀ pre n r post, rs = pre ++ (n, r) :: post →
        delivered pre = fs.fileOf de.inodeNum → r.value = 0) ∧
    (fs.KnownTypes → TableOk fs s → ∃ rs, readsOn fs fd t cs = some rs) := by
  have hat := sysOpen_openAt hname hregular hopen
  have hin : de.inodeNum.toNat < fs.n.toNat := by
    rcases readDentryByName_spec hd fname with hnone | ⟨de', hsome, hlt, -⟩
    · exact absurd (hname.symm.trans hnone) (by simp)
    · cases hname.symm.trans hsome
      exact hlt
  constructor
  · intro rs hrs
    have hstream := readsOn_streams hin hclose hat hrs
    refine ⟨?_, hstream.value_eq, ?_⟩
    · rw [hstream.delivered_eq, requested_readsOn hrs, List.drop_zero]
    · rintro pre n r post rfl hend
      exact hstream.at_end hend
  · intro htypes hok
    have hsizes' : fs.SizesAtMost (2 ^ 31 - 1) :=
      fun inode h => Nat.le_trans (hsizes inode h) (by decide)
    obtain ⟨r, t', hcall, -, hok'⟩ := fileCall_law hd hsizes' htypes hok (.open fname)
    cases hcall.symm.trans hopen
    exact readsOn_defined hd hsizes' htypes fd cs hok'

/-- The descriptor table of `freshFiles` after it opened the file `a`. -/
def sampleOpened : Files := freshFiles.setFd 2 ⟨some .file, 0, 0, 5⟩

theorem sampleOpened_open :
    sysOpen sampleFs [97] freshFiles = some (⟨((2 : Nat) : Int), []⟩, sampleOpened) := rfl

/-- Two reads of two bytes, with another descriptor on the same file in between. -/
def sampleCalls : List FileCall := [.read 2 2 ⟨0, []⟩, .open [97], .read 3 1 ⟨0, []⟩,
    .read 2 2 ⟨0, []⟩]

theorem descriptor_reads_stream_file_sample :
    sampleFs.DirectoryOk ∧
    (∃ rs, readsOn sampleFs 2 sampleOpened sampleCalls = some rs ∧
      delivered rs = [120, 121, 122]) := by
  have hclose : ∀ w, FileCall.close w ∈ sampleCalls → w.toNat ≠ 2 := by simp [sampleCalls]
  have hmain := descriptor_reads_stream_file sampleFs_directoryOk
    (fun inode h => Nat.le_trans (sampleFs_sizes inode h) (by decide))
    (show readDentryByName sampleFs [97] = some (3, some ⟨97 :: List.replicate 31 0, 2, 0⟩) by rfl)
    rfl sampleOpened_open hclose
  obtain ⟨rs, hrs⟩ := hmain.2 sampleFs_knownTypes freshFiles_fresh.tableOk
  refine ⟨sampleFs_directoryOk, rs, hrs, ?_⟩
  rw [(hmain.1 rs hrs).1]
  decide

end OreOS
