import OreOS.Filesys.Proofs.Listing
import OreOS.SysCall.Proofs.FileStream

/-!
# Reading the directory

`dir_index` is one position for all descriptors. A read through any directory descriptor moves it,
only a read at the end sets it back, and `sys_open` and `sys_close` leave it alone. Reads through a
descriptor deliver the directory in order exactly while `dir_index` is the number of reads made
through that descriptor.

The state below has any number of processes, each with its own descriptor table, and remembers the
names that each open directory descriptor has delivered so far.
-/

namespace OreOS
open Machine

/-- The names of the directory, in index order, as 32-byte fields. -/
def Filesys.dirNames (fs : Filesys) : List (List UInt8) :=
  (List.range fs.numDe.toNat).map fun i => (fs.dentryAt i).field

/-- Processes with their descriptor tables, and the shared position. `seen p fd` is what the reads
    through descriptor `fd` of process `p` have delivered since it was opened on a directory; it is
    `none` for other descriptors, and after a read that returned 0. -/
structure Readers where
  pcb : Nat → Pcb
  dirIndex : Word
  seen : Nat → Nat → Option (List (List UInt8))

/-- What a call of process `p` works on. -/
def Readers.files (s : Readers) (p : Nat) : Files := ⟨s.pcb p, s.dirIndex⟩

/-- `dir_index` is 0 and no directory is open. -/
def Readers.start (pcb : Nat → Pcb) : Readers := ⟨pcb, 0, fun _ _ => none⟩

/-- Replace the entry of descriptor `fd` of process `p`. -/
def note (seen : Nat → Nat → Option (List (List UInt8))) (p fd : Nat)
    (x : Option (List (List UInt8))) : Nat → Nat → Option (List (List UInt8)) :=
  Function.update seen p (Function.update (seen p) fd x)

/-- What a call of process `p` with result `r` adds to what was seen; `after` is
the PCB after it. -/
def noteCall (seen : Nat → Nat → Option (List (List UInt8))) (p : Nat) (r : Ret) (after : Pcb) :
    FileCall → Nat → Nat → Option (List (List UInt8))
  | .open _ =>
      if r.value < 0 then seen
      else note seen p r.value.toNat
        (if (after.fd r.value.toNat).fotp = some .dir then some [] else none)
  | .read fd _ _ =>
      note seen p fd.toNat
        ((seen p fd.toNat).bind fun ns => if r.value = 0 then none else some (ns ++ [r.data]))
  | .write _ _ => seen
  | .close fd => if r.value = 0 then note seen p fd.toNat none else seen

/-- A call of one of the processes. -/
def readerStep (fs : Filesys) (s : Readers) (e : Nat × FileCall) : Option Readers := do
  let (r, t) ← fileCall fs (s.files e.1) e.2
  return { pcb := Function.update s.pcb e.1 t.pcb
           dirIndex := t.dirIndex
           seen := noteCall s.seen e.1 r t.pcb e.2 }

/-- A read that follows the names `ns` delivers the next one, or 0 if there is none. -/
def NextName (fs : Filesys) (ns : List (List UInt8)) (r : Ret) : Prop :=
  (r.value = 32 ∧ ns ++ [r.data] <+: fs.dirNames) ∨ (r.value = 0 ∧ ns = fs.dirNames)

/-- A read through an open directory descriptor returns, and continues what was read through it. -/
def Enumerates (fs : Filesys) (s : Readers) : Nat × FileCall → Prop
  | (p, .read fd nbytes term) => ∀ ns, s.seen p fd.toNat = some ns →
      ∃ r t, fileCall fs (s.files p) (.read fd nbytes term) = some (r, t) ∧ NextName fs ns r
  | _ => True

/-- `dir_index` is the number of reads made through the descriptor. -/
def AtOwnPosition (s : Readers) : Nat × FileCall → Prop
  | (p, .read fd _ _) => ∀ ns, s.seen p fd.toNat = some ns → s.dirIndex.toNat = ns.length
  | _ => True

instance decidableAtOwnPosition (s : Readers) : ∀ e, Decidable (AtOwnPosition s e)
  | (p, .read fd _ _) =>
      match h : s.seen p fd.toNat with
      | none => isTrue fun _ hns => nomatch h.symm.trans hns
      | some ns =>
          decidable_of_iff (s.dirIndex.toNat = ns.length)
            ⟨fun heq _ hns => Option.some.inj (h.symm.trans hns) ▸ heq, fun hall => hall ns h⟩
  | (_, .open _) => isTrue trivial
  | (_, .write _ _) => isTrue trivial
  | (_, .close _) => isTrue trivial

variable {fs : Filesys} {s : Readers}

@[simp] theorem dirNames_length (fs : Filesys) : fs.dirNames.length = fs.numDe.toNat := by
  simp [Filesys.dirNames]

theorem dirNames_getElem? {i : Nat} (h : i < fs.numDe.toNat) :
    fs.dirNames[i]? = some (fs.dentryAt i).field := by
  simp [Filesys.dirNames, h]

@[simp] theorem note_apply (seen : Nat → Nat → Option (List (List UInt8))) (p fd : Nat)
    (x : Option (List (List UInt8))) (q i : Nat) :
    note seen p fd x q i = if q = p ∧ i = fd then x else seen q i := by
  unfold note
  by_cases hq : q = p
  · subst hq
    by_cases hi : i = fd
    · simp [hi]
    · simp [hi]
  · simp [hq]

/-! ## The invariant -/

/-- What is open on a directory is a present descriptor with the operations of one, and what was
    read through it is an initial part of the directory. -/
structure Session (fs : Filesys) (b : Pcb) (fd : Nat) (ns : List (List UInt8)) : Prop where
  range : 2 ≤ fd ∧ fd < 8
  present : (b.fd fd).present = true
  fotp : (b.fd fd).fotp = some .dir
  names : ns <+: fs.dirNames

/-- The invariant of the readers. -/
structure ReadersOk (fs : Filesys) (s : Readers) : Prop where
  position : s.dirIndex.toNat ≤ fs.numDe.toNat
  sessions : ∀ p fd ns, s.seen p fd = some ns → Session fs (s.pcb p) fd ns

theorem readersOk_start (fs : Filesys) (pcb : Nat → Pcb) : ReadersOk fs (.start pcb) where
  position := Nat.zero_le _
  sessions := by
    intro p fd ns h
    cases h

theorem Session.of_eq {b b' : Pcb} {fd : Nat} {ns : List (List UInt8)} (h : Session fs b fd ns)
    (heq : b'.fd fd = b.fd fd) : Session fs b' fd ns :=
  ⟨h.range, heq ▸ h.present, heq ▸ h.fotp, h.names⟩

/-- A read through a directory descriptor is a call of `dir_read`. -/
theorem Session.read {b : Pcb} {w : Word} {ns : List (List UInt8)} (h : Session fs b w.toNat ns)
    (nbytes : Word) (term : Ret) (pos : Word) :
    fileCall fs ⟨b, pos⟩ (.read w nbytes term) = some (fncDirRead fs ⟨b, pos⟩) := by
  obtain ⟨h2, h8⟩ := h.range
  have hrange : ¬ (7 < w ∨ w = 1) := by
    rintro (hgt | rfl)
    · have : 7 < w.toNat := hgt
      omega
    · simp at h2
  have hpres : ¬ (b.fd w.toNat).present = false := by
    rw [h.present]
    simp
  simp only [fileCall, sysRead]
  rw [if_neg hrange, if_neg hpres, h.fotp]

theorem dirRead_position (fs : Filesys) (pos : Word) :
    (dirRead fs pos).2.2.toNat ≤ fs.numDe.toNat := by
  by_cases h : pos.toNat < fs.numDe.toNat
  · have hlt := fs.numDe.isLt
    rw [dirRead_lt h]
    change (pos + 1#32).toNat ≤ _
    rw [BitVec.toNat_add]
    simp only [BitVec.toNat_ofNat]
    omega
  · rw [dirRead_ge (by omega)]
    exact Nat.zero_le _

/-- What a successful `sys_open` returns is a present descriptor of `2..7`. -/
theorem sysOpen_present {u t : Files} {fname : List UInt8} {r : Ret}
    (h : sysOpen fs fname u = some (r, t)) (hr : ¬ r.value < 0) :
    (2 ≤ r.value.toNat ∧ r.value.toNat < 8) ∧ (t.pcb.fd r.value.toNat).present = true := by
  rcases sysOpen_cases h with ⟨rfl, -⟩ | ⟨fd, f, hleast, rfl, ⟨rfl, -⟩ | ⟨rfl, hpres⟩⟩
  · exact absurd (by decide) hr
  · exact absurd (by decide) hr
  · refine ⟨⟨hleast.two_le, hleast.lt⟩, ?_⟩
    simpa [Files.setFd] using hpres

theorem sysClose_fails {w : Word} {u : Files} (h : (sysClose w u).1.value ≠ 0) :
    (sysClose w u).2 = u := by
  unfold sysClose at h ⊢
  split
  · rfl
  next hrange =>
    split
    · rfl
    next hpres =>
      rw [if_neg hrange, if_neg hpres] at h
      exact absurd rfl h

/-! ## One call -/

/-- At a position in the directory or at its end, a read continues `ns` if the position is the
    number of names in it. -/
theorem nextName_of_position {ns : List (List UInt8)} {pos : Word} (hns : ns <+: fs.dirNames)
    (hpos : pos.toNat = ns.length) :
    NextName fs ns ⟨(dirRead fs pos).1, (dirRead fs pos).2.1⟩ := by
  have hle := hns.length_le
  rw [dirNames_length] at hle
  by_cases hlt : pos.toNat < fs.numDe.toNat
  · rw [dirRead_lt hlt]
    refine .inl ⟨rfl, ?_⟩
    obtain ⟨rest, hrest⟩ := hns
    have hget := dirNames_getElem? hlt
    rw [← hrest, hpos, List.getElem?_append_right (Nat.le_refl _), Nat.sub_self] at hget
    cases rest with
    | nil => cases hget
    | cons n rest =>
      cases hget
      refine ⟨rest, ?_⟩
      rw [hpos, List.append_assoc, List.singleton_append, hrest]
  · rw [dirRead_ge (by omega)]
    refine .inr ⟨rfl, hns.eq_of_length ?_⟩
    rw [dirNames_length]
    omega

/-- If the names are distinct, only that position does. -/
theorem position_of_nextName {ns : List (List UInt8)} {pos : Word} (hdist : fs.dirNames.Nodup)
    (hpos : pos.toNat ≤ fs.numDe.toNat)
    (hnext : NextName fs ns ⟨(dirRead fs pos).1, (dirRead fs pos).2.1⟩) :
    pos.toNat = ns.length := by
  by_cases hlt : pos.toNat < fs.numDe.toNat
  · rw [dirRead_lt hlt] at hnext
    rcases hnext with ⟨-, hpre⟩ | ⟨habs, -⟩
    · have hlen := hpre.length_le
      simp only [List.length_append, List.length_singleton, dirNames_length] at hlen
      have hget : fs.dirNames[ns.length]? = fs.dirNames[pos.toNat]? := by
        rw [dirNames_getElem? hlt]
        obtain ⟨rest, hrest⟩ := hpre
        rw [← hrest]
        simp
      have hin : ns.length < fs.dirNames.length := by
        rw [dirNames_length]
        omega
      exact ((List.getElem?_inj hin hdist).mp hget).symm
    · exact absurd habs (by simp)
  · rw [dirRead_ge (by omega)] at hnext
    rcases hnext with ⟨habs, -⟩ | ⟨-, rfl⟩
    · exact absurd habs (by simp)
    · rw [dirNames_length]
      omega

/-- A call of process `p` keeps the sessions of its other descriptors, and those of
    the other processes. -/
theorem ReadersOk.kept (h : ReadersOk fs s) {p : Nat} {c : FileCall} {r : Ret} {t : Files}
    (hcall : fileCall fs (s.files p) c = some (r, t)) {q i : Nat} {ns : List (List UInt8)}
    (hseen : s.seen q i = some ns) (hother : q = p → c.target ≠ some i) :
    Session fs (Function.update s.pcb p t.pcb q) i ns := by
  have hsess := h.sessions q i ns hseen
  by_cases hq : q = p
  · subst hq
    rw [Function.update_self]
    exact hsess.of_eq (fileCall_frame hcall hsess.present (hother rfl))
  · rw [Function.update_of_ne hq]
    exact hsess

/-- A call that leaves the table of its process alone keeps all sessions. -/
theorem ReadersOk.kept_table (h : ReadersOk fs s) {p : Nat} {b : Pcb} (hb : b = s.pcb p) {q i : Nat}
    {ns : List (List UInt8)} (hseen : s.seen q i = some ns) :
    Session fs (Function.update s.pcb p b q) i ns := by
  rw [hb, Function.update_eq_self]
  exact h.sessions q i ns hseen

theorem ReadersOk.next (h : ReadersOk fs s) {e : Nat × FileCall} (hright : Enumerates fs s e)
    {s' : Readers} (hstep : readerStep fs s e = some s') : ReadersOk fs s' := by
  obtain ⟨p, c⟩ := e
  simp only [readerStep, Option.bind_eq_bind, Option.bind_eq_some_iff, Option.pure_def,
    Option.some.injEq] at hstep
  obtain ⟨⟨r, t⟩, hcall, rfl⟩ := hstep
  refine ⟨?_, fun q i ns hseen => ?_⟩
  · rcases fileCall_dirIndex hcall with hpos | hpos
    · exact hpos ▸ h.position
    · exact hpos ▸ dirRead_position fs _
  change noteCall s.seen p r t.pcb c q i = some ns at hseen
  change Session fs (Function.update s.pcb p t.pcb q) i ns
  cases c with
  | «open» fname =>
    simp only [noteCall] at hseen
    split at hseen
    · exact h.kept hcall hseen fun _ => by simp [FileCall.target]
    next hr =>
      rw [note_apply] at hseen
      split at hseen
      next hthis =>
        -- the session starts here
        obtain ⟨rfl, rfl⟩ := hthis
        split at hseen
        next hdir =>
          cases hseen
          obtain ⟨hrange, hpres⟩ := sysOpen_present hcall hr
          rw [Function.update_self]
          exact ⟨hrange, hpres, hdir, List.nil_prefix⟩
        next => cases hseen
      next => exact h.kept hcall hseen fun _ => by simp [FileCall.target]
  | read fd nbytes term =>
    simp only [noteCall, note_apply] at hseen
    split at hseen
    next hthis =>
      obtain ⟨rfl, rfl⟩ := hthis
      obtain ⟨ns', hns', hseen⟩ := Option.bind_eq_some_iff.mp hseen
      have hsess := h.sessions q fd.toNat ns' hns'
      have hsame : t.pcb = s.pcb q := by
        have hdir := (hsess.read nbytes term s.dirIndex).symm.trans hcall
        cases hdir
        rfl
      obtain ⟨r', t', hcall', hnext⟩ := hright ns' hns'
      cases hcall.symm.trans hcall'
      split at hseen
      next => cases hseen
      next hne =>
        cases hseen
        rw [Function.update_self, hsame]
        exact ⟨hsess.range, hsess.present, hsess.fotp, (hnext.resolve_right fun h0 => hne h0.1).2⟩
    next hother =>
      refine h.kept hcall hseen fun hq htarget => hother ⟨hq, ?_⟩
      exact (Option.some.inj htarget).symm
  | write fd nbytes =>
    exact h.kept_table (by rw [sysWrite_table hcall]; rfl) hseen
  | close fd =>
    simp only [noteCall] at hseen
    split at hseen
    next =>
      rw [note_apply] at hseen
      split at hseen
      next => cases hseen
      next hother =>
        refine h.kept hcall hseen fun hq htarget => hother ⟨hq, ?_⟩
        exact (Option.some.inj htarget).symm
    next hne =>
      have hcl := Option.some.inj hcall
      have hsame : t = s.files p := by
        have := sysClose_fails (w := fd) (u := s.files p) (by rw [hcl]; exact hne)
        rw [hcl] at this
        exact this
      exact h.kept_table (by rw [hsame]; rfl) hseen

/-- A read through a directory descriptor, as the session sees it. -/
theorem ReadersOk.enumerates_iff (h : ReadersOk fs s) {p : Nat} {fd nbytes : Word} {term : Ret} :
    Enumerates fs s (p, .read fd nbytes term) ↔ ∀ ns, s.seen p fd.toNat = some ns →
      NextName fs ns ⟨(dirRead fs s.dirIndex).1, (dirRead fs s.dirIndex).2.1⟩ := by
  constructor
  · intro hright ns hns
    obtain ⟨r, t, hcall, hnext⟩ := hright ns hns
    cases ((h.sessions p fd.toNat ns hns).read nbytes term s.dirIndex).symm.trans hcall
    exact hnext
  · intro hnext ns hns
    exact ⟨_, _, (h.sessions p fd.toNat ns hns).read nbytes term s.dirIndex, hnext ns hns⟩

theorem ReadersOk.enumerates (h : ReadersOk fs s) {e : Nat × FileCall} (hpos : AtOwnPosition s e) :
    Enumerates fs s e := by
  obtain ⟨p, c⟩ := e
  cases c with
  | read fd nbytes term =>
    rw [h.enumerates_iff]
    intro ns hns
    exact nextName_of_position (h.sessions p fd.toNat ns hns).names (hpos ns hns)
  | «open» fname => trivial
  | write fd nbytes => trivial
  | close fd => trivial

theorem ReadersOk.atOwnPosition (h : ReadersOk fs s) (hdist : fs.dirNames.Nodup)
    {e : Nat × FileCall} (hright : Enumerates fs s e) : AtOwnPosition s e := by
  obtain ⟨p, c⟩ := e
  cases c with
  | read fd nbytes term =>
    rw [h.enumerates_iff] at hright
    intro ns hns
    exact position_of_nextName hdist h.position (hright ns hns)
  | «open» fname => trivial
  | write fd nbytes => trivial
  | close fd => trivial

/-! ## Runs -/

/-- If every read through a directory descriptor is made while `dir_index` is the number of reads
    made through it, each descriptor delivers the directory in order and then 0. -/
theorem directory_reads_enumerate (pcb : Nat → Pcb) {es : List (Nat × FileCall)}
    (hpos : EachStep (readerStep fs) AtOwnPosition (.start pcb) es) :
    EachStep (readerStep fs) (Enumerates fs) (.start pcb) es := by
  refine EachStep.imp ?_ (readersOk_start fs pcb) hpos
  intro s e h hc
  have hright := h.enumerates hc
  exact ⟨hright, fun t ht => h.next hright ht⟩

/-- For distinct names, the condition is exact. -/
theorem directory_reads_enumerate_only (hdist : fs.dirNames.Nodup) (pcb : Nat → Pcb)
    {es : List (Nat × FileCall)}
    (hright : EachStep (readerStep fs) (Enumerates fs) (.start pcb) es) :
    EachStep (readerStep fs) AtOwnPosition (.start pcb) es := by
  refine EachStep.imp ?_ (readersOk_start fs pcb) hright
  intro s e h hr
  exact ⟨h.atOwnPosition hdist hr, fun t ht => h.next hr ht⟩

/-- An image with the directory `.` and an empty file `a`. -/
def listMem (a : Word) : UInt8 :=
  if a = 0 then 2
  else if a = 4 ∨ a = 8 then 1
  else if a = 64 then 46
  else if a = 96 then 1
  else if a = 128 then 97
  else if a = 160 then 2
  else 0

/-- The file system over this memory. -/
def listFs : Filesys := setFilesysMeta listMem

/-- Two processes list the directory, one after the other. -/
def listTwice : List (Nat × FileCall) :=
  let list (p : Nat) : List (Nat × FileCall) :=
    [(p, .open [46]), (p, .read 2 32 ⟨0, []⟩), (p, .read 2 32 ⟨0, []⟩), (p, .read 2 32 ⟨0, []⟩)]
  list 0 ++ list 1

theorem directory_reads_enumerate_listTwice :
    EachStep (readerStep listFs) AtOwnPosition (.start fun _ => freshFiles.pcb) listTwice ∧
      EachStep (readerStep listFs) (Enumerates listFs)
        (.start fun _ => freshFiles.pcb) listTwice := by
  have hpos : EachStep (readerStep listFs) AtOwnPosition
      (.start fun _ => freshFiles.pcb) listTwice := by
    decide
  exact ⟨hpos, directory_reads_enumerate _ hpos⟩

/-- A process that stops after one name makes the next process start at the second. -/
theorem directory_read_in_the_middle :
    ¬ ∀ (fs : Filesys) (pcb : Nat → Pcb) (es : List (Nat × FileCall)),
      EachStep (readerStep fs) (Enumerates fs) (.start pcb) es := by
  intro hall
  have hrun := hall listFs (fun _ => freshFiles.pcb)
    [(0, .open [46]), (0, .read 2 32 ⟨0, []⟩), (0, .close 2), (1, .open [46]),
      (1, .read 2 32 ⟨0, []⟩)]
  have hpos := directory_reads_enumerate_only (show listFs.dirNames.Nodup by decide) _ hrun
  exact absurd hpos (by decide)

end OreOS
