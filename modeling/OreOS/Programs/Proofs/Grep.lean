import OreOS.Grep.Proofs.Exact
import OreOS.Programs.Proofs.Output

/-!
# `grep` over the directory

The loops of `do_one_file` on a descriptor do what they do on the contents of the file, since the
reads of the kernel are full reads. The program then searches what its directory lists.
-/

namespace OreOS
open Machine Filesys

variable {fs : Filesys} {s fname : CString} {w : Task} {content out : List UInt8} {fuel : Nat}

/-! ## The output -/

/-- Output that the loop over the lines finds is left where it is. -/
theorem lineLoop_out (fname : CString) (cnt fuel : Nat) (o : List UInt8) (lineStart : Nat)
    (g : GrepState) :
    lineLoop s fname cnt fuel lineStart { g with out := o ++ g.out } =
      (lineLoop s fname cnt fuel lineStart g).map fun g' => { g' with out := o ++ g'.out } := by
  induction fuel generalizing lineStart g with
  | zero => rfl
  | succ fuel ih =>
    simp only [lineLoop, Option.bind_eq_bind, Option.map_bind, Function.comp_def]
    refine Option.bind_congr fun lineEnd _ => Option.bind_congr fun x _ =>
      Option.bind_congr fun data _ => ?_
    split
    · simp only [Option.map_bind, Function.comp_def, Option.map_some]
    · simp only [Option.map_bind, Function.comp_def]
      refine Option.bind_congr fun found _ => Option.bind_congr ?_
      intro printed _
      split
      · simp only [Option.map_some, List.append_assoc]
      · rw [← ih]
        simp only [List.append_assoc]

/-- The loop over the lines does not read. -/
theorem lineLoop_offset {cnt lineStart : Nat} {g g' : GrepState}
    (h : lineLoop s fname cnt fuel lineStart g = some g') : g'.offset = g.offset := by
  induction fuel generalizing lineStart g with
  | zero => cases h
  | succ fuel ih =>
    simp only [lineLoop, Option.bind_eq_bind, Option.bind_eq_some_iff] at h
    obtain ⟨lineEnd, -, x, -, data, -, h⟩ := h
    split at h
    · obtain ⟨_, -, hg⟩ := Option.bind_eq_some_iff.mp h
      cases hg
      rfl
    · obtain ⟨found, -, h⟩ := Option.bind_eq_some_iff.mp h
      obtain ⟨printed, -, h⟩ := Option.bind_eq_some_iff.mp h
      split at h
      · cases h
        rfl
      · exact (ih h : g'.offset = GrepState.offset ⟨_, _, _, g.offset⟩)

theorem fdputsAll_terminal (hw : w.OnTerminal) (x : List UInt8) :
    w.fdputsAll 1 x = some { w with out := w.out ++ x } := by
  induction x generalizing w with
  | nil => simp [Task.fdputsAll]
  | cons c x ih =>
    have hputs := fdputs_terminal (s := [c]) hw (by simp)
    have hrest := ih (w := { w with out := w.out ++ [c] }) hw
    rw [Task.fdputsAll, List.foldlM_cons, hputs, Option.bind_eq_bind, Option.bind_some]
    rw [Task.fdputsAll] at hrest
    rw [hrest, List.append_assoc, List.singleton_append]

/-! ## A descriptor of a file -/

/-- Reads through `fd` are full reads of `content`, of which `k` bytes have been read. -/
inductive ServesFile (fs : Filesys) (fd : Nat) (content : List UInt8) (s : Files) (k : Nat) : Prop
  | file {inode : Word} : OpenAt fs s fd inode k → inode.toNat < fs.n.toNat →
      fs.fileOf inode = content → ServesFile fs fd content s k
  | rtc : 2 ≤ fd → fd < 8 → s.Present fd → (s.pcb.fd fd).fotp = some .rtc → content = [] →
      ServesFile fs fd content s k

/-- At most descriptor `fd` differs. -/
structure OnlyFd (s : Files) (fd : Nat) (t : Files) : Prop where
  others : ∀ i, i ≠ fd → t.pcb.fd i = s.pcb.fd i
  dirIndex : t.dirIndex = s.dirIndex

theorem OnlyFd.refl (s : Files) (fd : Nat) : OnlyFd s fd s := ⟨fun _ _ => rfl, rfl⟩

theorem OnlyFd.trans {s t u : Files} {fd : Nat} (h : OnlyFd s fd t) (h' : OnlyFd t fd u) :
    OnlyFd s fd u :=
  ⟨fun i hi => (h'.others i hi).trans (h.others i hi), h'.dirIndex.trans h.dirIndex⟩

theorem onlyFd_setFd (s : Files) (fd : Nat) (f : Fd) : OnlyFd s fd (s.setFd fd f) :=
  ⟨fun _ hi => setFd_fd_ne _ _ hi, rfl⟩

theorem OnlyFd.onTerminal {t : Files} {fd : Nat} (h : OnlyFd w.files fd t) (hfd : 2 ≤ fd)
    (hw : w.OnTerminal) (args out : List UInt8) : Task.OnTerminal ⟨t, args, out⟩ := by
  have hsame := h.others 1 (by omega)
  exact ⟨by unfold Files.Present; rw [hsame]; exact hw.1, by rw [hsame]; exact hw.2⟩

section
variable {fd k : Nat}

theorem ServesFile.range {s : Files} (h : ServesFile fs fd content s k) : 2 ≤ fd ∧ fd < 8 := by
  cases h with
  | file hopen => exact hopen.range
  | rtc h2 h8 => exact ⟨h2, h8⟩

theorem ServesFile.present {s : Files} (h : ServesFile fs fd content s k) : s.Present fd := by
  cases h with
  | file hopen => exact hopen.present
  | rtc _ _ hpres => exact hpres

/-- A read delivers the next bytes. -/
theorem ServesFile.read {s : Files} (h : ServesFile fs fd content s k) (n : Word) (term : Ret) :
    ∃ t, sysRead fs (BitVec.ofInt 32 (fd : Int)) n term s =
        some (⟨(((content.drop k).take n.toNat).length : Int), (content.drop k).take n.toNat⟩, t) ∧
      ServesFile fs fd content t (k + ((content.drop k).take n.toNat).length) ∧ OnlyFd s fd t := by
  obtain ⟨h2, h8⟩ := h.range
  have hfd := ofInt_fd h8
  have hpres := h.present
  have hread := sysRead_present fs n (by rw [hfd]; exact h2) (by rw [hfd]; exact h8)
    (by rw [hfd]; exact hpres) term
  cases h with
  | file hopen hin hcontent =>
    subst hcontent
    rw [hfd, hopen.fotp] at hread
    rw [← hfd] at hopen
    obtain ⟨hret, hnext⟩ := hopen.read hin hread
    rw [hfd] at hnext
    exact ⟨_, hread.trans (congrArg some (Prod.ext hret rfl)), .file hnext hin rfl,
      onlyFd_setFd _ _ _⟩
  | rtc _ _ _ hfotp hnil =>
    subst hnil
    rw [hfd, hfotp] at hread
    simp only [List.drop_nil, List.take_nil, List.length_nil]
    exact ⟨s, hread, .rtc h2 h8 hpres hfotp rfl, .refl _ _⟩

/-- A descriptor that is present is closed. -/
theorem close_present {s : Files} (h2 : 2 ≤ fd) (h8 : fd < 8) (hpres : s.Present fd) :
    sysClose (BitVec.ofInt 32 (fd : Int)) s =
    (⟨0, []⟩, s.setFd fd { s.pcb.fd fd with flags := 0 }) := by
  have hfd := ofInt_fd h8
  have hrange : ¬(BitVec.ofInt 32 (fd : Int) < 2 ∨ 7 < BitVec.ofInt 32 (fd : Int)) := by
    rintro (hlt | hgt)
    · have : (BitVec.ofInt 32 (fd : Int)).toNat < 2 := hlt
      omega
    · have : 7 < (BitVec.ofInt 32 (fd : Int)).toNat := hgt
      omega
  rw [sysClose, if_neg hrange, hfd, if_neg (by rw [hpres]; decide)]

/-- The loop over the reads, on a descriptor that serves the contents. -/
theorem readLoopIn_eq (term : Ret) {g : GrepState} {v : Int}
    (hserves : ServesFile fs fd content w.files g.offset)
    (hw : w.OnTerminal) (h : readLoop s fname (fullReads content) fuel g = some (v, out)) :
    ∃ more t, out = g.out ++ more ∧
      readLoopIn fs term s fname fd fuel g w = some (v, ⟨t, w.args, w.out ++ more⟩) ∧
      OnlyFd w.files fd t ∧ ¬ t.Present fd := by
  induction fuel generalizing g w with
  | zero => cases h
  | succ fuel ih =>
    obtain ⟨h2, h8⟩ := hserves.range
    have hcount : (BitVec.ofNat 32 (grepBufsize - g.last)).toNat = grepBufsize - g.last := by
      rw [BitVec.toNat_ofNat, grepBufsize]
      omega
    obtain ⟨t, hread, hnext, honly⟩ := hserves.read (BitVec.ofNat 32 (grepBufsize - g.last)) term
    have hopen := hnext.present
    rw [hcount] at hread hnext
    set piece := (content.drop g.offset).take (grepBufsize - g.last) with hpiece
    have hread' : w.read fs term fd (grepBufsize - g.last) =
        some (⟨(piece.length : Int), piece⟩, { w with files := t }) := by
      rw [Task.read, hread]
      rfl
    have hne : (piece.length : Int) ≠ -1 := by omega
    have hw' : Task.OnTerminal { w with files := t } := honly.onTerminal h2 hw _ _
    simp only [readLoop, fullReads, ← hpiece, Option.bind_eq_bind, Option.bind_eq_some_iff] at h
    obtain ⟨g₁, hlines, h⟩ := h
    -- The lines of this read are found without the output before it.
    have hout := lineLoop_out (s := s) fname piece.length (grepBufsize + 2) g.out 0
      ⟨overwrite g.data g.last piece, g.last + piece.length, [], g.offset + piece.length⟩
    rw [List.append_nil, hlines] at hout
    obtain ⟨g₂, hlines', hg⟩ := Option.map_eq_some_iff.mp hout.symm
    subst hg
    have hputs := fdputsAll_terminal hw' g₂.out
    rw [readLoopIn, hread', Option.bind_eq_bind, Option.bind_some]
    simp only [hne, if_false, Int.toNat_natCast, hlines', Option.bind_eq_bind,
      Option.bind_some, hputs]
    by_cases hend : piece.length = 0
    · have hclose := close_present h2 h8 hopen
      simp only [hend, if_true, Option.some.injEq, Prod.mk.injEq] at h
      obtain ⟨rfl, rfl⟩ := h
      refine ⟨g₂.out, t.setFd fd { t.pcb.fd fd with flags := 0 }, rfl, ?_,
        honly.trans (onlyFd_setFd _ _ _), ?_⟩
      · simp only [hend, if_true, Task.close, hclose]
        rw [if_neg (by decide)]
        rfl
      · rw [present_setFd, if_pos rfl]
        simp [Fd.present]
    · rw [if_neg hend] at h ⊢
      have hoff : g₂.offset = g.offset + piece.length := lineLoop_offset hlines'
      obtain ⟨more, u, hmore, hrest, hlater, hclosed⟩ := ih (w := ⟨t, w.args, w.out ++ g₂.out⟩)
        (g := { g₂ with out := g.out ++ g₂.out }) (by simpa only [hoff] using hnext) hw' h
      refine ⟨g₂.out ++ more, u, by rw [hmore, List.append_assoc], ?_, honly.trans hlater, hclosed⟩
      rw [← List.append_assoc, ← hrest]
      cases fuel <;> rfl

end

/-! ## One file -/

/-- The text behind an entry of the directory: the contents of a regular file, and
nothing for the clock. -/
def textOf (fs : Filesys) (de : Dentry) : List UInt8 :=
  if de.fileType = 2 then fs.fileOf de.inodeNum else []

/-- A text for `grep`: no NULs, and no line that fills the buffer. -/
structure GrepText (t : List UInt8) : Prop where
  nulFree : 0 ∉ t
  short : ∀ l ∈ t.splitOn 10, l.length ≤ 1023

section
variable (hd : fs.DirectoryOk) (hsizes : fs.SizesAtMost (2 ^ 31 - 1)) (htypes : fs.KnownTypes)
include hd hsizes htypes

/-- A name that the lookup does not find. -/
theorem doOneFileIn_missing (fname : CString) (term : Ret) (data : Nat → UInt8) (hw : w.OnTerminal)
    (hlook : readDentryByName fs fname.chars = some (-1, none)) :
    doOneFileIn fs term fuel s fname data w = some (-1, { w with out := w.out ++ openFailed }) := by
  have hopen := open_opened hd hsizes htypes fname.chars w
  generalize hr : w.open' fs fname.chars = r at hopen
  cases hopen with
  | refused _ =>
    have hputs := fdputs_terminal (s := openFailed) hw (by decide)
    rw [doOneFileIn, hr, Option.bind_eq_bind, Option.bind_some]
    simp [hputs]
  | opened _ hfound => cases hlook.symm.trans hfound

/-- A name that the lookup finds: the lines of its text are printed, and its
descriptor is free again. -/
theorem doOneFileIn_found (fname : CString) (term : Ret) {data : Nat → UInt8}
    (hs : Searchable s.chars)
    (hdata : data 1024 ≠ 10) (hfuel : 2 ^ 31 < fuel) (hw : w.OnTerminal) {fd : Nat}
    (hfree : w.files.pcb.freeFd = some fd) {v : Int}
    {de : Dentry} (hlook : readDentryByName fs fname.chars = some (v, some de))
    (hdir : de.fileType ≠ 1) (htext : GrepText (textOf fs de)) :
    ∃ t, doOneFileIn fs term fuel s fname data w =
        some (0, ⟨t, w.args, w.out ++ hits s fname (textOf fs de)⟩) ∧
      OnlyFd w.files fd t ∧ ¬ t.Present fd := by
  have hopen := open_opened hd hsizes htypes fname.chars w
  generalize hr : w.open' fs fname.chars = r at hopen
  cases hopen with
  | refused hwhy =>
    rcases hwhy with hfull | hmissing
    · cases hfree.symm.trans hfull
    · cases hlook.symm.trans hmissing
  | opened hfree' hlook' hleast hpres htype =>
    rename_i fd' v' de' f
    cases hfree.symm.trans hfree'
    cases hlook.symm.trans hlook'
    have hown : (w.files.setFd fd f).pcb.fd fd = f := setFd_fd_same _ _ _
    have hpres' : (w.files.setFd fd f).Present fd := by
      rw [present_setFd, if_pos rfl]
      exact hpres
    have hserves : ServesFile fs fd (textOf fs de) (w.files.setFd fd f) 0 := by
      unfold textOf
      rcases htype with ⟨h, hfotp⟩ | ⟨h, -⟩ | ⟨h, hfotp, hinode, hfp, hin⟩
      · exact .rtc hleast.two_le hleast.lt hpres' (by rw [hown, hfotp]) (by simp [h])
      · exact absurd h hdir
      · refine .file ⟨⟨hleast.two_le, hleast.lt⟩, hpres', ?_, ?_, ?_, Nat.zero_le _⟩
          hin (by simp [h])
        · rw [hown, hfotp]
        · rw [hown, hinode]
        · rw [hown, hfp]
          rfl
    have hlen : (textOf fs de).length < 2 ^ 31 := by
      unfold textOf
      split
      next h =>
        rcases htype with ⟨h', -⟩ | ⟨h', -⟩ | ⟨-, -, -, -, hin⟩
        · exact absurd (h.symm.trans h') (by decide)
        · exact absurd h' hdir
        · have := hsizes de.inodeNum hin
          rw [fileOf_length]
          omega
      next => decide
    have hwhole := readLoop_whole fname hs (grepReading_start (textOf fs de) data) htext.nulFree
      (shortLines_of_splitOn htext.short) hdata (show (textOf fs de).length + 1 < fuel by omega)
    have hw' : Task.OnTerminal { w with files := w.files.setFd fd f } :=
      onTerminal_setFd f hw hleast.two_le
    obtain ⟨more, t, hmore, hloop, honly, hclosed⟩ := readLoopIn_eq term
      (w := { w with files := w.files.setFd fd f }) hserves hw' hwhole
    have hne : (fd : Int) ≠ -1 := by omega
    refine ⟨t, ?_, (onlyFd_setFd _ _ _).trans honly, hclosed⟩
    rw [doOneFileIn, hr, Option.bind_eq_bind, Option.bind_some]
    simp only [hne, if_false]
    have hmore' : hits s fname (textOf fs de) = more := by simpa using hmore
    rw [hloop, hmore']

end

/-! ## The directory -/

/-- What `grep` returns and prints for the names that the directory delivers. A name that starts
with a dot is passed over, and a name that cannot be opened ends the program. -/
def searchNames (fs : Filesys) (s : CString) : List (List UInt8) → Int × List UInt8
  | [] => (0, [])
  | c :: cs =>
      let fname : CString := ⟨cstring c, nul_not_mem_cstring c⟩
      if c.head? = some 46 then searchNames fs s cs
      else
        match readDentryByName fs fname.chars with
        | some (_, some de) => ((searchNames fs s cs).1,
            hits s fname (textOf fs de) ++ (searchNames fs s cs).2)
        | _ => (3, openFailed)

/-- The names that do not start with a dot and can be opened are those of texts. -/
def TextsOnly (fs : Filesys) (cs : List (List UInt8)) : Prop :=
  ∀ c ∈ cs, c.head? ≠ some 46 → ∀ v de, readDentryByName fs (cstring c) = some (v, some de) →
    de.fileType ≠ 1 ∧ GrepText (textOf fs de)

theorem cstring_concat_nul (c : List UInt8) : cstring (c ++ [0]) = cstring c := by
  unfold cstring
  induction c with
  | nil => rfl
  | cons x c ih => rw [List.cons_append, List.takeWhile_cons, List.takeWhile_cons, ih]

theorem findFree_congr {p q : Pcb} (h : ∀ j, (q.fd j).present = (p.fd j).present) (i n : Nat) :
    q.findFree i n = p.findFree i n := by
  induction n generalizing i with
  | zero => rfl
  | succ n ih => rw [Pcb.findFree, Pcb.findFree, h, ih]

/-- A descriptor that was free and is free again is the next one to be handed out. -/
theorem OnlyFd.freeFd {s t : Files} {fd : Nat} (h : OnlyFd s fd t) (hfree : s.pcb.freeFd = some fd)
    (hclosed : ¬ t.Present fd) : t.pcb.freeFd = some fd := by
  refine (findFree_congr ?_ 2 6).trans hfree
  intro j
  by_cases hj : j = fd
  · subst hj
    rw [eq_false_of_ne_true hclosed, eq_false_of_ne_true (leastFree_of_freeFd hfree).free]
  · rw [h.others j hj]

/-- The name that is passed to `do_one_file`. -/
theorem cstring_buf (buf : Nat → UInt8) {c : List UInt8} (hlen : c.length = 32) :
    cstring (slice (Function.update (overwrite buf 0 c) 32 0) 0 33) = cstring c := by
  have hslice : slice (Function.update (overwrite buf 0 c) 32 0) 0 32 = c := by
    rw [slice_congr (g := overwrite buf 0 c) _ fun j _ hj => Function.update_of_ne (by omega) _ _]
    rw [← hlen]
    exact slice_overwrite _ _ _
  rw [slice_succ_last, hslice, Nat.zero_add, Function.update_self, cstring_concat_nul]

section
variable (hd : fs.DirectoryOk) (hsizes : fs.SizesAtMost (2 ^ 31 - 1)) (htypes : fs.KnownTypes)
include hd hsizes htypes

/-- The loop over the directory. -/
theorem grepLoop_eq (term : Ret) {data : List UInt8 → Nat → UInt8} (hs : Searchable s.chars)
    (hdata : ∀ name, data name 1024 ≠ 10) {fileFuel : Nat} (hfuel : 2 ^ 31 < fileFuel) {fd d : Nat}
    (h2 : 2 ≤ d)
    (h8 : d < 8) {cs : List (List UInt8)} (hcs : cs.length < fuel) (htexts : TextsOnly fs cs)
    (buf : Nat → UInt8) (hw : w.OnTerminal) (hpres : w.files.Present d)
    (hfotp : (w.files.pcb.fd d).fotp = some .dir) (hfree : w.files.pcb.freeFd = some fd)
    (hnames : w.namesAhead fs = cs) :
    ∃ t, grepLoop fs term fileFuel s d data fuel buf w =
      some ((searchNames fs s cs).1, ⟨t, w.args, w.out ++ (searchNames fs s cs).2⟩) := by
  have hd8 := ofInt_fd h8
  induction cs generalizing fuel buf w with
  | nil =>
    obtain ⟨fuel, rfl⟩ : ∃ k, fuel = k + 1 := ⟨fuel - 1, by omega⟩
    have hread := sysRead_dir_end
      (BitVec.ofNat 32 32) (by rw [hd8]; exact h2) (by rw [hd8]; exact h8)
      (by rw [hd8]; exact hpres) (by rw [hd8]; exact hfotp) hnames term
    have hread' : w.read fs term d 32 = some (⟨0, []⟩, { w with files.dirIndex := 0 }) := by
      rw [Task.read, hread]
      rfl
    refine ⟨{ w.files with dirIndex := 0 }, ?_⟩
    simp [grepLoop, hread', searchNames]
  | cons c cs ih =>
    obtain ⟨fuel, rfl⟩ : ∃ k, fuel = k + 1 := ⟨fuel - 1, by simp at hcs; omega⟩
    obtain ⟨hlen, hrest, hread⟩ := sysRead_dir_next (BitVec.ofNat 32 32) (by rw [hd8]; exact h2)
      (by rw [hd8]; exact h8) (by rw [hd8]; exact hpres) (by rw [hd8]; exact hfotp) hnames
    have hcs' : cs.length < fuel := by simpa using hcs
    have htexts' : TextsOnly fs cs := fun c' hc' => htexts c' (List.mem_cons_of_mem _ hc')
    obtain ⟨w₁, hw₁⟩ : ∃ w₁ : Task, w₁ = { w with files.dirIndex := w.files.dirIndex + 1 } :=
      ⟨_, rfl⟩
    have hread' : w.read fs term d 32 = some (⟨32, c⟩, w₁) := by
      rw [Task.read, hread, hlen, hw₁]
      rfl
    have hw' : w₁.OnTerminal := by rw [hw₁]; exact hw
    have hpres' : w₁.files.Present d := by rw [hw₁]; exact hpres
    have hfotp' : (w₁.files.pcb.fd d).fotp = some .dir := by rw [hw₁]; exact hfotp
    have hfree' : w₁.files.pcb.freeFd = some fd := by rw [hw₁]; exact hfree
    have hnames' : w₁.namesAhead fs = cs := by rw [hw₁]; exact hrest
    have hargs : w₁.args = w.args := by rw [hw₁]
    have hout : w₁.out = w.out := by rw [hw₁]
    rw [grepLoop, hread', Option.bind_eq_bind, Option.bind_some, searchNames, ← hargs, ← hout]
    obtain ⟨x, xs, rfl⟩ := List.exists_cons_of_ne_nil (List.ne_nil_of_length_eq_add_one hlen)
    have hfirst : overwrite buf 0 (x :: xs) 0 = x := rfl
    have h32 : (32 : Int).toNat = 32 := rfl
    simp only [show ¬(32 : Int) =
      0 by decide, show ¬(32 : Int) = -1 by decide, if_false, hfirst, h32, cstring_buf buf hlen]
    by_cases hdot : x = 46
    · subst hdot
      simp only [List.head?_cons, if_true]
      exact ih hcs' htexts' _ hw' hpres' hfotp' hfree' hnames'
    · have hhead : ¬(x :: xs).head? = some 46 := fun h => hdot (Option.some.inj h)
      simp only [hdot, hhead, if_false]
      rcases readDentryByName_spec hd (cstring (x :: xs)) with hlook | ⟨de, hlook, -⟩
      · refine ⟨w₁.files, ?_⟩
        rw [doOneFileIn_missing hd hsizes htypes ⟨cstring (x :: xs), nul_not_mem_cstring _⟩ term
          _ hw' hlook, hlook]
        rfl
      · obtain ⟨hdir, htext⟩ := htexts (x :: xs) (by simp) hhead _ de hlook
        obtain ⟨t, hfile, honly, hclosed⟩ := doOneFileIn_found hd hsizes htypes
          ⟨cstring (x :: xs), nul_not_mem_cstring _⟩ term hs (hdata (cstring (x :: xs))) hfuel hw'
          hfree' hlook hdir htext
        have hleast := leastFree_of_freeFd hfree'
        have hne : d ≠ fd := by
          rintro rfl
          exact hleast.free hpres'
        have hsame := honly.others d hne
        obtain ⟨u, hloop⟩ :=
          ih (w := ⟨t, w₁.args, w₁.out ++ hits s ⟨cstring (x :: xs), nul_not_mem_cstring _⟩
          (textOf fs de)⟩) hcs' htexts' (Function.update (overwrite buf 0 (x :: xs)) 32 0)
          (honly.onTerminal hleast.two_le hw' _
            _) (by unfold Files.Present; rw [hsame]; exact hpres')
          (by rw [hsame]; exact hfotp') (honly.freeFd hfree' hclosed)
          (by rw [Task.namesAhead, honly.dirIndex]; exact hnames')
        refine ⟨u, ?_⟩
        rw [hfile, hlook, Option.bind_eq_bind, Option.bind_some, if_neg (not_not.mpr rfl), hloop]
        simp only [List.append_assoc]

/-- What `grep` returns and prints in a process that `execute` has started. -/
def grepResult (fs : Filesys) (w : Task) : Int × List UInt8 :=
  if firstWord w.args = [] ∨ 30 < (firstWord w.args).length then (3, noArgument)
  else
    match readDentryByName fs [46] with
    | some (_, some _) => searchNames fs ⟨firstWord w.args, nul_not_mem_commandName _⟩
        (w.namesAhead fs)
    | _ => (2, dirOpenFailed)

/-- `grep` prints the lines of the texts of its directory that contain its argument, file by file in
the order of the directory, each behind the name of its file. -/
theorem grep_prints_the_lines_that_match (term : Ret) (hfresh : FreshTable w.files)
    (hhead : w.args.head? ≠ some 32) (hlen : w.args.length < 1024)
    (hascii : ∀ c ∈ firstWord w.args, c < 128)
    (hdot : ∀ v de, readDentryByName fs [46] = some (v, some de) → de.fileType = 1)
    (htexts : TextsOnly fs (w.namesAhead fs)) (hfuel : 2 ^ 31 < fuel) (search buf : Nat → UInt8)
    (data : List UInt8 → Nat → UInt8) (hdata : ∀ name, data name 1024 ≠ 10) :
    ∃ files, grep fs term fuel search buf data w =
      some ((grepResult fs w).1, ⟨files, w.args, w.out ++ (grepResult fs w).2⟩) := by
  have hw : w.OnTerminal := ⟨(hfresh.present 1 (by decide)).mpr (by decide),
    hfresh.terminal 1 (by decide)⟩
  have hargs := getargs_firstWord hhead hlen
  unfold grepResult
  split at hargs
  next hno =>
    have hputs := fdputs_terminal (s := noArgument) hw (by decide)
    refine ⟨w.files, ?_⟩
    rw [if_pos hno, grep]
    simp only [hargs]
    simp [hputs]
  next hword =>
    obtain ⟨hzero, hname⟩ := hargs
    have hnul : 0 ∉ firstWord w.args := nul_not_mem_commandName _
    have hs : Searchable (firstWord w.args) := by
      refine ⟨fun hnil => hword (.inl hnil), fun c hc => ⟨?_, hascii c hc⟩⟩
      exact UInt8.pos_iff_ne_zero.mpr fun h => hnul (h ▸ hc)
    rw [if_neg hword, grep]
    simp only [hzero, ne_eq, not_true_eq_false, if_false, hname search]
    have hopen := open_opened hd hsizes htypes [46] w
    generalize w.open' fs [46] = r at hopen ⊢
    cases hopen with
    | refused hwhy =>
      have hputs := fdputs_terminal (s := dirOpenFailed) hw (by decide)
      have hmissing : readDentryByName fs [46] = some (-1, none) := by
        rcases hwhy with hfull | hmissing
        · exact absurd ((hfresh.present 2 (by decide)).mp
            (tableFull_of_freeFd hfull 2 (by decide) (by decide))) (by decide)
        · exact hmissing
      refine ⟨w.files, ?_⟩
      simp [hputs, hmissing]
    | opened hfree hlook hleast hpres htype =>
      rename_i d v de f
      have hdir : f.fotp = some .dir := by
        rcases htype with ⟨h, -⟩ | ⟨-, h⟩ | ⟨h, -⟩
        · exact absurd (h.symm.trans (hdot v de hlook)) (by decide)
        · exact h
        · exact absurd (h.symm.trans (hdot v de hlook)) (by decide)
      have hown : (w.files.setFd d f).pcb.fd d = f := setFd_fd_same _ _ _
      obtain ⟨fd, hfd⟩ : ∃ fd, (w.files.setFd d f).pcb.freeFd = some fd := by
        by_contra hnone
        have hfull := tableFull_of_freeFd
          (Option.eq_none_iff_forall_ne_some.mpr fun fd h => hnone ⟨fd, h⟩)
        obtain ⟨i, hi, hne⟩ : ∃ i, (2 ≤ i ∧ i < 8) ∧ i ≠ d := by
          by_cases h2 : d = 2
          · exact ⟨3, by decide, by omega⟩
          · exact ⟨2, by decide, fun h => h2 h.symm⟩
        have hpresent := hfull i hi.1 hi.2
        rw [present_setFd, if_neg hne, hfresh.present i hi.2] at hpresent
        omega
      have hcount : (w.namesAhead fs).length < fuel := by
        have := hd.numDe_le
        rw [Task.namesAhead, List.length_drop, dirNames_length]
        omega
      obtain ⟨files, hloop⟩ := grepLoop_eq (w := { w with files := w.files.setFd d f }) hd hsizes
        htypes term
        (s := ⟨firstWord w.args, hnul⟩) hs hdata hfuel hleast.two_le hleast.lt hcount htexts buf
        (onTerminal_setFd f hw hleast.two_le) (by rw [present_setFd, if_pos rfl]; exact hpres)
        (by rw [hown]; exact hdir) hfd rfl
      have hne : ¬(d : Int) = -1 := by omega
      refine ⟨files, ?_⟩
      rw [Option.bind_eq_bind, Option.bind_some]
      simp only [hne, if_false, hloop, hlook]

end

/-- An image with the directory `.` and a file `a` with the lines `ab` and `b`. -/
def grepMem (a : Word) : UInt8 :=
  if a = 0 then 2
  else if a = 4 ∨ a = 8 then 1
  else if a = 64 then 46
  else if a = 96 then 1
  else if a = 128 then 97
  else if a = 160 then 2
  else if a = 4096 then 4
  else if a = 8192 then 97
  else if a = 8193 ∨ a = 8195 then 98
  else if a = 8194 then 10
  else 0

/-- The file system over this memory. -/
def grepFs : Filesys := setFilesysMeta grepMem

/-- A search for `b`. -/
theorem grep_prints_the_lines_that_match_two : ∃ files,
    grep grepFs .fail (2 ^ 31 + 1) (fun _ => 0) (fun _ => 0) (fun _ _ => 0) ⟨freshFiles, [98], []⟩ =
      some (0, ⟨files, [98], [97, 58, 97, 98, 10, 97, 58, 98, 10]⟩) := by
  have hdir : grepFs.DirectoryOk := ⟨by decide, by decide, by decide⟩
  have hsizes : grepFs.SizesAtMost (2 ^ 31 - 1) := by
    intro inode h
    have hn : grepFs.n.toNat = 1 := by decide
    obtain rfl : inode = 0 := BitVec.eq_of_toNat_eq (by rw [hn] at h; simp; omega)
    decide
  have htypes : grepFs.KnownTypes := by
    unfold KnownTypes KnownType
    decide
  have hdot : ∀ v de, readDentryByName grepFs [46] = some (v, some de) → de.fileType = 1 := by
    intro v de h
    cases (rfl : readDentryByName grepFs [46] = some (_, some _)).symm.trans h
    rfl
  have htexts : TextsOnly grepFs (Task.namesAhead grepFs ⟨freshFiles, [98], []⟩) := by
    have hnames : Task.namesAhead grepFs ⟨freshFiles, [98], []⟩ =
        [46 :: List.replicate 31 0, 97 :: List.replicate 31 0] := by decide
    rw [hnames]
    intro c hc hhead v de hlook
    rcases List.mem_pair.mp hc with rfl | rfl
    · exact absurd rfl hhead
    · cases (rfl : readDentryByName grepFs (cstring (97 :: List.replicate 31 0)) =
        some (_, some _)).symm.trans hlook
      exact ⟨by decide, ⟨by decide, by decide⟩⟩
  have hascii : ∀ c ∈ firstWord [98], c < 128 := by
    rw [show firstWord [98] = [98] by decide]
    intro c hc
    rw [List.mem_singleton.mp hc]
    decide
  obtain ⟨files, hgrep⟩ := grep_prints_the_lines_that_match hdir hsizes htypes .fail
    (w := ⟨freshFiles, [98], []⟩) freshFiles_fresh (by decide) (by decide) hascii hdot htexts
    (Nat.lt_succ_self _) (fun _ => 0) (fun _ => 0) (fun _ _ => 0) fun _ => by decide
  have hresult : grepResult grepFs ⟨freshFiles, [98], []⟩ =
      (0, [97, 58, 97, 98, 10, 97, 58, 98, 10]) := by decide
  rw [hresult] at hgrep
  exact ⟨files, hgrep⟩

end OreOS
