import OreOS.Filesys.Proofs.Reads
import OreOS.Kernel.Command
import OreOS.Kernel.Proofs.DescriptorLeak
import OreOS.Kernel.Proofs.HalfOpened
import OreOS.Kernel.Proofs.Nesting
import OreOS.SysCall.Proofs.CommandLine

/-!
# What `execute` checks before it commits

A call of `execute` only goes on to `new_pde` when the first bytes of `file_buf` are those of an
executable, and before that it has written nothing but `args` and its own stack. What it does not
check is the length of the file: the bytes that a short file does not have are those of the stack,
and a file that is too long for the stack goes over the PCBs below it. And the arguments are stored
before the checks, so a call that fails leaves its own in `args`.
-/

namespace OreOS
open Machine

/-! ## The entry address -/

/-- Bits above those of `x`. -/
theorem or_shiftLeft_of_lt {n x : Nat} (hx : x < 2 ^ n) (y : Nat) :
    x ||| y <<< n = x + 2 ^ n * y := by
  have hsum := Nat.two_pow_add_eq_or_of_lt hx y
  rw [Nat.shiftLeft_eq, Nat.mul_comm y, Nat.or_comm, ← hsum, Nat.add_comm]

theorem toNat_setWidth_shiftLeft (b : UInt8) {k : Nat} (hk : k ≤ 24) :
    (b.toBitVec.setWidth 32 <<< k).toNat = b.toNat <<< k := by
  have hb := b.toNat_lt
  have hwide : (b.toBitVec.setWidth 32).toNat = b.toNat := by
    rw [BitVec.toNat_setWidth]
    exact Nat.mod_eq_of_lt (by simpa using Nat.lt_trans hb (by decide))
  rw [BitVec.toNat_shiftLeft, hwide]
  apply Nat.mod_eq_of_lt
  rw [Nat.shiftLeft_eq]
  calc b.toNat * 2 ^ k ≤ b.toNat * 2 ^ 24 :=
        Nat.mul_le_mul_left _ (Nat.pow_le_pow_right (by omega) hk)
    _ < 2 ^ 32 := by omega

/-- The entry address is the little-endian word of the four bytes. -/
theorem addrWord_eq (b : Nat → UInt8) :
    addrWord b = BitVec.ofNat 32 ((b 0).toNat + 256 * (b 1).toNat + 65536 * (b 2).toNat +
      16777216 * (b 3).toNat) := by
  have h0 := (b 0).toNat_lt
  have h1 := (b 1).toNat_lt
  have h2 := (b 2).toNat_lt
  have h3 := (b 3).toNat_lt
  apply BitVec.eq_of_toNat_eq
  have hfirst : ((b 0).toBitVec.setWidth 32).toNat = (b 0).toNat := by
    simp
  rw [addrWord, BitVec.toNat_or, BitVec.toNat_or, BitVec.toNat_or, hfirst,
    toNat_setWidth_shiftLeft _ (by omega), toNat_setWidth_shiftLeft _ (by omega),
    toNat_setWidth_shiftLeft _ (by omega), or_shiftLeft_of_lt (n := 8) (by omega),
    or_shiftLeft_of_lt (n := 16) (by omega), or_shiftLeft_of_lt (n := 24) (by omega),
    BitVec.toNat_ofNat]
  omega

/-! ## What a lookup reports -/

variable {fs : Filesys} {addr : Option Fotp → Word} {c : CommandCall} {l : Lookup} {K K' : Kernel}

theorem lookUpCommand_cases {t : Nat → Option UInt8} (h : lookUpCommand fs t = some l) :
    readDentryByName fs l.name = some (l.fileSize, l.dentry) := by
  simp only [lookUpCommand, Option.bind_eq_bind, Option.bind_eq_some_iff] at h
  obtain ⟨parts, -, name, -, ⟨size, de⟩, hread, hl⟩ := h
  cases hl
  exact hread

/-- A lookup that reports a size has found an entry. -/
theorem readDentryByName_found {fname : List UInt8} {size : Int} {found : Option Dentry}
    (h : readDentryByName fs fname = some (size, found)) (hsize : size ≠ -1) :
    ∃ de, found = some de ∧ size = (fs.inodeSize de.inodeNum).toInt := by
  unfold readDentryByName at h
  split at h
  · cases h
    exact absurd rfl hsize
  · split at h
    · cases h
    · split at h
      · cases h
        exact absurd rfl hsize
      next de _ =>
        cases h
        exact ⟨de, rfl, rfl⟩

/-! ## The checks -/

/-- The file that was found passes the check of its first bytes, as `file_buf` has them. -/
def LooksExecutable (fs : Filesys) (c : CommandCall) (l : Lookup) : Prop :=
  l.fileSize ≠ -1 ∧ ∃ de, l.dentry = some de ∧ de.inodeNum < fs.n ∧
    elfMagic (fun i => (fs.fileOf de.inodeNum).getD i (c.fileBuf i)) = true

/-- `read_data` delivers the whole file. -/
theorem readData_all {inode : Word} (hinode : inode < fs.n) :
    readData fs inode 0 (BitVec.ofInt 32 (fs.inodeSize inode).toInt) =
      (((fs.fileOf inode).length : Int), fs.fileOf inode) := by
  have hlen : (BitVec.ofInt 32 (fs.inodeSize inode).toInt).toNat = (fs.fileOf inode).length := by
    rw [BitVec.ofInt_toInt, fileOf_length]
  rw [readData_spec (BitVec.lt_def.mp hinode) (Nat.zero_le _), hlen]
  simp

/-- The second `read_data` delivers the bytes at 24 to 27. -/
theorem readData_header {inode : Word} (hinode : inode < fs.n)
    (hlen : 24 ≤ (fs.fileOf inode).length) :
    (readData fs inode 24#32 4#32).2 = ((fs.fileOf inode).drop 24).take 4 := by
  rw [fileOf_length] at hlen
  have hoffset : (24#32).toNat ≤ (fs.inodeSize inode).toNat := hlen
  rw [readData_spec (BitVec.lt_def.mp hinode) hoffset]
  rfl

theorem readData_noInode {inode : Word} (hinode : ¬ inode < fs.n) (offset length : Word) :
    readData fs inode offset length = (-1, []) := by
  rw [readData, if_pos (BitVec.not_lt.mp hinode)]

/-- The checks are passed exactly by what looks like an executable. -/
theorem checkFile_cases (hread : readDentryByName fs l.name = some (l.fileSize, l.dentry))
    (hsize : -1 ≤ l.fileSize) :
    (LooksExecutable fs c l ∧ ∃ de header, l.dentry = some de ∧
        l.fileSize = (fs.inodeSize de.inodeNum).toInt ∧ de.inodeNum < fs.n ∧
        (readData fs de.inodeNum 24#32 4#32).2 = header ∧
        checkFile fs c l = some (some (addrWord fun i => header.getD i (c.newAddr i)))) ∨
      (¬ LooksExecutable fs c l ∧ checkFile fs c l = some none) := by
  by_cases hnone : l.fileSize = -1
  · refine .inr ⟨fun h => h.1 hnone, ?_⟩
    rw [checkFile, if_pos hnone]
  · obtain ⟨de, hde, heq⟩ := readDentryByName_found hread hnone
    have hpos : ¬ l.fileSize < 0 := by omega
    by_cases hinode : de.inodeNum < fs.n
    · have hall := readData_all hinode
      have hlen : ¬ ((fs.fileOf de.inodeNum).length : Int) = -1 := by omega
      rw [← heq] at hall
      by_cases hmagic :
          elfMagic (fun i => (fs.fileOf de.inodeNum).getD i (c.fileBuf i)) = true
      · refine .inl ⟨⟨hnone, de, hde, hinode, hmagic⟩, de, _, hde, heq, hinode, rfl, ?_⟩
        simp only [checkFile, if_neg hnone, if_neg hpos, hde, Option.bind_eq_bind,
          Option.bind_some, hall, if_neg hlen, if_pos hmagic]
        rfl
      · refine .inr ⟨?_, ?_⟩
        · rintro ⟨-, de', hde', -, hmagic'⟩
          cases hde.symm.trans hde'
          exact hmagic hmagic'
        · simp only [checkFile, if_neg hnone, if_neg hpos, hde, Option.bind_eq_bind,
            Option.bind_some, hall, if_neg hlen, if_neg hmagic]
          rfl
    · refine .inr ⟨?_, ?_⟩
      · rintro ⟨-, de', hde', hinode', -⟩
        cases hde.symm.trans hde'
        exact hinode hinode'
      · simp only [checkFile, if_neg hnone, if_neg hpos, hde, Option.bind_eq_bind, Option.bind_some,
          readData_noInode hinode, if_true]
        rfl

/-! ## Executables -/

/-- The name is that of an executable: its file has at least 28 bytes and begins with the magic
    number, and the little-endian word at 24 is `entry`. -/
def NamesExecutable (fs : Filesys) (name : List UInt8) (entry : Word) : Prop :=
  ∃ de, readDentryByName fs name = some ((fs.inodeSize de.inodeNum).toInt, some de) ∧
    28 ≤ (fs.fileOf de.inodeNum).length ∧
    (fs.fileOf de.inodeNum).take 4 = [0x7F, 0x45, 0x4C, 0x46] ∧
    ∃ b0 b1 b2 b3, ((fs.fileOf de.inodeNum).drop 24).take 4 = [b0, b1, b2, b3] ∧
      entry = BitVec.ofNat 32 (b0.toNat + 256 * b1.toNat + 65536 * b2.toNat + 16777216 * b3.toNat)

/-- Four bytes of a list. -/
theorem take_four {bytes : List UInt8} (h : 4 ≤ bytes.length) (f : Nat → UInt8) :
    bytes.take 4 = [bytes.getD 0 (f 0), bytes.getD 1 (f 1), bytes.getD 2 (f 2),
      bytes.getD 3 (f 3)] := by
  match bytes, h with
  | b0 :: b1 :: b2 :: b3 :: rest, _ => rfl

theorem elfMagic_iff {bytes : List UInt8} (h : 4 ≤ bytes.length) (f : Nat → UInt8) :
    elfMagic (fun i => bytes.getD i (f i)) = true ↔ bytes.take 4 = [0x7F, 0x45, 0x4C, 0x46] := by
  rw [take_four h f]
  simp [elfMagic, and_assoc]

/-- What looks like an executable and is long enough is one, with the entry address that
    the checks report. -/
theorem namesExecutable_of_long (hread : readDentryByName fs l.name = some (l.fileSize, l.dentry))
    (hlooks : LooksExecutable fs c l) (hlong : 28 ≤ l.fileSize) {entry : Word}
    (hcheck : checkFile fs c l = some (some entry)) : NamesExecutable fs l.name entry := by
  rcases checkFile_cases (c := c) hread (by omega) with
    ⟨-, de, header, hde, hsize, hinode, hheader, hentry⟩ | ⟨hnot, -⟩
  · have hlen : 28 ≤ (fs.fileOf de.inodeNum).length := by
      have := BitVec.toInt_eq_toNat_cond (fs.inodeSize de.inodeNum)
      rw [fileOf_length]
      split at this <;> omega
    obtain ⟨-, de', hde', -, hmagic⟩ := hlooks
    cases hde.symm.trans hde'
    rw [readData_header hinode (by omega)] at hheader
    have hfour : 4 ≤ ((fs.fileOf de.inodeNum).drop 24).length := by
      rw [List.length_drop]
      omega
    have htake := take_four hfour (fun _ => 0)
    rw [htake] at hheader
    subst hheader
    rw [hcheck, addrWord_eq] at hentry
    refine ⟨de, ?_, hlen, (elfMagic_iff (by omega) c.fileBuf).mp hmagic, _, _, _, _, htake, ?_⟩
    · rw [hread, hde, hsize]
    · cases hentry
      rfl
  · exact absurd hlooks hnot

/-! ## Failing calls -/

/-- What `execute` commits is as before: the page directories and the table of slots, the globals of
    the scheduler, the task state segment and the PCBs of all processes. -/
structure Unchanged (K K' : Kernel) : Prop where
  paging : K'.paging = K.paging
  sched : K'.sched = K.sched
  tss : K'.tss = K.tss
  pcbs : ∀ q, K.paging.Live q → ∀ a, K.paging.slotPcb q = some a → K'.pcb a = K.pcb a

/-- `execute` goes on to `new_pde` only for an executable, with its entry address, and a call that
    returns -1 leaves kernel and arguments as they were. -/
structure ValidatesFirst (fs : Filesys) (addr : Option Fotp → Word) (c : CommandCall) (term : Nat)
    (K : Kernel) (args : List UInt8) : Prop where
  defined : ∃ l entry, lookUpCommand fs c.temp2 = some l ∧ checkFile fs c l = some entry
  reaches : ∀ l entry, lookUpCommand fs c.temp2 = some l → checkFile fs c l = some (some entry) →
    NamesExecutable fs l.name entry
  atomic : ∀ K' args', executeCommand fs addr c term K = some (.toCaller (-1), K', args') →
    Unchanged K K' ∧ args' = args

/-- The name and the arguments that the line of the command has, and what the directory
    says of the name. -/
def CommandCall.named (fs : Filesys) (c : CommandCall) : Lookup :=
  let found := (readDentryByName fs (commandName c.command)).getD (-1, none)
  ⟨commandName c.command, arguments c.command, found.1, found.2⟩

/-- A check of the file fails, or there is no slot. -/
def Refused (fs : Filesys) (c : CommandCall) (l : Lookup) (K : Kernel) : Prop :=
  ¬ LooksExecutable fs c l ∨ K.paging.freeSlot = 7

/-- The frames of the call and a file of this size fit above the PCB of the caller, or there are no
    processes yet. -/
def CommandCall.Fits (c : CommandCall) (K : Kernel) (fileSize : Int) : Prop :=
  (∀ q, ¬ K.paging.Live q) ∨ StackRoom K (c.above + fileSize.toNat + c.below)

/-- The size of the file is no negative number, what looks like an executable has 28 bytes, and a
    command that is refused has the arguments that `args` holds. -/
structure CallSound (fs : Filesys) (c : CommandCall) (K : Kernel) (args : List UInt8) : Prop where
  size : -1 ≤ (c.named fs).fileSize
  header : LooksExecutable fs c (c.named fs) → 28 ≤ (c.named fs).fileSize
  refused : Refused fs c (c.named fs) K → arguments c.command = args

/-- A line that the copy of the command holds is looked up by its name. -/
theorem lookUpCommand_named (hline : (lineOf c.command).length < 20) (hde : 0 < fs.numDe.toInt) :
    lookUpCommand fs c.temp2 = some (c.named fs) := by
  obtain ⟨found, hread⟩ := readDentryByName_isSome hde (commandName c.command)
  have hname := (List.takeWhile_prefix (fun c => !endsName c) (l := lineOf c.command)).length_le
  rw [← commandName_eq] at hname
  simp only [CommandCall.temp2, lookUpCommand, takeCommand_temp2 c.behind c.junk hline,
    Option.bind_eq_bind, Option.bind_some, arrayString_padded (nul_not_mem_commandName c.command)
      (show 0 < 32 - (commandName c.command).length by omega), hread, CommandCall.named,
    Option.getD_some]
  rfl

/-- With its checks, `execute` is the one of the kernel model on the stack that the call takes,
    with the entry address that the checks report; what it stores are the arguments that
    `parseArgs` finds. -/
theorem executeCommand_cases {term : Nat} {x : Exit} {args : List UInt8}
    (h : executeCommand fs addr c term K = some (x, K', args)) :
    parseArgs c.temp2 = some args ∧ ∃ l prog, lookUpCommand fs c.temp2 = some l ∧ l.args = args ∧
      checkFile fs c l = some prog ∧
      execute term prog c.frame (K.takeStack addr (c.stackUse fs l)) = some (x, K') := by
  simp only [executeCommand, Option.bind_eq_bind, Option.bind_eq_some_iff] at h
  obtain ⟨l, hl, prog, hcheck, ⟨y, K₁⟩, hexec, h⟩ := h
  cases h
  refine ⟨?_, l, prog, hl, rfl, hcheck, hexec⟩
  simp only [lookUpCommand, Option.bind_eq_bind, Option.bind_eq_some_iff] at hl
  obtain ⟨parts, hparts, name, -, ⟨size, de⟩, -, hl⟩ := hl
  cases hl
  rw [← takeCommand_args, hparts]
  rfl

/-- A stack that fits changes nothing that counts. -/
theorem CommandCall.Fits.unchanged (h : c.Fits K l.fileSize) (hP : PagingInv K.paging) :
    Unchanged K (K.takeStack addr (c.stackUse fs l)) where
  paging := rfl
  sched := rfl
  tss := rfl
  pcbs := by
    intro q hq a ha
    rcases h with hnone | hroom
    · exact absurd hq (hnone q)
    · exact takeStack_pcb (hroom.sparesPcbs hP q (hq.lt hP.slot7) a ha)

/-! ## Calls that are refused -/

/-- A call that is refused returns -1, and has stored its arguments and used its stack. -/
theorem executeCommand_of_refused (hl : lookUpCommand fs c.temp2 = some l) (hsize : -1 ≤ l.fileSize)
    (h : Refused fs c l K) (term : Nat) :
    executeCommand fs addr c term K =
      some (.toCaller (-1), K.takeStack addr (c.stackUse fs l), l.args) := by
  simp only [executeCommand, hl, Option.bind_eq_bind, Option.bind_some]
  rcases checkFile_cases (c := c) (lookUpCommand_cases hl) hsize with
    ⟨hlooks, de, header, -, -, -, -, hcheck⟩ | ⟨-, hcheck⟩
  · rcases h with hnot | hslot
    · exact absurd hlooks hnot
    · rw [hcheck, Option.bind_some, execute_noSlot (K := K.takeStack _ _) hslot]
      rfl
  · rw [hcheck]
    rfl

/-- A call that returns -1 was refused. -/
theorem refused_of_executeCommand {term : Nat} {args' : List UInt8}
    (hl : lookUpCommand fs c.temp2 = some l) (hsize : -1 ≤ l.fileSize)
    (h : executeCommand fs addr c term K = some (.toCaller (-1), K', args')) :
    Refused fs c l K ∧ K' = K.takeStack addr (c.stackUse fs l) ∧ args' = l.args := by
  obtain ⟨-, l', entry, hl', rfl, hcheck, hexec⟩ := executeCommand_cases h
  cases hl.symm.trans hl'
  obtain ⟨hsame, hrefused⟩ := execute_toCaller hexec
  refine ⟨?_, hsame, rfl⟩
  rcases hrefused with rfl | hslot
  · rcases checkFile_cases (c := c) (lookUpCommand_cases hl) hsize with
      ⟨-, de, header, -, -, -, -, hsome⟩ | ⟨hnot, -⟩
    · cases hcheck.symm.trans hsome
    · exact .inl hnot
  · exact .inr hslot

theorem callSound_of_validates {term : Nat} {args : List UInt8}
    (hl : lookUpCommand fs c.temp2 = some (c.named fs)) (h : ValidatesFirst fs addr c term K args) :
    CallSound fs c K args := by
  obtain ⟨l, entry, hl', hcheck⟩ := h.defined
  cases hl.symm.trans hl'
  have hread := lookUpCommand_cases hl
  have hsize : -1 ≤ (c.named fs).fileSize := by
    by_contra hneg
    rw [checkFile, if_neg (by omega), if_pos (by omega)] at hcheck
    cases hcheck
  refine ⟨hsize, ?_, ?_⟩
  · intro hlooks
    rcases checkFile_cases (c := c) hread hsize with
      ⟨-, de, header, hde, heq, -, -, hsome⟩ | ⟨hnot, -⟩
    · obtain ⟨de', hread', hlong, -⟩ := h.reaches _ _ hl hsome
      rw [hread, hde, Option.some.injEq, Prod.mk.injEq, Option.some.injEq] at hread'
      obtain ⟨-, rfl⟩ := hread'
      rw [fileOf_length] at hlong
      have hcond := BitVec.toInt_eq_toNat_cond (fs.inodeSize de.inodeNum)
      have hne := hlooks.1
      split at hcond <;> omega
    · exact absurd hlooks hnot
  · intro hrefused
    exact (h.atomic _ _ (executeCommand_of_refused hl hsize hrefused term)).2

theorem validates_of_callSound {args : List UInt8}
    (hl : lookUpCommand fs c.temp2 = some (c.named fs)) (hP : PagingInv K.paging)
    (hfits : Refused fs c (c.named fs) K → c.Fits K (c.named fs).fileSize)
    (h : CallSound fs c K args) (term : Nat) : ValidatesFirst fs addr c term K args where
  defined := by
    rcases checkFile_cases (c := c) (lookUpCommand_cases hl) h.size with
      ⟨-, de, header, -, -, -, -, hcheck⟩ | ⟨-, hcheck⟩
    · exact ⟨_, _, hl, hcheck⟩
    · exact ⟨_, _, hl, hcheck⟩
  reaches := by
    intro l' entry hl' hcheck
    cases hl.symm.trans hl'
    have hread := lookUpCommand_cases hl
    rcases checkFile_cases (c := c) hread h.size with ⟨hlooks, -⟩ | ⟨-, hnone⟩
    · exact namesExecutable_of_long hread hlooks (h.header hlooks) hcheck
    · cases hcheck.symm.trans hnone
  atomic := by
    intro K' args' hcall
    obtain ⟨hrefused, rfl, rfl⟩ := refused_of_executeCommand hl h.size hcall
    exact ⟨(hfits hrefused).unchanged hP, h.refused hrefused⟩

/-- A call of `execute` whose line the copy of the command holds and whose stack has room
    checks before it commits, and fails without a trace, exactly when nothing shorter than 28
    bytes is mistaken for an executable and, if the call is refused, the command has the
    arguments that were there. -/
theorem execute_validates_first_iff {fs : Filesys} {addr : Option Fotp → Word} {pteAddr : Word}
    {mem : Word → Pcb} {es : List (Event × StackUse)} {K : Kernel}
    (hrun : runFrom (stackStep fs addr) (bootWith pteAddr mem) es = some K) {c : CommandCall}
    (hline : (lineOf c.command).length < 20) (hde : 0 < fs.numDe.toInt)
    (hfits : Refused fs c (c.named fs) K → c.Fits K (c.named fs).fileSize) (term : Nat)
    (args : List UInt8) : ValidatesFirst fs addr c term K args ↔ CallSound fs c K args :=
  ⟨callSound_of_validates (lookUpCommand_named hline hde), fun h =>
    validates_of_callSound (lookUpCommand_named hline hde) (pagingInv_of_run hrun) hfits h term⟩

/-- The command `a` on a cleared stack. -/
def callA : CommandCall :=
  { command := [97]
    behind := fun _ => 0
    junk := fun _ => 0
    fileBuf := fun _ => 0
    newAddr := fun _ => 0
    frame := callFrame
    above := 300
    below := 97
    left := fun _ => some 0 }

/-- The shell executes a text. -/
theorem execute_validates_first_text :
    ∃ K, runFrom (stackStep sampleFs fun _ => 0) clearBoot (onStack (openFile.take 1)) = some K ∧
      ValidatesFirst sampleFs (fun _ => 0) callA 0 K [] := by
  obtain ⟨K, hK⟩ : ∃ K, runFrom (kernelStep sampleFs) clearBoot
      ((openFile ++ closeHaltExecute).take 1) = some K := ⟨_, rfl⟩
  have hroom := (closeHaltExecute_checked.roomy_at (n := 1) rfl (by decide) hK).1
  have hrel := closeHaltExecute_checked.agrees 1
  rw [hK] at hrel
  obtain ⟨L, hL, hagree⟩ := exists_of_rel_left hrel
  obtain ⟨m, rfl, -⟩ := hagree.exists_pcb
  -- the shell's stack has room for the text
  have hsize : (callA.named sampleFs).fileSize = 3 := by decide
  have hfits : callA.Fits { K with pcb := m } (callA.named sampleFs).fileSize := by
    rw [hsize]
    exact .inr hroom
  refine ⟨_, hL, (execute_validates_first_iff hL (by decide) (by decide) (fun _ => hfits) 0 []).mpr
    ⟨by rw [hsize]; decide, fun hlooks => ?_, fun _ => by decide⟩⟩
  -- and is not taken for an executable
  have hdentry : (callA.named sampleFs).dentry.map Dentry.inodeNum = some 0#32 := by decide
  obtain ⟨-, de, hde, -, hmagic⟩ := hlooks
  rw [hde, Option.map_some, Option.some.injEq] at hdentry
  rw [hdentry] at hmagic
  exact absurd hmagic (by decide)

/-- A directory with one entry, whose name is empty. -/
def emptyNameFs : Filesys := ⟨fun _ => 0, 1#32, 0#32, 0#32⟩

/-- The command `b y` on a cleared stack. -/
def callBY : CommandCall := { callA with command := [98, 32, 121] }

/-- A program that the shell has started with the argument `x` executes `b y`, which does not exist.
    The call is refused and leaves `y` in `args`. -/
theorem refused_command_stores_arguments :
    ¬ ∀ (fs : Filesys) (addr : Option Fotp → Word) (pteAddr : Word) (mem : Word → Pcb)
      (es : List (Event × StackUse)) (K : Kernel),
      runFrom (stackStep fs addr) (bootWith pteAddr mem) es = some K →
        ∀ (c : CommandCall) (args : List UInt8), ValidatesFirst fs addr c
        (K.home K.user) K args := by
  intro hall
  -- the shell has started the program
  obtain ⟨K, hrun⟩ : ∃ K, runFrom (stackStep emptyNameFs fun _ => 0) clearBoot
      (onStack (openFile.take 2)) = some K := ⟨_, rfl⟩
  have hsound := callSound_of_validates (lookUpCommand_named (by decide) (by decide))
    (hall _ _ _ _ _ K hrun callBY [120])
  have hnone : (callBY.named emptyNameFs).fileSize = -1 := by decide
  exact absurd (hsound.refused (.inl fun hlooks => hlooks.1 hnone)) (by decide)

end OreOS
