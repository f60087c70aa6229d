import OreOS.Filesys.Checked
import OreOS.Filesys.Proofs.Reads

/-!
# Damaged images

Nothing is assumed of the directory entries, the sizes and the block numbers. The boot block is
always inside the image, so the search for a name is; what can lead outside is the inode number
that the entry holds, the inode number that `read_data` is given, and the block numbers of an inode.
-/

namespace OreOS
open Machine Filesys

variable {fs : Filesys}

/-! ## Single reads -/

theorem byteAt_eq {a : Word} (h : a.toNat < fs.imageSize) :
    fs.byteAt a = some (fs.mem a) := if_pos h

theorem imageSize_mod_four (fs : Filesys) : fs.imageSize % 4 = 0 := by
  unfold Filesys.imageSize
  omega

/-- A word that is aligned is inside when its first byte is. -/
theorem wordAt_eq {a : Word} (halign : a.toNat % 4 = 0) :
    fs.wordAt a = if a.toNat < fs.imageSize then some (readWord fs.mem a) else none := by
  have hsize := imageSize_mod_four fs
  have ha := a.isLt
  have h1 : (a + 1#32).toNat = a.toNat + 1 := by
    rw [BitVec.toNat_add, BitVec.toNat_ofNat]
    omega
  have h2 : (a + 2#32).toNat = a.toNat + 2 := by
    rw [BitVec.toNat_add, BitVec.toNat_ofNat]
    omega
  have h3 : (a + 3#32).toNat = a.toNat + 3 := by
    rw [BitVec.toNat_add, BitVec.toNat_ofNat]
    omega
  by_cases hin : a.toNat < fs.imageSize
  · rw [if_pos hin, wordAt, byteAt_eq hin, byteAt_eq (by omega : (a + 1#32).toNat < _),
      byteAt_eq (by omega : (a + 2#32).toNat < _), byteAt_eq (by omega : (a + 3#32).toNat < _)]
    rfl
  · rw [if_neg hin, wordAt, byteAt, if_neg hin]
    rfl

theorem inodeOff_aligned (inode : Word) : (inodeOff inode).toNat % 4 = 0 := by
  simp only [inodeOff, BitVec.toNat_add, BitVec.toNat_mul, BitVec.toNat_ofNat]
  omega

theorem blockOff_aligned (inode k : Word) : (blockOff inode k).toNat % 4 = 0 := by
  simp only [blockOff, inodeOff, BitVec.toNat_add, BitVec.toNat_mul, BitVec.toNat_ofNat]
  omega

/-- A data block that the header counts is in the image. -/
theorem dataOff_lt (hfits : fs.imageSize ≤ 2 ^ 32) {block pos : Word} (h : block < fs.d) :
    (fs.dbOff + (4096#32 * block + pos % 4096#32)).toNat < fs.imageSize := by
  have hblock : block.toNat < fs.d.toNat := h
  have hpos : (pos % 4096#32).toNat < 4096 := by
    rw [BitVec.toNat_umod]
    exact Nat.mod_lt _ (by decide)
  unfold Filesys.imageSize at hfits ⊢
  simp only [dbOff, BitVec.toNat_add, BitVec.toNat_mul, BitVec.toNat_ofNat]
  generalize (pos % 4096#32).toNat = r at hpos ⊢
  have hn := fs.n.isLt
  omega

/-! ## Lookups -/

theorem strncmpAt_eq {s1 s2 : Nat → UInt8} {a i n : Nat}
    (hin : a + i + n ≤ fs.imageSize) (h32 : a + i + n ≤ 2 ^ 32)
    (hs2 : ∀ k, i ≤ k → k < i + n → s2 k = fs.mem (BitVec.ofNat 32 (a + k))) :
    fs.strncmpAt s1 a i n = some (strncmpFrom s1 s2 i n) := by
  induction n generalizing i with
  | zero => rfl
  | succ n ih =>
    have haddr : (BitVec.ofNat 32 (a + i)).toNat = a + i := by
      rw [BitVec.toNat_ofNat]
      omega
    rw [strncmpAt, byteAt_eq (by omega : (BitVec.ofNat 32 (a + i)).toNat < _),
      ← hs2 i (by omega) (by omega), strncmpFrom]
    simp only [Option.bind_eq_bind, Option.bind_some]
    split
    · rfl
    · exact ih (by omega) (by omega) fun k hk hk' => hs2 k (by omega) (by omega)

theorem strncpyAt_eq {src : Nat → UInt8} {a i n : Nat} (hin : a + i + n ≤ fs.imageSize)
    (h32 : a + i + n ≤ 2 ^ 32)
    (hsrc : ∀ k, i ≤ k → k < i + n → src k = fs.mem (BitVec.ofNat 32 (a + k))) :
    fs.strncpyAt a i n = some (strncpyFrom src i n) := by
  induction n generalizing i with
  | zero => rfl
  | succ n ih =>
    have haddr : (BitVec.ofNat 32 (a + i)).toNat = a + i := by
      rw [BitVec.toNat_ofNat]
      omega
    have hrest := ih (i := i + 1) (by omega) (by omega) fun k hk hk' => hsrc k (by omega) (by omega)
    rw [strncpyAt, byteAt_eq (by omega : (BitVec.ofNat 32 (a + i)).toNat < _),
      ← hsrc i (by omega) (by omega), strncpyFrom, hrest]
    simp only [Option.bind_eq_bind, Option.bind_some, Option.pure_def]
    split <;> rfl

/-- The name of a directory entry, byte by byte. -/
theorem dentryAt_name (i : Nat) {k : Nat} (hk : k < 32) :
    cstr (fs.dentryAt i).fileName k = fs.mem (BitVec.ofNat 32 (64 + 64 * i + k)) := by
  simp [cstr, dentryAt, hk]

theorem boot_block_le (fs : Filesys) : 4096 ≤ fs.imageSize := by
  unfold Filesys.imageSize
  omega

/-- The search stays in the boot block. -/
theorem findDentryIn_eq (fname : List UInt8) {n i : Nat} (h : i + n ≤ 63) :
    fs.findDentryIn fname n i = some (findDentry fs fname n i) := by
  have hboot := boot_block_le fs
  induction n generalizing i with
  | zero => rfl
  | succ n ih =>
    have hname : ∀ k, 0 ≤ k → k < 0 + 32 →
        cstr (fs.dentryAt i).fileName k = fs.mem (BitVec.ofNat 32 (64 + 64 * i + k)) :=
      fun k _ hk => dentryAt_name i (by omega)
    have hword {j : Nat} (hj : 64 + 64 * i + j < 4096) (h4 : j % 4 = 0) :
        fs.wordAt (BitVec.ofNat 32 (64 + 64 * i + j)) =
          some (readWord fs.mem (BitVec.ofNat 32 (64 + 64 * i + j))) := by
      have haddr : (BitVec.ofNat 32 (64 + 64 * i + j)).toNat = 64 + 64 * i + j := by
        rw [BitVec.toNat_ofNat]
        omega
      rw [wordAt_eq (by omega), if_pos (by omega)]
    have hcmp : fs.strncmpAt (cstr fname) (64 + 64 * i) 0 32 =
        some (strncmp (cstr fname) (cstr (fs.dentryAt i).fileName) 32) :=
      strncmpAt_eq (by omega) (by omega) hname
    have hcpy : fs.strncpyAt (64 + 64 * i) 0 32 =
        some (strncpy (cstr (fs.dentryAt i).fileName) 32) :=
      strncpyAt_eq (by omega) (by omega) hname
    rw [findDentryIn, hcmp, hcpy, hword (by omega) rfl, hword (by omega) rfl, ih (by omega)]
    simp only [findDentry, Option.bind_eq_bind, Option.bind_some, Option.pure_def]
    by_cases heq : strncmp (cstr fname) (cstr (fs.dentryAt i).fileName) 32 = 0
    · rw [if_pos heq, if_pos heq]
      rfl
    · rw [if_neg heq, if_neg heq]

/-- The size of an inode can be read when the inode is in the image. -/
theorem wordAt_inodeOff (inode : Word) :
    fs.wordAt (inodeOff inode) =
      if (inodeOff inode).toNat < fs.imageSize then some (fs.inodeSize inode) else none :=
  wordAt_eq (inodeOff_aligned inode)

/-- The lookup reads the image only. -/
def LookupInside (fs : Filesys) (fname : List UInt8) : Prop :=
  ∃ r, fs.readDentryByNameIn fname = some r

/-- What a lookup needs: a name that is too long, or a directory in which the entry that is found,
if any, holds the number of an inode in the image. -/
theorem lookupInside_iff (hnum : fs.numDe.toNat ≤ 63) (fname : List UInt8) :
    LookupInside fs fname ↔
      31 < fname.length ∨ 1 ≤ fs.numDe.toNat ∧
        ∀ de, findDentry fs fname fs.numDe.toNat 0 = some de →
          (inodeOff de.inodeNum).toNat < fs.imageSize := by
  have hint : fs.numDe.toInt = fs.numDe.toNat := BitVec.toInt_eq_toNat_of_lt (by omega)
  unfold LookupInside readDentryByNameIn
  by_cases hlen : 31 < fname.length
  · simp [hlen]
  by_cases hzero : fs.numDe.toNat = 0
  · rw [if_neg hlen, if_pos (by omega)]
    simp [hlen, hzero]
  rw [if_neg hlen, if_neg (by omega), findDentryIn_eq fname (by omega)]
  simp only [hlen, false_or, Option.bind_eq_bind, Option.bind_some]
  rw [and_iff_right (by omega)]
  cases findDentry fs fname fs.numDe.toNat 0 with
  | none => simp
  | some de =>
    simp only [wordAt_inodeOff, Option.some.injEq, forall_eq']
    by_cases hin : (inodeOff de.inodeNum).toNat < fs.imageSize <;> simp [hin]

/-- Where the checked lookup is defined, its result is that of the other one. -/
theorem readDentryByNameIn_eq (hnum : fs.numDe.toNat ≤ 63) {fname : List UInt8}
    {r : Int × Option Dentry} (h : fs.readDentryByNameIn fname = some r) :
    readDentryByName fs fname = some r := by
  unfold readDentryByNameIn at h
  unfold readDentryByName
  by_cases hlen : 31 < fname.length
  · rw [if_pos hlen] at h ⊢
    exact h
  rw [if_neg hlen] at h ⊢
  by_cases hzero : fs.numDe.toInt ≤ 0
  · rw [if_pos hzero] at h
    cases h
  rw [if_neg hzero, findDentryIn_eq fname (by omega)] at h
  rw [if_neg hzero]
  simp only [Option.bind_eq_bind, Option.bind_some] at h
  cases hfind : findDentry fs fname fs.numDe.toNat 0 with
  | none =>
    rw [hfind] at h
    exact h
  | some de =>
    rw [hfind] at h
    simp only [wordAt_inodeOff] at h
    split at h
    · exact h
    · cases h

/-! ## Reads -/

/-- The number of the block that holds a position can be read when it is in the image. -/
theorem wordAt_blockOff (inode k : Word) :
    fs.wordAt (blockOff inode k) =
      if (blockOff inode k).toNat < fs.imageSize then some (fs.inodeBlock inode k) else none :=
  wordAt_eq (blockOff_aligned inode k)

/-- A byte that can be read is the one that `read_data` delivers. -/
theorem dataByteIn_eq_some {inode pos : Word} {b : UInt8} (h : fs.dataByteIn inode pos = some b) :
    (blockOff inode (pos / 4096#32)).toNat < fs.imageSize ∧ b = fs.dataByte inode pos := by
  simp only [dataByteIn, wordAt_blockOff] at h
  split at h
  next hin =>
    simp only [Option.bind_eq_bind, Option.bind_some, byteAt] at h
    split at h
    · cases h
      exact ⟨hin, rfl⟩
    · cases h
  · cases h

/-- A byte of a block that the header counts can be read. -/
theorem dataByteIn_eq (hfits : fs.imageSize ≤ 2 ^ 32) {inode pos : Word}
    (hin : (blockOff inode (pos / 4096#32)).toNat < fs.imageSize)
    (hblock : fs.inodeBlock inode (pos / 4096#32) < fs.d) :
    fs.dataByteIn inode pos = some (fs.dataByte inode pos) := by
  simp only [dataByteIn, wordAt_blockOff, if_pos hin, Option.bind_eq_bind, Option.bind_some]
  exact byteAt_eq (dataOff_lt hfits hblock)

/-- The positions of a file that a call reads. -/
def Needed (fs : Filesys) (inode offset length : Word) (pos : Word) : Prop :=
  offset ≤ pos ∧ pos.toNat < offset.toNat + length.toNat ∧ pos < fs.inodeSize inode

/-- The loop is defined when the bytes it comes to can be read, and delivers them. -/
theorem copyLoopIn_eq_some_iff {inode offset size : Word} {fuel i : Nat}
    (h : offset.toNat + i ≤ size.toNat) :
    (∃ bytes, fs.copyLoopIn inode offset size fuel i = some bytes) ↔
      ∀ pos : Word, offset.toNat + i ≤ pos.toNat → pos.toNat < offset.toNat + i + fuel →
      pos < size →
        ∃ b, fs.dataByteIn inode pos = some b := by
  have hsize := size.isLt
  induction fuel generalizing i with
  | zero =>
    apply iff_of_true ⟨[], rfl⟩
    intro pos hle hlt _
    omega
  | succ fuel ih =>
    have hsum : (BitVec.ofNat 32 i + offset).toNat = offset.toNat + i := by
      rw [BitVec.toNat_add, BitVec.toNat_ofNat]
      omega
    rw [copyLoopIn]
    by_cases hend : size ≤ BitVec.ofNat 32 i + offset
    · have hge := BitVec.le_def.mp hend
      rw [if_pos hend]
      apply iff_of_true ⟨[], rfl⟩
      intro pos hle _ hlt
      have hlt := BitVec.lt_def.mp hlt
      omega
    · have hlt := BitVec.lt_def.mp (BitVec.not_le.mp hend)
      rw [if_neg hend]
      have hpos : offset + BitVec.ofNat 32 i = BitVec.ofNat 32 (offset.toNat + i) := by
        apply BitVec.eq_of_toNat_eq
        rw [BitVec.add_comm, hsum, BitVec.toNat_ofNat]
        omega
      have hrest := ih (i := i + 1) (by omega)
      simp only [Option.bind_eq_bind, Option.bind_eq_some_iff, Option.pure_def, Option.some.injEq]
      constructor
      · rintro ⟨bytes, b, hb, rest, hrun, -⟩ pos hle hlt' hpos'
        by_cases heq : pos.toNat = offset.toNat + i
        · refine ⟨b, ?_⟩
          rw [← hb, hpos, ← heq, BitVec.ofNat_toNat, BitVec.setWidth_eq]
        · exact hrest.mp ⟨rest, hrun⟩ pos (by omega) (by omega) hpos'
      · intro hall
        have hpos32 : (BitVec.ofNat 32 (offset.toNat + i)).toNat = offset.toNat + i := by
          rw [BitVec.toNat_ofNat]
          omega
        obtain ⟨b, hb⟩ := hall (BitVec.ofNat 32 (offset.toNat + i)) (by omega) (by omega)
          (BitVec.lt_def.mpr (by omega))
        obtain ⟨rest, hrun⟩ := hrest.mpr fun pos hle hlt' hpos' =>
          hall pos (by omega) (by omega) hpos'
        exact ⟨_, b, by rw [hpos]; exact hb, rest, hrun, rfl⟩

/-- Where the checked loop is defined, it delivers what the other one does. -/
theorem copyLoopIn_eq {inode offset size : Word} {fuel i : Nat} {bytes : List UInt8}
    (h : fs.copyLoopIn inode offset size fuel i = some bytes) :
    copyLoop fs inode offset size fuel i = bytes := by
  induction fuel generalizing i bytes with
  | zero =>
    cases h
    rfl
  | succ fuel ih =>
    rw [copyLoopIn] at h
    rw [copyLoop]
    by_cases hend : size ≤ BitVec.ofNat 32 i + offset
    · rw [if_pos hend] at h ⊢
      exact Option.some.inj h
    · rw [if_neg hend] at h ⊢
      simp only [Option.bind_eq_bind, Option.bind_eq_some_iff, Option.pure_def,
        Option.some.injEq] at h
      obtain ⟨b, hb, rest, hrest, rfl⟩ := h
      rw [(dataByteIn_eq_some hb).2, ih hrest]

/-- The call reads the image only, and returns -1 for an inode number from `N` on and for a file
that needs a block number from `D` on. -/
def ReadInside (fs : Filesys) (inode offset length : Word) : Prop :=
  ∃ r bytes, fs.readDataIn inode offset length = some (r, bytes) ∧
    (fs.n ≤ inode → r = -1) ∧
    ∀ pos, Needed fs inode offset length pos → fs.d ≤ fs.inodeBlock inode (pos / 4096#32) → r = -1

/-- The loop in terms of the positions that are needed. -/
theorem copyLoopIn_defined_iff (inode offset length : Word) :
    (∃ bytes, fs.copyLoopIn inode offset (fs.inodeSize inode) length.toNat 0 = some bytes) ↔
      ∀ pos, Needed fs inode offset length pos → ∃ b, fs.dataByteIn inode pos = some b := by
  by_cases hoff : fs.inodeSize inode ≤ offset
  · -- the offset is at or past the end: nothing is read
    refine iff_of_true ⟨[], ?_⟩ ?_
    · cases length.toNat with
      | zero => rfl
      | succ n =>
        rw [copyLoopIn, if_pos]
        simpa using hoff
    · intro pos hpos
      have hle := BitVec.le_def.mp hoff
      have hge := BitVec.le_def.mp hpos.1
      have hlt := BitVec.lt_def.mp hpos.2.2
      omega
  · have hlt := BitVec.lt_def.mp (BitVec.not_le.mp hoff)
    rw [copyLoopIn_eq_some_iff (by omega)]
    apply forall_congr'
    intro pos
    rw [Needed, BitVec.le_def, Nat.add_zero]
    tauto

theorem readInside_iff (hfits : fs.imageSize ≤ 2 ^ 32) (inode offset length : Word) :
    ReadInside fs inode offset length ↔
      (inodeOff inode).toNat < fs.imageSize ∧
        (inode < fs.n → ∀ pos, Needed fs inode offset length pos →
          (blockOff inode (pos / 4096#32)).toNat < fs.imageSize ∧
            fs.inodeBlock inode (pos / 4096#32) < fs.d) := by
  unfold ReadInside readDataIn
  rw [wordAt_inodeOff]
  by_cases hin : (inodeOff inode).toNat < fs.imageSize
  swap
  · simp [hin]
  rw [if_pos hin, and_iff_right hin]
  simp only [Option.bind_eq_bind, Option.bind_some]
  by_cases hn : fs.n ≤ inode
  · rw [if_pos hn]
    apply iff_of_true ⟨-1, [], rfl, fun _ => rfl, fun _ _ _ => rfl⟩
    intro hlt
    exact absurd hn (BitVec.not_le.mpr hlt)
  rw [if_neg hn]
  have hlt : inode < fs.n := BitVec.not_le.mp hn
  simp only [hlt, true_imp_iff]
  constructor
  · rintro ⟨r, bytes, hread, -, hblocks⟩ pos hpos
    obtain ⟨bytes', hloop, hr⟩ := Option.bind_eq_some_iff.mp hread
    cases hr
    obtain ⟨b, hb⟩ := (copyLoopIn_defined_iff inode offset length).mp ⟨_, hloop⟩ pos hpos
    refine ⟨(dataByteIn_eq_some hb).1, ?_⟩
    -- the value returned is a length, never -1
    by_contra hge
    have hneg := hblocks pos hpos (BitVec.not_lt.mp hge)
    omega
  · intro hall
    obtain ⟨bytes, hloop⟩ := (copyLoopIn_defined_iff inode offset length).mpr fun pos hpos =>
      ⟨_, dataByteIn_eq hfits (hall pos hpos).1 (hall pos hpos).2⟩
    refine ⟨bytes.length, bytes, ?_, fun h => absurd h hn, ?_⟩
    · rw [hloop]
      rfl
    · intro pos hpos hge
      exact absurd hge (BitVec.not_le.mpr (hall pos hpos).2)

/-- Where the checked call is defined, its result is that of the other one. -/
theorem readDataIn_eq {inode offset length : Word} {r : Int × List UInt8}
    (h : fs.readDataIn inode offset length = some r) : readData fs inode offset length = r := by
  unfold readDataIn at h
  rw [wordAt_inodeOff] at h
  unfold readData
  split at h
  · simp only [Option.bind_eq_bind, Option.bind_some] at h
    by_cases hn : fs.n ≤ inode
    · rw [if_pos hn] at h ⊢
      exact Option.some.inj h
    · rw [if_neg hn] at h ⊢
      obtain ⟨bytes, hloop, hr⟩ := Option.bind_eq_some_iff.mp h
      cases hr
      simp only [copyLoopIn_eq hloop]
  · cases h

/-! ## The exact conditions -/

/-- For every image that holds its own sizes, whatever its directory and inodes contain: a lookup
reads inside the image exactly when the name is too long or the entry that is found, if any, names
an inode in the image; `read_data` reads inside the image and returns -1 where it has to exactly
when the inode is in the image and, for an inode below `N`, the block numbers that the call needs
are in the image and below `D`. -/
theorem damaged_image_reads_iff (mem : Word → UInt8)
    (hnum : (setFilesysMeta mem).numDe.toNat ≤ 63)
    (hfits : (setFilesysMeta mem).imageSize ≤ 2 ^ 32) :
    (∀ fname : List UInt8, LookupInside (setFilesysMeta mem) fname ↔
      31 < fname.length ∨ 1 ≤ (setFilesysMeta mem).numDe.toNat ∧
        ∀ de, findDentry (setFilesysMeta mem) fname (setFilesysMeta mem).numDe.toNat 0 = some de →
          (inodeOff de.inodeNum).toNat < (setFilesysMeta mem).imageSize) ∧
    ∀ inode offset length : Word, ReadInside (setFilesysMeta mem) inode offset length ↔
      (inodeOff inode).toNat < (setFilesysMeta mem).imageSize ∧
        (inode < (setFilesysMeta mem).n → ∀ pos,
          Needed (setFilesysMeta mem) inode offset length pos →
            (blockOff inode (pos / 4096#32)).toNat < (setFilesysMeta mem).imageSize ∧
              (setFilesysMeta mem).inodeBlock inode (pos / 4096#32) < (setFilesysMeta mem).d) :=
  ⟨lookupInside_iff hnum, readInside_iff hfits⟩

/-- An image with one inode and one data block. Inode 0 is a file of one byte in block `block`; the
only directory entry is called `a` and names inode `inode`. -/
def damagedMem (inode block : UInt8) (a : Word) : UInt8 :=
  if a = 0 ∨ a = 4 ∨ a = 8 then 1
  else if a = 64 then 97
  else if a = 100 then inode
  else if a = 4096 then 1
  else if a = 4100 then block
  else 0

theorem undamaged_image_reads :
    LookupInside (setFilesysMeta (damagedMem 0 0)) [97] ∧
      ReadInside (setFilesysMeta (damagedMem 0 0)) 0 0 1 := by
  obtain ⟨hlookup, hread⟩ := damaged_image_reads_iff (damagedMem 0 0) (by decide) (by decide)
  have hfind : (findDentry (setFilesysMeta (damagedMem 0 0)) [97]
      (setFilesysMeta (damagedMem 0 0)).numDe.toNat 0).map Dentry.inodeNum = some 0 := by
    decide
  refine ⟨(hlookup [97]).mpr (.inr ⟨by decide, fun de hde => ?_⟩),
    (hread 0 0 1).mpr ⟨by decide, fun _ pos hpos => ?_⟩⟩
  · rw [hde] at hfind
    rw [show de.inodeNum = 0 from Option.some.inj hfind]
    decide
  · have hlt : pos < 1 := hpos.2.2
    obtain rfl : pos = 0 := by bv_omega
    decide

/-- With block number 1 the byte is read behind the image, and the call does not return -1; with
inode number 9 the lookup reads behind it. -/
theorem damaged_image_reads_outside :
    ¬ReadInside (setFilesysMeta (damagedMem 0 1)) 0 0 1 ∧
      ¬LookupInside (setFilesysMeta (damagedMem 9 0)) [97] := by
  have hread : (setFilesysMeta (damagedMem 0 1)).readDataIn 0 0 1 = none := by decide
  have hlookup : (setFilesysMeta (damagedMem 9 0)).readDentryByNameIn [97] = none := by decide
  constructor
  · rintro ⟨r, bytes, h, -⟩
    cases hread.symm.trans h
  · rintro ⟨r, h⟩
    cases hlookup.symm.trans h

end OreOS
