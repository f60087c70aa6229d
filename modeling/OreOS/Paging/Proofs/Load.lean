import OreOS.Filesys.Proofs.Damaged
import OreOS.Paging.Load

/-!
# Programs have memory of their own

With page tables as `new_pde` fills them, a slot's program is at 128 MB for the program itself and
at a frame of its own in physical memory. What a program stores there, and what `execute` copies
there, stays away from the frames of the other slots and from the kernel, whose memory holds the
file system that is copied from.
-/

namespace OreOS
open Machine

/-- Where byte `k` of the memory of slot `p` is. -/
def frameAt (p k : Nat) : Nat := 0x800000 + 0x400000 * p + k

/-- The translation finds the frame of slot `p` at 128 MB. -/
def MapsProgram (tr : Word → Option Mapping) (p : Nat) : Prop :=
  ∀ a : Word, 0x8000000 ≤ a.toNat → a.toNat < 0x8400000 → ∃ m, tr a = some m ∧
    m.phys.toNat = frameAt p (a.toNat - 0x8000000) ∧ m.user = true ∧ m.write = true

/-- Memory after the bytes `data` were stored in slot `p` from `o` on. -/
def frameStore (p o : Nat) (data : List UInt8) (ram : Word → UInt8) (x : Word) : UInt8 :=
  if frameAt p o ≤ x.toNat then (data[x.toNat - frameAt p o]?).getD (ram x) else ram x

theorem mapsProgram_translateIn {P : Paging} (h : RowsOk P) {p : Nat} (hp : P.Live p) :
    MapsProgram (P.translateIn (p + 1)) p := fun _ h1 h2 =>
  translateIn_program (hp.lt h.slots.slot7) (h.live p hp).2.2 (BitVec.le_def.mpr h1)
    (BitVec.lt_def.mpr h2)

theorem mapsProgram_userTranslate {P : Paging} (h : RowsOk P) {p : Nat} (hp : P.Live p) :
    MapsProgram (P.userTranslate p) p := by
  intro a h1 h2
  obtain ⟨m, hm, hphys, huser, hwrite⟩ := mapsProgram_translateIn h hp a h1 h2
  exact ⟨m, by simp [Paging.userTranslate, hm, huser, hwrite], hphys, huser, hwrite⟩

section
variable {tr : Word → Option Mapping} {p : Nat} {va : Word} {data : List UInt8}

theorem program_addr (hlo : 0x8000000 ≤ va.toNat) (hhi : va.toNat + data.length ≤ 0x8400000)
    {i : Nat} (hi : i < data.length) : (va + BitVec.ofNat 32 i).toNat = va.toNat + i := by
  rw [BitVec.toNat_add, BitVec.toNat_ofNat]
  omega

/-- A store to the program's page. -/
theorem storeBytes_program_page (htr : MapsProgram tr p) (hlo : 0x8000000 ≤ va.toNat)
    (hhi : va.toNat + data.length ≤ 0x8400000) (ram : Word → UInt8) :
    storeBytes tr ram va data = some (frameStore p (va.toNat - 0x8000000) data ram) := by
  have hmapped : ∀ i < data.length, ∃ m, tr (va + BitVec.ofNat 32 i) = some m ∧
      m.phys.toNat = frameAt p (va.toNat - 0x8000000) + i := by
    intro i hi
    have haddr := program_addr hlo hhi hi
    obtain ⟨m, hm, hphys, -⟩ := htr (va + BitVec.ofNat 32 i) (by omega) (by omega)
    refine ⟨m, hm, ?_⟩
    rw [hphys, haddr, frameAt, frameAt]
    omega
  have hphys : ∀ i < data.length, ∀ m, tr (va + BitVec.ofNat 32 i) = some m →
      m.phys.toNat = frameAt p (va.toNat - 0x8000000) + i := by
    intro i hi m hm
    obtain ⟨m', hm', hp'⟩ := hmapped i hi
    cases hm.symm.trans hm'
    exact hp'
  obtain ⟨ram', hram'⟩ := storeBytes_isSome ram fun i hi => (hmapped i hi).imp fun _ h => h.1
  rw [hram', Option.some.injEq]
  funext x
  unfold frameStore
  by_cases hx : frameAt p (va.toNat - 0x8000000) ≤ x.toNat ∧
      x.toNat - frameAt p (va.toNat - 0x8000000) < data.length
  · obtain ⟨hle, hlt⟩ := hx
    obtain ⟨m, hm, hmx⟩ := hmapped _ hlt
    have hat : m.phys = x := BitVec.eq_of_toNat_eq (by omega)
    have hin := storeBytes_inside hram' (fun i hi j hj m m' h h' hsame => ?_) hlt hm
    · rw [← hat] at hle hlt ⊢
      rw [if_pos hle, List.getElem?_eq_getElem hlt, Option.getD_some]
      simpa [hat] using hin
    · have := hphys i hi m h
      have := hphys j hj m' h'
      have := congrArg BitVec.toNat hsame
      omega
  · rw [storeBytes_elsewhere hram']
    · split
      next hle =>
        rw [List.getElem?_eq_none (by omega), Option.getD_none]
      next => rfl
    · rintro i hi m hm rfl
      have := hphys i hi m hm
      omega

end

/-! ## Reading the file -/

/-- The translation leaves the image where it is. -/
def ShowsImage (tr : Word → Option Mapping) (boot : Word) (fs : Filesys) : Prop :=
  ∀ a : Word, a.toNat < fs.imageSize → ∃ m, tr (boot + a) = some m ∧ m.phys = boot + a

/-- The image of the file system is in memory at `boot`. -/
def HoldsImage (boot : Word) (fs : Filesys) (ram : Word → UInt8) : Prop :=
  ∀ a : Word, a.toNat < fs.imageSize → ram (boot + a) = fs.mem a

section
variable {tr : Word → Option Mapping} {boot : Word} {fs : Filesys} {ram : Word → UInt8}

theorem byteThrough_eq (htr : ShowsImage tr boot fs) (hram : HoldsImage boot fs ram) {a : Word}
    {b : UInt8} (h : fs.byteAt a = some b) : byteThrough tr ram (boot + a) = some b := by
  unfold Filesys.byteAt at h
  split at h
  next ha =>
    obtain ⟨m, hm, hphys⟩ := htr a ha
    rw [byteThrough, hm, Option.map_some, hphys, hram a ha, h]
  next => cases h

theorem wordThrough_eq (htr : ShowsImage tr boot fs) (hram : HoldsImage boot fs ram) {a w : Word}
    (h : fs.wordAt a = some w) : wordThrough tr ram (boot + a) = some w := by
  simp only [Filesys.wordAt, Option.bind_eq_bind, Option.bind_eq_some_iff, Option.pure_def,
    Option.some.injEq] at h
  obtain ⟨b0, h0, b1, h1, b2, h2, b3, h3, rfl⟩ := h
  simp only [wordThrough, BitVec.add_assoc, byteThrough_eq htr hram h0, byteThrough_eq htr hram h1,
    byteThrough_eq htr hram h2, byteThrough_eq htr hram h3, Option.bind_eq_bind, Option.bind_some,
    Option.pure_def]

theorem dataByteThrough_eq (htr : ShowsImage tr boot fs) (hram : HoldsImage boot fs ram)
    {inode pos : Word}
    {b : UInt8} (h : fs.dataByteIn inode pos = some b) :
    dataByteThrough tr fs boot ram inode pos = some b := by
  simp only [Filesys.dataByteIn, Option.bind_eq_bind, Option.bind_eq_some_iff] at h
  obtain ⟨block, hblock, hbyte⟩ := h
  rw [dataByteThrough, wordThrough_eq htr hram hblock, Option.bind_eq_bind, Option.bind_some]
  exact byteThrough_eq htr hram hbyte

/-- The copy stores the bytes of the file, as long as it does not reach the image. -/
theorem copyTo_eq (htr : ShowsImage tr boot fs) (hram : HoldsImage boot fs ram)
    {inode offset size dst : Word} {f : Nat → UInt8} {fuel i : Nat}
    (hbytes : ∀ k, offset.toNat + i ≤ k → k < size.toNat →
      fs.dataByteIn inode (BitVec.ofNat 32 k) = some (f k))
    (hsafe : ∀ j, i ≤ j → j < i + fuel → ∀ m, tr (dst + BitVec.ofNat 32 j) = some m →
      ∀ a : Word, a.toNat < fs.imageSize → boot + a ≠ m.phys)
    (hle : offset.toNat + i ≤ size.toNat) :
    copyTo tr fs boot inode offset size dst fuel i ram =
      storeBytes tr ram (dst + BitVec.ofNat 32 i)
        (slice f (offset.toNat + i) (min fuel (size.toNat - (offset.toNat + i)))) := by
  have hsize := size.isLt
  induction fuel generalizing i ram with
  | zero => simp [copyTo, storeBytes]
  | succ fuel ih =>
    have hsum : (BitVec.ofNat 32 i + offset).toNat = offset.toNat + i := by
      rw [BitVec.toNat_add, BitVec.toNat_ofNat]
      omega
    rw [copyTo]
    by_cases hend : size ≤ BitVec.ofNat 32 i + offset
    · have hge := BitVec.le_def.mp hend
      rw [if_pos hend, show size.toNat - (offset.toNat + i) = 0 by omega, Nat.min_zero, slice_zero]
      rfl
    · have hlt := BitVec.lt_def.mp (BitVec.not_le.mp hend)
      have hpos : offset + BitVec.ofNat 32 i = BitVec.ofNat 32 (offset.toNat + i) := by
        apply BitVec.eq_of_toNat_eq
        rw [BitVec.add_comm, hsum, BitVec.toNat_ofNat]
        omega
      have hcount : min (fuel + 1) (size.toNat - (offset.toNat + i)) =
          min fuel (size.toNat - (offset.toNat + (i + 1))) + 1 := by
        omega
      rw [if_neg hend, hpos, dataByteThrough_eq htr hram (hbytes _ le_rfl (by omega)), hcount,
        slice_succ, storeBytes, Option.bind_eq_bind, Option.bind_some]
      cases hm : tr (dst + BitVec.ofNat 32 i) with
      | none => rfl
      | some m =>
        have hkept : HoldsImage boot fs (Function.update ram m.phys (f (offset.toNat + i))) :=
          fun a ha =>
          (Function.update_of_ne (hsafe i le_rfl (by omega) m hm a ha) _ _).trans (hram a ha)
        have hrest := ih hkept (i := i + 1) (fun k hk hk' => hbytes k (by omega) hk')
          (fun j hj hj' => hsafe j (by omega) (by omega)) (by omega)
        have hnext : dst + BitVec.ofNat 32 i + 1#32 = dst + BitVec.ofNat 32 (i + 1) :=
          addr_add dst i 1
        simp only [Option.bind_eq_bind, Option.bind_some, hrest, hnext, Nat.add_assoc]

end

/-! ## The specification -/

variable {fs : Filesys} {boot : Word} {M : Memory} {A : Processes}

/-- The file can be read, and fits between `0x8048000` and the end of the program's page. -/
structure Loadable (fs : Filesys) (inode fileSize : Word) : Prop where
  known : inode < fs.n
  size : fileSize = fs.inodeSize inode
  fits : fileSize.toNat ≤ 0x3B8000
  bytes : ∀ pos < fileSize, ∃ b, fs.dataByteIn inode pos = some b

/-- Executables are linked at 128 MB, and programs that run keep to their page. -/
def Memory.Legal (fs : Filesys) (M : Memory) : MemEvent → Prop
  | .load entry inode fileSize => (0x8000000#32 ≤ entry ∧ entry < 0x8400000#32) ∧
  Loadable fs inode fileSize
  | .exit p => M.tables.Live p
  | .vidmap p addr => M.tables.Live p ∧ InProgram addr
  | .schedule _ => True
  | .store p va data => M.tables.Live p ∧ 0x8000000 ≤ va.toNat ∧ va.toNat + data.length ≤ 0x8400000

/-- The memory of each slot is in its frame, and the kernel's memory is still `ram`. -/
structure Refines (ram : Word → UInt8) (M : Memory) (A : Processes) : Prop where
  rows : RowsOk M.tables
  live : ∀ p < 7, A.live p = true ↔ M.tables.Live p
  mem : ∀ p < 7, ∀ k < 0x400000, M.ram (BitVec.ofNat 32 (frameAt p k)) = A.mem p k
  kernel : ∀ x : Word, x.toNat < 0x800000 → M.ram x = ram x

namespace Refines

variable {ram : Word → UInt8} (h : Refines ram M A)
include h

theorem tables {P : Paging} (hrows : RowsOk P) (hlive : ∀ p < 7, P.Live p ↔ M.tables.Live p) :
    Refines ram { M with tables := P } A :=
  ⟨hrows, fun p hp => (h.live p hp).trans (hlive p hp).symm, h.mem, h.kernel⟩

theorem put {p o : Nat} {data : List UInt8} (hp : p < 7) (hfits : o + data.length ≤ 0x400000) :
    Refines ram { M with ram := frameStore p o data M.ram } (A.put p o data) := by
  refine ⟨h.rows, h.live, ?_, ?_⟩
  · intro q hq k hk
    have haddr : (BitVec.ofNat 32 (frameAt q k)).toNat = frameAt q k := by
      rw [BitVec.toNat_ofNat, frameAt]
      omega
    have hmem := h.mem q hq k hk
    change frameStore p o data M.ram (BitVec.ofNat 32 (frameAt q k)) = _
    rw [frameStore, haddr, hmem]
    simp only [Processes.put, Function.update_apply]
    by_cases hqp : q = p
    · subst hqp
      have hle : frameAt q o ≤ frameAt q k ↔ o ≤ k := by
        unfold frameAt
        omega
      have hsub : frameAt q k - frameAt q o = k - o := by
        unfold frameAt
        omega
      simp only [hle, hsub, if_true]
    · rw [if_neg hqp]
      split
      next hle =>
        -- another frame is before it or behind it
        unfold frameAt at hle ⊢
        rw [List.getElem?_eq_none (by omega), Option.getD_none]
      next => rfl
  · intro x hx
    have hout : ¬frameAt p o ≤ x.toNat := by
      unfold frameAt
      omega
    simp only [frameStore, if_neg hout]
    exact h.kernel x hx

/-- The kernel's memory is mapped where it is, for every program. -/
theorem showsImage {p : Nat} (hp : M.tables.Live p) (hboot : 0x400000 ≤ boot.toNat)
    (hend : boot.toNat + fs.imageSize ≤ 0x800000) :
    ShowsImage (M.tables.translateIn (p + 1)) boot fs := by
  intro a ha
  have haddr : (boot + a).toNat = boot.toNat + a.toNat := by
    rw [BitVec.toNat_add]
    omega
  have hdir : dirIndex (boot + a) = 1 := by
    rw [dirIndex_eq]
    omega
  have he : M.tables.pde (p + 1) (dirIndex (boot + a)) =
      BitVec.ofNat 32 (dirIndex (boot + a)) <<< 22 ||| ctrlKernel := by
    rw [hdir]
    exact (h.rows.live p hp).2.1
  exact ⟨_, translateIn_identity he (by decide) rfl rfl, rfl⟩

/-- The copy of an executable, once its slot is given out. -/
theorem readDataTo {p : Nat} {inode fileSize : Word} (hp : M.tables.Live p)
    (hboot : 0x400000 ≤ boot.toNat)
    (hend : boot.toNat + fs.imageSize ≤ 0x800000) (hram : HoldsImage boot fs ram)
    (hfile : Loadable fs inode fileSize) :
    OreOS.readDataTo (M.tables.translateIn (p + 1)) fs boot inode 0#32 procStorage fileSize M.ram =
      some (frameStore p 0x48000 (fs.fileOf inode) M.ram) := by
  have htr := h.showsImage hp hboot hend
  have hmaps := mapsProgram_translateIn h.rows hp
  have himage : HoldsImage boot fs M.ram := fun a ha => by
    have haddr : (boot + a).toNat = boot.toNat + a.toNat := by
      rw [BitVec.toNat_add]
      omega
    rw [h.kernel _ (by omega), hram a ha]
  have hin : (Filesys.inodeOff inode).toNat < fs.imageSize := by
    have hlt := BitVec.lt_def.mp hfile.known
    unfold Filesys.imageSize Filesys.inodeOff
    rw [BitVec.toNat_add, BitVec.toNat_mul]
    simp only [BitVec.toNat_ofNat]
    unfold Filesys.imageSize at hend
    omega
  have hsize := (wordAt_eq (inodeOff_aligned inode)).trans (if_pos hin)
  have hstart : procStorage.toNat = 0x8048000 := rfl
  have hfits := hfile.fits
  have hlen : (fs.fileOf inode).length = fileSize.toNat := by rw [fileOf_length, hfile.size]
  have hdata : slice (fs.fileBytes inode) 0 fileSize.toNat = fs.fileOf inode := by
    rw [hfile.size, fileOf_eq_slice]
  have hcopy :
      copyTo (M.tables.translateIn (p + 1)) fs boot inode 0#32 fileSize procStorage
      fileSize.toNat 0 M.ram =
      storeBytes (M.tables.translateIn (p + 1)) M.ram procStorage (fs.fileOf inode) := by
    rw [← hdata]
    refine (copyTo_eq (f := fs.fileBytes inode) htr himage ?_ ?_ (by simp)).trans (by simp)
    · intro k _ hk
      obtain ⟨b, hb⟩ := hfile.bytes (BitVec.ofNat 32 k)
        (BitVec.lt_def.mpr (by rw [BitVec.toNat_ofNat]; omega))
      rw [hb, (dataByteIn_eq_some hb).2]
      rfl
    · intro j _ hj m hm a ha hsame
      have haddr : (procStorage + BitVec.ofNat 32 j).toNat = procStorage.toNat + j :=
        program_addr (by omega) (by omega) (hlen ▸ by omega : j < (fs.fileOf inode).length)
      obtain ⟨m', hm', hphys, -⟩ := hmaps (procStorage + BitVec.ofNat 32 j) (by omega) (by omega)
      cases hm.symm.trans hm'
      have hnum := congrArg BitVec.toNat hsame
      rw [BitVec.toNat_add, hphys, frameAt] at hnum
      omega
  rw [OreOS.readDataTo, wordThrough_eq htr himage hsize, Option.bind_eq_bind, Option.bind_some,
    if_neg (by simpa using hfile.known)]
  rw [show readWord fs.mem (Filesys.inodeOff inode) = fileSize from hfile.size.symm, hcopy]
  exact storeBytes_program_page hmaps (by omega) (by omega) M.ram

end Refines

theorem RowsOk.loadCr3 {P : Paging} (h : RowsOk P) (c : Int) : RowsOk { P with cr3 := c } :=
  ⟨⟨h.slots.bits, h.slots.slot7⟩, h.row, h.live⟩

/-- The slot that `new_pde` takes is the first that is free. -/
theorem Refines.find_free {ram : Word → UInt8} (h : Refines ram M A) :
    (List.range 7).find? (fun p => !A.live p) =
      if M.tables.freeSlot = 7 then none else some M.tables.freeSlot := by
  have hle := freeSlot_le h.rows.slots.slot7
  split
  next h7 =>
    rw [List.find?_range_eq_none]
    intro p hp
    rw [(h.live p hp).mpr (h.rows.slots.live_of_lt (by omega))]
    rfl
  next h7 =>
    rw [List.find?_range_eq_some]
    refine ⟨?_, List.mem_range.mpr (by omega), fun p hp => ?_⟩
    · have hfree := mt (h.live M.tables.freeSlot (by omega)).mp h.rows.slots.not_live_freeSlot
      rw [Bool.not_eq_true] at hfree
      rw [hfree]
      rfl
    · rw [(h.live p (by omega)).mpr (h.rows.slots.live_of_lt hp)]
      rfl

section
variable {ram : Word → UInt8} (hboot : 0x400000 ≤ boot.toNat)
  (hend : boot.toNat + fs.imageSize ≤ 0x800000) (hram : HoldsImage boot fs ram)
include hboot hend hram

theorem Refines.load (h : Refines ram M A) {entry inode fileSize : Word}
    (hlegal : M.Legal fs (.load entry inode fileSize)) :
    ∃ M', M.step fs boot (.load entry inode fileSize) = some M' ∧
      Refines ram M' (A.next fs.fileOf (.load entry inode fileSize)) := by
  obtain ⟨⟨h1, h2⟩, hfile⟩ := hlegal
  obtain ⟨r, P, hnew, -, hok⟩ := h.rows.slots.newPde entry
  have hrows := h.rows.newPde (dirIndex_program h1 h2) hnew hok
  have hle := freeSlot_le h.rows.slots.slot7
  rw [Processes.next, h.find_free]
  rcases newPde_cases hnew with ⟨h7, rfl, rfl⟩ | ⟨proc, h7, rfl, hstore, rfl⟩
  · rw [if_pos h7]
    exact ⟨M, by rw [Memory.step, loadProgram, hnew]; rfl, h⟩
  · rw [if_neg h7]
    set p := M.tables.freeSlot with hp
    set P : Paging := { fillPde p entry { M.tables with proc := proc } with cr3 := (p : Int) + 1 }
      with hP
    have hlive : ∀ q : Nat, P.Live q ↔ q = p ∨ M.tables.Live q := by
      intro q
      simp only [hP, Paging.Live, fillPde_proc, getElem?_of_store hstore]
      by_cases hq : p = q
      · simp [hq]
      · simp [hq, Ne.symm hq]
    have htaken : Refines ram { M with tables := P }
      { A with live := Function.update A.live p true } := by
      refine ⟨hrows.loadCr3 _, ?_, h.mem, h.kernel⟩
      intro q hq
      rw [hlive q, ← h.live q hq]
      by_cases hqp : q = p <;> simp [hqp]
    have hcopy := htaken.readDataTo ((hlive p).mpr (.inl rfl)) hboot hend hram hfile
    have hlen : (fs.fileOf inode).length = fileSize.toNat := by rw [fileOf_length, hfile.size]
    refine ⟨_, ?_, htaken.put (by omega) (by have := hfile.fits; omega)⟩
    have hne : (p : Int) ≠ -1 := by omega
    rw [Memory.step, loadProgram, hnew, Option.bind_eq_bind, Option.bind_some]
    simp only [hne, if_false, Int.toNat_natCast]
    change (OreOS.readDataTo (P.translateIn (p + 1)) fs boot inode 0#32 procStorage fileSize
      M.ram).bind _ = _
    rw [hcopy]
    rfl

/-- Every event of programs that keep to their page does what it does to private memories. -/
theorem Refines.step (h : Refines ram M A) {e : MemEvent} (hlegal : M.Legal fs e) :
    ∃ M', M.step fs boot e = some M' ∧ Refines ram M' (A.next fs.fileOf e) := by
  cases e with
  | load entry inode fileSize => exact h.load hboot hend hram hlegal
  | exit p =>
    have hlt := Paging.Live.lt hlegal h.rows.slots.slot7
    obtain ⟨P, hrem, hlive, hok⟩ := h.rows.slots.removePage (Int.natCast_nonneg p) hlegal
    have hrows := h.rows.removePage hrem hok fun q hq => ((hlive q).mp hq).1
    have hstep : Memory.step fs boot M (.exit p) = some { M with tables := P } := by
      rw [Memory.step, hrem]
      rfl
    refine ⟨{ M with tables := P }, hstep, hrows, ?_, h.mem, h.kernel⟩
    intro q hq
    change Function.update A.live p false q = true ↔ P.Live q
    rw [hlive q, ← h.live q hq, Function.update_apply, ne_eq, Int.natCast_inj]
    by_cases hqp : q = p <;> simp [hqp]
  | vidmap p addr =>
    obtain ⟨hlive, hlo, hhi⟩ := hlegal
    have hlt := hlive.lt h.rows.slots.slot7
    have hlo : 0x8000000 ≤ addr.toNat := BitVec.le_def.mp hlo
    have hhi : addr.toNat ≤ 0x83FFFFC := BitVec.le_def.mp hhi
    have hlen : (wordBytes vidAddr).length = 4 := rfl
    have hmapped : Refines ram { M with tables := mapVideo p M.tables } A :=
      h.tables (h.rows.mapVideo p) fun _ _ => Iff.rfl
    have hstore := storeBytes_program_page (mapsProgram_translateIn hmapped.rows hlive) hlo
      (by omega : addr.toNat + (wordBytes vidAddr).length ≤ 0x8400000) M.ram
    refine ⟨_, ?_, hmapped.put hlt (by omega)⟩
    rw [Memory.step, sysVidmapIn_eq (by rintro rfl; exact absurd hlo (by decide))
      (by rintro rfl; exact absurd hlo (by decide)), hstore, Option.map_some, Option.map_some]
  | schedule value => exact ⟨_, rfl, h.tables (h.rows.changePte 0xB8 value) fun _ _ => Iff.rfl⟩
  | store p va data =>
    obtain ⟨hlive, hlo, hhi⟩ := hlegal
    have hlt := hlive.lt h.rows.slots.slot7
    have hstore := storeBytes_program_page (mapsProgram_userTranslate h.rows hlive) hlo hhi M.ram
    refine ⟨_, ?_, h.put hlt (by omega)⟩
    rw [Memory.step, hstore]
    rfl

end

end OreOS
