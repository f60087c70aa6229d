import Mathlib.Data.List.GetD
import OreOS.Lib.Memory

/-!
# Blocks of memory

`memset` and `memcpy` store the bytes that plain byte loops would, for every alignment, and
`memmove` copies between any two ranges. When its destination lies above its source `memmove` sets
the direction flag, and returns with the flag set.
-/

namespace OreOS
open Machine

/-- `a` is one of the `n` addresses from `s` on. -/
def InArea (s n a : Word) : Prop := s.toNat ≤ a.toNat ∧ a.toNat < s.toNat + n.toNat

instance (s n a : Word) : Decidable (InArea s n a) := inferInstanceAs (Decidable (_ ∧ _))

/-- The block ends at the end of the memory at the latest. -/
def NoWrap (s n : Word) : Prop := s.toNat + n.toNat ≤ 2 ^ 32

instance (s n : Word) : Decidable (NoWrap s n) := inferInstanceAs (Decidable (_ ≤ _))

/-- In `mem'` the block at `dest` has the bytes that `mem` has at `src`; no other
byte is different. -/
def BlockCopied (mem mem' : Word → UInt8) (dest src n : Word) : Prop :=
  ∀ a, mem' a = if InArea dest n a then mem (src + (a - dest)) else mem a

section
variable {mem : Word → UInt8} {dest src n a : Word} {j k : Nat} {c : Cpu}

theorem inArea_iff (h : NoWrap dest n) : InArea dest n a ↔ (a - dest).toNat < n.toNat := by
  unfold InArea NoWrap at *
  bv_omega

/-- What was stored in a block that does not wrap. -/
theorem writeBytes_block (mem : Word → UInt8) (h : NoWrap dest n) {data : List UInt8}
    (hlen : data.length = n.toNat) (a : Word) :
    writeBytes mem dest data a = if InArea dest n a then data.getD (a - dest).toNat 0
    else mem a := by
  by_cases hin : InArea dest n a
  · have hlt : (a - dest).toNat < data.length := by rw [hlen]; exact (inArea_iff h).mp hin
    have hmax : data.length ≤ 2 ^ 32 := by rw [hlen]; exact Nat.le_of_lt n.isLt
    rw [if_pos hin, writeBytes_inside hmax hlt, List.getD_eq_getElem _ _ hlt]
  · have hout : data.length ≤ (a - dest).toNat := by
      rw [hlen, ← Nat.not_lt]
      exact fun hlt => hin ((inArea_iff h).mpr hlt)
    rw [if_neg hin, writeBytes_outside hout]

theorem blockCopied_of_writeBytes (h : NoWrap dest n) :
    BlockCopied mem (writeBytes mem dest (readBytes mem src n.toNat)) dest src n := by
  intro a
  rw [writeBytes_block mem h (readBytes_length _ _ _)]
  by_cases hin : InArea dest n a
  · have hlt := (inArea_iff h).mp hin
    rw [if_pos hin, if_pos hin, List.getD_eq_getElem _ _ (by simpa using hlt), getElem_readBytes,
      BitVec.ofNat_toNat, BitVec.setWidth_eq]
  · rw [if_neg hin, if_neg hin]

/-! ## Registers -/

theorem al_setAl (x : UInt8) (c : Cpu) : (c.setAl x).al = x := by
  have hlow : ∀ w : Word, UInt8.ofNat w.toNat = UInt8.ofBitVec (w.setWidth 8) := by
    intro w
    apply UInt8.toNat_inj.mp
    simp
  have hmask : (0xFFFFFF00#32).setWidth 8 = 0#8 := by decide
  rw [Cpu.al, Cpu.setAl, hlow, BitVec.setWidth_or, BitVec.setWidth_and, hmask, BitVec.and_zero,
    BitVec.zero_or]
  apply UInt8.toNat_inj.mp
  simp

theorem wordBytes_splat_small :
    ∀ x < 256, wordBytes (splat (BitVec.ofNat 32 x)) = List.replicate 4 (UInt8.ofNat x) := by
  decide +kernel

theorem low_byte (c : Word) : c &&& 0xFF = BitVec.ofNat 32 (c.toNat % 256) := by
  apply BitVec.eq_of_toNat_eq
  have hmask : (0xFF : Word).toNat = 2 ^ 8 - 1 := rfl
  rw [BitVec.toNat_and, hmask, Nat.and_two_pow_sub_one_eq_mod, BitVec.toNat_ofNat]
  omega

/-- The word that `memset` stores, and its low byte. -/
theorem wordBytes_splat (c : Word) :
    wordBytes (splat (c &&& 0xFF)) = List.replicate 4 (UInt8.ofNat c.toNat) := by
  have hmod : UInt8.ofNat (c.toNat % 256) = UInt8.ofNat c.toNat := by
    apply UInt8.toNat_inj.mp
    simp
  rw [low_byte, wordBytes_splat_small _ (Nat.mod_lt _ (by decide)), hmod]

/-! ## `memset` -/

/-- The first `k` bytes of the block are set. -/
structure SetUpTo (mem : Word → UInt8) (s eax : Word) (b : UInt8) (k : Nat) (c : Cpu) : Prop where
  mem : c.mem = writeBytes mem s (List.replicate k b)
  edi : c.edi = s + BitVec.ofNat 32 k
  eax : c.eax = eax

theorem SetUpTo.store {s eax : Word} {b : UInt8} (h : SetUpTo mem s eax b k c) (j : Nat) :
    writeBytes c.mem c.edi (List.replicate j b) = writeBytes mem s (List.replicate (k + j) b) := by
  rw [h.mem, h.edi, ← List.replicate_append_replicate, writeBytes_append, List.length_replicate]

theorem memset_inv (mem : Word → UInt8) (s eax : Word) {b : UInt8} (n : Nat)
    (hlong : wordBytes eax = List.replicate 4 b) :
    WordLoopInv storeAl Cpu.stosl n (SetUpTo mem s eax b) where
  counters := fun k c ecx edx df h => ⟨h.mem, h.edi, h.eax⟩
  byte := by
    intro k c _ h
    have hal : c.al = b := by
      rw [Cpu.al, h.eax]
      exact List.head_eq_of_cons_eq hlong
    refine ⟨?_, ?_, h.eax⟩
    · simp only [storeAl, hal]
      exact h.store 1
    · rw [← addr_add, ← h.edi]
      rfl
  long := by
    intro k c _ hdf h
    refine ⟨⟨?_, ?_, h.eax⟩, rfl, rfl⟩
    · simpa only [Cpu.stosl, h.eax, hlong] using h.store 4
    · rw [← addr_add, ← h.edi]
      exact Cpu.advance_up hdf 4 c.edi

theorem memset_mem (s c n : Word) (cpu : Cpu) :
    (memset s c n cpu).2.mem = writeBytes cpu.mem s
    (List.replicate n.toNat (UInt8.ofNat c.toNat)) := by
  have hinv := memset_inv cpu.mem s (splat (c &&& 0xFF)) n.toNat (wordBytes_splat c)
  have hstart : SetUpTo cpu.mem s (splat (c &&& 0xFF)) (UInt8.ofNat c.toNat) 0
      { cpu with eax := splat (c &&& 0xFF), edi := s, ecx := n } :=
      ⟨rfl, (BitVec.add_zero s).symm, rfl⟩
  exact (wordLoop_inv hinv hstart (Nat.zero_add _)).mem

/-! ## Copies upwards -/

/-- The first `k` bytes of the block are copied. -/
structure CopiedUpTo (mem : Word → UInt8) (dest src : Word) (k : Nat) (c : Cpu) : Prop where
  mem : c.mem = writeBytes mem dest (readBytes mem src k)
  edi : c.edi = dest + BitVec.ofNat 32 k
  esi : c.esi = src + BitVec.ofNat 32 k

/-- The bytes stored so far are not among those that are still to be read. -/
def Ahead (dest src : Word) (n : Nat) : Prop := dest = src ∨ n ≤ (dest - src).toNat

theorem CopiedUpTo.read (h : CopiedUpTo mem dest src k c) (hahead : Ahead dest src n.toNat)
    (hj : k + j ≤ n.toNat) :
    readBytes c.mem c.esi j = readBytes mem (src + BitVec.ofNat 32 k) j := by
  rw [h.esi]
  apply readBytes_congr
  intro i hi
  rw [h.mem]
  apply writeBytes_outside
  rw [readBytes_length]
  have hn := n.isLt
  unfold Ahead at hahead
  bv_omega

theorem CopiedUpTo.store (h : CopiedUpTo mem dest src k c) (hahead : Ahead dest src n.toNat)
    (hj : k + j ≤ n.toNat) :
    writeBytes c.mem c.edi (readBytes c.mem c.esi j) = writeBytes mem dest
    (readBytes mem src (k + j)) := by
  rw [h.read hahead hj, h.mem, h.edi, readBytes_add, writeBytes_append, readBytes_length]

theorem CopiedUpTo.movs (h : CopiedUpTo mem dest src k c) (hahead : Ahead dest src n.toNat)
    (hj : k + j ≤ n.toNat) (hdf : c.df = false) : CopiedUpTo mem dest src (k + j) (c.movs j) where
  mem := h.store hahead hj
  edi := by
    rw [← addr_add, ← h.edi]
    exact Cpu.advance_up hdf _ c.edi
  esi := by
    rw [← addr_add, ← h.esi]
    exact Cpu.advance_up hdf _ c.esi

theorem memcpy_inv (hahead : Ahead dest src n.toNat) :
    WordLoopInv copyByte (Cpu.movs 4) n.toNat (CopiedUpTo mem dest src) where
  counters := fun k c ecx edx df h => ⟨h.mem, h.edi, h.esi⟩
  byte := by
    intro k c hk h
    refine ⟨?_, ?_, ?_⟩
    · simp only [copyByte, al_setAl]
      exact h.store hahead hk
    · rw [← addr_add, ← h.edi]
      rfl
    · rw [← addr_add, ← h.esi]
      rfl
  long := fun k c hk hdf h => ⟨h.movs hahead hk hdf, rfl, rfl⟩

theorem memcpy_mem (hahead : Ahead dest src n.toNat) (cpu : Cpu) :
    (memcpy dest src n cpu).2.mem = writeBytes cpu.mem dest (readBytes cpu.mem src n.toNat) := by
  have hstart : CopiedUpTo cpu.mem dest src 0 { cpu with esi := src, edi := dest, ecx := n } :=
    ⟨rfl, (BitVec.add_zero dest).symm, (BitVec.add_zero src).symm⟩
  exact (wordLoop_inv (memcpy_inv hahead) hstart (Nat.zero_add _)).mem

/-- Blocks that do not overlap, or a destination that is not above the source. -/
theorem ahead_of_disjoint (hdest : NoWrap dest n) (hsrc : NoWrap src n)
    (h : (∀ a, InArea dest n a → ¬InArea src n a) ∨ dest.toNat ≤ src.toNat) :
    Ahead dest src n.toNat := by
  unfold NoWrap at hdest hsrc
  unfold Ahead
  rcases h with hdisjoint | hle
  · have hd := hdisjoint dest
    have hs := fun hin => hdisjoint src hin
    unfold InArea at hd hs
    bv_omega
  · bv_omega

/-- `memset` and `memcpy` do what loops over single bytes do. -/
theorem block_routines_exact :
    (∀ (cpu : Cpu) (s c n : Word), NoWrap s n → ∀ a,
      (memset s c n cpu).2.mem a = if InArea s n a then UInt8.ofNat c.toNat else cpu.mem a) ∧
    (∀ (cpu : Cpu) (dest src n : Word), NoWrap dest n → NoWrap src n →
      ((∀ a, InArea dest n a → ¬InArea src n a) ∨ dest.toNat ≤ src.toNat) →
        BlockCopied cpu.mem (memcpy dest src n cpu).2.mem dest src n) := by
  refine ⟨?_, ?_⟩
  · intro cpu s c n hs a
    rw [memset_mem, writeBytes_block cpu.mem hs List.length_replicate]
    by_cases hin : InArea s n a
    · have hlt := (inArea_iff hs).mp hin
      rw [if_pos hin, if_pos hin, List.getD_eq_getElem _ _ (by simpa using hlt),
        List.getElem_replicate]
    · rw [if_neg hin, if_neg hin]
  · intro cpu dest src n hdest hsrc h
    rw [memcpy_mem (ahead_of_disjoint hdest hsrc h)]
    exact blockCopied_of_writeBytes hdest

/-- The memory that holds at each address its low byte. -/
def lowBytes : Cpu := ⟨0, 0, 0, 0, 0, true, fun a => UInt8.ofNat a.toNat⟩

/-- Eleven bytes from 7 on go to 5: three bytes, two words over the source's own bytes, no rest. -/
theorem block_routines_at_5 :
    NoWrap 5 11 ∧ NoWrap 7 11 ∧ BlockCopied lowBytes.mem (memcpy 5 7 11 lowBytes).2.mem 5 7 11 ∧
      (memset 5 0x141 11 lowBytes).2.mem 15 = 0x41 ∧ (memset 5 0x141 11 lowBytes).2.mem 16 = 16 :=
  ⟨by decide, by decide,
    block_routines_exact.2 lowBytes 5 7 11 (by decide) (by decide) (.inr (by decide)),
    block_routines_exact.1 lowBytes 5 0x141 11 (by decide) 15,
    block_routines_exact.1 lowBytes 5 0x141 11 (by decide) 16⟩

/-! ## `memmove` -/

/-- The last `k` bytes of the block are copied; the pointers are at the byte before them. -/
structure CopiedDownTo (mem : Word → UInt8) (dest src : Word) (n k : Nat) (c : Cpu) : Prop where
  mem : c.mem =
    writeBytes mem (dest + BitVec.ofNat 32 (n - k))
    (readBytes mem (src + BitVec.ofNat 32 (n - k)) k)
  edi : c.edi = dest + BitVec.ofNat 32 (n - k) - 1
  esi : c.esi = src + BitVec.ofNat 32 (n - k) - 1
  df : c.df = true

theorem CopiedDownTo.movs (h : CopiedDownTo mem dest src n.toNat k c) (hdest : NoWrap dest n)
    (hlt : src < dest)
    (hk : k < n.toNat) : CopiedDownTo mem dest src n.toNat (k + 1) (c.movs 1) := by
  have hn := n.isLt
  unfold NoWrap at hdest
  have hnext : ∀ p : Word,
      p + BitVec.ofNat 32 (n.toNat - k) = p + BitVec.ofNat 32 (n.toNat - (k + 1)) + 1#32 := by
    intro p
    have hlast : n.toNat - k = n.toNat - (k + 1) + 1 := by omega
    rw [hlast, ← addr_add]
  have hedi : c.edi = dest + BitVec.ofNat 32 (n.toNat - (k + 1)) := by
    rw [h.edi, hnext]
    exact BitVec.add_sub_cancel _ _
  have hesi : c.esi = src + BitVec.ofNat 32 (n.toNat - (k + 1)) := by
    rw [h.esi, hnext]
    exact BitVec.add_sub_cancel _ _
  -- the bytes that are done lie above the one that is read
  have hread : c.mem c.esi = mem c.esi := by
    rw [h.mem, writeBytes_outside]
    rw [readBytes_length, hesi]
    bv_omega
  refine ⟨?_, ?_, ?_, h.df⟩
  · have hone : (c.movs 1).mem = Function.update c.mem c.edi (c.mem c.esi) := rfl
    rw [hone, hread, h.mem, hedi, hesi, hnext dest, hnext src,
      writeBytes_cons_last (by rw [readBytes_length]; omega)]
    rfl
  · rw [← hedi]
    exact Cpu.advance_down h.df _ c.edi
  · rw [← hesi]
    exact Cpu.advance_down h.df _ c.esi

theorem memmove_forward (h : ¬src < dest) (cpu : Cpu) :
    memmove dest src n cpu = (dest, Cpu.rep (Cpu.movs 1)
      { cpu with edi := dest, esi := src, ecx := n, df := false }) := by
  simp only [memmove, if_neg h]

theorem memmove_backward (h : src < dest) (cpu : Cpu) :
    memmove dest src n cpu = (dest, Cpu.rep (Cpu.movs 1)
      { cpu with edi := dest + n - 1, esi := src + n - 1, ecx := n, df := true }) := by
  simp only [memmove, if_pos h]

/-- Between any two blocks the bytes are copied, and the direction flag tells in which direction. -/
theorem memmove_eq (hdest : NoWrap dest n) (hsrc : NoWrap src n) (cpu : Cpu) :
    (memmove dest src n cpu).2.mem = writeBytes cpu.mem dest (readBytes cpu.mem src n.toNat) ∧
      (memmove dest src n cpu).2.df = decide (src < dest) := by
  by_cases hlt : src < dest
  · have hrun := Cpu.rep_inv (Cpu.movs 1) (P := CopiedDownTo cpu.mem dest src n.toNat)
      (c := { cpu with edi := dest + n - 1, esi := src + n - 1, ecx := n, df := true })
      ⟨rfl, by simp, by simp, rfl⟩ (by
        intro i d hi hd
        have hnext := hd.movs hdest hlt hi
        exact ⟨hnext.mem, hnext.edi, hnext.esi, hnext.df⟩)
    rw [memmove_backward hlt]
    refine ⟨?_, hrun.df.trans (decide_eq_true hlt).symm⟩
    simpa using hrun.mem
  · have hahead : Ahead dest src n.toNat := ahead_of_disjoint hdest hsrc (.inr (Nat.not_lt.mp hlt))
    have hrun := Cpu.rep_inv (Cpu.movs 1) (P := fun i d => CopiedUpTo cpu.mem dest src i d ∧
      d.df = false) (c := { cpu with edi := dest, esi := src, ecx := n, df := false })
      ⟨⟨rfl, (BitVec.add_zero dest).symm, (BitVec.add_zero src).symm⟩, rfl⟩ (by
        rintro i d hi ⟨hd, hdf⟩
        have hnext := hd.movs hahead (j := 1) hi hdf
        exact ⟨⟨hnext.mem, hnext.edi, hnext.esi⟩, hdf⟩)
    rw [memmove_forward hlt]
    exact ⟨hrun.1.mem, hrun.2.trans (decide_eq_false hlt).symm⟩

theorem memmove_blockCopied (hdest : NoWrap dest n) (hsrc : NoWrap src n) (cpu : Cpu) :
    BlockCopied cpu.mem (memmove dest src n cpu).2.mem dest src n := by
  rw [(memmove_eq hdest hsrc cpu).1]
  exact blockCopied_of_writeBytes hdest

/-- The copy is right and later string instructions run upwards, exactly when the destination is not
above the source. -/
theorem memmove_exact_iff (cpu : Cpu) (hdest : NoWrap dest n) (hsrc : NoWrap src n) :
    (BlockCopied cpu.mem (memmove dest src n cpu).2.mem dest src n ∧
      (memmove dest src n cpu).2.df = false) ↔ dest.toNat ≤ src.toNat := by
  have hcopied := memmove_blockCopied hdest hsrc cpu
  have hflag := (memmove_eq hdest hsrc cpu).2
  rw [hflag, decide_eq_false_iff_not, BitVec.lt_def, Nat.not_lt]
  exact ⟨fun h => h.2, fun h => ⟨hcopied, h⟩⟩

theorem memmove_exact_down :
    BlockCopied lowBytes.mem (memmove 5 7 11 lowBytes).2.mem 5 7 11 ∧
    (memmove 5 7 11 lowBytes).2.df = false :=
  (memmove_exact_iff lowBytes (by decide) (by decide)).mpr (by decide)

/-- One byte moved up by one: the direction flag stays set. -/
theorem memmove_leaves_flag_set :
    ¬∀ (cpu : Cpu) (dest src n : Word), NoWrap dest n → NoWrap src n →
      BlockCopied cpu.mem (memmove dest src n cpu).2.mem dest src n ∧
        (memmove dest src n cpu).2.df = false := by
  intro h
  have hclear := (h lowBytes 1 0 1 (by decide) (by decide)).2
  have hset : (memmove 1 0 1 lowBytes).2.df = true := by decide
  rw [hset] at hclear
  cases hclear

end

end OreOS
