import OreOS.Machine.Bytes

/-!
# String instructions

The registers that the string instructions of the i386 work with, and the memory. The segments are
flat, so an offset is an address. With the direction flag clear an instruction moves its pointers
up, with the flag set down. `rep` repeats it as often as `ecx` says.

Routines that store a block often take single bytes until the destination is aligned, then words,
and then the bytes that are left. `wordLoop` is this loop for any two operations, and `wordLoop_inv`
its rule.
-/

namespace OreOS.Machine

/-- The registers that string instructions use, and the memory. -/
structure Cpu where
  eax : Word
  ecx : Word
  edx : Word
  esi : Word
  edi : Word
  /-- The direction flag. -/
  df : Bool
  mem : Word → UInt8

namespace Cpu

/-- The low byte of `eax`. -/
def al (c : Cpu) : UInt8 := UInt8.ofNat c.eax.toNat

/-- A write to `al` leaves the other bytes of `eax`. -/
def setAl (x : UInt8) (c : Cpu) :
    Cpu := { c with eax := c.eax &&& 0xFFFFFF00#32 ||| BitVec.ofNat 32 x.toNat }

/-- A pointer after a string instruction on `k` bytes. -/
def advance (c : Cpu) (k p : Word) : Word := if c.df then p - k else p + k

theorem advance_up {c : Cpu} (h : c.df = false) (k p : Word) : c.advance k p = p + k := by
  simp [advance, h]

theorem advance_down {c : Cpu} (h : c.df = true) (k p : Word) : c.advance k p = p - k := by
  simp [advance, h]

/-- `stosl`. -/
def stosl (c : Cpu) : Cpu :=
  { c with mem := writeBytes c.mem c.edi (wordBytes c.eax), edi := c.advance 4 c.edi }

/-- `movsb` and `movsl`, for one byte and for four. -/
def movs (k : Nat) (c : Cpu) : Cpu :=
  { c with
    mem := writeBytes c.mem c.edi (readBytes c.mem c.esi k)
    esi := c.advance (BitVec.ofNat 32 k) c.esi
    edi := c.advance (BitVec.ofNat 32 k) c.edi }

/-- A string instruction that is executed `n` times under `rep`. -/
def repeatOp (op : Cpu → Cpu) : Nat → Cpu → Cpu
  | 0, c => c
  | n + 1, c => repeatOp op n { op c with ecx := c.ecx - 1 }

/-- The prefix `rep`. -/
def rep (op : Cpu → Cpu) (c : Cpu) : Cpu := repeatOp op c.ecx.toNat c

/-- What every repetition keeps. `P i` is said of the state after `i` of them. -/
theorem rep_inv (op : Cpu → Cpu) {P : Nat → Cpu → Prop} {c : Cpu} (hstart : P 0 c)
    (hstep : ∀ i d, i < c.ecx.toNat → P i d → P (i + 1) { op d with ecx := d.ecx - 1 }) :
    P c.ecx.toNat (rep op c) := by
  have hrun : ∀ n i d, i + n = c.ecx.toNat → P i d → P (i + n) (repeatOp op n d) := by
    intro n
    induction n with
    | zero => exact fun i d _ hd => hd
    | succ n ih =>
      intro i d hi hd
      have hnext := ih (i + 1) _ (by omega) (hstep i d (by omega) hd)
      rwa [Nat.add_assoc, Nat.add_comm 1] at hnext
  have hall := hrun c.ecx.toNat 0 c (Nat.zero_add _) hstart
  rwa [Nat.zero_add] at hall

end Cpu

/-! ## Bytes, words, bytes -/

section wordLoop
variable (byte long : Cpu → Cpu)

/-- The bytes behind the words; `edx` counts them. -/
def bytesLeft (c : Cpu) : Cpu :=
  if c.edx = 0 then c else bytesLeft { byte c with edx := c.edx - 1 }
termination_by c.edx.toNat
decreasing_by bv_omega

/-- The words, as many as fit, and the bytes behind them. -/
def wordsThenBytes (c : Cpu) : Cpu :=
  bytesLeft byte (Cpu.rep long { c with edx := c.ecx &&& 3, ecx := c.ecx >>> 2, df := false })

/-- Bytes up to the first aligned address, then words, then bytes; `ecx` counts all the bytes. -/
def wordLoop (c : Cpu) : Cpu :=
  if c.ecx = 0 then c
  else if c.edi &&& 3 = 0 then wordsThenBytes byte long c
  else wordLoop { byte c with ecx := c.ecx - 1 }
termination_by c.ecx.toNat
decreasing_by bv_omega

end wordLoop

/-- The two operations of a `wordLoop` over `n` bytes. `P k` is said of the state in which `k` bytes
are done; it does not depend on the counters. -/
structure WordLoopInv (byte long : Cpu → Cpu) (n : Nat) (P : Nat → Cpu → Prop) : Prop where
  counters : ∀ k c ecx edx df, P k c → P k { c with ecx, edx, df }
  byte : ∀ k c, k + 1 ≤ n → P k c → P (k + 1) (byte c)
  long : ∀ k c, k + 4 ≤ n → c.df = false → P k c →
    P (k + 4) (long c) ∧ (long c).df = c.df ∧ (long c).edx = c.edx

section
variable {byte long : Cpu → Cpu} {n k : Nat} {P : Nat → Cpu → Prop} {c : Cpu}

theorem and_three_toNat (x : Word) : (x &&& 3).toNat = x.toNat % 4 := by
  have hmask : (3 : Word).toNat = 2 ^ 2 - 1 := rfl
  rw [BitVec.toNat_and, hmask, Nat.and_two_pow_sub_one_eq_mod]

theorem shift_two_toNat (x : Word) : (x >>> 2).toNat = x.toNat / 4 := by
  rw [BitVec.toNat_ushiftRight, Nat.shiftRight_eq_div_pow]

theorem bytesLeft_inv (h : WordLoopInv byte long n P) (hP : P k c) (hn : k + c.edx.toNat = n) :
    P n (bytesLeft byte c) := by
  induction c using bytesLeft.induct byte generalizing k with
  | case1 c hzero =>
    rw [bytesLeft, if_pos hzero]
    rw [hzero] at hn
    exact hn ▸ hP
  | case2 c hpos ih =>
    rw [bytesLeft, if_neg hpos]
    have hsub : (c.edx - 1).toNat + 1 = c.edx.toNat := by bv_omega
    exact ih (h.counters _ _ _ _ _ (h.byte k c (by omega) hP)) (by simp only; omega)

theorem wordsThenBytes_inv (h : WordLoopInv byte long n P) (hP : P k c) (hn : k + c.ecx.toNat = n) :
    P n (wordsThenBytes byte long c) := by
  have hlow := and_three_toNat c.ecx
  have hhigh := shift_two_toNat c.ecx
  -- the counters: the words that are done, and `edx`, which waits
  have hwords := Cpu.rep_inv long
    (c := { c with edx := c.ecx &&& 3, ecx := c.ecx >>> 2, df := false })
    (P := fun i d => P (k + 4 * i) d ∧ d.df = false ∧ d.edx = c.ecx &&& 3)
    ⟨h.counters _ _ _ _ _ hP, rfl, rfl⟩ (by
      rintro i d hi ⟨hd, hdf, hedx⟩
      have hi' : i < (c.ecx >>> 2).toNat := hi
      obtain ⟨hnext, hdf', hedx'⟩ := h.long (k + 4 * i) d (by omega) hdf hd
      exact ⟨h.counters _ _ _ _ _ hnext, hdf'.trans hdf, hedx'.trans hedx⟩)
  obtain ⟨hdone, -, hedx⟩ := hwords
  apply bytesLeft_inv h hdone
  rw [hedx, hlow]
  simp only
  omega

/-- At the end all the bytes are done. -/
theorem wordLoop_inv (h : WordLoopInv byte long n P) (hP : P k c) (hn : k + c.ecx.toNat = n) :
    P n (wordLoop byte long c) := by
  induction c using wordLoop.induct byte generalizing k with
  | case1 c hzero =>
    rw [wordLoop, if_pos hzero]
    rw [hzero] at hn
    exact hn ▸ hP
  | case2 c hpos haligned =>
    rw [wordLoop, if_neg hpos, if_pos haligned]
    exact wordsThenBytes_inv h hP hn
  | case3 c hpos haligned ih =>
    rw [wordLoop, if_neg hpos, if_neg haligned]
    have hsub : (c.ecx - 1).toNat + 1 = c.ecx.toNat := by bv_omega
    exact ih (h.counters _ _ _ _ _ (h.byte k c (by omega) hP)) (by simp only; omega)

end

end OreOS.Machine
