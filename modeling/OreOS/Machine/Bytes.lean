import Mathlib.Algebra.GroupWithZero.Nat
import Mathlib.Logic.Function.Basic
import Mathlib.Tactic.Common

/-!
# Byte memory and little-endian words

Memory is a function from 32-bit addresses to bytes, so address arithmetic wraps as it does on a
32-bit machine. `slice` lists the values of a function on consecutive numbers; it is the result
of a copy loop that reads one value per iteration.
-/

namespace OreOS.Machine

/-- A register or a pointer of the machine. -/
abbrev Word := BitVec 32

/-- The little-endian word in the four bytes from `a`. -/
def readWord (mem : Word → UInt8) (a : Word) : Word :=
  BitVec.ofNat 32 ((mem a).toNat + 256 * (mem (a + 1#32)).toNat + 65536 * (mem (a + 2#32)).toNat +
    16777216 * (mem (a + 3#32)).toNat)

/-- The bytes of a word, the lowest one first. -/
def wordBytes (w : Word) : List UInt8 :=
  [UInt8.ofNat w.toNat, UInt8.ofNat (w.toNat / 256), UInt8.ofNat (w.toNat / 65536),
    UInt8.ofNat (w.toNat / 16777216)]

/-- The values of `f` at `i, i+1, …, i+n-1`. -/
def slice {α : Type} (f : Nat → α) (i n : Nat) : List α := (List.range' i n).map f

section slice
variable {α : Type} (f : Nat → α)

@[simp] theorem slice_zero (i : Nat) : slice f i 0 = [] := rfl

theorem slice_succ (i n : Nat) : slice f i (n + 1) = f i :: slice f (i + 1) n := by
  simp [slice, List.range'_succ]

theorem slice_succ_last (i n : Nat) : slice f i (n + 1) = slice f i n ++ [f (i + n)] := by
  simp [slice, List.range'_concat]

theorem slice_dropLast (i n : Nat) : (slice f i n).dropLast = slice f i (n - 1) := by
  cases n with
  | zero => rfl
  | succ n => rw [slice_succ_last, List.dropLast_concat, Nat.add_sub_cancel]

theorem slice_congr {g : Nat → α} {i n : Nat} (h : ∀ j, i ≤ j → j < i + n → f j = g j) :
    slice f i n = slice g i n := by
  apply List.map_congr_left
  intro j hj
  rw [List.mem_range'_1] at hj
  exact h j hj.1 hj.2

@[simp] theorem slice_length (i n : Nat) : (slice f i n).length = n := by
  simp [slice]

theorem mem_slice {i n : Nat} {x : α} : x ∈ slice f i n ↔ ∃ j, (i ≤ j ∧ j < i + n) ∧ f j = x := by
  simp [slice, List.mem_range'_1]

/-- A window of a slice that starts at 0. -/
theorem slice_drop_take (m k n : Nat) :
    ((slice f 0 n).drop m).take k = slice f m (min k (n - m)) := by
  simp only [slice, ← List.map_drop, ← List.map_take, List.drop_range', Nat.mul_one, Nat.zero_add]
  rcases Nat.le_total k (n - m) with h | h
  · rw [List.take_range'_of_length_ge h, Nat.min_eq_left h]
  · rw [List.take_range'_of_length_le h, Nat.min_eq_right h]

theorem slice_add (i m n : Nat) : slice f i (m + n) = slice f i m ++ slice f (i + m) n := by
  induction m generalizing i with
  | zero => simp
  | succ m ih =>
    rw [Nat.add_right_comm, slice_succ, ih (i + 1), slice_succ, List.cons_append,
      Nat.add_right_comm]
    rfl

theorem slice_take (n k : Nat) : (slice f 0 n).take k = slice f 0 (min k n) := by
  have h := slice_drop_take f 0 k n
  rwa [List.drop_zero, Nat.sub_zero] at h

/-- Pieces of `m` values each, one behind the other. -/
theorem slice_flatMap (g : Nat → Nat → α) {m : Nat} (hm : 0 < m) (n : Nat) :
    (slice id 0 n).flatMap (fun k => slice (g k) 0 m) = slice (fun p => g (p / m) (p % m)) 0
    (n * m) := by
  induction n with
  | zero => simp
  | succ n ih =>
    rw [slice_succ_last, List.flatMap_append, ih, Nat.succ_mul, slice_add]
    congr 1
    -- the last piece, with the positions counted from its start
    simp only [List.flatMap_singleton, id_eq, Nat.zero_add, slice, List.range'_eq_map_range,
      List.map_map]
    apply List.map_congr_left
    intro j hj
    have hlt : j < m := List.mem_range.mp hj
    have hdiv : (n * m + j) / m = n := by
      rw [Nat.mul_comm, Nat.mul_add_div hm, Nat.div_eq_of_lt hlt, Nat.add_zero]
    have hmod : (n * m + j) % m = j := by
      rw [Nat.mul_comm, Nat.mul_add_mod, Nat.mod_eq_of_lt hlt]
    simp only [Function.comp_apply, hdiv, hmod]

end slice

theorem addr_succ (va : Word) (i : Nat) :
    va + 1#32 + BitVec.ofNat 32 i = va + BitVec.ofNat 32 (i + 1) := by
  rw [BitVec.add_assoc, Nat.add_comm i 1, BitVec.ofNat_add]

theorem addr_add (va : Word) (m n : Nat) :
    va + BitVec.ofNat 32 m + BitVec.ofNat 32 n = va + BitVec.ofNat 32 (m + n) := by
  rw [BitVec.add_assoc, BitVec.ofNat_add]

/-- Memory after the bytes `data` were stored from `a` on, the first one first. -/
def writeBytes (mem : Word → UInt8) (a : Word) : List UInt8 → Word → UInt8
  | [] => mem
  | x :: data => writeBytes (Function.update mem a x) (a + 1#32) data

section writeBytes
variable {mem : Word → UInt8} {a b : Word} {data : List UInt8}

theorem writeBytes_outside (h : data.length ≤ (b - a).toNat) : writeBytes mem a data b = mem b := by
  induction data generalizing mem a with
  | nil => rfl
  | cons x data ih =>
    rw [List.length_cons] at h
    have hne : b ≠ a := by
      rintro rfl
      simp at h
    have hnext : data.length ≤ (b - (a + 1#32)).toNat := by bv_omega
    rw [writeBytes, ih hnext, Function.update_of_ne hne]

theorem writeBytes_inside (hlen : data.length ≤ 2 ^ 32) (h : (b - a).toNat < data.length) :
    writeBytes mem a data b = data[(b - a).toNat] := by
  induction data generalizing mem a with
  | nil => simp at h
  | cons x data ih =>
    rw [List.length_cons] at h hlen
    by_cases hb : b = a
    · subst hb
      -- the address comes round again only after 2^32 bytes
      have hout : data.length ≤ (b - (b + 1#32)).toNat := by bv_omega
      rw [writeBytes, writeBytes_outside hout, Function.update_self]
      simp
    · have hstep : (b - a).toNat = (b - (a + 1#32)).toNat + 1 := by bv_omega
      rw [writeBytes, ih (by omega) (by omega)]
      simp [hstep]

theorem writeBytes_append (mem : Word → UInt8) (a : Word) (xs ys : List UInt8) :
    writeBytes mem a (xs ++ ys) = writeBytes (writeBytes mem a xs)
    (a + BitVec.ofNat 32 xs.length) ys := by
  induction xs generalizing mem a with
  | nil => simp [writeBytes]
  | cons x xs ih => rw [List.cons_append, writeBytes, ih, writeBytes, List.length_cons, addr_succ]

theorem writeBytes_congr {mem' : Word → UInt8} (h : mem' b = mem b) :
    writeBytes mem' a data b = writeBytes mem a data b := by
  induction data generalizing mem mem' a with
  | nil => exact h
  | cons x data ih =>
    apply ih
    rw [Function.update_apply, Function.update_apply, h]

/-- The first byte can be stored last. -/
theorem writeBytes_cons_last {x : UInt8} (h : data.length < 2 ^ 32) :
    Function.update (writeBytes mem (a + 1#32) data) a x = writeBytes mem a (x :: data) := by
  funext b
  rw [writeBytes]
  by_cases hb : b = a
  · subst hb
    have hout : data.length ≤ (b - (b + 1#32)).toNat := by bv_omega
    rw [writeBytes_outside hout, Function.update_self, Function.update_self]
  · rw [Function.update_of_ne hb]
    exact (writeBytes_congr (Function.update_of_ne hb _ _)).symm

end writeBytes

/-- The bytes from `a` on. -/
def readBytes (mem : Word → UInt8) (a : Word) : Nat → List UInt8
  | 0 => []
  | n + 1 => mem a :: readBytes mem (a + 1#32) n

section readBytes
variable {mem mem' : Word → UInt8} {a : Word} {m n : Nat}

@[simp] theorem readBytes_length (mem : Word → UInt8) (a : Word) (n : Nat) :
    (readBytes mem a n).length = n := by
  induction n generalizing a with
  | zero => rfl
  | succ n ih => rw [readBytes, List.length_cons, ih]

theorem readBytes_add (mem : Word → UInt8) (a : Word) (m n : Nat) :
    readBytes mem a (m + n) = readBytes mem a m ++ readBytes mem (a + BitVec.ofNat 32 m) n := by
  induction m generalizing a with
  | zero => simp [readBytes]
  | succ m ih => rw [Nat.add_right_comm, readBytes, ih, readBytes, List.cons_append, addr_succ]

theorem getElem_readBytes {i : Nat} (h : i < (readBytes mem a n).length) :
    (readBytes mem a n)[i] = mem (a + BitVec.ofNat 32 i) := by
  induction n generalizing a i with
  | zero => simp at h
  | succ n ih =>
    cases i with
    | zero => simp [readBytes]
    | succ i => simp only [readBytes, List.getElem_cons_succ, ih, addr_succ]

theorem readBytes_congr (h : ∀ i < n, mem' (a + BitVec.ofNat 32 i) = mem (a + BitVec.ofNat 32 i)) :
    readBytes mem' a n = readBytes mem a n := by
  refine List.ext_getElem (by simp) fun i hi hi' => ?_
  rw [getElem_readBytes, getElem_readBytes]
  exact h i (by simpa using hi)

end readBytes

end OreOS.Machine
