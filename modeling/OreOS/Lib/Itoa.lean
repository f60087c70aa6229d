import Mathlib.Data.Nat.Digits.Lemmas
import OreOS.Machine.Buffer

/-!
# Numbers as text

Model of `itoa`, `strrev` and `strlen` (`lib.c:337-409`), and of `ece391_itoa` and `ece391_strrev`
(`ece391support.c:48-103`), the user library's own. A string lies in a buffer from an index on; of
the buffer the bytes up to its end can be read. The loops work in the buffer.
-/

namespace OreOS
open Machine

/-- `strlen` (`lib.c:400-409`) of a string in the given bytes. Without a NUL the
loop leaves them. -/
def strlen : List UInt8 → Option Nat
  | [] => none
  | c :: s => if c = 0 then some 0 else (strlen s).map (· + 1)

/-- `strrev` (`lib.c:378-392`) of the string at `s` in the buffer `m`, with `n` bytes from
there to the end of the buffer. Of an empty string the end is taken to be 0, not -1;
neither loop is entered. -/
def strrev (m : Nat → UInt8) (s n : Nat) : Option (Nat → UInt8) :=
  (strlen (slice m s n)).map fun len => reverseBetween m s (s + (len - 1))

/-- The digits `0123456789ABCDEFGHIJKLMNOPQRSTUVWXYZ`. -/
def lookup : List UInt8 :=
  [48, 49, 50, 51, 52, 53, 54, 55, 56, 57, 65, 66, 67, 68, 69, 70, 71, 72, 73, 74, 75, 76, 77, 78,
    79, 80, 81, 82, 83, 84, 85, 86, 87, 88, 89, 90]

/-- The loop of `itoa` (`lib.c:358-363`): the last index and the buffer. It is `none` where the fuel
is not enough for the digits. -/
def itoaLoop (radix : Nat) : Nat → Nat → Nat → (Nat → UInt8) → Option (Nat × (Nat → UInt8))
  | 0, _, _, _ => none
  | fuel + 1, newval, newbuf, m =>
      if newval > 0 then
        itoaLoop radix fuel (newval / radix) (newbuf + 1)
          (Function.update m newbuf (lookup.getD (newval % radix) 0))
      else some (newbuf, m)

/-- `itoa` (`lib.c:337-370`) into the buffer `m` from `buf` on, with `n` bytes to its end. A value
of 32 bits has at most 32 digits. -/
def itoa (value : Word) (m : Nat → UInt8) (buf n radix : Nat) : Option (Nat → UInt8) :=
  if value = 0 then some (Function.update (Function.update m buf 48) (buf + 1) 0)
  else do
    let (newbuf, m) ← itoaLoop radix 33 value.toNat buf m
    strrev (Function.update m newbuf 0) buf n

/-- `ece391_strrev` (`ece391support.c:83-103`). Unlike `strrev` it compares the index of the last
character with 0 first. -/
def ece391Strrev (m : Nat → UInt8) (s n : Nat) : Option (Nat → UInt8) :=
  (strlen (slice m s n)).map fun (len : Nat) =>
    if (len : Int) - 1 ≤ 0 then m else reverseBetween m s (s + (len - 1))

/-- `ece391_itoa` (`ece391support.c:48-80`). Its loop is the one of `itoa`. -/
def ece391Itoa (value : Word) (m : Nat → UInt8) (buf n radix : Nat) : Option (Nat → UInt8) :=
  if value = 0 then some (Function.update (Function.update m buf 48) (buf + 1) 0)
  else do
    let (newbuf, m) ← itoaLoop radix 33 value.toNat buf m
    ece391Strrev (Function.update m newbuf 0) buf n

/-! ## What they compute -/

/-- The number `n` in the given radix, without leading zeros. -/
def numeral (radix n : Nat) : List UInt8 :=
  if n = 0 then [48] else ((Nat.digits radix n).map fun d => lookup.getD d 0).reverse

theorem strlen_of_nul {s : List UInt8} (h : 0 ∉ s) (rest : List UInt8) :
    strlen (s ++ 0 :: rest) = some s.length := by
  induction s with
  | nil => rfl
  | cons c s ih =>
    obtain ⟨hc, hs⟩ := not_or.mp (List.mem_cons.not.mp h)
    rw [List.cons_append, strlen, if_neg (Ne.symm hc), ih hs]
    rfl

theorem lookup_ne_zero : ∀ d < 36, lookup.getD d 0 ≠ 0 := by decide

theorem nul_not_mem_numeral {radix : Nat} (h2 : 2 ≤ radix) (h36 : radix ≤ 36) (n : Nat) :
    0 ∉ numeral radix n := by
  unfold numeral
  split
  · decide
  · rw [List.mem_reverse, List.mem_map]
    rintro ⟨d, hd, hzero⟩
    exact lookup_ne_zero d ((Nat.digits_lt_base h2 hd).trans_le h36) hzero

theorem numeral_length_pos (radix n : Nat) : 0 < (numeral radix n).length := by
  unfold numeral
  split
  · decide
  next hn =>
    rw [List.length_reverse, List.length_map]
    exact List.length_pos_iff.mpr (Nat.digits_ne_nil_iff_ne_zero.mpr hn)

theorem numeral_length_le {radix n k : Nat} (h2 : 2 ≤ radix) (hk : 0 < k) (hn : n < radix ^ k) :
    (numeral radix n).length ≤ k := by
  unfold numeral
  split
  · exact hk
  · rw [List.length_reverse, List.length_map]
    exact (Nat.digits_length_le_iff h2 n).mpr hn

theorem itoaLoop_eq {radix : Nat} (h2 : 2 ≤ radix) {fuel newval : Nat}
    (hval : newval < radix ^ fuel) (newbuf : Nat) (m : Nat → UInt8) :
    itoaLoop radix (fuel + 1) newval newbuf m =
      some (newbuf + (Nat.digits radix newval).length,
        overwrite m newbuf ((Nat.digits radix newval).map fun d => lookup.getD d 0)) := by
  induction fuel generalizing newval newbuf m with
  | zero =>
    obtain rfl : newval = 0 := by simpa using hval
    simp [itoaLoop]
  | succ fuel ih =>
    rcases Nat.eq_zero_or_pos newval with rfl | hpos
    · simp [itoaLoop]
    · have hdiv : newval / radix < radix ^ fuel := by
        rw [Nat.div_lt_iff_lt_mul (by omega)]
        rwa [Nat.pow_succ] at hval
      rw [itoaLoop, if_pos hpos, ih hdiv, Nat.digits_def' h2 hpos, List.length_cons, List.map_cons,
        overwrite_cons, Nat.add_assoc, Nat.add_comm 1]

/-- A string that was stored in a buffer. -/
theorem strlen_overwrite (m : Nat → UInt8) (s : Nat) {n : Nat} {cs : List UInt8} (h0 : 0 ∉ cs)
    (hn : cs.length < n) : strlen (slice (overwrite m s (cs ++ [0])) s n) = some cs.length := by
  rw [slice_overwrite_append m s (by simpa using hn), List.append_assoc]
  exact strlen_of_nul h0 _

/-- The string in the buffer is reversed, and nothing else changes. -/
theorem strrev_eq (m : Nat → UInt8) (s : Nat) {n : Nat} {cs : List UInt8} (h0 : 0 ∉ cs)
    (hpos : 0 < cs.length) (hn : cs.length < n) :
    strrev (overwrite m s (cs ++ [0])) s n = some (overwrite m s (cs.reverse ++ [0])) := by
  have hcs : slice (overwrite m s (cs ++ [0])) s cs.length = cs := by
    rw [overwrite_append, slice_overwrite_of_lt (Nat.le_refl _), slice_overwrite]
  rw [strrev, strlen_overwrite m s h0 hn, Option.map_some, reverseBetween_overwrite,
    Nat.sub_add_cancel hpos, hcs, overwrite_overwrite List.length_reverse]

theorem itoa_eq {radix : Nat} (h2 : 2 ≤ radix) (h36 : radix ≤ 36) (value : Word) (m : Nat → UInt8)
    (buf : Nat) {n : Nat} (hn : (numeral radix value.toNat).length < n) :
    itoa value m buf n radix = some (overwrite m buf (numeral radix value.toNat ++ [0])) := by
  have hnul := nul_not_mem_numeral h2 h36 value.toNat
  have hpos := numeral_length_pos radix value.toNat
  by_cases hv : value = 0
  · subst hv
    simp [itoa, numeral, overwrite_cons]
  · have hv' : value.toNat ≠ 0 := fun h => hv (BitVec.eq_of_toNat_eq h)
    have hfuel : value.toNat < radix ^ 32 := value.isLt.trans_le (Nat.pow_le_pow_left h2 32)
    simp only [numeral, if_neg hv', List.length_reverse, List.mem_reverse] at hn hnul hpos
    rw [itoa, if_neg hv, itoaLoop_eq h2 hfuel, Option.bind_eq_bind, Option.bind_some]
    simp only
    have hconcat : Function.update
        (overwrite m buf ((Nat.digits radix value.toNat).map fun d => lookup.getD d 0))
        (buf + (Nat.digits radix value.toNat).length) 0 =
        overwrite m buf (((Nat.digits radix value.toNat).map fun d => lookup.getD d 0) ++ [0]) := by
      rw [overwrite_concat, List.length_map]
    rw [hconcat, strrev_eq m buf hnul hpos hn, numeral, if_neg hv']

theorem ece391Strrev_eq_strrev : ece391Strrev = strrev := by
  funext m s n
  rw [ece391Strrev, strrev]
  apply Option.map_congr
  intro len _
  by_cases hshort : (len : Int) - 1 ≤ 0
  · -- nothing to swap
    have hend : s + (len - 1) = s := by omega
    rw [if_pos hshort, hend, reverseBetween, if_neg (Nat.lt_irrefl s)]
  · rw [if_neg hshort]

theorem ece391Itoa_eq_itoa : ece391Itoa = itoa := by
  funext value m buf n radix
  rw [ece391Itoa, itoa, ece391Strrev_eq_strrev]

end OreOS
