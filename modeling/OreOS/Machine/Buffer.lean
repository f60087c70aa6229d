import Mathlib.Data.List.GetD
import OreOS.Machine.Bytes

/-!
# Buffers that are written in place

A buffer is a function from indices to contents, as large as it is used. `overwrite` is the result
of a loop that stores one value after the other, `reverseBetween` the loop that swaps the ends of a
range until they meet.
-/

namespace OreOS.Machine

variable {α : Type} {f : Nat → α} {x : α} {xs ys : List α} {i k n : Nat}

/-- The buffer after the values `xs` were stored from `k` on. -/
def overwrite (f : Nat → α) (k : Nat) (xs : List α) : Nat → α :=
  fun i => if k ≤ i then xs.getD (i - k) (f i) else f i

@[simp] theorem overwrite_nil : overwrite f k [] = f := by
  funext i
  simp [overwrite]

theorem overwrite_of_lt (h : i < k) : overwrite f k xs i = f i := if_neg (Nat.not_le.mpr h)

theorem overwrite_of_le (h : k + xs.length ≤ i) : overwrite f k xs i = f i := by
  rw [overwrite, if_pos (by omega), List.getD_eq_default _ _ (by omega)]

theorem overwrite_of_mem (h : k ≤ i) (hin : i - k < xs.length) :
    overwrite f k xs i = xs[i - k] := by
  rw [overwrite, if_pos h, List.getD_eq_getElem _ _ hin]

theorem overwrite_cons : overwrite f k (x :: xs) = overwrite (Function.update f k x)
    (k + 1) xs := by
  funext i
  rcases Nat.lt_trichotomy i k with hlt | rfl | hgt
  · rw [overwrite_of_lt hlt, overwrite_of_lt (Nat.lt_succ_of_lt hlt),
      Function.update_of_ne (Nat.ne_of_lt hlt)]
  · rw [overwrite_of_lt (Nat.lt_succ_self i), Function.update_self]
    simp [overwrite]
  · have hsub : i - k = (i - (k + 1)) + 1 := by omega
    rw [overwrite, overwrite, if_pos (Nat.le_of_lt hgt), if_pos (Nat.succ_le_of_lt hgt), hsub,
      List.getD_cons_succ, Function.update_of_ne (Nat.ne_of_gt hgt)]

/-- What was stored is there. -/
theorem slice_overwrite (f : Nat → α) (k : Nat) (xs : List α) :
    slice (overwrite f k xs) k xs.length = xs := by
  induction xs generalizing f k with
  | nil => rfl
  | cons x xs ih =>
    rw [List.length_cons, slice_succ, overwrite_cons, ih, overwrite_of_lt (Nat.lt_succ_self k),
      Function.update_self]

theorem overwrite_append :
    overwrite f k (xs ++ ys) = overwrite (overwrite f k xs) (k + xs.length) ys := by
  induction xs generalizing f k with
  | nil => simp
  | cons x xs ih =>
    rw [List.cons_append, overwrite_cons, overwrite_cons, ih, List.length_cons, Nat.add_right_comm,
      Nat.add_assoc]

theorem overwrite_concat :
    overwrite f k (xs ++ [x]) = Function.update (overwrite f k xs) (k + xs.length) x := by
  rw [overwrite_append, overwrite_cons, overwrite_nil]

/-- A store over the first part of what was stored before. -/
theorem overwrite_overwrite {zs : List α} (h : ys.length = xs.length) :
    overwrite (overwrite f k (xs ++ zs)) k ys = overwrite f k (ys ++ zs) := by
  funext i
  rcases Nat.lt_or_ge i k with hlt | hge
  · rw [overwrite_of_lt hlt, overwrite_of_lt hlt, overwrite_of_lt hlt]
  · simp only [overwrite, if_pos hge]
    rcases Nat.lt_or_ge (i - k) ys.length with hin | hout
    · rw [List.getD_append _ _ _ _ hin, List.getD_eq_getElem _ _ hin, List.getD_eq_getElem _ _ hin]
    · rw [List.getD_append_right _ _ _ _ hout, List.getD_eq_default _ _ hout,
        List.getD_append_right _ _ _ _ (h ▸ hout), h]

/-- A store right before what was stored before. -/
theorem overwrite_before {j : Nat} (h : k + xs.length = j) :
    overwrite (overwrite f j ys) k xs = overwrite f k (xs ++ ys) := by
  rw [overwrite_append, h]
  funext i
  rcases Nat.lt_or_ge i k with hlt | hge
  · rw [overwrite_of_lt hlt, overwrite_of_lt (by omega), overwrite_of_lt (by omega),
      overwrite_of_lt hlt]
  · rcases Nat.lt_or_ge i j with hlt | hge'
    · have hin : i - k < xs.length := by omega
      rw [overwrite_of_lt hlt, overwrite_of_mem hge hin, overwrite_of_mem hge hin]
    · rw [overwrite_of_le (h ▸ hge'), overwrite, overwrite, if_pos hge', if_pos hge',
        overwrite_of_le (h ▸ hge')]

/-- The part behind what was stored. -/
theorem slice_overwrite_of_le (h : k + xs.length ≤ i) :
    slice (overwrite f k xs) i n = slice f i n :=
  slice_congr _ fun _ hj _ => overwrite_of_le (Nat.le_trans h hj)

/-- The part before what was stored. -/
theorem slice_overwrite_of_lt (h : i + n ≤ k) : slice (overwrite f k xs) i n = slice f i n :=
  slice_congr _ fun _ _ hj => overwrite_of_lt (Nat.lt_of_lt_of_le hj h)

theorem slice_overwrite_append (f : Nat → α) (k : Nat) (h : xs.length ≤ n) :
    slice (overwrite f k xs) k n = xs ++ slice f (k + xs.length) (n - xs.length) := by
  obtain ⟨m, rfl⟩ := Nat.exists_eq_add_of_le h
  rw [slice_add, slice_overwrite, slice_overwrite_of_le (Nat.le_refl _), Nat.add_sub_cancel_left]

theorem getElem_slice (f : Nat → α) {i n k : Nat} (h : k < (slice f i n).length) :
    (slice f i n)[k] = f (i + k) := by
  simp [slice]

/-! ## Reversal in place -/

/-- `tmp = f[e]; f[e] = f[b]; f[b] = tmp;` -/
def swap (f : Nat → α) (b e : Nat) : Nat → α :=
  Function.update (Function.update f e (f b)) b (f e)

/-- The loop that swaps the ends `b` and `e` of a range and moves both inwards, until they meet. -/
def reverseBetween (f : Nat → α) (b e : Nat) : Nat → α :=
  if b < e then reverseBetween (swap f b e) (b + 1) (e - 1) else f
termination_by e - b

theorem reverseBetween_apply (f : Nat → α) (b e i : Nat) :
    reverseBetween f b e i = if b ≤ i ∧ i ≤ e then f (b + e - i) else f i := by
  induction f, b, e using reverseBetween.induct with
  | case1 f b e hlt ih =>
    rw [reverseBetween, if_pos hlt, ih]
    by_cases hb : i = b
    · subst hb
      rw [if_neg (by omega), if_pos (by omega), Nat.add_sub_cancel_left]
      exact Function.update_self _ _ _
    · by_cases he : i = e
      · subst he
        rw [if_neg (by omega), if_pos (by omega), Nat.add_sub_cancel, swap,
          Function.update_of_ne (Nat.ne_of_gt hlt)]
        exact Function.update_self _ _ _
      · by_cases hin : b < i ∧ i < e
        · have hmid : b + 1 + (e - 1) - i = b + e - i := by omega
          rw [if_pos (by omega), if_pos (by omega), hmid, swap, Function.update_of_ne (by omega),
            Function.update_of_ne (by omega)]
        · rw [if_neg (by omega), if_neg (by omega), swap, Function.update_of_ne hb,
            Function.update_of_ne he]
  | case2 f b e hge =>
    rw [reverseBetween, if_neg hge]
    by_cases hin : b ≤ i ∧ i ≤ e
    · have hmid : b + e - i = i := by omega
      rw [if_pos hin, hmid]
    · rw [if_neg hin]

/-- The `n + 1` values from `b` on are reversed, and nothing else changes. -/
theorem reverseBetween_overwrite (f : Nat → α) (b n : Nat) :
    reverseBetween f b (b + n) = overwrite f b (slice f b (n + 1)).reverse := by
  funext i
  rw [reverseBetween_apply]
  by_cases hin : b ≤ i ∧ i ≤ b + n
  · have hlen : i - b < (slice f b (n + 1)).reverse.length := by
      rw [List.length_reverse, slice_length]
      omega
    have hmid : b + (b + n) - i = b + ((slice f b (n + 1)).length - 1 - (i - b)) := by
      rw [slice_length]
      omega
    rw [if_pos hin, overwrite_of_mem hin.1 hlen, List.getElem_reverse, getElem_slice, hmid]
  · rw [if_neg hin]
    rcases Nat.lt_or_ge i b with hlt | hge
    · rw [overwrite_of_lt hlt]
    · rw [overwrite_of_le]
      rw [List.length_reverse, slice_length]
      omega

end OreOS.Machine
