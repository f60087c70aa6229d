import Mathlib.Tactic.Common

/-!
# Fixed-length arrays with undefined out-of-range accesses

A C array of length `n` is a `Vector α n`. Reads are `a[i]?`; `store` is the write `a[i] = x`.
Both are `none` outside `0..n-1`, where C leaves the access undefined. `firstIdx` is the search
loop `for (i = 0; i < n; i++) if (p(a[i])) break;`, whose index after the loop is `n` when no
element satisfies `p`.
-/

namespace OreOS.Machine

variable {α : Type} {n : Nat}

/-- The write `a[i] = x`. -/
def store (a : Vector α n) (i : Nat) (x : α) : Option (Vector α n) :=
  if h : i < n then some (a.set i x h) else none

/-- The write `a[i] = x` at a signed index. -/
def storeInt (a : Vector α n) (i : Int) (x : α) : Option (Vector α n) :=
  if 0 ≤ i then store a i.toNat x else none

/-- The read `a[i]` at a signed index. -/
def loadInt (a : Vector α n) (i : Int) : Option α :=
  if 0 ≤ i then a[i.toNat]? else none

theorem store_eq_some_iff {a b : Vector α n} {i : Nat} {x : α} :
    store a i x = some b ↔ ∃ h : i < n, a.set i x h = b := by
  unfold store
  by_cases h : i < n
  · simp [h]
  · simp only [dif_neg h, reduceCtorEq, false_iff, not_exists]
    intro hi
    exact absurd hi h

theorem store_isSome {a : Vector α n} {i : Nat} (x : α) (h : i < n) :
    store a i x = some (a.set i x h) := by
  simp [store, h]

theorem loadInt_natCast (a : Vector α n) (i : Nat) : loadInt a (i : Int) = a[i]? := by
  simp [loadInt]

/-- A store changes the element it names and no other. -/
theorem getElem?_of_store {a b : Vector α n} {i : Nat} {x : α} (h : store a i x = some b)
    (j : Nat) : b[j]? = if i = j then some x else a[j]? := by
  obtain ⟨hi, rfl⟩ := store_eq_some_iff.mp h
  rw [Vector.getElem?_set hi]

/-- The writes `a[i] = x; a[i + 1] = y; …`. -/
def storeAll (a : Vector α n) (i : Nat) : List α → Option (Vector α n)
  | [] => some a
  | x :: xs => (store a i x).bind fun a => storeAll a (i + 1) xs

/-- Values for which there is room are stored, and nothing else changes. -/
theorem storeAll_spec (a : Vector α n) (i : Nat) (xs : List α) (h : i + xs.length ≤ n) :
    ∃ b, storeAll a i xs = some b ∧ (∀ j < xs.length, b[i + j]? = xs[j]?) ∧ ∀ j < i,
    b[j]? = a[j]? := by
  induction xs generalizing a i with
  | nil => exact ⟨a, rfl, fun j hj => absurd hj (Nat.not_lt_zero j), fun _ _ => rfl⟩
  | cons x xs ih =>
    rw [List.length_cons] at h
    have hstore := store_isSome x (show i < n by omega) (a := a)
    obtain ⟨b, hb, hin, hbelow⟩ := ih (a.set i x (by omega)) (i + 1) (by omega)
    refine ⟨b, by rw [storeAll, hstore, Option.bind_some, hb], fun j hj => ?_, fun j hj => ?_⟩
    · cases j with
      | zero => rw [Nat.add_zero, hbelow i (Nat.lt_succ_self i), getElem?_of_store hstore,
          if_pos rfl]; rfl
      | succ j =>
        rw [List.length_cons] at hj
        rw [Nat.add_comm j, ← Nat.add_assoc, hin j (by omega), Nat.add_comm 1,
          List.getElem?_cons_succ]
    · rw [hbelow j (by omega), getElem?_of_store hstore, if_neg (by omega)]

/-- The index at which the search loop for an element with `p` stops. -/
def firstIdx (p : α → Bool) (a : Vector α n) : Nat := a.toList.findIdx p

theorem firstIdx_le (p : α → Bool) (a : Vector α n) : firstIdx p a ≤ n := by
  have h : a.toList.findIdx p ≤ a.toList.length := List.findIdx_le_length
  simpa [firstIdx] using h

/-- The element at which the loop stops satisfies `p`. -/
theorem firstIdx_spec {p : α → Bool} {a : Vector α n} (h : firstIdx p a < n) :
    ∃ x, a[firstIdx p a]? = some x ∧ p x = true := by
  have hlen : firstIdx p a < a.toList.length := by simpa using h
  refine ⟨a.toList[firstIdx p a], ?_, List.findIdx_getElem⟩
  rw [← Vector.getElem?_toList]
  exact List.getElem?_eq_getElem hlen

/-- The elements the loop passes over do not satisfy `p`. -/
theorem not_of_lt_firstIdx {p : α → Bool} {a : Vector α n} {i : Nat} {x : α}
    (hi : i < firstIdx p a) (hx : a[i]? = some x) : p x = false := by
  have hlen : i < a.toList.length := by
    have := firstIdx_le p a
    simp; omega
  have hget : a.toList[i] = x := by
    rw [← Vector.getElem?_toList] at hx
    rw [List.getElem?_eq_getElem hlen] at hx
    exact Option.some.inj hx
  have := List.not_of_lt_findIdx hi
  simpa [hget] using this

end OreOS.Machine
