import Mathlib.Data.List.GetD
import Mathlib.Data.List.TakeWhile
import Mathlib.Order.Nat
import Mathlib.Tactic.Common
import OreOS.Machine.Bytes

/-!
# C strings of the kernel library

Model of the string functions of `lib.c`. A pointer to characters is the function from indices to
the bytes found there; `cstr` is the memory that holds a NUL-terminated string. `char` is signed
on the target, so `strncmp` returns a difference of signed bytes.
-/

namespace OreOS
open Machine

/-- Memory that starts with the characters of `s` and a terminating NUL. -/
def cstr (s : List UInt8) (i : Nat) : UInt8 := s.getD i 0

/-- The loop of `strncmp` with `n` iterations left, at index `i`. -/
def strncmpFrom (s1 s2 : Nat → UInt8) (i : Nat) : Nat → Int
  | 0 => 0
  | n + 1 =>
      if s1 i ≠ s2 i ∨ s1 i = 0 then (s1 i).toInt8.toInt - (s2 i).toInt8.toInt
      else strncmpFrom s1 s2 (i + 1) n

/-- `strncmp` (`lib.c:613-630`). -/
def strncmp (s1 s2 : Nat → UInt8) (n : Nat) : Int := strncmpFrom s1 s2 0 n

/-- The bytes that `strncpy` stores from index `i` on, `n` of them left (`lib.c:663-678`): the
    source up to its NUL, then zeros. -/
def strncpyFrom (src : Nat → UInt8) (i : Nat) : Nat → List UInt8
  | 0 => []
  | n + 1 => if src i = 0 then List.replicate (n + 1) 0 else src i :: strncpyFrom src (i + 1) n

/-- `strncpy` (`lib.c:663-678`), as the `n` bytes it writes to its destination. -/
def strncpy (src : Nat → UInt8) (n : Nat) : List UInt8 := strncpyFrom src 0 n

/-- The bytes that `strcpy` stores from index `i` on, when `n` bytes of the source can be read from
    there (`lib.c:641-652`): the source up to its NUL and the NUL. Without a NUL among them the loop
    leaves the source. -/
def strcpyFrom (src : Nat → UInt8) (i : Nat) : Nat → Option (List UInt8)
  | 0 => none
  | n + 1 => if src i = 0 then some [0] else (strcpyFrom src (i + 1) n).map (src i :: ·)

/-- `strcpy` (`lib.c:641-652`), as the bytes it writes to its destination. -/
def strcpy (src : Nat → UInt8) (n : Nat) : Option (List UInt8) := strcpyFrom src 0 n

/-- The string that a buffer holds: its bytes up to the first NUL. -/
def cstring (buf : List UInt8) : List UInt8 := buf.takeWhile (· != 0)

/-! ## Strings without a NUL inside -/

theorem cstring_append_nul {s : List UInt8} (h : 0 ∉ s) (rest : List UInt8) :
    cstring (s ++ 0 :: rest) = s := by
  have hne : ∀ x ∈ s, (x != 0) = true := by
    intro x hx
    simp only [bne_iff_ne]
    rintro rfl
    exact h hx
  rw [cstring, List.takeWhile_append_of_pos hne]
  simp

theorem nul_not_mem_cstring (buf : List UInt8) : 0 ∉ cstring buf := by
  intro h
  have := List.mem_takeWhile_imp h
  simp at this

/-- Padding with zeros does not change the string. -/
@[simp] theorem cstr_append_zeros (s : List UInt8) (n : Nat) :
    cstr (s ++ List.replicate n 0) = cstr s := by
  funext k
  unfold cstr
  by_cases hk : k < s.length
  · rw [List.getD_append _ _ _ _ hk]
  · rw [List.getD_append_right _ _ _ _ (by omega), List.getD_eq_default s 0 (by omega)]
    by_cases hn : k - s.length < n
    · simp [List.getD_eq_getElem?_getD, hn]
    · simp [List.getD_eq_getElem?_getD, hn]

theorem cstr_ne_zero {s : List UInt8} (h : 0 ∉ s) {k : Nat} : cstr s k ≠ 0 ↔ k < s.length := by
  unfold cstr
  constructor
  · intro hne
    by_contra hge
    exact hne (List.getD_eq_default s 0 (by omega))
  · intro hk hzero
    rw [List.getD_eq_getElem s 0 hk] at hzero
    exact h (hzero ▸ List.getElem_mem hk)

/-- Two strings that agree on the first `n` characters, as far as the first string goes. -/
theorem strncmpFrom_eq_zero (s1 s2 : Nat → UInt8) (n i : Nat) :
    strncmpFrom s1 s2 i n = 0 ↔
      ∀ k, i ≤ k → k < i + n → (∀ l, i ≤ l → l < k → s1 l ≠ 0) → s1 k = s2 k := by
  induction n generalizing i with
  | zero =>
    simp only [strncmpFrom, true_iff]
    intro k h1 h2
    omega
  | succ n ih =>
    have hdiff : (s1 i).toInt8.toInt - (s2 i).toInt8.toInt = 0 ↔ s1 i = s2 i := by
      rw [Int.sub_eq_zero, Int8.toInt_inj]
      exact ⟨fun h => congrArg Int8.toUInt8 h, congrArg UInt8.toInt8⟩
    unfold strncmpFrom
    split
    next hstop =>
      rw [hdiff]
      constructor
      · intro heq k h1 _ hbefore
        -- the loop stops at `i`, so `i` holds a NUL and nothing after it counts
        have hnul : s1 i = 0 := hstop.resolve_left (fun hne => hne heq)
        rcases Nat.lt_or_eq_of_le h1 with hlt | rfl
        · exact absurd hnul (hbefore i (Nat.le_refl i) hlt)
        · exact heq
      · intro hall
        apply hall i (Nat.le_refl i) (by omega)
        intro l h1 h2
        omega
    next hgo =>
      rw [not_or, not_not] at hgo
      rw [ih]
      constructor
      · intro hall k h1 h2 hbefore
        rcases Nat.lt_or_eq_of_le h1 with hlt | rfl
        · exact hall k hlt (by omega) fun l hl hk => hbefore l (by omega) hk
        · exact hgo.1
      · intro hall k h1 h2 hbefore
        apply hall k (by omega) (by omega)
        intro l hl hk
        rcases Nat.lt_or_eq_of_le hl with hlt | rfl
        · exact hbefore l hlt hk
        · exact hgo.2

/-- `strncmp` decides equality of strings that fit. -/
theorem strncmp_eq_zero {s t : List UInt8} {n : Nat} (hs : 0 ∉ s) (ht : 0 ∉ t) (hsn : s.length ≤ n)
    (htn : t.length ≤ n) : strncmp (cstr s) (cstr t) n = 0 ↔ s = t := by
  rw [strncmp, strncmpFrom_eq_zero]
  constructor
  · intro hall
    have hagree : ∀ k ≤ s.length, k < n → cstr s k = cstr t k := by
      intro k hk hkn
      apply hall k (Nat.zero_le k) (by omega)
      intro l _ hl
      exact (cstr_ne_zero hs).mpr (by omega)
    have hlen : s.length = t.length := by
      apply Nat.le_antisymm
      · by_contra hgt
        have hne := (cstr_ne_zero hs (k := t.length)).mpr (by omega)
        rw [hagree t.length (by omega) (by omega), cstr_ne_zero ht] at hne
        omega
      · by_contra hgt
        have hne := (cstr_ne_zero ht (k := s.length)).mpr (by omega)
        rw [← hagree s.length (Nat.le_refl _) (by omega), cstr_ne_zero hs] at hne
        omega
    apply List.ext_getElem hlen
    intro k h1 h2
    have := hagree k (by omega) (by omega)
    simpa [cstr, List.getD_eq_getElem, h1, h2] using this
  · rintro rfl k _ _ _
    rfl

/-- Memory agrees with the string it holds, up to the NUL. -/
theorem cstr_cstring {buf : List UInt8} {k : Nat} (hk : k ≤ (cstring buf).length) :
    cstr buf k = cstr (cstring buf) k := by
  induction buf generalizing k with
  | nil => rfl
  | cons x buf ih =>
    by_cases hx : x = 0
    · subst hx
      have hnil : cstring (0 :: buf) = [] := rfl
      rw [hnil, List.length_nil, Nat.le_zero] at hk
      subst hk
      rfl
    · have hcons : cstring (x :: buf) = x :: cstring buf := by simp [cstring, hx]
      rw [hcons] at hk ⊢
      cases k with
      | zero => rfl
      | succ k => exact ih (by simpa using hk)

theorem strncpyFrom_eq {src : Nat → UInt8} {s : List UInt8} {n i : Nat} (hs : 0 ∉ s)
    (hlen : s.length ≤ n) (hsrc : ∀ k ≤ s.length, src (i + k) = cstr s k) :
    strncpyFrom src i n = s ++ List.replicate (n - s.length) 0 := by
  induction n generalizing s i with
  | zero =>
    have hnil : s = [] := List.eq_nil_of_length_eq_zero (by omega)
    subst hnil
    rfl
  | succ n ih =>
    have hfirst := hsrc 0 (Nat.zero_le _)
    rw [Nat.add_zero] at hfirst
    cases s with
    | nil => simp [strncpyFrom, hfirst, cstr]
    | cons x s =>
      have hx : src i = x := by rw [hfirst]; rfl
      have hx0 : x ≠ 0 := by
        rintro rfl
        exact hs (by simp)
      have hnext : ∀ k ≤ s.length, src (i + 1 + k) = cstr s k := by
        intro k hk
        rw [Nat.add_assoc, Nat.add_comm 1 k, hsrc (k + 1) (by simpa using hk)]
        rfl
      have hrest := ih (fun h => hs (by simp [h])) (by simpa using hlen) hnext
      rw [strncpyFrom, hx, if_neg hx0, hrest]
      simp

/-- `strncpy` copies the string of a buffer, if it fits, and pads it with zeros. -/
theorem strncpy_eq (buf : List UInt8) {n : Nat} (hlen : (cstring buf).length ≤ n) :
    strncpy (cstr buf) n = cstring buf ++ List.replicate (n - (cstring buf).length) 0 := by
  apply strncpyFrom_eq (nul_not_mem_cstring buf) hlen
  intro k hk
  rw [Nat.zero_add]
  exact cstr_cstring hk

/-! ## Copies up to a NUL -/

/-- `strcpy` copies as far as the first NUL. -/
theorem strcpyFrom_eq {src : Nat → UInt8} {m n i : Nat} (hm : m < n)
    (hne : ∀ j < m, src (i + j) ≠ 0) (hnul : src (i + m) = 0) :
    strcpyFrom src i n = some (slice src i (m + 1)) := by
  induction m generalizing n i with
  | zero =>
    obtain ⟨n, rfl⟩ := Nat.exists_eq_succ_of_ne_zero (by omega : n ≠ 0)
    rw [Nat.add_zero] at hnul
    simp [strcpyFrom, slice_succ, hnul]
  | succ m ih =>
    obtain ⟨n, rfl⟩ := Nat.exists_eq_succ_of_ne_zero (by omega : n ≠ 0)
    have hfirst : src i ≠ 0 := hne 0 (by omega)
    have hrest : strcpyFrom src (i + 1) n = some (slice src (i + 1) (m + 1)) := by
      apply ih (by omega)
      · intro j hj
        rw [Nat.add_assoc, Nat.add_comm 1 j]
        exact hne (j + 1) (by omega)
      · rw [Nat.add_assoc, Nat.add_comm 1 m]
        exact hnul
    rw [strcpyFrom, if_neg hfirst, hrest, slice_succ src i (m + 1)]
    rfl

theorem strcpyFrom_none {src : Nat → UInt8} {n i : Nat} (h : ∀ j < n, src (i + j) ≠ 0) :
    strcpyFrom src i n = none := by
  induction n generalizing i with
  | zero => rfl
  | succ n ih =>
    have hfirst : src i ≠ 0 := h 0 (by omega)
    have hrest : strcpyFrom src (i + 1) n = none := by
      apply ih
      intro j hj
      rw [Nat.add_assoc, Nat.add_comm 1 j]
      exact h (j + 1) (by omega)
    rw [strcpyFrom, if_neg hfirst, hrest]
    rfl

/-- `strcpy` is defined when there is a NUL, and copies the bytes up to the first one. -/
theorem strcpy_eq_some_iff {src : Nat → UInt8} {n : Nat} {data : List UInt8} :
    strcpy src n = some data ↔
      ∃ m < n, (∀ j < m, src j ≠ 0) ∧ src m = 0 ∧ data = slice src 0 (m + 1) := by
  constructor
  · intro h
    have hex : ∃ m, m < n ∧ src m = 0 := by
      by_contra hno
      have hnone : strcpyFrom src 0 n = none := by
        apply strcpyFrom_none
        intro j hj hzero
        rw [Nat.zero_add] at hzero
        exact hno ⟨j, hj, hzero⟩
      rw [strcpy, hnone] at h
      cases h
    -- the least of them is where the loop stops
    classical
    obtain ⟨hm, hnul⟩ := Nat.find_spec hex
    have hfirst : ∀ j < Nat.find hex, src j ≠ 0 := by
      intro j hj hzero
      exact Nat.find_min hex hj ⟨by omega, hzero⟩
    refine ⟨Nat.find hex, hm, hfirst, hnul, ?_⟩
    rw [strcpy, strcpyFrom_eq hm (by simpa using hfirst) (by simpa using hnul)] at h
    exact (Option.some.inj h).symm
  · rintro ⟨m, hm, hne, hnul, rfl⟩
    exact strcpyFrom_eq hm (by simpa using hne) (by simpa using hnul)

theorem strcpy_isSome {src : Nat → UInt8} {m n : Nat} (hm : m < n) (hnul : src m = 0) :
    ∃ data, strcpy src n = some data := by
  by_contra hno
  have hex : ∃ j, src j = 0 := ⟨m, hnul⟩
  classical
  apply hno
  refine ⟨_, strcpy_eq_some_iff.mpr ⟨Nat.find hex, ?_, ?_, Nat.find_spec hex, rfl⟩⟩
  · exact Nat.lt_of_le_of_lt (Nat.find_le hnul) hm
  · intro j hj
    exact Nat.find_min hex hj

/-- The copy fits into `size` bytes when there is a NUL among the first `size`. -/
theorem strcpy_length_le {src : Nat → UInt8} {n size : Nat} {data : List UInt8}
    (h : strcpy src n = some data) : data.length ≤ size ↔ ∃ i < size, src i = 0 := by
  obtain ⟨m, -, hne, hnul, rfl⟩ := strcpy_eq_some_iff.mp h
  rw [slice_length]
  constructor
  · intro hle
    exact ⟨m, hle, hnul⟩
  · rintro ⟨i, hi, hzero⟩
    by_contra hgt
    exact hne i (by omega) hzero

/-- A copy starts with the characters before the first NUL. -/
theorem strcpy_take {src : Nat → UInt8} {n len : Nat} {data : List UInt8}
    (h : strcpy src n = some data) (hne : ∀ j < len, src j ≠ 0) :
    data.take len = slice src 0 len := by
  obtain ⟨m, -, -, hnul, rfl⟩ := strcpy_eq_some_iff.mp h
  have hlen : len ≤ m := by
    by_contra hgt
    exact hne m (by omega) hnul
  have := slice_drop_take src 0 len (m + 1)
  rw [List.drop_zero, Nat.sub_zero, Nat.min_eq_left (by omega)] at this
  exact this

end OreOS
