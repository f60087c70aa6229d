import OreOS.SysCall.Proofs.CommandLine

/-!
# The caller's buffer in `getargs`

The loop of `getargs` copies the first word and gives up on a word of more than 30 characters. It
also ends at `nbytes`, without a check of why it ended, and the `strcpy` behind it copies all the
arguments. So a word that does not fit is taken for one that does, and the words after the first one
are copied past the end of the buffer.
-/

namespace OreOS

/-- The first word of the arguments. -/
def firstWord (args : List UInt8) : List UInt8 := args.takeWhile fun c => !endsName c

/-- The first word is there, is not too long and fits with its NUL. -/
def WordFits (args : List UInt8) (nbytes : Int) : Prop :=
  firstWord args ≠ [] ∧ (firstWord args).length ≤ 30 ∧ (firstWord args).length < nbytes

/-- `getargs` hands out a word that fits, refuses everything else and stays in the buffer. -/
structure HonoursBuffer (args : List UInt8) (nbytes : Int) : Prop where
  taken : (getargs args nbytes).1 = 0 ↔ WordFits args nbytes
  word : WordFits args nbytes → firstWord args ++ [0] <+: (getargs args nbytes).2
  refused : ¬ WordFits args nbytes → (getargs args nbytes).1 = -1
  kept : (getargs args nbytes).2.length ≤ nbytes

/-- When it does: there is no word, or it is too long for the loop and the buffer has room for the
    loop, or it is not and the buffer has room for all the arguments. -/
def ArgumentsFit (args : List UInt8) (nbytes : Int) : Prop :=
  firstWord args = [] ∨ (30 < (firstWord args).length ∧ 30 < nbytes) ∨
    (firstWord args ≠ [] ∧ (firstWord args).length ≤ 30 ∧ args.length < nbytes)

/-! ## The first word -/

theorem firstWord_cons (c : UInt8) (args : List UInt8) :
    firstWord (c :: args) = if endsName c then [] else c :: firstWord args := by
  rw [firstWord, List.takeWhile_cons]
  cases endsName c <;> rfl

theorem endsName_iff {c : UInt8} : endsName c = true ↔ c = 32 ∨ c = 0 ∨ c = 10 := by
  simp [endsName, or_assoc]

theorem firstWord_length_le (args : List UInt8) : (firstWord args).length ≤ args.length :=
  (List.takeWhile_prefix _).length_le

/-- A character of the first word does not end it, the one behind it does. -/
theorem endsName_firstWord (args : List UInt8) {i : Nat} (hi : i ≤ (firstWord args).length) :
    endsName (cstr args i) = true ↔ i = (firstWord args).length := by
  induction args generalizing i with
  | nil =>
    have hzero : i = 0 := by simpa [firstWord] using hi
    subst hzero
    exact iff_of_true rfl rfl
  | cons c args ih =>
    rw [firstWord_cons] at hi ⊢
    by_cases hc : endsName c = true
    · have hzero : i = 0 := by simpa [hc] using hi
      subst hzero
      have hhead : cstr (c :: args) 0 = c := rfl
      simp [hc, hhead]
    · cases i with
      | zero =>
        have hhead : cstr (c :: args) 0 = c := rfl
        simp [hc, hhead]
      | succ i =>
        have hi' : i ≤ (firstWord args).length := by simpa [hc] using hi
        have htail : cstr (c :: args) (i + 1) = cstr args i := rfl
        rw [htail, ih hi']
        simp [hc]

/-- There is no word exactly if the arguments end at once, unless they start with a space. -/
theorem firstWord_eq_nil {args : List UInt8} (h : args.head? ≠ some 32) :
    firstWord args = [] ↔ cstr args 0 = 10 ∨ cstr args 0 = 0 := by
  have hend := endsName_firstWord args (i := 0) (Nat.zero_le _)
  have hspace : cstr args 0 ≠ 32 := by
    cases args with
    | nil => decide
    | cons c args => simpa [cstr] using h
  rw [endsName_iff] at hend
  constructor
  · intro hnil
    rcases hend.mpr (by simp [hnil]) with h32 | h0 | h10
    · exact absurd h32 hspace
    · exact Or.inr h0
    · exact Or.inl h10
  · intro hstop
    have hlen := hend.mp (Or.inr hstop.symm)
    exact List.eq_nil_of_length_eq_zero hlen.symm

/-! ## The loop -/

/-- The loop ends behind the word or at the end of the buffer, and gives up at index 30. -/
theorem getargsLoop_eq {args : List UInt8} {nbytes : Int} {m : Nat}
    (hm : (m : Int) = min ((firstWord args).length : Int) nbytes) (fuel i : Nat)
    (hfuel : i + fuel = 31) (hi : i ≤ m) :
    getargsLoop (cstr args) nbytes fuel i = if m ≤ 30 then some m else none := by
  induction fuel generalizing i with
  | zero =>
    rw [if_neg (by omega)]
    rfl
  | succ fuel ih =>
    have hstop := endsName_firstWord args (i := i) (by omega)
    rw [endsName_iff] at hstop
    rw [getargsLoop]
    by_cases heq : i = m
    · subst heq
      have hend : cstr args i = 32 ∨ cstr args i = 0 ∨ cstr args i = 10 ∨ nbytes ≤ i := by
        by_cases hlen : i = (firstWord args).length
        · rcases hstop.mpr hlen with h | h | h <;> simp [h]
        · omega
      rw [if_pos hend, if_pos (by omega)]
    · have hgo : ¬ (cstr args i = 32 ∨ cstr args i = 0 ∨ cstr args i = 10 ∨ nbytes ≤ i) := by
        intro h
        have hin : ¬ (cstr args i = 32 ∨ cstr args i = 0 ∨ cstr args i = 10) :=
          fun hend => absurd (hstop.mp hend) (by omega)
        have hroom : ¬ nbytes ≤ i := by omega
        rcases h with h | h | h | h
        · exact hin (Or.inl h)
        · exact hin (Or.inr (Or.inl h))
        · exact hin (Or.inr (Or.inr h))
        · exact hroom h
      rw [if_neg hgo]
      by_cases h30 : 30 ≤ i
      · rw [if_pos h30, if_neg (by omega)]
      · rw [if_neg h30]
        exact ih (i + 1) (by omega) (by omega)

/-- No arguments. -/
theorem getargs_empty {args : List UInt8} (nbytes : Int) (h : args.head? ≠ some 32)
    (hw : firstWord args = []) : getargs args nbytes = (-1, []) := by
  rw [getargs, if_pos ((firstWord_eq_nil h).mp hw)]

section
variable {args : List UInt8} {nbytes : Int} {m : Nat} (hhead : args.head? ≠ some 32)
  (hm : (m : Int) = min ((firstWord args).length : Int) nbytes) (hw : firstWord args ≠ [])
include hhead hm hw

/-- More than 30 characters, with room for them. -/
theorem getargs_gives_up (h : 30 < m) : getargs args nbytes = (-1, args.take 31) := by
  rw [getargs, if_neg (mt (firstWord_eq_nil hhead).mpr hw), getargsLoop_eq hm 31 0 rfl
    (Nat.zero_le m), if_neg (by omega)]

/-- Everything else is taken for a word. -/
theorem getargs_takes (h : m ≤ 30) : getargs args nbytes = (0, (args ++ [0]).set m 0) := by
  rw [getargs, if_neg (mt (firstWord_eq_nil hhead).mpr hw), getargsLoop_eq hm 31 0 rfl
    (Nat.zero_le m), if_pos h]

end

/-- The NUL behind the word replaces whatever the copy of the arguments has there. -/
theorem word_stored (args : List UInt8) :
    firstWord args ++ [0] <+: (args ++ [0]).set (firstWord args).length 0 := by
  obtain ⟨rest, hrest⟩ := List.takeWhile_prefix (fun c => !endsName c) (l := args)
  have hsplit : args ++ [0] = firstWord args ++ (rest ++ [0]) := by
    rw [← List.append_assoc, firstWord, hrest]
  obtain ⟨c, tail, htail⟩ : ∃ c tail, rest ++ [0] = c :: tail :=
    List.exists_cons_of_ne_nil (by simp)
  refine ⟨tail, ?_⟩
  rw [hsplit, htail, List.set_append_right _ _ (Nat.le_refl _), Nat.sub_self, List.set_cons_zero]
  simp

/-! ## What `execute` leaves in `args` -/

/-- A scan ends on a character that satisfies `stop`. -/
theorem scan_stops {t : Nat → Option UInt8} {stop : UInt8 → Bool} {fuel i j : Nat}
    (h : scan t stop fuel i = some j) : ∃ c, t j = some c ∧ stop c = true := by
  induction fuel generalizing i with
  | zero => cases h
  | succ fuel ih =>
    rw [scan] at h
    obtain ⟨c, hc, h⟩ := Option.bind_eq_some_iff.mp h
    split at h
    next hstop =>
      cases h
      exact ⟨c, hc, hstop⟩
    next => exact ih h

/-- The arguments are copied from the first character that is not a space. -/
theorem parseArgs_head {t : Nat → Option UInt8} {args : List UInt8} (h : parseArgs t = some args) :
    args.head? ≠ some 32 := by
  rw [parseArgs] at h
  obtain ⟨i, -, h⟩ := Option.bind_eq_some_iff.mp h
  split at h
  · cases h
  obtain ⟨j, hj, h⟩ := Option.bind_eq_some_iff.mp h
  obtain ⟨c, hc, hne⟩ := scan_stops hj
  rw [copyArgs] at h
  obtain ⟨c', hc', h⟩ := Option.bind_eq_some_iff.mp h
  obtain rfl : c = c' := Option.some.inj (hc.symm.trans hc')
  split at h
  · cases h
    simp
  · obtain ⟨rest, -, h⟩ := Option.bind_eq_some_iff.mp h
    cases h
    simpa using hne

/-! ## Where the buffer is honoured -/

theorem honoursBuffer_iff {args : List UInt8} {nbytes : Int} (hhead : args.head? ≠ some 32)
    (hpos : 0 < nbytes) : HonoursBuffer args nbytes ↔ ArgumentsFit args nbytes := by
  have hle := firstWord_length_le args
  by_cases hw : firstWord args = []
  · -- nothing is stored and -1 is right
    have hret := getargs_empty nbytes hhead hw
    have hno : ¬ WordFits args nbytes := fun h => h.1 hw
    refine iff_of_true ⟨?_, fun h => absurd h hno, ?_, ?_⟩ (Or.inl hw)
    · rw [hret]
      exact iff_of_false (by decide) hno
    · rw [hret]
      exact fun _ => rfl
    · rw [hret]
      exact Int.le_of_lt hpos
  obtain ⟨m, hm⟩ : ∃ m : Nat, (m : Int) = min ((firstWord args).length : Int) nbytes :=
    ⟨min (firstWord args).length nbytes.toNat, by omega⟩
  by_cases h30 : 30 < m
  · -- the loop gives up after 31 bytes
    have hret := getargs_gives_up hhead hm hw h30
    have hno : ¬ WordFits args nbytes := fun h => absurd h.2.1 (by omega)
    refine iff_of_true ⟨?_, fun h => absurd h hno, ?_, ?_⟩ (Or.inr (Or.inl ⟨by omega, by omega⟩))
    · rw [hret]
      exact iff_of_false (show (-1 : Int) ≠ 0 by decide) hno
    · rw [hret]
      exact fun _ => rfl
    · rw [hret, List.length_take]
      omega
  -- the word is taken, and all the arguments are copied
  have hret := getargs_takes hhead hm hw (by omega)
  have hlen : (getargs args nbytes).2.length = args.length + 1 := by
    rw [hret, List.length_set, List.length_append, List.length_singleton]
  constructor
  · intro h
    have hfits : WordFits args nbytes := h.taken.mp (by rw [hret])
    have hkept := h.kept
    rw [hlen] at hkept
    exact Or.inr (Or.inr ⟨hw, hfits.2.1, by omega⟩)
  · rintro (h | h | ⟨-, hshort, hroom⟩)
    · exact absurd h hw
    · omega
    have hfits : WordFits args nbytes := ⟨hw, hshort, by omega⟩
    have hend : m = (firstWord args).length := by omega
    refine ⟨?_, ?_, fun h => absurd hfits h, ?_⟩
    · rw [hret]
      exact iff_of_true rfl hfits
    · intro _
      rw [hret, hend]
      exact word_stored args
    · rw [hlen]
      omega

/-- A program that has room for one byte asks for the two characters of "ab". -/
theorem getargs_takes_a_word_that_does_not_fit :
    parseArgs (temp2 [99, 97, 116, 32, 97, 98] (fun _ => 0) fun _ => 0) = some [97, 98] ∧
      getargs [97, 98] 1 = (0, [97, 0, 0]) ∧ ¬ WordFits [97, 98] 1 ∧
      ¬ HonoursBuffer [97, 98] 1 := by
  have hno : ¬ ArgumentsFit [97, 98] 1 := by
    have hword : firstWord [97, 98] = [97, 98] := by decide
    simp [ArgumentsFit, hword]
  refine ⟨by decide, by decide, ?_, mt (honoursBuffer_iff (by decide) (by decide)).mp hno⟩
  rintro ⟨-, -, h⟩
  exact absurd h (by decide)

/-- What `execute` leaves in `args` never starts with a space (`parseArgs_head`). -/
theorem getargs_honours_its_buffer_iff (args : List UInt8) (nbytes : Int)
    (hhead : args.head? ≠ some 32) (hpos : 0 < nbytes) :
    HonoursBuffer args nbytes ↔ ArgumentsFit args nbytes := honoursBuffer_iff hhead hpos

theorem getargs_honours_its_buffer_iff_of_two_words :
    HonoursBuffer [97, 32, 98] 3 ↔ ArgumentsFit [97, 32, 98] 3 :=
  getargs_honours_its_buffer_iff [97, 32, 98] 3 (by decide) (by decide)

end OreOS
