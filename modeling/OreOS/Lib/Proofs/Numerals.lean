import OreOS.Lib.Proofs.Printf

/-!
# Numbers can be read back

A numeral is a digit string whose value is the number, and the shortest one of this value. `itoa`
and `ece391_itoa` store the numeral of a value in every radix from 2 to 36, and with it `printf`
prints decimal and hexadecimal numbers.
-/

namespace OreOS
open Machine

/-- The value of one of the digits `0-9A-Z`. -/
def digitValue (c : UInt8) : Option Nat :=
  if 48 ≤ c ∧ c ≤ 57 then some (c.toNat - 48)
  else if 65 ≤ c ∧ c ≤ 90 then some (c.toNat - 55)
  else none

/-- One more digit. -/
def readDigit (radix : Nat) (value : Option Nat) (c : UInt8) : Option Nat := do
  let v ← value
  let d ← digitValue c
  if d < radix then some (v * radix + d) else none

/-- The value of a digit string, the most significant digit first. -/
def readDigits (radix : Nat) (cs : List UInt8) : Option Nat := cs.foldl (readDigit radix) (some 0)

/-- `cs` is the shortest numeral of `n`. -/
structure IsNumeral (radix n : Nat) (cs : List UInt8) : Prop where
  nonempty : cs ≠ []
  reads : readDigits radix cs = some n
  shortest : ∀ ds, ds ≠ [] → readDigits radix ds = some n → cs.length ≤ ds.length

section
variable {radix n : Nat} {cs : List UInt8} {c : UInt8}

theorem readDigits_concat : readDigits radix (cs ++ [c]) = readDigit radix
    (readDigits radix cs) c := by
  rw [readDigits, List.foldl_append]
  rfl

theorem readDigit_eq_some {value : Option Nat} (h : readDigit radix value c = some n) :
    ∃ v d, value = some v ∧ d < radix ∧ n = v * radix + d := by
  simp only [readDigit, Option.bind_eq_bind, Option.bind_eq_some_iff] at h
  obtain ⟨v, hv, d, -, hd⟩ := h
  split at hd
  next hlt => exact ⟨v, d, hv, hlt, (Option.some.inj hd).symm⟩
  next => cases hd

/-- A string of `k` digits has a value below `radix ^ k`. -/
theorem lt_of_readDigits (h : readDigits radix cs = some n) : n < radix ^ cs.length := by
  induction cs using List.reverseRecOn generalizing n with
  | nil =>
    cases h
    exact Nat.one_pos
  | append_singleton cs c ih =>
    rw [readDigits_concat] at h
    obtain ⟨v, d, hv, hd, rfl⟩ := readDigit_eq_some h
    have hlt := ih hv
    rw [List.length_append, List.length_singleton, Nat.pow_succ]
    calc v * radix + d < v * radix + radix := Nat.add_lt_add_left hd _
      _ = (v + 1) * radix := (Nat.succ_mul v radix).symm
      _ ≤ radix ^ cs.length * radix := Nat.mul_le_mul_right radix hlt

theorem digitValue_lookup : ∀ d < 36, digitValue (lookup.getD d 0) = some d := by decide

theorem readDigits_lookup (h36 : radix ≤ 36) {ds : List Nat} (hds : ∀ d ∈ ds, d < radix) :
    readDigits radix (ds.map fun d => lookup.getD d 0).reverse = some (Nat.ofDigits radix ds) := by
  induction ds with
  | nil => rfl
  | cons d ds ih =>
    obtain ⟨hd, hrest⟩ := List.forall_mem_cons.mp hds
    rw [List.map_cons, List.reverse_cons, readDigits_concat, ih hrest, readDigit,
      Option.bind_eq_bind, Option.bind_some, digitValue_lookup d (hd.trans_le h36),
      Option.bind_some, if_pos hd, Nat.ofDigits_cons, Nat.mul_comm radix, Nat.add_comm d]

theorem numeral_reads (h2 : 2 ≤ radix) (h36 : radix ≤ 36) (n : Nat) :
    readDigits radix (numeral radix n) = some n := by
  unfold numeral
  split
  next hn =>
    have hpos : 0 < radix := by omega
    subst hn
    simp [readDigits, readDigit, digitValue, hpos]
  next =>
    rw [readDigits_lookup h36 fun d hd => Nat.digits_lt_base h2 hd, Nat.ofDigits_digits]

theorem isNumeral_numeral (h2 : 2 ≤ radix) (h36 : radix ≤ 36) (n : Nat) :
    IsNumeral radix n (numeral radix n) where
  nonempty := List.length_pos_iff.mp (numeral_length_pos radix n)
  reads := numeral_reads h2 h36 n
  shortest := fun _ hds hvalue => numeral_length_le h2 (List.length_pos_iff.mpr hds)
    (lt_of_readDigits hvalue)

/-- Zeros in front do not change the value. -/
theorem readDigits_leftpad (hpos : 0 < radix) (k : Nat) (cs : List UInt8) :
    readDigits radix (cs.leftpad k 48) = readDigits radix cs := by
  have hzero : readDigit radix (some 0) 48 = some 0 := by simp [readDigit, digitValue, hpos]
  have hzeros : ∀ j, (List.replicate j (48 : UInt8)).foldl (readDigit radix) (some 0) = some 0 := by
    intro j
    induction j with
    | zero => rfl
    | succ j ih => rw [List.replicate_succ, List.foldl_cons, hzero, ih]
  rw [readDigits, List.leftpad, List.foldl_append, hzeros]
  rfl

/-- A 32-bit value has at most 32 digits. -/
theorem numeral_word_length (h2 : 2 ≤ radix) (value : Word) :
    (numeral radix value.toNat).length ≤ 32 :=
  numeral_length_le h2 (by decide) (value.isLt.trans_le (Nat.pow_le_pow_left h2 32))

end

/-! ## `printf` -/

/-- The decimal text of an `int32_t`. -/
def decimalText (v : Int) (cs : List UInt8) : List UInt8 := if v < 0 then 45 :: cs else cs

theorem printfLoop_d (a : PrintfArgs) (rest : List UInt8) (s : PrintfState) :
    printfLoop a (37 :: 100 :: rest) s = printfLoop a rest
      ⟨s.out ++ decimalText (a.stack s.esp).toInt (numeral 10 (a.stack s.esp).toInt.natAbs),
        s.esp + 1, s.buf + 2⟩ := by
  rw [printfLoop, if_neg (by decide), if_pos rfl, formatCharSwitch, if_neg (by decide),
    formatChar_eq, Option.bind_some]
  rfl

theorem printfLoop_alternate_x (a : PrintfArgs) (rest : List UInt8) (s : PrintfState) :
    printfLoop a (37 :: 35 :: 120 :: rest) s = printfLoop a rest
      ⟨s.out ++ (numeral 16 (a.stack s.esp).toNat).leftpad 8 48, s.esp + 1, s.buf + 3⟩ := by
  rw [printfLoop, if_neg (by decide), if_pos rfl, formatCharSwitch, if_pos rfl, formatCharSwitch,
    if_neg (by decide), formatChar_eq, Option.bind_some]
  rfl

/-- Each routine stores the numeral and its NUL and nothing else, and `%d` and `%#x` print what the
argument that is next says, wherever in a format they stand. -/
theorem conversions_exact :
    (∀ (radix : Nat) (value : Word) (m : Nat → UInt8) (buf n : Nat), 2 ≤ radix →
      radix ≤ 36 → 33 ≤ n → ∃ cs, IsNumeral radix value.toNat cs ∧ (cs ++ [0]).length ≤ 33 ∧
        itoa value m buf n radix = some (overwrite m buf (cs ++ [0])) ∧
        ece391Itoa value m buf n radix = some (overwrite m buf (cs ++ [0]))) ∧
    (∀ (a : PrintfArgs) (rest : List UInt8) (s : PrintfState),
      ∃ cs, IsNumeral 10 (a.stack s.esp).toInt.natAbs cs ∧ printfLoop a (37 :: 100 :: rest) s =
        printfLoop a rest ⟨s.out ++ decimalText (a.stack s.esp).toInt cs, s.esp + 1, s.buf + 2⟩) ∧
    (∀ (a : PrintfArgs) (rest : List UInt8) (s : PrintfState),
      ∃ cs, cs.length = 8 ∧ readDigits 16 cs = some (a.stack s.esp).toNat ∧
        printfLoop a (37 :: 35 :: 120 :: rest) s = printfLoop a rest
        ⟨s.out ++ cs, s.esp + 1, s.buf + 3⟩) := by
  refine ⟨?_, ?_, ?_⟩
  · intro radix value m buf n h2 h36 hn
    have hlen := numeral_word_length h2 value
    refine ⟨_, isNumeral_numeral h2 h36
      _, by rw [List.length_append, List.length_singleton]; omega, ?_⟩
    rw [ece391Itoa_eq_itoa, itoa_eq h2 h36 value m buf (by omega)]
    exact ⟨rfl, rfl⟩
  · intro a rest s
    exact ⟨_, isNumeral_numeral (by decide) (by decide) _, printfLoop_d a rest s⟩
  · intro a rest s
    refine ⟨_, (leftpad_numeral (a.stack s.esp)).1, ?_, printfLoop_alternate_x a rest s⟩
    rw [readDigits_leftpad (by decide), numeral_reads (by decide) (by decide)]

/-- The value 35 in radix 36, into a buffer of 33 bytes behind two others. -/
theorem conversions_at_36 : ∃ cs, IsNumeral 36 (35 : Word).toNat cs ∧ (cs ++ [0]).length ≤ 33 ∧
    itoa 35 (fun _ => 1) 2 33 36 = some (overwrite (fun _ => 1) 2 (cs ++ [0])) ∧
    ece391Itoa 35 (fun _ => 1) 2 33 36 = some (overwrite (fun _ => 1) 2 (cs ++ [0])) :=
  conversions_exact.1 36 35 (fun _ => 1) 2 33 (by decide) (by decide) (by decide)

end OreOS
