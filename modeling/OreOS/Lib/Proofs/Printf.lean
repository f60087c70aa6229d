import OreOS.Lib.Printf

/-!
# The format language of `printf`

A format is a sequence of pieces: characters other than `%`, and conversions, which are a `%`, any
number of `#` and one more character. `Reads` says of which pieces a format consists,
`Piece.documented` what the comment on `printf` documents for each. `printf` does as documented
unless the format ends inside a conversion; then it takes the terminating NUL for the conversion
character and reads on behind it.
-/

namespace OreOS
open Machine

/-- What a format consists of. -/
inductive Piece where
  | text (c : UInt8)
  /-- A conversion character, and whether a `#` stands before it. -/
  | conversion (alternate : Bool) (c : UInt8)
  deriving DecidableEq, Repr

/-- The format consists of the pieces. A conversion that the end of the format
cuts short is none. -/
inductive Reads : List UInt8 → List Piece → Prop where
  | nil : Reads [] []
  | text {c : UInt8} {s : List UInt8} {ps : List Piece} (hc : c ≠ 37) (h : Reads s ps) :
      Reads (c :: s) (.text c :: ps)
  | conversion {c : UInt8} {s : List UInt8} {ps : List Piece} (n : Nat) (hc : c ≠ 35)
      (h : Reads s ps) :
      Reads (37 :: (List.replicate n 35 ++ c :: s)) (.conversion (0 < n) c :: ps)
  | cut (n : Nat) : Reads (37 :: List.replicate n 35) []

namespace Piece

/-- The conversions `%x`, `%u`, `%d`, `%c` and `%s` take an argument. -/
def takes : Piece → Bool
  | .text _ => false
  | .conversion _ c => c = 120 ∨ c = 117 ∨ c = 100 ∨ c = 99 ∨ c = 115

/-- The documented text of a piece, with the argument that is next. -/
def documented (a : PrintfArgs) (arg : Word) : Piece → List UInt8
  | .text c => [c]
  | .conversion alternate c =>
      if c = 37 then [37]
      else if c = 120 then
        if alternate then (numeral 16 arg.toNat).leftpad 8 48 else numeral 16 arg.toNat
      else if c = 117 then numeral 10 arg.toNat
      else if c = 100 then
        if arg.toInt < 0 then 45 :: numeral 10 arg.toInt.natAbs else numeral 10 arg.toInt.natAbs
      else if c = 99 then [UInt8.ofNat arg.toNat]
      else if c = 115 then (a.string arg).chars
      else []

end Piece

/-- The documented text of a format, with the arguments from `esp` on: each piece that takes an
argument takes the next one. -/
def documentedText (a : PrintfArgs) : Nat → List Piece → List UInt8
  | _, [] => []
  | esp, p :: ps => p.documented a (a.stack esp) ++ documentedText a (esp + p.takes.toNat) ps

/-- Whether a scan of the format ends inside a conversion: a `%` opens one, and the first character
after it that is not a `#` closes it. -/
def endsInside : Bool → List UInt8 → Bool
  | inside, [] => inside
  | false, c :: s => endsInside (c = 37) s
  | true, c :: s => endsInside (c = 35) s

/-! ## One conversion -/

theorem puts_of_nul {s : List UInt8} (h : 0 ∉ s) (rest : List UInt8) :
    puts (s ++ 0 :: rest) = some s := by
  induction s with
  | nil => rfl
  | cons c s ih =>
    obtain ⟨hc, hs⟩ := not_or.mp (List.mem_cons.not.mp h)
    rw [List.cons_append, puts, if_neg (Ne.symm hc), ih hs]
    rfl

/-- A string that was stored in a buffer. -/
theorem puts_overwrite (m : Nat → UInt8) (s : Nat) {n : Nat} {cs : List UInt8} (h0 : 0 ∉ cs)
    (hn : cs.length < n) : puts (slice (overwrite m s (cs ++ [0])) s n) = some cs := by
  rw [slice_overwrite_append m s (by simpa using hn), List.append_assoc]
  exact puts_of_nul h0 _

theorem padLoop_eq (m : Nat → UInt8) (i n : Nat) :
    padLoop m i n = overwrite m i (List.replicate n 48) := by
  induction n generalizing m i with
  | zero => simp [padLoop]
  | succ n ih => rw [padLoop, ih, List.replicate_succ, overwrite_cons]

theorem numeral_hex_length_le (v : Word) : (numeral 16 v.toNat).length ≤ 8 :=
  numeral_length_le (by decide) (by decide) v.isLt

theorem numeral_dec_length_le (v : Word) : (numeral 10 v.toNat).length ≤ 10 :=
  numeral_length_le (by decide) (by decide) (v.isLt.trans (by decide))

/-- The zeros before a number of `k` digits end where the number begins. -/
theorem overwrite_pad (m : Nat → UInt8) {ds : List UInt8} (h : ds.length ≤ 8) :
    overwrite (overwrite m 8 (ds ++ [0])) ds.length (List.replicate (8 - ds.length) 48) =
      overwrite m ds.length (ds.leftpad 8 48 ++ [0]) := by
  rw [overwrite_before (by simp; omega), List.leftpad, List.append_assoc]

theorem leftpad_numeral (v : Word) :
    ((numeral 16 v.toNat).leftpad 8 48).length = 8 ∧ 0 ∉ (numeral 16 v.toNat).leftpad 8 48 := by
  have hlen := numeral_hex_length_le v
  refine ⟨by rw [List.length_leftpad]; omega, ?_⟩
  rw [List.leftpad, List.mem_append, not_or]
  exact ⟨by simp [List.mem_replicate], nul_not_mem_numeral (by decide) (by decide) _⟩

/-- `itoa` into the start of `conv_buf`, and `puts`. -/
theorem puts_itoa (v : Word) (m : Nat → UInt8) (radix n : Nat) (h2 : 2 ≤ radix) (h36 : radix ≤ 36)
    (hn : (numeral radix v.toNat).length < n) :
    (itoa v m 0 n radix).bind (fun m => puts (slice m 0 n)) = some (numeral radix v.toNat) := by
  rw [itoa_eq h2 h36 v m 0 hn, Option.bind_some,
    puts_overwrite m 0 (nul_not_mem_numeral h2 h36 _) hn]

/-- `%#x`: the zeros before the number. -/
theorem puts_padded (v : Word) (m : Nat → UInt8) :
    (itoa v m 8 56 16).bind (fun m => (strlen (slice m 8 56)).bind fun i =>
      puts (slice (padLoop m i (8 - i)) i (64 - i))) =
        some ((numeral 16 v.toNat).leftpad 8 48) := by
  have hlen := numeral_hex_length_le v
  have hnul : 0 ∉ numeral 16 v.toNat := nul_not_mem_numeral (by decide) (by decide) _
  obtain ⟨hpad, hpadnul⟩ := leftpad_numeral v
  rw [itoa_eq (by decide) (by decide) v m 8 (by omega), Option.bind_some,
    strlen_overwrite m 8 hnul (by omega), Option.bind_some, padLoop_eq, overwrite_pad m hlen,
    puts_overwrite m _ hpadnul (by omega)]

/-- `%d` of a negative value: the sign goes before the number. -/
theorem puts_signed (v : Word) (m : Nat → UInt8) :
    (itoa (-v) (Function.update m 0 45) 1 35 10).bind (fun m => puts (slice m 0 36)) =
      some (45 :: numeral 10 (-v).toNat) := by
  have hlen := numeral_dec_length_le (-v)
  have hnul : 0 ∉ numeral 10 (-v).toNat := nul_not_mem_numeral (by decide) (by decide) _
  rw [itoa_eq (by decide) (by decide) (-v) _ 1 (by omega), Option.bind_some, ← overwrite_cons,
    ← List.cons_append, puts_overwrite m 0 (List.not_mem_cons_of_ne_of_not_mem (by decide) hnul)
      (by rw [List.length_cons]; omega)]

theorem natAbs_of_neg {v : Word} (h : v.toInt < 0) : (-v).toNat = v.toInt.natAbs := by
  have hlt := v.isLt
  rw [BitVec.toInt_eq_toNat_cond] at h ⊢
  rw [BitVec.toNat_neg]
  split at h <;> omega

theorem natAbs_of_nonneg {v : Word} (h : ¬ v.toInt < 0) : v.toNat = v.toInt.natAbs := by
  have hlt := v.isLt
  rw [BitVec.toInt_eq_toNat_cond] at h ⊢
  split at h <;> omega

/-- A conversion does as documented. -/
theorem formatChar_eq (a : PrintfArgs) (alternate : Bool) (c : UInt8) (s : PrintfState) :
    formatChar a alternate c s = some
      ⟨s.out ++ (Piece.conversion alternate c).documented a (a.stack s.esp),
        s.esp + (Piece.conversion alternate c).takes.toNat, s.buf⟩ := by
  have hhex := numeral_hex_length_le (a.stack s.esp)
  have hdec := numeral_dec_length_le (a.stack s.esp)
  have hbind : ∀ (x : Option (Nat → UInt8)) (g : (Nat → UInt8) → Option (List UInt8))
      (cs : List UInt8), x.bind g = some cs →
        (do let m ← x; let cs ← g m; some (s.print cs).nextArg) = some (s.print cs).nextArg := by
    intro x g cs h
    simp only [Option.bind_eq_bind, ← Option.bind_assoc, h, Option.bind_some]
  unfold formatChar
  by_cases hpercent : c = 37
  · subst hpercent
    rfl
  by_cases hx : c = 120
  · subst hx
    cases alternate with
    | false => exact hbind _ _ _ (puts_itoa _ _ _ _ (by decide) (by decide) (by omega))
    | true =>
      have hpadded := hbind _ (fun m => (strlen (slice m 8 56)).bind fun i =>
        puts (slice (padLoop m i (8 - i)) i (64 - i))) _
          (puts_padded (a.stack s.esp) (a.convBuf s.esp))
      simp only [Option.bind_eq_bind, Option.bind_assoc] at hpadded
      exact hpadded
  by_cases hu : c = 117
  · subst hu
    exact hbind _ _ _ (puts_itoa _ _ _ _ (by decide) (by decide) (by omega))
  by_cases hd : c = 100
  · subst hd
    by_cases hneg : (a.stack s.esp).toInt < 0
    · have hsigned := hbind _ _ _ (puts_signed (a.stack s.esp) (a.convBuf s.esp))
      rw [natAbs_of_neg hneg] at hsigned
      simpa [Piece.documented, Piece.takes, PrintfState.print, PrintfState.nextArg, hneg]
        using hsigned
    · have hunsigned :=
        hbind _ _ _ (puts_itoa (a.stack s.esp) (a.convBuf s.esp) 10
          36 (by decide) (by decide) (by omega))
      rw [natAbs_of_nonneg hneg] at hunsigned
      simpa [Piece.documented, Piece.takes, PrintfState.print, PrintfState.nextArg, hneg]
        using hunsigned
  by_cases hc : c = 99
  · subst hc
    rfl
  by_cases hs : c = 115
  · subst hs
    rw [if_neg (by decide), if_neg (by decide), if_neg (by decide), if_neg (by decide),
      if_neg (by decide), if_pos rfl, CString.bytes, puts_of_nul (a.string _).nulFree]
    rfl
  simp [hpercent, hx, hu, hd, hc, hs, Piece.documented, Piece.takes]

/-! ## The whole format -/

/-- Any number of `#` before the conversion character. -/
theorem formatCharSwitch_replicate (a : PrintfArgs) (alternate : Bool) (n : Nat) {c : UInt8}
    (hc : c ≠ 35) (buf : List UInt8) (s : PrintfState) :
    formatCharSwitch a alternate (List.replicate n 35 ++ c :: buf) s =
      (formatChar a (alternate || decide (0 < n)) c { s with buf := s.buf + n }).bind fun s =>
        printfLoop a buf s.nextChar := by
  induction n generalizing alternate s with
  | zero => simp [formatCharSwitch, hc]
  | succ n ih =>
    rw [List.replicate_succ, List.cons_append, formatCharSwitch, if_pos rfl, ih]
    simp [PrintfState.nextChar, Nat.add_assoc, Nat.add_comm 1]

theorem endsInside_replicate (n : Nat) (s : List UInt8) :
    endsInside true (List.replicate n 35 ++ s) = endsInside true s := by
  induction n with
  | zero => rfl
  | succ n ih =>
    rw [List.replicate_succ, List.cons_append, endsInside, decide_eq_true rfl]
    exact ih

theorem printfLoop_of_reads (a : PrintfArgs) {fmt : List UInt8} {ps : List Piece} (h : Reads fmt ps)
    (h0 : 0 ∉ fmt) (hend : endsInside false fmt = false) (s : PrintfState) :
    printfLoop a (fmt ++ [0]) s = some
      ⟨s.out ++ documentedText a s.esp ps, s.esp + ps.countP Piece.takes, s.buf + fmt.length⟩ := by
  induction h generalizing s with
  | nil => simp [printfLoop, documentedText]
  | @text c fmt ps hc h ih =>
    obtain ⟨hc0, hs0⟩ := not_or.mp (List.mem_cons.not.mp h0)
    rw [endsInside, decide_eq_false hc] at hend
    rw [List.cons_append, printfLoop, if_neg (Ne.symm hc0), if_neg hc, ih hs0 hend]
    simp [PrintfState.print, PrintfState.nextChar, documentedText, Piece.documented, Piece.takes,
      Nat.add_assoc, Nat.add_comm 1]
  | @conversion c fmt ps n hc h ih =>
    have hs0 : 0 ∉ fmt := fun hmem => h0 (by simp [hmem])
    rw [endsInside, decide_eq_true rfl, endsInside_replicate, endsInside, decide_eq_false hc]
      at hend
    rw [List.cons_append, printfLoop, if_neg (by decide), if_pos rfl, List.append_assoc,
      List.cons_append, formatCharSwitch_replicate a false n hc, formatChar_eq, Option.bind_some,
      ih hs0 hend]
    have hcount : (Piece.conversion (decide (0 < n)) c).takes.toNat =
        if (Piece.conversion (decide (0 < n)) c).takes then 1 else 0 := by
      cases (Piece.conversion (decide (0 < n)) c).takes <;> rfl
    simp only [PrintfState.nextChar, documentedText, List.countP_cons, Bool.false_or,
      List.append_assoc, List.length_cons, List.length_append, List.length_replicate, hcount,
      Option.some.injEq, PrintfState.mk.injEq, true_and]
    omega
  | cut n =>
    have hcut := endsInside_replicate n []
    rw [List.append_nil] at hcut
    rw [endsInside, decide_eq_true rfl, hcut] at hend
    exact absurd hend (by decide)

/-- Every format can be read, and so can the rest of one from inside a conversion on. -/
theorem exists_reads (fmt : List UInt8) :
    (∃ ps, Reads fmt ps) ∧
      ((∃ n, fmt = List.replicate n 35) ∨
        ∃ n c rest ps, fmt = List.replicate n 35 ++ c :: rest ∧ c ≠ 35 ∧ Reads rest ps) := by
  induction fmt with
  | nil => exact ⟨⟨[], .nil⟩, .inl ⟨0, rfl⟩⟩
  | cons c fmt ih =>
    obtain ⟨⟨ps, hps⟩, hinside⟩ := ih
    constructor
    · by_cases hc : c = 37
      · subst hc
        rcases hinside with ⟨n, rfl⟩ | ⟨n, c, rest, ps, rfl, hc, hps⟩
        · exact ⟨[], .cut n⟩
        · exact ⟨_, .conversion n hc hps⟩
      · exact ⟨_, .text hc hps⟩
    · by_cases hc : c = 35
      · subst hc
        rcases hinside with ⟨n, rfl⟩ | ⟨n, c, rest, ps, rfl, hc, hps⟩
        · exact .inl ⟨n + 1, rfl⟩
        · exact .inr ⟨n + 1, c, rest, ps, rfl, hc, hps⟩
      · exact .inr ⟨0, c, fmt, ps, rfl, hc, hps⟩

/-- A format that ends inside a conversion is read beyond its NUL. -/
theorem printfLoop_of_endsInside (a : PrintfArgs) {fmt : List UInt8} (h0 : 0 ∉ fmt) :
    (endsInside false fmt = true → ∀ s, printfLoop a (fmt ++ [0]) s = none) ∧
      (endsInside true fmt = true → ∀ alternate s, formatCharSwitch a alternate (fmt ++ [0]) s =
        none) := by
  induction fmt with
  | nil =>
    refine ⟨fun h => absurd h (by simp [endsInside]), fun _ alternate s => ?_⟩
    rw [List.nil_append, formatCharSwitch, if_neg (by decide), formatChar_eq, Option.bind_some]
    rfl
  | cons c fmt ih =>
    obtain ⟨hc0, hs0⟩ := not_or.mp (List.mem_cons.not.mp h0)
    constructor
    · intro h s
      rw [List.cons_append, printfLoop, if_neg (Ne.symm hc0)]
      by_cases hc : c = 37
      · rw [if_pos hc]
        exact (ih hs0).2 (by simpa [endsInside, hc] using h) false _
      · rw [if_neg hc]
        exact (ih hs0).1 (by simpa [endsInside, hc] using h) _
    · intro h alternate s
      rw [List.cons_append, formatCharSwitch]
      by_cases hc : c = 35
      · rw [if_pos hc]
        exact (ih hs0).2 (by simpa [endsInside, hc] using h) true _
      · rw [if_neg hc, formatChar_eq, Option.bind_some]
        exact (ih hs0).1 (by simpa [endsInside, hc] using h) _

/-- `printf` gives `putc` the documented text, takes an argument for each conversion that
has one, stays inside the format and returns its length, exactly if the format does not end
inside a conversion. -/
theorem printf_documented_iff (format : CString) (a : PrintfArgs) :
    (∃ ps, Reads format.chars ps ∧ printf format a =
      some ⟨documentedText a 0 ps, ps.countP Piece.takes, format.chars.length⟩) ↔
    endsInside false format.chars = false := by
  constructor
  · rintro ⟨ps, -, hsome⟩
    by_contra h
    rw [Bool.not_eq_false] at h
    rw [printf, CString.bytes, (printfLoop_of_endsInside a format.nulFree).1 h] at hsome
    exact absurd hsome (by simp)
  · intro h
    obtain ⟨ps, hps⟩ := (exists_reads format.chars).1
    refine ⟨ps, hps, ?_⟩
    rw [printf, CString.bytes, printfLoop_of_reads a hps format.nulFree h]
    simp

/-- The format `%`. -/
theorem printf_not_documented : ¬ ∀ (format : CString) (a : PrintfArgs),
    ∃ ps, Reads format.chars ps ∧ printf format a =
      some ⟨documentedText a 0 ps, ps.countP Piece.takes, format.chars.length⟩ := by
  intro h
  obtain ⟨ps, -, hsome⟩ := h ⟨[37], by decide⟩ ⟨fun _ => 0, fun _ => ⟨[], by decide⟩, fun _ _ => 0⟩
  exact absurd hsome (by simp [printf, CString.bytes, printfLoop, formatCharSwitch, formatChar])

end OreOS
