import OreOS.Emulate.Proofs.Parse
import OreOS.Lib.Itoa

/-!
# Arguments in the emulation layer

`ece391_getargs` puts the words of the command line together again. It compares the length of each
word with the room that is left, but not the NUL that `strcpy` stores behind the word: where the
words so far, with spaces between them, fill the buffer exactly, the NUL goes to the byte behind it.
-/

namespace OreOS
open Machine

/-- The words with single spaces between them. -/
def joined (ws : List (List UInt8)) : List UInt8 := [32].intercalate ws

/-- Some of the first words fill a buffer of `nbytes` bytes exactly. -/
def FillsExactly (ws : List (List UInt8)) (nbytes : Int) : Prop :=
  ∃ ps, ps ≠ [] ∧ ps <+: ws ∧ ((joined ps).length : Int) = nbytes

/-- The arguments `ws` in a buffer of `nbytes` bytes at `i`, as the call leaves it. -/
structure PutsArgs (ws : List (List UInt8)) (b : ArgsBuffer) (i : Nat) (nbytes : Int)
    (r : Int × ArgsBuffer) : Prop where
  taken : r.1 = 0 ↔ (joined ws).length + 1 ≤ nbytes
  refused : ¬((joined ws).length + 1 ≤ nbytes) → r.1 = -1
  text : r.1 = 0 → r.2.mem = overwrite b.mem i (joined ws ++ [0])
  inside : ∀ j ∈ r.2.written, (j : Int) < i + nbytes

section
variable {b : ArgsBuffer} {i j : Nat} {nbytes : Int} {w : List UInt8} {ws : List (List UInt8)}

theorem joined_cons (h : ws ≠ []) : joined (w :: ws) = w ++ 32 :: joined ws := by
  rw [joined, List.intercalate_cons_of_ne_nil h, List.append_assoc]
  rfl

theorem joined_singleton (w : List UInt8) : joined [w] = w := List.intercalate_singleton

@[simp] theorem put_mem (b : ArgsBuffer) (i : Nat) (x : UInt8) :
    (b.put i x).mem = Function.update b.mem i x := rfl

@[simp] theorem put_written (b : ArgsBuffer) (i : Nat) (x : UInt8) :
    (b.put i x).written = i :: b.written := rfl

theorem strcpy_mem (b : ArgsBuffer) (i : Nat) (s : List UInt8) :
    (b.strcpy i s).mem = overwrite b.mem i s := by
  induction s generalizing b i with
  | nil => rw [overwrite_nil]; rfl
  | cons x s ih => rw [ArgsBuffer.strcpy, ih, put_mem, overwrite_cons]

theorem mem_strcpy_written {s : List UInt8} :
    j ∈ (b.strcpy i s).written ↔ (i ≤ j ∧ j < i + s.length) ∨ j ∈ b.written := by
  induction s generalizing b i with
  | nil => simp [ArgsBuffer.strcpy]
  | cons x s ih =>
    rw [ArgsBuffer.strcpy, ih, put_written, List.mem_cons, List.length_cons, ← or_assoc]
    apply or_congr_left
    omega

/-- `strcpy` stores the word and one byte more. -/
theorem strcpy_inside_iff (hb : ∀ j ∈ b.written, (j : Int) < i + nbytes) :
    (∀ j ∈ (b.strcpy i (w ++ [0])).written, (j : Int) < i + nbytes) ↔ w.length < nbytes := by
  constructor
  · intro h
    have hlast := h (i + w.length) (mem_strcpy_written.mpr (.inl (by simp)))
    omega
  · intro h j hj
    rcases mem_strcpy_written.mp hj with ⟨-, hlt⟩ | hold
    · rw [List.length_append, List.length_singleton] at hlt
      omega
    · exact hb j hold

/-! ## Which words fill the buffer -/

theorem not_fillsExactly_nil : ¬FillsExactly [] nbytes := by
  rintro ⟨ps, hne, hprefix, -⟩
  exact hne (List.prefix_nil.mp hprefix)

/-- A word and the words behind it. -/
theorem fillsExactly_cons :
    FillsExactly (w :: ws) nbytes ↔ w.length = nbytes ∨
    FillsExactly ws (nbytes - w.length - 1) := by
  constructor
  · rintro ⟨ps, hne, hprefix, hlen⟩
    obtain ⟨p, ps, rfl⟩ := List.exists_cons_of_ne_nil hne
    obtain ⟨rfl, hps⟩ := List.cons_prefix_cons.mp hprefix
    rcases eq_or_ne ps [] with rfl | hmore
    · rw [joined_singleton] at hlen
      exact .inl hlen
    · rw [joined_cons hmore, List.length_append, List.length_cons] at hlen
      exact .inr ⟨ps, hmore, hps, by omega⟩
  · rintro (hlen | ⟨ps, hne, hprefix, hlen⟩)
    · refine ⟨[w], List.cons_ne_nil _ _, List.cons_prefix_cons.mpr ⟨rfl, List.nil_prefix⟩, ?_⟩
      rw [joined_singleton]
      exact hlen
    · refine ⟨w :: ps, List.cons_ne_nil _ _, List.cons_prefix_cons.mpr ⟨rfl, hprefix⟩, ?_⟩
      rw [joined_cons hne, List.length_append, List.length_cons]
      omega

/-- Words that are longer than the buffer fill nothing. -/
theorem not_fillsExactly_of_neg (h : nbytes < 0) : ¬FillsExactly ws nbytes := by
  rintro ⟨ps, -, -, hlen⟩
  omega

/-! ## The loop -/

theorem update_overwrite_last (m : Nat → UInt8) (i : Nat) (w : List UInt8) (x y : UInt8) :
    Function.update (overwrite m i (w ++ [x])) (i + w.length) y = overwrite m i (w ++ [y]) := by
  rw [overwrite_concat, Function.update_idem, ← overwrite_concat]

/-- The buffer after a word and the space behind it. -/
theorem word_space_mem (b : ArgsBuffer) (i : Nat) (w : List UInt8) :
    ((b.strcpy i (w ++ [0])).put (i + w.length) 32).mem = overwrite b.mem i (w ++ [32]) := by
  rw [put_mem, strcpy_mem, update_overwrite_last]

/-- The loop returns 0 exactly if the words fit with a NUL, and leaves them in the buffer. -/
theorem putArgs_result (b : ArgsBuffer) (i : Nat) (nbytes : Int) (ws : List (List UInt8)) :
    (putArgs b i nbytes ws).1 = (if (joined ws).length + 1 ≤ nbytes then 0 else -1) ∧
      ((joined ws).length + 1 ≤ nbytes →
        (putArgs b i nbytes ws).2.mem = overwrite b.mem i (joined ws ++ [0])) := by
  induction ws generalizing b i nbytes with
  | nil =>
    have hempty : joined [] = [] := rfl
    rw [putArgs, finishArgs, hempty, List.length_nil, List.nil_append, overwrite_cons,
      overwrite_nil]
    by_cases hfits : nbytes < 1
    · rw [if_pos hfits, if_neg (by omega)]
      exact ⟨rfl, fun h => by omega⟩
    · rw [if_neg hfits, if_pos (by omega)]
      exact ⟨rfl, fun _ => rfl⟩
  | cons w ws ih =>
    rw [putArgs]
    by_cases hlong : nbytes < w.length
    · have hnot : ¬((joined (w :: ws)).length + 1 ≤ nbytes) := by
        rcases eq_or_ne ws [] with rfl | hmore
        · rw [joined_singleton]
          omega
        · rw [joined_cons hmore, List.length_append]
          omega
      rw [if_pos hlong, if_neg hnot]
      exact ⟨rfl, fun h => absurd h hnot⟩
    rw [if_neg hlong]
    rcases eq_or_ne ws [] with rfl | hmore
    · rw [if_pos rfl, joined_singleton, finishArgs]
      by_cases hfits : nbytes - w.length < 1
      · rw [if_pos hfits, if_neg (by omega)]
        exact ⟨rfl, fun h => by omega⟩
      · rw [if_neg hfits, if_pos (by omega)]
        exact ⟨rfl, fun _ => by rw [put_mem, strcpy_mem, update_overwrite_last]⟩
    · rw [if_neg hmore, joined_cons hmore, List.length_append, List.length_cons]
      by_cases hfull : nbytes - w.length < 1
      · rw [if_pos hfull, if_neg (by omega)]
        exact ⟨rfl, fun h => by omega⟩
      · rw [if_neg hfull]
        obtain ⟨hvalue, hmem⟩ :=
          ih ((b.strcpy i (w ++ [0])).put (i + w.length) 32) (i + w.length + 1)
          (nbytes - w.length - 1)
        have hfits : (joined ws).length + 1 ≤ nbytes - w.length - 1 ↔
            ((w.length + ((joined ws).length + 1) : Nat) : Int) + 1 ≤ nbytes := by omega
        rw [if_congr hfits rfl rfl] at hvalue
        refine ⟨hvalue, ?_⟩
        intro h
        have hlast : i + w.length + 1 = i + (w ++ [32]).length := by rw [List.length_append]; rfl
        rw [hmem (hfits.mpr h), word_space_mem, hlast, ← overwrite_append, List.append_assoc,
          List.append_assoc]
        rfl

/-- No byte behind the buffer is written, exactly if no words fill the buffer. -/
theorem putArgs_inside_iff (ws : List (List UInt8)) : ∀ (b : ArgsBuffer) (i : Nat) (nbytes : Int),
    (∀ j ∈ b.written, (j : Int) < i + nbytes) →
      ((∀ j ∈ (putArgs b i nbytes ws).2.written, (j : Int) < i + nbytes) ↔
        ¬FillsExactly ws nbytes) := by
  have hput : ∀ (b : ArgsBuffer) (i : Nat) (nbytes : Int) (x : UInt8),
      (∀ j ∈ b.written, (j : Int) < i + nbytes) →
        ∀ k : Nat, k < nbytes → ∀ j ∈ (b.put (i + k) x).written, (j : Int) < i + nbytes := by
    intro b i nbytes x hb k hk
    rw [put_written, List.forall_mem_cons]
    exact ⟨by omega, hb⟩
  induction ws with
  | nil =>
    intro b i nbytes hb
    refine iff_of_true ?_ not_fillsExactly_nil
    rw [putArgs, finishArgs]
    by_cases hempty : nbytes < 1
    · rw [if_pos hempty]
      exact hb
    · rw [if_neg hempty]
      exact hput b i nbytes 0 hb 0 (by omega)
  | cons w ws ih =>
    intro b i nbytes hb
    rw [putArgs, fillsExactly_cons, not_or]
    by_cases hlong : nbytes < w.length
    · rw [if_pos hlong]
      exact iff_of_true hb ⟨by omega, not_fillsExactly_of_neg (by omega)⟩
    have hword := strcpy_inside_iff (w := w) hb
    rw [if_neg hlong]
    by_cases hexact : (w.length : Int) = nbytes
    · -- the NUL behind the word is outside, and the call gives up
      have hout : ¬∀ j ∈ (b.strcpy i (w ++ [0])).written, (j : Int) < i + nbytes :=
        fun h => absurd (hword.mp h) (by omega)
      have hfull : nbytes - w.length < 1 := by omega
      refine iff_of_false ?_ fun h => h.1 hexact
      rcases eq_or_ne ws [] with rfl | hmore
      · rw [if_pos rfl, finishArgs, if_pos hfull]
        exact hout
      · rw [if_neg hmore, if_pos hfull]
        exact hout
    · have hin := hword.mpr (by omega)
      have hroom : ¬nbytes - w.length < 1 := by omega
      rcases eq_or_ne ws [] with rfl | hmore
      · rw [if_pos rfl, finishArgs, if_neg hroom]
        exact iff_of_true (hput _ i nbytes 0 hin w.length (by omega)) ⟨hexact, not_fillsExactly_nil⟩
      · have hlimit : ((i + w.length + 1 : Nat) : Int) + (nbytes - w.length - 1) =
            i + nbytes := by omega
        have hspace := hput _ i nbytes 32 hin w.length (by omega)
        have hrest :=
          ih ((b.strcpy i (w ++ [0])).put (i + w.length) 32) (i + w.length + 1)
          (nbytes - w.length - 1)
        rw [hlimit] at hrest
        rw [if_neg hmore, if_neg hroom, hrest hspace]
        exact ⟨fun h => ⟨hexact, h⟩, fun h => h.2⟩

theorem getargs_putsArgs_iff (path : List UInt8) (ws : List (List UInt8)) (mem : Nat → UInt8)
    (nbytes : Int) :
    PutsArgs ws ⟨mem, []⟩ 0 nbytes (ece391Getargs (path :: ws) mem nbytes) ↔
    ¬FillsExactly ws nbytes := by
  obtain ⟨hvalue, hmem⟩ := putArgs_result ⟨mem, []⟩ 0 nbytes ws
  have hinside := putArgs_inside_iff ws ⟨mem, []⟩ 0 nbytes (by simp)
  have htaken : (putArgs ⟨mem, []⟩ 0 nbytes ws).1 = 0 ↔ (joined ws).length + 1 ≤ nbytes := by
    rw [hvalue]
    by_cases hfits : (joined ws).length + 1 ≤ nbytes
    · simp [hfits]
    · simp [hfits]
  constructor
  · exact fun h => hinside.mp h.inside
  · intro h
    refine ⟨htaken, ?_, fun hzero => hmem (htaken.mp hzero), hinside.mpr h⟩
    intro hnot
    exact hvalue.trans (if_neg hnot)

end

/-! ## Both calls -/

/-- A new program that is run with a command gets its words back: the command is taken apart inside
the arrays, and `ece391_getargs` in the new program returns 0 exactly if the words fit, with the
text in the buffer, and writes no byte behind it. -/
def RoundTrips (command : CString) (buf : Vector UInt8 1026) (args : Vector (Option Nat) 1024)
    (mem : Nat → UInt8) (nbytes : Int) : Prop :=
  ∃ s argv, ece391Execute command buf args = some (some s) ∧ execv s 1025 0 = some argv ∧
    PutsArgs (laterWords command.chars) ⟨mem, []⟩ 0 nbytes (ece391Getargs argv mem nbytes)

/-- It does, exactly if no first words of the command, with spaces between them, fill the buffer. -/
theorem roundTrips_iff (command : CString) (buf : Vector UInt8 1026)
    (args : Vector (Option Nat) 1024)
    (mem : Nat → UInt8) (nbytes : Int) (hlen : command.chars.length ≤ 1023)
    (hnl : 10 ∉ command.chars.dropLast) :
    RoundTrips command buf args mem nbytes ↔ ¬FillsExactly (laterWords command.chars) nbytes := by
  obtain ⟨s, hs, hargv⟩ := ece391Execute_spec command hlen hnl buf args
  rw [← getargs_putsArgs_iff (programPath command.chars) _ mem]
  constructor
  · rintro ⟨s', argv, hs', hargv', hputs⟩
    obtain rfl : s = s' := by simpa [hs] using hs'
    obtain rfl : _ = argv := Option.some.inj (hargv.symm.trans hargv')
    exact hputs
  · exact fun h => ⟨s, _, hs, hargv, h⟩

/-- The command `cat abc`. -/
def catAbc : CString := ⟨[99, 97, 116, 32, 97, 98, 99], by decide⟩

theorem laterWords_catAbc : laterWords catAbc.chars = [[97, 98, 99]] := by decide

/-- Five bytes have room for `abc` and its NUL. -/
theorem roundTrips_five :
    RoundTrips catAbc (Vector.replicate 1026 0) (Vector.replicate 1024 none) (fun _ => 1) 5 :=
  (roundTrips_iff catAbc _ _ _ 5 (by decide) (by decide)).mpr (by
    rw [laterWords_catAbc, fillsExactly_cons, not_or]
    exact ⟨by decide, not_fillsExactly_nil⟩)

/-- Three bytes have room for `abc` but not for its NUL, which is stored all the same. -/
theorem not_roundTrips_three :
    ¬∀ (command : CString) (buf : Vector UInt8 1026) (args : Vector (Option Nat) 1024)
    (mem : Nat → UInt8)
        (nbytes : Int), command.chars.length ≤ 1023 → 10 ∉ command.chars.dropLast →
          RoundTrips command buf args mem nbytes := by
  intro h
  obtain ⟨s, argv, hs, hargv, hputs⟩ :=
    h catAbc (Vector.replicate 1026 0) (Vector.replicate 1024 none)
    (fun _ => 1) 3 (by decide) (by decide)
  obtain ⟨s', hs', hargv'⟩ := ece391Execute_spec catAbc (by decide) (by decide)
    (Vector.replicate 1026 0) (Vector.replicate 1024 none)
  obtain rfl : s' = s := by simpa [hs'] using hs
  obtain rfl : _ = argv := Option.some.inj (hargv'.symm.trans hargv)
  have hfree := (getargs_putsArgs_iff _ _ _ 3).mp hputs
  rw [laterWords_catAbc, fillsExactly_cons] at hfree
  exact hfree (.inl rfl)

end OreOS
