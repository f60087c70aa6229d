import OreOS.SysCall.Command

/-!
# Which commands `execute` takes apart

`execute` copies 20 bytes of the command and looks for the end of the line in the copy. A line of
less than 20 bytes ends in it, whatever the stack held. After a longer one every loop goes on
through the uninitialised part of the array, and where that has no end of a line either, out of the
array.
-/

namespace OreOS
open Machine

/-! ## Taking a command apart -/

/-- `l` is found in `t` from index `i` on, followed by `e`. -/
structure LineAt (t : Nat → Option UInt8) (e : UInt8) (i : Nat) (l : List UInt8) : Prop where
  chars : ∀ k < l.length, t (i + k) = l[k]?
  stop : t (i + l.length) = some e

section
variable {t : Nat → Option UInt8} {e : UInt8} {i : Nat} {l : List UInt8}

theorem LineAt.head {x : UInt8} (h : LineAt t e i (x :: l)) : t i = some x := h.chars 0 (by simp)

theorem LineAt.tail {x : UInt8} (h : LineAt t e i (x :: l)) : LineAt t e (i + 1) l where
  chars := by
    intro k hk
    have := h.chars (k + 1) (by simpa using hk)
    rw [Nat.add_assoc, Nat.add_comm 1 k, this]
    simp
  stop := by
    have := h.stop
    rw [List.length_cons] at this
    rw [Nat.add_assoc, Nat.add_comm 1, this]

/-- The rest of a line. -/
theorem LineAt.drop (h : LineAt t e i l) {k : Nat} (hk : k ≤ l.length) :
    LineAt t e (i + k) (l.drop k) where
  chars := by
    intro m hm
    rw [List.length_drop] at hm
    rw [Nat.add_assoc, List.getElem?_drop]
    exact h.chars (k + m) (by omega)
  stop := by
    rw [List.length_drop, show i + k + (l.length - k) = i + l.length by omega]
    exact h.stop

/-- Where a scan stops. -/
theorem LineAt.scan_eq (h : LineAt t e i l) (stop : UInt8 → Bool) (he : stop e = true) {fuel : Nat}
    (hfuel : l.length < fuel) :
    OreOS.scan t stop fuel i = some (i + (l.takeWhile fun c => !stop c).length) := by
  induction l generalizing i fuel with
  | nil =>
    obtain ⟨fuel, rfl⟩ : ∃ n, fuel = n + 1 := ⟨fuel - 1, by omega⟩
    have hstop : t i = some e := h.stop
    simp [OreOS.scan, hstop, he]
  | cons x l ih =>
    obtain ⟨fuel, rfl⟩ : ∃ n, fuel = n + 1 := ⟨fuel - 1, by omega⟩
    simp only [List.length_cons] at hfuel
    by_cases hx : stop x = true
    · simp [OreOS.scan, h.head, hx]
    · have hx' : stop x = false := by simpa using hx
      have hrest := ih h.tail (show l.length < fuel by omega)
      rw [List.takeWhile_cons, hx', Bool.not_false, if_pos rfl, List.length_cons]
      simp only [OreOS.scan, h.head, hx', Option.bind_eq_bind, Option.bind_some, Bool.false_eq_true,
        if_false, hrest]
      congr 1
      omega

/-- The rest of the line is found where a scan stops. -/
theorem LineAt.scan (h : LineAt t e i l) (stop : UInt8 → Bool) (he : stop e = true) {fuel : Nat}
    (hfuel : l.length < fuel) :
    ∃ j, OreOS.scan t stop fuel i = some j ∧ j ≤ i + l.length ∧
      LineAt t e j (l.dropWhile fun c => !stop c) := by
  have hlen := (List.takeWhile_prefix (fun c => !stop c) (l := l)).length_le
  have hrest : ((l.takeWhile fun c => !stop c) ++ l.dropWhile fun c => !stop c).drop
      (l.takeWhile fun c => !stop c).length = l.dropWhile fun c => !stop c := List.drop_left
  rw [List.takeWhile_append_dropWhile] at hrest
  refine ⟨_, h.scan_eq stop he hfuel, by omega, ?_⟩
  rw [← hrest]
  exact h.drop hlen

theorem LineAt.copyArgs (h : LineAt t e i l) (he : endsLine e = true)
    (hl : ∀ c ∈ l, endsLine c = false) {fuel : Nat} (hfuel : l.length < fuel) :
    copyArgs t fuel i = some l := by
  induction l generalizing i fuel with
  | nil =>
    obtain ⟨fuel, rfl⟩ : ∃ n, fuel = n + 1 := ⟨fuel - 1, by omega⟩
    have hstop : t i = some e := h.stop
    have hend : e = 10 ∨ e = 0 := by simpa [endsLine, or_comm] using he
    simp [OreOS.copyArgs, hstop, hend]
  | cons x l ih =>
    obtain ⟨fuel, rfl⟩ : ∃ n, fuel = n + 1 := ⟨fuel - 1, by omega⟩
    simp only [List.length_cons] at hfuel
    have hx : ¬ (x = 10 ∨ x = 0) := by simpa [endsLine, and_comm] using hl x (by simp)
    have hlen : l.length < fuel := by omega
    have hrest := ih h.tail (fun c hc => hl c (by simp [hc])) hlen
    simp [OreOS.copyArgs, h.head, hx, hrest]

end

theorem endsLine_lineOf {command : List UInt8} : ∀ c ∈ lineOf command, endsLine c = false := by
  intro c hc
  have := List.mem_takeWhile_imp hc
  simpa using this

theorem dropWhile_congr {p q : UInt8 → Bool} {l : List UInt8} (h : ∀ c ∈ l, p c = q c) :
    l.dropWhile p = l.dropWhile q := by
  induction l with
  | nil => rfl
  | cons x l ih =>
    rw [List.dropWhile_cons, List.dropWhile_cons, h x (by simp), ih fun c hc => h c (by simp [hc])]

/-- What follows the line of a command in memory. -/
theorem lineOf_append (command : List UInt8) :
    ∃ e rest, command ++ [0] = lineOf command ++ e :: rest ∧ endsLine e = true := by
  induction command with
  | nil => exact ⟨0, [], rfl, rfl⟩
  | cons x command ih =>
    by_cases hx : endsLine x = true
    · refine ⟨x, command ++ [0], ?_, hx⟩
      simp [lineOf, hx]
    · obtain ⟨e, rest, heq, he⟩ := ih
      refine ⟨e, rest, ?_, he⟩
      have hcons : lineOf (x :: command) = x :: lineOf command := by simp [lineOf, hx]
      rw [hcons, List.cons_append, List.cons_append, heq]

/-- Where a command ends within 20 bytes, the array holds its line and the
character that ends it. -/
theorem lineAt_temp2 {command : List UInt8} (behind junk : Nat → UInt8)
    (h : (lineOf command).length < 20) :
    ∃ e, endsLine e = true ∧ LineAt (temp2 command behind junk) e 0 (lineOf command) := by
  obtain ⟨e, rest, heq, he⟩ := lineOf_append command
  have hbyte {k : Nat} (hk : k ≤ (lineOf command).length) : temp2 command behind junk (0 + k) =
      some ((lineOf command ++ e :: rest).getD k (behind k)) := by
    rw [Nat.zero_add, temp2, if_pos (by omega), commandByte, heq]
  refine ⟨e, he, ⟨?_, ?_⟩⟩
  · intro k hk
    rw [hbyte (by omega), List.getD_append _ _ _ _ hk, List.getD_eq_getElem _ _ hk,
      List.getElem?_eq_getElem hk]
  · rw [hbyte (Nat.le_refl _), List.getD_append_right _ _ _ _ (Nat.le_refl _)]
    simp

theorem endsName_of_endsLine {c : UInt8} (h : endsLine c = true) : endsName c = true := by
  have hend : c = 0 ∨ c = 10 := by simpa [endsLine] using h
  rcases hend with rfl | rfl <;> rfl

theorem ne_space_of_endsLine {c : UInt8} (h : endsLine c = true) : (c != 32) = true := by
  have hend : c = 0 ∨ c = 10 := by simpa [endsLine] using h
  rcases hend with rfl | rfl <;> rfl

/-- Inside a line only a space ends the name. -/
theorem dropWhile_name (command : List UInt8) :
    (lineOf command).dropWhile (fun c => !endsName c) = (lineOf command).dropWhile (· != 32) := by
  apply dropWhile_congr
  intro c hc
  have hline := endsLine_lineOf c hc
  simp only [endsLine, Bool.or_eq_false_iff] at hline
  simp [endsName, hline.1, hline.2, bne]

/-- The arguments are the end of the line. -/
theorem arguments_suffix (command : List UInt8) : arguments command <:+ lineOf command :=
  (List.dropWhile_suffix _).trans (List.dropWhile_suffix _)

/-- A command that ends within 20 bytes is taken apart as it should be. -/
theorem parseArgs_temp2 {command : List UInt8} (behind junk : Nat → UInt8)
    (h : (lineOf command).length < 20) :
    parseArgs (temp2 command behind junk) = some (arguments command) := by
  obtain ⟨e, he, hline⟩ := lineAt_temp2 behind junk h
  -- the name ends at the first space, since the line has no other end
  obtain ⟨i, hi, hile, hname⟩ := hline.scan endsName (endsName_of_endsLine he)
    (show _ < 65 by omega)
  rw [dropWhile_name] at hname
  -- then spaces
  have hlen := (List.dropWhile_suffix (· != 32) (l := lineOf command)).length_le
  obtain ⟨j, hj, -, hargs⟩ := hname.scan (· != 32) (ne_space_of_endsLine he) (show _ < 65 by omega)
  have hnot : (fun c : UInt8 => !(c != 32)) = (· == 32) := by
    funext c
    rw [bne, Bool.not_not]
  rw [hnot] at hargs
  -- and the rest of the line
  have hsuffix := arguments_suffix command
  have hcopy := hargs.copyArgs he (fun c hc => endsLine_lineOf c (hsuffix.subset hc))
    (show (arguments command).length < 65 from Nat.lt_of_le_of_lt hsuffix.length_le (by omega))
  have hscan : scan (temp2 command behind junk) (fun c => c == 32 || c == 0 || c == 10) 65 0 =
      some i := hi
  simp only [parseArgs, hscan, if_neg (show ¬ 32 < i by omega), hj, Option.bind_eq_bind,
    Option.bind_some]
  exact hcopy

/-! ## The name -/

section
variable {t : Nat → Option UInt8} {i : Nat}

/-- A scan has read everything up to the character it stops at. -/
theorem scan_reads {stop : UInt8 → Bool} {fuel j : Nat} (h : scan t stop fuel i = some j) :
    ∀ k, i ≤ k → k ≤ j → ∃ c, t k = some c := by
  induction fuel generalizing i with
  | zero => cases h
  | succ fuel ih =>
    obtain ⟨c, hc, hrest⟩ := Option.bind_eq_some_iff.mp h
    intro k hik hkj
    rcases Nat.eq_or_lt_of_le hik with rfl | hlt
    · exact ⟨c, hc⟩
    · split at hrest
      · cases hrest
        omega
      · exact ih hrest k hlt hkj

theorem strncpyIn_isSome {n : Nat} (h : ∀ k, i ≤ k → k ≤ i + n → ∃ c, t k = some c) :
    ∃ l, strncpyIn t i n = some l := by
  induction n generalizing i with
  | zero =>
    obtain ⟨c, hc⟩ := h i (Nat.le_refl _) (by omega)
    exact ⟨[], by simp [strncpyIn, hc]⟩
  | succ n ih =>
    obtain ⟨c, hc⟩ := h i (Nat.le_refl _) (by omega)
    obtain ⟨l, hl⟩ := ih (i := i + 1) fun k h1 h2 => h k (by omega) (by omega)
    by_cases h0 : c = 0
    · exact ⟨_, by
        simp only [strncpyIn, hc, h0, Option.bind_eq_bind, Option.bind_some, if_true]; rfl⟩
    · exact ⟨c :: l, by simp [strncpyIn, hc, h0, hl]⟩

/-- The arguments that are stored do not depend on the copy of the name. -/
theorem takeCommand_args (t : Nat → Option UInt8) :
    (takeCommand t).map CommandParts.args = parseArgs t := by
  unfold takeCommand parseArgs
  cases hi : scan t (fun c => c == 32 || c == 0 || c == 10) 65 0 with
  | none => rfl
  | some i =>
    simp only [Option.bind_eq_bind, Option.bind_some]
    by_cases h32 : 32 < i
    · rw [if_pos h32, if_pos h32]
      rfl
    · obtain ⟨l, hl⟩ := strncpyIn_isSome (t := t) (i := 0) (n := i) fun k h1 h2 =>
        scan_reads hi k h1 (by omega)
      rw [if_neg h32, if_neg h32, hl, Option.bind_some]
      cases scan t (· != 32) 65 i with
      | none => rfl
      | some j =>
        rw [Option.bind_some, Option.bind_some]
        cases copyArgs t 65 j <;> rfl

variable {e : UInt8} {l : List UInt8}

/-- A copy of characters that are there and are no NUL. -/
theorem LineAt.strncpyIn_eq (h : LineAt t e i l) {n : Nat} (hn : n ≤ l.length)
    (h0 : 0 ∉ l.take n) : strncpyIn t i n = some (l.take n) := by
  induction n generalizing i l with
  | zero =>
    cases l with
    | nil =>
      have hstop : t i = some e := h.stop
      simp [strncpyIn, hstop]
    | cons x l => simp [strncpyIn, h.head]
  | succ n ih =>
    cases l with
    | nil => simp at hn
    | cons x l =>
      rw [List.take_succ_cons, List.mem_cons, not_or] at h0
      have hx : x ≠ 0 := fun hx => h0.1 hx.symm
      have hrest := ih h.tail (by simpa using hn) h0.2
      simp [strncpyIn, h.head, hx, hrest]

end

/-- The name is at the start of the line. -/
theorem commandName_eq (command : List UInt8) :
    commandName command = (lineOf command).takeWhile fun c => !endsName c := by
  rw [lineOf, List.takeWhile_takeWhile, commandName]
  congr 1
  funext c
  cases h32 : c == 32 <;> cases h0 : c == 0 <;> cases h10 : c == 10 <;>
    simp [endsName, endsLine, h32, h0, h10]

theorem nul_not_mem_commandName (command : List UInt8) : 0 ∉ commandName command := by
  intro h
  have := List.mem_takeWhile_imp h
  simp [endsName] at this

theorem arrayString_padded {s : List UInt8} (h0 : 0 ∉ s) {n : Nat} (hn : 0 < n) :
    arrayString (s ++ List.replicate n 0) = some s := by
  obtain ⟨n, rfl⟩ : ∃ m, n = m + 1 := ⟨n - 1, by omega⟩
  rw [arrayString, if_pos (by simp), List.replicate_succ, cstring_append_nul h0]

/-- A command whose line ends within 20 bytes, taken apart. -/
theorem takeCommand_temp2 {command : List UInt8} (behind junk : Nat → UInt8)
    (h : (lineOf command).length < 20) :
    takeCommand (temp2 command behind junk) =
      some ⟨commandName command ++ List.replicate (32 - (commandName command).length) 0,
        arguments command⟩ := by
  obtain ⟨e, he, hline⟩ := lineAt_temp2 behind junk h
  have hpre := List.takeWhile_prefix (fun c => !endsName c) (l := lineOf command)
  rw [← commandName_eq] at hpre
  have hlen := hpre.length_le
  have hscan : scan (temp2 command behind junk) (fun c => c == 32 || c == 0 || c == 10) 65 0 =
      some (commandName command).length := by
    have := hline.scan_eq endsName (endsName_of_endsLine he) (show _ < 65 by omega)
    rw [← commandName_eq, Nat.zero_add] at this
    exact this
  have htake : (lineOf command).take (commandName command).length = commandName command :=
    (List.prefix_iff_eq_take.mp hpre).symm
  have hcopy := hline.strncpyIn_eq hlen (by rw [htake]; exact nul_not_mem_commandName command)
  rw [htake] at hcopy
  -- the arguments are those of `parseArgs`
  have hargs := takeCommand_args (temp2 command behind junk)
  rw [parseArgs_temp2 behind junk h] at hargs
  obtain ⟨c, hc, hcargs⟩ := Option.map_eq_some_iff.mp hargs
  rw [hc, ← hcargs]
  have hname : c.fileName =
      commandName command ++ List.replicate (32 - (commandName command).length) 0 := by
    simp only [takeCommand, hscan, Option.bind_eq_bind, Option.bind_some,
      if_neg (show ¬ 32 < (commandName command).length by omega), hcopy,
      Option.bind_eq_some_iff] at hc
    obtain ⟨j, -, args, -, hc⟩ := hc
    cases hc
    rfl
  rw [← hname]

/-! ## Lines that the copy does not hold -/

/-- Without the end of a line, the loop that copies the arguments leaves the array. -/
theorem copyArgs_none {t : Nat → Option UInt8} (h : ∀ k c, t k = some c → endsLine c = false)
    (fuel j : Nat) : copyArgs t fuel j = none := by
  induction fuel generalizing j with
  | zero => rfl
  | succ fuel ih =>
    rw [copyArgs]
    cases hj : t j with
    | none => rfl
    | some c =>
      have hc : ¬ (c = 10 ∨ c = 0) := by simpa [endsLine, and_comm] using h j c hj
      simp [hc, ih]

theorem takeCommand_none {t : Nat → Option UInt8} (h : ∀ k c, t k = some c → endsLine c = false) :
    takeCommand t = none := by
  cases htake : takeCommand t with
  | none => rfl
  | some c =>
    have hargs := takeCommand_args t
    rw [htake] at hargs
    obtain ⟨i, -, hrest⟩ := Option.bind_eq_some_iff.mp hargs.symm
    split at hrest
    · cases hrest
    · obtain ⟨j, -, hcopy⟩ := Option.bind_eq_some_iff.mp hrest
      rw [copyArgs_none h] at hcopy
      cases hcopy

/-- In the copy of a longer line nothing ends the line if nothing on the stack does. -/
theorem temp2_unended {command : List UInt8} (behind : Nat → UInt8)
    (h : 20 ≤ (lineOf command).length) {k : Nat} {c : UInt8}
    (hk : temp2 command behind (fun _ => 120) k = some c) : endsLine c = false := by
  unfold temp2 at hk
  split at hk
  next hlt =>
    obtain ⟨e, rest, heq, -⟩ := lineOf_append command
    rw [commandByte, heq, List.getD_append _ _ _ _ (by omega),
      List.getD_eq_getElem _ _ (show k < (lineOf command).length by omega), Option.some.injEq] at hk
    exact endsLine_lineOf c (hk ▸ List.getElem_mem _)
  next =>
    split at hk
    · cases hk
      rfl
    · cases hk

/-! ## Looking the name up -/

/-- Whatever is behind the command and on the stack: the arguments of the command are stored, its
    name is looked up, and a name of more than 31 bytes makes `execute` return -1. -/
def TakenApart (command : List UInt8) : Prop :=
  ∀ (fs : Filesys) (behind junk : Nat → UInt8), 0 < fs.numDe.toInt →
    ∃ r, lookUpCommand fs (temp2 command behind junk) = some r ∧
      r.args = arguments command ∧ r.args.length < 1024 ∧
      (if 31 < (commandName command).length then r.fileSize = -1 else r.name = commandName command)

theorem readDentryByName_isSome {fs : Filesys} (h : 0 < fs.numDe.toInt) (fname : List UInt8) :
    ∃ r, readDentryByName fs fname = some r := by
  unfold readDentryByName
  rw [if_neg (show ¬ fs.numDe.toInt ≤ 0 by omega)]
  split
  · exact ⟨_, rfl⟩
  · split <;> exact ⟨_, rfl⟩

theorem takenApart_of_short {command : List UInt8} (h : (lineOf command).length < 20) :
    TakenApart command := by
  intro fs behind junk hde
  have hname := (List.takeWhile_prefix (fun c => !endsName c) (l := lineOf command)).length_le
  rw [← commandName_eq] at hname
  have hargs := (arguments_suffix command).length_le
  obtain ⟨⟨size, de⟩, hread⟩ := readDentryByName_isSome hde (commandName command)
  refine ⟨⟨commandName command, arguments command, size, de⟩, ?_, rfl, ?_, ?_⟩
  · simp only [lookUpCommand, takeCommand_temp2 behind junk h, Option.bind_eq_bind,
      Option.bind_some, arrayString_padded (nul_not_mem_commandName command)
        (show 0 < 32 - (commandName command).length by omega), hread]
    rfl
  · exact Nat.lt_of_le_of_lt hargs (by omega)
  · rw [if_neg (show ¬ 31 < (commandName command).length by omega)]

theorem short_of_takenApart {command : List UInt8} (h : TakenApart command) :
    (lineOf command).length < 20 := by
  by_contra hlong
  obtain ⟨r, hr, -⟩ := h ⟨fun _ => 0, 1#32, 0, 0⟩ (fun _ => 0) (fun _ => 120) (by decide)
  rw [lookUpCommand, takeCommand_none fun k c hk => temp2_unended _ (by omega) hk] at hr
  cases hr

/-- `execute` takes a command apart as it should, whatever the stack holds, exactly when the line of
    the command has less than 20 bytes. -/
theorem command_taken_apart_iff (command : List UInt8) :
    TakenApart command ↔ (lineOf command).length < 20 :=
  ⟨short_of_takenApart, takenApart_of_short⟩

/-- `cat verylargetxtwithverylongname.tx`. -/
theorem long_command_not_taken_apart :
    ¬ ∀ command : List UInt8, command.length ≤ 1023 → 0 ∉ command → TakenApart command := by
  intro hall
  have hshort := short_of_takenApart
    (hall [99, 97, 116, 32, 118, 101, 114, 121, 108, 97, 114, 103, 101, 116, 120, 116, 119, 105,
      116, 104, 118, 101, 114, 121, 108, 111, 110, 103, 110, 97, 109, 101, 46,
    116, 120] (by decide) (by decide))
  exact absurd hshort (by decide)

end OreOS
