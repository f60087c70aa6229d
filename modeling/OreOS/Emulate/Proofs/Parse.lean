import OreOS.Emulate.CommandLine
import OreOS.Machine.Lines
import OreOS.SysCall.Proofs.CommandLine

/-!
# The argument vector of the emulation layer

For a command of at most 1023 bytes whose only newline is its last byte, `ece391_execute` stays
inside its arrays and leaves the words after the first token in its argument vector, in order.
-/

namespace OreOS
open Machine

/-- The words of a command after its first token. A newline at its end belongs to no word. -/
def laterWords (command : List UInt8) : List (List UInt8) :=
  ((lineOf command).splitOn 32).tail.filter (· ≠ [])

/-- The bytes from `p` on are the rest `l` of a line, a newline at most, and the NUL. -/
structure RestAt (buf : Vector UInt8 1026) (p : Nat) (l : List UInt8) : Prop where
  plain : ∀ c ∈ l, endsLine c = false
  line : ∃ nl, (nl = [] ∨ nl = [10]) ∧ LineAt (fun i => buf[i]?) 0 p (l ++ nl)

/-- The entries from `i` on point to the given strings. -/
def ArgsAt (s : ExecuteVars) : Nat → List (List UInt8) → Prop
  | _, [] => True
  | i, w :: ws =>
      (∃ q, s.args[i]? = some (some q) ∧ arrayString (s.buf.toList.drop q) = some w) ∧
        ArgsAt s (i + 1) ws

section
variable {t : Nat → Option UInt8} {buf : Vector UInt8 1026} {e : UInt8} {p q i : Nat}
  {l w : List UInt8} {s : ExecuteVars}

theorem LineAt.mono {t' : Nat → Option UInt8} (h : LineAt t e p l)
    (heq : ∀ i, p ≤ i → i ≤ p + l.length → t' i = t i) : LineAt t' e p l where
  chars := by
    intro k hk
    rw [heq _ (by omega) (by omega), h.chars k hk]
  stop := by rw [heq _ (by omega) (by omega), h.stop]

theorem LineAt.lt_size (h : LineAt (fun i => buf[i]?) e p l) : p + l.length < 1026 := by
  obtain ⟨hlt, -⟩ := Vector.getElem?_eq_some_iff.mp h.stop
  exact hlt

/-- A string in an array. -/
theorem LineAt.arrayString (h : LineAt (fun i => buf[i]?) 0 p w) (h0 : 0 ∉ w) :
    arrayString (buf.toList.drop p) = some w := by
  have hsize := h.lt_size
  have hdrop : buf.toList.drop p = w ++ 0 :: buf.toList.drop (p + w.length + 1) := by
    apply List.ext_getElem?
    intro k
    rw [List.getElem?_drop, Vector.getElem?_toList]
    rcases Nat.lt_trichotomy k w.length with hlt | rfl | hgt
    · rw [h.chars k hlt, List.getElem?_append_left hlt]
    · rw [h.stop]
      simp
    · obtain ⟨j, rfl⟩ := Nat.exists_eq_add_of_lt hgt
      rw [List.getElem?_append_right (by omega), ← Vector.getElem?_toList]
      have hj : w.length + j + 1 - w.length = j + 1 := by omega
      rw [hj, List.getElem?_cons_succ, List.getElem?_drop]
      congr 1
      omega
  rw [OreOS.arrayString, if_pos (by rw [hdrop]; simp), hdrop, cstring_append_nul h0]

theorem endsName_of_plain {c : UInt8} (h : endsLine c = false) : endsName c = (c == 32) := by
  simp only [endsLine, Bool.or_eq_false_iff] at h
  simp [endsName, h.1, h.2]

/-- Of the rest of a line, the first word is what a scan for its end passes over. -/
theorem takeWhile_firstLine {nl : List UInt8} (hplain : ∀ c ∈ l, endsLine c = false)
    (hnl : nl = [] ∨ nl = [10]) : (l ++ nl).takeWhile (fun c => !endsName c) = firstLine 32 l := by
  have hnone : nl.takeWhile (fun c => !endsName c) = [] := by
    rcases hnl with rfl | rfl <;> rfl
  induction l with
  | nil => exact hnone
  | cons c l ih =>
    obtain ⟨hc, hrest⟩ := List.forall_mem_cons.mp hplain
    rw [List.cons_append, List.takeWhile_cons, firstLine, List.takeWhile_cons, endsName_of_plain hc,
      ih hrest]
    by_cases h32 : c = 32
    · simp [h32]
    · simp [h32, firstLine]

theorem dropWhile_append_nl {nl : List UInt8} (hnl : nl = [] ∨ nl = [10]) (l : List UInt8) :
    (l ++ nl).dropWhile (· == 32) = l.dropWhile (· == 32) ++ nl := by
  have hkept : nl.dropWhile (· == 32) = nl := by
    rcases hnl with rfl | rfl <;> rfl
  rw [List.dropWhile_append, hkept]
  split
  next h =>
    rw [List.isEmpty_iff.mp h]
    rfl
  next => rfl

theorem nul_not_mem_firstLine (hplain : ∀ c ∈ l, endsLine c = false) :
    0 ∉ firstLine 32 l := fun h =>
  absurd (hplain 0 ((List.takeWhile_prefix _).mem h)) (by decide)

/-! ## One word -/

theorem RestAt.lt_size (h : RestAt buf p l) : p + l.length < 1026 := by
  obtain ⟨nl, -, hline⟩ := h.line
  have hlt := hline.lt_size
  rw [List.length_append] at hlt
  omega

/-- At the NUL nothing is left. -/
theorem RestAt.nil (h : buf[p]? = some 0) : RestAt buf p [] :=
  ⟨by simp, [], .inl rfl, by simp, h⟩

/-- A scan inside the rest of a line ends in it. -/
theorem scanTo_eq {nl : List UInt8} (hline : LineAt (fun i => s.buf[i]?) 0 s.scan (l ++ nl))
    (stop : UInt8 → Bool) (h0 : stop 0 = true) :
    s.scanTo stop = some { s with scan := s.scan + ((l ++ nl).takeWhile fun c => !stop
      c).length } := by
  have hsize := hline.lt_size
  rw [ExecuteVars.scanTo, hline.scan_eq stop h0 (by omega)]
  rfl

/-- `while (' ' == *scan) scan++;` -/
theorem RestAt.skip (h : RestAt s.buf s.scan l) :
    ∃ j, s.scan ≤ j ∧ s.scanTo (· != 32) = some { s with scan := j } ∧
      RestAt s.buf j (l.dropWhile (· == 32)) := by
  obtain ⟨nl, hnl, hline⟩ := h.line
  have hnot : (fun c : UInt8 => !(c != 32)) = (· == 32) := by
    funext c
    simp [bne]
  have hscan := scanTo_eq hline (· != 32) rfl
  have hsize := hline.lt_size
  obtain ⟨j, hj, -, hrest⟩ := hline.scan (· != 32) rfl (show (l ++ nl).length < 1027 by omega)
  rw [hline.scan_eq (· != 32) rfl (show (l ++ nl).length < 1027 by omega)] at hj
  obtain rfl := Option.some.inj hj
  rw [hnot] at hscan hrest
  rw [dropWhile_append_nl hnl] at hrest
  have hplain : ∀ c ∈ l.dropWhile (· == 32), endsLine c = false := fun c hc =>
    h.plain c ((List.dropWhile_suffix _).mem hc)
  exact ⟨_, Nat.le_add_right _ _, hscan, hplain, nl, hnl, hrest⟩

/-- `*scan` at the end of a line and inside it. -/
theorem RestAt.head (h : RestAt buf p l) :
    ∃ c, buf[p]? = some c ∧ (l = [] → endsLine c = true) ∧ ∀ x l', l = x :: l' → c = x := by
  obtain ⟨nl, hnl, hline⟩ := h.line
  cases l with
  | nil =>
    rcases hnl with rfl | rfl
    · exact ⟨0, hline.stop, fun _ => rfl, by simp⟩
    · exact ⟨10, hline.head, fun _ => rfl, by simp⟩
  | cons x l => exact ⟨x, hline.head, by simp, fun _ _ h => (List.cons.inj h).1⟩

/-- Behind the first word: the end of the command, or a separator with a rest of the line behind it,
from which the other words come. -/
inductive Behind (buf : Vector UInt8 1026) (q : Nat) (l : List UInt8) : Prop where
  | done (hnul : buf[q]? = some 0) (hl : firstLine 32 l = l)
  | more (c : UInt8) (l' : List UInt8) (hc : buf[q]? = some c) (hne : c ≠ 0)
      (hl : l' = [] ∧ firstLine 32 l = l ∨ l = firstLine 32 l ++ 32 :: l')
      (hrest : ∀ hq : q < 1026, RestAt (buf.set q 0) (q + 1) l')

/-- The rest of a line behind the `k` characters that were read, after the store
of a NUL before it. -/
theorem RestAt.behind_nul {l' nl : List UInt8} {k : Nat}
    (hline : LineAt (fun i => buf[i]?) 0 p (w ++ l' ++ nl))
    (hk : w.length = k + 1) (hplain : ∀ c ∈ l', endsLine c = false) (hnl : nl = [] ∨ nl = [10])
    (hq : p + k < 1026) : RestAt (buf.set (p + k) 0) (p + k + 1) l' := by
  refine ⟨hplain, nl, hnl, ?_⟩
  have hdrop := hline.drop (k := w.length) (by simp)
  rw [List.append_assoc, List.drop_left, hk, ← Nat.add_assoc] at hdrop
  apply hdrop.mono
  intro i hi _
  rw [Vector.getElem?_set hq, if_neg (by omega)]

/-- `while ('\0' != *scan && ' ' != *scan && '\n' != *scan) scan++;` -/
theorem RestAt.word (h : RestAt s.buf s.scan l) :
    s.scanTo endsName = some { s with scan := s.scan + (firstLine 32 l).length } ∧
      (∀ k < (firstLine 32 l).length, s.buf[s.scan + k]? = (firstLine 32 l)[k]?) ∧
      Behind s.buf (s.scan + (firstLine 32 l).length) l := by
  obtain ⟨nl, hnl, hline⟩ := h.line
  have hscan := scanTo_eq hline endsName rfl
  rw [takeWhile_firstLine h.plain hnl] at hscan
  refine ⟨hscan, ?_, ?_⟩
  · intro k hk
    have hle := (List.takeWhile_prefix (· ≠ 32) (l := l)).length_le
    rw [hline.chars k (by rw [List.length_append]; exact Nat.lt_add_right _ (hk.trans_le hle))]
    obtain ⟨l', hl'⟩ := List.takeWhile_prefix (· ≠ 32) (l := l)
    conv_lhs => rw [← hl', List.append_assoc]
    exact List.getElem?_append_left hk
  · rcases firstLine_cases 32 l with hall | ⟨l', hl'⟩
    · rw [hall]
      rcases hnl with rfl | rfl
      · rw [List.append_nil] at hline
        exact .done hline.stop hall
      · have hnext := hline.chars l.length (by simp)
        rw [List.getElem?_append_right (Nat.le_refl _), Nat.sub_self] at hnext
        refine .more 10 [] hnext (by decide) (.inl ⟨rfl, hall⟩) fun hq => ?_
        have hwhole : LineAt (fun i => s.buf[i]?) 0 s.scan (l ++ [10] ++ [] ++ []) := by
          simpa using hline
        exact RestAt.behind_nul hwhole (by simp) (by simp) (.inl rfl) hq
    · have hlen : (firstLine 32 l).length < (l ++ nl).length := by
        conv_rhs => rw [hl']
        simp
      have hnext := hline.chars _ hlen
      have hspace : (l ++ nl)[(firstLine 32 l).length]? = some 32 := by
        conv_lhs => enter [1]; rw [hl']
        rw [List.append_assoc, List.getElem?_append_right (Nat.le_refl _), Nat.sub_self]
        rfl
      rw [hspace] at hnext
      refine .more 32 l' hnext (by decide) (.inr hl') fun hq => ?_
      have hsame : l ++ nl = firstLine 32 l ++ [32] ++ l' ++ nl := by
        conv_lhs => rw [hl']
        simp
      rw [hsame] at hline
      refine RestAt.behind_nul hline (by simp) (fun c hc => h.plain c ?_) hnl hq
      rw [hl']
      simp [hc]

/-! ## All the words -/

/-- What `s'` has more than `s`: the strings `ws` behind the arguments that were there. What was
passed by the scan is not touched, and a NUL stays one. -/
structure Parsed (s s' : ExecuteVars) (ws : List (List UInt8)) : Prop where
  buf : ∀ i, i < s.scan ∨ s.buf[i]? = some 0 → s'.buf[i]? = s.buf[i]?
  args : ∀ i < s.nArg, s'.args[i]? = s.args[i]?
  nArg : s'.nArg = s.nArg + ws.length
  room : s'.nArg < 1024
  words : ArgsAt s' s.nArg ws

theorem store_nul_kept {buf' : Vector UInt8 1026} (h : store buf q 0 = some buf')
    (hi : i < q ∨ buf[i]? = some 0) : buf'[i]? = buf[i]? := by
  rw [getElem?_of_store h]
  by_cases heq : q = i
  · subst heq
    rw [if_pos rfl]
    rcases hi with hlt | hnul
    · exact absurd hlt (Nat.lt_irrefl q)
    · exact hnul.symm
  · rw [if_neg heq]

/-- One word is pushed and ended with a NUL, and then the others are parsed. -/
theorem Parsed.cons {s₂ s' : ExecuteVars} {ws : List (List UInt8)} {j : Nat} (hj : s.scan ≤ j)
    (h0 : 0 ∉ w)
    (hchars : ∀ k < w.length, s.buf[j + k]? = w[k]?)
    (hargs : store s.args s.nArg (some j) = some s₂.args)
    (hnArg : s₂.nArg = s.nArg + 1) (hscan : j + w.length ≤ s₂.scan)
    (hnul : s₂.buf[j + w.length]? = some 0)
    (hbuf : ∀ i, i < j + w.length ∨ s.buf[i]? = some 0 → s₂.buf[i]? = s.buf[i]?)
    (h : Parsed s₂ s' ws) :
    Parsed s s' (w :: ws) where
  buf := by
    intro i hi
    have hsame := hbuf i (hi.imp_left fun hlt => by omega)
    rw [← hsame, h.buf i]
    rw [hsame]
    exact hi.imp_left fun hlt => by omega
  args := by
    intro i hi
    rw [h.args i (by omega), getElem?_of_store hargs, if_neg (by omega)]
  nArg := by
    rw [h.nArg, hnArg, List.length_cons]
    omega
  room := h.room
  words := by
    refine ⟨⟨j, ?_, LineAt.arrayString ⟨?_, ?_⟩ h0⟩, hnArg ▸ h.words⟩
    · rw [h.args _ (by omega), getElem?_of_store hargs, if_pos rfl]
    · intro k hk
      rw [← hchars k hk, h.buf _ (.inl (by omega)), hbuf _ (.inl (by omega))]
    · rw [h.buf _ (.inr hnul), hnul]

theorem wordsOf_behind {l' : List UInt8} (hw : firstLine 32 l ≠ [])
    (hl : l' = [] ∧ firstLine 32 l = l ∨ l = firstLine 32 l ++ 32 :: l') :
    wordsOf 32 l = firstLine 32 l :: wordsOf 32 l' := by
  have hfirst := wordsOf_of_not_mem (not_mem_firstLine 32 l) hw
  rcases hl with ⟨rfl, hall⟩ | hsep
  · conv_lhs => rw [← hall]
    exact hfirst
  · conv_lhs => rw [hsep]
    rw [wordsOf_append_sep, hfirst]
    rfl

/-- A word at the scan position is pushed, and what follows it is parsed by the
rounds that are left. -/
theorem parse_word (fuel : Nat) {x : UInt8} (h : RestAt s.buf s.scan (x :: l)) (hx : x ≠ 32)
    (hroom : s.nArg + (x :: l).length < 1024)
    (ih : ∀ s l', RestAt s.buf s.scan l' → s.nArg + l'.length < 1024 → l'.length ≤ l.length →
      ∃ s', parseArguments fuel s = some s' ∧ Parsed s s' (wordsOf 32 l')) :
    ∃ s', (do
        let s ← s.pushArg
        let s ← s.scanTo endsName
        let c ← s.buf[s.scan]?
        if c = 0 then parseArguments fuel s
        else
          let s ← s.terminate
          parseArguments fuel { s with scan := s.scan + 1 }) = some s' ∧
      Parsed s s' (wordsOf 32 (x :: l)) := by
  rw [List.length_cons] at hroom
  obtain ⟨args, hpush⟩ : ∃ args, store s.args s.nArg (some s.scan) = some args :=
    ⟨_, store_isSome _ (show s.nArg < 1024 by omega)⟩
  have hnonempty : firstLine 32 (x :: l) ≠ [] := by simp [firstLine, hx]
  have hpos : 0 < (firstLine 32 (x :: l)).length := List.length_pos_iff.mpr hnonempty
  have h0 := nul_not_mem_firstLine h.plain
  obtain ⟨hscan, hchars, hbehind⟩ := RestAt.word (s := ⟨s.buf, args, s.scan, s.nArg + 1⟩) h
  simp only [ExecuteVars.pushArg, hpush, Option.map_some, Option.bind_eq_bind,
    Option.bind_some, hscan]
  generalize hq : s.scan + (firstLine 32 (x :: l)).length = q at hbehind
  cases hbehind with
  | done hnul hall =>
    obtain ⟨s', hs', hparsed⟩ := ih ⟨s.buf, args, q, s.nArg + 1⟩ [] (RestAt.nil hnul)
      (by simp only [List.length_nil]; omega) (Nat.zero_le _)
    refine ⟨s', ?_, ?_⟩
    · simp only [hnul, Option.bind_some, if_true]
      exact hs'
    · rw [wordsOf_behind hnonempty (.inl ⟨rfl, hall⟩)]
      refine hparsed.cons (Nat.le_refl _) h0 hchars hpush rfl ?_ ?_ ?_
      · exact Nat.le_of_eq hq
      · rw [hq]
        exact hnul
      · intro i _
        rfl
  | more c l' hc hne hl hrest =>
    obtain ⟨hsize, -⟩ := Vector.getElem?_eq_some_iff.mp hc
    have hstore := store_isSome 0 hsize (a := s.buf)
    have hlen : l'.length ≤ l.length := by
      rcases hl with ⟨rfl, -⟩ | hsep
      · exact Nat.zero_le _
      · have hlength := congrArg List.length hsep
        rw [List.length_append, List.length_cons, List.length_cons] at hlength
        omega
    obtain ⟨s', hs', hparsed⟩ := ih ⟨s.buf.set q 0 hsize, args, q + 1, s.nArg + 1⟩ l' (hrest hsize)
      (by simp only; omega) hlen
    refine ⟨s', ?_, ?_⟩
    · simp only [hc, Option.bind_some, if_neg hne, ExecuteVars.terminate, hstore, Option.map_some]
      exact hs'
    · rw [wordsOf_behind hnonempty hl]
      refine hparsed.cons (Nat.le_refl _) h0 hchars hpush rfl (hq ▸ Nat.le_succ _) ?_ ?_
      · rw [hq, getElem?_of_store hstore, if_pos rfl]
      · intro i hi
        exact store_nul_kept hstore (hi.imp_left fun hlt => by omega)

/-- The loop ends, inside the arrays, with all the words of the rest. -/
theorem parseArguments_spec (fuel : Nat) :
    ∀ (s : ExecuteVars) (l : List UInt8), RestAt s.buf s.scan l →
    s.nArg + l.length < 1024 → l.length < fuel →
      ∃ s', parseArguments fuel s = some s' ∧ Parsed s s' (wordsOf 32 l) := by
  induction fuel with
  | zero => exact fun _ l _ _ h => absurd h (Nat.not_lt_zero _)
  | succ fuel ih =>
    intro s l h hroom hfuel
    obtain ⟨j, hj, hskip, hrest⟩ := h.skip
    obtain ⟨c, hc, hend, hhead⟩ := hrest.head
    have hlen := (List.dropWhile_suffix (· == 32) (l := l)).length_le
    rw [parseArguments, hskip, Option.bind_eq_bind, Option.bind_some]
    simp only [hc, Option.bind_some, Option.bind_eq_bind]
    rw [← wordsOf_dropWhile]
    cases hl : l.dropWhile (· == 32) with
    | nil =>
      have hstop : c = 0 ∨ c = 10 := by simpa [endsLine] using hend hl
      obtain ⟨hq, -⟩ := Vector.getElem?_eq_some_iff.mp hc
      have hstore := store_isSome 0 hq (a := s.buf)
      refine ⟨⟨s.buf.set j 0 hq, s.args, j, s.nArg⟩, ?_, ?_, fun _ _ => rfl,
        rfl, by simp only; omega, trivial⟩
      · rw [if_pos hstop, ExecuteVars.terminate, hstore]
        rfl
      · exact fun i hi => store_nul_kept hstore (hi.imp_left fun hlt => by omega)
    | cons x l₁ =>
      obtain rfl := hhead x l₁ hl
      rw [hl] at hrest hlen
      have hplain := hrest.plain c (by simp)
      have hgo : ¬(c = 0 ∨ c = 10) := by simpa [endsLine] using hplain
      have hx : c ≠ 32 := by
        rintro rfl
        have hnot := List.head?_dropWhile_not (· == (32 : UInt8)) l
        rw [hl] at hnot
        simp at hnot
      rw [List.length_cons] at hlen
      obtain ⟨s', hs', hparsed⟩ := parse_word (s := { s with scan := j }) fuel hrest hx
        (by simp only [List.length_cons]; omega) fun s l' hs hr hle => ih s l' hs hr (by omega)
      refine ⟨s', ?_, ?_⟩
      · rw [if_neg hgo]
        exact hs'
      · exact ⟨fun i hi => hparsed.buf i (hi.imp_left fun hlt => hlt.trans_le hj), hparsed.args,
          hparsed.nArg, hparsed.room, hparsed.words⟩

/-! ## The whole command -/

theorem execv_eq {s : ExecuteVars} {ws : List (List UInt8)} (fuel : Nat) (hargs : ArgsAt s i ws)
    (hend : s.args[i + ws.length]? = some none) (hfuel : ws.length < fuel) :
    execv s fuel i = some ws := by
  induction ws generalizing i fuel with
  | nil =>
    obtain ⟨fuel, rfl⟩ : ∃ n, fuel = n + 1 := ⟨fuel - 1, by omega⟩
    have hnull : s.args[i]? = some none := hend
    simp [execv, hnull]
  | cons w ws ih =>
    obtain ⟨fuel, rfl⟩ : ∃ n, fuel = n + 1 := ⟨fuel - 1, by omega⟩
    obtain ⟨⟨q, hq, hstring⟩, hrest⟩ := hargs
    rw [List.length_cons] at hend hfuel
    have hnext := ih fuel hrest (by rw [Nat.add_right_comm, Nat.add_assoc]; exact hend) (by omega)
    simp [execv, hq, hstring, hnext]

theorem ArgsAt.store {s : ExecuteVars} {ws : List (List UInt8)} {args : Vector (Option Nat) 1024}
    {x : Option Nat} (h : ArgsAt s i ws) (hstore : store s.args p x = some args)
    (hp : i + ws.length ≤ p) :
    ArgsAt { s with args } i ws := by
  induction ws generalizing i with
  | nil => trivial
  | cons w ws ih =>
    obtain ⟨⟨q, hq, hstring⟩, hrest⟩ := h
    rw [List.length_cons] at hp
    refine ⟨⟨q, ?_, hstring⟩, ih hrest (by omega)⟩
    rw [getElem?_of_store hstore, if_neg (by omega)]
    exact hq

/-- A command whose only newline is its last byte is its line, with the newline or without. -/
theorem lineOf_append_nl {cs : List UInt8} (h0 : 0 ∉ cs) (hnl : 10 ∉ cs.dropLast) :
    ∃ nl, (nl = [] ∨ nl = [10]) ∧ cs = lineOf cs ++ nl := by
  induction cs with
  | nil => exact ⟨[], .inl rfl, rfl⟩
  | cons c cs ih =>
    obtain ⟨hc, hrest⟩ := not_or.mp (List.mem_cons.not.mp h0)
    by_cases h10 : c = 10
    · subst h10
      cases cs with
      | nil => exact ⟨[10], .inr rfl, rfl⟩
      | cons d cs => exact absurd (by simp) hnl
    · have hline : lineOf (c :: cs) = c :: lineOf cs := by simp [lineOf, endsLine, Ne.symm hc, h10]
      have hlast : 10 ∉ cs.dropLast := by
        intro hmem
        cases cs with
        | nil => cases hmem
        | cons d cs =>
            exact hnl (by rw [List.dropLast_cons_cons]; exact List.mem_cons_of_mem _ hmem)
      obtain ⟨nl, hcases, heq⟩ := ih hrest hlast
      exact ⟨nl, hcases, by rw [hline, List.cons_append, ← heq]⟩

theorem laterWords_of_behind {cs l' : List UInt8}
    (hl : l' = [] ∧ firstLine 32 (lineOf cs) = lineOf cs ∨
      lineOf cs = firstLine 32 (lineOf cs) ++ 32 :: l') :
    laterWords cs = wordsOf 32 l' := by
  have hfirst := not_mem_firstLine 32 (lineOf cs)
  rw [laterWords]
  rcases hl with ⟨rfl, hall⟩ | hsep
  · rw [hall] at hfirst
    rw [List.splitOn_eq_singleton hfirst]
    rfl
  · conv_lhs => rw [hsep]
    rw [List.splitOn_append_cons_self_of_not_mem hfirst]
    rfl

/-- The first token as it is run. -/
def programPath (command : List UInt8) : List UInt8 := 46 :: 47 :: firstLine 32 (lineOf command)

/-- The command in `buf` after `strcpy`. -/
theorem stored_command (command : CString) (hlen : command.chars.length ≤ 1023)
    (hnl : 10 ∉ command.chars.dropLast) (buf : Vector UInt8 1026) :
    ∃ b₁ b₂, storeAll buf 0 [46, 47] = some b₁ ∧ storeAll b₁ 2 command.bytes = some b₂ ∧
      b₂[0]? = some 46 ∧ b₂[1]? = some 47 ∧ RestAt b₂ 2 (lineOf command.chars) := by
  obtain ⟨b₁, hb₁, hin₁, -⟩ := storeAll_spec buf 0 [46, 47] (by decide)
  have hroom : 2 + command.bytes.length ≤ 1026 := by
    rw [CString.bytes, List.length_append, List.length_singleton]
    omega
  obtain ⟨b₂, hb₂, hin₂, hbelow⟩ := storeAll_spec b₁ 2 command.bytes hroom
  obtain ⟨nl, hcases, hchars⟩ := lineOf_append_nl command.nulFree hnl
  refine ⟨b₁, b₂, hb₁, hb₂, ?_, ?_, endsLine_lineOf, nl, hcases, ?_⟩
  · rw [hbelow 0 (by decide)]
    exact hin₁ 0 (by decide)
  · rw [hbelow 1 (by decide)]
    exact hin₁ 1 (by decide)
  · rw [← hchars]
    have hbytes : command.bytes = command.chars ++ [0] := rfl
    refine ⟨?_, ?_⟩
    · intro k hk
      rw [hin₂ k (by rw [hbytes]; simp; omega), hbytes, List.getElem?_append_left hk]
    · rw [hin₂ _ (by rw [hbytes]; simp), hbytes, List.getElem?_append_right (Nat.le_refl _),
        Nat.sub_self]
      rfl

/-- The program's name, wherever a NUL was put behind it. -/
theorem programPath_string {command : List UInt8} {b b₂ : Vector UInt8 1026}
    (hdot : b₂[0]? = some 46) (hslash : b₂[1]? = some 47) (h0 : 0 ∉ firstLine 32 (lineOf command))
    (hchars : ∀ k < (firstLine 32 (lineOf command)).length,
      b₂[2 + k]? = (firstLine 32 (lineOf command))[k]?)
    (hq : 2 + (firstLine 32 (lineOf command)).length = q) (hb : ∀ i < q, b[i]? = b₂[i]?)
    (hnul : b[q]? = some 0) : arrayString (b.toList.drop 0) = some (programPath command) := by
  have hlength : 0 + (programPath command).length = q := by
    rw [programPath, List.length_cons, List.length_cons]
    omega
  refine LineAt.arrayString ⟨fun k hk => ?_, by rw [hlength]; exact hnul⟩
    (by simp [programPath, h0])
  rw [Nat.zero_add, hb k (by omega)]
  match k with
  | 0 => exact hdot
  | 1 => exact hslash
  | k + 2 =>
    rw [Nat.add_comm k 2, hchars k (by omega), Nat.add_comm 2 k]
    rfl

/-- `args[n_arg] = NULL`, and what `execv` makes of it. -/
theorem execv_after_null {s : ExecuteVars} {path : List UInt8} {ws : List (List UInt8)}
    (hzero : s.args[0]? = some (some 0)) (hpath : arrayString (s.buf.toList.drop 0) = some path)
    (hroom : s.nArg < 1024) (hwords : ArgsAt s 1 ws) (hnArg : s.nArg = 1 + ws.length) :
    ∃ args, store s.args s.nArg none = some args ∧
    execv { s with args } 1025 0 = some (path :: ws) := by
  obtain ⟨args, hargs⟩ : ∃ args, store s.args s.nArg none = some args := ⟨_, store_isSome _ hroom⟩
  have hall : ArgsAt s 0 (path :: ws) := ⟨⟨0, hzero, hpath⟩, hwords⟩
  refine ⟨args, hargs, execv_eq 1025 (hall.store hargs (by rw [List.length_cons]; omega)) ?_ ?_⟩
  · rw [getElem?_of_store hargs, if_pos (by rw [List.length_cons]; omega)]
  · rw [List.length_cons]
    omega

/-- The call stays inside `buf` and `args`, and hands the words to the new program. -/
theorem ece391Execute_spec (command : CString) (hlen : command.chars.length ≤ 1023)
    (hnl : 10 ∉ command.chars.dropLast) (buf : Vector UInt8 1026)
    (args : Vector (Option Nat) 1024) :
    ∃ s, ece391Execute command buf args = some (some s) ∧
      execv s 1025 0 = some (programPath command.chars :: laterWords command.chars) := by
  obtain ⟨b₁, b₂, hb₁, hb₂, hdot, hslash, hrest⟩ := stored_command command hlen hnl buf
  obtain ⟨args₁, hargs₁⟩ : ∃ args₁, store args 0 (some 0) = some args₁ :=
    ⟨_, store_isSome _ (by decide)⟩
  have hfirst : args₁[0]? = some (some 0) := by rw [getElem?_of_store hargs₁, if_pos rfl]
  have h0 := nul_not_mem_firstLine hrest.plain
  obtain ⟨hscan, hchars, hbehind⟩ := RestAt.word (s := ⟨b₂, args, 2, 0⟩) hrest
  simp only at hchars hbehind hscan
  generalize hq : 2 + (firstLine 32 (lineOf command.chars)).length = q at hscan hbehind
  rw [ece391Execute, if_neg (by omega)]
  simp only [hb₁, hb₂, hscan, hargs₁, Option.bind_eq_bind, Option.bind_some]
  cases hbehind with
  | done hnul hall =>
    have hwords : laterWords command.chars = [] := laterWords_of_behind (.inl ⟨rfl, hall⟩)
    have hpath := programPath_string hdot hslash h0 hchars hq (fun _ _ => rfl) hnul
    have hnone : ArgsAt ⟨b₂, args₁, q, 1⟩ 1 [] := trivial
    obtain ⟨args', hargs', hexecv⟩ := execv_after_null hfirst hpath (by simp) hnone rfl
    refine ⟨_, ?_, hwords ▸ hexecv⟩
    simp only [hnul, Option.bind_some, if_true, hargs']
    rfl
  | more c l' hc hne hl hrest' =>
    obtain ⟨hsize, -⟩ := Vector.getElem?_eq_some_iff.mp hc
    have hstore := store_isSome 0 hsize (a := b₂)
    have hbound := (hrest' hsize).lt_size
    obtain ⟨s, hs, hparsed⟩ := parseArguments_spec 1026 ⟨b₂.set q 0 hsize, args₁, q + 1, 1⟩ l'
      (hrest' hsize) (by simp only; omega) (by omega)
    have hbelow : ∀ i < q, s.buf[i]? = b₂[i]? := by
      intro i hi
      rw [hparsed.buf i (.inl (by simp only; omega)), getElem?_of_store hstore, if_neg (by omega)]
    have hnul : s.buf[q]? = some 0 := by
      rw [hparsed.buf q (.inl (by simp only; omega)), getElem?_of_store hstore, if_pos rfl]
    have hpath := programPath_string hdot hslash h0 hchars hq hbelow hnul
    have hzero := (hparsed.args 0 (by simp)).trans hfirst
    obtain ⟨args', hargs', hexecv⟩ := execv_after_null hzero hpath hparsed.room hparsed.words
      hparsed.nArg
    refine ⟨_, ?_, laterWords_of_behind hl ▸ hexecv⟩
    simp only [hc, Option.bind_some, if_neg hne, ExecuteVars.terminate, hstore, Option.map_some,
      hs, hargs']
    rfl

end

end OreOS
