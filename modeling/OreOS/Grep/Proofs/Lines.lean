import Mathlib.Data.List.Infix
import OreOS.Grep.Search
import OreOS.Machine.Lines

/-!
# The lines of the buffer

What the loops of `do_one_file` do with the text in the buffer: the search of one line, and the loop
over all the lines. The loop takes a byte behind the text for the end of its last line, if that byte
happens to be a newline.
-/

namespace OreOS
open Machine

variable {data : Nat → UInt8} {l t : List UInt8} {i n : Nat}

theorem loadData_eq (h : i ≤ 1024) : loadData data i = some (data i) := if_pos (Nat.lt_succ_of_le h)

theorem storeData_eq (h : i ≤ 1024) (x : UInt8) :
    storeData data i x = some (Function.update data i x) :=
  if_pos (Nat.lt_succ_of_le h)

/-! ## Strings in the buffer -/

/-- The bytes `l` lie in the buffer from `i` on, and none of them is a NUL. -/
structure LiesAt (data : Nat → UInt8) (i : Nat) (l : List UInt8) : Prop where
  slice_eq : slice data i l.length = l
  nulFree : 0 ∉ l
  le : i + l.length ≤ 1024

namespace LiesAt

theorem cons_iff {x : UInt8} :
    LiesAt data i (x :: l) ↔ data i = x ∧ x ≠ 0 ∧ i < 1024 ∧ LiesAt data (i + 1) l := by
  constructor
  · rintro ⟨hslice, hnul, hle⟩
    rw [List.length_cons, slice_succ] at hslice
    obtain ⟨hx, hl⟩ := List.cons.inj hslice
    obtain ⟨hx0, hl0⟩ := not_or.mp (List.mem_cons.not.mp hnul)
    rw [List.length_cons] at hle
    exact ⟨hx, Ne.symm hx0, by omega, hl, hl0, by omega⟩
  · rintro ⟨hx, hx0, hi, hl, hl0, hle⟩
    refine ⟨?_, ?_, ?_⟩
    · rw [List.length_cons, slice_succ, hx, hl]
    · exact List.not_mem_cons_of_ne_of_not_mem (Ne.symm hx0) hl0
    · rw [List.length_cons]
      omega

/-- A byte that is written beside the bytes. -/
theorem update (h : LiesAt data i l) {k : Nat} (hk : k < i ∨ i + l.length ≤ k) (x : UInt8) :
    LiesAt (Function.update data k x) i l := by
  refine ⟨(slice_congr _ ?_).trans h.slice_eq, h.nulFree, h.le⟩
  intro j hj hj'
  exact Function.update_of_ne (by omega) _ _

/-- The first part of the bytes. -/
theorem left {r : List UInt8} (h : LiesAt data i (l ++ r)) : LiesAt data i l := by
  have hslice := h.slice_eq
  have hle := h.le
  rw [List.length_append, slice_add] at hslice
  rw [List.length_append] at hle
  exact ⟨(List.append_inj hslice (slice_length _ _ _)).1,
    fun hmem => h.nulFree (by simp [hmem]), by omega⟩

/-- The rest of the bytes. -/
theorem right {r : List UInt8} (h : LiesAt data i (l ++ r)) : LiesAt data (i + l.length) r := by
  have hslice := h.slice_eq
  have hle := h.le
  rw [List.length_append, slice_add] at hslice
  rw [List.length_append] at hle
  exact ⟨(List.append_inj hslice (slice_length _ _ _)).2,
    fun hmem => h.nulFree (by simp [hmem]), by omega⟩

/-- More bytes are read behind the bytes. -/
theorem append (h : LiesAt data 0 l) {r : List UInt8} (h0 : 0 ∉ r)
    (hle : l.length + r.length ≤ 1024) :
    LiesAt (overwrite data l.length r) 0 (l ++ r) := by
  refine ⟨?_, ?_, by rwa [Nat.zero_add, List.length_append]⟩
  · rw [List.length_append, slice_add, slice_overwrite_of_lt (by omega), h.slice_eq, Nat.zero_add,
      slice_overwrite]
  · rw [List.mem_append, not_or]
    exact ⟨h.nulFree, h0⟩

end LiesAt

theorem ece391Strlen_eq (h : LiesAt data i l) (hend : data (i + l.length) = 0) :
    ece391Strlen data i = some l.length := by
  have hle := h.le
  have hsize : grepBufsize + 1 - i = l.length + (1 + (1024 - i - l.length)) := by
    simp only [grepBufsize]
    omega
  rw [ece391Strlen, hsize, slice_add, h.slice_eq, slice_add, slice_succ, slice_zero, hend]
  exact strlen_of_nul h.nulFree _

/-- A string is copied down, over its own first bytes if need be. -/
theorem ece391Strcpy_eq {k fuel : Nat} (h : LiesAt data i l) (hend : data (i + l.length) = 0)
    (hk : k < i)
    (hf : l.length < fuel) : ece391Strcpy fuel data k i = some (overwrite data k (l ++ [0])) := by
  have hle := h.le
  induction l generalizing data i k fuel with
  | nil =>
    obtain ⟨fuel, rfl⟩ := Nat.exists_eq_add_of_lt hf
    rw [List.length_nil, Nat.add_zero] at hend hle
    simp [ece391Strcpy, loadData_eq hle, storeData_eq (show k ≤ 1024 by omega), hend,
      overwrite_cons]
  | cons x l ih =>
    obtain ⟨hx, hx0, hi, hl⟩ := LiesAt.cons_iff.mp h
    rw [List.length_cons] at hend hle hf
    obtain ⟨fuel, rfl⟩ := Nat.exists_eq_add_of_lt hf
    have hend' : Function.update data k x (i + 1 + l.length) = 0 := by
      rw [Function.update_of_ne (by omega), Nat.add_assoc, Nat.add_comm 1, hend]
    have hrest := ih (hl.update (.inl (by omega)) x) hend' (Nat.succ_lt_succ hk)
      (show l.length < l.length + 1 + fuel by omega) (by omega)
    rw [ece391Strcpy, loadData_eq (by omega), Option.bind_eq_bind, Option.bind_some,
      storeData_eq (by omega), Option.bind_eq_bind, Option.bind_some, hx, if_pos hx0, hrest,
      List.cons_append, overwrite_cons]

/-- `ece391_strncmp` with the length of the search string. -/
theorem ece391Strncmp_eq {s : Nat → UInt8} {u : List UInt8} {j : Nat} (h : LiesAt data i l)
    (hend : data (i + l.length) = 0) (hs : slice s j u.length = u) (hu : 0 ∉ u) :
    ∃ r, ece391Strncmp data s u.length i j = some r ∧ (r = 0 ↔ u <+: l) := by
  induction u generalizing i j l with
  | nil => exact ⟨0, rfl, by simp⟩
  | cons y u ih =>
    rw [List.length_cons, slice_succ] at hs
    obtain ⟨hy, hrest⟩ := List.cons.inj hs
    obtain ⟨hy0, hu0⟩ := not_or.mp (List.mem_cons.not.mp hu)
    have hle := h.le
    cases l with
    | nil =>
      -- The string ends before the search string does.
      rw [List.length_nil, Nat.add_zero] at hend hle
      refine ⟨(0 : UInt8).toNat - (y.toNat : Int), ?_, ?_⟩
      · rw [List.length_cons, ece391Strncmp, loadData_eq hle, Option.bind_eq_bind,
          Option.bind_some, hend, hy, if_neg hy0]
      · have hy0' : y.toNat ≠ 0 := fun h => hy0 (UInt8.toNat_inj.mp h.symm)
        simp [hy0']
    | cons x l =>
      obtain ⟨hx, hx0, hi, hl⟩ := LiesAt.cons_iff.mp h
      rw [List.length_cons, ece391Strncmp, loadData_eq (by omega), Option.bind_eq_bind,
        Option.bind_some, hx, hy]
      rw [List.length_cons, Nat.add_comm l.length, ← Nat.add_assoc] at hend
      by_cases hxy : x = y
      · subst hxy
        rw [if_pos rfl]
        obtain ⟨r, hr, hr0⟩ := ih hl hend hrest hu0
        by_cases hlast : u.length = 0
        · refine ⟨0, by rw [if_pos (.inr hlast)], ?_⟩
          simp [List.length_eq_zero_iff.mp hlast]
        · refine ⟨r, by rw [if_neg (by simp [hx0, hlast]), hr], ?_⟩
          rw [hr0, List.cons_prefix_cons]
          simp
      · refine ⟨x.toNat - (y.toNat : Int), by rw [if_neg hxy], ?_⟩
        have hne : x.toNat ≠ y.toNat := fun h => hxy (UInt8.toNat_inj.mp h)
        rw [List.cons_prefix_cons]
        simp [Ne.symm hxy]
        omega

/-! ## One line -/

theorem scanLineEnd_eq (data : Nat → UInt8) (h : i + n ≤ 1024) :
    scanLineEnd data n i = some (i + (firstLine 10 (slice data i n)).length) := by
  induction n generalizing i with
  | zero => rfl
  | succ n ih =>
    rw [scanLineEnd, loadData_eq (by omega), Option.bind_eq_bind, Option.bind_some,
      slice_succ, firstLine, List.takeWhile_cons]
    by_cases hx : data i = 10
    · simp [hx]
    · rw [if_pos hx, ih (by omega), if_pos (by simpa using hx), firstLine, List.length_cons,
        Nat.add_assoc, Nat.add_comm 1]

/-- A search string: not empty, and of characters that are the same signed and unsigned. -/
structure Searchable (s : List UInt8) : Prop where
  ne_nil : s ≠ []
  ascii : ∀ c ∈ s, 0 < c ∧ c < 128

theorem Searchable.nulFree {s : List UInt8} (hs : Searchable s) : 0 ∉ s := fun h =>
  absurd (hs.ascii 0 h).1 (by decide)

theorem slice_cstr (s : List UInt8) : slice (cstr s) 0 s.length = s := by
  apply List.ext_getElem (slice_length _ _ _)
  intro k hk hk'
  rw [getElem_slice, Nat.zero_add, cstr, List.getD_eq_getElem _ _ hk']

theorem toInt_of_ascii {c : UInt8} (h : c < 128) : c.toInt8.toInt = c.toNat := by
  have hlt : c.toNat < 128 := UInt8.lt_iff_toNat_lt.mp h
  change c.toBitVec.toInt = _
  rw [BitVec.toInt_eq_toNat_cond, if_pos (by simpa using by omega)]
  rfl

variable {s fname : CString}

/-- The loop over `check` looks for the search string at every place of the line. -/
theorem checkLine_eq (hs : Searchable s.chars) (h : LiesAt data i l)
    (hend : data (i + l.length) = 0) :
    checkLine s data l.length i = some (decide (s.chars <:+: l)) := by
  induction l generalizing i with
  | nil =>
    rw [List.length_nil, checkLine, decide_eq_false]
    rw [List.infix_nil]
    exact hs.ne_nil
  | cons x l ih =>
    obtain ⟨hx, hx0, hi, hl⟩ := LiesAt.cons_iff.mp h
    have hend' := hend
    rw [List.length_cons, Nat.add_comm l.length, ← Nat.add_assoc] at hend'
    rw [List.length_cons, checkLine, loadData_eq (by omega), Option.bind_eq_bind,
      Option.bind_some, hx, ih hl hend']
    obtain ⟨c, cs, hchars⟩ := List.exists_cons_of_ne_nil hs.ne_nil
    have hfirst : (cstr s.chars 0).toInt8.toInt = x.toNat ↔ c = x := by
      rw [hchars, show cstr (c :: cs) 0 = c from rfl,
        toInt_of_ascii (hs.ascii c (by simp [hchars])).2, Int.natCast_inj, UInt8.toNat_inj]
    simp only [List.infix_cons_iff]
    by_cases hcx : c = x
    · obtain ⟨r, hr, hr0⟩ := ece391Strncmp_eq h hend (slice_cstr s.chars) hs.nulFree
      rw [if_pos (hfirst.mpr hcx), hr, Option.bind_eq_bind, Option.bind_some, if_congr hr0 rfl rfl]
      by_cases hpre : s.chars <+: x :: l
      · simp [hpre]
      · simp [hpre]
    · have hpre : ¬ s.chars <+: x :: l := by
        rw [hchars, List.cons_prefix_cons]
        exact fun h => hcx h.1
      rw [if_neg (fun h => hcx (hfirst.mp h))]
      simp [hpre]

/-- What `grep` prints of a line. -/
def hit (s fname : CString) (l : List UInt8) : List UInt8 :=
  if s.chars <:+: l then fname.chars ++ [58] ++ l ++ [10] else []

/-- What `grep` should print of a text. -/
def hits (s fname : CString) (t : List UInt8) : List UInt8 := eachLine 10 (hit s fname) t

theorem hit_nil (hs : Searchable s.chars) : hit s fname [] = [] := by
  rw [hit, if_neg (by rw [List.infix_nil]; exact hs.ne_nil)]

theorem hits_nil (hs : Searchable s.chars) : hits s fname [] = [] := by
  rw [hits, eachLine_of_not_mem (by simp), hit_nil hs]

theorem hits_append_newline (x y : List UInt8) :
    hits s fname (x ++ 10 :: y) = hits s fname x ++ hits s fname y := eachLine_append_sep x y

theorem hits_of_not_mem (h : 10 ∉ l) : hits s fname l = hit s fname l := eachLine_of_not_mem h

/-- The search of a line, and what is printed for it. -/
theorem printLine_eq (fname : CString) (hs : Searchable s.chars) (h : LiesAt data i l)
    (hend : data (i + l.length) = 0) :
    ((checkLine s data l.length i).bind fun found => if found then printLine fname data i
      else some []) = some (hit s fname l) := by
  rw [checkLine_eq hs h hend, Option.bind_some, hit]
  by_cases hin : s.chars <:+: l
  · rw [if_pos (decide_eq_true hin), if_pos hin, printLine, ece391Strlen_eq h hend,
      Option.bind_eq_bind, Option.bind_some, h.slice_eq]
  · rw [if_neg (by simpa using hin), if_neg hin]

/-! ## The lines of the buffer -/

/-- The unfinished last line is moved to the start of the buffer: there was a read, a line before it
ended, and the byte behind the text is no newline. -/
def Carries (g : GrepState) (cnt lineStart : Nat) (t : List UInt8) : Prop :=
  g.data g.last ≠ 10 ∧ cnt ≠ 0 ∧ (lineStart ≠ 0 ∨ 10 ∈ t)

/-- What the loop over the lines has made of the text `t` from `line_start` on. -/
structure LinesDone (s fname : CString) (cnt lineStart : Nat) (t : List UInt8) (g g' : GrepState) :
    Prop where
  offset : g'.offset = g.offset
  carried : Carries g cnt lineStart t →
    LiesAt g'.data 0 (lastLine 10 t) ∧ g'.last = (lastLine 10 t).length ∧
      ∀ y, g'.out ++ hits s fname (lastLine 10 t ++ y) = g.out ++ hits s fname (t ++ y)
  finished : ¬ Carries g cnt lineStart t → g'.last = 0 ∧ g'.out = g.out ++ hits s fname t
  behind : g'.data 1024 = if g.last = 1024 ∧ lastLine 10 t ≠ [] then 0 else g.data 1024

theorem LiesAt.firstLine (h : LiesAt data i t) : LiesAt data i (firstLine 10 t) := by
  rcases firstLine_cases 10 t with hl | ⟨u, hu⟩
  · rwa [hl]
  · rw [hu] at h
    exact h.left

/-- One pass of the loop, with the line that it finds. -/
theorem lineLoop_step (fname : CString) (cnt fuel : Nat) (hs : Searchable s.chars) {lineStart : Nat}
    {g : GrepState} {data : Nat → UInt8}
    (ht : LiesAt g.data lineStart t) (hlast : g.last = lineStart + t.length)
    (hl : firstLine 10 t = l) (hdata : Function.update g.data (lineStart + l.length) 0 = data) :
    lineLoop s fname cnt (fuel + 1) lineStart g =
      if g.data (lineStart + l.length) ≠ 10 ∧ cnt ≠ 0 ∧ lineStart ≠ 0 then
        (ece391Strcpy (grepBufsize + 1) data 0 lineStart).map fun data =>
          ⟨data, g.last - lineStart, g.out, g.offset⟩
      else if lineStart + l.length + 1 ≥ g.last then
        some ⟨data, 0, g.out ++ hit s fname l, g.offset⟩
      else
        lineLoop s fname cnt fuel (lineStart + l.length + 1)
          ⟨data, g.last, g.out ++ hit s fname l, g.offset⟩ := by
  have hline : LiesAt g.data lineStart l := hl ▸ ht.firstLine
  have hle := hline.le
  have hprint := printLine_eq fname hs (hline.update (.inr (Nat.le_refl _)) 0)
    (Function.update_self _ _ _)
  rw [hdata] at hprint
  rw [lineLoop, hlast, Nat.add_sub_cancel_left, scanLineEnd_eq g.data ht.le, ht.slice_eq, hl,
    Option.bind_eq_bind, Option.bind_some, loadData_eq hle, Option.bind_eq_bind, Option.bind_some,
    storeData_eq hle, Option.bind_eq_bind, Option.bind_some, hdata, Nat.add_sub_cancel_left]
  congr 1
  · exact Option.map_eq_bind.symm
  · simp only [Option.bind_eq_bind]
    rw [← Option.bind_assoc, hprint, Option.bind_some]

/-- The unfinished line is carried over. -/
theorem lineLoop_carry (hs : Searchable s.chars) {cnt fuel lineStart : Nat} {g : GrepState}
    (ht : LiesAt g.data lineStart t) (hnl : 10 ∉ t) (hlast : g.last = lineStart + t.length)
    (hne : t ≠ []) (hcarry : Carries g cnt lineStart t) :
    ∃ g', lineLoop s fname cnt (fuel + 1) lineStart g = some g' ∧
    LinesDone s fname cnt lineStart t g g' := by
  have hle := ht.le
  have hlen : 0 < t.length := List.length_pos_iff.mpr hne
  have hpos : lineStart ≠ 0 := hcarry.2.2.resolve_right hnl
  have htest : g.data (lineStart + t.length) ≠ 10 ∧ cnt ≠ 0 ∧ lineStart ≠ 0 :=
    ⟨hlast ▸ hcarry.1, hcarry.2.1, hpos⟩
  have hcopy := ece391Strcpy_eq (ht.update (.inr (Nat.le_refl _)) 0) (Function.update_self _ _ _)
    (Nat.pos_of_ne_zero hpos) (show t.length < grepBufsize + 1 by simp only [grepBufsize]; omega)
  have hstep := lineLoop_step fname cnt fuel hs ht hlast (firstLine_of_not_mem hnl) rfl
  rw [if_pos htest, hcopy, Option.map_some, hlast, Nat.add_sub_cancel_left] at hstep
  refine ⟨_, hstep, ⟨rfl, ?_, fun h => absurd hcarry h, ?_⟩⟩
  · intro _
    rw [lastLine_of_not_mem hnl]
    refine ⟨⟨?_, ht.nulFree, by omega⟩, rfl, fun y => rfl⟩
    rw [overwrite_append, slice_overwrite_of_lt (by omega), slice_overwrite]
  · have hlen : 0 + (t ++ [0]).length ≤ 1024 := by
      rw [List.length_append, List.length_singleton]
      omega
    rw [lastLine_of_not_mem hnl, hlast]
    simp only [overwrite_of_le hlen]
    by_cases hfull : lineStart + t.length = 1024
    · rw [if_pos ⟨hfull, hne⟩, hfull, Function.update_self]
    · rw [if_neg (fun h => hfull h.1), Function.update_of_ne (Ne.symm hfull)]

/-- The last line of the text is searched as it stands. -/
theorem lineLoop_finish (hs : Searchable s.chars) {cnt fuel lineStart : Nat} {g : GrepState}
    (ht : LiesAt g.data lineStart t) (hnl : 10 ∉ t) (hlast : g.last = lineStart + t.length)
    (hstart : lineStart = 0 ∨ t ≠ []) (hcarry : ¬ Carries g cnt lineStart t) :
    ∃ g', lineLoop s fname cnt (fuel + 1) lineStart g = some g' ∧
    LinesDone s fname cnt lineStart t g g' := by
  have hle := ht.le
  have htest : ¬ (g.data (lineStart + t.length) ≠ 10 ∧ cnt ≠ 0 ∧ lineStart ≠ 0) := fun h =>
    hcarry ⟨hlast ▸ h.1, h.2.1, .inl h.2.2⟩
  have hstep := lineLoop_step fname cnt fuel hs ht hlast (firstLine_of_not_mem hnl) rfl
  rw [if_neg htest, if_pos (by omega)] at hstep
  refine ⟨_, hstep, ⟨rfl, fun h => absurd h hcarry, fun _ => ⟨rfl, by rw [hits_of_not_mem hnl]⟩,
    ?_⟩⟩
  rw [lastLine_of_not_mem hnl, hlast]
  simp only
  by_cases hfull : lineStart + t.length = 1024
  · have hne : t ≠ [] := by
      rintro rfl
      rcases hstart with h | h
      · rw [h, List.length_nil] at hfull
        exact absurd hfull (by decide)
      · exact h rfl
    rw [if_pos ⟨hfull, hne⟩, hfull, Function.update_self]
  · rw [if_neg (fun h => hfull h.1), Function.update_of_ne (Ne.symm hfull)]

/-- The loop over the lines of the text. -/
theorem lineLoop_done (fname : CString) (cnt : Nat) (hs : Searchable s.chars) {fuel lineStart : Nat}
    {g : GrepState} (ht : LiesAt g.data lineStart t) (hlast : g.last = lineStart + t.length)
    (hstart : lineStart = 0 ∨ t ≠ []) (hf : t.length < fuel) :
    ∃ g', lineLoop s fname cnt fuel lineStart g = some g' ∧
    LinesDone s fname cnt lineStart t g g' := by
  induction fuel generalizing lineStart g t with
  | zero => exact absurd hf (Nat.not_lt_zero _)
  | succ fuel ih =>
    rcases firstLine_cases 10 t with hl | ⟨u, hu⟩
    · have hnl : 10 ∉ t := hl ▸ not_mem_firstLine 10 t
      by_cases hcarry : Carries g cnt lineStart t
      · have hne : t ≠ [] := by
          rintro rfl
          exact hcarry.2.2.elim (fun h => hstart.elim h fun h => h rfl) (by simp)
        exact lineLoop_carry hs ht hnl hlast hne hcarry
      · exact lineLoop_finish hs ht hnl hlast hstart hcarry
    · generalize hl : firstLine 10 t = l at hu
      have hle := ht.le
      have hparts : LiesAt g.data lineStart (l ++ 10 :: u) := hu ▸ ht
      obtain ⟨hnewline, -, hlt, hrest⟩ := LiesAt.cons_iff.mp hparts.right
      have htlen : t.length = l.length + (u.length + 1) := by
        rw [hu, List.length_append, List.length_cons]
      have hlastLine : lastLine 10 t = lastLine 10 u := by rw [hu, lastLine_append_sep]
      have hhits : ∀ y, hits s fname (t ++ y) = hit s fname l ++ hits s fname (u ++ y) := by
        intro y
        rw [hu, List.append_assoc, List.cons_append, hits_append_newline,
          hits_of_not_mem (hl ▸ not_mem_firstLine 10 t)]
      have hstep := lineLoop_step fname cnt fuel hs ht hlast hl rfl
      rw [if_neg fun h => h.1 hnewline] at hstep
      by_cases hnil : u = []
      · -- The text ends with this line.
        subst hnil
        rw [if_pos (by rw [hlast, htlen]; simp; omega)] at hstep
        have hlastNil : lastLine 10 t = [] := hlastLine
        have hnone : hits s fname ([] ++ []) = [] := hits_nil hs
        refine ⟨_, hstep, ⟨rfl, ?_, fun _ => ⟨rfl, ?_⟩, ?_⟩⟩
        · intro _
          rw [hlastNil]
          refine ⟨⟨rfl, by simp, by simp⟩, rfl, fun y => ?_⟩
          simp only [hhits, List.append_assoc]
        · have hall := hhits []
          rw [List.append_nil, hnone, List.append_nil] at hall
          rw [hall]
        · rw [if_neg fun h => h.2 hlastNil]
          exact Function.update_of_ne (by omega) _ _
      · have hdata : Function.update g.data (lineStart + l.length) 0 g.last = g.data g.last :=
          Function.update_of_ne (by omega) _ _
        have hulen : 0 < u.length := List.length_pos_iff.mpr hnil
        rw [if_neg (by omega)] at hstep
        obtain ⟨g', hg', hdone⟩ :=
          ih (g := ⟨Function.update g.data (lineStart + l.length) 0, g.last, g.out ++ hit s fname l,
            g.offset⟩) (hrest.update (.inl (by omega)) 0) (by simp only; omega)
          (.inr hnil) (by omega)
        have hcarry : Carries g cnt lineStart t ↔
            Carries ⟨Function.update g.data (lineStart + l.length) 0, g.last,
              g.out ++ hit s fname l, g.offset⟩ cnt (lineStart + l.length + 1) u := by
          have hmem : 10 ∈ t := by simp [hu]
          simp only [Carries, hdata, hmem, or_true, ne_eq, Nat.succ_ne_zero, not_false_eq_true,
            true_or]
        refine ⟨g', hstep.trans hg', ⟨hdone.offset, ?_, ?_, ?_⟩⟩
        · intro h
          obtain ⟨hlies, hlast', hout⟩ := hdone.carried (hcarry.mp h)
          rw [hlastLine]
          exact ⟨hlies, hlast', fun y => by rw [hout, hhits, List.append_assoc]⟩
        · intro h
          obtain ⟨hlast', hout⟩ := hdone.finished fun hc => h (hcarry.mpr hc)
          have hall := hhits []
          rw [List.append_nil, List.append_nil] at hall
          exact ⟨hlast', by rw [hout, hall, List.append_assoc]⟩
        · rw [hdone.behind, hlastLine]
          simp only [Function.update_of_ne (show 1024 ≠ lineStart + l.length by omega)]

end OreOS
