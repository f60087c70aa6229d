import OreOS.Grep.Proofs.Lines

/-!
# What `grep` prints of a file

The text in the buffer is the unfinished line of the reads before and what was read now. With a full
buffer the byte behind it is `data[1024]`, which nothing sets before the first full buffer that ends
inside a line; if it happens to be a newline, that line is searched in two parts. From then on the
byte is 0.
-/

namespace OreOS
open Machine

variable {s fname : CString} {content p r t : List UInt8} {g : GrepState} {fuel n : Nat}

/-- The unfinished line is `p`, and `r` has not been read. -/
structure GrepReading (content : List UInt8) (g : GrepState) (p r : List UInt8) : Prop where
  carry : LiesAt g.data 0 p
  last : g.last = p.length
  short : p.length < 1024
  rest : content.drop g.offset = r

/-- The first full buffer that ends inside a line ends after `n` bytes, if the buffers before it end
with newlines. -/
def FirstCut (file : List UInt8) (n : Nat) : Prop :=
  ∃ k, n = 1024 * (k + 1) ∧ n ≤ file.length ∧ lastLine 10 (file.take n) ≠ [] ∧
    ∀ j < k, lastLine 10 (file.take (1024 * (j + 1))) = []

/-- Lines have at most 1023 bytes: so has every part without a newline. -/
def ShortLines (t : List UInt8) : Prop := ∀ u, u <:+: t → 10 ∉ u → u.length ≤ 1023

theorem shortLines_of_splitOn (h : ∀ l ∈ t.splitOn 10, l.length ≤ 1023) : ShortLines t := by
  intro u hu hnl
  obtain ⟨l, hl, hul⟩ := exists_line_of_infix hnl hu
  exact hul.length_le.trans (h l hl)

theorem ShortLines.infix {u : List UInt8} (h : ShortLines t) (hu : u <:+: t) : ShortLines u :=
  fun v hv => h v (hv.trans hu)

/-! ## One read -/

/-- The state in which the loop over the lines begins. -/
def afterRead (g : GrepState) (bytes : List UInt8) : GrepState :=
  ⟨overwrite g.data g.last bytes, g.last + bytes.length, g.out, g.offset + bytes.length⟩

theorem afterRead_liesAt (h : GrepReading content g p r) (h0 : 0 ∉ r) :
    LiesAt (afterRead g (r.take (1024 - p.length))).data 0 (p ++ r.take (1024 - p.length)) := by
  have hshort := h.short
  have hlen := List.length_take_le (1024 - p.length) r
  rw [afterRead, h.last]
  exact h.carry.append (fun hmem => h0 (List.mem_of_mem_take hmem)) (by omega)

theorem readLoop_step (fname : CString) (hs : Searchable s.chars) (h : GrepReading content g p r)
    (h0 : 0 ∉ r) (fuel : Nat) (ht : p ++ r.take (1024 - p.length) = t) :
    ∃ g', LinesDone s fname (r.take (1024 - p.length)).length 0 t
    (afterRead g (r.take (1024 - p.length))) g' ∧
      readLoop s fname (fullReads content) (fuel + 1) g =
        if (r.take (1024 - p.length)).length = 0 then some (0, g'.out)
        else readLoop s fname (fullReads content) fuel g' := by
  have hlies := afterRead_liesAt h h0
  rw [ht] at hlies
  have htlen : t.length ≤ 1024 := by simpa using hlies.le
  obtain ⟨g', hg', hdone⟩ := lineLoop_done fname (r.take (1024 - p.length)).length hs hlies
    (by rw [afterRead, ← ht, h.last, List.length_append, Nat.zero_add]) (.inl rfl)
    (show t.length < grepBufsize + 2 by simp only [grepBufsize]; omega)
  refine ⟨g', hdone, ?_⟩
  have hread : (fullReads content).read g.offset (grepBufsize - g.last) =
      some (r.take (1024 - p.length)) := by
    simp only [fullReads]
    rw [h.rest, h.last]
    rfl
  rw [readLoop, hread]
  simp only
  rw [show (⟨overwrite g.data g.last (r.take (1024 - p.length)),
    g.last + (r.take (1024 - p.length)).length, g.out,
    g.offset + (r.take (1024 - p.length)).length⟩ : GrepState) =
    afterRead g (r.take (1024 - p.length)) from rfl, hg', Option.bind_eq_bind, Option.bind_some]
  rfl

/-- What has not been read after a read. -/
theorem GrepReading.drop {k cnt : Nat} {g' : GrepState} (h : GrepReading content g p r)
    (hdone : LinesDone s fname cnt 0 t (afterRead g (r.take k)) g') :
    content.drop g'.offset = r.drop k := by
  rw [hdone.offset, afterRead, ← List.drop_drop, h.rest, List.length_take]
  rcases Nat.le_total k r.length with hle | hge
  · rw [Nat.min_eq_left hle]
  · rw [Nat.min_eq_right hge, List.drop_length, List.drop_eq_nil_of_le hge]

/-- After a read whose unfinished line is carried over. -/
theorem GrepReading.carried {g' : GrepState} (h : GrepReading content g p r) (h0 : 0 ∉ r)
    (ht : p ++ r.take (1024 - p.length) = t)
    (hdone : LinesDone s fname (r.take (1024 - p.length)).length 0 t
      (afterRead g (r.take (1024 - p.length))) g')
    (hcarry : Carries (afterRead g (r.take (1024 - p.length)))
      (r.take (1024 - p.length)).length 0 t) :
    GrepReading content g' (lastLine 10 t) (r.drop (1024 - p.length)) := by
  obtain ⟨hlies, hlast, -⟩ := hdone.carried hcarry
  have htlen := (afterRead_liesAt h h0).le
  rw [ht] at htlen
  have hlt := lastLine_length_lt (hcarry.2.2.resolve_left (fun h => h rfl))
  exact ⟨hlies, hlast, by omega, h.drop hdone⟩

/-- After a read whose text is all searched. -/
theorem GrepReading.finished {k cnt : Nat} {g' : GrepState} (h : GrepReading content g p r)
    (hdone : LinesDone s fname cnt 0 t (afterRead g (r.take k)) g')
    (hcarry : ¬ Carries (afterRead g (r.take k)) cnt 0 t) : GrepReading content g' [] (r.drop k) :=
  ⟨⟨rfl, by simp, by simp⟩, (hdone.finished hcarry).1, by simp, h.drop hdone⟩

/-- At the end of the file the unfinished line is searched. -/
theorem readLoop_end (hs : Searchable s.chars) (h : GrepReading content g p []) (fuel : Nat) :
    readLoop s fname (fullReads content) (fuel + 1) g = some (0, g.out ++ hits s fname p) := by
  obtain ⟨g', hdone, hread⟩ := readLoop_step fname hs h (by simp) fuel rfl
  have hcarry : ¬ Carries (afterRead g (List.take (1024 - p.length) []))
      (List.take (1024 - p.length)
      ([] : List UInt8)).length 0 (p ++ List.take (1024 - p.length) []) := by
    intro hc
    exact hc.2.1 (by simp)
  rw [hread, if_pos (by simp), (hdone.finished hcarry).2]
  simp [afterRead]

/-- The rest of the file fits into the buffer. -/
theorem readLoop_fits (hs : Searchable s.chars) (h : GrepReading content g p r) (h0 : 0 ∉ r)
    (hfits : p.length + r.length ≤ 1024) (fuel : Nat) :
    readLoop s fname (fullReads content) (fuel + 2) g =
    some (0, g.out ++ hits s fname (p ++ r)) := by
  by_cases hr : r = []
  · subst hr
    rw [List.append_nil]
    exact readLoop_end hs h (fuel + 1)
  · have htake : r.take (1024 - p.length) = r := List.take_of_length_le (by omega)
    have hdrop : r.drop (1024 - p.length) = [] := List.drop_eq_nil_of_le (by omega)
    have hpos : r.length ≠ 0 := fun h => hr (List.length_eq_zero_iff.mp h)
    obtain ⟨g', hdone, hread⟩ := readLoop_step fname hs h h0 (fuel + 1) rfl
    rw [htake] at hdone hread
    rw [hread, if_neg hpos]
    by_cases hcarry : Carries (afterRead g r) r.length 0 (p ++ r)
    · have hnext : GrepReading content g' (lastLine 10 (p ++ r)) [] := by
        have hdone' : LinesDone s fname (r.take (1024 - p.length)).length 0
            (p ++ r.take (1024 - p.length))
            (afterRead g (r.take (1024 - p.length))) g' := by rwa [htake]
        have hnext := h.carried h0 rfl hdone' (by rwa [htake])
        rwa [htake, hdrop] at hnext
      have hout := (hdone.carried hcarry).2.2 []
      rw [List.append_nil, List.append_nil] at hout
      rw [readLoop_end hs hnext fuel, hout]
      rfl
    · have hnext : GrepReading content g' [] [] := by
        have hdone' : LinesDone s fname r.length 0 (p ++ r) (afterRead g (r.take (1024 - p.length)))
            g' := by
          rwa [htake]
        have hnext := h.finished hdone' (by rwa [htake])
        rwa [hdrop] at hnext
      rw [readLoop_end hs hnext fuel, (hdone.finished hcarry).2, hits_nil hs, List.append_nil]
      rfl

/-- The byte behind a full buffer is the one that was there before the read. -/
theorem afterRead_behind (h : GrepReading content g p r) :
    (afterRead g (r.take (1024 - p.length))).data 1024 = g.data 1024 := by
  have hshort := h.short
  have hlen := List.length_take_le (1024 - p.length) r
  exact overwrite_of_le (by rw [h.last]; omega)

/-- The rest of the file does not fit: the buffer is full. -/
theorem afterRead_full (h : GrepReading content g p r) (hfull : 1024 < p.length + r.length) :
    (r.take (1024 - p.length)).length = 1024 - p.length ∧
      (afterRead g (r.take (1024 - p.length))).last = 1024 := by
  have hshort := h.short
  have hlen : (r.take (1024 - p.length)).length = 1024 - p.length := by
    rw [List.length_take]
    omega
  refine ⟨hlen, ?_⟩
  rw [afterRead, h.last, hlen]
  simp only
  omega

/-- All of the file, when the byte behind the buffer is no newline. -/
theorem readLoop_whole (fname : CString) (hs : Searchable s.chars) (h : GrepReading content g p r)
    (h0 : 0 ∉ r)
    (hlines : ShortLines (p ++ r)) (hbehind : g.data 1024 ≠ 10) (hf : r.length + 1 < fuel) :
    readLoop s fname (fullReads content) fuel g = some (0, g.out ++ hits s fname (p ++ r)) := by
  induction fuel generalizing g p r with
  | zero => exact absurd hf (Nat.not_lt_zero _)
  | succ fuel ih =>
    rcases Nat.lt_or_ge 1024 (p.length + r.length) with hfull | hfits
    · have hshort := h.short
      obtain ⟨hlen, hlast⟩ := afterRead_full h hfull
      obtain ⟨g', hdone, hread⟩ := readLoop_step fname hs h h0 fuel rfl
      have hsplit : p ++ r.take (1024 - p.length) ++ r.drop (1024 - p.length) = p ++ r := by
        rw [List.append_assoc, List.take_append_drop]
      have hnl : 10 ∈ p ++ r.take (1024 - p.length) := by
        by_contra hnl
        have hle := hlines (p ++ r.take (1024 - p.length)) ⟨[], r.drop (1024 - p.length), hsplit⟩
          hnl
        rw [List.length_append, hlen] at hle
        omega
      have hcarry : Carries (afterRead g (r.take (1024 - p.length)))
          (r.take (1024 - p.length)).length 0 (p ++ r.take (1024 - p.length)) :=
        ⟨by rwa [hlast, afterRead_behind h], by omega, .inr hnl⟩
      have hbehind' : g'.data 1024 ≠ 10 := by
        rw [hdone.behind, afterRead_behind h]
        split
        · decide
        · exact hbehind
      have hlines' : ShortLines (lastLine 10 (p ++ r.take (1024 - p.length)) ++ r.drop
          (1024 - p.length)) := by
        apply hlines.infix
        rw [← hsplit]
        rcases lastLine_cases 10 (p ++ r.take (1024 - p.length)) with hl | ⟨u, hu⟩
        · rw [hl]
        · refine ⟨u ++ [10], [], ?_⟩
          conv_rhs => rw [hu]
          simp
      rw [hread, if_neg (by omega), ih (h.carried h0 rfl hdone hcarry)
        (fun hmem => h0 (List.mem_of_mem_drop hmem)) hlines'
        hbehind' (by rw [List.length_drop]; omega), (hdone.carried hcarry).2.2, hsplit]
      rfl
    · obtain ⟨fuel, rfl⟩ := Nat.exists_eq_add_of_lt (show 0 < fuel by omega)
      exact readLoop_fits hs h h0 hfits _

/-! ## The line that is cut -/

theorem firstCut_head (hlen : 1024 ≤ r.length) (hcut : lastLine 10 (r.take 1024) ≠ []) :
    FirstCut r n ↔ n = 1024 := by
  constructor
  · rintro ⟨k, rfl, -, -, hbefore⟩
    cases k with
    | zero => rfl
    | succ k => exact absurd (hbefore 0 (Nat.succ_pos k)) hcut
  · rintro rfl
    exact ⟨0, rfl, hlen, hcut, fun j hj => absurd hj (Nat.not_lt_zero j)⟩

/-- The last line of the text up to a later boundary. -/
theorem lastLine_take_skip (hlen : 1024 ≤ r.length) (hcut : lastLine 10 (r.take 1024) = [])
    (m : Nat) :
    lastLine 10 (r.take (1024 + m)) = lastLine 10 ((r.drop 1024).take m) := by
  have hne : r.take 1024 ≠ [] := by
    rw [← List.length_pos_iff, List.length_take]
    omega
  obtain ⟨u, hu⟩ := eq_concat_of_lastLine_eq_nil hcut hne
  rw [List.take_add, hu, List.append_assoc, List.singleton_append, lastLine_append_sep]

theorem firstCut_skip (hlen : 1024 ≤ r.length) (hcut : lastLine 10 (r.take 1024) = []) :
    FirstCut r n ↔ ∃ m, n = 1024 + m ∧ FirstCut (r.drop 1024) m := by
  have hskip := lastLine_take_skip hlen hcut
  constructor
  · rintro ⟨k, rfl, hle, hne, hbefore⟩
    cases k with
    | zero => exact absurd hcut hne
    | succ k =>
      refine ⟨1024 * (k + 1), by omega, k, rfl, by rw [List.length_drop]; omega, ?_, fun j hj => ?_⟩
      · rwa [← hskip, show 1024 + 1024 * (k + 1) = 1024 * (k + 1 + 1) by omega]
      · rw [← hskip, show 1024 + 1024 * (j + 1) = 1024 * (j + 1 + 1) by omega]
        exact hbefore (j + 1) (by omega)
  · rintro ⟨m, rfl, k, rfl, hle, hne, hbefore⟩
    rw [List.length_drop] at hle
    have hle' : 1024 + 1024 * (k + 1) ≤ r.length := by
      rw [Nat.add_comm]
      exact Nat.add_le_of_le_sub hlen hle
    have hne' : lastLine 10 (r.take (1024 + 1024 * (k + 1))) ≠ [] := by rwa [hskip]
    have hbefore' : ∀ j < k + 1, lastLine 10 (r.take (1024 * (j + 1))) = [] := by
      intro j hj
      cases j with
      | zero => exact hcut
      | succ j =>
        rw [show 1024 * (j + 1 + 1) = 1024 + 1024 * (j + 1) by omega, hskip]
        exact hbefore j (by omega)
    exact ⟨k + 1, by omega, hle', hne', hbefore'⟩

/-- A text that ends with a newline. -/
theorem hits_append_of_ended (hs : Searchable s.chars) {x y : List UInt8}
    (hx : lastLine 10 x = []) :
    hits s fname (x ++ y) = hits s fname x ++ hits s fname y := by
  refine (eachLine_append_iff x y).mpr ?_ |>.symm
  rw [hx, hit_nil hs, List.nil_append, List.nil_append]

/-- With a newline behind the buffer, the line at the first cut is searched in two parts. -/
theorem readLoop_cut (fname : CString) (hs : Searchable s.chars) (h : GrepReading content g [] r)
    (h0 : 0 ∉ r) (hlines : ShortLines r) (hbehind : g.data 1024 = 10) (hf : r.length + 1 < fuel) :
    ∃ o, readLoop s fname (fullReads content) fuel g = some (0, g.out ++ o) ∧
      (∀ n, FirstCut r n → o = hits s fname (r.take n) ++ hits s fname (r.drop n)) ∧
      ((∀ n, ¬ FirstCut r n) → o = hits s fname r) := by
  induction fuel generalizing g r with
  | zero => exact absurd hf (Nat.not_lt_zero _)
  | succ fuel ih =>
    rcases Nat.lt_or_ge 1024 r.length with hfull | hfits
    · have h1024 : 1024 - ([] : List UInt8).length = 1024 := rfl
      obtain ⟨hlen, hlast⟩ := afterRead_full h (by simpa using hfull)
      obtain ⟨g', hdone, hread⟩ := readLoop_step fname hs h h0 fuel rfl
      have hbehind1 := afterRead_behind h
      rw [List.nil_append, h1024] at hdone
      rw [h1024] at hlen hlast hread hbehind1
      have hcarry : ¬ Carries (afterRead g (r.take 1024)) (r.take 1024).length 0 (r.take 1024) := by
        intro hc
        rw [Carries, hlast, hbehind1] at hc
        exact hc.1 hbehind
      have hnext := h.finished hdone hcarry
      obtain ⟨hlast', hout⟩ := hdone.finished hcarry
      have hbehind' := hdone.behind
      rw [hbehind1, hbehind] at hbehind'
      have hlines' : ShortLines (r.drop 1024) := hlines.infix (List.drop_suffix 1024 r).isInfix
      have h0' : 0 ∉ r.drop 1024 := fun hmem => h0 (List.mem_of_mem_drop hmem)
      have hf' : (r.drop 1024).length + 1 < fuel := by
        rw [List.length_drop]
        omega
      rw [hread, if_neg (by omega)]
      by_cases hcut : lastLine 10 (r.take 1024) = []
      · rw [if_neg fun h => h.2 hcut] at hbehind'
        obtain ⟨o, ho, hcuts, hnone⟩ := ih hnext h0' hlines' hbehind' hf'
        refine ⟨hits s fname (r.take 1024) ++ o, by rw [ho, hout, List.append_assoc]; rfl,
          fun n hn => ?_, fun hn => ?_⟩
        · obtain ⟨m, rfl, hm⟩ := (firstCut_skip (Nat.le_of_lt hfull) hcut).mp hn
          rw [hcuts m hm, List.take_add, hits_append_of_ended hs hcut, List.append_assoc,
            List.drop_drop]
        · rw [hnone fun m hm => hn (1024 + m)
            ((firstCut_skip (Nat.le_of_lt hfull) hcut).mpr ⟨m, rfl, hm⟩), ← hits_append_of_ended hs
            hcut, List.take_append_drop]
      · rw [if_pos ⟨hlast, hcut⟩] at hbehind'
        have hwhole := readLoop_whole fname hs hnext h0' hlines' (by rw [hbehind']; decide) hf'
        rw [List.nil_append] at hwhole
        refine ⟨hits s fname (r.take 1024) ++ hits s fname (r.drop 1024),
          by rw [hwhole, hout, List.append_assoc]; rfl, fun n hn => ?_, fun hn => ?_⟩
        · rw [(firstCut_head (Nat.le_of_lt hfull) hcut).mp hn]
        · exact absurd ((firstCut_head (Nat.le_of_lt hfull) hcut).mpr rfl) (hn 1024)
    · obtain ⟨fuel, rfl⟩ := Nat.exists_eq_add_of_lt (show 0 < fuel by omega)
      refine ⟨hits s fname r, readLoop_fits hs h h0 (by simpa using hfits) _, fun n hn => ?_,
        fun _ => rfl⟩
      obtain ⟨k, rfl, -⟩ := hn
      have hle : r.length ≤ 1024 * (k + 1) := by omega
      rw [List.take_of_length_le hle, List.drop_eq_nil_of_le hle, hits_nil hs, List.append_nil]

/-- A search in two parts prints the same as the search of the line, if there is no second part or
the line does not contain the search string. -/
theorem hit_append_iff (hs : Searchable s.chars) {x y : List UInt8} (hx : x ≠ []) :
    hit s fname x ++ hit s fname y = hit s fname (x ++ y) ↔ y = [] ∨ ¬ s.chars <:+: x ++ y := by
  constructor
  · intro heq
    by_contra hboth
    obtain ⟨hy, hin⟩ := not_or.mp hboth
    -- The line is printed, so the parts are printed at another length.
    have hxlen := List.length_pos_iff.mpr hx
    have hylen := List.length_pos_iff.mpr hy
    have hlen := congrArg List.length heq
    rw [hit, hit, hit, if_pos (not_not.mp hin)] at hlen
    -- cases: which of the two parts contains the search string
    split at hlen <;> split at hlen <;>
      simp only [List.length_append, List.length_cons, List.length_nil] at hlen <;> omega
  · rintro (rfl | hnot)
    · rw [hit_nil hs, List.append_nil, List.append_nil]
    · have hxnot : ¬ s.chars <:+: x := fun h => hnot (h.trans (List.prefix_append x y).isInfix)
      have hynot : ¬ s.chars <:+: y := fun h => hnot (h.trans (List.suffix_append x y).isInfix)
      rw [hit, hit, hit, if_neg hnot, if_neg hxnot, if_neg hynot]
      rfl

/-- The part of the line before the end of the first full buffer that is inside a line, and the part
behind it, do not make a line that contains the search string. -/
def NotInCut (s : CString) (file : List UInt8) (n : Nat) : Prop :=
  firstLine 10 (file.drop n) = [] ∨ ¬ s.chars <:+: lastLine 10 (file.take n) ++ firstLine 10
  (file.drop n)

theorem grepReading_start (file : List UInt8) (data : Nat → UInt8) :
    GrepReading file ⟨data, 0, [], 0⟩ [] file :=
  ⟨⟨rfl, by simp, by simp⟩, rfl, by simp, rfl⟩

/-- With a newline in `data[1024]` and a full buffer that ends inside a line, the line
that is cut decides. -/
theorem doOneFile_cut {s : CString} (fname : CString) {file : List UInt8} {data : Nat → UInt8}
    (hs : Searchable s.chars) (h0 : 0 ∉ file) (hlines : ∀ l ∈ file.splitOn 10, l.length ≤ 1023)
    (hf : file.length + 1 < fuel) (hbehind : data 1024 = 10) (hn : FirstCut file n) :
    doOneFile s fname (fullReads file) data fuel = some (0, hits s fname file) ↔
    NotInCut s file n := by
  obtain ⟨o, ho, hcuts, -⟩ :=
    readLoop_cut fname hs (grepReading_start file data) h0 (shortLines_of_splitOn hlines) hbehind hf
  have hne : lastLine 10 (file.take n) ≠ [] := by
    obtain ⟨k, rfl, -, hne, -⟩ := hn
    exact hne
  change readLoop s fname (fullReads file) fuel ⟨data, 0, [], 0⟩ = _ ↔ _
  rw [ho, List.nil_append, Option.some.injEq, Prod.mk.injEq, hcuts n hn,
    NotInCut, ← hit_append_iff hs hne, ← eachLine_append_iff, List.take_append_drop]
  exact and_iff_right rfl

/-- `do_one_file` ends, stays inside `data` and prints `fname:line` for exactly the lines that
contain the search string, in order, if and only if `data[1024]` does not start as a newline or the
first full buffer that ends inside a line does not cut a line that contains the search string. -/
theorem grep_exact_iff (s fname : CString) (file : List UInt8) (data : Nat → UInt8) {fuel : Nat}
    (hs : Searchable s.chars) (h0 : 0 ∉ file) (hlines : ∀ l ∈ file.splitOn 10, l.length ≤ 1023)
    (hf : file.length + 1 < fuel) :
    doOneFile s fname (fullReads file) data fuel =
    some (0, (file.splitOn 10).flatMap (hit s fname)) ↔
      (data 1024 = 10 → ∀ n, FirstCut file n → NotInCut s file n) := by
  have hstart := grepReading_start file data
  have hshort := shortLines_of_splitOn hlines
  by_cases hbehind : data 1024 = 10
  · constructor
    · exact fun h _ n hn => (doOneFile_cut fname hs h0 hlines hf hbehind hn).mp h
    · intro h
      by_cases hcut : ∃ n, FirstCut file n
      · obtain ⟨n, hn⟩ := hcut
        exact (doOneFile_cut fname hs h0 hlines hf hbehind hn).mpr (h hbehind n hn)
      · obtain ⟨o, ho, -, hnone⟩ := readLoop_cut fname hs hstart h0 hshort hbehind hf
        rw [hnone fun n hn => hcut ⟨n, hn⟩] at ho
        exact ho
  · exact iff_of_true (readLoop_whole fname hs hstart h0 hshort hbehind hf) fun h =>
      absurd h hbehind

/-- A search for `b` in the lines `ab` and `c`. -/
theorem grep_exact_two_lines :
    doOneFile ⟨[98], by decide⟩ ⟨[102], by decide⟩ (fullReads [97, 98, 10, 99]) (fun _ => 10) 6 =
        some (0, ([97, 98, 10, 99].splitOn 10).flatMap (hit ⟨[98], by decide⟩ ⟨[102], by decide⟩)) ↔
      ((10 : UInt8) = 10 → ∀ n, FirstCut [97, 98, 10, 99] n →
        NotInCut ⟨[98], by decide⟩ [97, 98, 10, 99] n) :=
  grep_exact_iff _ _ _ (fun _ => 10) ⟨by decide, List.forall_mem_singleton.mpr (by decide)⟩
    (by decide) (by decide) (by decide)

/-- A line of 500 bytes and one of 524 bytes, whose last byte is the first one behind the buffer. -/
theorem grep_not_exact : ¬ ∀ (s fname : CString) (file : List UInt8) (data : Nat → UInt8)
    (fuel : Nat), Searchable s.chars → 0 ∉ file → (∀ l ∈ file.splitOn 10, l.length ≤ 1023) →
    file.length + 1 < fuel →
      doOneFile s fname (fullReads file) data fuel =
      some (0, (file.splitOn 10).flatMap (hit s fname)) := by
  intro h
  have hmem : ∀ k, ∀ c ∈ List.replicate k (97 : UInt8), c = 97 :=
    fun k c hc => List.eq_of_mem_replicate hc
  obtain ⟨x, hx, hxlen⟩ : ∃ x : List UInt8, (∀ c ∈ x, c = 97) ∧ x.length = 500 :=
    ⟨List.replicate 500 97, hmem 500, List.length_replicate⟩
  obtain ⟨y, hy, hylen⟩ : ∃ y : List UInt8, (∀ c ∈ y, c = 97) ∧ y.length = 523 :=
    ⟨List.replicate 523 97, hmem 523, List.length_replicate⟩
  have hxnl : 10 ∉ x := fun hc => absurd (hx 10 hc) (by decide)
  have hynl : 10 ∉ y := fun hc => absurd (hy 10 hc) (by decide)
  have hbnl : 10 ∉ y ++ [98] := by simp [hynl]
  have hs : Searchable [98] := ⟨by decide, List.forall_mem_singleton.mpr (by decide)⟩
  have h0 : 0 ∉ x ++ 10 :: (y ++ [98]) := by
    have hx0 : 0 ∉ x := fun hc => absurd (hx 0 hc) (by decide)
    have hy0 : 0 ∉ y := fun hc => absurd (hy 0 hc) (by decide)
    simp [hx0, hy0]
  have hlines : ∀ l ∈ (x ++ 10 :: (y ++ [98])).splitOn 10, l.length ≤ 1023 := by
    rw [List.splitOn_append_cons_self_of_not_mem hxnl, List.splitOn_eq_singleton hbnl]
    simp [hxlen, hylen]
  have hlen : (x ++ 10 :: (y ++ [98])).length = 1025 := by simp [hxlen, hylen]
  have hparts : x ++ 10 :: (y ++ [98]) = (x ++ 10 :: y) ++ [98] := by simp
  have htake : (x ++ 10 :: (y ++ [98])).take 1024 = x ++ 10 :: y := by
    rw [hparts]
    exact List.take_left' (by simp [hxlen, hylen])
  have hdrop : (x ++ 10 :: (y ++ [98])).drop 1024 = [98] := by
    rw [hparts]
    exact List.drop_left' (by simp [hxlen, hylen])
  have hlast : lastLine 10 (x ++ 10 :: y) = y := by
    rw [lastLine_append_sep, lastLine_of_not_mem hynl]
  have hcut : FirstCut (x ++ 10 :: (y ++ [98])) 1024 := by
    refine (firstCut_head (by rw [hlen]; decide) ?_).mpr rfl
    rw [htake, hlast]
    rintro rfl
    exact absurd hylen (by decide)
  have hexact := h ⟨[98], by decide⟩ ⟨[102], by decide⟩ _ (fun _ => 10) 2000 hs h0
    hlines (by rw [hlen]; decide)
  rcases (doOneFile_cut _ hs h0 hlines (by rw [hlen]; decide) rfl hcut).mp hexact with hnil | hnot
  · rw [hdrop] at hnil
    exact absurd hnil (by decide)
  · rw [htake, hdrop, hlast] at hnot
    exact hnot (List.suffix_append _ _).isInfix

end OreOS
