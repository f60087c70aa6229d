import OreOS.Fish.Frames
import OreOS.Machine.Lines

/-!
# Frames cell by cell

`add_frames` goes through its two files line by line, and through two lines character by character.
A file whose line has ended waits with `c = '\n'` until the other's has, and a file that has ended
is a file of empty lines. So what is added is what the lines of the two files, side by side and
filled up with blanks, have in each cell.
-/

namespace OreOS
open Machine

/-- What is added for two characters in a cell. -/
def cellBlink (junk : Blink) (row col : Nat) (c0 c1 : UInt8) : List Blink :=
  if c0 ≠ 32 ∨ c1 ≠ 32 then
    [{ junk with
      onChar := c0, offChar := c1, onLength := 15, offLength := 15
      location := BitVec.ofNat 16 (80 * row + col + 40) }]
  else []

/-- What is added for two lines in a row. -/
def rowBlinks (junk : Blink) (row : Nat) (l0 l1 : List UInt8) : List Blink :=
  sideBySide 32 (cellBlink junk row) 0 l0 l1

/-- What is added for two files. -/
def frameBlinks (junk : Blink) (f0 f1 : List UInt8) : List Blink :=
  sideBySide [] (rowBlinks junk) 0 (f0.splitOn 10) (f1.splitOn 10)

namespace FrameReader

/-- What is left of the line that is read. -/
def line (r : FrameReader) : List UInt8 := if r.c = 10 then [] else firstLine 10 r.unread

/-- The reader when the line is read. -/
def lineRead (r : FrameReader) : FrameReader :=
  if r.c = 10 then r
  else ⟨10, r.eof || !r.unread.contains 10, (r.unread.dropWhile (· ≠ 10)).tail⟩

/-- The lines that are left at the start of a row. -/
def lines (r : FrameReader) : List (List UInt8) := if r.eof then [] else r.unread.splitOn 10

/-- At the start of a row. -/
def AtRow (r : FrameReader) : Prop := r.c = if r.eof then 10 else 48

variable {r r0 r1 : FrameReader}

/-! ## One character -/

theorem not_mem_line (r : FrameReader) : 10 ∉ r.line := by
  unfold line
  split
  next => exact List.not_mem_nil
  next => exact not_mem_firstLine 10 r.unread

/-- A fetch takes the first character of the line, and a newline where there is none. -/
theorem fetch_spec (r : FrameReader) :
    r.fetch.c = r.line.headD 10 ∧ r.fetch.line = r.line.tail ∧ r.fetch.lineRead = r.lineRead := by
  obtain ⟨c, eof, unread⟩ := r
  by_cases hc : c = 10
  · subst hc
    exact ⟨rfl, rfl, rfl⟩
  · cases unread with
    | nil => simp [fetch, line, lineRead, firstLine, hc]
    | cons x rest =>
      by_cases hx : x = 10
      · subst hx
        simp [fetch, line, lineRead, firstLine, hc]
      · simp [fetch, line, lineRead, firstLine, hc, hx, Ne.symm hx]

theorem fetch_c_eq_newline : r.fetch.c = 10 ↔ r.line = [] := by
  rw [(fetch_spec r).1]
  cases h : r.line with
  | nil => simp
  | cons x l =>
    have hx : x ≠ 10 := by
      rintro rfl
      exact not_mem_line r (by rw [h]; exact List.mem_cons_self)
    simp [hx]

/-- The character in the cell. -/
theorem char_fetch (r : FrameReader) : r.fetch.char = r.line.headD 32 := by
  unfold char
  split
  next h =>
    rw [fetch_c_eq_newline.mp h]
    rfl
  next h =>
    obtain ⟨x, l, hl⟩ := List.exists_cons_of_ne_nil (fetch_c_eq_newline.not.mp h)
    rw [(fetch_spec r).1, hl]
    rfl

theorem char_ne_space : r.char ≠ 32 ↔ r.c ≠ 32 ∧ r.c ≠ 10 := by
  unfold char
  split
  next h => simp [h]
  next h => simp [h]

theorem addCell_eq (junk : Blink) (row col : Nat) (r0 r1 : FrameReader) :
    addCell junk row col r0 r1 = cellBlink junk row col r0.char r1.char := by
  simp only [addCell, cellBlink, char_ne_space, Nat.mul_comm row 80]

/-! ## One row -/

/-- A row ends behind the longer line, and adds what the two lines have in its cells. -/
theorem addRow_eq (junk : Blink) (row fuel col : Nat) (r0 r1 : FrameReader)
    (h0 : r0.line.length < fuel) (h1 : r1.line.length < fuel) :
    addRow junk row fuel col r0 r1 =
      some ((r0.lineRead, r1.lineRead), sideBySide 32 (cellBlink junk row) col r0.line
        r1.line) := by
  induction fuel generalizing col r0 r1 with
  | zero => exact absurd h0 (Nat.not_lt_zero _)
  | succ fuel ih =>
    obtain ⟨-, hline0, hread0⟩ := fetch_spec r0
    obtain ⟨-, hline1, hread1⟩ := fetch_spec r1
    have hstop := and_congr (fetch_c_eq_newline (r := r0)) (fetch_c_eq_newline (r := r1))
    rw [addRow]
    by_cases hend : r0.line = [] ∧ r1.line = []
    · have hstop0 : r0.fetch.lineRead = r0.fetch := if_pos (fetch_c_eq_newline.mpr hend.1)
      have hstop1 : r1.fetch.lineRead = r1.fetch := if_pos (fetch_c_eq_newline.mpr hend.2)
      rw [if_pos (hstop.mpr hend), hend.1, hend.2, sideBySide_nil, ← hread0, ← hread1,
        hstop0, hstop1]
    · have hmore := not_and_or.mp hend
      obtain ⟨hlen0, hlen1⟩ := length_tail_lt hmore h0 h1
      have hrest := ih (col + 1) r0.fetch r1.fetch (by rwa [hline0]) (by rwa [hline1])
      rw [if_neg (hstop.not.mpr hend), hrest, Option.map_some, hread0, hread1, hline0, hline1,
        addCell_eq, char_fetch, char_fetch, sideBySide_step hmore]

/-! ## All rows -/

theorem AtRow.c_ne_newline (h : r.AtRow) (heof : r.eof = false) : r.c ≠ 10 := by
  rw [h, heof]
  decide

theorem AtRow.c_eq_newline (h : r.AtRow) (heof : r.eof = true) : r.c = 10 := by
  rw [h, heof]
  rfl

theorem line_atRow (h : r.AtRow) : r.line = r.lines.headD [] := by
  unfold line lines
  cases heof : r.eof with
  | true =>
    rw [if_pos (h.c_eq_newline heof)]
    rfl
  | false =>
    rw [if_neg (h.c_ne_newline heof), if_neg (by decide)]
    rcases firstLine_cases 10 r.unread with hall | ⟨u, hu⟩
    · have hnot := hall ▸ not_mem_firstLine 10 r.unread
      rw [List.splitOn_eq_singleton hnot]
      exact hall
    · conv_rhs => rw [hu]
      rw [List.splitOn_append_cons_self_of_not_mem (not_mem_firstLine 10 r.unread)]
      rfl

/-- The end of a row takes the first line away. -/
theorem endRow_lineRead (h : r.AtRow) :
    r.lineRead.endRow.AtRow ∧ r.lineRead.endRow.lines = r.lines.tail := by
  refine ⟨rfl, ?_⟩
  cases heof : r.eof with
  | true =>
    have hread : r.lineRead = r := if_pos (h.c_eq_newline heof)
    simp [hread, endRow, lines, heof]
  | false =>
    have hread : r.lineRead = ⟨10, r.eof || !r.unread.contains 10,
        (r.unread.dropWhile (· ≠ 10)).tail⟩ :=
      if_neg (h.c_ne_newline heof)
    have hlines : r.lines = r.unread.splitOn 10 := by simp [lines, heof]
    rw [hread, hlines]
    rcases firstLine_cases 10 r.unread with hall | ⟨u, hu⟩
    · have hnot := hall ▸ not_mem_firstLine 10 r.unread
      rw [List.splitOn_eq_singleton hnot]
      simp [lines, endRow, hnot]
    · have hmem : 10 ∈ r.unread := by
        rw [hu]
        simp
      have hdrop : r.unread.dropWhile (· ≠ 10) = 10 :: u := by
        have happend := List.takeWhile_append_dropWhile (p := (· ≠ 10)) (l := r.unread)
        exact List.append_cancel_left (happend.trans hu)
      have hsplit : r.unread.splitOn 10 = firstLine 10 r.unread :: u.splitOn 10 := by
        conv_lhs => rw [hu]
        rw [List.splitOn_append_cons_self_of_not_mem (not_mem_firstLine 10 r.unread)]
      rw [hsplit, hdrop]
      simp [lines, endRow, heof, hmem]

theorem eof_eq_false : r.eof = false ↔ r.lines ≠ [] := by
  unfold lines
  cases heof : r.eof with
  | true => simp
  | false => simp [List.splitOn_ne_nil]

/-- The loop ends behind the longer file, and adds what the two files have in their cells. -/
theorem addRows_eq (junk : Blink) (cols fuel row : Nat) (r0 r1 : FrameReader) (hrow0 : r0.AtRow)
    (hrow1 : r1.AtRow) (hcols0 : ∀ l ∈ r0.lines, l.length < cols)
    (hcols1 : ∀ l ∈ r1.lines, l.length < cols) (hcols : 0 < cols)
    (h0 : r0.lines.length < fuel) (h1 : r1.lines.length < fuel) :
    addRows junk cols fuel row r0 r1 =
    some (sideBySide [] (rowBlinks junk) row r0.lines r1.lines) := by
  induction fuel generalizing row r0 r1 with
  | zero => exact absurd h0 (Nat.not_lt_zero _)
  | succ fuel ih =>
    have hloop := or_congr (eof_eq_false (r := r0)) (eof_eq_false (r := r1))
    rw [addRows]
    by_cases hmore : r0.lines ≠ [] ∨ r1.lines ≠ []
    · have hhead : ∀ ls : List (List UInt8), (∀ l ∈ ls, l.length < cols) →
          (ls.headD []).length < cols := by
        intro ls hls
        cases ls with
        | nil => exact hcols
        | cons l ls => exact hls l List.mem_cons_self
      have hadd := addRow_eq junk row cols 0 r0 r1 (by rw [line_atRow hrow0]; exact hhead _ hcols0)
        (by rw [line_atRow hrow1]; exact hhead _ hcols1)
      obtain ⟨hnext0, hlines0⟩ := endRow_lineRead hrow0
      obtain ⟨hnext1, hlines1⟩ := endRow_lineRead hrow1
      obtain ⟨hlen0, hlen1⟩ := length_tail_lt hmore h0 h1
      have hrest := ih (row + 1) r0.lineRead.endRow r1.lineRead.endRow hnext0 hnext1
        (by rw [hlines0]; exact fun l hl => hcols0 l (List.mem_of_mem_tail hl))
        (by rw [hlines1]; exact fun l hl => hcols1 l (List.mem_of_mem_tail hl))
        (by rwa [hlines0]) (by rwa [hlines1])
      rw [hlines0, hlines1] at hrest
      rw [if_pos (hloop.mpr hmore), hadd, line_atRow hrow0, line_atRow hrow1]
      simp only [Option.bind_eq_bind, Option.bind_some, hrest]
      rw [sideBySide_step hmore]
      rfl
    · rw [if_neg (hloop.not.mpr hmore)]
      obtain ⟨hnil0, hnil1⟩ := not_or.mp hmore
      rw [not_not] at hnil0 hnil1
      rw [hnil0, hnil1, sideBySide_nil]

end FrameReader

/-- For any two files the loops end, and the commands are, row by row, those of the cells in which
the two files do not both have a blank. -/
theorem addFrames_eq (junk : Blink) (f0 f1 : List UInt8) (fuel : Nat)
    (hfuel : f0.length + f1.length + 2 ≤ fuel) :
    addFrames junk fuel (some f0) (some f1) = some (frameBlinks junk f0 f1) := by
  have hshort : ∀ f : List UInt8, f.length + 2 ≤ fuel → ∀ l ∈ f.splitOn 10, l.length < fuel := by
    intro f hf l hl
    have hle := length_le_of_mem_splitOn hl
    omega
  have hfew0 := length_splitOn_le 10 f0
  have hfew1 := length_splitOn_le 10 f1
  exact FrameReader.addRows_eq junk fuel fuel 0 (.opened f0) (.opened f1) rfl rfl
    (hshort f0 (by omega)) (hshort f1 (by omega)) (by omega) (Nat.lt_of_le_of_lt hfew0 (by omega))
    (Nat.lt_of_le_of_lt hfew1 (by omega))

/-- The first file ends inside the second line of the second one. -/
theorem addFrames_uneven :
    addFrames .zero 9 (some [97, 10]) (some [32, 10, 32, 98, 10]) =
      some [⟨40, 97, 32, 15, 15, 0, 0, none⟩, ⟨121, 32, 98, 15, 15, 0, 0, none⟩] :=
  addFrames_eq .zero [97, 10] [32, 10, 32, 98, 10] 9 (by decide)

end OreOS
