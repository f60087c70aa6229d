import OreOS.Fish.Blink

/-!
# Reading the frames

Model of `add_frames` (`fish.c:79-149`). A file is the list of its bytes; `ece391_read` of one byte
takes the first of those that are left, and returns 0 where there are none. The structures that the
function passes to `mp1_ioctl` with `RTC_ADD` are its result, in order.
-/

namespace OreOS

/-- One of the two files: the variables `c` and `eof`, and what is left of the file. -/
structure FrameReader where
  c : UInt8
  eof : Bool
  unread : List UInt8
  deriving DecidableEq, Repr

namespace FrameReader

/-- The file when it is opened: `c = '0'`, `eof = 0`. -/
def opened (file : List UInt8) : FrameReader := ⟨48, false, file⟩

/-- `if(c != '\n') { num_bytes = ece391_read(fd, &c, 1); if(num_bytes == 0) { c =
'\n'; eof = 1; } }`. -/
def fetch (r : FrameReader) : FrameReader :=
  if r.c ≠ 10 then
    match r.unread with
    | [] => { r with c := 10, eof := true }
    | x :: rest => { r with c := x, unread := rest }
  else r

/-- `if(eof) { c = '\n'; ece391_close(fd); } else { c = '0'; }`. -/
def endRow (r : FrameReader) : FrameReader := { r with c := if r.eof then 10 else 48 }

/-- `(c == '\n') ? ' ' : c`. -/
def char (r : FrameReader) : UInt8 := if r.c = 10 then 32 else r.c

end FrameReader

/-- What is added where a row has `r0` and `r1` at a column. `blink_struct` is a local variable that
is not initialised; its other fields are `junk`. -/
def addCell (junk : Blink) (row col : Nat) (r0 r1 : FrameReader) : List Blink :=
  if (r0.c ≠ 32 ∧ r0.c ≠ 10) ∨ (r1.c ≠ 32 ∧ r1.c ≠ 10) then
    [{ junk with
      onChar := r0.char, offChar := r1.char, onLength := 15, offLength := 15
      location := BitVec.ofNat 16 (row * 80 + col + 40) }]
  else []

/-- The loop `while(1)` over the columns of a row (`fish.c:102-128`): the two readers behind it, and
what it adds. -/
def addRow (junk : Blink) (row : Nat) :
    Nat → Nat → FrameReader → FrameReader → Option ((FrameReader × FrameReader) × List Blink)
  | 0, _, _, _ => none
  | fuel + 1, col, r0, r1 =>
      let r0 := r0.fetch
      let r1 := r1.fetch
      if r0.c = 10 ∧ r1.c = 10 then some ((r0, r1), [])
      else
        (addRow junk row fuel (col + 1) r0 r1).map fun (rs, added) =>
          (rs, addCell junk row col r0 r1 ++ added)

/-- The loop over the rows (`fish.c:98-148`), with fuel for the columns of each. -/
def addRows (junk : Blink) (cols : Nat) :
    Nat → Nat → FrameReader → FrameReader → Option (List Blink)
  | 0, _, _, _ => none
  | fuel + 1, row, r0, r1 =>
      if r0.eof = false ∨ r1.eof = false then do
        let (rs, added) ← addRow junk row cols 0 r0 r1
        let rest ← addRows junk cols fuel (row + 1) rs.1.endRow rs.2.endRow
        return added ++ rest
      else some []

/-- `add_frames`. A file that cannot be opened is `none`; then the program halts. -/
def addFrames (junk : Blink) (fuel : Nat) (f0 f1 : Option (List UInt8)) : Option (List Blink) :=
  match f0, f1 with
  | some f0, some f1 => addRows junk fuel fuel 0 (.opened f0) (.opened f1)
  | _, _ => some []

end OreOS
