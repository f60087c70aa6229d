import OreOS.Keyboard

/-!
# What a step does to the line buffers

One lemma per operation of the keyboard: the state it leads to, and when it is defined. A row of
`buf` is written at an index below 1024 here, so the rows do not overlap.
-/

namespace OreOS
open Machine Keyboard

theorem offset_inj {t u : Fin 6} {i j : Nat} (hi : i < bufSize) (hj : j < bufSize) :
    offset t i = offset u j ↔ t = u ∧ i = j := by
  unfold offset bufSize at *
  constructor
  · intro h
    have ht : t.val = u.val := by omega
    exact ⟨Fin.ext ht, by omega⟩
  · rintro ⟨rfl, rfl⟩
    rfl

theorem offset_lt {i : Nat} (t : Fin 6) (hi : i < bufSize) : offset t i < bufBytes := by
  unfold offset bufBytes bufSize at *
  have := t.isLt
  omega

/-- The last byte of `buf` is the last of its row. -/
theorem last_ne_offset {i : Nat} (t : Fin 6) (hi : i < bufSize - 1) :
    bufBytes - 1 ≠ offset t i := by
  have := t.isLt
  unfold bufBytes offset bufSize at *
  omega

section setIndex
variable (k : Keyboard) (i : Nat)

@[simp] theorem setIndex_index : (k.setIndex i).index = i := by
  simp [Keyboard.index, setIndex]

theorem setIndex_bufIndex (t : Fin 6) :
    (k.setIndex i).bufIndex t = if t = k.active then i else k.bufIndex t := by
  simp [setIndex, Function.update_apply]

end setIndex

/-- The state after `buf[active][i] = x`. -/
def Keyboard.put (i : Nat) (x : UInt8) (k : Keyboard) : Keyboard :=
  { k with
    buf := Function.update k.buf (offset k.active i) x
    written := k.written ++ [(k.active, i)] }

section put
variable (k : Keyboard) (i : Nat) (x : UInt8)

@[simp] theorem put_bufIndex : (k.put i x).bufIndex = k.bufIndex := rfl

theorem put_buf (a : Nat) :
    (k.put i x).buf a = if a = offset k.active i then x else k.buf a := by
  simp [put, Function.update_apply]

theorem put_last (hi : i < bufSize - 1) : (k.put i x).buf (bufBytes - 1) = k.buf (bufBytes - 1) :=
  (put_buf k i x _).trans (if_neg (last_ne_offset k.active hi))

theorem put_row {i j : Nat} (hi : i < bufSize) (hj : j < bufSize) (t : Fin 6) :
    (k.put i x).row t j = if t = k.active ∧ j = i then x else k.row t j := by
  simp only [row, put_buf, offset_inj hj hi]

end put

/-- The state after a character was added to the row of the active terminal. -/
def Keyboard.pushed (x : UInt8) (k : Keyboard) : Keyboard :=
  (k.put k.index x).setIndex (k.index + 1)

/-- The state after the last character of that row was replaced by a blank behind its end. -/
def Keyboard.dropped (k : Keyboard) : Keyboard := (k.setIndex (k.index - 1)).put (k.index - 1) 32

theorem assign_eq {k : Keyboard} {i : Nat} (x : UInt8) (h : i < bufSize) :
    k.assign i x = some (k.put i x) := by
  simp [assign, put, offset_lt k.active h]

theorem push_eq {k : Keyboard} (x : UInt8) (h : k.index < bufSize) :
    k.push x = some (k.pushed x) := by
  simp [push, assign_eq x h, pushed]

/-- The index after a push counts one character more, whether or not it is in the row. -/
theorem push_index {k k' : Keyboard} {x : UInt8} (h : k.push x = some k') :
    k'.active = k.active ∧ k'.index = k.index + 1 := by
  simp only [push, assign, Option.bind_eq_bind, Option.bind_eq_some_iff] at h
  obtain ⟨m, hm, hk'⟩ := h
  split at hm
  next =>
    cases hm
    cases hk'
    exact ⟨rfl, setIndex_index _ _⟩
  next => cases hm

theorem pushBlanks_index {n : Nat} {k k' : Keyboard} (h : k.pushBlanks n = some k') :
    k'.active = k.active ∧ k'.index = k.index + n := by
  induction n generalizing k with
  | zero =>
    cases h
    exact ⟨rfl, rfl⟩
  | succ n ih =>
    obtain ⟨m, hm, hrest⟩ := Option.bind_eq_some_iff.mp h
    obtain ⟨hactive, hindex⟩ := push_index hm
    obtain ⟨hactive', hindex'⟩ := ih hrest
    exact ⟨hactive'.trans hactive, by omega⟩

/-- What every blank keeps, all of them keep. `P i` is said of the keyboard after `i` blanks. -/
theorem pushBlanks_inv {n : Nat} {k : Keyboard} {P : Nat → Keyboard → Prop} (hstart : P 0 k)
    (hroom : k.index + n ≤ bufSize)
    (hstep : ∀ i m, i < n → m.index = k.index + i → P i m → P (i + 1) (m.pushed 32)) :
    ∃ k', k.pushBlanks n = some k' ∧ P n k' := by
  induction n generalizing k P with
  | zero => exact ⟨k, rfl, hstart⟩
  | succ n ih =>
    have hindex : (k.pushed 32).index = k.index + 1 := setIndex_index _ _
    have hfirst : P 1 (k.pushed 32) := hstep 0 k (Nat.succ_pos n) rfl hstart
    obtain ⟨k', hk', hend⟩ := ih (P := fun i => P (i + 1)) hfirst (by omega) fun i m hi hm hP =>
      hstep (i + 1) m (Nat.succ_lt_succ hi) (by omega) hP
    refine ⟨k', ?_, hend⟩
    rw [pushBlanks, push_eq 32 (by omega)]
    exact hk'

/-- The store of a character: nothing in a full row, else a push, and then the test for Enter. -/
theorem storeChar_eq {k : Keyboard} (x : UInt8) (h : k.index < bufSize) :
    k.storeChar x =
      some ((if k.index = 127 then k else k.pushed x).checkBuf x) := by
  unfold storeChar
  by_cases hfull : k.index = 127
  · simp [hfull]
  · simp [hfull, push_eq x h]

theorem checkBuf_of_ne {k : Keyboard} {x : UInt8} (h : x ≠ 10) : k.checkBuf x = ([], k) := if_neg h

/-- Backspace on an empty row does nothing; else it steps back and leaves a blank. -/
theorem backspacing_eq {k : Keyboard} (physical : Bool) (h : k.index < bufSize) :
    k.backspacing physical =
      if physical ∧ k.index = 0 then some ([], k)
      else some ([.backspacing], k.dropped) := by
  have hlt : k.index - 1 < bufSize := by omega
  simp only [Keyboard.backspacing, assign_eq (k := k.setIndex (k.index - 1)) 32 hlt]
  rfl

theorem backspacing_active {k k' : Keyboard} {physical : Bool} {ops : List ScreenOp}
    (h : k.backspacing physical = some (ops, k')) : k'.active = k.active := by
  simp only [Keyboard.backspacing, Keyboard.assign] at h
  split at h
  · cases h
    rfl
  · obtain ⟨l, hl, hl'⟩ := Option.bind_eq_some_iff.mp h
    split at hl
    · cases hl
      cases hl'
      rfl
    · cases hl

/-- The state after `clear_buffer`: blanks at the start of the row, and the index 0. -/
def Keyboard.cleared (n : Int) (k : Keyboard) : Keyboard :=
  { k with
    buf := fun a => if offset k.active 0 ≤ a ∧ (a : Int) < offset k.active 0 + n then 32
      else k.buf a
    bufIndex := Function.update k.bufIndex k.active 0 }

/-- `clear_buffer` needs a NUL to stop at, and space in `buf` for the blanks. -/
theorem clearBuffer_eq_some_iff {k k' : Keyboard} {n : Int} {data : List UInt8} :
    k.clearBuffer n = some (data, k') ↔
      strcpy (k.row k.active) (bufBytes - offset k.active 0) = some data ∧
      (offset k.active 0 : Int) + n ≤ bufBytes ∧ k' = k.cleared n := by
  simp only [clearBuffer, Option.bind_eq_bind, Option.bind_eq_some_iff]
  constructor
  · rintro ⟨d, hd, h⟩
    split at h
    next => cases h
    next hfit =>
      cases h
      exact ⟨hd, by omega, rfl⟩
  · rintro ⟨hd, hfit, rfl⟩
    refine ⟨data, hd, ?_⟩
    rw [if_neg (by omega)]
    rfl

/-- A NUL at the end of `buf` is enough, for less than a row of blanks. -/
theorem clearBuffer_eq {k : Keyboard} {n : Int} (hlast : k.buf (bufBytes - 1) = 0)
    (hn : n < bufSize) :
    ∃ data, strcpy (k.row k.active) (bufBytes - offset k.active 0) = some data ∧
      k.clearBuffer n = some (data, k.cleared n) := by
  have hactive := k.active.isLt
  have hnul : k.row k.active (bufBytes - 1 - offset k.active 0) = 0 := by
    have hadd : offset k.active (bufBytes - 1 - offset k.active 0) = bufBytes - 1 := by
      unfold offset bufBytes bufSize
      omega
    rw [row, hadd]
    exact hlast
  have hin : bufBytes - 1 - offset k.active 0 < bufBytes - offset k.active 0 := by
    unfold offset bufBytes bufSize
    omega
  have hfit : (offset k.active 0 : Int) + n ≤ bufBytes := by
    unfold offset bufBytes bufSize at *
    omega
  obtain ⟨data, hdata⟩ := strcpy_isSome hin hnul
  exact ⟨data, hdata, clearBuffer_eq_some_iff.mpr ⟨hdata, hfit, rfl⟩⟩

/-- The blanks stay inside the row, short of its last byte. -/
theorem cleared_buf {k : Keyboard} {n : Int} (hn : n < bufSize) {a : Nat}
    (ha : ∀ i < bufSize - 1, a ≠ offset k.active i) : (k.cleared n).buf a = k.buf a := by
  apply if_neg
  rintro ⟨hle, hlt⟩
  apply ha (a - offset k.active 0)
  · omega
  · unfold offset at *
    omega

theorem cleared_last {k : Keyboard} {n : Int} (hn : n < bufSize) :
    (k.cleared n).buf (bufBytes - 1) = k.buf (bufBytes - 1) := by
  apply cleared_buf hn
  intro i hi
  exact last_ne_offset k.active hi

/-! ## The text of a terminal -/

section text
variable (k : Keyboard)

@[simp] theorem text_length (t : Fin 6) : (k.text t).length = k.bufIndex t := slice_length _ _ _

theorem text_eq_nil {t : Fin 6} (h : k.bufIndex t = 0) : k.text t = [] :=
  List.eq_nil_of_length_eq_zero ((text_length k t).trans h)

/-- The text of a terminal depends on its index and on its row below the index. -/
theorem text_congr {k m : Keyboard} {t : Fin 6} (hindex : m.bufIndex t = k.bufIndex t)
    (hrow : ∀ i < k.bufIndex t, m.row t i = k.row t i) : m.text t = k.text t := by
  unfold text
  rw [hindex]
  apply slice_congr
  intro i _ hi
  exact hrow i (by omega)

theorem pushed_text (x : UInt8) (h : k.index < bufSize) :
    (k.pushed x).text k.active = k.text k.active ++ [x] := by
  have hindex : (k.pushed x).bufIndex k.active = k.index + 1 := setIndex_index _ _
  have hlast : (k.pushed x).row k.active (0 + k.index) = x := by
    rw [Nat.zero_add]
    exact (put_row k x h h k.active).trans (if_pos ⟨rfl, rfl⟩)
  have hbefore : slice ((k.pushed x).row k.active) 0 k.index = k.text k.active := by
    apply slice_congr
    intro i _ hi
    exact (put_row k x h (by omega) k.active).trans (if_neg (by omega))
  rw [text, hindex, slice_succ_last, hlast, hbefore]

theorem pushed_text_ne (x : UInt8) (h : k.index < bufSize) {t : Fin 6} (ht : t ≠ k.active)
    (hlen : k.bufIndex t ≤ bufSize) : (k.pushed x).text t = k.text t := by
  apply text_congr
  · exact (setIndex_bufIndex _ _ t).trans (if_neg ht)
  · intro i hi
    exact (put_row k x h (by omega) t).trans (if_neg fun hand => ht hand.1)

theorem dropped_text (h : k.index < bufSize) :
    k.dropped.text k.active = (k.text k.active).dropLast := by
  have hindex : k.dropped.bufIndex k.active = k.index - 1 := by
    simp [dropped, setIndex_bufIndex]
  rw [text, text, slice_dropLast, hindex]
  apply slice_congr
  intro i _ hi
  exact (put_row (k.setIndex (k.index - 1)) 32 (by omega) (by omega) k.active).trans
    (if_neg (by omega))

theorem dropped_text_ne (h : k.index < bufSize) {t : Fin 6} (ht : t ≠ k.active)
    (hlen : k.bufIndex t ≤ bufSize) : k.dropped.text t = k.text t := by
  apply text_congr
  · exact (setIndex_bufIndex k (k.index - 1) t).trans (if_neg ht)
  · intro i hi
    exact (put_row (k.setIndex (k.index - 1)) 32 (by omega) (by omega) t).trans
      (if_neg fun hand => ht hand.1)

theorem cleared_text_ne {n : Int} (hn : n < bufSize) {t : Fin 6} (ht : t ≠ k.active)
    (hlen : k.bufIndex t ≤ bufSize) : (k.cleared n).text t = k.text t := by
  apply text_congr
  · exact Function.update_of_ne ht _ _
  · intro i hi
    apply cleared_buf hn
    intro j hj heq
    exact ht ((offset_inj (by omega) (by omega)).mp heq).1

end text

end OreOS
