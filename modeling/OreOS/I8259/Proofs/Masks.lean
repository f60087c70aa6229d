import OreOS.I8259
import OreOS.Machine.Trace

/-!
# What the masks say after a history of calls

`enable_irq` and the master's half of `disable_irq` change the bit of the line they name and no
other. The slave's half of `disable_irq` clears every bit but one, so it does what it is for only
when the line is the one slave line that is masked already.
-/

namespace OreOS
open Machine

namespace I8259

/-! ## One call -/

section bits
variable (x : BitVec 8) {m : Nat} (n : Nat) (hm : m < 8)
include hm

/-- Bit `m` of `1 << n`. -/
theorem getLsbD_bit : (1#8 <<< n).getLsbD m = decide (m = n) := by
  rw [← BitVec.twoPow_eq, BitVec.getLsbD_twoPow]
  by_cases h : m = n
  · subst h
    simp [hm]
  · simp [h, Ne.symm h]

theorem getLsbD_clear_bit :
    (x &&& ~~~(1#8 <<< n)).getLsbD m = (x.getLsbD m && !decide (m = n)) := by
  rw [BitVec.getLsbD_and, BitVec.getLsbD_not, getLsbD_bit n hm, decide_eq_true hm, Bool.true_and]

theorem getLsbD_set_bit : (x ||| 1#8 <<< n).getLsbD m = (x.getLsbD m || decide (m = n)) := by
  rw [BitVec.getLsbD_or, getLsbD_bit n hm]

theorem getLsbD_keep_bit : (x &&& 1#8 <<< n).getLsbD m = (x.getLsbD m && decide (m = n)) := by
  rw [BitVec.getLsbD_and, getLsbD_bit n hm]

end bits

/-- Two lines of one controller have different bits. -/
theorem mod_eq_iff {i j : Fin 16} (h : j.val < 8 ↔ i.val < 8) : j.val % 8 = i.val % 8 ↔ j = i := by
  constructor
  · intro heq
    apply Fin.ext
    omega
  · rintro rfl
    rfl

/-- A call that rewrites the bits of one controller, its own bit `i % 8` in one way and the others
in another, does so with the lines of that controller. -/
theorem masked_of_bits {s t : I8259} {i : Fin 16} {g : Bool → Bool → Bool}
    (hmaster : i.val < 8 → t.slaveMask = s.slaveMask ∧
      ∀ m < 8, t.masterMask.getLsbD m = g (s.masterMask.getLsbD m) (decide (m = i.val % 8)))
    (hslave : ¬i.val < 8 → t.masterMask = s.masterMask ∧
      ∀ m < 8, t.slaveMask.getLsbD m = g (s.slaveMask.getLsbD m) (decide (m = i.val % 8)))
    (j : Fin 16) :
    t.masked j = if j.val < 8 ↔ i.val < 8 then g (s.masked j) (decide (j = i)) else s.masked j := by
  have hm : j.val % 8 < 8 := Nat.mod_lt _ (by decide)
  by_cases hi : i.val < 8
  · obtain ⟨hother, hbits⟩ := hmaster hi
    by_cases hj : j.val < 8
    · have hsame : j.val < 8 ↔ i.val < 8 := iff_of_true hj hi
      simp only [masked, if_pos hj, hbits _ hm, if_pos hsame, mod_eq_iff hsame]
    · have hother' : ¬(j.val < 8 ↔ i.val < 8) := fun h => hj (h.mpr hi)
      simp only [masked, if_neg hj, hother, if_neg hother']
  · obtain ⟨hother, hbits⟩ := hslave hi
    by_cases hj : j.val < 8
    · have hother' : ¬(j.val < 8 ↔ i.val < 8) := fun h => hi (h.mp hj)
      simp only [masked, if_pos hj, hother, if_neg hother']
    · have hsame : j.val < 8 ↔ i.val < 8 := iff_of_false hj hi
      simp only [masked, if_neg hj, hbits _ hm, if_pos hsame, mod_eq_iff hsame]

theorem enableIrq_masked (s : I8259) (i j : Fin 16) :
    (s.enableIrq i).masked j = (s.masked j && !decide (j = i)) := by
  have hbits := masked_of_bits (s := s) (t := s.enableIrq i) (i := i) (g := fun b e => b && !e)
    (fun hi => by
      have hi : i.val ≤ 7 := Nat.le_of_lt_succ hi
      simp only [enableIrq, if_pos hi]
      exact ⟨rfl, fun m hm => getLsbD_clear_bit _ _ hm⟩)
    (fun hi => by
      have hi : ¬i.val ≤ 7 := fun h => hi (Nat.lt_succ_of_le h)
      simp only [enableIrq, if_neg hi]
      exact ⟨rfl, fun m hm => getLsbD_clear_bit _ _ hm⟩) j
  rw [hbits]
  split
  · rfl
  · rename_i hother
    have hne : j ≠ i := fun h => hother (h ▸ Iff.rfl)
    simp [hne]

/-- `disable_irq` on a line of the master masks it. -/
theorem disableIrq_masked_of_master (s : I8259) {i : Fin 16} (hi : i.val < 8) (j : Fin 16) :
    (s.disableIrq i).masked j = (s.masked j || decide (j = i)) := by
  have hbits := masked_of_bits (s := s) (t := s.disableIrq i) (i := i) (g := fun b e => b || e)
    (fun hi => by
      have hi : i.val ≤ 7 := Nat.le_of_lt_succ hi
      simp only [disableIrq, if_pos hi]
      exact ⟨rfl, fun m hm => getLsbD_set_bit _ _ hm⟩)
    (fun hn => absurd hi hn) j
  rw [hbits]
  split
  · rfl
  · rename_i hother
    have hne : j ≠ i := fun h => hother (h ▸ Iff.rfl)
    simp [hne]

/-- `disable_irq` on a line of the slave unmasks the other lines of the slave. -/
theorem disableIrq_masked_of_slave (s : I8259) {i : Fin 16} (hi : ¬i.val < 8) (j : Fin 16) :
    (s.disableIrq i).masked j =
      if j.val < 8 then s.masked j else s.masked j && decide (j = i) := by
  have hbits := masked_of_bits (s := s) (t := s.disableIrq i) (i := i) (g := fun b e => b && e)
    (fun h => absurd h hi)
    (fun hi => by
      have hi : ¬i.val ≤ 7 := fun h => hi (Nat.lt_succ_of_le h)
      simp only [disableIrq, if_neg hi]
      exact ⟨rfl, fun m hm => getLsbD_keep_bit _ _ hm⟩) j
  rw [hbits]
  by_cases hj : j.val < 8
  · simp [hi, hj]
  · simp [hi, hj]

/-- The byte that each data port was last given is the mask. -/
def PortsCurrent (s : I8259) : Prop :=
  s.lastSent (master8259Port + 1) = some s.masterMask ∧
    s.lastSent (slave8259Port + 1) = some s.slaveMask

theorem PortsCurrent.i8259Init (s : I8259) : s.i8259Init.PortsCurrent := by
  constructor <;> rfl

theorem PortsCurrent.enableIrq {s : I8259} (h : s.PortsCurrent) (i : Nat) :
    (s.enableIrq i).PortsCurrent := by
  obtain ⟨hmaster, hslave⟩ := h
  unfold I8259.enableIrq
  split
  · exact ⟨rfl, hslave⟩
  · exact ⟨hmaster, rfl⟩

theorem PortsCurrent.disableIrq {s : I8259} (h : s.PortsCurrent) (i : Nat) :
    (s.disableIrq i).PortsCurrent := by
  obtain ⟨hmaster, hslave⟩ := h
  unfold I8259.disableIrq
  split
  · exact ⟨rfl, hslave⟩
  · exact ⟨hmaster, rfl⟩

/-- The slave's mask has no bit but that of `i` exactly when its line is masked and the other lines
of the slave are not. -/
theorem slaveMask_eq_iff (s : I8259) {i : Fin 16} (hi : ¬i.val < 8) :
    s.slaveMask = 1#8 <<< (i.val - 8) ↔
      ∀ j : Fin 16, ¬j.val < 8 → s.masked j = decide (j = i) := by
  have hsub : i.val - 8 = i.val % 8 := by omega
  constructor
  · intro hmask j hj
    have hsame : j.val < 8 ↔ i.val < 8 := iff_of_false hj hi
    simp only [masked, if_neg hj, hmask, hsub, ← mod_eq_iff hsame]
    exact getLsbD_bit _ (Nat.mod_lt _ (by decide))
  · intro hlines
    apply BitVec.eq_of_getLsbD_eq
    intro m hm
    have hj : ¬(⟨m + 8, by omega⟩ : Fin 16).val < 8 := by simp
    have hbit := hlines ⟨m + 8, by omega⟩ hj
    simp only [masked, if_neg hj, Nat.add_mod_right, Nat.mod_eq_of_lt hm] at hbit
    rw [hbit, getLsbD_bit _ hm, decide_eq_decide, Fin.ext_iff]
    change m + 8 = i.val ↔ m = i.val - 8
    omega

end I8259

/-! ## Histories of calls -/

namespace IrqHistory

/-- A line is masked exactly when the last call that named it was `disable_irq` or none did, and the
data ports were given the masks. -/
def Follows (h : IrqHistory) : Prop :=
  (∀ line, h.pic.masked line = true ↔
    h.lastNaming line = some (.disable line) ∨ h.lastNaming line = none) ∧ h.pic.PortsCurrent

/-- No line but the one the call names changed. -/
def OthersKept (h : IrqHistory) (call : IrqCall) (h' : IrqHistory) : Prop :=
  ∀ line ≠ call.line, h'.pic.masked line = h.pic.masked line

/-- The call does not disable a line of the slave, except one that is already the only one of them
that is masked. -/
def SparesSlave (h : IrqHistory) : IrqCall → Prop
  | .enable _ => True
  | .disable line => line.val < 8 ∨ h.pic.slaveMask = 1#8 <<< (line.val - 8)

theorem follows_start (s : I8259) : (start s).Follows := by
  refine ⟨fun line => iff_of_true ?_ (.inr rfl), I8259.PortsCurrent.i8259Init s⟩
  have hones : ∀ m < 8, (0xFF#8).getLsbD m = true := by decide
  unfold I8259.masked
  split <;> exact hones _ (Nat.mod_lt _ (by decide))

theorem lastNaming_step {h h' : IrqHistory} {call : IrqCall} (hs : h.step call = some h')
    (line : Fin 16) :
    h'.lastNaming line = if call.line = line then some call else h.lastNaming line := by
  have hcalls : h'.calls = call :: h.calls := by
    cases call <;> (cases hs; rfl)
  rw [lastNaming, hcalls, List.find?_cons]
  by_cases hline : call.line = line <;> simp [hline, lastNaming]

/-- The masks go on following the calls exactly when the call gives its own line its value and
leaves the others alone. -/
theorem follows_step_iff {h h' : IrqHistory} {call : IrqCall} (hs : h.step call = some h')
    (hf : h.Follows) (hports : h'.pic.PortsCurrent) :
    h.OthersKept call h' ∧ h'.Follows ↔
      ∀ line, h'.pic.masked line =
        if line = call.line then decide (call = .disable line) else h.pic.masked line := by
  constructor
  · rintro ⟨hkept, hfollows, -⟩ line
    by_cases hline : line = call.line
    · have hiff := hfollows line
      rw [lastNaming_step hs, if_pos hline.symm] at hiff
      rw [if_pos hline, Bool.eq_iff_iff, hiff, decide_eq_true_iff]
      simp
    · rw [if_neg hline]
      exact hkept line hline
  · intro hlines
    refine ⟨fun line hline => by rw [hlines, if_neg hline], fun line => ?_, hports⟩
    rw [hlines, lastNaming_step hs]
    by_cases hline : line = call.line
    · rw [if_pos hline, if_pos hline.symm]
      simp
    · rw [if_neg hline, if_neg (Ne.symm hline)]
      exact hf.1 line

/-- One call, from masks that follow the calls. -/
theorem follows_step (h h' : IrqHistory) (call : IrqCall) (hs : h.step call = some h')
    (hf : h.Follows) : h.SparesSlave call ↔ h.OthersKept call h' ∧ h'.Follows := by
  cases call with
  | enable i =>
    have hpic : h'.pic = h.pic.enableIrq i := by cases hs; rfl
    rw [follows_step_iff hs hf (hpic ▸ hf.2.enableIrq i)]
    apply iff_of_true trivial
    intro line
    rw [hpic, I8259.enableIrq_masked]
    by_cases hline : line = i <;> simp [IrqCall.line, hline]
  | disable i =>
    have hpic : h'.pic = h.pic.disableIrq i := by cases hs; rfl
    rw [follows_step_iff hs hf (hpic ▸ hf.2.disableIrq i)]
    by_cases hi : i.val < 8
    · apply iff_of_true (.inl hi)
      intro line
      rw [hpic, I8259.disableIrq_masked_of_master _ hi]
      by_cases hline : line = i <;> simp [IrqCall.line, hline]
    · rw [SparesSlave, or_iff_right hi, I8259.slaveMask_eq_iff _ hi]
      -- outside the slave nothing changes, and inside it only the bit of `i` can survive
      apply forall_congr'
      intro line
      rw [hpic, I8259.disableIrq_masked_of_slave _ hi]
      by_cases hline : line = i
      · subst hline
        simp [hi, IrqCall.line]
      · by_cases hslave : line.val < 8
        · simp [hslave, hline, IrqCall.line]
        · simp only [hslave, hline, IrqCall.line, not_false_eq_true, forall_const, if_false,
            decide_false, Bool.and_false]
          exact eq_comm

/-- Along every history of calls after `i8259_init`, each call leaves the other lines alone and the
masks and data ports follow the calls, exactly when no call disables a line of the slave other than
the only one of them that is masked. -/
theorem masks_follow_calls_iff (s : I8259) (calls : List IrqCall) :
    (start s).Follows ∧
      (Along step (fun h call h' => h.OthersKept call h' ∧ h'.Follows) (start s) calls ↔
        Along step (fun h call _ => h.SparesSlave call) (start s) calls) := by
  refine ⟨follows_start s, ?_⟩
  have hbase : ∀ (h : IrqHistory) call h', True → h.step call = some h' → True :=
    fun _ _ _ _ _ => trivial
  apply along_iff_along hbase _ trivial (follows_start s)
  intro h call h' _ hf hs
  exact follows_step h h' call hs hf

/-- Right after `i8259_init`, `disable_irq(8)` unmasks the lines 9 to 15. -/
theorem disable_first_slave_line_unmasks_others :
    ¬Along step (fun h call h' => h.OthersKept call h' ∧ h'.Follows) (start ⟨0, 0, []⟩)
      [.disable 8] := by
  intro h
  have hkept := (h _ rfl).1.1 9 (by decide)
  revert hkept
  decide

end IrqHistory

end OreOS
