import OreOS.Fish.Proofs.Display

/-!
# The period of a node

A node counts down from the length of its phase and changes the phase when it comes to 0. Nothing
that happens to other nodes has to do with it, so after `k` calls of `mp1_rtc_tasklet` it is where
`k`, counted modulo the sum of its lengths, says: on for `on_length` calls and off for `off_length`.
-/

namespace OreOS.Mp1
open Machine

/-- An ADD has a location other than 0 and other than those of the nodes in the list. -/
def AddsNew (s : Mp1) : Mp1Call → Prop
  | .add b => b.location ≠ 0 ∧ ∀ i ∈ s.nodes, (s.blinkArray i).location ≠ b.location
  | _ => True

/-- The call removes no node at the location and makes none blink as another one does. -/
def LeavesAlone (location : BitVec 16) : Mp1Call → Prop
  | .remove arg => arg.setWidth 16 ≠ location
  | .sync arg => (arg &&& 0xFFFF).setWidth 16 ≠ location
  | _ => True

/-- What the body of `tasklet_loop` makes of the entry. -/
def tick (b : Blink) : Blink :=
  if (b.countdown - 1).toInt > 0 then { b with countdown := b.countdown - 1 }
  else if b.status &&& 1 = 0 then { b with countdown := b.onLength, status := b.status ^^^ 1 }
  else { b with countdown := b.offLength, status := b.status ^^^ 1 }

variable {s t : Mp1} {is : List Slot} {i : Slot} {b e : Blink} {c : Mp1Call} {k : Nat}

/-! ## One node -/

theorem blink_blinkArray (s : Mp1) (i : Slot) :
    (s.blink i).blinkArray = Function.update s.blinkArray i (tick (s.blinkArray i)) := by
  by_cases hlast : ((s.blinkArray i).countdown - 1).toInt > 0
  · simp only [blink, tick, if_pos hlast, set_blinkArray]
  · by_cases hoff : (s.blinkArray i).status &&& 1 = 0
    · simp only [blink, tick, if_neg hlast, if_pos hoff, set_blinkArray, poke_blinkArray]
    · simp only [blink, tick, if_neg hlast, if_neg hoff, set_blinkArray, poke_blinkArray]

/-- Each node of the list is counted once. -/
theorem foldl_blink_blinkArray {js : List Slot} (hnodup : js.Nodup) (s : Mp1) (i : Slot) :
    (js.foldl blink s).blinkArray i = if i ∈ js then tick (s.blinkArray i) else s.blinkArray i := by
  induction js generalizing s with
  | nil => rfl
  | cons j js ih =>
    obtain ⟨hj, hjs⟩ := List.nodup_cons.mp hnodup
    rw [List.foldl_cons, ih hjs, blink_blinkArray]
    by_cases hij : i = j
    · subst hij
      rw [if_neg hj, if_pos List.mem_cons_self, Function.update_self]
    · simp only [Function.update_of_ne hij, List.mem_cons, hij, false_or]

/-- The entry `e` is where the structure `b` is `k` calls after it was added. -/
structure Phase (b : Blink) (k : Nat) (e : Blink) : Prop where
  location : e.location = b.location
  onLength : e.onLength = b.onLength
  offLength : e.offLength = b.offLength
  status : e.status.getLsbD 0 = decide (k % (b.onLength.toNat + b.offLength.toNat) <
    b.onLength.toNat)
  countdown : e.countdown.toNat =
    (if k % (b.onLength.toNat + b.offLength.toNat) < b.onLength.toNat then b.onLength.toNat
      else b.onLength.toNat + b.offLength.toNat) - k % (b.onLength.toNat + b.offLength.toNat)

/-- Both lengths are positive as signed words. -/
def Lengths (b : Blink) : Prop :=
  (1 ≤ b.onLength.toNat ∧ b.onLength.toNat ≤ 32767) ∧ 1 ≤ b.offLength.toNat ∧
  b.offLength.toNat ≤ 32767

instance (b : Blink) : Decidable (Lengths b) := inferInstanceAs (Decidable (_ ∧ _))

theorem phase_added (hb : Lengths b) (next : Option Slot) :
    Phase b 0 { b with status := 1, countdown := b.onLength, next } := by
  have hpos : 0 < b.onLength.toNat := hb.1.1
  exact ⟨rfl, rfl, rfl, by simp [hpos], by simp [hpos]⟩

theorem Phase.next (h : Phase b k e) (p : Option Slot) : Phase b k { e with next := p } :=
  ⟨h.location, h.onLength, h.offLength, h.status, h.countdown⟩

theorem succ_mod (k n : Nat) (hn : 0 < n) :
    (k + 1) % n = if k % n + 1 = n then 0 else k % n + 1 := by
  have hlt := Nat.mod_lt k hn
  have hmod : (k + 1) % n = (k % n + 1) % n := by
    conv_lhs => rw [← Nat.div_add_mod k n, Nat.add_assoc, Nat.mul_add_mod]
  rw [hmod]
  by_cases hlast : k % n + 1 = n
  · rw [if_pos hlast, hlast, Nat.mod_self]
  · rw [if_neg hlast, Nat.mod_eq_of_lt (by omega)]

/-- The branch that is taken while more than one call of the phase is left. -/
theorem countdown_pos_iff {x : BitVec 16} (hpos : 1 ≤ x.toNat) (hmax : x.toNat ≤ 32767) :
    (x - 1).toInt > 0 ↔ 1 < x.toNat := by
  have hsub : (x - 1).toNat = x.toNat - 1 := by bv_omega
  rw [BitVec.toInt_eq_toNat_cond, if_pos (by omega), hsub]
  omega

theorem tick_counts (h : (e.countdown - 1).toInt > 0) :
    Mp1.tick e = { e with countdown := e.countdown - 1 } := if_pos h

theorem tick_on (h : ¬(e.countdown - 1).toInt > 0) (hoff : e.status.getLsbD 0 = false) :
    Mp1.tick e = { e with countdown := e.onLength, status := e.status ^^^ 1 } := by
  rw [tick, if_neg h, if_pos (and_one_eq_zero.mpr hoff)]

theorem tick_off (h : ¬(e.countdown - 1).toInt > 0) (hon : e.status.getLsbD 0 = true) :
    Mp1.tick e = { e with countdown := e.offLength, status := e.status ^^^ 1 } := by
  have hset : ¬e.status &&& 1 = 0 := by
    rw [and_one_eq_zero, hon]
    decide
  rw [tick, if_neg h, if_neg hset]

/-- One call takes the node one further. -/
theorem Phase.tick (hb : Lengths b) (h : Phase b k e) : Phase b (k + 1) (Mp1.tick e) := by
  obtain ⟨hlocation, honLength, hoffLength, hstatus, hcountdown⟩ := h
  obtain ⟨⟨hon, hon'⟩, hoff, hoff'⟩ := hb
  have hsum : 0 < b.onLength.toNat + b.offLength.toNat := by omega
  have hm := Nat.mod_lt k hsum
  have hnext := succ_mod k _ hsum
  generalize k % (b.onLength.toNat + b.offLength.toNat) = m at hstatus hcountdown hm hnext
  by_cases hphase : m < b.onLength.toNat
  · rw [decide_eq_true hphase] at hstatus
    rw [if_pos hphase] at hcountdown
    have hiff := countdown_pos_iff (x := e.countdown) (by omega) (by omega)
    by_cases hlast : m + 1 = b.onLength.toNat
    · -- the last call of the phase
      rw [if_neg (by omega)] at hnext
      rw [tick_off (by rw [hiff]; omega) hstatus]
      refine ⟨hlocation, honLength, hoffLength, ?_, ?_⟩
      · rw [xor_one_bit, hstatus, hnext, decide_eq_false (by omega)]
        rfl
      · simp only [hnext, hoffLength]
        rw [if_neg (by omega)]
        omega
    · rw [if_neg (by omega)] at hnext
      rw [tick_counts (by rw [hiff]; omega)]
      refine ⟨hlocation, honLength, hoffLength, ?_, ?_⟩
      · rw [hnext, decide_eq_true (by omega)]
        exact hstatus
      · simp only [hnext]
        rw [if_pos (by omega)]
        bv_omega
  · rw [decide_eq_false hphase] at hstatus
    rw [if_neg hphase] at hcountdown
    have hiff := countdown_pos_iff (x := e.countdown) (by omega) (by omega)
    by_cases hlast : m + 1 = b.onLength.toNat + b.offLength.toNat
    · -- the last call of the period
      rw [if_pos hlast] at hnext
      rw [tick_on (by rw [hiff]; omega) hstatus]
      refine ⟨hlocation, honLength, hoffLength, ?_, ?_⟩
      · rw [xor_one_bit, hstatus, hnext, decide_eq_true (by omega)]
        rfl
      · simp only [hnext, honLength]
        rw [if_pos (by omega)]
        omega
    · rw [if_neg hlast] at hnext
      rw [tick_counts (by rw [hiff]; omega)]
      refine ⟨hlocation, honLength, hoffLength, ?_, ?_⟩
      · rw [hnext, decide_eq_false (by omega)]
        exact hstatus
      · simp only [hnext]
        rw [if_neg (by omega)]
        bv_omega

/-! ## One call -/

/-- What a call makes of the entry of a node that it leaves alone, but for the pointer. -/
def ticked (c : Mp1Call) (b : Blink) : Blink := if c = .tasklet then tick b else b

/-- A call keeps the nodes apart. What it leaves alone stays in the list, and but for its pointer
changes only in `mp1_rtc_tasklet`. -/
theorem Placed.after (h : s.Placed is) (hnew : s.AddsNew c) :
    ∃ t js, s.step c = some t ∧ t.Placed js ∧ ∀ i ∈ is, LeavesAlone (s.blinkArray i).location c →
      i ∈ js ∧ ∃ p, t.blinkArray i = { ticked c (s.blinkArray i) with next := p } := by
  obtain ⟨t, js, ht, heffect⟩ := h.listed.effect c
  refine ⟨t, js, ht, ?_⟩
  cases heffect with
  | unchanged hc =>
    refine ⟨h, fun i hi _ => ⟨hi, (s.blinkArray i).next, ?_⟩⟩
    rw [ticked, if_neg hc]
  | @linked b m hvalid hm =>
    obtain ⟨hb, hapart⟩ := hnew
    rw [h.listed.nodes_eq] at hapart
    have hfree := h.not_mem_of_malloc hm
    refine ⟨h.linkNew hfree hb hapart, fun i hi _ => ⟨List.mem_cons_of_mem m hi,
      (s.blinkArray i).next, ?_⟩⟩
    have hne : i ≠ m := fun him => hfree (him ▸ hi)
    simp [ticked, hne]
  | @unlinked arg j t hj hlisted hv hkeep =>
    refine ⟨h.erase hlisted hkeep, ?_⟩
    intro i hi halone
    have hij : i ≠ j := by
      rintro rfl
      exact halone (nodeAt_eq_some hj).2.symm
    obtain ⟨p, hp⟩ := hkeep i hij
    exact ⟨(List.mem_erase_of_ne hij).mpr hi, p, by simpa [ticked] using hp⟩
  | @synced arg i j hi hj =>
    obtain ⟨hjmem, hjloc⟩ := nodeAt_eq_some hj
    refine ⟨h.of_edits (edits_synced hjmem), fun k hk halone => ⟨hk, (s.blinkArray k).next, ?_⟩⟩
    have hkj : k ≠ j := by
      rintro rfl
      exact halone hjloc.symm
    simp [ticked, synced, hkj]
  | blinked =>
    have hedits : Edits s (is.foldl blink s) is := edits_foldl_blink fun _ hj => hj
    refine ⟨h.of_edits hedits, fun i hi _ => ⟨hi, (Mp1.tick (s.blinkArray i)).next, ?_⟩⟩
    rw [foldl_blink_blinkArray h.listed.nodup, if_pos hi]
    rfl

/-- The number of calls of `mp1_rtc_tasklet`. -/
def taskletCalls (cs : List Mp1Call) : Nat := cs.count .tasklet

/-- A node that was added is `k` calls further at the end of a run that calls `mp1_rtc_tasklet` `k`
times and leaves it alone. -/
theorem Placed.run {cs : List Mp1Call} (h : s.Placed is) (hi : i ∈ is) (hb : Lengths b)
    (hphase : Phase b k (s.blinkArray i)) (hnew : EachStep Mp1.step AddsNew s cs)
    (halone : ∀ c ∈ cs, LeavesAlone b.location c) :
    ∃ t js, runFrom Mp1.step s cs = some t ∧ t.Placed js ∧ i ∈ js ∧
      Phase b (k + taskletCalls cs) (t.blinkArray i) := by
  induction cs generalizing s is k with
  | nil => exact ⟨s, is, rfl, h, hi, hphase⟩
  | cons c cs ih =>
    obtain ⟨hc, hcs⟩ := List.forall_mem_cons.mp halone
    obtain ⟨t, js, ht, hplaced, hkept⟩ := h.after hnew.1
    rw [← hphase.location] at hc
    obtain ⟨hi', p, hp⟩ := hkept i hi hc
    rw [runFrom_cons ht]
    by_cases htasklet : c = .tasklet
    · subst htasklet
      rw [ticked, if_pos rfl] at hp
      have hcount : taskletCalls (.tasklet :: cs) = taskletCalls cs + 1 := List.count_cons_self
      rw [hcount, Nat.add_comm (taskletCalls cs), ← Nat.add_assoc]
      exact ih hplaced hi' (hp ▸ (hphase.tick hb).next p) (hnew.2 t ht) hcs
    · rw [ticked, if_neg htasklet] at hp
      have hcount : taskletCalls (c :: cs) = taskletCalls cs := List.count_cons_of_ne htasklet
      rw [hcount]
      exact ih hplaced hi' (hp ▸ hphase.next p) (hnew.2 t ht) hcs

theorem placed_of_run {cs : List Mp1Call} (h : s.Placed is) (hnew : EachStep step AddsNew s cs)
    (ht : runFrom step s cs = some t) : ∃ js, t.Placed js := by
  have hstep : ∀ s c u, (∃ is, Placed s is) → AddsNew s c → step s c = some u →
      ∃ js, Placed u js := by
    rintro s c u ⟨is, h⟩ hc hu
    obtain ⟨u', js, hu', hplaced, -⟩ := h.after hc
    obtain rfl : u' = u := Option.some.inj (hu'.symm.trans hu)
    exact ⟨js, hplaced⟩
  exact inv_runFrom hstep ⟨is, h⟩ hnew ht

/-- A node whose ADD succeeded, whatever was called before, has its status bit set after `k` further
calls of `mp1_rtc_tasklet` exactly if `k` modulo the sum of its lengths is less than its
`on_length`. Other nodes can be added, removed and synced meanwhile. -/
theorem blink_period (vmem : Nat → UInt8) {before after : List Mp1Call} {b : Blink}
    (hbefore : EachStep step AddsNew (empty vmem) before)
    (hs : runFrom step (empty vmem) before = some s)
    (hnew : s.AddsNew (.add b)) (hadded : (s.ioctlAdd b).1 = 0) (hb : Lengths b)
    (hafter : EachStep step AddsNew (s.ioctlAdd b).2 after)
    (halone : ∀ c ∈ after, LeavesAlone b.location c) :
    ∃ i t, (s.ioctlAdd b).2.listHead = some i ∧ runFrom step (s.ioctlAdd b).2 after = some t ∧
    i ∈ t.nodes ∧
      (t.blinkArray i).location = b.location ∧
      ((t.blinkArray i).status.getLsbD 0 = true ↔
        taskletCalls after % (b.onLength.toNat + b.offLength.toNat) < b.onLength.toNat) := by
  obtain ⟨is, hplaced⟩ := placed_of_run (placed_empty vmem) hbefore hs
  have hvalid : b.location.toNat < 80 * 25 := by
    by_contra hinvalid
    rw [ioctlAdd_invalid (Nat.not_lt.mp hinvalid)] at hadded
    exact absurd hadded (by simp)
  cases hm : s.malloc with
  | none =>
    rw [ioctlAdd_full hm] at hadded
    exact absurd hadded (by simp)
  | some i =>
    obtain ⟨hb0, hapart⟩ := hnew
    rw [hplaced.listed.nodes_eq] at hapart
    rw [ioctlAdd_of_malloc hvalid hm] at hafter ⊢
    have hphase : Phase b 0 ((s.linkNew i b).blinkArray i) := by
      rw [linkNew_blinkArray, Function.update_self]
      exact phase_added hb s.listHead
    obtain ⟨t, js, ht, hplaced', hi, hphase'⟩ :=
      (hplaced.linkNew (hplaced.not_mem_of_malloc hm) hb0 hapart).run List.mem_cons_self hb hphase
      hafter halone
    rw [Nat.zero_add] at hphase'
    refine ⟨i, t, rfl, ht, hplaced'.listed.nodes_eq.symm ▸ hi, hphase'.location, ?_⟩
    rw [hphase'.status, decide_eq_true_iff]

/-- The second of two nodes, over two calls. -/
theorem blink_period_two :
    ∃ s, runFrom step (empty fun _ => 0) [.add (mainBlink 40)] = some s ∧
      ∃ i t, (s.ioctlAdd (mainBlink 540)).2.listHead = some i ∧
        runFrom step (s.ioctlAdd (mainBlink 540)).2 [.tasklet, .tasklet] = some t ∧ i ∈ t.nodes ∧
        (t.blinkArray i).location = 540 ∧ ((t.blinkArray i).status.getLsbD 0 = true ↔
          taskletCalls [.tasklet, .tasklet] %
            ((mainBlink 540).onLength.toNat + (mainBlink 540).offLength.toNat) <
              (mainBlink 540).onLength.toNat) := by
  obtain ⟨i, j, s, t, hs, ht, -, ⟨hb, hapart, -⟩, ⟨hb', hapart', hadded⟩, -⟩ :=
    two_added (fun _ => 0) (mainBlink 40)
    (mainBlink 540) (by decide) (by decide) (by decide) (by decide)
      (by decide)
  have hrun : runFrom step (empty fun _ => 0) [.add (mainBlink 40)] = some s := by
    rw [runFrom_cons hs, runFrom_nil]
  have hfirst : EachStep step AddsNew (empty fun _ => 0) [.add (mainBlink 40)] :=
    ⟨⟨hb, hapart⟩, fun _ _ => trivial⟩
  have hcalls : EachStep step AddsNew (s.ioctlAdd (mainBlink 540)).2 [.tasklet, .tasklet] :=
    ⟨trivial, fun _ _ => ⟨trivial, fun _ _ => trivial⟩⟩
  exact ⟨s, hrun, blink_period (fun _ => 0) hfirst hrun ⟨hb', hapart'⟩ hadded (by decide) hcalls
    (by simp [LeavesAlone])⟩

end OreOS.Mp1
