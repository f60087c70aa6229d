import OreOS.Fish.Proofs.BlinkList
import OreOS.Machine.Trace

/-!
# What the blink list shows

A node is shown by one byte of video memory, at twice its location. `mp1_rtc_tasklet` and
`mp1_ioctl_add` write it together with the status; `mp1_ioctl_sync` copies a status and then always
writes `off_char`, since the conditional move after `testb` tests flags that `testb` clears.

The ADDs here have locations other than 0 and other than those of the nodes in the list.
-/

namespace OreOS.Mp1
open Machine

/-- A call that leaves out what it returns. -/
def step (s : Mp1) (c : Mp1Call) : Option Mp1 := (s.call c).map Prod.snd

/-- The character that the status calls for. -/
def face (b : Blink) : UInt8 := if b.status.getLsbD 0 then b.onChar else b.offChar

/-- Every node of the list has its screen cell equal to the character that its status calls for. -/
def Coherent (s : Mp1) : Prop :=
  ∀ i ∈ s.nodes, s.vmem (2 * (s.blinkArray i).location.toNat) = face (s.blinkArray i)

/-- Nodes `i` and `j` are the ones that SYNC names. -/
def Names (s : Mp1) (arg : BitVec 32) (i j : Slot) : Prop :=
  i ∈ s.nodes ∧ j ∈ s.nodes ∧ (s.blinkArray i).location = (arg >>> 16).setWidth 16 ∧
    (s.blinkArray j).location = (arg &&& 0xFFFF).setWidth 16

/-- A call leaves the screen coherent; SYNC has made the second node blink as the first one does. -/
def Shows (s : Mp1) (c : Mp1Call) (t : Mp1) : Prop :=
  t.Coherent ∧
    match c with
    | .sync arg => ∀ i j, s.Names arg i j → j ∈ t.nodes ∧
        (t.blinkArray j).onLength = (s.blinkArray i).onLength ∧
        (t.blinkArray j).offLength = (s.blinkArray i).offLength ∧
        (t.blinkArray j).countdown = (s.blinkArray i).countdown ∧
        (t.blinkArray j).status = (s.blinkArray i).status
    | _ => True

/-- An ADD succeeds, with a location that is not 0 and that no node of the list has. -/
def NewLocation (s : Mp1) : Mp1Call → Prop
  | .add b => b.location ≠ 0 ∧ (∀ i ∈ s.nodes, (s.blinkArray i).location ≠ b.location) ∧
      (s.ioctlAdd b).1 = 0
  | _ => True

/-- A SYNC copies a status whose bit 0 is clear, or to a node with two equal characters. -/
def CopiesOff (s : Mp1) : Mp1Call → Prop
  | .sync arg => ∀ i j, s.Names arg i j →
      (s.blinkArray i).status.getLsbD 0 = false ∨ (s.blinkArray j).onChar = (s.blinkArray j).offChar
  | _ => True

instance (s : Mp1) : Decidable s.Coherent :=
  inferInstanceAs (Decidable (∀ i ∈ s.nodes, s.vmem _ = face (s.blinkArray i)))

instance (s : Mp1) : DecidablePred s.NewLocation
  | .add b => inferInstanceAs (Decidable (b.location ≠ 0 ∧
      (∀ i ∈ s.nodes, (s.blinkArray i).location ≠ b.location) ∧ (s.ioctlAdd b).1 = 0))
  | .remove _ | .find _ | .sync _ | .tasklet => isTrue trivial

/-! ## The status and the screen -/

theorem and_one_eq_zero {x : BitVec 16} : x &&& 1 = 0 ↔ x.getLsbD 0 = false := by
  constructor
  · intro h
    have hbit := congrArg (BitVec.getLsbD · 0) h
    simpa using hbit
  · intro h
    ext k hk
    by_cases hk0 : k = 0
    · subst hk0
      simp [h, ← BitVec.getLsbD_eq_getElem]
    · simp [hk0]

theorem xor_one_bit (x : BitVec 16) : (x ^^^ 1).getLsbD 0 = !x.getLsbD 0 := by
  simp

theorem cell_eq (b : Blink) : cell b = 2 * b.location.toNat := Nat.mul_comm _ _

/-- The list has the nodes `is`, at different locations, none of them 0, and they are shown. -/
structure Shown (s : Mp1) (is : List Slot) : Prop where
  listed : s.Listed is
  nonzero : ∀ i ∈ is, (s.blinkArray i).location ≠ 0
  apart : ∀ i ∈ is, ∀ j ∈ is, (s.blinkArray i).location = (s.blinkArray j).location → i = j
  shown : ∀ i ∈ is, s.vmem (cell (s.blinkArray i)) = face (s.blinkArray i)

variable {s t : Mp1} {is : List Slot} {i j : Slot} {c : Mp1Call}

theorem shown_empty (vmem : Nat → UInt8) : (empty vmem).Shown [] :=
  ⟨listed_empty vmem, by simp, by simp, by simp⟩

namespace Shown

theorem coherent_iff (h : s.Listed is) :
    s.Coherent ↔ ∀ i ∈ is, s.vmem (cell (s.blinkArray i)) = face (s.blinkArray i) := by
  unfold Coherent
  rw [h.nodes_eq]
  simp only [cell_eq]

theorem placed (h : s.Shown is) : s.Placed is := ⟨h.listed, h.nonzero, h.apart⟩

theorem of_placed (h : s.Placed is)
    (hshown : ∀ i ∈ is, s.vmem (cell (s.blinkArray i)) = face (s.blinkArray i)) : s.Shown is :=
    ⟨h.listed, h.nonzero, h.apart, hshown⟩

theorem coherent (h : s.Shown is) : s.Coherent := (coherent_iff h.listed).mpr h.shown

theorem cell_ne (h : s.Shown is) (hi : i ∈ is) (hj : j ∈ is) (hne : i ≠ j) :
    cell (s.blinkArray i) ≠ cell (s.blinkArray j) := by
  intro heq
  refine hne (h.apart i hi j hj (BitVec.eq_of_toNat_eq ?_))
  exact Nat.eq_of_mul_eq_mul_right (by decide) heq

/-- A node is written, and a character to its cell: the others are shown as before. -/
theorem write (h : s.Shown is) (hi : i ∈ is) {onLength offLength countdown status : BitVec 16}
    {ch : UInt8}
    (hu : t = (s.set i { s.blinkArray i with onLength, offLength, countdown, status }).poke ch
      (cell (s.blinkArray i))) :
    (∀ j ∈ is, j ≠ i → t.vmem (cell (t.blinkArray j)) = face (t.blinkArray j)) ∧
      (t.vmem (cell (t.blinkArray i)) = face (t.blinkArray i) ↔
        ch = if status.getLsbD 0 then (s.blinkArray i).onChar else (s.blinkArray i).offChar) := by
  subst hu
  refine ⟨?_, ?_⟩
  · intro j hj hne
    simp only [poke_blinkArray, set_blinkArray, poke_vmem, set_vmem, Function.update_of_ne hne]
    rw [Function.update_of_ne (h.cell_ne hj hi hne)]
    exact h.shown j hj
  · simp only [poke_blinkArray, set_blinkArray, poke_vmem, Function.update_self, cell, face]

/-- Nothing but the contents of the nodes changes, and they are shown. -/
theorem of_edits (h : s.Shown is) (he : Edits s t is)
    (hshown : ∀ i ∈ is, t.vmem (cell (t.blinkArray i)) = face (t.blinkArray i)) : t.Shown is :=
  of_placed (h.placed.of_edits he) hshown

theorem blink (h : s.Shown is) (hi : i ∈ is) : (s.blink i).Shown is := by
  apply h.of_edits (edits_blink hi)
  intro j hj
  obtain hb | ⟨hoff, hb⟩ | ⟨hon, hb⟩ := blink_cases s i
  · rw [hb]
    by_cases hji : j = i
    · subst hji
      simpa [cell, face] using h.shown j hj
    · simpa [hji] using h.shown j hj
  · obtain ⟨hothers, hself⟩ := h.write hi hb
    by_cases hji : j = i
    · subst hji
      rw [hself, xor_one_bit, and_one_eq_zero.mp hoff]
      rfl
    · exact hothers j hj hji
  · obtain ⟨hothers, hself⟩ := h.write hi hb
    have hon : (s.blinkArray i).status.getLsbD 0 = true := by
      rwa [Ne, and_one_eq_zero, Bool.not_eq_false] at hon
    by_cases hji : j = i
    · subst hji
      rw [hself, xor_one_bit, hon]
      rfl
    · exact hothers j hj hji

theorem foldl_blink {js : List Slot} (h : s.Shown is) (hsub : ∀ j ∈ js, j ∈ is) :
    (js.foldl Mp1.blink s).Shown is := by
  induction js generalizing s with
  | nil => exact h
  | cons j js ih =>
    have hrest : ∀ k ∈ js, k ∈ is := fun k hk => hsub k (by simp [hk])
    exact ih (h.blink (hsub j (by simp))) hrest

/-- A new node takes no other node's cell. -/
theorem linkNew (h : s.Shown is) (hi : i ∉ is) {b : Blink} (hb : b.location ≠ 0)
    (hnew : ∀ j ∈ is, (s.blinkArray j).location ≠ b.location) :
    (s.linkNew i b).Shown (i :: is) := by
  have hold : ∀ j ∈ is, (s.linkNew i b).blinkArray j = s.blinkArray j := update_eq_on hi
  apply of_placed (h.placed.linkNew hi hb hnew)
  rw [List.forall_mem_cons]
  refine ⟨by simp [Mp1.linkNew, cell, face], fun j hj => ?_⟩
  have hne : cell (s.blinkArray j) ≠ cell b := fun heq =>
    hnew j hj (BitVec.eq_of_toNat_eq (Nat.eq_of_mul_eq_mul_right (by decide) heq))
  rw [hold j hj, ← h.shown j hj]
  exact Function.update_of_ne hne _ _

/-- A node that leaves the list takes nothing with it. -/
theorem erase (h : s.Shown is) (ht : t.Listed (is.erase i)) (hv : t.vmem = s.vmem)
    (hkeep : ∀ j ≠ i, ∃ p, t.blinkArray j = { s.blinkArray j with next := p }) :
    t.Shown (is.erase i) := by
  apply of_placed (h.placed.erase ht hkeep)
  intro j hj
  obtain ⟨p, hp⟩ := hkeep j fun hji => h.listed.nodup.not_mem_erase (hji ▸ hj)
  rw [hp, hv]
  exact h.shown j (List.mem_of_mem_erase hj)

/-- After the copy the second node is shown if the status calls for `off_char`. -/
theorem synced_iff (h : s.Shown is) (hj : j ∈ is) :
    (s.synced i j).Coherent ↔
      ((s.blinkArray i).status.getLsbD 0 = false ∨
        (s.blinkArray j).onChar = (s.blinkArray j).offChar) := by
  obtain ⟨hothers, hself⟩ := h.write hj (t := s.synced i j) rfl
  rw [coherent_iff ((edits_synced hj).listed h.listed)]
  have hchar : (s.blinkArray j).offChar = (if (s.blinkArray i).status.getLsbD 0 then
      (s.blinkArray j).onChar else (s.blinkArray j).offChar) ↔
      ((s.blinkArray i).status.getLsbD 0 = false ∨
        (s.blinkArray j).onChar = (s.blinkArray j).offChar) := by
    cases (s.blinkArray i).status.getLsbD 0 with
    | false => simp
    | true => simp [eq_comm]
  rw [← hchar, ← hself]
  constructor
  · exact fun hall => hall j hj
  · intro hj' k hk
    by_cases hkj : k = j
    · exact hkj ▸ hj'
    · exact hothers k hk hkj

/-- The node with a location is the only one. -/
theorem nodeAt_eq_some_iff (h : s.Shown is) {ax : BitVec 16} :
    s.nodeAt is ax = some i ↔ i ∈ is ∧ (s.blinkArray i).location = ax := by
  refine ⟨nodeAt_eq_some, ?_⟩
  rintro ⟨hi, hax⟩
  cases hn : s.nodeAt is ax with
  | none => exact absurd hax (nodeAt_eq_none.mp hn i hi)
  | some k =>
    obtain ⟨hk, hkax⟩ := nodeAt_eq_some hn
    rw [h.apart k hk i hi (hkax.trans hax.symm)]

theorem names_iff (h : s.Shown is) {arg : BitVec 32} :
    s.Names arg i j ↔ s.nodeAt is ((arg >>> 16).setWidth 16) = some i ∧
      s.nodeAt is ((arg &&& 0xFFFF).setWidth 16) = some j := by
  rw [h.nodeAt_eq_some_iff, h.nodeAt_eq_some_iff, Names, h.listed.nodes_eq]
  tauto

theorem names_unique (h : s.Shown is) {arg : BitVec 32} {i' j' : Slot} (hn : s.Names arg i j)
    (hn' : s.Names arg i' j') : i = i' ∧ j = j' := by
  obtain ⟨hi, hj⟩ := h.names_iff.mp hn
  obtain ⟨hi', hj'⟩ := h.names_iff.mp hn'
  exact ⟨Option.some.inj (hi.symm.trans hi'), Option.some.inj (hj.symm.trans hj')⟩

end Shown

/-! ## One call -/

/-- What a call does to the list `is`: the state and the list after it. -/
inductive Effect (s : Mp1) (is : List Slot) : Mp1Call → Mp1 → List Slot → Prop where
  /-- The call fails, or only looks. -/
  | unchanged {c : Mp1Call} (hc : c ≠ .tasklet) : Effect s is c s is
  | linked {b : Blink} {i : Slot} (hvalid : b.location.toNat < 80 * 25) (hm : s.malloc = some i) :
      Effect s is (.add b) (s.linkNew i b) (i :: is)
  | unlinked {arg : BitVec 32} {i : Slot} {t : Mp1} (hi : s.nodeAt is (arg.setWidth 16) = some i)
      (ht : t.Listed (is.erase i)) (hv : t.vmem = s.vmem)
      (hkeep : ∀ j ≠ i, ∃ p, t.blinkArray j = { s.blinkArray j with next := p }) :
      Effect s is (.remove arg) t (is.erase i)
  | synced {arg : BitVec 32} {i j : Slot} (hi : s.nodeAt is ((arg >>> 16).setWidth 16) = some i)
      (hj : s.nodeAt is ((arg &&& 0xFFFF).setWidth 16) = some j) : Effect s is (.sync arg)
      (s.synced i j) is
  | blinked : Effect s is .tasklet (is.foldl Mp1.blink s) is

theorem step_add (s : Mp1) (b : Blink) : s.step (.add b) = some (s.ioctlAdd b).2 := rfl

theorem Listed.effect (h : s.Listed is) (c : Mp1Call) :
    ∃ t js, s.step c = some t ∧ Effect s is c t js := by
  cases c with
  | add b =>
    rw [step_add]
    rcases Nat.lt_or_ge b.location.toNat (80 * 25) with hvalid | hinvalid
    · cases hm : s.malloc with
      | none =>
        rw [ioctlAdd_full hm]
        exact ⟨s, is, rfl, .unchanged (by simp)⟩
      | some i =>
        rw [ioctlAdd_of_malloc hvalid hm]
        exact ⟨s.linkNew i b, i :: is, rfl, .linked hvalid hm⟩
    · rw [ioctlAdd_invalid hinvalid]
      exact ⟨s, is, rfl, .unchanged (by simp)⟩
  | remove arg =>
    cases hn : s.nodeAt is (arg.setWidth 16) with
    | none => exact ⟨s, is, by simp [Mp1.step, call, ioctlRemove_none h hn], .unchanged (by simp)⟩
    | some i =>
      obtain ⟨t, ht, hlisted, hv, hkeep⟩ := ioctlRemove_some h hn
      exact ⟨t, is.erase i, by simp [Mp1.step, call, ht], .unlinked hn hlisted hv hkeep⟩
  | find ax =>
    refine ⟨s, is, ?_, .unchanged (by simp)⟩
    cases hn : s.nodeAt is ax <;> simp [Mp1.step, call, ioctlFind, findHelper_eq h, hn]
  | sync arg =>
    rw [Mp1.step, call, ioctlSync_eq h]
    cases hi : s.nodeAt is ((arg >>> 16).setWidth 16) with
    | none => exact ⟨s, is, by simp, .unchanged (by simp)⟩
    | some i =>
      cases hj : s.nodeAt is ((arg &&& 0xFFFF).setWidth 16) with
      | none => exact ⟨s, is, by simp, .unchanged (by simp)⟩
      | some j => exact ⟨s.synced i j, is, rfl, .synced hi hj⟩
  | tasklet => exact ⟨is.foldl Mp1.blink s, is, by simp [Mp1.step, call, rtcTasklet_eq h], .blinked⟩

/-- An ADD of a new location that gets an entry. -/
theorem Shown.step_new (h : s.Shown is) {b : Blink} (hm : s.malloc = some i)
    (hvalid : b.location.toNat < 80 * 25) (hb : b.location ≠ 0)
    (hnew : ∀ j ∈ is, (s.blinkArray j).location ≠ b.location) :
    s.NewLocation (.add b) ∧ s.step (.add b) = some (s.linkNew i b) ∧
    (s.linkNew i b).Shown (i :: is) := by
  have hadd := ioctlAdd_of_malloc hvalid hm
  have hi := h.placed.not_mem_of_malloc hm
  refine ⟨⟨hb, ?_, ?_⟩, ?_, h.linkNew hi hb hnew⟩
  · rw [h.listed.nodes_eq]
    exact hnew
  · rw [hadd]
  · rw [step_add, hadd]

/-- A call that is no SYNC of two nodes keeps every node shown. -/
theorem Shown.step (h : s.Shown is) (hnew : s.NewLocation c)
    (hc : ∀ arg, c = .sync arg → ∀ i j, ¬ s.Names arg i j) :
    ∃ t js, s.step c = some t ∧ t.Shown js := by
  obtain ⟨t, js, ht, heffect⟩ := h.listed.effect c
  refine ⟨t, js, ht, ?_⟩
  cases heffect with
  | unchanged => exact h
  | linked hvalid hm =>
    obtain ⟨hb, hapart, -⟩ := hnew
    rw [h.listed.nodes_eq] at hapart
    exact h.linkNew (h.placed.not_mem_of_malloc hm) hb hapart
  | unlinked hi hlisted hv hkeep => exact h.erase hlisted hv hkeep
  | synced hi hj => exact absurd (h.names_iff.mpr ⟨hi, hj⟩) (hc _ rfl _ _)
  | blinked => exact h.foldl_blink fun _ hj => hj

/-- A SYNC of two nodes. -/
theorem Shown.step_sync (h : s.Shown is) {arg : BitVec 32} (hn : s.Names arg i j) :
    s.step (.sync arg) = some (s.synced i j) := by
  obtain ⟨hi, hj⟩ := h.names_iff.mp hn
  rw [Mp1.step, call, ioctlSync_eq h.listed, hi, hj]
  rfl

theorem Shown.shows_synced (h : s.Shown is) {arg : BitVec 32} (hn : s.Names arg i j) :
    s.Shows (.sync arg) (s.synced i j) ↔
      ((s.blinkArray i).status.getLsbD 0 = false ∨
        (s.blinkArray j).onChar = (s.blinkArray j).offChar) := by
  have hj := (nodeAt_eq_some (h.names_iff.mp hn).2).1
  rw [← h.synced_iff hj, Shows]
  apply and_iff_left
  intro i' j' hn'
  obtain ⟨rfl, rfl⟩ := h.names_unique hn hn'
  rw [((edits_synced hj).listed h.listed).nodes_eq]
  exact ⟨hj, by simp [synced], by simp [synced], by simp [synced], by simp [synced]⟩

theorem Shown.shows_iff (h : s.Shown is) (hnew : s.NewLocation c) :
    s.CopiesOff c ↔ ∃ t, s.step c = some t ∧ s.Shows c t := by
  by_cases hsync : ∃ arg i j, c = .sync arg ∧ s.Names arg i j
  · obtain ⟨arg, i, j, rfl, hn⟩ := hsync
    rw [h.step_sync hn]
    simp only [Option.some.injEq, exists_eq_left', h.shows_synced hn]
    constructor
    · exact fun hc => hc i j hn
    · intro hoff i' j' hn'
      obtain ⟨rfl, rfl⟩ := h.names_unique hn hn'
      exact hoff
  · have hnone : ∀ arg, c = .sync arg → ∀ i j, ¬ s.Names arg i j :=
      fun arg hc i j hn => hsync ⟨arg, i, j, hc, hn⟩
    obtain ⟨t, js, ht, hshown⟩ := h.step hnew hnone
    refine iff_of_true ?_ ⟨t, ht, hshown.coherent, ?_⟩
    · cases c with
      | sync arg => exact fun i j hn => absurd hn (hnone arg rfl i j)
      | _ => trivial
    · cases c with
      | sync arg => exact fun i j hn => absurd hn (hnone arg rfl i j)
      | _ => trivial

/-- The list that a call leaves is shown, if the call leaves the screen coherent. -/
theorem Shown.after (h : s.Shown is) (hnew : s.NewLocation c) (hc : s.CopiesOff c)
    (ht : s.step c = some t) : ∃ js, t.Shown js := by
  by_cases hsync : ∃ arg i j, c = .sync arg ∧ s.Names arg i j
  · obtain ⟨arg, i, j, rfl, hn⟩ := hsync
    rw [h.step_sync hn, Option.some.injEq] at ht
    subst ht
    have hj := (nodeAt_eq_some (h.names_iff.mp hn).2).1
    have he := edits_synced (s := s) (i := i) hj
    exact ⟨is, h.of_edits he ((Shown.coherent_iff (he.listed h.listed)).mp
      ((h.synced_iff hj).mpr (hc i j hn)))⟩
  · obtain ⟨u, js, hu, hshown⟩ := h.step hnew fun arg hc i j hn => hsync ⟨arg, i, j, hc, hn⟩
    obtain rfl : u = t := Option.some.inj (hu.symm.trans ht)
    exact ⟨js, hshown⟩

/-- The screen shows what the nodes' status words call for, exactly as long as SYNC copies no status
with bit 0 set to a node that has two different characters. -/
theorem display_coherent_iff (vmem : Nat → UInt8) (cs : List Mp1Call)
    (hnew : EachStep step NewLocation (empty vmem) cs) :
    Runs step Shows (empty vmem) cs ↔ EachStep step CopiesOff (empty vmem) cs := by
  apply runs_iff_eachStep (fun s => ∃ is, s.Shown is) (D := NewLocation) _ _ hnew
    ⟨[], shown_empty vmem⟩
  · rintro s c ⟨is, h⟩ hnew
    exact h.shows_iff hnew
  · rintro s c t ⟨is, h⟩ hnew hc ht
    exact h.after hnew hc ht

/-- Two ADDs on the empty list. -/
theorem two_added (vmem : Nat → UInt8) (b b' : Blink) (hvalid : b.location.toNat < 80 * 25)
    (hvalid' : b'.location.toNat < 80 * 25) (hb : b.location ≠ 0) (hb' : b'.location ≠ 0)
    (hne : b.location ≠ b'.location) :
    ∃ i j s t, step (empty vmem) (.add b) = some s ∧ step s (.add b') = some t ∧ t.Shown [j, i] ∧
      (empty vmem).NewLocation (.add b) ∧ s.NewLocation (.add b') ∧ i ≠ j ∧
      t = ((empty vmem).linkNew i b).linkNew j b' := by
  have hempty := shown_empty vmem
  obtain ⟨i, hi⟩ := hempty.listed.exists_malloc (by decide)
  obtain ⟨hnew, hs, hshown⟩ := hempty.step_new hi hvalid hb (by simp)
  obtain ⟨j, hj⟩ := hshown.listed.exists_malloc (show 1 < blinkEntries by decide)
  have hapart : ∀ k ∈ [i], (((empty vmem).linkNew i b).blinkArray k).location ≠ b'.location := by
    simpa using hne
  obtain ⟨hnew', ht, hshown'⟩ := hshown.step_new hj hvalid' hb' hapart
  have hij : i ≠ j := by
    rintro rfl
    exact absurd hshown'.listed.nodup (by simp)
  exact ⟨i, j, _, _, hs, ht, hshown', hnew, hnew', hij, rfl⟩

/-- Two nodes, one step of both, and the end of the first one. -/
theorem display_coherent_two :
    let cs := [.add (mainBlink 40), .add (mainBlink 540), .tasklet, .remove 40]
    EachStep step NewLocation (empty fun _ => 0) cs ∧
      (Runs step Shows (empty fun _ => 0) cs ↔ EachStep step CopiesOff (empty fun _ => 0) cs) := by
  obtain ⟨i, j, s, t, hs, ht, -, hnew, hnew', -⟩ :=
    two_added (fun _ => 0) (mainBlink 40) (mainBlink 540)
    (by decide) (by decide) (by decide) (by decide) (by decide)
  have hall : EachStep step NewLocation (empty fun _ => 0)
      [.add (mainBlink 40), .add (mainBlink 540), .tasklet, .remove 40] := by
    rw [eachStep_cons hs, eachStep_cons ht]
    exact ⟨hnew, hnew', trivial, fun _ _ => ⟨trivial, fun _ _ => trivial⟩⟩
  exact ⟨hall, display_coherent_iff (fun _ => 0) _ hall⟩

/-- SYNC as in `main`, between two nodes that have just been added: the second one is on, and shows
its `off_char`. -/
theorem display_not_coherent : ¬ ∀ vmem cs, EachStep step NewLocation (empty vmem) cs →
    Runs step Shows (empty vmem) cs := by
  intro h
  obtain ⟨i, j, s, t, hs, ht, hshown, hnew, hnew', hij, hnodes⟩ :=
    two_added (fun _ => 0) (mainBlink 40) (mainBlink 540)
      (by decide) (by decide) (by decide) (by decide) (by decide)
  have hall : EachStep step NewLocation (empty fun _ => 0)
      [.add (mainBlink 40), .add (mainBlink 540), .sync (40 <<< 16 ||| 540)] := by
    rw [eachStep_cons hs, eachStep_cons ht]
    exact ⟨hnew, hnew', trivial, fun _ _ => trivial⟩
  have hruns := h _ _ hall
  rw [runs_cons hs, runs_cons ht] at hruns
  obtain ⟨-, -, u, hu, hshows, -⟩ := hruns
  have hnames : t.Names (40 <<< 16 ||| 540) i j := by
    rw [Names, hshown.listed.nodes_eq]
    refine ⟨by simp, by simp, ?_, ?_⟩
    · simp [hnodes, hij, mainBlink]
    · simp [hnodes, mainBlink]
  have hoff := (hshown.shows_iff (c := .sync (40 <<< 16 ||| 540)) trivial).mpr
    ⟨u, hu, hshows⟩ i j hnames
  simp [hnodes, hij, mainBlink] at hoff

end OreOS.Mp1
