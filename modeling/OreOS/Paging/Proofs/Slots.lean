import OreOS.Paging.Proofs.Isolation

/-!
# Giving out process slots

The search of `new_pde` runs over all eight entries of `proc`, the test for failure is against 7,
and process `p` uses row `p + 1` of `PDE`. What keeps these apart is that slot 7 is always free:
the search then stops at 7 at the latest, and a slot that is given out is one of `0..6`.
-/

namespace OreOS
open Machine

variable {P P' : Paging}

/-- The search of `new_pde` stops at slot 7 at the latest. -/
theorem freeSlot_le (h : P.proc[7]? = some 0) : P.freeSlot ≤ 7 := by
  by_contra hgt
  have := not_of_lt_firstIdx (p := (· == 0)) (a := P.proc) (i := 7) (by
    unfold Paging.freeSlot at hgt
    omega) h
  simp at this

/-- The slot at which the search stops is free. -/
theorem freeSlot_free (hle : P.freeSlot ≤ 7) : P.proc[P.freeSlot]? = some 0 := by
  obtain ⟨x, hx, hzero⟩ := firstIdx_spec (p := (· == 0)) (a := P.proc) (by
    unfold Paging.freeSlot at hle
    omega)
  have hx0 : x = 0 := by simpa using hzero
  rw [hx0] at hx
  exact hx

/-- The calls that give out and take back slots. A slot is taken back only while it is in use. -/
def SlotCall (P : Paging) : PageOp → Prop
  | .newPde _ => True
  | .removePage procId => 0 ≤ procId ∧ P.Live procId.toNat
  | .sysVidmap _ _ => False

instance decidableSlotCall (P : Paging) : ∀ op, Decidable (SlotCall P op)
  | .newPde _ => isTrue trivial
  | .removePage procId => inferInstanceAs (Decidable (0 ≤ procId ∧ P.Live procId.toNat))
  | .sysVidmap _ _ => isFalse id

/-- What a call of `new_pde` with result `r` did to the slots: it took the least of `0..6` that was
    not in use, or all of them were. The row `r + 1` is one of the eight of `PDE`. -/
structure SlotTaken (P : Paging) (r : Int) (P' : Paging) : Prop where
  fails : r = -1 ↔ ∀ p < 7, P.Live p
  unchanged : r = -1 → P' = P
  taken : r ≠ -1 → ∃ i : Nat, r = i ∧ i ≤ 6 ∧ i + 1 < 8 ∧ ¬ P.Live i ∧ (∀ j < i, P.Live j) ∧
    ∀ j, P'.Live j ↔ j = i ∨ P.Live j

/-- What each call did to the slots. -/
def SlotStep (P : Paging) (op : PageOp) (P' : Paging) : Prop :=
  match op with
  | .newPde entry => ∃ r, newPde entry P = some (r, P') ∧ SlotTaken P r P'
  | .removePage procId => ∀ j : Nat, P'.Live j ↔ P.Live j ∧ (j : Int) ≠ procId
  | .sysVidmap _ _ => False

/-- Slots hold 0 or 1, and slot 7 holds 0. -/
structure SlotsOk (P : Paging) : Prop where
  bits : ∀ p x : Nat, P.proc[p]? = some x → x = 0 ∨ x = 1
  slot7 : P.proc[7]? = some 0

theorem slotsOk_of_zero (h : P.proc = Vector.replicate 8 0) : SlotsOk P := by
  refine ⟨fun p x hx => .inl ?_, by rw [h]; rfl⟩
  rw [h] at hx
  obtain ⟨hp, hx⟩ := Vector.getElem?_eq_some_iff.mp hx
  simpa using hx.symm

/-- Writing a bit into a slot other than 7. -/
theorem SlotsOk.store {i x : Nat} (h : SlotsOk P) (hstore : Machine.store P.proc i x = some P'.proc)
    (hx : x = 0 ∨ x = 1) (h7 : i = 7 → x = 0) : SlotsOk P' := by
  refine ⟨?_, ?_⟩
  · intro p y hy
    rw [getElem?_of_store hstore] at hy
    split at hy
    · cases hy
      exact hx
    · exact h.bits p y hy
  · rw [getElem?_of_store hstore]
    split
    next hi => rw [h7 hi]
    next => exact h.slot7

/-- The slots that the search passes over are in use. -/
theorem SlotsOk.live_of_lt (h : SlotsOk P) {p : Nat} (hp : p < P.freeSlot) : P.Live p := by
  have hlt : p < 8 := by
    have := freeSlot_le h.slot7
    omega
  have hget : P.proc[p]? = some P.proc[p] := Vector.getElem?_eq_getElem hlt
  have hne : P.proc[p] ≠ 0 := by
    have := not_of_lt_firstIdx (p := (· == 0)) (a := P.proc) hp hget
    simpa using this
  have hone : P.proc[p] = 1 := (h.bits p _ hget).resolve_left hne
  rw [Paging.Live, hget, hone]

theorem SlotsOk.not_live_freeSlot (h : SlotsOk P) : ¬ P.Live P.freeSlot := by
  unfold Paging.Live
  rw [freeSlot_free (freeSlot_le h.slot7)]
  decide

/-- `new_pde` is defined and takes the least free slot, unless that is slot 7. -/
theorem SlotsOk.newPde (h : SlotsOk P) (entry : Word) :
    ∃ r P', newPde entry P = some (r, P') ∧ SlotTaken P r P' ∧ SlotsOk P' := by
  have hle := freeSlot_le h.slot7
  have hfree := h.not_live_freeSlot
  by_cases h7 : P.freeSlot = 7
  · refine ⟨-1, P, by rw [OreOS.newPde, if_pos h7], ⟨?_, fun _ => rfl, fun hr => absurd rfl hr⟩, h⟩
    exact ⟨fun _ p hp => h.live_of_lt (by omega), fun _ => rfl⟩
  · have hstore := store_isSome (a := P.proc) 1 (show P.freeSlot < 8 by omega)
    refine ⟨P.freeSlot, _, by rw [OreOS.newPde, if_neg h7, hstore]; rfl, ⟨?_, ?_, ?_⟩, ?_⟩
    · constructor
      · intro hr
        omega
      · intro hall
        exact absurd (hall P.freeSlot (by omega)) hfree
    · intro hr
      omega
    · intro _
      refine ⟨P.freeSlot, rfl, by omega, by omega, hfree, fun j hj => h.live_of_lt hj, fun j => ?_⟩
      simp only [Paging.Live, fillPde_proc, getElem?_of_store hstore]
      by_cases hj : P.freeSlot = j
      · simp [hj]
      · simp [hj, Ne.symm hj]
    · exact h.store hstore (.inr rfl) fun hi => absurd hi h7

theorem SlotsOk.removePage (h : SlotsOk P) {procId : Int} (h0 : 0 ≤ procId)
    (hlive : P.Live procId.toNat) :
    ∃ P', removePage procId P = some P' ∧ (∀ j : Nat, P'.Live j ↔ P.Live j ∧ (j : Int) ≠ procId) ∧
      SlotsOk P' := by
  have hlt : procId.toNat < 8 := (Vector.getElem?_eq_some_iff.mp hlive).1
  have hstore := store_isSome (a := P.proc) 0 hlt
  have hset : storeInt P.proc procId 0 = some (P.proc.set procId.toNat 0 hlt) := by
    rw [storeInt, if_pos h0, hstore]
  have hremoved : OreOS.removePage procId P =
      some { P with proc := P.proc.set procId.toNat 0 hlt } := by
    rw [OreOS.removePage, hset]
    rfl
  refine ⟨_, hremoved, ?_, h.store hstore (.inl rfl) fun _ => rfl⟩
  intro j
  simp only [Paging.Live, getElem?_of_store hstore]
  by_cases hj : procId.toNat = j
  · have hid : (j : Int) = procId := by omega
    simp [hj, hid]
  · have hid : ¬ (j : Int) = procId := by omega
    simp [hj, hid]

/-- One call. -/
theorem SlotsOk.step (h : SlotsOk P) {op : PageOp} (hop : SlotCall P op) :
    ∃ P', pageStep P op = some P' ∧ (SlotStep P op P' ∧ P'.proc[7]? = some 0) ∧ SlotsOk P' := by
  cases op with
  | newPde entry =>
    obtain ⟨r, P', hnew, htaken, hok⟩ := h.newPde entry
    refine ⟨P', ?_, ⟨⟨r, hnew, htaken⟩, hok.slot7⟩, hok⟩
    rw [pageStep, hnew]
    rfl
  | removePage procId =>
    obtain ⟨P', hrem, hlive, hok⟩ := h.removePage hop.1 hop.2
    exact ⟨P', hrem, ⟨hlive, hok.slot7⟩, hok⟩
  | sysVidmap procId addr => exact hop.elim

/-- From an all-zero `proc`, every sequence of calls of `new_pde` and of `remove_page` for slots in
    use is defined, takes and frees slots as described, and never uses slot 7. -/
theorem slots_run (hzero : P.proc = Vector.replicate 8 0) {ops : List PageOp}
    (hops : EachStep pageStep SlotCall P ops) :
    Runs pageStep (fun P op P' => SlotStep P op P' ∧ P'.proc[7]? = some 0) P ops :=
  runs_of_inv_each (fun _ _ hok hop => hok.step hop) (slotsOk_of_zero hzero) hops

/-- Three programs are started, the second ends and its slot is used again. -/
def reuseSlot : List PageOp :=
  [.newPde 0x8048000#32, .newPde 0x8048000#32, .newPde 0x8048000#32, .removePage 1,
    .newPde 0x8048000#32]

theorem slots_run_reuseSlot :
    EachStep pageStep SlotCall (resetPaging 0x410000#32) reuseSlot ∧
      Runs pageStep (fun P op P' => SlotStep P op P' ∧ P'.proc[7]? = some 0)
        (resetPaging 0x410000#32) reuseSlot := by
  have hops : EachStep pageStep SlotCall (resetPaging 0x410000#32) reuseSlot := by decide
  exact ⟨hops, slots_run rfl hops⟩

end OreOS
