import Mathlib.Data.List.Basic
import OreOS.Fish.Proofs.BlinkList
import OreOS.Machine.Trace

/-!
# The integrity of the blink list

`mp1_ioctl_add` checks that a location is below 2000, and `mp1_malloc` takes an entry with location
0 for a free one. A node that was added with location 0 therefore can be handed out again while it
is in the list, and the list becomes a circle. Everything else keeps the list intact.

A session is the program with a history: how many calls of `mp1_ioctl` added and removed a node, and
which call put a node into its entry.
-/

namespace OreOS
open Machine Mp1

/-- The program with its history. -/
structure BlinkSession where
  mp1 : Mp1
  /-- What the last call returned, if it returns anything. -/
  returned : Option Int
  adds : Nat
  removes : Nat
  /-- The successful ADDs before the one that filled the entry. -/
  addedAt : Slot → Nat

namespace BlinkSession

/-- Before the first call, over any contents of video memory. -/
def boot (vmem : Nat → UInt8) : BlinkSession := ⟨Mp1.empty vmem, none, 0, 0, fun _ => 0⟩

/-- The history after a call. -/
def record (s : BlinkSession) (c : Mp1Call) (returned : Option Int) (t : Mp1) : BlinkSession :=
  match c, returned, t.listHead with
  | .add _, some 0, some i =>
      ⟨t, returned, s.adds + 1, s.removes, Function.update s.addedAt i s.adds⟩
  | .remove _, some 0, _ => ⟨t, returned, s.adds, s.removes + 1, s.addedAt⟩
  | _, _, _ => ⟨t, returned, s.adds, s.removes, s.addedAt⟩

/-- A call and its entry in the history. -/
def step (s : BlinkSession) (c : Mp1Call) : Option BlinkSession :=
  (s.mp1.call c).map fun r => s.record c r.1 r.2

/-- The location of the node in an entry. -/
def location (s : BlinkSession) (i : Slot) : BitVec 16 := (s.mp1.blinkArray i).location

/-- The node in entry `i` is the one with the location that was added last. -/
def Newest (s : BlinkSession) (location : BitVec 16) (i : Slot) : Prop :=
  i ∈ s.mp1.nodes ∧ s.location i = location ∧
    ∀ j ∈ s.mp1.nodes, s.location j = location → s.addedAt j ≤ s.addedAt i

/-- From the head the list comes to each of its nodes once and ends; it has a node for every ADD
that was not undone by a REMOVE, the last one first. -/
structure Intact (s : BlinkSession) : Prop where
  chain : Chain s.mp1.next s.mp1.listHead s.mp1.nodes
  distinct : s.mp1.nodes.Nodup
  count : s.mp1.nodes.length + s.removes = s.adds
  newest : s.mp1.nodes.Pairwise fun i j => s.addedAt j < s.addedAt i

/-- What a call does to the list. -/
def Served (s : BlinkSession) (t : BlinkSession) : Mp1Call → Prop
  | .add b =>
      if b.location.toNat < 2000 ∧ s.mp1.nodes.length < 2000 then
        t.returned = some 0 ∧
          ∃ i ∉ s.mp1.nodes, t.mp1.nodes = i :: s.mp1.nodes ∧ t.location i = b.location
      else t.returned = some (-1) ∧ t.mp1.nodes = s.mp1.nodes
  | .remove arg =>
      (∀ i, s.Newest (arg.setWidth 16) i → t.returned = some 0 ∧
        t.mp1.nodes = s.mp1.nodes.erase i) ∧ ((∀ i ∈ s.mp1.nodes, s.location i ≠ arg.setWidth 16) →
          t.returned = some (-1) ∧ t.mp1.nodes = s.mp1.nodes)
  | .find _ | .sync _ | .tasklet => t.mp1.nodes = s.mp1.nodes

/-- A call leaves the list intact, does what it should and moves no node that stays. -/
def Correct (s : BlinkSession) (c : Mp1Call) (t : BlinkSession) : Prop :=
  t.Intact ∧ s.Served t c ∧ ∀ i ∈ s.mp1.nodes, i ∈ t.mp1.nodes → t.location i = s.location i

/-- An ADD with a valid location arrives while every node with location 0 has an entry below it that
is not in the list. -/
def RoomBelow (s : BlinkSession) : Mp1Call → Prop
  | .add b => b.location.toNat < 2000 →
      ∀ i ∈ s.mp1.nodes, s.location i = 0 → ∃ j < i, j ∉ s.mp1.nodes
  | _ => True

/-! ## The invariant -/

/-- The list has the nodes `is`, and the history belongs to them. -/
structure Inv (s : BlinkSession) (is : List Slot) : Prop where
  listed : s.mp1.Listed is
  count : is.length + s.removes = s.adds
  newest : is.Pairwise fun i j => s.addedAt j < s.addedAt i
  before : ∀ i ∈ is, s.addedAt i < s.adds

variable {s t : BlinkSession} {is : List Slot} {i : Slot} {c : Mp1Call}

theorem inv_boot (vmem : Nat → UInt8) : (boot vmem).Inv [] :=
  ⟨listed_empty vmem, rfl, .nil, by simp⟩

theorem Inv.intact (h : s.Inv is) : s.Intact := by
  have hnodes := h.listed.nodes_eq
  refine ⟨?_, ?_, ?_, ?_⟩ <;> rw [hnodes]
  · exact h.listed.chain
  · exact h.listed.nodup
  · exact h.count
  · exact h.newest

/-- A call that leaves the list and the history alone. -/
theorem Inv.edits (h : s.Inv is) {u : Mp1} (hu : Edits s.mp1 u is) (r : Option Int) :
    Inv ⟨u, r, s.adds, s.removes, s.addedAt⟩ is :=
  ⟨hu.listed h.listed, h.count, h.newest, h.before⟩

/-- The first node of the list with a location is the newest one. -/
theorem Inv.newest_iff (h : s.Inv is) (ax : BitVec 16) :
    s.Newest ax i ↔ s.mp1.nodeAt is ax = some i := by
  unfold Newest
  rw [h.listed.nodes_eq]
  constructor
  · rintro ⟨hi, hax, hmax⟩
    cases hn : s.mp1.nodeAt is ax with
    | none => exact absurd hax (nodeAt_eq_none.mp hn i hi)
    | some j =>
      obtain ⟨hj, as, bs, rfl, has⟩ := List.find?_eq_some_iff_append.mp hn
      -- A later node with the location would be older than the first one.
      rcases List.mem_append.mp hi with hi | hi
      · exact absurd hax (by simpa [location] using has i hi)
      · rcases List.mem_cons.mp hi with rfl | hi
        · rfl
        · have hlt := (List.pairwise_cons.mp (List.pairwise_append.mp h.newest).2.1).1 i hi
          exact absurd (hmax j (by simp) (by simpa [location] using hj)) (not_le.mpr hlt)
  · intro hn
    obtain ⟨hi, hax⟩ := nodeAt_eq_some hn
    refine ⟨hi, hax, ?_⟩
    obtain ⟨-, as, bs, rfl, has⟩ := List.find?_eq_some_iff_append.mp hn
    intro j hj hjax
    rcases List.mem_append.mp hj with hj | hj
    · exact absurd hjax (by simpa [location] using has j hj)
    · rcases List.mem_cons.mp hj with rfl | hj
      · exact le_rfl
      · exact le_of_lt ((List.pairwise_cons.mp (List.pairwise_append.mp h.newest).2.1).1 j hj)

/-! ## One call -/

theorem step_add (s : BlinkSession) (b : Blink) :
    s.step (.add b) = some (s.record (.add b) (some (s.mp1.ioctlAdd b).1) (s.mp1.ioctlAdd b).2) :=
    rfl

/-- A call that is answered, keeps the invariant and does what it should. -/
def Answered (s : BlinkSession) (c : Mp1Call) : Prop :=
  ∃ t js, s.step c = some t ∧ t.Inv js ∧ s.Served t c ∧
    ∀ i ∈ s.mp1.nodes, i ∈ t.mp1.nodes → t.location i = s.location i

theorem Answered.correct (h : s.Answered c) : ∃ t, s.step c = some t ∧ s.Correct c t := by
  obtain ⟨t, js, ht, hinv, hserved, hloc⟩ := h
  exact ⟨t, ht, hinv.intact, hserved, hloc⟩

theorem Answered.inv (h : s.Answered c) (ht : s.step c = some t) : ∃ js, t.Inv js := by
  obtain ⟨u, js, hu, hinv, -, -⟩ := h
  obtain rfl : u = t := Option.some.inj (hu.symm.trans ht)
  exact ⟨js, hinv⟩

/-- A call that only writes to the nodes of the list and to the screen. -/
theorem Inv.answered_edits (h : s.Inv is) {u : Mp1} {r : Option Int} (hu : Edits s.mp1 u is)
    (ht : s.step c = some ⟨u, r, s.adds, s.removes, s.addedAt⟩)
    (hserved : ∀ t : BlinkSession, t.returned = r → t.mp1.nodes = s.mp1.nodes → s.Served t c) :
    s.Answered c := by
  refine ⟨_, is, ht, h.edits hu r, hserved _ rfl ?_, fun i _ _ => hu.location i⟩
  rw [(hu.listed h.listed).nodes_eq, h.listed.nodes_eq]

theorem Inv.room_iff (h : s.Inv is) {b : Blink} (hb : b.location.toNat < 2000)
    (hm : s.mp1.malloc = some i) : s.RoomBelow (.add b) ↔ i ∉ is := by
  rw [malloc_not_mem_iff h.listed hm, RoomBelow, h.listed.nodes_eq]
  exact forall_prop_of_true hb

theorem Inv.answered_add (h : s.Inv is) {b : Blink} (hroom : s.RoomBelow (.add b)) :
    s.Answered (.add b) := by
  by_cases hb : b.location.toNat < 2000
  · cases hm : s.mp1.malloc with
    | none =>
      have hfull := h.listed.length_eq (mem_of_malloc_eq_none h.listed hm)
      refine h.answered_edits (r := some (-1)) (Edits.refl _ _) ?_ ?_
      · rw [step_add, ioctlAdd_full hm]
        rfl
      · intro t hr hn
        rw [Served, h.listed.nodes_eq, if_neg fun hlen => absurd
          hlen.2 (by simp [hfull, blinkEntries])]
        exact ⟨hr, hn.trans h.listed.nodes_eq⟩
    | some i =>
      have hi : i ∉ is := (h.room_iff hb hm).mp hroom
      have hlisted := h.listed.linkNew hi b
      refine ⟨_, i :: is, step_add s b, ?_, ?_, ?_⟩
      · rw [ioctlAdd_of_malloc hb hm]
        have hnew : ∀ j ∈ is, Function.update s.addedAt i s.adds j = s.addedAt j := update_eq_on hi
        refine ⟨hlisted, ?_, ?_, ?_⟩
        · simp only [record, linkNew_listHead, List.length_cons]
          have hcount := h.count
          omega
        · simp only [record, linkNew_listHead, List.pairwise_cons]
          refine ⟨?_, h.newest.imp_of_mem ?_⟩
          · intro j hj
            rw [hnew j hj, Function.update_self]
            exact h.before j hj
          · intro j k hj hk hlt
            rwa [hnew j hj, hnew k hk]
        · simp only [record, linkNew_listHead, List.mem_cons, forall_eq_or_imp]
          refine ⟨by simp, fun j hj => ?_⟩
          rw [hnew j hj]
          exact Nat.lt_succ_of_lt (h.before j hj)
      · rw [ioctlAdd_of_malloc hb hm]
        rw [Served, h.listed.nodes_eq, if_pos ⟨hb, h.listed.length_lt hi⟩]
        exact ⟨rfl, i, hi, hlisted.nodes_eq, by simp [record, location]⟩
      · rw [ioctlAdd_of_malloc hb hm, h.listed.nodes_eq]
        intro j hj _
        have hne : j ≠ i := fun hji => hi (hji ▸ hj)
        simp [record, location, hne]
  · refine h.answered_edits (r := some (-1)) (Edits.refl _ _) ?_ ?_
    · rw [step_add, ioctlAdd_invalid (Nat.not_lt.mp hb)]
      rfl
    · intro t hr hn
      rw [Served, if_neg fun h => hb h.1]
      exact ⟨hr, hn⟩

theorem Inv.answered_remove (h : s.Inv is) (arg : BitVec 32) : s.Answered (.remove arg) := by
  cases hn : s.mp1.nodeAt is (arg.setWidth 16) with
  | none =>
    refine h.answered_edits (r := some (-1)) (Edits.refl _ _) ?_ ?_
    · simp [step, call, ioctlRemove_none h.listed hn, record]
    · intro t hr hnodes
      refine ⟨?_, fun _ => ⟨hr, hnodes⟩⟩
      intro i hi
      rw [h.newest_iff, hn] at hi
      exact absurd hi (by simp)
  | some i =>
    obtain ⟨u, hu, hlisted, -, hkeep⟩ := ioctlRemove_some h.listed hn
    obtain ⟨hi, hloc⟩ := nodeAt_eq_some hn
    have hlen := List.length_erase_add_one hi
    refine ⟨⟨u, some 0, s.adds, s.removes + 1, s.addedAt⟩, is.erase i, ?_, ⟨hlisted, ?_, ?_, ?_⟩,
      ⟨?_, ?_⟩, ?_⟩
    · simp [step, call, hu, record]
    · have hcount := h.count
      simp only
      omega
    · exact h.newest.sublist List.erase_sublist
    · exact fun j hj => h.before j (List.mem_of_mem_erase hj)
    · intro j hj
      rw [h.newest_iff, hn] at hj
      cases hj
      exact ⟨rfl, by rw [hlisted.nodes_eq, h.listed.nodes_eq]⟩
    · intro hnone
      rw [h.listed.nodes_eq] at hnone
      exact absurd hloc (hnone i hi)
    · rw [hlisted.nodes_eq]
      intro j _ hj
      obtain ⟨p, hp⟩ := hkeep j fun hji => (h.listed.nodup.not_mem_erase) (hji ▸ hj)
      simp [location, hp]

theorem Inv.answered (h : s.Inv is) (hroom : s.RoomBelow c) : s.Answered c := by
  cases c with
  | add b => exact h.answered_add hroom
  | remove arg => exact h.answered_remove arg
  | find ax =>
    cases hn : s.mp1.nodeAt is ax with
    | none =>
      refine h.answered_edits (r := some (-1)) (Edits.refl _ _) ?_ fun _ _ hnodes => hnodes
      simp [step, call, ioctlFind, findHelper_eq h.listed, hn, record]
    | some i =>
      refine h.answered_edits (r := some 0) (Edits.refl _ _) ?_ fun _ _ hnodes => hnodes
      simp [step, call, ioctlFind, findHelper_eq h.listed, hn, record]
  | sync arg =>
    have hstep : s.step (.sync arg) = (s.mp1.ioctlSync arg).map fun r =>
        ⟨r.2, some r.1, s.adds, s.removes, s.addedAt⟩ := by
      simp [step, call, record, Function.comp_def]
    rw [ioctlSync_eq h.listed] at hstep
    cases hi : s.mp1.nodeAt is ((arg >>> 16).setWidth 16) with
    | none =>
      simp only [hi] at hstep
      exact h.answered_edits (Edits.refl _ _) hstep fun _ _ hnodes => hnodes
    | some i =>
      cases hj : s.mp1.nodeAt is ((arg &&& 0xFFFF).setWidth 16) with
      | none =>
        simp only [hi, hj] at hstep
        exact h.answered_edits (Edits.refl _ _) hstep fun _ _ hnodes => hnodes
      | some j =>
        simp only [hi, hj] at hstep
        exact h.answered_edits (edits_synced (nodeAt_eq_some hj).1) hstep fun _ _ hnodes => hnodes
  | tasklet =>
    refine h.answered_edits (r := none) (edits_foldl_blink fun _ hj => hj) ?_ fun _ _ hnodes =>
      hnodes
    simp [step, call, rtcTasklet_eq h.listed, record]

/-- An ADD that gets the entry of a node leaves a list that does not end. -/
theorem Inv.not_correct (h : s.Inv is) (hroom : ¬ s.RoomBelow c) (ht : s.step c = some t) :
    ¬ s.Correct c t := by
  cases c with
  | add b =>
    have hb : b.location.toNat < 2000 := by
      by_contra hb
      exact hroom fun hlt => absurd hlt hb
    rintro ⟨hintact, hserved, -⟩
    cases hm : s.mp1.malloc with
    | none => exact hroom fun _ i _ hi => absurd hi (malloc_eq_none.mp hm i)
    | some i =>
      rw [h.room_iff hb hm, not_not] at hroom
      rw [step_add, ioctlAdd_of_malloc hb hm, Option.some.injEq] at ht
      subst ht
      exact h.listed.not_chain_linkNew hroom b _ hintact.chain
  | _ => exact absurd trivial hroom

theorem roomBelow_iff (h : s.Inv is) : s.RoomBelow c ↔ ∃ t, s.step c = some t ∧ s.Correct c t := by
  constructor
  · exact fun hroom => (h.answered hroom).correct
  · rintro ⟨t, ht, hcorrect⟩
    by_contra hroom
    exact h.not_correct hroom ht hcorrect

/-- The list stays intact, and every call ends, exactly as long as every ADD with a valid location
finds an entry outside the list below each node with location 0. -/
theorem list_intact_iff (vmem : Nat → UInt8) (cs : List Mp1Call) :
    Runs step Correct (boot vmem) cs ↔ EachStep step RoomBelow (boot vmem) cs := by
  apply runs_iff_eachStep (fun s => ∃ is, s.Inv is) (D := fun _ _ => True)
  · rintro s c ⟨is, h⟩ -
    exact roomBelow_iff h
  · rintro s c t ⟨is, h⟩ - hroom ht
    exact (h.answered hroom).inv ht
  · exact eachStep_of_forall fun _ _ => trivial
  · exact ⟨[], inv_boot vmem⟩

/-- Two ADDs share the lowest entry, and the search for a third location does not end. -/
theorem not_list_intact : ¬ ∀ vmem cs, Runs step Correct (boot vmem) cs := by
  intro h
  obtain ⟨s, hs, -, t, ht, -, u, hu, -⟩ :=
    h (fun _ => 0) [.add (mainBlink 0), .add (mainBlink 5), .find 7]
  have hrun : runFrom step (boot fun _ => 0) [.add (mainBlink 0), .add (mainBlink 5), .find 7] =
      some u := by
    rw [runFrom_cons hs, runFrom_cons ht, runFrom_cons hu, runFrom_nil]
  have hnone :
      (runFrom step (boot fun _ => 0) [.add (mainBlink 0), .add (mainBlink 5), .find 7]).isNone =
      true := by
    decide +kernel
  rw [hrun] at hnone
  exact absurd hnone (by simp)

end BlinkSession

end OreOS
