import Mathlib.Data.Fintype.Card
import OreOS.Fish.Blink

/-!
# The operations on the blink list

One specification for each operation, over the nodes of the list. Entries of `blink_array` outside
the list are zeroed, which is what `mp1_malloc` goes by; a node whose location is 0 looks free as
well.
-/

namespace OreOS.Mp1
open Machine

variable {s t : Mp1} {is : List Slot} {i j : Slot} {b : Blink}

/-- The nodes of the list, from the head; at most one for each entry of the array. -/
def nodes (s : Mp1) : List Slot := follow s.next blinkEntries s.listHead

/-- The list has the nodes `is`, and all other entries are as `mp1_free` leaves them. -/
structure Listed (s : Mp1) (is : List Slot) : Prop where
  chain : Chain s.next s.listHead is
  free : ∀ i ∉ is, s.blinkArray i = .zero

theorem listed_empty (vmem : Nat → UInt8) : (empty vmem).Listed [] := ⟨rfl, fun _ _ => rfl⟩

namespace Listed

theorem nodup (h : s.Listed is) : is.Nodup := h.chain.nodup

theorem length_le (h : s.Listed is) : is.length ≤ blinkEntries := by
  simpa using h.nodup.length_le_card

theorem length_lt_walkFuel (h : s.Listed is) : is.length < walkFuel := Nat.lt_succ_of_le h.length_le

theorem nodes_eq (h : s.Listed is) : s.nodes = is := follow_of_chain h.chain h.length_le

/-- A list that leaves an entry out is shorter than the array. -/
theorem length_lt (h : s.Listed is) (hi : i ∉ is) : is.length < blinkEntries := by
  have hlen := (List.nodup_cons.mpr ⟨hi, h.nodup⟩).length_le_card
  exact Nat.lt_of_succ_le (by simpa using hlen)

/-- A list that leaves no entry out has as many nodes as the array has entries. -/
theorem length_eq (h : s.Listed is) (hall : ∀ i, i ∈ is) : is.length = blinkEntries := by
  apply le_antisymm h.length_le
  have hsub : List.finRange blinkEntries ⊆ is := fun i _ => hall i
  simpa using (List.subperm_of_subset (List.nodup_finRange _) hsub).length_le

end Listed

/-! ## Reading and writing an entry -/

@[simp] theorem set_listHead : (s.set i b).listHead = s.listHead := rfl
@[simp] theorem set_vmem : (s.set i b).vmem = s.vmem := rfl
@[simp] theorem set_blinkArray : (s.set i b).blinkArray = Function.update s.blinkArray i b := rfl
@[simp] theorem poke_blinkArray {c : UInt8} {n : Nat} :
    (s.poke c n).blinkArray = s.blinkArray := rfl
@[simp] theorem poke_vmem {c : UInt8} {n : Nat} :
    (s.poke c n).vmem = Function.update s.vmem n c := rfl

@[simp] theorem set_next : (s.set i b).next = Function.update s.next i b.next := by
  funext j
  by_cases hj : j = i
  · subst hj; simp [next]
  · simp [next, hj]

@[simp] theorem storeLink_listHead {q : Option Slot} {l : Link Slot} :
    (s.storeLink q l).listHead = l.storeHead s.listHead q := by
  cases l <;> rfl

@[simp] theorem storeLink_next {q : Option Slot} {l : Link Slot} :
    (s.storeLink q l).next = l.storeNext s.next q := by
  cases l with
  | head => rfl
  | next i => simp [storeLink, Link.storeNext]

/-- A store to a link changes no entry but for its pointer. -/
theorem storeLink_blinkArray (s : Mp1) (q : Option Slot) (l : Link Slot) (j : Slot) :
    ∃ p, (s.storeLink q l).blinkArray j = { s.blinkArray j with next := p } := by
  cases l with
  | head => exact ⟨(s.blinkArray j).next, rfl⟩
  | next i =>
    by_cases hj : j = i
    · exact ⟨q, by subst hj; simp [storeLink]⟩
    · exact ⟨(s.blinkArray j).next, by simp [storeLink, hj]⟩

/-- `t` is `s` but for the screen and the contents of the nodes `is`, which keep their characters,
their locations and their pointers. -/
structure Edits (s t : Mp1) (is : List Slot) : Prop where
  head : t.listHead = s.listHead
  entry : ∀ j, ∃ onLength offLength countdown status, t.blinkArray j =
    { s.blinkArray j with onLength, offLength, countdown, status }
  others : ∀ j ∉ is, t.blinkArray j = s.blinkArray j

namespace Edits

theorem next (h : Edits s t is) : t.next = s.next := by
  funext j
  obtain ⟨_, _, _, _, hj⟩ := h.entry j
  simp [Mp1.next, hj]

theorem location (h : Edits s t is) (j : Slot) :
    (t.blinkArray j).location = (s.blinkArray j).location := by
  obtain ⟨_, _, _, _, hj⟩ := h.entry j
  rw [hj]

theorem onChar (h : Edits s t is) (j : Slot) :
    (t.blinkArray j).onChar = (s.blinkArray j).onChar := by
  obtain ⟨_, _, _, _, hj⟩ := h.entry j
  rw [hj]

theorem offChar (h : Edits s t is) (j : Slot) :
    (t.blinkArray j).offChar = (s.blinkArray j).offChar := by
  obtain ⟨_, _, _, _, hj⟩ := h.entry j
  rw [hj]

theorem refl (s : Mp1) (is : List Slot) :
    Edits s s is := ⟨rfl, fun _ => ⟨_, _, _, _, rfl⟩, fun _ _ => rfl⟩

theorem trans {u : Mp1} (h : Edits s t is) (h' : Edits t u is) : Edits s u is := by
  refine ⟨h'.head.trans h.head, ?_, fun j hj => (h'.others j hj).trans (h.others j hj)⟩
  intro j
  obtain ⟨_, _, _, _, ht⟩ := h.entry j
  obtain ⟨_, _, _, _, hu⟩ := h'.entry j
  exact ⟨_, _, _, _, by rw [hu, ht]⟩

theorem listed (h : Edits s t is) (hs : s.Listed is) : t.Listed is := by
  refine ⟨?_, fun j hj => (h.others j hj).trans (hs.free j hj)⟩
  rw [h.head, h.next]
  exact hs.chain

theorem poke (h : Edits s t is) (c : UInt8) (n : Nat) : Edits s (t.poke c n) is :=
  ⟨h.head, h.entry, h.others⟩

/-- A node gets new lengths, a new countdown and a new status. -/
theorem set {onLength offLength countdown status : BitVec 16} (hi : i ∈ is) :
    Edits s (s.set i { s.blinkArray i with onLength, offLength, countdown, status }) is := by
  refine ⟨rfl, ?_, ?_⟩
  · intro j
    by_cases hj : j = i
    · subst hj
      exact ⟨onLength, offLength, countdown, status, by simp⟩
    · exact ⟨(s.blinkArray j).onLength, (s.blinkArray j).offLength, (s.blinkArray j).countdown,
        (s.blinkArray j).status, by simp [hj]⟩
  · intro j hj
    have hne : j ≠ i := fun h => hj (h ▸ hi)
    simp [hne]

end Edits

/-! ## `mp1_find_helper` and `mp1_malloc` -/

/-- The first node with a location. -/
def nodeAt (s : Mp1) (is : List Slot) (ax : BitVec 16) : Option Slot :=
  is.find? fun i => (s.blinkArray i).location = ax

theorem findHelper_eq (h : s.Listed is) (ax : BitVec 16) :
    s.findHelper ax = some (s.nodeAt is ax) :=
  searchFrom_of_chain _ h.chain h.length_lt_walkFuel

theorem nodeAt_eq_some {ax : BitVec 16} (h : s.nodeAt is ax = some i) :
    i ∈ is ∧ (s.blinkArray i).location = ax :=
  ⟨List.mem_of_find?_eq_some h, by simpa using List.find?_some h⟩

theorem nodeAt_eq_none {ax : BitVec 16} :
    s.nodeAt is ax = none ↔ ∀ i ∈ is, (s.blinkArray i).location ≠ ax := by
  simp [nodeAt]

theorem malloc_eq_some : s.malloc = some i ↔
    (s.blinkArray i).location = 0 ∧ ∀ j < i, (s.blinkArray j).location ≠ 0 := by
  rw [malloc, List.find?_eq_some_iff_getElem]
  constructor
  · rintro ⟨hi, k, hk, rfl, hlow⟩
    refine ⟨by simpa using hi, fun j hj => ?_⟩
    have hjk : j.val < k := by simpa [Fin.lt_def] using hj
    simpa using hlow j hjk
  · rintro ⟨hi, hlow⟩
    refine ⟨by simpa using hi, i, by simp, by simp, fun j hj => ?_⟩
    simpa using hlow ⟨j, hj.trans i.isLt⟩ hj

theorem malloc_eq_none : s.malloc = none ↔ ∀ i, (s.blinkArray i).location ≠ 0 := by
  simp [malloc]

/-- `mp1_malloc` fails only when every entry is in the list. -/
theorem mem_of_malloc_eq_none (h : s.Listed is) (hm : s.malloc = none) (i : Slot) : i ∈ is := by
  by_contra hi
  exact malloc_eq_none.mp hm i (by rw [h.free i hi]; rfl)

theorem Listed.exists_malloc (h : s.Listed is) (hlen : is.length < blinkEntries) :
    ∃ i, s.malloc = some i := by
  cases hm : s.malloc with
  | none => exact absurd (h.length_eq (mem_of_malloc_eq_none h hm)) (Nat.ne_of_lt hlen)
  | some i => exact ⟨i, rfl⟩

/-- The node that `mp1_malloc` would hand out again is one with location 0 that has no
free entry below. -/
theorem malloc_not_mem_iff (h : s.Listed is) (hm : s.malloc = some i) :
    i ∉ is ↔ ∀ k ∈ is, (s.blinkArray k).location = 0 → ∃ j < k, j ∉ is := by
  obtain ⟨hi, hlow⟩ := malloc_eq_some.mp hm
  constructor
  · intro hfree k hk hk0
    refine ⟨i, ?_, hfree⟩
    rcases lt_trichotomy i k with hlt | rfl | hgt
    · exact hlt
    · exact absurd hk hfree
    · exact absurd hk0 (hlow k hgt)
  · intro hbelow hmem
    obtain ⟨j, hj, hj_is⟩ := hbelow i hmem hi
    exact hlow j hj (by rw [h.free j hj_is]; rfl)

/-! ## `mp1_rtc_tasklet` -/

/-- The three ways through the body of `tasklet_loop`. -/
theorem blink_cases (s : Mp1) (i : Slot) :
    s.blink i = s.set i { s.blinkArray i with countdown := (s.blinkArray i).countdown - 1 } ∨
    ((s.blinkArray i).status &&& 1 = 0 ∧
      s.blink i = (s.set i { s.blinkArray i with
        countdown := (s.blinkArray i).onLength, status := (s.blinkArray i).status ^^^ 1 }).poke
          (s.blinkArray i).onChar (cell (s.blinkArray i))) ∨
    ((s.blinkArray i).status &&& 1 ≠ 0 ∧
      s.blink i = (s.set i { s.blinkArray i with
        countdown := (s.blinkArray i).offLength, status := (s.blinkArray i).status ^^^ 1 }).poke
          (s.blinkArray i).offChar (cell (s.blinkArray i))) := by
  by_cases hlast : ((s.blinkArray i).countdown - 1).toInt > 0
  · exact .inl (by simp only [blink, if_pos hlast])
  · by_cases hoff : (s.blinkArray i).status &&& 1 = 0
    · exact .inr (.inl ⟨hoff, by simp only [blink, if_neg hlast, if_pos hoff]; rfl⟩)
    · exact .inr (.inr ⟨hoff, by simp only [blink, if_neg hlast, if_neg hoff]; rfl⟩)

theorem edits_blink (hi : i ∈ is) : Edits s (s.blink i) is := by
  obtain h | ⟨-, h⟩ | ⟨-, h⟩ := blink_cases s i
  · rw [h]
    exact Edits.set hi
  · rw [h]
    exact (Edits.set hi).poke _ _
  · rw [h]
    exact (Edits.set hi).poke _ _

theorem blink_next (s : Mp1) (i : Slot) : (s.blink i).next = s.next :=
  (edits_blink (List.mem_singleton_self i)).next

theorem edits_foldl_blink {js : List Slot} (hsub : ∀ j ∈ js, j ∈ is) :
    Edits s (js.foldl blink s) is := by
  induction js generalizing s with
  | nil => exact Edits.refl s is
  | cons j js ih =>
    have hrest : ∀ k ∈ js, k ∈ is := fun k hk => hsub k (by simp [hk])
    exact (edits_blink (hsub j (by simp))).trans (ih hrest)

theorem rtcTasklet_eq (h : s.Listed is) : s.rtcTasklet = some (is.foldl blink s) :=
  walk_of_chain blink_next h.chain h.length_lt_walkFuel

/-! ## `mp1_ioctl_add` -/

/-- The entry `m` becomes the first node of the list, with the caller's structure, and is shown. -/
def linkNew (s : Mp1) (m : Slot) (b : Blink) : Mp1 :=
  { s.set m { b with status := 1, countdown := b.onLength, next := s.listHead } with
    listHead := some m }.poke b.onChar (cell b)

@[simp] theorem linkNew_listHead (m : Slot) : (s.linkNew m b).listHead = some m := rfl

@[simp] theorem linkNew_next (m : Slot) :
    (s.linkNew m b).next = Function.update s.next m s.listHead :=
  set_next

@[simp] theorem linkNew_blinkArray (m : Slot) : (s.linkNew m b).blinkArray =
    Function.update s.blinkArray m
    { b with status := 1, countdown := b.onLength, next := s.listHead } := rfl

theorem ioctlAdd_invalid (h : 80 * 25 ≤ b.location.toNat) : s.ioctlAdd b = (-1, s) := if_pos h

theorem ioctlAdd_full (hm : s.malloc = none) : s.ioctlAdd b = (-1, s) := by
  unfold ioctlAdd
  split
  · rfl
  · simp only [hm]

theorem ioctlAdd_of_malloc (hb : b.location.toNat < 80 * 25) (hm : s.malloc = some i) :
    s.ioctlAdd b = (0, s.linkNew i b) := by
  simp [ioctlAdd, linkNew, Nat.not_le.mpr hb, hm, cell, set]

theorem Listed.linkNew (h : s.Listed is) (hi : i ∉ is) (b : Blink) :
    (s.linkNew i b).Listed (i :: is) := by
  refine ⟨by simpa using h.chain.push hi, fun j hj => ?_⟩
  obtain ⟨hne, hj⟩ := not_or.mp (List.mem_cons.not.mp hj)
  rw [linkNew_blinkArray, Function.update_of_ne hne]
  exact h.free j hj

/-- An entry that is in the list already makes the list run in a circle. -/
theorem Listed.not_chain_linkNew (h : s.Listed is) (hi : i ∈ is) (b : Blink) (js : List Slot) :
    ¬ Chain (s.linkNew i b).next (s.linkNew i b).listHead js := by
  simpa using h.chain.not_push hi

/-! ## `mp1_ioctl_remove` -/

theorem ioctlRemove_none (h : s.Listed is) {arg : BitVec 32}
    (hn : s.nodeAt is (arg.setWidth 16) = none) : s.ioctlRemove arg = some (-1, s) := by
  simp [ioctlRemove, findHelper_eq h, hn]

theorem storeLink_of_not_mem {q : Option Slot} (hj : j ∉ is) :
    (s.storeLink q (lastLink .head is)).blinkArray j = s.blinkArray j := by
  rcases List.eq_nil_or_concat is with rfl | ⟨as, k, rfl⟩
  · rfl
  · have hne : j ≠ k := by
      rintro rfl
      simp at hj
    rw [List.concat_eq_append, lastLink_append]
    exact Function.update_of_ne hne _ _

/-- The first node with the location leaves the list. The others keep all but their pointers. -/
theorem ioctlRemove_some (h : s.Listed is) {arg : BitVec 32}
    (hn : s.nodeAt is (arg.setWidth 16) = some i) :
    ∃ t, s.ioctlRemove arg = some (0, t) ∧ t.Listed (is.erase i) ∧ t.vmem = s.vmem ∧
      ∀ j ≠ i, ∃ p, t.blinkArray j = { s.blinkArray j with next := p } := by
  obtain ⟨as, bs, rfl, has⟩ := List.eq_append_cons_of_mem (nodeAt_eq_some hn).1
  have hnodup := h.nodup
  have hbs : i ∉ bs := by
    simp only [List.nodup_append, List.nodup_cons] at hnodup
    exact hnodup.2.1.1
  obtain ⟨q, hlead, hq, -⟩ := leads_append.mp h.chain
  subst hq
  have hlen := h.length_lt_walkFuel
  have hprev : prevLink s.listHead s.next i walkFuel .head = some (lastLink .head as) :=
    prevLink_of_leads hlead has (by simp at hlen; omega)
  refine ⟨(s.storeLink (s.next i) (lastLink .head as)).free i, ?_, ⟨?_, ?_⟩, ?_, ?_⟩
  · simp [ioctlRemove, findHelper_eq h, hn, hprev]
  · rw [List.erase_append_right _ has, List.erase_cons_head]
    simp only [free, set_listHead, storeLink_listHead, set_next, storeLink_next]
    exact h.chain.unlink.congr (update_eq_on (by simp [has, hbs]))
  · rw [List.erase_append_right _ has, List.erase_cons_head]
    intro j hj
    by_cases hji : j = i
    · subst hji
      exact Function.update_self _ _ _
    · simp only [List.mem_append, not_or] at hj
      rw [free, set_blinkArray, Function.update_of_ne hji, storeLink_of_not_mem hj.1]
      exact h.free j (by simp [hj, hji])
  · cases lastLink Link.head as <;> rfl
  · intro j hji
    rw [free, set_blinkArray, Function.update_of_ne hji]
    exact storeLink_blinkArray s _ _ j

/-! ## `mp1_ioctl_sync` -/

/-- After `testb` the move is never made. -/
theorem lessAfterTest_eq (status : BitVec 16) : lessAfterTest status = false := by
  simp [lessAfterTest]

/-- Node `j` gets the lengths, the countdown and the status of node `i`, and its
`off_char` is shown. -/
def synced (s : Mp1) (i j : Slot) : Mp1 :=
  (s.set j { s.blinkArray j with
    onLength := (s.blinkArray i).onLength, offLength := (s.blinkArray i).offLength
    countdown := (s.blinkArray i).countdown, status := (s.blinkArray i).status }).poke
      (s.blinkArray j).offChar (cell (s.blinkArray j))

theorem edits_synced (hj : j ∈ is) : Edits s (s.synced i j) is := (Edits.set hj).poke _ _

theorem ioctlSync_eq (h : s.Listed is) (arg : BitVec 32) :
    s.ioctlSync arg = some (match s.nodeAt is ((arg >>> 16).setWidth 16),
      s.nodeAt is ((arg &&& 0xFFFF).setWidth 16) with
      | some i, some j => (0, s.synced i j)
      | _, _ => (-1, s)) := by
  simp only [ioctlSync, findHelper_eq h, Option.bind_eq_bind, Option.bind_some, lessAfterTest_eq]
  cases s.nodeAt is ((arg >>> 16).setWidth 16) with
  | none => rfl
  | some i =>
    cases s.nodeAt is ((arg &&& 0xFFFF).setWidth 16) with
    | none => rfl
    | some j => rfl

/-! ## Nodes at different locations -/

/-- The list has the nodes `is`, at different locations, none of them 0. -/
structure Placed (s : Mp1) (is : List Slot) : Prop where
  listed : s.Listed is
  nonzero : ∀ i ∈ is, (s.blinkArray i).location ≠ 0
  apart : ∀ i ∈ is, ∀ j ∈ is, (s.blinkArray i).location = (s.blinkArray j).location → i = j

theorem placed_empty (vmem : Nat → UInt8) :
    (empty vmem).Placed [] := ⟨listed_empty vmem, by simp, by simp⟩

namespace Placed

/-- `mp1_malloc` does not hand out a node. -/
theorem not_mem_of_malloc (h : s.Placed is) (hm : s.malloc = some i) : i ∉ is := fun hi =>
  h.nonzero i hi (malloc_eq_some.mp hm).1

theorem of_edits (h : s.Placed is) (he : Edits s t is) : t.Placed is := by
  refine ⟨he.listed h.listed, ?_, ?_⟩
  · intro i hi
    rw [he.location]
    exact h.nonzero i hi
  · intro i hi j hj hloc
    rw [he.location, he.location] at hloc
    exact h.apart i hi j hj hloc

/-- A new node has a location of its own. -/
theorem linkNew (h : s.Placed is) (hi : i ∉ is) (hb : b.location ≠ 0)
    (hnew : ∀ j ∈ is, (s.blinkArray j).location ≠ b.location) :
    (s.linkNew i b).Placed (i :: is) := by
  have hold : ∀ j ∈ is, (s.linkNew i b).blinkArray j = s.blinkArray j := update_eq_on hi
  have hself : ((s.linkNew i b).blinkArray i).location = b.location := by simp
  refine ⟨h.listed.linkNew hi b, ?_, ?_⟩
  · rw [List.forall_mem_cons, hself]
    exact ⟨hb, fun j hj => by rw [hold j hj]; exact h.nonzero j hj⟩
  · intro j hj k hk hloc
    rcases List.mem_cons.mp hj with rfl | hj' <;> rcases List.mem_cons.mp hk with rfl | hk'
    · rfl
    · rw [hself, hold k hk'] at hloc
      exact absurd hloc.symm (hnew k hk')
    · rw [hself, hold j hj'] at hloc
      exact absurd hloc (hnew j hj')
    · rw [hold j hj', hold k hk'] at hloc
      exact h.apart j hj' k hk' hloc

/-- Nodes other than the one that leaves the list stay where they are. -/
theorem erase (h : s.Placed is) (ht : t.Listed (is.erase i))
    (hkeep : ∀ j ≠ i, ∃ p, t.blinkArray j = { s.blinkArray j with next := p }) :
    t.Placed (is.erase i) := by
  have hmem : ∀ j ∈ is.erase i, j ∈ is ∧ ∃ p,
      t.blinkArray j = { s.blinkArray j with next := p } := by
    intro j hj
    exact ⟨List.mem_of_mem_erase hj, hkeep j fun hji => h.listed.nodup.not_mem_erase (hji ▸ hj)⟩
  refine ⟨ht, ?_, ?_⟩
  · intro j hj
    obtain ⟨hj, p, hp⟩ := hmem j hj
    rw [hp]
    exact h.nonzero j hj
  · intro j hj k hk hloc
    obtain ⟨hj, p, hp⟩ := hmem j hj
    obtain ⟨hk, q, hq⟩ := hmem k hk
    rw [hp, hq] at hloc
    exact h.apart j hj k hk hloc

end Placed

end OreOS.Mp1
