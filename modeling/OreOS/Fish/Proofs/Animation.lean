import OreOS.Fish.Proofs.Frames
import OreOS.Fish.Proofs.Period
import Mathlib.Data.List.GetD
import Mathlib.Data.List.Perm.Subperm

/-!
# The animation

`main` of the fish program passes what `add_frames` adds to `mp1_ioctl` and then calls
`mp1_rtc_tasklet` once for each tick of the clock. All the nodes are in the same phase, so the
screen shows the first file for 15 ticks and then the second one for 15 ticks, and what it showed
before wherever both files are blank.
-/

namespace OreOS
open Machine

namespace Mp1

variable {s : Mp1} {vmem : Nat → UInt8} {is : List Slot} {bs : List Blink} {b e : Blink} {k : Nat}

/-! ## Many nodes -/

/-- The entry `e` of the structure `b`, `k` calls of `mp1_rtc_tasklet` after it was added. -/
structure NodeOf (b : Blink) (k : Nat) (e : Blink) : Prop where
  phase : Phase b k e
  onChar : e.onChar = b.onChar
  offChar : e.offChar = b.offChar

/-- The list consists of nodes for the structures `bs`, all in the same phase, and nothing but their
cells has been written. -/
structure Blinking (vmem : Nat → UInt8) (k : Nat) (bs : List Blink) (is : List Slot) (s : Mp1) :
    Prop where
  shown : s.Shown is
  nodes : List.Forall₂ (fun b i => NodeOf b k (s.blinkArray i)) bs is
  rest : ∀ a, (∀ b ∈ bs, a ≠ cell b) → s.vmem a = vmem a

/-- Structures that `mp1_ioctl` accepts one after the other. -/
structure Addable (bs : List Blink) : Prop where
  lengths : ∀ b ∈ bs, Lengths b
  nonzero : ∀ b ∈ bs, b.location ≠ 0
  valid : ∀ b ∈ bs, b.location.toNat < 80 * 25
  apart : (bs.map Blink.location).Nodup

theorem blinking_empty (vmem : Nat → UInt8) : Blinking vmem 0 [] [] (empty vmem) :=
  ⟨shown_empty vmem, .nil, fun _ _ => rfl⟩

/-- There is an entry for every location but 0. -/
theorem Addable.length_lt (h : Addable bs) : bs.length < blinkEntries := by
  have hsub : bs.map (·.location.toNat) ⊆ (List.range blinkEntries).tail := by
    intro x hx
    obtain ⟨b, hb, rfl⟩ := List.mem_map.mp hx
    have hpos : b.location.toNat ≠ 0 := fun h0 => h.nonzero b hb (BitVec.eq_of_toNat_eq h0)
    have hlt := h.valid b hb
    have hrange : List.range blinkEntries = 0 :: (List.range' 1 (blinkEntries - 1)) := by
      rw [List.range_eq_range']
      rfl
    rw [hrange, List.tail_cons, List.mem_range'_1]
    simp only [blinkEntries] at hlt ⊢
    omega
  have hnodup : (bs.map (·.location.toNat)).Nodup := by
    have hmap : bs.map (·.location.toNat) = (bs.map Blink.location).map BitVec.toNat := by simp
    rw [hmap]
    exact h.apart.map fun _ _ => BitVec.eq_of_toNat_eq
  have hle := (hnodup.subperm hsub).length_le
  rw [List.length_map, List.length_tail, List.length_range] at hle
  have : 0 < blinkEntries := by decide
  omega

theorem Addable.tail (h : Addable (b :: bs)) : Addable bs := by
  obtain ⟨h1, h2, h3, h4⟩ := h
  rw [List.map_cons, List.nodup_cons] at h4
  exact ⟨fun c hc => h1 c (List.mem_cons_of_mem b hc), fun c hc => h2 c (List.mem_cons_of_mem b hc),
    fun c hc => h3 c (List.mem_cons_of_mem b hc), h4.2⟩

theorem Blinking.location (h : Blinking vmem k bs is s) {i : Slot} (hi : i ∈ is) :
    ∃ b ∈ bs, (s.blinkArray i).location = b.location := by
  obtain ⟨n, hn, rfl⟩ := List.getElem_of_mem hi
  have hlen := h.nodes.length_eq
  have hnb : n < bs.length := hlen ▸ hn
  refine ⟨bs[n], List.getElem_mem _, ?_⟩
  exact (h.nodes.get hnb hn).phase.location

theorem Blinking.nodes_imp (h : Blinking vmem k bs is s) {m : Nat} {t : Mp1}
    (hnode : ∀ b i, b ∈ bs → i ∈ is → NodeOf b k (s.blinkArray i) → NodeOf b m (t.blinkArray i)) :
    List.Forall₂ (fun b i => NodeOf b m (t.blinkArray i)) bs is := by
  obtain ⟨hlen, hzip⟩ := List.forall₂_iff_zip.mp h.nodes
  refine List.forall₂_iff_zip.mpr ⟨hlen, fun {b i} hmem => ?_⟩
  obtain ⟨hb, hi⟩ := List.of_mem_zip hmem
  exact hnode b i hb hi (hzip hmem)

/-- One more ADD. -/
theorem Blinking.add (h : Blinking vmem 0 bs is s) (hbs : Addable (b :: bs)) :
    ∃ i t, s.step (.add b) = some t ∧ Blinking vmem 0 (b :: bs) (i :: is) t := by
  have hlen : is.length < blinkEntries := h.nodes.length_eq ▸ hbs.tail.length_lt
  obtain ⟨i, hm⟩ := h.shown.listed.exists_malloc hlen
  have hi := h.shown.placed.not_mem_of_malloc hm
  have hb0 := hbs.nonzero b List.mem_cons_self
  have hapart : ∀ j ∈ is, (s.blinkArray j).location ≠ b.location := by
    intro j hj heq
    obtain ⟨c, hc, hloc⟩ := h.location hj
    have hnodup := hbs.apart
    rw [List.map_cons, List.nodup_cons] at hnodup
    exact hnodup.1 (List.mem_map.mpr ⟨c, hc, hloc.symm.trans heq⟩)
  obtain ⟨-, hstep, hshown⟩ :=
    h.shown.step_new hm (hbs.valid b List.mem_cons_self) hb0 hapart
  refine ⟨i, _, hstep, hshown, .cons ?_ ?_, ?_⟩
  · rw [linkNew_blinkArray, Function.update_self]
    exact ⟨phase_added (hbs.lengths b List.mem_cons_self) s.listHead, rfl, rfl⟩
  · apply h.nodes_imp
    intro c j _ hj hnode
    have hji : j ≠ i := fun hji => hi (hji ▸ hj)
    rw [linkNew_blinkArray, Function.update_of_ne hji]
    exact hnode
  · intro a ha
    obtain ⟨hab, habs⟩ := List.forall_mem_cons.mp ha
    exact (Function.update_of_ne hab _ _).trans (h.rest a habs)

theorem NodeOf.tick (h : NodeOf b k e) (hb : Lengths b) : NodeOf b (k + 1) (tick e) := by
  have hchars : (Mp1.tick e).onChar = e.onChar ∧ (Mp1.tick e).offChar = e.offChar := by
    unfold Mp1.tick
    split
    · exact ⟨rfl, rfl⟩
    · split
      · exact ⟨rfl, rfl⟩
      · exact ⟨rfl, rfl⟩
  exact ⟨h.phase.tick hb, hchars.1.trans h.onChar, hchars.2.trans h.offChar⟩

/-- `mp1_rtc_tasklet` writes no byte but those of its nodes. -/
theorem foldl_blink_vmem {js : List Slot} (a : Nat) (h : ∀ j ∈ js, a ≠ cell (s.blinkArray j)) :
    (js.foldl blink s).vmem a = s.vmem a := by
  induction js generalizing s with
  | nil => rfl
  | cons j js ih =>
    obtain ⟨hj, hjs⟩ := List.forall_mem_cons.mp h
    have hblink : (s.blink j).vmem a = s.vmem a := by
      obtain heq | ⟨-, heq⟩ | ⟨-, heq⟩ := blink_cases s j
      · rw [heq]
        rfl
      · rw [heq]
        exact Function.update_of_ne hj _ _
      · rw [heq]
        exact Function.update_of_ne hj _ _
    rw [List.foldl_cons, ih, hblink]
    intro i hi
    have hsame := (edits_blink (s := s) (List.mem_singleton_self j)).location i
    rw [cell, hsame]
    exact hjs i hi

/-- One tick. -/
theorem Blinking.tick (h : Blinking vmem k bs is s) (hbs : Addable bs) :
    ∃ t, s.step .tasklet = some t ∧ Blinking vmem (k + 1) bs is t := by
  refine ⟨is.foldl blink s, ?_, h.shown.foldl_blink fun _ hj => hj, ?_, ?_⟩
  · rw [step, call, rtcTasklet_eq h.shown.listed]
    rfl
  · apply h.nodes_imp
    intro b i hb hi hnode
    rw [foldl_blink_blinkArray h.shown.listed.nodup, if_pos hi]
    exact hnode.tick (hbs.lengths b hb)
  · intro a ha
    rw [foldl_blink_vmem, h.rest a ha]
    intro i hi
    obtain ⟨b, hb, hloc⟩ := h.location hi
    rw [cell, hloc]
    exact ha b hb

/-- All ADDs. -/
theorem blinking_adds (vmem : Nat → UInt8) (h : Addable bs) :
    ∃ t is, runFrom step (empty vmem) (bs.reverse.map .add) = some t ∧ Blinking vmem 0 bs is t := by
  induction bs with
  | nil => exact ⟨empty vmem, [], rfl, blinking_empty vmem⟩
  | cons b bs ih =>
    obtain ⟨s, is, hrun, hs⟩ := ih h.tail
    obtain ⟨i, t, hstep, ht⟩ := hs.add h
    refine ⟨t, i :: is, ?_, ht⟩
    rw [List.reverse_cons, List.map_append, runFrom_append, hrun]
    exact runFrom_cons hstep

theorem Blinking.ticks (h : Blinking vmem k bs is s) (hbs : Addable bs) (n : Nat) :
    ∃ t, runFrom step s (List.replicate n .tasklet) = some t ∧ Blinking vmem (k + n) bs is t := by
  induction n generalizing s k with
  | zero => exact ⟨s, rfl, h⟩
  | succ n ih =>
    obtain ⟨t, hstep, ht⟩ := h.tick hbs
    obtain ⟨u, hrun, hu⟩ := ih ht
    refine ⟨u, (runFrom_cons hstep).trans hrun, ?_⟩
    rw [Nat.add_comm n 1, ← Nat.add_assoc]
    exact hu

theorem Blinking.node (h : Blinking vmem k bs is s) (hb : b ∈ bs) :
    ∃ i ∈ is, NodeOf b k (s.blinkArray i) := by
  obtain ⟨n, hn, rfl⟩ := List.getElem_of_mem hb
  have hn' : n < is.length := h.nodes.length_eq ▸ hn
  exact ⟨is[n], List.getElem_mem hn', h.nodes.get hn hn'⟩

/-- What a structure shows in its phase. -/
theorem Blinking.vmem_cell (h : Blinking vmem k bs is s) (hb : b ∈ bs) :
    s.vmem (cell b) =
      if k % (b.onLength.toNat + b.offLength.toNat) < b.onLength.toNat then b.onChar
      else b.offChar := by
  obtain ⟨i, hi, hnode⟩ := h.node hb
  have hcell : cell (s.blinkArray i) = cell b := congrArg (·.toNat * 2) hnode.phase.location
  have hshown := h.shown.shown i hi
  rw [hcell, face, hnode.phase.status, hnode.onChar, hnode.offChar] at hshown
  simpa only [decide_eq_true_iff] using hshown

end Mp1

/-! ## Two files -/

/-- The character of a file at a row and a column, and a blank where there is none. -/
def frameChar (f : List UInt8) (row col : Nat) : UInt8 := ((f.splitOn 10).getD row []).getD col 32

/-- What a file shows is on the screen, in the rows that `add_frames` puts it in. -/
def Fits (f : List UInt8) : Prop :=
  ∀ row col, frameChar f row col ≠ 32 → col < 80 ∧ 80 * row + col + 40 < 80 * 25

theorem fits_of_lines {f : List UInt8} (hrows : (f.splitOn 10).length ≤ 24)
    (hcols : ∀ l ∈ f.splitOn 10, l.length ≤ 80) : Fits f := by
  intro row col h
  have hrow : row < (f.splitOn 10).length := by
    by_contra hout
    rw [frameChar, List.getD_eq_default _ _ (Nat.le_of_not_lt hout)] at h
    exact h rfl
  have hcol : col < ((f.splitOn 10).getD row []).length := by
    by_contra hout
    rw [frameChar, List.getD_eq_default _ _ (Nat.le_of_not_lt hout)] at h
    exact h rfl
  have hlen := hcols _ (List.getElem_mem hrow)
  rw [List.getD_eq_getElem _ _ hrow] at hcol
  omega

section
variable {junk : Blink} {f0 f1 : List UInt8} {b : Blink}

theorem mem_cellBlink {row col : Nat} {c0 c1 : UInt8} :
    b ∈ cellBlink junk row col c0 c1 ↔ (c0 ≠ 32 ∨ c1 ≠ 32) ∧
      b = { junk with
        onChar := c0, offChar := c1, onLength := 15, offLength := 15
        location := BitVec.ofNat 16 (80 * row + col + 40) } := by
  unfold cellBlink
  split
  next h => simp [h]
  next h => simp [h]

theorem mem_rowBlinks {row : Nat} {l0 l1 : List UInt8} :
    b ∈ rowBlinks junk row l0 l1 ↔
      ∃ col, b ∈ cellBlink junk row col (l0.getD col 32) (l1.getD col 32) := by
  rw [rowBlinks, mem_sideBySide]
  simp only [Nat.zero_add]
  refine ⟨fun ⟨col, _, h⟩ => ⟨col, h⟩, fun ⟨col, h⟩ => ⟨col, ?_, h⟩⟩
  by_contra hout
  rw [List.getD_eq_default _ _ (by omega), List.getD_eq_default _ _ (by omega), mem_cellBlink] at h
  simp at h

theorem mem_frameBlinks : b ∈ frameBlinks junk f0 f1 ↔
    ∃ row col, b ∈ cellBlink junk row col (frameChar f0 row col) (frameChar f1 row col) := by
  rw [frameBlinks, mem_sideBySide]
  simp only [Nat.zero_add, mem_rowBlinks]
  refine ⟨fun ⟨row, _, h⟩ => ⟨row, h⟩, fun ⟨row, h⟩ => ⟨row, ?_, h⟩⟩
  by_contra hout
  obtain ⟨col, h⟩ := h
  rw [frameChar, frameChar, List.getD_eq_default (f0.splitOn 10) _ (by omega),
    List.getD_eq_default (f1.splitOn 10) _ (by omega), mem_cellBlink] at h
  simp at h

/-- The location of a cell that is added, if the files fit. -/
theorem location_cell (h0 : Fits f0) (h1 : Fits f1) {row col : Nat}
    (h : b ∈ cellBlink junk row col (frameChar f0 row col) (frameChar f1 row col)) :
    col < 80 ∧ 80 * row + col + 40 < 80 * 25 ∧ b.location.toNat = 80 * row + col + 40 := by
  obtain ⟨hne, rfl⟩ := mem_cellBlink.mp h
  have hfit : col < 80 ∧ 80 * row + col + 40 < 80 * 25 := by
    rcases hne with hne | hne
    · exact h0 row col hne
    · exact h1 row col hne
  refine ⟨hfit.1, hfit.2, ?_⟩
  rw [BitVec.toNat_ofNat, Nat.mod_eq_of_lt (by omega)]

/-- The structures come in the order of their locations. -/
theorem frameBlinks_increasing (h0 : Fits f0) (h1 : Fits f1) :
    (frameBlinks junk f0 f1).Pairwise fun b c => b.location.toNat < c.location.toNat := by
  refine pairwise_sideBySide (fun row => pairwise_sideBySide ?_ ?_) ?_
  · intro col
    unfold cellBlink
    split
    · exact List.pairwise_singleton _ _
    · exact List.Pairwise.nil
  · intro j k hjk b hb c hc
    rw [Nat.zero_add, Nat.zero_add] at hb hc
    obtain ⟨-, -, hbloc⟩ := location_cell h0 h1 hb
    obtain ⟨-, -, hcloc⟩ := location_cell h0 h1 hc
    omega
  · intro j k hjk b hb c hc
    rw [Nat.zero_add] at hb hc
    obtain ⟨col, hb⟩ := mem_rowBlinks.mp hb
    obtain ⟨col', hc⟩ := mem_rowBlinks.mp hc
    obtain ⟨hcol, -, hbloc⟩ := location_cell h0 h1 hb
    obtain ⟨-, -, hcloc⟩ := location_cell h0 h1 hc
    omega

/-- All structures of two files that fit are accepted, in any order. -/
theorem addable_frameBlinks (h0 : Fits f0) (h1 : Fits f1) :
    Mp1.Addable (frameBlinks junk f0 f1).reverse := by
  have hmem : ∀ b ∈ (frameBlinks junk f0 f1).reverse,
      ∃ row col, b ∈ cellBlink junk row col (frameChar f0 row col) (frameChar f1 row col) :=
    fun b hb => mem_frameBlinks.mp (List.mem_reverse.mp hb)
  refine ⟨?_, ?_, ?_, ?_⟩
  · intro b hb
    obtain ⟨row, col, h⟩ := hmem b hb
    obtain ⟨-, rfl⟩ := mem_cellBlink.mp h
    simp [Mp1.Lengths]
  · intro b hb hzero
    obtain ⟨row, col, h⟩ := hmem b hb
    obtain ⟨-, -, hloc⟩ := location_cell h0 h1 h
    rw [hzero] at hloc
    simp at hloc
  · intro b hb
    obtain ⟨row, col, h⟩ := hmem b hb
    obtain ⟨-, hlt, hloc⟩ := location_cell h0 h1 h
    rw [hloc]
    exact hlt
  · rw [List.map_reverse, List.nodup_reverse]
    refine List.pairwise_map.mpr ((frameBlinks_increasing h0 h1).imp ?_)
    intro b b' hlt heq
    exact absurd (congrArg BitVec.toNat heq) hlt.ne

end

/-- The calls of `mp1_ioctl` that `add_frames` makes, and the ticks that follow. -/
def animationCalls (bs : List Blink) (k : Nat) : List Mp1Call :=
  bs.map .add ++ List.replicate k .tasklet

/-- For any two files that fit on the screen: after `k` ticks every cell in which one of them
has a character shows the character of the first file if `k` modulo 30 is less than 15, and that
of the second one otherwise. All other cells, the cells of the first 40 locations and all
attributes are as they were. -/
theorem frames_are_animated (vmem : Nat → UInt8) (junk : Blink) {f0 f1 : List UInt8} (h0 : Fits f0)
    (h1 : Fits f1) {fuel : Nat} (hfuel : f0.length + f1.length + 2 ≤ fuel) (k : Nat) :
    ∃ bs t, addFrames junk fuel (some f0) (some f1) = some bs ∧
      runFrom Mp1.step (Mp1.empty vmem) (animationCalls bs k) = some t ∧
      (∀ row col, col < 80 → 80 * row + col + 40 < 80 * 25 →
        t.vmem (2 * (80 * row + col + 40)) =
          if frameChar f0 row col = 32 ∧ frameChar f1 row col = 32 then
            vmem (2 * (80 * row + col + 40))
          else frameChar (if k % 30 < 15 then f0 else f1) row col) ∧
      ∀ a, a < 2 * 40 ∨ 2 * (80 * 25) ≤ a ∨ a % 2 = 1 → t.vmem a = vmem a := by
  have hbs : Mp1.Addable (frameBlinks junk f0 f1).reverse := addable_frameBlinks h0 h1
  obtain ⟨s, is, hadds, hs⟩ := Mp1.blinking_adds vmem hbs
  obtain ⟨t, hticks, ht⟩ := hs.ticks hbs k
  rw [List.reverse_reverse] at hadds
  rw [Nat.zero_add] at ht
  refine ⟨_, t, addFrames_eq junk f0 f1 fuel hfuel, ?_, ?_, ?_⟩
  · rw [animationCalls, runFrom_append, hadds]
    exact hticks
  · intro row col hcol hlt
    by_cases hblank : frameChar f0 row col = 32 ∧ frameChar f1 row col = 32
    · rw [if_pos hblank]
      apply ht.rest
      intro b hb heq
      obtain ⟨row', col', h⟩ := mem_frameBlinks.mp (List.mem_reverse.mp hb)
      obtain ⟨hcol', -, hloc⟩ := location_cell h0 h1 h
      rw [Mp1.cell, hloc] at heq
      obtain ⟨rfl, rfl⟩ : row = row' ∧ col = col' := by omega
      rcases (mem_cellBlink.mp h).1 with hne | hne
      · exact hne hblank.1
      · exact hne hblank.2
    · obtain ⟨b, hb⟩ : ∃ b, b ∈ cellBlink junk row col (frameChar f0 row col)
          (frameChar f1 row col) :=
        ⟨_, mem_cellBlink.mpr ⟨not_and_or.mp hblank, rfl⟩⟩
      obtain ⟨-, -, hloc⟩ := location_cell h0 h1 hb
      have hshown := ht.vmem_cell (List.mem_reverse.mpr (mem_frameBlinks.mpr ⟨row, col, hb⟩))
      obtain ⟨-, rfl⟩ := mem_cellBlink.mp hb
      rw [Mp1.cell, hloc, Nat.mul_comm] at hshown
      rw [if_neg hblank, hshown, apply_ite (frameChar · row col)]
      rfl
  · intro a ha
    apply ht.rest a
    intro b hb
    obtain ⟨row, col, h⟩ := mem_frameBlinks.mp (List.mem_reverse.mp hb)
    obtain ⟨-, hlt, hloc⟩ := location_cell h0 h1 h
    rw [Mp1.cell, hloc]
    omega

/-- Two short files, the first of which ends inside the second line of the other. -/
theorem frames_are_animated_uneven :
    ∃ bs t, addFrames .zero 9 (some [97, 10]) (some [32, 10, 32, 98, 10]) = some bs ∧
      runFrom Mp1.step (Mp1.empty fun _ => 0) (animationCalls bs 20) = some t ∧
      t.vmem 80 = 32 ∧ t.vmem 242 = 98 := by
  obtain ⟨bs, t, hbs, ht, hcells, -⟩ := frames_are_animated (fun _ => 0) .zero
    (fits_of_lines (f := [97, 10]) (by decide) (by decide))
    (fits_of_lines (f := [32, 10, 32, 98, 10]) (by decide) (by decide))
    (show 2 + 5 + 2 ≤ 9 by decide) 20
  refine ⟨bs, t, hbs, ht, ?_, ?_⟩
  · exact hcells 0 0 (by decide) (by decide)
  · exact hcells 1 1 (by decide) (by decide)

end OreOS
