import Mathlib.Data.List.DropRight
import Mathlib.Tactic.Common

/-!
# Texts as lines

A text over any alphabet, with a separator `a` between its lines. `firstLine` and `lastLine` are
what stands before the first separator and behind the last one. A text that is put together from two
parts has the lines of both, but for the line that the cut goes through. With a separator between
words instead, a text has the words `wordsOf`. `sideBySide` goes through two lists, such as the
lines of two texts, in lock step.
-/

namespace OreOS.Machine

variable {α β : Type} [DecidableEq α] {a : α} {x y t u : List α} {f : List α → List β}

/-- What stands before the first separator. -/
def firstLine (a : α) (t : List α) : List α := t.takeWhile (· ≠ a)

/-- What stands behind the last separator. -/
def lastLine (a : α) (t : List α) : List α := t.rtakeWhile (· ≠ a)

theorem not_mem_firstLine (a : α) (t : List α) : a ∉ firstLine a t := fun h => by
  simpa using List.mem_takeWhile_imp h

theorem not_mem_lastLine (a : α) (t : List α) : a ∉ lastLine a t := fun h => by
  simpa using List.mem_rtakeWhile_imp h

theorem firstLine_of_not_mem (h : a ∉ t) : firstLine a t = t := by
  rw [firstLine, List.takeWhile_eq_self_iff]
  intro c hc
  simpa using fun hca : c = a => h (hca ▸ hc)

theorem lastLine_of_not_mem (h : a ∉ t) : lastLine a t = t := by
  rw [lastLine, List.rtakeWhile_eq_self_iff]
  intro c hc
  simpa using fun hca : c = a => h (hca ▸ hc)

/-- A text is its first line, or its first line, a separator and the rest. -/
theorem firstLine_cases (a : α) (t : List α) :
    firstLine a t = t ∨ ∃ u, t = firstLine a t ++ a :: u := by
  induction t with
  | nil => exact .inl rfl
  | cons c t ih =>
    by_cases hc : c = a
    · subst hc
      exact .inr ⟨t, by simp [firstLine]⟩
    · have hfirst : firstLine a (c :: t) = c :: firstLine a t := by
        simp [firstLine, hc]
      rw [hfirst]
      rcases ih with h | ⟨u, hu⟩
      · exact .inl (by rw [h])
      · exact .inr ⟨u, by rw [List.cons_append, ← hu]⟩

/-- A text is its last line, or something, a separator and its last line. -/
theorem lastLine_cases (a : α) (t : List α) :
    lastLine a t = t ∨ ∃ u, t = u ++ a :: lastLine a t := by
  rcases firstLine_cases a t.reverse with h | ⟨u, hu⟩
  · refine .inl ?_
    rw [lastLine, List.rtakeWhile, ← firstLine, h, List.reverse_reverse]
  · refine .inr ⟨u.reverse, ?_⟩
    have hrev := congrArg List.reverse hu
    rw [List.reverse_reverse] at hrev
    simpa [lastLine, List.rtakeWhile, firstLine] using hrev

theorem lastLine_length_lt (h : a ∈ t) : (lastLine a t).length < t.length := by
  rcases lastLine_cases a t with hl | ⟨u, hu⟩
  · exact absurd h (hl ▸ not_mem_lastLine a t)
  · have hlen := congrArg List.length hu
    rw [List.length_append, List.length_cons] at hlen
    omega

/-- A text that ends with a separator. -/
theorem eq_concat_of_lastLine_eq_nil (h : lastLine a t = []) (ht : t ≠ []) : ∃ u, t = u ++ [a] := by
  rcases lastLine_cases a t with hl | ⟨u, hu⟩
  · exact absurd (hl.symm.trans h) ht
  · exact ⟨u, by rwa [h] at hu⟩

theorem firstLine_append_sep (x y : List α) : firstLine a (x ++ a :: y) = firstLine a x := by
  induction x with
  | nil => simp [firstLine]
  | cons c x ih =>
    rw [List.cons_append, firstLine, firstLine, List.takeWhile_cons,
      List.takeWhile_cons, ← firstLine, ← firstLine, ih]

theorem lastLine_append_sep (x y : List α) : lastLine a (x ++ a :: y) = lastLine a y := by
  have h := firstLine_append_sep (a := a) y.reverse x.reverse
  simpa [lastLine, List.rtakeWhile, firstLine] using h

/-! ## Words -/

/-- What stands between the separators, as far as something does. -/
def wordsOf (a : α) (t : List α) : List (List α) := (t.splitOn a).filter (· ≠ [])

theorem wordsOf_append_sep (x y : List α) :
    wordsOf a (x ++ a :: y) = wordsOf a x ++ wordsOf a y := by
  rw [wordsOf, List.splitOn_append_cons_self, List.filter_append]
  rfl

theorem wordsOf_of_not_mem (h : a ∉ t) (ht : t ≠ []) : wordsOf a t = [t] := by
  rw [wordsOf, List.splitOn_eq_singleton h]
  simp [ht]

/-- Separators in front. -/
theorem wordsOf_dropWhile (a : α) (t : List α) :
    wordsOf a (t.dropWhile (· == a)) = wordsOf a t := by
  induction t with
  | nil => rfl
  | cons c t ih =>
    by_cases hc : c = a
    · subst hc
      rw [List.dropWhile_cons, if_pos (beq_self_eq_true c), ih]
      exact (wordsOf_append_sep [] t).symm
    · rw [List.dropWhile_cons, if_neg (by simpa using hc)]

/-! ## What is made of each line -/

/-- The results of `f` for all lines of a text, in order. -/
def eachLine (a : α) (f : List α → List β) (t : List α) : List β := (t.splitOn a).flatMap f

theorem eachLine_append_sep (x y : List α) :
    eachLine a f (x ++ a :: y) = eachLine a f x ++ eachLine a f y := by
  rw [eachLine, List.splitOn_append_cons_self, List.flatMap_append]
  rfl

theorem eachLine_of_not_mem (h : a ∉ t) : eachLine a f t = f t := by
  rw [eachLine, List.splitOn_eq_singleton h, List.flatMap_singleton]

/-- The lines before the last one can be done first. -/
theorem eachLine_lastLine (a : α) (f : List α → List β) (x : List α) :
    ∃ o, ∀ y, eachLine a f (x ++ y) = o ++ eachLine a f (lastLine a x ++ y) := by
  rcases lastLine_cases a x with h | ⟨u, hu⟩
  · exact ⟨[], fun y => by rw [h]; rfl⟩
  · refine ⟨eachLine a f u, ?_⟩
    intro y
    conv_lhs => rw [hu]
    rw [List.append_assoc, List.cons_append, eachLine_append_sep]

/-- The lines behind the first one can be done later. -/
theorem eachLine_firstLine (a : α) (f : List α → List β) (y : List α) :
    ∃ o, ∀ x, a ∉ x → eachLine a f (x ++ y) = f (x ++ firstLine a y) ++ o := by
  rcases firstLine_cases a y with h | ⟨u, hu⟩
  · refine ⟨[], ?_⟩
    intro x hx
    have hxy : a ∉ x ++ y := by
      rw [List.mem_append, not_or]
      exact ⟨hx, h ▸ not_mem_firstLine a y⟩
    rw [eachLine_of_not_mem hxy, h, List.append_nil]
  · refine ⟨eachLine a f u, ?_⟩
    intro x hx
    have hxy : a ∉ x ++ firstLine a y := by
      rw [List.mem_append, not_or]
      exact ⟨hx, not_mem_firstLine a y⟩
    conv_lhs => rw [hu]
    rw [← List.append_assoc, eachLine_append_sep, eachLine_of_not_mem hxy]

/-- A cut changes the result exactly if it does for the line that it goes through. -/
theorem eachLine_append_iff (x y : List α) :
    eachLine a f x ++ eachLine a f y = eachLine a f (x ++ y) ↔
      f (lastLine a x) ++ f (firstLine a y) = f (lastLine a x ++ firstLine a y) := by
  obtain ⟨o, ho⟩ := eachLine_lastLine a f x
  obtain ⟨o', ho'⟩ := eachLine_firstLine a f y
  have hx : eachLine a f x = o ++ f (lastLine a x) := by
    have h := ho []
    rwa [List.append_nil, List.append_nil, eachLine_of_not_mem (not_mem_lastLine a x)] at h
  have hy : eachLine a f y = f (firstLine a y) ++ o' := by
    simpa using ho' [] (by simp)
  rw [ho y, ho' _ (not_mem_lastLine a x), hx, hy, List.append_assoc, List.append_cancel_left_eq,
    ← List.append_assoc, List.append_cancel_right_eq]

/-- A part of a text that has no separator lies in one line. -/
theorem exists_line_of_infix (hu : a ∉ u) (h : u <:+: t) : ∃ l ∈ t.splitOn a, u <:+: l := by
  obtain ⟨x, y, rfl⟩ := h
  obtain ⟨o, ho⟩ := eachLine_lastLine a (fun l => [l]) x
  obtain ⟨o', ho'⟩ := eachLine_firstLine a (fun l => [l]) y
  have hxu : a ∉ lastLine a x ++ u := by
    rw [List.mem_append, not_or]
    exact ⟨not_mem_lastLine a x, hu⟩
  have hsplit : (x ++ u ++ y).splitOn a = o ++ ([lastLine a x ++ u ++ firstLine a y] ++ o') := by
    rw [← ho' _ hxu, List.append_assoc (lastLine a x), ← ho, ← List.append_assoc, eachLine,
      List.flatMap_singleton']
  refine ⟨lastLine a x ++ u ++ firstLine a y, ?_, lastLine a x, firstLine a y, rfl⟩
  rw [hsplit]
  simp

theorem length_splitOn_le (a : α) (t : List α) : (t.splitOn a).length ≤ t.length + 1 := by
  induction hn : t.length using Nat.strong_induction_on generalizing t with
  | _ n ih =>
    subst hn
    rcases firstLine_cases a t with hall | ⟨u, hu⟩
    · rw [List.splitOn_eq_singleton (hall ▸ not_mem_firstLine a t), List.length_singleton]
      omega
    · have hlen := congrArg List.length hu
      rw [List.length_append, List.length_cons] at hlen
      have hrest := ih u.length (by omega) u rfl
      conv_lhs => rw [hu]
      rw [List.splitOn_append_cons_self_of_not_mem (not_mem_firstLine a t), List.length_cons]
      omega

/-- A line is a part of its text. -/
theorem length_le_of_mem_splitOn {l : List α} (h : l ∈ t.splitOn a) : l.length ≤ t.length := by
  induction hn : t.length using Nat.strong_induction_on generalizing t with
  | _ n ih =>
    subst hn
    rcases firstLine_cases a t with hall | ⟨u, hu⟩
    · rw [List.splitOn_eq_singleton (hall ▸ not_mem_firstLine a t), List.mem_singleton] at h
      rw [h]
    · have hlen := congrArg List.length hu
      rw [List.length_append, List.length_cons] at hlen
      rw [hu, List.splitOn_append_cons_self_of_not_mem (not_mem_firstLine a t), List.mem_cons] at h
      rcases h with rfl | hrest
      · omega
      · have hle := ih u.length (by omega) hrest rfl
        omega

/-! ## Two lists side by side -/

/-- What `f` makes of the elements at each index, counted from `i`, of two lists. The shorter list
is filled up with `d`. -/
def sideBySide (d : α) (f : Nat → α → α → List β) (i : Nat) (xs ys : List α) : List β :=
  (List.range (max xs.length ys.length)).flatMap fun k => f (i + k) (xs.getD k d) (ys.getD k d)

omit [DecidableEq α] in
@[simp] theorem sideBySide_nil {d : α} {f : Nat → α → α → List β} {i : Nat} :
    sideBySide d f i [] [] = [] := rfl

omit [DecidableEq α] in
/-- The elements at the first index, and the others. -/
theorem sideBySide_step {d : α} {f : Nat → α → α → List β} {i : Nat} (h : x ≠ [] ∨ y ≠ []) :
    sideBySide d f i x y = f i (x.headD d) (y.headD d) ++ sideBySide d f (i + 1) x.tail y.tail := by
  have htail : ∀ (l : List α) (k : Nat), l.getD (k + 1) d = l.tail.getD k d := by
    intro l k
    cases l <;> rfl
  have hlen : max x.length y.length = max x.tail.length y.tail.length + 1 := by
    rw [← List.length_pos_iff, ← List.length_pos_iff] at h
    rw [List.length_tail, List.length_tail]
    omega
  have hhead : ∀ l : List α, l.getD 0 d = l.headD d := by
    intro l
    cases l <;> rfl
  rw [sideBySide, hlen, List.range_succ_eq_map, List.flatMap_cons, List.flatMap_map, hhead, hhead]
  simp only [htail, sideBySide, Nat.add_zero, Nat.add_right_comm i 1, Nat.add_assoc,
    Nat.succ_eq_add_one]

omit [DecidableEq α] in
theorem mem_sideBySide {d : α} {f : Nat → α → α → List β} {i : Nat} {b : β} :
    b ∈ sideBySide d f i x y ↔
      ∃ k < max x.length y.length, b ∈ f (i + k) (x.getD k d) (y.getD k d) := by
  simp only [sideBySide, List.mem_flatMap, List.mem_range]

omit [DecidableEq α] in
/-- A relation that holds within the elements at an index, and from those at one index to
those at a later one. -/
theorem pairwise_sideBySide {d : α} {f : Nat → α → α → List β} {i : Nat} {R : β → β → Prop}
    (hwithin : ∀ k, (f (i + k) (x.getD k d) (y.getD k d)).Pairwise R)
    (hacross : ∀ j k, j < k → ∀ b ∈ f (i + j) (x.getD j d) (y.getD j d),
      ∀ c ∈ f (i + k) (x.getD k d) (y.getD k d), R b c) :
    (sideBySide d f i x y).Pairwise R := by
  rw [sideBySide, List.pairwise_flatMap]
  refine ⟨fun k _ => hwithin k, ?_⟩
  exact List.pairwise_lt_range.imp fun {j k} hjk => hacross j k hjk

omit [DecidableEq α] in
/-- What is left of two lists after a step of `sideBySide`. -/
theorem length_tail_lt {n : Nat} (h : x ≠ [] ∨ y ≠ []) (hx : x.length < n + 1)
    (hy : y.length < n + 1) :
    x.tail.length < n ∧ y.tail.length < n := by
  rw [← List.length_pos_iff, ← List.length_pos_iff] at h
  rw [List.length_tail, List.length_tail]
  omega

end OreOS.Machine
