import Mathlib.Logic.Function.Basic
import Mathlib.Tactic.Common

/-!
# Places that run processes

`run` says which process, if any, is running at a place, and `live` which processes exist. The
places own their processes when everything that runs is live and nothing runs at two places.
Starting a process that does not exist yet always keeps this; the two ways to end one keep it under
the conditions stated here, and only then.
-/

namespace OreOS.Machine

variable {ι π : Type}

/-- What runs somewhere is live, and runs at one place only. -/
structure Owns (run : ι → Option π) (live : π → Prop) : Prop where
  live : ∀ i p, run i = some p → live p
  distinct : ∀ i j p, run i = some p → run j = some p → i = j

namespace Owns

variable {run : ι → Option π} {live : π → Prop} {i : ι} {p q : π}

/-- A process can be taken out of the live ones where it does not run. -/
theorem release_iff (h : Owns run live) :
    Owns run (fun r => live r ∧ r ≠ p) ↔ ∀ j, run j ≠ some p := by
  constructor
  · intro h' j hj
    exact (h'.live j p hj).2 rfl
  · intro hp
    refine ⟨fun j r hr => ⟨h.live j r hr, ?_⟩, h.distinct⟩
    rintro rfl
    exact hp j hr

variable [DecidableEq ι]

/-- A process that is not live can be started anywhere. -/
theorem start (h : Owns run live) (hp : ¬ live p) :
    Owns (Function.update run i (some p)) (fun r => live r ∨ r = p) := by
  have hother : ∀ j r, j ≠ i → Function.update run i (some p) j = some r → run j = some r := by
    intro j r hj hr
    rw [Function.update_of_ne hj] at hr
    exact hr
  have hhere : ∀ r, Function.update run i (some p) i = some r → r = p := by
    intro r hr
    rw [Function.update_self] at hr
    exact (Option.some.inj hr).symm
  constructor
  · intro j r hr
    by_cases hj : j = i
    · subst hj
      exact .inr (hhere r hr)
    · exact .inl (h.live j r (hother j r hj hr))
  · intro j k r hr hr'
    by_cases hj : j = i <;> by_cases hk : k = i
    · rw [hj, hk]
    · subst hj
      rw [hhere r hr] at hr'
      exact absurd (h.live k p (hother k p hk hr')) hp
    · subst hk
      rw [hhere r hr'] at hr
      exact absurd (h.live j p (hother j p hj hr)) hp
    · exact h.distinct j k r (hother j r hj hr) (hother k r hk hr')

/-- Process `p` can end in favour of `q` when `q` is another live process that runs nowhere else. -/
theorem replace_iff (h : Owns run live) (hi : run i = some p) :
    Owns (Function.update run i (some q)) (fun r => live r ∧ r ≠ p) ↔
      live q ∧ q ≠ p ∧ ∀ j, j ≠ i → run j ≠ some q := by
  constructor
  · intro h'
    have hq : Function.update run i (some q) i = some q := by rw [Function.update_self]
    obtain ⟨hlive, hne⟩ := h'.live i q hq
    refine ⟨hlive, hne, fun j hj hr => hj ?_⟩
    apply h'.distinct j i q
    · rw [Function.update_of_ne hj]
      exact hr
    · exact hq
  · rintro ⟨hlive, hne, hnone⟩
    have hother : ∀ j r, j ≠ i → Function.update run i (some q) j = some r →
        run j = some r ∧ r ≠ p ∧ r ≠ q := by
      intro j r hj hr
      rw [Function.update_of_ne hj] at hr
      refine ⟨hr, ?_, ?_⟩
      · rintro rfl
        exact hj (h.distinct j i r hr hi)
      · rintro rfl
        exact hnone j hj hr
    have hhere : ∀ r, Function.update run i (some q) i = some r → r = q := by
      intro r hr
      rw [Function.update_self] at hr
      exact (Option.some.inj hr).symm
    constructor
    · intro j r hr
      by_cases hj : j = i
      · subst hj
        rw [hhere r hr]
        exact ⟨hlive, hne⟩
      · obtain ⟨hr, hp, -⟩ := hother j r hj hr
        exact ⟨h.live j r hr, hp⟩
    · intro j k r hr hr'
      by_cases hj : j = i <;> by_cases hk : k = i
      · rw [hj, hk]
      · subst hj
        exact absurd (hhere r hr) (hother k r hk hr').2.2
      · subst hk
        exact absurd (hhere r hr') (hother j r hj hr).2.2
      · exact h.distinct j k r (hother j r hj hr).1 (hother k r hk hr').1

end Owns

end OreOS.Machine
