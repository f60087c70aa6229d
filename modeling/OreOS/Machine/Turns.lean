import Mathlib.Dynamics.PeriodicPts.Defs

/-!
# Taking turns

Threads run one after the other. A thread is stopped with its context, which is kept until its next
turn, and `next` says which thread runs after which.
-/

namespace OreOS.Machine
open Function

variable {T C : Type} {next : T → T}

/-- Within one round every thread has one turn. -/
theorem iterate_eq_iff_mod {t u : T} {j : Nat} (hu : next^[j] t = u)
    (hj : j < minimalPeriod next t) (k : Nat) :
    next^[k] t = u ↔ k % minimalPeriod next t = j := by
  have hlt : k % minimalPeriod next t < minimalPeriod next t := Nat.mod_lt _ (by omega)
  rw [← hu, ← iterate_mod_minimalPeriod_eq,
    iterate_eq_iterate_iff_of_lt_minimalPeriod hlt hj]

/-- The thread that runs, and the contexts of the others. -/
structure Turns (T C : Type) where
  running : T
  kept : T → C

variable [DecidableEq T]

/-- The running thread is stopped with the context `c`. -/
def Turns.turn (next : T → T) (s : Turns T C) (c : C) : Turns T C :=
  ⟨next s.running, update s.kept s.running c⟩

end OreOS.Machine
