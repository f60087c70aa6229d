import OreOS.Machine.Bytes
import OreOS.Machine.Cells

/-!
# Terminals and their processes

The globals of `sched.h` and the operations on them that need no other part of the kernel. A
terminal number indexes arrays of length 3 (`cursor_pos` has length 6); an access outside the
array is undefined. All of these integers stay non-negative except the entries of `proc_active`,
which start at -1.
-/

namespace OreOS
open Machine

/-- The globals of `sched.h:5-17`. -/
structure Sched where
  activeTerm : Nat
  bgTerm : Nat
  fakeSti : Nat
  termInit : Vector Nat 3
  procActive : Vector Int 3
  procEsp : Vector Word 3
  procEbp : Vector Word 3
  cursorPos : Vector (Nat × Nat) 6
  deriving DecidableEq

/-- `init_terminals` (`sched.c:122-147`) over zeroed globals. -/
def initTerminals : Sched where
  activeTerm := 0
  bgTerm := 0
  fakeSti := 0
  termInit := #v[1, 0, 0]
  procActive := #v[-1, -1, -1]
  procEsp := #v[0, 0, 0]
  procEbp := #v[0, 0, 0]
  cursorPos := Vector.replicate 6 (0, 0)

namespace Sched

/-- The number of initialised terminals that `do_events` counts (`sched.c:16-18`). -/
def countInit (S : Sched) : Nat := S.termInit.toList.countP (· != 0)

/-- The assignment of `%esp` and `%ebp` to `proc_esp[bg_term]` and `proc_ebp[bg_term]`. -/
def saveContext (esp ebp : Word) (S : Sched) : Option Sched := do
  let procEsp ← store S.procEsp S.bgTerm esp
  let procEbp ← store S.procEbp S.bgTerm ebp
  return { S with procEsp := procEsp, procEbp := procEbp }

/-- `getXY(&cursor_pos[bg_term][0])`. -/
def saveCursor (xy : Nat × Nat) (S : Sched) : Option Sched := do
  let cursorPos ← store S.cursorPos S.bgTerm xy
  return { S with cursorPos := cursorPos }

/-- The search for the next initialised terminal (`sched.c:35-38`), at most `fuel` rounds of it.
    It is undefined when it leaves the array; without an initialised terminal it never ends. -/
def nextTerm (termInit : Vector Nat 3) : Nat → Nat → Option Nat
  | 0, _ => none
  | fuel + 1, bgTerm => do
      let bgTerm := if bgTerm + 1 = 3 then 0 else bgTerm + 1
      let init ← termInit[bgTerm]?
      if init = 1 then return bgTerm else nextTerm termInit fuel bgTerm

/-- `is_active` (`sched.c:214-218`). -/
def isActive (procId : Int) (S : Sched) : Option Bool := do
  let active ← S.procActive[S.activeTerm]?
  return active == procId

/-- `new_process` (`sched.c:226-229`). It is given the slot that `new_pde` returned. -/
def newProcess (procId : Nat) (S : Sched) : Option Sched := do
  let procActive ← store S.procActive S.activeTerm (procId : Int)
  return { S with procActive := procActive, bgTerm := procId }

/-- `remove_process` (`sched.c:237-241`). -/
def removeProcess (pProcId : Int) (pEsp pEbp : Word) (S : Sched) : Option Sched := do
  let procActive ← store S.procActive S.activeTerm pProcId
  let procEsp ← store S.procEsp S.activeTerm pEsp
  let procEbp ← store S.procEbp S.activeTerm pEbp
  return { S with procActive := procActive, procEsp := procEsp, procEbp := procEbp }

end Sched

/-! ## The search for the next terminal -/

open Sched

section
variable {termInit : Vector Nat 3}

/-- Whatever the search returns is an initialised terminal. -/
theorem nextTerm_spec {fuel bg t : Nat} (h : nextTerm termInit fuel bg = some t) :
    t < 3 ∧ termInit[t]? = some 1 := by
  induction fuel generalizing bg with
  | zero => cases h
  | succ fuel ih =>
    simp only [nextTerm, Option.bind_eq_bind, Option.bind_eq_some_iff] at h
    obtain ⟨i, hi, h⟩ := h
    split at h
    next h1 =>
      cases h
      exact ⟨(Vector.getElem?_eq_some_iff.mp hi).1, h1 ▸ hi⟩
    next => exact ih h

/-- Three rounds are enough when some terminal is initialised and the search starts
    inside the array. -/
theorem nextTerm_isSome {bg t : Nat} (hbg : bg < 3) (ht : termInit[t]? = some 1) :
    ∃ u, nextTerm termInit 3 bg = some u := by
  have hlt : t < 3 := (Vector.getElem?_eq_some_iff.mp ht).1
  have h0 : ∃ i, termInit[0]? = some i := ⟨_, Vector.getElem?_eq_getElem (by omega)⟩
  have h1 : ∃ i, termInit[1]? = some i := ⟨_, Vector.getElem?_eq_getElem (by omega)⟩
  have h2 : ∃ i, termInit[2]? = some i := ⟨_, Vector.getElem?_eq_getElem (by omega)⟩
  obtain ⟨i0, h0⟩ := h0
  obtain ⟨i1, h1⟩ := h1
  obtain ⟨i2, h2⟩ := h2
  have hone : i0 = 1 ∨ i1 = 1 ∨ i2 = 1 := by
    obtain rfl | rfl | rfl : t = 0 ∨ t = 1 ∨ t = 2 := by omega
    · exact .inl (Option.some.inj (h0.symm.trans ht))
    · exact .inr (.inl (Option.some.inj (h1.symm.trans ht)))
    · exact .inr (.inr (Option.some.inj (h2.symm.trans ht)))
  obtain rfl | rfl | rfl : bg = 0 ∨ bg = 1 ∨ bg = 2 := by omega
  all_goals
    simp only [nextTerm, Nat.reduceAdd, Nat.reduceEqDiff, if_true, if_false, h0, h1, h2,
      Option.bind_eq_bind, Option.bind_some]
    by_cases e0 : i0 = 1 <;> by_cases e1 : i1 = 1 <;> by_cases e2 : i2 = 1 <;>
      simp [e0, e1, e2] at hone ⊢

end

end OreOS
