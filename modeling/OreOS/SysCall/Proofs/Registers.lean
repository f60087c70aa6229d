import OreOS.Machine.Trace
import OreOS.SysCall.JumpTable

/-!
# Which registers a system call gives back

The global words hold the registers of the process that entered last. `sysCall_restores_iff` shows
that a schedule of entries and returns gives every process its own registers back, whatever they
are, exactly if no other process enters between an entry and its return.
-/

namespace OreOS
open Machine

/-- A return gives the process the registers that it had at its own entry. -/
def Restores (s : Stub) (e : SysEvent) (t : Stub) : Prop :=
  ∀ p, e = .ret p → ∃ c r, s.call p = some (c, r) ∧ t.regs p = r

/-- What a schedule fixes of an event: which process does what, with which call number. -/
inductive Move where
  | enter (p : Nat) (eax : Word)
  | ret (p : Nat)
  | finish (p : Nat)
  deriving DecidableEq, Repr

/-- The event without its registers. -/
def SysEvent.move : SysEvent → Move
  | .enter p eax _ => .enter p eax
  | .ret p => .ret p
  | .finish p => .finish p

/-- The processes that are in a call and the one that entered last. -/
structure Desk where
  last : Option Nat
  busy : Nat → Bool

/-- No process is in a call. -/
def Desk.idle : Desk := ⟨none, fun _ => false⟩

/-- Process `p` enters. -/
def Desk.enter (p : Nat) (d : Desk) : Desk := ⟨some p, Function.update d.busy p true⟩

/-- Process `p` leaves. -/
def Desk.leave (p : Nat) (d : Desk) : Desk := { d with busy := Function.update d.busy p false }

/-- A move, where it is possible. -/
def deskStep (d : Desk) : Move → Option Desk
  | .enter p _ => if d.busy p then none else some (d.enter p)
  | .ret p => if d.busy p then some (d.leave p) else none
  | .finish p => if d.busy p then some (d.leave p) else none

/-- Every process that returns is the one that entered last: nobody entered since its entry. -/
def OwnReturns (moves : List Move) : Prop :=
  ∀ p, Along deskStep (fun d m _ => m = .ret p → d.last = some p) Desk.idle moves

/-- The processes that `d` has in a call are in a call. -/
def Matches (d : Desk) (s : Stub) : Prop := ∀ p, d.busy p = (s.call p).isSome

section
variable {d : Desk} {s : Stub}

theorem Matches.enter (h : Matches d s) (p : Nat) (eax : Word) (r : Regs) :
    Matches (d.enter p) (s.enter p eax r) := by
  intro q
  simp only [Desk.enter, Stub.enter]
  by_cases hq : q = p
  · subst hq
    simp
  · rw [Function.update_of_ne hq, Function.update_of_ne hq]
    exact h q

theorem Matches.leave (h : Matches d s) (p : Nat) {t : Stub}
    (ht : t.call = Function.update s.call p none) : Matches (d.leave p) t := by
  intro q
  simp only [Desk.leave, ht]
  by_cases hq : q = p
  · subst hq
    simp
  · rw [Function.update_of_ne hq, Function.update_of_ne hq]
    exact h q

/-- The global words hold the registers of the process that entered last, while
it is in its call. -/
def LastStored (d : Desk) (s : Stub) : Prop :=
  ∀ p c r, d.last = some p → s.call p = some (c, r) → ⟨s.restoreEsi, s.restoreEdi⟩ = r

theorem LastStored.enter (p : Nat) (eax : Word) (r : Regs) :
    LastStored (d.enter p) (s.enter p eax r) := by
  intro q c r' hlast hcall
  cases hlast
  simp only [Stub.enter, Function.update_self, Option.some.injEq, Prod.mk.injEq] at hcall
  exact hcall.2

theorem LastStored.leave (h : LastStored d s) (p : Nat) {t : Stub}
    (ht : t.call = Function.update s.call p none) (hesi : t.restoreEsi = s.restoreEsi)
    (hedi : t.restoreEdi = s.restoreEdi) : LastStored (d.leave p) t := by
  intro q c r hlast hcall
  rw [hesi, hedi]
  apply h q c r hlast
  rw [ht] at hcall
  by_cases hq : q = p
  · subst hq
    simp at hcall
  · rw [Function.update_of_ne hq] at hcall
    exact hcall

/-- A run whose schedule has only own returns restores every process's registers. -/
theorem restores_of_ownReturns {es : List SysEvent} :
    ∀ {d : Desk} {s : Stub}, Matches d s → LastStored d s →
      (∀ p, Along deskStep (fun d m _ => m = .ret p → d.last = some p) d (es.map SysEvent.move)) →
      Along sysStep Restores s es := by
  induction es with
  | nil => intro d s _ _ _; trivial
  | cons e es ih =>
    intro d s hm hl hown t ht
    cases e with
    | enter p eax r =>
      simp only [sysStep, ← hm p] at ht
      split at ht
      next => cases ht
      next hfree =>
        cases ht
        refine ⟨fun q hq => (by cases hq), ih (hm.enter p eax r) (.enter p eax r) fun q => ?_⟩
        exact (hown q (d.enter p) (by simp [deskStep, SysEvent.move, hfree])).2
    | ret p =>
      have hbusy := hm p
      simp only [sysStep, ← hbusy] at ht
      split at ht
      next hin =>
        cases ht
        have hstep : deskStep d (SysEvent.ret p).move = some (d.leave p) := by
          simp [deskStep, SysEvent.move, hin]
        refine ⟨?_, ih (hm.leave p rfl) (hl.leave p rfl rfl rfl)
          fun q => (hown q _ hstep).2⟩
        intro q hq
        cases hq
        rw [hbusy] at hin
        obtain ⟨⟨c, r⟩, hcall⟩ := Option.isSome_iff_exists.mp hin
        refine ⟨c, r, hcall, ?_⟩
        simp only [Stub.ret, Function.update_self]
        exact hl p c r ((hown p _ hstep).1 rfl) hcall
      next => cases ht
    | finish p =>
      simp only [sysStep, ← hm p] at ht
      split at ht
      next hin =>
        cases ht
        refine ⟨fun q hq => (by cases hq), ih (hm.leave p rfl) (hl.leave p rfl rfl rfl) fun q => ?_⟩
        exact (hown q (d.leave p) (by simp [deskStep, SysEvent.move, hin])).2
      next => cases ht

/-! ## Registers that tell a process from the others -/

/-- The registers of process `p` are 0 at its entries, those of all others are 1. -/
def marked (p q : Nat) : Regs := if q = p then ⟨0, 0⟩ else ⟨1, 1⟩

/-- The move with marked registers. -/
def assign (p : Nat) : Move → SysEvent
  | .enter q eax => .enter q eax (marked p q)
  | .ret q => .ret q
  | .finish q => .finish q

theorem assign_move (p : Nat) (moves : List Move) :
    (moves.map (assign p)).map SysEvent.move = moves := by
  induction moves with
  | nil => rfl
  | cons m moves ih =>
    cases m <;> simpa [assign, SysEvent.move] using ih

/-- The state of a run with marked registers. -/
structure Marked (p : Nat) (d : Desk) (s : Stub) : Prop where
  busy : Matches d s
  stored : ∀ q, d.last = some q → ⟨s.restoreEsi, s.restoreEdi⟩ = marked p q
  entered : ∀ q, d.busy q = true → d.last ≠ none
  own : ∀ c r, s.call p = some (c, r) → r = marked p p

theorem Marked.enter {p : Nat} (h : Marked p d s) (q : Nat) (eax : Word) :
    Marked p (d.enter q) (s.enter q eax (marked p q)) := by
  refine ⟨h.busy.enter q eax _, fun q' hq' => ?_,
    fun _ _ => by simp [Desk.enter], fun c r hcall => ?_⟩
  · cases hq'
    rfl
  · simp only [Stub.enter] at hcall
    by_cases hp : p = q
    · subst hp
      simp only [Function.update_self, Option.some.injEq, Prod.mk.injEq] at hcall
      exact hcall.2.symm
    · rw [Function.update_of_ne hp] at hcall
      exact h.own c r hcall

theorem Marked.leave {p : Nat} (h : Marked p d s) (q : Nat) {t : Stub}
    (ht : t.call = Function.update s.call q none) (hesi : t.restoreEsi = s.restoreEsi)
    (hedi : t.restoreEdi = s.restoreEdi) : Marked p (d.leave q) t := by
  refine ⟨h.busy.leave q ht, ?_, ?_, ?_⟩
  · intro q' hq'
    rw [hesi, hedi]
    exact h.stored q' hq'
  · intro q' hq'
    simp only [Desk.leave] at hq'
    by_cases hq : q' = q
    · subst hq
      simp at hq'
    · rw [Function.update_of_ne hq] at hq'
      exact h.entered q' hq'
  · intro c r hcall
    rw [ht] at hcall
    by_cases hp : p = q
    · subst hp
      simp at hcall
    · rw [Function.update_of_ne hp] at hcall
      exact h.own c r hcall

/-- If `p` gets its marks back, it entered last. -/
theorem Marked.last_of_restored {p : Nat} (h : Marked p d s) (hin : d.busy p = true)
    (hret : Restores s (.ret p) (s.ret p)) : d.last = some p := by
  obtain ⟨c, r, hcall, hregs⟩ := hret p rfl
  simp only [Stub.ret, Function.update_self] at hregs
  obtain ⟨q, hq⟩ := Option.ne_none_iff_exists'.mp (h.entered p hin)
  have hmark := h.stored q hq
  rw [hregs, h.own c r hcall] at hmark
  by_cases hqp : q = p
  · rw [hq, hqp]
  · simp [marked, hqp] at hmark

theorem ownReturn_of_restores (p : Nat) {moves : List Move} :
    ∀ {d : Desk} {s : Stub}, Marked p d s →
      Along sysStep Restores s (moves.map (assign p)) →
      Along deskStep (fun d m _ => m = .ret p → d.last = some p) d moves := by
  induction moves with
  | nil => intro d s _ _; trivial
  | cons m moves ih =>
    intro d s h hrun d' hd'
    cases m with
    | enter q eax =>
      have hbusy := h.busy q
      simp only [deskStep] at hd'
      split at hd'
      next => cases hd'
      next hfree =>
        cases hd'
        rw [hbusy] at hfree
        refine ⟨fun hm => (by cases hm), ih (h.enter q eax) ?_⟩
        exact (hrun _ (by simp [assign, sysStep, hfree])).2
    | ret q =>
      have hbusy := h.busy q
      simp only [deskStep] at hd'
      split at hd'
      next hin =>
        cases hd'
        have hstep : sysStep s (assign p (.ret q)) = some (s.ret q) := by
          simp [assign, sysStep, ← hbusy, hin]
        obtain ⟨hret, hrest⟩ := hrun _ hstep
        have hleave : Marked p (d.leave q) (s.ret q) := h.leave q rfl rfl rfl
        refine ⟨?_, ih hleave hrest⟩
        intro hm
        cases hm
        exact h.last_of_restored hin hret
      next => cases hd'
    | finish q =>
      have hbusy := h.busy q
      simp only [deskStep] at hd'
      split at hd'
      next hin =>
        cases hd'
        have hleave : Marked p (d.leave q) (s.finish q) := h.leave q rfl rfl rfl
        refine ⟨fun hm => (by cases hm), ih hleave ?_⟩
        exact (hrun (s.finish q) (by simp [assign, sysStep, ← hbusy, hin])).2
      next => cases hd'

end

/-- A schedule gives every process its ESI and EDI back, whatever their values, exactly if no other
    process enters between an entry and its return. -/
theorem sysCall_restores_iff (moves : List Move) :
    (∀ es, es.map SysEvent.move = moves → Along sysStep Restores Stub.idle es) ↔
      OwnReturns moves := by
  constructor
  · intro hall p
    refine ownReturn_of_restores p ⟨fun _ => rfl, ?_, ?_, ?_⟩ (hall _ (assign_move p moves))
    · intro q hq
      cases hq
    · intro q hq
      cases hq
    · intro c r hcall
      cases hcall
  · rintro hown es rfl
    refine restores_of_ownReturns (d := Desk.idle) (fun _ => rfl) ?_ hown
    intro p c r hlast
    cases hlast

/-- A shell calls `execute`, and the program that it starts calls `halt`. -/
def executeHalt : List SysEvent := [.enter 0 2 ⟨5, 5⟩, .enter 1 1 ⟨7, 7⟩, .finish 1]

/-- When `execute` returns, the shell gets the registers of the program. -/
theorem execute_returns_childs_registers :
    ¬ ∀ es, Along sysStep Restores Stub.idle es := by
  intro hall
  have hret := (hall (executeHalt ++ [.ret 0])).step_at (u := _) (t := _) rfl rfl
  obtain ⟨c, r, hcall, hregs⟩ := hret 0 rfl
  cases hcall
  exact absurd hregs (by decide)

end OreOS
