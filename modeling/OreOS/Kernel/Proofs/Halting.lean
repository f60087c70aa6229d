import OreOS.Kernel.Proofs.Ownership

/-!
# When `halt` ends a process

`halt` frees the slot first and then asks whether the process is the one of the active terminal. If
it is not, it returns to a program whose slot is already free.
-/

namespace OreOS
open Machine

variable {K K' : Kernel}

/-- The parent that the PCB at `a` records. -/
def Kernel.parentId (a : Word) (K : Kernel) : Option Int :=
  (K.phys (K.pcb a).oldPcb).map fun b => (K.pcb b).procId

/-- Control left the program of `p`, its slot is free, no terminal has it, and the terminal it ran
    in has its parent. -/
structure Ended (p : Int) (term : Nat) (parent : Option Int) (x : Exit) (K' : Kernel) : Prop where
  leaves : ∀ v, x ≠ .toCaller v
  freed : loadInt K'.paging.proc p = some 0
  gone : ∀ t : Nat, K'.sched.procActive[t]? ≠ some p
  resumed : parent ≠ none ∧ K'.sched.procActive[term]? = parent

/-- `halt` by the process whose PCB is at `a` ends it. -/
def HaltEnds (f : Frame) (a : Word) (K : Kernel) : Prop :=
  ∃ x K', halt f K = some (x, K') ∧
    Ended (K.pcb a).procId (K.home (K.pcb a).procId) (K.parentId a) x K'

/-- The active terminal, and no other, has process `p`; the parent is another process; and the
    terminal `p` was started in is the active one or has the parent already. -/
structure EndsCleanly (p : Int) (parent : Option Int) (K : Kernel) : Prop where
  active : K.sched.procActive[K.sched.activeTerm]? = some p
  nowhere : ∀ t : Nat, t ≠ K.sched.activeTerm → K.sched.procActive[t]? ≠ some p
  other : parent ≠ none ∧ parent ≠ some p
  terminal : K.home p = K.sched.activeTerm ∨ K.sched.procActive[K.home p]? = parent

theorem removePage_frees {p : Int} {P P' : Paging} (h : removePage p P = some P') :
    loadInt P'.proc p = some 0 := by
  obtain ⟨proc, h0, hstore, rfl⟩ := removePage_cases h
  simp [loadInt, h0, getElem?_of_store hstore]

/-- The terminals after `remove_process`. -/
theorem ended_resumed {a : Word} {P : Paging} {S : Sched} {q : Int}
    (hact : K.sched.procActive[K.sched.activeTerm]? = some (K.pcb a).procId)
    (hP : removePage (K.pcb a).procId K.paging = some P)
    (hS : K.sched.removeProcess q (K.pcb a).kstack (K.pcb a).oldEbp = some S)
    (hsched : K'.sched = S) (hproc : K'.paging.proc = P.proc) :
    Ended (K.pcb a).procId (K.home (K.pcb a).procId) (some q) .toParent K' ↔
      EndsCleanly (K.pcb a).procId (some q) K := by
  obtain ⟨act, hstore, e, -, b', -, rfl⟩ := removeProcess_cases hS
  have hentry : ∀ t : Nat, K'.sched.procActive[t]? =
      if K.sched.activeTerm = t then some q else K.sched.procActive[t]? := by
    intro t
    rw [hsched]
    exact getElem?_of_store hstore t
  constructor
  · intro h
    have hgone := h.gone
    have hterm := h.resumed.2
    refine ⟨hact, fun t ht hp => ?_, ⟨by simp, fun hq => ?_⟩, ?_⟩
    · apply hgone t
      rw [hentry, if_neg (Ne.symm ht)]
      exact hp
    · apply hgone K.sched.activeTerm
      rw [hentry, if_pos rfl]
      exact hq
    · rw [hentry] at hterm
      split at hterm
      next heq => exact .inl heq.symm
      next => exact .inr hterm
  · intro h
    refine ⟨by simp, ?_, fun t hp => ?_, by simp, ?_⟩
    · rw [hproc]
      exact removePage_frees hP
    · rw [hentry] at hp
      split at hp
      next => exact h.other.2 hp
      next hne => exact h.nowhere t (Ne.symm hne) hp
    · rw [hentry]
      split
      next => rfl
      next hne => exact h.terminal.resolve_left (Ne.symm hne)

theorem haltEnds_iff_endsCleanly {f : Frame} {a : Word} (hok : KernelOk K)
    (ha : K.getCurrPcb f = some a) (hp : (K.pcb a).procId ≠ 0) :
    HaltEnds f a K ↔ EndsCleanly (K.pcb a).procId (K.parentId a) K := by
  have hlt : K.sched.activeTerm < 3 := (Vector.getElem?_eq_some_iff.mp hok.active).1
  obtain ⟨x, K', hx⟩ := halt_defined hok hlt f
  have hends : HaltEnds f a K ↔
      Ended (K.pcb a).procId (K.home (K.pcb a).procId) (K.parentId a) x K' := by
    unfold HaltEnds
    simp [hx]
  rw [hends]
  cases halt_cases hx with
  | fault hnone => exact absurd (hnone.symm.trans ha) (by simp)
  | shutdown ha' hzero =>
    rw [ha'] at ha
    cases ha
    exact absurd hzero hp
  | inactive ha' _ hP hact =>
    rw [ha'] at ha
    cases ha
    have hnot := (isActive_iff hact).not.mp (by simp)
    exact ⟨fun h => absurd rfl (h.leaves 0), fun h => absurd h.active hnot⟩
  | noParent ha' _ hP hact hb =>
    rw [ha'] at ha
    cases ha
    have hnone : K.parentId a = none := by simp [Kernel.parentId, hb]
    rw [hnone]
    exact ⟨fun h => absurd rfl h.resumed.1, fun h => absurd rfl h.other.1⟩
  | resumed ha' _ hP hact hb hS =>
    rw [ha'] at ha
    cases ha
    rw [Kernel.parentId, hb, Option.map_some]
    exact ended_resumed ((isActive_iff hact).mp rfl) hP hS rfl rfl

/-- In every state reached from boot, `halt` by a process other than the first shell ends it
    exactly if `EndsCleanly` holds of it. -/
theorem halt_ends_process_iff {pteAddr : Word} {es : List SchedEvent} {f : Frame} {a : Word}
    (hrun : runFrom schedStep (boot pteAddr) es = some K) (ha : K.getCurrPcb f = some a)
    (hp : (K.pcb a).procId ≠ 0) :
    HaltEnds f a K ↔ EndsCleanly (K.pcb a).procId (K.parentId a) K := by
  have hok : KernelOk K :=
    inv_runFrom_of_step (fun _ _ _ hi hs => hi.step hs) (kernelOk_boot pteAddr) hrun
  exact haltEnds_iff_endsCleanly hok ha hp

/-- The frame of a system call. -/
def callFrame : Frame := ⟨64#32, 40#32⟩

/-- The shell of terminal 0 has started a program. -/
def afterProgram : Kernel :=
  (runFrom schedStep (boot 0x410000#32)
    [.execute (some 0x8048000#32) callFrame, .execute (some 0x8048000#32) callFrame]).getD
    (boot 0x410000#32)

theorem afterProgram_run : runFrom schedStep (boot 0x410000#32)
    [.execute (some 0x8048000#32) callFrame, .execute (some 0x8048000#32) callFrame] =
      some afterProgram := rfl

theorem afterProgram_endsCleanly :
    EndsCleanly (afterProgram.pcb 0x3FC000#32).procId (afterProgram.parentId 0x3FC000#32)
      afterProgram := by
  refine ⟨by decide, fun t ht hp => ?_, by decide, by decide⟩
  obtain ⟨hlt, -⟩ := Vector.getElem?_eq_some_iff.mp hp
  obtain rfl | rfl | rfl : t = 0 ∨ t = 1 ∨ t = 2 := by omega
  · exact ht rfl
  · exact absurd hp (by decide)
  · exact absurd hp (by decide)

theorem halt_ends_process_iff_program :
    (afterProgram.pcb 0x3FC000#32).procId = 1 ∧ HaltEnds callFrame 0x3FC000#32 afterProgram :=
  ⟨by decide, (halt_ends_process_iff afterProgram_run (by decide) (by decide)).mpr
    afterProgram_endsCleanly⟩

/-- Terminal 1 is opened and left again, and its shell is scheduled in the background. -/
def secondShellInBackground : List SchedEvent :=
  [.execute (some 0x8048000#32) callFrame,
    .altKey 0x3C ⟨100#32, 80#32⟩ (some 0x8048000#32) ⟨200#32, 180#32⟩,
    .altKey 0x3B ⟨100#32, 80#32⟩ none ⟨0#32, 0#32⟩, .tick ⟨100#32, 80#32⟩]

/-- When that shell halts, its slot is freed and it goes on running. -/
theorem background_halt_returns :
    ¬ ∀ (pteAddr : Word) (es : List SchedEvent) (K : Kernel) (f : Frame) (a : Word),
      runFrom schedStep (boot pteAddr) es = some K → K.getCurrPcb f = some a →
        (K.pcb a).procId ≠ 0 → HaltEnds f a K := by
  intro hall
  have hrun : ((runFrom schedStep (boot 0x410000#32) secondShellInBackground).bind fun K =>
      (K.getCurrPcb callFrame).bind fun a => (halt callFrame K).map fun r =>
        ((K.pcb a).procId, r.1)) = some (1, .toCaller 0) := by decide
  obtain ⟨K, hK, hrest⟩ := Option.bind_eq_some_iff.mp hrun
  obtain ⟨a, ha, hrest⟩ := Option.bind_eq_some_iff.mp hrest
  obtain ⟨⟨x, K'⟩, hx, heq⟩ := Option.map_eq_some_iff.mp hrest
  simp only [Prod.mk.injEq] at heq
  obtain ⟨x', K'', hx', hends⟩ := hall _ _ K callFrame a hK ha (by rw [heq.1]; decide)
  cases hx.symm.trans hx'
  exact hends.leaves 0 heq.2

end OreOS
