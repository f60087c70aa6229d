import OreOS.Kernel.Proofs.Steps
import OreOS.Machine.Trace

/-!
# The base of the kernel stack

`execute` sets `tss.esp0` to the top of the new process's stack. `halt` sets it to the stack pointer
that `execute` saved inside the parent's stack, and `run_proc` to the one that an interrupt saved.
-/

namespace OreOS
open Machine

variable {K K' : Kernel}

/-- The process that runs in user mode enters the kernel at the top of its own stack. -/
def StackTop (K : Kernel) : Prop := ∀ p : Nat, K.user = p → K.tss.esp0 = kstackTop p

/-- The events that neither end a process nor switch to a saved context. -/
def KeepsStack (K : Kernel) : SchedEvent → Prop
  | .tick _ => K.sched.fakeSti ≠ 0 ∨ K.sched.countInit = 1
  | .altKey scancode _ _ _ => ∀ num < 6, scancode = 0x3B + num → K.sched.termInit[num]? = some 0
  | .execute _ _ => True
  | .halt f => ∀ a, K.getCurrPcb f = some a → (K.pcb a).procId = 0

theorem StackTop.execute {term : Nat} {prog : Option Word} {f : Frame} {x : Exit} (h : StackTop K)
    (hx : execute term prog f K = some (x, K')) : StackTop K' := by
  cases execute_cases hx with
  | noProgram => exact h
  | noSlot => exact h
  | started _ hs =>
    intro p hp
    rw [Kernel.user, hs.cr3] at hp
    have hslot : K.paging.freeSlot = p := by omega
    rw [hs.esp0, hslot]

theorem StackTop.switched {num : Nat} {f g : Frame} {shell : Option Word} (h : StackTop K)
    (hzero : K.sched.termInit[num]? = some 0) (hx : SwitchResult num f shell g K K') :
    StackTop K' := by
  cases hx with
  | shown hi hne =>
    rw [hi] at hzero
    cases hzero
    exact absurd rfl hne
  | opened _ _ _ _ _ _ hK₁ _ hexec =>
    refine StackTop.execute ?_ hexec
    rw [hK₁]
    exact h

theorem StackTop.halt {f : Frame} {x : Exit} (h : StackTop K) (hc : KeepsStack K (.halt f))
    (hx : halt f K = some (x, K')) : StackTop K' := by
  cases halt_cases hx with
  | fault => exact h
  | shutdown => exact h
  | inactive ha hne => exact absurd (hc _ ha) hne
  | noParent ha hne => exact absurd (hc _ ha) hne
  | resumed ha hne => exact absurd (hc _ ha) hne

theorem StackTop.tick {f : Frame} (h : StackTop K) (hc : KeepsStack K (.tick f))
    (hx : doEvents f K = some K') : StackTop K' := by
  have hidle : doEvents f K = some K := by
    unfold doEvents
    rcases hc with hsti | hcount
    · rw [if_pos hsti]
    · rw [if_pos hcount, ite_self]
  cases hidle.symm.trans hx
  exact h

theorem StackTop.step {e : SchedEvent} (h : StackTop K) (hc : K.down = false → KeepsStack K e)
    (hx : schedStep K e = some K') : StackTop K' := by
  cases schedStep_cases hx with
  | off => exact h
  | ignored => exact h
  | tick hup _ htick => exact h.tick (hc hup) htick
  | switched hup hnum hswitch => exact h.switched (hc hup _ hnum rfl) hswitch
  | executed _ hexec => exact h.execute hexec
  | halted hup hhalt => exact h.halt (hc hup) hhalt

theorem stackTop_boot (pteAddr : Word) : StackTop (boot pteAddr) := by
  intro p hp
  have hneg : (boot pteAddr).user = -1 := rfl
  omega

/-- In a run without ends of processes and without context switches, whatever process runs in user
    mode has `tss.esp0` at the top of its own kernel stack. -/
theorem kernel_stack_base_kept {pteAddr : Word} {es : List SchedEvent}
    (hkeep : EachStep schedStep (fun K e => K.down = false → KeepsStack K e) (boot pteAddr) es)
    (hrun : runFrom schedStep (boot pteAddr) es = some K) : StackTop K :=
  inv_runFrom (fun _ _ _ h hc hx => h.step hc hx) (stackTop_boot pteAddr) hkeep hrun

/-- A shell that starts a program; `halt` of the program brings the shell back. -/
def shellProgramHalt : List SchedEvent :=
  [.execute (some 0x8048000#32) ⟨64#32, 40#32⟩, .execute (some 0x8048000#32) ⟨64#32, 40#32⟩,
    .halt ⟨64#32, 40#32⟩]

theorem kernel_stack_base_kept_program :
    ∃ K, runFrom schedStep (boot 0x410000#32) (shellProgramHalt.take 2) = some K ∧
      K.user = 1 ∧ StackTop K := by
  have hkeep : EachStep schedStep (fun K e => K.down = false → KeepsStack K e)
      (boot 0x410000#32) (shellProgramHalt.take 2) :=
    ⟨fun _ => trivial, fun _ _ => ⟨fun _ => trivial, fun _ _ => trivial⟩⟩
  exact ⟨_, rfl, by decide, kernel_stack_base_kept hkeep rfl⟩

/-- After the program has halted, the shell's kernel stack starts 64 bytes lower. -/
theorem halt_lowers_kernel_stack :
    ¬ ∀ (pteAddr : Word) (es : List SchedEvent) (K : Kernel),
      runFrom schedStep (boot pteAddr) es = some K → StackTop K := by
  intro hall
  have hrun : (runFrom schedStep (boot 0x410000#32) shellProgramHalt).map
      (fun K => (K.user, K.tss.esp0)) = some (0, kstackTop 0 - 64#32) := by decide
  obtain ⟨K, hK, heq⟩ := Option.map_eq_some_iff.mp hrun
  simp only [Prod.mk.injEq] at heq
  have htop := hall _ _ K hK 0 heq.1
  rw [heq.2] at htop
  exact absurd htop (by decide)

end OreOS
