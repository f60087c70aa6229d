import OreOS.Kernel.Proofs.StackRoom
import OreOS.Kernel.Proofs.Steps
import OreOS.Machine.Trace

/-!
# Events on a stack

What the calls leave on the kernel stacks matters to the kernel only where it is laid over a PCB
that is read. As long as that does not happen, a run in which every event uses the stack agrees with
the run of `kernelStep`, which knows of no stack.
-/

namespace OreOS
open Machine

variable {K K' L : Kernel} {S : Word → Prop}

/-- Two kernels that differ at most in the PCBs outside `S`. -/
structure AgreeOn (S : Word → Prop) (K L : Kernel) : Prop where
  rest : L = { K with pcb := L.pcb }
  pcb : ∀ a, S a → L.pcb a = K.pcb a

/-- The PCBs that an event reads are in `S`. -/
def ReadsOnly (S : Word → Prop) (K : Kernel) : Event → Prop
  | .sched (.halt f) => ∀ a, K.getCurrPcb f = some a →
      S a ∧ ∀ b, K.phys (K.pcb a).oldPcb = some b → S b
  | .files _ f => ∀ a, K.getCurrPcb f = some a → S a
  | .vidmap _ f => ∀ a, K.getCurrPcb f = some a → S a
  | _ => True

instance decidableReadsOnly [DecidablePred S] (K : Kernel) : ∀ e, Decidable (ReadsOnly S K e)
  | .sched (.halt f) => inferInstanceAs
      (Decidable (∀ a ∈ K.getCurrPcb f, S a ∧ ∀ b ∈ K.phys (K.pcb a).oldPcb, S b))
  | .files _ f => inferInstanceAs (Decidable (∀ a ∈ K.getCurrPcb f, S a))
  | .vidmap _ f => inferInstanceAs (Decidable (∀ a ∈ K.getCurrPcb f, S a))
  | .sched (.tick _) => isTrue trivial
  | .sched (.altKey _ _ _ _) => isTrue trivial
  | .sched (.execute _ _) => isTrue trivial
  | .output _ => isTrue trivial
  | .echo _ => isTrue trivial

theorem AgreeOn.refl (S : Word → Prop) (K : Kernel) : AgreeOn S K K := ⟨rfl, fun _ _ => rfl⟩

/-- The same with the PCBs of the second kernel as a variable. -/
theorem AgreeOn.exists_pcb (h : AgreeOn S K L) :
    ∃ m, L = { K with pcb := m } ∧ ∀ a, S a → m a = K.pcb a := ⟨L.pcb, h.rest, h.pcb⟩

theorem AgreeOn.takeStack (h : AgreeOn S K L) (addr : Option Fotp → Word) (u : StackUse)
    (hspares : ∀ a, S a → ¬ L.StackHits u.taken a) : AgreeOn S K (L.takeStack addr u) where
  rest := by
    rw [h.rest]
    rfl
  pcb := by
    intro a ha
    rw [takeStack_pcb (hspares a ha)]
    exact h.pcb a ha

theorem stackHits_agree (h : AgreeOn S K L) (taken : Nat) (a : Word) :
    L.StackHits taken a ↔ K.StackHits taken a := by
  rw [h.rest]
  exact Iff.rfl

theorem sparesPcbs_agree (h : AgreeOn S K L) (taken : Nat) :
    SparesPcbs L taken ↔ SparesPcbs K taken := by
  obtain ⟨m, rfl, -⟩ := h.exists_pcb
  exact Iff.rfl

/-! ## What operations do to kernels that agree -/

theorem AgreeOn.setPcb (h : AgreeOn S K L) {a : Word} {p q : Pcb} (hpq : S a → q = p) :
    AgreeOn S (K.setPcb a p) (L.setPcb a q) where
  rest := by
    rw [h.rest]
    rfl
  pcb := by
    intro b hb
    simp only [Kernel.setPcb]
    by_cases hab : b = a
    · subst hab
      rw [Function.update_self, Function.update_self, hpq hb]
    · rw [Function.update_of_ne hab, Function.update_of_ne hab, h.pcb b hb]

theorem AgreeOn.withPaging (h : AgreeOn S K L) (f : Paging → Paging) :
    AgreeOn S { K with paging := f K.paging } { L with paging := f L.paging } := by
  obtain ⟨m, rfl, hm⟩ := h.exists_pcb
  exact ⟨rfl, hm⟩

theorem AgreeOn.keepScreen (h : AgreeOn S K L) : AgreeOn S K.keepScreen L.keepScreen := by
  obtain ⟨m, rfl, hm⟩ := h.exists_pcb
  unfold Kernel.keepScreen
  split
  · exact ⟨rfl, hm⟩
  · exact ⟨rfl, hm⟩

/-! ## Starting and ending a process -/

/-- Results of a call that agree. -/
def AgreeExit (S : Word → Prop) (r s : Exit × Kernel) : Prop := r.1 = s.1 ∧ AgreeOn S r.2 s.2

theorem AgreeOn.enterProgram (h : AgreeOn S K L) (p : Nat) (esp ebp : Word) :
    Option.Rel (AgreeExit S) (enterProgram p esp ebp K) (enterProgram p esp ebp L) := by
  obtain ⟨m, rfl, hm⟩ := h.exists_pcb
  simp only [OreOS.enterProgram]
  cases K.sched.newProcess p with
  | none => exact .none
  | some sched =>
    let K₁ : Kernel := { K with
      sched := sched
      paging := { K.paging with cr3 := p + 1 }
      tss := { K.tss with esp0 := kstackTop p } }
    have hagree : AgreeOn S K₁ { K₁ with pcb := m } := ⟨rfl, hm⟩
    have hphys : { K₁ with pcb := m }.phys (pcbAddr p) = K₁.phys (pcbAddr p) := rfl
    simp only [Option.bind_eq_bind, Option.bind_some]
    rw [hphys]
    cases K₁.phys (pcbAddr p) with
    | none => exact .some ⟨rfl, rfl, hm⟩
    | some a =>
      refine .some ⟨rfl, ?_⟩
      have hset := hagree.setPcb (a := a) (p := fillPcb p esp ebp (K.pcb a))
        (q := fillPcb p esp ebp (m a)) fun ha => by rw [hm a ha]
      exact (hset.withPaging (changePte 0xb8 0xb8)).keepScreen.withPaging fun P => (changeCr3 p P).2

theorem AgreeOn.execute (h : AgreeOn S K L) (term : Nat) (prog : Option Word) (f : Frame) :
    Option.Rel (AgreeExit S) (execute term prog f K) (execute term prog f L) := by
  obtain ⟨m, rfl, hm⟩ := h.exists_pcb
  cases prog with
  | none => exact .some ⟨rfl, h⟩
  | some entry =>
    simp only [OreOS.execute]
    cases newPde entry K.paging with
    | none => exact .none
    | some r =>
      simp only [Option.bind_eq_bind, Option.bind_some]
      split
      · exact .some ⟨rfl, rfl, hm⟩
      · exact AgreeOn.enterProgram ⟨rfl, hm⟩ _ _ _

theorem AgreeOn.halt (h : AgreeOn S K L) {f : Frame} (hreads : ReadsOnly S K (.sched (.halt f))) :
    Option.Rel (AgreeExit S) (halt f K) (halt f L) := by
  obtain ⟨m, rfl, hm⟩ := h.exists_pcb
  have hcurr : { K with pcb := m }.getCurrPcb f = K.getCurrPcb f := rfl
  simp only [OreOS.halt, hcurr]
  cases ha : K.getCurrPcb f with
  | none => exact .some ⟨rfl, rfl, hm⟩
  | some a =>
    obtain ⟨hSa, hparent⟩ := hreads a ha
    simp only [hm a hSa]
    split
    · exact .some ⟨rfl, rfl, hm⟩
    · cases hP : removePage (K.pcb a).procId K.paging with
      | none => exact .none
      | some P =>
        simp only [Option.bind_eq_bind, Option.bind_some]
        cases K.sched.isActive (K.pcb a).procId with
        | none => exact .none
        | some active =>
          simp only [Option.bind_some]
          cases active with
          | false => exact .some ⟨rfl, rfl, hm⟩
          | true =>
            have hphys (n : Word → Pcb) : { K with
                paging := P
                tss := ⟨(K.pcb a).kstack, (K.pcb a).oldEbp, (K.pcb a).kstack⟩
                pcb := n }.phys (K.pcb a).oldPcb = K.phys (K.pcb a).oldPcb :=
              phys_ending (a := a) hP _
            simp only [if_true, hphys]
            cases hb : K.phys (K.pcb a).oldPcb with
            | none => exact .some ⟨rfl, rfl, hm⟩
            | some b =>
              simp only [hm b (hparent b hb)]
              cases K.sched.removeProcess (K.pcb b).procId (K.pcb a).kstack (K.pcb a).oldEbp with
              | none => exact .none
              | some sched => exact .some ⟨rfl, rfl, hm⟩

/-! ## The scheduler -/

theorem AgreeOn.runProc (h : AgreeOn S K L) (t : Nat) :
    Option.Rel (AgreeOn S) (runProc t K) (runProc t L) := by
  obtain ⟨m, rfl, hm⟩ := h.exists_pcb
  exact rel_bind fun p => rel_bind fun esp => rel_bind fun ebp => .some ⟨rfl, hm⟩

theorem AgreeOn.doEvents (h : AgreeOn S K L) (f : Frame) :
    Option.Rel (AgreeOn S) (doEvents f K) (doEvents f L) := by
  obtain ⟨m, rfl, hm⟩ := h.exists_pcb
  unfold OreOS.doEvents
  split
  · exact .some h
  split
  · exact .some h
  · refine rel_bind fun sched => rel_bind fun sched => rel_bind fun bg => rel_bind ?_
    intro xy
    apply AgreeOn.runProc
    simp only
    split
    · exact ⟨rfl, hm⟩
    · exact ⟨rfl, hm⟩

theorem AgreeOn.switchTerm (h : AgreeOn S K L) (num : Nat) (f : Frame) (shell : Option Word)
    (g : Frame) :
    Option.Rel (AgreeOn S) (switchTerm num f shell g K) (switchTerm num f shell g L) := by
  obtain ⟨n, hkeep, hn⟩ := h.keepScreen.exists_pcb
  obtain ⟨m, rfl, hm⟩ := h.exists_pcb
  refine rel_bind fun sched => rel_bind fun sched => rel_bind ?_
  intro init
  rw [hkeep]
  split
  · exact rel_bind fun xy => AgreeOn.runProc ⟨rfl, hn⟩ num
  · refine rel_bind fun termInit => rel_bind ?_
    intro console
    exact rel_bind_rel (AgreeOn.execute ⟨rfl, hn⟩ num shell g) fun r s hrs => .some hrs.2

theorem AgreeOn.schedStep {e : SchedEvent} (h : AgreeOn S K L)
    (hreads : K.down = false → ReadsOnly S K (.sched e)) :
    Option.Rel (AgreeOn S) (schedStep K e) (schedStep L e) := by
  have hdown : L.down = K.down := by rw [h.rest]
  have hhome : L.home L.user = K.home K.user := by rw [h.rest]; rfl
  simp only [OreOS.schedStep, hdown]
  split
  · exact .some h
  next hup =>
    cases e with
    | tick f => exact h.doEvents f
    | altKey scancode f shell g =>
      simp only [altKey]
      split
      · exact .some h
      split
      · exact h.switchTerm _ f shell g
      · exact .some h
    | execute prog f =>
      simp only [hhome, Option.map_eq_bind]
      exact rel_bind_rel (h.execute _ prog f) fun r s hrs => .some hrs.2
    | halt f =>
      simp only [Option.map_eq_bind]
      exact rel_bind_rel (h.halt (hreads (by simpa using hup))) fun r s hrs => .some hrs.2

/-! ## Calls on descriptors and output -/

theorem AgreeOn.callFiles {fs : Filesys} {c : FileCall} {f : Frame} (h : AgreeOn S K L)
    (hreads : ReadsOnly S K (.files c f)) :
    Option.Rel (AgreeOn S) (callFiles fs c f K) (callFiles fs c f L) := by
  obtain ⟨m, rfl, hm⟩ := h.exists_pcb
  have hcurr : { K with pcb := m }.getCurrPcb f = K.getCurrPcb f := rfl
  simp only [OreOS.callFiles, hcurr]
  cases ha : K.getCurrPcb f with
  | none => exact .some ⟨rfl, hm⟩
  | some a =>
    simp only [hm a (hreads a ha)]
    refine rel_bind fun r => .some ?_
    have hset := h.setPcb (a := a) (p := r.2.pcb) fun _ => rfl
    exact ⟨rfl, hset.pcb⟩

theorem AgreeOn.callVidmap {addr : Word} {f : Frame} (h : AgreeOn S K L)
    (hreads : ReadsOnly S K (.vidmap addr f)) :
    Option.Rel (AgreeOn S) (callVidmap addr f K) (callVidmap addr f L) := by
  obtain ⟨m, rfl, hm⟩ := h.exists_pcb
  have hcurr : { K with pcb := m }.getCurrPcb f = K.getCurrPcb f := rfl
  simp only [OreOS.callVidmap, hcurr]
  cases ha : K.getCurrPcb f with
  | none => exact .some ⟨rfl, hm⟩
  | some a =>
    simp only [hm a (hreads a ha)]
    cases sysVidmap (K.pcb a).procId.toNat addr K.paging with
    | none => exact .some ⟨rfl, hm⟩
    | some r => exact .some ⟨rfl, hm⟩

theorem AgreeOn.screenOp (h : AgreeOn S K L) (op : ScreenOp) :
    Option.Rel (AgreeOn S) (screenOp op K) (screenOp op L) := by
  obtain ⟨m, rfl, hm⟩ := h.exists_pcb
  exact rel_bind fun console => .some ⟨rfl, hm⟩

/-! ## Runs -/

/-- An event that reads only PCBs in `S` does the same to kernels that agree on them. -/
theorem AgreeOn.step {fs : Filesys} {e : Event} (h : AgreeOn S K L)
    (hreads : K.down = false → ReadsOnly S K e) :
    Option.Rel (AgreeOn S) (kernelStep fs K e) (kernelStep fs L e) := by
  have hdown : L.down = K.down := by rw [h.rest]
  simp only [kernelStep, hdown]
  split
  · exact .some h
  next hup =>
    have hread := hreads (by simpa using hup)
    cases e with
    | sched e => exact h.schedStep fun _ => hread
    | files c f => exact h.callFiles hread
    | vidmap addr f => exact h.callVidmap hread
    | output op => exact h.screenOp op
    | echo op => exact h.screenOp op

/-- An event whose stack reaches no PCB in `S`, and which reads no others. -/
def FramedBy (S : Word → Prop) (K : Kernel) (e : Event × StackUse) : Prop :=
  ReadsOnly S K e.1 ∧ ∀ a, S a → ¬ K.StackHits e.2.taken a

/-- Where `S` has only PCBs of slots and the stack reaches no such PCB. -/
theorem framedBy_of_spares {e : Event × StackUse} (hspares : SparesPcbs K e.2.taken)
    (hslots : ∀ a, S a → ∃ q < 7, K.paging.slotPcb q = some a) (hreads : ReadsOnly S K e.1) :
    FramedBy S K e := by
  refine ⟨hreads, ?_⟩
  intro a ha
  obtain ⟨q, hq, haddr⟩ := hslots a ha
  exact hspares q hq a haddr

theorem AgreeOn.stackStep {fs : Filesys} {addr : Option Fotp → Word} {e : Event × StackUse}
    (h : AgreeOn S K L) (hframe : K.down = false → FramedBy S K e) :
    Option.Rel (AgreeOn S) (kernelStep fs K e.1) (stackStep fs addr L e) := by
  have hdown : L.down = K.down := by rw [h.rest]
  simp only [OreOS.stackStep, hdown]
  split
  next hoff =>
    have hsame : kernelStep fs K e.1 = some K := if_pos hoff
    rw [hsame]
    exact .some h
  next hup =>
    obtain ⟨hreads, hspares⟩ := hframe (by simpa using hup)
    have htaken := h.takeStack addr e.2 fun a ha hhit =>
      hspares a ha ((stackHits_agree h _ a).mp hhit)
    exact htaken.step fun _ => hreads

/-- A run whose events use the stack agrees with the run that leaves the stack out, on the PCBs that
    the stacks do not reach. -/
theorem stackRun_agrees {fs : Filesys} (addr : Option Fotp → Word) {es : List (Event × StackUse)}
    (h : EachStep (fun K e => kernelStep fs K e.1) (fun K e => K.down = false → FramedBy S K e) K
      es) :
    Option.Rel (AgreeOn S) (runFrom (kernelStep fs) K (es.map Prod.fst))
      (runFrom (stackStep fs addr) K es) :=
  runFrom_rel (fun _ _ _ h hframe => h.stackStep hframe) es (AgreeOn.refl S K) h

end OreOS
