import OreOS.Kernel.Proofs.Nesting

/-!
# What `execute` returns

`halt` does not use the status it is given: it goes back into the `execute` of the parent, which
returns 0. The pointer to the parent that `execute` leaves in the PCB of the child is never the
address that `get_curr_pcb` computes for the parent, although it leads to the same memory.
-/

namespace OreOS
open Machine

variable {K K' : Kernel}

/-- What a call of `execute` with frame `f` in state `K` owes its caller. It led to `K₁`, and the
    program that it started halts with `status` in state `K₂`, with frame `g`: then the call goes on
    in the frame it was made in and returns the status, and the pointer in the PCB of the program is
    the one that `get_curr_pcb` yields in that frame. -/
structure ReturnsStatus (status : UInt8) (f g : Frame) (K K₁ K₂ : Kernel) : Prop where
  resumes : ∃ K₃, halt g K₂ = some (.toParent, K₃) ∧ K₃.user = K.user ∧ K₃.tss.esp = K.esp f ∧
    K₃.tss.ebp = K.ebp f
  value : Exit.toParent.value = some (status.toNat : Int)
  parent : ∃ a, K₁.paging.slotPcb K₁.user.toNat = some a ∧
    (K₁.pcb a).oldPcb = K.esp f &&& 0xfffe000#32

/-! ## The processes that can run -/

/-- Every process that runs, or can be switched to, has one of the ids `0..6`. -/
structure RunsSlots (K : Kernel) : Prop where
  ok : KernelOk K
  paging : PagingInv K.paging
  user : K.user < 7
  active : ∀ (t : Nat) (p : Int), K.sched.procActive[t]? = some p → p < 7

theorem runsSlots_boot (pteAddr : Word) : RunsSlots (boot pteAddr) where
  ok := kernelOk_boot pteAddr
  paging := pagingInv_init pteAddr
  user := by simp [Kernel.user, boot, initPaging]
  active := by
    intro t p hp
    obtain ⟨hlt, rfl⟩ := Vector.getElem?_eq_some_iff.mp hp
    obtain rfl | rfl | rfl : t = 0 ∨ t = 1 ∨ t = 2 := by omega
    all_goals simp [boot, initTerminals]

theorem active_of_store {act : Vector Int 3} {t : Nat} {q : Int}
    (h : ∀ (t : Nat) (p : Int), K.sched.procActive[t]? = some p → p < 7)
    (hstore : store K.sched.procActive t q = some act) (hq : q < 7) (u : Nat) (p : Int)
    (hp : act[u]? = some p) : p < 7 := by
  rw [getElem?_of_store hstore] at hp
  split at hp
  · cases hp
    exact hq
  · exact h u p hp

/-- Switching to the process of a terminal. -/
theorem RunsSlots.quiet {t : Nat} {p : Int} (h : RunsSlots K) (hok : KernelOk K') (hq : Quiet K K')
    (hp : K.sched.procActive[t]? = some p) (hcr3 : K'.paging.cr3 = p + 1) : RunsSlots K' where
  ok := hok
  paging := h.paging.of_eq hq.proc fun j => by rw [hq.pde]
  user := by
    have := h.active t p hp
    rw [Kernel.user, hcr3]
    omega
  active := by
    rw [hq.procActive]
    exact h.active

theorem RunsSlots.execute {term : Nat} {prog : Option Word} {f : Frame} {x : Exit} (h : RunsSlots K)
    (hx : execute term prog f K = some (x, K')) : RunsSlots K' := by
  have hok := h.ok.execute hx
  cases execute_cases hx with
  | noProgram => exact h
  | noSlot => exact h
  | started _ hs =>
    have hle := freeSlot_le h.ok.slot7
    have hne := hs.slot
    obtain ⟨act, hact, hsched⟩ := hs.sched
    refine ⟨hok, h.paging.started hs, ?_, ?_⟩
    · rw [Kernel.user, hs.cr3]
      omega
    · rw [hsched]
      exact active_of_store h.active hact (by omega)

theorem RunsSlots.halt {f : Frame} {x : Exit} (h : RunsSlots K) (hx : halt f K = some (x, K')) :
    RunsSlots K' := by
  have hok := h.ok.halt hx
  have hpaging := h.paging.halt hx
  cases halt_cases hx with
  | fault => exact ⟨hok, hpaging, h.user, h.active⟩
  | shutdown => exact ⟨hok, hpaging, h.user, h.active⟩
  | inactive _ _ hP _ =>
    refine ⟨hok, hpaging, ?_, h.active⟩
    obtain ⟨proc, -, -, rfl⟩ := removePage_cases hP
    exact h.user
  | noParent _ _ hP _ _ =>
    refine ⟨hok, hpaging, ?_, h.active⟩
    obtain ⟨proc, -, -, rfl⟩ := removePage_cases hP
    exact h.user
  | @resumed a b P S _ _ hP _ _ hS =>
    have hid := (h.ok.ids b).2
    obtain ⟨act, hact, e, -, c, -, rfl⟩ := removeProcess_cases hS
    refine ⟨hok, hpaging, ?_, active_of_store h.active hact hid⟩
    simp only [Kernel.user]
    omega

theorem RunsSlots.step {e : SchedEvent} (h : RunsSlots K) (hx : schedStep K e = some K') :
    RunsSlots K' := by
  have hok := h.ok.step hx
  cases schedStep_cases hx with
  | off => exact h
  | ignored => exact h
  | tick _ htick =>
    cases htick with
    | idle => exact h
    | next _ _ _ _ _ _ hp _ _ _ _ hP _ hq => exact h.quiet hok hq hp (by rw [hP])
  | switched _ _ hswitch =>
    cases hswitch with
    | shown _ _ _ _ _ _ hp _ _ _ _ hP _ hq => exact h.quiet hok hq hp (by rw [hP])
    | opened _ _ _ _ hinit _ hK₁ hq hexec =>
      refine RunsSlots.execute ⟨?_, ?_, ?_, ?_⟩ hexec
      · exact h.ok.opened hinit hq.pcb hq.proc hq.procActive (by rw [hK₁]) (by rw [hK₁])
      · exact h.paging.of_eq hq.proc fun j => by rw [hq.pde]
      · rw [hK₁]
        exact h.user
      · rw [hq.procActive]
        exact h.active
  | executed _ hexec => exact h.execute hexec
  | halted _ hhalt => exact h.halt hhalt

/-! ## The pointer to the parent -/

/-- The two masks never give the same address on the stack of a process. -/
theorem OnStack.parentPtr_ne {q : Nat} {esp : Word} (hq : q < 7) (h : OnStack q esp) :
    esp &&& 0xffe000#32 ≠ esp &&& 0xfffe000#32 := by
  have hall : ∀ q < 7, OreOS.parentPtr q ≠ pcbAddr q := by decide
  rw [h.parentPtr, h.pcb hq]
  exact hall q hq

/-- The PCB of a program that `execute` enters holds the masked stack pointer of the caller. -/
theorem RunsSlots.oldPcb {term : Nat} {entry a : Word} {f : Frame} (h : RunsSlots K)
    (hx : OreOS.execute term (some entry) f K = some (.toProgram, K'))
    (ha : K'.paging.slotPcb K'.user.toNat = some a) :
    (K'.pcb a).oldPcb = K.esp f &&& 0xffe000#32 := by
  have h' := h.execute hx
  cases execute_cases hx with
  | started hprog hs =>
    cases hprog
    have hle := freeSlot_le h.ok.slot7
    have hne := hs.slot
    have huser : K'.user.toNat = K.paging.freeSlot := by
      rw [Kernel.user, hs.cr3]
      omega
    rw [huser, slotPcb_eq h'.paging (by omega), hs.pde] at ha
    have hfill : PagingInv (fillPde K.paging.freeSlot entry K.paging) :=
      ⟨h.paging.slot7, fun j h1 h8 => fillPde_entry31 (h.paging.entry31 j h1 h8)⟩
    have hslot := slotPcb_eq hfill (show K.paging.freeSlot < 7 by omega)
    unfold Paging.slotPcb at hslot
    rw [ha] at hslot
    rcases hs.pcb with ⟨-, -, hnone⟩ | ⟨m, hm, -, hpcb⟩
    · rw [hnone] at hslot
      cases hslot
    · rw [hm] at hslot
      cases hslot
      rw [hpcb, Function.update_self]
      rfl

/-- In no run does a call of `execute` get the status of the program that it started together with
    the pointer it should have left in its PCB, whatever happens before the program halts. -/
theorem status_never_returned {pteAddr entry : Word} {es : List SchedEvent} {q : Nat} {f : Frame}
    {K₁ : Kernel} (hrun : runFrom schedStep (boot pteAddr) es = some K) (hq : K.user = q)
    (hstack : OnStack q (K.esp f))
    (hexec : execute (K.home K.user) (some entry) f K = some (.toProgram, K₁)) :
    ∀ (status : UInt8) (g : Frame) (K₂ : Kernel), ¬ ReturnsStatus status f g K K₁ K₂ := by
  have h : RunsSlots K :=
    inv_runFrom_of_step (fun _ _ _ hi hs => hi.step hs) (runsSlots_boot pteAddr) hrun
  have hq7 : q < 7 := by
    have := h.user
    omega
  intro status g K₂ hreturns
  obtain ⟨a, ha, hptr⟩ := hreturns.parent
  rw [h.oldPcb hexec ha] at hptr
  exact hstack.parentPtr_ne hq7 hptr

theorem shellStarted_run : runFrom schedStep (boot 0x410000#32)
    [.execute (some 0x8048000#32) callFrame] = some shellStarted := rfl

/-- The shell has started a program. -/
def programStarted : Kernel :=
  ((execute 0 (some 0x8048000#32) callFrame shellStarted).map Prod.snd).getD shellStarted

theorem programStarted_eq :
    execute (shellStarted.home shellStarted.user) (some 0x8048000#32) callFrame shellStarted =
      some (.toProgram, programStarted) := rfl

theorem status_never_returned_program :
    OnStack 0 (shellStarted.esp callFrame) ∧ ∀ (status : UInt8) (g : Frame) (K₂ : Kernel),
      ¬ ReturnsStatus status callFrame g shellStarted programStarted K₂ := by
  have hstack : OnStack 0 (shellStarted.esp callFrame) := by decide
  exact ⟨hstack, status_never_returned shellStarted_run rfl hstack programStarted_eq⟩

/-- The program halts with status 3, and the shell's `execute` returns 0. -/
theorem status_of_program_lost :
    ¬ ∀ (pteAddr entry : Word) (es es' : List SchedEvent) (K K₁ K₂ : Kernel) (q : Nat) (f g : Frame)
      (status : UInt8), runFrom schedStep (boot pteAddr) es = some K → K.user = q →
        OnStack q (K.esp f) → execute (K.home K.user) (some entry) f K = some (.toProgram, K₁) →
        runFrom schedStep K₁ es' = some K₂ → K₂.user = K₁.user →
        OnStack K₂.user.toNat (K₂.esp g) → ReturnsStatus status f g K K₁ K₂ := by
  intro hall
  have hreturns := hall _ _ _ [] _ _ _ 0 callFrame callFrame 3 shellStarted_run rfl (by decide)
    programStarted_eq rfl rfl (by decide)
  have hvalue := hreturns.value
  simp [Exit.value] at hvalue

/-! ## Where control goes back to -/

/-- A call of `execute` that has not returned: the process that made it, and its frame. -/
structure Call where
  caller : Int
  esp : Word
  ebp : Word

/-- The kernel, with the calls of `execute` made by processes that have not returned. The innermost
    comes first. -/
structure Calls where
  kernel : Kernel
  pending : List Call

/-- A call of `execute` or `halt`, with what it does to the pending calls. -/
def callStep (C : Calls) : SchedEvent → Option Calls
  | .execute prog f => do
      let (x, K) ← execute (C.kernel.home C.kernel.user) prog f C.kernel
      let call : Call := ⟨C.kernel.user, C.kernel.esp f, C.kernel.ebp f⟩
      return ⟨K, if x = .toProgram then call :: C.pending else C.pending⟩
  | .halt f => do
      let (x, K) ← halt f C.kernel
      return ⟨K, if x = .toParent then C.pending.tail else C.pending⟩
  | .tick _ => none
  | .altKey _ _ _ _ => none

/-- `halt` resumes the innermost call, in the frame and the address space it was made in;
    that call returns 0. -/
def Resumes (C : Calls) (e : SchedEvent) (C' : Calls) : Prop :=
  match e with
  | .halt f => ∃ c x, C.pending = c :: C'.pending ∧ halt f C.kernel = some (x, C'.kernel) ∧
      x.value = some 0 ∧ C'.kernel.user = c.caller ∧ C'.kernel.tss.esp = c.esp ∧
      C'.kernel.tss.ebp = c.ebp
  | _ => True

/-- The PCBs of the started processes hold the frames of the calls that started them. -/
def Recorded (K : Kernel) : List Call → Prop
  | [] => True
  | c :: rest => c = ⟨rest.length, (K.pcb (pcbPhys (rest.length + 1))).kstack,
      (K.pcb (pcbPhys (rest.length + 1))).oldEbp⟩ ∧ Recorded K rest

/-- Later processes do not disturb the record. -/
theorem Recorded.update {calls : List Call} {n : Nat} {b : Pcb} (h : Recorded K calls)
    (hlen : calls.length < n) (hn : n < 7) (hpcb : K'.pcb = Function.update K.pcb (pcbPhys n) b) :
    Recorded K' calls := by
  induction calls with
  | nil => trivial
  | cons c rest ih =>
    simp only [List.length_cons] at hlen
    have hsame : K'.pcb (pcbPhys (rest.length + 1)) = K.pcb (pcbPhys (rest.length + 1)) := by
      rw [hpcb, Function.update_of_ne (pcbPhys_ne (by omega) hn (by omega))]
    refine ⟨?_, ih h.2 (by omega)⟩
    rw [hsame]
    exact h.1

theorem Recorded.congr {calls : List Call} (h : Recorded K calls) (hpcb : K'.pcb = K.pcb) :
    Recorded K' calls := by
  induction calls with
  | nil => trivial
  | cons c rest ih =>
    refine ⟨?_, ih h.2⟩
    rw [hpcb]
    exact h.1

/-- The invariant: `d` nested processes above the first shell, started by the pending calls. -/
def CallsOk (C : Calls) : Prop := Nested C.kernel C.pending.length ∧ Recorded C.kernel C.pending

theorem CallsOk.step {C : Calls} (h : CallsOk C) {e : SchedEvent} (he : NestCall C.kernel e) :
    ∃ C', callStep C e = some C' ∧ Resumes C e C' ∧ CallsOk C' := by
  obtain ⟨K, pending⟩ := C
  obtain ⟨hnest, hrec⟩ := h
  simp only at hnest hrec he
  have hle := hnest.le
  cases e with
  | tick f => exact he.elim
  | altKey scancode f shell g => exact he.elim
  | execute prog f =>
    obtain ⟨hstack, hprog⟩ := he
    rw [hnest.user, Int.toNat_natCast] at hstack
    cases prog with
    | none => exact ⟨⟨K, pending⟩, rfl, trivial, hnest, hrec⟩
    | some entry =>
      by_cases h6 : pending.length = 6
      · have hfull : K.paging.freeSlot = 7 := by
          rw [hnest.freeSlot, h6]
        refine ⟨⟨K, pending⟩, ?_, trivial, hnest, hrec⟩
        simp only [callStep, execute_noSlot hfull, Option.bind_eq_bind, Option.bind_some]
        rfl
      · obtain ⟨K', hx, hnest', hpcb⟩ := hnest.execute (K.home K.user) (by omega)
          (fun p hp => by cases hp; exact hstack) (dirIndex_program hprog.1 hprog.2)
        refine ⟨⟨K', ⟨K.user, K.esp f, K.ebp f⟩ :: pending⟩, ?_, trivial, hnest', ?_, ?_⟩
        · simp only [callStep, hx, Option.bind_eq_bind, Option.bind_some]
          rfl
        · simp only [hpcb, Function.update_self, hnest.user]
          rfl
        · exact hrec.update (Nat.lt_succ_self _) (by omega) hpcb
  | halt f =>
    obtain ⟨hstack, hpos⟩ := he
    rw [hnest.user] at hstack hpos
    cases pending with
    | nil => exact absurd hpos (by simp)
    | cons c rest =>
      obtain ⟨hc, hrest⟩ := hrec
      obtain ⟨K', hx, hnest', htss, hpcb⟩ := hnest.halt hstack
      refine ⟨⟨K', rest⟩, ?_, ⟨c, _, rfl, hx, rfl, ?_⟩, hnest', hrest.congr hpcb⟩
      · simp only [callStep, hx, Option.bind_eq_bind, Option.bind_some]
        rfl
      · rw [hc, htss]
        exact ⟨hnest'.user, rfl, rfl⟩

/-- Whatever programs a terminal nests, `halt` goes back into the call of `execute` that started the
    program, and that call returns 0. -/
theorem halt_resumes_caller (pteAddr entry : Word) (f : Frame) (hentry : Linked (some entry)) :
    ∃ K, execute 0 (some entry) f (boot pteAddr) = some (.toProgram, K) ∧
      ∀ es, EachStep callStep (fun C e => NestCall C.kernel e) ⟨K, []⟩ es →
        Runs callStep Resumes ⟨K, []⟩ es := by
  obtain ⟨K, hx, hnested, -⟩ := (stacked_boot pteAddr).execute (f := f) 0 (by omega)
    (fun p hp => by cases hp) (dirIndex_program hentry.1 hentry.2)
  refine ⟨K, hx, ?_⟩
  intro es hes
  exact runs_of_inv_each (fun _ _ h he => h.step he) (show CallsOk ⟨K, []⟩ from ⟨hnested, trivial⟩)
    hes

end OreOS
