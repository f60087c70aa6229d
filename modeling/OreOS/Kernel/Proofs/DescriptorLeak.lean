import OreOS.Kernel.Proofs.Defined
import OreOS.Kernel.Proofs.StackFrame
import OreOS.SysCall.Proofs.FileStream

/-!
# Descriptors left behind in a slot

`execute` fills in descriptors 0 and 1 of a PCB and leaves 2 to 7 as they are; `halt` does not touch
them. A new process therefore starts with whatever its slot was left with. `SlotsClean` says that
free slots have nothing left in them. It is kept by processes that close what they opened, on stacks
that stay above the PCBs.
-/

namespace OreOS
open Machine

variable {K K' : Kernel}

/-- Descriptors 2 to 7 are not in use. -/
def Pcb.FilesClosed (b : Pcb) : Prop := ∀ i < 8, 2 ≤ i → (b.fd i).present = false

instance (b : Pcb) : Decidable b.FilesClosed := inferInstanceAs (Decidable (∀ i < 8, 2 ≤ i → _))

/-- A process that the step started has exactly descriptors 0 and 1. -/
def StartsFresh (K K' : Kernel) : Prop :=
  ∀ p, ¬ K.paging.Live p → K'.paging.Live p →
    ∃ a, K'.paging.slotPcb p = some a ∧ ∀ i < 8, ((K'.pcb a).fd i).present = true ↔ i < 2

/-- When an event leaves nothing behind. A process closes its files before it halts, `sys_open`
    works on the PCB of a live process, and no program is linked at 124 to 128 MB, which would put
    its PCB on a page of its own. -/
def LeavesClean (K : Kernel) : Event → Prop
  | .sched (.execute prog _) => ∀ entry, prog = some entry → dirIndex entry ≠ 31
  | .sched (.altKey _ _ shell _) => ∀ entry, shell = some entry → dirIndex entry ≠ 31
  | .sched (.halt f) => ∀ a, K.getCurrPcb f = some a → (K.pcb a).procId ≠ 0 →
      ∀ b, K.paging.slotPcb (K.pcb a).procId.toNat = some b → (K.pcb b).FilesClosed
  | .files (.open _) f => ∀ a, K.getCurrPcb f = some a →
      ∃ q, K.paging.Live q ∧ K.paging.slotPcb q = some a
  | _ => True

/-- Slots that are not in use have no descriptors 2 to 7. -/
structure SlotsClean (K : Kernel) : Prop where
  paging : PagingInv K.paging
  closed : ∀ p < 7, ¬ K.paging.Live p → ∀ a, K.paging.slotPcb p = some a →
    (K.pcb a).FilesClosed

/-! ## Entry 31 -/

/-- `new_pde` leaves entry 31 alone for programs that are linked elsewhere. -/
theorem fillPde_pde31 {i : Nat} {v : Word} {P : Paging} (hv : dirIndex v ≠ 31) (j : Nat) :
    (fillPde i v P).pde j 31 = P.pde j 31 :=
  fillPde_pde (by decide) (by decide) (Ne.symm hv) j

/-! ## Steps that start and end no process -/

theorem SlotsClean.of_same (h : SlotsClean K) (hpcb : K'.pcb = K.pcb)
    (hproc : K'.paging.proc = K.paging.proc)
    (h31 : ∀ j, K'.paging.pde j 31 = K.paging.pde j 31) : SlotsClean K' := by
  have hP := h.paging.of_eq hproc h31
  refine ⟨hP, ?_⟩
  intro p hp hfree a ha
  rw [slotPcb_congr h.paging hP h31 hp] at ha
  rw [hpcb]
  apply h.closed p hp ?_ a ha
  unfold Paging.Live at hfree ⊢
  rw [← hproc]
  exact hfree

theorem startsFresh_of_proc (hproc : K'.paging.proc = K.paging.proc) : StartsFresh K K' := by
  intro p hfree hlive
  unfold Paging.Live at hfree hlive
  rw [hproc] at hlive
  exact absurd hlive hfree

theorem SlotsClean.quiet (h : SlotsClean K) (hq : Quiet K K') : StartsFresh K K' ∧ SlotsClean K' :=
  ⟨startsFresh_of_proc hq.proc, h.of_same hq.pcb hq.proc fun j => by rw [hq.pde]⟩

/-! ## Starting and ending processes -/

/-- The descriptors that `execute` leaves in a clean PCB. -/
theorem present_fillPcb {p : Nat} {esp ebp : Word} {old : Pcb} (hold : old.FilesClosed) {i : Nat}
    (hi : i < 8) : ((fillPcb p esp ebp old).fd i).present = true ↔ i < 2 := by
  simp only [fillPcb]
  by_cases h1 : i = 1
  · subst h1
    simp [Fd.present]
  · rw [setFd_fd_ne _ _ h1]
    by_cases h0 : i = 0
    · subst h0
      simp [Fd.present]
    · rw [setFd_fd_ne _ _ h0, hold i hi (by omega)]
      simp
      omega

/-- The slots in use after a successful `execute`. -/
theorem Started.live_iff {term : Nat} {entry : Word} {f : Frame} (hs : Started term entry f K K')
    (q : Nat) : K'.paging.Live q ↔ q = K.paging.freeSlot ∨ K.paging.Live q := by
  unfold Paging.Live
  rw [getElem?_of_store hs.proc]
  by_cases hq : K.paging.freeSlot = q
  · simp [hq]
  · simp [hq, Ne.symm hq]

/-- For a program that is linked elsewhere, `execute` writes the PCB at the address that the
    directory of the slot gives. -/
theorem Started.pcb_at {term : Nat} {entry : Word} {f : Frame} (hs : Started term entry f K K')
    (hP : PagingInv K.paging) (hentry : dirIndex entry ≠ 31) (hlt : K.paging.freeSlot < 7) :
    ∃ a, K.paging.slotPcb K.paging.freeSlot = some a ∧
      K'.pcb = Function.update K.pcb a
        (fillPcb K.paging.freeSlot (K.esp f) (K.ebp f) (K.pcb a)) := by
  have hfill : PagingInv (fillPde K.paging.freeSlot entry K.paging) :=
    hP.of_eq rfl (fillPde_pde31 hentry)
  rcases hs.pcb with ⟨-, -, hnone⟩ | ⟨m, hm, -, hpcb⟩
  · have haddr := slotPcb_eq hfill hlt
    simp [Paging.slotPcb, hnone] at haddr
  · refine ⟨m.phys, ?_, hpcb⟩
    rw [← slotPcb_congr hP hfill (fillPde_pde31 hentry) hlt]
    simp [Paging.slotPcb, hm]

theorem SlotsClean.started {term : Nat} {entry : Word} {f : Frame} (h : SlotsClean K)
    (hentry : dirIndex entry ≠ 31) (hs : Started term entry f K K') :
    StartsFresh K K' ∧ SlotsClean K' := by
  have hle := freeSlot_le h.paging.slot7
  have hne := hs.slot
  have hlt : K.paging.freeSlot < 7 := by omega
  have hfree : ¬ K.paging.Live K.paging.freeSlot := by
    unfold Paging.Live
    rw [freeSlot_free hle]
    simp
  have h31 : ∀ j, K'.paging.pde j 31 = K.paging.pde j 31 := by
    intro j
    rw [hs.pde]
    exact fillPde_pde31 hentry j
  have hP := h.paging.started hs
  obtain ⟨a, hslot, hpcb⟩ := hs.pcb_at h.paging hentry hlt
  constructor
  · intro q hq hq'
    obtain rfl : q = K.paging.freeSlot := ((hs.live_iff q).mp hq').resolve_right hq
    refine ⟨a, (slotPcb_congr h.paging hP h31 hlt).trans hslot, ?_⟩
    intro i hi
    rw [hpcb, Function.update_self]
    exact present_fillPcb (h.closed _ hlt hfree _ hslot) hi
  · refine ⟨hP, ?_⟩
    intro q hq hdead b hb
    rw [hs.live_iff, not_or] at hdead
    rw [slotPcb_congr h.paging hP h31 hq] at hb
    have haddr := slotPcb_ne h.paging hq hlt hdead.1 hb hslot
    rw [hpcb, Function.update_of_ne haddr]
    exact h.closed q hq hdead.2 b hb

theorem SlotsClean.execute {term : Nat} {prog : Option Word} {f : Frame} {x : Exit}
    (h : SlotsClean K) (hc : ∀ entry, prog = some entry → dirIndex entry ≠ 31)
    (hx : execute term prog f K = some (x, K')) : StartsFresh K K' ∧ SlotsClean K' := by
  cases execute_cases hx with
  | noProgram => exact ⟨startsFresh_of_proc rfl, h⟩
  | noSlot => exact ⟨startsFresh_of_proc rfl, h⟩
  | started hprog hs => exact h.started (hc _ hprog) hs

/-- Freeing the slot of a process that has closed its files. -/
theorem SlotsClean.freed {a : Word} {P : Paging} (h : SlotsClean K)
    (hc : ∀ b, K.paging.slotPcb (K.pcb a).procId.toNat = some b → (K.pcb b).FilesClosed)
    (hP : removePage (K.pcb a).procId K.paging = some P) (hpcb : K'.pcb = K.pcb)
    (hproc : K'.paging.proc = P.proc) (hpde : K'.paging.pde = P.pde) :
    StartsFresh K K' ∧ SlotsClean K' := by
  have hP' : PagingInv K'.paging := (h.paging.removePage hP).of_eq hproc fun j => by rw [hpde]
  obtain ⟨proc, h0, hstore, rfl⟩ := removePage_cases hP
  have hset : ∀ q, K'.paging.proc[q]? =
      if (K.pcb a).procId.toNat = q then some 0 else K.paging.proc[q]? := by
    intro q
    rw [hproc]
    exact getElem?_of_store hstore q
  have h31 : ∀ j, K'.paging.pde j 31 = K.paging.pde j 31 := by
    intro j
    rw [hpde]
  constructor
  · intro q hq hq'
    unfold Paging.Live at hq hq'
    rw [hset] at hq'
    split at hq'
    · cases hq'
    · exact absurd hq' hq
  · refine ⟨hP', ?_⟩
    intro q hq hdead b hb
    rw [slotPcb_congr h.paging hP' h31 hq] at hb
    rw [hpcb]
    by_cases heq : (K.pcb a).procId.toNat = q
    · subst heq
      exact hc b hb
    · apply h.closed q hq ?_ b hb
      unfold Paging.Live at hdead ⊢
      rw [hset, if_neg heq] at hdead
      exact hdead

theorem SlotsClean.halt {f : Frame} {x : Exit} (h : SlotsClean K)
    (hc : LeavesClean K (.sched (.halt f))) (hx : halt f K = some (x, K')) :
    StartsFresh K K' ∧ SlotsClean K' := by
  cases halt_cases hx with
  | fault => exact ⟨startsFresh_of_proc rfl, h.of_same rfl rfl fun _ => rfl⟩
  | shutdown => exact ⟨startsFresh_of_proc rfl, h.of_same rfl rfl fun _ => rfl⟩
  | inactive ha hne hP => exact h.freed (hc _ ha hne) hP rfl rfl rfl
  | noParent ha hne hP => exact h.freed (hc _ ha hne) hP rfl rfl rfl
  | resumed ha hne hP => exact h.freed (hc _ ha hne) hP rfl rfl rfl

/-! ## Calls on descriptors -/

theorem SlotsClean.files {fs : Filesys} {c : FileCall} {f : Frame} (h : SlotsClean K)
    (hc : LeavesClean K (.files c f)) (hx : callFiles fs c f K = some K') :
    StartsFresh K K' ∧ SlotsClean K' := by
  unfold callFiles at hx
  split at hx
  next =>
    cases hx
    exact ⟨startsFresh_of_proc rfl, h.of_same rfl rfl fun _ => rfl⟩
  next a ha =>
    simp only [Option.bind_eq_bind, Option.bind_eq_some_iff, Option.pure_def,
      Option.some.injEq] at hx
    obtain ⟨⟨r, t⟩, hcall, rfl⟩ := hx
    refine ⟨startsFresh_of_proc rfl, h.paging, ?_⟩
    intro p hp hfree b hb
    have hclosed := h.closed p hp hfree b hb
    by_cases hab : b = a
    · subst hab
      simp only [Kernel.setPcb, Function.update_self]
      by_cases hopen : ∃ fname, c = .open fname
      · -- the PCB that is opened in belongs to a live slot
        obtain ⟨fname, rfl⟩ := hopen
        obtain ⟨q, hlive, hq⟩ := hc b ha
        have hne : p ≠ q := fun heq => hfree (heq ▸ hlive)
        exact absurd rfl (slotPcb_ne h.paging hp (hlive.lt h.paging.slot7) hne hb hq)
      · intro i hi h2
        have habsent := hclosed i hi h2
        unfold Fd.present at habsent ⊢
        rcases fileCall_fd (fun fname heq => hopen ⟨fname, heq⟩) hcall i with
          hsame | ⟨-, hflags | hflags⟩
        · rw [hsame]
          exact habsent
        · rw [hflags]
          exact habsent
        · rw [hflags]
          rfl
    · simp only [Kernel.setPcb, Function.update_of_ne hab]
      exact hclosed

theorem SlotsClean.schedStep {e : SchedEvent} (h : SlotsClean K)
    (hc : K.down = false → LeavesClean K (.sched e)) (hx : schedStep K e = some K') :
    StartsFresh K K' ∧ SlotsClean K' := by
  cases schedStep_cases hx with
  | off => exact ⟨startsFresh_of_proc rfl, h⟩
  | ignored => exact ⟨startsFresh_of_proc rfl, h⟩
  | tick _ htick =>
    cases htick with
    | idle => exact ⟨startsFresh_of_proc rfl, h⟩
    | next _ _ _ _ _ _ _ _ _ _ _ _ _ hq => exact h.quiet hq
  | switched hup _ hswitch =>
    cases hswitch with
    | shown _ _ _ _ _ _ _ _ _ _ _ _ _ hq => exact h.quiet hq
    | opened _ _ _ _ _ _ _ hq hexec =>
      obtain ⟨hfresh, hclean⟩ := (h.quiet hq).2.execute (hc hup) hexec
      refine ⟨fun p hp => hfresh p ?_, hclean⟩
      unfold Paging.Live at hp ⊢
      rw [hq.proc]
      exact hp
  | executed hup hexec => exact h.execute (hc hup) hexec
  | halted hup hhalt => exact h.halt (hc hup) hhalt

theorem SlotsClean.vidmap {addr : Word} {f : Frame} (h : SlotsClean K)
    (hx : callVidmap addr f K = some K') : StartsFresh K K' ∧ SlotsClean K' := by
  unfold callVidmap at hx
  split at hx
  next =>
    cases hx
    exact ⟨startsFresh_of_proc rfl, h.of_same rfl rfl fun _ => rfl⟩
  next a ha =>
    split at hx
    next =>
      cases hx
      exact ⟨startsFresh_of_proc rfl, h.of_same rfl rfl fun _ => rfl⟩
    next r P hvid =>
      cases hx
      rcases sysVidmap_cases hvid with ⟨-, -, rfl⟩ | ⟨-, -, -, rfl⟩
      · exact ⟨startsFresh_of_proc rfl, h⟩
      · exact ⟨startsFresh_of_proc rfl, h.of_same rfl rfl fun j => by simp [mapVideo]⟩

theorem SlotsClean.screenOp {op : ScreenOp} (h : SlotsClean K) (hx : screenOp op K = some K') :
    StartsFresh K K' ∧ SlotsClean K' := by
  obtain ⟨console, -, hK'⟩ := Option.bind_eq_some_iff.mp hx
  cases hK'
  exact ⟨startsFresh_of_proc rfl, h.of_same rfl rfl fun _ => rfl⟩

theorem SlotsClean.step {fs : Filesys} {e : Event} (h : SlotsClean K)
    (hc : K.down = false → LeavesClean K e) (hx : kernelStep fs K e = some K') :
    StartsFresh K K' ∧ SlotsClean K' := by
  unfold kernelStep at hx
  split at hx
  · cases hx
    exact ⟨startsFresh_of_proc rfl, h⟩
  next hdown =>
    have hup : K.down = false := by simpa using hdown
    cases e with
    | sched e => exact h.schedStep hc hx
    | files c f => exact h.files (hc hup) hx
    | vidmap addr f => exact h.vidmap hx
    | output op => exact h.screenOp hx
    | echo op => exact h.screenOp hx

/-! ## Stacks -/

/-- What an event on a stack below `tss.esp0` must meet: the stack reaches no PCB, and the event
    leaves nothing behind. -/
def CleanUse (addr : Option Fotp → Word) (K : Kernel) (e : Event × StackUse) : Prop :=
  SparesPcbs K e.2.taken ∧ LeavesClean (K.takeStack addr e.2) e.1

theorem SlotsClean.takeStack {addr : Option Fotp → Word} {u : StackUse} (h : SlotsClean K)
    (hspares : SparesPcbs K u.taken) : SlotsClean (K.takeStack addr u) where
  paging := h.paging
  closed := by
    intro p hp hfree a ha
    rw [takeStack_pcb (hspares p hp a ha)]
    exact h.closed p hp hfree a ha

theorem SlotsClean.stackStep {fs : Filesys} {addr : Option Fotp → Word} {e : Event × StackUse}
    (h : SlotsClean K) (hc : K.down = false → CleanUse addr K e)
    (hx : stackStep fs addr K e = some K') : StartsFresh K K' ∧ SlotsClean K' := by
  unfold OreOS.stackStep at hx
  split at hx
  · cases hx
    exact ⟨startsFresh_of_proc rfl, h⟩
  next hdown =>
    obtain ⟨hspares, hleaves⟩ := hc (by simpa using hdown)
    exact (h.takeStack hspares).step (fun _ => hleaves) hx

/-! ## Runs -/

/-- Nothing in the memory of the PCBs looks like an open file. -/
def ClearSlots (pteAddr : Word) (mem : Word → Pcb) : Prop :=
  ∀ q < 7, ∀ a, (boot pteAddr).paging.slotPcb q = some a → (mem a).FilesClosed

theorem slotsClean_bootWith {pteAddr : Word} {mem : Word → Pcb} (h : ClearSlots pteAddr mem) :
    SlotsClean (bootWith pteAddr mem) :=
  ⟨pagingInv_init pteAddr, fun p hp _ => h p hp⟩

/-- In a run on clear memory in which stacks stay clear of the PCBs and processes leave nothing
    behind, every process starts with descriptors 0 and 1 and no others. -/
theorem new_process_has_fresh_descriptors {fs : Filesys} {addr : Option Fotp → Word}
    {pteAddr : Word}
    {mem : Word → Pcb} {es : List (Event × StackUse)} (hmem : ClearSlots pteAddr mem)
    (hclean : EachStep (stackStep fs addr) (fun K e => K.down = false → CleanUse addr K e)
      (bootWith pteAddr mem) es) :
    Along (stackStep fs addr) (fun K _ K' => StartsFresh K K') (bootWith pteAddr mem) es :=
  along_of_inv (fun _ _ _ h hc hx => h.stackStep hc hx) (slotsClean_bootWith hmem) hclean

/-! ## A slot that is used twice -/

/-- Every event uses 400 bytes of the stack. -/
def onStack (es : List Event) : List (Event × StackUse) :=
  es.map fun e => (e, ⟨400, fun _ => some 204⟩)

/-- A program opens a file. -/
def openFile : List Event :=
  [.sched (.execute (some 0x8048000#32) ⟨64#32, 40#32⟩),
    .sched (.execute (some 0x8048000#32) ⟨64#32, 40#32⟩), .files (.open [97]) ⟨64#32, 40#32⟩]

/-- It closes the file, halts, and another program gets its slot. -/
def closeHaltExecute : List Event :=
  [.files (.close 2) ⟨64#32, 40#32⟩, .sched (.halt ⟨64#32, 40#32⟩),
    .sched (.execute (some 0x8048000#32) ⟨64#32, 40#32⟩)]

/-- It halts with the file open, and another program gets its slot. -/
def haltExecute : List Event :=
  [.sched (.halt ⟨64#32, 40#32⟩), .sched (.execute (some 0x8048000#32) ⟨64#32, 40#32⟩)]

/-- The kernel that both start from. -/
def clearBoot : Kernel := bootWith 0x410000#32 fun _ => clearPcb

theorem clearSlots_zero : ClearSlots 0x410000#32 fun _ => clearPcb :=
  fun _ _ _ _ _ _ _ => by simp [clearPcb, Fd.present]

/-- The PCBs of slots 0 and 1. -/
def FirstSlots (a : Word) : Prop := a = 0x3FE000#32 ∨ a = 0x3FC000#32

instance : DecidablePred FirstSlots := fun _ => inferInstanceAs (Decidable (_ ∨ _))

/-- The PCBs of slots 0 and 1 are in their places, and 400 bytes fit on the stack. -/
def Roomy (K : Kernel) : Prop :=
  StackRoom K 400 ∧ K.paging.proc[7]? = some 0 ∧
    (∀ j < 8, 1 ≤ j → K.paging.pde j 31 &&& userLarge = userLarge) ∧
    K.paging.slotPcb 0 = some 0x3FE000#32 ∧ K.paging.slotPcb 1 = some 0x3FC000#32

instance (K : Kernel) : Decidable (Roomy K) := inferInstanceAs (Decidable (_ ∧ _))

theorem Roomy.pagingInv (h : Roomy K) : PagingInv K.paging :=
  ⟨h.2.1, fun j h1 h8 => h.2.2.1 j h8 h1⟩

theorem Roomy.slots (h : Roomy K) (a : Word) (ha : FirstSlots a) :
    ∃ q < 7, K.paging.slotPcb q = some a := by
  obtain ⟨-, -, -, h0, h1⟩ := h
  rcases ha with rfl | rfl
  · exact ⟨0, by decide, h0⟩
  · exact ⟨1, by decide, h1⟩

/-- The PCB that `get_curr_pcb` finds and that of the parent, in the frame of the sample events. -/
def readPcbs (K : Kernel) : Option Word × Option Word :=
  (K.getCurrPcb ⟨64#32, 40#32⟩,
    (K.getCurrPcb ⟨64#32, 40#32⟩).bind fun a => K.phys (K.pcb a).oldPcb)

/-- A run of sample events, checked state by state. -/
structure Checked (es : List Event) : Prop where
  roomy : ∀ n < es.length, 1 ≤ n →
    (runFrom (kernelStep sampleFs) clearBoot (es.take n)).all (fun K => decide (Roomy K)) = true
  reads : ∀ n e, es[n]? = some e →
    (∀ K, ReadsOnly FirstSlots K e) ∨
      ((∀ K, readPcbs K = (some 0x3FC000#32, some 0x3FE000#32) → ReadsOnly FirstSlots K e) ∧
        (runFrom (kernelStep sampleFs) clearBoot (es.take n)).map readPcbs =
          some (some 0x3FC000#32, some 0x3FE000#32))

theorem Checked.roomy_at {es : List Event} (h : Checked es) {n : Nat} {e : Event}
    (he : es[n]? = some e)
    (hn : 1 ≤ n) (hK : runFrom (kernelStep sampleFs) clearBoot (es.take n) = some K) : Roomy K := by
  have hroomy := h.roomy n (List.getElem?_eq_some_iff.mp he).1 hn
  rw [hK, Option.all_some] at hroomy
  exact of_decide_eq_true hroomy

theorem Checked.sparesPcbs {es : List Event} (h : Checked es) {n : Nat} {e : Event}
    (he : es[n]? = some e)
    (hK : runFrom (kernelStep sampleFs) clearBoot (es.take n) = some K) : SparesPcbs K 400 := by
  rcases Nat.eq_zero_or_pos n with rfl | hn
  · cases hK
    exact sparesPcbs_boot 0x410000#32 (by decide) rfl rfl
  · have hroom := h.roomy_at he hn hK
    exact hroom.1.sparesPcbs hroom.pagingInv

theorem Checked.framedBy {es : List Event} (h : Checked es) {n : Nat} {e : Event}
    (he : es[n]? = some e) (hK : runFrom (kernelStep sampleFs) clearBoot (es.take n) = some K) :
    FramedBy FirstSlots K (e, ⟨400, fun _ => some 204⟩) := by
  have hreads : ReadsOnly FirstSlots K e := by
    rcases h.reads n e he with hall | ⟨hpcbs, hread⟩
    · exact hall K
    · rw [hK, Option.map_some, Option.some.injEq] at hread
      exact hpcbs K hread
  refine framedBy_of_spares (h.sparesPcbs he hK) ?_ hreads
  intro a ha
  rcases Nat.eq_zero_or_pos n with rfl | hn
  · cases hK
    rcases ha with rfl | rfl <;> decide
  · exact (h.roomy_at he hn hK).slots a ha

theorem map_fst_onStack (es : List Event) : (onStack es).map Prod.fst = es := by
  simp [onStack, Function.comp_def]

theorem getElem?_onStack {es : List Event} {n : Nat} {d : Event × StackUse}
    (hd : (onStack es)[n]? = some d) :
    ∃ e, es[n]? = some e ∧ d = (e, ⟨400, fun _ => some 204⟩) := by
  simp only [onStack, List.getElem?_map, Option.map_eq_some_iff] at hd
  obtain ⟨e, he, rfl⟩ := hd
  exact ⟨e, he, rfl⟩

/-- A run that is checked agrees with the one on stacks. -/
theorem Checked.agrees {es : List Event} (h : Checked es) (n : Nat) :
    Option.Rel (AgreeOn FirstSlots) (runFrom (kernelStep sampleFs) clearBoot (es.take n))
      (runFrom (stackStep sampleFs fun _ => 0) clearBoot ((onStack es).take n)) := by
  have hframed : EachStep (fun K d => kernelStep sampleFs K d.1)
      (fun K d => K.down = false → FramedBy FirstSlots K d) clearBoot (onStack es) := by
    rw [eachStep_iff_take]
    intro n d hd K hK _
    obtain ⟨e, he, rfl⟩ := getElem?_onStack hd
    rw [runFrom_map, List.map_take, map_fst_onStack] at hK
    exact h.framedBy he hK
  have hagree := stackRun_agrees (fun _ => 0) (hframed.take n)
  rwa [List.map_take, map_fst_onStack] at hagree

/-- Calls that read the PCB of the caller, and `halt`, which reads that of the parent. -/
theorem readsOnly_of_readPcbs (h : readPcbs K = (some 0x3FC000#32, some 0x3FE000#32)) :
    (∀ c, ReadsOnly FirstSlots K (.files c ⟨64#32, 40#32⟩)) ∧
      ReadsOnly FirstSlots K (.sched (.halt ⟨64#32, 40#32⟩)) := by
  obtain ⟨hcurr, hparent⟩ := Prod.mk.inj h
  have hfirst : ∀ a, K.getCurrPcb ⟨64#32, 40#32⟩ = some a → FirstSlots a := by
    intro a ha
    cases hcurr.symm.trans ha
    exact .inr rfl
  refine ⟨fun _ => hfirst, fun a ha => ⟨hfirst a ha, ?_⟩⟩
  intro b hb
  rw [ha, Option.bind_some, hb] at hparent
  cases hparent
  exact .inl rfl

theorem readPcbs_openFile : ∀ n < 5, 2 ≤ n →
    (runFrom (kernelStep sampleFs) clearBoot ((openFile ++ closeHaltExecute).take n)).map readPcbs =
      some (some 0x3FC000#32, some 0x3FE000#32) := by
  decide

theorem closeHaltExecute_checked : Checked (openFile ++ closeHaltExecute) where
  roomy := by decide
  reads := by
    intro n e he
    have hlt : n < 6 := (List.getElem?_eq_some_iff.mp he).1
    obtain rfl | rfl | rfl | rfl | rfl | rfl : n = 0 ∨ n = 1 ∨ n = 2 ∨ n = 3 ∨ n = 4 ∨ n = 5 := by
      omega
    all_goals cases he
    · exact .inl fun _ => trivial
    · exact .inl fun _ => trivial
    · exact .inr ⟨fun K h => (readsOnly_of_readPcbs h).1 _,
        readPcbs_openFile 2 (by decide) (by decide)⟩
    · exact .inr ⟨fun K h => (readsOnly_of_readPcbs h).1 _,
        readPcbs_openFile 3 (by decide) (by decide)⟩
    · exact .inr ⟨fun K h => (readsOnly_of_readPcbs h).2,
        readPcbs_openFile 4 (by decide) (by decide)⟩
    · exact .inl fun _ => trivial

theorem haltExecute_checked : Checked (openFile ++ haltExecute) where
  roomy := by decide
  reads := by
    have hopen : (runFrom (kernelStep sampleFs) clearBoot ((openFile ++ haltExecute).take 3)).map
        readPcbs = some (some 0x3FC000#32, some 0x3FE000#32) := by decide
    intro n e he
    have hlt : n < 5 := (List.getElem?_eq_some_iff.mp he).1
    obtain rfl | rfl | rfl | rfl | rfl : n = 0 ∨ n = 1 ∨ n = 2 ∨ n = 3 ∨ n = 4 := by omega
    all_goals cases he
    · exact .inl fun _ => trivial
    · exact .inl fun _ => trivial
    · exact .inr ⟨fun K h => (readsOnly_of_readPcbs h).1 _,
        readPcbs_openFile 2 (by decide) (by decide)⟩
    · exact .inr ⟨fun K h => (readsOnly_of_readPcbs h).2, hopen⟩
    · exact .inl fun _ => trivial

theorem slot_openFile : ∀ n < 5, 2 ≤ n →
    (runFrom (kernelStep sampleFs) clearBoot ((openFile ++ closeHaltExecute).take n)).map (fun K =>
      (K.paging.proc[1]?, (K.pcb 0x3FC000#32).procId)) = some (some 1, 1) := by
  decide

theorem closed_openFile :
    (runFrom (kernelStep sampleFs) clearBoot ((openFile ++ closeHaltExecute).take 4)).map (fun K =>
      decide (K.pcb 0x3FC000#32).FilesClosed) = some true := by
  decide

theorem closeHaltExecute_cleanUse :
    EachStep (stackStep sampleFs fun _ => 0) (fun K e => K.down = false → CleanUse (fun _ => 0) K e)
      clearBoot (onStack (openFile ++ closeHaltExecute)) := by
  have hentry : ∀ entry, some 0x8048000#32 = some entry → dirIndex entry ≠ 31 := by
    intro entry h
    cases h
    decide
  rw [eachStep_iff_take]
  intro n d hd L hL _
  obtain ⟨e, he, rfl⟩ := getElem?_onStack hd
  have hrel := closeHaltExecute_checked.agrees n
  rw [hL] at hrel
  obtain ⟨K, hK, hagree⟩ := exists_of_rel_right hrel
  have hspares := closeHaltExecute_checked.sparesPcbs he hK
  refine ⟨(sparesPcbs_agree hagree _).mpr hspares, ?_⟩
  -- the stack leaves the two PCBs as they are
  have hframed := closeHaltExecute_checked.framedBy he hK
  obtain ⟨m, hM, hm⟩ := (hagree.takeStack (fun _ => 0) ⟨400, fun _ => some 204⟩
    fun a ha hhit => hframed.2 a ha ((stackHits_agree hagree _ a).mp hhit)).exists_pcb
  simp only [hM]
  have hcurr {n : Nat} (h2 : 2 ≤ n) (h5 : n < 5)
      (hK : runFrom (kernelStep sampleFs) clearBoot ((openFile ++ closeHaltExecute).take n) =
        some K) :
      K.getCurrPcb ⟨64#32, 40#32⟩ = some 0x3FC000#32 ∧ K.paging.slotPcb 1 = some 0x3FC000#32 ∧
        K.paging.proc[1]? = some 1 ∧ (K.pcb 0x3FC000#32).procId = 1 := by
    have hread := readPcbs_openFile n h5 h2
    have hslot := slot_openFile n h5 h2
    rw [hK, Option.map_some, Option.some.injEq, Prod.mk.injEq] at hread hslot
    have hlt : n < (openFile ++ closeHaltExecute).length := by
      show n < 6
      omega
    have hroom := closeHaltExecute_checked.roomy_at (List.getElem?_eq_getElem hlt) (by omega) hK
    exact ⟨hread.1, hroom.2.2.2.2, hslot.1, hslot.2⟩
  have hlt : n < 6 := (List.getElem?_eq_some_iff.mp he).1
  obtain rfl | rfl | rfl | rfl | rfl | rfl : n = 0 ∨ n = 1 ∨ n = 2 ∨ n = 3 ∨ n = 4 ∨ n = 5 := by
    omega
  all_goals cases he
  · exact hentry
  · exact hentry
  · intro a ha
    obtain ⟨hpcb, hslot, hlive, -⟩ := hcurr (by decide) (by decide) hK
    cases hpcb.symm.trans ha
    exact ⟨1, hlive, hslot⟩
  · exact trivial
  · intro a ha _ b hb
    obtain ⟨hpcb, hslot, -, hid⟩ := hcurr (by decide) (by decide) hK
    have hclosed := closed_openFile
    rw [hK, Option.map_some, Option.some.injEq] at hclosed
    cases hpcb.symm.trans ha
    have hsame := hm 0x3FC000#32 (.inr rfl)
    simp only [hsame, hid] at hb ⊢
    cases hslot.symm.trans hb
    rw [hsame]
    exact of_decide_eq_true hclosed
  · exact hentry

theorem new_process_has_fresh_descriptors_closed :
    Along (stackStep sampleFs fun _ => 0) (fun K _ K' => StartsFresh K K') clearBoot
      (onStack (openFile ++ closeHaltExecute)) :=
  new_process_has_fresh_descriptors clearSlots_zero closeHaltExecute_cleanUse

/-- A program that halts with its file open leaves descriptor 2 in use for the next one. -/
theorem descriptor_survives_halt :
    ¬ ∀ (fs : Filesys) (addr : Option Fotp → Word) (pteAddr : Word) (es : List (Event × StackUse)),
      Along (stackStep fs addr) (fun K _ K' => StartsFresh K K')
      (bootWith pteAddr fun _ => clearPcb) es := by
  intro hall
  have hfresh := hall sampleFs (fun _ => 0) 0x410000#32 (onStack (openFile ++ haltExecute))
  have hdead : (runFrom (kernelStep sampleFs) clearBoot ((openFile ++ haltExecute).take 4)).map
      (fun K => K.paging.proc[1]?) = some (some 0) := by decide
  have hopen : (runFrom (kernelStep sampleFs) clearBoot (openFile ++ haltExecute)).map
      (fun K => (K.paging.proc[1]?, K.paging.slotPcb 1, ((K.pcb 0x3FC000#32).fd 2).present)) =
      some (some 1, some 0x3FC000#32, true) := by decide
  obtain ⟨K, hK, hfree⟩ := Option.map_eq_some_iff.mp hdead
  obtain ⟨K', hK', hlive⟩ := Option.map_eq_some_iff.mp hopen
  rw [Prod.mk.injEq, Prod.mk.injEq] at hlive
  obtain ⟨hlive, hslot, hpresent⟩ := hlive
  -- the last step on stacks agrees with that of `kernelStep`
  have hrel := haltExecute_checked.agrees 4
  have hrel' := haltExecute_checked.agrees 5
  rw [hK] at hrel
  rw [show (openFile ++ haltExecute).take 5 = openFile ++ haltExecute from rfl, hK'] at hrel'
  obtain ⟨L, hL, hagree⟩ := exists_of_rel_left hrel
  obtain ⟨L', hL', hagree'⟩ := exists_of_rel_left hrel'
  obtain ⟨m, rfl, -⟩ := hagree.exists_pcb
  obtain ⟨m', rfl, hm'⟩ := hagree'.exists_pcb
  have hsplit : onStack (openFile ++ haltExecute) = (onStack (openFile ++ haltExecute)).take 4 ++
      [(.sched (.execute (some 0x8048000#32) ⟨64#32, 40#32⟩), ⟨400, fun _ => some 204⟩)] := rfl
  have hlast : stackStep sampleFs (fun _ => 0) { K with pcb := m }
      (.sched (.execute (some 0x8048000#32) ⟨64#32, 40#32⟩), ⟨400, fun _ => some 204⟩) =
      some { K' with pcb := m' } := by
    have hwhole : (onStack (openFile ++ haltExecute)).take 5 = onStack (openFile ++ haltExecute) :=
      rfl
    rw [hwhole, hsplit, runFrom_append, hL, Option.bind_some] at hL'
    exact (Option.bind_fun_some _).symm.trans hL'
  rw [hsplit] at hfresh
  have hstep := hfresh.step_at hL hlast
  have hdead : ¬ K.paging.Live 1 := by
    unfold Paging.Live
    rw [hfree]
    decide
  obtain ⟨a, ha, htable⟩ := hstep 1 hdead hlive
  cases hslot.symm.trans ha
  rw [← hm' _ (.inr rfl)] at hpresent
  exact absurd ((htable 2 (by decide)).mp hpresent) (by decide)

end OreOS
