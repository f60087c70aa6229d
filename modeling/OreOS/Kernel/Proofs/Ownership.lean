import OreOS.Kernel.Proofs.Defined
import OreOS.Machine.Ownership

/-!
# Terminals own their processes

`Owned` says that the process of every terminal that has started a program is live and that no two
terminals have the same one; `OthersKept`, that a system call touches only the entries of the
terminal its caller was started in. `new_process`, `remove_process` and `is_active` work on the
active terminal, so both depend on which terminal is active when a process makes the call.
-/

namespace OreOS
open Machine

variable {K K' : Kernel}

/-- The process of terminal `t`, if `t` is initialised and has started a program. -/
def Kernel.running (K : Kernel) (t : Nat) : Option Int :=
  if K.sched.termInit[t]? = some 1 then K.sched.procActive[t]?.filter (· ≠ -1) else none

/-- Slot `p` is in use. -/
def Kernel.LiveId (K : Kernel) (p : Int) : Prop := loadInt K.paging.proc p = some 1

/-- Every running process is live and runs in one terminal. -/
def Owned (K : Kernel) : Prop := Owns K.running K.LiveId

/-- The terminal that the caller of a system call was started in. -/
def issuer (K : Kernel) : SchedEvent → Option Nat
  | .execute _ _ => some (K.home K.user)
  | .halt f => (K.getCurrPcb f).map fun a => K.home (K.pcb a).procId
  | .tick _ => none
  | .altKey _ _ _ _ => none

/-- A system call changes no entry of a terminal other than its caller's. -/
def OthersKept (K : Kernel) (e : SchedEvent) (K' : Kernel) : Prop :=
  ∀ t, issuer K e = some t → ∀ u, u ≠ t →
    K'.sched.procActive[u]? = K.sched.procActive[u]? ∧
    K'.sched.procEsp[u]? = K.sched.procEsp[u]? ∧ K'.sched.procEbp[u]? = K.sched.procEbp[u]?

/-- When an event keeps the ownership of processes. -/
def KeepsOwners (K : Kernel) : SchedEvent → Prop
  | .tick _ => True
  | .altKey _ _ _ _ => True
  | .execute prog _ => prog ≠ none → K.paging.freeSlot ≠ 7 → K.home K.user = K.sched.activeTerm
  | .halt f => ∀ a, K.getCurrPcb f = some a → (K.pcb a).procId ≠ 0 →
      if K.sched.procActive[K.sched.activeTerm]? = some (K.pcb a).procId then
        K.home (K.pcb a).procId = K.sched.activeTerm ∧
        ∃ b, K.phys (K.pcb a).oldPcb = some b ∧ K.LiveId (K.pcb b).procId ∧
          (K.pcb b).procId ≠ (K.pcb a).procId ∧
          ∀ u, u ≠ K.sched.activeTerm → K.running u ≠ some (K.pcb b).procId
      else ∀ u, K.running u ≠ some (K.pcb a).procId

theorem running_eq_some {t : Nat} {p : Int} :
    K.running t = some p ↔
      K.sched.termInit[t]? = some 1 ∧ K.sched.procActive[t]? = some p ∧ p ≠ -1 := by
  unfold Kernel.running
  split
  next h => simp [Option.filter_eq_some_iff, h]
  next h => simp [h]

/-- Assigning `p` to the active terminal. -/
theorem running_store {t : Nat} {p : Int} {act : Vector Int 3}
    (hinit : K'.sched.termInit = K.sched.termInit) (ht : K.sched.termInit[t]? = some 1)
    (hp : p ≠ -1)
    (hact : store K.sched.procActive t p = some act) (hK' : K'.sched.procActive = act) :
    K'.running = Function.update K.running t (some p) := by
  funext u
  unfold Kernel.running
  rw [hinit, hK', getElem?_of_store hact]
  by_cases hu : u = t
  · subst hu
    rw [Function.update_self, if_pos ht, if_pos rfl]
    simp [Option.filter, hp]
  · rw [Function.update_of_ne hu, if_neg (Ne.symm hu)]

theorem running_congr (hinit : K'.sched.termInit = K.sched.termInit)
    (hact : K'.sched.procActive = K.sched.procActive) : K'.running = K.running := by
  funext u
  unfold Kernel.running
  rw [hinit, hact]

/-- The live processes after slot `p` was taken. -/
theorem liveId_take {p : Nat} {proc : Vector Nat 8} (h : store K.paging.proc p 1 = some proc)
    (hK' : K'.paging.proc = proc) : K'.LiveId = fun q => K.LiveId q ∨ q = p := by
  funext q
  unfold Kernel.LiveId loadInt
  rw [hK', getElem?_of_store h]
  by_cases hq : 0 ≤ q
  · simp only [hq, if_true]
    by_cases hpq : p = q.toNat
    · obtain rfl : q = p := by omega
      simp
    · have hqp : q ≠ p := by omega
      simp [hpq, hqp]
  · have hqp : q ≠ p := by omega
    simp [hq, hqp]

/-- The live processes after slot `p` was freed. -/
theorem liveId_free {p : Int} {P : Paging} (h : removePage p K.paging = some P)
    (hK' : K'.paging.proc = P.proc) : K'.LiveId = fun q => K.LiveId q ∧ q ≠ p := by
  obtain ⟨proc, h0, hstore, rfl⟩ := removePage_cases h
  funext q
  unfold Kernel.LiveId loadInt
  rw [hK', getElem?_of_store hstore]
  by_cases hq : 0 ≤ q
  · simp only [hq, if_true]
    by_cases hpq : p.toNat = q.toNat
    · obtain rfl : q = p := by omega
      simp
    · have hqp : q ≠ p := by omega
      simp [hpq, hqp]
  · simp [hq]

/-- Marking a terminal as initialised does not give it a process. -/
theorem running_opened {num : Nat} {init : Vector Nat 3} (hok : KernelOk K)
    (hi : K.sched.termInit[num]? = some 0) (hinit : store K.sched.termInit num 1 = some init)
    (hterm : K'.sched.termInit = init) (hact : K'.sched.procActive = K.sched.procActive) :
    K'.running = K.running := by
  funext u
  unfold Kernel.running
  rw [hterm, hact, getElem?_of_store hinit]
  by_cases hu : num = u
  · subst hu
    rw [if_pos rfl, if_pos rfl, hi, hok.unused num hi]
    simp [Option.filter]
  · rw [if_neg hu]

theorem Owned.of_eq (h : Owned K) (hrun : K'.running = K.running)
    (hproc : K'.paging.proc = K.paging.proc) : Owned K' := by
  have hlive : K'.LiveId = K.LiveId := by
    funext q
    unfold Kernel.LiveId
    rw [hproc]
  unfold Owned
  rw [hrun, hlive]
  exact h

/-- A free slot is not live. -/
theorem not_liveId_freeSlot (hok : KernelOk K) : ¬ K.LiveId (K.paging.freeSlot : Int) := by
  unfold Kernel.LiveId
  rw [loadInt_natCast, freeSlot_free (freeSlot_le hok.slot7)]
  simp

theorem Owned.started {term : Nat} {entry : Word} {f : Frame} (hok : KernelOk K) (h : Owned K)
    (hs : Started term entry f K K') : Owned K' := by
  obtain ⟨act, hact, hS⟩ := hs.sched
  unfold Owned
  rw [running_store (by rw [hS]) hok.active (by omega) hact (by rw [hS]), liveId_take hs.proc rfl]
  exact h.start (not_liveId_freeSlot hok)

theorem Owned.execute {term : Nat} {prog : Option Word} {f : Frame} {x : Exit} (hok : KernelOk K)
    (h : Owned K) (hx : execute term prog f K = some (x, K')) : Owned K' := by
  cases execute_cases hx with
  | noProgram => exact h
  | noSlot => exact h
  | started _ hs => exact h.started hok hs

theorem Owned.switched {num : Nat} {f g : Frame} {shell : Option Word} (hok : KernelOk K)
    (h : Owned K) (hx : SwitchResult num f shell g K K') : Owned K' := by
  cases hx with
  | shown _ _ _ _ _ _ _ _ _ hS _ _ _ hq =>
    exact h.of_eq (running_congr (by rw [hS]) hq.procActive) hq.proc
  | opened hi _ _ _ hinit _ hK₁ hq hexec =>
    refine Owned.execute ?_ ?_ hexec
    · exact hok.opened hinit hq.pcb hq.proc hq.procActive (by rw [hK₁]) (by rw [hK₁])
    · exact h.of_eq (running_opened hok hi hinit (by rw [hK₁]) hq.procActive) hq.proc

/-- `halt` by a process that is not the active terminal's only frees its slot. -/
theorem owned_inactive {a : Word} {P : Paging} (h : Owned K)
    (hP : removePage (K.pcb a).procId K.paging = some P) :
    Owned (K.ending a P) ↔ ∀ u, K.running u ≠ some (K.pcb a).procId := by
  have hrun : (K.ending a P).running = K.running := rfl
  unfold Owned
  rw [hrun, liveId_free hP rfl]
  exact h.release_iff

/-- Without a parent to resume, the active terminal keeps a process that is not live. -/
theorem not_owned_noParent {a : Word} {P : Paging} (hok : KernelOk K)
    (hP : removePage (K.pcb a).procId K.paging = some P)
    (hact : K.sched.procActive[K.sched.activeTerm]? = some (K.pcb a).procId) :
    ¬ Owned (K.ending a P).stop := by
  intro h
  have hid := (hok.ids a).1
  have hrun : (K.ending a P).stop.running K.sched.activeTerm = some (K.pcb a).procId :=
    running_eq_some.mpr ⟨hok.active, hact, by omega⟩
  have hlive := h.live _ _ hrun
  rw [liveId_free hP rfl] at hlive
  exact hlive.2 rfl

/-- `halt` by the active terminal's process makes the terminal run the parent. -/
theorem owned_resumed {a b : Word} {P : Paging} {S : Sched} (hok : KernelOk K) (h : Owned K)
    (hP : removePage (K.pcb a).procId K.paging = some P)
    (hact : K.sched.procActive[K.sched.activeTerm]? = some (K.pcb a).procId)
    (hS : K.sched.removeProcess (K.pcb b).procId (K.pcb a).kstack (K.pcb a).oldEbp = some S)
    (hK' : K' = { K.ending a P with sched := S, paging := { P with cr3 := (K.pcb b).procId + 1 } })
    :
    Owned K' ↔ K.LiveId (K.pcb b).procId ∧ (K.pcb b).procId ≠ (K.pcb a).procId ∧
      ∀ u, u ≠ K.sched.activeTerm → K.running u ≠ some (K.pcb b).procId := by
  have hid := (hok.ids a).1
  have hid' := (hok.ids b).1
  have hrun : K.running K.sched.activeTerm = some (K.pcb a).procId :=
    running_eq_some.mpr ⟨hok.active, hact, by omega⟩
  obtain ⟨act, hstore, e, -, b', -, rfl⟩ := removeProcess_cases hS
  have hrun' : K'.running =
      Function.update K.running K.sched.activeTerm (some (K.pcb b).procId) :=
    running_store (by rw [hK']) hok.active (by omega) hstore (by rw [hK'])
  unfold Owned
  rw [hrun', liveId_free hP (by rw [hK'])]
  exact h.replace_iff hrun

theorem isActive_iff {p : Int} {v : Bool} (h : K.sched.isActive p = some v) :
    v = true ↔ K.sched.procActive[K.sched.activeTerm]? = some p := by
  simp only [Sched.isActive, Option.bind_eq_bind, Option.bind_eq_some_iff, Option.pure_def,
    Option.some.injEq] at h
  obtain ⟨q, hq, rfl⟩ := h
  rw [hq]
  simp

theorem keepsOwners_halt {f : Frame} {x : Exit} (hok : KernelOk K) (h : Owned K)
    (hx : halt f K = some (x, K')) :
    KeepsOwners K (.halt f) ↔ OthersKept K (.halt f) K' ∧ Owned K' := by
  cases halt_cases hx with
  | fault hnone =>
    refine ⟨fun _ => ⟨?_, h⟩, ?_⟩
    · intro t ht
      simp [issuer, hnone] at ht
    · intro _ a ha
      rw [hnone] at ha
      cases ha
  | shutdown ha hzero =>
    refine ⟨fun _ => ⟨fun t ht u hu => ⟨rfl, rfl, rfl⟩, h⟩, ?_⟩
    intro _ a' ha' hne
    rw [ha] at ha'
    cases ha'
    exact absurd hzero hne
  | inactive ha hne hP hact =>
    have hnot := (isActive_iff hact).not.mp (by simp)
    simp only [KeepsOwners, ha, Option.some.injEq, forall_eq', hne, ne_eq, not_false_eq_true,
      forall_const, hnot, if_false]
    rw [owned_inactive h hP]
    exact ⟨fun h' => ⟨fun t ht u hu => ⟨rfl, rfl, rfl⟩, h'⟩, fun h' => h'.2⟩
  | noParent ha hne hP hact hb =>
    have hyes := (isActive_iff hact).mp rfl
    simp only [KeepsOwners, ha, Option.some.injEq, forall_eq', hne, ne_eq, not_false_eq_true,
      forall_const, hyes, if_true]
    refine ⟨?_, fun h' => absurd h'.2 (not_owned_noParent hok hP hyes)⟩
    intro h'
    obtain ⟨-, b, hb', -⟩ := h'
    rw [hb] at hb'
    cases hb'
  | resumed ha hne hP hact hb hS =>
    have hyes := (isActive_iff hact).mp rfl
    simp only [KeepsOwners, ha, Option.some.injEq, forall_eq', hne, ne_eq, not_false_eq_true,
      forall_const, hyes, if_true, hb, exists_eq_left']
    rw [owned_resumed hok h hP hyes hS rfl]
    obtain ⟨act, hstore, e, he, b', hb', rfl⟩ := removeProcess_cases hS
    constructor
    · rintro ⟨hhome, hrest⟩
      refine ⟨?_, hrest⟩
      intro t ht u hu
      simp only [issuer, ha, Option.map_some, Option.some.injEq, hhome] at ht
      subst ht
      simp only [getElem?_of_store hstore, getElem?_of_store he, getElem?_of_store hb',
        if_neg (Ne.symm hu), and_self]
    · rintro ⟨hkept, hrest⟩
      refine ⟨?_, hrest⟩
      by_contra hhome
      -- the entry of the active terminal would have to stay, but it becomes the parent
      have hsame := (hkept _ (by simp [issuer, ha]) _ (Ne.symm hhome)).1
      simp only [getElem?_of_store hstore, if_true, hyes, Option.some.injEq] at hsame
      exact hrest.2.1 hsame

theorem keepsOwners_execute {prog : Option Word} {f : Frame} {x : Exit} (hok : KernelOk K)
    (h : Owned K) (hx : execute (K.home K.user) prog f K = some (x, K')) :
    KeepsOwners K (.execute prog f) ↔ OthersKept K (.execute prog f) K' ∧ Owned K' := by
  have howned := h.execute hok hx
  cases execute_cases hx with
  | noProgram hnone =>
    refine ⟨fun _ => ⟨fun t ht u hu => ⟨rfl, rfl, rfl⟩, howned⟩, fun _ hne => absurd hnone hne⟩
  | noSlot _ h7 =>
    refine ⟨fun _ => ⟨fun t ht u hu => ⟨rfl, rfl, rfl⟩, howned⟩, fun _ _ hne => absurd h7 hne⟩
  | started hprog hs =>
    obtain ⟨act, hact, hS⟩ := hs.sched
    constructor
    · intro hkeep
      refine ⟨?_, howned⟩
      intro t ht u hu
      have hhome := hkeep (by simp [hprog]) hs.slot
      simp only [issuer, Option.some.injEq, hhome] at ht
      subst ht
      rw [hS]
      simp only [getElem?_of_store hact, if_neg (Ne.symm hu), and_self]
    · rintro ⟨hkept, -⟩ - -
      by_contra hhome
      -- the active terminal would already run the process in the free slot
      have hsame := (hkept _ rfl _ (Ne.symm hhome)).1
      rw [hS] at hsame
      simp only [getElem?_of_store hact, if_true] at hsame
      have hrun := running_eq_some.mpr ⟨hok.active, hsame.symm, by omega⟩
      exact not_liveId_freeSlot hok (h.live _ _ hrun)

/-- One event keeps ownership exactly if it meets `KeepsOwners`. -/
theorem schedStep_keepsOwners {e : SchedEvent} (hok : KernelOk K) (h : Owned K)
    (hx : schedStep K e = some K') :
    (K.down = false → KeepsOwners K e) ↔ OthersKept K e K' ∧ Owned K' := by
  cases schedStep_cases hx with
  | off hdown =>
    refine ⟨fun _ => ⟨fun t ht u hu => ⟨rfl, rfl, rfl⟩, h⟩, ?_⟩
    intro _ hf
    rw [hdown] at hf
    cases hf
  | tick _ htick =>
    refine ⟨fun _ => ⟨fun t ht => (by cases ht), ?_⟩, fun _ _ => trivial⟩
    cases htick with
    | idle => exact h
    | next _ _ _ _ _ _ _ _ _ hS _ _ _ hq =>
      exact h.of_eq (running_congr (by rw [hS]) hq.procActive) hq.proc
  | ignored => exact ⟨fun _ => ⟨fun t ht => (by cases ht), h⟩, fun _ _ => trivial⟩
  | switched _ _ hswitch =>
    exact ⟨fun _ => ⟨fun t ht => (by cases ht), h.switched hok hswitch⟩, fun _ _ => trivial⟩
  | executed hup hexec =>
    simp only [hup, forall_const]
    exact keepsOwners_execute hok h hexec
  | halted hup hhalt =>
    simp only [hup, forall_const]
    exact keepsOwners_halt hok h hhalt

theorem owned_boot (pteAddr : Word) : Owned (boot pteAddr) := by
  have hnone : ∀ t p, (boot pteAddr).running t ≠ some p := by
    intro t p h
    obtain ⟨-, hact, hne⟩ := running_eq_some.mp h
    obtain ⟨hlt, heq⟩ := Vector.getElem?_eq_some_iff.mp hact
    obtain rfl | rfl | rfl : t = 0 ∨ t = 1 ∨ t = 2 := by omega
    · exact hne heq.symm
    · exact hne heq.symm
    · exact hne heq.symm
  exact ⟨fun t p h => absurd h (hnone t p), fun t _ p h _ => absurd h (hnone t p)⟩

/-- From boot, every system call of a run leaves the other terminals alone and every state has
    `Owned`, exactly if every event meets `KeepsOwners`. -/
theorem terminals_own_processes_iff (pteAddr : Word) (es : List SchedEvent) :
    Along schedStep (fun K e K' => OthersKept K e K' ∧ Owned K') (boot pteAddr) es ↔
      Along schedStep (fun K e _ => K.down = false → KeepsOwners K e) (boot pteAddr) es :=
  along_iff_along (T := OthersKept) (P := Owned)
    (fun _ _ _ (hok : KernelOk _) hstep => hok.step hstep)
    (fun _ _ _ hok h hstep => schedStep_keepsOwners hok h hstep) (kernelOk_boot pteAddr)
    (owned_boot pteAddr)

/-- The shell of terminal 0 starts, terminal 1 is opened, and its shell is interrupted, so that the
    shell of terminal 0 runs in the background. -/
def shellInBackground : List SchedEvent :=
  [.execute (some 0x8048000#32) ⟨64#32, 40#32⟩,
    .altKey 0x3C ⟨100#32, 80#32⟩ (some 0x8048000#32) ⟨200#32, 180#32⟩, .tick ⟨100#32, 80#32⟩]

/-- When that shell starts a program, the program becomes the process of terminal 1. -/
theorem background_execute_takes_terminal :
    ¬ ∀ (pteAddr : Word) (es : List SchedEvent),
      Along schedStep (fun K e K' => OthersKept K e K' ∧ Owned K') (boot pteAddr) es := by
  intro hall
  have hrun : ((runFrom schedStep (boot 0x410000#32) shellInBackground).bind fun K =>
      (schedStep K (.execute (some 0x8048000#32) ⟨64#32, 40#32⟩)).map fun K' =>
        (K.home K.user, K.sched.procActive[1]?, K'.sched.procActive[1]?)) =
      some (0, some 1, some 2) := by decide
  obtain ⟨K, hK, hstep⟩ := Option.bind_eq_some_iff.mp hrun
  obtain ⟨K', hK', heq⟩ := Option.map_eq_some_iff.mp hstep
  simp only [Prod.mk.injEq] at heq
  obtain ⟨hhome, hbefore, hafter⟩ := heq
  have hkept := ((hall 0x410000#32 (shellInBackground ++ [_])).step_at hK hK').1
  have hsame := (hkept 0 (congrArg some hhome) 1 (by decide)).1
  rw [hbefore, hafter] at hsame
  cases hsame

end OreOS
