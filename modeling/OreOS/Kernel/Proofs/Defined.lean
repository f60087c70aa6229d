import OreOS.Kernel.Proofs.Steps
import OreOS.Machine.Trace
import OreOS.Paging.Proofs.Slots

/-!
# Where the operations are defined

`KernelOk` holds in every state the scheduler reaches: PCBs name slots that can be in use, slot 7
stays free, terminals are marked 0 or 1, the active one is initialised, and one that is not has no
process. With it, an operation is undefined only if a terminal number is outside the arrays.
-/

namespace OreOS
open Machine

/-- The invariant of the scheduler. -/
structure KernelOk (K : Kernel) : Prop where
  ids : ∀ a, 0 ≤ (K.pcb a).procId ∧ (K.pcb a).procId < 7
  slot7 : K.paging.proc[7]? = some 0
  inits : ∀ t i : Nat, K.sched.termInit[t]? = some i → i = 0 ∨ i = 1
  active : K.sched.termInit[K.sched.activeTerm]? = some 1
  unused : ∀ t : Nat, K.sched.termInit[t]? = some 0 → K.sched.procActive[t]? = some (-1)

variable {K K' : Kernel}

theorem kernelOk_boot (pteAddr : Word) : KernelOk (boot pteAddr) := by
  have hterm {t i : Nat} (h : (boot pteAddr).sched.termInit[t]? = some i) :
      t = 0 ∨ t = 1 ∨ t = 2 := by
    have hlt : t < 3 := (Vector.getElem?_eq_some_iff.mp h).1
    omega
  refine ⟨fun a => ⟨Int.le_refl 0, by simp [boot, clearPcb]⟩, rfl, fun t i h => ?_, rfl,
    fun t h => ?_⟩
  · obtain rfl | rfl | rfl := hterm h
    · cases h; exact .inr rfl
    · cases h; exact .inl rfl
    · cases h; exact .inl rfl
  · obtain rfl | rfl | rfl := hterm h <;> rfl

theorem getElem?_some_of_lt {α : Type} {n : Nat} (v : Vector α n) {i : Nat} (h : i < n) :
    ∃ x, v[i]? = some x := ⟨v[i], Vector.getElem?_eq_getElem h⟩

/-! ## Preservation -/

theorem KernelOk.of_quiet (h : KernelOk K) (hq : Quiet K K')
    (hinit : K'.sched.termInit = K.sched.termInit)
    (hact : K.sched.termInit[K'.sched.activeTerm]? = some 1) : KernelOk K' where
  ids := by rw [hq.pcb]; exact h.ids
  slot7 := by rw [hq.proc]; exact h.slot7
  inits := by rw [hinit]; exact h.inits
  active := by rw [hinit]; exact hact
  unused := by rw [hinit, hq.procActive]; exact h.unused

/-- Giving the active terminal a process leaves the unused terminals alone. -/
theorem KernelOk.unused_of_store (h : KernelOk K) {p : Int} {act : Vector Int 3}
    (hact : store K.sched.procActive K.sched.activeTerm p = some act) (t : Nat)
    (ht : K.sched.termInit[t]? = some 0) : act[t]? = some (-1) := by
  have hne : K.sched.activeTerm ≠ t := by
    rintro rfl
    exact absurd (h.active.symm.trans ht) (by simp)
  rw [getElem?_of_store hact, if_neg hne]
  exact h.unused t ht

theorem KernelOk.started {term : Nat} {entry : Word} {f : Frame} (h : KernelOk K)
    (hs : Started term entry f K K') : KernelOk K' := by
  have hle := freeSlot_le h.slot7
  have hne := hs.slot
  obtain ⟨act, hact, hsched⟩ := hs.sched
  refine ⟨?_, ?_, ?_, ?_, ?_⟩
  · intro a
    rcases hs.pcb with ⟨-, hpcb, -⟩ | ⟨m, -, -, hpcb⟩
    · rw [hpcb]
      exact h.ids a
    · rw [hpcb]
      by_cases ha : a = m.phys
      · subst ha
        rw [Function.update_self]
        simp only [fillPcb]
        omega
      · rw [Function.update_of_ne ha]
        exact h.ids a
  · rw [getElem?_of_store hs.proc, if_neg hne]
    exact h.slot7
  · rw [hsched]
    exact h.inits
  · rw [hsched]
    exact h.active
  · rw [hsched]
    exact h.unused_of_store hact

theorem KernelOk.execute {term : Nat} {prog : Option Word} {f : Frame} {x : Exit} (h : KernelOk K)
    (hx : execute term prog f K = some (x, K')) : KernelOk K' := by
  cases execute_cases hx with
  | noProgram => exact h
  | noSlot => exact h
  | started _ hs => exact h.started hs

theorem KernelOk.halt {f : Frame} {x : Exit} (h : KernelOk K)
    (hx : halt f K = some (x, K')) : KernelOk K' := by
  have hslot7 {i : Int} {P : Paging} (hP : removePage i K.paging = some P) :
      P.proc[7]? = some 0 := by
    obtain ⟨proc, -, hstore, rfl⟩ := removePage_cases hP
    simp only [getElem?_of_store hstore, h.slot7, ite_self]
  cases halt_cases hx with
  | fault => exact ⟨h.ids, h.slot7, h.inits, h.active, h.unused⟩
  | shutdown => exact ⟨h.ids, h.slot7, h.inits, h.active, h.unused⟩
  | inactive _ _ hP _ => exact ⟨h.ids, hslot7 hP, h.inits, h.active, h.unused⟩
  | noParent _ _ hP _ _ => exact ⟨h.ids, hslot7 hP, h.inits, h.active, h.unused⟩
  | resumed _ _ hP _ _ hS =>
    obtain ⟨act, hact, e, -, b, -, rfl⟩ := removeProcess_cases hS
    have h7 := hslot7 hP
    exact ⟨h.ids, h7, h.inits, h.active, h.unused_of_store hact⟩

/-- Marking terminal `num` as initialised and making it the active one. -/
theorem KernelOk.opened {num : Nat} {init : Vector Nat 3} (h : KernelOk K)
    (hinit : store K.sched.termInit num 1 = some init) (hpcb : K'.pcb = K.pcb)
    (hproc : K'.paging.proc = K.paging.proc) (hact : K'.sched.procActive = K.sched.procActive)
    (hterm : K'.sched.termInit = init) (hnum : K'.sched.activeTerm = num) : KernelOk K' := by
  have hset := getElem?_of_store hinit
  refine ⟨by rw [hpcb]; exact h.ids, by rw [hproc]; exact h.slot7, fun t i ht => ?_, ?_,
    fun t ht => ?_⟩
  · rw [hterm, hset] at ht
    split at ht
    · cases ht
      exact .inr rfl
    · exact h.inits t i ht
  · rw [hterm, hnum, hset, if_pos rfl]
  · rw [hterm, hset] at ht
    split at ht
    · cases ht
    · rw [hact]
      exact h.unused t ht

theorem KernelOk.step {e : SchedEvent} (h : KernelOk K) (hx : schedStep K e = some K') :
    KernelOk K' := by
  cases schedStep_cases hx with
  | off => exact h
  | ignored => exact h
  | tick _ htick =>
    cases htick with
    | idle => exact h
    | next _ _ _ _ _ _ _ _ _ hS _ _ _ hq =>
      exact h.of_quiet hq (by rw [hS]) (by rw [hS]; exact h.active)
  | switched _ _ hswitch =>
    cases hswitch with
    | shown hi hne _ _ _ _ _ _ _ hS _ _ _ hq =>
      have hone := (h.inits _ _ hi).resolve_left hne
      rw [hone] at hi
      exact h.of_quiet hq (by rw [hS]) (by rw [hS]; exact hi)
    | opened _ _ _ _ hinit _ hK₁ hq hexec =>
      refine KernelOk.execute ?_ hexec
      exact h.opened hinit hq.pcb hq.proc hq.procActive (by rw [hK₁]) (by rw [hK₁])
  | executed _ hexec => exact h.execute hexec
  | halted _ hhalt => exact h.halt hhalt

/-! ## Definedness -/

theorem runProc_defined {t : Nat} (ht : t < 3) (K : Kernel) : ∃ K', runProc t K = some K' := by
  obtain ⟨p, hp⟩ := getElem?_some_of_lt K.sched.procActive ht
  obtain ⟨e, he⟩ := getElem?_some_of_lt K.sched.procEsp ht
  obtain ⟨b, hb⟩ := getElem?_some_of_lt K.sched.procEbp ht
  simp only [runProc, hp, he, hb, Option.bind_eq_bind, Option.bind_some]
  exact ⟨_, rfl⟩

theorem doEvents_defined {f : Frame} {t : Nat} (hbg : K.sched.bgTerm < 3)
    (ht : K.sched.termInit[t]? = some 1) : ∃ K', doEvents f K = some K' := by
  unfold doEvents
  split
  · exact ⟨K, rfl⟩
  split
  · exact ⟨K, rfl⟩
  · obtain ⟨bg, hnext⟩ := nextTerm_isSome hbg ht
    have hlt := (nextTerm_spec hnext).1
    have hbg6 : K.sched.bgTerm < 6 := by omega
    obtain ⟨xy, hxy⟩ := getElem?_some_of_lt
      (K.sched.cursorPos.set K.sched.bgTerm (K.console.screenX, K.console.screenY) hbg6)
      (show bg < 6 by omega)
    simp only [Sched.saveContext, Sched.saveCursor, store_isSome _ hbg, store_isSome _ hbg6, hnext,
      hxy, Option.bind_eq_bind, Option.bind_some, Option.pure_def]
    exact runProc_defined hlt _

theorem execute_defined (hslot7 : K.paging.proc[7]? = some 0) (hact : K.sched.activeTerm < 3)
    (term : Nat) (prog : Option Word) (f : Frame) :
    ∃ x K', execute term prog f K = some (x, K') := by
  cases prog with
  | none => exact ⟨_, _, rfl⟩
  | some entry =>
    have hle := freeSlot_le hslot7
    by_cases h7 : K.paging.freeSlot = 7
    · simp only [execute, newPde, h7, if_true, Option.bind_eq_bind, Option.bind_some]
      exact ⟨_, _, rfl⟩
    · have hlt : K.paging.freeSlot < 8 := by omega
      have hneg : ¬ (K.paging.freeSlot : Int) = -1 := by omega
      simp only [execute, newPde, h7, if_false, store_isSome _ hlt, Option.bind_eq_bind,
        Option.bind_some, Option.pure_def, hneg, Int.toNat_natCast, enterProgram,
        Sched.newProcess, store_isSome _ hact]
      split
      · exact ⟨_, _, rfl⟩
      · exact ⟨_, _, rfl⟩

theorem bind_defined {α β : Type} {x : Option α} {a : α} {k : α → Option β} (hx : x = some a)
    (hk : ∃ b, k a = some b) : ∃ b, x.bind k = some b := by
  rw [hx]
  exact hk

theorem execute_bind_defined (hslot7 : K.paging.proc[7]? = some 0) (hact : K.sched.activeTerm < 3)
    {term : Nat} {prog : Option Word} {f : Frame} :
    ∃ K', ((execute term prog f K).bind fun r => some r.2) = some K' := by
  obtain ⟨x, K', hexec⟩ := execute_defined hslot7 hact term prog f
  exact bind_defined hexec ⟨K', rfl⟩

theorem halt_defined (h : KernelOk K) (hact : K.sched.activeTerm < 3) (f : Frame) :
    ∃ x K', halt f K = some (x, K') := by
  unfold halt
  split
  · exact ⟨_, _, rfl⟩
  next a ha =>
    by_cases hzero : (K.pcb a).procId = 0
    · simp only [hzero, if_true]
      exact ⟨_, _, rfl⟩
    · obtain ⟨h0, h7⟩ := h.ids a
      have hlt : (K.pcb a).procId.toNat < 8 := by omega
      obtain ⟨act, hactive⟩ := getElem?_some_of_lt K.sched.procActive hact
      simp only [hzero, if_false, removePage, storeInt, h0, if_true, store_isSome _ hlt,
        Sched.isActive, hactive, Option.bind_eq_bind, Option.bind_some, Option.pure_def]
      split
      · split
        · exact ⟨_, _, rfl⟩
        · simp only [Sched.removeProcess, store_isSome _ hact, Option.bind_eq_bind,
            Option.bind_some, Option.pure_def]
          exact ⟨_, _, rfl⟩
      · exact ⟨_, _, rfl⟩

theorem clear_defined {bg : Nat} (hbg : bg < 3) (page : Nat) (s : Console) :
    ∃ s', s.clear bg page = some s' := by
  obtain ⟨buf, hbuf⟩ := getElem?_some_of_lt s.scrBuf hbg
  simp only [Console.clear, Console.withCells, hbuf, store_isSome _ hbg, Option.bind_eq_bind,
    Option.bind_some, Option.pure_def]
  exact ⟨_, rfl⟩

theorem switchTerm_defined (h : KernelOk K) {num : Nat} (hnum : num < 3) (hbg : K.sched.bgTerm < 3)
    (f g : Frame) (shell : Option Word) : ∃ K', switchTerm num f shell g K = some K' := by
  have hbg6 : K.sched.bgTerm < 6 := by omega
  obtain ⟨i, hi⟩ := getElem?_some_of_lt K.sched.termInit hnum
  simp only [switchTerm, Sched.saveContext, Sched.saveCursor, store_isSome _ hbg,
    store_isSome _ hbg6, hi, Option.bind_eq_bind, Option.bind_some, Option.pure_def]
  split
  · obtain ⟨xy, hxy⟩ := getElem?_some_of_lt
      (K.sched.cursorPos.set K.sched.bgTerm (K.console.screenX, K.console.screenY) hbg6)
      (show num < 6 by omega)
    rw [hxy]
    exact runProc_defined hnum _
  · obtain ⟨console, hclear⟩ := clear_defined hnum (K.keepScreen.mapConsole 0xb8).videoPage
      (K.keepScreen.mapConsole 0xb8).console
    simp only [store_isSome _ hnum, Option.bind_some]
    apply bind_defined hclear
    refine execute_bind_defined ?_ hnum
    simp only [Kernel.mapConsole]
    rw [keepScreen_eq]
    exact h.slot7

end OreOS
