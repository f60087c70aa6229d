import OreOS.Kernel

/-!
# What one event can do

One lemma for each operation lists its outcomes. The proofs about runs argue from these and do not
unfold the operations again.
-/

namespace OreOS
open Machine

variable {K K' : Kernel}

/-! ## Ticks and switches -/

/-- No process was started or ended, and no page directory changed. -/
structure Quiet (K K' : Kernel) : Prop where
  pcb : K'.pcb = K.pcb
  home : K'.home = K.home
  proc : K'.paging.proc = K.paging.proc
  pde : K'.paging.pde = K.paging.pde
  pteAddr : K'.paging.pteAddr = K.paging.pteAddr
  down : K'.down = K.down
  procActive : K'.sched.procActive = K.sched.procActive

theorem runProc_cases {t : Nat} (h : runProc t K = some K') :
    ∃ p e b, K.sched.procActive[t]? = some p ∧ K.sched.procEsp[t]? = some e ∧
      K.sched.procEbp[t]? = some b ∧
      K' = { K with paging := { K.paging with cr3 := p + 1 }, tss := ⟨e, b, e⟩ } := by
  simp only [runProc, Option.bind_eq_bind, Option.bind_eq_some_iff, Option.pure_def,
    Option.some.injEq] at h
  obtain ⟨p, hp, e, he, b, hb, rfl⟩ := h
  exact ⟨p, e, b, hp, he, hb, rfl⟩

theorem saveContext_cases {esp ebp : Word} {S S' : Sched}
    (h : S.saveContext esp ebp = some S') :
    ∃ e b, store S.procEsp S.bgTerm esp = some e ∧ store S.procEbp S.bgTerm ebp = some b ∧
      S' = { S with procEsp := e, procEbp := b } := by
  simp only [Sched.saveContext, Option.bind_eq_bind, Option.bind_eq_some_iff, Option.pure_def,
    Option.some.injEq] at h
  obtain ⟨e, he, b, hb, rfl⟩ := h
  exact ⟨e, b, he, hb, rfl⟩

theorem saveCursor_cases {xy : Nat × Nat} {S S' : Sched} (h : S.saveCursor xy = some S') :
    ∃ c, store S.cursorPos S.bgTerm xy = some c ∧ S' = { S with cursorPos := c } := by
  simp only [Sched.saveCursor, Option.bind_eq_bind, Option.bind_eq_some_iff, Option.pure_def,
    Option.some.injEq] at h
  obtain ⟨c, hc, rfl⟩ := h
  exact ⟨c, hc, rfl⟩

/-- The outcomes of `do_events`. -/
inductive TickResult (f : Frame) (K : Kernel) : Kernel → Prop where
  | idle : TickResult f K K
  | next {bg x y : Nat} {e b : Vector Word 3} {cur : Vector (Nat × Nat) 6} {p : Int} {e' b' : Word}
      {K' : Kernel} :
      K.sched.countInit ≠ 1 →
      store K.sched.procEsp K.sched.bgTerm (K.esp f) = some e →
      store K.sched.procEbp K.sched.bgTerm (K.ebp f) = some b →
      store K.sched.cursorPos K.sched.bgTerm (K.console.screenX, K.console.screenY) = some cur →
      Sched.nextTerm K.sched.termInit 3 K.sched.bgTerm = some bg →
      cur[bg]? = some (x, y) → K.sched.procActive[bg]? = some p → e[bg]? = some e' →
      b[bg]? = some b' →
      K'.sched = { K.sched with procEsp := e, procEbp := b, cursorPos := cur, bgTerm := bg } →
      K'.console = (if K.sched.activeTerm = bg then K.console.changeCoord x y
        else K.console.changeCoordSilent x y) →
      K'.paging = { changePte 0xb8 (if K.sched.activeTerm = bg then 0xb8 else bg) K.paging with
        cr3 := p + 1 } →
      K'.tss = ⟨e', b', e'⟩ →
      Quiet K K' → TickResult f K K'

theorem doEvents_cases {f : Frame} (h : doEvents f K = some K') : TickResult f K K' := by
  unfold doEvents at h
  split at h
  · cases h
    exact .idle
  split at h
  · cases h
    exact .idle
  next hcount =>
    simp only [Option.bind_eq_bind, Option.bind_eq_some_iff] at h
    obtain ⟨S1, hctx, S2, hcur, bg, hbg, ⟨x, y⟩, hxy, h⟩ := h
    obtain ⟨e, b, he, hb, rfl⟩ := saveContext_cases hctx
    obtain ⟨c, hc, rfl⟩ := saveCursor_cases hcur
    obtain ⟨p, e', b', hp, he', hb', rfl⟩ := runProc_cases h
    by_cases hact : K.sched.activeTerm = bg
    · simp only [hact, if_true, Kernel.mapConsole] at hp he' hb' ⊢
      exact .next hcount he hb hc hbg hxy hp he' hb' (by simp [hact]) (by simp [hact])
        (by simp [hact]) rfl ⟨rfl, rfl, rfl, rfl, rfl, rfl, rfl⟩
    · simp only [hact, if_false, Kernel.mapConsole] at hp he' hb' ⊢
      exact .next hcount he hb hc hbg hxy hp he' hb' (by simp) (by simp [hact])
        (by simp [hact]) rfl ⟨rfl, rfl, rfl, rfl, rfl, rfl, rfl⟩

/-- The console after `switchTerm` has saved the old screen and mapped the video page again. -/
def Kernel.leaveScreen (K : Kernel) : Kernel := K.keepScreen.mapConsole 0xb8

/-- The outcomes of `switchTerm`. -/
inductive SwitchResult (num : Nat) (f : Frame) (shell : Option Word) (g : Frame) (K : Kernel) :
    Kernel → Prop where
  | shown {i x y : Nat} {e b : Vector Word 3} {cur : Vector (Nat × Nat) 6} {p : Int} {e' b' : Word}
      {K' : Kernel} :
      K.sched.termInit[num]? = some i → i ≠ 0 →
      store K.sched.procEsp K.sched.bgTerm (K.esp f) = some e →
      store K.sched.procEbp K.sched.bgTerm (K.ebp f) = some b →
      store K.sched.cursorPos K.sched.bgTerm (K.console.screenX, K.console.screenY) = some cur →
      cur[num]? = some (x, y) → K.sched.procActive[num]? = some p → e[num]? = some e' →
      b[num]? = some b' →
      K'.sched = { K.sched with
        procEsp := e, procEbp := b, cursorPos := cur, activeTerm := num, bgTerm := num,
        fakeSti := 0 } →
      K'.console = (K.leaveScreen.restoreScreen num).console.changeCoord x y →
      K'.paging = { changePte 0xb8 0xb8 K.paging with cr3 := p + 1 } →
      K'.tss = ⟨e', b', e'⟩ →
      Quiet K K' → SwitchResult num f shell g K K'
  | opened {e b : Vector Word 3} {cur : Vector (Nat × Nat) 6} {init : Vector Nat 3} {x : Exit}
      {console : Console} {K₁ K' : Kernel} :
      K.sched.termInit[num]? = some 0 →
      store K.sched.procEsp K.sched.bgTerm (K.esp f) = some e →
      store K.sched.procEbp K.sched.bgTerm (K.ebp f) = some b →
      store K.sched.cursorPos K.sched.bgTerm (K.console.screenX, K.console.screenY) = some cur →
      store K.sched.termInit num 1 = some init →
      K.leaveScreen.console.clear num K.leaveScreen.videoPage = some console →
      K₁ = { K with
        sched := { K.sched with
          procEsp := e, procEbp := b, cursorPos := cur, activeTerm := num, bgTerm := num,
          fakeSti := 0, termInit := init }
        paging := changePte 0xb8 0xb8 K.paging
        console := console } →
      Quiet K K₁ → execute num shell g K₁ = some (x, K') → SwitchResult num f shell g K K'

theorem keepScreen_eq (K : Kernel) :
    K.keepScreen = { K with console := K.keepScreen.console } := by
  unfold Kernel.keepScreen
  split <;> rfl

theorem keepScreen_console (K : Kernel) :
    K.keepScreen.console = if K.sched.activeTerm = K.sched.bgTerm
      then K.console.copyPage (K.savedPage K.sched.activeTerm) K.videoPage else K.console := by
  unfold Kernel.keepScreen
  split <;> rfl

theorem mapConsole_videoPage (K : Kernel) : (K.mapConsole 0xb8).videoPage = 0xb8 := by
  simp only [Kernel.mapConsole, Kernel.videoPage, changePte, Function.update_self]
  rfl

/-- The entries behind the saved screens are not those of the console. -/
theorem mapConsole_savedPage {t : Nat} (value : Nat) (ht : t < 3) (K : Kernel) :
    (K.mapConsole value).savedPage t = K.savedPage t := by
  have hne : t + 1 ≠ 0xb8 := by omega
  simp only [Kernel.mapConsole, Kernel.savedPage, changePte, Function.update_of_ne hne]

/-- Once the console is mapped to the video page, it is that page that is saved. -/
theorem mapConsole_keepScreen (ht : K.sched.activeTerm < 3) :
    (K.mapConsole 0xb8).keepScreen.console = if K.sched.activeTerm = K.sched.bgTerm
      then K.console.copyPage (K.savedPage K.sched.activeTerm) 0xb8 else K.console := by
  rw [keepScreen_console, mapConsole_videoPage]
  simp only [show (K.mapConsole 0xb8).sched = K.sched from rfl, mapConsole_savedPage 0xb8 ht]
  rfl

theorem switchTerm_cases {num : Nat} {f g : Frame} {shell : Option Word}
    (h : switchTerm num f shell g K = some K') : SwitchResult num f shell g K K' := by
  simp only [switchTerm, Option.bind_eq_bind, Option.bind_eq_some_iff] at h
  obtain ⟨S1, hcur, S2, hctx, i, hi, h⟩ := h
  obtain ⟨c, hc, rfl⟩ := saveCursor_cases hcur
  obtain ⟨e, b, he, hb, rfl⟩ := saveContext_cases hctx
  have hkeep := keepScreen_eq K
  split at h
  next hne =>
    simp only [Option.bind_eq_some_iff] at h
    obtain ⟨⟨x, y⟩, hxy, h⟩ := h
    obtain ⟨p, e', b', hp, he', hb', rfl⟩ := runProc_cases h
    refine .shown hi hne he hb hc hxy hp he' hb' rfl rfl ?_ rfl ⟨?_, ?_, ?_, ?_, ?_, ?_, rfl⟩
    all_goals
      simp only [Kernel.restoreScreen, Kernel.mapConsole]
      rw [hkeep]
    all_goals rfl
  next hzero =>
    simp only [Option.bind_eq_some_iff, Option.pure_def, Option.some.injEq] at h
    obtain ⟨init, hinit, console, hclear, ⟨x, K4⟩, hexec, rfl⟩ := h
    have hi0 : i = 0 := by simpa using hzero
    subst hi0
    refine .opened (x := x) hi he hb hc hinit hclear rfl ⟨rfl, rfl, rfl, rfl, rfl, rfl, rfl⟩ ?_
    rw [← hexec]
    simp only [Kernel.mapConsole]
    rw [hkeep]

/-! ## Starting and ending processes -/

/-- What a successful `execute` leaves, before and after the PCB of the new process is written. -/
structure Started (term : Nat) (entry : Word) (f : Frame) (K K' : Kernel) : Prop where
  slot : K.paging.freeSlot ≠ 7
  sched : ∃ act, store K.sched.procActive K.sched.activeTerm (K.paging.freeSlot : Int) = some act ∧
    K'.sched = { K.sched with procActive := act, bgTerm := K.paging.freeSlot }
  proc : store K.paging.proc K.paging.freeSlot 1 = some K'.paging.proc
  pde : K'.paging.pde = (fillPde K.paging.freeSlot entry K.paging).pde
  pteAddr : K'.paging.pteAddr = K.paging.pteAddr
  cr3 : K'.paging.cr3 = K.paging.freeSlot + 1
  esp0 : K'.tss.esp0 = kstackTop K.paging.freeSlot
  home : K'.home = Function.update K.home K.paging.freeSlot term
  pcb : (K'.down = true ∧ K'.pcb = K.pcb ∧
      (fillPde K.paging.freeSlot entry K.paging).translateIn (K.paging.freeSlot + 1)
        (pcbAddr K.paging.freeSlot) = none) ∨
    ∃ m, (fillPde K.paging.freeSlot entry K.paging).translateIn (K.paging.freeSlot + 1)
        (pcbAddr K.paging.freeSlot) = some m ∧
      K'.down = K.down ∧
      K'.pcb = Function.update K.pcb m.phys
        (fillPcb K.paging.freeSlot (K.esp f) (K.ebp f) (K.pcb m.phys))
  screen : (K'.paging.pte = K.paging.pte ∧ K'.console = K.console) ∨
    (K'.paging.pte = (changePte 0xb8 0xb8 K.paging).pte ∧
      K'.console = (if K.sched.activeTerm = K.paging.freeSlot
        then K.console.copyPage (K.savedPage K.sched.activeTerm) 0xb8 else K.console))

/-- The outcomes of `execute`. -/
inductive ExecResult (term : Nat) (prog : Option Word) (f : Frame) (K : Kernel) :
    Exit → Kernel → Prop where
  | noProgram : prog = none → ExecResult term prog f K (.toCaller (-1)) K
  | noSlot {entry : Word} : prog = some entry → K.paging.freeSlot = 7 →
      ExecResult term prog f K (.toCaller (-1)) K
  | started {entry : Word} {x : Exit} {K' : Kernel} : prog = some entry →
      Started term entry f K K' → ExecResult term prog f K x K'

theorem newProcess_cases {p : Nat} {S S' : Sched} (h : S.newProcess p = some S') :
    ∃ act, store S.procActive S.activeTerm (p : Int) = some act ∧
      S' = { S with procActive := act, bgTerm := p } := by
  simp only [Sched.newProcess, Option.bind_eq_bind, Option.bind_eq_some_iff, Option.pure_def,
    Option.some.injEq] at h
  obtain ⟨act, hact, rfl⟩ := h
  exact ⟨act, hact, rfl⟩

theorem changeCr3_slot {p : Nat} (hp : p ≤ 7) (P : Paging) :
    (changeCr3 (p : Int) P).2 = { P with cr3 := p + 1 } := by
  have hrange : ¬ ((p : Int) < 0 ∨ 7 < (p : Int)) := by omega
  rw [changeCr3, if_neg hrange]

/-- The PCB of a new process is looked up in its own directory. -/
theorem phys_newProcess (p : Nat) (va : Word) :
    { K with paging := { K.paging with cr3 := (p : Int) + 1 } }.phys va =
      (K.paging.translateIn (p + 1) va).map Mapping.phys := by
  have hrow : ((p : Int) + 1).toNat = p + 1 := by omega
  simp only [Kernel.phys, hrow]
  rfl

theorem enterProgram_cases {p : Nat} {esp ebp : Word} {x : Exit} (hp : p ≤ 7)
    (h : enterProgram p esp ebp K = some (x, K')) :
    ∃ act, store K.sched.procActive K.sched.activeTerm (p : Int) = some act ∧
      K'.sched = { K.sched with procActive := act, bgTerm := p } ∧
      K'.paging.proc = K.paging.proc ∧ K'.paging.pde = K.paging.pde ∧
      K'.paging.pteAddr = K.paging.pteAddr ∧ K'.paging.cr3 = p + 1 ∧ K'.tss.esp0 = kstackTop p ∧
      K'.home = K.home ∧
      ((K'.down = true ∧ K'.pcb = K.pcb ∧ K.paging.translateIn (p + 1) (pcbAddr p) = none) ∨
        ∃ m, K.paging.translateIn (p + 1) (pcbAddr p) = some m ∧ K'.down = K.down ∧
          K'.pcb = Function.update K.pcb m.phys (fillPcb p esp ebp (K.pcb m.phys))) ∧
      ((K'.paging.pte = K.paging.pte ∧ K'.console = K.console) ∨
        (K'.paging.pte = (changePte 0xb8 0xb8 K.paging).pte ∧
          K'.console = (if K.sched.activeTerm = p
            then K.console.copyPage (K.savedPage K.sched.activeTerm) 0xb8 else K.console))) := by
  simp only [enterProgram, Option.bind_eq_bind, Option.bind_eq_some_iff] at h
  obtain ⟨S, hS, h⟩ := h
  obtain ⟨act, hact, rfl⟩ := newProcess_cases hS
  have hphys := phys_newProcess (K := { K with
    sched := { K.sched with procActive := act, bgTerm := p }
    tss := { K.tss with esp0 := kstackTop p } }) p (pcbAddr p)
  split at h
  next hfault =>
    cases h
    refine ⟨act, hact, rfl, rfl, rfl, rfl, rfl, rfl, rfl, .inl ⟨rfl, rfl, ?_⟩, .inl ⟨rfl, rfl⟩⟩
    exact Option.map_eq_none_iff.mp (hphys.symm.trans hfault)
  next a ha =>
    cases h
    obtain ⟨m, hm, rfl⟩ := Option.map_eq_some_iff.mp (hphys.symm.trans ha)
    rw [changeCr3_slot hp, keepScreen_eq]
    refine ⟨act, hact, rfl, rfl, rfl, rfl, rfl, rfl, rfl, .inr ⟨m, hm, rfl, rfl⟩, .inr ⟨rfl, ?_⟩⟩
    have hterm : K.sched.activeTerm < 3 := (store_eq_some_iff.mp hact).1
    exact mapConsole_keepScreen hterm

theorem execute_cases {term : Nat} {prog : Option Word} {f : Frame} {x : Exit}
    (h : execute term prog f K = some (x, K')) : ExecResult term prog f K x K' := by
  cases prog with
  | none =>
    cases h
    exact .noProgram rfl
  | some entry =>
    simp only [execute, Option.bind_eq_bind, Option.bind_eq_some_iff] at h
    obtain ⟨⟨r, P⟩, hnew, h⟩ := h
    rcases newPde_cases hnew with ⟨h7, rfl, rfl⟩ | ⟨proc, h7, rfl, hproc, rfl⟩
    · cases h
      exact .noSlot rfl h7
    · have hslot : K.paging.freeSlot ≤ 7 := by
        obtain ⟨hlt, -⟩ := store_eq_some_iff.mp hproc
        omega
      have hneg : ¬ (K.paging.freeSlot : Int) = -1 := by omega
      simp only [hneg, if_false, Int.toNat_natCast] at h
      obtain ⟨act, hact, hS, hproc', hpde, hpte, hcr3, hesp0, hhome, hpcb, hscreen⟩ :=
        enterProgram_cases hslot h
      exact .started rfl ⟨h7, ⟨act, hact, hS⟩, by rw [hproc']; exact hproc, hpde, hpte, hcr3, hesp0,
        hhome, hpcb, hscreen⟩

theorem removeProcess_cases {p : Int} {esp ebp : Word} {S S' : Sched}
    (h : S.removeProcess p esp ebp = some S') :
    ∃ act, store S.procActive S.activeTerm p = some act ∧
      ∃ e, store S.procEsp S.activeTerm esp = some e ∧
      ∃ b, store S.procEbp S.activeTerm ebp = some b ∧
        S' = { S with procActive := act, procEsp := e, procEbp := b } := by
  simp only [Sched.removeProcess, Option.bind_eq_bind, Option.bind_eq_some_iff, Option.pure_def,
    Option.some.injEq] at h
  obtain ⟨act, hact, e, he, b, hb, rfl⟩ := h
  exact ⟨act, hact, e, he, b, hb, rfl⟩

/-- The state in which `halt` looks for the parent. -/
def Kernel.ending (a : Word) (P : Paging) (K : Kernel) : Kernel :=
  { K with paging := P, tss := ⟨(K.pcb a).kstack, (K.pcb a).oldEbp, (K.pcb a).kstack⟩ }

/-- The outcomes of `halt`. -/
inductive HaltResult (f : Frame) (K : Kernel) : Exit → Kernel → Prop where
  | fault : K.getCurrPcb f = none → HaltResult f K .stopped K.stop
  | shutdown {a : Word} : K.getCurrPcb f = some a → (K.pcb a).procId = 0 →
      HaltResult f K .stopped K.stop
  | inactive {a : Word} {P : Paging} : K.getCurrPcb f = some a → (K.pcb a).procId ≠ 0 →
      removePage (K.pcb a).procId K.paging = some P →
      K.sched.isActive (K.pcb a).procId = some false →
      HaltResult f K (.toCaller 0) (K.ending a P)
  | noParent {a : Word} {P : Paging} : K.getCurrPcb f = some a → (K.pcb a).procId ≠ 0 →
      removePage (K.pcb a).procId K.paging = some P →
      K.sched.isActive (K.pcb a).procId = some true →
      K.phys (K.pcb a).oldPcb = none → HaltResult f K .stopped (K.ending a P).stop
  | resumed {a b : Word} {P : Paging} {S : Sched} : K.getCurrPcb f = some a →
      (K.pcb a).procId ≠ 0 → removePage (K.pcb a).procId K.paging = some P →
      K.sched.isActive (K.pcb a).procId = some true → K.phys (K.pcb a).oldPcb = some b →
      K.sched.removeProcess (K.pcb b).procId (K.pcb a).kstack (K.pcb a).oldEbp = some S →
      HaltResult f K .toParent
        { K.ending a P with sched := S, paging := { P with cr3 := (K.pcb b).procId + 1 } }

/-- `remove_page` does not change translations. -/
theorem phys_ending {a : Word} {P : Paging} {i : Int} (h : removePage i K.paging = some P)
    (va : Word) : (K.ending a P).phys va = K.phys va := by
  obtain ⟨proc, -, -, rfl⟩ := removePage_cases h
  rfl

theorem halt_cases {f : Frame} {x : Exit} (h : halt f K = some (x, K')) : HaltResult f K x K' := by
  unfold halt at h
  split at h
  next hnone =>
    cases h
    exact .fault hnone
  next a ha =>
    simp only at h
    split at h
    next hzero =>
      cases h
      exact .shutdown ha hzero
    next hne =>
      simp only [Option.bind_eq_bind, Option.bind_eq_some_iff] at h
      obtain ⟨P, hP, act, hact, h⟩ := h
      have hphys : (K.ending a P).phys (K.pcb a).oldPcb = K.phys (K.pcb a).oldPcb :=
        phys_ending hP _
      cases act with
      | false =>
        cases h
        exact .inactive ha hne hP hact
      | true =>
        simp only [if_true] at h
        split at h
        next hnone =>
          cases h
          exact .noParent ha hne hP hact (hphys.symm.trans hnone)
        next b hb =>
          simp only [Option.bind_eq_some_iff] at h
          obtain ⟨S, hS, h⟩ := h
          cases h
          exact .resumed ha hne hP hact (hphys.symm.trans hb) hS

/-- When `halt` leaves through the `execute` of the parent. -/
theorem halt_eq_resumed {f : Frame} {a b : Word} {P : Paging} {S : Sched}
    (ha : K.getCurrPcb f = some a) (hne : (K.pcb a).procId ≠ 0)
    (hP : removePage (K.pcb a).procId K.paging = some P)
    (hact : K.sched.isActive (K.pcb a).procId = some true) (hb : K.phys (K.pcb a).oldPcb = some b)
    (hS : K.sched.removeProcess (K.pcb b).procId (K.pcb a).kstack (K.pcb a).oldEbp = some S) :
    halt f K = some (.toParent,
      { K.ending a P with sched := S, paging := { P with cr3 := (K.pcb b).procId + 1 } }) := by
  have hphys : { K with
      paging := P
      tss := ⟨(K.pcb a).kstack, (K.pcb a).oldEbp, (K.pcb a).kstack⟩ }.phys (K.pcb a).oldPcb =
        some b := (phys_ending (a := a) hP _).trans hb
  unfold halt
  rw [ha]
  simp only [hne, if_false, hP, hact, Option.bind_eq_bind, Option.bind_some, if_true, hphys, hS]
  rfl

/-! ## Scheduler events -/

/-- The outcomes of an event. A key that selects no terminal does nothing, and neither does any
    event once the kernel has stopped. -/
inductive SchedResult (K : Kernel) : SchedEvent → Kernel → Prop where
  | off {e : SchedEvent} : K.down = true → SchedResult K e K
  | tick {f : Frame} {K' : Kernel} : K.down = false → TickResult f K K' → doEvents f K = some K' →
      SchedResult K (.tick f) K'
  | ignored {scancode : Nat} {f g : Frame} {shell : Option Word} : K.down = false →
      (∀ num < 6, scancode ≠ 0x3B + num) → SchedResult K (.altKey scancode f shell g) K
  | switched {num : Nat} {f g : Frame} {shell : Option Word} {K' : Kernel} : K.down = false →
      num < 6 → SwitchResult num f shell g K K' →
      SchedResult K (.altKey (0x3B + num) f shell g) K'
  | executed {prog : Option Word} {f : Frame} {x : Exit} {K' : Kernel} : K.down = false →
      execute (K.home K.user) prog f K = some (x, K') → SchedResult K (.execute prog f) K'
  | halted {f : Frame} {x : Exit} {K' : Kernel} : K.down = false → halt f K = some (x, K') →
      SchedResult K (.halt f) K'

theorem schedStep_cases {e : SchedEvent} (h : schedStep K e = some K') : SchedResult K e K' := by
  unfold schedStep at h
  split at h
  next hdown =>
    cases h
    exact .off hdown
  next hdown =>
    have hup : K.down = false := by simpa using hdown
    cases e with
    | tick f => exact .tick hup (doEvents_cases h) h
    | altKey scancode f shell g =>
      simp only [altKey] at h
      split at h
      next hlow =>
        cases h
        exact .ignored hup fun num _ => by omega
      next hlow =>
        split at h
        next hlt =>
          have hnum : scancode = 0x3B + (scancode - 0x3B) := by omega
          rw [hnum]
          exact .switched hup hlt (switchTerm_cases h)
        next hge =>
          cases h
          exact .ignored hup fun num _ => by omega
    | execute prog f =>
      obtain ⟨⟨x, K''⟩, hexec, rfl⟩ := Option.map_eq_some_iff.mp h
      exact .executed hup hexec
    | halt f =>
      obtain ⟨⟨x, K''⟩, hhalt, rfl⟩ := Option.map_eq_some_iff.mp h
      exact .halted hup hhalt

end OreOS
