import OreOS.Kernel.Proofs.HalfOpened
import OreOS.Machine.Turns

/-!
# The terminals take turns

Between two switches of the active terminal and as long as no program is started or ended, every
tick of the timer stops the running terminal and goes on with the next one that is initialised. The
terminals are then the threads of a round, and what `do_events` saves of a terminal is loaded when
its turn comes again.
-/

namespace OreOS
open Machine Function

variable {K K' : Kernel}

/-! ## The order of the terminals -/

/-- The terminal that `do_events` goes on with after terminal `t`. -/
def Sched.after (termInit : Vector Nat 3) (t : Nat) : Nat := (nextTerm termInit 3 t).getD t

/-- The order of three terminals, for all ways in which they can be initialised. -/
theorem after_round : ∀ (a b c : Fin 2) (t : Fin 3),
    #v[a.val, b.val, c.val][t.val]? = some 1 →
      (Sched.after #v[a.val, b.val, c.val])^[#v[a.val, b.val, c.val].toList.countP (· != 0)] t.val =
          t.val ∧
        (∀ j : Fin 3, 0 < j.val → j.val < #v[a.val, b.val, c.val].toList.countP (· != 0) →
          (Sched.after #v[a.val, b.val, c.val])^[j.val] t.val ≠ t.val) ∧
        ∀ u : Fin 3, #v[a.val, b.val, c.val][u.val]? = some 1 →
          ∃ j : Fin 3, j.val < #v[a.val, b.val, c.val].toList.countP (· != 0) ∧
            (Sched.after #v[a.val, b.val, c.val])^[j.val] t.val = u.val := by
  decide

theorem exists_bits {v : Vector Nat 3} (hv : ∀ t i : Nat, v[t]? = some i → i = 0 ∨ i = 1) :
    ∃ a b c : Fin 2, v = #v[a.val, b.val, c.val] := by
  have hbit (t : Fin 3) : v[t.val] < 2 := by
    rcases hv t v[t.val] (Vector.getElem?_eq_getElem t.isLt) with h | h <;> omega
  refine ⟨⟨v[0], hbit 0⟩, ⟨v[1], hbit 1⟩, ⟨v[2], hbit 2⟩, ?_⟩
  ext i hi
  obtain rfl | rfl | rfl : i = 0 ∨ i = 1 ∨ i = 2 := by omega
  all_goals rfl

section
variable {v : Vector Nat 3} {t : Nat}

/-- A round has as many turns as there are initialised terminals. -/
theorem minimalPeriod_after (hv : ∀ t i : Nat, v[t]? = some i → i = 0 ∨ i = 1)
    (ht : v[t]? = some 1) : minimalPeriod (Sched.after v) t = v.toList.countP (· != 0) := by
  have hlt : t < 3 := (Vector.getElem?_eq_some_iff.mp ht).1
  have hmem : v[t] ∈ v.toList := Vector.mem_toList_iff.mpr (Vector.getElem_mem hlt)
  have hpos : 0 < v.toList.countP (· != 0) := by
    refine List.countP_pos_iff.mpr ⟨v[t], hmem, ?_⟩
    have h1 : v[t] = 1 := (Vector.getElem?_eq_some_iff.mp ht).2
    rw [h1]
    rfl
  have hle : v.toList.countP (· != 0) ≤ 3 := List.countP_le_length.trans_eq (Vector.length_toList)
  obtain ⟨a, b, c, rfl⟩ := exists_bits hv
  obtain ⟨hback, hfirst, -⟩ := after_round a b c ⟨t, hlt⟩ ht
  have hper : IsPeriodicPt (Sched.after #v[a.val, b.val, c.val]) _ t := hback
  refine le_antisymm (hper.minimalPeriod_le hpos) (Nat.le_of_not_lt ?_)
  intro hshort
  exact hfirst ⟨_, hshort.trans_le hle⟩ (hper.minimalPeriod_pos hpos) hshort
    (isPeriodicPt_minimalPeriod _ t)

/-- Every initialised terminal has its place in the round. -/
theorem exists_turn (hv : ∀ t i : Nat, v[t]? = some i → i = 0 ∨ i = 1) (ht : v[t]? = some 1)
    {u : Nat} (hu : v[u]? = some 1) :
    ∃ j < minimalPeriod (Sched.after v) t, (Sched.after v)^[j] t = u := by
  rw [minimalPeriod_after hv ht]
  have hlt : t < 3 := (Vector.getElem?_eq_some_iff.mp ht).1
  have hlt' : u < 3 := (Vector.getElem?_eq_some_iff.mp hu).1
  obtain ⟨a, b, c, rfl⟩ := exists_bits hv
  obtain ⟨-, -, hall⟩ := after_round a b c ⟨t, hlt⟩ ht
  obtain ⟨j, hj, hju⟩ := hall ⟨u, hlt'⟩ hu
  exact ⟨j, hj, hju⟩

end

/-! ## One event -/

/-- What `do_events` saves of a terminal. -/
structure Context where
  esp : Word
  ebp : Word
  cursor : Nat × Nat
  deriving DecidableEq

/-- The context of the running terminal when it is interrupted at `f`. -/
def Kernel.context (f : Frame) (K : Kernel) : Context :=
  ⟨K.esp f, K.ebp f, (K.console.screenX, K.console.screenY)⟩

/-- The context saved for terminal `t`. -/
def Kernel.saved (K : Kernel) (t : Nat) : Option Context := do
  let esp ← K.sched.procEsp[t]?
  let ebp ← K.sched.procEbp[t]?
  let cursor ← K.sched.cursorPos[t]?
  return ⟨esp, ebp, cursor⟩

/-- The terminals as threads. -/
def Kernel.turns (K : Kernel) : Turns Nat (Option Context) := ⟨K.sched.bgTerm, K.saved⟩

/-- The events that leave the terminals and their processes as they are. A key may be one that
    selects no terminal, and a command one that names no program. -/
def KeepsTurns : Event → Prop
  | .sched (.tick _) => True
  | .sched (.altKey scancode _ _ _) => ∀ num < 6, scancode ≠ 0x3B + num
  | .sched (.execute prog _) => prog = none
  | .sched (.halt _) => False
  | .files _ _ => True
  | .vidmap _ _ => True
  | .output _ => True
  | .echo _ => True

/-- The number of timer interrupts. -/
def ticks (es : List Event) : Nat :=
  es.countP fun | .sched (.tick _) => true | _ => false

/-- The terminals take turns: the one that runs is initialised, and no switch is going on. -/
structure TakesTurns (K : Kernel) : Prop where
  ok : KernelOk K
  fakeSti : K.sched.fakeSti = 0
  bg : K.sched.termInit[K.sched.bgTerm]? = some 1

/-- The running terminal goes on from the context that was saved for it. -/
structure Resumed (K : Kernel) : Prop where
  saved : K.saved K.sched.bgTerm =
    some ⟨K.tss.esp, K.tss.ebp, (K.console.screenX, K.console.screenY)⟩
  esp0 : K.tss.esp0 = K.tss.esp
  user : K.sched.procActive[K.sched.bgTerm]? = some K.user

/-- The outcomes of an event that keeps the turns. -/
inductive TurnResult (K : Kernel) : Event → Kernel → Prop where
  | alone {f : Frame} : K.sched.countInit = 1 → TurnResult K (.sched (.tick f)) K
  | turn {f : Frame} {K' : Kernel} : K.sched.countInit ≠ 1 →
      K'.turns = K.turns.turn (Sched.after K.sched.termInit) (some (K.context f)) → Resumed K' →
      K'.sched.termInit = K.sched.termInit → K'.sched.procActive = K.sched.procActive →
      K'.sched.fakeSti = K.sched.fakeSti → TurnResult K (.sched (.tick f)) K'
  | stays {e : Event} {K' : Kernel} : ticks [e] = 0 → K'.sched = K.sched → TurnResult K e K'

theorem saved_turn {t : Nat} {x : Context} {e b : Vector Word 3} {cur : Vector (Nat × Nat) 6}
    (he : store K.sched.procEsp t x.esp = some e) (hb : store K.sched.procEbp t x.ebp = some b)
    (hc : store K.sched.cursorPos t x.cursor = some cur) (hesp : K'.sched.procEsp = e)
    (hebp : K'.sched.procEbp = b) (hcur : K'.sched.cursorPos = cur) :
    K'.saved = update K.saved t (some x) := by
  funext u
  simp only [Kernel.saved, hesp, hebp, hcur, getElem?_of_store he, getElem?_of_store hb,
    getElem?_of_store hc]
  by_cases hu : u = t
  · subst hu
    simp only [if_true, update_self, Option.bind_eq_bind, Option.bind_some]
    rfl
  · simp only [if_neg (Ne.symm hu), update_of_ne hu, Kernel.saved]

/-- With more than one terminal, the turn goes to another one. -/
theorem after_ne (ht : TakesTurns K) (hcount : K.sched.countInit ≠ 1) :
    Sched.after K.sched.termInit K.sched.bgTerm ≠ K.sched.bgTerm := by
  intro hfix
  have hperiod := minimalPeriod_after ht.ok.inits ht.bg
  rw [minimalPeriod_eq_one_iff_isFixedPt.mpr hfix] at hperiod
  exact hcount hperiod.symm

theorem tick_turn {f : Frame} (ht : TakesTurns K) (h : doEvents f K = some K') :
    TurnResult K (.sched (.tick f)) K' := by
  by_cases hcount : K.sched.countInit = 1
  · simp only [doEvents, ht.fakeSti, ne_eq, not_true_eq_false, if_false, if_pos hcount,
      Option.some.injEq] at h
    subst h
    exact .alone hcount
  have hlt := (Vector.getElem?_eq_some_iff.mp ht.bg).1
  obtain ⟨bg, hnext⟩ := nextTerm_isSome hlt ht.bg
  have hafter : Sched.after K.sched.termInit K.sched.bgTerm = bg := by
    rw [Sched.after, hnext, Option.getD_some]
  obtain ⟨K₁, hK₁, hto⟩ := doEvents_ticksTo f ht.fakeSti hcount hlt hnext
  cases hK₁.symm.trans h
  cases doEvents_cases h with
  | idle => exact absurd (hafter.trans hto.bgTerm.symm) (after_ne ht hcount)
  | next _ he hb hc hbg hxy hp he' hb' hS hcons hpag htss hq =>
    cases hnext.symm.trans hbg
    rename_i x y _ _ _ _ _ _ _
    have hsaved : K'.saved = update K.saved K.sched.bgTerm (some (K.context f)) :=
      saved_turn he hb hc (by rw [hS]) (by rw [hS]) (by rw [hS])
    have hcursor : (K'.console.screenX, K'.console.screenY) = (x, y) := by
      rw [hcons]
      split <;> rfl
    refine .turn hcount ?_ ⟨?_, ?_, ?_⟩ hto.termInit hto.procActive hto.fakeSti
    · rw [Kernel.turns, hto.bgTerm, hsaved, ← hafter]
      rfl
    · simp only [Kernel.saved, hS, he', hb', hxy, htss, hcursor, Option.bind_eq_bind,
        Option.bind_some, Option.pure_def]
    · rw [htss]
    · rw [hto.bgTerm, hto.procActive]
      exact hto.user

theorem callFiles_sched {fs : Filesys} {c : FileCall} {f : Frame}
    (h : callFiles fs c f K = some K') : K'.sched = K.sched := by
  unfold callFiles at h
  split at h
  · cases h
    rfl
  · simp only [Option.bind_eq_bind, Option.bind_eq_some_iff, Option.pure_def,
      Option.some.injEq] at h
    obtain ⟨s, -, rfl⟩ := h
    rfl

theorem callVidmap_sched {addr : Word} {f : Frame} (h : callVidmap addr f K = some K') :
    K'.sched = K.sched := by
  unfold callVidmap at h
  split at h
  · cases h
    rfl
  · split at h
    · cases h
      rfl
    · cases h
      rfl

theorem screenOp_sched {op : ScreenOp} (h : screenOp op K = some K') : K'.sched = K.sched := by
  obtain ⟨console, -, h⟩ := Option.bind_eq_some_iff.mp h
  cases h
  rfl

theorem turn_step {fs : Filesys} {e : Event} (ht : TakesTurns K) (he : KeepsTurns e)
    (h : kernelStep fs K e = some K') (hup : K'.down = false) : TurnResult K e K' := by
  unfold kernelStep at h
  split at h
  next hdown =>
    cases h
    rw [hup] at hdown
    cases hdown
  cases e with
  | sched e =>
    cases schedStep_cases h with
    | off hdown =>
      rw [hup] at hdown
      cases hdown
    | tick _ _ htick => exact tick_turn ht htick
    | ignored _ _ => exact .stays rfl rfl
    | switched _ hnum _ => exact absurd rfl (he _ hnum)
    | executed _ hexec =>
      cases he
      cases hexec
      exact .stays rfl rfl
    | halted => exact he.elim
  | files c f => exact .stays rfl (callFiles_sched h)
  | vidmap addr f => exact .stays rfl (callVidmap_sched h)
  | output op => exact .stays rfl (screenOp_sched h)
  | echo op => exact .stays rfl (screenOp_sched h)

/-! ## Runs -/

/-- No switch is seen half done. -/
theorem fakeSti_step {fs : Filesys} {e : Event} (h0 : K.sched.fakeSti = 0)
    (h : kernelStep fs K e = some K') : K'.sched.fakeSti = 0 := by
  have hexecuted {term : Nat} {prog : Option Word} {f : Frame} {x : Exit} {K K' : Kernel}
      (h0 : K.sched.fakeSti = 0) (h : execute term prog f K = some (x, K')) :
      K'.sched.fakeSti = 0 := by
    cases execute_cases h with
    | noProgram _ => exact h0
    | noSlot _ _ => exact h0
    | started _ hs =>
      obtain ⟨act, -, hS⟩ := hs.sched
      rw [hS]
      exact h0
  unfold kernelStep at h
  split at h
  · cases h
    exact h0
  cases e with
  | sched e =>
    cases schedStep_cases h with
    | off _ => exact h0
    | tick _ htick =>
      cases htick with
      | idle => exact h0
      | next _ _ _ _ _ _ _ _ _ hS =>
        rw [hS]
        exact h0
    | ignored _ _ => exact h0
    | switched _ _ hswitch =>
      cases hswitch with
      | shown _ _ _ _ _ _ _ _ _ hS => rw [hS]
      | opened _ _ _ _ _ _ hK₁ _ hexec => exact hexecuted (by rw [hK₁]) hexec
    | executed _ hexec => exact hexecuted h0 hexec
    | halted _ hhalt =>
      cases halt_cases hhalt with
      | fault => exact h0
      | shutdown => exact h0
      | inactive => exact h0
      | noParent => exact h0
      | resumed _ _ _ _ _ hS =>
        obtain ⟨act, -, esp, -, ebp, -, rfl⟩ := removeProcess_cases hS
        exact h0
  | files c f => rwa [callFiles_sched h]
  | vidmap addr f => rwa [callVidmap_sched h]
  | output op => rwa [screenOp_sched h]
  | echo op => rwa [screenOp_sched h]

theorem fakeSti_of_run {fs : Filesys} {pteAddr : Word} {es : List Event}
    (h : runFrom (kernelStep fs) (boot pteAddr) es = some K) : K.sched.fakeSti = 0 := by
  have hstep : ∀ K e K', Sched.fakeSti (Kernel.sched K) = 0 → kernelStep fs K e = some K' →
      K'.sched.fakeSti = 0 := fun _ _ _ h0 h => fakeSti_step h0 h
  exact inv_runFrom_of_step hstep rfl h

theorem takesTurns_of_run {fs : Filesys} {pteAddr : Word} {es : List Event}
    (h : runFrom (kernelStep fs) (boot pteAddr) es = some K)
    (hbg : K.sched.termInit[K.sched.bgTerm]? = some 1) : TakesTurns K where
  ok := kernelOk_of_run h
  fakeSti := fakeSti_of_run h
  bg := hbg

/-- A kernel that has stopped stays so. -/
theorem run_down {fs : Filesys} {es : List Event} (hdown : K.down = true) :
    runFrom (kernelStep fs) K es = some K := by
  induction es with
  | nil => rfl
  | cons e es ih =>
    have hstep : kernelStep fs K e = some K := by simp only [kernelStep, hdown, if_true]
    exact (runFrom_cons hstep).trans ih

theorem up_of_run {fs : Filesys} {es : List Event} (h : runFrom (kernelStep fs) K es = some K')
    (hup : K'.down = false) : K.down = false := by
  by_contra hdown
  have hdown : K.down = true := by simpa using hdown
  rw [run_down hdown] at h
  cases h
  rw [hup] at hdown
  cases hdown

/-- What a run with `n` ticks does to the turns. -/
structure Rotates (n : Nat) (K K' : Kernel) : Prop where
  takes : TakesTurns K'
  termInit : K'.sched.termInit = K.sched.termInit
  procActive : K'.sched.procActive = K.sched.procActive
  bg : K'.sched.bgTerm = (Sched.after K.sched.termInit)^[n] K.sched.bgTerm
  turns : K.sched.countInit ≠ 1 → ∃ cs : List (Option Context), cs.length = n ∧
    K'.turns = cs.foldl (Turns.turn (Sched.after K.sched.termInit)) K.turns

theorem TakesTurns.of_sched (ht : TakesTurns K) (hok : KernelOk K') (h : K'.sched = K.sched) :
    TakesTurns K' := ⟨hok, by rw [h]; exact ht.fakeSti, by rw [h]; exact ht.bg⟩

theorem turns_of_sched (h : K'.sched = K.sched) : K'.turns = K.turns := by
  have hsaved : K'.saved = K.saved := by
    funext t
    simp only [Kernel.saved, h]
  rw [Kernel.turns, h, hsaved]
  rfl

/-- The terminal that has the next turn is initialised. -/
theorem after_init (ht : TakesTurns K) :
    K.sched.termInit[Sched.after K.sched.termInit K.sched.bgTerm]? = some 1 := by
  obtain ⟨bg, hnext⟩ := nextTerm_isSome (Vector.getElem?_eq_some_iff.mp ht.bg).1 ht.bg
  rw [Sched.after, hnext, Option.getD_some]
  exact (nextTerm_spec hnext).2

theorem turn_rotates {fs : Filesys} {e : Event} (ht : TakesTurns K) (he : KeepsTurns e)
    (h : kernelStep fs K e = some K') (hup : K'.down = false) : Rotates (ticks [e]) K K' := by
  have hok := ht.ok.kernelStep h
  cases turn_step ht he h hup with
  | alone hone =>
    have hperiod := minimalPeriod_after ht.ok.inits ht.bg
    have hfix := minimalPeriod_eq_one_iff_isFixedPt.mp (hperiod.trans hone)
    exact ⟨ht, rfl, rfl, hfix.symm, fun hcount => absurd hone hcount⟩
  | turn hcount hturns _ hinit hproc hsti =>
    have hbg : K'.sched.bgTerm = Sched.after K.sched.termInit K.sched.bgTerm :=
      congrArg Turns.running hturns
    refine ⟨⟨hok, hsti.trans ht.fakeSti, ?_⟩, hinit, hproc, hbg, fun _ => ⟨[_], rfl, hturns⟩⟩
    rw [hinit, hbg]
    exact after_init ht
  | stays hticks hS =>
    rw [hticks]
    exact ⟨ht.of_sched hok hS, by rw [hS], by rw [hS], by rw [hS]; rfl,
      fun _ => ⟨[], rfl, turns_of_sched hS⟩⟩

theorem Rotates.trans {m n : Nat} {K₁ : Kernel} (h : Rotates m K K₁) (h' : Rotates n K₁ K') :
    Rotates (m + n) K K' where
  takes := h'.takes
  termInit := h'.termInit.trans h.termInit
  procActive := h'.procActive.trans h.procActive
  bg := by rw [h'.bg, h.bg, h.termInit, Nat.add_comm, iterate_add_apply]
  turns hcount := by
    obtain ⟨cs, hcs, hturns⟩ := h.turns hcount
    obtain ⟨cs', hcs', hturns'⟩ := h'.turns (by rwa [Sched.countInit, h.termInit])
    refine ⟨cs ++ cs', by rw [List.length_append, hcs, hcs'], ?_⟩
    rw [hturns', hturns, h.termInit, List.foldl_append]

theorem ticks_cons (e : Event) (es : List Event) : ticks (e :: es) = ticks [e] + ticks es := by
  rw [← List.singleton_append]
  exact List.countP_append

theorem run_rotates {fs : Filesys} {es : List Event} (ht : TakesTurns K)
    (hes : ∀ e ∈ es, KeepsTurns e) (h : runFrom (kernelStep fs) K es = some K')
    (hup : K'.down = false) : Rotates (ticks es) K K' := by
  induction es generalizing K with
  | nil =>
    cases h
    exact ⟨ht, rfl, rfl, rfl, fun _ => ⟨[], rfl, rfl⟩⟩
  | cons e es ih =>
    obtain ⟨K₁, h₁, hrest⟩ := Option.bind_eq_some_iff.mp h
    have hstep := turn_rotates ht (hes e List.mem_cons_self) h₁ (up_of_run hrest hup)
    rw [ticks_cons]
    exact hstep.trans (ih hstep.takes (fun e he => hes e (List.mem_cons_of_mem _ he)) hrest)

/-- From a reachable state in which the running terminal is initialised, every initialised terminal
runs after the same one in each round of ticks, whatever else happens between them. -/
theorem terminals_take_turns {fs : Filesys} {pteAddr : Word} {es₀ : List Event} {t : Nat}
    (hreach : runFrom (kernelStep fs) (boot pteAddr) es₀ = some K)
    (hbg : K.sched.termInit[K.sched.bgTerm]? = some 1) (ht : K.sched.termInit[t]? = some 1) :
    ∃ j < K.sched.countInit, ∀ es K', (∀ e ∈ es, KeepsTurns e) →
      runFrom (kernelStep fs) K es = some K' → K'.down = false →
        (K'.sched.bgTerm = t ↔ ticks es % K.sched.countInit = j) := by
  have htakes := takesTurns_of_run hreach hbg
  have hperiod : minimalPeriod (Sched.after K.sched.termInit) K.sched.bgTerm = K.sched.countInit :=
    minimalPeriod_after htakes.ok.inits hbg
  obtain ⟨j, hj, hjt⟩ := exists_turn htakes.ok.inits hbg ht
  refine ⟨j, hperiod ▸ hj, ?_⟩
  intro es K' hes hrun hup
  rw [(run_rotates htakes hes hrun hup).bg, iterate_eq_iff_mod hjt hj, hperiod]

/-- The first shell is started, and two more terminals are opened. -/
def threeShells : List Event :=
  [.sched (.execute (some 0x8048000#32) ⟨64#32, 40#32⟩),
    .sched (.altKey 0x3C ⟨64#32, 40#32⟩ (some 0x8048000#32) ⟨64#32, 40#32⟩),
    .sched (.altKey 0x3D ⟨64#32, 40#32⟩ (some 0x8048000#32) ⟨64#32, 40#32⟩)]

/-- The kernel after that. -/
def threeRunning : Kernel :=
  (runFrom (kernelStep ⟨fun _ => 0, 0, 0, 0⟩) (boot 0x410000#32) threeShells).getD
    (boot 0x410000#32)

theorem threeRunning_reached :
    runFrom (kernelStep ⟨fun _ => 0, 0, 0, 0⟩) (boot 0x410000#32) threeShells =
      some threeRunning := rfl

theorem terminals_take_turns_three :
    ∃ j < threeRunning.sched.countInit, ∀ es K', (∀ e ∈ es, KeepsTurns e) →
      runFrom (kernelStep ⟨fun _ => 0, 0, 0, 0⟩) threeRunning es = some K' → K'.down = false →
        (K'.sched.bgTerm = 1 ↔ ticks es % threeRunning.sched.countInit = j) :=
  terminals_take_turns threeRunning_reached (by decide) (by decide)

end OreOS
