import OreOS.Kernel.Proofs.Defined
import OreOS.SysCall.Proofs.FileStream

/-!
# Terminals whose shell does not start

`switchTerm` marks a new terminal as initialised before it executes the shell and does not look at
the result. When `execute` returns -1 the terminal is left initialised without a process, and the
scheduler comes to it: `run_proc` then loads the page directory of process -1.
-/

namespace OreOS
open Machine

variable {K K' : Kernel}

/-! ## Every event keeps the kernel's invariant -/

/-- The invariant says nothing about the rest of the kernel. -/
theorem KernelOk.of_same (h : KernelOk K) (hsched : K'.sched = K.sched)
    (hproc : K'.paging.proc = K.paging.proc) (hids : ∀ a, (K'.pcb a).procId = (K.pcb a).procId) :
    KernelOk K' where
  ids a := by rw [hids]; exact h.ids a
  slot7 := by rw [hproc]; exact h.slot7
  inits := by rw [hsched]; exact h.inits
  active := by rw [hsched]; exact h.active
  unused := by rw [hsched]; exact h.unused

theorem KernelOk.files {fs : Filesys} {c : FileCall} {f : Frame} (h : KernelOk K)
    (hx : callFiles fs c f K = some K') : KernelOk K' := by
  unfold callFiles at hx
  split at hx
  · cases hx
    exact h.of_same rfl rfl fun _ => rfl
  next a ha =>
    simp only [Option.bind_eq_bind, Option.bind_eq_some_iff, Option.pure_def,
      Option.some.injEq] at hx
    obtain ⟨⟨r, t⟩, hcall, rfl⟩ := hx
    refine h.of_same rfl rfl ?_
    intro b
    by_cases hab : b = a
    · subst hab
      simp only [Kernel.setPcb, Function.update_self]
      exact fileCall_procId hcall
    · simp only [Kernel.setPcb, Function.update_of_ne hab]

theorem KernelOk.vidmap {addr : Word} {f : Frame} (h : KernelOk K)
    (hx : callVidmap addr f K = some K') : KernelOk K' := by
  unfold callVidmap at hx
  split at hx
  · cases hx
    exact h.of_same rfl rfl fun _ => rfl
  · split at hx
    · cases hx
      exact h.of_same rfl rfl fun _ => rfl
    next r P hvid =>
      cases hx
      rcases sysVidmap_cases hvid with ⟨-, -, rfl⟩ | ⟨-, -, -, rfl⟩
      · exact h.of_same rfl rfl fun _ => rfl
      · exact h.of_same rfl rfl fun _ => rfl

theorem KernelOk.kernelStep {fs : Filesys} {e : Event} (h : KernelOk K)
    (hx : kernelStep fs K e = some K') : KernelOk K' := by
  unfold OreOS.kernelStep at hx
  split at hx
  · cases hx
    exact h
  · cases e with
    | sched e => exact h.step hx
    | files c f => exact h.files hx
    | vidmap addr f => exact h.vidmap hx
    | output op =>
      obtain ⟨console, -, hK'⟩ := Option.bind_eq_some_iff.mp hx
      cases hK'
      exact h.of_same rfl rfl fun _ => rfl
    | echo op =>
      obtain ⟨console, -, hK'⟩ := Option.bind_eq_some_iff.mp hx
      cases hK'
      exact h.of_same rfl rfl fun _ => rfl

theorem kernelOk_of_run {fs : Filesys} {pteAddr : Word} {es : List Event}
    (h : runFrom (kernelStep fs) (boot pteAddr) es = some K) : KernelOk K :=
  inv_runFrom_of_step (fun _ _ _ (hok : KernelOk _) hx => hok.kernelStep hx)
    (kernelOk_boot pteAddr) h

/-! ## Opening a terminal -/

/-- `switchTerm` to a terminal that is not initialised, up to the call of `execute`
    (`sched.c:66-109`). -/
def openTerm (num : Nat) (f : Frame) (K : Kernel) : Option Kernel := do
  let S ← K.sched.saveCursor (K.console.screenX, K.console.screenY)
  let S ← S.saveContext (K.esp f) (K.ebp f)
  let K2 :=
    { K.keepScreen with sched := { S with fakeSti := 1, activeTerm := num } }.mapConsole 0xb8
  let termInit ← store S.termInit num 1
  let console ← K2.console.clear num K2.videoPage
  return { K2 with
    console := console
    sched := { K2.sched with bgTerm := num, fakeSti := 0, termInit := termInit } }

/-- What `openTerm` leaves to `execute`. -/
structure HalfOpen (num : Nat) (K K₁ : Kernel) : Prop where
  init : store K.sched.termInit num 1 = some K₁.sched.termInit
  active : K₁.sched.activeTerm = num
  bg : K₁.sched.bgTerm = num
  fakeSti : K₁.sched.fakeSti = 0
  quiet : Quiet K K₁

section opening
variable {K₁ : Kernel} {num : Nat} {f g : Frame} {shell : Option Word}

theorem openTerm_cases (h : openTerm num f K = some K₁) : HalfOpen num K K₁ := by
  simp only [openTerm, Option.bind_eq_bind, Option.bind_eq_some_iff, Option.pure_def,
    Option.some.injEq] at h
  obtain ⟨S1, hcur, S2, hctx, init, hinit, console, -, rfl⟩ := h
  obtain ⟨c, -, rfl⟩ := saveCursor_cases hcur
  obtain ⟨e, b, -, -, rfl⟩ := saveContext_cases hctx
  rw [keepScreen_eq K]
  exact ⟨hinit, rfl, rfl, rfl, rfl, rfl, rfl, rfl, rfl, rfl, rfl⟩

/-- The two halves of `switchTerm`. -/
theorem switchTerm_eq (hinit : K.sched.termInit[num]? = some 0) (h : openTerm num f K = some K₁) :
    switchTerm num f shell g K = (execute num shell g K₁).map Prod.snd := by
  simp only [openTerm, Option.bind_eq_bind, Option.bind_eq_some_iff, Option.pure_def,
    Option.some.injEq] at h
  obtain ⟨S1, hcur, S2, hctx, init, hstore, console, hclear, rfl⟩ := h
  have hinit' : S2.termInit[num]? = some 0 := by
    obtain ⟨c, -, rfl⟩ := saveCursor_cases hcur
    obtain ⟨e, b, -, -, rfl⟩ := saveContext_cases hctx
    exact hinit
  simp only [switchTerm, hcur, hctx, hinit', hstore, hclear, Option.bind_eq_bind, Option.bind_some,
    ne_eq, not_true_eq_false, if_false, Option.pure_def, Option.map_eq_bind]
  rfl

theorem enterProgram_exit {p : Nat} {esp ebp : Word} {x : Exit}
    (h : enterProgram p esp ebp K = some (x, K')) : x = .stopped ∨ x = .toProgram := by
  simp only [enterProgram, Option.bind_eq_bind, Option.bind_eq_some_iff] at h
  obtain ⟨S, -, h⟩ := h
  split at h
  · cases h
    exact .inl rfl
  · cases h
    exact .inr rfl

/-- An `execute` that returns to its caller had no program or no slot, and has changed nothing. -/
theorem execute_toCaller {term : Nat} {prog : Option Word} {v : Int}
    (h : execute term prog f K = some (.toCaller v, K')) :
    K' = K ∧ (prog = none ∨ K.paging.freeSlot = 7) := by
  cases prog with
  | none =>
    cases h
    exact ⟨rfl, .inl rfl⟩
  | some entry =>
    simp only [execute, Option.bind_eq_bind, Option.bind_eq_some_iff] at h
    obtain ⟨⟨r, P⟩, hnew, h⟩ := h
    rcases newPde_cases hnew with ⟨h7, rfl, rfl⟩ | ⟨proc, -, rfl, -, rfl⟩
    · cases h
      exact ⟨rfl, .inr h7⟩
    · rw [if_neg (by omega)] at h
      rcases enterProgram_exit h with hx | hx <;> cases hx

end opening

/-! ## The scheduler comes to the terminal -/

/-- The round robin over three terminals, for all ways in which they can be initialised. -/
theorem nextTerm_round : ∀ (a b c : Fin 2) (num other : Fin 3),
    #v[a.val, b.val, c.val][num.val]? = some 1 → #v[a.val, b.val, c.val][other.val]? = some 1 →
      other ≠ num →
      #v[a.val, b.val, c.val].toList.countP (· != 0) ≠ 1 ∧
        ∃ b₁ : Fin 3, Sched.nextTerm #v[a.val, b.val, c.val] 3 num = some b₁.val ∧
          (Sched.nextTerm #v[a.val, b.val, c.val] 3 b₁ = some num.val ∨
            ∃ b₂ : Fin 3, Sched.nextTerm #v[a.val, b.val, c.val] 3 b₁ = some b₂.val ∧
              Sched.nextTerm #v[a.val, b.val, c.val] 3 b₂ = some num.val) := by
  decide

/-- With another terminal initialised, the search comes back after two or three rounds. -/
theorem nextTerm_returns {v : Vector Nat 3} (hv : ∀ t i : Nat, v[t]? = some i → i = 0 ∨ i = 1)
    {num other : Nat} (hnum : v[num]? = some 1) (hother : v[other]? = some 1) (hne : other ≠ num) :
    v.toList.countP (· != 0) ≠ 1 ∧
      ∃ b₁, Sched.nextTerm v 3 num = some b₁ ∧
        (Sched.nextTerm v 3 b₁ = some num ∨
          ∃ b₂, Sched.nextTerm v 3 b₁ = some b₂ ∧ Sched.nextTerm v 3 b₂ = some num) := by
  have hbit (t : Fin 3) : v[t.val] < 2 := by
    rcases hv t v[t.val] (Vector.getElem?_eq_getElem t.isLt) with h | h <;> omega
  have hentries : v = #v[v[0], v[1], v[2]] := by
    ext i hi
    obtain rfl | rfl | rfl : i = 0 ∨ i = 1 ∨ i = 2 := by omega
    all_goals rfl
  have hlt : num < 3 := (Vector.getElem?_eq_some_iff.mp hnum).1
  have hlt' : other < 3 := (Vector.getElem?_eq_some_iff.mp hother).1
  rw [hentries] at hnum hother ⊢
  obtain ⟨hcount, b₁, hb₁, hround⟩ := nextTerm_round ⟨v[0], hbit 0⟩ ⟨v[1], hbit 1⟩ ⟨v[2], hbit 2⟩
    ⟨num, hlt⟩ ⟨other, hlt'⟩ hnum hother (by simpa using hne)
  refine ⟨hcount, b₁.val, hb₁, ?_⟩
  rcases hround with hback | ⟨b₂, hb₂, hback⟩
  · exact .inl hback
  · exact .inr ⟨b₂.val, hb₂, hback⟩

/-- A tick that goes on to terminal `bg`. -/
structure TicksTo (bg : Nat) (K K' : Kernel) : Prop where
  bgTerm : K'.sched.bgTerm = bg
  termInit : K'.sched.termInit = K.sched.termInit
  procActive : K'.sched.procActive = K.sched.procActive
  fakeSti : K'.sched.fakeSti = K.sched.fakeSti
  down : K'.down = K.down
  user : K.sched.procActive[bg]? = some K'.user

theorem doEvents_ticksTo (f : Frame) {bg : Nat} (hsti : K.sched.fakeSti = 0)
    (hcount : K.sched.countInit ≠ 1) (hbg : K.sched.bgTerm < 3)
    (hnext : Sched.nextTerm K.sched.termInit 3 K.sched.bgTerm = some bg) :
    ∃ K', doEvents f K = some K' ∧ TicksTo bg K K' := by
  obtain ⟨K', hK'⟩ := doEvents_defined (f := f) hbg (nextTerm_spec hnext).2
  refine ⟨K', hK', ?_⟩
  simp only [doEvents, hsti, ne_eq, not_true_eq_false, if_false, if_neg hcount, Option.bind_eq_bind,
    Option.bind_eq_some_iff] at hK'
  obtain ⟨S1, hctx, S2, hcur, bg', hbg', ⟨x, y⟩, -, hrun⟩ := hK'
  obtain ⟨e, b, -, -, rfl⟩ := saveContext_cases hctx
  obtain ⟨c, -, rfl⟩ := saveCursor_cases hcur
  obtain ⟨p, e', b', hp, -, -, rfl⟩ := runProc_cases hrun
  cases hnext.symm.trans hbg'
  have huser : p + 1 - 1 = p := by omega
  by_cases hact : K.sched.activeTerm = bg
  · simp only [hact, if_true, Kernel.mapConsole] at hp ⊢
    exact ⟨rfl, rfl, rfl, rfl, rfl, by rw [hp, Kernel.user, huser]⟩
  · simp only [hact, if_false, Kernel.mapConsole] at hp ⊢
    exact ⟨rfl, rfl, rfl, rfl, rfl, by rw [hp, Kernel.user, huser]⟩

/-- The scheduler is about to run terminal `num`, among others. -/
structure Rounds (num : Nat) (K : Kernel) : Prop where
  up : K.down = false
  fakeSti : K.sched.fakeSti = 0
  count : K.sched.countInit ≠ 1
  bg : K.sched.bgTerm < 3
  proc : K.sched.procActive[num]? = some (-1)

theorem Rounds.tick {num bg : Nat} (h : Rounds num K) (f : Frame)
    (hnext : Sched.nextTerm K.sched.termInit 3 K.sched.bgTerm = some bg) :
    ∃ K', schedStep K (.tick f) = some K' ∧ TicksTo bg K K' ∧ Rounds num K' := by
  obtain ⟨K', hK', ht⟩ := doEvents_ticksTo f h.fakeSti h.count h.bg hnext
  refine ⟨K', ?_, ht, ?_, ?_, ?_, ?_, ?_⟩
  · simp only [schedStep, h.up, Bool.false_eq_true, if_false, hK']
  · rw [ht.down]
    exact h.up
  · rw [ht.fakeSti]
    exact h.fakeSti
  · rw [Sched.countInit, ht.termInit]
    exact h.count
  · rw [ht.bgTerm]
    exact (nextTerm_spec hnext).1
  · rw [ht.procActive]
    exact h.proc

theorem TicksTo.user_eq {num : Nat} (h : Rounds num K) (ht : TicksTo num K K') : K'.user = -1 :=
  Option.some.inj (ht.user.symm.trans h.proc)

/-- In every reachable state, a switch to a terminal that is not initialised and whose shell does
not start leaves it initialised, and within three ticks `do_events` selects it and `run_proc` loads
the directory of process -1. -/
theorem terminal_without_shell_is_scheduled {fs : Filesys} {pteAddr : Word} {es : List Event}
    {num : Nat} {f g : Frame} {shell : Option Word} {K K₁ K' : Kernel}
    (hrun : runFrom (kernelStep fs) (boot pteAddr) es = some K) (hup : K.down = false)
    (hinit : K.sched.termInit[num]? = some 0) (hopen : openTerm num f K = some K₁)
    (hfail : execute num shell g K₁ = some (.toCaller (-1), K')) (f₁ f₂ f₃ : Frame) :
    switchTerm num f shell g K = some K' ∧ K'.sched.termInit[num]? = some 1 ∧
      ∃ n ≤ 3, ∃ K'', runFrom schedStep K' ([.tick f₁, .tick f₂, .tick f₃].take n) = some K'' ∧
        K''.sched.bgTerm = num ∧ K''.sched.procActive[num]? = some (-1) ∧ K''.user = -1 := by
  have hok := kernelOk_of_run hrun
  have hhalf := openTerm_cases hopen
  cases (execute_toCaller hfail).1
  have hswitch : switchTerm num f shell g K = some K₁ := by
    rw [switchTerm_eq hinit hopen, hfail]
    rfl
  have hset := getElem?_of_store hhalf.init
  have hnum : K₁.sched.termInit[num]? = some 1 := by rw [hset, if_pos rfl]
  -- the terminal that was active before is another one that is initialised
  have hne : K.sched.activeTerm ≠ num := by
    rintro rfl
    cases hok.active.symm.trans hinit
  have hother : K₁.sched.termInit[K.sched.activeTerm]? = some 1 := by
    rw [hset, if_neg (Ne.symm hne)]
    exact hok.active
  have hok₁ : KernelOk K₁ := hok.opened hhalf.init hhalf.quiet.pcb hhalf.quiet.proc
    hhalf.quiet.procActive rfl hhalf.active
  obtain ⟨hcount, b₁, hb₁, hround⟩ := nextTerm_returns hok₁.inits hnum hother hne
  have hrounds : Rounds num K₁ := by
    refine ⟨hhalf.quiet.down.trans hup, hhalf.fakeSti, hcount, ?_, ?_⟩
    · rw [hhalf.bg]
      exact (Vector.getElem?_eq_some_iff.mp hnum).1
    · rw [hhalf.quiet.procActive]
      exact hok.unused num hinit
  refine ⟨hswitch, hnum, ?_⟩
  rw [← hhalf.bg] at hb₁
  obtain ⟨K₂, hK₂, ht₂, hr₂⟩ := hrounds.tick f₁ hb₁
  rw [← ht₂.bgTerm, ← ht₂.termInit] at hround
  rcases hround with hback | ⟨b₂, hb₂, hback⟩
  · obtain ⟨K₃, hK₃, ht₃, hr₃⟩ := hr₂.tick f₂ hback
    refine ⟨2, by decide, K₃, ?_, ht₃.bgTerm, hr₃.proc, ht₃.user_eq hr₂⟩
    exact (runFrom_cons hK₂).trans (runFrom_cons hK₃)
  · obtain ⟨K₃, hK₃, ht₃, hr₃⟩ := hr₂.tick f₂ hb₂
    rw [← ht₃.bgTerm, ← ht₃.termInit] at hback
    obtain ⟨K₄, hK₄, ht₄, hr₄⟩ := hr₃.tick f₃ hback
    refine ⟨3, by decide, K₄, ?_, ht₄.bgTerm, hr₄.proc, ht₄.user_eq hr₃⟩
    exact (runFrom_cons hK₂).trans ((runFrom_cons hK₃).trans (runFrom_cons hK₄))

/-- Terminal 1 is opened right after boot and its shell is not found. -/
theorem second_terminal_without_shell :
    ∃ K₁, openTerm 1 ⟨64#32, 40#32⟩ (boot 0x410000#32) = some K₁ ∧
      switchTerm 1 ⟨64#32, 40#32⟩ none ⟨96#32, 80#32⟩ (boot 0x410000#32) = some K₁ ∧
      K₁.sched.termInit[1]? = some 1 := by
  obtain ⟨K₁, hopen⟩ : ∃ K₁, openTerm 1 ⟨64#32, 40#32⟩ (boot 0x410000#32) = some K₁ := ⟨_, rfl⟩
  have hrun : runFrom (kernelStep ⟨fun _ => 0, 0, 0, 0⟩) (boot 0x410000#32) [] =
      some (boot 0x410000#32) := rfl
  have hfail : execute 1 none ⟨96#32, 80#32⟩ K₁ = some (.toCaller (-1), K₁) := rfl
  obtain ⟨hswitch, hinit, -⟩ := terminal_without_shell_is_scheduled hrun rfl rfl hopen hfail
    ⟨64#32, 40#32⟩ ⟨64#32, 40#32⟩ ⟨64#32, 40#32⟩
  exact ⟨K₁, hopen, hswitch, hinit⟩

/-- Without a shell file nothing starts at boot, and Alt-F2 marks terminal 1 as initialised; the
second tick after that runs process -1 in it. -/
theorem missing_shell_terminal_runs_no_process :
    (runFrom schedStep (boot 0x410000#32)
        [.execute none ⟨64#32, 40#32⟩, .altKey 0x3C ⟨64#32, 40#32⟩ none ⟨96#32, 80#32⟩]).map
          (fun K => K.sched.termInit[1]?) ≠ some (some 0) ∧
      (runFrom schedStep (boot 0x410000#32)
        [.execute none ⟨64#32, 40#32⟩, .altKey 0x3C ⟨64#32, 40#32⟩ none ⟨96#32, 80#32⟩,
          .tick ⟨64#32, 40#32⟩, .tick ⟨64#32, 40#32⟩]).map
          (fun K => (K.sched.bgTerm, K.sched.procActive[1]?, K.user)) =
          some (1, some (-1), -1) := by
  decide +kernel

end OreOS
