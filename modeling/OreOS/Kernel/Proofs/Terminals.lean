import OreOS.Kernel.Proofs.Defined

/-!
# Terminal numbers stay in range

`TermsOk` is what every index of the scheduler relies on: the active and the running terminal are
two of the three and both are initialised. A step from such a state is defined and leads to
another one exactly if it meets `KeepsTerms`. Ticks and `halt` always do. A key is accepted for
six terminals, of which three exist, and `new_process` makes the number of the new process the
running terminal.
-/

namespace OreOS
open Machine

variable {K K' : Kernel}

/-- The active and the running terminal exist and are initialised. -/
structure TermsOk (K : Kernel) : Prop where
  active_lt : K.sched.activeTerm < 3
  bg_lt : K.sched.bgTerm < 3
  active_init : K.sched.termInit[K.sched.activeTerm]? = some 1
  bg_init : K.sched.termInit[K.sched.bgTerm]? = some 1

theorem TermsOk.of_init (hact : K.sched.termInit[K.sched.activeTerm]? = some 1)
    (hbg : K.sched.termInit[K.sched.bgTerm]? = some 1) : TermsOk K where
  active_lt := (Vector.getElem?_eq_some_iff.mp hact).1
  bg_lt := (Vector.getElem?_eq_some_iff.mp hbg).1
  active_init := hact
  bg_init := hbg

/-- When an event keeps `TermsOk`. A program that is started has to get the number of an initialised
    terminal, and a key has to select one of the terminals that exist. -/
def KeepsTerms (K : Kernel) : SchedEvent → Prop
  | .tick _ => True
  | .halt _ => True
  | .execute prog _ => prog ≠ none → K.paging.freeSlot ≠ 7 →
      K.sched.termInit[K.paging.freeSlot]? = some 1
  | .altKey scancode _ shell _ => ∀ num < 6, scancode = 0x3B + num → num < 3 ∧
      (K.sched.termInit[num]? = some 0 → shell ≠ none → K.paging.freeSlot ≠ 7 →
        K.paging.freeSlot = num ∨ K.sched.termInit[K.paging.freeSlot]? = some 1)

theorem termsOk_boot (pteAddr : Word) : TermsOk (boot pteAddr) := TermsOk.of_init rfl rfl

theorem TermsOk.tick {f : Frame} (ht : TermsOk K) (h : doEvents f K = some K') : TermsOk K' := by
  cases doEvents_cases h with
  | idle => exact ht
  | next _ _ _ _ hbg _ _ _ _ hS _ _ _ _ =>
    apply TermsOk.of_init
    · rw [hS]
      exact ht.active_init
    · rw [hS]
      exact (nextTerm_spec hbg).2

/-- After a successful `execute` the running terminal is the slot. -/
theorem termsOk_started {term : Nat} {entry : Word} {f : Frame}
    (hact : K.sched.termInit[K.sched.activeTerm]? = some 1) (hs : Started term entry f K K') :
    TermsOk K' ↔ K.sched.termInit[K.paging.freeSlot]? = some 1 := by
  obtain ⟨act, -, hS⟩ := hs.sched
  constructor
  · intro ht
    have hbg := ht.bg_init
    rw [hS] at hbg
    exact hbg
  · intro hslot
    apply TermsOk.of_init
    · rw [hS]
      exact hact
    · rw [hS]
      exact hslot

theorem termsOk_execute {term : Nat} {prog : Option Word} {f : Frame} {x : Exit} (ht : TermsOk K)
    (h : execute term prog f K = some (x, K')) :
    TermsOk K' ↔ (prog ≠ none → K.paging.freeSlot ≠ 7 →
      K.sched.termInit[K.paging.freeSlot]? = some 1) := by
  cases execute_cases h with
  | noProgram hnone => exact ⟨fun _ hne => absurd hnone hne, fun _ => ht⟩
  | noSlot _ h7 => exact ⟨fun _ _ hne => absurd h7 hne, fun _ => ht⟩
  | started hprog hs =>
    rw [termsOk_started ht.active_init hs]
    exact ⟨fun h _ _ => h, fun h => h (by simp [hprog]) hs.slot⟩

theorem TermsOk.halt {f : Frame} {x : Exit} (ht : TermsOk K) (h : halt f K = some (x, K')) :
    TermsOk K' := by
  cases halt_cases h with
  | fault => exact ⟨ht.active_lt, ht.bg_lt, ht.active_init, ht.bg_init⟩
  | shutdown => exact ⟨ht.active_lt, ht.bg_lt, ht.active_init, ht.bg_init⟩
  | inactive => exact ⟨ht.active_lt, ht.bg_lt, ht.active_init, ht.bg_init⟩
  | noParent => exact ⟨ht.active_lt, ht.bg_lt, ht.active_init, ht.bg_init⟩
  | resumed _ _ _ _ _ hS =>
    obtain ⟨act, -, e, -, b, -, rfl⟩ := removeProcess_cases hS
    exact ⟨ht.active_lt, ht.bg_lt, ht.active_init, ht.bg_init⟩

/-- A switch that is defined ends in `TermsOk` unless a shell is started in a slot that is not the
    number of an initialised terminal. -/
theorem termsOk_switchTerm {num : Nat} {f g : Frame} {shell : Option Word} (hok : KernelOk K)
    (h : switchTerm num f shell g K = some K') :
    TermsOk K' ↔ (K.sched.termInit[num]? = some 0 → shell ≠ none → K.paging.freeSlot ≠ 7 →
      K.paging.freeSlot = num ∨ K.sched.termInit[K.paging.freeSlot]? = some 1) := by
  cases switchTerm_cases h with
  | shown hi hne _ _ _ _ _ _ _ hS _ _ _ _ =>
    have hone := (hok.inits num _ hi).resolve_left hne
    rw [hone] at hi
    constructor
    · intro _ hzero
      rw [hi] at hzero
      cases hzero
    · intro _
      apply TermsOk.of_init
      · rw [hS]
        exact hi
      · rw [hS]
        exact hi
  | opened hi _ _ _ hinit _ hK₁ _ hexec =>
    subst hK₁
    have hset := getElem?_of_store hinit
    have hnum := (hset num).trans (if_pos rfl)
    rw [termsOk_execute (TermsOk.of_init hnum hnum) hexec]
    simp only [changePte_proc, hset, Paging.freeSlot]
    constructor
    · intro h _ hshell h7
      have hslot := h hshell h7
      split at hslot
      next heq => exact .inl heq.symm
      next => exact .inr hslot
    · intro h hshell h7
      rcases h hi hshell h7 with heq | hslot
      · rw [if_pos heq.symm]
      · rw [hslot, ite_self]

theorem switchTerm_num_lt {num : Nat} {f g : Frame} {shell : Option Word}
    (h : switchTerm num f shell g K = some K') : num < 3 := by
  cases switchTerm_cases h with
  | shown hi => exact (Vector.getElem?_eq_some_iff.mp hi).1
  | opened hi => exact (Vector.getElem?_eq_some_iff.mp hi).1

/-- One event is defined and keeps `TermsOk` exactly if it meets `KeepsTerms`. -/
theorem schedStep_keepsTerms (hok : KernelOk K) (ht : TermsOk K) (e : SchedEvent) :
    (K.down = false → KeepsTerms K e) ↔ ∃ K', schedStep K e = some K' ∧ TermsOk K' := by
  cases hdown : K.down with
  | true =>
    simp only [schedStep, hdown, if_true]
    exact ⟨fun _ => ⟨K, rfl, ht⟩, fun _ h => by cases h⟩
  | false =>
    simp only [schedStep, hdown, forall_const, Bool.false_eq_true, if_false]
    cases e with
    | tick f =>
      obtain ⟨K', hK'⟩ := doEvents_defined (f := f) ht.bg_lt ht.active_init
      exact ⟨fun _ => ⟨K', hK', ht.tick hK'⟩, fun _ => trivial⟩
    | halt f =>
      obtain ⟨x, K', hK'⟩ := halt_defined hok ht.active_lt f
      exact ⟨fun _ => ⟨K', by simp [hK'], ht.halt hK'⟩, fun _ => trivial⟩
    | execute prog f =>
      obtain ⟨x, K', hK'⟩ := execute_defined hok.slot7 ht.active_lt (K.home K.user) prog f
      simp only [hK', Option.map_some, Option.some.injEq, exists_eq_left', KeepsTerms]
      exact (termsOk_execute ht hK').symm
    | altKey scancode f shell g =>
      simp only [altKey, KeepsTerms]
      split
      next hlow => exact ⟨fun _ => ⟨K, rfl, ht⟩, fun _ num _ heq => by omega⟩
      next hlow =>
        split
        next hlt =>
          constructor
          · intro h
            obtain ⟨hnum, hslot⟩ := h (scancode - 0x3B) hlt (by omega)
            obtain ⟨K', hK'⟩ := switchTerm_defined hok hnum ht.bg_lt f g shell
            exact ⟨K', hK', (termsOk_switchTerm hok hK').mpr hslot⟩
          · rintro ⟨K', hK', ht'⟩ num - heq
            obtain rfl : num = scancode - 0x3B := by omega
            exact ⟨switchTerm_num_lt hK', (termsOk_switchTerm hok hK').mp ht'⟩
        next hge => exact ⟨fun _ => ⟨K, rfl, ht⟩, fun _ num _ heq => by omega⟩

/-- From boot, all steps of a run are defined and all its states have `TermsOk`, exactly if every
    event meets `KeepsTerms`. -/
theorem terminals_in_range_iff (pteAddr : Word) (es : List SchedEvent) :
    Holds schedStep TermsOk (boot pteAddr) es ↔
      EachStep schedStep (fun K e => K.down = false → KeepsTerms K e) (boot pteAddr) es :=
  holds_iff_eachStep (fun _ _ _ hok hstep => hok.step hstep)
    (fun _ e hok ht => schedStep_keepsTerms hok ht e) (kernelOk_boot pteAddr) (termsOk_boot pteAddr)

/-- The shell that `boot` starts, and a program that it starts. -/
def shellRunsProgram : List SchedEvent :=
  [.execute (some 0x8048000#32) ⟨64#32, 40#32⟩, .execute (some 0x8048000#32) ⟨64#32, 40#32⟩]

/-- The program gets slot 1, so the running terminal becomes terminal 1, which is not
initialised. -/
theorem program_leaves_terminals :
    ¬ ∀ (pteAddr shell : Word) (f : Frame) (es : List SchedEvent),
      Holds schedStep TermsOk (boot pteAddr) (.execute (some shell) f :: es) := by
  intro hall
  obtain ⟨-, K₁, h₁, -, K₂, h₂, hok⟩ :=
    hall 0x410000#32 0x8048000#32 ⟨64#32, 40#32⟩ [.execute (some 0x8048000#32) ⟨64#32, 40#32⟩]
  have hrun : (runFrom schedStep (boot 0x410000#32) shellRunsProgram).map
      (fun K => K.sched.termInit[K.sched.bgTerm]?) = some (some 0) := by decide
  rw [shellRunsProgram, runFrom_cons h₁, runFrom_cons h₂] at hrun
  have hbg := hok.bg_init
  simp only [runFrom_nil, Option.map_some, Option.some.injEq] at hrun
  rw [hbg] at hrun
  cases hrun

end OreOS
