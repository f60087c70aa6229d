import OreOS.Kernel.Proofs.KeptScreens

/-!
# Screens of terminals

Every terminal has a reference screen that is fed what its processes output and what is typed while
it is active. Along a run the reference screens are carried beside the kernel. The video controller
shows page 0xB8 and the cursor it was sent last; `Displays` compares these with the reference screen
of the active terminal.
-/

namespace OreOS
open Machine TextScreen

/-- The reference screens after an event. -/
def refStep (K : Kernel) (R : Screens) (e : Event) : Screens :=
  if K.down then R
  else
    match e with
    | .output op => R.feed (K.home K.user) op
    | .echo op => R.feed K.sched.activeTerm op
    | _ => R

/-- The kernel with the reference screens beside it. -/
def screenStep (fs : Filesys) (s : Kernel × Screens) (e : Event) : Option (Kernel × Screens) :=
  (kernelStep fs s.1 e).map fun K => (K, refStep s.1 s.2 e)

/-- The controller shows the screen `s`. -/
structure Displays (K : Kernel) (s : TextScreen UInt8) : Prop where
  text : ∀ r < numRows, ∀ col < numCols,
    K.console.mem 0xb8 (2 * (numCols * r + col)) = s.cell r col
  cursor : K.console.crtc = numCols * s.y + s.x

/-- Ticks, Alt keys for the three terminals, `sys_vidmap`, output and echo. -/
def ScreenEvent : Event → Prop
  | .sched (.tick _) => True
  | .sched (.altKey scancode _ _ _) => scancode < 0x3B + 3 ∨ 0x3B + 6 ≤ scancode
  | .sched (.execute _ _) => False
  | .sched (.halt _) => False
  | .files _ _ => False
  | .vidmap _ _ => True
  | .output _ => True
  | .echo _ => True

/-- Output and keys while the active terminal runs; switches that save the old screen or need not,
    and that find the new one in a page of its own. A new shell gets the number of its terminal. -/
def KeepsScreens (K : Kernel) : Event → Prop
  | .output _ => K.sched.activeTerm = K.sched.bgTerm
  | .echo _ => K.sched.activeTerm = K.sched.bgTerm
  | .sched (.altKey scancode _ shell _) => ∀ num < 3, scancode = 0x3B + num →
      (K.sched.activeTerm = K.sched.bgTerm ∨ K.ScreenSaved) ∧
      (num = K.sched.activeTerm ∨ K.savedPage num ≠ 0xb8) ∧
      (K.sched.termInit[num]? = some 0 → shell.isSome = true ∧ K.paging.freeSlot = num)
  | _ => True

instance (K : Kernel) : (e : Event) → Decidable (KeepsScreens K e)
  | .output _ => inferInstanceAs (Decidable (_ = _))
  | .echo _ => inferInstanceAs (Decidable (_ = _))
  | .sched (.altKey _ _ _ _) => inferInstanceAs (Decidable (∀ num < 3, _ → _ ∧ _ ∧ (_ → _)))
  | .sched (.tick _) => isTrue trivial
  | .sched (.execute _ _) => isTrue trivial
  | .sched (.halt _) => isTrue trivial
  | .files _ _ => isTrue trivial
  | .vidmap _ _ => isTrue trivial

/-- Every terminal runs the process of its own number. -/
structure Placed (K : Kernel) : Prop where
  kernel : KernelOk K
  bg : K.Opened K.sched.bgTerm
  user : K.user = K.sched.bgTerm
  procs : ∀ t : Nat, K.Opened t → K.sched.procActive[t]? = some (t : Int)
  homes : ∀ t : Nat, K.Opened t → K.home t = t

variable {K K' : Kernel} {R : Screens}

/-- What the controller shows of the kept screens. -/
theorem Kept.displays (h : Kept K R) : Displays K (R K.sched.activeTerm) := by
  refine ⟨?_, h.crtc⟩
  intro r hr col hcol
  change r < 25 at hr
  change col < 80 at hcol
  have hcell : numCols * r + col < numRows * numCols := by
    show 80 * r + col < 25 * 80
    omega
  have hrow : (numCols * r + col) / numCols = r := by
    show (80 * r + col) / 80 = r
    omega
  have hcolumn : (numCols * r + col) % numCols = col := by
    show (80 * r + col) % 80 = col
    omega
  rw [h.text _ hcell, flatCell, hrow, hcolumn]

/-! ## Every event -/

theorem Placed.of_same (h : Placed K) (hsched : K'.sched = K.sched) (hpcb : K'.pcb = K.pcb)
    (hproc : K'.paging.proc = K.paging.proc) (hcr3 : K'.paging.cr3 = K.paging.cr3)
    (hhome : K'.home = K.home) : Placed K' := by
  have hopen : ∀ t, K'.Opened t ↔ K.Opened t := opened_congr (by rw [hsched])
  refine ⟨⟨?_, ?_, ?_, ?_, ?_⟩, ?_, ?_, ?_, ?_⟩
  · rw [hpcb]
    exact h.kernel.ids
  · rw [hproc]
    exact h.kernel.slot7
  · rw [hsched]
    exact h.kernel.inits
  · rw [hsched]
    exact h.kernel.active
  · rw [hsched]
    exact h.kernel.unused
  · rw [hopen, hsched]
    exact h.bg
  · rw [Kernel.user, hcr3, hsched]
    exact h.user
  · intro t ht
    rw [hsched]
    exact h.procs t ((hopen t).mp ht)
  · intro t ht
    rw [hhome]
    exact h.homes t ((hopen t).mp ht)

theorem screens_vidmap (hp : Placed K) (h : Kept K R) (addr : Word) (f : Frame) :
    ∃ K', callVidmap addr f K = some K' ∧ Placed K' ∧ Kept K' R := by
  unfold callVidmap
  split
  · exact ⟨_, rfl, hp.of_same rfl rfl rfl rfl rfl, h.stop⟩
  next a ha =>
    split
    next => exact ⟨_, rfl, hp.of_same rfl rfl rfl rfl rfl, h.stop⟩
    next P hP =>
      rcases sysVidmap_cases hP with ⟨-, -, rfl⟩ | ⟨-, -, -, rfl⟩
      · exact ⟨_, rfl, hp, h⟩
      · exact ⟨_, rfl, hp.of_same rfl rfl rfl rfl rfl, h.mapVideo _⟩

/-- Going to a terminal that has been opened. -/
theorem Placed.moved (h : Placed K) {t : Nat} {p : Int} (hok : KernelOk K') (ht : K.Opened t)
    (hp : K.sched.procActive[t]? = some p) (hinit : K'.sched.termInit = K.sched.termInit)
    (hact : K'.sched.procActive = K.sched.procActive) (hbg : K'.sched.bgTerm = t)
    (hcr3 : K'.paging.cr3 = p + 1) (hhome : K'.home = K.home) : Placed K' := by
  have hopen := opened_congr hinit
  obtain rfl : p = t := Option.some.inj (hp.symm.trans (h.procs t ht))
  refine ⟨hok, ?_, ?_, ?_, ?_⟩
  · rw [hopen, hbg]
    exact ht
  · rw [Kernel.user, hcr3, hbg]
    omega
  · intro u hu
    rw [hact]
    exact h.procs u ((hopen u).mp hu)
  · intro u hu
    rw [hhome]
    exact h.homes u ((hopen u).mp hu)

/-- The first process of a terminal whose number it gets. -/
theorem Placed.started {num : Nat} {entry : Word} {f : Frame} (hok : KernelOk K')
    (hs : Started num entry f K K') (hslot : K.paging.freeSlot = num)
    (hact : K.sched.activeTerm = num) (hnum : K.Opened num)
    (hprocs : ∀ t : Nat, t ≠ num → K.Opened t → K.sched.procActive[t]? = some (t : Int))
    (hhomes : ∀ t : Nat, t ≠ num → K.Opened t → K.home t = t) : Placed K' := by
  obtain ⟨act, hstore, hS⟩ := hs.sched
  rw [hslot, hact] at hstore
  have hopen : ∀ t, K'.Opened t ↔ K.Opened t := opened_congr (by rw [hS])
  refine ⟨hok, ?_, ?_, ?_, ?_⟩
  · rw [hopen, hS, hslot]
    exact hnum
  · have hbg : K'.sched.bgTerm = num := by rw [hS, hslot]
    rw [Kernel.user, hs.cr3, hbg, hslot]
    omega
  · intro t ht
    rw [hopen] at ht
    rw [hS]
    by_cases htn : t = num
    · subst htn
      simp only [getElem?_of_store hstore, if_true]
    · simp only [getElem?_of_store hstore, if_neg (Ne.symm htn)]
      exact hprocs t htn ht
  · intro t ht
    rw [hopen] at ht
    rw [hs.home, hslot]
    by_cases htn : t = num
    · rw [htn, Function.update_self]
    · have hne : (t : Int) ≠ num := by omega
      rw [Function.update_of_ne hne]
      exact hhomes t htn ht

/-- A switch that meets the condition. -/
theorem screens_switch (hp : Placed K) (h : Kept K R) {num : Nat} {f g : Frame}
    {shell : Option Word} (hleave : K.sched.activeTerm = K.sched.bgTerm ∨ K.ScreenSaved)
    (hpage : num = K.sched.activeTerm ∨ K.savedPage num ≠ 0xb8)
    (hslot : K.sched.termInit[num]? = some 0 → shell.isSome = true ∧ K.paging.freeSlot = num)
    (hok : KernelOk K') (hx : SwitchResult num f shell g K K') : Placed K' ∧ Kept K' R := by
  cases hx with
  | @shown i x y _ _ c p _ _ _ hi hne _ _ hc hxy hproc _ _ hS hcon hP _ hq =>
    have hnum : K.Opened num := by
      rw [(hp.kernel.inits _ _ hi).resolve_left hne] at hi
      exact hi
    obtain ⟨rfl, rfl⟩ : (R num).x = x ∧ (R num).y = y := by
      simpa using (h.cursors_saved hc hnum).symm.trans hxy
    constructor
    · exact hp.moved hok hnum hproc (by rw [hS]) hq.procActive (by rw [hS]) (by rw [hP]) hq.home
    · exact h.shown hleave hnum hpage hc (by rw [hS]) (by rw [hS]) (by rw [hS]) (by rw [hS]) hcon
        (by rw [hP])
  | @opened _ _ c init x console K₁ _ hzero _ _ hc hinit hclear hK₁ hq hexec =>
    obtain ⟨hsome, hfree⟩ := hslot hzero
    have hset := getElem?_of_store hinit
    have hkept : Kept K₁ R := by
      subst hK₁
      exact h.opened hleave hzero hc hinit hclear rfl rfl rfl rfl rfl
    have hopen {t : Nat} (htn : t ≠ num) (ht : K₁.Opened t) : K.Opened t := by
      rw [Kernel.Opened, hK₁] at ht
      simp only [hset, if_neg (Ne.symm htn)] at ht
      exact ht
    have hfree₁ : K₁.paging.freeSlot = num := by
      rw [Paging.freeSlot, hq.proc]
      exact hfree
    have hact₁ : K₁.sched.activeTerm = num := by rw [hK₁]
    have hbg₁ : K₁.sched.bgTerm = num := by rw [hK₁]
    cases execute_cases hexec with
    | noProgram hnone =>
      rw [hnone] at hsome
      cases hsome
    | noSlot _ h7 =>
      have hlt : num < 3 := (Vector.getElem?_eq_some_iff.mp hzero).1
      omega
    | started _ hs =>
      refine ⟨Placed.started hok hs hfree₁ hact₁ (hact₁ ▸ hkept.active) ?_
        ?_, hkept.started hs (hfree₁.trans hact₁.symm) (hbg₁.trans hact₁.symm)⟩
      · intro t htn ht
        rw [hq.procActive]
        exact hp.procs t (hopen htn ht)
      · intro t htn ht
        rw [hq.home]
        exact hp.homes t (hopen htn ht)

theorem screens_tick (hp : Placed K) (h : Kept K R) (hup : K.down = false) (f : Frame) :
    ∃ K', schedStep K (.tick f) = some K' ∧ Placed K' ∧ Kept K' R := by
  obtain ⟨K', hK'⟩ := doEvents_defined (f := f) hp.bg.lt hp.bg
  have hstep : schedStep K (.tick f) = some K' := by
    simp only [schedStep, hup, Bool.false_eq_true, if_false, hK']
  have hok := hp.kernel.step hstep
  refine ⟨K', hstep, ?_, h.tick (doEvents_cases hK')⟩
  cases doEvents_cases hK' with
  | idle => exact hp
  | next _ _ _ _ hbg _ hproc _ _ hS _ hP _ hq =>
    exact hp.moved hok (nextTerm_spec hbg).2 hproc (by rw [hS]) hq.procActive (by rw [hS])
      (by rw [hP]) hq.home

/-- Keys for the three terminals are defined. -/
theorem altKey_defined (hok : KernelOk K) (hbg : K.sched.bgTerm < 3) {scancode : Nat}
    (hkey : scancode < 0x3B + 3 ∨ 0x3B + 6 ≤ scancode) (f g : Frame) (shell : Option Word) :
    ∃ K', altKey scancode f shell g K = some K' := by
  unfold altKey
  split
  · exact ⟨K, rfl⟩
  split
  next hge hlt =>
    have hnum : scancode - 0x3B < 3 := by omega
    exact switchTerm_defined hok hnum hbg f g shell
  next => exact ⟨K, rfl⟩

theorem screens_altKey (hp : Placed K) (h : Kept K R) (hup : K.down = false) {scancode : Nat}
    {f g : Frame} {shell : Option Word} (hkey : scancode < 0x3B + 3 ∨ 0x3B + 6 ≤ scancode)
    (hkeep : KeepsScreens K (.sched (.altKey scancode f shell g))) :
    ∃ K', schedStep K (.altKey scancode f shell g) = some K' ∧ Placed K' ∧ Kept K' R := by
  obtain ⟨K', hK'⟩ := altKey_defined hp.kernel hp.bg.lt hkey f g shell
  have hstep : schedStep K (.altKey scancode f shell g) = some K' := by
    simp only [schedStep, hup, Bool.false_eq_true, if_false, hK']
  have hok := hp.kernel.step hstep
  refine ⟨K', hstep, ?_⟩
  cases schedStep_cases hstep with
  | off => exact ⟨hp, h⟩
  | ignored => exact ⟨hp, h⟩
  | @switched num _ _ _ _ _ hnum hx =>
    have hlt : num < 3 := by omega
    obtain ⟨hleave, hpage, hslot⟩ := hkeep num hlt rfl
    exact screens_switch hp h hleave hpage hslot hok hx

/-- One event. -/
theorem screens_step (fs : Filesys) (hp : Placed K) (h : Kept K R) {e : Event} (he : ScreenEvent e)
    (hc : K.down = false → KeepsScreens K e) :
    ∃ K', kernelStep fs K e = some K' ∧ Placed K' ∧ Kept K' (refStep K R e) := by
  unfold kernelStep refStep
  by_cases hdown : K.down = true
  · simp only [hdown, if_true]
    exact ⟨K, rfl, hp, h⟩
  have hup : K.down = false := by simpa using hdown
  simp only [hup, Bool.false_eq_true, if_false]
  have hkeep := hc hup
  cases e with
  | sched e =>
    cases e with
    | tick f => exact screens_tick hp h hup f
    | altKey scancode f shell g => exact screens_altKey hp h hup he hkeep
    | execute prog f => exact he.elim
    | halt f => exact he.elim
  | files c f => exact he.elim
  | vidmap addr f => exact screens_vidmap hp h addr f
  | output op =>
    obtain ⟨K', hK', hkept, c, rfl⟩ := h.screenOp hkeep op
    -- the running process was started in the terminal that runs, which is the active one
    have hhome : K.home K.user = K.sched.activeTerm := by
      rw [hp.user, hp.homes _ hp.bg]
      exact hkeep.symm
    rw [hhome]
    exact ⟨_, hK', hp.of_same rfl rfl rfl rfl rfl, hkept⟩
  | echo op =>
    obtain ⟨K', hK', hkept, c, rfl⟩ := h.screenOp hkeep op
    exact ⟨_, hK', hp.of_same rfl rfl rfl rfl rfl, hkept⟩

/-! ## Runs -/

/-- The kernel after it has executed the first shell. -/
theorem screens_start {pteAddr entry : Word} {f : Frame} {x : Exit}
    (hx : execute 0 (some entry) f (boot pteAddr) = some (x, K)) :
    Placed K ∧ Kept K fun _ => blankScreen 32 := by
  have hfree : (boot pteAddr).paging.freeSlot = 0 := rfl
  have hkept := kept_boot pteAddr
  cases execute_cases hx with
  | noProgram hnone => cases hnone
  | noSlot _ h7 => cases hfree.symm.trans h7
  | started _ hs =>
    have hok := (kernelOk_boot pteAddr).execute hx
    refine ⟨Placed.started hok hs hfree rfl rfl ?_ ?_,
      hkept.started hs rfl rfl⟩
    · intro t ht hopen
      exact absurd (opened_boot hopen) ht
    · intro t ht hopen
      exact absurd (opened_boot hopen) ht

/-- Along a run whose events meet the condition, the controller always shows the reference screen of
    the active terminal. -/
theorem active_screen_displayed {fs : Filesys} {pteAddr entry : Word} {f : Frame} {x : Exit}
    {es : List Event} (hstart : execute 0 (some entry) f (boot pteAddr) = some (x, K))
    (hes : ∀ e ∈ es, ScreenEvent e)
    (hkeep : EachStep (screenStep fs) (fun s e => s.1.down = false → KeepsScreens s.1 e)
      (K, fun _ => blankScreen 32) es) :
    Holds (screenStep fs) (fun s => Displays s.1 (s.2 s.1.sched.activeTerm))
      (K, fun _ => blankScreen 32) es := by
  have hstep : ∀ (s : Kernel × Screens) (e : Event), Placed s.1 ∧ Kept s.1 s.2 →
      (ScreenEvent e ∧ (s.1.down = false → KeepsScreens s.1 e)) →
      ∃ t, screenStep fs s e = some t ∧ Placed t.1 ∧ Kept t.1 t.2 := by
    intro s e hs hc
    obtain ⟨K', hK', hs'⟩ := screens_step fs hs.1 hs.2 hc.1 hc.2
    exact ⟨_, Option.map_eq_some_iff.mpr ⟨K', hK', rfl⟩, hs'⟩
  exact holds_of_inv (fun _ hs => hs.2.displays) hstep (screens_start hstart) (hkeep.and_mem hes)

/-- The first shell writes `h`, a second terminal is opened and writes `x`, both run for a while,
    and the first terminal is shown again when `i` is typed. -/
def twoTerminals : List Event :=
  [.output (.putc 104), .sched (.altKey 0x3C ⟨64#32, 40#32⟩ (some 0x8048000#32) ⟨64#32, 40#32⟩),
    .output (.putc 120), .sched (.tick ⟨64#32, 40#32⟩), .sched (.tick ⟨64#32, 40#32⟩),
    .sched (.altKey 0x3B ⟨64#32, 40#32⟩ none ⟨64#32, 40#32⟩), .echo (.putc 105)]

/-- The kernel with its first shell, and without files. -/
def firstShell : Kernel :=
  ((execute 0 (some 0x8048000#32) ⟨64#32, 40#32⟩ (boot 0x410000#32)).map Prod.snd).getD
    (boot 0x410000#32)

/-- A file system without entries. -/
def noFiles : Filesys := ⟨fun _ => 0, 0, 0, 0⟩

theorem firstShell_executed : execute 0 (some 0x8048000#32) ⟨64#32, 40#32⟩ (boot 0x410000#32) =
    some (.toProgram, firstShell) := rfl

theorem active_screen_displayed_twoTerminals :
    Holds (screenStep noFiles) (fun s => Displays s.1 (s.2 s.1.sched.activeTerm))
      (firstShell, fun _ => blankScreen 32) twoTerminals :=
  active_screen_displayed firstShell_executed (by simp [twoTerminals, ScreenEvent]) (by decide)

/-- Terminal 1 is opened, terminal 0 runs again and writes `A`, and terminal 0 is shown. -/
def backgroundOutput : List Event :=
  [.sched (.altKey 0x3C ⟨64#32, 40#32⟩ (some 0x8048000#32) ⟨64#32, 40#32⟩),
    .sched (.tick ⟨64#32, 40#32⟩), .output (.putc 65),
    .sched (.altKey 0x3B ⟨64#32, 40#32⟩ none ⟨64#32, 40#32⟩)]

/-- The `A` went to page 0 while the screen of terminal 0 was in page 1. -/
theorem background_output_lost :
    ¬ ∀ (fs : Filesys) (pteAddr entry : Word) (f : Frame) (x : Exit) (K : Kernel) (es : List Event),
      execute 0 (some entry) f (boot pteAddr) = some (x, K) → (∀ e ∈ es, ScreenEvent e) →
        Holds (screenStep fs) (fun s => Displays s.1 (s.2 s.1.sched.activeTerm))
          (K, fun _ => blankScreen 32) es := by
  intro hall
  have hholds := hall noFiles 0x410000#32 0x8048000#32 ⟨64#32, 40#32⟩ .toProgram firstShell
    backgroundOutput firstShell_executed (by simp [backgroundOutput, ScreenEvent])
  have hrun : (runFrom (screenStep noFiles) (firstShell, fun _ => blankScreen 32)
      backgroundOutput).map (fun s => (s.1.sched.activeTerm, s.1.console.mem 0xb8 0,
        (s.2 0).cell 0 0)) = some (0, 32, 65) := by decide
  obtain ⟨⟨K, R⟩, hK, heq⟩ := Option.map_eq_some_iff.mp hrun
  simp only [Prod.mk.injEq] at heq
  obtain ⟨hactive, hshown, hwritten⟩ := heq
  have hcell := (hholds.last hK).text 0 (by decide) 0 (by decide)
  rw [hactive] at hcell
  cases hshown.symm.trans (hcell.trans hwritten)

end OreOS
