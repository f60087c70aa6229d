import OreOS.Console.Proofs.Refines
import OreOS.Kernel.Proofs.Defined

/-!
# The screens that the kernel keeps

The kernel keeps the screen of a terminal in three places: `scr_buf`, the page `_4KB + t * _4KB`
while the terminal is not active, and `cursor_pos` while it does not run. `Kept` says that they
agree with given text screens. The lemmas here say what each operation does to it.

It fails once a terminal in the background writes, a screen is left unsaved, or `sys_vidmap` has put
the video page in the place where the screen of terminal 0 is saved.
-/

namespace OreOS
open Machine TextScreen

/-- A text screen for each terminal. -/
abbrev Screens : Type := Nat → TextScreen UInt8

/-- `op` on the screen of terminal `t`. -/
def Screens.feed (R : Screens) (t : Nat) (op : ScreenOp) : Screens :=
  Function.update R t (feedText (R t) op)

/-- The page that the screen of the active terminal is saved to holds what is displayed. -/
def Kernel.ScreenSaved (K : Kernel) : Prop :=
  ∀ i < numRows * numCols,
    K.console.mem (K.savedPage K.sched.activeTerm) (2 * i) = K.console.mem 0xb8 (2 * i)

instance (K : Kernel) : Decidable K.ScreenSaved :=
  inferInstanceAs (Decidable (∀ i < numRows * numCols, _ = _))

/-- Terminal `t` has been opened. -/
def Kernel.Opened (K : Kernel) (t : Nat) : Prop := K.sched.termInit[t]? = some 1

/-- The screens the kernel keeps are the reference screens. -/
structure Kept (K : Kernel) (R : Screens) : Prop where
  active : K.Opened K.sched.activeTerm
  saved : ∀ t < 3, K.savedPage t = t + 1 ∨ K.savedPage t = 0xb8
  video : K.sched.activeTerm = K.sched.bgTerm → K.videoPage = 0xb8
  text : PageText 0xb8 K.console (R K.sched.activeTerm)
  crtc : K.console.crtc = flatCursor (R K.sched.activeTerm)
  rows : ∀ t, K.Opened t → RowText t K.console (R t)
  pages : ∀ t, K.Opened t → t ≠ K.sched.activeTerm → K.savedPage t ≠ 0xb8 →
    PageText (K.savedPage t) K.console (R t)
  x : K.console.screenX = (R K.sched.bgTerm).x
  y : K.console.screenY = (R K.sched.bgTerm).y
  cursors : ∀ t, K.Opened t → t ≠ K.sched.bgTerm →
    K.sched.cursorPos[t]? = some ((R t).x, (R t).y)
  range : ∀ t, InRange numRows numCols (R t)
  fresh : ∀ t : Nat, K.sched.termInit[t]? = some 0 → R t = blankScreen 32

variable {K K' : Kernel} {R : Screens}

theorem opened_congr (h : K'.sched.termInit = K.sched.termInit) (t : Nat) :
    K'.Opened t ↔ K.Opened t := by
  rw [Kernel.Opened, h, Kernel.Opened]

theorem Kernel.Opened.lt {t : Nat} (h : K.Opened t) : t < 3 := (Vector.getElem?_eq_some_iff.mp h).1

/-- `Kept` looks at the terminals, the console and the two entries of the page table only. -/
theorem Kept.congr (h : Kept K R) (hinit : K'.sched.termInit = K.sched.termInit)
    (hact : K'.sched.activeTerm = K.sched.activeTerm) (hbg : K'.sched.bgTerm = K.sched.bgTerm)
    (hcur : K'.sched.cursorPos = K.sched.cursorPos) (hcon : K'.console = K.console)
    (hpage : ∀ t < 3, K'.savedPage t = K.savedPage t)
    (hvideo : K.videoPage = 0xb8 → K'.videoPage = 0xb8) : Kept K' R := by
  have hopen := opened_congr hinit
  refine ⟨?_, ?_, ?_, ?_, ?_, ?_, ?_, ?_, ?_, ?_, h.range, ?_⟩
  · rw [hopen, hact]
    exact h.active
  · intro t ht
    rw [hpage t ht]
    exact h.saved t ht
  · rw [hact, hbg]
    exact fun hab => hvideo (h.video hab)
  · rw [hcon, hact]
    exact h.text
  · rw [hcon, hact]
    exact h.crtc
  · intro t ht
    rw [hcon]
    exact h.rows t ((hopen t).mp ht)
  · intro t ht hne hsave
    rw [hopen] at ht
    rw [hpage t ht.lt] at hsave ⊢
    rw [hcon]
    exact h.pages t ht (hact ▸ hne) hsave
  · rw [hcon, hbg]
    exact h.x
  · rw [hcon, hbg]
    exact h.y
  · intro t ht hne
    rw [hcur]
    exact h.cursors t ((hopen t).mp ht) (hbg ▸ hne)
  · rw [hinit]
    exact h.fresh

theorem savedPage_eq {t : Nat} (h : K'.paging.pte (t + 1) = K.paging.pte (t + 1)) :
    K'.savedPage t = K.savedPage t := by
  rw [Kernel.savedPage, h, Kernel.savedPage]

/-- Mapping the console does not move the saved screens. -/
theorem savedPage_of_pte {t value : Nat} (ht : t < 3)
    (h : K'.paging.pte = (changePte 0xb8 value K.paging).pte) : K'.savedPage t = K.savedPage t := by
  have hne : t + 1 ≠ 0xb8 := by omega
  apply savedPage_eq
  rw [h]
  exact Function.update_of_ne hne ..

theorem videoPage_of_pte (h : K'.paging.pte = (changePte 0xb8 0xb8 K.paging).pte) :
    K'.videoPage = 0xb8 := by
  rw [Kernel.videoPage, h]
  exact mapConsole_videoPage K

/-- A saved screen is not in the page of the active terminal. -/
theorem Kept.savedPage_ne (h : Kept K R) {t : Nat} (ht : K.Opened t)
    (hne : t ≠ K.sched.activeTerm) (hsave : K.savedPage t ≠ 0xb8) :
    K.savedPage t ≠ K.savedPage K.sched.activeTerm := by
  have hpage := (h.saved t ht.lt).resolve_right hsave
  rcases h.saved _ h.active.lt with hactive | hactive
  · omega
  · rw [hactive]
    exact hsave

/-! ## Output and echo -/

/-- A screen function while the active terminal runs. -/
theorem Kept.screenOp (h : Kept K R) (hab : K.sched.activeTerm = K.sched.bgTerm) (op : ScreenOp) :
    ∃ K', screenOp op K = some K' ∧ Kept K' (R.feed K.sched.activeTerm op) ∧
      (∃ c, K' = { K with console := c }) := by
  have hshow : Shows K.sched.bgTerm K.videoPage K.console (R K.sched.activeTerm) := by
    rw [h.video hab]
    refine ⟨texts_iff.mpr ⟨h.text, hab ▸ h.rows _ h.active⟩, ?_, ?_, h.range _⟩
    · rw [h.x, hab]
    · rw [h.y, hab]
  obtain ⟨c, hc, hshow', hcrtc, honly⟩ := run_refines hshow op
  refine ⟨{ K with console := c }, ?_, ?_, c, rfl⟩
  · simp only [OreOS.screenOp, hc, Option.bind_eq_bind, Option.bind_some, Option.pure_def]
  have hpage := h.video hab
  rw [hpage] at hshow' honly
  have hself : R.feed K.sched.activeTerm op K.sched.activeTerm =
      feedText (R K.sched.activeTerm) op := Function.update_self ..
  have hother {t : Nat} (ht : t ≠ K.sched.activeTerm) : R.feed K.sched.activeTerm op t = R t :=
    Function.update_of_ne ht ..
  obtain ⟨htext, hrow⟩ := texts_iff.mp hshow'.text
  refine ⟨h.active, h.saved, h.video, ?_, ?_, ?_, ?_, ?_, ?_,
    ?_, ?_, ?_⟩
  · show PageText 0xb8 c (R.feed K.sched.activeTerm op K.sched.activeTerm)
    rw [hself]
    exact htext
  · show c.crtc = flatCursor (R.feed K.sched.activeTerm op K.sched.activeTerm)
    rw [hself]
    exact hcrtc
  · intro t ht
    by_cases hta : t = K.sched.activeTerm
    · subst hta
      rw [hself]
      exact hab ▸ hrow
    · obtain ⟨buf, hbuf, hcells⟩ := h.rows t ht
      rw [hother hta]
      refine ⟨buf, ?_, hcells⟩
      rw [honly.buf t (hab ▸ hta)]
      exact hbuf
  · intro t ht hne hsave
    change K.savedPage t ≠ 0xb8 at hsave
    rw [hother hne]
    intro i hi
    show c.mem (K.savedPage t) (2 * i) = flatCell (R t) i
    rw [honly.mem _ hsave]
    exact h.pages t ht hne hsave i hi
  · show c.screenX = (R.feed K.sched.activeTerm op K.sched.bgTerm).x
    rw [← hab, hself]
    exact hshow'.x
  · show c.screenY = (R.feed K.sched.activeTerm op K.sched.bgTerm).y
    rw [← hab, hself]
    exact hshow'.y
  · intro t ht hne
    rw [hother (hab ▸ hne)]
    exact h.cursors t ht hne
  · intro t
    by_cases hta : t = K.sched.activeTerm
    · subst hta
      rw [hself]
      exact hshow'.range
    · rw [hother hta]
      exact h.range t
  · intro t ht
    have hta : t ≠ K.sched.activeTerm := by
      rintro rfl
      exact absurd (h.active.symm.trans ht) (by simp)
    rw [hother hta]
    exact h.fresh t ht

/-! ## Ticks -/

/-- `cursor_pos` after the cursor of the running terminal has been saved in it. -/
theorem Kept.cursors_saved (h : Kept K R) {cur : Vector (Nat × Nat) 6}
    (hc : store K.sched.cursorPos K.sched.bgTerm (K.console.screenX, K.console.screenY) = some cur)
    {t : Nat} (ht : K.Opened t) : cur[t]? = some ((R t).x, (R t).y) := by
  rw [getElem?_of_store hc]
  by_cases hbg : K.sched.bgTerm = t
  · rw [if_pos hbg, h.x, h.y, hbg]
  · rw [if_neg hbg]
    exact h.cursors t ht (Ne.symm hbg)

theorem Kept.tick {f : Frame} (h : Kept K R) (hx : TickResult f K K') : Kept K' R := by
  cases hx with
  | idle => exact h
  | @next bg x y _ _ c p _ _ _ _ _ _ hc hbg hxy _ _ _ hS hcon hP _ _ =>
    have hopen : K.Opened bg := (nextTerm_spec hbg).2
    have hcursor := h.cursors_saved hc hopen
    obtain ⟨rfl, rfl⟩ : (R bg).x = x ∧ (R bg).y = y := by
      simpa using hcursor.symm.trans hxy
    have hpage {t : Nat} (ht : t < 3) : K'.savedPage t = K.savedPage t :=
      savedPage_of_pte ht (by rw [hP])
    have hmem : K'.console.mem = K.console.mem := by
      rw [hcon]
      split <;> rfl
    have hrows : K'.console.scrBuf = K.console.scrBuf := by
      rw [hcon]
      split <;> rfl
    have hact : K'.sched.activeTerm = K.sched.activeTerm := by rw [hS]
    have hopen' : ∀ t, K'.Opened t ↔ K.Opened t := opened_congr (by rw [hS])
    refine ⟨?_, ?_, ?_, ?_, ?_, ?_, ?_, ?_,
      ?_, ?_, h.range, ?_⟩
    · rw [hopen', hact]
      exact h.active
    · intro t ht
      rw [hpage ht]
      exact h.saved t ht
    · intro hab
      rw [hS] at hab
      apply videoPage_of_pte (K := K)
      rw [hP, if_pos hab]
    · intro i hi
      rw [hmem, hact]
      exact h.text i hi
    · rw [hcon, hact]
      by_cases hab : K.sched.activeTerm = bg
      · rw [if_pos hab, changeCoord_crtc (h.range bg), hab]
      · rw [if_neg hab]
        exact h.crtc
    · intro t ht
      obtain ⟨buf, hbuf, hcells⟩ := h.rows t ((hopen' t).mp ht)
      exact ⟨buf, by rw [hrows]; exact hbuf, hcells⟩
    · intro t ht hne hsave
      rw [hopen'] at ht
      rw [hpage ht.lt] at hsave ⊢
      intro i hi
      rw [hmem]
      exact h.pages t ht (hact ▸ hne) hsave i hi
    · rw [hcon, hS]
      split <;> rfl
    · rw [hcon, hS]
      split <;> rfl
    · intro t ht _
      rw [hS]
      exact h.cursors_saved hc ((hopen' t).mp ht)
    · rw [hS]
      exact h.fresh

/-! ## Switches -/

theorem leaveScreen_savedPage {t : Nat} (ht : t < 3) (K : Kernel) :
    K.leaveScreen.savedPage t = K.savedPage t := by
  rw [Kernel.leaveScreen, mapConsole_savedPage 0xb8 ht, keepScreen_eq]
  rfl

theorem leaveScreen_scrBuf (K : Kernel) : K.leaveScreen.console.scrBuf = K.console.scrBuf := by
  show K.keepScreen.console.scrBuf = K.console.scrBuf
  rw [keepScreen_console]
  split <;> rfl

/-- After the old screen has been saved, every saved screen is the one of its terminal. -/
theorem Kept.left (h : Kept K R) (hleave : K.sched.activeTerm = K.sched.bgTerm ∨ K.ScreenSaved)
    {t : Nat} (ht : K.Opened t) (hsave : t = K.sched.activeTerm ∨ K.savedPage t ≠ 0xb8) :
    PageText (K.savedPage t) K.leaveScreen.console (R t) := by
  intro i hi
  show K.keepScreen.console.mem (K.savedPage t) (2 * i) = flatCell (R t) i
  rw [keepScreen_console]
  by_cases hab : K.sched.activeTerm = K.sched.bgTerm
  · rw [if_pos hab, h.video hab]
    by_cases hta : t = K.sched.activeTerm
    · subst hta
      simp only [Console.copyPage, Function.update_self]
      exact h.text i hi
    · have hother := hsave.resolve_left hta
      have hne := h.savedPage_ne ht hta hother
      simp only [Console.copyPage, Function.update_of_ne hne]
      exact h.pages t ht hta hother i hi
  · rw [if_neg hab]
    by_cases hta : t = K.sched.activeTerm
    · subst hta
      rw [hleave.resolve_left hab i hi]
      exact h.text i hi
    · exact h.pages t ht hta (hsave.resolve_left hta) i hi

/-- A switch to terminal `num` that brings its screen to the video page. -/
theorem Kept.switched (h : Kept K R) {num : Nat} {cur : Vector (Nat × Nat) 6}
    (hleave : K.sched.activeTerm = K.sched.bgTerm ∨ K.ScreenSaved)
    (hc : store K.sched.cursorPos K.sched.bgTerm (K.console.screenX, K.console.screenY) = some cur)
    (hnum : K'.Opened num) (hact : K'.sched.activeTerm = num) (hbg : K'.sched.bgTerm = num)
    (hcur : K'.sched.cursorPos = cur) (hopen : ∀ t, t ≠ num → K'.Opened t → K.Opened t)
    (hfresh : ∀ t : Nat, K'.sched.termInit[t]? = some 0 → K.sched.termInit[t]? = some 0)
    (hpte : K'.paging.pte = (changePte 0xb8 0xb8 K.paging).pte)
    (hmem : ∀ p, p ≠ 0xb8 → K'.console.mem p = K.leaveScreen.console.mem p)
    (hrows : ∀ t : Nat, t ≠ num → K'.console.scrBuf[t]? = K.console.scrBuf[t]?)
    (hshow : Shows num 0xb8 K'.console (R num)) (hcrtc : K'.console.crtc = flatCursor (R num)) :
    Kept K' R := by
  obtain ⟨htext, hrow⟩ := texts_iff.mp hshow.text
  have hpage {t : Nat} (ht : t < 3) : K'.savedPage t = K.savedPage t := savedPage_of_pte ht hpte
  refine ⟨?_, ?_, fun _ => videoPage_of_pte hpte, ?_, ?_, ?_,
    ?_, ?_, ?_, ?_, h.range, fun t ht =>
    h.fresh t (hfresh t ht)⟩
  · rw [hact]
    exact hnum
  · intro t ht
    rw [hpage ht]
    exact h.saved t ht
  · rw [hact]
    exact htext
  · rw [hact]
    exact hcrtc
  · intro t ht
    by_cases htn : t = num
    · rw [htn]
      exact hrow
    · obtain ⟨buf, hbuf, hcells⟩ := h.rows t (hopen t htn ht)
      exact ⟨buf, by rw [hrows t htn]; exact hbuf, hcells⟩
  · intro t ht hne hsave
    rw [hact] at hne
    rw [hpage ht.lt] at hsave ⊢
    intro i hi
    rw [hmem _ hsave]
    exact h.left hleave (hopen t hne ht) (.inr hsave) i hi
  · rw [hbg]
    exact hshow.x
  · rw [hbg]
    exact hshow.y
  · intro t ht hne
    rw [hcur]
    rw [hbg] at hne
    exact h.cursors_saved hc (hopen t hne ht)

/-- The first process of a terminal whose number it gets. -/
theorem Kept.started (h : Kept K R) {term : Nat} {entry : Word} {f : Frame}
    (hs : Started term entry f K K') (hslot : K.paging.freeSlot = K.sched.activeTerm)
    (hbg : K.sched.bgTerm = K.sched.activeTerm) : Kept K' R := by
  obtain ⟨act, -, hS⟩ := hs.sched
  have hact : K'.sched.activeTerm = K.sched.activeTerm := by rw [hS]
  have hbg' : K'.sched.bgTerm = K.sched.bgTerm := by rw [hS, hbg, ← hslot]
  rcases hs.screen with ⟨hpte, hcon⟩ | ⟨hpte, hcon⟩
  · refine h.congr (by rw [hS]) hact hbg' (by rw [hS]) hcon (fun t _ => ?_) fun hvideo => ?_
    · exact savedPage_eq (by rw [hpte])
    · rw [Kernel.videoPage, hpte]
      exact hvideo
  · -- the screen is saved once more, to a page that is not displayed or is the displayed one
    have hmid : Kept { K with console := K'.console } R := by
      rw [hcon, if_pos hslot.symm]
      have hself : (K.console.copyPage (K.savedPage K.sched.activeTerm) 0xb8).mem 0xb8 =
          K.console.mem 0xb8 := by
        by_cases hpage : 0xb8 = K.savedPage K.sched.activeTerm
        · simp only [Console.copyPage, ← hpage, Function.update_self]
        · simp only [Console.copyPage, Function.update_of_ne hpage]
      refine ⟨h.active, h.saved, h.video, ?_, h.crtc, h.rows, ?_, h.x, h.y,
        h.cursors, h.range, h.fresh⟩
      · intro i hi
        show (K.console.copyPage (K.savedPage K.sched.activeTerm) 0xb8).mem 0xb8 (2 * i) = _
        rw [hself]
        exact h.text i hi
      · intro t ht hne hsave
        change K.savedPage t ≠ 0xb8 at hsave
        change K.Opened t at ht
        have hne' := h.savedPage_ne ht hne hsave
        intro i hi
        show (K.console.copyPage (K.savedPage K.sched.activeTerm) 0xb8).mem (K.savedPage t)
          (2 * i) = _
        simp only [Console.copyPage, Function.update_of_ne hne']
        exact h.pages t ht hne hsave i hi
    refine hmid.congr (by rw [hS]) hact hbg' (by rw [hS]) rfl (fun t ht => ?_) fun _ => ?_
    · exact savedPage_of_pte (K := K) ht hpte
    · exact videoPage_of_pte (K := K) hpte

theorem Kept.shown (h : Kept K R) {num : Nat} {cur : Vector (Nat × Nat) 6}
    (hleave : K.sched.activeTerm = K.sched.bgTerm ∨ K.ScreenSaved) (hnum : K.Opened num)
    (hpage : num = K.sched.activeTerm ∨ K.savedPage num ≠ 0xb8)
    (hc : store K.sched.cursorPos K.sched.bgTerm (K.console.screenX, K.console.screenY) = some cur)
    (hinit : K'.sched.termInit = K.sched.termInit) (hact : K'.sched.activeTerm = num)
    (hbg : K'.sched.bgTerm = num) (hcur : K'.sched.cursorPos = cur)
    (hcon : K'.console = (K.leaveScreen.restoreScreen num).console.changeCoord (R num).x (R num).y)
    (hpte : K'.paging.pte = (changePte 0xb8 0xb8 K.paging).pte) : Kept K' R := by
  have hmem : K'.console.mem = Function.update K.leaveScreen.console.mem 0xb8
      (K.leaveScreen.console.mem (K.savedPage num)) := by
    have hvideo : K.leaveScreen.videoPage = 0xb8 := mapConsole_videoPage _
    rw [hcon, ← leaveScreen_savedPage hnum.lt]
    simp only [Console.changeCoord, Kernel.restoreScreen, Console.copyPage, hvideo]
  have hrows : K'.console.scrBuf = K.console.scrBuf := by
    rw [hcon, ← leaveScreen_scrBuf K]
    rfl
  refine h.switched hleave hc ?_ hact hbg hcur (fun t _ ht => ?_) (by rw [hinit]; exact fun _ => id)
    hpte (fun p hp => ?_) (fun t _ => by rw [hrows]) ⟨texts_iff.mpr ⟨?_, ?_⟩, ?_, ?_, h.range num⟩
    ?_
  · rw [Kernel.Opened, hinit]
    exact hnum
  · rw [Kernel.Opened, hinit] at ht
    exact ht
  · rw [hmem, Function.update_of_ne hp]
  · intro i hi
    rw [hmem, Function.update_self]
    exact h.left hleave hnum hpage i hi
  · obtain ⟨buf, hbuf, hcells⟩ := h.rows num hnum
    exact ⟨buf, by rw [hrows]; exact hbuf, hcells⟩
  · rw [hcon]
    rfl
  · rw [hcon]
    rfl
  · rw [hcon]
    exact changeCoord_crtc (h.range num) _

/-- The state in which the shell of a new terminal is executed. -/
theorem Kept.opened (h : Kept K R) {num : Nat} {cur : Vector (Nat × Nat) 6} {init : Vector Nat 3}
    (hleave : K.sched.activeTerm = K.sched.bgTerm ∨ K.ScreenSaved)
    (hzero : K.sched.termInit[num]? = some 0)
    (hc : store K.sched.cursorPos K.sched.bgTerm (K.console.screenX, K.console.screenY) = some cur)
    (hinit : store K.sched.termInit num 1 = some init)
    (hclear : K.leaveScreen.console.clear num K.leaveScreen.videoPage = some K'.console)
    (hterm : K'.sched.termInit = init) (hact : K'.sched.activeTerm = num)
    (hbg : K'.sched.bgTerm = num) (hcur : K'.sched.cursorPos = cur)
    (hpte : K'.paging.pte = (changePte 0xb8 0xb8 K.paging).pte) : Kept K' R := by
  have hset := getElem?_of_store hinit
  have hlt : num < 3 := (Vector.getElem?_eq_some_iff.mp hzero).1
  obtain ⟨buf, hbuf⟩ := getElem?_some_of_lt K.leaveScreen.console.scrBuf hlt
  obtain ⟨c', hc', hshow, hcrtc, honly⟩ := clear_refines 0xb8 hbuf
  rw [show K.leaveScreen.videoPage = 0xb8 from mapConsole_videoPage _] at hclear
  obtain rfl : c' = K'.console := Option.some.inj (hc'.symm.trans hclear)
  rw [← h.fresh num hzero] at hshow
  refine h.switched hleave hc ?_ hact hbg hcur ?_ ?_ hpte honly.mem
    ?_ hshow ?_
  · rw [Kernel.Opened, hterm, hset, if_pos rfl]
  · intro t htn ht
    rw [Kernel.Opened, hterm, hset, if_neg (Ne.symm htn)] at ht
    exact ht
  · intro t ht
    rw [hterm, hset] at ht
    split at ht
    · cases ht
    · exact ht
  · intro t ht
    rw [honly.buf t ht, leaveScreen_scrBuf]
  · rw [hcrtc, h.fresh num hzero]
    rfl

/-! ## `sys_vidmap` -/

/-- The screen of terminal 0 is lost to the video page, the others stay where they are. -/
theorem Kept.mapVideo (h : Kept K R) (p : Nat) :
    Kept { K with paging := mapVideo p K.paging } R := by
  have hzero : { K with paging := OreOS.mapVideo p K.paging }.savedPage 0 = 0xb8 := by
    simp only [Kernel.savedPage, OreOS.mapVideo, setPde_pte, Nat.zero_add, Function.update_self]
    decide
  have hpage {t : Nat} (ht : t ≠ 0) :
      { K with paging := OreOS.mapVideo p K.paging }.savedPage t = K.savedPage t := by
    have hne : t + 1 ≠ 1 := by omega
    apply savedPage_eq
    exact Function.update_of_ne hne ..
  refine ⟨h.active, ?_, h.video, h.text, h.crtc, h.rows, ?_, h.x,
    h.y, h.cursors, h.range, h.fresh⟩
  · intro t ht
    by_cases h0 : t = 0
    · subst h0
      exact .inr hzero
    · rw [hpage h0]
      exact h.saved t ht
  · intro t ht hne hsave
    have h0 : t ≠ 0 := by
      rintro rfl
      exact hsave hzero
    rw [hpage h0] at hsave ⊢
    exact h.pages t ht hne hsave

theorem Kept.stop (h : Kept K R) : Kept K.stop R :=
  h.congr rfl rfl rfl rfl rfl (fun _ _ => rfl) id

/-! ## Boot -/

theorem opened_boot {pteAddr : Word} {t : Nat} (ht : (boot pteAddr).Opened t) : t = 0 := by
  have hlt := ht.lt
  obtain rfl | rfl | rfl : t = 0 ∨ t = 1 ∨ t = 2 := by omega
  · rfl
  · cases ht
  · cases ht

/-- A page that `init_paging` maps to itself. -/
theorem pte_boot (pteAddr : Word) {i : Nat} (hi : i ≠ 0) :
    (boot pteAddr).paging.pte i = (BitVec.ofNat 32 i <<< 12) ||| ctrlPte := by
  simp only [boot, initPaging, if_neg hi]

theorem kept_boot (pteAddr : Word) : Kept (boot pteAddr) fun _ => blankScreen 32 := by
  have hsaved (t : Nat) : (boot pteAddr).savedPage t =
      (((BitVec.ofNat 32 (t + 1) <<< 12) ||| ctrlPte) >>> 12).toNat := by
    rw [Kernel.savedPage, pte_boot pteAddr (by omega)]
  have hvideo : (boot pteAddr).videoPage = 0xb8 := by
    rw [Kernel.videoPage, pte_boot pteAddr (by omega)]
    decide
  refine ⟨rfl, ?_, fun _ => hvideo, ?_, rfl, ?_,
    ?_, rfl, rfl, ?_, fun t => ⟨?_, ?_⟩, fun _ _ => rfl⟩
  · intro t ht
    rw [hsaved]
    obtain rfl | rfl | rfl : t = 0 ∨ t = 1 ∨ t = 2 := by omega
    all_goals exact .inl (by decide)
  · intro i hi
    change i < 25 * 80 at hi
    have hlt : 2 * i < 4000 := by omega
    simp only [boot, hlt, and_self, if_true, Nat.mul_mod_right]
    rfl
  · intro t ht
    rw [opened_boot ht]
    exact ⟨_, rfl, fun i _ => rfl⟩
  · intro t ht hne
    exact absurd (opened_boot ht) hne
  · intro t ht hne
    exact absurd (opened_boot ht) hne
  · show 0 < 80
    omega
  · show 0 < 25
    omega

end OreOS
