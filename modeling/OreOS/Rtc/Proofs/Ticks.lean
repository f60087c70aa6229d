import OreOS.Machine.Trace
import OreOS.Rtc

/-!
# When `rtc_read` waits for a tick

The flag stays set from one interrupt to the next call that clears it. A call that begins with the
flag set may therefore return at once; one that begins with the flag clear cannot.
-/

namespace OreOS.Rtc
open Machine

/-! ## The steps -/

/-- What one step does: an interrupt, a process that goes on, or nothing. -/
inductive Steps (s : Rtc) : RtcEvent → Rtc → Prop where
  | interrupt : Steps s .interrupt { s with interruptCount := 1, ticks := s.ticks + 1 }
  | begins {p : Nat} : s.phase p = .idle → Steps s (.begins p) (s.enter p (.waiting s.ticks))
  | tests {p began : Nat} : s.phase p = .waiting began → s.interruptCount ≠ 0 →
      Steps s (.tests p) (s.enter p (.seen began))
  | clears {p began : Nat} : s.phase p = .seen began →
      Steps s (.clears p) { s.enter p (.cleared began) with interruptCount := 0 }
  | returns {p began : Nat} : s.phase p = .cleared began →
      Steps s (.returns p) (s.enter p .idle)
  | stays {e : RtcEvent} : Steps s e s

theorem step_cases {s t : Rtc} {e : RtcEvent} (h : s.step e = some t) : s.Steps e t := by
  cases e with
  | interrupt =>
    cases h
    exact .interrupt
  | begins p =>
    simp only [step] at h
    split at h <;> cases h
    · exact .begins ‹_›
    · exact .stays
  | tests p =>
    simp only [step] at h
    split at h <;> cases h
    · split
      · exact .stays
      · exact .tests ‹_› ‹_›
    · exact .stays
  | clears p =>
    simp only [step] at h
    split at h <;> cases h
    · exact .clears ‹_›
    · exact .stays
  | returns p =>
    simp only [step] at h
    split at h <;> cases h
    · exact .returns ‹_›
    · exact .stays

@[simp] theorem enter_phase (s : Rtc) (p q : Nat) (phase : RtcPhase) :
    (s.enter p phase).phase q = if q = p then phase else s.phase q := by
  simp [enter, Function.update_apply]

@[simp] theorem enter_interruptCount (s : Rtc) (p : Nat) (phase : RtcPhase) :
    (s.enter p phase).interruptCount = s.interruptCount := rfl

@[simp] theorem enter_ticks (s : Rtc) (p : Nat) (phase : RtcPhase) :
    (s.enter p phase).ticks = s.ticks := rfl

/-! ## Calls that begin with the flag clear -/

/-- If the step is a return of `p` from `rtc_read`, an interrupt has come since the call began. -/
def ReturnsAfterTick (p : Nat) (s : Rtc) (e : RtcEvent) (_ : Rtc) : Prop :=
  ∀ began, e = .returns p → s.phase p = .cleared began → began < s.ticks

/-- If the step begins a call, the flag is clear. -/
def BeginsClear (s : Rtc) (e : RtcEvent) : Prop :=
  ∀ p, e = .begins p → s.phase p = .idle → s.interruptCount = 0

/-- What holds of a call that began with the flag clear, in each of its phases. -/
def Waits (s : Rtc) (p : Nat) : Prop :=
  match s.phase p with
  | .idle => True
  | .waiting began => began ≤ s.ticks ∧ (s.interruptCount ≠ 0 → began < s.ticks)
  | .seen began => began < s.ticks
  | .cleared began => began < s.ticks

theorem Waits.step {s t : Rtc} {e : RtcEvent} {p : Nat} (h : s.Waits p)
    (hclear : e = .begins p → s.phase p = .idle → s.interruptCount = 0) (ht : s.step e = some t) :
    t.Waits p := by
  unfold Waits at h ⊢
  cases step_cases ht with
  | interrupt =>
    cases hp : s.phase p <;> simp only [hp] at h ⊢ <;> omega
  | @begins q hq =>
    by_cases hpq : p = q
    · subst hpq
      simp [hclear rfl hq]
    · simpa [hpq] using h
  | @tests q began hq hflag =>
    by_cases hpq : p = q
    · subst hpq
      rw [hq] at h
      simpa using h.2 hflag
    · simpa [hpq] using h
  | @clears q began hq =>
    by_cases hpq : p = q
    · subst hpq
      rw [hq] at h
      simpa using h
    · cases hp : s.phase p <;> simp_all
  | @returns q began hq =>
    by_cases hpq : p = q
    · subst hpq
      simp
    · simpa [hpq] using h
  | stays => exact h

theorem Waits.returnsAfterTick {s : Rtc} {p : Nat} (h : s.Waits p) (e : RtcEvent) (t : Rtc) :
    ReturnsAfterTick p s e t := by
  intro began _ hp
  rw [Waits, hp] at h
  exact h

theorem along_of_beginsClear {es : List RtcEvent} {s : Rtc} (hs : ∀ p, s.Waits p)
    (h : EachStep step BeginsClear s es) :
    Along step (fun s e t => ∀ p, ReturnsAfterTick p s e t) s es := by
  refine along_of_inv (fun s e t (hinv : ∀ p, s.Waits p) hclear ht => ?_) hs h
  exact ⟨fun p => (hinv p).returnsAfterTick e t, fun p => (hinv p).step (hclear p) ht⟩

/-- A call that is under way keeps its promise until the next one begins. -/
theorem along_of_waits {es : List RtcEvent} {s : Rtc} {p : Nat} (hs : s.Waits p)
    (hes : .begins p ∉ es) : Along step (ReturnsAfterTick p) s es := by
  have hnew : EachStep step (fun _ e => e ≠ .begins p ∧ True) s es :=
    EachStep.and_mem (eachStep_of_forall fun _ _ => trivial) fun e he heq => hes (heq ▸ he)
  refine along_of_inv (fun s e t (hinv : s.Waits p) hne ht => ?_) hs hnew
  exact ⟨hinv.returnsAfterTick e t, hinv.step (fun heq => absurd heq hne.1) ht⟩

/-- A call that begins with the flag set can test it, clear it and return at once. -/
theorem returns_at_once {s : Rtc} {p : Nat} (hidle : s.phase p = .idle)
    (hflag : s.interruptCount ≠ 0) :
    ¬Along step (ReturnsAfterTick p) s [.begins p, .tests p, .clears p, .returns p] := by
  intro h
  have hbegins : s.step (.begins p) = some (s.enter p (.waiting s.ticks)) := by
    simp only [step, hidle]
  have htests := (h _ hbegins).2 ((s.enter p (.waiting s.ticks)).enter p (.seen s.ticks)) (by
    simp [step, hflag])
  have hclears := htests.2 { ((s.enter p (.waiting s.ticks)).enter p (.seen s.ticks)).enter p
    (.cleared s.ticks) with interruptCount := 0 } (by simp [step])
  have hreturns := hclears.2 ({ ((s.enter p (.waiting s.ticks)).enter p (.seen s.ticks)).enter p
    (.cleared s.ticks) with interruptCount := 0 } |>.enter p .idle) (by simp [step])
  have hlt := hreturns.1 s.ticks rfl (by simp)
  exact absurd hlt (Nat.lt_irrefl _)

/-- In a run where every call of `rtc_read` begins with the flag clear, every return comes after an
interrupt that came after the call began; and the flag being clear is what a call needs for that,
whatever happens after it began. -/
theorem rtc_read_waits_for_tick (es : List RtcEvent) :
    (EachStep step BeginsClear boot es →
      Along step (fun s e t => ∀ p, ReturnsAfterTick p s e t) boot es) ∧
    ∀ (s : Rtc) (p : Nat), s.phase p = .idle →
      ((∀ rest, .begins p ∉ rest → Along step (ReturnsAfterTick p) s (.begins p :: rest)) ↔
        s.interruptCount = 0) := by
  refine ⟨fun h => along_of_beginsClear (fun p => trivial) h, fun s p hidle => ⟨?_, ?_⟩⟩
  · intro h
    by_contra hflag
    exact returns_at_once hidle hflag (h [.tests p, .clears p, .returns p] (by simp))
  · intro hclear rest hrest t ht
    have hwaits : s.Waits p := by simp [Waits, hidle]
    exact ⟨hwaits.returnsAfterTick _ t, along_of_waits (hwaits.step (fun _ _ => hclear) ht) hrest⟩

/-- A call that begins before the first interrupt. -/
theorem rtc_read_waits_for_first_tick :
    Along step (fun s e t => ∀ p, ReturnsAfterTick p s e t) boot
      [.begins 0, .interrupt, .tests 0, .clears 0, .returns 0] := by
  apply (rtc_read_waits_for_tick _).1
  refine ⟨fun _ _ _ => rfl, fun _ _ => ⟨nofun, fun _ _ => ⟨nofun, fun _ _ => ⟨nofun, fun _ _ =>
    ⟨nofun, fun _ _ => trivial⟩⟩⟩⟩⟩

/-- A call that begins after an interrupt that no call has waited for. -/
theorem rtc_read_returns_before_tick :
    ¬Along step (fun s e t => ∀ p, ReturnsAfterTick p s e t) boot
      [.interrupt, .begins 0, .tests 0, .clears 0, .returns 0] := by
  intro h
  change Along step _ boot ([.interrupt, .begins 0, .tests 0, .clears 0] ++ [.returns 0]) at h
  have hlt : 1 < 1 := h.step_at rfl rfl 0 1 rfl rfl
  exact absurd hlt (Nat.lt_irrefl 1)

end OreOS.Rtc
