import Mathlib.Tactic.Common

/-!
# Runs of a partial step function

A system is a step function `step : σ → ε → Option σ` over states `σ` and events `ε`; `none` is
an event whose effect the system leaves undefined. Nothing here mentions a particular system.

`Along` states a property of every step a run takes, `Holds` one of every state it passes
through together with the definedness of all its steps. Invariants are proved once per step and
lifted to runs by the rules below; the `_iff` rules lift a condition that is exact at each step
to one that is exact for whole runs.
-/

namespace OreOS.Machine

variable {σ ε : Type}

/-- The state after the events `es`, if every step is defined. -/
def runFrom (step : σ → ε → Option σ) : σ → List ε → Option σ
  | s, [] => some s
  | s, e :: es => (step s e).bind fun t => runFrom step t es

/-- Every step that the run `es` from `s` takes satisfies `T`. -/
def Along (step : σ → ε → Option σ) (T : σ → ε → σ → Prop) : σ → List ε → Prop
  | _, [] => True
  | s, e :: es => ∀ t, step s e = some t → T s e t ∧ Along step T t es

/-- Every event of the run `es` satisfies `C` in the state it arrives in. -/
def EachStep (step : σ → ε → Option σ) (C : σ → ε → Prop) : σ → List ε → Prop
  | _, [] => True
  | s, e :: es => C s e ∧ ∀ t, step s e = some t → EachStep step C t es

/-- Every step of the run `es` is defined and every state it passes through satisfies `P`. -/
def Holds (step : σ → ε → Option σ) (P : σ → Prop) : σ → List ε → Prop
  | s, [] => P s
  | s, e :: es => P s ∧ ∃ t, step s e = some t ∧ Holds step P t es

/-- Every step of the run `es` is defined and satisfies `T`. -/
def Runs (step : σ → ε → Option σ) (T : σ → ε → σ → Prop) : σ → List ε → Prop
  | _, [] => True
  | s, e :: es => ∃ t, step s e = some t ∧ T s e t ∧ Runs step T t es

variable {step : σ → ε → Option σ}

@[simp] theorem runFrom_nil (s : σ) : runFrom step s [] = some s := rfl

theorem runFrom_cons {s t : σ} {e : ε} {es : List ε} (h : step s e = some t) :
    runFrom step s (e :: es) = runFrom step t es := by
  simp [runFrom, h]

theorem runFrom_append (s : σ) (es fs : List ε) :
    runFrom step s (es ++ fs) = (runFrom step s es).bind fun t => runFrom step t fs := by
  induction es generalizing s with
  | nil => rfl
  | cons e es ih =>
    simp only [List.cons_append, runFrom, Option.bind_assoc]
    exact congrArg ((step s e).bind ·) (funext fun t => ih t)

theorem eachStep_cons {C : σ → ε → Prop} {s t : σ} {e : ε} {es : List ε} (h : step s e = some t) :
    EachStep step C s (e :: es) ↔ C s e ∧ EachStep step C t es := by
  simp [EachStep, h]

theorem runs_cons {T : σ → ε → σ → Prop} {s t : σ} {e : ε} {es : List ε} (h : step s e = some t) :
    Runs step T s (e :: es) ↔ T s e t ∧ Runs step T t es := by
  simp [Runs, h]

/-- A system each of whose events is a run of another one. -/
theorem runFrom_flatMap {ε' : Type} {step' : σ → ε' → Option σ} {run : ε' → List ε}
    (hrun : ∀ s e, step' s e = runFrom step s (run e)) (s : σ) (es : List ε') :
    runFrom step' s es = runFrom step s (es.flatMap run) := by
  induction es generalizing s with
  | nil => rfl
  | cons e es ih =>
    rw [List.flatMap_cons, runFrom_append, ← hrun]
    exact congrArg ((step' s e).bind ·) (funext fun t => ih t)

/-- A relation to the states of a total system that every step keeps is kept by runs, and their
steps are all defined. -/
theorem runFrom_simulates {τ : Type} {R : σ → τ → Prop} {next : τ → ε → τ}
    (hstep : ∀ s t e, R s t → ∃ s', step s e = some s' ∧ R s' (next t e)) (es : List ε) {s : σ}
    {t : τ} (h : R s t) : ∃ s', runFrom step s es = some s' ∧ R s' (es.foldl next t) := by
  induction es generalizing s t with
  | nil => exact ⟨s, rfl, h⟩
  | cons e es ih =>
    obtain ⟨u, hu, hR⟩ := hstep s t e h
    obtain ⟨s', hs', hR'⟩ := ih hR
    exact ⟨s', (runFrom_cons hu).trans hs', hR'⟩

/-- The same value is passed on to computations that agree. -/
theorem rel_bind {α τ υ : Type} {R : τ → υ → Prop} {x : Option α} {f : α → Option τ}
    {g : α → Option υ}
    (h : ∀ a, Option.Rel R (f a) (g a)) : Option.Rel R (x.bind f) (x.bind g) := by
  cases x with
  | none => exact .none
  | some a => exact h a

/-- Values that agree are passed on to computations that agree where these do. -/
theorem rel_bind_rel {α β τ υ : Type} {Q : α → β → Prop} {R : τ → υ → Prop} {x : Option α}
    {y : Option β} {f : α → Option τ} {g : β → Option υ} (hxy : Option.Rel Q x y)
    (h : ∀ a b, Q a b → Option.Rel R (f a) (g b)) : Option.Rel R (x.bind f) (y.bind g) := by
  cases hxy with
  | none => exact .none
  | some hab => exact h _ _ hab

theorem exists_of_rel_left {α β : Type} {R : α → β → Prop} {a : α} {y : Option β}
    (h : Option.Rel R (some a) y) : ∃ b, y = some b ∧ R a b := by
  cases h with
  | some hab => exact ⟨_, rfl, hab⟩

theorem exists_of_rel_right {α β : Type} {R : α → β → Prop} {x : Option α} {b : β}
    (h : Option.Rel R x (some b)) : ∃ a, x = some a ∧ R a b := by
  cases h with
  | some hab => exact ⟨_, rfl, hab⟩

/-- Where each step of two systems agrees as long as the first meets `C`, their runs agree. -/
theorem runFrom_rel {τ ε' : Type} {step' : τ → ε' → Option τ} {R : σ → τ → Prop} {f : ε' → ε}
    {C : σ → ε' → Prop}
    (hstep : ∀ s t e, R s t → C s e → Option.Rel R (step s (f e)) (step' t e))
    (es : List ε') {s : σ} {t : τ} (h : R s t) (hc : EachStep (fun s e => step s (f e)) C s es) :
    Option.Rel R (runFrom step s (es.map f)) (runFrom step' t es) := by
  induction es generalizing s t with
  | nil => exact .some h
  | cons e es ih =>
    obtain ⟨hC, hnext⟩ := hc
    have hrel := hstep s t e h hC
    simp only [List.map_cons, runFrom]
    cases hs : step s (f e) with
    | none =>
      rw [hs] at hrel
      cases ht : step' t e with
      | none => exact .none
      | some t' => exact absurd (ht ▸ hrel) Option.not_rel_none_some
    | some s' =>
      rw [hs] at hrel
      obtain ⟨t', ht, hR⟩ := exists_of_rel_left hrel
      rw [ht]
      exact ih hR (hnext s' hs)

instance decidableEachStep {C : σ → ε → Prop} [∀ s e, Decidable (C s e)] :
    ∀ (s : σ) (es : List ε), Decidable (EachStep step C s es)
  | _, [] => isTrue trivial
  | s, e :: es =>
      match h : step s e with
      | none =>
          decidable_of_iff (C s e) ⟨fun hc => ⟨hc, fun _ ht => nomatch h.symm.trans ht⟩, And.left⟩
      | some t =>
          haveI : Decidable (EachStep step C t es) := decidableEachStep t es
          decidable_of_iff (C s e ∧ EachStep step C t es)
            ⟨fun hc => ⟨hc.1, fun _ hu => Option.some.inj (h.symm.trans hu) ▸ hc.2⟩,
              fun hc => ⟨hc.1, hc.2 t h⟩⟩

/-- Conditions on the events alone can be checked along with the rest. -/
theorem EachStep.and_mem {D : ε → Prop} {C : σ → ε → Prop} {es : List ε} {s : σ}
    (h : EachStep step C s es) (hd : ∀ e ∈ es, D e) :
    EachStep step (fun s e => D e ∧ C s e) s es := by
  induction es generalizing s with
  | nil => trivial
  | cons e es ih =>
    refine ⟨⟨hd e (by simp), h.1⟩, fun t ht => ?_⟩
    exact ih (h.2 t ht) fun d hd' => hd d (by simp [hd'])

/-- A condition that every event meets in every state. -/
theorem eachStep_of_forall {C : σ → ε → Prop} (hall : ∀ s e, C s e) :
    ∀ {es : List ε} {s : σ}, EachStep step C s es := by
  intro es
  induction es with
  | nil => intro s; trivial
  | cons e es ih => intro s; exact ⟨hall s e, fun _ _ => ih⟩

/-- With an invariant under which `C` implies `D` at a step, and which such a step keeps, `C` along
a run implies `D` along it. -/
theorem EachStep.imp {Inv : σ → Prop} {C D : σ → ε → Prop}
    (hstep : ∀ s e, Inv s → C s e → D s e ∧ ∀ t, step s e = some t → Inv t) :
    ∀ {es : List ε} {s : σ}, Inv s → EachStep step C s es → EachStep step D s es := by
  intro es
  induction es with
  | nil => intro s _ _; trivial
  | cons e es ih =>
    intro s hs hc
    obtain ⟨hd, hnext⟩ := hstep s e hs hc.1
    exact ⟨hd, fun t ht => ih (hnext t ht) (hc.2 t ht)⟩

/-- The condition of each event in the state that the events before it lead to. -/
theorem eachStep_iff_take {C : σ → ε → Prop} {es : List ε} {s : σ} :
    EachStep step C s es ↔
      ∀ n e, es[n]? = some e → ∀ t, runFrom step s (es.take n) = some t → C t e := by
  induction es generalizing s with
  | nil => simp [EachStep]
  | cons e es ih =>
    constructor
    · rintro ⟨hC, hrest⟩ n d hd u hu
      cases n with
      | zero =>
        cases hd
        cases hu
        exact hC
      | succ n =>
        obtain ⟨t, ht, hrun⟩ := Option.bind_eq_some_iff.mp hu
        exact ih.mp (hrest t ht) n d hd u hrun
    · intro h
      refine ⟨h 0 e rfl s rfl, fun t ht => ih.mpr ?_⟩
      intro n d hd u hu
      exact h (n + 1) d hd u ((runFrom_cons ht).trans hu)

theorem EachStep.take {C : σ → ε → Prop} {es : List ε} {s : σ} (h : EachStep step C s es)
    (n : Nat) :
    EachStep step C s (es.take n) := by
  rw [eachStep_iff_take] at h ⊢
  intro k e he t ht
  have hk : k < n := by
    by_contra hge
    rw [List.getElem?_take, if_neg hge] at he
    cases he
  rw [List.getElem?_take_of_lt hk] at he
  rw [List.take_take, Nat.min_eq_left (by omega)] at ht
  exact h k e he t ht

/-- A run of events that stand for others. -/
theorem runFrom_map {ε' : Type} (f : ε' → ε) (s : σ) (es : List ε') :
    runFrom (fun s e => step s (f e)) s es = runFrom step s (es.map f) := by
  induction es generalizing s with
  | nil => rfl
  | cons e es ih => exact congrArg ((step s (f e)).bind ·) (funext fun t => ih t)

theorem Holds.head {P : σ → Prop} {s : σ} {es : List ε} (h : Holds step P s es) : P s := by
  cases es with
  | nil => exact h
  | cons e es => exact h.1

/-- Where the run ends. -/
theorem Holds.last {P : σ → Prop} {s t : σ} {es : List ε} (h : Holds step P s es)
    (ht : runFrom step s es = some t) : P t := by
  induction es generalizing s with
  | nil =>
    cases ht
    exact h
  | cons e es ih =>
    obtain ⟨-, u, hu, hrest⟩ := h
    rw [runFrom_cons hu] at ht
    exact ih hrest ht

/-- The step that a run takes after the events `es`. -/
theorem Along.step_at {T : σ → ε → σ → Prop} {es rest : List ε} {e : ε} {s u t : σ}
    (h : Along step T s (es ++ e :: rest)) (hu : runFrom step s es = some u)
    (ht : step u e = some t) : T u e t := by
  induction es generalizing s with
  | nil =>
    cases hu
    exact (h t ht).1
  | cons d es ih =>
    obtain ⟨v, hv, hrest⟩ := Option.bind_eq_some_iff.mp hu
    exact ih (h v hv).2 hrest

/-- An invariant kept by every step that meets `C` holds where a run of such steps ends. -/
theorem inv_runFrom {Inv : σ → Prop} {C : σ → ε → Prop}
    (hstep : ∀ s e t, Inv s → C s e → step s e = some t → Inv t) :
    ∀ {es : List ε} {s t : σ}, Inv s → EachStep step C s es → runFrom step s es = some t →
      Inv t := by
  intro es
  induction es with
  | nil =>
    intro s t hs _ hrun
    simp only [runFrom_nil, Option.some.injEq] at hrun
    exact hrun ▸ hs
  | cons e es ih =>
    intro s t hs hc hrun
    obtain ⟨u, hu, hrest⟩ := Option.bind_eq_some_iff.mp hrun
    exact ih (hstep s e u hs hc.1 hu) (hc.2 u hu) hrest

/-- An invariant kept by every step holds wherever a run ends. -/
theorem inv_runFrom_of_step {Inv : σ → Prop}
    (hstep : ∀ s e t, Inv s → step s e = some t → Inv t) {es : List ε} {s t : σ} (hs : Inv s)
    (hrun : runFrom step s es = some t) : Inv t :=
  inv_runFrom (fun s e t hinv _ ht => hstep s e t hinv ht) hs
    (eachStep_of_forall (C := fun _ _ => True) fun _ _ => trivial) hrun

/-- With an invariant under which every step that meets `C` satisfies `T`, runs of such steps do. -/
theorem along_of_inv {Inv : σ → Prop} {C : σ → ε → Prop} {T : σ → ε → σ → Prop}
    (hstep : ∀ s e t, Inv s → C s e → step s e = some t → T s e t ∧ Inv t) :
    ∀ {es : List ε} {s : σ}, Inv s → EachStep step C s es → Along step T s es := by
  intro es
  induction es with
  | nil => intro s _ _; trivial
  | cons e es ih =>
    intro s hs hc t ht
    obtain ⟨hT, hinv⟩ := hstep s e t hs hc.1 ht
    exact ⟨hT, ih hinv (hc.2 t ht)⟩

/-- With an invariant under which every step that meets `C` is defined and satisfies `T`, runs of
such steps are. -/
theorem runs_of_inv_each {Inv : σ → Prop} {C : σ → ε → Prop} {T : σ → ε → σ → Prop}
    (hstep : ∀ s e, Inv s → C s e → ∃ t, step s e = some t ∧ T s e t ∧ Inv t) :
    ∀ {es : List ε} {s : σ}, Inv s → EachStep step C s es → Runs step T s es := by
  intro es
  induction es with
  | nil => intro s _ _; trivial
  | cons e es ih =>
    intro s hs hc
    obtain ⟨t, ht, hT, hinv⟩ := hstep s e hs hc.1
    exact ⟨t, ht, hT, ih hinv (hc.2 t ht)⟩

/-- With an invariant under which every step is defined and satisfies `T`, all runs do. -/
theorem runs_of_inv {Inv : σ → Prop} {T : σ → ε → σ → Prop}
    (hstep : ∀ s e, Inv s → ∃ t, step s e = some t ∧ T s e t ∧ Inv t) (es : List ε) {s : σ}
    (hs : Inv s) : Runs step T s es :=
  runs_of_inv_each (fun s e hinv _ => hstep s e hinv) hs
    (eachStep_of_forall (C := fun _ _ => True) fun _ _ => trivial)

/-- With an invariant under which every step that meets `C` is defined, a run of such steps passes
only through states of which the invariant says `P`. -/
theorem holds_of_inv {Inv P : σ → Prop} {C : σ → ε → Prop} (hP : ∀ s, Inv s → P s)
    (hstep : ∀ s e, Inv s → C s e → ∃ t, step s e = some t ∧ Inv t) :
    ∀ {es : List ε} {s : σ}, Inv s → EachStep step C s es → Holds step P s es := by
  intro es
  induction es with
  | nil => intro s hs _; exact hP s hs
  | cons e es ih =>
    intro s hs hc
    obtain ⟨t, ht, hinv⟩ := hstep s e hs hc.1
    exact ⟨hP s hs, t, ht, ih hinv (hc.2 t ht)⟩

section exact
variable {Base P : σ → Prop} {T : σ → ε → σ → Prop} {C : σ → ε → Prop}

/-- `Base` holds as long as the events satisfy `D` and meet the condition `C`. Where it holds, a
condition that decides whether a step from a state with `P` is defined and leads to one decides it
for whole runs. -/
theorem holds_iff_eachStep_mem {D : ε → Prop}
    (hbase : ∀ s e t, Base s → P s → D e → C s e → step s e = some t → Base t)
    (hstep : ∀ s e, Base s → P s → D e → (C s e ↔ ∃ t, step s e = some t ∧ P t)) :
    ∀ {es : List ε} {s : σ}, (∀ e ∈ es, D e) → Base s → P s →
      (Holds step P s es ↔ EachStep step C s es) := by
  intro es
  induction es with
  | nil => intro s _ _ hs; exact ⟨fun _ => trivial, fun _ => hs⟩
  | cons e es ih =>
    intro s hd hb hs
    have hde : D e := hd e (by simp)
    have hdes : ∀ e ∈ es, D e := fun d hmem => hd d (by simp [hmem])
    constructor
    · rintro ⟨-, t, ht, hrest⟩
      have hc := (hstep s e hb hs hde).mpr ⟨t, ht, hrest.head⟩
      refine ⟨hc, ?_⟩
      intro u hu
      obtain rfl : t = u := Option.some.inj (ht.symm.trans hu)
      exact (ih hdes (hbase s e t hb hs hde hc ht) hrest.head).mp hrest
    · rintro ⟨hc, hrest⟩
      obtain ⟨t, ht, hP⟩ := (hstep s e hb hs hde).mp hc
      exact ⟨hs, t, ht, (ih hdes (hbase s e t hb hs hde hc ht) hP).mpr (hrest t ht)⟩

/-- The same where every step keeps `Base` and the events are not restricted. -/
theorem holds_iff_eachStep (hbase : ∀ s e t, Base s → step s e = some t → Base t)
    (hstep : ∀ s e, Base s → P s → (C s e ↔ ∃ t, step s e = some t ∧ P t))
    {es : List ε} {s : σ} (hb : Base s) (hs : P s) : Holds step P s es ↔ EachStep step C s es := by
  apply holds_iff_eachStep_mem (fun s e t hb _ _ _ ht => hbase s e t hb ht)
    (fun s e hb hs _ => hstep s e hb hs) (D := fun _ => True) (fun _ _ => trivial) hb hs

/-- `Base` holds throughout. Where it does, a condition that decides whether a step from a state
with `P` satisfies `T` and leads to a state with `P` decides it for whole runs. -/
theorem along_iff_along (hbase : ∀ s e t, Base s → step s e = some t → Base t)
    (hstep : ∀ s e t, Base s → P s → step s e = some t → (C s e ↔ T s e t ∧ P t)) :
    ∀ {es : List ε} {s : σ}, Base s → P s →
      (Along step (fun s e t => T s e t ∧ P t) s es ↔ Along step (fun s e _ => C s e) s es) := by
  intro es
  induction es with
  | nil => intro s _ _; exact Iff.rfl
  | cons e es ih =>
    intro s hb hs
    constructor
    · intro h t ht
      obtain ⟨hT, hrest⟩ := h t ht
      exact ⟨(hstep s e t hb hs ht).mpr hT, (ih (hbase s e t hb ht) hT.2).mp hrest⟩
    · intro h t ht
      obtain ⟨hc, hrest⟩ := h t ht
      have hT := (hstep s e t hb hs ht).mp hc
      exact ⟨hT, (ih (hbase s e t hb ht) hT.2).mpr hrest⟩

end exact

/-- Where the invariant holds, the condition decides whether a step satisfies `T`, and keeps the
invariant. Then it decides for a whole run of events in the domain `D` whether all its steps do. -/
theorem along_iff_eachStep {Inv : σ → Prop} {D C : σ → ε → Prop} {T : σ → ε → σ → Prop}
    (hstep : ∀ s e, Inv s → D s e → (C s e ↔ ∀ t, step s e = some t → T s e t))
    (hinv : ∀ s e t, Inv s → D s e → C s e → step s e = some t → Inv t) :
    ∀ {es : List ε} {s : σ}, EachStep step D s es → Inv s →
      (Along step T s es ↔ EachStep step C s es) := by
  intro es
  induction es with
  | nil => intro s _ _; exact Iff.rfl
  | cons e es ih =>
    intro s hd hs
    constructor
    · intro h
      have hc := (hstep s e hs hd.1).mpr fun t ht => (h t ht).1
      exact ⟨hc, fun t ht => (ih (hd.2 t ht) (hinv s e t hs hd.1 hc ht)).mp (h t ht).2⟩
    · rintro ⟨hc, hrest⟩ t ht
      refine ⟨(hstep s e hs hd.1).mp hc t ht, ?_⟩
      exact (ih (hd.2 t ht) (hinv s e t hs hd.1 hc ht)).mpr (hrest t ht)

/-- The same where the condition also decides whether the step is defined. -/
theorem runs_iff_eachStep (Inv : σ → Prop) {D C : σ → ε → Prop} {T : σ → ε → σ → Prop}
    (hstep : ∀ s e, Inv s → D s e → (C s e ↔ ∃ t, step s e = some t ∧ T s e t))
    (hinv : ∀ s e t, Inv s → D s e → C s e → step s e = some t → Inv t) :
    ∀ {es : List ε} {s : σ}, EachStep step D s es → Inv s →
      (Runs step T s es ↔ EachStep step C s es) := by
  intro es
  induction es with
  | nil => intro s _ _; exact Iff.rfl
  | cons e es ih =>
    intro s hd hs
    constructor
    · rintro ⟨t, ht, hT, hrest⟩
      have hc := (hstep s e hs hd.1).mpr ⟨t, ht, hT⟩
      refine ⟨hc, ?_⟩
      intro u hu
      obtain rfl : t = u := Option.some.inj (ht.symm.trans hu)
      exact (ih (hd.2 t ht) (hinv s e t hs hd.1 hc ht)).mp hrest
    · rintro ⟨hc, hrest⟩
      obtain ⟨t, ht, hT⟩ := (hstep s e hs hd.1).mp hc
      exact ⟨t, ht, hT, (ih (hd.2 t ht) (hinv s e t hs hd.1 hc ht)).mpr (hrest t ht)⟩

end OreOS.Machine
