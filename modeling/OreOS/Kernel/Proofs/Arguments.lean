import OreOS.Kernel.Proofs.Halting
import OreOS.SysCall.Proofs.CommandLine

/-!
# Whose arguments `getargs` delivers

The kernel has one array `args`. Every call of `execute` writes it before anything else is checked,
also a call that fails and the one that starts the shell of a new terminal. `getargs` delivers what
the latest call wrote. That are the arguments of the caller exactly as long as the latest call is
the one that started it.
-/

namespace OreOS
open Machine

/-! ## The processes of the kernel -/

/-- The kernel with its array `args`. Two things are not in the source: the command that
    each process was started with, and the process that the latest call of `execute`
    started, if it did. -/
structure ArgState where
  kernel : Kernel
  args : List UInt8
  command : Nat → List UInt8
  latest : Option Nat

/-- The events that concern the arguments. -/
inductive ArgEvent where
  | tick (f : Frame)
  /-- An Alt key. It runs `execute("shell")` when it opens a terminal. -/
  | altKey (scancode : Nat) (f : Frame) (shell : Option Word) (g : Frame)
      (behind junk : Nat → UInt8)
  /-- A call of `execute` by the process that runs. -/
  | execute (command : List UInt8) (behind junk : Nat → UInt8) (prog : Option Word) (f : Frame)
  | halt (f : Frame)
  /-- A call of `getargs` by the process that runs. -/
  | getargs (nbytes : Int)

/-- The process that a step started. -/
def startedBy (K K' : Kernel) : Option Nat :=
  (List.range 7).find? fun p => !decide (K.paging.Live p) && decide (K'.paging.Live p)

/-- What a call of `execute` with `command` leaves, when it leads to `K`. -/
def ArgState.executed (s : ArgState) (command : List UInt8) (args : List UInt8) (K : Kernel) :
    ArgState where
  kernel := K
  args := args
  command :=
    match startedBy s.kernel K with
    | none => s.command
    | some p => Function.update s.command p command
  latest := startedBy s.kernel K

/-- The command of a new terminal (`sched.c:110`). -/
def shellCommand : List UInt8 := [115, 104, 101, 108, 108]

/-- The key opens a terminal. -/
def opensTerminal (scancode : Nat) (K : Kernel) : Bool :=
  decide (0x3B ≤ scancode) && K.sched.termInit[scancode - 0x3B]? == some 0

/-- One event. A command that cannot be parsed within its buffers is undefined. -/
def argStep (s : ArgState) (e : ArgEvent) : Option ArgState :=
  if s.kernel.down then some s
  else
    match e with
    | .tick f => (schedStep s.kernel (.tick f)).map fun K => { s with kernel := K }
    | .halt f => (schedStep s.kernel (.halt f)).map fun K => { s with kernel := K }
    | .altKey scancode f shell g behind junk => do
        let K ← schedStep s.kernel (.altKey scancode f shell g)
        if opensTerminal scancode s.kernel then
          return s.executed shellCommand (← parseArgs (temp2 shellCommand behind junk)) K
        else return { s with kernel := K }
    | .execute command behind junk prog f => do
        let args ← parseArgs (temp2 command behind junk)
        let K ← schedStep s.kernel (.execute prog f)
        return s.executed command args K
    | .getargs _ => some s

/-- The kernel before it executes the first shell. -/
def argStart (pteAddr : Word) : ArgState := ⟨boot pteAddr, [], fun _ => [], none⟩

/-- `getargs` delivers the arguments of the command that its caller was started with. -/
def OwnArguments (s : ArgState) : ArgEvent → Prop
  | .getargs nbytes =>
      getargs s.args nbytes = getargs (arguments (s.command s.kernel.user.toNat)) nbytes
  | _ => True

/-- The latest call of `execute` started the caller of `getargs`, and its command
    ends within 20 bytes. -/
def LatestStarted (s : ArgState) : ArgEvent → Prop
  | .getargs _ => s.latest = some s.kernel.user.toNat ∧
      (lineOf (s.command s.kernel.user.toNat)).length < 20
  | _ => True

instance decidableOwnArguments (s : ArgState) : ∀ e, Decidable (OwnArguments s e)
  | .getargs nbytes => inferInstanceAs (Decidable
      (getargs s.args nbytes = getargs (arguments (s.command s.kernel.user.toNat)) nbytes))
  | .tick _ => isTrue trivial
  | .altKey _ _ _ _ _ _ => isTrue trivial
  | .execute _ _ _ _ _ => isTrue trivial
  | .halt _ => isTrue trivial

instance decidableLatestStarted (s : ArgState) : ∀ e, Decidable (LatestStarted s e)
  | .getargs _ => inferInstanceAs (Decidable (s.latest = some s.kernel.user.toNat ∧
      (lineOf (s.command s.kernel.user.toNat)).length < 20))
  | .tick _ => isTrue trivial
  | .altKey _ _ _ _ _ _ => isTrue trivial
  | .execute _ _ _ _ _ => isTrue trivial
  | .halt _ => isTrue trivial

/-- The array holds the arguments of the latest call, as `execute` took them from the command. -/
def ArgsLatest (s : ArgState) : Prop :=
  ∀ p, s.latest = some p → ∃ behind junk, parseArgs (temp2 (s.command p) behind junk) = some s.args

theorem argsLatest_executed {s : ArgState} {command args : List UInt8} {behind junk : Nat → UInt8}
    (h : parseArgs (temp2 command behind junk) = some args) (K : Kernel) :
    ArgsLatest (s.executed command args K) := by
  intro p hp
  refine ⟨behind, junk, ?_⟩
  simp only [ArgState.executed] at hp ⊢
  rw [hp]
  simp only [Function.update_self]
  exact h

theorem ArgsLatest.step {s s' : ArgState} {e : ArgEvent} (h : ArgsLatest s)
    (hstep : argStep s e = some s') : ArgsLatest s' := by
  unfold argStep at hstep
  split at hstep
  · cases hstep
    exact h
  cases e with
  | tick f =>
    obtain ⟨K, -, rfl⟩ := Option.map_eq_some_iff.mp hstep
    exact h
  | halt f =>
    obtain ⟨K, -, rfl⟩ := Option.map_eq_some_iff.mp hstep
    exact h
  | altKey scancode f shell g behind junk =>
    simp only [Option.bind_eq_bind, Option.bind_eq_some_iff] at hstep
    obtain ⟨K, -, hstep⟩ := hstep
    split at hstep
    · simp only [Option.bind_eq_some_iff, Option.pure_def, Option.some.injEq] at hstep
      obtain ⟨args, hargs, rfl⟩ := hstep
      exact argsLatest_executed hargs K
    · cases hstep
      exact h
  | execute command behind junk prog f =>
    simp only [Option.bind_eq_bind, Option.bind_eq_some_iff, Option.pure_def,
      Option.some.injEq] at hstep
    obtain ⟨args, hargs, K, -, rfl⟩ := hstep
    exact argsLatest_executed hargs K
  | getargs nbytes =>
    cases hstep
    exact h

/-- In a run in which `getargs` is only called by processes that the latest call of `execute`
    started, with a short command, every process gets its own arguments. -/
theorem own_arguments (pteAddr : Word) {es : List ArgEvent}
    (hes : EachStep argStep LatestStarted (argStart pteAddr) es) :
    EachStep argStep OwnArguments (argStart pteAddr) es := by
  have hstart : ArgsLatest (argStart pteAddr) := by
    intro p hp
    cases hp
  refine EachStep.imp (fun s e h hc => ⟨?_, fun t ht => h.step ht⟩) hstart hes
  cases e with
  | getargs nbytes =>
    obtain ⟨hlatest, hshort⟩ := hc
    obtain ⟨behind, junk, hargs⟩ := h _ hlatest
    rw [parseArgs_temp2 behind junk hshort] at hargs
    simp only [OwnArguments, Option.some.inj hargs]
  | tick f => trivial
  | altKey scancode f shell g behind junk => trivial
  | execute command behind junk prog f => trivial
  | halt f => trivial

/-- The shell runs `a x`, which asks for its arguments. -/
def askAtOnce : List ArgEvent :=
  let run (command : List UInt8) (prog : Option Word) : ArgEvent :=
    .execute command (fun _ => 0) (fun _ => 0) prog callFrame
  [run shellCommand (some 0x8048000#32), run [97, 32, 120] (some 0x8048000#32), .getargs 32]

theorem own_arguments_askAtOnce :
    EachStep argStep LatestStarted (argStart 0x410000#32) askAtOnce ∧
      EachStep argStep OwnArguments (argStart 0x410000#32) askAtOnce := by
  have hes : EachStep argStep LatestStarted (argStart 0x410000#32) askAtOnce := by decide
  exact ⟨hes, own_arguments _ hes⟩

/-- The program first runs `b y`, which does not exist, and then gets `y`. -/
theorem arguments_of_failed_command :
    ¬ ∀ (pteAddr : Word) (es : List ArgEvent),
      EachStep argStep OwnArguments (argStart pteAddr) es := by
  intro hall
  let run (command : List UInt8) (prog : Option Word) : ArgEvent :=
    .execute command (fun _ => 0) (fun _ => 0) prog callFrame
  have hrun := hall 0x410000#32 [run shellCommand (some 0x8048000#32),
    run [97, 32, 120] (some 0x8048000#32), run [98, 32, 121] none, .getargs 32]
  revert hrun
  decide

end OreOS
