import Mathlib.Logic.Function.Basic

/-!
# The real-time clock

Model of `periodic_interrupt_handler` and `rtc_read` (`rtc.c:41-68`). `interrupt_count` is shared by
all processes and the loop of `rtc_read` runs with interrupts enabled, so a call is four steps
between which anything else may happen: it begins, it tests the flag until it is set, it clears the
flag, and it returns.

`ticks` is not in the source. It counts the periodic interrupts; a call remembers the count at which
it began.
-/

namespace OreOS

/-- Where a process is in `rtc_read`, with the number of interrupts before the call began. -/
inductive RtcPhase where
  /-- Not in a call. -/
  | idle
  /-- In the loop of `rtc.c:65`. -/
  | waiting (began : Nat)
  /-- Before the assignment of `rtc.c:66`. -/
  | seen (began : Nat)
  /-- Before the return. -/
  | cleared (began : Nat)
  deriving DecidableEq, Repr

/-- The flag, the interrupts so far, and where each process is. -/
structure Rtc where
  interruptCount : Nat
  ticks : Nat
  phase : Nat → RtcPhase

/-- The atomic steps of the handler and of the processes in `rtc_read`. -/
inductive RtcEvent where
  /-- `periodic_interrupt_handler` sets the flag. -/
  | interrupt
  /-- Process `p` calls `rtc_read`. -/
  | begins (p : Nat)
  | tests (p : Nat)
  | clears (p : Nat)
  | returns (p : Nat)
  deriving DecidableEq, Repr

namespace Rtc

/-- Process `p` goes on to the next phase. -/
def enter (p : Nat) (phase : RtcPhase) (s : Rtc) : Rtc :=
  { s with phase := Function.update s.phase p phase }

/-- One step. A process that is not at the place an event names does not take it. -/
def step (s : Rtc) : RtcEvent → Option Rtc
  | .interrupt => some { s with interruptCount := 1, ticks := s.ticks + 1 }
  | .begins p =>
      match s.phase p with
      | .idle => some (s.enter p (.waiting s.ticks))
      | _ => some s
  | .tests p =>
      match s.phase p with
      | .waiting began => some (if s.interruptCount = 0 then s else s.enter p (.seen began))
      | _ => some s
  | .clears p =>
      match s.phase p with
      | .seen began => some { s.enter p (.cleared began) with interruptCount := 0 }
      | _ => some s
  | .returns p =>
      match s.phase p with
      | .cleared _ => some (s.enter p .idle)
      | _ => some s

/-- No interrupt yet and no call. -/
def boot : Rtc := ⟨0, 0, fun _ => .idle⟩

end Rtc

end OreOS
