import Mathlib.Data.List.Pairwise
import OreOS.I8259.Proofs.Programmed
import OreOS.Interrupts

/-!
# Lines in service and handlers on the stack

A line is in service exactly as long as a handler on the stack in use owes it an end of interrupt.
The controllers put a line in service when its handler begins, and every handler acknowledges what
it owes before it returns or goes to another stack. This is kept by every step as long as no handler
changes the stack over another one that has not sent its end of interrupt: the keyboard's line comes
before the clock's, so that a key may arrive inside the clock handler.
-/

namespace OreOS
open Machine

/-! ## The code of the handlers -/

theorem sendEoiOps_low {irq : Nat} (h : irq < 8) :
    sendEoiOps irq = [.outb 0x20 (0x60#8 ||| BitVec.ofNat 8 irq)] := by
  rw [sendEoiOps, I8259.bytesSent, I8259.sendEoi, if_pos h]
  rfl

theorem sendEoiOps_eight :
    sendEoiOps 8 = [.outb 0xA0 (0x60#8 ||| BitVec.ofNat 8 0),
      .outb 0x20 (0x60#8 ||| BitVec.ofNat 8 2)] := by
  rw [sendEoiOps, I8259.bytesSent, I8259.sendEoi, if_neg (by decide), I8259.sendEoi,
    if_pos (by decide)]
  rfl

/-- The lines that are acknowledged before the stack is changed or the handler ends. -/
def upcoming : List IrqOp → List Nat
  | [] => []
  | .outb port data :: ops => (ackedLine port data).toList ++ upcoming ops
  | .load _ :: _ => []
  | .start _ :: _ => []
  | .iret :: _ => []
  | .cli :: ops => upcoming ops
  | .sti :: ops => upcoming ops
  | .leave _ :: ops => upcoming ops
  | .returns :: ops => upcoming ops

/-- Whether the operation changes the stack. -/
def IrqOp.changesStack : IrqOp → Bool
  | .load _ => true
  | .start _ => true
  | _ => false

/-- The only bytes that are sent are ends of interrupt. -/
def IrqOp.Proper : IrqOp → Prop
  | .outb port data => ∃ k < 8, (port = 0x20 ∨ port = 0xA0) ∧ data = 0x60#8 ||| BitVec.ofNat 8 k
  | _ => True

/-- The code of a handler sends ends of interrupt only. -/
def ProperOps (ops : List IrqOp) : Prop := ∀ op ∈ ops, op.Proper

@[simp] theorem properOps_nil : ProperOps [] := fun _ h => nomatch h

@[simp] theorem properOps_cons {op : IrqOp} {ops : List IrqOp} :
    ProperOps (op :: ops) ↔ op.Proper ∧ ProperOps ops := List.forall_mem_cons

@[simp] theorem properOps_append {ops ops' : List IrqOp} :
    ProperOps (ops ++ ops') ↔ ProperOps ops ∧ ProperOps ops' := List.forall_mem_append

theorem properOps_sendEoiOps {irq : Nat} (h : irq < 8 ∨ irq = 8) : ProperOps (sendEoiOps irq) := by
  rcases h with h | rfl
  · rw [sendEoiOps_low h, properOps_cons]
    exact ⟨⟨irq, h, .inl rfl, rfl⟩, properOps_nil⟩
  · rw [sendEoiOps_eight, properOps_cons, properOps_cons]
    exact ⟨⟨0, by decide, .inr rfl, rfl⟩, ⟨2, by decide, .inl rfl, rfl⟩, properOps_nil⟩

/-- What holds of the code of the handler of `line`, which is given the lines that the controllers
put in service with it. -/
structure HandlerOf (line : Nat) (c : Switch) (ops : List IrqOp) : Prop where
  proper : ProperOps ops
  upcoming : ∀ n, n ∈ upcoming ops ↔ n = line ∨ n = masterLine line
  stays : c = .stay → ops.any IrqOp.changesStack = false

theorem handlerOf_periodicInterruptHandlerOps (c : Switch) :
    HandlerOf 8 c (periodicInterruptHandlerOps c) where
  proper := by
    have heoi := properOps_sendEoiOps (.inr rfl)
    cases c <;> simp [periodicInterruptHandlerOps, doEventsOps, runProcOps, IrqOp.Proper, heoi]
  upcoming := by
    intro n
    cases c <;> simp [periodicInterruptHandlerOps, doEventsOps, runProcOps, sendEoiOps_eight,
      OreOS.upcoming, ackedLine, master8259Port, slave8259Port, masterLine]
  stays := by
    rintro rfl
    rw [periodicInterruptHandlerOps, sendEoiOps_eight]
    rfl

theorem handlerOf_keyboardHandlerOps (c : Switch) : HandlerOf 1 c (keyboardHandlerOps c) where
  proper := by
    have heoi := properOps_sendEoiOps (.inl (by decide : 1 < 8))
    cases c <;> simp [keyboardHandlerOps, switchTermOps, runProcOps, IrqOp.Proper, heoi]
  upcoming := by
    intro n
    cases c <;> simp [keyboardHandlerOps, switchTermOps, runProcOps, sendEoiOps_low,
      OreOS.upcoming, ackedLine, master8259Port, masterLine]
  stays := by
    rintro rfl
    rw [keyboardHandlerOps, sendEoiOps_low (by decide)]
    rfl

/-! ## The controllers as `entry` leaves them -/

/-- The lines 1, 2 and 8 are open. -/
def Booted (P : PicPair) : Prop := IrqMachine.Programmed ⟨⟨0xF9, 0xFE, []⟩, P⟩

theorem bootPics_booted (hw : PicPair) :
    ∃ P, Irqs.bootPics hw = some P ∧ Booted P ∧ ∀ n, P.inService n = false := by
  obtain ⟨m₀, h₀, hp₀, hidle⟩ := i8259Init_programmed ⟨⟨0, 0, []⟩, hw⟩
  obtain ⟨m₁, h₁, hs₁, hp₁⟩ := hp₀.enableIrq 1
  obtain ⟨m₂, h₂, hs₂, hp₂⟩ := hp₁.enableIrq 2
  obtain ⟨m₃, h₃, hs₃, hp₃⟩ := hp₂.enableIrq 8
  have hsoft : m₃.soft = ((((⟨0, 0, []⟩ : I8259).i8259Init.enableIrq (1 : Fin 16)).enableIrq
      (2 : Fin 16)).enableIrq (8 : Fin 16)) := by
    rw [IrqMachine.call_soft h₃, IrqMachine.call_soft h₂, IrqMachine.call_soft h₁,
      IrqMachine.call_soft h₀]
  have hmasks : m₃.soft.masterMask = 0xF9 ∧ m₃.soft.slaveMask = 0xFE := by
    rw [hsoft]
    decide
  refine ⟨m₃.hard, ?_, ⟨?_, ?_⟩, ?_⟩
  · have h₁ : m₀.call (I8259.enableIrq 1) = some m₁ := h₁
    have h₂ : m₁.call (I8259.enableIrq 2) = some m₂ := h₂
    have h₃ : m₂.call (I8259.enableIrq 8) = some m₃ := h₃
    simp only [Irqs.bootPics, Option.bind_eq_bind, h₀, h₁, h₂, h₃, Option.bind_some]
    rfl
  · rw [hp₃.master, hmasks.1]
  · rw [hp₃.slave, hmasks.2]
  · intro n
    rw [hs₃.2.2, hs₂.2.2, hs₁.2.2, hidle]

namespace Booted

variable {P P' : PicPair} (h : Booted P)
include h

theorem of_sameProgram (hP : P'.SameProgram P) : Booted P' :=
  ⟨hP.1.trans h.master, hP.2.trans h.slave⟩

theorem masked_eq_false {line : Nat} (hline : line < 16) (hopen : P.masked line = false) :
    line = 1 ∨ line = 2 ∨ line = 8 := by
  have hsoft : ∀ line : Fin 16, I8259.masked ⟨0xF9, 0xFE, []⟩ line = false →
      line.val = 1 ∨ line.val = 2 ∨ line.val = 8 := by
    decide
  exact hsoft ⟨line, hline⟩ ((h.masked_eq ⟨line, hline⟩).symm.trans hopen)

theorem open_one_two_eight : P.masked 1 = false ∧ P.masked 2 = false ∧ P.masked 8 = false :=
  have hsoft : I8259.masked ⟨0xF9, 0xFE, []⟩ 1 = false ∧ I8259.masked ⟨0xF9, 0xFE, []⟩ 2 = false ∧
      I8259.masked ⟨0xF9, 0xFE, []⟩ 8 = false := by
    decide
  ⟨(h.masked_eq 1).trans hsoft.1, (h.masked_eq 2).trans hsoft.2.1, (h.masked_eq 8).trans hsoft.2.2⟩

/-- The processor takes interrupts of the keyboard and of the clock only. -/
theorem acknowledge_line {v : BitVec 8} (ha : P.acknowledge = some (v, P')) :
    ∃ line, (line = 1 ∧ v = 33 ∨ line = 8 ∧ v = 40) ∧ P.Takes line P' := by
  obtain ⟨line, hv, htakes⟩ := PicPair.acknowledge_takes h.normalEoi ha
  refine ⟨line, ?_, htakes⟩
  have hvector : v = BitVec.ofNat 8 (32 + line) := hv.trans (h.vector_eq line)
  obtain ⟨hlt, h2⟩ := htakes.device
  rcases h.masked_eq_false hlt htakes.unmasked.1 with rfl | rfl | rfl
  · exact .inl ⟨rfl, hvector⟩
  · exact absurd rfl h2
  · exact .inr ⟨rfl, hvector⟩

end Booted

/-- An end of interrupt takes its line out of service. -/
theorem outb_eoi (P : PicPair) {port k : Nat} (hport : port = 0x20 ∨ port = 0xA0) (hk : k < 8) :
    ∃ a P', ackedLine port (0x60#8 ||| BitVec.ofNat 8 k) = some a ∧
      P.outb (0x60#8 ||| BitVec.ofNat 8 k) port = some P' ∧ P'.SameProgram P ∧
      ∀ n < 16, P'.inService n = (P.inService n && !decide (n = a)) := by
  have hlow : ∀ k < 8, ((0x60#8 ||| BitVec.ofNat 8 k) &&& 7).toNat = k := by decide
  rcases hport with rfl | rfl
  · refine ⟨k, { P with master := P.master.endOf k }, ?_, ?_, ⟨rfl, rfl⟩, ?_⟩
    · rw [ackedLine, master8259Port, if_pos rfl, hlow k hk]
    · rw [PicPair.outb, if_pos rfl, Pic.command_eoi _ hk, Option.map_some]
    · intro n _
      by_cases h8 : n < 8
      · by_cases hnk : n = k <;> simp [PicPair.inService, h8, hk, Pic.endOf, hnk]
      · have hnk : n ≠ k := by omega
        simp [PicPair.inService, h8, hnk]
  · refine ⟨8 + k, { P with slave := P.slave.endOf k }, ?_, ?_, ⟨rfl, rfl⟩, ?_⟩
    · rw [ackedLine, master8259Port, slave8259Port, if_neg (by decide), if_pos rfl, hlow k hk]
    · rw [PicPair.outb, if_neg (by decide), if_neg (by decide), if_pos rfl, Pic.command_eoi _ hk,
        Option.map_some]
    · intro n _
      by_cases h8 : n < 8
      · have hnk : n ≠ 8 + k := by omega
        simp [PicPair.inService, h8, hnk]
      · have hsame : n - 8 = k ↔ n = 8 + k := by omega
        simp only [PicPair.inService, h8, if_false, Pic.endOf, Function.update_apply, hsame]
        by_cases hnk : n = 8 + k <;> simp [hnk]

/-! ## The invariant -/

namespace Activation

/-- A handler acknowledges what it owes before it changes the stack or ends. -/
structure Honest (f : Activation) : Prop where
  proper : ProperOps f.ops
  upcoming : ∀ n ∈ f.owes, n < 16 ∧ n ∈ upcoming f.ops

/-- What the handler `f` does leaves alone what `g`, further down, owes. -/
structure Spares (f g : Activation) : Prop where
  apart : ∀ n ∈ upcoming f.ops, n ∉ g.owes
  stays : f.ops.any IrqOp.changesStack = true → g.owes = []

end Activation

open Activation

/-- What holds of the handlers on one kernel stack. -/
structure StackInv (fs : List Activation) : Prop where
  honest : ∀ f ∈ fs, f.Honest
  spares : fs.Pairwise Spares

/-- The lines in service are those that a handler on the stack in use owes. -/
structure ServiceInv (s : Irqs) : Prop where
  booted : Booted s.pics
  inService : ∀ n < 16, s.pics.inService n = true ↔ ∃ f ∈ s.stack, n ∈ f.owes
  stack : StackInv s.stack
  saved : ∀ t fs, s.saved t = some fs → ∀ f ∈ fs, ProperOps f.ops ∧ f.owes = []

theorem exists_owes_cons {f : Activation} {fs : List Activation} {n : Nat} :
    (∃ g ∈ f :: fs, n ∈ g.owes) ↔ n ∈ f.owes ∨ ∃ g ∈ fs, n ∈ g.owes := by
  simp

theorem stackInv_cons {f : Activation} {fs : List Activation} :
    StackInv (f :: fs) ↔ (f.Honest ∧ ∀ g ∈ fs, f.Spares g) ∧ StackInv fs := by
  constructor
  · rintro ⟨hhonest, hspares⟩
    rw [List.pairwise_cons] at hspares
    exact ⟨⟨hhonest f (by simp), hspares.1⟩, fun g hg => hhonest g (by simp [hg]), hspares.2⟩
  · rintro ⟨⟨hf, hspares⟩, hfs⟩
    refine ⟨?_, List.pairwise_cons.mpr ⟨hspares, hfs.spares⟩⟩
    intro g hg
    rcases List.mem_cons.mp hg with rfl | hg
    · exact hf
    · exact hfs.honest g hg

/-- A stack that was left has nothing to acknowledge. -/
theorem stackInv_of_settled {fs : List Activation} (h : ∀ f ∈ fs, ProperOps f.ops ∧ f.owes = []) :
    StackInv fs where
  honest f hf := ⟨(h f hf).1, by simp [(h f hf).2]⟩
  spares := by
    refine List.pairwise_of_forall_mem_list fun f _ g hg => ⟨?_, fun _ => (h g hg).2⟩
    simp [(h g hg).2]

/-- The operations that acknowledge nothing and keep the stack. -/
def IrqOp.Quiet : IrqOp → Prop
  | .cli | .sti | .leave _ | .returns => True
  | _ => False

theorem upcoming_quiet {op : IrqOp} (hop : op.Quiet) (ops : List IrqOp) :
    upcoming (op :: ops) = upcoming ops := by
  cases op <;> first | rfl | exact absurd hop id

namespace Activation

variable {f g : Activation} {op : IrqOp} {ops : List IrqOp}

theorem Honest.pop (h : f.Honest) (hf : f.ops = op :: ops) (hop : op.Quiet) : f.pop.Honest := by
  obtain ⟨hproper, hupcoming⟩ := h
  rw [hf] at hproper hupcoming
  rw [upcoming_quiet hop] at hupcoming
  refine ⟨?_, ?_⟩
  · rw [Activation.pop, hf]
    exact (properOps_cons.mp hproper).2
  · rw [Activation.pop, hf]
    exact hupcoming

theorem Spares.pop (h : f.Spares g) (hf : f.ops = op :: ops) (hop : op.Quiet) : f.pop.Spares g := by
  obtain ⟨hapart, hstays⟩ := h
  rw [hf] at hapart hstays
  rw [upcoming_quiet hop] at hapart
  refine ⟨?_, ?_⟩
  · rw [Activation.pop, hf]
    exact hapart
  · rw [Activation.pop, hf]
    intro hany
    exact hstays (by simp [show ops.any IrqOp.changesStack = true from hany])

theorem properOps_resumed (h : ProperOps f.ops) : ProperOps f.resumed.ops := fun op hop =>
  h op ((List.dropWhile_sublist _).subset (List.mem_of_mem_tail hop))

end Activation

/-- The handler that the processor enters. -/
theorem handlerOf_vector (c : Switch) {line : Nat} {v : BitVec 8}
    (h : line = 1 ∧ v = 33 ∨ line = 8 ∧ v = 40) :
    HandlerOf line c ((handlerOf v.toNat).ops c) := by
  rcases h with ⟨rfl, rfl⟩ | ⟨rfl, rfl⟩
  · exact handlerOf_keyboardHandlerOps c
  · exact handlerOf_periodicInterruptHandlerOps c

theorem mem_newlyServed {s : Irqs} {P : PicPair} {line : Nat} (h : s.pics.Takes line P) (n : Nat) :
    n ∈ s.newlyServed P ↔ n = line ∨ n = masterLine line := by
  have hfree : ∀ j, j = line ∨ j = masterLine line → j < 16 ∧ s.pics.inService j = false := by
    have hlt := h.device.1
    intro j hj
    by_cases h8 : line < 8
    · rw [masterLine, if_pos h8] at hj
      refine ⟨by omega, h.prior j (.inl ?_)⟩
      rw [masterLine, if_pos h8]
      omega
    · rw [masterLine, if_neg h8] at hj
      refine ⟨by omega, h.prior j ?_⟩
      rw [masterLine, if_neg h8]
      omega
  rw [Irqs.newlyServed, List.mem_filter, List.mem_range, h.served]
  constructor
  · rintro ⟨-, hnew⟩
    obtain ⟨hserved, hold⟩ := (Bool.and_eq_true _ _).mp hnew
    simpa [(Bool.not_eq_true' _).mp hold] using hserved
  · intro hn
    obtain ⟨hlt, hidle⟩ := hfree n hn
    exact ⟨hlt, by simp [hidle, hn]⟩

/-! ## Steps -/

/-- No handler that goes to another terminal begins while a line is in service. -/
def Irqs.Calm (s : Irqs) : IrqStep → Prop
  | .accept c => c = .stay ∨ ∀ n < 16, s.pics.inService n = false
  | _ => True

namespace ServiceInv

variable {s t : Irqs} (h : ServiceInv s)
include h

theorem idle (hstack : ∀ f ∈ s.stack, f.owes = []) (n : Nat) (hn : n < 16) :
    s.pics.inService n = false := by
  rw [← Bool.not_eq_true, h.inService n hn]
  rintro ⟨f, hf, hmem⟩
  rw [hstack f hf] at hmem
  exact absurd hmem List.not_mem_nil

theorem raise (line : Nat) : ServiceInv { s with pics := s.pics.raise line } where
  booted := (h.booted.raise line).2
  inService n hn := by
    rw [(h.booted.raise line).1]
    exact h.inService n hn
  stack := h.stack
  saved := h.saved

/-- The controllers put the lines of a handler in service that no other handler owes. -/
theorem accept {c : Switch} (hcalm : s.Calm (.accept c)) (hstep : s.step (.accept c) = some t) :
    ServiceInv t := by
  rw [Irqs.step] at hstep
  split at hstep
  case isFalse => cases hstep
  split at hstep
  · cases hstep
  next v P hack =>
    cases hstep
    obtain ⟨line, hline, htakes⟩ := h.booted.acknowledge_line hack
    obtain ⟨hproper, hupcoming, hstays⟩ := handlerOf_vector c hline
    have hnew := mem_newlyServed htakes
    have hserved : ∀ n < 16, P.inService n = true ↔ s.pics.inService n = true ∨
        n ∈ s.newlyServed P := by
      intro n _
      rw [htakes.served, Bool.or_eq_true, decide_eq_true_iff, hnew]
    refine ⟨h.booted.of_sameProgram htakes.program, ?_,
      stackInv_cons.mpr ⟨⟨⟨hproper, ?_⟩, ?_⟩, h.stack⟩, h.saved⟩
    · intro n hn
      refine (hserved n hn).trans (Iff.trans ?_ exists_owes_cons.symm)
      rw [h.inService n hn, or_comm]
    · intro n hn
      refine ⟨?_, (hupcoming n).mpr ((hnew n).mp hn)⟩
      rw [Irqs.newlyServed, List.mem_filter, List.mem_range] at hn
      exact hn.1
    · intro g hg
      constructor
      · intro n hn howes
        have hmem : n ∈ s.newlyServed P := (hnew n).mpr ((hupcoming n).mp hn)
        rw [Irqs.newlyServed, List.mem_filter, List.mem_range, Bool.and_eq_true, Bool.not_eq_true']
          at hmem
        have hin := (h.inService n hmem.1).mpr ⟨g, hg, howes⟩
        exact absurd (hin.symm.trans hmem.2.2) (by decide)
      · intro hany
        rcases hcalm with hstay | hidle
        · exact absurd (hany.symm.trans (hstays hstay)) (by decide)
        · apply List.eq_nil_iff_forall_not_mem.mpr
          intro n howes
          have hlt := (h.stack.honest g hg).upcoming n howes
          have hin := (h.inService n hlt.1).mpr ⟨g, hg, howes⟩
          exact absurd (hin.symm.trans (hidle n hlt.1)) (by decide)

/-- An operation that acknowledges nothing and keeps the stack. -/
theorem pop {f : Activation} {fs : List Activation} {op : IrqOp} {ops : List IrqOp}
    (hstack : s.stack = f :: fs) (hf : f.ops = op :: ops) (hop : op.Quiet) (ifOn : Bool) :
    ServiceInv { s with ifOn, stack := f.pop :: fs } := by
  have hinv := h.stack
  rw [hstack, stackInv_cons] at hinv
  refine ⟨h.booted, ?_, stackInv_cons.mpr
    ⟨⟨hinv.1.1.pop hf hop, ?_⟩, hinv.2⟩, h.saved⟩
  · intro n hn
    have hin := h.inService n hn
    rw [hstack] at hin
    simpa [Activation.pop] using hin
  · intro g hg
    exact (hinv.1.2 g hg).pop hf hop

/-- What is left on a stack that is not in use any more owes nothing. -/
theorem leave {f : Activation} {fs : List Activation} (hstack : s.stack = f :: fs) (k : Nat) :
    ServiceInv { s with
      saved := Function.update s.saved s.bgTerm (some (f.resumed :: fs.map Activation.settled))
      bgTerm := k } := by
  refine ⟨h.booted, h.inService, h.stack, ?_⟩
  intro t gs hgs
  have hinv := h.stack.honest
  rw [hstack] at hinv
  by_cases ht : t = s.bgTerm
  · subst ht
    change Function.update s.saved s.bgTerm _ s.bgTerm = some gs at hgs
    rw [Function.update_self, Option.some.injEq] at hgs
    subst hgs
    intro g hg
    rcases List.mem_cons.mp hg with rfl | hg
    · exact ⟨Activation.properOps_resumed (hinv f (by simp)).proper, rfl⟩
    · obtain ⟨g', hg', rfl⟩ := List.mem_map.mp hg
      exact ⟨(hinv g' (by simp [hg'])).proper, rfl⟩
  · exact h.saved t gs ((Function.update_of_ne ht ..).symm.trans hgs)

/-- A byte to a controller. -/
theorem outb {f : Activation} {fs : List Activation} {port : Nat} {data : BitVec 8}
    {ops : List IrqOp}
    {P : PicPair} (hstack : s.stack = f :: fs) (hf : f.ops = .outb port data :: ops)
    (hP : s.pics.outb data port = some P) :
    ServiceInv { s with pics := P, stack := f.pop.acked port data :: fs } := by
  have hinv := h.stack
  rw [hstack, stackInv_cons] at hinv
  obtain ⟨⟨hhonest, hspares⟩, hfs⟩ := hinv
  have hproper := hhonest.proper
  rw [hf, properOps_cons] at hproper
  obtain ⟨⟨k, hk, hport, rfl⟩, hproper⟩ := hproper
  obtain ⟨a, P', hacked, hP', hsame, hserved⟩ := outb_eoi s.pics hport hk
  obtain rfl : P' = P := Option.some.inj (hP'.symm.trans hP)
  have hupcoming : upcoming f.ops = a :: upcoming ops := by
    rw [hf, upcoming, hacked]
    rfl
  have howes : (f.pop.acked port (0x60#8 ||| BitVec.ofNat 8 k)).owes = f.owes.filter (· ≠ a) := by
    simp [Activation.acked, Activation.pop, hacked]
  have hrest : (f.pop.acked port (0x60#8 ||| BitVec.ofNat 8 k)).ops = ops := by
    simp [Activation.acked, Activation.pop, hf]
  refine ⟨h.booted.of_sameProgram hsame, ?_,
    stackInv_cons.mpr ⟨⟨⟨?_, ?_⟩, fun g hg => ⟨?_, ?_⟩⟩, hfs⟩,
    h.saved⟩
  · intro n hn
    have hin := h.inService n hn
    rw [hstack, exists_owes_cons] at hin
    rw [hserved n hn, Bool.and_eq_true, hin, exists_owes_cons, howes]
    by_cases hna : n = a
    · have hothers : ∀ g ∈ fs, n ∉ g.owes :=
        fun g hg => (hspares g hg).apart n (by simp [hupcoming, hna])
      subst hna
      simpa using hothers
    · simp [hna]
  · rw [hrest]
    exact hproper
  · intro n hn
    rw [howes, List.mem_filter] at hn
    obtain ⟨hlt, hmem⟩ := hhonest.upcoming n hn.1
    rw [hupcoming, List.mem_cons] at hmem
    rw [hrest]
    exact ⟨hlt, hmem.resolve_left (by simpa using hn.2)⟩
  · rw [hrest]
    intro n hn
    exact (hspares g hg).apart n (by simp [hupcoming, hn])
  · rw [hrest]
    intro hany
    apply (hspares g hg).stays
    rw [hf, List.any_cons, hany, Bool.or_true]

/-- Where the innermost handler has nothing to acknowledge any more and may change the stack, no
handler has. -/
theorem settled_of_changesStack {f : Activation} {fs : List Activation} {op : IrqOp}
    {ops : List IrqOp}
    (hstack : s.stack = f :: fs) (hf : f.ops = op :: ops) (hop : op.changesStack = true) :
    ∀ n < 16, s.pics.inService n = false := by
  have hinv := h.stack
  rw [hstack, stackInv_cons] at hinv
  have hnone : upcoming f.ops = [] := by
    rw [hf]
    cases op <;> first | rfl | exact absurd hop Bool.false_ne_true
  apply h.idle
  intro g hg
  rw [hstack] at hg
  rcases List.mem_cons.mp hg with rfl | hg
  · apply List.eq_nil_iff_forall_not_mem.mpr
    intro n hn
    have := (hinv.1.1.upcoming n hn).2
    rw [hnone] at this
    exact absurd this List.not_mem_nil
  · exact (hinv.1.2 g hg).stays (by rw [hf, List.any_cons, hop, Bool.true_or])

/-- Another stack, on which nothing is owed. -/
theorem change {fs : List Activation} (hidle : ∀ n < 16, s.pics.inService n = false)
    (hfs : ∀ f ∈ fs, ProperOps f.ops ∧ f.owes = []) (ifOn : Bool) (bgTerm : Nat) :
    ServiceInv { s with ifOn, stack := fs, bgTerm } where
  booted := h.booted
  inService n hn := by
    rw [hidle n hn]
    constructor
    · intro hfalse
      cases hfalse
    · rintro ⟨f, hf, hmem⟩
      rw [(hfs f hf).2] at hmem
      exact absurd hmem List.not_mem_nil
  stack := stackInv_of_settled hfs
  saved := h.saved

/-- A handler that ends owes nothing. -/
theorem iret {f : Activation} {fs : List Activation} {ops : List IrqOp} (hstack : s.stack = f :: fs)
    (hf : f.ops = .iret :: ops) (ifOn : Bool) : ServiceInv { s with ifOn, stack := fs } := by
  have hinv := h.stack
  rw [hstack, stackInv_cons] at hinv
  refine ⟨h.booted, ?_, hinv.2, h.saved⟩
  intro n hn
  have hin := h.inService n hn
  have hnone : n ∉ f.owes := by
    intro hmem
    have := (hinv.1.1.upcoming n hmem).2
    rw [hf] at this
    exact absurd this List.not_mem_nil
  rwa [hstack, exists_owes_cons, or_iff_right hnone] at hin

end ServiceInv

theorem step_exec {s : Irqs} {f : Activation} {fs : List Activation} {op : IrqOp} {ops : List IrqOp}
    (hstack : s.stack = f :: fs) (hops : f.ops = op :: ops) : s.step .exec = s.execOp f fs op := by
  simp [Irqs.step, hstack, hops]

/-- Every step keeps the lines in service those that are owed. -/
theorem ServiceInv.step {s t : Irqs} {e : IrqStep} (h : ServiceInv s) (hcalm : s.Calm e)
    (hstep : s.step e = some t) :
    ServiceInv t := by
  cases e with
  | raise line =>
    cases hstep
    exact h.raise line
  | accept c => exact h.accept hcalm hstep
  | flag on =>
    rw [Irqs.step] at hstep
    split at hstep
    · cases hstep
      exact ⟨h.booted, h.inService, h.stack, h.saved⟩
    · cases hstep
  | program slot =>
    rw [Irqs.step] at hstep
    split at hstep
    · cases hstep
      exact ⟨h.booted, h.inService, h.stack, h.saved⟩
    · cases hstep
  | exec =>
    cases hstack : s.stack with
    | nil =>
      rw [Irqs.step, hstack] at hstep
      cases hstep
    | cons f fs =>
      cases hops : f.ops with
      | nil =>
        have hsame : s.step .exec = some s := by simp [Irqs.step, hstack, hops]
        rw [hsame] at hstep
        cases hstep
        exact h
      | cons op ops =>
        rw [step_exec hstack hops] at hstep
        cases op with
        | cli =>
          cases hstep
          exact h.pop hstack hops trivial false
        | sti =>
          cases hstep
          exact h.pop hstack hops trivial true
        | returns =>
          cases hstep
          exact h.pop hstack hops trivial s.ifOn
        | leave k =>
          rw [Irqs.execOp] at hstep
          split at hstep
          · cases hstep
            exact (h.leave hstack k).pop hstack hops trivial s.ifOn
          · cases hstep
        | outb port data =>
          obtain ⟨P, hP, rfl⟩ := Option.map_eq_some_iff.mp hstep
          exact h.outb hstack hops hP
        | load k =>
          obtain ⟨gs, hgs, rfl⟩ := Option.map_eq_some_iff.mp hstep
          exact h.change (h.settled_of_changesStack hstack hops rfl) (h.saved k gs hgs)
            s.ifOn s.bgTerm
        | start slot =>
          cases hstep
          exact h.change (h.settled_of_changesStack hstack hops rfl) (by simp) true slot
        | iret =>
          cases hstep
          exact h.iret hstack hops true

theorem boot_serviceInv {hw : PicPair} {s : Irqs} (h : Irqs.boot hw = some s) : ServiceInv s := by
  obtain ⟨P, hP, hbooted, hidle⟩ := bootPics_booted hw
  rw [Irqs.boot, hP] at h
  cases h
  exact ⟨hbooted, fun n _ => by simp [hidle], ⟨by simp, List.Pairwise.nil⟩, by simp⟩

/-- From the start of the kernel on, in any order of requests, interrupts and operations. -/
theorem lines_in_service_are_acknowledged {hw : PicPair} {es : List IrqStep} {s₀ s : Irqs}
    (hboot : Irqs.boot hw = some s₀) (hcalm : EachStep Irqs.step Irqs.Calm s₀ es)
    (hrun : runFrom Irqs.step s₀ es = some s) :
    (∀ n < 16, s.pics.inService n = true → ∃ f ∈ s.stack, n ∈ upcoming f.ops) ∧
      s.stack.Pairwise (fun f g => ∀ n ∈ upcoming f.ops, n ∉ g.owes) ∧
      (s.stack = [] → s.ifOn = true → ∀ line, line = 1 ∨ line = 8 → s.pics.requested line = true →
        ∀ c, ∃ t f, s.step (.accept c) = some t ∧ t.stack = [f] ∧
          (f.ops = periodicInterruptHandlerOps c ∨ f.ops = keyboardHandlerOps c)) := by
  have hinv : ServiceInv s := inv_runFrom (fun _ _ _ => ServiceInv.step)
    (boot_serviceInv hboot) hcalm hrun
  refine ⟨?_, hinv.stack.spares.imp fun hspares => hspares.apart, ?_⟩
  · intro n hn hin
    obtain ⟨f, hf, hmem⟩ := (hinv.inService n hn).mp hin
    exact ⟨f, hf, ((hinv.stack.honest f hf).upcoming n hmem).2⟩
  · intro hstack hon line hline hrequested c
    have hidle := hinv.idle (by simp [hstack])
    obtain ⟨h1, h2, h8⟩ := hinv.booted.open_one_two_eight
    have hopen : s.pics.masked line = false ∧ s.pics.masked (masterLine line) = false := by
      rcases hline with rfl | rfl
      · exact ⟨h1, h1⟩
      · exact ⟨h8, h2⟩
    have hsome := PicPair.acknowledge_isSome hidle (by omega) (by omega) hrequested hopen.1 hopen.2
    obtain ⟨⟨v, P⟩, hack⟩ := Option.isSome_iff_exists.mp hsome
    obtain ⟨taken, htaken, -⟩ := hinv.booted.acknowledge_line hack
    refine ⟨_, _, by rw [Irqs.step, if_pos hon, hack], by rw [hstack], ?_⟩
    rcases htaken with ⟨-, rfl⟩ | ⟨-, rfl⟩
    · exact .inr rfl
    · exact .inl rfl

/-- Controllers that were not programmed yet. -/
def coldPics : PicPair where
  master := ⟨⟨.ready, false, false, 0, 0, 0, 0⟩, fun _ => false, fun _ => false⟩
  slave := ⟨⟨.ready, false, false, 0, 0, 0, 0⟩, fun _ => false, fun _ => false⟩

/-- A key arrives inside the clock handler, before its end of interrupt. -/
theorem lines_in_service_are_acknowledged_nested :
    ∃ s₀ s, Irqs.boot coldPics = some s₀ ∧
      runFrom Irqs.step s₀ [.raise 8, .accept .stay, .exec, .exec, .exec, .raise 1, .accept .stay] =
      some s ∧ s.stack.length = 2 ∧ s.pics.inService 8 = true ∧
      ∀ n < 16, s.pics.inService n = true → ∃ f ∈ s.stack, n ∈ upcoming f.ops := by
  refine ⟨_, _, by rfl, by rfl, by rfl, by rfl, ?_⟩
  refine (@lines_in_service_are_acknowledged coldPics
    [.raise 8, .accept .stay, .exec, .exec, .exec, .raise 1, .accept .stay] _ _ rfl ?_ rfl).1
  exact ⟨trivial, fun _ _ => ⟨.inl rfl, fun _ _ => ⟨trivial, fun _ _ => ⟨trivial, fun _ _ =>
    ⟨trivial, fun _ _ =>
    ⟨trivial, fun _ _ => ⟨.inl rfl, fun _ _ => trivial⟩⟩⟩⟩⟩⟩⟩

end OreOS
