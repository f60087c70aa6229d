import OreOS.SysCall.Wrapper

/-!
# A system call from the program's side

A program calls a function of the library with three words on its stack. The handler of that name
starts with the same three words as its arguments, and what it returns is what the program gets,
with the stack pointer, `%ebx` and `%ebp` as they were. `%esi` and `%edi` are whatever the two
global words hold by then.
-/

namespace OreOS
open Machine Core

/-- The words of the program's stack that the call reads or writes. -/
def userWords (esp : Word) : List Word := [esp - 4, esp, esp + 4, esp + 8, esp + 12]

/-- The words of the kernel's stack below `esp0`, those of the program's stack, and the two global
words do not overlap. -/
structure LaidOut (esp0 esp : Word) (g : StubWords) : Prop where
  user : ∀ i < 10, ∀ u ∈ userWords esp, Apart (pushed esp0 i) u
  kernelEsi : ∀ i < 10, Apart (pushed esp0 i) g.restoreEsi
  kernelEdi : ∀ i < 10, Apart (pushed esp0 i) g.restoreEdi
  userEsi : ∀ u ∈ userWords esp, Apart g.restoreEsi u
  userEdi : ∀ u ∈ userWords esp, Apart g.restoreEdi u
  globals : Apart g.restoreEdi g.restoreEsi

/-- The handler of the call returns as a C function does, to the core `c₂`. Its arguments are
its own; the words above them and those in which the wrapper keeps `%ebx` and its return address
stay as they are. -/
structure ReturnsTo (esp0 sp : Word) (c₁ c₂ : Core) : Prop where
  esp : c₂.esp = c₁.esp + 4
  ebp : c₂.ebp = c₁.ebp
  kernel : ∀ i < 6, c₂.load (pushed esp0 i) = c₁.load (pushed esp0 i)
  savedEbx : c₂.load (sp - 4) = c₁.load (sp - 4)
  returnAddress : c₂.load sp = c₁.load sp

section
variable {esp0 : Word} {m : UserMode} {g : StubWords} {number : Word} {c : Core} {u : Core}

/-! ## The way in -/

/-- The words that the interrupt pushes, and the program's `%ebp`. -/
def frameWords (m : UserMode) (u : Core) : List Word := [m.ss, u.esp, m.eflags, m.cs, m.eip, u.ebp]

/-- The words that the stub pushes for the handler. -/
def argumentWords (g : StubWords) (u : Core) : List Word := [u.edx, u.ecx, u.ebx, g.behindCall]

/-- The kernel's stack when `%ebp` has been saved. -/
def entryFrame (esp0 : Word) (m : UserMode) (u : Core) : Core :=
  (u.setEsp esp0).pushAll (frameWords m u)

/-- The core when the stub pushes the arguments. -/
def beforeArguments (esp0 : Word) (m : UserMode) (g : StubWords) (u : Core) : Core :=
  let k := entryFrame esp0 m u
  (((k.setEbp k.esp).store g.restoreEsi u.esi).store g.restoreEdi u.edi).setEax (tableIndex u.eax)

theorem stubEntry_eq : stubEntry g (intSyscall esp0 m u) =
    (beforeArguments esp0 m g u).pushAll (argumentWords g u) := by
  simp [stubEntry, intSyscall, beforeArguments, argumentWords, frameWords, entryFrame, setEax_push]

theorem frameWords_length : (frameWords m u).length = 6 := rfl

theorem argumentWords_length : (argumentWords g u).length = 4 := rfl

theorem beforeArguments_esp : (beforeArguments esp0 m g u).esp = pushed esp0 5 := by
  simp only [beforeArguments, setEax_esp, store_esp, setEbp_esp, entryFrame, pushAll_esp,
    setEsp_esp, frameWords_length, pushed]

theorem pushed_add (i j : Nat) : pushed (pushed esp0 i) j = pushed esp0 (i + 1 + j) := by
  unfold pushed
  bv_omega

/-- The words that have been written before the arguments. -/
theorem load_beforeArguments {a : Word} (h : ∀ i, 6 ≤ i → i < 10 → Apart (pushed esp0 i) a) :
    (stubEntry g (intSyscall esp0 m u)).load a = (beforeArguments esp0 m g u).load a := by
  rw [stubEntry_eq, load_pushAll]
  intro i hi
  rw [argumentWords_length] at hi
  rw [beforeArguments_esp, pushed_add]
  exact h _ (by omega) (by omega)

/-- The stores into the two global words. -/
theorem load_entryFrame {a : Word} (hesi : Apart g.restoreEsi a) (hedi : Apart g.restoreEdi a) :
    (beforeArguments esp0 m g u).load a = (entryFrame esp0 m u).load a :=
  (load_store hedi).trans (load_store hesi)

/-- The words that are not written at all. -/
theorem load_stubEntry {a : Word} (hk : ∀ i < 10, Apart (pushed esp0 i) a)
    (hesi : Apart g.restoreEsi a)
    (hedi : Apart g.restoreEdi a) : (stubEntry g (intSyscall esp0 m u)).load a = u.load a := by
  rw [load_beforeArguments fun i _ hi => hk i hi, load_entryFrame hesi hedi, entryFrame,
    load_pushAll]
  · rfl
  · intro i hi
    rw [frameWords_length] at hi
    exact hk i (by omega)

/-- The words that the interrupt has pushed, and the program's `%ebp`. -/
theorem load_frame (h : LaidOut esp0 c.esp g) {i : Nat} (hi : i < 6) :
    (stubEntry g (intSyscall esp0 m u)).load (pushed esp0 i) = (frameWords m u)[i] := by
  rw [load_beforeArguments, load_entryFrame (h.kernelEsi i (by omega)).symm
    (h.kernelEdi i (by omega)).symm]
  · have hlen : 4 * (frameWords m u).length < 2 ^ 32 := by
      rw [frameWords_length]
      decide
    exact load_pushed (c := u.setEsp esp0) (frameWords_length ▸ hi) hlen
  · intro j hj hj'
    exact apart_pushed (n := 10) (by decide) hj' (by omega) (by omega)

/-- The words that are pushed for the handler. -/
theorem load_arguments {i : Nat} (hi : i < 4) :
    (stubEntry g (intSyscall esp0 m u)).load (pushed esp0 (6 + i)) = (argumentWords g u)[i] := by
  have hlen : 4 * (argumentWords g u).length < 2 ^ 32 := by
    rw [argumentWords_length]
    decide
  have hargs := load_pushed (c := beforeArguments esp0 m g u) (i := i)
    (argumentWords_length ▸ hi) hlen
  rwa [beforeArguments_esp, pushed_add, ← stubEntry_eq] at hargs

theorem load_restoreEsi (h : LaidOut esp0 c.esp g) :
    (stubEntry g (intSyscall esp0 m u)).load g.restoreEsi = u.esi := by
  rw [load_beforeArguments fun i _ hi => h.kernelEsi i hi]
  exact (load_store h.globals).trans load_store_self

theorem load_restoreEdi (h : LaidOut esp0 c.esp g) :
    (stubEntry g (intSyscall esp0 m u)).load g.restoreEdi = u.edi := by
  rw [load_beforeArguments fun i _ hi => h.kernelEdi i hi]
  exact load_store_self

/-! ## The wrapper -/

theorem apart_user {esp : Word} {u : Word} (hu : u ∈ [esp, esp + 4, esp + 8, esp + 12]) :
    Apart (esp - 4) u := by
  unfold Apart
  simp only [List.mem_cons, List.not_mem_nil, or_false] at hu
  rcases hu with rfl | rfl | rfl | rfl <;> bv_omega

theorem load_wrapperEntry (a : Word) : (wrapperEntry number c).load a = (c.push c.ebx).load a := rfl

/-- The registers in which the kernel finds the three words behind the return address. -/
theorem wrapperEntry_args : (wrapperEntry number c).ebx = c.load (c.esp + 4) ∧
    (wrapperEntry number c).ecx = c.load (c.esp + 8) ∧
    (wrapperEntry number c).edx = c.load (c.esp + 12) := by
  have hload : ∀ u ∈ [c.esp, c.esp + 4, c.esp + 8, c.esp + 12], (c.push c.ebx).load u = c.load u :=
    fun u hu => load_push (apart_user hu)
  have h8 : c.esp - 4 + 8 = c.esp + 4 := by bv_omega
  have h12 : c.esp - 4 + 12 = c.esp + 8 := by bv_omega
  have h16 : c.esp - 4 + 16 = c.esp + 12 := by bv_omega
  refine ⟨?_, ?_, ?_⟩
  · rw [← hload _ (by simp), ← h8]
    rfl
  · rw [← hload _ (by simp), ← h12]
    rfl
  · rw [← hload _ (by simp), ← h16]
    rfl

/-- The program's words when the handler starts: the wrapper has put `%ebx` below
its return address. -/
theorem load_user (h : LaidOut esp0 c.esp g) {a : Word} (ha : a ∈ userWords c.esp) :
    (stubEntry g (intSyscall esp0 m (wrapperEntry number c))).load a =
      if a = c.esp - 4 then c.ebx else c.load a := by
  rw [load_stubEntry (fun i hi => h.user i hi a ha) (h.userEsi a ha) (h.userEdi a ha),
    load_wrapperEntry]
  split
  next heq => rw [heq, load_push_self]
  next hne =>
    rw [userWords, List.mem_cons] at ha
    exact load_push (apart_user (ha.resolve_left hne))

/-! ## The way back -/

theorem stubExit_eq (c₂ : Core) : stubExit g c₂ =
    { c₂ with
      esi := c₂.load g.restoreEsi
      edi := c₂.load g.restoreEdi
      ebp := c₂.load c₂.ebp
      esp := c₂.ebp + 4 } := rfl

theorem stubEntry_ebp : (stubEntry g (intSyscall esp0 m u)).ebp = pushed esp0 5 := by
  rw [stubEntry_eq, pushAll_regs]
  simp only [beforeArguments, setEax_ebp, store_ebp, setEbp_ebp, entryFrame, pushAll_esp,
    setEsp_esp, frameWords_length, pushed]

/-- The interrupt frame, as the handler has left it. -/
theorem load_returned (h : LaidOut esp0 c.esp g) {c₂ : Core}
    (hret : ReturnsTo esp0 c.esp (stubEntry g (intSyscall esp0 m u)) c₂) {i : Nat} (hi : i < 6) :
    c₂.load (pushed esp0 i) = (frameWords m u)[i] := (hret.kernel i hi).trans (load_frame h hi)

theorem iret_stubExit (h : LaidOut esp0 c.esp g) {c₂ : Core}
    (hret : ReturnsTo esp0 c.esp (stubEntry g (intSyscall esp0 m u)) c₂) :
    iret (stubExit g c₂) = (m, { c₂ with
      esi := c₂.load g.restoreEsi
      edi := c₂.load g.restoreEdi
      ebp := u.ebp
      esp := u.esp }) := by
  have hebp : c₂.ebp = pushed esp0 5 := hret.ebp.trans stubEntry_ebp
  have hword {i : Nat} (hi : i < 6) := load_returned h hret hi
  have h0 : pushed esp0 5 + 4 = pushed esp0 4 := by unfold pushed; bv_omega
  have h4 : pushed esp0 4 + 4 = pushed esp0 3 := by unfold pushed; bv_omega
  have h8 : pushed esp0 4 + 8 = pushed esp0 2 := by unfold pushed; bv_omega
  have h12 : pushed esp0 4 + 12 = pushed esp0 1 := by unfold pushed; bv_omega
  have h16 : pushed esp0 4 + 16 = pushed esp0 0 := by unfold pushed; bv_omega
  have hesp : (stubExit g c₂).esp = pushed esp0 4 := by rw [stubExit_eq, hebp, h0]
  have hload (a : Word) : (stubExit g c₂).load a = c₂.load a := rfl
  -- the words that the interrupt has pushed, from the lowest one on
  have heip : c₂.load (pushed esp0 4) = m.eip := hword (by decide)
  have hcs : c₂.load (pushed esp0 3) = m.cs := hword (by decide)
  have heflags : c₂.load (pushed esp0 2) = m.eflags := hword (by decide)
  have husp : c₂.load (pushed esp0 1) = u.esp := hword (by decide)
  have hss : c₂.load (pushed esp0 0) = m.ss := hword (by decide)
  have hubp : c₂.load (pushed esp0 5) = u.ebp := hword (by decide)
  rw [iret, hesp, h4, h8, h12, h16, hload, hload, hload, hload, hload, heip, hcs,
    heflags, husp, hss, stubExit_eq, hebp, hubp]
  rfl

/-! ## The whole call -/

theorem dispatch_number {f : Syscall} {n : Word} (hf : f.number = some n) : dispatch n = f := by
  cases f <;> cases hf <;> rfl

/-- The numbers up to 11 are those within the table. -/
theorem number_dispatch (n : Word) : dispatch n = .error ∨ (dispatch n).number = some n := by
  by_cases hin : (n - 1#32).toInt < 0 ∨ 10 < (n - 1#32).toInt
  · exact .inl (if_pos hin)
  · obtain ⟨hlow, hhigh⟩ := not_or.mp hin
    rw [BitVec.toInt_eq_toNat_cond] at hlow hhigh
    have hcases : n = 1#32 ∨ n = 2#32 ∨ n = 3#32 ∨ n = 4#32 ∨ n = 5#32 ∨ n = 6#32 ∨ n = 7#32 ∨
        n = 8#32 ∨ n = 9#32 ∨ n = 10#32 ∨ n = 11#32 := by
      have hlt := (n - 1#32).isLt
      split at hlow
      · bv_omega
      · bv_omega
    rcases hcases with rfl | rfl | rfl | rfl | rfl | rfl | rfl | rfl | rfl | rfl | rfl <;> decide

/-- The handler is the one that has the number, or the one for all other numbers. -/
theorem dispatch_spec (n : Word) : (dispatch n).number = some n ∨
    dispatch n = .error ∧ ∀ f : Syscall, f.number ≠ some n := by
  rcases number_dispatch n with herror | hnumber
  · refine .inr ⟨herror, ?_⟩
    intro f hf
    obtain rfl : f = .error := (dispatch_number hf).symm.trans herror
    cases hf
  · exact .inl hnumber

/-- A program calls a function of the library, in any state of its registers and its stack. The
handler that has the number starts with the three words behind the return address as its
arguments, and the one that returns -1 if none has it. When it returns, the wrapper returns to
its caller with what the handler has put into `%eax`, and gives back the stack pointer, `%ebp`
and `%ebx`, and what `restore_esi` and `restore_edi` hold as `%esi` and `%edi`; the handler has
found the program's own there. -/
theorem program_calls_kernel (h : LaidOut esp0 c.esp g) {handler : Syscall → Core → Core}
    {f : Syscall} (hf : dispatch number = f) {c₁ c₂ : Core}
    (hc₁ : stubEntry g (intSyscall esp0 m (wrapperEntry number c)) = c₁) (hc₂ : handler f c₁ = c₂)
    (hret : ReturnsTo esp0 c.esp c₁ c₂) :
    (f.number = some number ∨ f = .error ∧ ∀ f' : Syscall, f'.number ≠ some number) ∧
      (c₁.load (c₁.esp + 4), c₁.load (c₁.esp + 8), c₁.load (c₁.esp + 12)) =
        (c.load (c.esp + 4), c.load (c.esp + 8), c.load (c.esp + 12)) ∧
      (c₁.load g.restoreEsi, c₁.load g.restoreEdi) = (c.esi, c.edi) ∧
      doCall esp0 m g handler number c = (c.load c.esp, m, { c₂ with
        ebx := c.ebx
        esi := c₂.load g.restoreEsi
        edi := c₂.load g.restoreEdi
        ebp := c.ebp
        esp := c.esp + 4 }) := by
  subst hc₁
  refine ⟨hf ▸ dispatch_spec number, ?_, ?_, ?_⟩
  · obtain ⟨hebx, hecx, hedx⟩ : (wrapperEntry number c).ebx = c.load (c.esp + 4) ∧
        (wrapperEntry number c).ecx = c.load (c.esp + 8) ∧ (wrapperEntry number c).edx = c.load
        (c.esp + 12) :=
      wrapperEntry_args
    have hesp : (stubEntry g (intSyscall esp0 m (wrapperEntry number c))).esp = pushed esp0 9 := by
      rw [stubEntry_eq, pushAll_esp, argumentWords_length, beforeArguments_esp]
      exact pushed_add 5 3
    have h4 : pushed esp0 9 + 4 = pushed esp0 8 := by unfold pushed; bv_omega
    have h8 : pushed esp0 9 + 8 = pushed esp0 7 := by unfold pushed; bv_omega
    have h12 : pushed esp0 9 + 12 = pushed esp0 6 := by unfold pushed; bv_omega
    rw [hesp, h4, h8, h12, ← hebx, ← hecx, ← hedx]
    exact Prod.ext (load_arguments (i := 2) (by decide))
      (Prod.ext (load_arguments (i := 1) (by decide)) (load_arguments (i := 0) (by decide)))
  · exact Prod.ext (load_restoreEsi h) (load_restoreEdi h)
  · have hstub : sysCallStub g handler (intSyscall esp0 m (wrapperEntry number c)) =
        stubExit g c₂ := by
      rw [← hc₂, ← hf]
      rfl
    have hebx : c₂.load (c.esp - 4) = c.ebx := by
      rw [hret.savedEbx, load_user h (by simp [userWords]), if_pos rfl]
    have hne : c.esp ≠ c.esp - 4 := by bv_omega
    have hra : c₂.load c.esp = c.load c.esp := by
      rw [hret.returnAddress, load_user h (by simp [userWords]), if_neg hne]
    have hesp : (wrapperEntry number c).esp = c.esp - 4 := rfl
    have hback : c.esp - 4 + 4 = c.esp := by bv_omega
    have hpop : ∀ k : Core, k.mem = c₂.mem → k.esp = c.esp - 4 →
        (k.popEbx.top, m, k.popEbx.drop) =
          (c.load c.esp, m, { k with ebx := c.ebx, esp := c.esp + 4 }) := by
      intro k hk hsp
      have htop : k.top = c.ebx := by rw [top, hsp, ← hebx, load, load, hk]
      have hpopped : k.popEbx = { k with ebx := c.ebx, esp := c.esp } := by
        rw [popEbx, htop, drop, setEbx_esp, hsp, hback]
        rfl
      have hload : Core.load { k with ebx := c.ebx, esp := c.esp } c.esp = c.load c.esp := by
        rw [← hra, load, load, ← hk]
      rw [hpopped, top, hload]
      rfl
    rw [doCall, hstub, iret_stubExit h hret]
    exact hpop _ rfl hesp

/-! ## A call of `ece391_read` -/

/-- A handler that returns -1, as a C function does. -/
def refuses (_ : Syscall) (c : Core) : Core := (c.setEax (-1)).drop

theorem refuses_returns (esp0 sp : Word) (f : Syscall) (c : Core) :
    ReturnsTo esp0 sp c (refuses f c) :=
  ⟨rfl, rfl, fun _ _ => rfl, rfl, rfl⟩

/-- A program whose stack pointer is in the page of its image. -/
def someProgram : Core := ⟨0, 17, 0, 0, 5, 6, 0x83FFF80, 0x83FFF00, fun a => UInt8.ofNat a.toNat⟩

/-- Addresses of the global words. -/
def someWords : StubWords := ⟨0x410000, 0x410004, 0x410100⟩

/-- The two global words lie below the kernel's stack, and that below the program's. -/
theorem laidOut_of_lt {sp : Word} (hg : g.restoreEsi.toNat + 4 ≤ g.restoreEdi.toNat)
    (hk : g.restoreEdi.toNat + 44 ≤ esp0.toNat) (hu : esp0.toNat + 4 ≤ sp.toNat)
    (htop : sp.toNat + 16 ≤ 2 ^ 32) : LaidOut esp0 sp g := by
  have huser : ∀ u ∈ userWords sp, esp0.toNat ≤ u.toNat ∧ u.toNat + 4 ≤ 2 ^ 32 := by
    intro u hu
    simp only [userWords, List.mem_cons, List.not_mem_nil, or_false] at hu
    rcases hu with rfl | rfl | rfl | rfl | rfl <;> bv_omega
  have hkernel : ∀ i < 10, g.restoreEdi.toNat + 4 ≤ (pushed esp0 i).toNat ∧
      (pushed esp0 i).toNat + 4 ≤ esp0.toNat := by
    intro i hi
    unfold pushed
    bv_omega
  have hapart : ∀ a b : Word, a.toNat + 4 ≤ b.toNat → b.toNat + 4 ≤ 2 ^ 32 → Apart a b := by
    intro a b hab hb
    unfold Apart
    bv_omega
  have htop' : esp0.toNat + 4 ≤ 2 ^ 32 := by omega
  refine ⟨?_, ?_, ?_, ?_, ?_, ?_⟩
  · intro i hi u hu
    have hi := hkernel i hi
    have hu := huser u hu
    exact hapart _ _ (by omega) hu.2
  · intro i hi
    have hi := hkernel i hi
    exact (hapart _ _ (by omega) (by omega)).symm
  · intro i hi
    have hi := hkernel i hi
    exact (hapart _ _ (by omega) (by omega)).symm
  · intro u hu
    have hu := huser u hu
    exact hapart _ _ (by omega) hu.2
  · intro u hu
    have hu := huser u hu
    exact hapart _ _ (by omega) hu.2
  · exact (hapart _ _ hg (by omega)).symm

theorem program_calls_kernel_read :
    (doCall 0x7FFFFFC ⟨43, 514, 35, 0x8048100⟩ someWords refuses 3 someProgram).2.2.ebx = 17 := by
  have hout : LaidOut 0x7FFFFFC someProgram.esp someWords :=
    laidOut_of_lt (by decide) (by decide) (by decide) (by decide)
  have hdispatch : dispatch 3 = .read := by decide
  obtain ⟨-, -, -, hcall⟩ := program_calls_kernel (m := ⟨43, 514, 35, 0x8048100⟩) hout
    hdispatch rfl rfl (refuses_returns _ _ _ _)
  rw [hcall]
  rfl

end

end OreOS
