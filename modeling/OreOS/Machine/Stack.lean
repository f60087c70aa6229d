import Mathlib.Tactic.Simps.Basic
import OreOS.Machine.Bytes

/-!
# A processor with a stack

The registers of a 32-bit processor over byte memory, and the instructions that move words between
registers and the stack. Addresses may wrap; `Apart` says that two words do not share a byte.
-/

namespace OreOS.Machine

/-- The words at `a` and `b` have no byte in common. -/
def Apart (a b : Word) : Prop := 4 ≤ (b - a).toNat ∧ 4 ≤ (a - b).toNat

instance (a b : Word) : Decidable (Apart a b) := inferInstanceAs (Decidable (_ ∧ _))

section
variable {mem : Word → UInt8} {a b w : Word}

theorem Apart.symm (h : Apart a b) : Apart b a := ⟨h.2, h.1⟩

theorem readWord_congr {mem' : Word → UInt8}
    (h : ∀ i < 4, mem' (a + BitVec.ofNat 32 i) = mem (a + BitVec.ofNat 32 i)) :
    readWord mem' a = readWord mem a := by
  have h0 := h 0 (by decide)
  have h1 := h 1 (by decide)
  have h2 := h 2 (by decide)
  have h3 := h 3 (by decide)
  rw [BitVec.add_zero] at h0
  rw [readWord, h0, h1, h2, h3, readWord]

theorem readWord_apart (h : Apart a b) :
    readWord (writeBytes mem a (wordBytes w)) b = readWord mem b := by
  refine readWord_congr fun i hi => writeBytes_outside ?_
  obtain ⟨hba, hab⟩ := h
  simp only [wordBytes, List.length_cons, List.length_nil]
  bv_omega

theorem readWord_wordBytes : readWord (writeBytes mem a (wordBytes w)) a = w := by
  have hlen : (wordBytes w).length ≤ 2 ^ 32 := by
    rw [show (wordBytes w).length = 4 from rfl]
    decide
  have hbyte : ∀ i (hi : i < (wordBytes w).length), writeBytes mem a (wordBytes w)
      (a + BitVec.ofNat 32 i) = (wordBytes w)[i] := by
    intro i hi
    have hoff : (a + BitVec.ofNat 32 i - a).toNat = i := by bv_omega
    rw [writeBytes_inside hlen (by rw [hoff]; exact hi)]
    exact getElem_congr_idx hoff
  have h0 := hbyte 0 (show 0 < 4 by decide)
  have h1 := hbyte 1 (show 1 < 4 by decide)
  have h2 := hbyte 2 (show 2 < 4 by decide)
  have h3 := hbyte 3 (show 3 < 4 by decide)
  rw [BitVec.add_zero] at h0
  rw [readWord, h0, h1, h2, h3]
  have hw := w.isLt
  apply BitVec.eq_of_toNat_eq
  simp only [wordBytes, List.getElem_cons_zero, List.getElem_cons_succ, UInt8.toNat_ofNat',
    BitVec.toNat_ofNat]
  omega

end

/-- The registers and the memory. -/
structure Core where
  eax : Word
  ebx : Word
  ecx : Word
  edx : Word
  esi : Word
  edi : Word
  ebp : Word
  esp : Word
  mem : Word → UInt8

namespace Core

/-- The word at `a`. -/
def load (c : Core) (a : Word) : Word := readWord c.mem a

/-- The word `w` goes to `a`. -/
def store (a w : Word) (c : Core) : Core := { c with mem := writeBytes c.mem a (wordBytes w) }

/-- `%eax = x`. -/
@[simps] def setEax (x : Word) (c : Core) : Core := { c with eax := x }

/-- `%ebx = x`. -/
@[simps] def setEbx (x : Word) (c : Core) : Core := { c with ebx := x }

/-- `%ecx = x`. -/
@[simps] def setEcx (x : Word) (c : Core) : Core := { c with ecx := x }

/-- `%edx = x`. -/
@[simps] def setEdx (x : Word) (c : Core) : Core := { c with edx := x }

/-- `%esi = x`. -/
@[simps] def setEsi (x : Word) (c : Core) : Core := { c with esi := x }

/-- `%edi = x`. -/
@[simps] def setEdi (x : Word) (c : Core) : Core := { c with edi := x }

/-- `%ebp = x`. -/
@[simps] def setEbp (x : Word) (c : Core) : Core := { c with ebp := x }

/-- `%esp = x`. -/
@[simps] def setEsp (x : Word) (c : Core) : Core := { c with esp := x }

/-- `pushl`. -/
def push (w : Word) (c : Core) : Core := (c.setEsp (c.esp - 4)).store (c.esp - 4) w

/-- The word that `popl` takes. -/
def top (c : Core) : Word := c.load c.esp

/-- The stack pointer after `popl`. -/
def drop (c : Core) : Core := c.setEsp (c.esp + 4)

/-- `popl` into `%ebx`. -/
def popEbx (c : Core) : Core := (c.setEbx c.top).drop

/-- Several `pushl`, one after the other. -/
def pushAll (ws : List Word) (c : Core) : Core := ws.foldl (fun c w => c.push w) c

/-- `leave`. -/
def leave (c : Core) : Core := (c.setEsp (c.ebp + 4)).setEbp (c.load c.ebp)

variable {c : Core} {a b w : Word} {ws : List Word}

@[simp] theorem store_eax : (c.store a w).eax = c.eax := rfl
@[simp] theorem store_ebx : (c.store a w).ebx = c.ebx := rfl
@[simp] theorem store_ecx : (c.store a w).ecx = c.ecx := rfl
@[simp] theorem store_edx : (c.store a w).edx = c.edx := rfl
@[simp] theorem store_esi : (c.store a w).esi = c.esi := rfl
@[simp] theorem store_edi : (c.store a w).edi = c.edi := rfl
@[simp] theorem store_ebp : (c.store a w).ebp = c.ebp := rfl
@[simp] theorem store_esp : (c.store a w).esp = c.esp := rfl
@[simp] theorem push_eax : (c.push w).eax = c.eax := rfl
@[simp] theorem push_ebx : (c.push w).ebx = c.ebx := rfl
@[simp] theorem push_ecx : (c.push w).ecx = c.ecx := rfl
@[simp] theorem push_edx : (c.push w).edx = c.edx := rfl
@[simp] theorem push_esi : (c.push w).esi = c.esi := rfl
@[simp] theorem push_edi : (c.push w).edi = c.edi := rfl
@[simp] theorem push_ebp : (c.push w).ebp = c.ebp := rfl
@[simp] theorem push_esp : (c.push w).esp = c.esp - 4 := rfl

/-- `%eax` has nothing to do with the stack. -/
theorem setEax_push (x : Word) : (c.push w).setEax x = (c.setEax x).push w := rfl

@[simp] theorem pushAll_nil : c.pushAll [] = c := rfl

@[simp] theorem pushAll_cons : c.pushAll (w :: ws) = (c.push w).pushAll ws := rfl

@[simp] theorem load_store_self : (c.store a w).load a = w := readWord_wordBytes

theorem load_store (h : Apart a b) : (c.store a w).load b = c.load b := readWord_apart h

@[simp] theorem load_push_self : (c.push w).load (c.esp - 4) = w := readWord_wordBytes

theorem load_push (h : Apart (c.esp - 4) b) : (c.push w).load b = c.load b := readWord_apart h

/-- The address of the word that is pushed at index `i` when the stack pointer is `esp`. -/
def pushed (esp : Word) (i : Nat) : Word := esp - BitVec.ofNat 32 (4 * (i + 1))

theorem pushed_succ (esp : Word) (i : Nat) : pushed (esp - 4) i = pushed esp (i + 1) := by
  unfold pushed
  bv_omega

theorem apart_pushed {esp : Word} {i j n : Nat} (hn : 4 * n < 2 ^ 32) (hi : i < n) (hj : j < n)
    (hne : i ≠ j) : Apart (pushed esp i) (pushed esp j) := by
  unfold Apart pushed
  bv_omega

theorem pushAll_esp : (c.pushAll ws).esp = c.esp - BitVec.ofNat 32 (4 * ws.length) := by
  induction ws generalizing c with
  | nil => simp [pushAll]
  | cons w ws ih =>
    rw [pushAll_cons, ih, push_esp, List.length_cons]
    bv_omega

theorem pushAll_regs : c.pushAll ws =
    { c with esp := (c.pushAll ws).esp, mem := (c.pushAll ws).mem } := by
  induction ws generalizing c with
  | nil => rfl
  | cons w ws ih => exact (ih (c := c.push w)).trans rfl

/-- A word that does not meet those that are pushed. -/
theorem load_pushAll (h : ∀ i < ws.length, Apart (pushed c.esp i) b) :
    (c.pushAll ws).load b = c.load b := by
  induction ws generalizing c with
  | nil => rfl
  | cons w ws ih =>
    have hfirst : (c.push w).load b = c.load b := load_push (h 0 (Nat.succ_pos _))
    rw [pushAll, List.foldl_cons, ← hfirst]
    apply ih
    intro i hi
    have hnext := h (i + 1) (by simpa using hi)
    rwa [← pushed_succ] at hnext

/-- The words that are pushed. -/
theorem load_pushed {i : Nat} (hi : i < ws.length) (hlen : 4 * ws.length < 2 ^ 32) :
    (c.pushAll ws).load (pushed c.esp i) = ws[i] := by
  induction ws generalizing c i with
  | nil => exact absurd hi (Nat.not_lt_zero i)
  | cons w ws ih =>
    rw [List.length_cons] at hi hlen
    rw [pushAll, List.foldl_cons]
    cases i with
    | zero =>
      refine (load_pushAll ?_).trans load_push_self
      intro j hj
      have hesp : (c.push w).esp = c.esp - 4 := rfl
      rw [hesp, pushed_succ]
      exact apart_pushed hlen (Nat.succ_lt_succ hj) (Nat.succ_pos _) (Nat.succ_ne_zero j)
    | succ i =>
      rw [← pushed_succ]
      exact ih (c := c.push w) (Nat.lt_of_succ_lt_succ hi) (by omega)

end Core

end OreOS.Machine
