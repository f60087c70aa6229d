import Mathlib.Logic.Function.Basic
import OreOS.Machine.Cells
import OreOS.Machine.X86Paging

/-!
# Page directories and process slots

Model of `paging.c` and of `sys_vidmap` (`sys_call.c:430-465`). A process id is a slot of `proc`;
process `p` runs with the page directory `PDE[p+1]`, and `PDE[0]` is the directory the kernel
boots with. All directories that have a page table share the single table `PTE`.

The loops of `init_paging` assign every entry once, so the arrays they leave are written down
directly. Indices into `PDE` rows and into `PTE` are below 1024 by construction (they are ten-bit
fields of an address, or constants), so rows are functions of the index. Control register
writes other than `cr3` (paging on, 4 MB pages, global pages) have no state here.
-/

namespace OreOS
open Machine

/-! Control bits (`paging.h:13-32`). -/

/-- `CTRL_PTE`. -/
def ctrlPte : Word := 0x01#32

/-- `CTRL_PTE_USR`. -/
def ctrlPteUsr : Word := 0x07#32

/-- `CTRL_VIDEO`. -/
def ctrlVideo : Word := 0x01#32

/-- `CTRL_VIDEO_USR`. -/
def ctrlVideoUsr : Word := 0x07#32

/-- `CTRL_KERNEL`, for 4 MB. -/
def ctrlKernel : Word := 0x183#32

/-- `CTRL_EMPTY`, for 4 MB. -/
def ctrlEmpty : Word := 0x83#32

/-- `CTRL_EMPTY_USR`, for 4 MB. -/
def ctrlEmptyUsr : Word := 0x87#32

/-- The globals of `paging.c`. `pteAddr` is the link address `&PTE`; `cr3` is the row of `PDE`
    that the register points to. -/
structure Paging where
  pteAddr : Word
  proc : Vector Nat 8
  pde : Nat → Nat → Word
  pte : Nat → Word
  cr3 : Int

namespace Paging

/-- The assignment `PDE[row][col] = w`. -/
def setPde (P : Paging) (row col : Nat) (w : Word) : Paging :=
  { P with pde := Function.update P.pde row (Function.update (P.pde row) col w) }

/-- The only page table is `PTE`. -/
def tables (P : Paging) (a : Word) : Option (Nat → Word) :=
  if a = P.pteAddr &&& 0xFFFFF000#32 then some P.pte else none

/-- Translation with `PDE[row]` loaded into `cr3`. -/
def translateIn (P : Paging) (row : Nat) (va : Word) : Option Mapping :=
  translate P.tables (P.pde row) va

/-- Slot `p` is in use. -/
def Live (P : Paging) (p : Nat) : Prop := P.proc[p]? = some 1

instance (P : Paging) (p : Nat) : Decidable (P.Live p) := inferInstanceAs (Decidable (_ = _))

end Paging

/-- The globals before `init_paging`: no slot in use, zeroed tables. -/
def resetPaging (pteAddr : Word) : Paging where
  pteAddr := pteAddr
  proc := Vector.replicate 8 0
  pde := fun _ _ => 0
  pte := fun _ => 0
  cr3 := 0

/-- `remove_page` (`paging.c:17-19`). -/
def removePage (procId : Int) (P : Paging) : Option Paging := do
  let proc ← storeInt P.proc procId 0
  return { P with proc := proc }

/-- `init_paging` (`paging.c:27-59`). `PTE[0]` is masked with `0xFFFFFFE`, which
has seven digits. -/
def initPaging (P : Paging) : Paging :=
  { P with
    pde := fun j i =>
      if j = 0 then
        if i = 0 then (P.pteAddr &&& 0xFFFFF000#32) ||| ctrlVideo
        else if i = 1 then (1#32 <<< 22) ||| ctrlKernel
        else (BitVec.ofNat 32 i <<< 22) ||| ctrlEmpty
      else if j < 8 then ctrlEmptyUsr
      else P.pde j i
    pte := fun i =>
      if i = 0 then ((BitVec.ofNat 32 i <<< 12) ||| ctrlPte) &&& 0xFFFFFFE#32
      else (BitVec.ofNat 32 i <<< 12) ||| ctrlPte
    cr3 := 0 }

/-- The 4 MB frame of slot `i` (`paging.c:122-123`). -/
def programFrame (i : Nat) : Word :=
  (0x400000#32 * BitVec.ofNat 32 i + 0x800000#32) &&& 0xFFC00000#32

/-- The slot that the search loop of `new_pde` stops at: the least free one, or 8. -/
def Paging.freeSlot (P : Paging) : Nat := firstIdx (· == 0) P.proc

/-- The directory that `new_pde` fills in for slot `i` (`paging.c:100-130`). The entry for the
    program is or-ed into whatever an earlier process of the slot left there. -/
def fillPde (i : Nat) (vEntry : Word) (P : Paging) : Paging :=
  let P := P.setPde (i + 1) 0 ((P.pteAddr &&& 0xFFFFF000#32) ||| ctrlVideo)
  let P := P.setPde (i + 1) 1 ((1#32 <<< 22) ||| ctrlKernel)
  let v := (vEntry >>> 22).toNat
  P.setPde (i + 1) v (P.pde (i + 1) v ||| (programFrame i ||| 0x87#32))

/-- `new_pde` (`paging.c:86-133`). The result is the slot, or `-1`. -/
def newPde (vEntry : Word) (P : Paging) : Option (Int × Paging) :=
  if P.freeSlot = 7 then some (-1, P)
  else do
    let proc ← store P.proc P.freeSlot 1
    return ((P.freeSlot : Int), fillPde P.freeSlot vEntry { P with proc := proc })

/-- `change_cr3` (`paging.c:143-158`). -/
def changeCr3 (processId : Int) (P : Paging) : Int × Paging :=
  if processId < 0 ∨ 7 < processId then (-1, P) else (0, { P with cr3 := processId + 1 })

/-- `change_pte` (`paging.c:167-170`). -/
def changePte (i value : Nat) (P : Paging) : Paging :=
  { P with pte := Function.update P.pte i ((BitVec.ofNat 32 value <<< 12) ||| ctrlPte) }

/-- The address `sys_vidmap` reports: directory index 12, table index 1. -/
def vidAddr : Word := (12#32 <<< 22) ||| (1#32 <<< 12)

/-- The page-table updates of `sys_vidmap` (`sys_call.c:444-451`). -/
def mapVideo (procId : Nat) (P : Paging) : Paging :=
  let P := { P with pte := Function.update P.pte 1 (0xB8000#32 ||| ctrlPteUsr) }
  P.setPde (procId + 1) 12 ((P.pteAddr &&& 0xFFFFF000#32) ||| ctrlVideoUsr)

/-- `sys_vidmap` (`sys_call.c:430-465`) of process `procId`. The final store `*addr =
    vid_addr` needs `addr` to be mapped in the caller's directory; otherwise the page-fault
    handler never returns. -/
def sysVidmap (procId : Nat) (addr : Word) (P : Paging) : Option (Int × Paging) :=
  if addr = 0x400000#32 then some (-1, P)
  else if addr = 0 then some (-1, P)
  else
    let P := mapVideo procId P
    if (P.translateIn (procId + 1) addr).isSome then some (0, P) else none

/-! ## Entries of an updated directory -/

@[simp] theorem setPde_pde (P : Paging) (row col : Nat) (w : Word) (j i : Nat) :
    (P.setPde row col w).pde j i = if j = row ∧ i = col then w else P.pde j i := by
  unfold Paging.setPde
  by_cases hj : j = row
  · subst hj
    by_cases hi : i = col <;> simp [hi]
  · simp [hj]

@[simp] theorem setPde_pte (P : Paging) (row col : Nat) (w : Word) :
    (P.setPde row col w).pte = P.pte := rfl

@[simp] theorem changePte_proc (i v : Nat) (P : Paging) : (changePte i v P).proc = P.proc := rfl

/-! ## What the slot operations do -/

@[simp] theorem fillPde_proc (i : Nat) (v : Word) (P : Paging) :
    (fillPde i v P).proc = P.proc := rfl

/-- `new_pde` writes entries 0, 1 and the one of the program. -/
theorem fillPde_pde {i k : Nat} {v : Word} {P : Paging} (h0 : k ≠ 0) (h1 : k ≠ 1)
    (hv : k ≠ dirIndex v) (j : Nat) : (fillPde i v P).pde j k = P.pde j k := by
  have hne : ¬ k = (v >>> 22).toNat := hv
  simp only [fillPde, setPde_pde, hne, h0, h1, and_false, if_false]

/-- Either `new_pde` refuses because the search stopped at slot 7, or it takes the free slot. -/
theorem newPde_cases {v : Word} {P P' : Paging} {r : Int} (h : newPde v P = some (r, P')) :
    (P.freeSlot = 7 ∧ r = -1 ∧ P' = P) ∨
    ∃ proc, P.freeSlot ≠ 7 ∧ r = P.freeSlot ∧ store P.proc P.freeSlot 1 = some proc ∧
      P' = fillPde P.freeSlot v { P with proc := proc } := by
  unfold newPde at h
  split at h
  next h7 =>
    cases h
    exact .inl ⟨h7, rfl, rfl⟩
  next h7 =>
    obtain ⟨proc, hstore, hrest⟩ := Option.bind_eq_some_iff.mp h
    cases hrest
    exact .inr ⟨proc, h7, rfl, hstore, rfl⟩

/-- `remove_page` only clears the slot it is given. -/
theorem removePage_cases {i : Int} {P P' : Paging} (h : removePage i P = some P') :
    ∃ proc, 0 ≤ i ∧ store P.proc i.toNat 0 = some proc ∧ P' = { P with proc := proc } := by
  obtain ⟨proc, hstore, hrest⟩ := Option.bind_eq_some_iff.mp h
  cases hrest
  unfold storeInt at hstore
  split at hstore
  next h0 => exact ⟨proc, h0, hstore, rfl⟩
  next => cases hstore

/-- `sys_vidmap` refuses and changes nothing, or maps the video page and returns 0. -/
theorem sysVidmap_cases {p : Nat} {addr : Word} {P P' : Paging} {r : Int}
    (h : sysVidmap p addr P = some (r, P')) :
    ((addr = 0x400000#32 ∨ addr = 0) ∧ r = -1 ∧ P' = P) ∨
    (addr ≠ 0x400000#32 ∧ addr ≠ 0 ∧ r = 0 ∧ P' = mapVideo p P) := by
  unfold sysVidmap at h
  split at h
  next hk =>
    cases h
    exact .inl ⟨.inl hk, rfl, rfl⟩
  next hk =>
    split at h
    next hz =>
      cases h
      exact .inl ⟨.inr hz, rfl, rfl⟩
    next hz =>
      simp only [Option.ite_none_right_eq_some, Option.some.injEq, Prod.mk.injEq] at h
      exact .inr ⟨hk, hz, h.2.1.symm, h.2.2.symm⟩

end OreOS
