import OreOS.Kernel.Proofs.LoadBuffer
import OreOS.Kernel.Proofs.Steps
import OreOS.Paging.Proofs.Isolation

/-!
# Stacks with room

Each slot finds its PCB through entry 31 of its own page directory, and so does the kernel stack of
the slot. A stack that stays above the PCB at the bottom of its block reaches no PCB of any slot,
and neither does the stack that the kernel boots on.
-/

namespace OreOS
open Machine

variable {K K' : Kernel}

/-- The physical address of the PCB of slot `p`, as its own directory maps it. -/
def Paging.slotPcb (P : Paging) (p : Nat) : Option Word :=
  (P.translateIn (p + 1) (pcbAddr p)).map Mapping.phys

/-! ## Where the PCBs are -/

theorem slotPcb_eq {P : Paging} (hP : PagingInv P) {p : Nat} (hp : p < 7) :
    P.slotPcb p = some (largePage (P.pde (p + 1) 31) (pcbAddr p)).phys := by
  have hdir : ∀ p < 7, dirIndex (pcbAddr p) = 31 := by decide
  have hbits : P.pde (p + 1) (dirIndex (pcbAddr p)) &&& userLarge = userLarge := by
    rw [hdir p hp]
    exact hP.entry31 (p + 1) (by omega) (by omega)
  unfold Paging.slotPcb Paging.translateIn
  rw [translate_userLarge P.tables hbits, hdir p hp]
  rfl

/-- Different slots have their PCBs at different addresses. -/
theorem slotPcb_ne {P : Paging} (hP : PagingInv P) {p q : Nat} (hp : p < 7) (hq : q < 7)
    (hpq : p ≠ q) {a b : Word} (ha : P.slotPcb p = some a) (hb : P.slotPcb q = some b) : a ≠ b := by
  have hoff : ∀ p < 7, ∀ q < 7, p ≠ q → pcbAddr p &&& 0x3FFFFF#32 ≠ pcbAddr q &&& 0x3FFFFF#32 := by
    decide
  rw [slotPcb_eq hP hp] at ha
  rw [slotPcb_eq hP hq] at hb
  cases ha
  cases hb
  intro heq
  apply hoff p hp q hq hpq
  rw [← largePage_offset (P.pde (p + 1) 31), heq, largePage_offset]

theorem slotPcb_congr {P P' : Paging} (hP : PagingInv P) (hP' : PagingInv P')
    (h31 : ∀ j, P'.pde j 31 = P.pde j 31) {p : Nat} (hp : p < 7) : P'.slotPcb p = P.slotPcb p := by
  rw [slotPcb_eq hP hp, slotPcb_eq hP' hp, h31]

theorem PagingInv.of_eq {P P' : Paging} (hP : PagingInv P) (hproc : P'.proc = P.proc)
    (h31 : ∀ j, P'.pde j 31 = P.pde j 31) : PagingInv P' where
  slot7 := by rw [hproc]; exact hP.slot7
  entry31 := by
    intro j h1 h8
    rw [h31]
    exact hP.entry31 j h1 h8

/-! ## The page directories -/

theorem PagingInv.started {term : Nat} {entry : Word} {f : Frame} (hP : PagingInv K.paging)
    (hs : Started term entry f K K') : PagingInv K'.paging where
  slot7 := by
    rw [getElem?_of_store hs.proc, if_neg hs.slot]
    exact hP.slot7
  entry31 := by
    intro j h1 h8
    rw [hs.pde]
    exact fillPde_entry31 (hP.entry31 j h1 h8)

theorem PagingInv.execute {term : Nat} {prog : Option Word} {f : Frame} {x : Exit}
    (hP : PagingInv K.paging) (hx : execute term prog f K = some (x, K')) :
    PagingInv K'.paging := by
  cases execute_cases hx with
  | noProgram => exact hP
  | noSlot => exact hP
  | started _ hs => exact hP.started hs

theorem PagingInv.removePage {i : Int} {P Q : Paging} (hP : PagingInv P)
    (h : removePage i P = some Q) : PagingInv Q := by
  obtain ⟨proc, -, hstore, rfl⟩ := removePage_cases h
  refine ⟨?_, hP.entry31⟩
  simp only [getElem?_of_store hstore, hP.slot7, ite_self]

theorem PagingInv.halt {f : Frame} {x : Exit} (hP : PagingInv K.paging)
    (hx : halt f K = some (x, K')) : PagingInv K'.paging := by
  cases halt_cases hx with
  | fault => exact hP
  | shutdown => exact hP
  | inactive _ _ hQ => exact hP.removePage hQ
  | noParent _ _ hQ => exact hP.removePage hQ
  | resumed _ _ hQ => exact (hP.removePage hQ).of_eq rfl fun _ => rfl

theorem PagingInv.schedStep {e : SchedEvent} (hP : PagingInv K.paging)
    (hx : schedStep K e = some K') : PagingInv K'.paging := by
  have hquiet {K₁ : Kernel} (hq : Quiet K K₁) : PagingInv K₁.paging :=
    hP.of_eq hq.proc fun j => by rw [hq.pde]
  cases schedStep_cases hx with
  | off => exact hP
  | ignored => exact hP
  | tick _ htick =>
    cases htick with
    | idle => exact hP
    | next _ _ _ _ _ _ _ _ _ _ _ _ _ hq => exact hquiet hq
  | switched _ _ hswitch =>
    cases hswitch with
    | shown _ _ _ _ _ _ _ _ _ _ _ _ _ hq => exact hquiet hq
    | opened _ _ _ _ _ _ _ hq hexec => exact (hquiet hq).execute hexec
  | executed _ hexec => exact hP.execute hexec
  | halted _ hhalt => exact hP.halt hhalt

theorem PagingInv.callVidmap {addr : Word} {f : Frame} (hP : PagingInv K.paging)
    (hx : callVidmap addr f K = some K') : PagingInv K'.paging := by
  unfold OreOS.callVidmap at hx
  split at hx
  next =>
    cases hx
    exact hP
  next a ha =>
    split at hx
    next =>
      cases hx
      exact hP
    next r P hvid =>
      cases hx
      rcases sysVidmap_cases hvid with ⟨-, -, rfl⟩ | ⟨-, -, -, rfl⟩
      · exact hP
      · exact hP.of_eq rfl fun j => by simp [mapVideo]

/-- Every event leaves the directories such that the PCBs are found. -/
theorem PagingInv.kernelStep {fs : Filesys} {e : Event} (hP : PagingInv K.paging)
    (hx : kernelStep fs K e = some K') : PagingInv K'.paging := by
  unfold OreOS.kernelStep at hx
  split at hx
  · cases hx
    exact hP
  · cases e with
    | sched e => exact hP.schedStep hx
    | files c f =>
      simp only [callFiles] at hx
      split at hx
      next =>
        cases hx
        exact hP
      next =>
        simp only [Option.bind_eq_bind, Option.bind_eq_some_iff, Option.pure_def,
          Option.some.injEq] at hx
        obtain ⟨⟨r, t⟩, -, rfl⟩ := hx
        exact hP
    | vidmap addr f => exact hP.callVidmap hx
    | output op =>
      obtain ⟨console, -, hK'⟩ := Option.bind_eq_some_iff.mp hx
      cases hK'
      exact hP
    | echo op =>
      obtain ⟨console, -, hK'⟩ := Option.bind_eq_some_iff.mp hx
      cases hK'
      exact hP

theorem PagingInv.stackStep {fs : Filesys} {addr : Option Fotp → Word} {e : Event × StackUse}
    (hP : PagingInv K.paging) (hx : stackStep fs addr K e = some K') : PagingInv K'.paging := by
  unfold OreOS.stackStep at hx
  split at hx
  · cases hx
    exact hP
  · exact PagingInv.kernelStep (K := K.takeStack addr e.2) hP hx

theorem pagingInv_of_run {fs : Filesys} {addr : Option Fotp → Word} {pteAddr : Word}
    {mem : Word → Pcb} {es : List (Event × StackUse)}
    (hrun : runFrom (stackStep fs addr) (bootWith pteAddr mem) es = some K) : PagingInv K.paging :=
  inv_runFrom_of_step (fun _ _ _ (h : PagingInv _) hx => h.stackStep hx)
    (pagingInv_init pteAddr) hrun

/-! ## Stacks that reach no PCB -/

/-- Offsets in a large page. -/
theorem toNat_and_offset (a : Word) : (a &&& 0x3FFFFF#32).toNat = a.toNat % 2 ^ 22 := by
  rw [BitVec.toNat_and]
  exact Nat.and_two_pow_sub_one_eq_mod a.toNat 22

/-- The addresses of one large page, by entry 31. -/
theorem phys_entry31 (hP : PagingInv K.paging) {p : Nat} (hp : p < 7) (huser : K.user = p)
    {va : Word} (hlow : 31 * 2 ^ 22 ≤ va.toNat) (hhigh : va.toNat < 32 * 2 ^ 22) :
    K.phys va = some (largePage (K.paging.pde (p + 1) 31) va).phys := by
  have hrow : K.paging.cr3.toNat = p + 1 := by
    unfold Kernel.user at huser
    omega
  have hdir : dirIndex va = 31 := by
    rw [dirIndex, BitVec.toNat_ushiftRight, Nat.shiftRight_eq_div_pow]
    omega
  have hbits : K.paging.pde (p + 1) (dirIndex va) &&& userLarge = userLarge := by
    rw [hdir]
    exact hP.entry31 (p + 1) (by omega) (by omega)
  unfold Kernel.phys Paging.translateIn
  rw [hrow, translate_userLarge K.paging.tables hbits, hdir]
  rfl

/-- The `taken` bytes below `tss.esp0` reach the PCB of no slot. -/
def SparesPcbs (K : Kernel) (taken : Nat) : Prop :=
  ∀ q < 7, ∀ a, K.paging.slotPcb q = some a → ¬ K.StackHits taken a

/-- Process `p` runs, on the stack in its own block, and `taken` bytes more fit above its PCB. -/
def StackRoom (K : Kernel) (taken : Nat) : Prop :=
  ∃ p : Nat, p < 7 ∧ K.user = p ∧ InBlock p K.tss.esp0 ∧
    stackUsed p K.tss.esp0 + taken ≤ 8192 - pcbSize

instance (taken : Nat) : Decidable (StackRoom K taken) :=
  inferInstanceAs (Decidable (∃ p : Nat, p < 7 ∧ _))

/-- A stack that stays above the PCB in its block reaches no PCB. -/
theorem StackRoom.sparesPcbs {taken : Nat} (h : StackRoom K taken) (hP : PagingInv K.paging) :
    SparesPcbs K taken := by
  rintro q hq a ha ⟨i, hi, hhit⟩
  obtain ⟨p, hp, huser, hblock, hroom⟩ := h
  obtain ⟨hlow, hhigh, hused⟩ := hblock.bounds hp
  have hpAddr := pcbAddr_toNat hp
  have hqAddr := pcbAddr_toNat hq
  rw [hused] at hroom
  unfold pcbSize at hroom hhit
  have hva : (K.tss.esp0 - 1#32 - BitVec.ofNat 32 i).toNat = K.tss.esp0.toNat - 1 - i := by
    have hi32 : (BitVec.ofNat 32 i).toNat = i := by
      rw [BitVec.toNat_ofNat]
      omega
    rw [BitVec.toNat_sub, BitVec.toNat_sub, hi32, BitVec.toNat_ofNat]
    omega
  rw [Kernel.stackPhys, phys_entry31 hP hp huser (by omega) (by omega), Option.any_some,
    decide_eq_true_eq] at hhit
  rw [slotPcb_eq hP hq, Option.some.injEq] at ha
  -- both addresses are in the large page at 124 MB, at the offsets that their blocks give
  have hoffset := congrArg BitVec.toNat
    (largePage_offset (K.paging.pde (p + 1) 31) (K.tss.esp0 - 1#32 - BitVec.ofNat 32 i))
  have hbase := congrArg BitVec.toNat (largePage_offset (K.paging.pde (q + 1) 31) (pcbAddr q))
  rw [toNat_and_offset, toNat_and_offset, hva] at hoffset
  rw [ha, toNat_and_offset, toNat_and_offset] at hbase
  rw [BitVec.toNat_sub] at hhit
  omega

/-- Where the PCBs are before the first process starts. -/
theorem slotPcb_boot (pteAddr : Word) {q : Nat} (hq : q < 7) {a : Word}
    (ha : (boot pteAddr).paging.slotPcb q = some a) : a.toNat ≤ 0x3FE000 := by
  have hlow : ∀ q < 7, (largePage ctrlEmptyUsr (pcbAddr q)).phys.toNat ≤ 0x3FE000 := by decide
  have hentry : (boot pteAddr).paging.pde (q + 1) 31 = ctrlEmptyUsr := by
    have hrow : q + 1 < 8 := by omega
    simp [boot, initPaging, hrow]
  have hslot := slotPcb_eq (pagingInv_init pteAddr) hq
  cases hslot.symm.trans ha
  exact hentry ▸ hlow q hq

/-- The stack that the kernel boots on is the large page at 4 MB. -/
theorem sparesPcbs_boot (pteAddr : Word) {taken : Nat} (htaken : taken ≤ 0x400000)
    (hpaging : K.paging = (boot pteAddr).paging) (hesp0 : K.tss.esp0 = 0x800000#32) :
    SparesPcbs K taken := by
  rintro q hq a ha ⟨i, hi, hhit⟩
  rw [hpaging] at ha
  have hlow := slotPcb_boot pteAddr hq ha
  have hva : (K.tss.esp0 - 1#32 - BitVec.ofNat 32 i).toNat = 0x7FFFFF - i := by
    rw [hesp0, BitVec.toNat_sub, BitVec.toNat_sub, BitVec.toNat_ofNat]
    simp only [BitVec.reduceToNat]
    omega
  have hdir : dirIndex (K.tss.esp0 - 1#32 - BitVec.ofNat 32 i) = 1 := by
    rw [dirIndex, BitVec.toNat_ushiftRight, Nat.shiftRight_eq_div_pow, hva]
    omega
  have hphys : K.stackPhys i =
      some (largePage (1#32 <<< 22 ||| ctrlKernel)
        (K.tss.esp0 - 1#32 - BitVec.ofNat 32 i)).phys := by
    have hentry : (boot pteAddr).paging.pde (boot pteAddr).paging.cr3.toNat 1 =
        1#32 <<< 22 ||| ctrlKernel := rfl
    rw [Kernel.stackPhys, Kernel.phys, hpaging, Paging.translateIn, Machine.translate, hdir, hentry]
    rfl
  rw [hphys, Option.any_some, decide_eq_true_eq] at hhit
  have hhigh : 0x400000 ≤ (largePage (1#32 <<< 22 ||| ctrlKernel)
      (K.tss.esp0 - 1#32 - BitVec.ofNat 32 i)).phys.toNat := by
    rw [largePage, BitVec.toNat_or]
    exact Nat.left_le_or
  unfold pcbSize at hhit
  rw [BitVec.toNat_sub] at hhit
  omega

/-- A PCB that is spared reads as before. -/
theorem takeStack_pcb {addr : Option Fotp → Word} {u : StackUse} {a : Word}
    (h : ¬ K.StackHits u.taken a) : (K.takeStack addr u).pcb a = K.pcb a := if_neg h

end OreOS
