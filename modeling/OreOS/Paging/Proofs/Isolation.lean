import OreOS.Machine.Trace
import OreOS.Paging

/-!
# What user programs can write

`init_paging` fills every process directory with `CTRL_EMPTY_USR`, a present, user-writable 4 MB
page, and no later operation takes these bits away from directory entry 31. That entry maps the
addresses just below 128 MB, where the PCBs and the kernel stacks are.
-/

namespace OreOS
open Machine

/-- The operations that change page directories or slots. -/
inductive PageOp where
  | newPde (entry : Word)
  | removePage (procId : Int)
  | sysVidmap (procId : Nat) (addr : Word)
  deriving DecidableEq, Repr

/-- One operation. `sys_vidmap` writes `PDE[proc_id+1]`, which exists for the slots `0..6`. -/
def pageStep (P : Paging) : PageOp → Option Paging
  | .newPde entry => (newPde entry P).map Prod.snd
  | .removePage procId => OreOS.removePage procId P
  | .sysVidmap procId addr =>
      if procId + 1 < 8 then (sysVidmap procId addr P).map Prod.snd else none

/-- The memory that holds the PCBs and kernel stacks of the slots `0..6`, by virtual address. -/
def pcbArea (va : Word) : Prop := 134217728#32 - 7#32 * 8192#32 ≤ va ∧ va < 134217728#32

/-- Physical addresses that process `p` can write in user mode. -/
def Paging.Writes (P : Paging) (p : Nat) (a : Word) : Prop :=
  UserWrites P.tables (P.pde (p + 1)) a

/-- Memory isolation of the processes `p` and `q`. -/
structure Isolated (P : Paging) (p q : Nat) : Prop where
  disjoint : ∀ a, P.Writes p a → P.Writes q a → a &&& 0xFFFFF000#32 = 0xB8000#32
  kernel : ∀ r, r = p ∨ r = q → ∀ a, P.Writes r a → ¬ (0x400000#32 ≤ a ∧ a < 0x800000#32)
  pcbs : ∀ r, r = p ∨ r = q → ∀ va m, pcbArea va → P.translateIn (r + 1) va = some m →
    ¬ P.Writes r m.phys

/-- Two different processes, both live. -/
def Paging.DistinctLive (P : Paging) (p q : Nat) : Prop := P.Live p ∧ P.Live q ∧ p ≠ q

/-- Slot 7 is never handed out, and entry 31 of every process directory keeps its user bits. -/
structure PagingInv (P : Paging) : Prop where
  slot7 : P.proc[7]? = some 0
  entry31 : ∀ j, 1 ≤ j → j < 8 → P.pde j 31 &&& userLarge = userLarge

theorem pagingInv_init (pteAddr : Word) : PagingInv (initPaging (resetPaging pteAddr)) := by
  refine ⟨rfl, ?_⟩
  intro j h1 h8
  have hj : j ≠ 0 := by omega
  simp only [initPaging, hj, if_false, h8, if_true]
  rfl

/-- `new_pde` only ors bits into entry 31. -/
theorem fillPde_entry31 {i : Nat} {v : Word} {P : Paging} {j : Nat}
    (hj : P.pde j 31 &&& userLarge = userLarge) :
    (fillPde i v P).pde j 31 &&& userLarge = userLarge := by
  unfold fillPde
  simp only [setPde_pde]
  split
  next hcell =>
    obtain ⟨rfl, hv⟩ := hcell
    rw [← hv]
    exact userLarge_or_left _ (by simpa using hj)
  next => simpa using hj

theorem pageStep_inv {P P' : Paging} {op : PageOp} (hinv : PagingInv P)
    (h : pageStep P op = some P') : PagingInv P' := by
  cases op with
  | newPde entry =>
    obtain ⟨⟨r, Q⟩, hnew, rfl⟩ := Option.map_eq_some_iff.mp h
    rcases newPde_cases hnew with ⟨-, -, rfl⟩ | ⟨proc, hne, -, hstore, rfl⟩
    · exact hinv
    · refine ⟨?_, fun j h1 h8 => fillPde_entry31 (hinv.entry31 j h1 h8)⟩
      rw [fillPde_proc, getElem?_of_store hstore, if_neg hne, hinv.slot7]
  | removePage procId =>
    obtain ⟨proc, -, hstore, rfl⟩ := removePage_cases h
    refine ⟨?_, hinv.entry31⟩
    simp only [getElem?_of_store hstore, hinv.slot7, ite_self]
  | sysVidmap procId addr =>
    simp only [pageStep, Option.ite_none_right_eq_some] at h
    obtain ⟨⟨r, Q⟩, hmap, rfl⟩ := Option.map_eq_some_iff.mp h.2
    rcases sysVidmap_cases hmap with ⟨-, -, rfl⟩ | ⟨-, -, -, rfl⟩
    · exact hinv
    · refine ⟨hinv.slot7, ?_⟩
      intro j h1 h8
      simpa [mapVideo] using hinv.entry31 j h1 h8

/-- With slot 7 free a live slot is one of `0..6`, so its directory is one of `PDE[1..7]`. -/
theorem Paging.Live.lt {P : Paging} {p : Nat} (hp : P.Live p) (hfree : P.proc[7]? = some 0) :
    p < 7 := by
  have hlt : p < 8 := (Vector.getElem?_eq_some_iff.mp hp).1
  have hne : p ≠ 7 := by
    rintro rfl
    exact absurd (hfree.symm.trans hp) (by decide)
  omega

/-- A process can write the page that its own PCB is on. -/
theorem PagingInv.writes_pcb {P : Paging} (hinv : PagingInv P) {p : Nat} (hp : P.Live p) :
    ∃ va m, pcbArea va ∧ P.translateIn (p + 1) va = some m ∧ P.Writes p m.phys := by
  have hlt := hp.lt hinv.slot7
  have hdir : dirIndex 0x7FFE000#32 = 31 := by decide
  have hbits : P.pde (p + 1) (dirIndex 0x7FFE000#32) &&& userLarge = userLarge := by
    rw [hdir]
    exact hinv.entry31 (p + 1) (by omega) (by omega)
  obtain ⟨m, hm, hw⟩ := userWrites_of_userLarge P.tables hbits
  exact ⟨0x7FFE000#32, m, by unfold pcbArea; decide, hm, hw⟩

/-- After `init_paging` and any operations, no two live processes are isolated: each can write
    at least the PCB page of its own directory. -/
theorem isolated_never {pteAddr : Word} {P : Paging} {ops : List PageOp} {p q : Nat}
    (hrun : runFrom pageStep (initPaging (resetPaging pteAddr)) ops = some P)
    (hpq : P.DistinctLive p q) : ¬ Isolated P p q := by
  have hinv : PagingInv P :=
    inv_runFrom_of_step (fun _ _ _ hi hs => pageStep_inv hi hs) (pagingInv_init pteAddr) hrun
  intro hiso
  obtain ⟨va, m, harea, hm, hw⟩ := hinv.writes_pcb hpq.1
  exact hiso.pcbs p (.inl rfl) va m harea hm hw

/-- Two programs linked at 128 MB. -/
def twoPrograms : List PageOp := [.newPde 0x8048000#32, .newPde 0x8048000#32]

/-- The page tables after `twoPrograms`, with `PTE` at 0x410000. -/
def afterTwoPrograms : Paging :=
  ((runFrom pageStep (initPaging (resetPaging 0x410000#32)) twoPrograms).getD
    (resetPaging 0x410000#32))

theorem afterTwoPrograms_run :
    runFrom pageStep (initPaging (resetPaging 0x410000#32)) twoPrograms = some afterTwoPrograms :=
  rfl

theorem afterTwoPrograms_live : afterTwoPrograms.DistinctLive 0 1 := by
  unfold Paging.DistinctLive
  decide

theorem isolated_never_two_programs :
    afterTwoPrograms.DistinctLive 0 1 ∧ ¬ Isolated afterTwoPrograms 0 1 :=
  ⟨afterTwoPrograms_live, isolated_never afterTwoPrograms_run afterTwoPrograms_live⟩

/-- Both programs can write the physical page 0x3FE000, which holds the PCB of process 0. -/
theorem two_programs_share_pcb_page :
    ¬ ∀ (pteAddr : Word) (ops : List PageOp) (P : Paging) (p q : Nat),
      runFrom pageStep (initPaging (resetPaging pteAddr)) ops = some P → P.DistinctLive p q →
        Isolated P p q := by
  intro hall
  have hiso := hall _ _ _ 0 1 afterTwoPrograms_run afterTwoPrograms_live
  have hw0 : afterTwoPrograms.Writes 0 0x3FE000#32 :=
    ⟨0x7FFE000#32, ⟨0x3FE000#32, true, true⟩, by decide, rfl, rfl, rfl⟩
  have hw1 : afterTwoPrograms.Writes 1 0x3FE000#32 :=
    ⟨0x7FFE000#32, ⟨0x3FE000#32, true, true⟩, by decide, rfl, rfl, rfl⟩
  exact absurd (hiso.disjoint _ hw0 hw1) (by decide)

end OreOS
