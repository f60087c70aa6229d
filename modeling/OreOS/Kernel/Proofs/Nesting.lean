import OreOS.Kernel.Proofs.DescriptorLeak
import OreOS.Kernel.Proofs.Halting
import OreOS.Paging.Proofs.Translation

/-!
# Programs started by programs

In one terminal, `execute` and `halt` work like the push and pop of a stack. The processes `0..d`
are live, `d` runs, and the PCB of `k + 1` points to that of `k`. The pointer is not the address of
that PCB: `execute` masks the stack pointer with `0xffe000` and not with `0xfffe000`. It is an
address in directory entry 3 instead of 31, and every process directory maps both entries to the
first 4 MB.
-/

namespace OreOS
open Machine

variable {K K' : Kernel}

/-- `esp` is on the kernel stack of process `p`. -/
def OnStack (p : Nat) (esp : Word) : Prop := esp &&& 0xFFFFE000#32 = pcbAddr p

instance (p : Nat) (esp : Word) : Decidable (OnStack p esp) := inferInstanceAs (Decidable (_ = _))

/-- Processes `0..d` are live, `d` runs in terminal 0, and each names the one before it as its
    parent, through the directory in use. -/
structure NestedAt (K : Kernel) (d : Nat) : Prop where
  le : d ≤ 6
  live : ∀ i, K.paging.Live i ↔ i ≤ d
  running : K.user = d
  active : K.sched.procActive[0]? = some (d : Int)
  low : ∀ va, dirIndex va = 3 ∨ dirIndex va = 31 → K.phys va = some (va &&& 0x3FFFFF#32)
  parents : ∀ k, 0 < k → k ≤ d → ∃ a b, K.phys (pcbAddr k) = some a ∧
    K.phys (K.pcb a).oldPcb = some b ∧ (K.pcb b).procId = (k : Int) - 1

/-- The program, if there is one, is linked at 128 MB to 132 MB. -/
def Linked : Option Word → Prop
  | none => True
  | some entry => 0x8000000#32 ≤ entry ∧ entry < 0x8400000#32

instance decidableLinked : ∀ prog, Decidable (Linked prog)
  | none => isTrue trivial
  | some entry => inferInstanceAs (Decidable (0x8000000#32 ≤ entry ∧ entry < 0x8400000#32))

/-- Calls by the process that runs: it is on its own stack, programs are linked at 128 MB to 132 MB,
    and process 0 does not halt. -/
def NestCall (K : Kernel) : SchedEvent → Prop
  | .execute prog f => OnStack K.user.toNat (K.esp f) ∧ Linked prog
  | .halt f => OnStack K.user.toNat (K.esp f) ∧ 0 < K.user
  | .tick _ => False
  | .altKey _ _ _ _ => False

instance decidableNestCall (K : Kernel) : ∀ e, Decidable (NestCall K e)
  | .execute prog f => inferInstanceAs (Decidable (OnStack K.user.toNat (K.esp f) ∧ Linked prog))
  | .halt f => inferInstanceAs (Decidable (OnStack K.user.toNat (K.esp f) ∧ 0 < K.user))
  | .tick _ => isFalse id
  | .altKey _ _ _ _ => isFalse id

/-- `execute` starts process `d + 1`, unless there is no program or no slot, when it returns -1 and
    changes nothing; `halt` goes back to process `d`. -/
def NestStep (K : Kernel) (e : SchedEvent) (K' : Kernel) : Prop :=
  match e with
  | .execute prog f => ∃ d x, NestedAt K d ∧ execute (K.home K.user) prog f K = some (x, K') ∧
      ((x = .toProgram ∧ d < 6 ∧ NestedAt K' (d + 1)) ∨
        (x = .toCaller (-1) ∧ (prog = none ∨ d = 6) ∧ K' = K))
  | .halt f => ∃ d, NestedAt K (d + 1) ∧ halt f K = some (.toParent, K') ∧ NestedAt K' d
  | .tick _ => False
  | .altKey _ _ _ _ => False

/-! ## Addresses of PCBs -/

/-- The physical address of the PCB of process `p`. -/
def pcbPhys (p : Nat) : Word := pcbAddr p &&& 0x3FFFFF#32

/-- The pointer to process `p` that its children get. -/
def parentPtr (p : Nat) : Word := pcbAddr p &&& 0xffe000#32

theorem pcbPhys_ne {p q : Nat} (hp : p < 7) (hq : q < 7) (hpq : p ≠ q) : pcbPhys p ≠ pcbPhys q := by
  have hall : ∀ p < 7, ∀ q < 7, p ≠ q → pcbPhys p ≠ pcbPhys q := by decide
  exact hall p hp q hq hpq

theorem dirIndex_pcbAddr {p : Nat} (hp : p < 7) : dirIndex (pcbAddr p) = 31 := by
  have hall : ∀ p < 7, dirIndex (pcbAddr p) = 31 := by decide
  exact hall p hp

theorem dirIndex_parentPtr {p : Nat} (hp : p < 7) : dirIndex (parentPtr p) = 3 := by
  have hall : ∀ p < 7, dirIndex (parentPtr p) = 3 := by decide
  exact hall p hp

/-- Both pointers have the same offset in their 4 MB page. -/
theorem parentPtr_offset {p : Nat} (hp : p < 7) : parentPtr p &&& 0x3FFFFF#32 = pcbPhys p := by
  have hall : ∀ p < 7, parentPtr p &&& 0x3FFFFF#32 = pcbPhys p := by decide
  exact hall p hp

theorem OnStack.pcb {p : Nat} {esp : Word} (hp : p < 7) (h : OnStack p esp) :
    esp &&& 0xfffe000#32 = pcbAddr p := by
  have hall : ∀ p < 7, pcbAddr p &&& 0xfffe000#32 = pcbAddr p := by decide
  have hmask : 0xfffe000#32 = 0xFFFFE000#32 &&& 0xfffe000#32 := by decide
  rw [hmask, ← BitVec.and_assoc, h, hall p hp]

theorem OnStack.parentPtr {p : Nat} {esp : Word} (h : OnStack p esp) :
    esp &&& 0xffe000#32 = parentPtr p := by
  have hmask : 0xffe000#32 = 0xFFFFE000#32 &&& 0xffe000#32 := by decide
  rw [hmask, ← BitVec.and_assoc, h]
  rfl

/-- An entry that is still as `init_paging` left it maps the first 4 MB. -/
theorem translateIn_empty {P : Paging} {row : Nat} {va : Word}
    (h : P.pde row (dirIndex va) = 0x87#32) :
    (P.translateIn row va).map Mapping.phys = some (va &&& 0x3FFFFF#32) := by
  have he : P.pde row (dirIndex va) = 0#32 ||| 0x87#32 := by rw [h, BitVec.zero_or]
  unfold Paging.translateIn
  rw [translate_large P.tables he (BitVec.zero_and) (by decide) rfl rfl]
  simp

/-! ## The invariant -/

/-- The first `n` slots are live. Each of their PCBs holds its own id, and the pointer
    to the one before. -/
structure Stacked (K : Kernel) (n : Nat) : Prop where
  le : n ≤ 7
  up : K.down = false
  slots : SlotsOk K.paging
  live : ∀ i, K.paging.Live i ↔ i < n
  term : K.sched.activeTerm = 0
  entry3 : ∀ j, 1 ≤ j → j < 8 → K.paging.pde j 3 = 0x87#32
  entry31 : ∀ j, 1 ≤ j → j < 8 → K.paging.pde j 31 = 0x87#32
  ids : ∀ k < n, (K.pcb (pcbPhys k)).procId = k
  parents : ∀ k, k + 1 < n → (K.pcb (pcbPhys (k + 1))).oldPcb = parentPtr k

/-- In addition, the last of them runs. -/
structure Nested (K : Kernel) (d : Nat) : Prop extends Stacked K (d + 1) where
  cr3 : K.paging.cr3 = d + 1
  active : K.sched.procActive[0]? = some (d : Int)

theorem stacked_boot (pteAddr : Word) : Stacked (boot pteAddr) 0 := by
  have hslots := slotsOk_of_zero (P := (boot pteAddr).paging) rfl
  have hfree : (boot pteAddr).paging.freeSlot = 0 := rfl
  have hempty (c : Nat) (j : Nat) (h1 : 1 ≤ j) (h8 : j < 8) :
      (boot pteAddr).paging.pde j c = 0x87#32 := by
    have hj : j ≠ 0 := by omega
    simp only [boot, initPaging, hj, if_false, h8, if_true]
    rfl
  refine ⟨by omega, rfl, hslots, fun i => ?_, rfl, hempty 3, hempty 31, fun k hk => ?_,
    fun k hk => ?_⟩
  · constructor
    · intro hlive
      obtain ⟨hi, hone⟩ := Vector.getElem?_eq_some_iff.mp hlive
      have hzero : (boot pteAddr).paging.proc[i] = 0 := by simp [boot, initPaging, resetPaging]
      exact absurd (hzero.symm.trans hone) (by decide)
    · intro hi
      omega
  · omega
  · omega

theorem Nested.row (h : Nested K d) : K.paging.cr3.toNat = d + 1 := by
  rw [h.cr3]
  omega

theorem Nested.phys (h : Nested K d) {va : Word} (hva : dirIndex va = 3 ∨ dirIndex va = 31) :
    K.phys va = some (va &&& 0x3FFFFF#32) := by
  have hle := h.le
  unfold Kernel.phys
  rw [h.row]
  apply translateIn_empty
  rcases hva with hva | hva
  · rw [hva]
    exact h.entry3 (d + 1) (by omega) (by omega)
  · rw [hva]
    exact h.entry31 (d + 1) (by omega) (by omega)

theorem Nested.nestedAt (h : Nested K d) : NestedAt K d where
  le := by
    have := h.le
    omega
  live := by
    intro i
    rw [h.live]
    omega
  running := by
    rw [Kernel.user, h.cr3]
    omega
  active := h.active
  low := fun va hva => h.phys hva
  parents := by
    intro k hk hkd
    have hle := h.le
    obtain ⟨j, rfl⟩ : ∃ j, k = j + 1 := ⟨k - 1, by omega⟩
    refine ⟨pcbPhys (j + 1), pcbPhys j, h.phys (.inr (dirIndex_pcbAddr (by omega))), ?_, ?_⟩
    · rw [h.parents j (by omega), h.phys (.inl (dirIndex_parentPtr (by omega))),
        parentPtr_offset (by omega)]
    · rw [h.ids j (by omega)]
      omega

/-- The slot that `new_pde` finds is the next one. -/
theorem Stacked.freeSlot {n : Nat} (h : Stacked K n) : K.paging.freeSlot = n := by
  have hnot := h.slots.not_live_freeSlot
  rw [h.live] at hnot
  rcases Nat.lt_or_ge n K.paging.freeSlot with hlt | hge
  · have := (h.live n).mp (h.slots.live_of_lt hlt)
    omega
  · omega

/-! ## One call -/

/-- `execute` writes the PCB of the new process where all directories have it. -/
theorem Stacked.started_pcb {n term : Nat} {entry : Word} {f : Frame} (h : Stacked K n) (hn : n < 7)
    (hentry : dirIndex entry = 32) (hs : Started term entry f K K') :
    K'.down = false ∧ K'.pcb = Function.update K.pcb (pcbPhys n)
      (fillPcb n (K.esp f) (K.ebp f) (K.pcb (pcbPhys n))) := by
  have hmap : ((fillPde n entry K.paging).translateIn (n + 1) (pcbAddr n)).map Mapping.phys =
      some (pcbPhys n) := by
    apply translateIn_empty
    rw [dirIndex_pcbAddr hn, fillPde_pde (by decide) (by decide) (by rw [hentry]; decide)]
    exact h.entry31 (n + 1) (by omega) (by omega)
  obtain ⟨m, hm, hphys⟩ := Option.map_eq_some_iff.mp hmap
  have hpcb := hs.pcb
  rw [h.freeSlot, hm] at hpcb
  rcases hpcb with ⟨-, -, habs⟩ | ⟨m', hm', hdown, hpcb⟩
  · cases habs
  · cases hm'
    rw [hphys] at hpcb
    exact ⟨hdown.trans h.up, hpcb⟩

/-- A successful `execute` pushes a process. -/
theorem Stacked.started {n term : Nat} {entry : Word} {f : Frame} (h : Stacked K n) (hn : n < 7)
    (hstack : ∀ p, n = p + 1 → OnStack p (K.esp f)) (hentry : dirIndex entry = 32)
    (hs : Started term entry f K K') : Nested K' n := by
  obtain ⟨hup, hpcb⟩ := h.started_pcb hn hentry hs
  have hold {k : Nat} (hk : k < n) : K'.pcb (pcbPhys k) = K.pcb (pcbPhys k) := by
    rw [hpcb, Function.update_of_ne (pcbPhys_ne (by omega) hn (by omega))]
  have hnew : K'.pcb (pcbPhys n) = fillPcb n (K.esp f) (K.ebp f) (K.pcb (pcbPhys n)) := by
    rw [hpcb, Function.update_self]
  have hfree := h.freeSlot
  obtain ⟨act, hact, hsched⟩ := hs.sched
  have hstore := hs.proc
  rw [hfree] at hact hsched hstore
  have hpde {c : Nat} (h0 : c ≠ 0) (h1 : c ≠ 1) (h32 : c ≠ 32) (j : Nat) :
      K'.paging.pde j c = K.paging.pde j c := by
    rw [hs.pde]
    exact fillPde_pde h0 h1 (by rw [hentry]; exact h32) j
  refine ⟨⟨by omega, hup, ?_, ?_, ?_, ?_, ?_, ?_, ?_⟩, ?_, ?_⟩
  · exact h.slots.store hstore (.inr rfl) (by omega)
  · intro i
    rw [hs.live_iff, hfree, h.live]
    omega
  · rw [hsched]
    exact h.term
  · intro j h1 h8
    rw [hpde (by decide) (by decide) (by decide)]
    exact h.entry3 j h1 h8
  · intro j h1 h8
    rw [hpde (by decide) (by decide) (by decide)]
    exact h.entry31 j h1 h8
  · intro k hk
    rcases Nat.lt_or_eq_of_le (Nat.le_of_lt_succ hk) with hlt | rfl
    · rw [hold hlt]
      exact h.ids k hlt
    · rw [hnew]
      rfl
  · intro k hk
    rcases Nat.lt_or_eq_of_le (Nat.le_of_lt_succ hk) with hlt | rfl
    · rw [hold hlt]
      exact h.parents k hlt
    · rw [hnew]
      exact (hstack k rfl).parentPtr
  · rw [hs.cr3, hfree]
  · rw [hsched]
    simp only
    rw [getElem?_of_store hact, h.term, if_pos rfl]

/-- Control enters the new program. -/
theorem execute_exit {term : Nat} {entry : Word} {f : Frame} {x : Exit}
    (h : execute term (some entry) f K = some (x, K')) (hslot : K.paging.freeSlot ≠ 7)
    (hup : K'.down = false) : x = .toProgram := by
  simp only [execute, Option.bind_eq_bind, Option.bind_eq_some_iff] at h
  obtain ⟨⟨r, P⟩, hnew, h⟩ := h
  rcases newPde_cases hnew with ⟨h7, -, -⟩ | ⟨proc, -, rfl, -, -⟩
  · exact absurd h7 hslot
  · have hneg : ¬ (K.paging.freeSlot : Int) = -1 := by omega
    simp only [hneg, if_false, enterProgram, Option.bind_eq_bind, Option.bind_eq_some_iff] at h
    obtain ⟨S, -, h⟩ := h
    split at h
    · cases h
      cases hup
    · cases h
      rfl

/-- With a slot left and a program to run, `execute` starts the next process. -/
theorem Stacked.execute {n : Nat} {entry : Word} {f : Frame} (h : Stacked K n) (term : Nat)
    (hn : n < 7) (hstack : ∀ p, n = p + 1 → OnStack p (K.esp f)) (hentry : dirIndex entry = 32) :
    ∃ K', execute term (some entry) f K = some (.toProgram, K') ∧ Nested K' n ∧
      K'.pcb = Function.update K.pcb (pcbPhys n)
        (fillPcb n (K.esp f) (K.ebp f) (K.pcb (pcbPhys n))) := by
  have hterm : K.sched.activeTerm < 3 := by
    rw [h.term]
    omega
  obtain ⟨x, K', hx⟩ := execute_defined h.slots.slot7 hterm term (some entry) f
  have hslot : K.paging.freeSlot ≠ 7 := by
    rw [h.freeSlot]
    omega
  cases execute_cases hx with
  | noProgram habs => cases habs
  | noSlot _ h7 => exact absurd h7 hslot
  | started hprog hs =>
    cases hprog
    have hnested := h.started hn hstack hentry hs
    rw [execute_exit hx hslot hnested.up] at hx
    exact ⟨K', hx, hnested, (h.started_pcb hn hentry hs).2⟩

/-- Without a slot, `execute` returns -1 and changes nothing. -/
theorem execute_noSlot {term : Nat} {entry : Word} {f : Frame} (h : K.paging.freeSlot = 7) :
    execute term (some entry) f K = some (.toCaller (-1), K) := by
  simp only [execute, newPde, h, if_true, Option.bind_eq_bind, Option.bind_some, Option.pure_def]

/-- The process that runs finds its own PCB. -/
theorem Nested.getCurrPcb {d : Nat} {f : Frame} (h : Nested K d) (hstack : OnStack d (K.esp f)) :
    K.getCurrPcb f = some (pcbPhys d) := by
  have hle := h.le
  rw [Kernel.getCurrPcb, hstack.pcb (by omega)]
  exact h.phys (.inr (dirIndex_pcbAddr (by omega)))

/-- `halt` pops a process. -/
theorem Nested.halt {d : Nat} {f : Frame} (h : Nested K (d + 1))
    (hstack : OnStack (d + 1) (K.esp f)) :
    ∃ K', halt f K = some (.toParent, K') ∧ Nested K' d ∧
      K'.tss = ⟨(K.pcb (pcbPhys (d + 1))).kstack, (K.pcb (pcbPhys (d + 1))).oldEbp,
        (K.pcb (pcbPhys (d + 1))).kstack⟩ ∧ K'.pcb = K.pcb := by
  have hle := h.le
  have hid : (K.pcb (pcbPhys (d + 1))).procId = ((d + 1 : Nat) : Int) := h.ids (d + 1) (by omega)
  have hpid : (K.pcb (pcbPhys d)).procId = (d : Int) := h.ids d (by omega)
  obtain ⟨P, hP, hlive, hslots⟩ := h.slots.removePage
    (show (0 : Int) ≤ (K.pcb (pcbPhys (d + 1))).procId by omega)
    (by rw [hid, Int.toNat_natCast, h.live]; omega)
  have hactive : K.sched.isActive (K.pcb (pcbPhys (d + 1))).procId = some true := by
    rw [Sched.isActive, h.term, h.active]
    simp [hid]
  have hparent : K.phys (K.pcb (pcbPhys (d + 1))).oldPcb = some (pcbPhys d) := by
    rw [h.parents d (by omega), h.phys (.inl (dirIndex_parentPtr (by omega))),
      parentPtr_offset (by omega)]
  obtain ⟨S, hS⟩ : ∃ S, K.sched.removeProcess (K.pcb (pcbPhys d)).procId
      (K.pcb (pcbPhys (d + 1))).kstack (K.pcb (pcbPhys (d + 1))).oldEbp = some S := by
    have hterm : K.sched.activeTerm < 3 := by
      rw [h.term]
      omega
    simp only [Sched.removeProcess, store_isSome _ hterm, Option.bind_eq_bind, Option.bind_some,
      Option.pure_def]
    exact ⟨_, rfl⟩
  refine ⟨_, halt_eq_resumed (h.getCurrPcb hstack) (by omega) hP hactive hparent hS, ?_, rfl, rfl⟩
  obtain ⟨act, hact, e, -, b, -, rfl⟩ := removeProcess_cases hS
  obtain ⟨proc, -, -, rfl⟩ := removePage_cases hP
  refine ⟨⟨by omega, h.up, ⟨hslots.bits, hslots.slot7⟩, fun i => ?_, h.term, h.entry3, h.entry31,
    fun k hk => h.ids k (by omega), fun k hk => h.parents k (by omega)⟩, ?_, ?_⟩
  · apply Iff.trans (hlive i)
    rw [h.live, hid]
    omega
  · simp only [hpid]
  · simp only
    rw [getElem?_of_store hact, h.term, if_pos rfl, hpid]

/-! ## Runs -/

theorem Nested.user {d : Nat} (h : Nested K d) : K.user = d := h.nestedAt.running

/-- One call. -/
theorem nested_step {d : Nat} (h : Nested K d) {e : SchedEvent} (he : NestCall K e) :
    ∃ K', schedStep K e = some K' ∧ NestStep K e K' ∧ ∃ d', Nested K' d' := by
  have hup : ¬ K.down = true := by simp [h.up]
  have hle := h.le
  cases e with
  | tick f => exact he.elim
  | altKey scancode f shell g => exact he.elim
  | execute prog f =>
    obtain ⟨hstack, hprog⟩ := he
    rw [h.user, Int.toNat_natCast] at hstack
    cases prog with
    | none =>
      refine ⟨K, ?_, ⟨d, _, h.nestedAt, rfl, .inr ⟨rfl, .inl rfl, rfl⟩⟩, d, h⟩
      simp only [schedStep, hup]
      rfl
    | some entry =>
      by_cases h6 : d = 6
      · have hfull : K.paging.freeSlot = 7 := by
          rw [h.freeSlot, h6]
        refine ⟨K, ?_, ⟨d, _, h.nestedAt, execute_noSlot hfull, .inr ⟨rfl, .inr h6, rfl⟩⟩, d, h⟩
        simp only [schedStep, hup, execute_noSlot hfull]
        rfl
      · obtain ⟨h1, h2⟩ := hprog
        obtain ⟨K', hx, hnested, -⟩ := h.execute (K.home K.user) (by omega)
          (fun p hp => by cases hp; exact hstack) (dirIndex_program h1 h2)
        refine ⟨K', ?_, ⟨d, _, h.nestedAt, hx, .inl ⟨rfl, by omega, hnested.nestedAt⟩⟩,
          d + 1, hnested⟩
        simp only [schedStep, hup, hx]
        rfl
  | halt f =>
    obtain ⟨hstack, hpos⟩ := he
    rw [h.user] at hstack hpos
    obtain ⟨c, rfl⟩ : ∃ c, d = c + 1 := ⟨d - 1, by omega⟩
    obtain ⟨K', hx, hnested, -, -⟩ := h.halt hstack
    refine ⟨K', ?_, ⟨c, h.nestedAt, hx, hnested.nestedAt⟩, c, hnested⟩
    simp only [schedStep, hup, hx]
    rfl

/-- From boot, the first shell is process 0 of terminal 0. Whatever programs are then started and
    ended by the process that runs, all calls are defined, and the live processes are nested. -/
theorem processes_nested (pteAddr entry : Word) (f : Frame)
    (hentry : Linked (some entry)) :
    ∃ K, execute 0 (some entry) f (boot pteAddr) = some (.toProgram, K) ∧ NestedAt K 0 ∧
      ∀ es, EachStep schedStep NestCall K es → Runs schedStep NestStep K es := by
  obtain ⟨K, hx, hnested, -⟩ := (stacked_boot pteAddr).execute (f := f) 0 (by omega)
    (fun p hp => by cases hp) (dirIndex_program hentry.1 hentry.2)
  have hstep : ∀ K e, (∃ d, Nested K d) → NestCall K e →
      ∃ K', schedStep K e = some K' ∧ NestStep K e K' ∧ ∃ d, Nested K' d := by
    rintro K e ⟨d, h⟩ he
    exact nested_step h he
  exact ⟨K, hx, hnested.nestedAt, fun es hes => runs_of_inv_each hstep ⟨0, hnested⟩ hes⟩

/-- The first shell has been started. -/
def shellStarted : Kernel :=
  ((execute 0 (some 0x8048000#32) callFrame (boot 0x410000#32)).map Prod.snd).getD
    (boot 0x410000#32)

theorem shellStarted_eq :
    execute 0 (some 0x8048000#32) callFrame (boot 0x410000#32) = some (.toProgram, shellStarted) :=
  rfl

/-- The shell starts a program that starts another one; a command that does not exist fails; both
    programs end. -/
def twoDeep : List SchedEvent :=
  [.execute (some 0x8048000#32) callFrame, .execute (some 0x8048094#32) callFrame,
    .execute none callFrame, .halt callFrame, .halt callFrame]

theorem processes_nested_twoDeep :
    EachStep schedStep NestCall shellStarted twoDeep ∧
    Runs schedStep NestStep shellStarted twoDeep := by
  have hcalls : EachStep schedStep NestCall shellStarted twoDeep := by decide
  obtain ⟨K, hx, -, hrun⟩ := processes_nested 0x410000#32 0x8048000#32 callFrame (by decide)
  cases shellStarted_eq.symm.trans hx
  exact ⟨hcalls, hrun twoDeep hcalls⟩

end OreOS
