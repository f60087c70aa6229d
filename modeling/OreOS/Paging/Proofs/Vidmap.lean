import OreOS.Machine.VirtualMemory
import OreOS.Paging.Proofs.Translation

/-!
# Mapping the screen for a program

`sys_vidmap` refuses two addresses and stores through every other one; the check that the address
belongs to the program is commented out. It maps the screen by entry 1 of the page table, and this
table is also the one that maps the first 4 MB for the kernel. The first call takes the page at 4 KB
away from the kernel, in every directory.
-/

namespace OreOS
open Machine

/-- `sys_vidmap` (`sys_call.c:430-465`) of process `procId` with the store `*addr = vid_addr` and
    the comparison behind it. `mem` is the physical memory, all of it RAM, without the page tables:
    these are in the kernel's 4 MB and not in a frame of a program. -/
def sysVidmapIn (procId : Nat) (addr : Word) (P : Paging) (mem : Word → UInt8) :
    Option (Int × Paging × (Word → UInt8)) :=
  if addr = 0x400000#32 then some (-1, P, mem)
  else if addr = 0 then some (-1, P, mem)
  else do
    let P := mapVideo procId P
    let mem ← storeBytes (P.translateIn (procId + 1)) mem addr (wordBytes vidAddr)
    let back ← loadBytes (P.translateIn (procId + 1)) mem addr 4
    return (if back = wordBytes vidAddr then 0 else -1, P, mem)

/-- The entry that maps the screen. -/
def videoEntry : Word := 0xB8000#32 ||| ctrlPteUsr

/-- A pointer to four bytes of the program's page. -/
def InProgram (addr : Word) : Prop := 0x8000000#32 ≤ addr ∧ addr ≤ 0x83FFFFC#32

instance (addr : Word) : Decidable (InProgram addr) := inferInstanceAs (Decidable (_ ∧ _))

/-- The address is stored, the screen is mapped, and the program and the kernel
stay where they are. -/
structure ScreenMapped (p : Nat) (addr : Word) (P P' : Paging) (mem mem' : Word → UInt8) :
    Prop where
  stored : loadBytes (P'.translateIn (p + 1)) mem' addr 4 = some (wordBytes vidAddr)
  elsewhere : ∀ x, (∀ i < 4, ∀ m, P'.translateIn (p + 1) (addr + BitVec.ofNat 32 i) = some m →
    m.phys ≠ x) → mem' x = mem x
  screen : ∀ a : Word, vidAddr ≤ a → a < vidAddr + 4096#32 → ∃ m,
    P'.translateIn (p + 1) a = some m ∧ m.phys = 0xB8000#32 + (a - vidAddr) ∧ m.user = true
  program : ∀ a : Word, 0x8000000#32 ≤ a → a < 0x8400000#32 →
    P'.translateIn (p + 1) a = P.translateIn (p + 1) a
  kernel : ∀ a : Word, 4096#32 ≤ a → a < 0x800000#32 →
    P'.translateIn (p + 1) a = P.translateIn (p + 1) a

/-- A pointer into the program's page gets the screen, every other one is refused
and nothing changes. -/
def VidmapChecks (p : Nat) (addr : Word) (P : Paging) (mem : Word → UInt8) : Prop :=
  if InProgram addr then
    ∃ P' mem', sysVidmapIn p addr P mem = some (0, P', mem') ∧ ScreenMapped p addr P P' mem mem'
  else sysVidmapIn p addr P mem = some (-1, P, mem)

/-- When that is so: the pointer is one of the two that are refused, or points into the program at a
    time when entry 1 of the page table maps the screen already. -/
def VidmapHarmless (addr : Word) (P : Paging) : Prop :=
  addr = 0x400000#32 ∨ addr = 0 ∨ (InProgram addr ∧ P.pte 1 = videoEntry)

/-! ## The page tables along a run -/

/-- What writes the page tables once `init_paging` is done: the calls of `PageOp`, and the
    scheduler, which points entry 0xB8 at the screen or at the copy of a background terminal
    (`sched.c:45-81`). -/
inductive TableOp where
  | page (op : PageOp)
  | changePte (value : Nat)
  deriving DecidableEq, Repr

/-- One write to the page tables. -/
def tableStep (P : Paging) : TableOp → Option Paging
  | .page op => pageStep P op
  | .changePte value => some (changePte 0xB8 value P)

/-- Programs are linked at 128 MB, and only processes that run give their slot back or
    ask for the screen. -/
def TableCall (P : Paging) : TableOp → Prop
  | .page (.newPde entry) => 0x8000000#32 ≤ entry ∧ entry < 0x8400000#32
  | .page (.removePage procId) => 0 ≤ procId ∧ P.Live procId.toNat
  | .page (.sysVidmap procId _) => P.Live procId
  | .changePte _ => True

instance decidableTableCall (P : Paging) : ∀ op, Decidable (TableCall P op)
  | .page (.newPde entry) => inferInstanceAs
  (Decidable (0x8000000#32 ≤ entry ∧ entry < 0x8400000#32))
  | .page (.removePage procId) => inferInstanceAs (Decidable (0 ≤ procId ∧ P.Live procId.toNat))
  | .page (.sysVidmap procId _) => inferInstanceAs (Decidable (P.Live procId))
  | .changePte _ => isTrue trivial

/-- Entry 1 maps its own page, until a process asks for the screen. -/
structure TablesOk (P : Paging) : Prop where
  rows : RowsOk P
  first : P.pte 1 = 0x1001#32 ∨ P.pte 1 = videoEntry

section
variable {P P' : Paging}

@[simp] theorem mapVideo_pte (p k : Nat) (P : Paging) :
    (mapVideo p P).pte k = if k = 1 then videoEntry else P.pte k := by
  simp only [mapVideo, setPde_pte, Function.update_apply, videoEntry]

@[simp] theorem mapVideo_pde (p j k : Nat) (P : Paging) : (mapVideo p P).pde j k =
    if j = p + 1 ∧ k = 12 then (P.pteAddr &&& 0xFFFFF000#32) ||| ctrlVideoUsr else P.pde j k := by
  simp only [mapVideo, setPde_pde]

@[simp] theorem mapVideo_pteAddr (p : Nat) (P : Paging) : (mapVideo p P).pteAddr = P.pteAddr := rfl

@[simp] theorem mapVideo_proc (p : Nat) (P : Paging) : (mapVideo p P).proc = P.proc := rfl

theorem RowsOk.mapVideo (h : RowsOk P) (p : Nat) : RowsOk (mapVideo p P) where
  slots := ⟨h.slots.bits, h.slots.slot7⟩
  row := by
    intro i hi
    simpa using h.row i hi
  live := by
    intro i hi
    simpa [Paging.tableEntry] using h.live i hi

theorem RowsOk.changePte (h : RowsOk P) (i value : Nat) : RowsOk (changePte i value P) :=
  ⟨⟨h.slots.bits, h.slots.slot7⟩, h.row, h.live⟩

theorem TablesOk.step (h : TablesOk P) {op : TableOp} (hop : TableCall P op) :
    ∀ P', tableStep P op = some P' → TablesOk P' := by
  intro P' hstep
  rcases op with op | value
  · cases op with
    | newPde entry =>
      obtain ⟨⟨r, Q⟩, hnew, rfl⟩ := Option.map_eq_some_iff.mp hstep
      obtain ⟨r', Q', hnew', -, hok⟩ := h.rows.slots.newPde entry
      cases hnew.symm.trans hnew'
      refine ⟨h.rows.newPde (dirIndex_program hop.1 hop.2) hnew hok, ?_⟩
      rw [(newPde_kept hnew).2.1]
      exact h.first
    | removePage procId =>
      obtain ⟨Q, hrem, hlive, hok⟩ := h.rows.slots.removePage hop.1 hop.2
      cases hrem.symm.trans hstep
      have hrows := h.rows.removePage hrem hok fun j hj => ((hlive j).mp hj).1
      obtain ⟨proc, -, -, rfl⟩ := removePage_cases hrem
      exact ⟨hrows, h.first⟩
    | sysVidmap procId addr =>
      simp only [tableStep, pageStep, Option.ite_none_right_eq_some] at hstep
      obtain ⟨⟨r, Q⟩, hmap, rfl⟩ := Option.map_eq_some_iff.mp hstep.2
      rcases sysVidmap_cases hmap with ⟨-, -, rfl⟩ | ⟨-, -, -, rfl⟩
      · exact h
      · exact ⟨h.rows.mapVideo procId, .inr (by simp)⟩
  · cases hstep
    refine ⟨h.rows.changePte 0xB8 value, ?_⟩
    have hother : (OreOS.changePte 0xB8 value P).pte 1 = P.pte 1 := by
      simp [OreOS.changePte]
    rw [hother]
    exact h.first

theorem tablesOk_init (pteAddr : Word) : TablesOk (initPaging (resetPaging pteAddr)) :=
  ⟨(mapsOk_init pteAddr).rows, .inl (by simp [initPaging, ctrlPte])⟩

/-! ## What the call does -/

theorem keepsOffset_translateIn (P : Paging) (row : Nat) : KeepsOffset (P.translateIn row) :=
  keepsOffset_translate P.tables (P.pde row)

/-- A pointer that is not refused is stored through. The comparison finds what was stored. -/
theorem sysVidmapIn_eq {p : Nat} {addr : Word} {mem : Word → UInt8} (hk : addr ≠ 0x400000#32)
    (hz : addr ≠ 0) : sysVidmapIn p addr P mem =
      (storeBytes ((mapVideo p P).translateIn (p + 1)) mem addr (wordBytes vidAddr)).map
        fun mem' => (0, mapVideo p P, mem') := by
  simp only [sysVidmapIn, hk, hz, if_false, Option.bind_eq_bind]
  cases hstore : storeBytes ((mapVideo p P).translateIn (p + 1)) mem addr (wordBytes vidAddr) with
  | none => rfl
  | some mem' =>
    have hback := loadBytes_storeBytes (keepsOffset_translateIn _ _) (by decide) hstore
    have hlen : (wordBytes vidAddr).length = 4 := rfl
    rw [hlen] at hback
    simp [hback]

/-- What it does to the page tables is what `sysVidmap` says. -/
theorem sysVidmap_of_sysVidmapIn {p : Nat} {addr : Word} {mem mem' : Word → UInt8} {r : Int}
    (h : sysVidmapIn p addr P mem = some (r, P', mem')) : sysVidmap p addr P = some (r, P') := by
  by_cases hk : addr = 0x400000#32
  · rw [sysVidmapIn, if_pos hk] at h
    cases h
    rw [sysVidmap, if_pos hk]
  by_cases hz : addr = 0
  · rw [sysVidmapIn, if_neg hk, if_pos hz] at h
    cases h
    rw [sysVidmap, if_neg hk, if_pos hz]
  rw [sysVidmapIn_eq hk hz] at h
  obtain ⟨mem'', hstore, hrest⟩ := Option.map_eq_some_iff.mp h
  cases hrest
  obtain ⟨m, hm, -⟩ := Option.bind_eq_some_iff.mp hstore
  simp only [sysVidmap, hk, hz, if_false, hm, Option.isSome_some, if_true]

/-- Addresses outside the 4 MB of the screen, while entry 1 keeps what it has. -/
theorem translateIn_mapVideo {p : Nat} (hfirst : P.pte 1 = videoEntry) {a : Word}
    (ha : dirIndex a ≠ 12) :
    (mapVideo p P).translateIn (p + 1) a = P.translateIn (p + 1) a := by
  have hpte : (mapVideo p P).pte = P.pte := by
    funext k
    rw [mapVideo_pte]
    by_cases hk : k = 1
    · rw [if_pos hk, hk, hfirst]
    · rw [if_neg hk]
  have htables : (mapVideo p P).tables = P.tables := by
    funext frame
    simp only [Paging.tables, hpte, mapVideo_pteAddr]
  have hentry : (mapVideo p P).pde (p + 1) (dirIndex a) = P.pde (p + 1) (dirIndex a) := by
    rw [mapVideo_pde, if_neg (fun h => ha h.2)]
  simp only [Paging.translateIn, Machine.translate, htables, hentry]

/-- Translation through a directory entry that names the page table. -/
theorem translateIn_table {row : Nat} {ctrl a : Word}
    (he : P.pde row (dirIndex a) = (P.pteAddr &&& 0xFFFFF000#32) ||| ctrl)
    (hctrl : ctrl &&& 0xFFFFF000#32 = 0#32) (hp : ctrl.getLsbD 0 = true)
    (hl : ctrl.getLsbD 7 = false) (hpresent : (P.pte (tableIndex a)).getLsbD 0 = true) :
    P.translateIn row a = some (smallPage ((P.pteAddr &&& 0xFFFFF000#32) ||| ctrl)
      (P.pte (tableIndex a)) a) := by
  have hmask : (P.pteAddr &&& 0xFFFFF000#32) &&& 0xFFFFF000#32 = P.pteAddr &&& 0xFFFFF000#32 := by
    rw [BitVec.and_assoc, BitVec.and_self]
  have htable : P.tables (P.pteAddr &&& 0xFFFFF000#32) = some P.pte := if_pos rfl
  rw [Paging.translateIn, translate_small htable he hmask hctrl hp hl, if_pos hpresent]

/-- The kernel's page at 4 KB goes where entry 1 points. -/
theorem translateIn_first (P : Paging) (row : Nat) (h0 : P.pde row 0 = P.tableEntry)
    (hpresent : (P.pte 1).getLsbD 0 = true) :
    (P.translateIn row 0x1000#32).map Mapping.phys = some (P.pte 1 &&& 0xFFFFF000#32) := by
  have hdir : dirIndex 0x1000#32 = 0 := by decide
  have htab : tableIndex 0x1000#32 = 1 := by decide
  have he : P.pde row (dirIndex 0x1000#32) = (P.pteAddr &&& 0xFFFFF000#32) ||| ctrlVideo := by
    rw [hdir, h0]
    rfl
  rw [translateIn_table he (by decide) rfl rfl (by rw [htab, hpresent]), htab]
  simp [smallPage]

section
variable {p : Nat} (h : TablesOk P) (hp : P.Live p)
include h hp

/-- The call moves the kernel's page at 4 KB unless it was moved before. -/
theorem first_kept_iff : ((mapVideo p P).translateIn (p + 1) 0x1000#32 =
    P.translateIn (p + 1) 0x1000#32) ↔ P.pte 1 = videoEntry := by
  constructor
  · intro hsame
    rcases h.first with hid | hvideo
    · have hbefore := translateIn_first P (p + 1) (h.rows.live p hp).1 (by rw [hid]; rfl)
      have hafter := translateIn_first (mapVideo p P) (p + 1)
        ((h.rows.mapVideo p).live p hp).1 (by rw [mapVideo_pte, if_pos rfl]; rfl)
      rw [hsame, hbefore, hid, mapVideo_pte, if_pos rfl] at hafter
      exact absurd hafter (by decide)
    · exact hvideo
  · intro hvideo
    exact translateIn_mapVideo hvideo (by decide)

/-- The program's page is mapped whatever the call did. -/
theorem translateIn_program_mapVideo {a : Word} (h1 : 0x8000000#32 ≤ a) (h2 : a < 0x8400000#32) :
    ∃ m, (mapVideo p P).translateIn (p + 1) a = some m := by
  have hlt := hp.lt h.rows.slots.slot7
  have h32 := ((h.rows.mapVideo p).live p hp).2.2
  obtain ⟨m, hm, -⟩ := translateIn_program hlt h32 h1 h2
  exact ⟨m, hm⟩

/-- So the address can be stored. -/
theorem storeBytes_program {addr : Word} (haddr : InProgram addr) (mem : Word → UInt8) :
    ∃ mem', storeBytes ((mapVideo p P).translateIn (p + 1)) mem addr (wordBytes vidAddr) =
    some mem' := by
  apply storeBytes_isSome
  intro i hi
  have hi4 : i < 4 := hi
  have hlo : 0x8000000 ≤ addr.toNat := BitVec.le_def.mp haddr.1
  have hhi : addr.toNat ≤ 0x83FFFFC := BitVec.le_def.mp haddr.2
  have hsum : (addr + BitVec.ofNat 32 i).toNat = addr.toNat + i := by
    rw [BitVec.toNat_add, BitVec.toNat_ofNat]
    omega
  apply translateIn_program_mapVideo h hp
  · rw [BitVec.le_def, hsum]
    exact Nat.le_trans hlo (Nat.le_add_right _ _)
  · rw [BitVec.lt_def, hsum]
    exact Nat.lt_of_le_of_lt (Nat.add_le_add_right hhi i) (by
      change 0x83FFFFC + i < 0x8400000
      omega)

end

/-- The screen at the address that the program gets. -/
theorem translateIn_screen {p : Nat} {a : Word} (h1 : vidAddr ≤ a) (h2 : a < vidAddr + 4096#32) :
    ∃ m, (mapVideo p P).translateIn (p + 1) a = some m ∧ m.phys = 0xB8000#32 + (a - vidAddr) ∧
      m.user = true := by
  have hlo : 0x3001000 ≤ a.toNat := BitVec.le_def.mp h1
  have hhi : a.toNat < 0x3002000 := BitVec.lt_def.mp h2
  have hdir : dirIndex a = 12 := by
    rw [dirIndex_eq]
    omega
  have htab : tableIndex a = 1 := by
    rw [tableIndex_eq]
    omega
  have he : (mapVideo p P).pde (p + 1) (dirIndex a) =
      ((mapVideo p P).pteAddr &&& 0xFFFFF000#32) ||| ctrlVideoUsr := by
    rw [mapVideo_pde, if_pos ⟨rfl, hdir⟩, mapVideo_pteAddr]
  have hpte : (mapVideo p P).pte (tableIndex a) = videoEntry := by
    rw [htab, mapVideo_pte, if_pos rfl]
  have hmask : (P.pteAddr &&& 0xFFFFF000#32) &&& 0xFFFFF000#32 = P.pteAddr &&& 0xFFFFF000#32 := by
    rw [BitVec.and_assoc, BitVec.and_self]
  have huser : (P.pteAddr &&& 0xFFFFF000#32 ||| ctrlVideoUsr).getLsbD 2 = true :=
    entry_ctrl ctrlVideoUsr hmask rfl
  refine ⟨_, translateIn_table he (by decide) rfl rfl (by rw [hpte]; rfl), ?_, ?_⟩
  · simp only [smallPage, hpte]
    -- the frame of the screen and the offset have no bit in common
    have hframe : videoEntry &&& 0xFFFFF000#32 = 0xB8000#32 := by decide
    have hzero : 0xB8000#32 &&& (a &&& 0xFFF#32) = 0#32 := by
      rw [BitVec.and_comm a, ← BitVec.and_assoc, show 0xB8000#32 &&& 0xFFF#32 = 0#32 by decide,
        BitVec.zero_and]
    rw [hframe, ← BitVec.add_eq_or_of_and_eq_zero _ _ hzero]
    apply BitVec.eq_of_toNat_eq
    have hoff : (a - vidAddr).toNat = a.toNat - 0x3001000 := BitVec.toNat_sub_of_le h1
    have hmod : a.toNat % 4096 = a.toNat - 0x3001000 := by omega
    rw [BitVec.toNat_add, BitVec.toNat_add, and_offset_toNat, hoff, hmod]
  · simp only [smallPage, hpte, mapVideo_pteAddr, huser]
    rfl

theorem screenMapped {p : Nat} {addr : Word} {mem mem' : Word → UInt8}
    (hfirst : P.pte 1 = videoEntry)
    (hstore : storeBytes ((mapVideo p P).translateIn (p + 1)) mem addr (wordBytes vidAddr) =
      some mem') :
    ScreenMapped p addr P (mapVideo p P) mem mem' where
  stored := loadBytes_storeBytes (keepsOffset_translateIn _ _) (by decide) hstore
  elsewhere := fun _ hx => storeBytes_elsewhere hstore hx
  screen := fun _ h1 h2 => translateIn_screen h1 h2
  program := by
    intro a h1 h2
    have hdir := dirIndex_program h1 h2
    exact translateIn_mapVideo hfirst (by omega)
  kernel := by
    intro a _ h2
    have hlt : a.toNat < 0x800000 := BitVec.lt_def.mp h2
    have hdir : dirIndex a ≠ 12 := by
      rw [dirIndex_eq]
      omega
    exact translateIn_mapVideo hfirst hdir

theorem vidmapChecks_iff {p : Nat} {addr : Word} (h : TablesOk P) (hp : P.Live p)
    (mem : Word → UInt8) :
    VidmapChecks p addr P mem ↔ VidmapHarmless addr P := by
  unfold VidmapChecks VidmapHarmless
  by_cases hk : addr = 0x400000#32
  · have hout : ¬ InProgram addr := by rw [hk]; decide
    rw [if_neg hout, sysVidmapIn, if_pos hk]
    exact iff_of_true rfl (.inl hk)
  by_cases hz : addr = 0
  · have hout : ¬ InProgram addr := by rw [hz]; decide
    rw [if_neg hout, sysVidmapIn, if_neg hk, if_pos hz]
    exact iff_of_true rfl (.inr (.inl hz))
  rw [sysVidmapIn_eq hk hz]
  by_cases haddr : InProgram addr
  · obtain ⟨mem', hstore⟩ := storeBytes_program h hp haddr mem
    rw [if_pos haddr, hstore]
    constructor
    · rintro ⟨P', mem'', heq, hmapped⟩
      cases heq
      have hsame := hmapped.kernel 0x1000#32 (by decide) (by decide)
      exact .inr (.inr ⟨haddr, (first_kept_iff h hp).mp hsame⟩)
    · rintro (hk' | hz' | ⟨-, hfirst⟩)
      · exact absurd hk' hk
      · exact absurd hz' hz
      · exact ⟨_, mem', rfl, screenMapped hfirst hstore⟩
  · rw [if_neg haddr]
    refine iff_of_false ?_ ?_
    · intro heq
      obtain ⟨mem', -, hrest⟩ := Option.map_eq_some_iff.mp heq
      exact absurd (congrArg Prod.fst hrest) (show (0 : Int) ≠ -1 by decide)
    · rintro (hk' | hz' | ⟨hin, -⟩)
      · exact hk hk'
      · exact hz hz'
      · exact haddr hin

end

/-! ## Reachable page tables -/

theorem tablesOk_run {pteAddr : Word} {P : Paging} {ops : List TableOp}
    (hops : EachStep tableStep TableCall (initPaging (resetPaging pteAddr)) ops)
    (hrun : runFrom tableStep (initPaging (resetPaging pteAddr)) ops = some P) : TablesOk P :=
  inv_runFrom (fun _ _ _ h hop hstep => h.step hop _ hstep) (tablesOk_init pteAddr) hops hrun

/-- A first program. -/
def oneProgram : List TableOp := [.page (.newPde 0x8048000#32)]

/-- The page tables behind it. -/
def afterOneProgram : Paging :=
  (runFrom tableStep (initPaging (resetPaging 0x410000#32)) oneProgram).getD
  (resetPaging 0x410000#32)

theorem afterOneProgram_run :
    runFrom tableStep (initPaging (resetPaging 0x410000#32)) oneProgram = some afterOneProgram :=
    rfl

theorem oneProgram_calls :
    EachStep tableStep TableCall (initPaging (resetPaging 0x410000#32)) oneProgram := by decide

theorem afterOneProgram_live : afterOneProgram.Live 0 := by
  unfold Paging.Live
  decide

/-- The program gets the screen stored in the kernel's memory, and its first call with a good
    pointer takes a page away from the kernel. -/
theorem first_program_passes_kernel_pointer :
    (sysVidmapIn 0 0x500000#32 afterOneProgram fun _ => 0).map Prod.fst = some 0 ∧
      ¬ VidmapChecks 0 0x500000#32 afterOneProgram (fun _ => 0) ∧
      ¬ VidmapChecks 0 0x8048000#32 afterOneProgram (fun _ => 0) := by
  have hok : TablesOk afterOneProgram := tablesOk_run oneProgram_calls afterOneProgram_run
  refine ⟨by decide, ?_, ?_⟩
  · rw [vidmapChecks_iff hok afterOneProgram_live]
    unfold VidmapHarmless
    decide
  · rw [vidmapChecks_iff hok afterOneProgram_live]
    unfold VidmapHarmless
    decide

/-- Whatever programs were started and stopped and whichever of them asked for the screen before. -/
theorem sys_vidmap_checks_its_pointer_iff (pteAddr : Word) (ops : List TableOp)
    (P : Paging) (p : Nat) (addr : Word) (mem : Word → UInt8)
    (hops : EachStep tableStep TableCall (initPaging (resetPaging pteAddr)) ops)
    (hrun : runFrom tableStep (initPaging (resetPaging pteAddr)) ops = some P) (hp : P.Live p) :
    VidmapChecks p addr P mem ↔ VidmapHarmless addr P :=
    vidmapChecks_iff (tablesOk_run hops hrun) hp mem

theorem first_program_checks_iff :
    VidmapChecks 0 0x8048000#32 afterOneProgram (fun _ => 0) ↔
      VidmapHarmless 0x8048000#32 afterOneProgram :=
  sys_vidmap_checks_its_pointer_iff 0x410000#32 oneProgram afterOneProgram 0 0x8048000#32
    (fun _ => 0) oneProgram_calls afterOneProgram_run afterOneProgram_live

end OreOS
