import OreOS.Paging.Proofs.Slots

/-!
# Address spaces

What the page directories translate addresses to. The boot directory is the identity above the first
page. The directory of a process shares the first 8 MB with it and maps its own 4 MB frame at 128
MB. `new_pde` ors the entry of the program into what the previous process of the slot left there,
which is harmless because the frame depends on the slot only.
-/

namespace OreOS
open Machine

variable {P P' : Paging}

/-- `PDE[0]` is the identity from 4 KB on, and nothing is mapped below. -/
structure BootSpace (P : Paging) : Prop where
  identity : ∀ a : Word, 4096#32 ≤ a → (P.translateIn 0 a).map Mapping.phys = some a
  null : ∀ a : Word, a < 4096#32 → P.translateIn 0 a = none

/-- The directory of process `i`: its program at 128 MB, the kernel's low 8 MB,
and no first page. -/
structure ProcessSpace (P : Paging) (i : Nat) : Prop where
  program : ∀ a : Word, 0x8000000#32 ≤ a → a < 0x8400000#32 →
    ∃ m, P.translateIn (i + 1) a = some m ∧
    m.phys.toNat = 0x800000 + 0x400000 * i + (a.toNat - 0x8000000) ∧ m.user = true ∧ m.write = true
  kernel : ∀ a : Word, 4096#32 ≤ a → a < 0x800000#32 → ∃ m, P.translateIn (i + 1) a = some m ∧
    m.phys = a ∧ m.user = false
  null : ∀ a : Word, a < 4096#32 → P.translateIn (i + 1) a = none

/-- The physical address `x` belongs to the program of process `i`. -/
def Paging.ProgramAt (P : Paging) (i : Nat) (x : Word) : Prop :=
  ∃ a m, 0x8000000#32 ≤ a ∧ a < 0x8400000#32 ∧ P.translateIn (i + 1) a = some m ∧ m.phys = x

/-- The address spaces of the kernel and of its processes. -/
structure SpacesOk (P : Paging) : Prop where
  boot : BootSpace P
  live : ∀ i, P.Live i → ProcessSpace P i
  disjoint : ∀ i j, P.Live i → P.Live j → i ≠ j → ∀ x, ¬ (P.ProgramAt i x ∧ P.ProgramAt j x)

/-- The calls that give out slots to programs linked at 128 MB to 132 MB, and take
    back slots in use. -/
def ProgramCall (P : Paging) : PageOp → Prop
  | .newPde entry => 0x8000000#32 ≤ entry ∧ entry < 0x8400000#32
  | .removePage procId => 0 ≤ procId ∧ P.Live procId.toNat
  | .sysVidmap _ _ => False

instance decidableProgramCall (P : Paging) : ∀ op, Decidable (ProgramCall P op)
  | .newPde entry => inferInstanceAs (Decidable (0x8000000#32 ≤ entry ∧ entry < 0x8400000#32))
  | .removePage procId => inferInstanceAs (Decidable (0 ≤ procId ∧ P.Live procId.toNat))
  | .sysVidmap _ _ => isFalse id

/-! ## Translation through single entries -/

/-- The page table is as `init_paging` filled it. -/
def Paging.TableKept (P : Paging) : Prop := P.pte = (initPaging P).pte

/-- A directory entry for the page table. -/
def Paging.tableEntry (P : Paging) : Word := (P.pteAddr &&& 0xFFFFF000#32) ||| ctrlVideo

/-- The entry of the page table behind a low address. -/
theorem initPaging_pte {a : Word} (ha : a.toNat < 4194304) :
    (initPaging P).pte (tableIndex a) = if a.toNat < 4096 then 0#32
      else a &&& 0xFFFFF000#32 ||| ctrlPte := by
  have hidx : tableIndex a = a.toNat / 4096 := by
    rw [tableIndex_eq]
    omega
  simp only [initPaging, hidx]
  by_cases hlow : a.toNat < 4096
  · rw [if_pos hlow, if_pos (by omega), show a.toNat / 4096 = 0 by omega]
    decide
  · have hshift : BitVec.ofNat 32 (a.toNat / 4096) = a >>> 12 := by
      apply BitVec.eq_of_toNat_eq
      simp only [BitVec.toNat_ofNat, BitVec.toNat_ushiftRight, Nat.shiftRight_eq_div_pow]
      omega
    rw [if_neg hlow, if_neg (by omega), hshift, shift_mask_small]

/-- The first 4 MB are mapped by the page table. -/
theorem translateIn_low (hpte : P.TableKept) {row : Nat} (h0 : P.pde row 0 = P.tableEntry)
    {a : Word} (ha : a.toNat < 4194304) :
    P.translateIn row a = if a.toNat < 4096 then none else some ⟨a, false, false⟩ := by
  have hdir : dirIndex a = 0 := by
    rw [dirIndex_eq]
    omega
  have hmask : (P.pteAddr &&& 0xFFFFF000#32) &&& 0xFFFFF000#32 = P.pteAddr &&& 0xFFFFF000#32 := by
    rw [BitVec.and_assoc, BitVec.and_self]
  unfold Paging.translateIn
  have htable : P.tables (P.pteAddr &&& 0xFFFFF000#32) = some P.pte := if_pos rfl
  rw [translate_small htable (by rw [hdir]; exact h0) hmask (by decide) rfl rfl, hpte,
    initPaging_pte ha]
  by_cases hlow : a.toNat < 4096
  · simp [hlow]
  · have hpage : (a &&& 0xFFFFF000#32) &&& 0xFFFFF000#32 = a &&& 0xFFFFF000#32 := by
      rw [BitVec.and_assoc, BitVec.and_self]
    have hbit {i : Nat} (hi : (0xFFFFF000#32).getLsbD i = false) :=
      entry_ctrl ctrlPte hpage hi
    have hvideo {i : Nat} (hi : (0xFFFFF000#32).getLsbD i = false) :=
      entry_ctrl ctrlVideo hmask hi
    simp only [hlow, if_false, hbit (i := 0) rfl, show ctrlPte.getLsbD 0 = true from rfl, if_true,
      smallPage, entry_frame hpage (show ctrlPte &&& 0xFFFFF000#32 = 0#32 by decide),
      page_or_offset_small, hvideo (i := 1) rfl, hvideo (i := 2) rfl]
    rfl

/-- A 4 MB page that is mapped where it is. -/
theorem translateIn_identity {row : Nat} {ctrl a : Word}
    (he : P.pde row (dirIndex a) = BitVec.ofNat 32 (dirIndex a) <<< 22 ||| ctrl)
    (hctrl : ctrl &&& 0xFFC00000#32 = 0#32) (hp : ctrl.getLsbD 0 = true)
    (hl : ctrl.getLsbD 7 = true) :
    P.translateIn row a = some ⟨a, ctrl.getLsbD 2, ctrl.getLsbD 1⟩ := by
  have hshift : BitVec.ofNat 32 (dirIndex a) = a >>> 22 := by
    apply BitVec.eq_of_toNat_eq
    rw [dirIndex, BitVec.ofNat_toNat, BitVec.setWidth_eq]
  rw [hshift, shift_mask_large] at he
  have hpage : (a &&& 0xFFC00000#32) &&& 0xFFC00000#32 = a &&& 0xFFC00000#32 := by
    rw [BitVec.and_assoc, BitVec.and_self]
  unfold Paging.translateIn
  rw [translate_large P.tables he hpage hctrl hp hl, page_or_offset_large]

/-- The frames of the slots, as numbers. -/
theorem programFrame_toNat {i : Nat} (hi : i < 7) :
    (programFrame i).toNat = 0x800000 + 0x400000 * i := by
  have hall : ∀ i < 7, (programFrame i).toNat = 0x800000 + 0x400000 * i := by decide
  exact hall i hi

theorem programFrame_mask (i : Nat) : programFrame i &&& 0xFFC00000#32 = programFrame i := by
  unfold programFrame
  rw [BitVec.and_assoc, BitVec.and_self]

theorem dirIndex_program {a : Word} (h1 : 0x8000000#32 ≤ a) (h2 : a < 0x8400000#32) :
    dirIndex a = 32 := by
  rw [dirIndex_eq]
  have := BitVec.le_def.mp h1
  have := BitVec.lt_def.mp h2
  simp only [BitVec.toNat_ofNat] at *
  omega

/-- The entry of a program maps its frame at 128 MB. -/
theorem translateIn_program {i : Nat} (hi : i < 7)
    (he : P.pde (i + 1) 32 = programFrame i ||| 0x87#32) {a : Word} (h1 : 0x8000000#32 ≤ a)
    (h2 : a < 0x8400000#32) : ∃ m, P.translateIn (i + 1) a = some m ∧
      m.phys.toNat = 0x800000 + 0x400000 * i + (a.toNat - 0x8000000) ∧ m.user = true ∧
      m.write = true := by
  have hdir := dirIndex_program h1 h2
  have hframe := programFrame_mask i
  have hentry : P.pde (i + 1) (dirIndex a) = programFrame i ||| 0x87#32 := by rw [hdir, he]
  have htrans := translate_large P.tables hentry hframe (by decide) rfl rfl
  refine ⟨_, htrans, ?_, rfl, rfl⟩
  have hzero : programFrame i &&& (a &&& 0x3FFFFF#32) = 0#32 := by
    rw [← hframe, BitVec.and_assoc, BitVec.and_comm a, ← BitVec.and_assoc (0xFFC00000#32),
      show 0xFFC00000#32 &&& 0x3FFFFF#32 = 0#32 by decide, BitVec.zero_and, BitVec.and_zero]
  have hnum := programFrame_toNat hi
  have hoff := offset_toNat a
  have hge := BitVec.le_def.mp h1
  have hlt := BitVec.lt_def.mp h2
  simp only [BitVec.toNat_ofNat] at hge hlt
  change (programFrame i ||| a &&& 0x3FFFFF#32).toNat = _
  rw [← BitVec.add_eq_or_of_and_eq_zero _ _ hzero, BitVec.toNat_add, hnum, hoff]
  omega

/-! ## The directories along a run -/

/-- The entries on which the address spaces depend. Entry 32 of a slot holds the frame of the slot
    from the first time the slot is used. -/
structure MapsOk (P : Paging) : Prop where
  slots : SlotsOk P
  table : P.TableKept
  boot : P.pde 0 = (initPaging P).pde 0
  row : ∀ i < 7, P.pde (i + 1) 32 = 0x87#32 ∨ P.pde (i + 1) 32 = programFrame i ||| 0x87#32
  live : ∀ i, P.Live i → P.pde (i + 1) 0 = P.tableEntry ∧
    P.pde (i + 1) 1 = (1#32 <<< 22) ||| ctrlKernel ∧ P.pde (i + 1) 32 = programFrame i ||| 0x87#32

theorem mapsOk_init (pteAddr : Word) : MapsOk (initPaging (resetPaging pteAddr)) where
  slots := slotsOk_of_zero rfl
  table := rfl
  boot := rfl
  row := by
    intro i hi
    refine .inl ?_
    simp only [initPaging, show i + 1 ≠ 0 by omega, show i + 1 < 8 by omega, if_false, if_true]
    rfl
  live := by
    intro i hlive
    obtain ⟨hlt, hone⟩ := Vector.getElem?_eq_some_iff.mp hlive
    have hzero : (initPaging (resetPaging pteAddr)).proc[i] = 0 := by
      simp [initPaging, resetPaging]
    exact absurd (hzero.symm.trans hone) (by decide)

/-- The entries of the directory that `new_pde` fills in for slot `i`. -/
theorem fillPde_rows {i : Nat} {entry : Word} (hentry : dirIndex entry = 32) :
    (fillPde i entry P).pde (i + 1) 0 = P.tableEntry ∧
    (fillPde i entry P).pde (i + 1) 1 = (1#32 <<< 22) ||| ctrlKernel ∧
    (fillPde i entry P).pde (i + 1) 32 = P.pde (i + 1) 32 ||| (programFrame i ||| 0x87#32) := by
  have hv : (entry >>> 22).toNat = 32 := hentry
  refine ⟨?_, ?_, ?_⟩
  · simp [fillPde, hv, Paging.tableEntry]
  · simp [fillPde, hv]
  · simp [fillPde, hv]

theorem fillPde_other {i : Nat} {entry : Word} {j : Nat} (hj : j ≠ i + 1) (k : Nat) :
    (fillPde i entry P).pde j k = P.pde j k := by
  simp [fillPde, hj]

/-- Or-ing the entry of the program into what the slot was left with gives that entry. -/
theorem or_programEntry {old : Word} {i : Nat}
    (h : old = 0x87#32 ∨ old = programFrame i ||| 0x87#32) :
    old ||| (programFrame i ||| 0x87#32) = programFrame i ||| 0x87#32 := by
  rcases h with rfl | rfl
  · rw [BitVec.or_comm (programFrame i), ← BitVec.or_assoc, BitVec.or_self]
  · rw [BitVec.or_self]

/-- What a live process finds in its own directory, whatever the page table holds. -/
structure RowsOk (P : Paging) : Prop where
  slots : SlotsOk P
  row : ∀ i < 7, P.pde (i + 1) 32 = 0x87#32 ∨ P.pde (i + 1) 32 = programFrame i ||| 0x87#32
  live : ∀ i, P.Live i → P.pde (i + 1) 0 = P.tableEntry ∧
    P.pde (i + 1) 1 = (1#32 <<< 22) ||| ctrlKernel ∧ P.pde (i + 1) 32 = programFrame i ||| 0x87#32

theorem MapsOk.rows (h : MapsOk P) : RowsOk P := ⟨h.slots, h.row, h.live⟩

theorem RowsOk.newPde (h : RowsOk P) {entry : Word} (hentry : dirIndex entry = 32) {r : Int}
    (hnew : newPde entry P = some (r, P')) (hok : SlotsOk P') : RowsOk P' := by
  rcases newPde_cases hnew with ⟨-, -, rfl⟩ | ⟨proc, hne, -, hstore, rfl⟩
  · exact h
  have hle := freeSlot_le h.slots.slot7
  obtain ⟨h0, h1, h32⟩ := fillPde_rows (P := { P with proc := proc }) (i := P.freeSlot) hentry
  rw [or_programEntry (h.row P.freeSlot (by omega))] at h32
  refine ⟨hok, ?_, ?_⟩
  · intro i hi
    by_cases hslot : i = P.freeSlot
    · subst hslot
      exact .inr h32
    · rw [fillPde_other (by omega)]
      exact h.row i hi
  · intro i hlive
    by_cases hslot : i = P.freeSlot
    · subst hslot
      exact ⟨h0, h1, h32⟩
    · have hold : P.Live i := by
        unfold Paging.Live at hlive ⊢
        rw [fillPde_proc, getElem?_of_store hstore, if_neg (Ne.symm hslot)] at hlive
        exact hlive
      rw [fillPde_other (by omega), fillPde_other (by omega), fillPde_other (by omega)]
      exact h.live i hold

/-- `new_pde` writes neither the page table nor the boot directory. -/
theorem newPde_kept {entry : Word} {r : Int} (hnew : newPde entry P = some (r, P')) :
    P'.pteAddr = P.pteAddr ∧ P'.pte = P.pte ∧ P'.pde 0 = P.pde 0 := by
  rcases newPde_cases hnew with ⟨-, -, rfl⟩ | ⟨proc, hne, -, hstore, rfl⟩
  · exact ⟨rfl, rfl, rfl⟩
  · refine ⟨rfl, rfl, ?_⟩
    funext k
    rw [fillPde_other (by omega)]

theorem MapsOk.newPde (h : MapsOk P) {entry : Word} (hentry : dirIndex entry = 32) {r : Int}
    (hnew : newPde entry P = some (r, P')) (hok : SlotsOk P') : MapsOk P' := by
  obtain ⟨haddr, hpte, hboot⟩ := newPde_kept hnew
  have hrows := h.rows.newPde hentry hnew hok
  refine ⟨hok, ?_, ?_, hrows.row, hrows.live⟩
  · rw [Paging.TableKept, hpte, h.table]
    rfl
  · rw [hboot, h.boot]
    simp only [initPaging, haddr]
    rfl

theorem RowsOk.removePage (h : RowsOk P) {procId : Int} (hrem : removePage procId P = some P')
    (hok : SlotsOk P') (hsub : ∀ j : Nat, P'.Live j → P.Live j) : RowsOk P' := by
  obtain ⟨proc, -, -, rfl⟩ := removePage_cases hrem
  exact ⟨hok, h.row, fun i hlive => h.live i (hsub i hlive)⟩

theorem MapsOk.removePage (h : MapsOk P) {procId : Int} (hrem : removePage procId P = some P')
    (hok : SlotsOk P') (hsub : ∀ j : Nat, P'.Live j → P.Live j) : MapsOk P' := by
  have hrows := h.rows.removePage hrem hok hsub
  obtain ⟨proc, -, -, rfl⟩ := removePage_cases hrem
  exact ⟨hok, h.table, h.boot, hrows.row, hrows.live⟩

theorem MapsOk.step (h : MapsOk P) {op : PageOp} (hop : ProgramCall P op) :
    ∃ P', pageStep P op = some P' ∧ MapsOk P' := by
  cases op with
  | newPde entry =>
    obtain ⟨r, P', hnew, -, hok⟩ := h.slots.newPde entry
    refine ⟨P', ?_, h.newPde (dirIndex_program hop.1 hop.2) hnew hok⟩
    rw [pageStep, hnew]
    rfl
  | removePage procId =>
    obtain ⟨P', hrem, hlive, hok⟩ := h.slots.removePage hop.1 hop.2
    exact ⟨P', hrem, h.removePage hrem hok fun j hj => ((hlive j).mp hj).1⟩
  | sysVidmap procId addr => exact hop.elim

/-! ## What the directories translate to -/

theorem MapsOk.bootSpace (h : MapsOk P) : BootSpace P := by
  have h0 : P.pde 0 0 = P.tableEntry := by
    rw [h.boot]
    rfl
  refine ⟨?_, ?_⟩
  · intro a ha
    have hge : 4096 ≤ a.toNat := BitVec.le_def.mp ha
    by_cases hlow : a.toNat < 4194304
    · rw [translateIn_low h.table h0 hlow, if_neg (by omega)]
      rfl
    · have hdir : dirIndex a ≠ 0 := by
        rw [dirIndex_eq]
        omega
      by_cases hone : dirIndex a = 1
      · have he : P.pde 0 (dirIndex a) = BitVec.ofNat 32 (dirIndex a) <<< 22 ||| ctrlKernel := by
          rw [h.boot, hone]
          rfl
        rw [translateIn_identity he (by decide) rfl rfl]
        rfl
      · have he : P.pde 0 (dirIndex a) = BitVec.ofNat 32 (dirIndex a) <<< 22 ||| ctrlEmpty := by
          rw [h.boot]
          simp only [initPaging, hdir, hone, if_true, if_false]
        rw [translateIn_identity he (by decide) rfl rfl]
        rfl
  · intro a ha
    have hlt : a.toNat < 4096 := BitVec.lt_def.mp ha
    rw [translateIn_low h.table h0 (by omega), if_pos hlt]

theorem MapsOk.processSpace (h : MapsOk P) {i : Nat} (hi : P.Live i) : ProcessSpace P i := by
  have hlt := hi.lt h.slots.slot7
  obtain ⟨h0, h1, h32⟩ := h.live i hi
  refine ⟨fun a ha hb => translateIn_program hlt h32 ha hb, ?_, ?_⟩
  · intro a ha hb
    have hge : 4096 ≤ a.toNat := BitVec.le_def.mp ha
    have hle : a.toNat < 8388608 := BitVec.lt_def.mp hb
    by_cases hlow : a.toNat < 4194304
    · exact ⟨_, (translateIn_low h.table h0 hlow).trans (if_neg (by omega)), rfl, rfl⟩
    · have hdir : dirIndex a = 1 := by
        rw [dirIndex_eq]
        omega
      have he : P.pde (i + 1) (dirIndex a) = BitVec.ofNat 32 (dirIndex a) <<< 22 |||
          ctrlKernel := by
        rw [hdir]
        exact h1
      exact ⟨_, translateIn_identity he (by decide) rfl rfl, rfl, rfl⟩
  · intro a ha
    have hlow : a.toNat < 4096 := BitVec.lt_def.mp ha
    rw [translateIn_low h.table h0 (by omega), if_pos hlow]

/-- The frame an address of a program is in. -/
theorem ProcessSpace.programAt {i : Nat} (h : ProcessSpace P i) {x : Word} (hx : P.ProgramAt i x) :
    0x800000 + 0x400000 * i ≤ x.toNat ∧ x.toNat < 0x800000 + 0x400000 * (i + 1) := by
  obtain ⟨a, m, h1, h2, hm, rfl⟩ := hx
  obtain ⟨m', hm', hphys, -, -⟩ := h.program a h1 h2
  cases hm.symm.trans hm'
  have hlt : a.toNat < 0x8400000 := BitVec.lt_def.mp h2
  omega

theorem MapsOk.spacesOk (h : MapsOk P) : SpacesOk P where
  boot := h.bootSpace
  live := fun _ hi => h.processSpace hi
  disjoint := by
    rintro i j hi hj hne x ⟨hxi, hxj⟩
    have := (h.processSpace hi).programAt hxi
    have := (h.processSpace hj).programAt hxj
    omega

/-- After `init_paging` and any sequence of `new_pde` calls for programs at 128 MB and of
    `remove_page` calls for slots in use, the directories translate as described. -/
theorem spaces_run (pteAddr : Word) {ops : List PageOp}
    (hops : EachStep pageStep ProgramCall (initPaging (resetPaging pteAddr)) ops) :
    Holds pageStep SpacesOk (initPaging (resetPaging pteAddr)) ops :=
  holds_of_inv (fun _ h => h.spacesOk) (fun _ _ h hop => h.step hop) (mapsOk_init pteAddr) hops

theorem spaces_run_reuseSlot :
    EachStep pageStep ProgramCall (initPaging (resetPaging 0x410000#32)) reuseSlot ∧
      Holds pageStep SpacesOk (initPaging (resetPaging 0x410000#32)) reuseSlot := by
  have hops : EachStep pageStep ProgramCall (initPaging (resetPaging 0x410000#32)) reuseSlot := by
    decide
  exact ⟨hops, spaces_run _ hops⟩

end OreOS
