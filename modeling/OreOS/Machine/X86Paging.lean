import OreOS.Machine.Bytes

/-!
# Two-level address translation of 32-bit x86

A page directory is a function from the ten high bits of a virtual address to directory entries.
An entry with bit 7 (`PS`) maps a 4 MB page directly; any other present entry names the page
table that maps its 4 KB pages. `tables` gives the page table found at a physical address, when
there is one. Bit 0 of an entry is `present`, bit 1 `writable`, bit 2 `user`; both levels have
to grant a permission. The translation look-aside buffer is not part of this description.
-/

namespace OreOS.Machine

/-- What a virtual address translates to, and which accesses to it are allowed. -/
structure Mapping where
  phys : Word
  user : Bool
  write : Bool
  deriving DecidableEq, Repr

/-- Index of the page directory entry that covers `va`. -/
def dirIndex (va : Word) : Nat := (va >>> 22).toNat

/-- Index of the page table entry that covers `va`, within its page table. -/
def tableIndex (va : Word) : Nat := ((va >>> 12) &&& 0x3FF#32).toNat

/-- The mapping of a 4 MB page by the directory entry `e`. -/
def largePage (e va : Word) : Mapping where
  phys := (e &&& 0xFFC00000#32) ||| (va &&& 0x3FFFFF#32)
  user := e.getLsbD 2
  write := e.getLsbD 1

/-- The mapping of a 4 KB page by the directory entry `e` and the table entry `p`. -/
def smallPage (e p va : Word) : Mapping where
  phys := (p &&& 0xFFFFF000#32) ||| (va &&& 0xFFF#32)
  user := e.getLsbD 2 && p.getLsbD 2
  write := e.getLsbD 1 && p.getLsbD 1

/-- Translation of `va` through the directory `dir`; `none` is a page fault. -/
def translate (tables : Word → Option (Nat → Word)) (dir : Nat → Word) (va : Word) :
    Option Mapping :=
  let e := dir (dirIndex va)
  if e.getLsbD 0 then
    if e.getLsbD 7 then some (largePage e va)
    else (tables (e &&& 0xFFFFF000#32)).bind fun table =>
      let p := table (tableIndex va)
      if p.getLsbD 0 then some (smallPage e p va) else none
  else none

/-- User mode can write the physical address `pa` through the directory `dir`. -/
def UserWrites (tables : Word → Option (Nat → Word)) (dir : Nat → Word) (pa : Word) : Prop :=
  ∃ va m, translate tables dir va = some m ∧ m.user = true ∧ m.write = true ∧ m.phys = pa

/-- The control bits of a 4 MB page that user mode may read and write. -/
def userLarge : Word := 0x87#32

theorem getLsbD_of_userLarge {e : Word} (h : e &&& userLarge = userLarge) {i : Nat}
    (hi : userLarge.getLsbD i = true) : e.getLsbD i = true := by
  have hand := congrArg (fun w : Word => w.getLsbD i) h
  simp only [BitVec.getLsbD_and, hi, Bool.and_true] at hand
  exact hand

/-- An entry with all the bits of `userLarge` maps a 4 MB page. -/
theorem translate_userLarge (tables : Word → Option (Nat → Word)) {dir : Nat → Word} {va : Word}
    (h : dir (dirIndex va) &&& userLarge = userLarge) :
    translate tables dir va = some (largePage (dir (dirIndex va)) va) := by
  have hpresent := getLsbD_of_userLarge h (i := 0) rfl
  have hlarge := getLsbD_of_userLarge h (i := 7) rfl
  simp only [translate, hpresent, hlarge, if_true]

/-- The frame it maps to is writable by user mode. -/
theorem userWrites_of_userLarge (tables : Word → Option (Nat → Word)) {dir : Nat → Word}
    {va : Word} (h : dir (dirIndex va) &&& userLarge = userLarge) :
    ∃ m, translate tables dir va = some m ∧ UserWrites tables dir m.phys := by
  have hm := translate_userLarge tables h
  have huser := getLsbD_of_userLarge h (i := 2) rfl
  have hwrite := getLsbD_of_userLarge h (i := 1) rfl
  exact ⟨_, hm, va, _, hm, huser, hwrite, rfl⟩

/-- A 4 MB page keeps the offset of an address. -/
theorem largePage_offset (e va : Word) :
    (largePage e va).phys &&& 0x3FFFFF#32 = va &&& 0x3FFFFF#32 := by
  have hmask : e &&& 0xFFC00000#32 &&& 0x3FFFFF#32 = 0#32 := by
    rw [BitVec.and_assoc, show 0xFFC00000#32 &&& 0x3FFFFF#32 = 0#32 by decide, BitVec.and_zero]
  simp only [largePage]
  rw [BitVec.and_or_distrib_right, hmask, BitVec.zero_or, BitVec.and_assoc, BitVec.and_self]

/-- Or-ing bits into an entry keeps the permissions it grants. -/
theorem userLarge_or_left {e : Word} (x : Word) (h : e &&& userLarge = userLarge) :
    (e ||| x) &&& userLarge = userLarge := by
  ext i hi
  have hbit := congrArg (fun w : Word => w[i]) h
  simp only [BitVec.getElem_and] at hbit
  simp only [BitVec.getElem_and, BitVec.getElem_or]
  cases hu : userLarge[i] with
  | false => simp
  | true => simp [hu] at hbit; simp [hbit]

/-! ## Indices and entries in terms of addresses -/

theorem dirIndex_eq (va : Word) : dirIndex va = va.toNat / 4194304 := by
  simp [dirIndex, Nat.shiftRight_eq_div_pow]

theorem tableIndex_eq (va : Word) : tableIndex va = va.toNat / 4096 % 1024 := by
  have hmask : (0x3FF#32).toNat = 2 ^ 10 - 1 := rfl
  rw [tableIndex, BitVec.toNat_and, hmask, Nat.and_two_pow_sub_one_eq_mod, BitVec.toNat_ushiftRight,
    Nat.shiftRight_eq_div_pow]

/-- The offset in a 4 MB page. -/
theorem offset_toNat (va : Word) : (va &&& 0x3FFFFF#32).toNat = va.toNat % 4194304 := by
  have hmask : (0x3FFFFF#32).toNat = 2 ^ 22 - 1 := rfl
  rw [BitVec.toNat_and, hmask, Nat.and_two_pow_sub_one_eq_mod]

/-- Shifting down and up again clears the low bits. -/
theorem shift_mask {w : Nat} (x : BitVec w) (n : Nat) :
    (x >>> n) <<< n = x &&& (BitVec.allOnes w <<< n) := by
  ext k hk
  by_cases h : k < n
  · simp [h]
  · simp [h, show n + (k - n) = k by omega, BitVec.getLsbD_eq_getElem hk]

theorem shift_mask_large (va : Word) : (va >>> 22) <<< 22 = va &&& 0xFFC00000#32 := shift_mask va 22

theorem shift_mask_small (va : Word) : (va >>> 12) <<< 12 = va &&& 0xFFFFF000#32 := shift_mask va 12

/-- An address is its page and its offset. -/
theorem page_or_offset_large (va : Word) : va &&& 0xFFC00000#32 ||| va &&& 0x3FFFFF#32 = va := by
  rw [← BitVec.and_or_distrib_left, show 0xFFC00000#32 ||| 0x3FFFFF#32 = BitVec.allOnes
    32 by decide, BitVec.and_allOnes]

theorem page_or_offset_small (va : Word) : va &&& 0xFFFFF000#32 ||| va &&& 0xFFF#32 = va := by
  rw [← BitVec.and_or_distrib_left, show 0xFFFFF000#32 ||| 0xFFF#32 = BitVec.allOnes 32 by decide,
    BitVec.and_allOnes]

/-- A word with nothing outside `mask` has no other bits. -/
theorem getLsbD_of_mask {x mask : Word} (h : x &&& mask = x) {i : Nat}
    (hi : mask.getLsbD i = false) : x.getLsbD i = false := by
  rw [← h, BitVec.getLsbD_and, hi, Bool.and_false]

section entry
variable {frame mask : Word} (ctrl : Word)

/-- The frame that an entry names, apart from its control bits. -/
theorem entry_frame {ctrl : Word} (hframe : frame &&& mask = frame) (hctrl : ctrl &&& mask = 0#32) :
    (frame ||| ctrl) &&& mask = frame := by
  rw [BitVec.and_or_distrib_right, hframe, hctrl, BitVec.or_zero]

/-- The control bits of an entry, apart from its frame. -/
theorem entry_ctrl (hframe : frame &&& mask = frame) {i : Nat} (hi : mask.getLsbD i = false) :
    (frame ||| ctrl).getLsbD i = ctrl.getLsbD i := by
  rw [BitVec.getLsbD_or, getLsbD_of_mask hframe hi, Bool.false_or]

/-- Translation through the entry of a 4 MB page. -/
theorem translate_large (tables : Word → Option (Nat → Word)) {dir : Nat → Word} {ctrl va : Word}
    (he : dir (dirIndex va) = frame ||| ctrl) (hframe : frame &&& 0xFFC00000#32 = frame)
    (hctrl : ctrl &&& 0xFFC00000#32 = 0#32) (hp : ctrl.getLsbD 0 = true)
    (hl : ctrl.getLsbD 7 = true) :
    translate tables dir va =
      some ⟨frame ||| va &&& 0x3FFFFF#32, ctrl.getLsbD 2, ctrl.getLsbD 1⟩ := by
  have hbit {i : Nat} (hi : (0xFFC00000#32).getLsbD i = false) := entry_ctrl ctrl hframe hi
  simp only [translate, he, hbit (i := 0) rfl, hbit (i := 7) rfl, hp, hl, if_true, largePage,
    entry_frame hframe hctrl, hbit (i := 1) rfl, hbit (i := 2) rfl]

/-- Translation through a directory entry that names the page table `table`. -/
theorem translate_small {tables : Word → Option (Nat → Word)} {dir table : Nat → Word}
    {ctrl va : Word} (ht : tables frame = some table)
    (he : dir (dirIndex va) = frame ||| ctrl) (hframe : frame &&& 0xFFFFF000#32 = frame)
    (hctrl : ctrl &&& 0xFFFFF000#32 = 0#32) (hp : ctrl.getLsbD 0 = true)
    (hl : ctrl.getLsbD 7 = false) :
    translate tables dir va =
      if (table (tableIndex va)).getLsbD 0 then
        some (smallPage (frame ||| ctrl) (table (tableIndex va)) va) else none := by
  have hbit {i : Nat} (hi : (0xFFFFF000#32).getLsbD i = false) := entry_ctrl ctrl hframe hi
  simp only [translate, he, hbit (i := 0) rfl, hbit (i := 7) rfl, hp, hl, if_true,
    entry_frame hframe hctrl, ht, Option.bind_some]
  rfl

end entry

end OreOS.Machine
