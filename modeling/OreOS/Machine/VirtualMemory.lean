import OreOS.Machine.X86Paging

/-!
# Memory seen through an address translation

Loads and stores of several bytes. Each byte is translated on its own, so an access can lie across
two pages whose frames are apart. A translation that keeps the offset in the page sends the bytes of
a short access to different places, and then a load after a store finds what was stored.
-/

namespace OreOS.Machine

section
variable (tr : Word → Option Mapping)

/-- The bytes found from `va` on; `none` is a page fault. -/
def loadBytes (mem : Word → UInt8) (va : Word) : Nat → Option (List UInt8)
  | 0 => some []
  | n + 1 => do
      let m ← tr va
      let rest ← loadBytes mem (va + 1#32) n
      return mem m.phys :: rest

/-- Memory after a store from `va` on; `none` is a page fault. -/
def storeBytes (mem : Word → UInt8) (va : Word) : List UInt8 → Option (Word → UInt8)
  | [] => some mem
  | x :: data => do
      let m ← tr va
      storeBytes (Function.update mem m.phys x) (va + 1#32) data

/-- The translation keeps the offset in the page. -/
def KeepsOffset : Prop := ∀ va m, tr va = some m → m.phys.toNat % 4096 = va.toNat % 4096

end

variable {tr : Word → Option Mapping} {mem mem' : Word → UInt8} {va : Word} {data : List UInt8}

/-- A store is defined where all its bytes are mapped. -/
theorem storeBytes_isSome (mem : Word → UInt8)
    (h : ∀ i < data.length, ∃ m, tr (va + BitVec.ofNat 32 i) = some m) :
    ∃ mem', storeBytes tr mem va data = some mem' := by
  induction data generalizing mem va with
  | nil => exact ⟨mem, rfl⟩
  | cons x data ih =>
    obtain ⟨m, hm⟩ := h 0 (by simp)
    have hrest : ∀ i < data.length, ∃ m, tr (va + 1#32 + BitVec.ofNat 32 i) = some m := by
      intro i hi
      rw [addr_succ]
      exact h (i + 1) (by simpa using hi)
    obtain ⟨mem', hmem'⟩ := ih (Function.update mem m.phys x) hrest
    rw [BitVec.add_zero] at hm
    exact ⟨mem', by rw [storeBytes, hm, Option.bind_eq_bind, Option.bind_some, hmem']⟩

/-- A store changes nothing but the places of its bytes. -/
theorem storeBytes_elsewhere (hstore : storeBytes tr mem va data = some mem') {x : Word}
    (hx : ∀ i < data.length, ∀ m, tr (va + BitVec.ofNat 32 i) = some m → m.phys ≠ x) :
    mem' x = mem x := by
  induction data generalizing mem va with
  | nil =>
    cases hstore
    rfl
  | cons y data ih =>
    obtain ⟨m, hm, hrest⟩ := Option.bind_eq_some_iff.mp hstore
    have hne : m.phys ≠ x := hx 0 (by simp) m (by rw [BitVec.add_zero, hm])
    have hkept : mem' x = Function.update mem m.phys y x := by
      apply ih hrest
      intro i hi m' hm'
      rw [addr_succ] at hm'
      exact hx (i + 1) (by simpa using hi) m' hm'
    rw [hkept, Function.update_of_ne hne.symm]

/-- Where the bytes go to different places, each is found at its own. -/
theorem storeBytes_inside (hstore : storeBytes tr mem va data = some mem')
    (hinj : ∀ i < data.length, ∀ j < data.length, ∀ m m', tr (va + BitVec.ofNat 32 i) = some m →
      tr (va + BitVec.ofNat 32 j) = some m' → m.phys = m'.phys → i = j)
    {i : Nat} (hi : i < data.length) {m : Mapping} (hm : tr (va + BitVec.ofNat 32 i) = some m) :
    mem' m.phys = data[i] := by
  induction data generalizing mem va i with
  | nil => simp at hi
  | cons x data ih =>
    obtain ⟨m₀, hm₀, hrest⟩ := Option.bind_eq_some_iff.mp hstore
    have hlater : ∀ j < data.length, ∀ m', tr (va + 1#32 + BitVec.ofNat 32 j) = some m' →
        m'.phys ≠ m₀.phys := by
      intro j hj m' hm' hsame
      rw [addr_succ] at hm'
      have := hinj (j + 1) (by simpa using hj) 0 (by simp) m' m₀ hm' (by rw [BitVec.add_zero, hm₀])
        hsame
      omega
    cases i with
    | zero =>
      rw [BitVec.add_zero, hm₀, Option.some.injEq] at hm
      rw [← hm, storeBytes_elsewhere hrest hlater, Function.update_self]
      rfl
    | succ i =>
      rw [← addr_succ] at hm
      refine (ih hrest (fun a ha b hb m m' h h' hsame => ?_) (by simpa using hi) hm).trans rfl
      rw [addr_succ] at h h'
      have := hinj (a + 1) (by simpa using ha) (b + 1) (by simpa using hb) m m' h h' hsame
      omega

/-- A load finds what was stored, if the access is no longer than a page. -/
theorem loadBytes_storeBytes (htr : KeepsOffset tr) (hlen : data.length ≤ 4096)
    (hstore : storeBytes tr mem va data = some mem') :
    loadBytes tr mem' va data.length = some data := by
  induction data generalizing mem va with
  | nil => rfl
  | cons x data ih =>
    rw [List.length_cons] at hlen ⊢
    obtain ⟨m, hm, hrest⟩ := Option.bind_eq_some_iff.mp hstore
    -- the later bytes have other offsets
    have hfirst : mem' m.phys = x := by
      rw [storeBytes_elsewhere hrest, Function.update_self]
      intro i hi m' hm' hsame
      have hoff := htr _ _ hm
      have hoff' := htr _ _ hm'
      rw [hsame, hoff, BitVec.toNat_add, BitVec.toNat_add, BitVec.toNat_ofNat, BitVec.toNat_ofNat]
        at hoff'
      omega
    rw [loadBytes, hm, Option.bind_eq_bind, Option.bind_some, ih (by omega) hrest, hfirst]
    rfl

/-! ## Translation through page tables -/

theorem and_offset_toNat (a : Word) : (a &&& 0xFFF#32).toNat = a.toNat % 4096 := by
  have hmask : (0xFFF#32).toNat = 2 ^ 12 - 1 := rfl
  rw [BitVec.toNat_and, hmask, Nat.and_two_pow_sub_one_eq_mod]

theorem smallPage_offset (e p va : Word) :
    (smallPage e p va).phys &&& 0xFFF#32 = va &&& 0xFFF#32 := by
  have hmask : p &&& 0xFFFFF000#32 &&& 0xFFF#32 = 0#32 := by
    rw [BitVec.and_assoc, show 0xFFFFF000#32 &&& 0xFFF#32 = 0#32 by decide, BitVec.and_zero]
  simp only [smallPage]
  rw [BitVec.and_or_distrib_right, hmask, BitVec.zero_or, BitVec.and_assoc, BitVec.and_self]

theorem largePage_page_offset (e va : Word) :
    (largePage e va).phys &&& 0xFFF#32 = va &&& 0xFFF#32 := by
  have hsub : (0xFFF#32 : Word) = 0x3FFFFF#32 &&& 0xFFF#32 := by decide
  rw [hsub, ← BitVec.and_assoc, largePage_offset, BitVec.and_assoc]

/-- The tables choose the page, never the offset in it. -/
theorem keepsOffset_translate (tables : Word → Option (Nat → Word)) (dir : Nat → Word) :
    KeepsOffset (translate tables dir) := by
  intro va m hm
  rw [← and_offset_toNat, ← and_offset_toNat]
  congr 1
  simp only [translate] at hm
  split at hm
  · split at hm
    · cases hm
      exact largePage_page_offset _ va
    · obtain ⟨table, -, hpage⟩ := Option.bind_eq_some_iff.mp hm
      split at hpage
      · cases hpage
        exact smallPage_offset _ _ va
      · cases hpage
  · cases hm

end OreOS.Machine
