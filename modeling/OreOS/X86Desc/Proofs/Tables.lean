import OreOS.X86Desc

/-!
# What the processor reads in the descriptor tables

The packed records and the processor's reading of them agree on the place of every field. The halves
into which the macros cut an address come together again, for a gate as for a segment.
-/

namespace OreOS
open Machine

/-! ## Packed fields -/

theorem extract_nibble (q : BitVec 64) :
    q.extractLsb' 40 4 = q.extractLsb' 43 1 ++ (q.extractLsb' 42 1 ++
    (q.extractLsb' 41 1 ++ q.extractLsb' 40 1)) := by
  simp (disch := decide) only [BitVec.extractLsb'_append_extractLsb'_eq_extractLsb']

theorem gateOf_bits (d : IdtDesc) : gateOf d.bits =
    { offset := d.offset_31_16 ++ d.offset_15_00
      selector := d.segSelector
      type := d.size ++ (d.reserved1 ++ (d.reserved2 ++ d.reserved3))
      notSystem := d.reserved0
      dpl := d.dpl
      present := d.present } := by
  rw [gateOf, extract_nibble]
  simp (disch := decide) only [IdtDesc.bits, BitVec.extractLsb'_append_eq_of_add_le,
    BitVec.extractLsb'_append_eq_of_le]
  simp only [Nat.reduceAdd, Nat.reduceSub, BitVec.extractLsb'_eq_self]

theorem segmentOf_bits (d : SegDesc) : segmentOf d.bits =
    { base := d.base_31_24 ++ (d.base_23_16 ++ d.base_15_00)
      limit := d.segLim_19_16 ++ d.segLim_15_00
      type := d.type
      notSystem := d.sys
      dpl := d.dpl
      present := d.present
      granularity := d.granularity } := by
  rw [segmentOf]
  simp (disch := decide) only [SegDesc.bits, BitVec.extractLsb'_append_eq_of_add_le,
    BitVec.extractLsb'_append_eq_of_le]
  simp only [Nat.reduceAdd, Nat.reduceSub, BitVec.extractLsb'_eq_self]

/-! ## Addresses in pieces -/

/-- A mask of `len` bits from `start` on and a shift take a field out of a word. -/
theorem masked_field (x : Word) {mask : Word} {start len : Nat}
    (h : mask.toNat >>> start = 2 ^ len - 1) :
    ((x &&& mask) >>> start).setWidth len = x.extractLsb' start len := by
  apply BitVec.eq_of_toNat_eq
  rw [BitVec.toNat_setWidth, BitVec.toNat_ushiftRight, BitVec.toNat_and, Nat.shiftRight_and_distrib,
    h, Nat.and_two_pow_sub_one_eq_mod, Nat.mod_mod, BitVec.extractLsb'_toNat]

theorem masked_low_field (x : Word) {mask : Word} {len : Nat} (h : mask.toNat = 2 ^ len - 1) :
    (x &&& mask).setWidth len = x.extractLsb' 0 len := by
  rw [← masked_field x (h : mask.toNat >>> 0 = 2 ^ len - 1), BitVec.ushiftRight_zero]

theorem setEntry_offset (d : IdtDesc) (handler : Word) :
    (d.setEntry handler).offset_31_16 ++ (d.setEntry handler).offset_15_00 = handler := by
  simp only [IdtDesc.setEntry]
  rw [masked_field handler (by decide), masked_low_field handler (by decide)]
  simp (disch := decide) only [BitVec.extractLsb'_append_extractLsb'_eq_extractLsb']
  exact BitVec.extractLsb'_eq_self

theorem setParams_base (d : SegDesc) (addr lim : Word) :
    (d.setParams addr lim).base_31_24 ++ ((d.setParams addr lim).base_23_16 ++
      (d.setParams addr lim).base_15_00) = addr := by
  simp only [SegDesc.setParams]
  rw [masked_field addr (by decide), masked_field addr (by decide),
    masked_low_field addr (by decide)]
  simp (disch := decide) only [BitVec.extractLsb'_append_extractLsb'_eq_extractLsb']
  exact BitVec.extractLsb'_eq_self

theorem setParams_limit (d : SegDesc) (addr lim : Word) :
    (d.setParams addr lim).segLim_19_16 ++ (d.setParams addr lim).segLim_15_00 =
    lim.extractLsb' 0 20 := by
  simp only [SegDesc.setParams]
  rw [masked_field lim (by decide), masked_low_field lim (by decide)]
  simp (disch := decide) only [BitVec.extractLsb'_append_extractLsb'_eq_extractLsb']

/-! ## The tables -/

theorem initIdtFrom_apply (addr : Handler → Word) (n i j : Nat) (idt : Nat → IdtDesc) :
    initIdtFrom addr n i idt j = if i ≤ j ∧ j < i + n then idtEntry addr j (idt j) else idt j := by
  induction n generalizing i idt with
  | zero => rw [initIdtFrom, if_neg (by omega)]
  | succ n ih =>
    rw [initIdtFrom, ih]
    by_cases hij : j = i
    · subst hij
      rw [if_neg (by omega), if_pos (by omega), Function.update_self]
    · rw [Function.update_of_ne hij]
      by_cases hin : i + 1 ≤ j ∧ j < i + 1 + n
      · rw [if_pos hin, if_pos (by omega)]
      · rw [if_neg hin, if_neg (by omega)]

/-- The type bits of the gates that `init_idt` makes. -/
theorem type_interruptGate : (1#1 ++ (1#1 ++ (1#1 ++ 0#1)) : BitVec 4) = interruptGate := by decide

theorem gateOf_idtEntry (addr : Handler → Word) (i : Nat) (d : IdtDesc) :
    gateOf (idtEntry addr i d).bits =
      ⟨addr (handlerOf i), kernelCs, interruptGate, 0, if i = 128 then 3 else 0, 1⟩ := by
  rw [gateOf_bits, idtEntry, ← type_interruptGate]
  by_cases h : i = 128
  · simp only [h, if_true, setEntry_offset]
    rfl
  · simp only [h, if_false, setEntry_offset]
    rfl

theorem segmentOf_tssDesc (junk : SegDesc) (tss tssSize : Word) :
    segmentOf (tssDesc junk tss tssSize).bits =
      ⟨tss, tssSize.extractLsb' 0 20, 0x9, 0, 0, 1, 0⟩ := by
  rw [segmentOf_bits, tssDesc, setParams_base, setParams_limit]
  rfl

theorem segmentOf_ldtDesc (junk : SegDesc) (ldt ldtSize : Word) :
    segmentOf (ldtDesc junk ldt ldtSize).bits =
      ⟨ldt, ldtSize.extractLsb' 0 20, 0x2, 0, 0, 1, 0⟩ := by
  rw [segmentOf_bits, ldtDesc, setParams_base, setParams_limit]
  rfl

/-- Wherever the functions and the two tables lie, every vector has a present interrupt gate
to its function, which only vector 128 lets a program use, and every selector names the
segment it stands for. -/
theorem descriptor_tables_read_back (addr : Handler → Word) (idt : Nat → IdtDesc) (junk : SegDesc)
    (ldt ldtSize tss tssSize : Word) :
    (∀ i < 256, gateOf (initIdt addr idt i).bits =
      ⟨addr (handlerOf i), kernelCs, interruptGate, 0, if i = 128 then 3 else 0, 1⟩) ∧
    segmentAt (gdt junk ldt ldtSize tss tssSize) kernelCs = some (flatSegment 0xA 0) ∧
    segmentAt (gdt junk ldt ldtSize tss tssSize) kernelDs = some (flatSegment 0x2 0) ∧
    segmentAt (gdt junk ldt ldtSize tss tssSize) userCs = some (flatSegment 0xA 3) ∧
    segmentAt (gdt junk ldt ldtSize tss tssSize) userDs = some (flatSegment 0x2 3) ∧
    segmentAt (gdt junk ldt ldtSize tss tssSize) kernelTss =
      some ⟨tss, tssSize.extractLsb' 0 20, 0x9, 0, 0, 1, 0⟩ ∧
    segmentAt (gdt junk ldt ldtSize tss tssSize) kernelLdt =
      some ⟨ldt, ldtSize.extractLsb' 0 20, 0x2, 0, 0, 1, 0⟩ := by
  have hkernelCs : segmentOf 0x00CF9A000000FFFF = flatSegment 0xA 0 := by decide
  have hkernelDs : segmentOf 0x00CF92000000FFFF = flatSegment 0x2 0 := by decide
  have huserCs : segmentOf 0x00CFFA000000FFFF = flatSegment 0xA 3 := by decide
  have huserDs : segmentOf 0x00CFF2000000FFFF = flatSegment 0x2 3 := by decide
  refine ⟨?_, congrArg some hkernelCs, congrArg some hkernelDs, congrArg some huserCs,
    congrArg some huserDs, ?_, ?_⟩
  · intro i hi
    rw [initIdt, initIdtFrom_apply, if_pos ⟨Nat.zero_le i, by omega⟩, gateOf_idtEntry]
  · exact congrArg some (segmentOf_tssDesc junk tss tssSize)
  · exact congrArg some (segmentOf_ldtDesc junk ldt ldtSize)

end OreOS
