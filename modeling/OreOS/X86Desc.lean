import Mathlib.Logic.Function.Basic
import OreOS.Machine.Bytes

/-!
# Descriptor tables

Model of `x86_desc.h`, of the interrupt descriptor table that `init_idt` fills (`kernel.c:29-122`)
and of the descriptors that `entry` builds for the LDT and the TSS (`kernel.c:205-244`). A
descriptor is a packed record of bit fields, which lie in it from the lowest bit on; `bits` is its
quadword. The processor takes the same quadword apart in its own way: `gateOf` and `segmentOf`
follow the layout in the comment of `x86_desc.S`.
-/

namespace OreOS
open Machine

/-! ## Interrupt descriptors -/

/-- The fields of `idt_desc_t` (`x86_desc.h:152-166`). -/
structure IdtDesc where
  offset_15_00 : BitVec 16
  segSelector : BitVec 16
  reserved4 : BitVec 8
  reserved3 : BitVec 1
  reserved2 : BitVec 1
  reserved1 : BitVec 1
  size : BitVec 1
  reserved0 : BitVec 1
  dpl : BitVec 2
  present : BitVec 1
  offset_31_16 : BitVec 16
  deriving DecidableEq, Repr

/-- The fields as they are packed, the last one in the high bits. -/
def IdtDesc.bits (d : IdtDesc) : BitVec 64 :=
  d.offset_31_16 ++ (d.present ++
    (d.dpl ++ (d.reserved0 ++ (d.size ++ (d.reserved1 ++ (d.reserved2 ++
    (d.reserved3 ++ (d.reserved4 ++ (d.segSelector ++ d.offset_15_00)))))))))

/-- `SET_IDT_ENTRY` (`x86_desc.h:174-178`). -/
def IdtDesc.setEntry (d : IdtDesc) (handler : Word) : IdtDesc :=
  { d with
    offset_31_16 := ((handler &&& 0xFFFF0000#32) >>> 16).setWidth 16
    offset_15_00 := (handler &&& 0xFFFF#32).setWidth 16 }

/-- The functions that the table refers to (`handlers.h`). -/
inductive Handler where
  | divideError
  | debug
  | nmi
  | int3
  | overflow
  | bounds
  | invalidOp
  | deviceNotAvailable
  | doubleFault
  | coprocesseurSegmentOverrun
  | invalidTss
  | segmentNoPresent
  | stackSegment
  | generalProtection
  | pageFault
  | none
  | coprocessorError
  | alignementCheck
  | machineCheck
  | rtcHandler
  | keyboardHandler
  | periodicInterruptHandler
  | sysCall
  | unusedException
  deriving DecidableEq, Repr

/-- The `switch` of `init_idt` (`kernel.c:45-118`). -/
def handlerOf : Nat → Handler
  | 0 => .divideError
  | 1 => .debug
  | 2 => .nmi
  | 3 => .int3
  | 4 => .overflow
  | 5 => .bounds
  | 6 => .invalidOp
  | 7 => .deviceNotAvailable
  | 8 => .doubleFault
  | 9 => .coprocesseurSegmentOverrun
  | 10 => .invalidTss
  | 11 => .segmentNoPresent
  | 12 => .stackSegment
  | 13 => .generalProtection
  | 14 => .pageFault
  | 15 => .none
  | 16 => .coprocessorError
  | 17 => .alignementCheck
  | 18 => .machineCheck
  | 32 => .rtcHandler
  | 33 => .keyboardHandler
  | 40 => .periodicInterruptHandler
  | 128 => .sysCall
  | _ => .unusedException

/-! The selectors (`x86_desc.h:11-16`). -/

/-- `KERNEL_CS`. -/
def kernelCs : BitVec 16 := 0x0010

/-- `KERNEL_DS`. -/
def kernelDs : BitVec 16 := 0x0018

/-- `USER_CS`. -/
def userCs : BitVec 16 := 0x0023

/-- `USER_DS`. -/
def userDs : BitVec 16 := 0x002B

/-- `KERNEL_TSS`. -/
def kernelTss : BitVec 16 := 0x0030

/-- `KERNEL_LDT`. -/
def kernelLdt : BitVec 16 := 0x0038

/-- One round of the loop: element `i`, the functions being at the addresses `addr`. -/
def idtEntry (addr : Handler → Word) (i : Nat) (d : IdtDesc) : IdtDesc :=
  let d := { d with
    segSelector := kernelCs
    reserved3 := 0
    reserved2 := 1
    reserved1 := 1
    reserved0 := 0
    size := 1
    dpl := 0
    present := 1 }
  let d := d.setEntry (addr (handlerOf i))
  if i = 128 then { d with dpl := 3 } else d

/-- The loop of `init_idt` with `n` rounds left. -/
def initIdtFrom (addr : Handler → Word) : Nat → Nat → (Nat → IdtDesc) → Nat → IdtDesc
  | 0, _, idt => idt
  | n + 1, i, idt => initIdtFrom addr n (i + 1) (Function.update idt i (idtEntry addr i (idt i)))

/-- `init_idt` (`kernel.c:29-122`), without the `lidt`. -/
def initIdt (addr : Handler → Word) (idt : Nat → IdtDesc) :
    Nat → IdtDesc := initIdtFrom addr 256 0 idt

/-- A gate as the processor reads it. -/
structure Gate where
  offset : Word
  selector : BitVec 16
  type : BitVec 4
  notSystem : BitVec 1
  dpl : BitVec 2
  present : BitVec 1
  deriving DecidableEq, Repr

/-- The gate in the eight bytes `q`. -/
def gateOf (q : BitVec 64) : Gate where
  offset := q.extractLsb' 48 16 ++ q.extractLsb' 0 16
  selector := q.extractLsb' 16 16
  type := q.extractLsb' 40 4
  notSystem := q.extractLsb' 44 1
  dpl := q.extractLsb' 45 2
  present := q.extractLsb' 47 1

/-- The type of an interrupt gate of 32 bits, which clears the interrupt flag. -/
def interruptGate : BitVec 4 := 0xE

/-! ## Segment descriptors -/

/-- The fields of `seg_desc_t` (`x86_desc.h:39-58`). -/
structure SegDesc where
  segLim_15_00 : BitVec 16
  base_15_00 : BitVec 16
  base_23_16 : BitVec 8
  type : BitVec 4
  sys : BitVec 1
  dpl : BitVec 2
  present : BitVec 1
  segLim_19_16 : BitVec 4
  avail : BitVec 1
  reserved : BitVec 1
  opsize : BitVec 1
  granularity : BitVec 1
  base_31_24 : BitVec 8
  deriving DecidableEq, Repr

/-- The fields as they are packed, the last one in the high bits. -/
def SegDesc.bits (d : SegDesc) : BitVec 64 :=
  d.base_31_24 ++ (d.granularity ++
    (d.opsize ++ (d.reserved ++ (d.avail ++ (d.segLim_19_16 ++ (d.present ++
    (d.dpl ++ (d.sys ++ (d.type ++ (d.base_23_16 ++ (d.base_15_00 ++ d.segLim_15_00)))))))))))

/-- `SET_LDT_PARAMS` and `SET_TSS_PARAMS` (`x86_desc.h:132-149`), which are the same. -/
def SegDesc.setParams (d : SegDesc) (addr lim : Word) : SegDesc :=
  { d with
    base_31_24 := ((addr &&& 0xFF000000#32) >>> 24).setWidth 8
    base_23_16 := ((addr &&& 0x00FF0000#32) >>> 16).setWidth 8
    base_15_00 := (addr &&& 0x0000FFFF#32).setWidth 16
    segLim_19_16 := ((lim &&& 0x000F0000#32) >>> 16).setWidth 4
    segLim_15_00 := (lim &&& 0x0000FFFF#32).setWidth 16 }

/-- `the_ldt_desc` (`kernel.c:207-218`), out of an uninitialised variable. -/
def ldtDesc (junk : SegDesc) (ldt ldtSize : Word) : SegDesc :=
  { junk with
    granularity := 0
    opsize := 1
    reserved := 0
    avail := 0
    present := 1
    dpl := 0
    sys := 0
    type := 0x2 }.setParams ldt ldtSize

/-- `TSS_SIZE`. -/
def tssSizeConst : Word := 104

/-- `the_tss_desc` (`kernel.c:224-237`). The limit that is set first is overwritten. -/
def tssDesc (junk : SegDesc) (tss tssSize : Word) : SegDesc :=
  { junk with
    granularity := 0
    opsize := 0
    reserved := 0
    avail := 0
    segLim_19_16 := (tssSizeConst &&& 0x000F0000#32).setWidth 4
    present := 1
    dpl := 0
    sys := 0
    type := 0x9
    segLim_15_00 := (tssSizeConst &&& 0x0000FFFF#32).setWidth 16 }.setParams tss tssSize

/-- A segment as the processor reads its descriptor. -/
structure Segment where
  base : Word
  limit : BitVec 20
  type : BitVec 4
  notSystem : BitVec 1
  dpl : BitVec 2
  present : BitVec 1
  granularity : BitVec 1
  deriving DecidableEq, Repr

/-- The segment in the eight bytes `q`. -/
def segmentOf (q : BitVec 64) : Segment where
  base := q.extractLsb' 56 8 ++ (q.extractLsb' 32 8 ++ q.extractLsb' 16 16)
  limit := q.extractLsb' 48 4 ++ q.extractLsb' 0 16
  type := q.extractLsb' 40 4
  notSystem := q.extractLsb' 44 1
  dpl := q.extractLsb' 45 2
  present := q.extractLsb' 47 1
  granularity := q.extractLsb' 55 1

/-- The segment that a selector names; bits 0 and 1 are a privilege level, bit 2 the
other kind of table. -/
def segmentAt (table : Vector (BitVec 64) 8) (selector : BitVec 16) : Option Segment :=
  table[(selector >>> 3).toNat]?.map segmentOf

/-- A segment from 0 to 4 GB. -/
def flatSegment (type : BitVec 4) (dpl : BitVec 2) : Segment := ⟨0, 0xFFFFF, type, 1, dpl, 1, 1⟩

/-- The global descriptor table (`x86_desc.S:56-93`) with the two descriptors that
`entry` puts into it. -/
def gdt (junk : SegDesc) (ldt ldtSize tss tssSize : Word) : Vector (BitVec 64) 8 :=
  #v[0, 0, 0x00CF9A000000FFFF, 0x00CF92000000FFFF, 0x00CFFA000000FFFF, 0x00CFF2000000FFFF,
    (tssDesc junk tss tssSize).bits, (ldtDesc junk ldt ldtSize).bits]

end OreOS
