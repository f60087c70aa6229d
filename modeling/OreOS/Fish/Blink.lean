import OreOS.Machine.LinkedList

/-!
# The blink list of the fish program

Model of `blink.S` and of `mp1_malloc` and `mp1_free` (`fish.c:161-185`). The nodes of the list are
entries of `blink_array`, so a pointer is an index into it and NULL is `none`. Structures and bytes
that the caller passes are copied out of its memory first and are arguments here.

The loops over the list have fuel for one step more than the array has entries and are `none` where
it runs out: the walk has come to some entry twice, and goes on forever.
-/

namespace OreOS
open Machine

/-- `80*25` (`fish.c:24`). -/
def blinkEntries : Nat := 80 * 25

/-- A pointer into `blink_array` that is not NULL. -/
abbrev Slot := Fin blinkEntries

/-- `struct mp1_blink_struct` (`blink.h`). -/
structure Blink where
  location : BitVec 16
  onChar : UInt8
  offChar : UInt8
  onLength : BitVec 16
  offLength : BitVec 16
  countdown : BitVec 16
  status : BitVec 16
  next : Option Slot
  deriving DecidableEq, Repr

/-- What `ece391_memset(memory, 0, sizeof(struct mp1_blink_struct))` leaves. -/
def Blink.zero : Blink := ⟨0, 0, 0, 0, 0, 0, 0, none⟩

/-- The structure that `main` fills in (`fish.c:47-51`), for any location. -/
def mainBlink (location : BitVec 16) : Blink := ⟨location, 73, 77, 7, 6, 0, 0, none⟩

/-- The static data of the program and the page of video memory that it writes. -/
structure Mp1 where
  listHead : Option Slot
  blinkArray : Slot → Blink
  vmem : Nat → UInt8

namespace Mp1

/-- Enough for every walk over the list that ends. -/
def walkFuel : Nat := blinkEntries + 1

/-- The link of an entry. -/
def next (s : Mp1) (i : Slot) : Option Slot := (s.blinkArray i).next

/-- A store of a whole entry. -/
def set (s : Mp1) (i : Slot) (b : Blink) : Mp1 :=
  { s with blinkArray := Function.update s.blinkArray i b }

/-- `mp1_poke`: the character `cl` at the offset `eax` of video memory. -/
def poke (s : Mp1) (cl : UInt8) (eax : Nat) :
    Mp1 := { s with vmem := Function.update s.vmem eax cl }

/-- `movzwl LOCATION(%ebx), %eax; shl $1, %eax`. -/
def cell (b : Blink) : Nat := b.location.toNat * 2

/-- `mp1_malloc`: the lowest entry that looks free. -/
def malloc (s : Mp1) : Option Slot :=
  (List.finRange blinkEntries).find? fun i => (s.blinkArray i).location = 0

/-- `mp1_free`. -/
def free (s : Mp1) (memory : Slot) : Mp1 := s.set memory .zero

/-- `mp1_find_helper`. -/
def findHelper (s : Mp1) (ax : BitVec 16) : Option (Option Slot) :=
  searchFrom s.next (fun i => (s.blinkArray i).location = ax) walkFuel s.listHead

/-- The body of `tasklet_loop` up to `next_loop`. -/
def blink (s : Mp1) (ebx : Slot) : Mp1 :=
  let b := s.blinkArray ebx
  let b := { b with countdown := b.countdown - 1 }
  if b.countdown.toInt > 0 then s.set ebx b
  else if b.status &&& 1 = 0 then
    (s.poke b.onChar (cell b)).set ebx { b with countdown := b.onLength, status := b.status ^^^ 1 }
  else
    (s.poke b.offChar (cell b)).set ebx
      { b with countdown := b.offLength, status := b.status ^^^ 1 }

/-- `mp1_rtc_tasklet` (`blink.S:49-95`): one pass over the list. -/
def rtcTasklet (s : Mp1) : Option Mp1 := walk next blink walkFuel s.listHead s

/-- `mp1_ioctl_add` with the caller's structure. -/
def ioctlAdd (b : Blink) (s : Mp1) : Int × Mp1 :=
  if b.location.toNat ≥ 80 * 25 then (-1, s)
  else
    let b := { b with status := 1, countdown := b.onLength }
    match s.malloc with
    | none => (-1, s)
    | some edx =>
        let s := s.set edx b
        let s := { s.set edx { s.blinkArray edx with next := s.listHead } with
          listHead := some edx }
        (0, s.poke (s.blinkArray edx).onChar (cell (s.blinkArray edx)))

/-- The store `movl %ecx, (%edx)`. -/
def storeLink (s : Mp1) (ecx : Option Slot) : Link Slot → Mp1
  | .head => { s with listHead := ecx }
  | .next i => s.set i { s.blinkArray i with next := ecx }

/-- `mp1_ioctl_remove`; `mp1_find_helper` takes the low word of `arg`. -/
def ioctlRemove (arg : BitVec 32) (s : Mp1) : Option (Int × Mp1) := do
  match ← s.findHelper (arg.setWidth 16) with
  | none => some (-1, s)
  | some eax =>
      let edx ← prevLink s.listHead s.next eax walkFuel .head
      let s := s.storeLink (s.next eax) edx
      some (0, s.free eax)

/-- The flags after `testb $0x1, STATUS(%edi)`, for `cmovl`: the sign and the
overflow flag differ. -/
def lessAfterTest (status : BitVec 16) : Bool :=
  let sf := (status.setWidth 8 &&& 1#8).msb
  let of := false
  sf != of

/-- `mp1_ioctl_sync`. -/
def ioctlSync (arg : BitVec 32) (s : Mp1) : Option (Int × Mp1) := do
  match ← s.findHelper ((arg >>> 16).setWidth 16) with
  | none => some (-1, s)
  | some esi =>
      match ← s.findHelper ((arg &&& 0xFFFF).setWidth 16) with
      | none => some (-1, s)
      | some edi =>
          let a := s.blinkArray esi
          let b := { s.blinkArray edi with
            onLength := a.onLength, offLength := a.offLength
            countdown := a.countdown, status := a.status }
          let ecx := b.offChar
          let ebx := b.onChar
          let ecx := if lessAfterTest b.status then ebx else ecx
          some (0, (s.set edi b).poke ecx (cell b))

/-- `mp1_ioctl_find` with the location in the caller's structure: the structure that is copied over
it, if there is one. -/
def ioctlFind (location : BitVec 16) (s : Mp1) : Option (Int × Option Blink) := do
  match ← s.findHelper location with
  | none => some (-1, none)
  | some eax => some (0, some (s.blinkArray eax))

/-- The empty list, after the `ece391_memset` of `main`. -/
def empty (vmem : Nat → UInt8) : Mp1 := ⟨none, fun _ => .zero, vmem⟩

end Mp1

/-- The calls of `mp1_ioctl`, by the entries of `call_table`, and of `mp1_rtc_tasklet`. -/
inductive Mp1Call where
  | add (b : Blink)
  | remove (arg : BitVec 32)
  | find (location : BitVec 16)
  | sync (arg : BitVec 32)
  | tasklet
  deriving DecidableEq, Repr

/-- What a call returns, if anything, and the state after it. -/
def Mp1.call (s : Mp1) : Mp1Call → Option (Option Int × Mp1)
  | .add b => some ((s.ioctlAdd b).map some id)
  | .remove arg => (s.ioctlRemove arg).map fun r => (some r.1, r.2)
  | .find location => (s.ioctlFind location).map fun r => (some r.1, s)
  | .sync arg => (s.ioctlSync arg).map fun r => (some r.1, r.2)
  | .tasklet => s.rtcTasklet.map fun s => (none, s)

end OreOS
