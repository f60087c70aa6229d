import OreOS.Machine.Bytes
import OreOS.Machine.Cmos

/-!
# The driver of the real-time clock

Model of `rtc_init`, `rtc_write` and the accesses of `periodic_interrupt_handler` to the clock
(`rtc.c:13-109`). The system call that `rtc_write` is part of comes through an interrupt gate, so
nothing comes between the accesses of one call.
-/

namespace OreOS
open Machine

/-- What `rtc_init` and `rtc_write` do with a rate. The last `inb` reads the port
`RTC_PORT|NMI_OFF`. -/
def programClock (rate : BitVec 8) (bus : Nat → BitVec 8) (c : Cmos) : Cmos :=
  -- nmi protection on
  let (index, c) := c.inb bus 0x70
  let c := c.outb (index &&& 0x7F) 0x70
  -- the frequency
  let (prev, c) := (c.outb 0x8A 0x70).inb bus 0x71
  let c := (c.outb 0x8A 0x70).outb ((prev &&& 0xF0) ||| rate) 0x71
  -- PIE
  let (prev, c) := (c.outb 0x8B 0x70).inb bus 0x71
  let c := (c.outb 0x8B 0x70).outb ((prev &&& 0xF0) ||| 0x40) 0x71
  -- nmi protection off
  let (index, c) := c.inb bus (0x70 ||| 0x80)
  c.outb index 0x70

/-- `rtc_init` (`rtc.c:13-31`). -/
def rtcInit (bus : Nat → BitVec 8) (c : Cmos) : Cmos := programClock 10 bus c

/-- The rate for a frequency (`rtc.c:82-94`). -/
def rateOf (freq : Word) : Option (BitVec 8) :=
  if freq = 2 then some 15
  else if freq = 4 then some 14
  else if freq = 8 then some 13
  else if freq = 16 then some 12
  else if freq = 32 then some 11
  else if freq = 64 then some 10
  else if freq = 128 then some 9
  else if freq = 256 then some 8
  else if freq = 512 then some 7
  else if freq = 1024 then some 6
  else none

/-- `rtc_write` (`rtc.c:79-111`). -/
def rtcWrite (freq : Word) (bus : Nat → BitVec 8) (c : Cmos) : Cmos :=
  match rateOf freq with
  | none => c
  | some rate => programClock rate bus c

/-- `fnc_rtc_write` (`sys_call.c:528-531`): it reads four bytes whatever `nbytes` is. -/
def fncRtcWrite (mem : Word → UInt8) (myBuf : Word) (bus : Nat → BitVec 8) (c : Cmos) :
    Int × Cmos :=
  (0, rtcWrite (readWord mem myBuf) bus c)

/-- `periodic_interrupt_handler` up to `do_events` (`rtc.c:45-47`). -/
def readStatus (bus : Nat → BitVec 8) (c : Cmos) : Cmos := ((c.outb 0x0C 0x70).inb bus 0x71).2

end OreOS
