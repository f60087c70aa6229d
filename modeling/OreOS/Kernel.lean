import OreOS.Console
import OreOS.Paging
import OreOS.Sched
import OreOS.SysCall.Descriptors

/-!
# The kernel as a state machine

`execute` and `halt` (`sys_call.c:21-255`), the scheduler (`sched.c:13-188`) and the boot sequence
(`kernel.c:240-355`), over one state. An event is an interrupt or a system call; it runs to the
point where user code continues.

What the hardware and the programs contribute is part of the event. A `Frame` says how deep the
kernel stack is below `tss.esp0` at the point where the code reads `%esp` and `%ebp`. The result of
looking up and checking an executable is the entry address it names, or `none`.

The kernel reads and writes PCBs through the page directory in use, so they are found by physical
address; a fault in the kernel ends in a handler that never returns, and `down` records that (and
the shutdown of the first shell). Pages 0 to 4 and 0xB8 of the first 4 MB are reached through `PTE`,
which every directory shares. The image that is loaded, `ss0` and the interrupt flag are left out.
The bytes that a call leaves on the kernel stack, `file_buf` of `execute` among them, reach PCBs
only when the stack runs out of its block; `stackStep` adds them to an event.

`home` is not in the source. It records the terminal each process was started in.
-/

namespace OreOS
open Machine

/-- The fields of the task state segment that the kernel assigns. -/
structure Tss where
  esp0 : Word
  ebp : Word
  esp : Word
  deriving DecidableEq, Repr

/-- Depth of the stack and base pointers below `tss.esp0`. -/
structure Frame where
  esp : Word
  ebp : Word
  deriving DecidableEq, Repr

/-- The globals of the scheduler, the page tables, the task-state segment, the PCBs by their
    physical addresses, `dir_index` and the screen. `down` and `home` are explained above. -/
structure Kernel where
  sched : Sched
  paging : Paging
  tss : Tss
  pcb : Word → Pcb
  dirIndex : Word
  console : Console
  down : Bool
  home : Int → Nat

namespace Kernel

/-- The kernel stops for good. -/
def stop (K : Kernel) : Kernel := { K with down := true }

/-- The process whose page directory is loaded; -1 for the boot directory. -/
def user (K : Kernel) : Int := K.paging.cr3 - 1

/-- The physical address behind `va`, or `none` when the access faults. -/
def phys (va : Word) (K : Kernel) : Option Word :=
  (K.paging.translateIn K.paging.cr3.toNat va).map Mapping.phys

/-- `%esp` in the frame `f`. -/
def esp (K : Kernel) (f : Frame) : Word := K.tss.esp0 - f.esp

/-- `%ebp` in the frame `f`. -/
def ebp (K : Kernel) (f : Frame) : Word := K.tss.esp0 - f.ebp

/-- `get_curr_pcb` (`sys_call.c:395-411`): the physical address of the PCB it points to. -/
def getCurrPcb (f : Frame) (K : Kernel) : Option Word := K.phys (K.esp f &&& 0xfffe000#32)

/-- The PCB at the physical address `a` is `p`. -/
def setPcb (a : Word) (p : Pcb) (K : Kernel) : Kernel :=
  { K with pcb := Function.update K.pcb a p }

/-- The page behind the virtual address 0xB8000. -/
def videoPage (K : Kernel) : Nat := (K.paging.pte 0xb8 >>> 12).toNat

/-- The page behind `_4KB + t * _4KB`, where the screen of terminal `t` is kept. -/
def savedPage (t : Nat) (K : Kernel) : Nat := (K.paging.pte (t + 1) >>> 12).toNat

/-- `memcpy(_4KB + t * _4KB, 0xb8000, _4KB)`. -/
def saveScreen (t : Nat) (K : Kernel) : Kernel :=
  { K with console := K.console.copyPage (K.savedPage t) K.videoPage }

/-- `memcpy(0xb8000, _4KB + t * _4KB, _4KB)`. -/
def restoreScreen (t : Nat) (K : Kernel) : Kernel :=
  { K with console := K.console.copyPage K.videoPage (K.savedPage t) }

/-- The conditional save of `sched.c:69-70` and `sys_call.c:223-224`. -/
def keepScreen (K : Kernel) : Kernel :=
  if K.sched.activeTerm = K.sched.bgTerm then K.saveScreen K.sched.activeTerm else K

/-- `change_pte` for the page of video memory. -/
def mapConsole (value : Nat) (K : Kernel) : Kernel :=
  { K with paging := changePte 0xb8 value K.paging }

end Kernel

/-- Where control goes after a system call. -/
inductive Exit where
  /-- Back to the caller, with a result. -/
  | toCaller (value : Int)
  /-- Into the program that was started. -/
  | toProgram
  /-- Out of the `execute` of the parent. -/
  | toParent
  /-- Nowhere. -/
  | stopped
  deriving DecidableEq, Repr

/-- What the call that control comes back to returns. `halt` leaves at the label `usr_end` of the
    parent's `execute`, which then returns 0 (`sys_call.c:249-254`). -/
def Exit.value : Exit → Option Int
  | .toCaller value => some value
  | .toParent => some 0
  | .toProgram => none
  | .stopped => none

/-- The address of the PCB of slot `p` (`sys_call.c:200`). -/
def pcbAddr (p : Nat) : Word := 134217728#32 - (BitVec.ofNat 32 p + 1#32) * 8192#32

/-- The top of the kernel stack of slot `p` (`sys_call.c:193`). -/
def kstackTop (p : Nat) : Word := 134217728#32 - 8192#32 * BitVec.ofNat 32 p - 4#32

/-- What `execute` writes into the PCB of a new process (`sys_call.c:202-215`). -/
def fillPcb (p : Nat) (esp ebp : Word) (old : Pcb) : Pcb :=
  let terminal : Fd := ⟨some .terminal, 0, 0, 0x7⟩
  { (old.setFd 0 terminal).setFd 1 terminal with
    oldPcb := esp &&& 0xffe000#32
    kstack := esp
    oldEbp := ebp
    procId := p }

/-- The part of `execute` after the slot was found (`sys_call.c:182-247`). -/
def enterProgram (p : Nat) (esp ebp : Word) (K : Kernel) : Option (Exit × Kernel) := do
  let sched ← K.sched.newProcess p
  let K := { K with
    sched := sched
    paging := { K.paging with cr3 := p + 1 }
    tss := { K.tss with esp0 := kstackTop p } }
  match K.phys (pcbAddr p) with
  | none => return (.stopped, K.stop)
  | some a =>
      let K := K.setPcb a (fillPcb p esp ebp (K.pcb a))
      let K := (K.mapConsole 0xb8).keepScreen
      return (.toProgram, { K with paging := (changeCr3 p K.paging).2 })

/-- `execute` (`sys_call.c:108-255`), started in terminal `term`. `prog` is the entry address of the
    executable, when the command names one. -/
def execute (term : Nat) (prog : Option Word) (f : Frame) (K : Kernel) : Option (Exit × Kernel) :=
  match prog with
  | none => some (.toCaller (-1), K)
  | some entry => do
      let (procId, paging) ← newPde entry K.paging
      let K' := { K with paging := paging }
      if procId = -1 then return (.toCaller (-1), K')
      else
        let K' := { K' with home := Function.update K.home procId term }
        enterProgram procId.toNat (K.esp f) (K.ebp f) K'

/-- `halt` (`sys_call.c:21-72`). The status is not used. -/
def halt (f : Frame) (K : Kernel) : Option (Exit × Kernel) :=
  match K.getCurrPcb f with
  | none => some (.stopped, K.stop)
  | some a =>
      let pcb := K.pcb a
      if pcb.procId = 0 then some (.stopped, K.stop)
      else do
        let paging ← removePage pcb.procId K.paging
        let K := { K with paging := paging, tss := ⟨pcb.kstack, pcb.oldEbp, pcb.kstack⟩ }
        if ← K.sched.isActive pcb.procId then
          match K.phys pcb.oldPcb with
          | none => return (.stopped, K.stop)
          | some b =>
              let parent := (K.pcb b).procId
              let sched ← K.sched.removeProcess parent pcb.kstack pcb.oldEbp
              return (.toParent,
                { K with sched := sched, paging := { K.paging with cr3 := parent + 1 } })
        else return (.toCaller 0, K)

/-- `run_proc` (`sched.c:156-188`). -/
def runProc (t : Nat) (K : Kernel) : Option Kernel := do
  let procId ← K.sched.procActive[t]?
  let esp ← K.sched.procEsp[t]?
  let ebp ← K.sched.procEbp[t]?
  return { K with paging := { K.paging with cr3 := procId + 1 }, tss := ⟨esp, ebp, esp⟩ }

/-- `do_events` (`sched.c:13-56`). -/
def doEvents (f : Frame) (K : Kernel) : Option Kernel :=
  if K.sched.fakeSti ≠ 0 then some K
  else if K.sched.countInit = 1 then some K
  else do
    let S ← K.sched.saveContext (K.esp f) (K.ebp f)
    let S ← S.saveCursor (K.console.screenX, K.console.screenY)
    let bg ← Sched.nextTerm S.termInit 3 S.bgTerm
    let (x, y) ← S.cursorPos[bg]?
    let K := { K with sched := { S with bgTerm := bg } }
    let K :=
      if S.activeTerm = bg then
        { K with console := K.console.changeCoord x y }.mapConsole 0xb8
      else { K with console := K.console.changeCoordSilent x y }.mapConsole bg
    runProc bg K

/-- `switchTerm` (`sched.c:65-114`). For a terminal that is not initialised yet, `shell` is the
    entry address of the shell and `g` the frame in which it is started. -/
def switchTerm (num : Nat) (f : Frame) (shell : Option Word) (g : Frame) (K : Kernel) :
    Option Kernel := do
  let S ← K.sched.saveCursor (K.console.screenX, K.console.screenY)
  let S ← S.saveContext (K.esp f) (K.ebp f)
  let K2 :=
    { K.keepScreen with sched := { S with fakeSti := 1, activeTerm := num } }.mapConsole 0xb8
  let init ← S.termInit[num]?
  if init ≠ 0 then
    let K3 := K2.restoreScreen num
    let (x, y) ← S.cursorPos[num]?
    runProc num { K3 with
      console := K3.console.changeCoord x y
      sched := { K3.sched with bgTerm := num, fakeSti := 0 } }
  else
    let termInit ← store S.termInit num 1
    let console ← K2.console.clear num K2.videoPage
    let K3 := { K2 with
      console := console
      sched := { K2.sched with bgTerm := num, fakeSti := 0, termInit := termInit } }
    let (_, K4) ← execute num shell g K3
    return K4

/-- The Alt branch of `keyboard_handler` (`keyboard.c:140-148`). -/
def altKey (scancode : Nat) (f : Frame) (shell : Option Word) (g : Frame) (K : Kernel) :
    Option Kernel :=
  if scancode < 0x3B then some K
  else if scancode - 0x3B < 6 then switchTerm (scancode - 0x3B) f shell g K
  else some K

/-- The events that concern the scheduler. -/
inductive SchedEvent where
  | tick (f : Frame)
  | altKey (scancode : Nat) (f : Frame) (shell : Option Word) (g : Frame)
  | execute (prog : Option Word) (f : Frame)
  | halt (f : Frame)
  deriving DecidableEq, Repr

/-- One event of the scheduler. After a stop nothing happens. -/
def schedStep (K : Kernel) (e : SchedEvent) : Option Kernel :=
  if K.down then some K
  else
    match e with
    | .tick f => doEvents f K
    | .altKey scancode f shell g => altKey scancode f shell g K
    | .execute prog f => (execute (K.home K.user) prog f K).map Prod.snd
    | .halt f => (halt f K).map Prod.snd

/-- A screen function on the page that is mapped at 0xB8000. -/
def screenOp (op : ScreenOp) (K : Kernel) : Option Kernel := do
  let console ← K.console.run K.sched.bgTerm K.videoPage op
  return { K with console := console }

/-- A call on the descriptor table of the PCB that `get_curr_pcb` finds. -/
def callFiles (fs : Filesys) (c : FileCall) (f : Frame) (K : Kernel) : Option Kernel :=
  match K.getCurrPcb f with
  | none => some K.stop
  | some a => do
      let (_, s) ← fileCall fs ⟨K.pcb a, K.dirIndex⟩ c
      return { K.setPcb a s.pcb with dirIndex := s.dirIndex }

/-- `sys_vidmap` by the process whose PCB `get_curr_pcb` finds. -/
def callVidmap (addr : Word) (f : Frame) (K : Kernel) : Option Kernel :=
  match K.getCurrPcb f with
  | none => some K.stop
  | some a =>
      match sysVidmap (K.pcb a).procId.toNat addr K.paging with
      | none => some K.stop
      | some (_, paging) => some { K with paging := paging }

/-- What can happen to the kernel. -/
inductive Event where
  | sched (e : SchedEvent)
  | files (c : FileCall) (f : Frame)
  | vidmap (addr : Word) (f : Frame)
  /-- Output of the running program. -/
  | output (op : ScreenOp)
  /-- What the keyboard handler shows of a key. -/
  | echo (op : ScreenOp)

/-- One event. After a stop nothing happens. -/
def kernelStep (fs : Filesys) (K : Kernel) (e : Event) : Option Kernel :=
  if K.down then some K
  else
    match e with
    | .sched e => schedStep K e
    | .files c f => callFiles fs c f K
    | .vidmap addr f => callVidmap addr f K
    | .output op => screenOp op K
    | .echo op => screenOp op K

/-- Memory that nothing has been written to. -/
def clearPcb : Pcb := ⟨fun _ => ⟨none, 0, 0, 0⟩, 0, 0, 0, 0⟩

/-- The kernel before it executes the first shell: `init_terminals`, `init_paging` and `clear` have
    run, and `tss.esp0` is 0x800000. -/
def boot (pteAddr : Word) : Kernel where
  sched := initTerminals
  paging := initPaging (resetPaging pteAddr)
  tss := ⟨0x800000#32, 0, 0⟩
  pcb := fun _ => clearPcb
  dirIndex := 0
  console :=
    { screenX := 0
      screenY := 0
      scrBuf := #v[fun _ => 32, fun _ => 0, fun _ => 0]
      mem := fun page k => if page = 0xb8 ∧ k < 4000 then if k % 2 = 0 then 32 else attrib else 0
      crtc := 0 }
  down := false
  home := fun _ => 0

end OreOS
