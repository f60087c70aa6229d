import OreOS.Kernel.Stack

/-!
# Where `execute` puts the file

`execute` reads the whole file into an array on the kernel stack of its caller
(`sys_call.c:165-166`). The 8 KB block of a process has its PCB at the bottom and its stack above.
Below the array come the frames of the calls that fill it. Array and frames stay above the PCB as
long as they, with the file and what is on the stack already, fit into the rest of the block.

Addresses are those that the caller sees. One large page holds all the blocks, so different
addresses in them are different bytes.
-/

namespace OreOS
open Machine

/-- `esp` points into the 8 KB block of slot `p`. -/
def InBlock (p : Nat) (esp : Word) : Prop := pcbAddr p ≤ esp ∧ esp < pcbAddr p + 8192#32

instance (p : Nat) (esp : Word) : Decidable (InBlock p esp) := inferInstanceAs (Decidable (_ ∧ _))

/-- The start of `file_buf`. `gap` is what the compiler leaves between the stack pointer at the
    entry of `execute` and the end of the array. -/
def fileBuf (esp gap : Word) (size : Nat) : Word := esp - gap - BitVec.ofNat 32 size

/-- The array lies between the PCB of slot `p` and the stack pointer. -/
def AbovePcb (p : Nat) (esp gap : Word) (size : Nat) : Prop :=
  (pcbAddr p).toNat + pcbSize ≤ (fileBuf esp gap size).toNat ∧
    (fileBuf esp gap size).toNat + size ≤ esp.toNat

/-- The bytes of the PCB of slot `p`. -/
def pcbBytes (mem : Word → UInt8) (p : Nat) : List UInt8 :=
  slice (fun k => mem (pcbAddr p + BitVec.ofNat 32 k)) 0 pcbSize

/-- Whatever file of `size` bytes is read to `start`, and whatever the calls that read it push
    below, the PCBs of all processes are left as they are. -/
def KeepsPcbs (start : Word) (size : Nat) (below : Word) : Prop :=
  ∀ q < 7, ∀ (mem : Word → UInt8) (data pushed : List UInt8), data.length = size →
    pushed.length = below.toNat →
      pcbBytes (writeBytes (writeBytes mem (start - below) pushed) start data) q = pcbBytes mem q

/-- The part of the block of slot `p` from the stack pointer up. -/
def stackUsed (p : Nat) (esp : Word) : Nat := (pcbAddr p + 8192#32 - esp).toNat

/-! ## The blocks -/

theorem pcbAddr_toNat {p : Nat} (hp : p < 7) : (pcbAddr p).toNat = 134217728 - 8192 * (p + 1) := by
  have hall : ∀ p < 7, (pcbAddr p).toNat = 134217728 - 8192 * (p + 1) := by decide
  exact hall p hp

/-- A stack pointer in a block, by the address of the block. -/
theorem InBlock.bounds {p : Nat} {esp : Word} (hp : p < 7) (h : InBlock p esp) :
    (pcbAddr p).toNat ≤ esp.toNat ∧ esp.toNat < (pcbAddr p).toNat + 8192 ∧
      stackUsed p esp = (pcbAddr p).toNat + 8192 - esp.toNat := by
  obtain ⟨hlow, hhigh⟩ := h
  have haddr := pcbAddr_toNat hp
  rw [BitVec.le_def] at hlow
  rw [BitVec.lt_def] at hhigh
  unfold stackUsed
  have hend : (pcbAddr p + 8192#32).toNat = (pcbAddr p).toNat + 8192 := by
    rw [BitVec.toNat_add]
    simp only [BitVec.reduceToNat]
    omega
  rw [hend] at hhigh
  refine ⟨hlow, hhigh, ?_⟩
  rw [BitVec.toNat_sub, hend]
  omega

/-- Bytes that are written inside the block of slot `p`, above its PCB, belong to no PCB. -/
theorem pcbBytes_inside {p : Nat} (hp : p < 7) {start : Word} {data : List UInt8}
    (hlow : (pcbAddr p).toNat + pcbSize ≤ start.toNat)
    (hhigh : start.toNat + data.length ≤ (pcbAddr p).toNat + 8192) {q : Nat} (hq : q < 7)
    (mem : Word → UInt8) : pcbBytes (writeBytes mem start data) q = pcbBytes mem q := by
  apply slice_congr
  intro k _ hk
  rw [Nat.zero_add] at hk
  apply writeBytes_outside
  have hpAddr := pcbAddr_toNat hp
  have hqAddr := pcbAddr_toNat hq
  have hbyte : (pcbAddr q + BitVec.ofNat 32 k).toNat = (pcbAddr q).toNat + k := by
    rw [BitVec.toNat_add, BitVec.toNat_ofNat]
    unfold pcbSize at hk
    omega
  unfold pcbSize at hk hlow
  rw [BitVec.toNat_sub, hbyte]
  -- the PCB of an earlier slot is above the block, all others are below what is written
  rcases Nat.lt_or_ge q p with hlt | hge
  · omega
  · omega

/-! ## The array -/

theorem fileBuf_toNat {esp gap : Word} {size : Nat} (h : gap.toNat + size ≤ esp.toNat) :
    (fileBuf esp gap size).toNat = esp.toNat - gap.toNat - size := by
  have hesp := esp.isLt
  have hsize : (BitVec.ofNat 32 size).toNat = size := by
    rw [BitVec.toNat_ofNat]
    omega
  rw [fileBuf, BitVec.toNat_sub_of_le, BitVec.toNat_sub_of_le, hsize]
  · rw [BitVec.le_def]
    omega
  · rw [BitVec.le_def, BitVec.toNat_sub_of_le (BitVec.le_def.mpr (by omega)), hsize]
    omega

/-- A byte of a PCB that lies in the array or in the frames below it can be changed. -/
theorem not_keepsPcbs {start below : Word} {size q k : Nat} (hsize : size ≤ 2 ^ 32) (hq : q < 7)
    (hk : k < pcbSize)
    (hin : (pcbAddr q + BitVec.ofNat 32 k - start).toNat < size ∨
      (pcbAddr q + BitVec.ofNat 32 k - (start - below)).toNat < below.toNat) :
    ¬ KeepsPcbs start size below := by
  intro hkeeps
  have hsame := hkeeps q hq (fun _ => 0) (List.replicate size 1) (List.replicate below.toNat 1)
    List.length_replicate List.length_replicate
  have hbyte := congrArg (·[k]?) hsame
  have hlen : (List.replicate size (1 : UInt8)).length = size := List.length_replicate
  have hlen' : (List.replicate below.toNat (1 : UInt8)).length = below.toNat :=
    List.length_replicate
  have hwritten : writeBytes (writeBytes (fun _ => 0) (start - below)
      (List.replicate below.toNat 1))
      start (List.replicate size 1) (pcbAddr q + BitVec.ofNat 32 k) = 1 := by
    by_cases harray : (pcbAddr q + BitVec.ofNat 32 k - start).toNat < size
    · rw [writeBytes_inside (by rw [hlen]; exact hsize) (by rw [hlen]; exact harray)]
      exact List.getElem_replicate _
    · have hframes := hin.resolve_left harray
      have hbelow := below.isLt
      rw [writeBytes_outside (by rw [hlen]; omega),
        writeBytes_inside (by rw [hlen']; omega) (by rw [hlen']; exact hframes)]
      exact List.getElem_replicate _
  simp [pcbBytes, slice, hk, hwritten] at hbyte

/-- The load buffer of a call in process `p` stays above the PCB of `p`, and filling it touches no
    PCB, exactly when what is on the kernel stack, the frame of `execute`, the file and the frames
    of the calls that fill the array fit above the PCB. -/
theorem load_buffer_in_stack_iff {p : Nat} (hp : p < 7) {esp : Word} (hesp : InBlock p esp)
    (gap below : Word) {size : Nat} (hsize : size ≤ 1023 * 4096) :
    (AbovePcb p esp gap size ∧ KeepsPcbs (fileBuf esp gap size) size below) ↔
      stackUsed p esp + gap.toNat + size + below.toNat ≤ 8192 - pcbSize := by
  obtain ⟨hlow, hhigh, hused⟩ := hesp.bounds hp
  have haddr := pcbAddr_toNat hp
  rw [hused]
  constructor
  · rintro ⟨⟨habove, hunder⟩, hkeeps⟩
    have hgap := gap.isLt
    -- the array ends below the stack pointer, so nothing wrapped
    have hstart : (fileBuf esp gap size).toNat =
        (esp.toNat + (2 ^ 32 - gap.toNat) + (2 ^ 32 - size)) % 2 ^ 32 := by
      rw [fileBuf, BitVec.toNat_sub, BitVec.toNat_sub, BitVec.toNat_ofNat]
      omega
    by_contra hover
    -- the frames reach the last byte of the PCB
    apply not_keepsPcbs (by omega) hp (show 147 < pcbSize by decide) (.inr ?_) hkeeps
    have hlast : (pcbAddr p + BitVec.ofNat 32 147).toNat = (pcbAddr p).toNat + 147 := by
      rw [BitVec.toNat_add, BitVec.toNat_ofNat]
      omega
    have hbelow := below.isLt
    unfold pcbSize at habove hover
    rw [BitVec.toNat_sub, BitVec.toNat_sub, hlast]
    omega
  · intro hfit
    have hroom : gap.toNat + size ≤ esp.toNat := by
      unfold pcbSize at hfit
      omega
    have hstart := fileBuf_toNat hroom
    have habove : AbovePcb p esp gap size := by
      unfold AbovePcb
      rw [hstart]
      unfold pcbSize at hfit ⊢
      omega
    refine ⟨habove, ?_⟩
    intro q hq mem data pushed hdata hpushed
    have hframes : (fileBuf esp gap size - below).toNat = (fileBuf esp gap size).toNat -
        below.toNat := by
      apply BitVec.toNat_sub_of_le
      rw [BitVec.le_def, hstart]
      unfold pcbSize at hfit
      omega
    rw [pcbBytes_inside hp habove.1 (by have := habove.2; omega) hq,
      pcbBytes_inside hp (by rw [hframes, hstart]; omega) (by rw [hframes, hstart]; omega) hq]

/-- A stack pointer of the shell, 100 bytes below the top of its kernel stack. -/
theorem shell_esp :
    InBlock 0 (kstackTop 0 - 100#32) ∧ stackUsed 0 (kstackTop 0 - 100#32) = 104 := by
  decide

/-- The shell's kernel stack has room for `hello`. -/
theorem load_buffer_hello :
    AbovePcb 0 (kstackTop 0 - 100#32) 220#32 5349 ∧
      KeepsPcbs (fileBuf (kstackTop 0 - 100#32) 220#32 5349) 5349 160#32 := by
  obtain ⟨hesp, hused⟩ := shell_esp
  have hsize : 5349 ≤ 1023 * 4096 := by omega
  have hfit : stackUsed 0 (kstackTop 0 - 100#32) + (220#32).toNat + 5349 + (160#32).toNat ≤
      8192 - pcbSize := by
    simp [hused, pcbSize]
  exact (load_buffer_in_stack_iff (by omega) hesp 220#32 160#32 hsize).mpr hfit

/-! ## Files that do not fit -/

/-- If the frame of `execute` is still above the PCB and the file does not fit between the two, then
    it overwrites the PCB of the caller. -/
theorem file_overwrites_pcb {p : Nat} (hp : p < 7) {esp : Word} (hesp : InBlock p esp) {gap : Word}
    {size : Nat} (hsize : size ≤ 1023 * 4096)
    (hframe : stackUsed p esp + gap.toNat ≤ 8192 - pcbSize)
    (hover : 8192 - pcbSize < stackUsed p esp + gap.toNat + size) (below : Word) :
    ¬ KeepsPcbs (fileBuf esp gap size) size below := by
  obtain ⟨hlow, hhigh, hused⟩ := hesp.bounds hp
  have haddr := pcbAddr_toNat hp
  rw [hused] at hframe hover
  unfold pcbSize at hframe hover
  have hstart : (fileBuf esp gap size).toNat = esp.toNat - gap.toNat - size := by
    apply fileBuf_toNat
    omega
  -- the last byte of the PCB
  have hlast : (pcbAddr p + BitVec.ofNat 32 147).toNat = (pcbAddr p).toNat + 147 := by
    rw [BitVec.toNat_add, BitVec.toNat_ofNat]
    omega
  apply not_keepsPcbs (show size ≤ 2 ^ 32 by omega) hp (show 147 < pcbSize by decide) (.inl ?_)
  rw [BitVec.toNat_sub, hlast, hstart]
  omega

/-- `fish`, started by the shell. -/
theorem load_buffer_fish :
    ¬ ∀ p < 7, ∀ (esp gap below : Word) (size : Nat), InBlock p esp → size ≤ 1023 * 4096 →
      AbovePcb p esp gap size ∧ KeepsPcbs (fileBuf esp gap size) size below := by
  intro hall
  obtain ⟨hesp, hused⟩ := shell_esp
  have hframe : stackUsed 0 (kstackTop 0 - 100#32) + (220#32).toNat ≤ 8192 - pcbSize := by
    simp [hused, pcbSize]
  have hover : 8192 - pcbSize < stackUsed 0 (kstackTop 0 - 100#32) + (220#32).toNat + 36164 := by
    simp [hused, pcbSize]
  obtain ⟨-, hkeeps⟩ := hall 0 (by omega) _ 220#32 160#32 36164 hesp (by omega)
  exact file_overwrites_pcb (by omega) hesp (by omega) hframe hover _ hkeeps

end OreOS
