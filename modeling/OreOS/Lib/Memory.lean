import OreOS.Machine.StringOps

/-!
# `memset`, `memcpy`, `memmove`

Model of the block routines of the kernel library (`lib.c:410-597`). Each is one assembly statement;
its operands are loaded into the registers before it, and all its effects are on the registers, the
direction flag and the memory. `movw %ds, %dx; movw %dx, %es` makes the segments of the string
instructions the same and puts a value into `dx` that nothing reads. A call returns its first
argument.
-/

namespace OreOS
open Machine

/-- `movb %al, (%edi); addl $1, %edi`. -/
def storeAl (c : Cpu) : Cpu :=
  { c with mem := Function.update c.mem c.edi c.al, edi := c.edi + 1 }

/-- `movb (%esi), %al; movb %al, (%edi); addl $1, %edi; addl $1, %esi`. -/
def copyByte (c : Cpu) : Cpu :=
  let c := c.setAl (c.mem c.esi)
  { c with mem := Function.update c.mem c.edi c.al, edi := c.edi + 1, esi := c.esi + 1 }

/-- The byte `c` in each place of a word. -/
def splat (c : Word) : Word := c <<< 24 ||| c <<< 16 ||| c <<< 8 ||| c

/-- `memset` (`lib.c:423-460`). -/
def memset (s c n : Word) (cpu : Cpu) : Word × Cpu :=
  let c := c &&& 0xFF
  (s, wordLoop storeAl Cpu.stosl { cpu with eax := splat c, edi := s, ecx := n })

/-- `memcpy` (`lib.c:524-564`). -/
def memcpy (dest src n : Word) (cpu : Cpu) : Word × Cpu :=
  (dest, wordLoop copyByte (Cpu.movs 4) { cpu with esi := src, edi := dest, ecx := n })

/-- `memmove` (`lib.c:576-597`). -/
def memmove (dest src n : Word) (cpu : Cpu) : Word × Cpu :=
  let cpu := { cpu with edi := dest, esi := src, ecx := n, df := false }
  let cpu :=
    if cpu.esi < cpu.edi then
      { cpu with esi := cpu.esi + cpu.ecx - 1, edi := cpu.edi + cpu.ecx - 1, df := true }
    else cpu
  (dest, Cpu.rep (Cpu.movs 1) cpu)

end OreOS
