import OreOS.Programs.Proofs.Output
import OreOS.Programs.Proofs.Shell

/-!
# The answers of `counter`

`counter` reads one character and counts as far as it says. The user library's `itoa` writes the
numbers, all into one array, and each of them is printed up to its NUL.
-/

namespace OreOS
open Machine

variable {w : Task} {line : List UInt8}

variable {fs : Filesys} {term : Ret}

end OreOS
