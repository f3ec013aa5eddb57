import UCore.Process.AnyFile

/-!
# Process/HandOver — what a new process is given

    a0 = argc          sp ──▸ argc
    a1 = argv ──────────────▸ argv[0] … argv[argc - 1], 0      string 0, string 1, …      USTACKTOP
                                 └──────────────────────────────▸

The strings, the pointers and `argc` are where `a0`, `a1` and `sp` say, each in a place of its own in the four
pages of the stack: whatever the file of the program is, and however the segments lie.
-/

namespace UCore.Exec

open Vmm Paging

variable {env : Env} {fuel pgdir phsize top i j : ℕ} {s : Phys} {t t' : Loading} {args kargv : List (List UInt8)}
  {entry : ℕ} {elf : Elfhdr} {buffer : ℕ → UInt8}

/-! ## The places of the strings -/

end UCore.Exec
