import UCore.Mm.Kmalloc
import UCore.Mm.UserMem
import UCore.Process.Segment

/-!
# Process/LoadIcode — a new program in place of the old

`load_icode` of `kern/process/proc.c`:

    elfhdr ──▸ program headers ──walk──▸ segments ──▸ stack ──▸ argv, argc ──▸ trapframe

The strings of `kargv` are lists of the bytes before the null byte, and `argc` is their number.  A load
that fails gives back what it has taken; that, and the file that is closed, are left out.
-/

namespace UCore.Exec

open Vmm Paging

/-- `USTACKTOP`. -/
abbrev USTACKTOP : ℕ := USERTOP

/-- `USTACKPAGE`. -/
abbrev USTACKPAGE : ℕ := 256

/-- `USTACKSIZE`. -/
abbrev USTACKSIZE : ℕ := USTACKPAGE * PGSIZE

/-- `EXEC_MAX_ARG_NUM`. -/
abbrev EXEC_MAX_ARG_NUM : ℕ := 32

/-- `EXEC_MAX_ARG_LEN`. -/
abbrev EXEC_MAX_ARG_LEN : ℕ := 4095

/-- `SSTATUS_SIE`. -/
abbrev SSTATUS_SIE : ℕ := 0x2

/-- `SSTATUS_SPIE`. -/
abbrev SSTATUS_SPIE : ℕ := 0x20

/-- `SSTATUS_SPP`. -/
abbrev SSTATUS_SPP : ℕ := 0x100

/-- `trapframe`: the registers that are not `0`. -/
structure TrapFrame where
  sp : ℕ
  a0 : ℕ
  a1 : ℕ
  status : ℕ
  epc : ℕ
  deriving DecidableEq, Repr

/-- **What has been done about the program headers**: the offsets of those used, in the buffer; the
fields read, by their offset and their width; and whether the walk has come to its end. -/
structure Trace where
  acted : List ℕ
  reads : List (ℕ × ℕ)
  walked : Bool
  deriving DecidableEq, Repr

/-- The state of a load: the new address space, `current->mm` by its page directory, `current->tf`, what
has been done about the headers, and the memory before and after each segment. -/
structure Loading where
  space : AddrSpace
  current : Option ℕ
  tf : TrapFrame
  trace : Trace
  history : List (Phys × Phys)

/-- A load that does not return: how, and what had been done. -/
structure LoadStop where
  fault : Fault
  trace : Trace

/-- A call of a load. -/
abbrev LoadCall (α : Type) := Act Loading LoadStop α

/-- What a load is given: the memory managers, with the page directory of the kernel; whether `kmalloc`
grants an `mm`, the headers' buffer, the area of each segment, by its header's offset, and the area of
the stack; what the buffer holds at first; and the file. -/
structure Env where
  pmm : Pmm
  boot : ℕ
  mmGranted : Bool
  phGranted : Bool
  vmaGranted : ℕ → Bool
  stackGranted : Bool
  junk : ℕ → UInt8
  rd : Reader

/-- A call on the address space. -/
def onSpace {α : Type} (m : SpaceCall α) : LoadCall α := fun s =>
  match m s.space with
  | .ok (a, space) => .ok (a, { s with space := space })
  | .error e => .error ⟨e, s.trace⟩

/-- A header is used. -/
def act (o : ℕ) : LoadCall Unit :=
  modify fun s => { s with trace := { s.trace with acted := s.trace.acted ++ [o] } }

/-- Fields of the header at `o` are read. -/
def touch (o : ℕ) (fields : List (ℕ × ℕ)) : LoadCall Unit :=
  modify fun s => { s with trace := { s.trace with
    reads := s.trace.reads ++ fields.map fun f => (o + f.1, f.2) } }

/-- `copy_to_user`. -/
def copyToUser (fuel pgdir dst : ℕ) (src : ℕ → UInt8) (len : ℕ) : SpaceCall Bool := do
  let passed ← onMm fun mm => (userMemCheck fuel dst len true (some mm)).map fun r =>
    (r.1, r.2.getD mm)
  if passed = true then
    onPhys (memcpyUser pgdir dst src len)
    return true
  else
    return false

/-- What `load_icode` does about the segment of a header. -/
def loadHeader (env : Env) (fuel pgdir : ℕ) (buffer : ℕ → UInt8) (o : ℕ) :
    LoadCall (Except ℤ Unit) := do
  let ph := proghdr buffer o
  touch o [(32, 8), (40, 8)]
  if ph.memsz < ph.filesz then
    return .error (-E_INVAL_ELF)
  else
    touch o [(4, 4), (16, 8), (8, 8)]
    let before := (← get).space.phys
    let r ← onSpace (loadSegment env.pmm env.rd fuel pgdir (env.vmaGranted o) ph)
    modify fun s => { s with history := s.history ++ [(before, s.space.phys)] }
    return r

/-- One turn of the walk over the headers, at an offset in the buffer. -/
def headerTurn (env : Env) (fuel pgdir phsize : ℕ) (buffer : ℕ → UInt8) (o : ℕ) :
    LoadCall (ℕ ⊕ Except ℤ Unit) := do
  if o < phsize then
    act o
    touch o [(0, 4)]
    if (proghdr buffer o).type = ELF_PT_LOAD then
      match ← loadHeader env fuel pgdir buffer o with
      | .error ret => return .inr (.error ret)
      | .ok _ => return .inl (o + sizeofProghdr)
    else
      return .inl (o + sizeofProghdr)
  else
    modify fun s => { s with trace := { s.trace with walked := true } }
    return .inr (.ok ())

/-- The walk over the headers, which takes at most `phsize` turns. -/
def walkHeaders (env : Env) (fuel pgdir phsize : ℕ) (buffer : ℕ → UInt8) : LoadCall (Except ℤ Unit) :=
  Act.loop ⟨.spin, ⟨[], [], false⟩⟩ (headerTurn env fuel pgdir phsize buffer) (phsize + 1) 0

/-- A page of the stack, with the assertion that there is one. -/
def stackPage (pmm : Pmm) (pgdir la : ℕ) : Paging.Call Unit := do
  Act.require .panic ((← pgdirAllocPage pmm pgdir la PTE_USER) ≠ none)

/-- The stack: its area, and its four top pages. -/
def loadStack (env : Env) (pgdir : ℕ) : SpaceCall ℤ := do
  let ret ← onMm (mmMap (USTACKTOP - USTACKSIZE) USTACKSIZE (VM_READ ||| VM_WRITE ||| VM_STACK)
    env.stackGranted)
  if ret ≠ 0 then
    return ret
  else
    onPhys (stackPage env.pmm pgdir (USTACKTOP - PGSIZE))
    onPhys (stackPage env.pmm pgdir (USTACKTOP - 2 * PGSIZE))
    onPhys (stackPage env.pmm pgdir (USTACKTOP - 3 * PGSIZE))
    onPhys (stackPage env.pmm pgdir (USTACKTOP - 4 * PGSIZE))
    return 0

/-- The bytes of a string, and its null byte. -/
def cstring (arg : List UInt8) (i : ℕ) : UInt8 := arg.getD i 0

/-- The bytes of an array of words. -/
def wordBytes (ws : List ℕ) (i : ℕ) : UInt8 := UInt8.ofNat (ws.getD (i / 8) 0 / 256 ^ (i % 8))

/-- The loop over the strings, from the last to the first: the top of the stack, and the addresses of
the strings copied. -/
def copyStrings (fuel pgdir : ℕ) : List (List UInt8) → ℕ → List ℕ → SpaceCall (Option (ℕ × List ℕ))
  | [], stacktop, uargv => return some (stacktop, uargv)
  | arg :: args, stacktop, uargv => do
    let len := arg.length + 1
    let stacktop := sub64 stacktop len
    if (← copyToUser fuel pgdir stacktop (cstring arg) len) = true then
      copyStrings fuel pgdir args stacktop (stacktop :: uargv)
    else
      return none

/-- `argv` and `argc` below the strings: the address of `argv`, and the top of the stack. -/
def copyArgv (fuel pgdir argc stacktop : ℕ) (uargv : List ℕ) : SpaceCall (Option (ℕ × ℕ)) := do
  let argvBase := sub64 (roundDown stacktop 8) ((argc + 1) * 8)
  if (← copyToUser fuel pgdir argvBase (wordBytes uargv) (argc * 8)) = true then
    if (← copyToUser fuel pgdir (u64 (argvBase + argc * 8)) (wordBytes [0]) 8) = true then
      let stacktop := sub64 argvBase 8
      if (← copyToUser fuel pgdir stacktop (wordBytes [argc]) 8) = true then
        return some (argvBase, stacktop)
      else
        return none
    else
      return none
  else
    return none

/-- The arguments, on the stack: the address of `argv`, and the top of the stack. -/
def copyArgs (fuel pgdir : ℕ) (kargv : List (List UInt8)) : SpaceCall (Option (ℕ × ℕ)) := do
  match ← copyStrings fuel pgdir kargv.reverse USTACKTOP [] with
  | none => return none
  | some (stacktop, uargv) => copyArgv fuel pgdir kargv.length stacktop uargv

/-- `tf->status`. -/
def userStatus (sstatus : ℕ) : ℕ :=
  (sstatus ||| SSTATUS_SPIE) &&& (2 ^ 64 - 1 - SSTATUS_SPP) &&& (2 ^ 64 - 1 - SSTATUS_SIE)

/-- The end of a load: the arguments and the trapframe. -/
def enterUser (fuel pgdir entry : ℕ) (kargv : List (List UInt8)) : LoadCall ℤ := do
  modify fun s => { s with current := some pgdir }
  match ← onSpace (copyArgs fuel pgdir kargv) with
  | none => do
    modify fun s => { s with current := none }
    return -E_INVAL
  | some (argvBase, stacktop) => do
    modify fun s => { s with
      tf := ⟨stacktop, kargv.length, argvBase, userStatus s.tf.status, entry⟩ }
    return 0

/-- A load, from the headers' buffer on. -/
def loadProgram (env : Env) (fuel pgdir : ℕ) (elf : Elfhdr) (kargv : List (List UInt8)) (phsize : ℕ)
    (buffer : ℕ → UInt8) : LoadCall ℤ := do
  match ← walkHeaders env fuel pgdir phsize buffer with
  | .error ret => return ret
  | .ok _ => do
    let ret ← onSpace (loadStack env pgdir)
    if ret ≠ 0 then
      return ret
    else
      enterUser fuel pgdir elf.entry kargv

/-- Whether `kmalloc` of a size fails an assertion. -/
def KmallocPanics (size : ℕ) : Prop := 4064 ≤ size ∧ size < 4080

instance (size : ℕ) : Decidable (KmallocPanics size) := inferInstanceAs (Decidable (_ ∧ _))

/-- The bytes behind the headers' buffer: those read from the file, and whatever follows. -/
def bufferOf (env : Env) (elf : Elfhdr) (phsize : ℕ) (i : ℕ) : UInt8 :=
  if i < phsize then env.rd.data elf.phoff phsize i else env.junk i

/-- A load, from the program headers on. -/
def loadHeaders (env : Env) (fuel pgdir : ℕ) (elf : Elfhdr) (kargv : List (List UInt8)) : LoadCall ℤ := do
  let phsize := elf.phnum * elf.phentsize
  onSpace (Act.require .panic (¬ KmallocPanics phsize))
  if env.phGranted = true then
    let ret := loadIcodeRead env.rd phsize elf.phoff
    if ret ≠ 0 then
      return ret
    else
      loadProgram env fuel pgdir elf kargv phsize (bufferOf env elf phsize)
  else
    onSpace (onPhys starve)
    return 0

end UCore.Exec
