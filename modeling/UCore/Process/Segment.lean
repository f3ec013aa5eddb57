import UCore.Mm.AddrSpace
import UCore.Mm.UserView

/-!
# Process/Segment — reading a program, and loading one of its segments

`libs/elf.h`, and the inner loops of `load_icode` in `kern/process/proc.c`.  A segment is loaded in
three pieces, each of which goes on where the one before has stopped:

    p_va ── pages of the file ──▸ p_va + p_filesz ── rest of the page ── pages of zeros ──▸ p_va + p_memsz

A program is read by `sysfile_seek` and `sysfile_read`, which may fail at any time.
-/

namespace UCore.Exec

open Vmm Paging

/-- `E_INVAL_ELF`. -/
abbrev E_INVAL_ELF : ℤ := 8

/-- `ELF_MAGIC`. -/
abbrev ELF_MAGIC : ℕ := 0x464C457F

/-- `ELF_PT_LOAD`. -/
abbrev ELF_PT_LOAD : ℕ := 1

/-- `ELF_PF_X`. -/
abbrev ELF_PF_X : ℕ := 1

/-- `ELF_PF_W`. -/
abbrev ELF_PF_W : ℕ := 2

/-- `ELF_PF_R`. -/
abbrev ELF_PF_R : ℕ := 4

/-- `sizeof(struct proghdr)`. -/
abbrev sizeofProghdr : ℕ := 56

/-- The fields of an `elfhdr` that are used. -/
structure Elfhdr where
  magic : ℕ
  entry : ℕ
  phoff : ℕ
  phentsize : ℕ
  phnum : ℕ
  deriving DecidableEq, Repr

/-- The fields of a `proghdr` that are used. -/
structure Proghdr where
  type : ℕ
  flags : ℕ
  offset : ℕ
  va : ℕ
  filesz : ℕ
  memsz : ℕ
  deriving DecidableEq, Repr

/-- The `elfhdr` at the start of some bytes. -/
def elfhdr (m : ℕ → UInt8) : Elfhdr where
  magic := Bytes.word m 4 0
  entry := Bytes.word m 8 24
  phoff := Bytes.word m 8 32
  phentsize := Bytes.word m 2 54
  phnum := Bytes.word m 2 56

/-- The `proghdr` at an offset. -/
def proghdr (m : ℕ → UInt8) (o : ℕ) : Proghdr where
  type := Bytes.word m 4 o
  flags := Bytes.word m 4 (o + 4)
  offset := Bytes.word m 8 (o + 8)
  va := Bytes.word m 8 (o + 16)
  filesz := Bytes.word m 8 (o + 32)
  memsz := Bytes.word m 8 (o + 40)

/-- An open file: what `sysfile_seek` returns for a position, what `sysfile_read` returns there for a
length, and the bytes that it reads. -/
structure Reader where
  seek : ℕ → ℤ
  read : ℕ → ℕ → ℤ
  data : ℕ → ℕ → ℕ → UInt8

/-- `load_icode_read`.  When it returns `0` the bytes `data offset len` are in the buffer. -/
def loadIcodeRead (rd : Reader) (len offset : ℕ) : ℤ :=
  let ret := rd.seek offset
  if ret ≠ 0 then
    ret
  else
    let ret := rd.read offset len
    if toU64 ret ≠ len then
      if ret < 0 then ret else -1
    else
      0

/-- A subtraction of 64-bit values. -/
def sub64 (a b : ℕ) : ℕ := u64 (a + 2 ^ 64 - b)

/-- `vm_flags` of a segment. -/
def vmFlagsOf (flags : ℕ) : ℕ :=
  (if flags &&& ELF_PF_X ≠ 0 then VM_EXEC else 0) |||
    (if flags &&& ELF_PF_W ≠ 0 then VM_WRITE else 0) |||
    (if flags &&& ELF_PF_R ≠ 0 then VM_READ else 0)

/-- `perm` of a segment. -/
def permOf (vmFlags : ℕ) : ℕ :=
  PTE_U ||| PTE_V ||| (if vmFlags &&& VM_READ ≠ 0 then PTE_R else 0) |||
    (if vmFlags &&& VM_WRITE ≠ 0 then PTE_W ||| PTE_R else 0) |||
    (if vmFlags &&& VM_EXEC ≠ 0 then PTE_X else 0)

/-- The variables of the loops: the address reached, the page it is in, and the page last mapped. -/
structure Cursor where
  start : ℕ
  la : ℕ
  page : ℕ

/-- `size`: what is left of the page `la`, or of the segment. -/
def sizeIn (start la stop : ℕ) : ℕ :=
  let size := sub64 PGSIZE (sub64 start la)
  if stop < u64 (la + PGSIZE) then sub64 size (sub64 (u64 (la + PGSIZE)) stop) else size

/-- One turn of the loop over the pages of a file, or over the pages of zeros: they differ in what
`fill` does with a new page, from an offset on, for a size, at an address.  An error leaves the
function with the code given. -/
def pageTurn (pmm : Pmm) (pgdir perm stop : ℕ) (fill : ℕ → ℕ → ℕ → ℕ → Paging.Call ℤ) (c : Cursor) :
    Paging.Call (Cursor ⊕ Except ℤ Cursor) := do
  if c.start < stop then
    match ← pgdirAllocPage pmm pgdir c.la perm with
    | none => return .inr (.error 0)
    | some page => do
      let size := sizeIn c.start c.la stop
      let ret ← fill page (sub64 c.start c.la) size c.start
      if ret ≠ 0 then
        return .inr (.error ret)
      else
        return .inl ⟨u64 (c.start + size), u64 (c.la + PGSIZE), page⟩
  else
    return .inr (.ok c)

/-- The file's part of a page. -/
def fillFile (rd : Reader) (ph : Proghdr) (page off size start : ℕ) : Paging.Call ℤ := do
  let offset := u64 (ph.offset + sub64 start ph.va)
  let ret := loadIcodeRead rd size offset
  if ret = 0 then
    fillPage page off size (rd.data offset size)
  return ret

/-- The zeros of a page. -/
def fillZero (page off size _start : ℕ) : Paging.Call ℤ := do
  fillPage page off size fun _ => 0
  return 0

/-- The zeros of the page that the file ends in. -/
def zeroRest (c : Cursor) (stop : ℕ) : Paging.Call Cursor := do
  let off := sub64 c.start (sub64 c.la PGSIZE)
  let size := sub64 PGSIZE off
  let size := if stop < c.la then sub64 size (sub64 c.la stop) else size
  fillPage c.page off size fun _ => 0
  return { c with start := u64 (c.start + size) }

/-- The loop over the pages of zeros. -/
def loadZeros (pmm : Pmm) (fuel pgdir perm stop : ℕ) (c : Cursor) :
    Paging.Call (Except ℤ Unit) := do
  match ← Act.loop .spin (pageTurn pmm pgdir perm stop fillZero) fuel c with
  | .error ret => return .error ret
  | .ok _ => return .ok ()

/-- The pages of a segment. -/
def loadPages (pmm : Pmm) (rd : Reader) (fuel pgdir perm : ℕ) (ph : Proghdr) :
    Paging.Call (Except ℤ Unit) := do
  match ← Act.loop .spin (pageTurn pmm pgdir perm (u64 (ph.va + ph.filesz)) (fillFile rd ph)) fuel
    ⟨ph.va, roundDown ph.va PGSIZE, 0⟩ with
  | .error ret => return .error ret
  | .ok c => do
    let stop := u64 (ph.va + ph.memsz)
    if c.start < c.la then
      if c.start = stop then
        return .ok ()
      else
        loadZeros pmm fuel pgdir perm stop (← zeroRest c stop)
    else
      loadZeros pmm fuel pgdir perm stop c

/-- What `load_icode` does about a segment: its area, and its pages.  `granted` says what the `kmalloc`
of `vma_create` comes to. -/
def loadSegment (pmm : Pmm) (rd : Reader) (fuel pgdir : ℕ) (granted : Bool) (ph : Proghdr) :
    SpaceCall (Except ℤ Unit) := do
  let vmFlags := vmFlagsOf ph.flags
  let ret ← onMm (mmMap ph.va ph.memsz vmFlags granted)
  if ret ≠ 0 then
    return .error ret
  else
    onPhys (loadPages pmm rd fuel pgdir (permOf vmFlags) ph)

end UCore.Exec
