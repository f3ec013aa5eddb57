import UCore.Fs.Node

/-!
# Fs/File — descriptors

`kern/fs/file.c`, `kern/fs/vfs/vfsfile.c`, and what `load_icode_read` of `kern/process/proc.c` calls.
A descriptor is an entry of the `fd_array` of a `files_struct`; its position is its own, the size
belongs to the inode.

    FD_NONE ──fd_array_alloc──▸ FD_INIT ──fd_array_open──▸ FD_OPENED ──fd_array_close──▸ FD_NONE
-/

namespace UCore.Fs

open Sfs

/-- `E_ISDIR`. -/
abbrev E_ISDIR : ℤ := 17

/-- `E_MAX_OPEN`. -/
abbrev E_MAX_OPEN : ℤ := 22

/-- `E_EXISTS`. -/
abbrev E_EXISTS : ℤ := 23

/-- `FILES_STRUCT_NENTRY`: the files that fit in a page beside a `files_struct`. -/
abbrev FILES_STRUCT_NENTRY : ℕ := 72

/-- `NO_FD`. -/
abbrev NO_FD : ℤ := -0x9527

/-- `O_CREAT`. -/
abbrev O_CREAT : ℕ := 0x4

/-- `O_EXCL`. -/
abbrev O_EXCL : ℕ := 0x8

/-- `O_TRUNC`. -/
abbrev O_TRUNC : ℕ := 0x10

/-- `O_APPEND`. -/
abbrev O_APPEND : ℕ := 0x20

/-- `O_ACCMODE`. -/
abbrev O_ACCMODE : ℕ := 3

/-- Is a flag set? -/
def has (flags flag : ℕ) : Bool := flags &&& flag != 0

/-! ## `vfsfile.c` -/

/-- `vop_open`: `sfs_opendir` or `sfs_openfile`. -/
def vopOpen (i flags : ℕ) : Call Unit := do
  vopAny i
  if ((← get).vol.inode i).type = .dir then
    if flags &&& O_ACCMODE ≠ 0 ∨ has flags O_APPEND = true then
      throw (-E_ISDIR)

/-- The first half of `vfs_open`: the inode of the path, with a reference to it.  A directory does not
provide `vop_create`. -/
def vfsFind (dir : ℕ) (path : List UInt8) (flags : ℕ) : Call ℕ := do
  match ← Act.attempt (vfsLookup dir path) with
  | .ok i =>
    if has flags O_EXCL = true ∧ has flags O_CREAT = true then
      throw (-E_EXISTS)
    else
      return i
  | .error ret =>
    if ret = -E_NOENT ∧ has flags O_CREAT = true then
      let _ ← inodeRefInc dir
      Act.stop .vopMissing
    else
      throw ret

/-- `vfs_open`. -/
def vfsOpen (dir : ℕ) (path : List UInt8) (flags : ℕ) : Call ℕ := do
  if flags &&& O_ACCMODE = 3 then
    throw (-E_INVAL)
  else if has flags O_TRUNC = true ∧ flags &&& O_ACCMODE = 0 then
    throw (-E_INVAL)
  else
    let i ← vfsFind dir path flags
    Act.onError (vopOpen i flags) (inodeRefDec i)
    inodeOpenInc i
    if has flags O_TRUNC = true ∨ has flags O_CREAT = true then
      Act.onError (vopTruncate i 0) do
        inodeOpenDec i
        inodeRefDec i
    return i

/-- `vfs_close`. -/
def vfsClose (i : ℕ) : Call Unit := do
  inodeOpenDec i
  inodeRefDec i

/-! ## The table of descriptors -/

/-- A descriptor. -/
def file (t fd : ℕ) : Call File := do
  return (← get).fdArray t fd

/-- A store to a descriptor. -/
def setFile (t fd : ℕ) (f : File → File) : Call Unit :=
  modify fun s =>
    let table := Function.update (s.fdArray t) fd (f (s.fdArray t fd))
    { s with fdArray := Function.update s.fdArray t table }

/-- `get_fd_array`, for the `files_struct` of the calling process. -/
def getFdArray (t : ℕ) : Call Unit := do
  Act.demand .filesCount (0 < (← get).filesCount t)

/-- `testfd`. -/
def testfd (fd : ℤ) : Bool := 0 ≤ fd && fd < FILES_STRUCT_NENTRY

/-- The end of `fd_array_alloc`, at `found`. -/
def fdArrayFound (t fd : ℕ) : Call ℕ := do
  Act.demand .fdAlloc ((← file t fd).openCount = 0)
  setFile t fd fun f => { f with status := .init, node := none }
  return fd

/-- `fd_array_alloc`. -/
def fdArrayAlloc (t : ℕ) (fd : ℤ) : Call ℕ := do
  getFdArray t
  let table := (← get).fdArray t
  if fd = NO_FD then
    match (List.range FILES_STRUCT_NENTRY).find? fun k => (table k).status = .none with
    | some k => fdArrayFound t k
    | none => throw (-E_MAX_OPEN)
  else if testfd fd = true then
    if (table fd.toNat).status = .none then
      fdArrayFound t fd.toNat
    else
      throw (-E_BUSY)
  else
    throw (-E_INVAL)

/-- `fd_array_free`. -/
def fdArrayFree (t fd : ℕ) : Call Unit := do
  let f ← file t fd
  Act.demand .fdFree ((f.status = .init ∨ f.status = .closed) ∧ f.openCount = 0)
  if f.status = .closed then
    match f.node with
    | some i => vfsClose i
    | none => Act.stop .openDec
  setFile t fd fun f => { f with status := .none }

/-- `fd_array_acquire`. -/
def fdArrayAcquire (t fd : ℕ) : Call Unit := do
  Act.demand .fdAcquire ((← file t fd).status = .opened)
  setFile t fd fun f => { f with openCount := f.openCount + 1 }

/-- `fd_array_release`. -/
def fdArrayRelease (t fd : ℕ) : Call Unit := do
  let f ← file t fd
  Act.demand .fdRelease ((f.status = .opened ∨ f.status = .closed) ∧ 0 < f.openCount)
  setFile t fd fun f => { f with openCount := f.openCount - 1 }
  if (← file t fd).openCount = 0 then
    fdArrayFree t fd

/-- `fd_array_open`. -/
def fdArrayOpen (t fd : ℕ) : Call Unit := do
  let f ← file t fd
  Act.demand .fdOpen (f.status = .init ∧ f.node ≠ none)
  setFile t fd fun f => { f with status := .opened, openCount := f.openCount + 1 }

/-- `fd_array_close`. -/
def fdArrayClose (t fd : ℕ) : Call Unit := do
  let f ← file t fd
  Act.demand .fdClose (f.status = .opened ∧ 0 < f.openCount)
  setFile t fd fun f => { f with status := .closed, openCount := f.openCount - 1 }
  if (← file t fd).openCount = 0 then
    fdArrayFree t fd

/-- `fd_array_dup`. -/
def fdArrayDup (t fdTo fdFrom : ℕ) : Call Unit := do
  let f ← file t fdFrom
  Act.demand .fdDup ((← file t fdTo).status = .init ∧ f.status = .opened)
  match f.node with
  | some i => do
    let _ ← inodeRefInc i
    inodeOpenInc i
    setFile t fdTo fun f' =>
      { f' with pos := f.pos, readable := f.readable, writable := f.writable, node := some i }
    fdArrayOpen t fdTo
  | none => Act.stop .fdOpen

/-- `fd2file`: the descriptor and its inode, which an open one has. -/
def fd2file (t : ℕ) (fd : ℤ) : Call (ℕ × ℕ) := do
  if testfd fd = true then
    getFdArray t
    let f ← file t fd.toNat
    if f.status = .opened then
      match f.node with
      | some i => return (fd.toNat, i)
      | none => Act.stop .vopMissing
    else
      throw (-E_INVAL)
  else
    throw (-E_INVAL)

/-! ## `file.c` -/

/-- `file_open`; a path is the directory it starts at and what is left of it. -/
def fileOpen (t dir : ℕ) (path : List UInt8) (flags : ℕ) : Call ℕ := do
  if flags &&& O_ACCMODE = 3 then
    throw (-E_INVAL)
  else
    let fd ← fdArrayAlloc t NO_FD
    let i ← Act.onError (vfsOpen dir path flags) (fdArrayFree t fd)
    setFile t fd fun f => { f with pos := 0 }
    if has flags O_APPEND = true then
      vopAny i
      let size := ((← get).vol.inode i).size
      setFile t fd fun f => { f with pos := size }
    setFile t fd fun f => { f with
      node := some i
      readable := flags &&& O_ACCMODE ≠ 1
      writable := flags &&& O_ACCMODE ≠ 0 }
    fdArrayOpen t fd
    return fd

/-- `file_close`. -/
def fileClose (t : ℕ) (fd : ℤ) : Call Unit := do
  let (fd, _) ← fd2file t fd
  fdArrayClose t fd

/-- `vop_read` and `vop_write`, through `sfs_io`. -/
def vopIo (i : ℕ) (buf : ℕ → UInt8) (pos : ℤ) (len : ℕ) (write : Bool) : Call Progress := do
  vopFile i
  let p ← onVol (ExceptT.lift (sfsIoNolock i buf pos len write))
  Act.demand .iobufSkip (p.alen ≤ len)
  return p

/-- `file_read` and `file_write`: the code returned, `*copied_store` and the buffer. -/
def fileIo (t : ℕ) (fd : ℤ) (buf : ℕ → UInt8) (len : ℕ) (write : Bool) : Call Progress := do
  let (fd, i) ← fd2file t fd
  let f ← file t fd
  if (if write then f.writable else f.readable) = true then
    fdArrayAcquire t fd
    let p ← vopIo i buf f.pos len write
    if (← file t fd).status = .opened then
      setFile t fd fun f => { f with pos := f.pos + p.alen }
    fdArrayRelease t fd
    return p
  else
    throw (-E_INVAL)

/-- `file_read`. -/
def fileRead (t : ℕ) (fd : ℤ) (len : ℕ) : Call Progress := fileIo t fd (fun _ => 0) len false

/-- `file_write`. -/
def fileWrite (t : ℕ) (fd : ℤ) (buf : ℕ → UInt8) (len : ℕ) : Call Progress := fileIo t fd buf len true

/-- `vop_tryseek`. -/
def vopTryseek (i : ℕ) (pos : ℤ) : Call Unit := do
  vopFile i
  if pos < 0 ∨ pos ≥ SFS_MAX_FILE_SIZE then
    throw (-E_INVAL)
  else if pos > ((← get).vol.inode i).size then
    vopTruncate i pos

/-- The position that a seek asks for. -/
def seekPos (f : File) (size : ℕ) (pos : ℤ) (whence : ℕ) : Option ℤ :=
  match whence with
  | 0 => some pos
  | 1 => some (toS64 (pos + f.pos))
  | 2 => some (toS64 (pos + size))
  | _ => none

/-- `file_seek`. -/
def fileSeek (t : ℕ) (fd : ℤ) (pos : ℤ) (whence : ℕ) : Call Unit := do
  let (fd, i) ← fd2file t fd
  fdArrayAcquire t fd
  Act.andThen (do
      if whence = 2 then vopAny i
      match seekPos (← file t fd) ((← get).vol.inode i).size pos whence with
      | some pos => do
        vopTryseek i pos
        setFile t fd fun f => { f with pos := pos }
      | none => throw (-E_INVAL))
    (fdArrayRelease t fd)

/-- `file_fstat`: the size, the blocks and the links. -/
def fileFstat (t : ℕ) (fd : ℤ) : Call (ℕ × ℕ × ℕ) := do
  let (fd, i) ← fd2file t fd
  fdArrayAcquire t fd
  Act.andThen (do
      vopAny i
      let din := (← get).vol.inode i
      return (din.size, din.blocks, din.nlinks))
    (fdArrayRelease t fd)

/-- `file_dup`. -/
def fileDup (t : ℕ) (fd1 fd2 : ℤ) : Call ℕ := do
  let (fd1, _) ← fd2file t fd1
  let fd2 ← fdArrayAlloc t fd2
  fdArrayDup t fd2 fd1
  return fd2

/-! ## Reading for `load_icode` -/

/-- `IOBUF_SIZE`. -/
abbrev IOBUF_SIZE : ℕ := 4096

/-- The loop of `sysfile_read`, with `copied` bytes done; `stored` says whether each `copy_to_user` in
turn succeeds.  It returns the code and the bytes copied. -/
def sysfileReadLoop (t : ℕ) (fd : ℤ) (stored : ℕ → Bool) : ℕ → ℕ → ℕ → Call (ℤ × ℕ)
  | 0, _, copied => return (0, copied)
  | fuel + 1, len, copied => do
    if len = 0 then
      return (0, copied)
    else
      let (ret, alen) ← do
        match ← Act.attempt (fileRead t fd (min IOBUF_SIZE len)) with
        | .ok p => pure (p.ret, p.alen)
        | .error e => pure (e, 0)
      let done := alen ≠ 0 && stored fuel
      let copied := if done then copied + alen else copied
      let ret := if alen ≠ 0 ∧ done = false ∧ ret = 0 then -E_INVAL else ret
      if ret ≠ 0 ∨ alen = 0 then
        return (ret, copied)
      else
        sysfileReadLoop t fd stored fuel (len - alen) copied

/-- `sysfile_read`. -/
def sysfileRead (t : ℕ) (fd : ℤ) (stored : ℕ → Bool) (len : ℕ) : Call ℤ := do
  if len = 0 then
    return 0
  else
    let (fd', _) ← fd2file t fd
    if (← file t fd').readable = true then
      kmalloc
      let (ret, copied) ← sysfileReadLoop t fd stored len len 0
      return if copied ≠ 0 then toS32 copied else ret
    else
      throw (-E_INVAL)

/-- `load_icode_read`. -/
def loadIcodeRead (t : ℕ) (fd : ℤ) (stored : ℕ → Bool) (len : ℕ) (offset : ℤ) : Call Unit := do
  fileSeek t fd offset 0
  let ret ← sysfileRead t fd stored len
  if toU64 ret ≠ len then
    throw (if ret < 0 then ret else -1)

end UCore.Fs
