import UCore.Fs.File

/-!
# Fs/Share — tables of descriptors shared by processes

`kern/fs/file.c`, `kern/fs/fs.c`, and `copy_files` and `put_files` of `kern/process/proc.c`, cut where
a process may be switched: in a `vop_*` operation.  A process is at a `Pc`, and what it runs from there
to the next one is a *section*; sections of all processes alternate in any order.

    file_open    ──▸ lookup ──▸ opened ──▸ ·          vop_open_inc at the first arrow after lookup
    file_read    ──▸ use ──▸ ·
    file_close   ──▸ close ──▸ reclaim ──▸ ·          in vfs_close, entered at open_count = 0

What the volume does in an operation is left to the world, with the references to inodes that the rest
of the kernel holds.
-/

namespace UCore.Fs

open Sfs

/-! ## The calls, up to a switch -/

/-- `inode_open_dec`, up to `vop_close`. -/
def dropOpen (i : ℕ) : Call Unit := do
  Act.demand .openDec (0 < ((← get).node i).openCount)
  setNode i fun node => { node with openCount := node.openCount - 1 }

/-- `inode_ref_dec`, up to `vop_reclaim`. -/
def dropRef (i : ℕ) : Call Unit := do
  Act.demand .refDec (0 < ((← get).node i).refCount)
  setNode i fun node => { node with refCount := node.refCount - 1 }

/-- `fd_array_free`: it ends, or is in `vfs_close` of an inode, after its `vop_open_dec`. -/
def freeHead (t fd : ℕ) : Call (Option ℕ) := do
  let f ← file t fd
  Act.demand .fdFree ((f.status = .init ∨ f.status = .closed) ∧ f.openCount = 0)
  if f.status = .closed then
    match f.node with
    | some i => do
      dropOpen i
      return some i
    | none => Act.stop .openDec
  else
    setFile t fd fun f => { f with status := .none }
    return none

/-- `fd_array_release`, likewise. -/
def releaseHead (t fd : ℕ) : Call (Option ℕ) := do
  let f ← file t fd
  Act.demand .fdRelease ((f.status = .opened ∨ f.status = .closed) ∧ 0 < f.openCount)
  setFile t fd fun f => { f with openCount := f.openCount - 1 }
  if (← file t fd).openCount = 0 then
    freeHead t fd
  else
    return none

/-- `fd_array_close`, likewise. -/
def closeHead (t fd : ℕ) : Call (Option ℕ) := do
  let f ← file t fd
  Act.demand .fdClose (f.status = .opened ∧ 0 < f.openCount)
  setFile t fd fun f => { f with status := .closed, openCount := f.openCount - 1 }
  if (← file t fd).openCount = 0 then
    freeHead t fd
  else
    return none

/-- `fd_array_dup`, from one table to another. -/
def dupEntry (tTo fdTo tFrom fdFrom : ℕ) : Call Unit := do
  let f ← file tFrom fdFrom
  Act.demand .fdDup ((← file tTo fdTo).status = .init ∧ f.status = .opened)
  match f.node with
  | some i => do
    let _ ← inodeRefInc i
    inodeOpenInc i
    setFile tTo fdTo fun f' =>
      { f' with pos := f.pos, readable := f.readable, writable := f.writable, node := some i }
    fdArrayOpen tTo fdTo
  | none => Act.stop .fdOpen

/-- Within one table, it is `fd_array_dup` of a lone caller. -/
theorem fdArrayDup_eq (t fdTo fdFrom : ℕ) : fdArrayDup t fdTo fdFrom = dupEntry t fdTo t fdFrom := rfl

/-! ## Processes -/

/-- The operations that hold a descriptor while they block. -/
inductive UseOp where
  | read
  | write
  | seek
  | fstat
  deriving DecidableEq, Repr

/-- What a process goes on with when `fd_array_close` is done: nothing, the loop of `files_closeall`
or that of `files_destroy`. -/
inductive Task where
  | none
  | closeall
  | destroy
  deriving DecidableEq, Repr

/-- Where a process is. -/
inductive Pc where
  | idle
  /-- In `vfs_open`, before its `vop_open_inc`. -/
  | lookup (t fd flags : ℕ)
  /-- In `vfs_open`, after it, or in the `vop_fstat` of `file_open`. -/
  | opened (t fd i flags : ℕ)
  /-- In a `file_open` that fails, after its `vop_open_dec`… -/
  | undo (t fd i : ℕ)
  /-- …and after its `vop_ref_dec`. -/
  | undone (t fd : ℕ)
  /-- In an operation on the inode of a descriptor. -/
  | use (t fd : ℕ) (op : UseOp)
  /-- In the `vfs_close` of a descriptor, after its `vop_open_dec`… -/
  | close (t fd i : ℕ) (task : Task)
  /-- …and after its `vop_ref_dec`. -/
  | reclaim (t fd : ℕ) (task : Task)
  /-- In the loop of `files_closeall`. -/
  | closeall (t fd : ℕ)
  /-- In the loop of `files_destroy`. -/
  | destroy (t fd : ℕ)
  deriving DecidableEq, Repr

/-- The assertions: those of the calls above, and those of `fs.c`. -/
inductive Failure where
  | call (a : Assertion)
  /-- `filesp != NULL && files_count(filesp) > 0` in `files_closeall`. -/
  | closeall
  /-- `files_count(to) == 0 && files_count(from) > 0` in `dup_files`. -/
  | dupFiles
  /-- `files_count(filesp) == 0` in `files_destroy`. -/
  | destroyCount
  /-- `file->status == FD_NONE` in `files_destroy`. -/
  | destroyNone
  deriving DecidableEq, Repr

/-- The file system with its processes.  `other` are the references to inodes held elsewhere, `alive`
the tables in memory; `opens` and `closes` count, for each entry, the calls of `fd_array_open` and of
`vfs_close` on it. -/
structure Shared where
  fs : FileSys
  pwd : ℕ → Option ℕ
  alive : ℕ → Bool
  filesp : ℕ → Option ℕ
  pc : ℕ → Pc
  other : ℕ → Option ℕ
  opens : ℕ → ℕ → ℕ
  closes : ℕ → ℕ → ℕ

/-- A section of a process. -/
abbrev Section (α : Type) := Act Shared Failure α

namespace Share

/-- A call on the file system. -/
def onFiles {α : Type} (m : Call α) : Section (Except ℤ α) := fun s =>
  match m.run s.fs with
  | .ok (r, fs) => .ok (r, { s with fs := fs })
  | .error a => .error (.call a)

/-- A call that has no error to report. -/
def doFiles (m : Call Unit) : Section Unit := do
  let _ ← onFiles m

/-- The process `p` is now at `c`. -/
def goto (p : ℕ) (c : Pc) : Section Unit :=
  modify fun s => { s with pc := Function.update s.pc p c }

/-- A value stored for the entry `fd` of the table `t`. -/
def setEntry {α : Type} (f : ℕ → ℕ → α) (t fd : ℕ) (a : α) : ℕ → ℕ → α :=
  Function.update f t (Function.update (f t) fd a)

/-- An entry has been through `fd_array_open`. -/
def countOpen (t fd : ℕ) : Section Unit :=
  modify fun s => { s with opens := setEntry s.opens t fd (s.opens t fd + 1) }

/-- The `vfs_close` of an entry has begun. -/
def countClose (t fd : ℕ) : Section Unit :=
  modify fun s => { s with closes := setEntry s.closes t fd (s.closes t fd + 1) }

/-- `files_count_inc` and `files_count_dec`. -/
def setFilesCount (t n : ℕ) : Section Unit :=
  modify fun s => { s with fs := { s.fs with
    filesCount := Function.update s.fs.filesCount t n } }

/-! ## The sections -/

/-- What follows `fd_array_close` of an entry. -/
def proceed (p t fd : ℕ) : Task → Section Unit
  | .none => goto p .idle
  | .closeall => goto p (.closeall t (fd + 1))
  | .destroy => do
    Act.require .destroyNone (((← get).fs.fdArray t fd).status = .none)
    goto p (.destroy t (fd + 1))

/-- The section goes on, or the process is in `vfs_close`. -/
def afterHead (p t fd : ℕ) (task : Task) : Option ℕ → Section Unit
  | some i => do
    countClose t fd
    goto p (.close t fd i task)
  | none => proceed p t fd task

/-- `file_open`, up to the lookup of `vfs_open`. -/
def startOpen (p t flags : ℕ) : Section Unit := do
  let r ← onFiles (if flags &&& O_ACCMODE = 3 then throw (-E_INVAL) else fdArrayAlloc t NO_FD)
  match r with
  | .ok fd => goto p (.lookup t fd flags)
  | .error _ => pure ()

/-- `file_open`, when `vfs_open` has failed. -/
def failOpen (p t fd : ℕ) : Section Unit := do
  let _ ← onFiles (freeHead t fd)
  goto p .idle

/-- `vfs_open` has found the inode that the reference `k` is to, and opens it. -/
def incOpen (p t fd flags i k : ℕ) : Section Unit := do
  doFiles (inodeOpenInc i)
  modify fun s => { s with other := Function.update s.other k none }
  goto p (.opened t fd i flags)

/-- `file_open`, when `vop_truncate` or `vop_fstat` has failed. -/
def undoOpen (p t fd i : ℕ) : Section Unit := do
  doFiles (dropOpen i)
  goto p (.undo t fd i)

/-- …and after `vop_close`. -/
def undoRef (p t fd i : ℕ) : Section Unit := do
  doFiles (dropRef i)
  goto p (.undone t fd)

/-- The end of `file_open`. -/
def recordOpen (p t fd i flags : ℕ) : Section Unit := do
  doFiles do
    setFile t fd fun f => { f with pos := 0 }
    if has flags O_APPEND = true then
      let size := ((← get).vol.inode i).size
      setFile t fd fun f => { f with pos := size }
    setFile t fd fun f => { f with
      node := some i
      readable := flags &&& O_ACCMODE ≠ 1
      writable := flags &&& O_ACCMODE ≠ 0 }
    fdArrayOpen t fd
  countOpen t fd
  goto p .idle

/-- `file_close`. -/
def startClose (p t : ℕ) (fd : ℤ) : Section Unit := do
  let r ← onFiles do
    let (fd, _) ← fd2file t fd
    let r ← closeHead t fd
    return (fd, r)
  match r with
  | .ok (fd, r) => afterHead p t fd .none r
  | .error _ => pure ()

/-- `vfs_close`, after `vop_close`. -/
def closeRef (p t fd i : ℕ) (task : Task) : Section Unit := do
  doFiles (dropRef i)
  goto p (.reclaim t fd task)

/-- The end of `fd_array_free`, after `vfs_close`. -/
def closeDone (p t fd : ℕ) (task : Task) : Section Unit := do
  doFiles (setFile t fd fun f => { f with status := .none })
  proceed p t fd task

/-- What an operation asks of a descriptor. -/
def allowed (op : UseOp) (f : File) : Bool :=
  match op with
  | .read => f.readable
  | .write => f.writable
  | .seek | .fstat => true

/-- `file_read`, `file_write`, `file_seek` and `file_fstat`, up to the operation on the inode. -/
def startUse (p t : ℕ) (fd : ℤ) (op : UseOp) : Section Unit := do
  let r ← onFiles do
    let (fd, _) ← fd2file t fd
    if allowed op (← file t fd) = true then
      fdArrayAcquire t fd
      return fd
    else
      throw (-E_INVAL)
  match r with
  | .ok fd => goto p (.use t fd op)
  | .error _ => pure ()

/-- What an operation does to the position: `n` is what it copied, or where a seek that succeeds goes
to. -/
def settleUse (t fd : ℕ) (op : UseOp) (n : Option ℤ) : Call Unit := do
  let f ← file t fd
  match op, n with
  | .seek, some n => setFile t fd fun f => { f with pos := n }
  | .read, some n | .write, some n =>
    if f.status = .opened then
      setFile t fd fun f => { f with pos := f.pos + n }
  | _, _ => pure ()

/-- …and after it. -/
def endUse (p t fd : ℕ) (op : UseOp) (n : Option ℤ) : Section Unit := do
  let r ← onFiles do
    settleUse t fd op n
    releaseHead t fd
  match r with
  | .ok r => afterHead p t fd .none r
  | .error _ => pure ()

/-- `file_dup`. -/
def startDup (t : ℕ) (fd1 fd2 : ℤ) : Section Unit := do
  match ← onFiles (fileDup t fd1 fd2) with
  | .ok fd => countOpen t fd
  | .error _ => pure ()

/-- `files_closeall`, up to its loop. -/
def startCloseall (p t : ℕ) : Section Unit := do
  Act.require .closeall (0 < (← get).fs.filesCount t)
  goto p (.closeall t 2)

/-- A turn of a loop over the entries of a table. -/
def turn (p t fd : ℕ) (task : Task) : Section Unit := do
  if ((← get).fs.fdArray t fd).status = .opened then
    match ← onFiles (closeHead t fd) with
    | .ok r => afterHead p t fd task r
    | .error _ => pure ()
  else
    proceed p t fd task

/-- A turn of the loop of `files_closeall`, or its end. -/
def stepCloseall (p t fd : ℕ) : Section Unit :=
  if fd < FILES_STRUCT_NENTRY then turn p t fd .closeall else goto p .idle

/-- A turn of the loop of `files_destroy`, or its end. -/
def stepDestroy (p t fd : ℕ) : Section Unit :=
  if fd < FILES_STRUCT_NENTRY then turn p t fd .destroy
  else do
    modify fun s => { s with alive := Function.update s.alive t false }
    goto p .idle

/-- `files_create`, at the table `t`. -/
def filesCreate (t : ℕ) : Section Unit :=
  modify fun s => { s with
    pwd := Function.update s.pwd t none
    alive := Function.update s.alive t true
    fs := { s.fs with
      filesCount := Function.update s.fs.filesCount t 0
      fdArray := Function.update s.fs.fdArray t fun fd =>
        { s.fs.fdArray t fd with openCount := 0, status := .none } } }

/-- The loop of `dup_files`, over `count` entries from `fd` on. -/
def dupEntries (tTo tFrom : ℕ) : ℕ → ℕ → Section Unit
  | 0, _ => pure ()
  | count + 1, fd => do
    if ((← get).fs.fdArray tFrom fd).status = .opened then
      doFiles do
        setFile tTo fd fun f => { f with status := .init }
        dupEntry tTo fd tFrom fd
      countOpen tTo fd
    dupEntries tTo tFrom count (fd + 1)

/-- `dup_files`. -/
def dupFiles (tTo tFrom : ℕ) : Section Unit := do
  Act.require .dupFiles ((← get).fs.filesCount tTo = 0 ∧ 0 < (← get).fs.filesCount tFrom)
  let pwd := (← get).pwd tFrom
  modify fun s => { s with pwd := Function.update s.pwd tTo pwd }
  match pwd with
  | some i => doFiles do
    let _ ← inodeRefInc i
  | none => pure ()
  dupEntries tTo tFrom FILES_STRUCT_NENTRY 0

/-- The end of `copy_files`, for the new process `q`. -/
def joinFiles (q t : ℕ) : Section Unit := do
  setFilesCount t ((← get).fs.filesCount t + 1)
  modify fun s => { s with filesp := Function.update s.filesp q (some t) }

/-- `copy_files` without `CLONE_FS`, when `files_create` gets the table `t'`. -/
def copyFiles (q t t' : ℕ) : Section Unit := do
  filesCreate t'
  dupFiles t' t
  joinFiles q t'

/-- `proc_init`, which makes the table of the first process. -/
def firstFiles (q t : ℕ) : Section Unit := do
  filesCreate t
  joinFiles q t

/-- `put_files`, of the process `q` in the process `p`, up to the loop of `files_destroy`.  The table is
about to be given back, so its `pwd` is not read again. -/
def putFiles (p q t : ℕ) : Section Unit := do
  setFilesCount t ((← get).fs.filesCount t - 1)
  modify fun s => { s with filesp := Function.update s.filesp q none }
  if (← get).fs.filesCount t = 0 then
    Act.require .destroyCount ((← get).fs.filesCount t = 0)
    match (← get).pwd t with
    | some i => doFiles (dropRef i)
    | none => pure ()
    modify fun s => { s with pwd := Function.update s.pwd t none }
    goto p (.destroy t 0)

/-! ## The rest of the kernel -/

/-- A new reference `k` to an inode in memory. -/
def takeRef (i k : ℕ) : Section Unit := do
  doFiles do
    let _ ← inodeRefInc i
  modify fun s => { s with other := Function.update s.other k (some i) }

/-- `sfs_load_inode` of an inode that is not in memory: `inode_init`, and the first reference. -/
def loadInode (i k : ℕ) : Section Unit := do
  doFiles (setNode i fun _ => ⟨true, 1, 0, 1⟩)
  modify fun s => { s with other := Function.update s.other k (some i) }

/-- The reference `k` is given up. -/
def putRef (i k : ℕ) : Section Unit := do
  doFiles (dropRef i)
  modify fun s => { s with other := Function.update s.other k none }

/-- `vfs_set_curdir`: the table takes over the reference `k`, and leaves its own. -/
def setCurdir (t k : ℕ) : Section Unit :=
  modify fun s => { s with
    pwd := Function.update s.pwd t (s.other k)
    other := Function.update s.other k (s.pwd t) }

/-- What an operation on an inode does to the volume and to the inode cache. -/
def operate (vol : Volume) (granted : ℕ → Bool) (asked : ℕ) (cached : ℕ → Bool)
    (reclaimCount : ℕ → ℕ) : Section Unit :=
  modify fun s => { s with fs := { s.fs with
    vol := vol
    granted := granted
    asked := asked
    node := fun i => { s.fs.node i with cached := cached i, reclaimCount := reclaimCount i } } }

/-! ## Runs -/

/-- **The sections that can run next.** -/
inductive Next (s : Shared) : Section Unit → Prop
  | startOpen {p t : ℕ} (flags : ℕ) :
      s.pc p = .idle → s.filesp p = some t → Next s (startOpen p t flags)
  | failOpen {p t fd flags : ℕ} : s.pc p = .lookup t fd flags → Next s (failOpen p t fd)
  | incOpen {p t fd flags i k : ℕ} :
      s.pc p = .lookup t fd flags → s.other k = some i → Next s (incOpen p t fd flags i k)
  | undoOpen {p t fd i flags : ℕ} : s.pc p = .opened t fd i flags → Next s (undoOpen p t fd i)
  | recordOpen {p t fd i flags : ℕ} :
      s.pc p = .opened t fd i flags → Next s (recordOpen p t fd i flags)
  | undoRef {p t fd i : ℕ} : s.pc p = .undo t fd i → Next s (undoRef p t fd i)
  | undoFree {p t fd : ℕ} : s.pc p = .undone t fd → Next s (Share.failOpen p t fd)
  | startClose {p t : ℕ} (fd : ℤ) :
      s.pc p = .idle → s.filesp p = some t → Next s (startClose p t fd)
  | closeRef {p t fd i : ℕ} {task : Task} :
      s.pc p = .close t fd i task → Next s (closeRef p t fd i task)
  | closeDone {p t fd : ℕ} {task : Task} :
      s.pc p = .reclaim t fd task → Next s (closeDone p t fd task)
  | startUse {p t : ℕ} (fd : ℤ) (op : UseOp) :
      s.pc p = .idle → s.filesp p = some t → Next s (startUse p t fd op)
  | endUse {p t fd : ℕ} {op : UseOp} (n : Option ℤ) :
      s.pc p = .use t fd op → Next s (endUse p t fd op n)
  | startDup {p t : ℕ} (fd1 fd2 : ℤ) :
      s.pc p = .idle → s.filesp p = some t → Next s (startDup t fd1 fd2)
  | startCloseall {p t : ℕ} :
      s.pc p = .idle → s.filesp p = some t → Next s (startCloseall p t)
  | stepCloseall {p t fd : ℕ} : s.pc p = .closeall t fd → Next s (stepCloseall p t fd)
  | stepDestroy {p t fd : ℕ} : s.pc p = .destroy t fd → Next s (stepDestroy p t fd)
  /-- `copy_files` with `CLONE_FS`. -/
  | shareFiles {p q t : ℕ} :
      s.pc p = .idle → s.filesp p = some t → s.pc q = .idle → s.filesp q = none →
      Next s (joinFiles q t)
  | copyFiles {p q t t' : ℕ} :
      s.pc p = .idle → s.filesp p = some t → s.pc q = .idle → s.filesp q = none →
      s.alive t' = false → Next s (copyFiles q t t')
  | firstFiles {q t : ℕ} :
      s.pc q = .idle → s.filesp q = none → s.alive t = false → Next s (firstFiles q t)
  /-- In `do_exit`, and in a `do_fork` that fails, for the process that it leaves. -/
  | putFiles {p q t : ℕ} :
      s.pc p = .idle → s.pc q = .idle → s.filesp q = some t → Next s (putFiles p q t)
  | takeRef {i k : ℕ} : s.other k = none → Next s (takeRef i k)
  | loadInode {i k : ℕ} :
      s.other k = none → (s.fs.node i).refCount = 0 → Next s (loadInode i k)
  | putRef {i k : ℕ} : s.other k = some i → Next s (putRef i k)
  | setCurdir {p t : ℕ} (k : ℕ) :
      s.pc p = .idle → s.filesp p = some t → Next s (setCurdir t k)
  | operate (vol : Volume) (granted : ℕ → Bool) (asked : ℕ) (cached : ℕ → Bool)
      (reclaimCount : ℕ → ℕ) : Next s (operate vol granted asked cached reclaimCount)

/-- **Before the first process**: no table is in memory, and no inode is held. -/
structure Init (s : Shared) : Prop where
  entry : ∀ t fd, (s.fs.fdArray t fd).status = .none ∧ (s.fs.fdArray t fd).openCount = 0
  filesCount : ∀ t, s.fs.filesCount t = 0
  pwd : ∀ t, s.pwd t = none
  alive : ∀ t, s.alive t = false
  filesp : ∀ p, s.filesp p = none
  pc : ∀ p, s.pc p = .idle
  other : ∀ k, s.other k = none
  node : ∀ i, (s.fs.node i).refCount = 0 ∧ (s.fs.node i).openCount = 0
  counts : ∀ t fd, s.opens t fd = 0 ∧ s.closes t fd = 0

/-- **A run**: sections of any processes, in any order. -/
inductive Run : Shared → Prop
  | init {s : Shared} : Init s → Run s
  | step {s s' : Shared} {m : Section Unit} : Run s → Next s m → m s = .ok ((), s') → Run s'

end Share

end UCore.Fs
