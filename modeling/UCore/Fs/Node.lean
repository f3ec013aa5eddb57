import UCore.Sfs.Dir

/-!
# Fs/Node — inodes in memory

`kern/fs/vfs/inode.c`, and the inode cache of `kern/fs/sfs/sfs_inode.c`.  An inode is named by its
number; `cached` says that it is linked in the hash list.

    sfs_load_inode ──▸ cached, ref_count = 1 ── … ──▸ ref_count = 0 ──▸ sfs_reclaim
-/

namespace UCore.Fs

open Sfs

/-- `E_BUSY`. -/
abbrev E_BUSY : ℤ := 15

/-- `E_NOTDIR`. -/
abbrev E_NOTDIR : ℤ := 18

/-- `MAX_INODE_COUNT`. -/
abbrev MAX_INODE_COUNT : ℕ := 0x10000

/-- The counts of an inode in memory. -/
structure Node where
  cached : Bool
  refCount : ℕ
  openCount : ℕ
  reclaimCount : ℕ
  deriving DecidableEq, Repr

/-- The status of a descriptor. -/
inductive FdStatus where
  | none
  | init
  | opened
  | closed
  deriving DecidableEq, Repr

/-- `struct file`; `node` is an inode of the volume, `none` for `NULL`. -/
structure File where
  status : FdStatus
  readable : Bool
  writable : Bool
  pos : ℤ
  node : Option ℕ
  openCount : ℕ
  deriving DecidableEq, Repr

/-- The file system above one volume: its inodes in memory, and the descriptors of every
`files_struct`.  `granted` says what each `kmalloc` in turn comes to. -/
structure FileSys where
  vol : Volume
  node : ℕ → Node
  granted : ℕ → Bool
  asked : ℕ
  filesCount : ℕ → ℕ
  fdArray : ℕ → ℕ → File

/-- A call: it returns, returns an error code, or fails an assertion. -/
abbrev Call (α : Type) := Act.Fallible FileSys Assertion ℤ α

/-- A call on the volume. -/
def onVol {α : Type} (m : Sfs.Call α) : Call α :=
  Act.zoome (fun s : FileSys => s.vol) (fun v s => { s with vol := v }) m

/-- A store to the counts of an inode. -/
def setNode (i : ℕ) (f : Node → Node) : Call Unit :=
  modify fun s => { s with node := Function.update s.node i (f (s.node i)) }

/-- `kmalloc`, for a block that is given back before the call is over or belongs to an inode. -/
def kmalloc : Call Unit := do
  let s ← get
  modify fun s => { s with asked := s.asked + 1 }
  if s.granted s.asked then pure () else throw (-E_NO_MEM)

/-! ## `inode.c` -/

/-- `inode_check`. -/
def inodeCheck (i : ℕ) : Call Unit := do
  let node := (← get).node i
  Act.demand .inodeCheck (node.openCount ≤ node.refCount ∧
    node.refCount < MAX_INODE_COUNT ∧ node.openCount < MAX_INODE_COUNT)

/-- `__vop_op`, for an operation that the inodes of some types provide. -/
def vopOp (i : ℕ) (provided : FileType → Bool) : Call Unit := do
  Act.demand .vopMissing (provided ((← get).vol.inode i).type = true)
  inodeCheck i

/-- An operation of every inode. -/
def vopAny (i : ℕ) : Call Unit := vopOp i fun _ => true

/-- An operation of `sfs_node_fileops` alone. -/
def vopFile (i : ℕ) : Call Unit := vopOp i (· == .file)

/-- An operation of `sfs_node_dirops` alone. -/
def vopDir (i : ℕ) : Call Unit := vopOp i (· == .dir)

/-- `inode_ref_inc`. -/
def inodeRefInc (i : ℕ) : Call ℕ := do
  setNode i fun node => { node with refCount := node.refCount + 1 }
  return ((← get).node i).refCount

/-- `inode_open_inc`. -/
def inodeOpenInc (i : ℕ) : Call Unit :=
  setNode i fun node => { node with openCount := node.openCount + 1 }

/-! ## Writing back and reclaiming -/

/-- `sfs_fsync`. -/
def sfsFsync (i : ℕ) : Call Unit := do
  if ((← get).vol.inode i).dirty = true then
    onVol (Sfs.setInode i fun din => { din with dirty := false })
    let din := (← get).vol.inode i
    Act.onError (onVol (sfsWbuf (encodeDin din) SFS_DIN_SIZE i 0))
      (onVol (Sfs.setInode i fun din => { din with dirty := true }))

/-- `vop_fsync`. -/
def vopFsync (i : ℕ) : Call Unit := do
  vopAny i
  sfsFsync i

/-- `vop_truncate`. -/
def vopTruncate (i : ℕ) (len : ℤ) : Call Unit := do
  vopFile i
  onVol (sfsTruncfile i len)

/-- `inode_kill`. -/
def inodeKill (i : ℕ) : Call Unit := do
  let node := (← get).node i
  Act.demand .inodeKill (node.refCount = 0 ∧ node.openCount = 0)

/-- `sfs_reclaim`. -/
def sfsReclaim (i : ℕ) : Call Unit := do
  Act.demand .reclaimCount (0 < ((← get).node i).reclaimCount)
  setNode i fun node => { node with reclaimCount := node.reclaimCount - 1 }
  let node := (← get).node i
  if node.reclaimCount ≠ 0 ∨ node.refCount ≠ 0 then
    throw (-E_BUSY)
  else
    if ((← get).vol.inode i).nlinks = 0 then
      vopTruncate i 0
    if ((← get).vol.inode i).dirty = true then
      vopFsync i
    setNode i fun node => { node with cached := false }
    let din := (← get).vol.inode i
    if din.nlinks = 0 then
      onVol (sfsBlockFree i)
      if din.indirect ≠ 0 then
        onVol (sfsBlockFree din.indirect)
    inodeKill i

/-- `inode_ref_dec`, with `vop_reclaim`, whose error is only printed. -/
def inodeRefDec (i : ℕ) : Call Unit := do
  Act.demand .refDec (0 < ((← get).node i).refCount)
  setNode i fun node => { node with refCount := node.refCount - 1 }
  if ((← get).node i).refCount = 0 then
    Act.ignore do
      vopAny i
      sfsReclaim i

/-- `inode_open_dec`, with `vop_close`, whose error is only printed. -/
def inodeOpenDec (i : ℕ) : Call Unit := do
  Act.demand .openDec (0 < ((← get).node i).openCount)
  setNode i fun node => { node with openCount := node.openCount - 1 }
  if ((← get).node i).openCount = 0 then
    Act.ignore do
      vopAny i
      vopFsync i

/-! ## Loading -/

/-- `sfs_load_inode`, with `lookup_sfs_nolock` and `sfs_create_inode`. -/
def sfsLoadInode (ino : ℕ) : Call Unit := do
  if ((← get).node ino).cached = true then
    if (← inodeRefInc ino) = 1 then
      setNode ino fun node => { node with reclaimCount := node.reclaimCount + 1 }
  else
    kmalloc
    Act.demand .loadInodeInuse (← onVol (sfsBlockInuse ino))
    let data ← onVol (sfsRbuf SFS_DIN_SIZE ino 0)
    let din := decodeDin ((← get).vol.inode ino) data
    Act.demand .loadInodeLinks (din.nlinks ≠ 0)
    kmalloc
    Act.demand .inodeType (din.type = .file ∨ din.type = .dir)
    onVol (Sfs.setInode ino fun _ => din)
    setNode ino fun _ => ⟨true, 1, 0, 1⟩

/-! ## Looking up a path -/

/-- `sfs_dirent_search_nolock`. -/
def sfsDirentSearchNolock (i : ℕ) (name : List UInt8) : Call ℕ := do
  Act.demand .nameLength (name.length ≤ SFS_MAX_FNAME_LEN)
  kmalloc
  let nslots := ((← get).vol.inode i).blocks
  onVol (direntSearch i name nslots 0)

/-- `sfs_lookup_once`. -/
def sfsLookupOnce (i : ℕ) (name : List UInt8) : Call ℕ := do
  let ino ← sfsDirentSearchNolock i name
  sfsLoadInode ino
  return ino

/-- `sfs_lookup`: all that is left of the path is one name. -/
def sfsLookup (i : ℕ) (path : List UInt8) : Call ℕ := do
  Act.demand .lookupPath (path ≠ [] ∧ path.head? ≠ some 47)
  let _ ← inodeRefInc i
  Act.andThen (do
      if ((← get).vol.inode i).type ≠ .dir then
        throw (-E_NOTDIR)
      else
        sfsLookupOnce i path)
    (inodeRefDec i)

/-- `vfs_lookup`, from the directory that `get_device` finds the path to start at, on what it leaves
of the path. -/
def vfsLookup (dir : ℕ) (path : List UInt8) : Call ℕ := do
  let _ ← inodeRefInc dir
  if path = [] then
    return dir
  else
    Act.andThen (do
        vopDir dir
        sfsLookup dir path)
      (inodeRefDec dir)

end UCore.Fs
