import UCore.Fs.Node

/-!
# Fs/Lookup — from a path to an inode

`kern/fs/vfs/vfslookup.c`, with what it calls of `vfsdev.c`, `vfspath.c`, `vfs.c` and
`devs/dev.c`.  A path is the bytes before its NUL.

    /…  ╶▸ the boot root        :…  ╶▸ the root        dev:…  ╶▸ the root of dev        … ╶▸ pwd
                     what is left, without leading slashes ──▸ vop_lookup

An inode is one of the volume or of a device; the devices that have a file system have the volume.
-/

namespace UCore.Fs

open Sfs

/-- `E_NO_DEV`. -/
abbrev E_NO_DEV : ℤ := 13

/-- `E_NA_DEV`. -/
abbrev E_NA_DEV : ℤ := 14

/-- `SFS_BLKN_ROOT`. -/
abbrev SFS_BLKN_ROOT : ℕ := 1

/-- The character `/`. -/
abbrev SLASH : UInt8 := 47

/-- The character `:`. -/
abbrev COLON : UInt8 := 58

/-- An inode in memory: of the volume, or of a device. -/
inductive Inode where
  | sfs (ino : ℕ)
  | dev (d : ℕ)
  deriving DecidableEq, Repr

/-- `vfs_dev_t`; `fs` says whether the device has the volume as its file system. -/
structure VfsDev where
  devname : List UInt8
  fs : Bool
  mountable : Bool
  devnode : ℕ

/-- The file system with the inodes of its devices, `vdev_list`, `bootfs_node` and the `pwd` of the
process. -/
structure Vfs where
  files : FileSys
  devNode : ℕ → Node
  vdevList : List VfsDev
  bootfsNode : Option ℕ
  pwd : Option ℕ

namespace Vfs

/-- A call: it returns, returns an error code, or fails an assertion. -/
abbrev Call (α : Type) := Act.Fallible Vfs Assertion ℤ α

/-- A call on the volume and its inodes. -/
def onFileSys {α : Type} (m : Fs.Call α) : Call α :=
  Act.zoome (fun s : Vfs => s.files) (fun f s => { s with files := f }) m

/-- The counts of an inode. -/
def node (s : Vfs) : Inode → Node
  | .sfs i => s.files.node i
  | .dev d => s.devNode d

/-- A store to the counts of a device's inode. -/
def setDevNode (d : ℕ) (f : Node → Node) : Call Unit :=
  modify fun s => { s with devNode := Function.update s.devNode d (f (s.devNode d)) }

/-! ## Reference counts -/

/-- `vop_ref_inc`. -/
def vopRefInc : Inode → Call Unit
  | .sfs i => onFileSys do
    let _ ← inodeRefInc i
  | .dev d => setDevNode d fun node => { node with refCount := node.refCount + 1 }

/-- `vop_ref_dec`; `vop_reclaim` of a device does nothing but return an error, which is printed. -/
def vopRefDec : Inode → Call Unit
  | .sfs i => onFileSys (inodeRefDec i)
  | .dev d => do
    Act.demand .refDec (0 < ((← get).devNode d).refCount)
    setDevNode d fun node => { node with refCount := node.refCount - 1 }

/-! ## Where a path starts -/

/-- `vfs_get_curdir`. -/
def vfsGetCurdir : Call Inode := do
  match (← get).pwd with
  | some i =>
    vopRefInc (.sfs i)
    return .sfs i
  | none => throw (-E_NOENT)

/-- `vfs_get_bootfs`. -/
def vfsGetBootfs : Call Inode := do
  match (← get).bootfsNode with
  | some i =>
    vopRefInc (.sfs i)
    return .sfs i
  | none => throw (-E_NOENT)

/-- `fsop_get_root`, which is `sfs_get_root`. -/
def fsopGetRoot : Call Inode := do
  match ← Act.attempt (onFileSys (sfsLoadInode SFS_BLKN_ROOT)) with
  | .ok _ => return .sfs SFS_BLKN_ROOT
  | .error _ => Act.stop .getRoot

/-- `vfs_get_root`. -/
def vfsGetRoot (devname : List UInt8) : Call Inode := do
  match (← get).vdevList.find? fun vdev => vdev.devname == devname with
  | some vdev =>
    if vdev.fs = true then
      fsopGetRoot
    else if vdev.mountable = false then
      vopRefInc (.dev vdev.devnode)
      return .dev vdev.devnode
    else
      throw (-E_NA_DEV)
  | none => throw (-E_NO_DEV)

/-- The loop of `get_device`, from the character `i` on: `slash` and `colon`. -/
def getDeviceScan : List UInt8 → ℤ → ℤ × ℤ
  | [], _ => (-1, -1)
  | c :: cs, i =>
    if c = COLON then (-1, i)
    else if c = SLASH then (i, -1)
    else getDeviceScan cs (i + 1)

/-- The loops of `get_device` over slashes. -/
def skipSlashes (path : List UInt8) : List UInt8 := path.dropWhile (· == SLASH)

/-- `get_device`: what is left of the path, and the inode to start at.  The inodes of the volume have
it as their `in_fs`. -/
def getDevice (path : List UInt8) : Call (List UInt8 × Inode) := do
  let (slash, colon) := getDeviceScan path 0
  if colon < 0 ∧ slash ≠ 0 then
    let node ← vfsGetCurdir
    return (path, node)
  else if colon > 0 then
    let node ← vfsGetRoot (path.take colon.toNat)
    return (skipSlashes (path.drop (colon.toNat + 1)), node)
  else if path.head? = some SLASH then
    let node ← vfsGetBootfs
    return (skipSlashes path.tail, node)
  else
    Act.demand .devicePath (path.head? = some COLON)
    let node ← vfsGetCurdir
    let root ← fsopGetRoot
    vopRefDec node
    return (skipSlashes path.tail, root)

/-! ## Looking up -/

/-- `vop_lookup`, which is `sfs_lookup` or `dev_lookup`. -/
def vopLookup (path : List UInt8) : Inode → Call Inode
  | .sfs i => onFileSys do
    vopDir i
    return .sfs (← sfsLookup i path)
  | .dev d => do
    let node := (← get).devNode d
    Act.demand .inodeCheck (node.openCount ≤ node.refCount ∧
      node.refCount < MAX_INODE_COUNT ∧ node.openCount < MAX_INODE_COUNT)
    if path ≠ [] then
      throw (-E_NOENT)
    else
      vopRefInc (.dev d)
      return .dev d

/-- `vfs_lookup`. -/
def vfsLookup (path : List UInt8) : Call Inode := do
  let (path, node) ← getDevice path
  if path ≠ [] then
    Act.andThen (vopLookup path node) (vopRefDec node)
  else
    return node

end Vfs

end UCore.Fs
