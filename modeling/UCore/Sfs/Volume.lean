import UCore.Sfs.Bitmap

/-!
# Sfs/Volume — a mounted volume and its blocks

`kern/fs/sfs/sfs_io.c`, and the block allocation of `kern/fs/sfs/sfs_inode.c`.  The inodes are the
in-memory ones, by inode number.  `sfs_buffer` is filled before every use, so what it holds between
two calls is left out, and so are the locks, which a lone call finds free.
-/

namespace UCore.Sfs

/-- `SFS_BLKSIZE`. -/
abbrev SFS_BLKSIZE : ℕ := PGSIZE

/-- `SFS_NDIRECT`. -/
abbrev SFS_NDIRECT : ℕ := 12

/-- `SFS_BLK_NENTRY`. -/
abbrev SFS_BLK_NENTRY : ℕ := 1024

/-- `SFS_MAX_FILE_SIZE`. -/
abbrev SFS_MAX_FILE_SIZE : ℕ := 1024 * 1024 * 128

/-- The type of an inode. -/
inductive FileType where
  | inval
  | file
  | dir
  | link
  deriving DecidableEq, Repr

/-- An inode in memory: the fields of its `din`, and `dirty`. -/
structure SfsInode where
  size : ℕ
  type : FileType
  nlinks : ℕ
  blocks : ℕ
  direct : ℕ → ℕ
  indirect : ℕ
  dirty : Bool

/-- The device under a volume: its length, its bytes block by block, and the error code each transfer
in turn fails with, `0` if it succeeds. -/
structure Disk where
  blocks : ℕ
  data : ℕ → ℕ → UInt8
  fault : ℕ → ℕ
  transfers : ℕ

/-- `struct sfs_fs`, with the fields of the superblock, its device and its inodes. -/
structure Volume where
  blocks : ℕ
  unusedBlocks : ℕ
  superDirty : Bool
  freemap : Bitmap
  dev : Disk
  inode : ℕ → SfsInode

/-- A call of the file system: it returns, returns an error code, or fails an assertion. -/
abbrev Call (α : Type) := Act.Fallible Volume Assertion ℤ α

/-- The code that a call returns, `0` if it succeeds. -/
def codeOf (m : Call Unit) : Act Volume Assertion ℤ := do
  match ← m.run with
  | .ok _ => pure 0
  | .error e => pure e

/-- The volume with one inode changed. -/
def Volume.setInode (v : Volume) (i : ℕ) (f : SfsInode → SfsInode) : Volume :=
  { v with inode := Function.update v.inode i (f (v.inode i)) }

/-- A store to an inode. -/
def setInode (i : ℕ) (f : SfsInode → SfsInode) : Call Unit := modify (·.setInode i f)

/-- A call on the free map. -/
def onFreemap {α : Type} (m : Bitmap.Call α) : Call α :=
  Act.zoome Volume.freemap (fun b v => { v with freemap := b }) m

/-! ## Bytes -/

/-- `dst` with `len` bytes of `src` at `offset`. -/
def overlay (dst : ℕ → UInt8) (offset len : ℕ) (src : ℕ → UInt8) : ℕ → UInt8 := fun i =>
  if offset ≤ i ∧ i < offset + len then src (i - offset) else dst i

/-- A `uint32_t` in memory, low byte first. -/
def encodeU32 (n : ℕ) : ℕ → UInt8 := fun i => UInt8.ofNat (n / 256 ^ i)

/-- The `uint32_t` at the start of some bytes. -/
def decodeU32 (f : ℕ → UInt8) : ℕ :=
  (f 0).toNat + 256 * (f 1).toNat + 256 ^ 2 * (f 2).toNat + 256 ^ 3 * (f 3).toNat

/-! ## Transfers -/

/-- `dop_io`, for one block: the range check of `disk0_io` and the outcome of the transfer. -/
def dopIo (offset : ℕ) : Call ℕ := do
  let dev := (← get).dev
  let blkno := offset / SFS_BLKSIZE
  if blkno + 1 > dev.blocks then
    throw (-E_INVAL)
  else
    modify fun v => { v with dev := { v.dev with transfers := dev.transfers + 1 } }
    if dev.fault dev.transfers ≠ 0 then
      throw (-(dev.fault dev.transfers : ℤ))
    else
      pure blkno

/-- `sfs_rwblock_nolock`, up to the copy: the device's block.  Every call here has `check` set. -/
def sfsRwblockNolock (blkno : ℕ) : Call ℕ := do
  Act.demand .rwblock (blkno ≠ 0 ∧ blkno < (← get).blocks)
  dopIo (u32 (blkno * SFS_BLKSIZE))

/-- `sfs_rblock`, for one block. -/
def sfsRblock (blkno : ℕ) : Call (ℕ → UInt8) := do
  let b ← sfsRwblockNolock blkno
  return (← get).dev.data b

/-- `sfs_wblock`, for one block. -/
def sfsWblock (buf : ℕ → UInt8) (blkno : ℕ) : Call Unit := do
  let b ← sfsRwblockNolock blkno
  modify fun v =>
    { v with dev := { v.dev with
      data := Function.update v.dev.data b (overlay (v.dev.data b) 0 SFS_BLKSIZE buf) } }

/-- `sfs_rbuf`. -/
def sfsRbuf (len blkno offset : ℕ) : Call (ℕ → UInt8) := do
  Act.demand .bufRange (offset < SFS_BLKSIZE ∧ offset + len ≤ SFS_BLKSIZE)
  let data ← sfsRblock blkno
  return fun i => data (offset + i)

/-- `sfs_wbuf`. -/
def sfsWbuf (buf : ℕ → UInt8) (len blkno offset : ℕ) : Call Unit := do
  Act.demand .bufRange (offset < SFS_BLKSIZE ∧ offset + len ≤ SFS_BLKSIZE)
  let data ← sfsRblock blkno
  sfsWblock (overlay data offset len buf) blkno

/-- `sfs_clear_block`, for one block. -/
def sfsClearBlock (blkno : ℕ) : Call Unit := sfsWblock (fun _ => 0) blkno

/-! ## Allocation -/

/-- `sfs_block_inuse`. -/
def sfsBlockInuse (ino : ℕ) : Call Bool := do
  Act.demand .inuseRange (ino ≠ 0 ∧ ino < (← get).blocks)
  return !(← onFreemap (Bitmap.bitmapTest ino))

/-- `sfs_block_alloc`. -/
def sfsBlockAlloc : Call ℕ := do
  let ino ← onFreemap Bitmap.bitmapAlloc
  Act.demand .unusedBlocks ((← get).unusedBlocks > 0)
  modify fun v => { v with unusedBlocks := v.unusedBlocks - 1, superDirty := true }
  Act.demand .allocInuse (← sfsBlockInuse ino)
  sfsClearBlock ino
  return ino

/-- `sfs_block_free`. -/
def sfsBlockFree (ino : ℕ) : Call Unit := do
  Act.demand .freeInuse (← sfsBlockInuse ino)
  onFreemap (Bitmap.bitmapFree ino)
  modify fun v => { v with unusedBlocks := v.unusedBlocks + 1, superDirty := true }

end UCore.Sfs
