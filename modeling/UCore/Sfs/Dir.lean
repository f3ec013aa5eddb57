import UCore.Sfs.Inode

/-!
# Sfs/Dir — directories, and inodes on disk

`kern/fs/sfs/sfs_inode.c`: a directory keeps one entry in each block of its file, and an inode is kept
at the start of the block it is numbered by.

    struct sfs_disk_entry   ino ▏ name[256]
    struct sfs_disk_inode   size ▏ type ▏ nlinks ▏ blocks ▏ direct[12] ▏ indirect
-/

namespace UCore.Sfs

/-- `E_NOENT`. -/
abbrev E_NOENT : ℤ := 16

/-- `SFS_MAX_FNAME_LEN`. -/
abbrev SFS_MAX_FNAME_LEN : ℕ := 255

/-! ## Entries -/

/-- `strcmp`, for a string of the model and one in memory: are they equal? -/
def strEq : List UInt8 → (ℕ → UInt8) → Bool
  | [], s => s 0 == 0
  | c :: cs, s => s 0 == c && strEq cs fun j => s (j + 1)

/-- The name in an entry, as it is read: its last byte is made a NUL. -/
def entryName (data : ℕ → UInt8) : ℕ → UInt8 := fun j =>
  if j = SFS_MAX_FNAME_LEN then 0 else data (4 + j)

/-- `sfs_dirent_read_nolock`: the `ino` of an entry and its name. -/
def sfsDirentReadNolock (i slot : ℕ) : Call (ℕ × (ℕ → UInt8)) := do
  let din := (← get).inode i
  Act.demand .direntSlot (din.type = .dir ∧ slot < din.blocks)
  let ino ← sfsBmapLoadNolock i slot
  Act.demand .direntInuse (← sfsBlockInuse ino)
  let entry ← sfsRbuf 260 ino 0
  return (decodeU32 entry, entryName entry)

/-- The loop of `sfs_dirent_search_nolock`, over `count` slots from `slot` on. -/
def direntSearch (i : ℕ) (name : List UInt8) : ℕ → ℕ → Call ℕ
  | 0, _ => throw (-E_NOENT)
  | count + 1, slot => do
    let (ino, entry) ← sfsDirentReadNolock i slot
    if ino ≠ 0 ∧ strEq name entry = true then
      pure ino
    else
      direntSearch i name count (slot + 1)

/-! ## Inodes on disk -/

/-- The code of a type. -/
def FileType.code : FileType → ℕ
  | .inval => 0
  | .file => 1
  | .dir => 2
  | .link => 3

/-- The type of a code. -/
def FileType.ofCode : ℕ → FileType
  | 1 => .file
  | 2 => .dir
  | 3 => .link
  | _ => .inval

/-- A `uint16_t` at the start of some bytes. -/
def decodeU16 (f : ℕ → UInt8) : ℕ := (f 0).toNat + 256 * (f 1).toNat

/-- The size of an inode on disk. -/
abbrev SFS_DIN_SIZE : ℕ := 64

/-- The bytes of an inode. -/
def encodeDin (din : SfsInode) : ℕ → UInt8 := fun j =>
  if j < 4 then encodeU32 din.size j
  else if j < 6 then encodeU32 din.type.code (j - 4)
  else if j < 8 then encodeU32 din.nlinks (j - 6)
  else if j < 12 then encodeU32 din.blocks (j - 8)
  else if j < 60 then encodeU32 (din.direct ((j - 12) / 4)) ((j - 12) % 4)
  else encodeU32 din.indirect (j - 60)

/-- The inode in some bytes.  What `direct` is from 12 on is not part of an inode, and stays. -/
def decodeDin (old : SfsInode) (f : ℕ → UInt8) : SfsInode where
  size := decodeU32 f
  type := .ofCode (decodeU16 fun j => f (4 + j))
  nlinks := decodeU16 fun j => f (6 + j)
  blocks := decodeU32 fun j => f (8 + j)
  direct k := if k < SFS_NDIRECT then decodeU32 fun j => f (12 + (4 * k + j)) else old.direct k
  indirect := decodeU32 fun j => f (60 + j)
  dirty := false

end UCore.Sfs
