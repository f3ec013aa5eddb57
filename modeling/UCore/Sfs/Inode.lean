import UCore.Sfs.Volume

/-!
# Sfs/Inode — the block map of an inode, and the calls that use it

`kern/fs/sfs/sfs_inode.c`.  An inode maps block `k` of its file through `direct` for `k < 12`, and
through the entries of the block `indirect` for the next 1024.

    direct[0] … direct[11]   indirect ─▸ entry 0 … entry 1023
-/

namespace UCore.Sfs

/-- The end of `sfs_bmap_get_sub_nolock`: a new block in the entry at `offset` of `ent`.  An entry
block `ent` that `*entp` does not hold yet is new too, and is given back on failure. -/
def addEntry (entp ent offset : ℕ) : Call (ℕ × ℕ) :=
  Act.onError (do
      let ino ← sfsBlockAlloc
      Act.onError (sfsWbuf (encodeU32 ino) 4 ent offset) (sfsBlockFree ino)
      return (ent, ino))
    (if ent ≠ entp then sfsBlockFree ent else pure ())

/-- `sfs_bmap_get_sub_nolock`: the entry block that `*entp` is to hold, and the block found. -/
def sfsBmapGetSubNolock (entp index : ℕ) (create : Bool) : Call (ℕ × ℕ) := do
  Act.demand .subIndex (index < SFS_BLK_NENTRY)
  let offset := index * 4
  if entp ≠ 0 then
    let ino := decodeU32 (← sfsRbuf 4 entp offset)
    if ino ≠ 0 ∨ create = false then
      pure (entp, ino)
    else
      addEntry entp entp offset
  else if create = false then
    pure (entp, 0)
  else
    let ent ← sfsBlockAlloc
    addEntry entp ent offset

/-- The direct half of `sfs_bmap_get_nolock`. -/
def getDirect (i index : ℕ) (create : Bool) : Call ℕ := do
  let ino := ((← get).inode i).direct index
  if ino = 0 ∧ create = true then
    let ino ← sfsBlockAlloc
    setInode i fun din => { din with direct := Function.update din.direct index ino, dirty := true }
    pure ino
  else
    pure ino

/-- The indirect half of `sfs_bmap_get_nolock`. -/
def getIndirect (i index : ℕ) (create : Bool) : Call ℕ := do
  let (ent, ino) ← sfsBmapGetSubNolock ((← get).inode i).indirect index create
  if ent ≠ ((← get).inode i).indirect then
    Act.demand .indirectNew (((← get).inode i).indirect = 0)
    setInode i fun din => { din with indirect := ent, dirty := true }
  pure ino

/-- `sfs_bmap_get_nolock`. -/
def sfsBmapGetNolock (i index : ℕ) (create : Bool) : Call ℕ := do
  let ino ←
    if index < SFS_NDIRECT then getDirect i index create
    else if index - SFS_NDIRECT < SFS_BLK_NENTRY then getIndirect i (index - SFS_NDIRECT) create
    else Act.stop .mapRange
  if ino ≠ 0 then
    Act.demand .mapInuse (← sfsBlockInuse ino)
  pure ino

/-- `sfs_bmap_load_nolock`. -/
def sfsBmapLoadNolock (i index : ℕ) : Call ℕ := do
  let blocks := ((← get).inode i).blocks
  Act.demand .loadIndex (index ≤ blocks)
  let create := decide (index = blocks)
  let ino ← sfsBmapGetNolock i index create
  Act.demand .loadInuse (← sfsBlockInuse ino)
  if create then
    setInode i fun din => { din with blocks := din.blocks + 1 }
  pure ino

/-- `sfs_bmap_free_sub_nolock`. -/
def sfsBmapFreeSubNolock (ent index : ℕ) : Call Unit := do
  Act.demand .freeSub ((← sfsBlockInuse ent) ∧ index < SFS_BLK_NENTRY)
  let offset := index * 4
  let ino := decodeU32 (← sfsRbuf 4 ent offset)
  if ino ≠ 0 then
    sfsWbuf (encodeU32 0) 4 ent offset
    sfsBlockFree ino

/-- `sfs_bmap_free_nolock`. -/
def sfsBmapFreeNolock (i index : ℕ) : Call Unit := do
  let din := (← get).inode i
  if index < SFS_NDIRECT then
    let ino := din.direct index
    if ino ≠ 0 then
      sfsBlockFree ino
      setInode i fun din => { din with direct := Function.update din.direct index 0, dirty := true }
  else if index - SFS_NDIRECT < SFS_BLK_NENTRY then
    if din.indirect ≠ 0 then
      sfsBmapFreeSubNolock din.indirect (index - SFS_NDIRECT)

/-- `sfs_bmap_truncate_nolock`. -/
def sfsBmapTruncateNolock (i : ℕ) : Call Unit := do
  let blocks := ((← get).inode i).blocks
  Act.demand .truncateEmpty (blocks ≠ 0)
  sfsBmapFreeNolock i (blocks - 1)
  setInode i fun din => { din with blocks := din.blocks - 1, dirty := true }

/-- The loop of `sfs_truncfile` that enlarges: `count` blocks from `nblks` on. -/
def enlarge (i : ℕ) : ℕ → ℕ → Call Unit
  | 0, _ => pure ()
  | count + 1, nblks => do
    let _ ← sfsBmapLoadNolock i nblks
    enlarge i count (nblks + 1)

/-- The loop of `sfs_truncfile` that reduces, by `count` blocks. -/
def reduce (i : ℕ) : ℕ → Call Unit
  | 0 => pure ()
  | count + 1 => do
    sfsBmapTruncateNolock i
    reduce i count

/-- `sfs_truncfile`. -/
def sfsTruncfile (i : ℕ) (len : ℤ) : Call Unit := do
  if len < 0 ∨ len > SFS_MAX_FILE_SIZE then
    throw (-E_INVAL)
  else
    let len := len.toNat
    let tblks := roundUpDiv len SFS_BLKSIZE
    let din := (← get).inode i
    if din.size = len then
      Act.demand .sizeBlocks (tblks = din.blocks)
    else
      if din.blocks < tblks then
        enlarge i (tblks - din.blocks) din.blocks
      else
        reduce i (din.blocks - tblks)
      Act.demand .truncBlocks (((← get).inode i).blocks = tblks)
      setInode i fun din => { din with size := len, dirty := true }

/-- `sfs_tryseek`. -/
def sfsTryseek (i : ℕ) (pos : ℤ) : Call Unit := do
  if pos < 0 ∨ pos ≥ SFS_MAX_FILE_SIZE then
    throw (-E_INVAL)
  else if pos > ((← get).inode i).size then
    sfsTruncfile i pos

/-! ## Reading and writing -/

/-- What a transfer has come to: the code to return, the bytes done, and the caller's buffer. -/
@[ext] structure Progress where
  ret : ℤ
  alen : ℕ
  buf : ℕ → UInt8

/-- One block of a transfer: load it, then read or write `size` bytes at `blkoff` of it.  The first
and the last block go through `sfs_rbuf` and `sfs_wbuf`, the `whole` ones do not. -/
def ioBlock (i : ℕ) (write whole : Bool) (blkno blkoff size : ℕ) (p : Progress) :
    Act Volume Assertion Progress := do
  let r ← ExceptT.run (do
    let ino ← sfsBmapLoadNolock i blkno
    if write then
      if whole then
        sfsWblock (fun j => p.buf (p.alen + j)) ino
      else
        sfsWbuf (fun j => p.buf (p.alen + j)) size ino blkoff
      pure p.buf
    else
      let data ← if whole then sfsRblock ino else sfsRbuf size ino blkoff
      pure (overlay p.buf p.alen size data))
  match r with
  | .ok buf => pure { p with alen := p.alen + size, buf := buf }
  | .error ret => pure { p with ret := ret }

/-- The loop of `sfs_io_nolock` over the whole blocks. -/
def ioBlocks (i : ℕ) (write : Bool) : ℕ → ℕ → Progress → Act Volume Assertion Progress
  | 0, _, p => pure p
  | nblks + 1, blkno, p => do
    let p ← ioBlock i write true blkno 0 SFS_BLKSIZE p
    if p.ret ≠ 0 then pure p else ioBlocks i write nblks (blkno + 1) p

/-- The three parts of a transfer of `[offset, endpos)`: the rest of the first block, whole blocks,
and the start of the last one. -/
def ioParts (i : ℕ) (write : Bool) (offset endpos : ℕ) (p : Progress) :
    Act Volume Assertion Progress := do
  let blkno := offset / SFS_BLKSIZE
  let nblks := endpos / SFS_BLKSIZE - blkno
  let blkoff := offset % SFS_BLKSIZE
  if blkoff ≠ 0 then
    let size := if nblks ≠ 0 then SFS_BLKSIZE - blkoff else endpos - offset
    let p ← ioBlock i write false blkno blkoff size p
    if p.ret ≠ 0 then pure p else rest (blkno + 1) (nblks - 1) (offset + size) p
  else
    rest blkno nblks offset p
where
  /-- The parts from the whole blocks on. -/
  rest (blkno nblks offset : ℕ) (p : Progress) : Act Volume Assertion Progress := do
    let p ← ioBlocks i write nblks blkno p
    if p.ret ≠ 0 then pure p
    else if offset + nblks * SFS_BLKSIZE < endpos then
      ioBlock i write false (blkno + nblks) 0 (endpos - (offset + nblks * SFS_BLKSIZE)) p
    else pure p

/-- `sfs_io_nolock`: the code returned, `*alenp` and the buffer. -/
def sfsIoNolock (i : ℕ) (buf : ℕ → UInt8) (offset : ℤ) (len : ℕ) (write : Bool) :
    Act Volume Assertion Progress := do
  let din := (← get).inode i
  Act.require .ioType (din.type ≠ .dir)
  let endpos := toS64 (offset + len)
  if offset < 0 ∨ offset ≥ SFS_MAX_FILE_SIZE ∨ offset > endpos then
    pure ⟨-E_INVAL, 0, buf⟩
  else if offset = endpos then
    pure ⟨0, 0, buf⟩
  else
    let endpos := min endpos.toNat SFS_MAX_FILE_SIZE
    if write = false ∧ offset ≥ din.size then
      pure ⟨0, 0, buf⟩
    else
      let endpos := if write then endpos else min endpos din.size
      let p ← ioParts i write offset.toNat endpos ⟨0, 0, buf⟩
      if offset.toNat + p.alen > ((← get).inode i).size then
        modify (·.setInode i fun din => { din with size := offset.toNat + p.alen, dirty := true })
      pure p

end UCore.Sfs
