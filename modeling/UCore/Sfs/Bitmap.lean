import UCore.Libs.Defs
import UCore.Machinery.Act

/-!
# Sfs/Bitmap — the free map

`kern/fs/sfs/bitmap.c`.  A set bit is a free block.  `bitmap_alloc` takes the first set bit, word by
word and then bit by bit; the rest of the file system sees the bits and not the words.
-/

namespace UCore.Sfs

/-- `E_INVAL`. -/
abbrev E_INVAL : ℤ := 3

/-- `E_NO_MEM`. -/
abbrev E_NO_MEM : ℤ := 4

/-- The assertions and panics of the file system, by where they stand. -/
inductive Assertion where
  /-- `assert(0)` in `bitmap_alloc`. -/
  | bitmapWord
  /-- `index < bitmap->nbits` in `bitmap_translate`. -/
  | bitmapIndex
  /-- `!(*word & mask)` in `bitmap_free`. -/
  | bitmapFree
  /-- The panic of `sfs_block_inuse`. -/
  | inuseRange
  /-- `sfs->super.unused_blocks > 0` in `sfs_block_alloc`. -/
  | unusedBlocks
  /-- `sfs_block_inuse(sfs, *ino_store)` in `sfs_block_alloc`. -/
  | allocInuse
  /-- `sfs_block_inuse(sfs, ino)` in `sfs_block_free`. -/
  | freeInuse
  /-- The range check of `sfs_rwblock_nolock`. -/
  | rwblock
  /-- The range check of `sfs_rbuf` and `sfs_wbuf`. -/
  | bufRange
  /-- `index < SFS_BLK_NENTRY` in `sfs_bmap_get_sub_nolock`. -/
  | subIndex
  /-- `din->indirect == 0` in `sfs_bmap_get_nolock`. -/
  | indirectNew
  /-- The panic of `sfs_bmap_get_nolock`. -/
  | mapRange
  /-- `ino == 0 || sfs_block_inuse(sfs, ino)` in `sfs_bmap_get_nolock`. -/
  | mapInuse
  /-- The assertion of `sfs_bmap_free_sub_nolock`. -/
  | freeSub
  /-- `index <= din->blocks` in `sfs_bmap_load_nolock`. -/
  | loadIndex
  /-- `sfs_block_inuse(sfs, ino)` in `sfs_bmap_load_nolock`. -/
  | loadInuse
  /-- `din->blocks != 0` in `sfs_bmap_truncate_nolock`. -/
  | truncateEmpty
  /-- `din->type != SFS_TYPE_DIR` in `sfs_io_nolock`. -/
  | ioType
  /-- `tblks == din->blocks` in `sfs_truncfile`. -/
  | sizeBlocks
  /-- `din->blocks == tblks` in `sfs_truncfile`. -/
  | truncBlocks
  /-- The slot of `sfs_dirent_read_nolock` is one of a directory. -/
  | direntSlot
  /-- `sfs_block_inuse(sfs, ino)` in `sfs_dirent_read_nolock`. -/
  | direntInuse
  /-- `strlen(name) <= SFS_MAX_FNAME_LEN` in `sfs_dirent_search_nolock`. -/
  | nameLength
  /-- `*path != '\0' && *path != '/'` in `sfs_lookup`. -/
  | lookupPath
  /-- `sfs_block_inuse(sfs, ino)` in `sfs_load_inode`. -/
  | loadInodeInuse
  /-- `din->nlinks != 0` in `sfs_load_inode`. -/
  | loadInodeLinks
  /-- The panic of `sfs_get_ops`. -/
  | inodeType
  /-- `sin->reclaim_count > 0` in `sfs_reclaim`. -/
  | reclaimCount
  /-- The assertions of `inode_kill`. -/
  | inodeKill
  /-- `inode_ref_count(node) > 0` in `inode_ref_dec`. -/
  | refDec
  /-- `inode_open_count(node) > 0` in `inode_open_dec`. -/
  | openDec
  /-- The assertions of `inode_check`. -/
  | inodeCheck
  /-- `vop_##sym != NULL` in `__vop_op`. -/
  | vopMissing
  /-- `iob->io_resid >= n` in `iobuf_skip`. -/
  | iobufSkip
  /-- `files_count(filesp) > 0` in `get_fd_array`. -/
  | filesCount
  /-- `fopen_count(file) == 0` in `fd_array_alloc`. -/
  | fdAlloc
  /-- The assertions of `fd_array_free`. -/
  | fdFree
  /-- `file->status == FD_OPENED` in `fd_array_acquire`. -/
  | fdAcquire
  /-- The assertions of `fd_array_release`. -/
  | fdRelease
  /-- The assertion of `fd_array_open`. -/
  | fdOpen
  /-- The assertions of `fd_array_close`. -/
  | fdClose
  /-- The assertion of `fd_array_dup`. -/
  | fdDup
  /-- The panic of `sfs_get_root`. -/
  | getRoot
  /-- `*path == ':'` in `get_device`. -/
  | devicePath
  /-- `ino != sin->ino && sin->din->type == SFS_TYPE_DIR` in `sfs_namefile`. -/
  | namefileParent
  deriving DecidableEq, Repr

/-- `struct bitmap`. -/
structure Bitmap where
  nbits : ℕ
  nwords : ℕ
  map : ℕ → BitVec 32

namespace Bitmap

/-- `WORD_BITS`. -/
abbrev WORD_BITS : ℕ := 32

/-- The mask of the bit `offset` of a word. -/
def mask (offset : ℕ) : BitVec 32 := 1#32 <<< offset

/-- A call on a bitmap. -/
abbrev Call (α : Type) := Act.Fallible Bitmap Assertion ℤ α

/-- `bitmap_alloc`. -/
def bitmapAlloc : Call ℕ := do
  let bitmap ← get
  match (List.range bitmap.nwords).find? fun ix => bitmap.map ix ≠ 0#32 with
  | none => throw (-E_NO_MEM)
  | some ix =>
    match (List.range WORD_BITS).find? fun offset => bitmap.map ix &&& mask offset ≠ 0#32 with
    | none => Act.stop .bitmapWord
    | some offset =>
      modify fun b => { b with map := Function.update b.map ix (b.map ix ^^^ mask offset) }
      pure (ix * WORD_BITS + offset)

/-- `bitmap_test`, with the range check of `bitmap_translate`. -/
def bitmapTest (index : ℕ) : Call Bool := do
  let bitmap ← get
  Act.demand .bitmapIndex (index < bitmap.nbits)
  pure (bitmap.map (index / WORD_BITS) &&& mask (index % WORD_BITS) ≠ 0#32)

/-- `bitmap_free`. -/
def bitmapFree (index : ℕ) : Call Unit := do
  let bitmap ← get
  Act.demand .bitmapIndex (index < bitmap.nbits)
  let word := bitmap.map (index / WORD_BITS)
  Act.demand .bitmapFree (word &&& mask (index % WORD_BITS) = 0#32)
  modify fun b =>
    { b with map := Function.update b.map (index / WORD_BITS) (word ||| mask (index % WORD_BITS)) }

/-- Is the bit set? -/
def bit (b : Bitmap) (i : ℕ) : Bool := (b.map (i / 32)).getLsbD (i % 32)

/-- The bitmap with one bit given a value. -/
structure SetTo (b : Bitmap) (i : ℕ) (v : Bool) (b' : Bitmap) : Prop where
  nbits : b'.nbits = b.nbits
  nwords : b'.nwords = b.nwords
  bit : ∀ j, b'.bit j = if j = i then v else b.bit j

section Words

variable {w : BitVec 32} {j k : ℕ}

theorem getLsbD_mask (hj : j < 32) : (mask k).getLsbD j = decide (j = k) := by
  rw [mask, BitVec.getLsbD_shiftLeft, BitVec.getLsbD_one]
  by_cases h : j = k <;> by_cases hlt : j < k <;> simp [h, hlt, hj] <;> omega

theorem and_mask_ne_zero (hk : k < 32) : w &&& mask k ≠ 0#32 ↔ w.getLsbD k = true := by
  constructor
  · intro h
    by_contra hbit
    refine h (BitVec.eq_of_getLsbD_eq fun j hj => ?_)
    rw [BitVec.getLsbD_and, getLsbD_mask hj]
    by_cases hjk : j = k
    · subst hjk
      simp [hbit]
    · simp [hjk]
  · intro h h0
    have : (w &&& mask k).getLsbD k = true := by
      rw [BitVec.getLsbD_and, getLsbD_mask hk, h]
      simp
    simp [h0] at this

theorem exists_bit (h : w ≠ 0#32) : ∃ k < 32, w.getLsbD k = true := by
  by_contra hno
  push Not at hno
  exact h (BitVec.eq_of_getLsbD_eq fun j hj => by simpa using hno j hj)

end Words

variable {b : Bitmap} {i : ℕ}

/-- A store to the word of the bit `i` that changes that bit alone. -/
theorem setTo_update {w : BitVec 32} {v : Bool}
    (hw : ∀ j < 32, w.getLsbD j = if j = i % 32 then v else (b.map (i / 32)).getLsbD j) :
    SetTo b i v { b with map := Function.update b.map (i / 32) w } := by
  refine ⟨rfl, rfl, fun j => ?_⟩
  unfold bit
  dsimp only
  by_cases hword : j / 32 = i / 32
  · rw [hword, Function.update_self, hw _ (Nat.mod_lt _ (by norm_num))]
    refine if_congr ?_ rfl rfl
    omega
  · rw [Function.update_of_ne hword, if_neg]
    rintro rfl
    exact hword rfl

/-- **`bitmap_alloc` takes a set bit**, and fails only if there is none. -/
theorem wpe_bitmapAlloc (b : Bitmap) :
    Act.wpe bitmapAlloc
      (fun i b' => i < 32 * b.nwords ∧ b.bit i = true ∧ SetTo b i false b')
      (fun e b' => e = -E_NO_MEM ∧ b' = b ∧ ∀ i < 32 * b.nwords, b.bit i = false)
      (fun _ => False) b := by
  simp only [bitmapAlloc, Act.wpe_bind, Act.wpe_get]
  cases hix : (List.range b.nwords).find? fun ix => b.map ix ≠ 0#32 with
  | none =>
    refine ⟨rfl, rfl, fun i hi => ?_⟩
    have hword := List.find?_eq_none.mp hix (i / 32) (List.mem_range.mpr (by omega))
    have hzero : b.map (i / 32) = 0#32 := by simpa using hword
    rw [bit, hzero, BitVec.getLsbD_zero]
  | some ix =>
    have hne : b.map ix ≠ 0#32 := by simpa using List.find?_some hix
    have hlt : ix < b.nwords := List.mem_range.mp (List.mem_of_find?_eq_some hix)
    cases hoff : (List.range WORD_BITS).find? fun offset => b.map ix &&& mask offset ≠ 0#32 with
    | none =>
      obtain ⟨k, hk, hbit⟩ := exists_bit hne
      have hnone := List.find?_eq_none.mp hoff k (List.mem_range.mpr hk)
      exact absurd ((and_mask_ne_zero hk).mpr hbit) (by simpa using hnone)
    | some offset =>
      have hk : offset < 32 := List.mem_range.mp (List.mem_of_find?_eq_some hoff)
      have hbit : (b.map ix).getLsbD offset = true :=
        (and_mask_ne_zero hk).mp (by simpa using List.find?_some hoff)
      have hdiv : (ix * 32 + offset) / 32 = ix := by omega
      have hmod : (ix * 32 + offset) % 32 = offset := by omega
      dsimp only
      rw [hoff]
      simp only [Act.wpe_bind, Act.wpe_modify, Act.wpe_pure]
      refine ⟨?_, ?_, ?_⟩
      · change ix * 32 + offset < 32 * b.nwords
        omega
      · change b.bit (ix * 32 + offset) = true
        rw [bit, hdiv, hmod, hbit]
      have hset := setTo_update (b := b) (i := ix * 32 + offset) (v := false)
        (w := b.map ix ^^^ mask offset) fun j hj => by
          rw [hdiv, hmod, BitVec.getLsbD_xor, getLsbD_mask hj]
          by_cases hjk : j = offset
          · subst hjk
            simp [hbit]
          · simp [hjk]
      rwa [hdiv] at hset

/-- **`bitmap_test` reads the bit.** -/
theorem wpe_bitmapTest {Q : Bool → Bitmap → Prop} {R : ℤ → Bitmap → Prop} {E : Assertion → Prop}
    (hQ : Q (b.bit i) b) (hi : i < b.nbits) : Act.wpe (bitmapTest i) Q R E b := by
  simp only [bitmapTest, Act.wpe_bind, Act.wpe_get, Act.wpe_demand, Act.wpe_pure]
  refine ⟨fun _ => ?_, fun hno => absurd hi hno⟩
  have hbit : decide (b.map (i / 32) &&& mask (i % 32) ≠ 0#32) = b.bit i := by
    rw [bit, Bool.eq_iff_iff, decide_eq_true_iff]
    exact and_mask_ne_zero (Nat.mod_lt _ (by norm_num))
  rwa [hbit]

/-- **`bitmap_free` sets the bit**, which has to be clear. -/
theorem wpe_bitmapFree {Q : Unit → Bitmap → Prop} {R : ℤ → Bitmap → Prop} {E : Assertion → Prop}
    (hQ : ∀ b', SetTo b i true b' → Q () b') (hi : i < b.nbits) (hclear : b.bit i = false) :
    Act.wpe (bitmapFree i) Q R E b := by
  simp only [bitmapFree, Act.wpe_bind, Act.wpe_get, Act.wpe_demand, Act.wpe_modify]
  have hmod : i % 32 < 32 := Nat.mod_lt _ (by norm_num)
  refine ⟨fun _ => ⟨fun _ => hQ _ (setTo_update fun j hj => ?_), fun hne => ?_⟩,
    fun hno => absurd hi hno⟩
  · rw [BitVec.getLsbD_or, getLsbD_mask hj]
    by_cases hjk : j = i % 32
    · simp [hjk]
    · simp [hjk]
  · rw [bit, ← Bool.not_eq_true, ← and_mask_ne_zero hmod] at hclear
    exact absurd hne hclear

end Bitmap

end UCore.Sfs
