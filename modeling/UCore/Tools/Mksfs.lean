import UCore.Sfs.Mount

/-!
# Tools/Mksfs — the image that `mksfs` makes

`tools/mksfs.c`, from `create_sfs` to `close_sfs`.  Blocks are taken in order, and a block of the free
map has a bit for each of `SFS_BLKBITS` blocks:

    | super | root | freemap … | next_ino …        ninos |

A set bit is a free block.  The hash chains are one list each; a bug ends the program, and so does a
failed assertion.
-/

namespace UCore

/-- `SFS_MAX_NBLKS`. -/
abbrev SFS_MAX_NBLKS : ℕ := 1024 * 512

/-- The blocks of an image, each the bytes in it. -/
abbrev Image := ℕ → ℕ → UInt8

/-- `struct cache_block`. -/
structure CacheBlock where
  ino : ℕ
  cache : ℕ → UInt8

/-- The `inode` of a `struct cache_inode`. -/
structure MkInode where
  size : ℕ
  type : ℕ
  nlinks : ℕ
  blocks : ℕ
  direct : ℕ → ℕ
  indirect : ℕ
  dbIndirect : ℕ

/-- `struct cache_inode`. -/
structure CacheInode where
  inode : MkInode
  real : ℕ
  ino : ℕ
  nblks : ℕ

/-- `struct sfs_fs`, with the blocks and the free blocks of `super`, and the image. -/
structure Mksfs where
  blocks : ℕ
  unusedBlocks : ℕ
  ninos : ℕ
  nextIno : ℕ
  inodes : List CacheInode
  cacheBlocks : List CacheBlock
  img : Image

namespace Mksfs

open Sfs

/-- A call of `mksfs`. -/
abbrev Call (α : Type) := Act Mksfs Stop α

/-- `SFS_TYPE_DIR`. -/
abbrev SFS_TYPE_DIR : ℕ := 2

/-- `sfs_alloc_ino`. -/
def sfsAllocIno : Call ℕ := do
  let s ← get
  Act.require .panic (s.nextIno < s.ninos)
  set { s with unusedBlocks := s.unusedBlocks - 1, nextIno := s.nextIno + 1 }
  return s.nextIno

/-- `alloc_cache_block`. -/
def allocCacheBlock (ino : ℕ) : Call CacheBlock := do
  let ino ← if ino ≠ 0 then pure ino else sfsAllocIno
  let cb : CacheBlock := ⟨ino, fun _ => 0⟩
  modify fun s => { s with cacheBlocks := cb :: s.cacheBlocks }
  return cb

/-- `alloc_cache_inode`. -/
def allocCacheInode (real ino type : ℕ) : Call CacheInode := do
  let ino ← if ino ≠ 0 then pure ino else sfsAllocIno
  let ci : CacheInode := ⟨⟨0, type, 0, 0, fun _ => 0, 0, 0⟩, real, ino, 0⟩
  modify fun s => { s with inodes := ci :: s.inodes }
  return ci

/-- The blocks of an image of `stSize` bytes, as far as they are used. -/
def ninosOf (stSize : ℕ) : ℕ :=
  if u32 (stSize / SFS_BLKSIZE) > SFS_MAX_NBLKS then SFS_MAX_NBLKS else u32 (stSize / SFS_BLKSIZE)

/-- The first block after the free map. -/
def firstIno (ninos : ℕ) : ℕ := SFS_BLKN_FREEMAP + (ninos + SFS_BLKBITS - 1) / SFS_BLKBITS

/-- `create_sfs`, on an image file of `stSize` bytes. -/
def createSfs (stSize : ℕ) (img : Image) : Except Stop Mksfs := do
  let ninos := ninosOf stSize
  if firstIno ninos ≥ ninos then
    throw .panic
  let s : Mksfs := ⟨ninos, ninos - firstIno ninos, ninos, firstIno ninos, [], [], img⟩
  let (_, s) ← allocCacheInode 0 SFS_BLKN_ROOT SFS_TYPE_DIR s
  return s

/-- `write_block`: the rest of the block is filled with zeros. -/
def writeBlock (data : ℕ → UInt8) (len ino : ℕ) : Call Unit := do
  let s ← get
  Act.require .panic (len ≤ SFS_BLKSIZE ∧ ino < s.ninos)
  set { s with img := Function.update s.img ino fun i => if i < len then data i else 0 }

/-- The bytes of a `struct inode`. -/
def inodeBytes (i : MkInode) : ℕ → UInt8 :=
  let head := Bytes.putWord (Bytes.putWord (Bytes.putWord (Bytes.putWord (fun _ => 0)
    4 0 i.size) 2 4 i.type) 2 6 i.nlinks) 4 8 i.blocks
  let body := (List.range SFS_NDIRECT).foldl (fun m k => Bytes.putWord m 4 (12 + 4 * k) (i.direct k)) head
  Bytes.putWord (Bytes.putWord body 4 60 i.indirect) 4 64 i.dbIndirect

/-- `flush_cache_block`. -/
def flushCacheBlock (cb : CacheBlock) : Call Unit := writeBlock cb.cache SFS_BLKSIZE cb.ino

/-- `flush_cache_inode`. -/
def flushCacheInode (ci : CacheInode) : Call Unit := writeBlock (inodeBytes ci.inode) 68 ci.ino

/-! ## `close_sfs` -/

/-- `data[j / bits] |= (1 << (j % bits))`. -/
def orBit (buffer : ℕ → UInt8) (j : ℕ) : ℕ → UInt8 :=
  Bytes.putWord buffer 4 (4 * (j / 32)) (Bytes.word buffer 4 (4 * (j / 32)) ||| 2 ^ (j % 32))

/-- The block of the free map for the blocks from `i` on; no sum overflows, since `ninos` is at most
`SFS_MAX_NBLKS`. -/
def freemapBuffer (ninos nextIno i : ℕ) : ℕ → UInt8 :=
  if i + SFS_BLKBITS > nextIno then
    let start := if i < nextIno then nextIno - i else 0
    let stop := if i + SFS_BLKBITS > ninos then ninos - i else SFS_BLKBITS
    (List.range' start (stop - start)).foldl orBit fun _ => 0
  else fun _ => 0

/-- The first loop of `close_sfs`. -/
def freemapLoop (ninos nextIno i ino : ℕ) : Call Unit :=
  if _h : i < ninos then do
    writeBlock (freemapBuffer ninos nextIno i) SFS_BLKSIZE ino
    freemapLoop ninos nextIno (i + SFS_BLKBITS) (ino + 1)
  else
    pure ()
termination_by ninos - i
decreasing_by exact Nat.sub_lt_sub_left _h (Nat.lt_add_of_pos_right (by norm_num))

/-- The bytes of `super`; `info` is left out. -/
def superBytes (s : Mksfs) : ℕ → UInt8 :=
  Bytes.putWord (Bytes.putWord (Bytes.putWord (fun _ => 0) 4 0 SFS_MAGIC) 4 4 s.blocks) 4 8 s.unusedBlocks

/-- The flushes of `close_sfs`. -/
def flushBlocks : List CacheBlock → Call Unit
  | [] => return ()
  | cb :: cbs => do
    flushCacheBlock cb
    flushBlocks cbs

/-- …of the inodes. -/
def flushInodes : List CacheInode → Call Unit
  | [] => return ()
  | ci :: cis => do
    flushCacheInode ci
    flushInodes cis

/-- `close_sfs`. -/
def closeSfs : Call Unit := do
  let s ← get
  freemapLoop s.ninos s.nextIno 0 SFS_BLKN_FREEMAP
  writeBlock (superBytes s) 44 SFS_BLKN_SUPER
  flushBlocks s.cacheBlocks
  flushInodes s.inodes

/-! ## What `mksfs` does in between -/

/-- A block that `sfs_alloc_ino` returned. -/
def Allocated (s : Mksfs) (ino : ℕ) : Prop := firstIno s.ninos ≤ ino ∧ ino < s.nextIno

/-- **A run of `mksfs`** up to `close_sfs`: it takes blocks, writes blocks it has taken, caches blocks and
inodes in blocks it takes, and changes what is in the caches. -/
inductive Making (stSize : ℕ) : Mksfs → Prop
  | create {s : Mksfs} (img : Image) : createSfs stSize img = .ok s → Making stSize s
  | alloc {s t : Mksfs} {ino : ℕ} : Making stSize s → sfsAllocIno s = .ok (ino, t) → Making stSize t
  | write {s t : Mksfs} {ino len : ℕ} {data : ℕ → UInt8} : Making stSize s → Allocated s ino →
      writeBlock data len ino s = .ok ((), t) → Making stSize t
  | cacheBlock {s t : Mksfs} {cb : CacheBlock} : Making stSize s →
      allocCacheBlock 0 s = .ok (cb, t) → Making stSize t
  | cacheInode {s t : Mksfs} {real type : ℕ} {ci : CacheInode} : Making stSize s →
      allocCacheInode real 0 type s = .ok (ci, t) → Making stSize t
  | edit {s : Mksfs} (cacheBlocks : List CacheBlock) (inodes : List CacheInode) : Making stSize s →
      cacheBlocks.map (·.ino) = s.cacheBlocks.map (·.ino) →
      inodes.map (·.ino) = s.inodes.map (·.ino) →
      Making stSize { s with cacheBlocks := cacheBlocks, inodes := inodes }

/-- **The invariant of `mksfs`**: blocks are taken in order, and what is cached is the root, or in a block
that was taken. -/
structure Ordered (s : Mksfs) : Prop where
  blocks : s.blocks = s.ninos
  max : s.ninos ≤ SFS_MAX_NBLKS
  first : firstIno s.ninos ≤ s.nextIno
  next : s.nextIno ≤ s.ninos
  unused : s.unusedBlocks = s.ninos - s.nextIno
  cacheBlocks : ∀ ino ∈ s.cacheBlocks.map (·.ino), Allocated s ino
  inodes : ∀ ino ∈ s.inodes.map (·.ino), ino = SFS_BLKN_ROOT ∨ Allocated s ino

variable {s t : Mksfs} {stSize ino len : ℕ}

theorem ninosOf_le (stSize : ℕ) : ninosOf stSize ≤ SFS_MAX_NBLKS := by
  unfold ninosOf
  split <;> omega

/-- Taking a block. -/
theorem wp_sfsAllocIno (h : Ordered s) :
    Act.wp sfsAllocIno (fun ino t => ino = s.nextIno ∧ s.nextIno < s.ninos ∧ Ordered t ∧ Allocated t ino ∧
      t.ninos = s.ninos ∧ t.cacheBlocks = s.cacheBlocks ∧ t.inodes = s.inodes)
      (fun _ => s.nextIno = s.ninos) s := by
  obtain ⟨hblocks, hmax, hfirst, hnext, hunused, hcb, hci⟩ := h
  simp only [sfsAllocIno, Act.wp_bind, Act.wp_get, Act.wp_require, Act.wp_set, Act.wp_pure]
  refine ⟨fun hlt => ⟨trivial, hlt, ⟨hblocks, hmax, Nat.le_succ_of_le hfirst, hlt, ?_, ?_, ?_⟩,
    ⟨hfirst, Nat.lt_succ_self _⟩, trivial, trivial, trivial⟩, fun hno => by omega⟩
  · dsimp only
    omega
  · exact fun ino hino => ⟨(hcb ino hino).1, Nat.lt_succ_of_lt (hcb ino hino).2⟩
  · exact fun ino hino => (hci ino hino).imp_right fun ha => ⟨ha.1, Nat.lt_succ_of_lt ha.2⟩

/-- Everything `mksfs` does keeps the order. -/
theorem Making.ordered (h : Making stSize s) : Ordered s := by
  induction h with
  | @create s img hrun =>
    unfold createSfs at hrun
    dsimp only at hrun
    split at hrun
    · exact nomatch hrun
    next hfit =>
    cases hrun
    refine ⟨rfl, ninosOf_le stSize, le_rfl, (not_le.mp hfit).le, rfl, fun _ h => (nomatch h), ?_⟩
    intro ino hino
    exact .inl (List.mem_singleton.mp hino)
  | alloc _ hrun ih => exact (Act.wp_of_ok (wp_sfsAllocIno ih) hrun).2.2.1
  | @write s t ino len data _ _ hrun ih =>
    have hwp : Act.wp (writeBlock data len ino) (fun _ t => Ordered t) (fun _ => True) s := by
      simp only [writeBlock, Act.wp_bind, Act.wp_get, Act.wp_require, Act.wp_set]
      exact ⟨fun _ => ⟨ih.blocks, ih.max, ih.first, ih.next, ih.unused, ih.cacheBlocks, ih.inodes⟩,
        fun _ => trivial⟩
    exact Act.wp_of_ok hwp hrun
  | @cacheBlock s t cb _ hrun ih =>
    have hwp : Act.wp (allocCacheBlock 0) (fun _ t => Ordered t) (fun _ => True) s := by
      simp only [allocCacheBlock, Act.wp_bind, ne_eq, not_true_eq_false, if_false, Act.wp_modify, Act.wp_pure]
      refine Act.wp_mono (wp_sfsAllocIno ih) ?_ fun _ _ => trivial
      rintro ino t ⟨-, -, ht, ha, -⟩
      refine ⟨ht.blocks, ht.max, ht.first, ht.next, ht.unused, fun k hk => ?_, ht.inodes⟩
      rcases List.mem_cons.mp hk with rfl | hk
      · exact ha
      · exact ht.cacheBlocks k hk
    exact Act.wp_of_ok hwp hrun
  | @cacheInode s t real type ci _ hrun ih =>
    have hwp : Act.wp (allocCacheInode real 0 type) (fun _ t => Ordered t) (fun _ => True) s := by
      simp only [allocCacheInode, Act.wp_bind, ne_eq, not_true_eq_false, if_false, Act.wp_modify, Act.wp_pure]
      refine Act.wp_mono (wp_sfsAllocIno ih) ?_ fun _ _ => trivial
      rintro ino t ⟨-, -, ht, ha, -⟩
      refine ⟨ht.blocks, ht.max, ht.first, ht.next, ht.unused, ht.cacheBlocks, fun k hk => ?_⟩
      rcases List.mem_cons.mp hk with rfl | hk
      · exact .inr ha
      · exact ht.inodes k hk
    exact Act.wp_of_ok hwp hrun
  | edit cbs cis _ hcbs hcis ih =>
    refine ⟨ih.blocks, ih.max, ih.first, ih.next, ih.unused, fun k hk => ?_, fun k hk => ?_⟩
    · exact ih.cacheBlocks k (hcbs ▸ hk)
    · exact ih.inodes k (hcis ▸ hk)

/-! ## The bits of the free map -/

theorem word_zero (n a : ℕ) : Bytes.word (fun _ => 0) n a = 0 := by
  induction n generalizing a with
  | zero => rfl
  | succ n ih => rw [Bytes.word, ih]; rfl

/-- **One bit more**: the others, of every word, are as they were. -/
theorem testBit_orBit (buffer : ℕ → UInt8) (j w : ℕ) {m : ℕ} (hm : m < 32) :
    (Bytes.word (orBit buffer j) 4 (4 * w)).testBit m =
      ((Bytes.word buffer 4 (4 * w)).testBit m || decide (32 * w + m = j)) := by
  rcases eq_or_ne (j / 32) w with rfl | hw
  · have hlt : 2 ^ (j % 32) < 2 ^ 32 := Nat.pow_lt_pow_right (by norm_num) (Nat.mod_lt _ (by norm_num))
    have hword : Bytes.word buffer 4 (4 * (j / 32)) < 2 ^ 32 := Bytes.word_lt buffer 4 _
    rw [orBit, Bytes.word_putWord, show 256 ^ 4 = 2 ^ 32 by norm_num,
      Nat.mod_eq_of_lt (Nat.or_lt_two_pow hword hlt), Nat.testBit_or, Nat.testBit_two_pow]
    have hiff : (j % 32 = m) = (32 * (j / 32) + m = j) := propext (by omega)
    simp only [hiff]
  · have hne : ¬ 32 * w + m = j := by omega
    rw [orBit, Bytes.word_putWord_of_ne (by omega), decide_eq_false hne, Bool.or_false]

/-- The bits from `start` on, one after another. -/
theorem testBit_orBits (buffer : ℕ → UInt8) (start n w : ℕ) {m : ℕ} (hm : m < 32) :
    (Bytes.word ((List.range' start n).foldl orBit buffer) 4 (4 * w)).testBit m =
      ((Bytes.word buffer 4 (4 * w)).testBit m || decide (start ≤ 32 * w + m ∧ 32 * w + m < start + n)) := by
  induction n generalizing start buffer with
  | zero => simp
  | succ n ih =>
    rw [List.range'_succ, List.foldl_cons, ih, testBit_orBit _ _ _ hm, Bool.or_assoc, ← Bool.decide_or]
    have hiff : (32 * w + m = start ∨ start + 1 ≤ 32 * w + m ∧ 32 * w + m < start + 1 + n) =
        (start ≤ 32 * w + m ∧ 32 * w + m < start + (n + 1)) := propext (by omega)
    simp only [hiff]

/-- **The block of the free map** at `i` has the bits of the free blocks set. -/
theorem testBit_freemapBuffer (ninos nextIno i w : ℕ) {m : ℕ} (hm : m < 32)
    (hw : 32 * w + m < SFS_BLKBITS) :
    (Bytes.word (freemapBuffer ninos nextIno i) 4 (4 * w)).testBit m =
      decide (nextIno ≤ i + (32 * w + m) ∧ i + (32 * w + m) < ninos) := by
  have hbits : SFS_BLKBITS = 32768 := rfl
  unfold freemapBuffer
  split
  · dsimp only
    rw [testBit_orBits _ _ _ _ hm, word_zero, Nat.zero_testBit, Bool.false_or, decide_eq_decide]
    split <;> split <;> omega
  · rw [word_zero, Nat.zero_testBit]
    exact (decide_eq_false (by omega)).symm

/-! ## What `close_sfs` leaves -/

/-- **A block is written** whole. -/
theorem wp_writeBlock (data : ℕ → UInt8) (hlen : len ≤ SFS_BLKSIZE) (hino : ino < s.ninos) (E : Stop → Prop) :
    Act.wp (writeBlock data len ino) (fun _ t => t = { s with
      img := Function.update s.img ino fun i => if i < len then data i else 0 }) E s := by
  simp only [writeBlock, Act.wp_bind, Act.wp_get, Act.wp_require, Act.wp_set]
  exact ⟨fun _ => trivial, fun hno => absurd ⟨hlen, hino⟩ hno⟩

/-- The free map is in its blocks, and the rest of the image is as it was; `k` blocks were there before. -/
structure MapWritten (ninos nextIno k : ℕ) (s t : Mksfs) : Prop where
  same : t.ninos = s.ninos
  map : ∀ j, k ≤ j → SFS_BLKN_FREEMAP + j < firstIno ninos → ∀ o < SFS_BLKSIZE,
    t.img (SFS_BLKN_FREEMAP + j) o = freemapBuffer ninos nextIno (SFS_BLKBITS * j) o
  other : ∀ b, b < SFS_BLKN_FREEMAP + k ∨ firstIno ninos ≤ b → t.img b = s.img b

/-- A block of the free map lies before the first block that is taken. -/
theorem lt_firstIno {ninos k : ℕ} : SFS_BLKN_FREEMAP + k < firstIno ninos ↔ SFS_BLKBITS * k < ninos := by
  have hbits : SFS_BLKBITS = 32768 := rfl
  unfold firstIno
  rw [Nat.add_lt_add_iff_left, hbits]
  omega

theorem wp_freemapLoop {ninos nextIno : ℕ} (hfirst : firstIno ninos ≤ ninos) (n k : ℕ)
    (hn : ninos ≤ SFS_BLKBITS * (k + n)) (hs : s.ninos = ninos) :
    Act.wp (freemapLoop ninos nextIno (SFS_BLKBITS * k) (SFS_BLKN_FREEMAP + k))
      (fun _ t => MapWritten ninos nextIno k s t) (fun _ => False) s := by
  induction n generalizing k s with
  | zero =>
    rw [freemapLoop, dif_neg (by simpa using hn), Act.wp_pure]
    refine ⟨rfl, fun j hj hlt => ?_, fun _ _ => rfl⟩
    rw [lt_firstIno] at hlt
    have := Nat.mul_le_mul_left SFS_BLKBITS hj
    rw [Nat.add_zero] at hn
    omega
  | succ n ih =>
    rw [freemapLoop]
    split
    · next hlt =>
      have hk : SFS_BLKN_FREEMAP + k < firstIno ninos := lt_firstIno.mpr hlt
      have hnext : SFS_BLKBITS * k + SFS_BLKBITS = SFS_BLKBITS * (k + 1) := (Nat.mul_succ ..).symm
      rw [Act.wp_bind, hnext]
      refine Act.wp_mono (wp_writeBlock _ le_rfl (by omega) _) ?_ fun _ => id
      rintro - t rfl
      refine Act.wp_mono (ih (k + 1) (by rwa [show k + 1 + n = k + (n + 1) by omega]) hs) ?_ fun _ => id
      rintro - u ⟨hu, hmap, hother⟩
      refine ⟨hu, fun j hj hlt => ?_, fun b hb => ?_⟩
      · rcases Nat.eq_or_lt_of_le hj with rfl | hj
        · intro o ho
          rw [hother _ (.inl (by omega))]
          dsimp only
          rw [Function.update_self, if_pos ho]
        · exact hmap j hj hlt
      · rw [hother b (by omega)]
        exact Function.update_of_ne (by omega) ..
    · next hge =>
      refine ⟨rfl, fun j hj hlt => ?_, fun _ _ => rfl⟩
      rw [lt_firstIno] at hlt
      have := Nat.mul_le_mul_left SFS_BLKBITS hj
      omega

/-- Flushing leaves the blocks alone that no cached one is in. -/
theorem wp_flushBlocks (cbs : List CacheBlock) (hcbs : ∀ ino ∈ cbs.map (·.ino), ino < s.ninos) :
    Act.wp (flushBlocks cbs) (fun _ t => t.ninos = s.ninos ∧ ∀ b, b ∉ cbs.map (·.ino) → t.img b = s.img b)
      (fun _ => False) s := by
  induction cbs generalizing s with
  | nil => exact ⟨rfl, fun _ _ => rfl⟩
  | cons cb cbs ih =>
    rw [flushBlocks, Act.wp_bind, flushCacheBlock]
    refine Act.wp_mono (wp_writeBlock _ le_rfl (hcbs _ List.mem_cons_self) _) ?_ fun _ => id
    rintro - t rfl
    refine Act.wp_mono (ih fun ino hino => hcbs ino (List.mem_cons_of_mem _ hino)) ?_ fun _ => id
    rintro - u ⟨hu, himg⟩
    refine ⟨hu, fun b hb => ?_⟩
    rw [List.map_cons, List.mem_cons, not_or] at hb
    exact (himg b hb.2).trans (Function.update_of_ne hb.1 ..)

theorem wp_flushInodes (cis : List CacheInode) (hcis : ∀ ino ∈ cis.map (·.ino), ino < s.ninos) :
    Act.wp (flushInodes cis) (fun _ t => t.ninos = s.ninos ∧ ∀ b, b ∉ cis.map (·.ino) → t.img b = s.img b)
      (fun _ => False) s := by
  induction cis generalizing s with
  | nil => exact ⟨rfl, fun _ _ => rfl⟩
  | cons ci cis ih =>
    rw [flushInodes, Act.wp_bind, flushCacheInode]
    refine Act.wp_mono (wp_writeBlock _ (by norm_num) (hcis _ List.mem_cons_self) _) ?_ fun _ => id
    rintro - t rfl
    refine Act.wp_mono (ih fun ino hino => hcis ino (List.mem_cons_of_mem _ hino)) ?_ fun _ => id
    rintro - u ⟨hu, himg⟩
    refine ⟨hu, fun b hb => ?_⟩
    rw [List.map_cons, List.mem_cons, not_or] at hb
    exact (himg b hb.2).trans (Function.update_of_ne hb.1 ..)

/-- **The image**: the superblock, and the free map of the blocks that were not taken. -/
structure Closed (s : Mksfs) (img : Image) : Prop where
  magic : Bytes.word (img SFS_BLKN_SUPER) 4 0 = SFS_MAGIC
  blocks : Bytes.word (img SFS_BLKN_SUPER) 4 4 = s.ninos
  unused : Bytes.word (img SFS_BLKN_SUPER) 4 8 = s.ninos - s.nextIno
  map : ∀ k, SFS_BLKBITS * k < s.ninos → ∀ o < SFS_BLKSIZE,
    img (SFS_BLKN_FREEMAP + k) o = freemapBuffer s.ninos s.nextIno (SFS_BLKBITS * k) o

/-- **`close_sfs`** writes the image. -/
theorem Ordered.wp_closeSfs (h : Ordered s) :
    Act.wp closeSfs (fun _ t => Closed s t.img) (fun _ => False) s := by
  have hfirst : firstIno s.ninos ≤ s.ninos := h.first.trans h.next
  have h0 : SFS_BLKN_SUPER = 0 := rfl
  have h1 : SFS_BLKN_ROOT = 1 := rfl
  have h2 : SFS_BLKN_FREEMAP = 2 := rfl
  have hpos : 0 < s.ninos := lt_of_lt_of_le (Nat.lt_add_right _ (by norm_num)) hfirst
  have hmap : SFS_BLKN_FREEMAP + 0 < firstIno s.ninos := lt_firstIno.mpr hpos
  have hcbs : ∀ ino ∈ s.cacheBlocks.map (·.ino), firstIno s.ninos ≤ ino ∧ ino < s.ninos := fun ino hino =>
    ⟨(h.cacheBlocks ino hino).1, (h.cacheBlocks ino hino).2.trans_le h.next⟩
  have hcis : ∀ ino ∈ s.inodes.map (·.ino),
      ino = SFS_BLKN_ROOT ∨ firstIno s.ninos ≤ ino ∧ ino < s.ninos := fun ino hino =>
    (h.inodes ino hino).imp_right fun ha => ⟨ha.1, ha.2.trans_le h.next⟩
  -- the flushes write neither the superblock nor the free map
  have hclear : ∀ b, b < firstIno s.ninos → b ≠ SFS_BLKN_ROOT →
      b ∉ s.cacheBlocks.map (·.ino) ∧ b ∉ s.inodes.map (·.ino) := fun b hb hroot => by
    refine ⟨fun hmem => ?_, fun hmem => ?_⟩
    · have := (hcbs b hmem).1
      omega
    · rcases hcis b hmem with heq | hge
      · exact hroot heq
      · omega
  have hbits : s.ninos ≤ SFS_BLKBITS * (0 + 16) := h.max
  rw [closeSfs, Act.wp_bind, Act.wp_get, Act.wp_bind]
  refine Act.wp_mono (wp_freemapLoop hfirst 16 0 hbits rfl) ?_ fun _ => id
  rintro - t ⟨hsame, htmap, -⟩
  rw [Act.wp_bind]
  refine Act.wp_mono (wp_writeBlock _ (by norm_num) (by omega) _) ?_ fun _ => id
  rintro - _ rfl
  rw [Act.wp_bind]
  refine Act.wp_mono (wp_flushBlocks _ fun ino hino => ?_) ?_ fun _ => id
  · have := (hcbs ino hino).2
    dsimp only
    omega
  rintro - u ⟨hu, huimg⟩
  refine Act.wp_mono (wp_flushInodes _ fun ino hino => ?_) ?_ fun _ => id
  · dsimp only at hu
    rcases hcis ino hino with heq | hlt
    · omega
    · omega
  rintro - v ⟨-, hvimg⟩
  have hsuper : ∀ o < 44, v.img SFS_BLKN_SUPER o = superBytes s o := fun o ho => by
    obtain ⟨hcb, hci⟩ := hclear SFS_BLKN_SUPER (by omega) (by norm_num)
    rw [hvimg _ hci, huimg _ hcb]
    dsimp only
    rw [Function.update_self, if_pos ho]
  have hword : ∀ a, a ≤ 40 → Bytes.word (v.img SFS_BLKN_SUPER) 4 a = Bytes.word (superBytes s) 4 a :=
    fun a ha => Bytes.word_congr fun i hi => hsuper _ (by omega)
  have hlt : s.ninos < 256 ^ 4 := lt_of_le_of_lt h.max (by norm_num)
  refine ⟨?_, ?_, ?_, fun k hk o ho => ?_⟩
  · rw [hword 0 (by norm_num), superBytes, Bytes.word_putWord_of_ne (by omega),
      Bytes.word_putWord_of_ne (by omega), Bytes.word_putWord]
    norm_num
  · rw [hword 4 (by norm_num), superBytes, Bytes.word_putWord_of_ne (by omega), Bytes.word_putWord, h.blocks,
      Nat.mod_eq_of_lt hlt]
  · rw [hword 8 (by norm_num), superBytes, Bytes.word_putWord, h.unused, Nat.mod_eq_of_lt (by omega)]
  · obtain ⟨hcb, hci⟩ := hclear (SFS_BLKN_FREEMAP + k) (lt_firstIno.mpr hk) (by omega)
    rw [hvimg _ hci, huimg _ hcb]
    dsimp only
    rw [Function.update_of_ne (by omega)]
    exact htmap k (Nat.zero_le k) (lt_firstIno.mpr hk) o ho

end Mksfs

end UCore
