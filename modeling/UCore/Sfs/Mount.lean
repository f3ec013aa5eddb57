import UCore.Machinery.Bytes
import UCore.Sfs.Volume

/-!
# Sfs/Mount — mounting a volume

`sfs_do_mount` of `kern/fs/sfs/sfs_fs.c`, up to the locks and lists it sets up.  The superblock is
checked, the blocks of the free map are read one after another into the words of a bitmap, and the set
bits have to be as many as the superblock says:

    | super |      | freemap₀ | freemap₁ | …        word ix lies in block ix / 1024

Its allocations succeed; a transfer can fail.
-/

namespace UCore.Sfs

open Bitmap (WORD_BITS mask)

/-- `SFS_BLKBITS`. -/
abbrev SFS_BLKBITS : ℕ := 32768

/-- `SFS_MAGIC`. -/
abbrev SFS_MAGIC : ℕ := 0x2f8dbe2a

/-- `SFS_BLKN_SUPER`. -/
abbrev SFS_BLKN_SUPER : ℕ := 0

/-- `SFS_BLKN_ROOT`. -/
abbrev SFS_BLKN_ROOT : ℕ := 1

/-- `SFS_BLKN_FREEMAP`. -/
abbrev SFS_BLKN_FREEMAP : ℕ := 2

/-- A call while mounting: it returns, returns an error code, or fails an assertion. -/
abbrev MountCall (α : Type) := Act.Fallible Disk Stop ℤ α

/-- What is mounted: the superblock and the free map. -/
structure Mounted where
  blocks : ℕ
  unusedBlocks : ℕ
  freemap : Bitmap

/-- `bitmap_create`. -/
def bitmapCreate (nbits : ℕ) : MountCall Bitmap := do
  Act.demand .panic (nbits ≠ 0 ∧ u32 (nbits + WORD_BITS) > nbits)
  let nwords := u32 (roundUpDiv nbits WORD_BITS)
  let full : ℕ → BitVec 32 := fun _ => BitVec.allOnes 32
  if nbits ≠ nwords * WORD_BITS then
    let ix := nwords - 1
    let overbits := nbits - ix * WORD_BITS
    Act.demand .panic (nbits / WORD_BITS = ix)
    Act.demand .panic (overbits > 0 ∧ overbits < WORD_BITS)
    let word := (List.range' overbits (WORD_BITS - overbits)).foldl (fun w k => w ^^^ mask k) (full ix)
    return ⟨nbits, nwords, Function.update full ix word⟩
  else
    return ⟨nbits, nwords, full⟩

/-- `sfs_init_read`, with the range check of `disk0_io` and the outcome of the transfer. -/
def sfsInitRead (blkno : ℕ) : MountCall (ℕ → UInt8) := do
  let dev ← get
  let b := u32 (blkno * SFS_BLKSIZE) / SFS_BLKSIZE
  if b + 1 > dev.blocks then
    throw (-E_INVAL)
  else
    modify fun dev => { dev with transfers := dev.transfers + 1 }
    if dev.fault dev.transfers ≠ 0 then
      throw (-(dev.fault dev.transfers : ℤ))
    else
      return dev.data b

/-- The loop of `sfs_init_freemap`: `nblks` blocks, from `blkno` on, go to the words from `ix` on. -/
def initFreemapLoop : ℕ → ℕ → ℕ → (ℕ → BitVec 32) → MountCall (ℕ → BitVec 32)
  | 0, _, _, map => return map
  | nblks + 1, blkno, ix, map => do
    let block ← sfsInitRead blkno
    initFreemapLoop nblks (blkno + 1) (ix + SFS_BLK_NENTRY) fun k =>
      if ix ≤ k ∧ k < ix + SFS_BLK_NENTRY then BitVec.ofNat 32 (Bytes.word block 4 (4 * (k - ix))) else map k

/-- `sfs_init_freemap`. -/
def sfsInitFreemap (freemap : Bitmap) (blkno nblks : ℕ) : MountCall Bitmap := do
  Act.demand .panic (4 * freemap.nwords = nblks * SFS_BLKSIZE)
  return { freemap with map := ← initFreemapLoop nblks blkno 0 freemap.map }

/-- The set bits below `nbits`, as the loop over `bitmap_test` counts them. -/
def countUnused (freemap : Bitmap) (nbits : ℕ) : ℕ := Nat.count (fun i => freemap.bit i = true) nbits

/-- `sfs_do_mount`. -/
def sfsDoMount : MountCall Mounted := do
  let super ← sfsInitRead SFS_BLKN_SUPER
  let blocks := Bytes.word super 4 4
  let unusedBlocks := Bytes.word super 4 8
  if Bytes.word super 4 0 ≠ SFS_MAGIC then
    throw (-E_INVAL)
  else if blocks > (← get).blocks then
    throw (-E_INVAL)
  else
    let nbits := u32 (roundUp blocks SFS_BLKBITS)
    let freemap ← bitmapCreate nbits
    let freemap ← sfsInitFreemap freemap SFS_BLKN_FREEMAP (u32 (roundUpDiv blocks SFS_BLKBITS))
    Act.demand .panic (countUnused freemap nbits = unusedBlocks)
    return ⟨blocks, unusedBlocks, freemap⟩

/-! ## What is read -/

variable {dev : Disk} {blkno nblks ix : ℕ} {map : ℕ → BitVec 32}

/-- The error a transfer of this device can report. -/
def FaultOf (dev : Disk) (e : ℤ) : Prop := ∃ k, dev.fault k ≠ 0 ∧ e = -(dev.fault k : ℤ)

/-- The device is as it was, but for the transfers made. -/
def SameDisk (dev dev' : Disk) : Prop :=
  dev'.blocks = dev.blocks ∧ dev'.data = dev.data ∧ dev'.fault = dev.fault

/-- **A block is read**, unless the transfer fails. -/
theorem wpe_sfsInitRead (hb : blkno < dev.blocks) (hlt : blkno < 2 ^ 20) (E : Stop → Prop) :
    Act.wpe (sfsInitRead blkno) (fun block dev' => block = dev.data blkno ∧ SameDisk dev dev')
      (fun e _ => FaultOf dev e) E dev := by
  have hblk : u32 (blkno * SFS_BLKSIZE) / SFS_BLKSIZE = blkno := by
    change (blkno * 4096) % 2 ^ 32 / 4096 = blkno
    omega
  simp only [sfsInitRead, Act.wpe_bind, Act.wpe_get, hblk, Act.wpe_ite, Act.wpe_throw, Act.wpe_modify,
    Act.wpe_pure]
  exact ⟨fun hno => by omega, fun _ => ⟨fun hf => ⟨_, hf, rfl⟩, fun _ => ⟨trivial, rfl, rfl, rfl⟩⟩⟩

/-- **The words of the free map** are those of its blocks, one after another. -/
theorem wpe_initFreemapLoop (n : ℕ) (hb : ∀ k < n, blkno + k < dev.blocks) (hlt : blkno + n ≤ 2 ^ 20)
    (E : Stop → Prop) :
    Act.wpe (initFreemapLoop n blkno ix map)
      (fun map' dev' => SameDisk dev dev' ∧ (∀ k < ix, map' k = map k) ∧
        ∀ k < SFS_BLK_NENTRY * n, map' (ix + k) = BitVec.ofNat 32
          (Bytes.word (dev.data (blkno + k / SFS_BLK_NENTRY)) 4 (4 * (k % SFS_BLK_NENTRY))))
      (fun e _ => FaultOf dev e) E dev := by
  have hent : SFS_BLK_NENTRY = 1024 := rfl
  induction n generalizing dev blkno ix map with
  | zero =>
    refine ⟨⟨rfl, rfl, rfl⟩, fun _ _ => rfl, fun k hk => ?_⟩
    rw [Nat.mul_zero] at hk
    omega
  | succ n ih =>
    rw [initFreemapLoop, Act.wpe_bind]
    refine Act.wpe_mono (wpe_sfsInitRead (hb 0 (Nat.succ_pos n)) (by omega) E) ?_ (fun _ _ => id) fun _ => id
    rintro _ dev' ⟨rfl, hblocks, hdata, hfault⟩
    refine Act.wpe_mono (ih (fun k hk => ?_) (by omega)) ?_ (fun e _ he => ?_) fun _ => id
    · have := hb (k + 1) (by omega)
      omega
    · rintro map' dev'' ⟨⟨hblocks', hdata', hfault'⟩, hlow, hhigh⟩
      refine ⟨⟨hblocks'.trans hblocks, hdata'.trans hdata, hfault'.trans hfault⟩, fun k hk => ?_,
        fun k hk => ?_⟩
      · rw [hlow k (by omega), if_neg (by omega)]
      · rcases lt_or_ge k SFS_BLK_NENTRY with hlt | hge
        · rw [hlow (ix + k) (by omega), if_pos (by omega), Nat.add_sub_cancel_left,
            Nat.div_eq_of_lt hlt, Nat.mod_eq_of_lt hlt, Nat.add_zero]
        · obtain ⟨j, rfl⟩ := Nat.exists_eq_add_of_le hge
          have hj : j < SFS_BLK_NENTRY * n := by
            rw [Nat.mul_succ] at hk
            omega
          rw [← Nat.add_assoc, hhigh j hj, hdata, Nat.add_mod_left,
            Nat.add_div_left j (by norm_num : 0 < SFS_BLK_NENTRY), show blkno + (j / SFS_BLK_NENTRY).succ =
              blkno + 1 + j / SFS_BLK_NENTRY by omega]
    · obtain ⟨k, hk, rfl⟩ := he
      exact ⟨k, hfault ▸ hk, by rw [hfault]⟩

/-! ## What is mounted -/

/-- The blocks of the free map. -/
def mapBlocks (blocks : ℕ) : ℕ := (blocks + SFS_BLKBITS - 1) / SFS_BLKBITS

/-- The bit of block `i` in the free map on a device. -/
def mapBit (data : ℕ → ℕ → UInt8) (i : ℕ) : Bool :=
  (Bytes.word (data (SFS_BLKN_FREEMAP + i / SFS_BLKBITS)) 4 (4 * (i % SFS_BLKBITS / WORD_BITS))).testBit
    (i % WORD_BITS)

/-- **A new bitmap** of whole blocks. -/
theorem wpe_bitmapCreate {n : ℕ} (hpos : 0 < n) (hn : n < 2 ^ 16) (dev : Disk) :
    Act.wpe (bitmapCreate (SFS_BLKBITS * n))
      (fun b dev' => dev' = dev ∧ b.nbits = SFS_BLKBITS * n ∧ b.nwords = SFS_BLK_NENTRY * n)
      (fun e _ => FaultOf dev e) (fun _ => False) dev := by
  have hnbits : u32 (SFS_BLKBITS * n + WORD_BITS) = SFS_BLKBITS * n + WORD_BITS := u32_of_lt (by
    change 32768 * n + 32 < 2 ^ 32
    omega)
  have hnwords : u32 (roundUpDiv (SFS_BLKBITS * n) WORD_BITS) = SFS_BLK_NENTRY * n := by
    change (32768 * n + 32 - 1) % 2 ^ 64 / 32 % 2 ^ 32 = 1024 * n
    omega
  have hwhole : SFS_BLKBITS * n = SFS_BLK_NENTRY * n * WORD_BITS := by
    change 32768 * n = 1024 * n * 32
    omega
  have hne : SFS_BLKBITS * n ≠ 0 := (Nat.mul_pos (by norm_num) hpos).ne'
  simp only [bitmapCreate, Act.wpe_bind, Act.wpe_demand, hnbits, hnwords, Act.wpe_ite, Act.wpe_pure]
  exact ⟨fun _ => ⟨fun hno => absurd hwhole hno, fun _ => ⟨trivial, trivial, trivial⟩⟩,
    fun hno => hno ⟨hne, Nat.lt_add_of_pos_right (by norm_num)⟩⟩

/-- **`sfs_do_mount`** of a device whose superblock and free map agree: it fails only as a transfer does, and
the free map is the one on the device. -/
theorem wpe_sfsDoMount {blocks unused : ℕ} (hmagic : Bytes.word (dev.data SFS_BLKN_SUPER) 4 0 = SFS_MAGIC)
    (hblocks : Bytes.word (dev.data SFS_BLKN_SUPER) 4 4 = blocks)
    (hunused : Bytes.word (dev.data SFS_BLKN_SUPER) 4 8 = unused) (hpos : 0 < blocks)
    (hmax : blocks ≤ 2 ^ 24) (hdev : blocks ≤ dev.blocks)
    (hroom : SFS_BLKN_FREEMAP + mapBlocks blocks ≤ blocks)
    (hcount : Nat.count (fun i => mapBit dev.data i = true) (SFS_BLKBITS * mapBlocks blocks) = unused) :
    Act.wpe sfsDoMount (fun v _ => v.blocks = blocks ∧ v.unusedBlocks = unused ∧
        v.freemap.nbits = SFS_BLKBITS * mapBlocks blocks ∧
        v.freemap.nwords = SFS_BLK_NENTRY * mapBlocks blocks ∧
        ∀ i < SFS_BLKBITS * mapBlocks blocks, v.freemap.bit i = mapBit dev.data i)
      (fun e _ => FaultOf dev e) (fun _ => False) dev := by
  have h0 : SFS_BLKN_SUPER = 0 := rfl
  have h2 : SFS_BLKN_FREEMAP = 2 := rfl
  have hn : mapBlocks blocks < 2 ^ 16 := by
    change (blocks + 32768 - 1) / 32768 < 2 ^ 16
    omega
  have hnpos : 0 < mapBlocks blocks := by
    change 0 < (blocks + 32768 - 1) / 32768
    omega
  have hnbits : u32 (roundUp blocks SFS_BLKBITS) = SFS_BLKBITS * mapBlocks blocks := by
    change ((blocks + 32768 - 1) % 2 ^ 64 - (blocks + 32768 - 1) % 2 ^ 64 % 32768) % 2 ^ 32 =
      32768 * ((blocks + 32768 - 1) / 32768)
    omega
  have hnblks : u32 (roundUpDiv blocks SFS_BLKBITS) = mapBlocks blocks := by
    change (blocks + 32768 - 1) % 2 ^ 64 / 32768 % 2 ^ 32 = (blocks + 32768 - 1) / 32768
    omega
  generalize mapBlocks blocks = n at *
  rw [sfsDoMount, Act.wpe_bind]
  refine Act.wpe_mono (wpe_sfsInitRead (by omega) (by norm_num) _) ?_ (fun _ _ => id) fun _ => id
  rintro _ dev' ⟨rfl, hsame, hdata, hfault⟩
  rw [hmagic, hblocks, hunused, if_neg (not_not.mpr rfl), Act.wpe_bind, Act.wpe_get, hsame,
    if_neg (not_lt.mpr hdev)]
  simp only [hnbits, hnblks]
  have hfaultOf : ∀ e, FaultOf dev' e → FaultOf dev e := by
    rintro e ⟨k, hk, rfl⟩
    exact ⟨k, hfault ▸ hk, by rw [hfault]⟩
  rw [Act.wpe_bind]
  refine Act.wpe_mono (wpe_bitmapCreate hnpos hn dev') ?_ (fun e _ => hfaultOf e) fun _ => id
  rintro b _ ⟨rfl, hbits, hwords⟩
  have hlen : 4 * b.nwords = n * SFS_BLKSIZE := by
    rw [hwords]
    change 4 * (1024 * n) = n * 4096
    omega
  simp only [sfsInitFreemap, Act.wpe_bind, Act.wpe_demand, Act.wpe_pure]
  refine ⟨fun _ => ?_, fun hno => hno hlen⟩
  refine Act.wpe_mono (wpe_initFreemapLoop n (fun k hk => by omega) (by omega) _) ?_
    (fun e _ => hfaultOf e) fun _ => id
  rintro map dev'' ⟨-, -, hmap⟩
  have hbit : ∀ i < SFS_BLKBITS * n, (⟨b.nbits, b.nwords, map⟩ : Bitmap).bit i = mapBit dev.data i := by
    intro i hi
    have hword := hmap (i / 32) (by
      change i / 32 < 1024 * n
      change i < 32768 * n at hi
      omega)
    have hdiv : i / 32 / SFS_BLK_NENTRY = i / SFS_BLKBITS := by
      change i / 32 / 1024 = i / 32768
      omega
    have hmod : i / 32 % SFS_BLK_NENTRY = i % SFS_BLKBITS / WORD_BITS := by
      change i / 32 % 1024 = i % 32768 / 32
      omega
    rw [Nat.zero_add] at hword
    rw [Bitmap.bit, mapBit]
    dsimp only
    rw [hword, hdata, hdiv, hmod, BitVec.getLsbD_ofNat, decide_eq_true (Nat.mod_lt i (by norm_num)),
      Bool.true_and]
  have hall : countUnused ⟨b.nbits, b.nwords, map⟩ (SFS_BLKBITS * n) = unused := by
    rw [← hcount]
    exact le_antisymm (Nat.count_mono_left fun i hi h => by rwa [← hbit i hi])
      (Nat.count_mono_left fun i hi h => by rwa [hbit i hi])
  refine ⟨fun _ => ⟨trivial, trivial, hbits, hwords, hbit⟩, fun hno => ?_⟩
  rw [hnbits] at hno
  exact hno hall

end UCore.Sfs
