import UCore.Sfs.Content
import UCore.Sfs.Dir

/-!
# Sfs/Fresh — a volume just made

    block 0      superblock
    block 1      the one inode, an empty file
    block 2      the free map
    blocks 3 …   free

and one with a root directory, whose one file `a` holds one byte:

    block 1      the root directory     block 4      the file
    block 3      its one entry          block 5      its one block
    block 2      the free map           blocks 6 …   free
-/

namespace UCore.Sfs

/-- The free map of a volume of `m` blocks, free from block `n` on. -/
def mapFrom (n m : ℕ) : Bitmap where
  nbits := 32 * ((m + 31) / 32)
  nwords := (m + 31) / 32
  map w := BitVec.allOnes 32 <<< (n - 32 * w) &&& BitVec.allOnes 32 >>> (32 - (m - 32 * w))

/-- The free map of a new volume of `m` blocks. -/
def freshMap (m : ℕ) : Bitmap where
  nbits := 32 * ((m + 31) / 32)
  nwords := (m + 31) / 32
  map w := BitVec.allOnes 32 <<< (3 - 32 * w) &&& BitVec.allOnes 32 >>> (32 - (m - 32 * w))

/-- **A new volume of `m` blocks**, with one empty file. -/
def freshVolume (m : ℕ) : Volume where
  blocks := m
  unusedBlocks := m - 3
  superDirty := false
  freemap := freshMap m
  dev := ⟨m, fun _ _ => 0, fun _ => 0, 0⟩
  inode _ := ⟨0, .file, 1, 0, fun _ => 0, 0, false⟩

variable {m i k : ℕ}

theorem mapFrom_bit (n b : ℕ) : (mapFrom n m).bit b = decide (n ≤ b ∧ b < m) := by
  have hmod : b % 32 < 32 := Nat.mod_lt _ (by norm_num)
  simp only [Bitmap.bit, mapFrom, BitVec.getLsbD_and, BitVec.getLsbD_shiftLeft,
    BitVec.getLsbD_ushiftRight, BitVec.getLsbD_allOnes]
  rw [Bool.eq_iff_iff]
  simp only [Bool.and_eq_true, decide_eq_true_iff, Bool.not_eq_true', decide_eq_false_iff_not]
  omega

theorem freshMap_bit (b : ℕ) : (freshMap m).bit b = decide (3 ≤ b ∧ b < m) := mapFrom_bit 3 b

theorem freshVolume_bmap : bmap (freshVolume m) i k = 0 := by
  unfold bmap freshVolume
  simp

theorem freshVolume_refBlock {r : Ref} (hr : r.Valid {1}) (h0 : refBlock (freshVolume m) r ≠ 0) :
    r = .inode 1 := by
  cases r with
  | inode i => rw [show i = 1 from Finset.mem_singleton.mp hr]
  | indirect i => exact absurd rfl h0
  | block i k => exact absurd (freshVolume_bmap) h0

theorem freshVolume_fileBlock (hm : 3 ≤ m) (hmax : m ≤ 2 ^ 15) (b : ℕ) :
    FileBlock (freshVolume m) b ↔ b = 1 ∨ 3 ≤ b ∧ b < m := by
  have hres : roundUpDiv m (SFS_BLKSIZE * 8) = 1 := by
    change u64 (m + 32768 - 1) / 32768 = 1
    rw [u64_of_lt (by omega)]
    omega
  unfold FileBlock InRange Reserved
  change (b ≠ 0 ∧ b < m) ∧ ¬ (b = 0 ∨ 2 ≤ b ∧ b < 2 + roundUpDiv m (SFS_BLKSIZE * 8)) ↔ _
  rw [hres]
  omega

/-- **A new volume is consistent.** -/
theorem freshVolume_owned (hm : 3 ≤ m) (hmax : m ≤ 2 ^ 15) : Owned {1} ∅ (freshVolume m) := by
  have hfile := freshVolume_fileBlock hm hmax
  have hbit : ∀ b, (freshVolume m).freemap.bit b = decide (3 ≤ b ∧ b < m) := freshMap_bit
  refine ⟨⟨le_rfl, by change m ≤ 2 ^ 20; omega⟩, ⟨rfl, ?_⟩, fun r hr h0 => ?_,
    fun r r' hr hr' h0 heq => ?_, fun b hb hused => ?_, fun b hb => absurd hb (Finset.notMem_empty b),
    fun b hb => absurd hb (Finset.notMem_empty b), fun b _ hfree => ?_, ?_, fun i hi => ?_⟩
  · change m ≤ 32 * ((m + 31) / 32)
    omega
  · obtain rfl := freshVolume_refBlock hr h0
    exact ⟨(hfile 1).mpr (.inl rfl), by rw [hbit]; rfl⟩
  · rw [freshVolume_refBlock hr h0, freshVolume_refBlock hr' (heq ▸ h0)]
  · rw [hbit, decide_eq_false_iff_not] at hused
    rcases (hfile b).mp hb with rfl | hin
    · exact .inl ⟨.inode 1, Finset.mem_singleton_self 1, rfl⟩
    · exact absurd hin hused
  · rw [hbit, decide_eq_true_iff] at hfree
    exact (hfile b).mpr (.inr hfree)
  · have hset : (Finset.range (freshVolume m).freemap.nbits).filter ((freshVolume m).freemap.bit ·) =
        Finset.Ico 3 m := by
      ext b
      rw [Finset.mem_filter, Finset.mem_range, hbit, decide_eq_true_iff, Finset.mem_Ico]
      change b < 32 * ((m + 31) / 32) ∧ _ ↔ _
      omega
    rw [freeCount, hset, Nat.card_Ico]
    rfl
  · rw [Finset.mem_singleton.mp hi]
    exact one_ne_zero

theorem freshVolume_dense : Dense (freshVolume m) i :=
  ⟨Nat.zero_le _, fun _ hk => absurd hk (Nat.not_lt_zero _)⟩

/-- The one file of a new volume. -/
theorem freshVolume_regularFile {m : ℕ} (hm : 3 ≤ m) (hmax : m ≤ 2 ^ 15) :
    RegularFile {1} ∅ (freshVolume m) 1 :=
  ⟨freshVolume_owned hm hmax, Finset.mem_singleton_self 1, rfl, freshVolume_dense, by
    change 0 = (0 + 4095) / 4096
    norm_num⟩

theorem freshVolume_not_faulty : ¬ Faulty (freshVolume m) := fun ⟨_, hf⟩ => hf rfl

/-- The empty file lacks every block, and the entry block. -/
theorem freshVolume_missing {n : ℕ} :
    missing (freshVolume m) i n = n + if 12 < n then 1 else 0 := by
  have hall : (Finset.range n).filter (fun k => ((freshVolume m).inode i).blocks ≤ k ∧
      bmap (freshVolume m) i k = 0) = Finset.range n :=
    Finset.filter_true_of_mem fun k _ => ⟨Nat.zero_le _, freshVolume_bmap⟩
  rw [missing, hall, Finset.card_range]
  exact congrArg (n + ·) (if_congr (and_iff_left rfl) rfl rfl)

/-! ## A root directory with one file -/

/-- The root directory. -/
def rootDin : SfsInode := ⟨4096, .dir, 1, 1, fun k => if k = 0 then 3 else 0, 0, false⟩

/-- The file in it. -/
def fileDin : SfsInode := ⟨1, .file, 1, 1, fun k => if k = 0 then 5 else 0, 0, false⟩

/-- The entry for the file: `ino` 4, and the name `a`. -/
def rootEntry : ℕ → UInt8
  | 0 => 4
  | 4 => 97
  | _ => 0

/-- **A volume of `m` blocks with a root directory**, and in it one file. -/
def rootVolume (m : ℕ) : Volume where
  blocks := m
  unusedBlocks := m - 6
  superDirty := false
  freemap := mapFrom 6 m
  dev := {
    blocks := m
    data := fun
      | 1 => encodeDin rootDin
      | 3 => rootEntry
      | 4 => encodeDin fileDin
      | _ => fun _ => 0
    fault := fun _ => 0
    transfers := 0 }
  inode i := if i = 1 then rootDin else fileDin

theorem rootVolume_bmap : bmap (rootVolume m) i k = if k = 0 then if i = 1 then 3 else 5 else 0 := by
  have hinode : (rootVolume m).inode i = if i = 1 then rootDin else fileDin := rfl
  rw [bmap, hinode]
  by_cases hk : k < 12
  · rw [if_pos hk]
    split <;> rfl
  · have hnone : (if i = 1 then rootDin else fileDin).indirect = 0 := by
      split <;> rfl
    have hk0 : k ≠ 0 := by omega
    rw [if_neg hk, if_pos hnone, if_neg hk0]

theorem rootVolume_refBlock {r : Ref} (hr : r.Valid {1, 4}) (h0 : refBlock (rootVolume m) r ≠ 0) :
    r = .inode 1 ∨ r = .inode 4 ∨ r = .block 1 0 ∨ r = .block 4 0 := by
  have hmem : ∀ i ∈ ({1, 4} : Finset ℕ), i = 1 ∨ i = 4 := by simp
  cases r with
  | inode i => rcases hmem i hr with rfl | rfl <;> simp
  | indirect i => rcases hmem i hr with rfl | rfl <;> exact absurd rfl h0
  | block i k =>
    have hk : k = 0 := by
      by_contra hk
      exact h0 (rootVolume_bmap.trans (if_neg hk))
    rcases hmem i hr.1 with rfl | rfl <;> simp [hk]

theorem rootVolume_fileBlock (hm : 6 ≤ m) (hmax : m ≤ 2 ^ 15) (b : ℕ) :
    FileBlock (rootVolume m) b ↔ b = 1 ∨ 3 ≤ b ∧ b < m := by
  have hres : roundUpDiv m (SFS_BLKSIZE * 8) = 1 := by
    change u64 (m + 32768 - 1) / 32768 = 1
    rw [u64_of_lt (by omega)]
    omega
  unfold FileBlock InRange Reserved
  change (b ≠ 0 ∧ b < m) ∧ ¬ (b = 0 ∨ 2 ≤ b ∧ b < 2 + roundUpDiv m (SFS_BLKSIZE * 8)) ↔ _
  rw [hres]
  omega

/-- **The volume is consistent.** -/
theorem rootVolume_owned (hm : 6 ≤ m) (hmax : m ≤ 2 ^ 15) : Owned {1, 4} ∅ (rootVolume m) := by
  have hfile := rootVolume_fileBlock hm hmax
  have hbit : ∀ b, (rootVolume m).freemap.bit b = decide (6 ≤ b ∧ b < m) := mapFrom_bit 6
  have h3 : refBlock (rootVolume m) (.block 1 0) = 3 := rootVolume_bmap
  have h5 : refBlock (rootVolume m) (.block 4 0) = 5 := rootVolume_bmap
  refine ⟨⟨le_rfl, by change m ≤ 2 ^ 20; omega⟩, ⟨rfl, ?_⟩, fun r hr h0 => ?_,
    fun r r' hr hr' h0 heq => ?_, fun b hb hused => ?_, fun b hb => absurd hb (Finset.notMem_empty b),
    fun b hb => absurd hb (Finset.notMem_empty b), fun b _ hfree => ?_, ?_, fun i hi => ?_⟩
  · change m ≤ 32 * ((m + 31) / 32)
    omega
  · rw [hfile, hbit, decide_eq_false_iff_not]
    rcases rootVolume_refBlock hr h0 with rfl | rfl | rfl | rfl
    · change (1 = 1 ∨ 3 ≤ 1 ∧ 1 < m) ∧ ¬ (6 ≤ 1 ∧ 1 < m)
      omega
    · change (4 = 1 ∨ 3 ≤ 4 ∧ 4 < m) ∧ ¬ (6 ≤ 4 ∧ 4 < m)
      omega
    · rw [h3]
      omega
    · rw [h5]
      omega
  · have h1 : refBlock (rootVolume m) (.inode 1) = 1 := rfl
    have h4 : refBlock (rootVolume m) (.inode 4) = 4 := rfl
    rcases rootVolume_refBlock hr h0 with rfl | rfl | rfl | rfl <;>
      rcases rootVolume_refBlock hr' (heq ▸ h0) with rfl | rfl | rfl | rfl <;> simp_all
  · rw [hbit, decide_eq_false_iff_not] at hused
    have hcases : b = 1 ∨ b = 3 ∨ b = 4 ∨ b = 5 := by
      have := (hfile b).mp hb
      omega
    rcases hcases with rfl | rfl | rfl | rfl
    · exact .inl ⟨.inode 1, by simp [Ref.Valid], rfl⟩
    · exact .inl ⟨.block 1 0, by simp [Ref.Valid], h3⟩
    · exact .inl ⟨.inode 4, by simp [Ref.Valid], rfl⟩
    · exact .inl ⟨.block 4 0, by simp [Ref.Valid], h5⟩
  · rw [hbit, decide_eq_true_iff] at hfree
    exact (hfile b).mpr (.inr ⟨by omega, hfree.2⟩)
  · have hset : (Finset.range (rootVolume m).freemap.nbits).filter ((rootVolume m).freemap.bit ·) =
        Finset.Ico 6 m := by
      ext b
      rw [Finset.mem_filter, Finset.mem_range, hbit, decide_eq_true_iff, Finset.mem_Ico]
      change b < 32 * ((m + 31) / 32) ∧ _ ↔ _
      omega
    rw [freeCount, hset, Nat.card_Ico]
    rfl
  · rintro rfl
    simp at hi

end UCore.Sfs
