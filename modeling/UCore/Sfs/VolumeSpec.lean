import UCore.Sfs.Volume

/-!
# Sfs/VolumeSpec — what transfers, allocation and release do

A transfer of a block in range does what it says and leaves the rest of the volume alone, or fails
with the device and changes nothing; `Taken`, `Allocated` and `Freed` say what becomes of the volume
in the two calls on the free map.
-/

namespace UCore.Sfs

variable {α : Type} {v v' : Volume} {b i j k len offset : ℕ} {Q : α → Volume → Prop}
  {R : ℤ → Volume → Prop} {E : Assertion → Prop}

/-- The judgement of a code is that of the call. -/
theorem wp_codeOf {m : Call Unit} {Q : ℤ → Volume → Prop} {E : Assertion → Prop} :
    Act.wp (codeOf m) Q E v ↔ Act.wpe m (fun _ => Q 0) Q E v := by
  rw [codeOf, Act.wp_bind, Act.wp_run]
  rfl

/-! ## Bytes -/

theorem overlay_of_mem {dst src : ℕ → UInt8} (h : offset ≤ i ∧ i < offset + len) :
    overlay dst offset len src i = src (i - offset) := if_pos h

theorem overlay_of_notMem {dst src : ℕ → UInt8} (h : ¬ (offset ≤ i ∧ i < offset + len)) :
    overlay dst offset len src i = dst i := if_neg h

/-- **What was stored is loaded.** -/
theorem decodeU32_encodeU32 (h : i < 2 ^ 32) : decodeU32 (encodeU32 i) = i := by
  simp only [decodeU32, encodeU32, UInt8.toNat_ofNat']
  omega

theorem decodeU32_congr {f g : ℕ → UInt8} (h : ∀ j < 4, f j = g j) : decodeU32 f = decodeU32 g := by
  rw [decodeU32, decodeU32, h 0 (by norm_num), h 1 (by norm_num), h 2 (by norm_num),
    h 3 (by norm_num)]

theorem decodeU32_zero : decodeU32 (fun _ => 0) = 0 := rfl

theorem decodeU32_lt (f : ℕ → UInt8) : decodeU32 f < 2 ^ 32 := by
  have h0 := (f 0).toNat_lt
  have h1 := (f 1).toNat_lt
  have h2 := (f 2).toNat_lt
  have h3 := (f 3).toNat_lt
  unfold decodeU32
  omega

/-! ## Transfers -/

/-- **A volume on a device that holds it**; `disk0` has fewer than `2 ^ 20` blocks, since its size in
bytes is an `unsigned int`. -/
structure Fits (v : Volume) : Prop where
  mounted : v.blocks ≤ v.dev.blocks
  small : v.dev.blocks ≤ 2 ^ 20

/-- Some transfer of the device fails. -/
def Faulty (v : Volume) : Prop := ∃ n, v.dev.fault n ≠ 0

/-- The volume after one more transfer. -/
def Volume.tick (v : Volume) : Volume :=
  { v with dev := { v.dev with transfers := v.dev.transfers + 1 } }

/-- The volume after one more transfer, a write of the block `b`. -/
def Volume.put (v : Volume) (b : ℕ) (buf : ℕ → UInt8) : Volume :=
  { v with dev := { v.dev with
      transfers := v.dev.transfers + 1
      data := Function.update v.dev.data b (overlay (v.dev.data b) 0 SFS_BLKSIZE buf) } }

section Projections

@[simp] theorem tick_blocks : v.tick.blocks = v.blocks := rfl
@[simp] theorem tick_unusedBlocks : v.tick.unusedBlocks = v.unusedBlocks := rfl
@[simp] theorem tick_freemap : v.tick.freemap = v.freemap := rfl
@[simp] theorem tick_inode : v.tick.inode = v.inode := rfl
@[simp] theorem tick_data : v.tick.dev.data = v.dev.data := rfl
@[simp] theorem tick_devBlocks : v.tick.dev.blocks = v.dev.blocks := rfl
@[simp] theorem tick_fault : v.tick.dev.fault = v.dev.fault := rfl
@[simp] theorem put_blocks {buf : ℕ → UInt8} : (v.put b buf).blocks = v.blocks := rfl
@[simp] theorem put_unusedBlocks {buf : ℕ → UInt8} :
    (v.put b buf).unusedBlocks = v.unusedBlocks := rfl
@[simp] theorem put_freemap {buf : ℕ → UInt8} : (v.put b buf).freemap = v.freemap := rfl
@[simp] theorem put_inode {buf : ℕ → UInt8} : (v.put b buf).inode = v.inode := rfl
@[simp] theorem put_devBlocks {buf : ℕ → UInt8} : (v.put b buf).dev.blocks = v.dev.blocks := rfl
@[simp] theorem put_fault {buf : ℕ → UInt8} : (v.put b buf).dev.fault = v.dev.fault := rfl

theorem put_data_self {buf : ℕ → UInt8} (hj : j < SFS_BLKSIZE) :
    (v.put b buf).dev.data b j = buf j := by
  have h : (v.put b buf).dev.data b = overlay (v.dev.data b) 0 SFS_BLKSIZE buf :=
    Function.update_self ..
  rw [h, overlay_of_mem (by omega), Nat.sub_zero]

theorem put_data_of_ne {buf : ℕ → UInt8} (h : i ≠ b) : (v.put b buf).dev.data i = v.dev.data i :=
  Function.update_of_ne h ..

@[simp] theorem setInode_blocks {f : SfsInode → SfsInode} : (v.setInode i f).blocks = v.blocks := rfl
@[simp] theorem setInode_unusedBlocks {f : SfsInode → SfsInode} :
    (v.setInode i f).unusedBlocks = v.unusedBlocks := rfl
@[simp] theorem setInode_freemap {f : SfsInode → SfsInode} :
    (v.setInode i f).freemap = v.freemap := rfl
@[simp] theorem setInode_dev {f : SfsInode → SfsInode} : (v.setInode i f).dev = v.dev := rfl
@[simp] theorem setInode_self {f : SfsInode → SfsInode} :
    (v.setInode i f).inode i = f (v.inode i) := Function.update_self ..

theorem setInode_of_ne {f : SfsInode → SfsInode} (h : j ≠ i) :
    (v.setInode i f).inode j = v.inode j := Function.update_of_ne h ..

end Projections

theorem Fits.tick (h : Fits v) : Fits v.tick := ⟨h.mounted, h.small⟩

theorem Fits.put (h : Fits v) {buf : ℕ → UInt8} : Fits (v.put b buf) := ⟨h.mounted, h.small⟩

/-- A block number that the volume has, and that is not the superblock's. -/
def InRange (v : Volume) (b : ℕ) : Prop := b ≠ 0 ∧ b < v.blocks

/-- The transfer after the next `n` fails. -/
def FailsAfter (v : Volume) (n : ℕ) : Prop := v.dev.fault (v.dev.transfers + n) ≠ 0

instance {n : ℕ} : Decidable (FailsAfter v n) := inferInstanceAs (Decidable (_ ≠ _))

theorem FailsAfter.faulty {n : ℕ} (h : FailsAfter v n) : Faulty v := ⟨_, h⟩

/-- **A block's transfer** reads or writes the block it is for, or fails with the device. -/
theorem wpe_rwblock {Q : ℕ → Volume → Prop} (h : Fits v) (hb : InRange v b)
    (hQ : ¬ FailsAfter v 0 → Q b v.tick) (hR : ∀ e < 0, FailsAfter v 0 → R e v.tick) :
    Act.wpe (sfsRwblockNolock b) Q R E v := by
  have hm := h.mounted
  have hs := h.small
  obtain ⟨hb0, hlt⟩ := hb
  have hdiv : u32 (b * SFS_BLKSIZE) / SFS_BLKSIZE = b := by
    rw [u32_of_lt]
    · exact Nat.mul_div_cancel b (by norm_num)
    · change b * 4096 < 2 ^ 32
      omega
  simp only [sfsRwblockNolock, dopIo, Act.wpe_bind, Act.wpe_get, Act.wpe_demand]
  refine ⟨fun _ => ?_, fun hno => absurd ⟨hb0, hlt⟩ hno⟩
  rw [hdiv, if_neg (by omega), Act.wpe_bind, Act.wpe_modify]
  by_cases hf : v.dev.fault v.dev.transfers = 0
  · rw [if_neg (not_not.mpr hf)]
    exact hQ (not_not.mpr hf)
  · rw [if_pos hf]
    exact hR _ (by omega) hf

/-- …and so does the write of a block. -/
theorem wpe_wblock {Q : Unit → Volume → Prop} {buf : ℕ → UInt8} (h : Fits v) (hb : InRange v b)
    (hQ : ¬ FailsAfter v 0 → Q () (v.put b buf)) (hR : ∀ e < 0, FailsAfter v 0 → R e v.tick) :
    Act.wpe (sfsWblock buf b) Q R E v := by
  rw [sfsWblock, Act.wpe_bind]
  exact wpe_rwblock h hb hQ hR

/-- …and the read of a part of one. -/
theorem wpe_rbuf {Q : (ℕ → UInt8) → Volume → Prop} (h : Fits v) (hb : InRange v b)
    (hoff : offset < 4096) (hlen : offset + len ≤ 4096)
    (hQ : ¬ FailsAfter v 0 → Q (fun i => v.dev.data b (offset + i)) v.tick)
    (hR : ∀ e < 0, FailsAfter v 0 → R e v.tick) : Act.wpe (sfsRbuf len b offset) Q R E v := by
  rw [sfsRbuf, Act.wpe_bind, Act.wpe_demand]
  refine ⟨fun _ => ?_, fun hno => absurd ⟨hoff, hlen⟩ hno⟩
  rw [Act.wpe_bind, sfsRblock, Act.wpe_bind]
  exact wpe_rwblock h hb hQ hR

/-- A block's transfer that may fail with the device. -/
theorem wpe_sfsRwblockNolock {Q : ℕ → Volume → Prop} (h : Fits v) (hb : InRange v b)
    (hQ : Q b v.tick) (hR : ∀ e < 0, Faulty v → R e v.tick) :
    Act.wpe (sfsRwblockNolock b) Q R E v :=
  wpe_rwblock h hb (fun _ => hQ) fun e he hf => hR e he hf.faulty

/-- **Reading a block.** -/
theorem wpe_sfsRblock {Q : (ℕ → UInt8) → Volume → Prop} (h : Fits v) (hb : InRange v b)
    (hQ : Q (v.dev.data b) v.tick) (hR : ∀ e < 0, Faulty v → R e v.tick) :
    Act.wpe (sfsRblock b) Q R E v := by
  rw [sfsRblock, Act.wpe_bind]
  exact wpe_sfsRwblockNolock h hb hQ hR

/-- **Writing a block.** -/
theorem wpe_sfsWblock {Q : Unit → Volume → Prop} {buf : ℕ → UInt8} (h : Fits v)
    (hb : InRange v b) (hQ : Q () (v.put b buf)) (hR : ∀ e < 0, Faulty v → R e v.tick) :
    Act.wpe (sfsWblock buf b) Q R E v :=
  wpe_wblock h hb (fun _ => hQ) fun e he hf => hR e he hf.faulty

/-- **Reading part of a block.** -/
theorem wpe_sfsRbuf {Q : (ℕ → UInt8) → Volume → Prop} (h : Fits v) (hb : InRange v b)
    (hoff : offset < 4096) (hlen : offset + len ≤ 4096)
    (hQ : Q (fun i => v.dev.data b (offset + i)) v.tick) (hR : ∀ e < 0, Faulty v → R e v.tick) :
    Act.wpe (sfsRbuf len b offset) Q R E v :=
  wpe_rbuf h hb hoff hlen (fun _ => hQ) fun e he hf => hR e he hf.faulty

/-- **Writing part of a block**: the rest of it is read and written back. -/
theorem wpe_sfsWbuf {Q : Unit → Volume → Prop} {buf : ℕ → UInt8} (h : Fits v) (hb : InRange v b)
    (hoff : offset < 4096) (hlen : offset + len ≤ 4096)
    (hQ : Q () (v.tick.put b (overlay (v.dev.data b) offset len buf)))
    (hR : ∀ e < 0, Faulty v → R e v.tick ∧ R e v.tick.tick) :
    Act.wpe (sfsWbuf buf len b offset) Q R E v := by
  rw [sfsWbuf, Act.wpe_bind, Act.wpe_demand]
  refine ⟨fun _ => ?_, fun hno => absurd ⟨hoff, hlen⟩ hno⟩
  rw [Act.wpe_bind]
  exact wpe_sfsRblock h hb
    (wpe_sfsWblock h.tick hb hQ fun e he hf => (hR e he hf).2) fun e he hf => (hR e he hf).1

/-! ## The free map -/

/-- The free map covers the volume, in whole words. -/
structure Mapped (v : Volume) : Prop where
  words : v.freemap.nbits = 32 * v.freemap.nwords
  covers : v.blocks ≤ v.freemap.nbits

/-- The number of set bits. -/
def freeCount (v : Volume) : ℕ := ((Finset.range v.freemap.nbits).filter (v.freemap.bit ·)).card

theorem wpe_sfsBlockInuse {Q : Bool → Volume → Prop} (hm : v.blocks ≤ v.freemap.nbits)
    (hb : InRange v b) (hQ : Q (!v.freemap.bit b) v) : Act.wpe (sfsBlockInuse b) Q R E v := by
  simp only [sfsBlockInuse, onFreemap, Act.wpe_bind, Act.wpe_get, Act.wpe_demand, Act.wpe_zoome]
  refine ⟨fun _ => ?_, fun hno => absurd hb hno⟩
  exact Bitmap.wpe_bitmapTest hQ (hb.2.trans_le hm)

/-- **A block taken from the free map.** -/
structure Taken (v : Volume) (b : ℕ) (v' : Volume) : Prop where
  range : InRange v b
  wasFree : v.freemap.bit b = true
  freemap : Bitmap.SetTo v.freemap b false v'.freemap
  unused : v'.unusedBlocks + 1 = v.unusedBlocks
  blocks : v'.blocks = v.blocks
  inode : v'.inode = v.inode
  fault : v'.dev.fault = v.dev.fault
  devBlocks : v'.dev.blocks = v.dev.blocks
  data : ∀ c, c ≠ b → v'.dev.data c = v.dev.data c

/-- …and cleared. -/
structure Allocated (v : Volume) (b : ℕ) (v' : Volume) : Prop extends Taken v b v' where
  cleared : ∀ j < 4096, v'.dev.data b j = 0

/-- **A block given back to the free map.** -/
structure Freed (v : Volume) (b : ℕ) (v' : Volume) : Prop where
  freemap : Bitmap.SetTo v.freemap b true v'.freemap
  unused : v'.unusedBlocks = v.unusedBlocks + 1
  blocks : v'.blocks = v.blocks
  inode : v'.inode = v.inode
  dev : v'.dev = v.dev

/-- **`sfs_block_alloc`**, on a free map whose set bits are blocks of the volume and are counted by
`unused_blocks`.  It fails where no block is free, or with the one transfer it makes: then the block is
not cleared, and is not given back. -/
theorem wpe_blockAlloc {Q : ℕ → Volume → Prop} (h : Fits v) (hm : Mapped v)
    (hfree : ∀ b < v.freemap.nbits, v.freemap.bit b = true → InRange v b)
    (hcount : v.unusedBlocks = freeCount v)
    (hQ : ¬ FailsAfter v 0 → ∀ b v', Allocated v b v' →
      v'.dev.transfers = v.dev.transfers + 1 → Q b v')
    (hR : freeCount v = 0 → R (-E_NO_MEM) v)
    (hF : ∀ e < 0, FailsAfter v 0 → ∀ b v', Taken v b v' →
      v'.dev.transfers = v.dev.transfers + 1 → R e v') : Act.wpe sfsBlockAlloc Q R E v := by
  rw [sfsBlockAlloc, Act.wpe_bind, onFreemap, Act.wpe_zoome]
  refine Act.wpe_mono (Bitmap.wpe_bitmapAlloc v.freemap) ?_ ?_ (fun _ => False.elim)
  · rintro b m ⟨hlt, hbit, hset⟩
    rw [← hm.words] at hlt
    have hrange := hfree b hlt hbit
    have hpos : 0 < v.unusedBlocks := by
      rw [hcount]
      exact Finset.card_pos.mpr ⟨b, Finset.mem_filter.mpr ⟨Finset.mem_range.mpr hlt, hbit⟩⟩
    have hunused : v.unusedBlocks - 1 + 1 = v.unusedBlocks := Nat.sub_add_cancel hpos
    simp only [Act.wpe_bind, Act.wpe_get, Act.wpe_demand, Act.wpe_modify, Act.wpe_pure]
    refine ⟨fun _ => ?_, fun hno => absurd hpos hno⟩
    refine wpe_sfsBlockInuse ?_ hrange ?_
    · change v.blocks ≤ m.nbits
      rw [hset.nbits]
      exact hm.covers
    · have hused : m.bit b = false := by rw [hset.bit, if_pos rfl]
      refine ⟨fun _ => ?_, fun hno => absurd (by simp [hused]) hno⟩
      rw [sfsClearBlock]
      refine wpe_wblock ⟨h.mounted, h.small⟩ hrange (fun hf => hQ hf b _ ?_ rfl) fun e he hf =>
        hF e he hf b _ ⟨hrange, hbit, hset, hunused, rfl, rfl, rfl, rfl, fun c _ => rfl⟩ rfl
      exact ⟨⟨hrange, hbit, hset, hunused, rfl, rfl, rfl, rfl, fun c hc => put_data_of_ne hc⟩,
        fun j hj => put_data_self hj⟩
  · rintro e m ⟨rfl, rfl, hnone⟩
    refine hR ?_
    rw [freeCount, Finset.card_eq_zero, Finset.filter_eq_empty_iff]
    intro b hb
    rw [Finset.mem_range, hm.words] at hb
    simpa using hnone b hb

/-- **`sfs_block_alloc`**, on a device that may fail. -/
theorem wpe_sfsBlockAlloc {Q : ℕ → Volume → Prop} (h : Fits v) (hm : Mapped v)
    (hfree : ∀ b < v.freemap.nbits, v.freemap.bit b = true → InRange v b)
    (hcount : v.unusedBlocks = freeCount v)
    (hQ : ∀ b v', Allocated v b v' → Q b v')
    (hR : freeCount v = 0 → R (-E_NO_MEM) v)
    (hF : ∀ e < 0, ∀ b v', Faulty v → Taken v b v' → R e v') : Act.wpe sfsBlockAlloc Q R E v :=
  wpe_blockAlloc h hm hfree hcount (fun _ b v' ha _ => hQ b v' ha) hR
    fun e he hf b v' ht _ => hF e he b v' hf.faulty ht

/-- **`sfs_block_free`**, on a block in use. -/
theorem wpe_sfsBlockFree {Q : Unit → Volume → Prop} (hm : v.blocks ≤ v.freemap.nbits)
    (hb : InRange v b) (hused : v.freemap.bit b = false) (hQ : ∀ v', Freed v b v' → Q () v') :
    Act.wpe (sfsBlockFree b) Q R E v := by
  rw [sfsBlockFree, Act.wpe_bind]
  refine wpe_sfsBlockInuse hm hb ?_
  simp only [Act.wpe_bind, Act.wpe_demand, onFreemap, Act.wpe_zoome, Act.wpe_modify]
  refine ⟨fun _ => ?_, fun hno => absurd (by simp [hused]) hno⟩
  exact Bitmap.wpe_bitmapFree (fun m hset => hQ _ ⟨hset, rfl, rfl, rfl, rfl⟩) (hb.2.trans_le hm) hused

end UCore.Sfs
