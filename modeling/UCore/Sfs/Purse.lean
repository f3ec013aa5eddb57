import UCore.Sfs.Shapes
import UCore.Sfs.Grow

/-!
# Sfs/Purse — what the calls cost in free blocks

A volume on a sound device fails a call for want of free blocks and for nothing else.  `bits` counts
the set bits of the free map; each call here says what becomes of the count.  The block map may be
anything: a block that is not in use stops the call, one that is shared is not noticed.
-/

namespace UCore.Sfs

open Act

variable {v v' w w' : Volume} {i j k n b : ℕ}

/-- **A volume on a sound device**, with a free map in whole words. -/
structure Funded (v : Volume) : Prop where
  fits : Fits v
  sound : ¬ Faulty v
  words : v.freemap.nbits ≤ 32 * v.freemap.nwords

/-- The set bits of the free map. -/
def bits (v : Volume) : ℕ := ((Finset.range (32 * v.freemap.nwords)).filter (v.freemap.bit ·)).card

/-- The same inodes, and the same number of free blocks. -/
structure SamePurse (v w : Volume) : Prop where
  funded : Funded w
  inode : w.inode = v.inode
  bits : bits w = bits v

theorem SamePurse.trans {v₁ : Volume} (h : SamePurse v v₁) (h' : SamePurse v₁ w) : SamePurse v w :=
  ⟨h'.funded, h'.inode.trans h.inode, h'.bits.trans h.bits⟩

/-- A set bit cleared is one fewer. -/
theorem bits_clear (hset : Bitmap.SetTo v.freemap b false w.freemap) (hbit : v.freemap.bit b = true)
    (hb : b < 32 * v.freemap.nwords) : bits w + 1 = bits v := by
  have hmem : b ∈ (Finset.range (32 * v.freemap.nwords)).filter (v.freemap.bit ·) :=
    Finset.mem_filter.mpr ⟨Finset.mem_range.mpr hb, hbit⟩
  have herase : (Finset.range (32 * w.freemap.nwords)).filter (w.freemap.bit ·) =
      ((Finset.range (32 * v.freemap.nwords)).filter (v.freemap.bit ·)).erase b := by
    ext c
    rw [Finset.mem_erase, Finset.mem_filter, Finset.mem_filter, hset.nwords, hset.bit]
    by_cases hcb : c = b <;> simp [hcb]
  rw [bits, herase, Finset.card_erase_add_one hmem, bits]

/-- A clear bit set is one more. -/
theorem bits_set (hset : Bitmap.SetTo v.freemap b true w.freemap) (hbit : v.freemap.bit b = false)
    (hb : b < 32 * v.freemap.nwords) : bits w = bits v + 1 := by
  have hback : Bitmap.SetTo w.freemap b false v.freemap := by
    refine ⟨hset.nbits.symm, hset.nwords.symm, fun j => ?_⟩
    rw [hset.bit]
    by_cases hj : j = b
    · rw [if_pos hj, hj, hbit]
    · rw [if_neg hj, if_neg hj]
  exact (bits_clear hback (by rw [hset.bit, if_pos rfl]) (by rwa [hset.nwords])).symm

theorem Funded.tick (h : Funded v) : SamePurse v v.tick :=
  ⟨⟨⟨h.fits.mounted, h.fits.small⟩, h.sound, h.words⟩, rfl, rfl⟩

theorem Funded.put {buf : ℕ → UInt8} (h : Funded v) : SamePurse v (v.put b buf) :=
  ⟨⟨⟨h.fits.mounted, h.fits.small⟩, h.sound, h.words⟩, rfl, rfl⟩

theorem Funded.refl (h : Funded v) : SamePurse v v := ⟨h, rfl, rfl⟩

section Transfers

theorem purse_rwblock (h : Funded v) :
    wpe (sfsRwblockNolock b) (fun c w => c = b ∧ w = v.tick) (fun _ _ => False) Elsewhere v := by
  by_cases hb : InRange v b
  · exact wpe_sfsRwblockNolock h.fits hb ⟨rfl, rfl⟩ fun _ _ hf => absurd hf h.sound
  · simp only [sfsRwblockNolock, wpe_bind, wpe_get, wpe_demand]
    exact ⟨fun hin => absurd hin hb, fun _ => ⟨by simp, by simp⟩⟩

theorem purse_rblock (h : Funded v) :
    wpe (sfsRblock b) (fun data w => SamePurse v w ∧ data = v.dev.data b) (fun _ _ => False)
      Elsewhere v := by
  rw [sfsRblock, wpe_bind]
  refine wpe_mono (purse_rwblock h) ?_ (fun _ _ => id) fun _ => id
  rintro _ _ ⟨rfl, rfl⟩
  exact ⟨h.tick, rfl⟩

theorem purse_wblock {buf : ℕ → UInt8} (h : Funded v) :
    wpe (sfsWblock buf b) (fun _ => SamePurse v) (fun _ _ => False) Elsewhere v := by
  rw [sfsWblock, wpe_bind]
  refine wpe_mono (purse_rwblock h) ?_ (fun _ _ => id) fun _ => id
  rintro _ _ ⟨rfl, rfl⟩
  exact h.put

theorem purse_rbuf {len offset : ℕ} (h : Funded v) :
    wpe (sfsRbuf len b offset)
      (fun data w => SamePurse v w ∧ data = fun j => v.dev.data b (offset + j)) (fun _ _ => False)
      Elsewhere v := by
  rw [sfsRbuf, wpe_bind, wpe_demand]
  refine ⟨fun _ => ?_, fun _ => ⟨by simp, by simp⟩⟩
  rw [wpe_bind]
  refine wpe_mono (purse_rblock h) ?_ (fun _ _ => id) fun _ => id
  rintro data w ⟨hw, rfl⟩
  exact ⟨hw, rfl⟩

theorem purse_wbuf {buf : ℕ → UInt8} {len offset : ℕ} (h : Funded v) :
    wpe (sfsWbuf buf len b offset) (fun _ => SamePurse v) (fun _ _ => False) Elsewhere v := by
  rw [sfsWbuf, wpe_bind, wpe_demand]
  refine ⟨fun _ => ?_, fun _ => ⟨by simp, by simp⟩⟩
  rw [wpe_bind]
  exact wpe_mono (purse_rblock h) (fun _ w hw => wpe_mono (purse_wblock hw.1.funded)
    (fun _ _ hw' => hw.1.trans hw') (fun _ _ => id) fun _ => id) (fun _ _ => id) fun _ => id

/-- A loaded block is moved. -/
theorem purse_moveBlock {write whole : Bool} {off size : ℕ} {p : Progress} (h : Funded v) :
    wpe (moveBlock write whole off size p b) (fun _ => SamePurse v) (fun _ _ => False) Elsewhere v := by
  rw [moveBlock, wpe_ite]
  dsimp only
  refine ⟨fun _ => ?_, fun _ => ?_⟩
  · rw [wpe_ite, wpe_bind, wpe_bind]
    exact ⟨fun _ => purse_wblock h, fun _ => purse_wbuf h⟩
  · rw [wpe_ite, wpe_bind, wpe_bind]
    exact ⟨fun _ => wpe_mono (purse_rblock h) (fun _ _ => And.left) (fun _ _ => id) fun _ => id,
      fun _ => wpe_mono (purse_rbuf h) (fun _ _ => And.left) (fun _ _ => id) fun _ => id⟩

theorem purse_inuse (h : Funded v) :
    wpe (sfsBlockInuse b) (fun r w => w = v ∧ b ≠ 0 ∧ b < v.blocks ∧ b < v.freemap.nbits ∧
      r = !v.freemap.bit b) (fun _ _ => False) Elsewhere v := by
  simp only [sfsBlockInuse, onFreemap, wpe_bind, wpe_get, wpe_demand, wpe_zoome]
  refine ⟨fun hin => ?_, fun _ => ⟨by simp, by simp⟩⟩
  by_cases hb : b < v.freemap.nbits
  · exact Bitmap.wpe_bitmapTest ⟨rfl, hin.1, hin.2, hb, rfl⟩ hb
  · simp only [Bitmap.bitmapTest, wpe_bind, wpe_get, wpe_demand]
    exact ⟨fun hlt => absurd hlt hb, fun _ => ⟨by simp, by simp⟩⟩

end Transfers

section Allocation

/-- **`sfs_block_alloc`** costs one free block, and fails only if there is none. -/
theorem purse_alloc (h : Funded v) :
    wpe sfsBlockAlloc
      (fun b w => b ≠ 0 ∧ Funded w ∧ w.inode = v.inode ∧ bits w + 1 = bits v)
      (fun _ w => w = v ∧ bits v = 0) Elsewhere v := by
  rw [sfsBlockAlloc, wpe_bind, onFreemap, wpe_zoome]
  refine wpe_mono (Bitmap.wpe_bitmapAlloc v.freemap) ?_ ?_ (fun _ => False.elim)
  · rintro b m ⟨hlt, hbit, hset⟩
    simp only [wpe_bind, wpe_get, wpe_demand, wpe_modify, wpe_pure]
    refine ⟨fun _ => ?_, fun _ => ⟨by simp, by simp⟩⟩
    have hfund : Funded { v with
        freemap := m, unusedBlocks := v.unusedBlocks - 1, superDirty := true } :=
      ⟨⟨h.fits.mounted, h.fits.small⟩, h.sound, by
        change m.nbits ≤ 32 * m.nwords
        rw [hset.nbits, hset.nwords]
        exact h.words⟩
    refine wpe_mono (purse_inuse hfund) ?_ (fun _ _ => False.elim) fun _ => id
    rintro r _ ⟨rfl, hb0, -, -, -⟩
    refine ⟨fun _ => ?_, fun _ => ⟨by simp, by simp⟩⟩
    refine wpe_mono (purse_wblock hfund) (fun _ w hw => ⟨hb0, hw.funded, hw.inode, ?_⟩)
      (fun _ _ => False.elim) fun _ => id
    rw [hw.bits]
    exact bits_clear hset hbit hlt
  · rintro e m ⟨-, hm, hnone⟩
    subst hm
    refine ⟨rfl, ?_⟩
    rw [bits, Finset.card_eq_zero, Finset.filter_eq_empty_iff]
    intro b hb
    simpa using hnone b (Finset.mem_range.mp hb)

/-- **`sfs_block_free`** gains one. -/
theorem purse_free (h : Funded v) :
    wpe (sfsBlockFree b) (fun _ w => Funded w ∧ w.inode = v.inode ∧ bits w = bits v + 1)
      (fun _ _ => False) Elsewhere v := by
  rw [sfsBlockFree, wpe_bind]
  refine wpe_mono (purse_inuse h) ?_ (fun _ _ => id) fun _ => id
  rintro r w ⟨hw, -, -, hb, hr⟩
  rw [hw]
  simp only [wpe_bind, wpe_demand, onFreemap, wpe_zoome, wpe_modify]
  refine ⟨fun hused => ?_, fun _ => ⟨by simp, by simp⟩⟩
  have hclear : v.freemap.bit b = false := by
    rw [hr] at hused
    simpa using hused
  refine Bitmap.wpe_bitmapFree (fun m hset => ?_) hb hclear
  refine ⟨⟨⟨h.fits.mounted, h.fits.small⟩, h.sound, ?_⟩, trivial, ?_⟩
  · change m.nbits ≤ 32 * m.nwords
    rw [hset.nbits, hset.nwords]
    exact h.words
  · exact bits_set hset hclear (hb.trans_le h.words)

/-- **`addEntry`** costs one free block, or gives back what it was given. -/
theorem purse_addEntry {entp ent offset : ℕ} (h : Funded v) :
    wpe (addEntry entp ent offset)
      (fun r w => r.1 = ent ∧ Funded w ∧ w.inode = v.inode ∧ bits w + 1 = bits v)
      (fun _ w => Funded w ∧ w.inode = v.inode ∧ bits v = 0 ∧
        bits w = if ent ≠ entp then 1 else 0) Elsewhere v := by
  rw [addEntry, wpe_onError, wpe_bind]
  refine wpe_mono (purse_alloc h) ?_ ?_ fun _ => id
  · rintro b w ⟨-, hw, hinode, hbits⟩
    rw [wpe_bind, wpe_onError]
    refine wpe_mono (purse_wbuf hw) (fun _ w' hw' => ?_) (fun _ _ => False.elim) fun _ => id
    exact ⟨rfl, hw'.funded, hw'.inode.trans hinode, by rw [hw'.bits, hbits]⟩
  · rintro e w ⟨rfl, h0⟩
    rw [wpe_ite]
    refine ⟨fun hne => ?_, fun heq => ?_⟩
    · refine wpe_mono (purse_free h) ?_ (fun _ _ => False.elim) fun _ => id
      rintro _ w' ⟨hw', hinode, hbits⟩
      exact ⟨hw', hinode, h0, by rw [if_pos hne, hbits, h0]⟩
    · exact ⟨h, rfl, h0, by rw [if_neg heq, h0]⟩

/-- **`sfs_bmap_get_sub_nolock`** costs the block, and the entry block if there is none. -/
theorem purse_getSub {entp index : ℕ} {create : Bool} (h : Funded v) :
    wpe (sfsBmapGetSubNolock entp index create)
      (fun r w => Funded w ∧ w.inode = v.inode ∧ (entp ≠ 0 → r.1 = entp) ∧
        (create = true → r.1 ≠ 0) ∧
        (bits v ≤ bits w + if create then (if entp = 0 then 2 else 1) else 0) ∧
        (create = true → ¬ ((entp ≠ 0 → entry v entp index = 0) ∧
          bits v < if entp = 0 then 2 else 1)))
      (fun _ w => Funded w ∧ w.inode = v.inode ∧ create = true ∧
        (entp ≠ 0 → entry v entp index = 0) ∧ bits v < if entp = 0 then 2 else 1) Elsewhere v := by
  rw [sfsBmapGetSubNolock, wpe_bind, wpe_demand]
  refine ⟨fun _ => ?_, fun _ => ⟨by simp, by simp⟩⟩
  dsimp only
  rw [wpe_ite]
  refine ⟨fun hent => ?_, fun hent => ?_⟩
  · rw [wpe_bind]
    refine wpe_mono (purse_rbuf h) ?_ (fun _ _ => False.elim) fun _ => id
    rintro data w ⟨hw, hdata⟩
    have hentry : decodeU32 data = entry v entp index := by
      rw [hdata]
      rw [entry, Nat.mul_comm]
    rw [wpe_ite, hentry]
    refine ⟨fun hold => ?_, fun hnew => ?_⟩
    · refine ⟨hw.funded, hw.inode, fun _ => rfl, fun _ => hent, by rw [hw.bits]; omega,
        fun hc hshort => ?_⟩
      exact hold.elim (fun h0 => h0 (hshort.1 hent)) fun hno => absurd (hno.symm.trans hc) (by simp)
    · push Not at hnew
      have hcreate : create = true := by simpa using hnew.2
      refine wpe_mono (purse_addEntry hw.funded) ?_ ?_ fun _ => id
      · rintro r w' ⟨hr, hw', hinode, hbits⟩
        rw [hw.bits] at hbits
        refine ⟨hw', hinode.trans hw.inode, fun _ => hr, fun _ => hr ▸ hent, ?_, fun _ hshort => ?_⟩
        · rw [if_pos hcreate, if_neg hent]
          omega
        · have := hshort.2
          rw [if_neg hent] at this
          omega
      · rintro e w' ⟨hw', hinode, h0, -⟩
        rw [hw.bits] at h0
        exact ⟨hw', hinode.trans hw.inode, hcreate, fun _ => hnew.1, by
          rw [if_neg hent, h0]
          norm_num⟩
  · rw [wpe_ite]
    refine ⟨fun hno => ?_, fun hcreate => ?_⟩
    · exact ⟨h, rfl, fun he => absurd he hent, fun hc => absurd (hno.symm.trans hc) (by simp),
        by rw [hno]; simp, fun hc => absurd (hno.symm.trans hc) (by simp)⟩
    · have hcreate : create = true := by simpa using hcreate
      have hent : entp = 0 := not_not.mp hent
      rw [wpe_bind]
      refine wpe_mono (purse_alloc h) ?_ ?_ fun _ => id
      · rintro b w ⟨hb, hw, hinode, hbits⟩
        refine wpe_mono (purse_addEntry hw) ?_ ?_ fun _ => id
        · rintro r w' ⟨hr, hw', hinode', hbits'⟩
          refine ⟨hw', hinode'.trans hinode, fun he => absurd hent he, fun _ => hr ▸ hb, ?_,
            fun _ hshort => ?_⟩
          · rw [if_pos hcreate, if_pos hent]
            omega
          · have := hshort.2
            rw [if_pos hent] at this
            omega
        · rintro e w' ⟨hw', hinode', h0, -⟩
          exact ⟨hw', hinode'.trans hinode, hcreate, fun he => absurd hent he, by
            rw [if_pos hent]
            omega⟩
      · rintro e w ⟨rfl, h0⟩
        exact ⟨h, rfl, hcreate, fun he => absurd hent he, by
          rw [if_pos hent]
          omega⟩

end Allocation

section Loads

/-- **The volume is short of the blocks** that block `k` of the file `i` takes. -/
def Short (v : Volume) (i k : ℕ) : Prop := bmap v i k = 0 ∧ bits v < cost v i k

/-- What finding or making block `k` of the file `i` cost. -/
structure Paid (v : Volume) (i k : ℕ) (create : Bool) (w : Volume) : Prop where
  funded : Funded w
  bits : bits v ≤ bits w + if create then cost v i k else 0
  keeps : (v.inode i).indirect ≠ 0 → (w.inode i).indirect ≠ 0
  enough : create = true → ¬ Short v i k
  indirect : create = true → 12 ≤ k → (w.inode i).indirect ≠ 0

/-- …and what it could not pay for. -/
def Unpaid (v : Volume) (i k : ℕ) (create : Bool) (w : Volume) : Prop :=
  Funded w ∧ create = true ∧ Short v i k

/-- The inodes may change in all but the entry block of the file. -/
theorem Paid.inode {create : Bool} (h : Paid v i k create w) (hfree : w'.freemap = w.freemap)
    (hblocks : w'.blocks = w.blocks) (hdev : w'.dev = w.dev)
    (hind : (w'.inode i).indirect = (w.inode i).indirect) : Paid v i k create w' := by
  have hbits : Sfs.bits w' = Sfs.bits w := by rw [Sfs.bits, Sfs.bits, hfree]
  refine ⟨⟨⟨?_, ?_⟩, ?_, ?_⟩, ?_, ?_, h.enough, ?_⟩
  · rw [hblocks, hdev]
    exact h.funded.fits.mounted
  · rw [hdev]
    exact h.funded.fits.small
  · unfold Faulty
    rw [hdev]
    exact h.funded.sound
  · rw [hfree]
    exact h.funded.words
  · rw [hbits]
    exact h.bits
  · rw [hind]
    exact h.keeps
  · rw [hind]
    exact h.indirect

theorem purse_getDirect {create : Bool} (h : Funded v) (hk : k < 12) :
    wpe (getDirect i k create) (fun _ => Paid v i k create) (fun _ => Unpaid v i k create)
      Elsewhere v := by
  have hcost : cost v i k = 1 := if_neg fun hc => absurd hc.1 (not_le.mpr hk)
  have hmap : bmap v i k = (v.inode i).direct k := if_pos hk
  have h12 : ∀ {P : Prop}, 12 ≤ k → P := fun hk' => absurd hk (not_lt.mpr hk')
  rw [getDirect, wpe_bind, wpe_get]
  dsimp only
  rw [wpe_ite]
  refine ⟨fun hnew => ?_, fun hold => ?_⟩
  · rw [wpe_bind]
    refine wpe_mono (purse_alloc h) ?_ ?_ fun _ => id
    · rintro b w ⟨-, hw, hinode, hbits⟩
      rw [wpe_bind, setInode, wpe_modify, wpe_pure]
      have hpaid : Paid v i k create w := by
        refine ⟨hw, ?_, fun hind => hinode ▸ hind, fun _ hshort => ?_, fun _ => h12⟩
        · rw [if_pos hnew.2, hcost]
          exact hbits.symm.le
        · have := hshort.2
          omega
      exact hpaid.inode rfl rfl rfl (by rw [setInode_self])
    · rintro e w ⟨rfl, h0⟩
      exact ⟨h, hnew.2, hmap.trans hnew.1, by omega⟩
  · exact ⟨h, Nat.le_add_right _ _, id, fun hc hshort => hold ⟨hmap.symm.trans hshort.1, hc⟩,
      fun _ => h12⟩

theorem purse_getIndirect {create : Bool} (h : Funded v) (hk : 12 ≤ k) :
    wpe (getIndirect i (k - 12) create) (fun _ => Paid v i k create) (fun _ => Unpaid v i k create)
      Elsewhere v := by
  have hcost : cost v i k = if (v.inode i).indirect = 0 then 2 else 1 :=
    if_congr (and_iff_right hk) rfl rfl
  have hmap : bmap v i k = 0 ↔
      ((v.inode i).indirect ≠ 0 → entry v (v.inode i).indirect (k - 12) = 0) := by
    rw [bmap, if_neg (not_lt.mpr hk)]
    split
    · next h0 => exact ⟨fun _ hne => absurd h0 hne, fun _ => rfl⟩
    · next hne => exact ⟨fun he _ => he, fun he => he hne⟩
  rw [getIndirect, wpe_bind, wpe_get, wpe_bind]
  refine wpe_mono (purse_getSub h) ?_ ?_ fun _ => id
  · rintro ⟨ent, ino⟩ w ⟨hw, hinode, hold, hnew, hbits, henough⟩
    rw [← hmap, ← hcost] at henough
    rw [← hcost] at hbits
    dsimp only
    rw [wpe_bind, wpe_get, wpe_ite, hinode]
    refine ⟨fun hne => ?_, fun heq => ?_⟩
    · simp only [wpe_bind, wpe_get, wpe_demand, setInode, wpe_modify, wpe_pure]
      rw [hinode]
      refine ⟨fun h0 => ?_, fun _ => ⟨by simp, by simp⟩⟩
      refine ⟨⟨⟨hw.fits.mounted, hw.fits.small⟩, hw.sound, hw.words⟩, hbits,
        fun hind => absurd h0 hind, henough, fun hc _ => ?_⟩
      rw [setInode_self]
      exact hnew hc
    · have heq : ent = (v.inode i).indirect := not_not.mp heq
      refine ⟨hw, hbits, fun hind => hinode ▸ hind, henough, fun hc _ => ?_⟩
      rw [hinode, ← heq]
      exact hnew hc
  · rintro e w ⟨hw, -, hcreate, hentry, hbits⟩
    exact ⟨hw, hcreate, hmap.mpr hentry, hcost ▸ hbits⟩

/-- **Finding a block costs nothing, and making one costs `cost`.** -/
theorem purse_get {create : Bool} (h : Funded v) :
    wpe (sfsBmapGetNolock i k create) (fun _ => Paid v i k create) (fun _ => Unpaid v i k create)
      Elsewhere v := by
  have hend : ∀ (ino : ℕ) (w : Volume), Paid v i k create w →
      wpe (do
        if ino ≠ 0 then
          Act.demand .mapInuse (← sfsBlockInuse ino)
        pure ino : Call ℕ) (fun _ => Paid v i k create) (fun _ => Unpaid v i k create)
        Elsewhere w := fun ino w hw => by
    rw [wpe_ite]
    refine ⟨fun _ => ?_, fun _ => hw⟩
    rw [wpe_bind]
    refine wpe_mono (purse_inuse hw.funded) ?_ (fun _ _ => False.elim) fun _ => id
    rintro r w' ⟨hw', -⟩
    rw [wpe_bind, wpe_demand, hw']
    exact ⟨fun _ => hw, fun _ => ⟨by simp, by simp⟩⟩
  rw [sfsBmapGetNolock]
  dsimp only
  rw [wpe_ite]
  refine ⟨fun hk => ?_, fun hk => ?_⟩
  · rw [wpe_bind]
    exact wpe_mono (purse_getDirect h hk) hend (fun _ _ => id) fun _ => id
  · rw [wpe_ite]
    refine ⟨fun _ => ?_, fun _ => ?_⟩
    · rw [wpe_bind]
      exact wpe_mono (purse_getIndirect h (not_lt.mp hk)) hend (fun _ _ => id) fun _ => id
    · rw [wpe_bind, wpe_stop]
      exact ⟨by simp, by simp⟩

/-- **A load on a sound device**: it costs something for the next block only, and fails there only. -/
theorem purse_load (h : Funded v) :
    wpe (sfsBmapLoadNolock i k) (fun _ => Paid v i k (decide (k = (v.inode i).blocks)))
      (fun _ => Unpaid v i k (decide (k = (v.inode i).blocks))) Elsewhere v := by
  simp only [sfsBmapLoadNolock, wpe_bind, wpe_get, wpe_demand]
  refine ⟨fun _ => ?_, fun _ => ⟨by simp, by simp⟩⟩
  refine wpe_mono (purse_get h) (fun ino w hw => ?_) (fun _ _ => id) fun _ => id
  refine wpe_mono (purse_inuse hw.funded) ?_ (fun _ _ => False.elim) fun _ => id
  rintro r w' ⟨hw', -⟩
  rw [hw']
  refine ⟨fun _ => ?_, fun _ => ⟨by simp, by simp⟩⟩
  rw [wpe_ite]
  refine ⟨fun _ => ?_, fun _ => hw⟩
  simp only [wpe_bind, setInode, wpe_modify, wpe_pure]
  exact hw.inode rfl rfl rfl (by rw [setInode_self])

/-- **Giving a block up** does not fail. -/
theorem purse_bmapFree (h : Funded v) :
    wpe (sfsBmapFreeNolock i k) (fun _ => Funded) (fun _ _ => False) Elsewhere v := by
  have hfree : ∀ {b : ℕ} {w : Volume}, Funded w →
      wpe (sfsBlockFree b) (fun _ => Funded) (fun _ _ => False) Elsewhere w := fun hw =>
    wpe_mono (purse_free hw) (fun _ _ => And.left) (fun _ _ => id) fun _ => id
  rw [sfsBmapFreeNolock, wpe_bind, wpe_get]
  dsimp only
  rw [wpe_ite]
  refine ⟨fun _ => ?_, fun _ => ?_⟩
  · rw [wpe_ite, wpe_bind]
    refine ⟨fun _ => wpe_mono (hfree h) (fun _ w hw => ?_) (fun _ _ => id) fun _ => id, fun _ => h⟩
    rw [setInode, wpe_modify]
    exact ⟨⟨hw.fits.mounted, hw.fits.small⟩, hw.sound, hw.words⟩
  · rw [wpe_ite]
    refine ⟨fun _ => ?_, fun _ => h⟩
    rw [wpe_ite]
    refine ⟨fun _ => ?_, fun _ => h⟩
    rw [sfsBmapFreeSubNolock, wpe_bind]
    refine wpe_mono (purse_inuse h) ?_ (fun _ _ => False.elim) fun _ => id
    rintro r w ⟨hw, -⟩
    rw [wpe_bind, wpe_demand, hw]
    refine ⟨fun _ => ?_, fun _ => ⟨by simp, by simp⟩⟩
    dsimp only
    rw [wpe_bind]
    refine wpe_mono (purse_rbuf h) (fun data w hw => ?_) (fun _ _ => False.elim) fun _ => id
    rw [wpe_ite, wpe_bind]
    refine ⟨fun _ => ?_, fun _ => hw.1.funded⟩
    exact wpe_mono (purse_wbuf hw.1.funded) (fun _ w' hw' => hfree hw'.funded) (fun _ _ => id)
      fun _ => id

end Loads

end UCore.Sfs
