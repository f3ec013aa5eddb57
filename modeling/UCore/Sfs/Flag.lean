import UCore.Sfs.SizeBlocks

/-!
# Sfs/Flag — changes of an inode that `dirty` tells of

    direct, indirect   stored with dirty = 1
    blocks             counted up without, down with dirty = 1
    size               stored with dirty = 1

A block that goes into an entry block that is there is counted and not flagged: the call that asked
for it is to store the size later.  `Told` says that what a call changed is flagged when it is over.
-/

namespace UCore.Sfs

open Act

variable {v v₁ w : Volume} {i k m n off size offset pos endpos : ℕ} {write whole : Bool} {p : Progress}

/-- **The inode `i` is flagged**, or it is as it was, but for the `n` blocks it counts. -/
structure Flagged (v : Volume) (i n : ℕ) (w : Volume) : Prop where
  nlinks : (w.inode i).nlinks = (v.inode i).nlinks
  size : (w.inode i).size = (v.inode i).size
  blocks : (w.inode i).blocks = n
  flag : (w.inode i).dirty = true ∨ w.inode i = { v.inode i with blocks := n }

/-- `Flagged`, with the blocks counted as before. -/
def Marked (i : ℕ) (v w : Volume) : Prop := Flagged v i (v.inode i).blocks w

/-- **What a call changed is flagged.** -/
def Told (v : Volume) (i : ℕ) (w : Volume) : Prop := (w.inode i).dirty = true ∨ w.inode i = v.inode i

namespace Flagged

theorem refl (v : Volume) (i : ℕ) : Flagged v i (v.inode i).blocks v := ⟨rfl, rfl, rfl, .inr rfl⟩

theorem trans (h : Flagged v i m v₁) (h' : Flagged v₁ i n w) : Flagged v i n w := by
  refine ⟨h'.nlinks.trans h.nlinks, h'.size.trans h.size, h'.blocks, ?_⟩
  rcases h'.flag with hd | heq
  · exact .inl hd
  · rcases h.flag with hd | heq'
    · exact .inl (by rw [heq, hd])
    · exact .inr (by rw [heq, heq'])

/-- A flag that is set stays. -/
theorem dirty (h : Flagged v i n w) (hd : (v.inode i).dirty = true) : (w.inode i).dirty = true :=
  h.flag.elim id fun heq => by rw [heq, hd]

theorem told (h : Flagged v i n w) (hn : n = (v.inode i).blocks) : Told v i w :=
  h.flag.imp_right fun heq => by rw [heq, hn]

/-- One block more is counted, and one block less is flagged. -/
theorem count (h : Flagged v i m w) :
    Flagged v i (m + 1) (w.setInode i fun din => { din with blocks := din.blocks + 1 }) := by
  refine ⟨by rw [setInode_self, h.nlinks], by rw [setInode_self, h.size],
    by rw [setInode_self, h.blocks], ?_⟩
  rw [setInode_self]
  exact h.flag.imp id fun heq => by rw [heq]

theorem uncount (h : Flagged v i m w) :
    Flagged v i (m - 1) (w.setInode i fun din => { din with blocks := din.blocks - 1, dirty := true }) :=
  ⟨by rw [setInode_self, h.nlinks], by rw [setInode_self, h.size], by rw [setInode_self, h.blocks],
    .inl (by rw [setInode_self])⟩

end Flagged

theorem SameInodes.flagged (h : SameInodes v w) : Flagged v i (v.inode i).blocks w := by
  have h : w.inode = v.inode := h
  exact ⟨by rw [h], by rw [h], by rw [h], .inr (by rw [h])⟩

instance : Std.Refl (Marked i) := ⟨fun v => .refl v i⟩

instance : IsTrans Volume (Marked i) := ⟨fun _ v₁ _ h h' => by
  have h' : Flagged v₁ i (v₁.inode i).blocks _ := h'
  rw [h.blocks] at h'
  exact h.trans h'⟩

theorem tolerant_marked : Tolerant i (Marked i) :=
  ⟨SameInodes.flagged, fun hf => ⟨by rw [setInode_self, hf.nlinks], by rw [setInode_self, hf.size],
    by rw [setInode_self, hf.blocks], .inl (by rw [setInode_self, hf.dirty])⟩⟩

/-! ## Blocks that announce themselves -/

/-- **The next block of the file `i` goes into its inode**, or into an entry block to be made: either
is a store that is flagged. -/
def Announces (v : Volume) (i : ℕ) : Prop :=
  ((v.inode i).blocks < 12 ∧ (v.inode i).direct (v.inode i).blocks = 0) ∨
    (12 ≤ (v.inode i).blocks ∧ (v.inode i).indirect = 0)

/-- A new block is not block 0. -/
theorem wpe_alloc_ne_zero :
    wpe sfsBlockAlloc (fun b w => b ≠ 0 ∧ SameInodes v w) (fun _ _ => True) Elsewhere v := by
  have hsame := respects_alloc v
  have hne : wpe sfsBlockAlloc (fun b _ => b ≠ 0) (fun _ _ => True) Elsewhere v := by
    rw [sfsBlockAlloc, wpe_bind, onFreemap, wpe_zoome]
    refine wpe_mono (Bitmap.wpe_bitmapAlloc v.freemap) (fun b m _ => ?_) (fun _ _ _ => trivial)
      fun _ => False.elim
    simp only [sfsBlockInuse, wpe_bind, wpe_get, wpe_demand, wpe_modify]
    refine ⟨fun _ => ⟨fun hb => ?_, fun _ => ⟨by simp, by simp⟩⟩, fun _ => ⟨by simp, by simp⟩⟩
    have htest : Respects SameInodes Refusal Elsewhere (onFreemap (Bitmap.bitmapTest b)) :=
      .zoome (fun _ _ => rfl) (.bind .get fun _ => .bind (.demand ⟨by simp, by simp⟩) fun _ => .pure _)
    refine wpe_mono (htest _) (fun r u _ => ⟨fun _ => ?_, fun _ => ⟨by simp, by simp⟩⟩)
      (fun _ _ _ => trivial) fun _ => id
    exact wpe_mono (respects_wblock u) (fun _ _ _ => hb.1) (fun _ _ _ => trivial) fun _ => id
  exact wpe_mono (wpe_and hne hsame) (fun _ _ => id) (fun _ _ _ => trivial) fun _ => And.left

/-- A new entry is one of the entry block that was asked for. -/
theorem wpe_addEntry_fst {entp ent offset : ℕ} :
    wpe (addEntry entp ent offset) (fun r w => r.1 = ent ∧ SameInodes v w) (fun _ _ => True)
      Elsewhere v := by
  have hfree : ∀ (c : ℕ) (u : Volume),
      wpe (sfsBlockFree c) (fun _ _ => True) (fun _ _ => True) Elsewhere u := fun c u =>
    wpe_mono (respects_free (D := Refusal) u) (fun _ _ _ => trivial) (fun _ _ _ => trivial) fun _ => id
  have hundo : ∀ u : Volume, wpe (if ent ≠ entp then sfsBlockFree ent else pure ())
      (fun _ _ => True) (fun _ _ => True) Elsewhere u := fun u => by
    rw [wpe_ite]
    exact ⟨fun _ => hfree ent u, fun _ => trivial⟩
  have hfst : wpe (addEntry entp ent offset) (fun r _ => r.1 = ent) (fun _ _ => True) Elsewhere v := by
    rw [addEntry, wpe_onError, wpe_bind]
    refine wpe_mono (respects_alloc v) (fun b u _ => ?_) (fun _ u _ => hundo u) fun _ => id
    rw [wpe_bind, wpe_onError]
    refine wpe_mono (respects_wbuf u) (fun _ _ _ => rfl) (fun _ u' _ => ?_) fun _ => id
    exact wpe_mono (hfree b u') (fun _ u _ => hundo u) (fun _ u _ => hundo u) fun _ => id
  exact wpe_mono (wpe_and hfst (respects_addEntry v)) (fun _ _ => id) (fun _ _ _ => trivial)
    fun _ => And.left

/-- **A block that announces itself flags the inode.** -/
theorem wpe_get_announces (h : Announces v i) :
    wpe (sfsBmapGetNolock i (v.inode i).blocks true) (fun _ w => (w.inode i).dirty = true)
      (fun _ _ => True) Elsewhere v := by
  have hend : ∀ (ino : ℕ) (w : Volume), (w.inode i).dirty = true → wpe (do
      if ino ≠ 0 then
        Act.demand .mapInuse (← sfsBlockInuse ino)
      pure ino : Call ℕ) (fun _ w => (w.inode i).dirty = true) (fun _ _ => True) Elsewhere w := by
    intro ino w hw
    have hsame : Respects SameInodes Refusal Elsewhere (do
        if ino ≠ 0 then
          Act.demand .mapInuse (← sfsBlockInuse ino)
        pure ino : Call ℕ) :=
      .ite (fun _ => .bind respects_inuse fun _ => .bind (.demand ⟨by simp, by simp⟩) fun _ => .pure _)
        fun _ => .pure _
    refine wpe_mono (hsame w) (fun _ u hu => ?_) (fun _ _ _ => trivial) fun _ => id
    rw [show u.inode = w.inode from hu]
    exact hw
  rw [sfsBmapGetNolock]
  dsimp only
  rw [wpe_ite]
  refine ⟨fun hlt => ?_, fun hge => ?_⟩
  · have h0 := (h.resolve_right fun hno => absurd hlt (not_lt.mpr hno.1)).2
    rw [wpe_bind, getDirect, wpe_bind, wpe_get]
    dsimp only
    rw [if_pos ⟨h0, rfl⟩, wpe_bind]
    refine wpe_mono (respects_alloc v) (fun b u _ => ?_) (fun _ _ _ => trivial) fun _ => id
    rw [wpe_bind, setInode, wpe_modify, wpe_pure]
    exact hend b _ (by rw [setInode_self])
  · have h0 := (h.resolve_left fun hno => hge hno.1).2
    rw [wpe_ite]
    refine ⟨fun _ => ?_, fun _ => ?_⟩
    · rw [wpe_bind, getIndirect, wpe_bind, wpe_get, wpe_bind, h0, sfsBmapGetSubNolock, wpe_bind,
        wpe_demand]
      refine ⟨fun _ => ?_, fun _ => ⟨by simp, by simp⟩⟩
      rw [if_neg (not_not.mpr rfl), if_neg (by simp), wpe_bind]
      refine wpe_mono wpe_alloc_ne_zero (fun ent u hent => ?_) (fun _ _ _ => trivial) fun _ => id
      refine wpe_mono wpe_addEntry_fst (fun r u' hr => ?_) (fun _ _ _ => trivial) fun _ => id
      have hind : (u'.inode i).indirect = 0 := by
        rw [show u'.inode = u.inode from hr.2, show u.inode = v.inode from hent.2, h0]
      dsimp only
      rw [wpe_bind, wpe_get, hind, hr.1, if_pos hent.1]
      simp only [wpe_bind, wpe_get, wpe_demand, setInode, wpe_modify, wpe_pure]
      exact ⟨fun _ => hend _ _ (by rw [setInode_self]), fun _ => ⟨by simp, by simp⟩⟩
    · rw [wpe_bind, wpe_stop]
      exact ⟨by simp, by simp⟩

/-! ## Loads and truncations -/

/-- **A load**: what it counts, and what it flags. -/
theorem wpe_load_flagged (v : Volume) (i k : ℕ) :
    wpe (sfsBmapLoadNolock i k)
      (fun _ w => k ≤ (v.inode i).blocks ∧ Flagged v i (loadedBlocks v i k) w ∧
        (k = (v.inode i).blocks → Announces v i → (w.inode i).dirty = true))
      (fun e w => Refusal e ∧ k ≤ (v.inode i).blocks ∧ Marked i v w) Elsewhere v := by
  have hload : wpe (sfsBmapLoadNolock i k)
      (fun _ w => k ≤ (v.inode i).blocks ∧ Flagged v i (loadedBlocks v i k) w)
      (fun e w => Refusal e ∧ k ≤ (v.inode i).blocks ∧ Marked i v w) Elsewhere v := by
    refine wpe_mono (tolerant_marked.load v k) ?_ (fun _ _ => id) fun _ => id
    rintro _ w ⟨hle, u, hu, rfl⟩
    refine ⟨hle, ?_⟩
    unfold loadedBlocks
    split
    · next hk => exact hk ▸ hu.count
    · exact hu
  by_cases hann : k = (v.inode i).blocks ∧ Announces v i
  · obtain ⟨rfl, hann⟩ := hann
    have hdirty : wpe (sfsBmapLoadNolock i (v.inode i).blocks) (fun _ w => (w.inode i).dirty = true)
        (fun _ _ => True) Elsewhere v := by
      simp only [sfsBmapLoadNolock, wpe_bind, wpe_get, wpe_demand, decide_true]
      refine ⟨fun _ => ?_, fun _ => ⟨by simp, by simp⟩⟩
      refine wpe_mono (wpe_get_announces hann) (fun b u hu => ?_) (fun _ _ _ => trivial) fun _ => id
      refine wpe_mono (respects_inuse (D := Refusal) u) (fun _ u' hu' => ⟨fun _ => ?_, fun _ =>
        ⟨by simp, by simp⟩⟩) (fun _ _ _ => trivial) fun _ => id
      rw [if_pos trivial, wpe_bind, setInode, wpe_modify, wpe_pure, setInode_self,
        show u'.inode = u.inode from hu']
      exact hu
    exact wpe_mono (wpe_and hload hdirty) (fun _ _ h => ⟨h.1.1, h.1.2, fun _ _ => h.2⟩)
      (fun _ _ h => h.1) fun _ => And.left
  · exact wpe_mono hload (fun _ _ h => ⟨h.1, h.2, fun hk ha => absurd ⟨hk, ha⟩ hann⟩) (fun _ _ => id)
      fun _ => id

/-- **A truncation flags what it counts off.** -/
theorem wpe_truncate_flagged (v : Volume) (i : ℕ) :
    wpe (sfsBmapTruncateNolock i) (fun _ w => Flagged v i ((v.inode i).blocks - 1) w ∧
      (w.inode i).dirty = true) (fun _ w => Marked i v w) Elsewhere v := by
  refine wpe_mono (tolerant_marked.truncate v) ?_ (fun _ _ => And.right) fun _ => id
  rintro _ w ⟨-, u, hu, rfl⟩
  exact ⟨hu.uncount, by rw [setInode_self]⟩

/-! ## Changes of size -/

/-- **The loop that enlarges**: what it leaves when it fails is flagged if it failed at its only block,
or its first one announces itself. -/
theorem wpe_enlarge_flagged (v : Volume) (hk : (v.inode i).blocks = k) :
    wpe (enlarge i n k) (fun _ => Flagged v i (k + n))
      (fun _ w => 0 < n ∧ (∃ m ≤ k + n, Flagged v i m w) ∧ (n = 1 ∨ Announces v i → Told v i w))
      Elsewhere v := by
  induction n generalizing k v with
  | zero =>
    rw [enlarge, wpe_pure, Nat.add_zero, ← hk]
    exact .refl v i
  | succ n ih =>
    rw [enlarge, wpe_bind]
    refine wpe_mono (wpe_load_flagged v i k) ?_ ?_ fun _ => id
    · rintro b u ⟨-, hu, hann⟩
      rw [loadedBlocks, if_pos hk.symm] at hu
      refine wpe_mono (ih u hu.blocks) (fun _ w hw => ?_) ?_ fun _ => id
      · rw [← Nat.add_assoc, Nat.add_right_comm]
        exact hu.trans hw
      · rintro e w ⟨hpos, ⟨m, hm, hw⟩, -⟩
        refine ⟨n.succ_pos, ⟨m, by omega, hu.trans hw⟩, fun h => ?_⟩
        rcases h with hone | ha
        · omega
        · exact .inl (hw.dirty (hann hk.symm ha))
    · rintro e w ⟨-, -, hw⟩
      exact ⟨n.succ_pos, ⟨k, by omega, hk ▸ hw⟩, fun _ => hw.told rfl⟩

/-- **The loop that reduces**: what it leaves is flagged. -/
theorem wpe_reduce_flagged (v : Volume) :
    wpe (reduce i n) (fun _ => Flagged v i ((v.inode i).blocks - n))
      (fun _ w => (∃ m ≤ (v.inode i).blocks, Flagged v i m w) ∧ Told v i w) Elsewhere v := by
  induction n generalizing v with
  | zero =>
    rw [reduce, wpe_pure, Nat.sub_zero]
    exact .refl v i
  | succ n ih =>
    rw [reduce, wpe_bind]
    refine wpe_mono (wpe_truncate_flagged v i) ?_ (fun e w hw => ⟨⟨_, le_rfl, hw⟩, hw.told rfl⟩)
      fun _ => id
    rintro _ u ⟨hu, hdirty⟩
    refine wpe_mono (ih u) (fun _ w hw => ?_) ?_ fun _ => id
    · rw [hu.blocks, Nat.sub_sub, Nat.add_comm] at hw
      exact hu.trans hw
    · rintro e w ⟨⟨m, hm, hw⟩, -⟩
      rw [hu.blocks] at hm
      exact ⟨⟨m, by omega, hu.trans hw⟩, .inl (hw.dirty hdirty)⟩

/-- **The fields of an inode stay in their types.** -/
structure Bounded (v : Volume) (i : ℕ) (w : Volume) : Prop where
  nlinks : (w.inode i).nlinks = (v.inode i).nlinks
  size : (w.inode i).size ≤ max (v.inode i).size SFS_MAX_FILE_SIZE
  blocks : (w.inode i).blocks ≤ max (v.inode i).blocks SFS_MAX_FILE_SIZE

theorem Flagged.bounded (h : Flagged v i m w) (hm : m ≤ max (v.inode i).blocks SFS_MAX_FILE_SIZE) :
    Bounded v i w :=
  ⟨h.nlinks, by rw [h.size]; exact le_max_left .., by rw [h.blocks]; exact hm⟩

/-- The size is stored, and flagged. -/
theorem Flagged.setSize (h : Flagged v i m w) (hm : m ≤ max (v.inode i).blocks SFS_MAX_FILE_SIZE)
    (hn : n ≤ SFS_MAX_FILE_SIZE) : Bounded v i (w.setSize i n) ∧ Told v i (w.setSize i n) := by
  refine ⟨⟨?_, ?_, ?_⟩, .inl ?_⟩
  · rw [setInode_self, h.nlinks]
  · rw [setInode_self]
    exact le_max_of_le_right hn
  · rw [setInode_self, h.blocks]
    exact hm
  · rw [setInode_self]

/-- **A length whose change is told of**: it is refused, it takes no more blocks, the first block more
announces itself or is the only one, or the volume has all of them or not even the first. -/
def LengthTold (v : Volume) (i : ℕ) (len : ℤ) : Prop :=
  len < 0 ∨ len > SFS_MAX_FILE_SIZE ∨ ((v.inode i).blocks < (len.toNat + 4095) / 4096 →
    Announces v i ∨ (len.toNat + 4095) / 4096 = (v.inode i).blocks + 1 ∨
      Enough v i ((len.toNat + 4095) / 4096) ∨ (Funded v ∧ Short v i (v.inode i).blocks))

/-- **`sfs_truncfile`** tells of what it changed, where it returns 0, or the inode was flagged before,
or the length is such. -/
theorem wpe_truncfile_told {len : ℤ} :
    wpe (sfsTruncfile i len) (fun _ w => Bounded v i w ∧ Told v i w)
      (fun _ w => Bounded v i w ∧ ((v.inode i).dirty = true ∨ LengthTold v i len → Told v i w))
      (fun _ => True) v := by
  have hrefl : Bounded v i v ∧ Told v i v :=
    ⟨(Flagged.refl v i).bounded (le_max_left ..), .inr rfl⟩
  rw [sfsTruncfile, wpe_ite]
  refine ⟨fun _ => ⟨hrefl.1, fun _ => hrefl.2⟩, fun hlen => ?_⟩
  have hle : len ≤ SFS_MAX_FILE_SIZE := not_lt.mp fun hlt => hlen (.inr hlt)
  have hsize : len.toNat ≤ SFS_MAX_FILE_SIZE := Int.toNat_le.mpr hle
  have hblocks : (len.toNat + 4095) / 4096 ≤ SFS_MAX_FILE_SIZE := by
    change len.toNat ≤ 1024 * 1024 * 128 at hsize
    change _ ≤ 1024 * 1024 * 128
    omega
  simp only [wpe_bind, wpe_get]
  rw [roundUpDiv_block hsize]
  -- what follows the loops
  have hend : ∀ m w, Flagged v i m w → m ≤ max (v.inode i).blocks SFS_MAX_FILE_SIZE → wpe (do
      Act.demand .truncBlocks (((← get).inode i).blocks = (len.toNat + 4095) / 4096)
      setInode i fun din => { din with size := len.toNat, dirty := true } : Call Unit)
      (fun _ w => Bounded v i w ∧ Told v i w)
      (fun _ w => Bounded v i w ∧ ((v.inode i).dirty = true ∨ LengthTold v i len → Told v i w))
      (fun _ => True) w := by
    intro m w hw hm
    simp only [wpe_bind, wpe_get, wpe_demand, setInode, wpe_modify]
    exact ⟨fun _ => hw.setSize hm hsize, fun _ => trivial⟩
  rw [wpe_ite]
  refine ⟨fun _ => ?_, fun _ => ?_⟩
  · rw [wpe_demand]
    exact ⟨fun _ => hrefl, fun _ => trivial⟩
  · rw [wpe_ite]
    refine ⟨fun hlt => ?_, fun hge => ?_⟩
    · have hadd : (v.inode i).blocks + ((len.toNat + 4095) / 4096 - (v.inode i).blocks) =
          (len.toNat + 4095) / 4096 := by omega
      have hgrow := wpe_and
        (wpe_enlarge_flagged (n := (len.toNat + 4095) / 4096 - (v.inode i).blocks) v
          (rfl : (v.inode i).blocks = _))
        (wpe_enlarge_counts (n := (len.toNat + 4095) / 4096 - (v.inode i).blocks) v
          (rfl : (v.inode i).blocks = _))
      rw [hadd] at hgrow
      rw [wpe_bind]
      refine wpe_mono hgrow (fun _ w hw => hend _ w hw.1 (le_max_of_le_right hblocks)) ?_
        fun _ _ => trivial
      rintro e w ⟨⟨-, ⟨m, hm, hw⟩, htold⟩, hfew, hsame⟩
      refine ⟨hw.bounded (le_max_of_le_right (hm.trans hblocks)), fun hcond => ?_⟩
      rcases hcond with hdirty | h0 | hmax | hcond
      · exact .inl (hw.dirty hdirty)
      · exact absurd (.inl h0) hlen
      · exact absurd (.inr hmax) hlen
      · rcases hcond hlt with hann | hone | hen | hshort
        · exact htold (.inr hann)
        · exact htold (.inl (by omega))
        · exact absurd hen hfew
        · exact hw.told (by rw [← hw.blocks, (hsame hshort i).2.2])
    · rw [wpe_bind]
      refine wpe_mono (wpe_reduce_flagged (i := i) v)
        (fun _ w hw => hend _ w hw (le_max_of_le_left (Nat.sub_le ..))) ?_ fun _ _ => trivial
      rintro e w ⟨⟨m, hm, hw⟩, htold⟩
      exact ⟨hw.bounded (le_max_of_le_left hm), fun _ => htold⟩

/-! ## Reading and writing -/

/-- **A block moved**, or not: what is flagged. -/
theorem wp_ioBlock_flagged (v : Volume) :
    wp (ioBlock i write whole k off size p) (fun p' w => k ≤ (v.inode i).blocks ∧
      ((p'.ret = p.ret ∧ p'.alen = p.alen + size ∧ Flagged v i (loadedBlocks v i k) w) ∨
        (p'.ret < 0 ∧ p'.alen = p.alen ∧ (Marked i v w ∨ Flagged v i (loadedBlocks v i k) w))) ∧
      (Announces v i → (w.inode i).blocks ≠ (v.inode i).blocks → (w.inode i).dirty = true))
      Elsewhere v := by
  rw [wp_ioBlock_iff]
  refine wpe_mono (wpe_load_flagged v i k) ?_ (fun e w hw => ⟨hw.2.1, .inr ⟨hw.1, rfl, .inl hw.2.2⟩,
    fun _ hne => absurd hw.2.2.blocks hne⟩) fun _ => id
  rintro b u ⟨hk, hu, hann⟩
  have hsame : ∀ {w}, SameInodes u w → Flagged v i (loadedBlocks v i k) w ∧
      (Announces v i → (w.inode i).blocks ≠ (v.inode i).blocks → (w.inode i).dirty = true) := by
    intro w hw
    have hw : w.inode = u.inode := hw
    have hflag : Flagged v i (loadedBlocks v i k) w := by
      have huw := SameInodes.flagged (i := i) hw
      rw [hu.blocks] at huw
      exact hu.trans huw
    refine ⟨hflag, fun ha hne => ?_⟩
    rw [hflag.blocks, loadedBlocks] at hne
    rw [hw]
    refine hann ?_ ha
    by_contra hno
    exact hne (if_neg hno)
  exact wpe_mono (respects_moveBlock u) (fun _ w hw => ⟨hk, .inl ⟨rfl, rfl, (hsame hw).1⟩, (hsame hw).2⟩)
    (fun e w hw => ⟨hk, .inr ⟨hw.1, rfl, .inr (hsame hw.2).1⟩, (hsame hw.2).2⟩) fun _ => id

/-- **With blocks enough**, every block is moved. -/
theorem wp_ioBlock_enough (h : Enough v i n) (hk : k < n) :
    wp (ioBlock i write whole k off size p) (fun p' w => p'.ret = p.ret ∧ Enough w i n) Elsewhere v := by
  have hload : wpe (sfsBmapLoadNolock i k) (fun _ w => Enough w i n) (fun _ _ => False) Elsewhere v := by
    rcases eq_or_ne k (v.inode i).blocks with hkb | hkb
    · obtain ⟨m, rfl⟩ := Nat.exists_eq_add_of_lt hk
      have hadd : k + m + 1 = k + 1 + m := by omega
      rw [hadd] at h ⊢
      exact wpe_mono (wpe_load_next v hkb.symm) (fun _ w hw => hw.2.1 h) (fun _ w hw => hw.2 h)
        fun _ => id
    · have hpurse := purse_load (i := i) (k := k) h.1
      rw [decide_eq_false hkb] at hpurse
      refine wpe_mono (wpe_and (wpe_load_counts v i k) hpurse) ?_
        (fun _ w hw => absurd hw.2.2.1 (by simp)) fun _ => And.left
      rintro _ w ⟨⟨-, hcount⟩, hpaid⟩
      rw [if_neg hkb] at hcount
      have hbits := hpaid.bits
      have henough := h.2
      rw [if_neg (by simp)] at hbits
      refine ⟨hpaid.funded, ?_⟩
      rw [hcount.blocks]
      by_cases h0 : (v.inode i).indirect = 0
      · split at henough <;> split <;> omega
      · rw [if_neg fun hc => h0 hc.2] at henough
        rw [if_neg fun hc => hpaid.keeps h0 hc.2]
        omega
  rw [wp_ioBlock_iff]
  refine wpe_mono hload (fun b u hu => ?_) (fun _ _ => False.elim) fun _ => id
  refine wpe_mono (purse_moveBlock hu.1) (fun _ w hw => ⟨rfl, hw.funded, ?_⟩) (fun _ _ => False.elim)
    fun _ => id
  rw [hw.bits, hw.inode]
  exact hu.2

/-- The blocks of the file once a transfer from `offset` has come to `pos`. -/
def reached (v : Volume) (i offset pos : ℕ) : ℕ :=
  if pos = offset then (v.inode i).blocks else max (v.inode i).blocks ((pos + 4095) / 4096)

/-- **Between two blocks of a transfer** of `[offset, endpos)` that has come to `pos`. -/
structure Climb (v : Volume) (i offset endpos pos : ℕ) (p : Progress) (w : Volume) : Prop where
  le : offset ≤ pos
  ret : p.ret = 0
  alen : p.alen = pos - offset
  flagged : Flagged v i (reached v i offset pos) w
  funded : Funded v → Funded w
  enough : Enough v i ((endpos + 4095) / 4096) → Enough w i ((endpos + 4095) / 4096)
  announced : Announces v i → (w.inode i).blocks ≠ (v.inode i).blocks → (w.inode i).dirty = true

/-- **A transfer that ended early**, at `pos`: a block may be counted beyond those that were moved. -/
structure Fall (v : Volume) (i offset endpos pos : ℕ) (p : Progress) (w : Volume) : Prop where
  le : offset ≤ pos
  ret : p.ret ≠ 0
  alen : p.alen = pos - offset
  count : ∃ m, (v.inode i).blocks ≤ m ∧ m ≤ max (v.inode i).blocks (pos / 4096 + 1) ∧
    Flagged v i m w ∧ (Funded v → m = reached v i offset pos)
  few : ¬ Enough v i ((endpos + 4095) / 4096)
  announced : Announces v i → (w.inode i).blocks ≠ (v.inode i).blocks → (w.inode i).dirty = true

/-- What announces itself in `w` did so in `v`, or is flagged already. -/
theorem Flagged.announced (h : Flagged v i m v₁) (hw : Flagged v₁ i n w)
    (hann : Announces v i → (v₁.inode i).blocks ≠ (v.inode i).blocks → (v₁.inode i).dirty = true)
    (hnew : Announces v₁ i → (w.inode i).blocks ≠ (v₁.inode i).blocks → (w.inode i).dirty = true)
    (ha : Announces v i) (hne : (w.inode i).blocks ≠ (v.inode i).blocks) :
    (w.inode i).dirty = true := by
  by_cases hsame : (v₁.inode i).blocks = (v.inode i).blocks
  · rw [hsame] at hnew
    rw [h.blocks] at hsame
    rcases h.told hsame with hd | heq
    · exact hw.dirty hd
    · refine hnew ?_ hne
      rw [Announces, heq]
      exact ha
  · exact hw.dirty (hann ha hsame)

/-- **One block more.** -/
theorem passes_climb :
    Passes i write Elsewhere (Climb v i offset endpos) (Fall v i offset endpos) offset endpos := by
  refine ⟨fun h => h.ret, fun h => h.ret, ?_⟩
  intro pos p w whole off size h halign hoff hwhole hsize hsum hle
  have hpos := h.flagged.blocks
  have halen := h.alen
  have hle' := h.le
  have hone : (pos + size + 4095) / 4096 = pos / 4096 + 1 := by omega
  have hnext : pos / 4096 ≤ (w.inode i).blocks →
      loadedBlocks w i (pos / 4096) = reached v i offset (pos + size) := fun hk => by
    rw [reached, if_neg (by omega), hone, loadedBlocks]
    rw [reached] at hpos
    split at hpos <;> split <;> omega
  have hflag : wp (ioBlock i write whole (pos / 4096) off size p) _ Elsewhere w := wp_ioBlock_flagged w
  have hfund : wp (ioBlock i write whole (pos / 4096) off size p) (fun p' w' => Funded v →
      Funded w' ∧ (p'.ret = p.ret ∨ SameShapes w w')) Elsewhere w := by
    by_cases hf : Funded v
    · exact wp_mono (wp_ioBlock_purse (h.funded hf)) (fun _ _ hp _ => ⟨hp.1, hp.2.imp id fun hs =>
        hs.2.2.2⟩) fun _ => id
    · exact wp_mono hflag (fun _ _ _ hf' => absurd hf' hf) fun _ => id
  have henough : wp (ioBlock i write whole (pos / 4096) off size p) (fun p' w' =>
      Enough v i ((endpos + 4095) / 4096) → p'.ret = p.ret ∧ Enough w' i ((endpos + 4095) / 4096))
      Elsewhere w := by
    by_cases he : Enough v i ((endpos + 4095) / 4096)
    · exact wp_mono (wp_ioBlock_enough (h.enough he) (by omega)) (fun _ _ hp _ => hp) fun _ => id
    · exact wp_mono hflag (fun _ _ _ he' => absurd he' he) fun _ => id
  refine wp_mono (wp_and hflag (wp_and hfund henough)) ?_ fun _ => And.left
  rintro p' w' ⟨⟨hk, hcase, hann⟩, hfund, henough⟩
  rcases hcase with ⟨hret, halen', hw⟩ | ⟨hret, halen', hw⟩
  · refine .inl ⟨by omega, hret.trans h.ret, by omega, hnext hk ▸ h.flagged.trans hw,
      fun hf => (hfund hf).1, fun he => (henough he).2, ?_⟩
    exact h.flagged.announced hw h.announced hann
  · have hne : p'.ret ≠ p.ret := by
      rw [h.ret]
      exact hret.ne
    obtain ⟨m, hm, hw⟩ : ∃ m, ((w.inode i).blocks ≤ m ∧ m ≤ max (w.inode i).blocks (pos / 4096 + 1)) ∧
        Flagged w i m w' := by
      rcases hw with hw | hw
      · exact ⟨_, ⟨le_rfl, le_max_left ..⟩, hw⟩
      · refine ⟨_, ?_, hw⟩
        rw [loadedBlocks]
        split <;> omega
    refine .inr ⟨hle', hret.ne, halen'.trans h.alen, ⟨m, ?_, ?_, h.flagged.trans hw, fun hf => ?_⟩,
      fun he => hne (henough he).1, h.flagged.announced hw h.announced hann⟩
    · rw [reached] at hpos
      split at hpos <;> omega
    · rw [reached] at hpos
      split at hpos <;> omega
    · rw [← hw.blocks, (((hfund hf).2.resolve_left hne) i).2.2, hpos]

/-- **A transfer whose changes are told of**: it stays in the blocks of the file, its first block more
announces itself, the size is less than where that block starts, no block can fail but for want of
free ones, or none can fail at all. -/
def TransferTold (v : Volume) (i offset endpos : ℕ) : Prop :=
  endpos ≤ (v.inode i).blocks * 4096 ∨ Announces v i ∨
    (v.inode i).size < max offset ((v.inode i).blocks * 4096) ∨
    (Funded v ∧ (v.inode i).size ≤ (v.inode i).blocks * 4096) ∨
    (Enough v i ((endpos + 4095) / 4096) ∧ (v.inode i).size < endpos)

/-- The end of a transfer at `pos`, with `m` blocks counted. -/
theorem Flagged.settle (h : Flagged v i m w) (hm : m ≤ max (v.inode i).blocks SFS_MAX_FILE_SIZE)
    (hpos : pos ≤ SFS_MAX_FILE_SIZE) :
    Bounded v i (settle w i pos) ∧ ((v.inode i).size < pos ∨ m = (v.inode i).blocks ∨
      (w.inode i).dirty = true → Told v i (settle w i pos)) := by
  unfold Sfs.settle
  split
  · exact ⟨(h.setSize hm hpos).1, fun _ => (h.setSize hm hpos).2⟩
  · next hge =>
    rw [h.size] at hge
    refine ⟨h.bounded hm, fun hcond => ?_⟩
    rcases hcond with hlt | heq | hd
    · exact absurd hlt hge
    · exact h.told heq
    · exact .inl hd

/-- What a call of `sfs_io_nolock` changes is told of. -/
def IoTold (v : Volume) (i : ℕ) (offset : ℤ) (len : ℕ) (write : Bool) : Prop :=
  Invalid offset len ∨ Nothing (v.inode i).size offset len write ∨
    TransferTold v i offset.toNat (endOf (v.inode i).size offset len write)

/-- **`sfs_io_nolock`** tells of what it changed, where the inode was flagged before, or the transfer
is such. -/
theorem wp_io_told {buf : ℕ → UInt8} {offset : ℤ} {len : ℕ} :
    wp (sfsIoNolock i buf offset len write) (fun _ w => Bounded v i w ∧
      ((v.inode i).dirty = true ∨ IoTold v i offset len write → Told v i w)) Elsewhere v := by
  have hrefl := Flagged.refl v i
  have hsame : Bounded v i v ∧ ((v.inode i).dirty = true ∨ IoTold v i offset len write → Told v i v) :=
    ⟨hrefl.bounded (le_max_left ..), fun _ => .inr rfl⟩
  refine wp_io_of_parts (fun _ => ⟨by simp, by simp⟩) (fun _ => hsame) (fun _ _ => hsame)
    fun hinv hsome => ?_
  have hlt := Nothing.lt_endOf hinv hsome
  have hmax : endOf (v.inode i).size offset len write ≤ SFS_MAX_FILE_SIZE := by
    rw [endOf]
    split
    · exact min_le_right ..
    · exact (min_le_left ..).trans (min_le_right ..)
  have hmax' : endOf (v.inode i).size offset len write ≤ 1024 * 1024 * 128 := hmax
  have hlow : ∀ {m}, m ≤ max (v.inode i).blocks (1024 * 1024 * 128) →
      m ≤ max (v.inode i).blocks SFS_MAX_FILE_SIZE := id
  have hstart : Climb v i offset.toNat (endOf (v.inode i).size offset len write) offset.toNat
      ⟨0, 0, buf⟩ v :=
    ⟨le_rfl, rfl, (Nat.sub_self _).symm, by rw [reached, if_pos rfl]; exact hrefl, id, id,
      fun _ hne => absurd rfl hne⟩
  refine wp_mono (passes_climb.wp_ioParts hstart hlt) (fun p w hover => ?_) fun _ => id
  have htransfer : IoTold v i offset len write → TransferTold v i offset.toNat _ := fun hio =>
    (hio.resolve_left hinv).resolve_left hsome
  rcases hover with hall | ⟨pos, hpos, -, hfall⟩
  · have halen : offset.toNat + p.alen = endOf (v.inode i).size offset len write := by
      rw [hall.alen]
      exact Nat.add_sub_cancel' hall.le
    have hm : reached v i offset.toNat (endOf (v.inode i).size offset len write) =
        max (v.inode i).blocks ((endOf (v.inode i).size offset len write + 4095) / 4096) :=
      if_neg hlt.ne'
    have hflag := hall.flagged
    rw [hm] at hflag
    obtain ⟨hbound, htold⟩ := hflag.settle (hlow (by omega)) hmax
    rw [halen]
    refine ⟨hbound, fun hcond => htold ?_⟩
    rcases hcond with hd | hio
    · exact .inr (.inr (hflag.dirty hd))
    · by_cases hin : endOf (v.inode i).size offset len write ≤ (v.inode i).blocks * 4096
      · exact .inr (.inl (by omega))
      · rcases htransfer hio with hin' | hann | hsize | ⟨-, hsize⟩ | ⟨-, hsize⟩
        · exact absurd hin' hin
        · exact .inr (.inr (hall.announced hann (by rw [hflag.blocks]; omega)))
        all_goals exact .inl (by omega)
  · have halen : offset.toNat + p.alen = pos := by
      rw [hfall.alen]
      exact Nat.add_sub_cancel' hfall.le
    obtain ⟨m, hge, hle, hflag, hfunded⟩ := hfall.count
    obtain ⟨hbound, htold⟩ := hflag.settle (hlow (by omega)) (hpos.le.trans hmax)
    have hle' := hfall.le
    rw [halen]
    refine ⟨hbound, fun hcond => htold ?_⟩
    rcases hcond with hd | hio
    · exact .inr (.inr (hflag.dirty hd))
    · by_cases hmb : m = (v.inode i).blocks
      · exact .inr (.inl hmb)
      · rcases htransfer hio with hin | hann | hsize | ⟨hf, hsize⟩ | ⟨hen, -⟩
        · exact absurd (by omega : m = (v.inode i).blocks) hmb
        · exact .inr (.inr (hfall.announced hann (by rw [hflag.blocks]; exact hmb)))
        · exact .inl (by omega)
        · -- nothing is lost but for want of blocks, so what is counted was moved
          have hreached := hfunded hf
          rw [reached] at hreached
          split at hreached
          · exact absurd hreached hmb
          · exact .inl (by omega)
        · exact absurd hen hfall.few

end UCore.Sfs
