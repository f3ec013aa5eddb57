import UCore.Sfs.Ownership

/-!
# Sfs/Entry — the stores that change a block map

    direct[k]   indirect   entry k of the entry block

Each changes one reference and leaves the others alone, so each links or unlinks one block.  `Kept`
is what a call leaves that reports an error: every file as it was, and a block lost only if the device
failed.
-/

namespace UCore.Sfs

variable {inos loose : Finset ℕ} {v v' : Volume} {b ent i j k n : ℕ}

/-! ## Entries of an entry block -/

/-- The volume after the entry `k` of `ent` is stored: one transfer to read the block and one to write
it back. -/
def Volume.setEntry (v : Volume) (ent k n : ℕ) : Volume :=
  v.tick.put ent (overlay (v.dev.data ent) (k * 4) 4 (encodeU32 n))

@[simp] theorem setEntry_inode : (v.setEntry ent k n).inode = v.inode := rfl
@[simp] theorem setEntry_blocks : (v.setEntry ent k n).blocks = v.blocks := rfl
@[simp] theorem setEntry_unusedBlocks : (v.setEntry ent k n).unusedBlocks = v.unusedBlocks := rfl
@[simp] theorem setEntry_freemap : (v.setEntry ent k n).freemap = v.freemap := rfl
@[simp] theorem setEntry_fault : (v.setEntry ent k n).dev.fault = v.dev.fault := rfl

theorem setEntry_data_of_ne (h : b ≠ ent) : (v.setEntry ent k n).dev.data b = v.dev.data b :=
  put_data_of_ne h

theorem entry_setEntry_self (hk : k < 1024) (hn : n < 2 ^ 32) :
    entry (v.setEntry ent k n) ent k = n := by
  have h : ∀ j < 4, (v.setEntry ent k n).dev.data ent (4 * k + j) = encodeU32 n j := fun j hj => by
    rw [Volume.setEntry, put_data_self (by change _ < 4096; omega), overlay_of_mem (by omega)]
    congr 1
    omega
  rw [entry, decodeU32_congr h, decodeU32_encodeU32 hn]

theorem entry_setEntry_of_ne (hj : j < 1024) (hjk : j ≠ k) :
    entry (v.setEntry ent k n) ent j = entry v ent j := by
  refine decodeU32_congr fun x hx => ?_
  rw [Volume.setEntry, put_data_self (by change _ < 4096; omega), overlay_of_notMem (by omega)]

theorem SameMap.setEntry : Owned.SameMap v (v.setEntry ent k n) := ⟨rfl, rfl, rfl, rfl, rfl⟩

namespace Owned

variable {r : Ref}

/-- The entry block of one inode is no other reference's. -/
theorem ne_indirect (h : Owned inos loose v) (hi : i ∈ inos) (hr : r.Valid inos)
    (hne : r ≠ .indirect i) (h0 : refBlock v r ≠ 0) : refBlock v r ≠ (v.inode i).indirect :=
  fun heq => hne (h.unique r (.indirect i) hr hi h0 heq)

/-- **Storing an entry** changes the block map of its inode at that place alone. -/
theorem refs_setEntry (h : Owned inos loose v) (hi : i ∈ inos) (hk : k < 1024)
    (h0 : (v.inode i).indirect ≠ 0) (hr : r.Valid inos) (hne : r ≠ .block i (12 + k)) :
    refBlock (v.setEntry (v.inode i).indirect k n) r = refBlock v r := by
  cases r with
  | inode j => rfl
  | indirect j => rfl
  | block j m =>
    obtain ⟨hj, hm⟩ := hr
    change bmap _ j m = bmap v j m
    unfold bmap
    rw [setEntry_inode]
    split
    · rfl
    · next hm12 =>
      split
      · rfl
      · next hj0 =>
        rcases eq_or_ne j i with rfl | hji
        · refine entry_setEntry_of_ne (by omega) fun hmk => hne ?_
          rw [← hmk, Nat.add_sub_cancel' (not_lt.mp hm12)]
        · have hother : (v.inode j).indirect ≠ (v.inode i).indirect :=
            h.ne_indirect (r := .indirect j) hi hj (fun heq => hji (Ref.indirect.inj heq)) hj0
          refine entry_congr (by omega) fun x _ => ?_
          rw [setEntry_data_of_ne hother]

theorem bmap_setEntry_self (h0 : (v.inode i).indirect ≠ 0) (hk : k < 1024) (hn : n < 2 ^ 32) :
    bmap (v.setEntry (v.inode i).indirect k n) i (12 + k) = n := by
  unfold bmap
  rw [if_neg (by omega), setEntry_inode, if_neg h0, Nat.add_sub_cancel_left]
  exact entry_setEntry_self hk hn

/-- The blocks of a volume have numbers of 32 bits. -/
theorem lt_of_fileBlock (h : Owned inos loose v) (hb : InRange v b) : b < 2 ^ 32 := by
  have := h.fits.mounted
  have := h.fits.small
  have := hb.2
  omega

/-- **Storing a loose block** in an empty entry links it. -/
theorem linkEntry (h : Owned inos loose v) (hb : b ∈ loose) (hi : i ∈ inos) (hk : k < 1024)
    (h0 : (v.inode i).indirect ≠ 0) (hempty : bmap v i (12 + k) = 0) :
    Owned inos (loose.erase b) (v.setEntry (v.inode i).indirect k b) :=
  h.link hb (r := .block i (12 + k)) ⟨hi, by omega⟩ hempty SameMap.setEntry
    (bmap_setEntry_self h0 hk (h.lt_of_fileBlock (h.looseUsed b hb).1.1))
    fun _ hr hne => h.refs_setEntry hi hk h0 hr hne

/-- **Clearing an entry** leaves its block loose. -/
theorem unlinkEntry (h : Owned inos loose v) (hi : i ∈ inos) (hk : k < 1024)
    (h0 : (v.inode i).indirect ≠ 0) (hheld : bmap v i (12 + k) ≠ 0) :
    Owned inos (insert (bmap v i (12 + k)) loose) (v.setEntry (v.inode i).indirect k 0) :=
  h.unlink (r := .block i (12 + k)) ⟨hi, by omega⟩ hheld SameMap.setEntry
    (bmap_setEntry_self h0 hk (by norm_num)) fun _ hr hne => h.refs_setEntry hi hk h0 hr hne

/-- An inode block is no entry block. -/
theorem inode_ne_indirect (h : Owned inos loose v) (hi : i ∈ inos) (hj : j ∈ inos) :
    j ≠ (v.inode i).indirect :=
  h.ne_indirect (r := .inode j) hi hj (by simp) (h.inodes j hj)

/-- The data of a file is in no entry block. -/
theorem block_ne_indirect (h : Owned inos loose v) (hi : i ∈ inos) (hj : j ∈ inos) (hk : k < 1036)
    (h0 : bmap v j k ≠ 0) : bmap v j k ≠ (v.inode i).indirect :=
  h.ne_indirect (r := .block j k) hi ⟨hj, hk⟩ (by simp) h0

end Owned

/-! ## Stores to an inode -/

/-- A store to an inode that leaves `direct` and `indirect` alone. -/
theorem refs_setInode {f : SfsInode → SfsInode} {r : Ref}
    (hdirect : (f (v.inode i)).direct = (v.inode i).direct)
    (hindirect : (f (v.inode i)).indirect = (v.inode i).indirect) :
    refBlock (v.setInode i f) r = refBlock v r := by
  have hd : ∀ j, ((v.setInode i f).inode j).direct = (v.inode j).direct := fun j => by
    rcases eq_or_ne j i with rfl | hji
    · rw [setInode_self, hdirect]
    · rw [setInode_of_ne hji]
  have hin : ∀ j, ((v.setInode i f).inode j).indirect = (v.inode j).indirect := fun j => by
    rcases eq_or_ne j i with rfl | hji
    · rw [setInode_self, hindirect]
    · rw [setInode_of_ne hji]
  cases r with
  | inode j => rfl
  | indirect j => exact hin j
  | block j m =>
    change bmap _ j m = bmap v j m
    unfold bmap entry
    rw [hd, hin]
    rfl

theorem Owned.setInode {f : SfsInode → SfsInode} (h : Owned inos loose v)
    (hdirect : (f (v.inode i)).direct = (v.inode i).direct)
    (hindirect : (f (v.inode i)).indirect = (v.inode i).indirect) :
    Owned inos loose (v.setInode i f) :=
  h.frame ⟨rfl, rfl, rfl, rfl, rfl⟩ fun _ _ => refs_setInode hdirect hindirect

/-- The volume with block `k` of the file `i` held in its inode. -/
abbrev Volume.setDirect (v : Volume) (i k b : ℕ) : Volume :=
  v.setInode i fun din => { din with direct := Function.update din.direct k b, dirty := true }

theorem bmap_setDirect_self (hk : k < 12) : bmap (v.setDirect i k b) i k = b := by
  unfold bmap
  rw [if_pos hk, setInode_self]
  exact Function.update_self ..

/-- **A store to `direct`** changes the block map at that place alone. -/
theorem refs_setDirect {r : Ref} (hk : k < 12) (hne : r ≠ .block i k) :
    refBlock (v.setDirect i k b) r = refBlock v r := by
  cases r with
  | inode j => rfl
  | indirect j =>
    rcases eq_or_ne j i with rfl | hji
    · change ((v.setDirect j k b).inode j).indirect = _
      rw [setInode_self]
      rfl
    · exact congrArg SfsInode.indirect (setInode_of_ne hji)
  | block j m =>
    change bmap _ j m = bmap v j m
    unfold bmap
    rcases eq_or_ne j i with rfl | hji
    · rw [setInode_self]
      dsimp only
      rcases eq_or_ne m k with rfl | hmk
      · exact absurd rfl hne
      · rw [Function.update_of_ne hmk]
        rfl
    · rw [setInode_of_ne hji]
      rfl

/-! ## What an error leaves -/

/-- A block taken was no inode's. -/
theorem Owned.dins_taken (h : Owned inos loose v) (ht : Taken v b v') (hj : j ∈ inos) :
    v'.dev.data j = v.dev.data j :=
  ht.data _ (h.ne_of_free ht.wasFree (r := .inode j) hj (h.inodes j hj))

/-- **Every file as it was**, and no block lost unless the device failed. -/
structure Kept (inos loose : Finset ℕ) (v v' : Volume) : Prop where
  owned : ∃ loose', loose ⊆ loose' ∧ Owned inos loose' v'
  exact : ¬ Faulty v → Owned inos loose v' ∧ v'.unusedBlocks = v.unusedBlocks
  fault : v'.dev.fault = v.dev.fault
  inode : v'.inode = v.inode
  map : ∀ j ∈ inos, ∀ k < 1036, bmap v' j k = bmap v j k
  data : ∀ j ∈ inos, ∀ k < 1036, bmap v j k ≠ 0 →
    v'.dev.data (bmap v j k) = v.dev.data (bmap v j k)
  dins : ∀ j ∈ inos, v'.dev.data j = v.dev.data j

namespace Kept

theorem refl (h : Owned inos loose v) : Kept inos loose v v :=
  ⟨⟨loose, subset_rfl, h⟩, fun _ => ⟨h, rfl⟩, rfl, rfl, fun _ _ _ _ => rfl, fun _ _ _ _ _ => rfl,
    fun _ _ => rfl⟩

theorem tick (h : Owned inos loose v) : Kept inos loose v v.tick :=
  have h' : Owned inos loose v.tick := h.frame ⟨rfl, rfl, rfl, rfl, rfl⟩ fun r _ => by cases r <;> rfl
  ⟨⟨loose, subset_rfl, h'⟩, fun _ => ⟨h', rfl⟩, rfl, rfl, fun _ _ _ _ => rfl, fun _ _ _ _ _ => rfl,
    fun _ _ => rfl⟩

theorem ofTick (h : Kept inos loose v.tick v') : Kept inos loose v v' :=
  ⟨h.owned, h.exact, h.fault, h.inode, h.map, h.data, h.dins⟩

theorem faulty (h : Kept inos loose v v') : Faulty v' ↔ Faulty v := by
  unfold Faulty
  rw [h.fault]

/-- Two steps that keep every file. -/
theorem trans {v₁ v₂ : Volume} (h : Kept inos loose v v₁)
    (h' : ∀ loose', loose ⊆ loose' → Owned inos loose' v₁ → Kept inos loose' v₁ v₂) :
    Kept inos loose v v₂ := by
  obtain ⟨loose₁, hsub, hown⟩ := h.owned
  have hk := h' loose₁ hsub hown
  obtain ⟨loose₂, hsub₂, hown₂⟩ := hk.owned
  refine ⟨⟨loose₂, hsub.trans hsub₂, hown₂⟩, fun hf => ?_, hk.fault.trans h.fault,
    hk.inode.trans h.inode, fun j hj k hlt => (hk.map j hj k hlt).trans (h.map j hj k hlt),
    fun j hj k hlt h0 => ?_, fun j hj => (hk.dins j hj).trans (h.dins j hj)⟩
  · obtain ⟨hv₁, hu⟩ := h.exact hf
    obtain ⟨hv₂, hu₂⟩ := (h' loose subset_rfl hv₁).exact (h.faulty.not.mpr hf)
    exact ⟨hv₂, hu₂.trans hu⟩
  · have heq := h.map j hj k hlt
    rw [← h.data j hj k hlt h0, ← heq]
    exact hk.data j hj k hlt (heq ▸ h0)

/-- A block taken, and lost to a device that failed. -/
theorem taken (h : Owned inos loose v) (hf : Faulty v) (ht : Taken v b v') :
    Kept inos loose v v' :=
  ⟨⟨insert b loose, Finset.subset_insert .., h.alloc ht⟩, fun hno => absurd hf hno, ht.fault, ht.inode,
    fun j hj k hk => h.refs_alloc ht (r := .block j k) ⟨hj, hk⟩, fun j hj k hk h0 =>
      ht.data _ (h.ne_of_free ht.wasFree (r := .block j k) ⟨hj, hk⟩ h0), fun _ => h.dins_taken ht⟩

/-- A block taken, and given back when what followed failed. -/
theorem unwind {v₁ v₂ : Volume} (h : Owned inos loose v) (ht : Taken v b v₁) (hb : b ∉ loose)
    (hk : Kept inos (insert b loose) v₁ v₂) (hf : Freed v₂ b v') : Kept inos loose v v' := by
  have hfaulty : Faulty v₁ ↔ Faulty v := by
    unfold Faulty
    rw [ht.fault]
  have hbmap : ∀ j ∈ inos, ∀ k < 1036, bmap v₁ j k = bmap v j k := fun j hj k hlt =>
    h.refs_alloc ht (r := .block j k) ⟨hj, hlt⟩
  have hfreed : ∀ j k, bmap v' j k = bmap v₂ j k := fun j k => by
    simp only [bmap, entry, hf.inode, hf.dev]
  refine ⟨?_, fun hno => ?_, by rw [hf.dev, hk.fault, ht.fault],
    by rw [hf.inode, hk.inode, ht.inode], fun j hj k hlt => ?_, fun j hj k hlt h0 => ?_,
    fun j hj => by rw [hf.dev, hk.dins j hj, h.dins_taken ht hj]⟩
  · obtain ⟨loose', hsub, hown⟩ := hk.owned
    refine ⟨loose'.erase b, ?_, hown.dealloc (hsub (Finset.mem_insert_self ..)) hf⟩
    rw [← Finset.erase_insert hb]
    exact Finset.erase_subset_erase b hsub
  · obtain ⟨hown, hunused⟩ := hk.exact (hfaulty.not.mpr hno)
    have hown' := hown.dealloc (Finset.mem_insert_self ..) hf
    rw [Finset.erase_insert hb] at hown'
    have := ht.unused
    have := hf.unused
    exact ⟨hown', by omega⟩
  · rw [hfreed, hk.map j hj k hlt, hbmap j hj k hlt]
  · have heq := hbmap j hj k hlt
    rw [hf.dev, ← heq, hk.data j hj k hlt (heq ▸ h0), heq]
    exact ht.data _ (h.ne_of_free ht.wasFree (r := .block j k) ⟨hj, hlt⟩ h0)

end Kept

end UCore.Sfs
