import UCore.Sfs.Entry

/-!
# Sfs/Shrink — giving up the last block of a file

The block is unlinked and given back (`Dropped`), or a transfer of its entry block fails and every
file is as it was.
-/

namespace UCore.Sfs

variable {inos loose : Finset ℕ} {v v' : Volume} {b ent i j k n : ℕ}

/-! ## Places given up -/

/-- **Block `k` of the file `i` is gone**, and the rest of the files is as it was. -/
structure Dropped (inos loose : Finset ℕ) (v : Volume) (i k : ℕ) (v' : Volume) : Prop where
  owned : Owned inos loose v'
  fault : v'.dev.fault = v.dev.fault
  others : ∀ j, j ≠ i → v'.inode j = v.inode j
  size : (v'.inode i).size = (v.inode i).size
  type : (v'.inode i).type = (v.inode i).type
  indirect : (v'.inode i).indirect = (v.inode i).indirect
  self : k < 1036 → bmap v' i k = 0
  map : ∀ j ∈ inos, ∀ m < 1036, (j, m) ≠ (i, k) → bmap v' j m = bmap v j m
  data : ∀ j ∈ inos, ∀ m < 1036, (j, m) ≠ (i, k) → bmap v j m ≠ 0 →
    v'.dev.data (bmap v j m) = v.dev.data (bmap v j m)
  unused : v'.unusedBlocks = v.unusedBlocks + if k < 1036 ∧ bmap v i k ≠ 0 then 1 else 0
  dins : ∀ j ∈ inos, v'.dev.data j = v.dev.data j

theorem Dropped.setInode {f : SfsInode → SfsInode} (h : Dropped inos loose v i k v')
    (hdirect : (f (v'.inode i)).direct = (v'.inode i).direct)
    (hindirect : (f (v'.inode i)).indirect = (v'.inode i).indirect)
    (hsize : (f (v'.inode i)).size = (v'.inode i).size)
    (htype : (f (v'.inode i)).type = (v'.inode i).type) :
    Dropped inos loose v i k (v'.setInode i f) := by
  have hmap : ∀ j m, bmap (v'.setInode i f) j m = bmap v' j m := fun j m =>
    refs_setInode (r := .block j m) hdirect hindirect
  refine ⟨h.owned.setInode hdirect hindirect, h.fault, fun j hj => ?_, ?_, ?_, ?_, fun hk => ?_,
    fun j hj m hm hjm => ?_, h.data, h.unused, h.dins⟩
  · rw [setInode_of_ne hj, h.others j hj]
  · rw [setInode_self, hsize, h.size]
  · rw [setInode_self, htype, h.type]
  · rw [setInode_self, hindirect, h.indirect]
  · rw [hmap, h.self hk]
  · rw [hmap, h.map j hj m hm hjm]

/-- Nothing was there. -/
theorem Dropped.ofKept (h : Kept inos loose v v') (hown : Owned inos loose v')
    (hu : v'.unusedBlocks = v.unusedBlocks) (hempty : k < 1036 → i ∈ inos ∧ bmap v i k = 0) :
    Dropped inos loose v i k v' :=
  ⟨hown, h.fault, fun _ _ => by rw [h.inode], by rw [h.inode], by rw [h.inode], by rw [h.inode],
    fun hk => (h.map i (hempty hk).1 k hk).trans (hempty hk).2, fun j hj m hm _ => h.map j hj m hm,
    fun j hj m hm _ => h.data j hj m hm, by
      rw [if_neg (fun hc => hc.2 (hempty hc.1).2), Nat.add_zero, hu], h.dins⟩

/-- A block unlinked at one place, and given back. -/
theorem Dropped.ofUnlink {u : Volume} (hi : i ∈ inos) (hk : k < 1036) (hheld : bmap v i k ≠ 0)
    (h : Owned inos loose v) (hu : Owned inos (insert (bmap v i k) loose) u)
    (hfault : u.dev.fault = v.dev.fault) (hothers : ∀ j, j ≠ i → u.inode j = v.inode j)
    (hsize : (u.inode i).size = (v.inode i).size) (htype : (u.inode i).type = (v.inode i).type)
    (hindirect : (u.inode i).indirect = (v.inode i).indirect) (hself : bmap u i k = 0)
    (hmap : ∀ j ∈ inos, ∀ m < 1036, (j, m) ≠ (i, k) → bmap u j m = bmap v j m)
    (hdata : ∀ j ∈ inos, ∀ m < 1036, bmap v j m ≠ 0 →
      u.dev.data (bmap v j m) = v.dev.data (bmap v j m))
    (hunused : u.unusedBlocks = v.unusedBlocks)
    (hdins : ∀ j ∈ inos, u.dev.data j = v.dev.data j) (hf : Freed u (bmap v i k) v') :
    Dropped inos loose v i k v' := by
  have hnot : bmap v i k ∉ loose := fun hl =>
    h.looseUnheld _ hl (.block i k) ⟨hi, hk⟩ rfl
  have hmap' : ∀ j m, bmap v' j m = bmap u j m := fun j m => by
    simp only [bmap, entry, hf.inode, hf.dev]
  have hown := hu.dealloc (Finset.mem_insert_self ..) hf
  rw [Finset.erase_insert hnot] at hown
  exact ⟨hown, by rw [hf.dev, hfault], fun j hj => by rw [hf.inode, hothers j hj],
    by rw [hf.inode, hsize], by rw [hf.inode, htype], by rw [hf.inode, hindirect],
    fun _ => by rw [hmap', hself], fun j hj m hm hjm => by rw [hmap', hmap j hj m hm hjm],
    fun j hj m hm _ h0 => by rw [hf.dev, hdata j hj m hm h0],
    by rw [hf.unused, hunused, if_pos ⟨hk, hheld⟩], fun j hj => by rw [hf.dev, hdins j hj]⟩

section Calls

variable {Q : Unit → Volume → Prop} {R : ℤ → Volume → Prop} {E : Assertion → Prop}

/-- **`sfs_bmap_free_sub_nolock`.** -/
theorem wpe_sfsBmapFreeSubNolock (h : Owned inos loose v) (hi : i ∈ inos) (hk : k < 1024)
    (h0 : (v.inode i).indirect ≠ 0)
    (hQ : ∀ w, Dropped inos loose v i (12 + k) w → w.inode = v.inode → Q () w)
    (hR : ∀ e < 0, ∀ w, Faulty v → Kept inos loose v w → R e w) :
    Act.wpe (sfsBmapFreeSubNolock (v.inode i).indirect k) Q R E v := by
  have hin := h.refs (.indirect i) hi h0
  have hentry : bmap v i (12 + k) = entry v (v.inode i).indirect k := by
    rw [bmap, if_neg (by omega), if_neg h0, Nat.add_sub_cancel_left]
  have hread : decodeU32 (fun x => v.dev.data (v.inode i).indirect (k * 4 + x)) =
      bmap v i (12 + k) := by
    rw [hentry, entry, Nat.mul_comm]
  have htick := Kept.tick h
  have hown : Owned inos loose v.tick := h.frame ⟨rfl, rfl, rfl, rfl, rfl⟩ fun r _ => by
    cases r <;> rfl
  have hk' : 12 + k < 1036 := by omega
  simp only [sfsBmapFreeSubNolock, Act.wpe_bind]
  refine wpe_sfsBlockInuse h.mapped.covers hin.1.1 ?_
  rw [Act.wpe_demand]
  have hused : v.freemap.bit (v.inode i).indirect = false := hin.2
  refine ⟨fun _ => ?_, fun hno => absurd ⟨by simp [hused], hk⟩ hno⟩
  refine wpe_sfsRbuf h.fits hin.1.1 (by omega) (by omega) ?_ fun e he hf => hR e he _ hf htick
  rw [hread, Act.wpe_ite]
  refine ⟨fun hheld => ?_, fun hempty => ?_⟩
  · rw [Act.wpe_bind]
    refine wpe_sfsWbuf (b := (v.inode i).indirect) hown.fits hin.1.1 (by omega) (by omega) ?_
      fun e he hf => ⟨hR e he _ hf (htick.trans fun _ _ ho => .tick ho),
        hR e he _ hf ((htick.trans fun _ _ ho => .tick ho).trans fun _ _ ho => .tick ho)⟩
    have hunlink := hown.unlinkEntry hi hk h0 hheld
    have hfile := hunlink.looseUsed _ (Finset.mem_insert_self ..)
    refine hunlink.wpe_free hfile.1.1 hfile.2 fun w hf => hQ w ?_ hf.inode
    refine Dropped.ofUnlink hi hk' hheld h hunlink rfl (fun _ _ => rfl) rfl rfl rfl
      (Owned.bmap_setEntry_self h0 hk (by norm_num)) (fun j hj m hm hjm => ?_)
      (fun j hj m hm hold => ?_) rfl
      (fun j hj => setEntry_data_of_ne (h.inode_ne_indirect hi hj)) hf
    · refine hown.refs_setEntry (r := .block j m) hi hk h0 ⟨hj, hm⟩ fun heq => hjm ?_
      cases heq
      rfl
    · exact setEntry_data_of_ne (h.block_ne_indirect hi hj hm hold)
  · rw [Act.wpe_pure]
    exact hQ _ (.ofKept htick hown rfl fun _ => ⟨hi, not_not.mp hempty⟩) rfl

/-- **`sfs_bmap_free_nolock`.** -/
theorem wpe_sfsBmapFreeNolock (h : Owned inos loose v) (hi : i ∈ inos)
    (hQ : ∀ w, Dropped inos loose v i k w → (w.inode i).blocks = (v.inode i).blocks → Q () w)
    (hR : ∀ e < 0, ∀ w, Faulty v → Kept inos loose v w → R e w) :
    Act.wpe (sfsBmapFreeNolock i k) Q R E v := by
  simp only [sfsBmapFreeNolock, Act.wpe_bind, Act.wpe_get]
  rw [Act.wpe_ite]
  refine ⟨fun hk => ?_, fun hk => ?_⟩
  · have hk' : k < 12 := hk
    have hmap : (v.inode i).direct k = bmap v i k := (if_pos hk').symm
    rw [hmap, Act.wpe_ite]
    refine ⟨fun hheld => ?_, fun hempty => ?_⟩
    · have hin := h.refs (.block i k) ⟨hi, by omega⟩ hheld
      rw [Act.wpe_bind]
      refine h.wpe_free hin.1.1 hin.2 fun w hf => ?_
      simp only [setInode, Act.wpe_modify]
      -- unlinking first and giving back second ends in the same place
      have hunlink : Owned inos (insert (bmap v i k) loose) (v.setDirect i k 0) :=
        h.unlink (r := .block i k) ⟨hi, by omega⟩ hheld ⟨rfl, rfl, rfl, rfl, rfl⟩
          (bmap_setDirect_self hk') fun r _ hne => refs_setDirect hk' hne
      have hfreed : Freed (v.setDirect i k 0) (bmap v i k) (w.setDirect i k 0) :=
        ⟨hf.freemap, hf.unused, hf.blocks, by rw [Volume.setDirect, Volume.setInode, hf.inode]; rfl,
          hf.dev⟩
      refine hQ _ (Dropped.ofUnlink hi (by omega) hheld h hunlink rfl (fun j hj => setInode_of_ne hj)
        (by rw [setInode_self]) (by rw [setInode_self]) (by rw [setInode_self])
        (bmap_setDirect_self hk') (fun j hj m hm hjm => ?_) (fun _ _ _ _ _ => rfl) rfl
        (fun _ _ => rfl) hfreed) ?_
      · refine refs_setDirect (r := .block j m) hk' fun heq => hjm ?_
        cases heq
        rfl
      · rw [setInode_self, hf.inode]
    · rw [Act.wpe_pure]
      exact hQ v (.ofKept (.refl h) h rfl fun _ => ⟨hi, not_not.mp hempty⟩) rfl
  · have hk' : 12 + (k - 12) = k := Nat.add_sub_cancel' (not_lt.mp hk)
    have hk12 : ¬ k < 12 := hk
    rw [Act.wpe_ite]
    refine ⟨fun hlt => ?_, fun hno => ?_⟩
    · have hlt' : k - 12 < 1024 := hlt
      rw [Act.wpe_ite]
      refine ⟨fun h0 => ?_, fun h0 => ?_⟩
      · refine wpe_sfsBmapFreeSubNolock h hi hlt' h0 (fun w hw hinode => ?_) hR
        rw [hk'] at hw
        exact hQ w hw (by rw [hinode])
      · have hempty : bmap v i k = 0 := by rw [bmap, if_neg hk12, if_pos (not_not.mp h0)]
        rw [Act.wpe_pure]
        exact hQ v (.ofKept (.refl h) h rfl fun _ => ⟨hi, hempty⟩) rfl
    · have hno' : ¬ k - 12 < 1024 := hno
      rw [Act.wpe_pure]
      exact hQ v (.ofKept (.refl h) h rfl fun hlt => by omega) rfl

/-- **`sfs_bmap_truncate_nolock`**, which asks for a block to give up. -/
theorem wpe_sfsBmapTruncateNolock (h : Owned inos loose v) (hi : i ∈ inos)
    (hempty : (v.inode i).blocks = 0 → E .truncateEmpty)
    (hQ : ∀ w, Dropped inos loose v i ((v.inode i).blocks - 1) w →
      (w.inode i).blocks = (v.inode i).blocks - 1 → Q () w)
    (hR : ∀ e < 0, ∀ w, Faulty v → Kept inos loose v w → R e w) :
    Act.wpe (sfsBmapTruncateNolock i) Q R E v := by
  simp only [sfsBmapTruncateNolock, Act.wpe_bind, Act.wpe_get, Act.wpe_demand]
  refine ⟨fun _ => ?_, fun hno => hempty (not_not.mp hno)⟩
  refine wpe_sfsBmapFreeNolock h hi (fun w hw hb => ?_) hR
  rw [setInode, Act.wpe_modify]
  exact hQ _ (hw.setInode rfl rfl rfl rfl) (by rw [setInode_self, hb])

end Calls

end UCore.Sfs
