import UCore.Sfs.Grow
import UCore.Sfs.Shrink

/-!
# Sfs/Content — files as arrays of bytes

    content v i y = byte y of the file i,  0 where the file has no block

Finding or making a block changes no byte of any file, since a new block is clear; a store to the
block changes the bytes stored, and giving a block up clears them.  `Frame` is what all of them leave
alone: the other files.
-/

namespace UCore.Sfs

variable {inos loose : Finset ℕ} {v v' : Volume} {b i j k m n y off size : ℕ} {src : ℕ → UInt8}

/-- **The bytes of a file**, as far as its block map reaches. -/
def content (v : Volume) (i y : ℕ) : UInt8 :=
  if bmap v i (y / 4096) = 0 then 0 else v.dev.data (bmap v i (y / 4096)) (y % 4096)

theorem content_congr (hmap : bmap v' i (y / 4096) = bmap v i (y / 4096))
    (hdata : bmap v i (y / 4096) ≠ 0 → v'.dev.data (bmap v i (y / 4096)) (y % 4096) =
      v.dev.data (bmap v i (y / 4096)) (y % 4096)) : content v' i y = content v i y := by
  unfold content
  rw [hmap]
  split
  · rfl
  · next h => exact hdata h

/-- **A file without holes**: every block that `blocks` counts is there. -/
structure Dense (v : Volume) (i : ℕ) : Prop where
  le : (v.inode i).blocks ≤ 1036
  ne_zero : ∀ k < (v.inode i).blocks, bmap v i k ≠ 0

/-- The blocks that the file `i` still lacks to have `n`, its entry block included. -/
def missing (v : Volume) (i n : ℕ) : ℕ :=
  ((Finset.range n).filter fun k => (v.inode i).blocks ≤ k ∧ bmap v i k = 0).card +
    if 12 < n ∧ (v.inode i).indirect = 0 then 1 else 0

/-- **A regular file of a consistent volume.** -/
structure RegularFile (inos loose : Finset ℕ) (v : Volume) (i : ℕ) : Prop where
  owned : Owned inos loose v
  mem : i ∈ inos
  type : (v.inode i).type = .file
  dense : Dense v i
  blocks : (v.inode i).blocks = ((v.inode i).size + 4095) / 4096

/-- What the size of a file says about its map. -/
theorem RegularFile.size_le (h : RegularFile inos loose v i) : (v.inode i).size ≤ 1036 * 4096 := by
  have := h.blocks
  have := h.dense.le
  omega

/-! ## The other files -/

/-- **Only the file `i` may have changed.** -/
structure Frame (inos loose : Finset ℕ) (v : Volume) (i : ℕ) (v' : Volume) : Prop where
  owned : ∃ loose', loose ⊆ loose' ∧ Owned inos loose' v'
  exact : ¬ Faulty v → Owned inos loose v'
  fault : v'.dev.fault = v.dev.fault
  others : ∀ j, j ≠ i → v'.inode j = v.inode j
  map : ∀ j ∈ inos, j ≠ i → ∀ m < 1036, bmap v' j m = bmap v j m
  content : ∀ j ∈ inos, j ≠ i → ∀ y < 1036 * 4096, content v' j y = content v j y

namespace Frame

theorem refl (h : Owned inos loose v) : Frame inos loose v i v :=
  ⟨⟨loose, subset_rfl, h⟩, fun _ => h, rfl, fun _ _ => rfl, fun _ _ _ _ _ => rfl,
    fun _ _ _ _ _ => rfl⟩

theorem faulty (h : Frame inos loose v i v') : Faulty v' ↔ Faulty v := by
  unfold Faulty
  rw [h.fault]

theorem trans {v₁ v₂ : Volume} (h : Frame inos loose v i v₁) (h' : Frame inos loose v₁ i v₂) :
    Frame inos loose v i v₂ :=
  ⟨h'.owned, fun hno => h'.exact (h.faulty.not.mpr hno), h'.fault.trans h.fault,
    fun j hj => (h'.others j hj).trans (h.others j hj),
    fun j hj hji m hm => (h'.map j hj hji m hm).trans (h.map j hj hji m hm),
    fun j hj hji y hy => (h'.content j hj hji y hy).trans (h.content j hj hji y hy)⟩

end Frame

/-- A store to fields of an inode that map no block changes no file's bytes. -/
theorem Owned.frame_setInode {f : SfsInode → SfsInode} (h : Owned inos loose v)
    (hdirect : (f (v.inode i)).direct = (v.inode i).direct)
    (hindirect : (f (v.inode i)).indirect = (v.inode i).indirect) :
    Frame inos loose v i (v.setInode i f) :=
  have hmap : ∀ j m, bmap (v.setInode i f) j m = bmap v j m := fun j m =>
    refs_setInode (r := .block j m) hdirect hindirect
  ⟨⟨loose, subset_rfl, h.setInode hdirect hindirect⟩, fun _ => h.setInode hdirect hindirect, rfl,
    fun _ hj => setInode_of_ne hj, fun j _ _ m _ => hmap j m,
    fun j _ _ _ _ => content_congr (hmap j _) fun _ => rfl⟩

theorem Kept.content (h : Kept inos loose v v') (hi : i ∈ inos) (hy : y < 1036 * 4096) :
    content v' i y = content v i y :=
  content_congr (h.map i hi _ (by omega)) fun h0 => congrFun (h.data i hi _ (by omega) h0) _

theorem Kept.frame (h : Kept inos loose v v') : Frame inos loose v i v' :=
  ⟨h.owned, fun hno => (h.exact hno).1, h.fault, fun j _ => by rw [h.inode],
    fun j hj _ m hm => h.map j hj m hm, fun _ hj _ _ hy => h.content hj hy⟩

theorem Kept.dense (h : Kept inos loose v v') (hi : i ∈ inos) (hd : Dense v i) : Dense v' i :=
  ⟨h.inode ▸ hd.le, fun k hk => by
    rw [h.inode] at hk
    rw [h.map i hi k (hk.trans_le hd.le)]
    exact hd.ne_zero k hk⟩

theorem Kept.missing (h : Kept inos loose v v') (hi : i ∈ inos) (hn : n ≤ 1036) :
    missing v' i n = missing v i n := by
  unfold Sfs.missing
  rw [h.inode]
  congr 2
  refine Finset.filter_congr fun m hm => ?_
  rw [h.map i hi m ((Finset.mem_range.mp hm).trans_le hn)]

/-! ## A block found or made -/

/-- **A new block is clear**, so the file reads the same. -/
theorem Got.content (h : Got inos loose v i k b v') (hj : j ∈ inos) (hy : y < 1036 * 4096) :
    content v' j y = content v j y := by
  have hm : y / 4096 < 1036 := by omega
  by_cases hjk : (j, y / 4096) = (i, k)
  · obtain ⟨rfl, rfl⟩ := Prod.mk.inj hjk
    have hself := h.self
    by_cases h0 : bmap v j (y / 4096) = 0
    · unfold Sfs.content
      rw [if_pos h0, hself]
      split
      · rfl
      · next hb0 => exact h.zero (fun heq => hb0 (heq.symm.trans h0)) _ (Nat.mod_lt _ (by norm_num))
    · exact content_congr (hself.trans (h.old h0).symm) fun h0 => congrFun (h.data j hj _ hm h0) _
  · exact content_congr (h.map j hj _ hm hjk) fun h0 => congrFun (h.data j hj _ hm h0) _

theorem Got.frame (h : Got inos loose v i k b v') : Frame inos loose v i v' :=
  ⟨⟨loose, subset_rfl, h.owned⟩, fun _ => h.owned, h.fault, h.others,
    fun j hj hji m hm => h.map j hj m hm fun heq => hji (congrArg Prod.fst heq),
    fun _ hj _ _ hy => h.content hj hy⟩

theorem Loaded.dense (h : Loaded inos loose v i k b v') (hi : i ∈ inos) (hd : Dense v i) :
    Dense v' i := by
  obtain ⟨hk, hle⟩ := h.index
  refine ⟨?_, fun m hm => ?_⟩
  · rw [h.blocks]
    split
    · omega
    · exact hd.le
  · by_cases hmk : m = k
    · subst hmk
      rw [h.self]
      exact h.ne_zero
    · have hlt : m < (v.inode i).blocks := by
        rw [h.blocks] at hm
        split at hm <;> omega
      rw [h.map i hi m (hlt.trans_le hd.le) fun heq => hmk (congrArg Prod.snd heq)]
      exact hd.ne_zero m hlt

/-- The places still empty, after the load of block `k`. -/
theorem Loaded.filter_missing (h : Loaded inos loose v i k b v') (hi : i ∈ inos) (hn : n ≤ 1036)
    (hd : Dense v i) :
    (Finset.range n).filter (fun m => (v'.inode i).blocks ≤ m ∧ bmap v' i m = 0) =
      ((Finset.range n).filter fun m => (v.inode i).blocks ≤ m ∧ bmap v i m = 0).erase k := by
  obtain ⟨hk, hle⟩ := h.index
  ext m
  rw [Finset.mem_erase, Finset.mem_filter, Finset.mem_filter, Finset.mem_range, h.blocks]
  by_cases hmk : m = k
  · subst hmk
    have hself : bmap v' i m ≠ 0 := h.self.symm ▸ h.ne_zero
    simp [hself]
  · by_cases hmn : m < n
    · rw [h.map i hi m (hmn.trans_le hn) fun heq => hmk (congrArg Prod.snd heq)]
      refine ⟨fun ⟨_, hb, h0⟩ => ⟨hmk, hmn, ?_, h0⟩, fun ⟨_, _, hb, h0⟩ => ⟨hmn, ?_, h0⟩⟩
      · split at hb <;> omega
      · split <;> omega
    · simp [hmn]

/-- **What a load costs is what the file lacks less for it.** -/
theorem Loaded.missing (h : Loaded inos loose v i k b v') (hi : i ∈ inos) (hkn : k < n)
    (hn : n ≤ 1036) (hd : Dense v i) :
    v'.unusedBlocks + missing v i n = v.unusedBlocks + missing v' i n := by
  obtain ⟨hk, hle⟩ := h.index
  have hunused := h.unused
  have hind := h.indirect
  have hfilter := h.filter_missing hi hn hd
  unfold Sfs.missing
  rw [hfilter]
  by_cases h0 : bmap v i k = 0
  · have hkb : k = (v.inode i).blocks := by
      by_contra hne
      exact hd.ne_zero k (by omega) h0
    have hmem : k ∈ (Finset.range n).filter fun m => (v.inode i).blocks ≤ m ∧ bmap v i m = 0 :=
      Finset.mem_filter.mpr ⟨Finset.mem_range.mpr hkn, hkb.ge, h0⟩
    have hcard := Finset.card_erase_add_one hmem
    have hb : bmap v i k ≠ b := fun heq => h.ne_zero (heq.symm.trans h0)
    rw [if_neg hb, cost] at hunused
    simp only [hb, or_false] at hind
    by_cases h12 : k < 12
    · simp only [hind, h12, and_true]
      rw [if_neg (by omega)] at hunused
      omega
    · have hne : (v'.inode i).indirect ≠ 0 := fun hz => h12 (hind.mp hz).2
      simp only [hne, and_false, if_false]
      by_cases hz : (v.inode i).indirect = 0
      · rw [if_pos ⟨by omega, hz⟩] at hunused
        rw [if_pos ⟨by omega, hz⟩]
        omega
      · rw [if_neg fun hc => hz hc.2] at hunused
        rw [if_neg fun hc => hz hc.2]
        omega
  · have hnot : k ∉ (Finset.range n).filter fun m => (v.inode i).blocks ≤ m ∧ bmap v i m = 0 :=
      fun hmem => h0 (Finset.mem_filter.mp hmem).2.2
    have hb : bmap v i k = b := h.old h0
    rw [if_pos hb] at hunused
    simp only [hb, or_true, and_true] at hind
    rw [Finset.erase_eq_of_notMem hnot]
    simp only [hind]
    omega

/-- A file of the largest size the map reaches lacks nothing. -/
theorem Dense.missing_full (hd : Dense v i) (hfull : (v.inode i).blocks = 1036) :
    Sfs.missing v i 1036 = 0 := by
  have hlast : bmap v i 1035 ≠ 0 := hd.ne_zero 1035 (by omega)
  have hind : (v.inode i).indirect ≠ 0 := fun h0 => hlast (by rw [bmap, if_neg (by omega), if_pos h0])
  rw [Sfs.missing, if_neg fun hc => hind hc.2, Nat.add_zero, Finset.card_eq_zero,
    Finset.filter_eq_empty_iff]
  intro m hm hc
  have := Finset.mem_range.mp hm
  omega

/-- **A refused place is one the free blocks do not cover.** -/
theorem Refused.lt_missing {create : Bool} {e : ℤ} (h : Refused v i k create e)
    (hk : (v.inode i).blocks ≤ k) (hkn : k < n) : v.unusedBlocks < Sfs.missing v i n := by
  obtain ⟨-, h0, -, hlt⟩ := h
  have hmem : k ∈ (Finset.range n).filter fun m => (v.inode i).blocks ≤ m ∧ bmap v i m = 0 :=
    Finset.mem_filter.mpr ⟨Finset.mem_range.mpr hkn, hk, h0⟩
  have hcard := Finset.card_pos.mpr ⟨k, hmem⟩
  unfold cost at hlt
  unfold Sfs.missing
  split at hlt
  · next hind =>
    rw [if_pos ⟨by omega, hind.2⟩]
    omega
  · omega

/-! ## A store to a block of a file -/

/-- **A store of `size` bytes** at `off` in the block `b`. -/
structure Written (v : Volume) (b off size : ℕ) (src : ℕ → UInt8) (v' : Volume) : Prop where
  same : Owned.SameMap v v'
  inode : v'.inode = v.inode
  data : ∀ c, c ≠ b → v'.dev.data c = v.dev.data c
  self : ∀ x < 4096, v'.dev.data b x =
    if off ≤ x ∧ x < off + size then src (x - off) else v.dev.data b x

theorem Written.wbuf : Written v b off size src
    (v.tick.put b (overlay (v.dev.data b) off size src)) :=
  ⟨⟨rfl, rfl, rfl, rfl, rfl⟩, rfl, fun _ hc => put_data_of_ne hc, fun _ hx => put_data_self hx⟩

theorem Written.wblock : Written v b 0 4096 src (v.put b src) :=
  ⟨⟨rfl, rfl, rfl, rfl, rfl⟩, rfl, fun _ hc => put_data_of_ne hc, fun x hx => by
    rw [if_pos ⟨Nat.zero_le _, by omega⟩, Nat.sub_zero]
    exact put_data_self hx⟩

namespace Written

/-- The data of a file is in no entry block, so a store to it changes no block map. -/
theorem refs (h : Written v (bmap v i k) off size src v') (hown : Owned inos loose v) (hi : i ∈ inos)
    (hk : k < 1036) (h0 : bmap v i k ≠ 0) {r : Ref} (hr : r.Valid inos) :
    refBlock v' r = refBlock v r := by
  cases r with
  | inode j => rfl
  | indirect j => exact congrArg (fun f => (f j).indirect) h.inode
  | block j m =>
    refine bmap_congr hr.2 (by rw [h.inode]) (by rw [h.inode]) fun _ x _ => ?_
    rw [h.data _ (hown.block_ne_indirect hr.1 hi hk h0).symm]

theorem owned (h : Written v (bmap v i k) off size src v') (hown : Owned inos loose v) (hi : i ∈ inos)
    (hk : k < 1036) (h0 : bmap v i k ≠ 0) : Owned inos loose v' :=
  hown.frame h.same fun _ hr => h.refs hown hi hk h0 hr

theorem map (h : Written v (bmap v i k) off size src v') (hown : Owned inos loose v) (hi : i ∈ inos)
    (hk : k < 1036) (h0 : bmap v i k ≠ 0) (hj : j ∈ inos) (hm : m < 1036) :
    bmap v' j m = bmap v j m :=
  h.refs hown hi hk h0 (r := .block j m) ⟨hj, hm⟩

/-- **The bytes of every file after the store.** -/
theorem content (h : Written v (bmap v i k) off size src v') (hown : Owned inos loose v) (hi : i ∈ inos)
    (hk : k < 1036) (h0 : bmap v i k ≠ 0) (hj : j ∈ inos) (hy : y < 1036 * 4096) :
    content v' j y = if j = i ∧ y / 4096 = k ∧ off ≤ y % 4096 ∧ y % 4096 < off + size
      then src (y % 4096 - off) else content v j y := by
  have hm : y / 4096 < 1036 := by omega
  have hmap := h.map hown hi hk h0 hj hm
  by_cases hjk : j = i ∧ y / 4096 = k
  · obtain ⟨rfl, rfl⟩ := hjk
    unfold Sfs.content
    rw [hmap, if_neg h0, if_neg h0, h.self _ (Nat.mod_lt _ (by norm_num))]
    simp
  · rw [if_neg fun hc => hjk ⟨hc.1, hc.2.1⟩]
    refine content_congr hmap fun hold => ?_
    have hne : bmap v j (y / 4096) ≠ bmap v i k := fun heq => hjk <| by
      have := hown.unique (.block j (y / 4096)) (.block i k) ⟨hj, hm⟩ ⟨hi, hk⟩ hold heq
      cases this
      exact ⟨rfl, rfl⟩
    rw [h.data _ hne]

theorem frame (h : Written v (bmap v i k) off size src v') (hown : Owned inos loose v) (hi : i ∈ inos)
    (hk : k < 1036) (h0 : bmap v i k ≠ 0) : Frame inos loose v i v' :=
  ⟨⟨loose, subset_rfl, h.owned hown hi hk h0⟩, fun _ => h.owned hown hi hk h0, h.same.fault,
    fun j _ => by rw [h.inode], fun j hj _ m hm => h.map hown hi hk h0 hj hm,
    fun j hj hji y hy => by rw [h.content hown hi hk h0 hj hy, if_neg fun hc => hji hc.1]⟩

theorem dense (h : Written v (bmap v i k) off size src v') (hown : Owned inos loose v) (hi : i ∈ inos)
    (hk : k < 1036) (h0 : bmap v i k ≠ 0) (hd : Dense v i) : Dense v' i :=
  ⟨h.inode ▸ hd.le, fun m hm => by
    rw [h.inode] at hm
    rw [h.map hown hi hk h0 hi (hm.trans_le hd.le)]
    exact hd.ne_zero m hm⟩

theorem missing (h : Written v (bmap v i k) off size src v') (hown : Owned inos loose v) (hi : i ∈ inos)
    (hk : k < 1036) (h0 : bmap v i k ≠ 0) (hn : n ≤ 1036) : missing v' i n = missing v i n := by
  unfold Sfs.missing
  rw [h.inode]
  congr 2
  refine Finset.filter_congr fun m hm => ?_
  rw [h.map hown hi hk h0 hi ((Finset.mem_range.mp hm).trans_le hn)]

end Written

end UCore.Sfs
