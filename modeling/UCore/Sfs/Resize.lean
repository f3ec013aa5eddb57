import UCore.Sfs.Content

/-!
# Sfs/Resize — `sfs_truncfile`

A file grows by new clear blocks at its end and shrinks by giving its last blocks up.  Either loop may
stop half way: growth where no block is free, and both where a transfer fails.  The size is stored only
at the end, so such a stop leaves `blocks` changed and the size as it was.
-/

namespace UCore.Sfs

variable {inos loose : Finset ℕ} {v v' w : Volume} {i k n : ℕ} {Q : Unit → Volume → Prop}
  {R : ℤ → Volume → Prop} {E : Assertion → Prop}

/-! ## Growth -/

/-- **A file grown to `n` blocks.** -/
structure Grown (inos loose : Finset ℕ) (v : Volume) (i n : ℕ) (w : Volume) : Prop where
  owned : Owned inos loose w
  frame : Frame inos loose v i w
  size : (w.inode i).size = (v.inode i).size
  type : (w.inode i).type = (v.inode i).type
  dense : Dense w i
  content : ∀ y < 1036 * 4096, content w i y = Sfs.content v i y
  missing : ∀ m ≤ 1036, n ≤ m →
    w.unusedBlocks + missing v i m = v.unusedBlocks + Sfs.missing w i m
  blocks : (w.inode i).blocks = n
  start : n = (v.inode i).blocks → w = v

/-- **Growth that stopped** at `n` blocks. -/
def Stunted (inos loose : Finset ℕ) (v : Volume) (i n : ℕ) (e : ℤ) (w : Volume) : Prop :=
  n < 1036 ∧ ∃ w₀, Grown inos loose v i n w₀ ∧ Kept inos loose w₀ w ∧
    (¬ Faulty v → Refused w₀ i n true e)

theorem Grown.refl (h : Owned inos loose v) (hd : Dense v i) :
    Grown inos loose v i (v.inode i).blocks v :=
  ⟨h, .refl h, rfl, rfl, hd, fun _ _ => rfl, fun _ _ _ => rfl, rfl, fun _ => rfl⟩

theorem Grown.step {b : ℕ} (h : Grown inos loose v i n w) (hi : i ∈ inos) (hle : (v.inode i).blocks ≤ n)
    (hl : Loaded inos loose w i n b v') : Grown inos loose v i (n + 1) v' := by
  obtain ⟨hk, -⟩ := hl.index
  have hblocks := hl.blocks
  rw [h.blocks, if_pos rfl] at hblocks
  refine ⟨hl.owned, h.frame.trans hl.frame, hl.size.trans h.size, hl.type.trans h.type,
    hl.dense hi h.dense, fun y hy => (hl.content hi hy).trans (h.content y hy), fun m hm hnm => ?_,
    hblocks, fun hno => by omega⟩
  have hlmiss := hl.missing hi (by omega) hm h.dense
  have hmiss := h.missing m hm (by omega)
  omega

/-- **The loop that enlarges**, by `n` blocks from `k` on. -/
theorem Grown.wpe_enlarge (h : Grown inos loose v i k w) (hi : i ∈ inos)
    (hle : (v.inode i).blocks ≤ k)
    (hrange : 1036 < k + n → Sfs.missing v i 1036 ≤ v.unusedBlocks → E .mapRange)
    (hQ : ∀ w, Grown inos loose v i (k + n) w → Q () w)
    (hR : ∀ e < 0, ∀ m w, k ≤ m → m < k + n → Stunted inos loose v i m e w → R e w) :
    Act.wpe (enlarge i n k) Q R E w := by
  induction n generalizing k w with
  | zero =>
    rw [enlarge, Act.wpe_pure]
    exact hQ w h
  | succ n ih =>
    have hadd : k + 1 + n = k + (n + 1) := by omega
    rw [enlarge, Act.wpe_bind]
    refine wpe_sfsBmapLoadNolock h.owned hi (fun hlt => absurd hlt (by rw [h.blocks]; omega))
      (fun _ hk => hrange (by omega) ?_) (fun hlt => absurd hlt (by rw [h.blocks]; omega))
      (fun b w' hl => ?_) (fun e he w' hk hw hf => hR e he k w' le_rfl (by omega) ⟨hk, w, h, hw, fun hno => ?_⟩)
    · have hfull : (w.inode i).blocks = 1036 := le_antisymm h.dense.le (by rw [h.blocks]; exact hk)
      have hmiss := h.missing 1036 le_rfl (h.blocks ▸ h.dense.le)
      have := h.dense.missing_full hfull
      omega
    · refine ih (h.step hi hle hl) (by omega) (by rw [hadd]; exact hrange) (fun w' hw => hQ w' ?_)
        fun e he m w' hm hmn hs => hR e he m w' (by omega) (by omega) hs
      rwa [hadd] at hw
    · have hf' := hf (h.frame.faulty.not.mpr hno)
      rwa [h.blocks, decide_eq_true rfl] at hf'

/-- Growth that stopped did so for want of blocks, if no transfer of the device fails. -/
theorem Stunted.lt_missing {e : ℤ} {m : ℕ} (h : Stunted inos loose v i m e w) (hf : ¬ Faulty v)
    (hn : n ≤ 1036) (hlt : m < n) : v.unusedBlocks < missing v i n := by
  obtain ⟨hk, w₀, hg, -, href⟩ := h
  have hfew := (href hf).lt_missing hg.blocks.le hlt
  have := hg.missing n hn hlt.le
  omega

/-! ## Reduction -/

/-- **A file cut to `n` blocks.** -/
structure Cut (inos loose : Finset ℕ) (v : Volume) (i n : ℕ) (w : Volume) : Prop where
  owned : Owned inos loose w
  frame : Frame inos loose v i w
  size : (w.inode i).size = (v.inode i).size
  type : (w.inode i).type = (v.inode i).type
  dense : Dense w i
  content : ∀ y < 1036 * 4096, content w i y =
    if n ≤ y / 4096 ∧ y / 4096 < (v.inode i).blocks then 0 else Sfs.content v i y
  unused : v.unusedBlocks ≤ w.unusedBlocks
  blocks : (w.inode i).blocks = n
  start : n = (v.inode i).blocks → w = v

/-- **Reduction that stopped** at `n` blocks, by a transfer that failed. -/
def Jammed (inos loose : Finset ℕ) (v : Volume) (i n : ℕ) (w : Volume) : Prop :=
  Faulty v ∧ ∃ w₀, Cut inos loose v i n w₀ ∧ Kept inos loose w₀ w

/-- **A block given up clears its bytes.** -/
theorem Dropped.content {j y : ℕ} (h : Dropped inos loose v i k v') (hj : j ∈ inos)
    (hy : y < 1036 * 4096) :
    content v' j y = if j = i ∧ y / 4096 = k then 0 else content v j y := by
  have hm : y / 4096 < 1036 := by omega
  by_cases hjk : j = i ∧ y / 4096 = k
  · obtain ⟨rfl, rfl⟩ := hjk
    rw [if_pos ⟨rfl, rfl⟩, Sfs.content, if_pos (h.self hm)]
  · have hne : (j, y / 4096) ≠ (i, k) := fun heq => hjk (Prod.mk.inj heq)
    rw [if_neg hjk]
    exact content_congr (h.map j hj _ hm hne) fun h0 => congrFun (h.data j hj _ hm hne h0) _

theorem Dropped.frame (h : Dropped inos loose v i k v') : Frame inos loose v i v' :=
  ⟨⟨loose, subset_rfl, h.owned⟩, fun _ => h.owned, h.fault, h.others,
    fun j hj hji m hm => h.map j hj m hm fun heq => hji (congrArg Prod.fst heq),
    fun j hj hji y hy => by rw [h.content hj hy, if_neg fun hc => hji hc.1]⟩

theorem Cut.refl (h : Owned inos loose v) (hd : Dense v i) :
    Cut inos loose v i (v.inode i).blocks v :=
  ⟨h, .refl h, rfl, rfl, hd, fun y _ => by rw [if_neg (by omega)], le_rfl, rfl, fun _ => rfl⟩

theorem Cut.step (h : Cut inos loose v i (n + 1) w) (hi : i ∈ inos) (hle : n + 1 ≤ (v.inode i).blocks)
    (hdrop : Dropped inos loose w i n v') (hblocks : (v'.inode i).blocks = n) :
    Cut inos loose v i n v' := by
  have hunused := h.unused
  refine ⟨hdrop.owned, h.frame.trans hdrop.frame, hdrop.size.trans h.size, hdrop.type.trans h.type,
    ⟨?_, fun m hm => ?_⟩, fun y hy => ?_, ?_, hblocks, fun hno => by omega⟩
  · have := h.dense.le
    rw [h.blocks] at this
    omega
  · have hlt : m < (w.inode i).blocks := by
      rw [h.blocks]
      omega
    rw [hdrop.map i hi m (hlt.trans_le h.dense.le) fun heq => by
      have := congrArg Prod.snd heq
      dsimp only at this
      omega]
    exact h.dense.ne_zero m hlt
  · rw [hdrop.content hi hy, h.content y hy]
    by_cases hn : y / 4096 = n
    · rw [if_pos ⟨rfl, hn⟩, if_pos (by omega)]
    · rw [if_neg fun hc => hn hc.2]
      exact if_congr (by omega) rfl rfl
  · rw [hdrop.unused]
    omega

/-- **The loop that reduces**, by `k` blocks. -/
theorem Cut.wpe_reduce (h : Cut inos loose v i (n + k) w) (hi : i ∈ inos)
    (hle : n + k ≤ (v.inode i).blocks) (hQ : ∀ w, Cut inos loose v i n w → Q () w)
    (hR : ∀ e < 0, ∀ m w, n < m → m ≤ n + k → Jammed inos loose v i m w → R e w) :
    Act.wpe (reduce i k) Q R E w := by
  induction k generalizing w with
  | zero =>
    rw [reduce, Act.wpe_pure]
    exact hQ w h
  | succ k ih =>
    have hb : (w.inode i).blocks = n + k + 1 := h.blocks
    have hb' : (w.inode i).blocks - 1 = n + k := by omega
    rw [reduce, Act.wpe_bind]
    refine wpe_sfsBmapTruncateNolock h.owned hi (fun h0 => absurd h0 (by omega)) (fun w' hdrop hblocks => ?_)
      fun e he w' hf hw => hR e he (n + k + 1) w' (by omega) le_rfl ⟨h.frame.faulty.mp hf, w, h, hw⟩
    rw [hb'] at hdrop hblocks
    exact ih (h.step hi (by omega) hdrop hblocks) (by omega)
      fun e he m w'' hm hmk hj => hR e he m w'' hm (by omega) hj

/-! ## `sfs_truncfile` and `sfs_tryseek` -/

theorem roundUpDiv_block (h : n ≤ SFS_MAX_FILE_SIZE) : roundUpDiv n SFS_BLKSIZE = (n + 4095) / 4096 := by
  have h' : n ≤ 1024 * 1024 * 128 := h
  change u64 (n + 4096 - 1) / 4096 = _
  rw [u64_of_lt (by omega)]
  rfl

/-- The volume with the size of the file `i` set. -/
abbrev Volume.setSize (v : Volume) (i n : ℕ) : Volume :=
  v.setInode i fun din => { din with size := n, dirty := true }

/-- **`sfs_truncfile`**, on a file without holes. -/
theorem wpe_sfsTruncfile {len : ℤ} (h : Owned inos loose v) (hd : Dense v i) (hi : i ∈ inos)
    (hinvalid : len < 0 ∨ len > SFS_MAX_FILE_SIZE → R (-E_INVAL) v)
    (hsame : 0 ≤ len → (v.inode i).size = len.toNat →
      (v.inode i).blocks = ((v.inode i).size + 4095) / 4096 → Q () v)
    (hsize : (v.inode i).blocks ≠ ((v.inode i).size + 4095) / 4096 → E .sizeBlocks)
    (hrange : 1036 * 4096 < len → Sfs.missing v i 1036 ≤ v.unusedBlocks → E .mapRange)
    (hgrow : 0 ≤ len → len ≤ SFS_MAX_FILE_SIZE → (v.inode i).size ≠ len.toNat →
      (v.inode i).blocks < (len.toNat + 4095) / 4096 → ∀ w,
      Grown inos loose v i ((len.toNat + 4095) / 4096) w → Q () (w.setSize i len.toNat))
    (hstunted : 0 ≤ len → ∀ e < 0, ∀ m w, (v.inode i).blocks ≤ m → m < (len.toNat + 4095) / 4096 →
      Stunted inos loose v i m e w → R e w)
    (hcut : 0 ≤ len → (v.inode i).size ≠ len.toNat → (len.toNat + 4095) / 4096 ≤ (v.inode i).blocks →
      ∀ w, Cut inos loose v i ((len.toNat + 4095) / 4096) w → Q () (w.setSize i len.toNat))
    (hjammed : 0 ≤ len → ∀ e < 0, ∀ m w, (len.toNat + 4095) / 4096 < m → m ≤ (v.inode i).blocks →
      Jammed inos loose v i m w → R e w) :
    Act.wpe (sfsTruncfile i len) Q R E v := by
  rw [sfsTruncfile, Act.wpe_ite]
  refine ⟨hinvalid, fun hlen => ?_⟩
  have hle : len ≤ SFS_MAX_FILE_SIZE := not_lt.mp fun hlt => hlen (.inr hlt)
  have h0 : 0 ≤ len := not_lt.mp fun hlt => hlen (.inl hlt)
  have hmax : len.toNat ≤ SFS_MAX_FILE_SIZE := by
    exact Int.toNat_le.mpr hle
  have hround := roundUpDiv_block hmax
  simp only [Act.wpe_bind, Act.wpe_get]
  rw [hround]
  -- what follows the loops
  have hend : ∀ w, (w.inode i).blocks = (len.toNat + 4095) / 4096 → Q () (w.setSize i len.toNat) →
      Act.wpe (do
        Act.demand .truncBlocks (((← get).inode i).blocks = (len.toNat + 4095) / 4096)
        setInode i fun din => { din with size := len.toNat, dirty := true } : Call Unit) Q R E w := by
    intro w hb hq
    simp only [Act.wpe_bind, Act.wpe_get, Act.wpe_demand, setInode, Act.wpe_modify]
    exact ⟨fun _ => hq, fun hno => absurd hb hno⟩
  rw [Act.wpe_ite]
  refine ⟨fun heq => ?_, fun hne => ?_⟩
  · rw [Act.wpe_demand, ← heq]
    exact ⟨fun hb => hsame h0 heq hb.symm, fun hb => hsize (Ne.symm hb)⟩
  · rw [Act.wpe_ite]
    refine ⟨fun hlt => ?_, fun hge => ?_⟩
    · have hadd : (v.inode i).blocks + ((len.toNat + 4095) / 4096 - (v.inode i).blocks) =
          (len.toNat + 4095) / 4096 := by omega
      rw [Act.wpe_bind]
      refine (Grown.refl h hd).wpe_enlarge hi le_rfl (fun hlt => hrange ?_) (fun w hw => ?_)
        fun e he m w hm hmt hs => hstunted h0 e he m w hm (by omega) hs
      · omega
      rw [hadd] at hw
      exact hend w hw.blocks (hgrow h0 hle hne hlt w hw)
    · have hsub : (len.toNat + 4095) / 4096 +
          ((v.inode i).blocks - (len.toNat + 4095) / 4096) = (v.inode i).blocks := by omega
      rw [Act.wpe_bind]
      refine Cut.wpe_reduce (n := (len.toNat + 4095) / 4096) (by rw [hsub]; exact .refl h hd) hi hsub.le
        (fun w hw => hend w hw.blocks (hcut h0 hne (not_lt.mp hge) w hw))
        fun e he m w hm hmt hj => hjammed h0 e he m w hm (by omega) hj

end UCore.Sfs
