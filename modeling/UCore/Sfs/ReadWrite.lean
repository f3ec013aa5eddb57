import UCore.Sfs.OwnershipRun

/-!
# Sfs/ReadWrite — a file is its array of bytes

A write puts the buffer over the bytes of the file and extends it; a read delivers the bytes that are
there, whatever was called in between on other files, and whatever was read.
-/

namespace UCore.Sfs

variable {inos loose : Finset ℕ} {v w : Volume} {i j k n y : ℕ} {buf : ℕ → UInt8}

/-- **The same file**, up to its size: its bytes and its blocks. -/
structure SameData (v : Volume) (i : ℕ) (w : Volume) : Prop where
  type : (w.inode i).type = (v.inode i).type
  blocks : (w.inode i).blocks = (v.inode i).blocks
  content : ∀ y < 1036 * 4096, content w i y = content v i y
  dense : Dense v i → Dense w i

/-- …and its size. -/
structure SameFile (v : Volume) (i : ℕ) (w : Volume) : Prop extends SameData v i w where
  size : (w.inode i).size = (v.inode i).size

namespace SameFile

theorem refl : SameFile v i v := ⟨⟨rfl, rfl, fun _ _ => rfl, id⟩, rfl⟩

theorem trans {v₁ v₂ : Volume} (h : SameFile v i v₁) (h' : SameFile v₁ i v₂) : SameFile v i v₂ :=
  ⟨⟨h'.type.trans h.type, h'.blocks.trans h.blocks,
    fun y hy => (h'.content y hy).trans (h.content y hy), fun hd => h'.dense (h.dense hd)⟩,
    h'.size.trans h.size⟩

/-- A step on another file. -/
theorem ofFrame (h : Frame inos loose v j w) (hi : i ∈ inos) (hij : i ≠ j) : SameFile v i w := by
  have hinode := h.others i hij
  refine ⟨⟨by rw [hinode], by rw [hinode], h.content i hi hij, fun hd => ⟨?_, fun k hk => ?_⟩⟩,
    by rw [hinode]⟩
  · rw [hinode]
    exact hd.le
  · rw [hinode] at hk
    rw [h.map i hi hij k (hk.trans_le hd.le)]
    exact hd.ne_zero k hk

theorem regularFile (h : SameFile v i w) (hr : RegularFile inos loose v i) (hown : Owned inos loose w) :
    RegularFile inos loose w i :=
  ⟨hown, hr.mem, h.type.trans hr.type, h.dense hr.dense, by rw [h.blocks, h.size]; exact hr.blocks⟩

end SameFile

/-- **The size of a file is raised**, and nothing else changes. -/
theorem settle_spec (h : Owned inos loose v) :
    Frame inos loose v i (settle v i n) ∧ SameData v i (settle v i n) ∧
      ((settle v i n).inode i).size = max (v.inode i).size n := by
  unfold settle
  split
  · next hgt =>
    have hmap : ∀ m, bmap (v.setInode i fun din => { din with size := n, dirty := true }) i m =
        bmap v i m := fun m => refs_setInode (r := .block i m) rfl rfl
    refine ⟨h.frame_setInode rfl rfl, ⟨?_, ?_, fun y _ => content_congr (hmap _) fun _ => rfl,
      fun hd => ⟨?_, fun k hk => ?_⟩⟩, ?_⟩
    · rw [setInode_self]
    · rw [setInode_self]
    · rw [setInode_self]
      exact hd.le
    · rw [setInode_self] at hk
      rw [hmap]
      exact hd.ne_zero k hk
    · rw [setInode_self]
      exact (max_eq_right hgt.le).symm
  · next hle => exact ⟨.refl h, SameFile.refl.toSameData, (max_eq_left (not_lt.mp hle)).symm⟩

/-- The bytes that a read of `len` bytes at `offset` finds. -/
def available (size offset len : ℕ) : ℕ := min (offset + len) size - offset

/-- The arguments of a transfer whose end does not overflow are accepted… -/
theorem not_invalid {offset len : ℕ} (hmax : offset < SFS_MAX_FILE_SIZE) (hlen : offset + len < 2 ^ 63) :
    ¬ Invalid offset len := by
  have hmax' : offset < 1024 * 1024 * 128 := hmax
  have hs64 : toS64 ((offset : ℤ) + len) = offset + len := toS64_of_mem (by omega) (by omega)
  rintro (hc | hc | hc)
  · omega
  · have hc' : (1024 * 1024 * 128 : ℤ) ≤ offset := hc
    omega
  · rw [hs64] at hc
    omega

/-- …and a read of them ends with the file. -/
theorem endOf_read {size offset len : ℕ} (hsize : size ≤ 1036 * 4096) (hlen : offset + len < 2 ^ 63) :
    endOf size offset len false = min (offset + len) size := by
  have hs64 : toS64 ((offset : ℤ) + len) = offset + len := toS64_of_mem (by omega) (by omega)
  rw [endOf, if_neg (by simp), hs64]
  change min (min _ (1024 * 1024 * 128)) _ = _
  omega

namespace RegularFile

/-- **A read delivers the bytes that are there**, and changes nothing. -/
theorem wp_read {offset : ℤ} {len : ℕ} (h : RegularFile inos loose v i) (hf : ¬ Faulty v) :
    Act.wp (sfsIoNolock i buf offset len false)
      (fun p w => SameFile v i w ∧ Frame inos loose v i w ∧ (¬ Invalid offset len →
        p = ⟨0, endOf (v.inode i).size offset len false - offset.toNat, delivered v i offset.toNat
          (endOf (v.inode i).size offset len false - offset.toNat) buf⟩))
      (fun _ => False) v := by
  have hsize := h.size_le
  have hblocks := h.blocks
  have hend : endOf (v.inode i).size offset len false ≤ (v.inode i).size := by
    rw [endOf, if_neg (by simp)]
    exact min_le_right ..
  refine wp_sfsIoNolock h.owned h.dense h.mem (fun hdir => absurd (h.type.symm.trans hdir) (by simp))
    (fun hc => ⟨.refl, .refl h.owned, fun hno => absurd hc hno⟩)
    (fun hinv hno => ⟨.refl, .refl h.owned, fun _ => ?_⟩) (fun hinv hno hlt => ?_)
    (fun _ _ hlt => by omega) (fun hinv hno _ p w hended => ?_)
  · have h0 : endOf (v.inode i).size offset len false - offset.toNat = 0 := by
      rw [endOf, if_neg (by simp)]
      rcases hno with heq | ⟨-, hge⟩
      · rw [← heq]
        omega
      · omega
    rw [h0]
    exact Progress.ext rfl rfl (by unfold delivered; simp)
  · have hsome := Nothing.lt_endOf hinv hno
    omega
  · have hsome := Nothing.lt_endOf hinv hno
    rcases hended with hg | ⟨pos, hpos, halign, p₀, w₀, hg, -, -, -, hkept | hfault⟩
    · have halen := hg.alen
      have hw : settle w i (offset.toNat + p.alen) = w := by
        rw [settle, if_neg]
        rw [hg.size, halen]
        omega
      rw [hw]
      refine ⟨⟨⟨hg.type, ?_, fun y hy => ?_, fun _ => hg.dense⟩, hg.size⟩, hg.frame,
        fun _ => Progress.ext hg.ret halen ?_⟩
      · rw [hg.blocks hsome]
        omega
      · rw [hg.content y hy, if_neg (by simp)]
      · rw [hg.buf, if_neg (by simp)]
    · -- every block of the read is there already
      obtain ⟨hcreate, -⟩ := hkept.2 (hg.frame.faulty.not.mpr hf)
      have hk := of_decide_eq_true hcreate
      rcases hg.le.eq_or_lt with heq | hlt
      · rw [hg.start heq.symm] at hk
        omega
      · rw [hg.blocks hlt] at hk
        omega
    · exact absurd (hg.frame.faulty.mp hfault.1) hf

/-- **A write puts the buffer over the bytes of the file**, also where it leaves a gap behind the last
of them; only one that starts beyond the blocks of the file stops. -/
theorem wp_write_at {offset len : ℕ} (h : RegularFile inos loose v i) (hf : ¬ Faulty v)
    (hcap : offset + len ≤ 1036 * 4096)
    (hfree : missing v i ((offset + len + 4095) / 4096) ≤ v.unusedBlocks) :
    Act.wp (sfsIoNolock i buf offset len true)
      (fun p w => p = ⟨0, len, buf⟩ ∧ RegularFile inos loose w i ∧ Frame inos loose v i w ∧
        (len ≠ 0 → offset / 4096 ≤ (v.inode i).blocks) ∧
        (w.inode i).size = (if len = 0 then (v.inode i).size else max (v.inode i).size (offset + len)) ∧
        ∀ y < 1036 * 4096, content w i y =
          if offset ≤ y ∧ y < offset + len then buf (y - offset) else content v i y)
      (fun _ => (v.inode i).blocks < offset / 4096) v := by
  have hblocks := h.blocks
  have hs64 : toS64 ((offset : ℤ) + len) = offset + len := toS64_of_mem (by omega) (by omega)
  have hend : endOf (v.inode i).size offset len true = offset + len := by
    rw [endOf, if_pos rfl, hs64]
    change min _ (1024 * 1024 * 128) = _
    omega
  have hinv : ¬ Invalid offset len :=
    not_invalid (by change offset < 1024 * 1024 * 128; omega) (by omega)
  refine wp_sfsIoNolock h.owned h.dense h.mem (fun hdir => absurd (h.type.symm.trans hdir) (by simp))
    (fun hc => absurd hc hinv) (fun _ hno => ?_) (fun _ _ hlt => ?_)
    (fun _ _ hlt => ?_) (fun _ hno hstart p w hended => ?_)
  · have hzero : len = 0 := by
      rcases hno with heq | ⟨hc, -⟩
      · rw [hs64] at heq
        omega
      · exact absurd hc (by simp)
    exact ⟨by rw [hzero], h, .refl h.owned, fun hne => absurd hzero hne, (if_pos hzero).symm, fun y _ => by rw [if_neg (by omega)]⟩
  · rwa [Int.toNat_natCast] at hlt
  · rw [hend] at hlt
    omega
  · have hsome := Nothing.lt_endOf hinv hno
    have hoff' : (offset : ℤ).toNat = offset := Int.toNat_natCast offset
    rw [hend, hoff'] at hended hsome
    rw [hoff', if_neg (by omega)]
    rcases hended with hg | ⟨pos, hpos, halign, hhalt⟩
    · have halen : p.alen = len := by rw [hg.alen, Nat.add_sub_cancel_left]
      have hw := hg.blocks hsome
      rw [halen]
      obtain ⟨hframe, hdata, hraised⟩ := settle_spec (n := offset + len) (i := i) hg.owned
      rw [hoff'] at hstart
      refine ⟨Progress.ext hg.ret halen ?_, ?_, hg.frame.trans hframe, fun _ => hstart, ?_, fun y hy => ?_⟩
      · rw [hg.buf, if_pos rfl]
      · refine ⟨hframe.exact (hg.frame.faulty.not.mpr hf), h.mem, ?_, hdata.dense hg.dense, ?_⟩
        · rw [hdata.type, hg.type, h.type]
        · rw [hdata.blocks, hraised, hg.size, hw]
          omega
      · rw [hraised, hg.size]
      · rw [hdata.content y hy, hg.content y hy]
        exact if_congr (by simp) rfl rfl
    · exact absurd hfree (not_le.mpr (hhalt.lt_missing hf halign (by omega) (by omega)))

/-- …and a write that starts within the file always does. -/
theorem wp_write_done {offset len : ℕ} (h : RegularFile inos loose v i) (hf : ¬ Faulty v)
    (hoff : offset ≤ (v.inode i).size) (hcap : offset + len ≤ 1036 * 4096)
    (hfree : missing v i ((offset + len + 4095) / 4096) ≤ v.unusedBlocks) :
    Act.wp (sfsIoNolock i buf offset len true)
      (fun p w => p = ⟨0, len, buf⟩ ∧ RegularFile inos loose w i ∧ Frame inos loose v i w ∧
        (w.inode i).size = max (v.inode i).size (offset + len) ∧
        ∀ y < 1036 * 4096, content w i y =
          if offset ≤ y ∧ y < offset + len then buf (y - offset) else content v i y)
      (fun _ => False) v := by
  have hblocks := h.blocks
  refine Act.wp_mono (h.wp_write_at hf hcap hfree) (fun p w hw => ?_) fun _ hlt => by omega
  obtain ⟨hp, hreg, hframe, -, hsize, hcontent⟩ := hw
  refine ⟨hp, hreg, hframe, hsize.trans ?_, hcontent⟩
  split <;> omega

end RegularFile

/-! ## Reading later -/

/-- The volumes reached by reads of the file `i` and by calls on the other files. -/
inductive Later (inos : Finset ℕ) (i : ℕ) (v : Volume) : Volume → Prop
  | start : Later inos i v v
  | read {w w' : Volume} {buf : ℕ → UInt8} {offset : ℤ} {len : ℕ} {p : Progress} : Later inos i v w →
    sfsIoNolock i buf offset len false w = .ok (p, w') → Later inos i v w'
  | other {w w' : Volume} {code : ℤ} (op : FileOp) : Later inos i v w → op.inode ∈ inos →
    op.inode ≠ i → op.run w = .ok (code, w') → Later inos i v w'

/-- **No such call changes the file.** -/
theorem Later.sameFile (h : Later inos i v w) (hr : RegularFile inos loose v i) (hf : ¬ Faulty v) :
    SameFile v i w ∧ RegularFile inos loose w i ∧ ¬ Faulty w := by
  induction h with
  | start => exact ⟨.refl, hr, hf⟩
  | read _ hstep ih =>
    obtain ⟨hsame, hreg, hsound⟩ := ih
    obtain ⟨hsame', hframe, -⟩ := Act.wp_of_ok (hreg.wp_read hsound) hstep
    exact ⟨hsame.trans hsame', hsame'.regularFile hreg (hframe.exact hsound),
      hframe.faulty.not.mpr hsound⟩
  | other op _ hop hne hstep ih =>
    obtain ⟨hsame, hreg, hsound⟩ := ih
    have halone := Act.wp_of_ok ((⟨hreg.owned, hsound⟩ : Consistent inos loose _).wp_run hop) hstep
    have hsame' : SameFile _ i _ := .ofFrame halone.frame hreg.mem hne.symm
    exact ⟨hsame.trans hsame', hsame'.regularFile hreg halone.owned, halone.sound⟩

/-- **A file is its array of bytes.**  A write within the map puts the buffer over the file and extends
it, and leaves every other file alone; a later read delivers the bytes there are. -/
theorem write_then_read {offset len : ℕ} (h : RegularFile inos loose v i) (hf : ¬ Faulty v)
    (hoff : offset ≤ (v.inode i).size) (hcap : offset + len ≤ 1036 * 4096)
    (hfree : missing v i ((offset + len + 4095) / 4096) ≤ v.unusedBlocks) :
    ∃ w, sfsIoNolock i buf offset len true v = .ok (⟨0, len, buf⟩, w) ∧
      (w.inode i).size = max (v.inode i).size (offset + len) ∧
      (∀ y < (w.inode i).size, content w i y =
        if offset ≤ y ∧ y < offset + len then buf (y - offset) else content v i y) ∧
      (∀ j ∈ inos, j ≠ i → w.inode j = v.inode j ∧ (∀ k < 1036, bmap w j k = bmap v j k) ∧
        ∀ y < 1036 * 4096, content w j y = content v j y) ∧
      ∀ w', Later inos i w w' → ∀ (buf' : ℕ → UInt8) (o l : ℕ), o < SFS_MAX_FILE_SIZE →
        o + l < 2 ^ 63 → ∃ w'', sfsIoNolock i buf' o l false w' =
          .ok (⟨0, available (w.inode i).size o l,
            delivered w i o (available (w.inode i).size o l) buf'⟩, w'') := by
  have hwrite : Act.wp (sfsIoNolock i buf offset len true) _ _ v := h.wp_write_done hf hoff hcap hfree
  obtain ⟨p, w, hrun, rfl, hreg, hframe, hsize, hcontent⟩ := Act.wp_false_iff.mp hwrite
  refine ⟨w, hrun, hsize, fun y hy => hcontent y (hy.trans_le hreg.size_le), fun j hj hji =>
    ⟨hframe.others j hji, hframe.map j hj hji, hframe.content j hj hji⟩, fun w' hlater buf' o l ho hl => ?_⟩
  obtain ⟨hsame, hreg', hsound⟩ := hlater.sameFile hreg (hframe.faulty.not.mpr hf)
  have hlast : Act.wp (sfsIoNolock i buf' o l false) _ _ w' := hreg'.wp_read hsound
  obtain ⟨p, w'', hread, -, -, hp⟩ := Act.wp_false_iff.mp hlast
  have hp' := hp (not_invalid ho hl)
  rw [endOf_read hreg'.size_le hl, hsame.size, Int.toNat_natCast] at hp'
  have hsize' := hreg.size_le
  have hbytes : delivered w' i o (available (w.inode i).size o l) buf' =
      delivered w i o (available (w.inode i).size o l) buf' := by
    funext j
    unfold delivered available
    split
    · exact hsame.content _ (by omega)
    · rfl
  refine ⟨w'', ?_⟩
  rw [hread, hp']
  exact congrArg (fun b => Except.ok (Progress.mk 0 (available (w.inode i).size o l) b, w'')) hbytes

/-- A buffer that holds `0, 1, 2, …`. -/
def counting : ℕ → UInt8 := UInt8.ofNat

/-- A buffer of zeros. -/
def blank : ℕ → UInt8 := fun _ => 0

/-- A write to the empty file of a new volume, and a read of what was written. -/
theorem write_then_read_fresh :
    ∃ w w', sfsIoNolock 1 counting 0 5 true (freshVolume 2048) = .ok (⟨0, 5, counting⟩, w) ∧
      sfsIoNolock 1 blank 3 10 false w =
        .ok (⟨0, 2, delivered w 1 3 2 blank⟩, w') ∧ content w 1 4 = counting 4 := by
  have hm : 3 ≤ 2048 ∧ 2048 ≤ 2 ^ 15 := by norm_num
  have hmiss : missing (freshVolume 2048) 1 1 = 1 := freshVolume_missing
  have hfree : missing (freshVolume 2048) 1 ((0 + 5 + 4095) / 4096) ≤ (freshVolume 2048).unusedBlocks := by
    rw [show (0 + 5 + 4095) / 4096 = 1 from rfl, hmiss]
    exact Nat.le_of_ble_eq_true rfl
  have hdone : ∃ w,
      sfsIoNolock 1 counting 0 5 true (freshVolume 2048) = .ok (⟨0, 5, counting⟩, w) ∧ _ :=
    write_then_read (freshVolume_regularFile hm.1 hm.2) freshVolume_not_faulty (Nat.zero_le _)
      (by norm_num) hfree
  obtain ⟨w, hrun, hsize, hbytes, -, hread⟩ := hdone
  have hsize' : (w.inode 1).size = 5 := hsize
  obtain ⟨w', hr⟩ := hread w .start blank 3 10 (by norm_num) (by norm_num)
  rw [hsize'] at hr
  exact ⟨w, w', hrun, hr, by rw [hbytes 4 (by omega)]; rfl⟩

/-- **A read whose end overflows is refused**, on any file. -/
theorem sfsIoNolock_invalid {write : Bool} {offset : ℤ} {len : ℕ} (htype : (v.inode i).type ≠ .dir)
    (hinv : Invalid offset len) :
    sfsIoNolock i buf offset len write v = .ok (⟨-E_INVAL, 0, buf⟩, v) := by
  have hwp : Act.wp (sfsIoNolock i buf offset len write)
      (fun p w => p = ⟨-E_INVAL, 0, buf⟩ ∧ w = v) (fun _ => False) v := by
    simp only [sfsIoNolock, Act.wp_bind, Act.wp_get, Act.wp_require]
    refine ⟨fun _ => ?_, fun hdir => absurd htype hdir⟩
    rw [Act.wp_ite]
    exact ⟨fun _ => ⟨rfl, rfl⟩, fun hno => absurd hinv hno⟩
  obtain ⟨p, w, hrun, rfl, rfl⟩ := Act.wp_false_iff.mp hwp
  exact hrun

/-- **A read of `2 ^ 64 - 1` bytes** finds none of the five there are. -/
theorem read_overflow :
    ∃ w, RegularFile {1} ∅ w 1 ∧
      sfsIoNolock 1 counting 0 5 true (freshVolume 2048) = .ok (⟨0, 5, counting⟩, w) ∧
      (w.inode 1).size = 5 ∧
      sfsIoNolock 1 blank 0 (2 ^ 64 - 1) false w = .ok (⟨-E_INVAL, 0, blank⟩, w) := by
  have hm : 3 ≤ 2048 ∧ 2048 ≤ 2 ^ 15 := by norm_num
  have hmiss : missing (freshVolume 2048) 1 1 = 1 := freshVolume_missing
  have hfile := freshVolume_regularFile hm.1 hm.2
  have hfree : missing (freshVolume 2048) 1 ((0 + 5 + 4095) / 4096) ≤ (freshVolume 2048).unusedBlocks := by
    rw [show (0 + 5 + 4095) / 4096 = 1 from rfl, hmiss]
    exact Nat.le_of_ble_eq_true rfl
  have hwp : Act.wp (sfsIoNolock 1 counting 0 5 true) _ _ (freshVolume 2048) :=
    hfile.wp_write_done freshVolume_not_faulty (Nat.zero_le _) (by norm_num) hfree
  obtain ⟨p, w, hrun, rfl, hreg, -, hsize, -⟩ := Act.wp_false_iff.mp hwp
  refine ⟨w, hreg, hrun, hsize, sfsIoNolock_invalid (by rw [hreg.type]; simp) (.inr (.inr ?_))⟩
  have hwrap : toS64 ((0 : ℤ) + ((2 ^ 64 - 1 : ℕ) : ℤ)) = -1 := by decide
  rw [hwrap]
  norm_num

end UCore.Sfs
