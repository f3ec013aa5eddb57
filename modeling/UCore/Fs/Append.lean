import UCore.Fs.LookupPath
import UCore.Fs.Reload
import UCore.Sfs.ReadWrite

/-!
# Fs/Append — writes at the end of a file

    file_open   O_APPEND:  pos := size
    file_write             size ◂── max size (pos + len)      pos += len
    file_seek              pos := target, and size := target where it is larger

A descriptor has its position from the moment it was opened, and `file_write` looks at it alone.  What
it puts down is an append where the position is the size, and only there.
-/

namespace UCore.Fs

open Sfs Act

variable {inos loose : Finset ℕ} {v w : Volume} {s : FileSys} {i j t fd len n : ℕ}
  {b : List UInt8} {buf : ℕ → UInt8}

/-! ## The bytes of a file -/

/-- The bytes of the file `i`. -/
def bytes (v : Volume) (i : ℕ) : List UInt8 := (List.range (v.inode i).size).map (content v i)

/-- The first bytes of a buffer. -/
def chunk (buf : ℕ → UInt8) (len : ℕ) : List UInt8 := (List.range len).map buf

theorem bytes_congr (hsize : (w.inode i).size = (v.inode i).size) (hmax : (v.inode i).size ≤ 1036 * 4096)
    (h : ∀ y < 1036 * 4096, content w i y = content v i y) : bytes w i = bytes v i := by
  rw [bytes, hsize]
  refine List.map_congr_left fun y hy => h y ?_
  have := List.mem_range.mp hy
  omega

theorem bytes_ticked (h : Ticked v w) : bytes w i = bytes v i := by
  obtain ⟨n, rfl⟩ := h
  rfl

/-- **Bytes put down at the end of a file.** -/
theorem bytes_append (hsize : (w.inode i).size = (v.inode i).size + len)
    (hmax : (v.inode i).size + len ≤ 1036 * 4096)
    (h : ∀ y < 1036 * 4096, content w i y = if (v.inode i).size ≤ y ∧ y < (v.inode i).size + len
      then buf (y - (v.inode i).size) else content v i y) :
    bytes w i = bytes v i ++ chunk buf len := by
  rw [bytes, hsize, List.range_add, List.map_append, List.map_map]
  refine congr_arg₂ _ (List.map_congr_left fun y hy => ?_) (List.map_congr_left fun y hy => ?_)
  · have := List.mem_range.mp hy
    rw [h y (by omega), if_neg (by omega)]
  · have := List.mem_range.mp hy
    rw [Function.comp_apply, h _ (by omega), if_pos (by omega), Nat.add_sub_cancel_left]

/-- There is room for the file to be `n` bytes long: the map reaches so far, and the volume has the
blocks. -/
def Room (v : Volume) (i n : ℕ) : Prop :=
  n ≤ 1036 * 4096 ∧ missing v i ((n + 4095) / 4096) ≤ v.unusedBlocks

/-! ## The file, and the tree it is in -/

/-- **A regular file of a directory tree**, of bytes `b`, on a device that does not fail; an open
descriptor of the file keeps it in memory. -/
structure Holding (inos loose : Finset ℕ) (i : ℕ) (b : List UInt8) (s : FileSys) : Prop where
  tree : Tree inos loose s
  regular : RegularFile inos loose s.vol i
  sound : ¬ Faulty s.vol
  held : ∀ t fd, (s.fdArray t fd).status = .opened → (s.fdArray t fd).node = some i →
    0 < (s.node i).refCount
  contents : bytes s.vol i = b

/-- A descriptor, if it is open, is one of the file `i`. -/
def OnFile (s : FileSys) (i t : ℕ) (fd : ℤ) : Prop :=
  (s.fdArray t fd.toNat).status = .opened → (s.fdArray t fd.toNat).node = some i

/-- The names in the other directories. -/
theorem names_aside {slot ino : ℕ} {name : List UInt8} (h : Aside inos i v w) (hj : j ∈ inos)
    (hji : j ≠ i) (hslot : slot < 1036) : Names w j name slot ino ↔ Names v j name slot ino := by
  have hmap := h.map j hj hji slot hslot
  by_cases h0 : bmap v j slot = 0
  · exact ⟨fun hn => absurd (hmap.trans h0) hn.block, fun hn => absurd h0 hn.block⟩
  · exact names_congr hmap (h.data j hj hji slot hslot h0)

/-- **A call on the file**: the rest of the tree is as it was. -/
structure Rewrote (inos loose : Finset ℕ) (v : Volume) (i : ℕ) (w : Volume) : Prop where
  file : RegularFile inos loose w i
  frame : Frame inos loose v i w
  aside : Aside inos i v w
  housed : Housed inos v w
  bounded : Bounded v i w

theorem Rewrote.refl (h : RegularFile inos loose v i) : Rewrote inos loose v i v :=
  ⟨h, .refl h.owned, .refl h.owned, .refl h.owned, rfl, le_max_left .., le_max_left ..⟩

/-- A file that is in memory may change. -/
theorem Holding.rewrote (h : Holding inos loose i b s) (hr : Rewrote inos loose s.vol i w)
    (href : 0 < (s.node i).refCount) :
    Holding inos loose i (bytes w i) { s with vol := w } := by
  have hcached : ∀ j, (s.node j).cached = false → j ≠ i := fun j hj hji => by
    subst hji
    exact absurd (h.tree.idle j hj) href.ne'
  have hdir : ∀ d, (w.inode d).type = .dir → d ≠ i := fun d hd hdi => by
    subst hdi
    rw [hr.file.type] at hd
    exact nomatch hd
  have hother : ∀ j, j ≠ i → w.inode j = s.vol.inode j := hr.frame.others
  refine ⟨⟨⟨hr.file.owned, fun j hj => ?_, fun d hd htype slot hslot name ino hn => ?_,
    fun j hj hc => ?_, h.tree.nodes⟩, fun j hj => ?_, fun d hd htype k hk => ?_,
    fun d hd htype slot hslot name ino hn => ?_, h.tree.idle, h.tree.opens⟩, hr.file,
    hr.frame.faulty.not.mpr h.sound, h.held, rfl⟩
  · rcases eq_or_ne j i with rfl | hji
    · exact Tended.dinOk hr.file.owned hj (h.tree.dins j hj) hr.bounded
    · exact hother j hji ▸ h.tree.dins j hj
  · have hdi := hdir d htype
    rw [hother d hdi] at htype
    exact h.tree.entries d hd htype slot hslot name ino ((names_aside hr.aside hd hdi hslot).mp hn)
  · have hji := hcached j hc
    have hun := h.tree.uncached j hj hc
    dsimp only
    rw [OnDisk, hother j hji, hr.housed.dins j hj]
    exact hun
  · rcases eq_or_ne j i with rfl | hji
    · exact .inl hr.file.type
    · exact hother j hji ▸ h.tree.types j hj
  · have hdi := hdir d htype
    dsimp only at htype hk ⊢
    rw [hother d hdi] at htype hk
    obtain ⟨hlt, h0⟩ := h.tree.mapped d hd htype k hk
    rw [hr.aside.map d hd hdi k hlt]
    exact ⟨hlt, h0⟩
  · have hdi := hdir d htype
    rw [hother d hdi] at htype
    exact h.tree.names d hd htype slot hslot name ino ((names_aside hr.aside hd hdi hslot).mp hn)

/-! ## Writing and resizing -/

/-- **A write** through a descriptor at `offset`: it is an append where that is the size. -/
theorem wp_write_rewrote {offset : ℤ} (h : RegularFile inos loose v i) (hf : ¬ Faulty v)
    (hroom : 0 ≤ offset → Room v i (offset.toNat + len)) :
    wp (sfsIoNolock i buf offset len true) (fun p w => Rewrote inos loose v i w ∧
      (len = 0 ∨ offset = (v.inode i).size → p.alen = len ∧ bytes w i = bytes v i ++ chunk buf len))
      (fun _ => True) v := by
  have hsize := h.size_le
  by_cases h0 : 0 ≤ offset
  · obtain ⟨hcap, hfree⟩ := hroom h0
    have hoff : (offset.toNat : ℤ) = offset := Int.toNat_of_nonneg h0
    have hwrite : wp (sfsIoNolock i buf offset.toNat len true) _ _ v := h.wp_write_at hf hcap hfree
    rw [hoff] at hwrite
    refine wp_mono (wp_and hwrite (wp_and ((stable_aside h.mem).wp_io h.mem (.refl h.owned))
      (wp_and (wp_io_housed h.mem (.refl h.owned)) wp_io_told))) ?_ fun _ _ => trivial
    rintro p w ⟨⟨rfl, hreg, hframe, -, hgrown, hcontent⟩, haside, hhoused, hbounded, -⟩
    refine ⟨⟨hreg, hframe, haside, hhoused, hbounded⟩, fun hend => ⟨rfl, ?_⟩⟩
    rcases eq_or_ne len 0 with rfl | hne
    · rw [bytes_congr (by simpa using hgrown) hsize fun y hy => by rw [hcontent y hy, if_neg (by omega)]]
      exact (List.append_nil _).symm
    · obtain rfl := hend.resolve_left hne
      rw [Int.toNat_natCast] at hcap hcontent hgrown
      rw [if_neg hne] at hgrown
      exact bytes_append (by omega) hcap hcontent
  · -- a position below zero is refused
    refine wp_io_of_parts (fun _ => trivial) (fun _ => ⟨.refl h, fun hend => ?_⟩)
      (fun hinv _ => absurd (.inl (not_le.mp h0)) hinv) fun hinv _ => absurd (.inl (not_le.mp h0)) hinv
    obtain rfl : len = 0 := hend.resolve_right fun heq => h0 (heq ▸ Int.natCast_nonneg _)
    exact ⟨rfl, (List.append_nil _).symm⟩

/-- A file whose blocks are those of the size that is stored. -/
theorem regularFile_setSize (h : Owned inos loose w) (hi : i ∈ inos) (htype : (w.inode i).type = .file)
    (hd : Dense w i) (hb : (w.inode i).blocks = (n + 4095) / 4096) :
    RegularFile inos loose (w.setSize i n) i := by
  refine ⟨h.setInode rfl rfl, hi, by rw [setInode_self]; exact htype, ⟨?_, fun k hk => ?_⟩, ?_⟩
  · rw [setInode_self]
    exact hd.le
  · rw [setInode_self] at hk
    have hmap : bmap (w.setSize i n) i k = bmap w i k := refs_setInode (r := .block i k) rfl rfl
    rw [hmap]
    exact hd.ne_zero k hk
  · rw [setInode_self]
    exact hb

/-- **A change of the size**, for which there is room; what is refused changes nothing. -/
theorem wpe_truncfile_rewrote {len : ℤ} (h : RegularFile inos loose v i) (hf : ¬ Faulty v)
    (hroom : ((v.inode i).size : ℤ) < len → Room v i len.toNat) :
    wpe (sfsTruncfile i len) (fun _ w => Rewrote inos loose v i w ∧ (w.inode i).size = len.toNat)
      (fun _ w => len ≠ 0 ∧ w = v) (fun _ => True) v := by
  have hblocks := h.blocks
  have hsized : wpe (sfsTruncfile i len) (fun _ w => RegularFile inos loose w i ∧ Frame inos loose v i w ∧
      (w.inode i).size = len.toNat) (fun _ w => len ≠ 0 ∧ w = v) (fun _ => True) v := by
    refine wpe_sfsTruncfile h.owned h.dense h.mem (fun hbad => ⟨?_, rfl⟩) (fun _ heq _ => ?_)
      (fun _ => trivial) (fun _ _ => trivial) (fun _ _ _ _ w hg => ?_)
      (fun _ e _ m w hm hlt hs => ?_) (fun _ _ _ w hc => ?_)
      (fun _ e _ m w _ _ hj => absurd hj.1 hf)
    · rintro rfl
      rcases hbad with hlt | hgt
      · exact absurd hlt (lt_irrefl 0)
      · exact absurd hgt (by norm_num)
    · exact ⟨h, .refl h.owned, heq⟩
    · refine ⟨regularFile_setSize hg.owned h.mem (hg.type.trans h.type) hg.dense hg.blocks,
        hg.frame.trans (hg.owned.frame_setInode rfl rfl), ?_⟩
      rw [setInode_self]
    · have hgrow : ((v.inode i).size : ℤ) < len := by omega
      obtain ⟨hcap, hfree⟩ := hroom hgrow
      exact absurd hfree (not_le.mpr (hs.lt_missing hf (by omega) hlt))
    · refine ⟨regularFile_setSize hc.owned h.mem (hc.type.trans h.type) hc.dense hc.blocks,
        hc.frame.trans (hc.owned.frame_setInode rfl rfl), ?_⟩
      rw [setInode_self]
  have haside : wpe (sfsTruncfile i len) _ _ _ v :=
    (stable_aside h.mem).keeps_sfsTruncfile h.mem v (.refl h.owned)
  have hhoused : wpe (sfsTruncfile i len) _ _ _ v := keeps_sfsTruncfile h.mem v (.refl h.owned)
  refine wpe_mono (wpe_and hsized (wpe_and haside (wpe_and hhoused wpe_truncfile_told))) ?_
    (fun _ _ hw => hw.1) fun _ _ => trivial
  rintro _ w ⟨⟨hreg, hframe, hsize⟩, haside, hhoused, hbounded, -⟩
  exact ⟨⟨hreg, hframe, haside, hhoused, hbounded⟩, hsize⟩

/-! ## Descriptors -/

section Descriptors

variable {R : ℤ → FileSys → Prop} {E : Assertion → Prop}

/-- **A store to a descriptor**, which names an inode of the volume and holds the file if it is open. -/
theorem Holding.wpe_setFile {f : File → File} (h : Holding inos loose i b s)
    (hnode : ∀ j, (f (s.fdArray t fd)).node = some j → j ∈ inos)
    (hheld : (f (s.fdArray t fd)).status = .opened → (f (s.fdArray t fd)).node = some i →
      0 < (s.node i).refCount) :
    wpe (setFile t fd f) (fun _ s' => Holding inos loose i b s' ∧ s'.vol = s.vol ∧ s'.node = s.node ∧
      s'.fdArray t fd = f (s.fdArray t fd)) R E s := by
  rw [setFile, wpe_modify]
  refine ⟨⟨⟨⟨h.tree.owned, h.tree.dins, h.tree.entries, h.tree.uncached, fun t' fd' j hj => ?_⟩,
    h.tree.types, h.tree.mapped, h.tree.names, h.tree.idle, h.tree.opens⟩, h.regular, h.sound,
    fun t' fd' hst hj => ?_, h.contents⟩, rfl, rfl, ?_⟩
  · dsimp only at hj
    rcases eq_or_ne t' t with rfl | htt
    · rw [Function.update_self] at hj
      rcases eq_or_ne fd' fd with rfl | hff
      · rw [Function.update_self] at hj
        exact hnode j hj
      · rw [Function.update_of_ne hff] at hj
        exact h.tree.nodes _ _ j hj
    · rw [Function.update_of_ne htt] at hj
      exact h.tree.nodes _ _ j hj
  · dsimp only at hst hj
    rcases eq_or_ne t' t with rfl | htt
    · rw [Function.update_self] at hst hj
      rcases eq_or_ne fd' fd with rfl | hff
      · rw [Function.update_self] at hst hj
        exact hheld hst hj
      · rw [Function.update_of_ne hff] at hst hj
        exact h.held _ _ hst hj
    · rw [Function.update_of_ne htt] at hst hj
      exact h.held _ _ hst hj
  · dsimp only
    rw [Function.update_self, Function.update_self]

/-- A store that leaves the inode of a descriptor and its status alone. -/
theorem Holding.wpe_stamp {f : File → File} (h : Holding inos loose i b s)
    (hnode : (f (s.fdArray t fd)).node = (s.fdArray t fd).node)
    (hstatus : (f (s.fdArray t fd)).status = (s.fdArray t fd).status) :
    wpe (setFile t fd f) (fun _ s' => Holding inos loose i b s' ∧ s'.vol = s.vol ∧ s'.node = s.node ∧
      s'.fdArray t fd = f (s.fdArray t fd)) R E s :=
  h.wpe_setFile (fun j hj => h.tree.nodes t fd j (hnode ▸ hj))
    fun hst hj => h.held t fd (hstatus ▸ hst) (hnode ▸ hj)

/-- A descriptor that is acquired is open. -/
theorem Holding.wpe_acquire (h : Holding inos loose i b s) :
    wpe (fdArrayAcquire t fd) (fun _ s' => (Holding inos loose i b s' ∧ s'.vol = s.vol ∧
      s'.node = s.node ∧ SameFile (s.fdArray t fd) (s'.fdArray t fd)) ∧
      (s.fdArray t fd).status = .opened) R (fun _ => True) s := by
  simp only [fdArrayAcquire, file, wpe_bind, wpe_get, wpe_pure, wpe_demand]
  refine ⟨fun hopened => ?_, fun _ => trivial⟩
  exact wpe_mono (h.wpe_stamp rfl rfl) (fun _ _ hw => ⟨⟨hw.1, hw.2.1, hw.2.2.1, _, hw.2.2.2⟩, hopened⟩)
    (fun _ _ => id) fun _ => id

/-- A descriptor that is released, and stays open. -/
theorem Holding.wpe_release (h : Holding inos loose i b s) (hopened : (s.fdArray t fd).status = .opened) :
    wpe (fdArrayRelease t fd) (fun _ s' => Holding inos loose i b s' ∧ s'.vol = s.vol) R
      (fun _ => True) s := by
  simp only [fdArrayRelease, file, wpe_bind, wpe_get, wpe_pure, wpe_demand]
  refine ⟨fun _ => ?_, fun _ => trivial⟩
  refine wpe_mono (h.wpe_stamp rfl rfl) (fun _ s' hw => ?_) (fun _ _ => id) fun _ => id
  rw [wpe_ite]
  refine ⟨fun _ => ?_, fun _ => ⟨hw.1, hw.2.1⟩⟩
  -- an open descriptor is not freed
  simp only [fdArrayFree, file, wpe_bind, wpe_get, wpe_pure, wpe_demand]
  refine ⟨fun hfree => ?_, fun _ => trivial⟩
  rw [hw.2.2.2, hopened] at hfree
  exact absurd hfree.1 (by simp)

/-- **A descriptor that is given** is an open one of the file, or the call reports. -/
theorem Holding.wpe_fd2file {fd : ℤ} {Q : ℕ × ℕ → FileSys → Prop} (hon : OnFile s i t fd)
    (hQ : (s.fdArray t fd.toNat).status = .opened → (s.fdArray t fd.toNat).node = some i →
      Q (fd.toNat, i) s) (hR : R (-E_INVAL) s) :
    wpe (fd2file t fd) Q R (fun _ => True) s := by
  rw [fd2file, wpe_ite]
  refine ⟨fun _ => ?_, fun _ => hR⟩
  simp only [getFdArray, file, wpe_bind, wpe_get, wpe_demand, wpe_pure]
  refine ⟨fun _ => ?_, fun _ => trivial⟩
  rw [wpe_ite]
  refine ⟨fun hopened => ?_, fun _ => hR⟩
  rw [hon hopened]
  exact hQ hopened (hon hopened)

end Descriptors

/-! ## Writing -/

/-- The descriptor is at the end of the file, or there is nothing to write. -/
def AtEnd (s : FileSys) (i t : ℕ) (fd : ℤ) (len : ℕ) : Prop :=
  len = 0 ∨ (s.fdArray t fd.toNat).pos = (s.vol.inode i).size

/-- There is room for what a write puts down. -/
def WriteRoom (s : FileSys) (i t : ℕ) (fd : ℤ) (len : ℕ) : Prop :=
  0 ≤ (s.fdArray t fd.toNat).pos → Room s.vol i ((s.fdArray t fd.toNat).pos.toNat + len)

/-- **`file_write`**, through a descriptor of the file. -/
theorem Holding.wpe_fileWrite {fd : ℤ} (h : Holding inos loose i b s) (hon : OnFile s i t fd)
    (hroom : WriteRoom s i t fd len) :
    wpe (fileWrite t fd buf len) (fun p s' => Holding inos loose i (bytes s'.vol i) s' ∧
      (AtEnd s i t fd len → p.alen = len ∧ bytes s'.vol i = b ++ chunk buf len))
      (fun _ => Holding inos loose i b) (fun _ => True) s := by
  rw [fileWrite, fileIo, wpe_bind]
  refine Holding.wpe_fd2file hon (fun hopened hnode => ?_) h
  have href := h.held t _ hopened hnode
  simp only [file, wpe_bind, wpe_get, wpe_pure]
  rw [wpe_ite]
  refine ⟨fun _ => ?_, fun _ => h⟩
  rw [wpe_bind]
  refine wpe_mono h.wpe_acquire ?_ (fun _ _ => id) fun _ => id
  rintro _ s₁ ⟨⟨h₁, hvol, hnodes, k, hfile⟩, -⟩
  rw [wpe_bind, vopIo, wpe_bind]
  refine wpe_vopOp ?_
  simp only [onVol, wpe_bind, wpe_zoome, wpe_lift, wpe_demand, wpe_pure]
  have hroom' : 0 ≤ (s.fdArray t fd.toNat).pos → Room s₁.vol i _ := fun h0 => hvol ▸ hroom h0
  refine wp_mono (wp_write_rewrote h₁.regular h₁.sound hroom') ?_ fun _ => id
  rintro p w ⟨hr, hend⟩
  refine ⟨fun _ => ?_, fun _ => trivial⟩
  have h₂ := h₁.rewrote hr (by rw [hnodes]; exact href)
  have hopened₂ : (s₁.fdArray t fd.toNat).status = .opened := by rw [hfile]; exact hopened
  rw [wpe_get, if_pos hopened₂]
  simp only [wpe_bind, wpe_pure]
  refine wpe_mono (h₂.wpe_stamp rfl rfl) ?_ (fun _ _ => id) fun _ => id
  rintro _ s₃ ⟨h₃, hvol₃, -, hfile₃⟩
  refine wpe_mono (h₃.wpe_release (by rw [hfile₃]; exact hopened₂)) ?_ (fun _ _ => id) fun _ => id
  rintro _ s₄ ⟨h₄, hvol₄⟩
  rw [hvol₄, hvol₃]
  refine ⟨h₄, fun hat => ?_⟩
  obtain ⟨halen, hbytes⟩ := hend (by rw [hvol]; exact hat)
  exact ⟨halen, hbytes.trans (by rw [h₁.contents])⟩

/-! ## Seeking -/

instance {din : SfsInode} {pos : ℤ} : Decidable (PastEnd din pos) :=
  inferInstanceAs (Decidable (_ ∧ _ ∧ _))

/-- Does a seek make the file longer? -/
def lengthens (s : FileSys) (i t : ℕ) (fd pos : ℤ) (whence : ℕ) : Bool :=
  match seekPos (s.fdArray t fd.toNat) (s.vol.inode i).size pos whence with
  | some target => PastEnd (s.vol.inode i) target
  | none => false

/-- There is room for what a seek makes of the file. -/
def SeekRoom (s : FileSys) (i t : ℕ) (fd pos : ℤ) (whence : ℕ) : Prop :=
  ∀ target, seekPos (s.fdArray t fd.toNat) (s.vol.inode i).size pos whence = some target →
    ((s.vol.inode i).size : ℤ) < target → Room s.vol i target.toNat

/-- **`vop_tryseek`**. -/
theorem Holding.wpe_vopTryseek {pos : ℤ} (h : Holding inos loose i b s) (href : 0 < (s.node i).refCount)
    (hroom : ((s.vol.inode i).size : ℤ) < pos → Room s.vol i pos.toNat) :
    wpe (vopTryseek i pos) (fun _ s' => Holding inos loose i (bytes s'.vol i) s' ∧
      (¬ PastEnd (s.vol.inode i) pos → bytes s'.vol i = b) ∧ s'.fdArray = s.fdArray)
      (fun _ s' => Holding inos loose i b s' ∧ s'.fdArray = s.fdArray) (fun _ => True) s := by
  have hsame : Holding inos loose i (bytes s.vol i) s := by
    rw [h.contents]
    exact h
  rw [vopTryseek, vopFile, wpe_bind]
  refine wpe_vopOp ?_
  rw [wpe_ite]
  refine ⟨fun _ => ⟨h, rfl⟩, fun hrange => ?_⟩
  simp only [wpe_bind, wpe_get]
  rw [wpe_ite]
  refine ⟨fun hlt => ?_, fun _ => ⟨hsame, fun _ => h.contents, rfl⟩⟩
  rw [vopTruncate, vopFile, wpe_bind]
  refine wpe_vopOp ?_
  rw [onVol, wpe_zoome]
  refine wpe_mono (wpe_truncfile_rewrote h.regular h.sound hroom) ?_ ?_ fun _ => id
  · rintro _ w ⟨hr, -⟩
    refine ⟨h.rewrote hr href, fun hno => absurd ⟨?_, ?_, hlt⟩ hno, rfl⟩
    · exact not_lt.mp fun hneg => hrange (.inl hneg)
    · exact not_le.mp fun hge => hrange (.inr hge)
  · rintro e _ ⟨-, rfl⟩
    exact ⟨h, rfl⟩

/-- **`file_seek`**, on a descriptor of the file. -/
theorem Holding.wpe_fileSeek {fd pos : ℤ} {whence : ℕ} (h : Holding inos loose i b s)
    (hon : OnFile s i t fd) (hroom : SeekRoom s i t fd pos whence) :
    wpe (fileSeek t fd pos whence) (fun _ s' => Holding inos loose i (bytes s'.vol i) s' ∧
      (¬ lengthens s i t fd pos whence = true → bytes s'.vol i = b))
      (fun _ => Holding inos loose i b) (fun _ => True) s := by
  rw [fileSeek, wpe_bind]
  refine Holding.wpe_fd2file hon (fun hopened hnode => ?_) h
  dsimp only
  rw [wpe_bind]
  refine wpe_mono h.wpe_acquire ?_ (fun _ _ => id) fun _ => id
  rintro _ s₁ ⟨⟨h₁, hvol, hnodes, k, hfile⟩, -⟩
  have href : 0 < (s₁.node i).refCount := by
    rw [hnodes]
    exact h.held t _ hopened hnode
  have hopened₁ : (s₁.fdArray t fd.toNat).status = .opened := by rw [hfile]; exact hopened
  -- the position that is asked for does not depend on the count of users
  have hseek : seekPos (s₁.fdArray t fd.toNat) (s₁.vol.inode i).size pos whence =
      seekPos (s.fdArray t fd.toNat) (s.vol.inode i).size pos whence := by
    rw [hfile, hvol]
    rfl
  have hmove : wpe (do
      match seekPos (← Fs.file t fd.toNat) ((← get).vol.inode i).size pos whence with
      | some pos => do
        vopTryseek i pos
        setFile t fd.toNat fun f => { f with pos := pos }
      | none => throw (-E_INVAL) : Call Unit)
      (fun _ s' => wpe (fdArrayRelease t fd.toNat) (fun _ s' => Holding inos loose i (bytes s'.vol i) s' ∧
        (¬ lengthens s i t fd pos whence = true → bytes s'.vol i = b)) (fun _ => Holding inos loose i b)
        (fun _ => True) s')
      (fun e s' => wpe (fdArrayRelease t fd.toNat) (fun _ => Holding inos loose i b)
        (fun _ => Holding inos loose i b) (fun _ => True) s') (fun _ => True) s₁ := by
    simp only [Fs.file, wpe_bind, wpe_get, wpe_pure]
    rw [hseek]
    cases htarget : seekPos (s.fdArray t fd.toNat) (s.vol.inode i).size pos whence with
    | none =>
      dsimp only
      rw [wpe_throw]
      exact wpe_mono (h₁.wpe_release hopened₁) (fun _ _ hw => hw.1) (fun _ _ => id) fun _ => id
    | some target =>
      dsimp only
      rw [wpe_bind]
      refine wpe_mono (h₁.wpe_vopTryseek href ?_) ?_ ?_ fun _ => id
      · rw [hvol]
        exact hroom target htarget
      · rintro _ s₂ ⟨h₂, hbytes, htable⟩
        have hopened₂ : (s₂.fdArray t fd.toNat).status = .opened := by rw [htable]; exact hopened₁
        refine wpe_mono (h₂.wpe_stamp rfl rfl) ?_ (fun _ _ => id) fun _ => id
        rintro _ s₃ ⟨h₃, hvol₃, -, hfile₃⟩
        refine wpe_mono (h₃.wpe_release (by rw [hfile₃]; exact hopened₂)) ?_ (fun _ _ => id) fun _ => id
        rintro _ s₄ ⟨h₄, hvol₄⟩
        rw [hvol₄, hvol₃]
        refine ⟨h₄, fun hno => hbytes fun hpast => hno ?_⟩
        rw [hvol] at hpast
        rw [lengthens, htarget]
        exact decide_eq_true hpast
      · rintro e s₂ ⟨h₂, htable⟩
        exact wpe_mono (h₂.wpe_release (by rw [htable]; exact hopened₁)) (fun _ _ hw => hw.1)
          (fun _ _ => id) fun _ => id
  rw [wpe_andThen, wpe_ite]
  refine ⟨fun _ => ?_, fun _ => hmove⟩
  rw [wpe_bind]
  exact wpe_vopOp hmove

end UCore.Fs
