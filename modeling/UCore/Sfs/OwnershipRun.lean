import UCore.Sfs.SizeLimit

/-!
# Sfs/OwnershipRun — the owners of the blocks over a whole run

Reads, writes and changes of size, on any of the inodes, in any order.  A call that fails an assertion
ends the run; a file may have holes, and `blocks` and `size` need not agree.
-/

namespace UCore.Sfs

/-- A call on the file `i`. -/
inductive FileOp where
  | io (i : ℕ) (buf : ℕ → UInt8) (offset : ℤ) (len : ℕ) (write : Bool)
  | truncfile (i : ℕ) (len : ℤ)

namespace FileOp

/-- The file that is called on. -/
def inode : FileOp → ℕ
  | .io i .. => i
  | .truncfile i _ => i

/-- The call, up to the code it returns. -/
def run : FileOp → Act Volume Assertion ℤ
  | .io i buf offset len write => do return (← sfsIoNolock i buf offset len write).ret
  | .truncfile i len => codeOf (sfsTruncfile i len)

/-- The volumes that a run of calls on the inodes `inos` reaches. -/
inductive Reaches (inos : Finset ℕ) (v : Volume) : Volume → Prop
  | start : Reaches inos v v
  | step {w w' : Volume} {code : ℤ} (op : FileOp) : Reaches inos v w → op.inode ∈ inos →
    op.run w = .ok (code, w') → Reaches inos v w'

end FileOp

/-- **A consistent volume** on a device whose transfers succeed. -/
structure Consistent (inos loose : Finset ℕ) (v : Volume) : Prop where
  owned : Owned inos loose v
  sound : ¬ Faulty v

/-- …reached from `v₀` by steps that change the file `i` alone. -/
structure Alone (inos loose : Finset ℕ) (v₀ : Volume) (i : ℕ) (v : Volume) : Prop
    extends Consistent inos loose v where
  frame : Frame inos loose v₀ i v

namespace Alone

variable {inos loose : Finset ℕ} {v₀ v w : Volume} {i k n off size : ℕ} {write whole : Bool}
  {p : Progress}

/-- The assertions a call may fail: all but the one on `unused_blocks`. -/
abbrev Allowed (e : Assertion) : Prop := e ≠ .unusedBlocks

theorem trans (h : Alone inos loose v₀ i v) (hf : Frame inos loose v i w) :
    Alone inos loose v₀ i w :=
  ⟨⟨hf.exact h.sound, hf.faulty.not.mpr h.sound⟩, h.frame.trans hf⟩

theorem setInode {f : SfsInode → SfsInode} (h : Alone inos loose v₀ i v)
    (hdirect : (f (v.inode i)).direct = (v.inode i).direct)
    (hindirect : (f (v.inode i)).indirect = (v.inode i).indirect) :
    Alone inos loose v₀ i (v.setInode i f) :=
  h.trans (h.owned.frame_setInode hdirect hindirect)

theorem wp_ioBlock (h : Alone inos loose v₀ i v) (hi : i ∈ inos)
    (hwhole : whole = true → off = 0 ∧ size = 4096) (hoff : off < 4096) (hsize : off + size ≤ 4096) :
    Act.wp (ioBlock i write whole k off size p) (fun _ => Alone inos loose v₀ i) Allowed v := by
  refine Sfs.wp_ioBlock h.owned hi hwhole hoff hsize (fun _ => by simp) (fun _ _ => by simp)
    (fun _ _ _ => by simp) (fun b w w' hl hm => ?_) fun e _ w hf => ?_
  · have hself : bmap w i k = b := hl.self
    have hw := h.trans hl.frame
    unfold Moved at hm
    split at hm
    · rw [← hself] at hm
      exact hw.trans (hm.frame hl.owned hi hl.index.1 (hself.symm ▸ hl.ne_zero))
    · exact hw.trans hm.1.frame
  · rcases hf.2 with hk | hno
    · exact h.trans hk.1.frame
    · exact absurd hno.1 h.sound

theorem wp_ioBlocks (h : Alone inos loose v₀ i v) (hi : i ∈ inos) :
    Act.wp (ioBlocks i write n k p) (fun _ => Alone inos loose v₀ i) Allowed v := by
  induction n generalizing k v p with
  | zero => exact h
  | succ n ih =>
    rw [ioBlocks, Act.wp_bind]
    refine Act.wp_mono (h.wp_ioBlock hi (fun _ => ⟨rfl, rfl⟩) (by norm_num) le_rfl) (fun p w hw => ?_)
      fun _ => id
    rw [Act.wp_ite]
    exact ⟨fun _ => hw, fun _ => ih hw⟩

theorem wp_rest {endpos pos : ℕ} (h : Alone inos loose v₀ i v) (hi : i ∈ inos)
    (hend : endpos - (pos + n * 4096) ≤ 4096) :
    Act.wp (ioParts.rest i write endpos k n pos p) (fun _ => Alone inos loose v₀ i) Allowed v := by
  rw [ioParts.rest, Act.wp_bind]
  refine Act.wp_mono (h.wp_ioBlocks hi) (fun p w hw => ?_) fun _ => id
  rw [Act.wp_ite, Act.wp_ite]
  refine ⟨fun _ => hw, fun _ => ⟨fun _ => ?_, fun _ => hw⟩⟩
  exact hw.wp_ioBlock hi (fun hno => absurd hno (by simp)) (by norm_num) (by rw [Nat.zero_add]; exact hend)

theorem wp_ioParts {offset endpos : ℕ} (h : Alone inos loose v₀ i v) (hi : i ∈ inos) (hlt : offset < endpos) :
    Act.wp (ioParts i write offset endpos p) (fun _ => Alone inos loose v₀ i) Allowed v := by
  have hoff : offset % SFS_BLKSIZE = offset % 4096 := rfl
  have hn : endpos / SFS_BLKSIZE - offset / SFS_BLKSIZE = endpos / 4096 - offset / 4096 := rfl
  have hblk : SFS_BLKSIZE - offset % 4096 = 4096 - offset % 4096 := rfl
  rw [ioParts]
  dsimp only
  rw [hoff, hn, hblk, Act.wp_ite]
  refine ⟨fun hhead => ?_, fun hhead => h.wp_rest hi (by omega)⟩
  rw [Act.wp_bind]
  refine Act.wp_mono (h.wp_ioBlock hi (fun hno => absurd hno (by simp)) (by omega) ?_)
    (fun p w hw => ?_) fun _ => id
  · split <;> omega
  · rw [Act.wp_ite]
    refine ⟨fun _ => hw, fun _ => ?_⟩
    exact hw.wp_rest hi (by split <;> omega)

/-- **`sfs_io_nolock`** keeps every owner. -/
theorem wp_sfsIoNolock {buf : ℕ → UInt8} {offset : ℤ} {len : ℕ} (h : Alone inos loose v₀ i v)
    (hi : i ∈ inos) :
    Act.wp (sfsIoNolock i buf offset len write) (fun _ => Alone inos loose v₀ i) Allowed v := by
  refine wp_io_of_parts (fun _ => by simp) (fun _ => h) (fun _ _ => h) fun hinv hsome => ?_
  refine Act.wp_mono (h.wp_ioParts hi (Nothing.lt_endOf hinv hsome)) (fun p w hw => ?_) fun _ => id
  unfold settle
  split
  · exact hw.setInode rfl rfl
  · exact hw

theorem wpe_enlarge (h : Alone inos loose v₀ i v) (hi : i ∈ inos) :
    Act.wpe (enlarge i n k) (fun _ => Alone inos loose v₀ i) (fun _ => Alone inos loose v₀ i) Allowed v := by
  induction n generalizing k v with
  | zero => exact h
  | succ n ih =>
    rw [enlarge, Act.wpe_bind]
    exact wpe_sfsBmapLoadNolock h.owned hi (fun _ => by simp) (fun _ _ => by simp)
      (fun _ _ _ => by simp) (fun b w hl => ih (h.trans hl.frame)) fun e _ w _ hk _ => h.trans hk.frame

theorem wpe_reduce (h : Alone inos loose v₀ i v) (hi : i ∈ inos) :
    Act.wpe (reduce i n) (fun _ => Alone inos loose v₀ i) (fun _ => Alone inos loose v₀ i) Allowed v := by
  induction n generalizing v with
  | zero => exact h
  | succ n ih =>
    rw [reduce, Act.wpe_bind]
    refine wpe_sfsBmapTruncateNolock h.owned hi (fun _ => by simp) (fun w hd _ => ih (h.trans hd.frame))
      fun e _ w hf _ => absurd hf h.sound

/-- **`sfs_truncfile`** keeps every owner. -/
theorem wpe_sfsTruncfile {len : ℤ} (h : Alone inos loose v₀ i v) (hi : i ∈ inos) :
    Act.wpe (sfsTruncfile i len) (fun _ => Alone inos loose v₀ i) (fun _ => Alone inos loose v₀ i) Allowed v := by
  rw [sfsTruncfile, Act.wpe_ite]
  refine ⟨fun _ => h, fun _ => ?_⟩
  simp only [Act.wpe_bind, Act.wpe_get]
  rw [Act.wpe_ite]
  refine ⟨fun _ => ?_, fun _ => ?_⟩
  · rw [Act.wpe_demand]
    exact ⟨fun _ => h, fun _ => by simp⟩
  have hend : ∀ w, Alone inos loose v₀ i w → Act.wpe (do
      Act.demand .truncBlocks (((← get).inode i).blocks = roundUpDiv len.toNat SFS_BLKSIZE)
      Sfs.setInode i fun din => { din with size := len.toNat, dirty := true } : Call Unit)
      (fun _ => Alone inos loose v₀ i) (fun _ => Alone inos loose v₀ i) Allowed w := fun w hw => by
    simp only [Act.wpe_bind, Act.wpe_get, Act.wpe_demand, Sfs.setInode, Act.wpe_modify]
    exact ⟨fun _ => hw.setInode rfl rfl, fun _ => by simp⟩
  rw [Act.wpe_ite]
  refine ⟨fun _ => ?_, fun _ => ?_⟩
  · rw [Act.wpe_bind]
    exact Act.wpe_mono (h.wpe_enlarge hi) (fun _ w hw => hend w hw) (fun _ _ => id) fun _ => id
  · rw [Act.wpe_bind]
    exact Act.wpe_mono (h.wpe_reduce hi) (fun _ w hw => hend w hw) (fun _ _ => id) fun _ => id

end Alone

/-- **Every call** keeps every owner, and changes no other file. -/
theorem Consistent.wp_run {inos loose : Finset ℕ} {v : Volume} {op : FileOp}
    (h : Consistent inos loose v) (hi : op.inode ∈ inos) :
    Act.wp op.run (fun _ => Alone inos loose v op.inode) (fun e => e ≠ .unusedBlocks) v := by
  have hstart : ∀ i, Alone inos loose v i v := fun i => ⟨h, .refl h.owned⟩
  cases op with
  | io i buf offset len write =>
    rw [FileOp.run, Act.wp_bind]
    exact (hstart i).wp_sfsIoNolock hi
  | truncfile i len =>
    rw [FileOp.run, wp_codeOf]
    exact (hstart i).wpe_sfsTruncfile hi

/-- **Ownership over whole runs**: in every volume reached, every referenced block is a block in use of
its own, no block in use is lost, `unused_blocks` counts the free ones, and so no call fails the
assertion on it. -/
theorem ownership_run {inos : Finset ℕ} {v w : Volume} (h : Consistent inos ∅ v)
    (hrun : FileOp.Reaches inos v w) :
    Owned inos ∅ w ∧ ∀ op : FileOp, op.inode ∈ inos → op.run w ≠ .error .unusedBlocks := by
  have hw : Consistent inos ∅ w := by
    induction hrun with
    | start => exact h
    | step op _ hi hstep ih =>
      have hnext := Act.wp_of_ok (ih.wp_run hi) hstep
      exact hnext.toConsistent
  refine ⟨hw.owned, fun op hi hstop => ?_⟩
  have hallowed := Act.wp_of_error (hw.wp_run hi) hstop
  exact hallowed rfl

/-- A new volume, after its file is given its first byte. -/
theorem ownership_run_fresh : ∃ code w, (FileOp.truncfile 1 1).run (freshVolume 2048) = .ok (code, w) ∧
    Owned {1} ∅ w ∧ ∀ op : FileOp, op.inode ∈ ({1} : Finset ℕ) → op.run w ≠ .error .unusedBlocks := by
  have hm : 3 ≤ 2048 ∧ 2048 ≤ 2 ^ 15 := by norm_num
  have hfile := freshVolume_regularFile hm.1 hm.2
  obtain ⟨code, w, hstep, -⟩ := hfile.returns (r := .truncfile 1) (truncfile_accepted (by norm_num))
    (.inl (by norm_num [Request.last]))
  have hreach : FileOp.Reaches {1} (freshVolume 2048) w :=
    .step (.truncfile 1 1) .start (Finset.mem_singleton_self 1) hstep
  exact ⟨code, w, hstep, ownership_run ⟨hfile.owned, freshVolume_not_faulty⟩ hreach⟩

end UCore.Sfs
