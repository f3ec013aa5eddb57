import UCore.Fs.ReadRun
import UCore.Sfs.Flag
import UCore.Sfs.Housed

/-!
# Fs/Reload — an inode that is written back, reclaimed and loaded again

    io, truncfile ──▸ dirty = 1 ──fsync──▸ dirty = 0 ──reclaim──▸ ✗ ──load──▸ the same inode

An inode without changes is what its block holds, as long as every call tells of what it changed.
`Tended` is what a run on one inode keeps; `Parked` is what dropping and loading it keeps.
-/

namespace UCore.Fs

open Sfs Act

variable {inos : Finset ℕ} {v v₀ w : Volume} {s s₀ s' : FileSys} {i : ℕ}

/-! ## One inode -/

/-- **An inode of a consistent volume** that is fit to be written back, and whose block is up to date
unless it is flagged. -/
structure Tended (inos : Finset ℕ) (i : ℕ) (v : Volume) : Prop where
  owned : ∃ loose, Owned inos loose v
  mem : i ∈ inos
  din : DinOk (v.inode i)
  synced : (v.inode i).dirty = false → OnDisk v i

namespace Tended

/-- The map of an inode on a consistent volume fits its type. -/
theorem dinOk {loose : Finset ℕ} (hown : Owned inos loose w) (hi : i ∈ inos) (h : DinOk (v.inode i))
    (hb : Bounded v i w) : DinOk (w.inode i) := by
  have hmax : SFS_MAX_FILE_SIZE < 2 ^ 32 := by norm_num
  have href : ∀ {r : Ref}, r.Valid inos → refBlock w r < 2 ^ 32 := fun {r} hr => by
    by_cases h0 : refBlock w r = 0
    · rw [h0]
      norm_num
    · exact hown.lt_of_fileBlock (hown.inRange_of_ref hr h0)
  refine ⟨hb.size.trans_lt (max_lt h.size hmax), hb.nlinks ▸ h.links, hb.nlinks ▸ h.nlinks,
    hb.blocks.trans_lt (max_lt h.blocks hmax), fun k hk => ?_, href (r := .indirect i) hi⟩
  have hmap : refBlock w (.block i k) = (w.inode i).direct k := if_pos hk
  rw [← hmap]
  exact href ⟨hi, by omega⟩

/-- **A call that tells of what it changed.** -/
theorem next (h : Tended inos i v) (hh : Housed inos v w) (hb : Bounded v i w) (ht : Told v i w) :
    Tended inos i w := by
  obtain ⟨loose, hown⟩ := hh.owned
  refine ⟨hh.owned, h.mem, dinOk hown h.mem h.din hb, fun hclean => ?_⟩
  have heq := ht.resolve_left (by rw [hclean]; simp)
  rw [heq] at hclean
  rw [OnDisk, heq, hh.dins i h.mem]
  exact h.synced hclean

/-- A volume whose files are as they were. -/
theorem unchanged (h : Tended inos i v) (hu : Unchanged inos v w)
    (hsync : (w.inode i).dirty = false → OnDisk w i) : Tended inos i w :=
  ⟨h.owned.imp fun _ => hu.owned, h.mem, hu.dinOk h.din, hsync⟩

theorem ticked (h : Tended inos i v) (ht : Ticked v w) : Tended inos i w := by
  obtain ⟨n, rfl⟩ := ht
  exact h.unchanged ⟨⟨rfl, rfl, rfl, rfl, rfl⟩, fun _ => rfl, fun _ _ => rfl⟩ h.synced

end Tended

/-! ## Writing back and loading -/

/-- **The inode `i` of `v₀`**, that may be written back and dropped: no file changed, and an inode that
is not in memory has nothing to write back. -/
structure Parked (inos : Finset ℕ) (i : ℕ) (v₀ : Volume) (s : FileSys) : Prop where
  same : Unchanged inos v₀ s.vol
  tended : Tended inos i s.vol
  uncached : (s.node i).cached = false → (s.vol.inode i).dirty = false

namespace Parked

theorem ticked (h : Parked inos i v₀ s) (ht : Ticked s.vol w) :
    Parked inos i v₀ { s with vol := w } := by
  have hw := h.tended.ticked ht
  obtain ⟨n, rfl⟩ := ht
  exact ⟨h.same.trans ⟨⟨rfl, rfl, rfl, rfl, rfl⟩, fun _ => rfl, fun _ _ => rfl⟩, hw, h.uncached⟩

/-- The counts of an inode may change, where they keep what is cached. -/
theorem counts (h : Parked inos i v₀ s) (hvol : s'.vol = s.vol)
    (hcached : (s'.node i).cached = false → (s.vol.inode i).dirty = false) :
    Parked inos i v₀ s' := by
  refine ⟨?_, ?_, fun hc => ?_⟩
  · rw [hvol]
    exact h.same
  · rw [hvol]
    exact h.tended
  · rw [hvol]
    exact hcached hc

theorem wpe_setNode {f : Node → Node} {R : ℤ → FileSys → Prop} {E : Assertion → Prop}
    (h : Parked inos i v₀ s)
    (hf : (f (s.node i)).cached = false → (s.node i).cached = false ∨ (s.vol.inode i).dirty = false) :
    wpe (setNode i f) (fun _ s' => Parked inos i v₀ s' ∧ s'.vol = s.vol) R E s := by
  rw [setNode, wpe_modify]
  refine ⟨h.counts rfl fun hc => ?_, rfl⟩
  dsimp only at hc
  rw [Function.update_self] at hc
  exact (hf hc).elim h.uncached id

theorem asked (h : Parked inos i v₀ s) : Parked inos i v₀ { s with asked := s.asked + 1 } :=
  h.counts rfl h.uncached

end Parked

theorem parked_setNode {f : Node → Node} (hf : ∀ n, (f n).cached = n.cached) :
    Keeps (Parked inos i v₀) (setNode i f) := fun s h =>
  wpe_mono (h.wpe_setNode fun hc => .inl (hf (s.node i) ▸ hc)) (fun _ _ => And.left) (fun _ _ => id)
    fun _ => id

theorem parked_inodeRefInc : Keeps (Parked inos i v₀) (inodeRefInc i) :=
  .bind (parked_setNode fun _ => rfl) fun _ => .bind .get fun _ => .pure _

theorem parked_vopOp {provided : FileType → Bool} : Keeps (Parked inos i v₀) (vopOp i provided) :=
  fun _ h => wpe_vopOp h

/-- **Writing back.** -/
theorem Parked.written (h : Parked inos i v₀ s) (hmap : Owned.SameMap s.vol w)
    (hinode : w.inode = Function.update s.vol.inode i (s.vol.inode i).clean)
    (hdata : ∀ b, b ≠ i → w.dev.data b = s.vol.dev.data b)
    (hblock : ∀ j < 64, w.dev.data i j = encodeDin (s.vol.inode i).clean j) :
    Parked inos i v₀ { s with vol := w } ∧ (w.inode i).dirty = false := by
  have hu : Unchanged inos s.vol w := .written h.tended.mem hmap hinode hdata
  have hclean : (w.inode i).dirty = false := by
    rw [hinode, Function.update_self]
    rfl
  exact ⟨⟨h.same.trans hu, h.tended.unchanged hu fun _ => .written h.tended.din hinode hblock,
    fun _ => hclean⟩, hclean⟩

/-- **`sfs_fsync`**: the block holds the inode, or the inode stays flagged. -/
theorem wpe_fsync_parked (h : Parked inos i v₀ s) :
    wpe (sfsFsync i) (fun _ s' => (Parked inos i v₀ s' ∧ (s'.vol.inode i).dirty = false) ∧
        s'.node = s.node)
      (fun _ s' => Parked inos i v₀ s' ∧ s'.node = s.node) (fun _ => True) s := by
  obtain ⟨loose, hown⟩ := h.tended.owned
  have hi := h.tended.mem
  have hrange : InRange s.vol i := hown.inRange_of_ref (r := .inode i) hi (hown.inodes i hi)
  rw [sfsFsync]
  simp only [wpe_bind, wpe_get]
  rw [wpe_ite]
  refine ⟨fun hdirty => ?_, fun hclean => ?_⟩
  · simp only [onVol, Sfs.setInode, wpe_bind, wpe_zoome, wpe_modify, wpe_get, wpe_onError]
    have hback : ∀ w : Volume, Ticked (s.vol.setInode i fun din => { din with dirty := false }) w →
        Ticked s.vol (w.setInode i fun din => { din with dirty := true }) := by
      rintro _ ⟨n, rfl⟩
      refine ⟨n, ?_⟩
      simp only [Volume.setInode, Function.update_self, Function.update_idem]
      rw [← hdirty, Function.update_eq_self]
    refine wpe_sfsWbuf ⟨hown.fits.mounted, hown.fits.small⟩ hrange (by norm_num) (by norm_num)
      ?_ fun e he hf => ?_
    · refine ⟨h.written ⟨rfl, rfl, rfl, rfl, rfl⟩ rfl (fun b hb => put_data_of_ne hb) fun j hj => ?_,
        trivial⟩
      have hin : 0 ≤ j ∧ j < 0 + SFS_DIN_SIZE := ⟨Nat.zero_le j, by rwa [Nat.zero_add]⟩
      rw [put_data_self (hj.trans (by norm_num)), overlay_of_mem hin, Nat.sub_zero, setInode_self]
      rfl
    · exact ⟨⟨h.ticked (hback _ (.tick _)), trivial⟩,
        h.ticked (hback _ ((Ticked.tick _).trans (.tick _))), trivial⟩
  · exact ⟨⟨h, by simpa using hclean⟩, rfl⟩

theorem parked_vopFsync : Keeps (Parked inos i v₀) (vopFsync i) :=
  .bind parked_vopOp fun _ _ h => wpe_mono (wpe_fsync_parked h) (fun _ _ h => h.1.1) (fun _ _ => And.left)
    fun _ => id

/-- **`sfs_reclaim`** drops an inode that has nothing to write back. -/
theorem parked_sfsReclaim : Keeps (Parked inos i v₀) (sfsReclaim i) := by
  refine .bind .get fun _ => .bind .demand fun _ => .bind (parked_setNode fun _ => rfl) fun _ =>
    .bind .get fun _ => .ite (fun _ => .throw _) fun _ => fun s h => ?_
  have hend : ∀ s, Parked inos i v₀ s ∧ (s.vol.inode i).dirty = false → wpe (do
      setNode i fun node => { node with cached := false }
      let din := (← get).vol.inode i
      if din.nlinks = 0 then
        onVol (sfsBlockFree i)
        if din.indirect ≠ 0 then
          onVol (sfsBlockFree din.indirect)
      inodeKill i : Call Unit) (fun _ => Parked inos i v₀) (fun _ => Parked inos i v₀)
      (fun _ => True) s := fun s h => by
    rw [wpe_bind]
    refine wpe_mono (h.1.wpe_setNode fun _ => .inr h.2) (fun _ s h => ?_) (fun _ _ => id) fun _ => id
    simp only [wpe_bind, wpe_get]
    rw [wpe_ite]
    refine ⟨fun hno => absurd hno h.1.tended.din.links, fun _ => ?_⟩
    exact Keeps.bind (.pure _) (fun _ => Keeps.bind .get fun _ => .demand) _ h.1
  rw [wpe_bind, wpe_get]
  dsimp only
  rw [wpe_ite]
  refine ⟨fun hno => absurd hno h.tended.din.links, fun _ => ?_⟩
  simp only [wpe_bind, wpe_get]
  rw [wpe_ite]
  refine ⟨fun _ => ?_, fun hclean => hend s ⟨h, by simpa using hclean⟩⟩
  rw [wpe_bind, vopFsync, wpe_bind]
  refine wpe_mono (parked_vopOp s h) (fun _ s h => ?_) (fun _ _ => id) fun _ => id
  exact wpe_mono (wpe_fsync_parked h) (fun _ s h => hend s h.1) (fun _ _ => And.left) fun _ => id

theorem parked_inodeRefDec : Keeps (Parked inos i v₀) (inodeRefDec i) :=
  .bind .get fun _ => .bind .demand fun _ => .bind (parked_setNode fun _ => rfl) fun _ =>
    .bind .get fun _ => .ite (fun _ => .ignore (.bind parked_vopOp fun _ => parked_sfsReclaim))
      fun _ => .pure _

/-- **`sfs_load_inode`** finds what was dropped. -/
theorem parked_sfsLoadInode : Keeps (Parked inos i v₀) (sfsLoadInode i) := by
  intro s h
  rw [sfsLoadInode, wpe_bind, wpe_get, wpe_ite]
  refine ⟨fun _ => ?_, fun hc => ?_⟩
  · rw [wpe_bind]
    refine wpe_mono (parked_inodeRefInc s h) (fun _ s h => ?_) (fun _ _ => id) fun _ => id
    rw [wpe_ite]
    exact ⟨fun _ => wpe_mono (h.wpe_setNode .inl) (fun _ _ => And.left) (fun _ _ => id) fun _ => id,
      fun _ => h⟩
  rw [wpe_bind]
  refine wpe_kmalloc ?_ h.asked
  obtain ⟨loose, hown⟩ := h.tended.owned
  simp only [onVol, wpe_bind, wpe_zoome, wpe_demand, wpe_get]
  refine wpe_mono ticked_inuse (fun _ v hv => ?_) (fun _ _ hv => h.asked.ticked hv.2) fun _ => id
  refine ⟨fun _ => ?_, fun _ => trivial⟩
  refine wpe_mono (ticked_rbuf (hv.2.fits hown.fits)) (fun data w hw => ?_)
    (fun _ _ hw => h.asked.ticked (hv.2.trans hw.2)) fun _ => id
  have hread := hv.2.trans hw.2
  -- what was read is what the inode was
  have hsame : decodeDin (w.inode i) data = w.inode i := by
    have hdata : data = s.vol.dev.data i := by
      rw [hw.1, hv.2.data]
      funext j
      rw [Nat.zero_add]
    rw [hdata, hread.inode]
    exact h.tended.synced (h.uncached (by simpa using hc))
  refine ⟨fun _ => wpe_kmalloc ?_ (h.asked.ticked hread).asked, fun _ => trivial⟩
  refine ⟨fun _ => ?_, fun _ => trivial⟩
  simp only [Sfs.setInode, wpe_modify]
  have hset : w.setInode i (fun _ => decodeDin (w.inode i) data) = w := by
    rw [hsame, Volume.setInode, Function.update_eq_self]
  rw [hset]
  exact wpe_mono ((h.asked.ticked hread).asked.wpe_setNode fun hno => absurd hno (by simp))
    (fun _ _ => And.left) (fun _ _ => id) fun _ => id

/-! ## Whole runs -/

/-- A call on one inode. -/
inductive SyncOp where
  | io (buf : ℕ → UInt8) (offset : ℤ) (len : ℕ) (write : Bool)
  | truncfile (len : ℤ)
  | fsync

namespace SyncOp

/-- The call on the inode `i`. -/
def run (i : ℕ) : SyncOp → Call Unit
  | .io buf offset len write => do
    let _ ← onVol (ExceptT.lift (sfsIoNolock i buf offset len write))
  | .truncfile len => onVol (sfsTruncfile i len)
  | .fsync => sfsFsync i

/-- **The condition under which a call tells of what it changed**: the inode was flagged before, or
the call adds no block that it may leave unflagged. -/
def Tells (v : Volume) (i : ℕ) : SyncOp → Prop
  | .io _ offset len write => (v.inode i).dirty = true ∨ IoTold v i offset len write
  | .truncfile len => (v.inode i).dirty = true ∨ LengthTold v i len
  | .fsync => True

end SyncOp

/-- The states that a run of calls on the inode `i` reaches, each call under its condition. -/
inductive SyncRun (i : ℕ) (s : FileSys) : FileSys → Prop
  | start : SyncRun i s s
  | step {s₁ s₂ : FileSys} {r : Except ℤ Unit} (op : SyncOp) : SyncRun i s s₁ →
    op.Tells s₁.vol i → (op.run i).run s₁ = .ok (r, s₂) → SyncRun i s s₂

/-- An inode in memory. -/
theorem Tended.parked (h : Tended inos i s.vol) (hc : (s.node i).cached = true) :
    Parked inos i s.vol s :=
  ⟨.refl s.vol, h, fun hno => absurd (hc.symm.trans hno) (by simp)⟩

/-- **One call** under its condition, whatever it comes to. -/
theorem SyncOp.wpe_run {op : SyncOp} (h : Tended inos i s.vol) (hc : (s.node i).cached = true)
    (hop : op.Tells s.vol i) :
    wpe (op.run i) (fun _ s' => Tended inos i s'.vol ∧ s'.node = s.node)
      (fun _ s' => Tended inos i s'.vol ∧ s'.node = s.node) (fun _ => True) s := by
  obtain ⟨loose, hown⟩ := h.owned
  cases op with
  | io buf offset len write =>
    rw [run, wpe_bind, onVol, wpe_zoome, wpe_lift]
    refine wp_mono (wp_and (wp_io_housed h.mem (.refl hown)) (wp_mono wp_io_told (fun _ _ => id)
      fun _ _ => trivial)) (fun p w hw => ⟨?_, rfl⟩) fun _ => And.left
    exact h.next hw.1 hw.2.1 (hw.2.2 hop)
  | truncfile len =>
    rw [run, onVol, wpe_zoome]
    refine wpe_mono (wpe_and (keeps_sfsTruncfile h.mem _ (.refl hown)) wpe_truncfile_told)
      (fun _ w hw => ⟨h.next hw.1 hw.2.1 hw.2.2, rfl⟩)
      (fun _ w hw => ⟨h.next hw.1 hw.2.1 (hw.2.2 hop), rfl⟩) fun _ => And.left
  | fsync =>
    exact wpe_mono (wpe_fsync_parked (h.parked hc)) (fun _ _ h => ⟨h.1.1.tended, h.2⟩)
      (fun _ _ h => ⟨h.1.tended, h.2⟩) fun _ => id

/-- Dropping an inode and loading it again. -/
def reload (i : ℕ) : Call Unit := do
  inodeRefDec i
  sfsLoadInode i

/-- **Write-back over whole runs**: under the condition, whatever its calls come to, an inode that is
not flagged is what its block holds, and an inode that is dropped and loaded again is what it was. -/
theorem writeBack_run (h : Tended inos i s₀.vol) (hc : (s₀.node i).cached = true)
    (hrun : SyncRun i s₀ s) :
    ((s.vol.inode i).dirty = false → OnDisk s.vol i) ∧
      ∀ r s', (reload i).run s = .ok (r, s') → (s'.vol.inode i).clean = (s.vol.inode i).clean := by
  have hs : Tended inos i s.vol ∧ (s.node i).cached = true := by
    induction hrun with
    | start => exact ⟨h, hc⟩
    | @step s₁ s₂ r op _ htells hstep ih =>
      have hnext := wp_of_ok (op.wpe_run ih.1 ih.2 htells) hstep
      cases r with
      | ok => exact ⟨hnext.1, by rw [hnext.2]; exact ih.2⟩
      | error => exact ⟨hnext.1, by rw [hnext.2]; exact ih.2⟩
  refine ⟨hs.1.synced, fun r s' hreload => ?_⟩
  have hkeeps : Keeps (Parked inos i s.vol) (reload i) :=
    .bind parked_inodeRefDec fun _ => parked_sfsLoadInode
  have hend := wp_of_ok (hkeeps s (hs.1.parked hs.2)) hreload
  cases r with
  | ok => exact hend.same.inode i
  | error => exact hend.same.inode i

/-! ## The volume with one file, again -/

/-- The volume with one file, its inodes in memory. -/
def heldFiles (m : ℕ) : FileSys := { rootFiles m with node := fun _ => ⟨true, 1, 0, 1⟩ }

theorem heldFiles_tended {m : ℕ} (hm : 6 ≤ m) (hmax : m ≤ 2 ^ 15) :
    Tended {1, 4} 4 (heldFiles m).vol :=
  ⟨⟨∅, rootVolume_owned hm hmax⟩, by decide, rootVolume_dinOk (by decide),
    rootVolume_synced 4 (by decide)⟩

/-- The file is made two blocks long, and written back. -/
def grownAndSynced : Bool :=
  match ((SyncOp.truncfile 8192).run 4).run (heldFiles 20) with
  | .ok (.ok (), s₁) =>
    match (SyncOp.fsync.run 4).run s₁ with
    | .ok (.ok (), s₂) => (s₂.vol.inode 4).dirty == false
    | _ => false
  | _ => false

/-- A file that is made longer and written back is on the disk. -/
theorem writeBack_run_root : ∃ s, SyncRun 4 (heldFiles 20) s ∧ OnDisk s.vol 4 := by
  have hrun : grownAndSynced = true := by decide +kernel
  unfold grownAndSynced at hrun
  split at hrun
  · next s₁ h₁ =>
    split at hrun
    · next s₂ h₂ =>
      have htold : LengthTold (heldFiles 20).vol 4 8192 :=
        .inr (.inr fun _ => .inl (.inl ⟨by decide, by decide⟩))
      have hreach : SyncRun 4 (heldFiles 20) s₂ :=
        .step .fsync (.step (.truncfile 8192) .start (.inr htold) h₁) trivial h₂
      have hsync := writeBack_run (heldFiles_tended (by norm_num) (by norm_num)) rfl hreach
      exact ⟨s₂, hreach, hsync.1 (beq_iff_eq.mp hrun)⟩
    · exact absurd hrun (by decide)
  · exact absurd hrun (by decide)

/-- The file has 13 blocks, is written back, and is to have 15: one is made, and 13 are found again. -/
def countedNotFlagged : Bool :=
  match ((SyncOp.truncfile 53248).run 4).run (heldFiles 20) with
  | .ok (.ok (), s₁) =>
    match (SyncOp.fsync.run 4).run s₁ with
    | .ok (.ok (), s₂) =>
      match ((SyncOp.truncfile 61440).run 4).run s₂ with
      | .ok (.error e, s₃) =>
        match (reload 4).run s₃ with
        | .ok (.ok (), s₄) => decide (e = -E_NO_MEM ∧ (s₃.vol.inode 4).dirty = false ∧
            (decodeDin (s₃.vol.inode 4) (s₃.vol.dev.data 4)).blocks = 13 ∧
            (s₃.vol.inode 4).blocks = 14 ∧ (s₄.vol.inode 4).blocks = 13)
        | _ => false
      | _ => false
    | _ => false
  | _ => false

/-- **A block that is counted and not flagged**: the file has 13 blocks, is written back, and is to
have 15 on a volume with one free block.  The call fails with one block made, and the next load of the
inode finds 13 again. -/
theorem writeBack_lost : Tended {1, 4} 4 (heldFiles 20).vol ∧ ∃ s₁ s₂ s₃ s₄,
    ((SyncOp.truncfile 53248).run 4).run (heldFiles 20) = .ok (.ok (), s₁) ∧
    (SyncOp.fsync.run 4).run s₁ = .ok (.ok (), s₂) ∧
    ((SyncOp.truncfile 61440).run 4).run s₂ = .ok (.error (-E_NO_MEM), s₃) ∧
    (s₃.vol.inode 4).dirty = false ∧ ¬ OnDisk s₃.vol 4 ∧
    (reload 4).run s₃ = .ok (.ok (), s₄) ∧
    (s₃.vol.inode 4).blocks = 14 ∧ (s₄.vol.inode 4).blocks = 13 := by
  have hrun : countedNotFlagged = true := by decide +kernel
  unfold countedNotFlagged at hrun
  split at hrun
  · next s₁ h₁ =>
    split at hrun
    · next s₂ h₂ =>
      split at hrun
      · next e s₃ h₃ =>
        split at hrun
        · next s₄ h₄ =>
          obtain ⟨rfl, hclean, hdisk, hblocks, hagain⟩ := of_decide_eq_true hrun
          refine ⟨heldFiles_tended (by norm_num) (by norm_num), s₁, s₂, s₃, s₄, h₁, h₂, h₃, hclean,
            fun hon => ?_, h₄, hblocks, hagain⟩
          rw [OnDisk] at hon
          rw [hon, hblocks] at hdisk
          exact absurd hdisk (by norm_num)
        · exact absurd hrun (by decide)
      · exact absurd hrun (by decide)
    · exact absurd hrun (by decide)
  · exact absurd hrun (by decide)

end UCore.Fs
