import UCore.Sfs.Purse
import UCore.Sfs.OwnershipRun

/-!
# Sfs/SizeBlocks — the size of a file and its number of blocks

    size     ──────────────────────▸ stored at the end of a call
    blocks   ─ +1 ─ +1 ─ ✗           counted on the way

The two are in step, `blocks = ⌈size / 4096⌉`, as long as no call stops between the two.  Growth that
runs out of free blocks after its first block leaves them apart, and so do a write that starts inside
the block after the last one and gets none, and a transfer that fails in the middle of a change of
size.  Nothing is assumed here of the block map or of the free map.
-/

namespace UCore.Sfs

open Act

variable {v w : Volume} {i k n off size offset pos endpos : ℕ} {write whole : Bool} {p : Progress}

/-! ## One block of a transfer -/

/-- The blocks of the file once block `k` is loaded. -/
def loadedBlocks (v : Volume) (i k : ℕ) : ℕ :=
  if k = (v.inode i).blocks then k + 1 else (v.inode i).blocks

/-- **A block moved**, or not: what is counted, on any device. -/
theorem wp_ioBlock_counts (v : Volume) :
    wp (ioBlock i write whole k off size p) (fun p' w => k ≤ (v.inode i).blocks ∧
      ((p'.ret = p.ret ∧ p'.alen = p.alen + size ∧ Counted v i (loadedBlocks v i k) w) ∨
        (p'.ret < 0 ∧ p'.alen = p.alen ∧ (SameShapes v w ∨ Counted v i (loadedBlocks v i k) w))))
      Elsewhere v := by
  rw [wp_ioBlock_iff]
  refine wpe_mono (wpe_load_counts v i k) (fun b w hw => ?_)
    (fun e w hw => ⟨hw.2.1, .inr ⟨hw.1, rfl, .inl hw.2.2⟩⟩) fun _ => id
  have hsame : ∀ {w'}, SameInodes w w' → Counted v i (loadedBlocks v i k) w' := fun hw' => by
    have hcounted := hw'.sameShapes.counted (i := i)
    rw [hw.2.blocks] at hcounted
    exact hw.2.trans hcounted
  exact wpe_mono (respects_moveBlock w) (fun _ w' hw' => ⟨hw.1, .inl ⟨rfl, rfl, hsame hw'⟩⟩)
    (fun e w' hw' => ⟨hw.1, .inr ⟨hw'.1, rfl, .inr (hsame hw'.2)⟩⟩) fun _ => id

/-- …and what it cost, on a sound device: a block is not moved for want of free blocks only. -/
theorem wp_ioBlock_purse (h : Funded v) :
    wp (ioBlock i write whole k off size p) (fun p' w => Funded w ∧ (p'.ret = p.ret ∨
      (k = (v.inode i).blocks ∧ Short v i k ∧ p'.ret < 0 ∧ SameShapes v w))) Elsewhere v := by
  rw [wp_ioBlock_iff]
  refine wpe_mono (wpe_and (purse_load h) (wpe_load_counts v i k)) (fun b w hw => ?_)
    (fun e w hw => ⟨hw.1.1, .inr ⟨of_decide_eq_true hw.1.2.1, hw.1.2.2, hw.2.1, hw.2.2.2⟩⟩)
    fun _ => And.left
  exact wpe_mono (purse_moveBlock hw.1.funded) (fun _ w' hw' => ⟨hw'.funded, .inl rfl⟩)
    (fun _ _ => False.elim) fun _ => id

/-! ## A whole transfer -/

/-- **Between two blocks of a transfer** of `[offset, endpos)` that has come to `pos`. -/
structure Rising (v : Volume) (i offset pos : ℕ) (p : Progress) (w : Volume) : Prop where
  le : offset ≤ pos
  ret : p.ret = 0
  alen : p.alen = pos - offset
  start : pos = offset → w = v
  funded : Funded v → Funded w
  counted : Counted v i (if pos = offset then (v.inode i).blocks
    else max (v.inode i).blocks ((pos + 4095) / 4096)) w

/-- **A transfer that ended early**, at `pos`: inside the blocks the file had, or for want of free
blocks. -/
structure Stuck (v : Volume) (i offset endpos pos : ℕ) (p : Progress) (w : Volume) : Prop where
  le : offset ≤ pos
  ret : p.ret ≠ 0
  alen : p.alen = pos - offset
  counted : Counted v i (if pos = offset then (v.inode i).blocks
    else max (v.inode i).blocks ((pos + 4095) / 4096)) w
  why : endpos ≤ (v.inode i).blocks * 4096 ∨
    (pos = offset → offset / 4096 = (v.inode i).blocks ∧ Short v i (v.inode i).blocks)

/-- **One block more**, where the file has the blocks or the device is sound. -/
theorem passes_rising (hcond : endpos ≤ (v.inode i).blocks * 4096 ∨ Funded v) :
    Passes i write Elsewhere (Rising v i offset) (Stuck v i offset endpos) offset endpos := by
  refine ⟨fun h => h.ret, fun h => h.ret, ?_⟩
  intro pos p w whole off size h halign hoff hwhole hsize hend hle
  have hpos := h.counted.blocks
  have hone : (pos + size + 4095) / 4096 = pos / 4096 + 1 := by omega
  have halen : p.alen + size = pos + size - offset := by
    have := h.alen
    have := h.le
    omega
  have hnext : pos / 4096 ≤ (w.inode i).blocks → loadedBlocks w i (pos / 4096) =
      if pos + size = offset then (v.inode i).blocks
      else max (v.inode i).blocks ((pos + size + 4095) / 4096) := fun hk => by
    have := h.le
    rw [if_neg (by omega), hone, loadedBlocks]
    split at hpos <;> split <;> omega
  -- a block moved
  have hmoved : ∀ {p' w'}, p'.ret = p.ret → p'.alen = p.alen + size → pos / 4096 ≤ (w.inode i).blocks →
      Counted w i (loadedBlocks w i (pos / 4096)) w' → (Funded v → Funded w') →
      Rising v i offset (pos + size) p' w' := fun hret halen' hk hcount hfund => by
    refine ⟨by have := h.le; omega, hret.trans h.ret, halen'.trans halen,
      fun heq => by have := h.le; omega, hfund, ?_⟩
    rw [← hnext hk]
    exact h.counted.trans hcount
  -- a block not moved
  have hstuck : ∀ {p' w'}, p'.ret < 0 → p'.alen = p.alen → Counted w i (w.inode i).blocks w' →
      (endpos ≤ (v.inode i).blocks * 4096 ∨
        (pos = offset → offset / 4096 = (v.inode i).blocks ∧ Short v i (v.inode i).blocks)) →
      Stuck v i offset endpos pos p' w' := fun hret halen' hcount hwhy => by
    rw [hpos] at hcount
    exact ⟨h.le, hret.ne, halen'.trans h.alen, h.counted.trans hcount, hwhy⟩
  by_cases hf : Funded v
  · refine wp_mono (wp_and (wp_ioBlock_counts w) (wp_ioBlock_purse (h.funded hf))) ?_ fun _ => And.left
    rintro p' w' ⟨⟨hk, hcase⟩, hf', hpurse⟩
    rcases hcase with ⟨hret, halen', hcount⟩ | ⟨hret, halen', -⟩
    · exact .inl (hmoved hret halen' hk hcount fun _ => hf')
    · rcases hpurse with hsame | ⟨hkb, hshort, -, hshapes⟩
      · rw [hsame, h.ret] at hret
        exact absurd hret (lt_irrefl _)
      · refine .inr (hstuck hret halen' hshapes.counted (.inr fun heq => ?_))
        rw [h.start heq] at hkb hshort
        rw [hkb] at hshort
        exact ⟨heq ▸ hkb, hshort⟩
  · have hin := hcond.resolve_right hf
    have hsame : loadedBlocks w i (pos / 4096) = (w.inode i).blocks := by
      rw [loadedBlocks, if_neg]
      split at hpos <;> omega
    refine wp_mono (wp_ioBlock_counts w) ?_ fun _ => id
    rintro p' w' ⟨hk, ⟨hret, halen', hcount⟩ | ⟨hret, halen', hcount⟩⟩
    · exact .inl (hmoved hret halen' hk hcount fun hf' => absurd hf' hf)
    · rw [hsame] at hcount
      exact .inr (hstuck hret halen' (hcount.elim SameShapes.counted id) (.inl hin))

/-- **A size in step with the blocks.** -/
def SizeOk (v : Volume) (i : ℕ) : Prop := (v.inode i).blocks = ((v.inode i).size + 4095) / 4096

/-- The other files are as they were, in all that counts here, and the file `i` is in step. -/
structure InStep (v : Volume) (i : ℕ) (w : Volume) : Prop where
  others : ∀ j, j ≠ i → (w.inode j).size = (v.inode j).size ∧ (w.inode j).type = (v.inode j).type ∧
    (w.inode j).blocks = (v.inode j).blocks
  type : (w.inode i).type = (v.inode i).type
  sizeOk : SizeOk w i

theorem SameShapes.inStep (h : SameShapes v w) (hv : SizeOk v i) : InStep v i w := by
  refine ⟨fun j _ => h j, (h i).2.1, ?_⟩
  rw [SizeOk, (h i).1, (h i).2.2]
  exact hv

theorem Counted.settle {n m : ℕ} (h : Counted v i n w)
    (hn : n = (max (v.inode i).size m + 4095) / 4096) : InStep v i (settle w i m) := by
  unfold Sfs.settle
  split
  · next hlt =>
    rw [h.size] at hlt
    refine ⟨fun j hj => ?_, ?_, ?_⟩
    · rw [setInode_of_ne hj]
      exact h.others j hj
    · rw [setInode_self]
      exact h.type
    · rw [SizeOk, setInode_self]
      change (w.inode i).blocks = (m + 4095) / 4096
      rw [h.blocks, hn, max_eq_right hlt.le]
  · next hge =>
    rw [h.size] at hge
    refine ⟨h.others, h.type, ?_⟩
    rw [SizeOk, h.blocks, hn, h.size, max_eq_left (not_lt.mp hge)]

/-- **A write that keeps the size in step**: it is refused, or it stays in the blocks of the file, or
the device is sound and the write does not start inside a block that cannot be had. -/
def WriteFits (v : Volume) (i : ℕ) (offset : ℤ) (len : ℕ) : Prop :=
  Invalid offset len ∨ Nothing (v.inode i).size offset len true ∨
    endOf (v.inode i).size offset len true ≤ (v.inode i).blocks * 4096 ∨
    (Funded v ∧ ¬ ((v.inode i).size < offset.toNat ∧ offset.toNat / 4096 = (v.inode i).blocks ∧
      offset.toNat % 4096 ≠ 0 ∧ Short v i (v.inode i).blocks))

/-- Whatever a transfer does, it fails none of the two assertions. -/
theorem passes_elsewhere : Passes i write Elsewhere (fun _ p _ => p.ret = 0) (fun _ p _ => p.ret ≠ 0)
    offset endpos := by
  refine ⟨id, id, ?_⟩
  intro pos p w whole off size h _ _ _ _ _ _
  refine wp_mono (wp_ioBlock_counts w) (fun p' w' hw => hw.2.imp ?_ ?_) fun _ => id
  · exact fun hok => hok.1.trans h
  · exact fun herr => herr.1.ne

/-- **`sfs_io_nolock`** keeps the size in step. -/
theorem wp_io_inStep {buf : ℕ → UInt8} {offset : ℤ} {len : ℕ} (hv : SizeOk v i) :
    wp (sfsIoNolock i buf offset len write)
      (fun _ w => (write = true → WriteFits v i offset len) → InStep v i w) Elsewhere v := by
  have hsame : InStep v i v := SameShapes.inStep (fun _ => ⟨rfl, rfl, rfl⟩) hv
  refine wp_io_of_parts (fun _ => ⟨by simp, by simp⟩) (fun _ _ => hsame) (fun _ _ _ => hsame)
    fun hinv hsome => ?_
  have hlt := Nothing.lt_endOf hinv hsome
  by_cases hw : write = true → WriteFits v i offset len
  swap
  · exact wp_mono (passes_elsewhere.wp_ioParts rfl hlt) (fun p w _ hw' => absurd hw' hw) fun _ => id
  have hcond : endOf (v.inode i).size offset len write ≤ (v.inode i).blocks * 4096 ∨ Funded v ∧
      ¬ ((v.inode i).size < offset.toNat ∧ offset.toNat / 4096 = (v.inode i).blocks ∧
        offset.toNat % 4096 ≠ 0 ∧ Short v i (v.inode i).blocks) := by
    cases write with
    | false =>
      refine .inl ?_
      have hsize : endOf (v.inode i).size offset len false ≤ (v.inode i).size := by
        rw [endOf, if_neg (by simp)]
        exact min_le_right _ _
      rw [SizeOk] at hv
      omega
    | true =>
      rcases hw rfl with hno | hno | hfit
      · exact absurd hno hinv
      · exact absurd hno hsome
      · exact hfit
  have hpasses : Passes i write Elsewhere (Rising v i offset.toNat)
      (Stuck v i offset.toNat (endOf (v.inode i).size offset len write)) offset.toNat _ :=
    passes_rising (hcond.imp id And.left)
  have hstart : Rising v i offset.toNat offset.toNat ⟨0, 0, buf⟩ v := by
    refine ⟨le_rfl, rfl, (Nat.sub_self _).symm, fun _ => rfl, id, ?_⟩
    rw [if_pos rfl]
    exact SameShapes.counted fun _ => ⟨rfl, rfl, rfl⟩
  refine wp_mono (hpasses.wp_ioParts hstart hlt) (fun p w hover _ => ?_) fun _ => id
  rw [SizeOk] at hv
  rcases hover with hall | ⟨pos, hpos, -, hstuck⟩
  · have halen : offset.toNat + p.alen = endOf (v.inode i).size offset len write := by
      rw [hall.alen]
      exact Nat.add_sub_cancel' hall.le
    rw [halen]
    refine hall.counted.settle ?_
    rw [if_neg hlt.ne']
    omega
  · have halen : offset.toNat + p.alen = pos := by
      rw [hstuck.alen]
      exact Nat.add_sub_cancel' hstuck.le
    rw [halen]
    refine hstuck.counted.settle ?_
    split
    · next heq =>
      -- nothing was moved, so a size beyond the blocks could only be that of the start
      rcases hstuck.why with hin | hshort
      · omega
      · obtain ⟨hblk, hshort⟩ := hshort heq
        rcases hcond with hin | ⟨-, hno⟩
        · omega
        · have : ¬ ((v.inode i).size < offset.toNat ∧ offset.toNat % 4096 ≠ 0) :=
            fun hc => hno ⟨hc.1, hblk, hc.2, hshort⟩
          omega
    · omega

/-! ## Changes of size -/

/-- The device is sound, and the volume has the blocks that growth to `n` blocks takes. -/
def Enough (v : Volume) (i n : ℕ) : Prop :=
  Funded v ∧ n - (v.inode i).blocks + (if 12 < n ∧ (v.inode i).indirect = 0 then 1 else 0) ≤ bits v

theorem Enough.not_short (h : Enough v i (k + 1 + n)) (hk : (v.inode i).blocks = k) :
    ¬ Short v i k := fun hshort => by
  have hbits := h.2
  have hfew := hshort.2
  unfold cost at hfew
  rw [hk] at hbits
  split at hbits <;> split at hfew <;> omega

theorem Enough.load (h : Enough v i (k + 1 + n)) (hk : (v.inode i).blocks = k)
    (hp : Paid v i k true w) (hb : (w.inode i).blocks = k + 1) : Enough w i (k + 1 + n) := by
  refine ⟨hp.funded, ?_⟩
  have hbits := h.2
  have hpaid := hp.bits
  have hind := hp.indirect rfl
  have hkeeps := hp.keeps
  rw [if_pos rfl, cost] at hpaid
  rw [hk] at hbits
  rw [hb]
  by_cases h0 : (v.inode i).indirect = 0
  · by_cases h12 : 12 ≤ k
    · rw [if_pos ⟨h12, h0⟩] at hpaid
      rw [if_pos ⟨by omega, h0⟩] at hbits
      rw [if_neg fun hc => hind h12 hc.2]
      omega
    · rw [if_neg fun hc => h12 hc.1] at hpaid
      split at hbits <;> split <;> omega
  · rw [if_neg fun hc => h0 hc.2] at hpaid
    rw [if_neg fun hc => h0 hc.2] at hbits
    rw [if_neg fun hc => hkeeps h0 hc.2]
    omega

/-- The next block is loaded. -/
theorem wpe_load_next (v : Volume) (hk : (v.inode i).blocks = k) :
    wpe (sfsBmapLoadNolock i k)
      (fun _ w => Counted v i (k + 1) w ∧ (Enough v i (k + 1 + n) → Enough w i (k + 1 + n)) ∧
        ¬ (Funded v ∧ Short v i k))
      (fun _ w => SameShapes v w ∧ ¬ Enough v i (k + 1 + n)) Elsewhere v := by
  have hcounts := wpe_load_counts v i k
  rw [if_pos hk.symm] at hcounts
  by_cases hf : Funded v
  · have hload := purse_load (i := i) (k := k) hf
    rw [decide_eq_true hk.symm] at hload
    refine wpe_mono (wpe_and hcounts hload) (fun b w hw => ?_) (fun e w hw => ?_) fun _ => And.left
    · exact ⟨hw.1.2, fun hen => hen.load hk hw.2 hw.1.2.blocks, fun hs => hw.2.enough rfl hs.2⟩
    · exact ⟨hw.1.2.2, fun hen => hen.not_short hk hw.2.2.2⟩
  · exact wpe_mono hcounts (fun b w hw => ⟨hw.2, fun hen => absurd hen.1 hf, fun hs => hf hs.1⟩)
      (fun e w hw => ⟨hw.2.2, fun hen => hf hen.1⟩) fun _ => id

/-- **The loop that enlarges**: it fails for want of blocks, and at its first block leaves all as it
was. -/
theorem wpe_enlarge_counts (v : Volume) (hk : (v.inode i).blocks = k) :
    wpe (enlarge i n k) (fun _ => Counted v i (k + n))
      (fun _ w => ¬ Enough v i (k + n) ∧ (Funded v ∧ Short v i k → SameShapes v w)) Elsewhere v := by
  induction n generalizing k v with
  | zero =>
    rw [enlarge, wpe_pure, Nat.add_zero, ← hk]
    exact SameShapes.counted (fun _ => ⟨rfl, rfl, rfl⟩)
  | succ n ih =>
    have hadd : k + (n + 1) = k + 1 + n := by omega
    rw [enlarge, wpe_bind, hadd]
    refine wpe_mono (wpe_load_next (n := n) v hk) ?_ (fun e w hw => ⟨hw.2, fun _ => hw.1⟩) fun _ => id
    rintro b w ⟨hcount, henough, hshort⟩
    refine wpe_mono (ih w hcount.blocks) (fun _ w' hw' => hcount.trans hw')
      (fun e w' hw' => ⟨fun hen => hw'.1 (henough hen), fun hs => absurd hs hshort⟩) fun _ => id

/-- No transfer is needed to give up the blocks of the file, or none fails. -/
def Free (v : Volume) (i : ℕ) : Prop := Funded v ∨ (v.inode i).blocks ≤ 12

theorem wpe_bmapFree_direct (hk : k < 12) :
    wpe (sfsBmapFreeNolock i k) (fun _ => SameShapes v) (fun _ _ => False) Elsewhere v := by
  rw [sfsBmapFreeNolock, wpe_bind, wpe_get, wpe_ite]
  refine ⟨fun _ => ?_, fun hno => absurd hk hno⟩
  dsimp only
  rw [wpe_ite]
  refine ⟨fun _ => ?_, fun _ => fun _ => ⟨rfl, rfl, rfl⟩⟩
  have htol : Tolerant i SameShapes := tolerant_sameShapes
  have hm : Respects SameShapes (fun _ => False) Elsewhere (do
      sfsBlockFree ((v.inode i).direct k)
      setInode i fun din => { din with direct := Function.update din.direct k 0, dirty := true }) :=
    .bind (htol.of_sameInodes respects_free) fun _ => htol.setInode
      ⟨fun _ => rfl, fun _ => rfl, fun _ => rfl, fun _ => rfl, fun _ => rfl⟩
  exact wpe_mono (hm v) (fun _ _ => id) (fun _ _ => And.left) fun _ => id

/-- …and then a truncation does not fail. -/
theorem wpe_truncate_free (h : Free v i) :
    wpe (sfsBmapTruncateNolock i) (fun _ w => Funded w ∨ (v.inode i).blocks ≤ 12)
      (fun _ _ => False) Elsewhere v := by
  simp only [sfsBmapTruncateNolock, wpe_bind, wpe_get, wpe_demand]
  refine ⟨fun hpos => ?_, fun _ => ⟨by simp, by simp⟩⟩
  rcases h with hf | hle
  · refine wpe_mono (purse_bmapFree hf) (fun _ w hw => ?_) (fun _ _ => id) fun _ => id
    rw [setInode, wpe_modify]
    exact .inl ⟨⟨hw.fits.mounted, hw.fits.small⟩, hw.sound, hw.words⟩
  · refine wpe_mono (wpe_bmapFree_direct (by omega)) (fun _ w hw => ?_) (fun _ _ => id) fun _ => id
    rw [setInode, wpe_modify]
    exact .inr hle

/-- **The loop that reduces**: where it can fail at all, only at its first block does it leave all as
it was. -/
theorem wpe_reduce_counts (v : Volume) :
    wpe (reduce i n) (fun _ => Counted v i ((v.inode i).blocks - n))
      (fun _ w => 0 < n ∧ ¬ Free v i ∧ (n = 1 → SameShapes v w)) Elsewhere v := by
  induction n generalizing v with
  | zero =>
    rw [reduce, wpe_pure, Nat.sub_zero]
    exact SameShapes.counted (fun _ => ⟨rfl, rfl, rfl⟩)
  | succ n ih =>
    rw [reduce, wpe_bind]
    have hstep : wpe (sfsBmapTruncateNolock i)
        (fun _ w => Counted v i ((v.inode i).blocks - 1) w ∧ (Free v i → Free w i))
        (fun _ w => SameShapes v w ∧ ¬ Free v i) Elsewhere v := by
      by_cases hf : Free v i
      · refine wpe_mono (wpe_and (wpe_truncate_counts v i) (wpe_truncate_free hf)) (fun _ w hw => ?_)
          (fun _ _ hw => hw.2.elim) fun _ => And.left
        refine ⟨hw.1.2, fun _ => hw.2.imp id fun hle => ?_⟩
        rw [hw.1.2.blocks]
        omega
      · exact wpe_mono (wpe_truncate_counts v i) (fun _ w hw => ⟨hw.2, fun hf' => absurd hf' hf⟩)
          (fun _ w hw => ⟨hw.2, hf⟩) fun _ => id
    refine wpe_mono hstep ?_ (fun e w hw => ⟨n.succ_pos, hw.2, fun _ => hw.1⟩) fun _ => id
    rintro _ w ⟨hcount, hfree⟩
    refine wpe_mono (ih w) (fun _ w' hw' => ?_)
      (fun e w' hw' => ⟨n.succ_pos, fun hf => hw'.2.1 (hfree hf), fun hn => ?_⟩) fun _ => id
    · rw [hcount.blocks, Nat.sub_sub, Nat.add_comm] at hw'
      exact hcount.trans hw'
    · have := hw'.1
      omega

/-- **A length that keeps the size in step**: it is refused, it takes no other number of blocks, or the
volume has the blocks for the growth, or not even the first of them, or the blocks given up are
reached without a transfer that fails, or are one. -/
def LengthFits (v : Volume) (i : ℕ) (len : ℤ) : Prop :=
  len < 0 ∨ len > SFS_MAX_FILE_SIZE ∨
    ((v.inode i).blocks < (len.toNat + 4095) / 4096 →
      Enough v i ((len.toNat + 4095) / 4096) ∨ (Funded v ∧ Short v i (v.inode i).blocks)) ∧
    ((len.toNat + 4095) / 4096 < (v.inode i).blocks →
      Free v i ∨ (v.inode i).blocks = (len.toNat + 4095) / 4096 + 1)

/-- **`sfs_truncfile`** keeps the size in step, where it returns 0 or the length fits; its assertions
hold in any case. -/
theorem wpe_truncfile_inStep {len : ℤ} (hv : SizeOk v i) :
    wpe (sfsTruncfile i len) (fun _ => InStep v i) (fun _ w => LengthFits v i len → InStep v i w)
      Elsewhere v := by
  have hsame : ∀ {w}, SameShapes v w → InStep v i w := fun h => h.inStep hv
  have hrefl : InStep v i v := hsame fun _ => ⟨rfl, rfl, rfl⟩
  rw [sfsTruncfile, wpe_ite]
  refine ⟨fun _ _ => hrefl, fun hlen => ?_⟩
  have hle : len ≤ SFS_MAX_FILE_SIZE := not_lt.mp fun hlt => hlen (.inr hlt)
  have hround := roundUpDiv_block (Int.toNat_le.mpr hle)
  have hfits : ∀ {P : Prop}, (((v.inode i).blocks < (len.toNat + 4095) / 4096 →
      Enough v i ((len.toNat + 4095) / 4096) ∨ (Funded v ∧ Short v i (v.inode i).blocks)) ∧
      ((len.toNat + 4095) / 4096 < (v.inode i).blocks →
      Free v i ∨ (v.inode i).blocks = (len.toNat + 4095) / 4096 + 1) → P) →
      LengthFits v i len → P := fun h hfit => by
    rcases hfit with h0 | hmax | hfit
    · exact absurd (.inl h0) hlen
    · exact absurd (.inr hmax) hlen
    · exact h hfit
  simp only [wpe_bind, wpe_get]
  rw [hround]
  -- what follows the loops
  have hend : ∀ w, Counted v i ((len.toNat + 4095) / 4096) w → wpe (do
      Act.demand .truncBlocks (((← get).inode i).blocks = (len.toNat + 4095) / 4096)
      setInode i fun din => { din with size := len.toNat, dirty := true } : Call Unit)
      (fun _ => InStep v i) (fun _ w => LengthFits v i len → InStep v i w) Elsewhere w := by
    intro w hw
    simp only [wpe_bind, wpe_get, wpe_demand, setInode, wpe_modify]
    refine ⟨fun hb => ⟨fun j hj => ?_, ?_, ?_⟩, fun hno => absurd hw.blocks hno⟩
    · rw [setInode_of_ne hj]
      exact hw.others j hj
    · rw [setInode_self]
      exact hw.type
    · rw [SizeOk, setInode_self]
      exact hb
  rw [wpe_ite]
  refine ⟨fun heq => ?_, fun _ => ?_⟩
  · rw [wpe_demand]
    refine ⟨fun _ => hrefl, fun hno => absurd ?_ hno⟩
    rw [hv, heq]
  · rw [wpe_ite]
    refine ⟨fun hlt => ?_, fun hge => ?_⟩
    · have hadd : (v.inode i).blocks + ((len.toNat + 4095) / 4096 - (v.inode i).blocks) =
          (len.toNat + 4095) / 4096 := by omega
      have hgrow := wpe_enlarge_counts (n := (len.toNat + 4095) / 4096 - (v.inode i).blocks) v
        (rfl : (v.inode i).blocks = _)
      rw [hadd] at hgrow
      rw [wpe_bind]
      refine wpe_mono hgrow (fun _ w hw => hend w hw) (fun e w hw => hfits fun hfit => ?_) fun _ => id
      exact (hfit.1 hlt).elim (fun hen => absurd hen hw.1) fun hs => hsame (hw.2 hs)
    · have hsub : (v.inode i).blocks - ((v.inode i).blocks - (len.toNat + 4095) / 4096) =
          (len.toNat + 4095) / 4096 := by omega
      have hcut := wpe_reduce_counts (i := i) (n := (v.inode i).blocks - (len.toNat + 4095) / 4096) v
      rw [hsub] at hcut
      rw [wpe_bind]
      refine wpe_mono hcut (fun _ w hw => hend w hw) (fun e w hw => hfits fun hfit => ?_) fun _ => id
      exact (hfit.2 (by omega)).elim (fun hf => absurd hf hw.2.1) fun hone =>
        hsame (hw.2.2 (by omega))

/-! ## Whole runs -/

/-- **Every regular file is in step.** -/
def SizesOk (v : Volume) : Prop := ∀ i, (v.inode i).type = .file → SizeOk v i

theorem InStep.sizesOk (h : InStep v i w) (hv : SizesOk v) : SizesOk w := fun j htype => by
  rcases eq_or_ne j i with rfl | hji
  · exact h.sizeOk
  · obtain ⟨hsize, htype', hblocks⟩ := h.others j hji
    rw [SizeOk, hsize, hblocks]
    exact hv j (htype' ▸ htype)

namespace FileOp

/-- **The condition under which a call keeps its file in step.** -/
def Fits (v : Volume) : FileOp → Prop
  | .io i _ offset len write => write = true → WriteFits v i offset len
  | .truncfile i len => LengthFits v i len

/-- The volumes that a run of calls on regular files reaches, each call under its condition. -/
inductive Runs (v : Volume) : Volume → Prop
  | start : Runs v v
  | step {w w' : Volume} {code : ℤ} (op : FileOp) : Runs v w → (w.inode op.inode).type = .file →
    op.Fits w → op.run w = .ok (code, w') → Runs v w'

/-- **One call**: it keeps every file in step under its condition, and in any case the two assertions
hold. -/
theorem wp_run_inStep {op : FileOp} (hv : SizeOk v op.inode) :
    wp op.run (fun _ w => op.Fits v → InStep v op.inode w) Elsewhere v := by
  cases op with
  | io i buf offset len write =>
    rw [run, wp_bind]
    exact wp_io_inStep hv
  | truncfile i len =>
    rw [run, wp_codeOf]
    exact wpe_mono (wpe_truncfile_inStep hv) (fun _ _ h _ => h) (fun _ _ => id) fun _ => id

end FileOp

/-- **Size and blocks over whole runs**: if every call meets its condition, every regular file is in
step in every volume reached, and no call on a regular file fails an assertion of `sfs_truncfile`. -/
theorem sizeBlocks_run (hv : SizesOk v) (hrun : FileOp.Runs v w) :
    SizesOk w ∧ ∀ op : FileOp, (w.inode op.inode).type = .file →
      op.run w ≠ .error .sizeBlocks ∧ op.run w ≠ .error .truncBlocks := by
  have hw : SizesOk w := by
    induction hrun with
    | start => exact hv
    | step op _ htype hfits hstep ih =>
      have hnext := wp_of_ok (FileOp.wp_run_inStep (ih _ htype)) hstep
      exact (hnext hfits).sizesOk ih
  refine ⟨hw, fun op htype => ⟨fun hstop => ?_, fun hstop => ?_⟩⟩
  · exact (wp_of_error (FileOp.wp_run_inStep (hw _ htype)) hstop).1 rfl
  · exact (wp_of_error (FileOp.wp_run_inStep (hw _ htype)) hstop).2 rfl

/-- A consistent volume on a sound device has a free map in whole words, and `unused_blocks` counts
its bits. -/
theorem Owned.funded {inos loose : Finset ℕ} (h : Owned inos loose v) (hf : ¬ Faulty v) :
    Funded v ∧ bits v = v.unusedBlocks := by
  refine ⟨⟨h.fits, hf, h.mapped.words.le⟩, ?_⟩
  rw [h.count, bits, ← h.mapped.words]
  rfl

/-- A new volume keeps its file in step when the file is given its first byte. -/
theorem sizeBlocks_run_fresh : ∃ code w, (FileOp.truncfile 1 1).run (freshVolume 2048) = .ok (code, w) ∧
    SizesOk w ∧ ∀ op : FileOp, (w.inode op.inode).type = .file →
      op.run w ≠ .error .sizeBlocks ∧ op.run w ≠ .error .truncBlocks := by
  have hfile := freshVolume_regularFile (m := 2048) (by norm_num) (by norm_num)
  obtain ⟨code, w, hstep, -⟩ := hfile.returns (r := .truncfile 1) (truncfile_accepted (by norm_num))
    (.inl (by norm_num [Request.last]))
  have hsizes : SizesOk (freshVolume 2048) := fun _ _ => hfile.blocks
  obtain ⟨hfunded, hbits⟩ := hfile.owned.funded freshVolume_not_faulty
  have hfits : (FileOp.truncfile 1 1).Fits (freshVolume 2048) := by
    refine .inr (.inr ⟨fun _ => .inl ⟨hfunded, ?_⟩, fun hlt => absurd hlt (by decide)⟩)
    rw [hbits]
    decide
  have hruns : FileOp.Runs (freshVolume 2048) w := .step (.truncfile 1 1) .start rfl hfits hstep
  exact ⟨code, w, hstep, sizeBlocks_run hsizes hruns⟩

/-! ## Growth that runs out of blocks -/

/-- Growth by two blocks where one is free counts that one, and leaves the size as it was. -/
theorem RegularFile.wp_halfGrown {inos loose : Finset ℕ} (h : RegularFile inos loose v i)
    (hf : ¬ Faulty v) (hsize : (v.inode i).size = 0) (hfree : v.unusedBlocks = 1)
    (hmiss : missing v i 2 = 2) :
    wp ((FileOp.truncfile i 8192).run) (fun code w => code = -E_NO_MEM ∧ (w.inode i).type = .file ∧
      (w.inode i).size = 0 ∧ (w.inode i).blocks = 1) (fun _ => False) v := by
  have hlen : ((8192 : ℤ).toNat + 4095) / 4096 = 2 := by decide
  have hblocks : (v.inode i).blocks = 0 := by
    rw [h.blocks, hsize]
  have hcast : ((SFS_MAX_FILE_SIZE : ℕ) : ℤ) = 134217728 := by norm_num
  rw [FileOp.run, wp_codeOf]
  refine wpe_sfsTruncfile h.owned h.dense h.mem (fun hno => ?_) (fun _ heq => ?_)
    (fun hno => hno h.blocks) (fun hno => absurd hno (by norm_num)) (fun _ _ _ _ w hg => ?_)
    (fun _ e he m w hm hlt hs => ?_) (fun _ _ hle => ?_) fun _ e he m w hm hle => ?_
  · rw [hcast] at hno
    exact absurd hno (by norm_num)
  · rw [hsize] at heq
    exact absurd heq (by decide)
  · -- both blocks cannot be had
    rw [hlen] at hg
    have hgone : missing w i 2 = 0 := by
      rw [missing, if_neg (by omega), Finset.filter_false_of_mem, Finset.card_empty]
      intro k hk hc
      have hlt := Finset.mem_range.mp hk
      have hge := hc.1
      rw [hg.blocks] at hge
      omega
    have := hg.missing 2 (by norm_num) le_rfl
    omega
  · rw [hlen] at hlt
    obtain ⟨-, w₀, hg, hkept, href⟩ := hs
    obtain ⟨-, -, hcode, hfew⟩ := href hf
    rw [cost, if_neg (by omega)] at hfew
    have hm1 : m = 1 := by
      rcases Nat.eq_zero_or_pos m with h0 | hpos
      · rw [hg.start (h0.trans hblocks.symm)] at hfew
        omega
      · omega
    refine ⟨hcode, ?_, ?_, ?_⟩
    · rw [hkept.inode, hg.type, h.type]
    · rw [hkept.inode, hg.size, hsize]
    · rw [hkept.inode, hg.blocks, hm1]
  · rw [hblocks, hlen] at hle
    exact absurd hle (by norm_num)
  · rw [hlen] at hm
    omega

/-- A file with a block and no size fails the assertion when it is cut to nothing. -/
theorem truncfile_empty_stops (hsize : (v.inode i).size = 0) (hblocks : (v.inode i).blocks = 1) :
    (FileOp.truncfile i 0).run v = .error .sizeBlocks := by
  have hstop : wp ((FileOp.truncfile i 0).run) (fun _ _ => False) (fun e => e = .sizeBlocks) v := by
    have hround := roundUpDiv_block (Nat.zero_le SFS_MAX_FILE_SIZE)
    rw [FileOp.run, wp_codeOf, sfsTruncfile, wpe_ite]
    refine ⟨fun hno => absurd hno (by norm_num), fun _ => ?_⟩
    simp only [wpe_bind, wpe_get]
    rw [wpe_ite, wpe_demand]
    refine ⟨fun _ => ⟨fun hno => ?_, fun _ => rfl⟩, fun hno => absurd hsize hno⟩
    have hnone : roundUpDiv (0 : ℤ).toNat SFS_BLKSIZE = (0 + 4095) / 4096 := hround
    rw [hnone, hblocks] at hno
    exact absurd hno (by norm_num)
  exact error_of_wp hstop

/-- **The volume runs full half way**: a file of a volume with one free block is made two blocks long.
The call returns `-E_NO_MEM` and leaves one block and no size, and the next truncation panics. -/
theorem sizeBlocks_halfGrown : SizesOk (freshVolume 4) ∧ ∃ w,
    (FileOp.truncfile 1 8192).run (freshVolume 4) = .ok (-E_NO_MEM, w) ∧ ¬ SizesOk w ∧
      (FileOp.truncfile 1 0).run w = .error .sizeBlocks := by
  have hfile := freshVolume_regularFile (m := 4) (by norm_num) (by norm_num)
  have hgrown := hfile.wp_halfGrown freshVolume_not_faulty rfl rfl freshVolume_missing
  obtain ⟨code, w, hrun, hcode, htype, hsize, hblocks⟩ := wp_false_iff.mp hgrown
  refine ⟨fun _ _ => hfile.blocks, w, hcode ▸ hrun, fun hok => ?_, truncfile_empty_stops hsize hblocks⟩
  have hone := hok 1 htype
  rw [SizeOk, hsize, hblocks] at hone
  exact absurd hone (by norm_num)

end UCore.Sfs
