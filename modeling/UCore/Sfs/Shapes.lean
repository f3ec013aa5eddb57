import UCore.Sfs.VolumeSpec
import UCore.Sfs.Inode

/-!
# Sfs/Shapes — what the calls on blocks leave alone

    size     stored once, at the end of a call
    blocks   counted block by block

A call on the blocks of a volume leaves the size, the type and the number of blocks of every file as
they were, but for the block that a load makes or a truncation gives up.  Nothing is assumed of the
block map, of the free map or of the device.
-/

namespace UCore.Sfs

open Act

variable {v v' w : Volume} {i j k n b : ℕ} {D : ℤ → Prop}

/-- The stops of a call that are no assertion of `sfs_truncfile` on `blocks`. -/
def Elsewhere (e : Assertion) : Prop := e ≠ .sizeBlocks ∧ e ≠ .truncBlocks

/-- The codes that report an error. -/
def Refusal (e : ℤ) : Prop := e < 0

/-- The inodes are as they were. -/
def SameInodes (v w : Volume) : Prop := w.inode = v.inode

/-- Size, type and blocks of every inode are as they were. -/
def SameShapes (v w : Volume) : Prop := ∀ j, (w.inode j).size = (v.inode j).size ∧
  (w.inode j).type = (v.inode j).type ∧ (w.inode j).blocks = (v.inode j).blocks

instance : Std.Refl SameInodes := ⟨fun _ => rfl⟩

instance : IsTrans Volume SameInodes := ⟨fun _ _ _ h h' => Eq.trans h' h⟩

instance : Std.Refl SameShapes := ⟨fun _ _ => ⟨rfl, rfl, rfl⟩⟩

instance : IsTrans Volume SameShapes := ⟨fun _ _ _ h h' j =>
  ⟨(h' j).1.trans (h j).1, (h' j).2.1.trans (h j).2.1, (h' j).2.2.trans (h j).2.2⟩⟩

theorem SameInodes.sameShapes (h : SameInodes v w) : SameShapes v w := fun j => by
  rw [show w.inode = v.inode from h]
  exact ⟨rfl, rfl, rfl⟩

/-- **A store to the block map of an inode**, which marks the inode as changed. -/
structure Remaps (f : SfsInode → SfsInode) : Prop where
  size : ∀ din, (f din).size = din.size
  type : ∀ din, (f din).type = din.type
  nlinks : ∀ din, (f din).nlinks = din.nlinks
  blocks : ∀ din, (f din).blocks = din.blocks
  dirty : ∀ din, (f din).dirty = true

/-- **What the calls on the map of `i` leave alone**: a relation that does not see the free map, the
device or the block map. -/
structure Tolerant (i : ℕ) (R : Volume → Volume → Prop) : Prop where
  same : ∀ {v w}, SameInodes v w → R v w
  remap : ∀ {v f}, Remaps f → R v (v.setInode i f)

theorem tolerant_sameShapes : Tolerant i SameShapes := by
  refine ⟨SameInodes.sameShapes, fun {v f} hf j => ?_⟩
  rcases eq_or_ne j i with rfl | hji
  · exact ⟨by rw [setInode_self, hf.size], by rw [setInode_self, hf.type],
      by rw [setInode_self, hf.blocks]⟩
  · rw [setInode_of_ne hji]
    exact ⟨rfl, rfl, rfl⟩

section SameInodes

theorem respects_rwblock : Respects SameInodes Refusal Elsewhere (sfsRwblockNolock b) := by
  unfold sfsRwblockNolock dopIo
  refine .bind .get fun _ => .bind (.demand ⟨by simp, by simp⟩) fun _ => .bind .get fun v => ?_
  refine .ite (fun _ => .throw ?_) fun _ => .bind (.modify fun _ => rfl) fun _ => ?_
  · change -E_INVAL < 0
    norm_num
  · refine .ite (fun hf => .throw ?_) fun _ => .pure _
    change -(v.dev.fault v.dev.transfers : ℤ) < 0
    omega

theorem respects_rblock : Respects SameInodes Refusal Elsewhere (sfsRblock b) :=
  .bind respects_rwblock fun _ => .bind .get fun _ => .pure _

theorem respects_wblock {buf : ℕ → UInt8} : Respects SameInodes Refusal Elsewhere (sfsWblock buf b) :=
  .bind respects_rwblock fun _ => .modify fun _ => rfl

theorem respects_rbuf {len offset : ℕ} : Respects SameInodes Refusal Elsewhere (sfsRbuf len b offset) :=
  .bind (.demand ⟨by simp, by simp⟩) fun _ => .bind respects_rblock fun _ => .pure _

theorem respects_wbuf {buf : ℕ → UInt8} {len offset : ℕ} :
    Respects SameInodes Refusal Elsewhere (sfsWbuf buf len b offset) :=
  .bind (.demand ⟨by simp, by simp⟩) fun _ => .bind respects_rblock fun _ => respects_wblock

theorem respects_inuse : Respects SameInodes D Elsewhere (sfsBlockInuse b) :=
  .bind .get fun _ => .bind (.demand ⟨by simp, by simp⟩) fun _ => .bind
    (.zoome (fun _ _ => rfl) (.bind .get fun _ => .bind (.demand ⟨by simp, by simp⟩) fun _ => .pure _))
    fun _ => .pure _

theorem respects_alloc : Respects SameInodes Refusal Elsewhere sfsBlockAlloc := by
  refine .bind (.zoome (fun _ _ => rfl) fun m => ?_) fun b => .bind .get fun _ => .bind
    (.demand ⟨by simp, by simp⟩) fun _ => .bind (.modify fun _ => rfl) fun _ => .bind respects_inuse
    fun _ => .bind (.demand ⟨by simp, by simp⟩) fun _ => .bind respects_wblock fun _ => .pure _
  refine wpe_mono (Bitmap.wpe_bitmapAlloc m) (fun _ _ _ => trivial) (fun e _ he => ⟨?_, trivial⟩)
    fun _ => False.elim
  rw [he.1]
  change -E_NO_MEM < 0
  norm_num

theorem respects_free : Respects SameInodes D Elsewhere (sfsBlockFree b) := by
  refine .bind respects_inuse fun _ => .bind (.demand ⟨by simp, by simp⟩) fun _ => .bind
    (.zoome (fun _ _ => rfl) ?_) fun _ => .modify fun _ => rfl
  exact .bind .get fun _ => .bind (.demand ⟨by simp, by simp⟩) fun _ => .bind
    (.demand ⟨by simp, by simp⟩) fun _ => .modify fun _ => trivial

theorem respects_addEntry {entp ent offset : ℕ} :
    Respects SameInodes Refusal Elsewhere (addEntry entp ent offset) :=
  .onError (.bind respects_alloc fun _ => .bind (.onError respects_wbuf respects_free) fun _ => .pure _)
    (.ite (fun _ => respects_free) fun _ => .pure _)

theorem respects_getSub {entp index : ℕ} {create : Bool} :
    Respects SameInodes Refusal Elsewhere (sfsBmapGetSubNolock entp index create) := by
  refine .bind (.demand ⟨by simp, by simp⟩) fun _ => .ite (fun _ => .bind respects_rbuf fun _ => ?_)
    fun _ => .ite (fun _ => .pure _) fun _ => .bind respects_alloc fun _ => respects_addEntry
  exact .ite (fun _ => .pure _) fun _ => respects_addEntry

end SameInodes

section Tolerant

variable {R : Volume → Volume → Prop} [Std.Refl R] [IsTrans Volume R] (h : Tolerant i R)
include h

omit [Std.Refl R] [IsTrans Volume R] in
/-- A call that leaves the inodes alone. -/
theorem Tolerant.of_sameInodes {α : Type} {m : Call α} (hm : Respects SameInodes D Elsewhere m) :
    Respects R D Elsewhere m := fun s =>
  wpe_mono (hm s) (fun _ _ => h.same) (fun _ _ hw => ⟨hw.1, h.same hw.2⟩) fun _ => id

omit [Std.Refl R] [IsTrans Volume R] in
theorem Tolerant.setInode {f : SfsInode → SfsInode} (hf : Remaps f) :
    Respects R D Elsewhere (setInode i f) := fun _ => h.remap hf

theorem Tolerant.getDirect {create : Bool} : Respects R Refusal Elsewhere (getDirect i k create) :=
  .bind .get fun _ => .ite (fun _ => .bind (h.of_sameInodes respects_alloc) fun _ => .bind
    (h.setInode ⟨fun _ => rfl, fun _ => rfl, fun _ => rfl, fun _ => rfl, fun _ => rfl⟩) fun _ =>
    .pure _) fun _ => .pure _

theorem Tolerant.getIndirect {create : Bool} :
    Respects R Refusal Elsewhere (getIndirect i k create) := by
  refine .bind .get fun _ => .bind (h.of_sameInodes respects_getSub) fun _ => .bind .get fun _ => .ite
    (fun _ => .bind .get fun _ => .bind (.demand ⟨by simp, by simp⟩) fun _ => .bind ?_ fun _ => .pure _)
    fun _ => .pure _
  exact h.setInode ⟨fun _ => rfl, fun _ => rfl, fun _ => rfl, fun _ => rfl, fun _ => rfl⟩

/-- **Finding a block, or making it, counts none.** -/
theorem Tolerant.get {create : Bool} :
    Respects R Refusal Elsewhere (sfsBmapGetNolock i k create) := by
  have hend : ∀ ino, Respects R Refusal Elsewhere (do
      if ino ≠ 0 then
        Act.demand .mapInuse (← sfsBlockInuse ino)
      pure ino : Call ℕ) := fun ino =>
    .ite (fun _ => .bind (h.of_sameInodes respects_inuse) fun _ => .bind (.demand ⟨by simp, by simp⟩)
      fun _ => .pure _) fun _ => .pure _
  exact .ite (fun _ => .bind h.getDirect hend) fun _ => .ite
    (fun _ => .bind h.getIndirect hend) fun _ => .bind (.stop ⟨by simp, by simp⟩) hend

/-- …and so does giving one up. -/
theorem Tolerant.bmapFree : Respects R Refusal Elsewhere (sfsBmapFreeNolock i k) := by
  refine .bind .get fun _ => .ite (fun _ => .ite (fun _ => .bind (h.of_sameInodes respects_free) fun _ =>
    h.setInode ⟨fun _ => rfl, fun _ => rfl, fun _ => rfl, fun _ => rfl, fun _ => rfl⟩) fun _ => .pure _)
    fun _ => .ite (fun _ => .ite (fun _ => ?_) fun _ => .pure _) fun _ => .pure _
  refine .bind (h.of_sameInodes respects_inuse) fun _ => .bind (.demand ⟨by simp, by simp⟩) fun _ =>
    .bind (h.of_sameInodes respects_rbuf) fun _ => .ite (fun _ => .bind (h.of_sameInodes respects_wbuf)
    fun _ => h.of_sameInodes respects_free) fun _ => .pure _

/-- **A load counts the block it makes**, and an error counts none. -/
theorem Tolerant.load (v : Volume) (k : ℕ) :
    wpe (sfsBmapLoadNolock i k)
      (fun _ w => k ≤ (v.inode i).blocks ∧ ∃ u, R v u ∧ w = if k = (v.inode i).blocks then
        u.setInode i fun din => { din with blocks := din.blocks + 1 } else u)
      (fun e w => Refusal e ∧ k ≤ (v.inode i).blocks ∧ R v w) Elsewhere v := by
  simp only [sfsBmapLoadNolock, wpe_bind, wpe_get, wpe_demand]
  refine ⟨fun hle => ?_, fun _ => ⟨by simp, by simp⟩⟩
  refine wpe_mono (h.get v) (fun b w hw => ?_) (fun _ _ hw => ⟨hw.1, hle, hw.2⟩) fun _ => id
  refine wpe_mono (h.of_sameInodes respects_inuse w) (fun _ w' hw' => ?_)
    (fun _ w' hw' => ⟨hw'.1, hle, IsTrans.trans _ _ _ hw hw'.2⟩) fun _ => id
  refine ⟨fun _ => ?_, fun _ => ⟨by simp, by simp⟩⟩
  rw [wpe_ite]
  refine ⟨fun hcreate => ⟨hle, w', IsTrans.trans _ _ _ hw hw', ?_⟩, fun hcreate =>
    ⟨hle, w', IsTrans.trans _ _ _ hw hw', ?_⟩⟩
  · rw [if_pos (of_decide_eq_true hcreate)]
  · rw [if_neg fun hk => hcreate (decide_eq_true hk)]

/-- **A truncation counts one block off**, and an error none. -/
theorem Tolerant.truncate (v : Volume) :
    wpe (sfsBmapTruncateNolock i)
      (fun _ w => 0 < (v.inode i).blocks ∧ ∃ u, R v u ∧
        w = u.setInode i fun din => { din with blocks := din.blocks - 1, dirty := true })
      (fun e w => Refusal e ∧ R v w) Elsewhere v := by
  simp only [sfsBmapTruncateNolock, wpe_bind, wpe_get, wpe_demand]
  refine ⟨fun hpos => ?_, fun _ => ⟨by simp, by simp⟩⟩
  exact wpe_mono (h.bmapFree v) (fun _ u hu => ⟨Nat.pos_of_ne_zero hpos, u, hu, rfl⟩) (fun _ _ => id)
    fun _ => id

end Tolerant

/-- The volume `v`, with `n` blocks counted for the file `i`. -/
structure Counted (v : Volume) (i n : ℕ) (w : Volume) : Prop where
  others : ∀ j, j ≠ i → (w.inode j).size = (v.inode j).size ∧ (w.inode j).type = (v.inode j).type ∧
    (w.inode j).blocks = (v.inode j).blocks
  size : (w.inode i).size = (v.inode i).size
  type : (w.inode i).type = (v.inode i).type
  blocks : (w.inode i).blocks = n

theorem SameShapes.counted (h : SameShapes v w) : Counted v i (v.inode i).blocks w :=
  ⟨fun j _ => h j, (h i).1, (h i).2.1, (h i).2.2⟩

theorem Counted.trans {v₁ : Volume} (h : Counted v i k v₁) (h' : Counted v₁ i n w) : Counted v i n w :=
  ⟨fun j hj => ⟨(h'.others j hj).1.trans (h.others j hj).1,
    (h'.others j hj).2.1.trans (h.others j hj).2.1, (h'.others j hj).2.2.trans (h.others j hj).2.2⟩,
    h'.size.trans h.size, h'.type.trans h.type, h'.blocks⟩

theorem wpe_load_counts (v : Volume) (i k : ℕ) :
    wpe (sfsBmapLoadNolock i k)
      (fun _ w => k ≤ (v.inode i).blocks ∧
        Counted v i (if k = (v.inode i).blocks then k + 1 else (v.inode i).blocks) w)
      (fun e w => Refusal e ∧ k ≤ (v.inode i).blocks ∧ SameShapes v w) Elsewhere v := by
  refine wpe_mono (tolerant_sameShapes.load v k) ?_ (fun _ _ => id) fun _ => id
  rintro _ w ⟨hle, u, hu, rfl⟩
  split
  · next hk =>
    refine ⟨hle, hu.counted.trans ⟨fun j hj => ?_, ?_, ?_, ?_⟩⟩
    · rw [setInode_of_ne hj]
      exact ⟨rfl, rfl, rfl⟩
    · rw [setInode_self]
    · rw [setInode_self]
    · rw [setInode_self, (hu i).2.2, hk]
  · exact ⟨hle, hu.counted⟩

theorem wpe_truncate_counts (v : Volume) (i : ℕ) :
    wpe (sfsBmapTruncateNolock i)
      (fun _ w => 0 < (v.inode i).blocks ∧ Counted v i ((v.inode i).blocks - 1) w)
      (fun e w => Refusal e ∧ SameShapes v w) Elsewhere v := by
  refine wpe_mono (tolerant_sameShapes.truncate v) ?_ (fun _ _ => id) fun _ => id
  rintro _ w ⟨hpos, u, hu, rfl⟩
  refine ⟨hpos, hu.counted.trans ⟨fun j hj => ?_, ?_, ?_, ?_⟩⟩
  · rw [setInode_of_ne hj]
    exact ⟨rfl, rfl, rfl⟩
  · rw [setInode_self]
  · rw [setInode_self]
  · rw [setInode_self, (hu i).2.2]

/-! ## One block of a transfer -/

/-- A block of a transfer, once it is loaded: `ino` is read or written. -/
def moveBlock (write whole : Bool) (blkoff size : ℕ) (p : Progress) (ino : ℕ) :
    Call (ℕ → UInt8) := do
  if write then
    if whole then
      sfsWblock (fun j => p.buf (p.alen + j)) ino
    else
      sfsWbuf (fun j => p.buf (p.alen + j)) size ino blkoff
    pure p.buf
  else
    let data ← if whole then sfsRblock ino else sfsRbuf size ino blkoff
    pure (overlay p.buf p.alen size data)

theorem wp_ioBlock_iff {write whole : Bool} {off size : ℕ} {p : Progress}
    {Q : Progress → Volume → Prop} {E : Assertion → Prop} :
    wp (ioBlock i write whole k off size p) Q E v ↔
      wpe (sfsBmapLoadNolock i k) (fun b w => wpe (moveBlock write whole off size p b)
        (fun buf => Q { p with alen := p.alen + size, buf := buf }) (fun e => Q { p with ret := e })
        E w) (fun e => Q { p with ret := e }) E v := by
  rw [ioBlock, wp_bind, wp_run, wpe_bind]
  rfl

theorem respects_moveBlock {write whole : Bool} {off size : ℕ} {p : Progress} :
    Respects SameInodes Refusal Elsewhere (moveBlock write whole off size p b) :=
  .ite (fun _ => .ite (fun _ => .bind respects_wblock fun _ => .pure _) fun _ =>
    .bind respects_wbuf fun _ => .pure _) fun _ => .ite
    (fun _ => .bind respects_rblock fun _ => .pure _) fun _ => .bind respects_rbuf fun _ => .pure _

end UCore.Sfs
