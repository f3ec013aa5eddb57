import UCore.Sfs.Transfer

/-!
# Sfs/Housed — what a call on a file leaves alone, on any device

    block i        the inode i             written by sfs_fsync alone
    data, entries  of the file             written by the calls on it
    data, entries  of the other files      left alone

A call on a file finds and makes blocks, reads and writes them and gives them up; on a device that
fails it may lose a block, but the owners stay apart.  `Stable` is what an invariant has to say of each
of these steps to hold of the whole call.
-/

namespace UCore.Sfs

open Act

variable {inos loose : Finset ℕ} {v₀ v w : Volume} {i j k m n offset endpos : ℕ} {write : Bool}

/-! ## An invariant of every step -/

/-- **An invariant that the steps of a call on the file `i` keep.** -/
structure Stable (inos : Finset ℕ) (i : ℕ) (I : Volume → Prop) : Prop where
  owned : ∀ {v}, I v → ∃ loose, Owned inos loose v
  kept : ∀ {v w loose}, I v → Kept inos loose v w → I w
  loaded : ∀ {v w loose k b}, I v → Loaded inos loose v i k b w → I w
  dropped : ∀ {v w loose k}, I v → Dropped inos loose v i k w → I w
  setInode : ∀ {v} {f : SfsInode → SfsInode}, I v → (f (v.inode i)).direct = (v.inode i).direct →
    (f (v.inode i)).indirect = (v.inode i).indirect → I (v.setInode i f)
  written : ∀ {v w loose off size src k}, I v → Written v (bmap v i k) off size src w →
    Owned inos loose v → k < 1036 → bmap v i k ≠ 0 → I w

namespace Stable

variable {I : Volume → Prop} (hI : Stable inos i I) (hi : i ∈ inos)
include hI hi

theorem keeps_load : Keeps I (sfsBmapLoadNolock i k) := fun v h => by
  obtain ⟨loose, hown⟩ := hI.owned h
  exact wpe_sfsBmapLoadNolock hown hi (fun _ => trivial) (fun _ _ => trivial) (fun _ _ _ => trivial)
    (fun _ _ hl => hI.loaded h hl) fun _ _ _ _ hk _ => hI.kept h hk

theorem keeps_truncate : Keeps I (sfsBmapTruncateNolock i) := fun v h => by
  obtain ⟨loose, hown⟩ := hI.owned h
  exact wpe_sfsBmapTruncateNolock hown hi (fun _ => trivial) (fun _ hd _ => hI.dropped h hd)
    fun _ _ _ _ hk => hI.kept h hk

theorem keeps_enlarge : Keeps I (enlarge i n k) := by
  induction n generalizing k with
  | zero => exact .pure _
  | succ n ih => exact .bind (hI.keeps_load hi) fun _ => ih

theorem keeps_reduce : Keeps I (reduce i n) := by
  induction n with
  | zero => exact .pure _
  | succ n ih => exact .bind (hI.keeps_truncate hi) fun _ => ih

/-- **`sfs_truncfile`** keeps it. -/
theorem keeps_sfsTruncfile {len : ℤ} : Keeps I (sfsTruncfile i len) := by
  have hend : ∀ _ : Unit, Keeps I (do
      Act.demand .truncBlocks (((← get).inode i).blocks = roundUpDiv len.toNat SFS_BLKSIZE)
      Sfs.setInode i fun din => { din with size := len.toNat, dirty := true } : Call Unit) := fun _ =>
    .bind .get fun _ => .bind .demand fun _ => .modify fun _ h => hI.setInode h rfl rfl
  refine .ite (fun _ => .throw _) fun _ => .bind .get fun _ => .ite (fun _ => .demand) fun _ => ?_
  exact .ite (fun _ => .bind (hI.keeps_enlarge hi) hend) fun _ => .bind (hI.keeps_reduce hi) hend

theorem passes : Passes i write (fun _ => True) (fun _ p w => p.ret = 0 ∧ I w)
    (fun _ p w => p.ret ≠ 0 ∧ I w) offset endpos := by
  refine ⟨And.left, And.left, ?_⟩
  rintro pos p w whole off size ⟨hret, h⟩ - hoff hwhole - hsum -
  obtain ⟨loose, hown⟩ := hI.owned h
  refine wp_ioBlock hown hi hwhole (by omega) hsum (fun _ => trivial) (fun _ _ => trivial)
    (fun _ _ _ => trivial) (fun b u u' hl hm => .inl ⟨hret, ?_⟩) fun e he u hf => .inr ⟨he.ne, ?_⟩
  · have hself : bmap u i (pos / 4096) = b := hl.self
    unfold Moved at hm
    split at hm
    · rw [← hself] at hm
      exact hI.written (hI.loaded h hl) hm hl.owned hl.index.1 (hself.symm ▸ hl.ne_zero)
    · exact hI.kept (hI.loaded h hl) hm.1
  · rcases hf.2 with ⟨hk, -⟩ | ⟨-, b, u', hl, hk⟩
    · exact hI.kept h hk
    · exact hI.kept (hI.loaded h hl) hk

/-- **`sfs_io_nolock`** keeps it. -/
theorem wp_io {buf : ℕ → UInt8} {offset : ℤ} {len : ℕ} (h : I v) :
    wp (sfsIoNolock i buf offset len write) (fun _ => I) (fun _ => True) v := by
  refine wp_io_of_parts (fun _ => trivial) (fun _ => h) (fun _ _ => h) fun hinv hsome => ?_
  refine wp_mono ((hI.passes hi).wp_ioParts ⟨rfl, h⟩ (Nothing.lt_endOf hinv hsome))
    (fun p w hover => ?_) fun _ => id
  have hw : I w := by
    rcases hover with hall | ⟨-, -, -, hhalt⟩
    · exact hall.2
    · exact hhalt.2
  unfold settle
  split
  · exact hI.setInode hw rfl rfl
  · exact hw

end Stable

/-! ## The inode blocks -/

/-- **Every block has one owner**, and the inode blocks are those of `v₀`. -/
structure Housed (inos : Finset ℕ) (v₀ v : Volume) : Prop where
  owned : ∃ loose, Owned inos loose v
  dins : ∀ j ∈ inos, v.dev.data j = v₀.dev.data j

theorem Housed.refl (h : Owned inos loose v) : Housed inos v v := ⟨⟨loose, h⟩, fun _ _ => rfl⟩

theorem stable_housed (hi : i ∈ inos) : Stable inos i (Housed inos v₀) where
  owned := Housed.owned
  kept h hk := ⟨hk.owned.imp fun _ => And.right, fun j hj => (hk.dins j hj).trans (h.dins j hj)⟩
  loaded h hl := ⟨⟨_, hl.owned⟩, fun j hj => (hl.dins j hj).trans (h.dins j hj)⟩
  dropped h hd := ⟨⟨_, hd.owned⟩, fun j hj => (hd.dins j hj).trans (h.dins j hj)⟩
  setInode h hdirect hindirect :=
    ⟨h.owned.imp fun _ hown => hown.setInode hdirect hindirect, h.dins⟩
  written h hw hown hk h0 := by
    -- a block of a file is no inode's
    refine ⟨⟨_, hw.owned hown hi hk h0⟩, fun j hj => ?_⟩
    rw [hw.data, h.dins j hj]
    rintro rfl
    have := hown.unique (.block i _) (.inode _) ⟨hi, hk⟩ hj h0 rfl
    cases this

/-- **`sfs_truncfile`** writes no inode block. -/
theorem keeps_sfsTruncfile {len : ℤ} (hi : i ∈ inos) : Keeps (Housed inos v₀) (sfsTruncfile i len) :=
  (stable_housed hi).keeps_sfsTruncfile hi

/-- **`sfs_io_nolock`** writes no inode block. -/
theorem wp_io_housed {buf : ℕ → UInt8} {offset : ℤ} {len : ℕ} (hi : i ∈ inos) (h : Housed inos v₀ v) :
    wp (sfsIoNolock i buf offset len write) (fun _ => Housed inos v₀) (fun _ => True) v :=
  (stable_housed hi).wp_io hi h

/-! ## The other files -/

/-- **The file `i` apart**, the files have the blocks that they have in `v₀`, as they are there. -/
structure Aside (inos : Finset ℕ) (i : ℕ) (v₀ v : Volume) : Prop where
  owned : ∃ loose, Owned inos loose v
  map : ∀ j ∈ inos, j ≠ i → ∀ m < 1036, bmap v j m = bmap v₀ j m
  data : ∀ j ∈ inos, j ≠ i → ∀ m < 1036, bmap v₀ j m ≠ 0 →
    v.dev.data (bmap v₀ j m) = v₀.dev.data (bmap v₀ j m)

namespace Aside

theorem refl (h : Owned inos loose v) : Aside inos i v v :=
  ⟨⟨loose, h⟩, fun _ _ _ _ _ => rfl, fun _ _ _ _ _ _ => rfl⟩

/-- A step that does the same. -/
theorem next (h : Aside inos i v₀ v) (hown : ∃ loose, Owned inos loose w)
    (hmap : ∀ j ∈ inos, j ≠ i → ∀ m < 1036, bmap w j m = bmap v j m)
    (hdata : ∀ j ∈ inos, j ≠ i → ∀ m < 1036, bmap v j m ≠ 0 →
      w.dev.data (bmap v j m) = v.dev.data (bmap v j m)) : Aside inos i v₀ w := by
  refine ⟨hown, fun j hj hji m hm => (hmap j hj hji m hm).trans (h.map j hj hji m hm),
    fun j hj hji m hm h0 => ?_⟩
  have hsame := hdata j hj hji m hm
  rw [h.map j hj hji m hm] at hsame
  exact (hsame h0).trans (h.data j hj hji m hm h0)

end Aside

theorem stable_aside (hi : i ∈ inos) : Stable inos i (Aside inos i v₀) where
  owned := Aside.owned
  kept h hk := h.next (hk.owned.imp fun _ => And.right) (fun j hj _ m hm => hk.map j hj m hm)
    fun j hj _ m hm h0 => hk.data j hj m hm h0
  loaded h hl := h.next ⟨_, hl.owned⟩
    (fun j hj hji m hm => hl.map j hj m hm fun heq => hji (congrArg Prod.fst heq))
    fun j hj _ m hm h0 => hl.data j hj m hm h0
  dropped h hd := h.next ⟨_, hd.owned⟩
    (fun j hj hji m hm => hd.map j hj m hm fun heq => hji (congrArg Prod.fst heq))
    fun j hj hji m hm h0 => hd.data j hj m hm (fun heq => hji (congrArg Prod.fst heq)) h0
  setInode h hdirect hindirect :=
    h.next (h.owned.imp fun _ hown => hown.setInode hdirect hindirect)
      (fun j _ _ m _ => refs_setInode (r := .block j m) hdirect hindirect) fun _ _ _ _ _ _ => rfl
  written h hw hown hk h0 := by
    refine h.next ⟨_, hw.owned hown hi hk h0⟩ (fun j hj _ m hm => hw.map hown hi hk h0 hj hm)
      fun j hj hji m hm hold => hw.data _ fun heq => hji ?_
    have := hown.unique (.block j m) (.block i _) ⟨hj, hm⟩ ⟨hi, hk⟩ hold heq
    cases this
    rfl

end UCore.Sfs
