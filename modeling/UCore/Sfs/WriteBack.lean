import UCore.Sfs.Dir
import UCore.Sfs.Content

/-!
# Sfs/WriteBack — an inode and its block

    memory   inode i  ──sfs_fsync──▸  block i   ──sfs_load_inode──▸  inode i

`OnDisk` says that the two agree.  `Unchanged` is a volume whose files are as they were: only inode
blocks were written, and only `dirty` flags changed.
-/

namespace UCore.Sfs

variable {inos loose : Finset ℕ} {v v' w : Volume} {din : SfsInode} {f : ℕ → UInt8} {b i k y : ℕ}

/-- **The fields of an inode fit their types**, and it is linked. -/
structure DinOk (din : SfsInode) : Prop where
  size : din.size < 2 ^ 32
  links : din.nlinks ≠ 0
  nlinks : din.nlinks < 2 ^ 16
  blocks : din.blocks < 2 ^ 32
  direct : ∀ k < 12, din.direct k < 2 ^ 32
  indirect : din.indirect < 2 ^ 32

/-- The inode with nothing left to write back. -/
def SfsInode.clean (din : SfsInode) : SfsInode := { din with dirty := false }

/-- The inode block of `i` holds the inode. -/
def OnDisk (v : Volume) (i : ℕ) : Prop := decodeDin (v.inode i) (v.dev.data i) = v.inode i

theorem decodeU16_encodeU32 (h : k < 2 ^ 16) : decodeU16 (encodeU32 k) = k := by
  simp only [decodeU16, encodeU32, UInt8.toNat_ofNat']
  omega

theorem decodeU16_congr {f g : ℕ → UInt8} (h : ∀ j < 2, f j = g j) : decodeU16 f = decodeU16 g := by
  rw [decodeU16, decodeU16, h 0 (by norm_num), h 1 (by norm_num)]

theorem FileType.ofCode_code (t : FileType) : FileType.ofCode t.code = t := by
  cases t <;> rfl

/-- **What was written back is loaded.** -/
theorem decodeDin_encodeDin (h : DinOk din) (hf : ∀ j < 64, f j = encodeDin din j) :
    decodeDin din f = din.clean := by
  have hfield : ∀ {n o : ℕ}, n < 2 ^ 32 → o + 4 ≤ 64 →
      (∀ j < 4, encodeDin din (o + j) = encodeU32 n j) → decodeU32 (fun j => f (o + j)) = n := by
    intro n o hn ho he
    rw [decodeU32_congr (g := encodeU32 n) fun j hj => (hf _ (by omega)).trans (he j hj)]
    exact decodeU32_encodeU32 hn
  have hshort : ∀ {n o : ℕ}, n < 2 ^ 16 → o + 2 ≤ 64 →
      (∀ j < 2, encodeDin din (o + j) = encodeU32 n j) → decodeU16 (fun j => f (o + j)) = n := by
    intro n o hn ho he
    rw [decodeU16_congr (g := encodeU32 n) fun j hj => (hf _ (by omega)).trans (he j hj)]
    exact decodeU16_encodeU32 hn
  have hsize : decodeU32 f = din.size := by
    have := hfield (o := 0) h.size (by norm_num) fun j hj => by
      rw [encodeDin, if_pos (by omega), Nat.zero_add]
    simpa only [Nat.zero_add] using this
  have htype : (decodeU16 fun j => f (4 + j)) = din.type.code := by
    refine hshort ?_ (by norm_num) fun j hj => ?_
    · cases din.type <;> norm_num [FileType.code]
    · rw [encodeDin, if_neg (by omega), if_pos (by omega), Nat.add_sub_cancel_left]
  have hnlinks : (decodeU16 fun j => f (6 + j)) = din.nlinks := hshort h.nlinks (by norm_num)
    fun j hj => by
      rw [encodeDin, if_neg (by omega), if_neg (by omega), if_pos (by omega), Nat.add_sub_cancel_left]
  have hblocks : (decodeU32 fun j => f (8 + j)) = din.blocks := hfield h.blocks (by norm_num)
    fun j hj => by
      rw [encodeDin, if_neg (by omega), if_neg (by omega), if_neg (by omega), if_pos (by omega),
        Nat.add_sub_cancel_left]
  have hindirect : (decodeU32 fun j => f (60 + j)) = din.indirect := hfield h.indirect (by norm_num)
    fun j hj => by
      rw [encodeDin, if_neg (by omega), if_neg (by omega), if_neg (by omega), if_neg (by omega),
        if_neg (by omega), Nat.add_sub_cancel_left]
  have hdirect : ∀ k < 12, (decodeU32 fun j => f (12 + (4 * k + j))) = din.direct k := fun k hk => by
    have := hfield (o := 12 + 4 * k) (h.direct k hk) (by omega) fun j hj => by
      rw [encodeDin, if_neg (by omega), if_neg (by omega), if_neg (by omega), if_neg (by omega),
        if_pos (by omega), show (12 + 4 * k + j - 12) / 4 = k by omega,
        show (12 + 4 * k + j - 12) % 4 = j by omega]
    simpa only [Nat.add_assoc] using this
  rw [decodeDin, hsize, htype, hnlinks, hblocks, hindirect, FileType.ofCode_code, SfsInode.clean]
  congr 1
  funext k
  split
  · next hk => exact hdirect k hk
  · rfl

/-! ## Files as they were -/

/-- **Only inode blocks and `dirty` flags may have changed.** -/
structure Unchanged (inos : Finset ℕ) (v v' : Volume) : Prop where
  same : Owned.SameMap v v'
  inode : ∀ i, (v'.inode i).clean = (v.inode i).clean
  data : ∀ b, b ∉ inos → v'.dev.data b = v.dev.data b

namespace Unchanged

theorem refl (v : Volume) : Unchanged inos v v :=
  ⟨⟨rfl, rfl, rfl, rfl, rfl⟩, fun _ => rfl, fun _ _ => rfl⟩

theorem trans (h : Unchanged inos v v') (h' : Unchanged inos v' w) : Unchanged inos v w :=
  ⟨⟨h'.same.blocks.trans h.same.blocks, h'.same.unused.trans h.same.unused,
    h'.same.freemap.trans h.same.freemap, h'.same.fault.trans h.same.fault,
    h'.same.devBlocks.trans h.same.devBlocks⟩, fun i => (h'.inode i).trans (h.inode i),
    fun b hb => (h'.data b hb).trans (h.data b hb)⟩

variable (h : Unchanged inos v v')
include h

theorem size (i : ℕ) : (v'.inode i).size = (v.inode i).size := by
  have := congrArg SfsInode.size (h.inode i)
  exact this

theorem type (i : ℕ) : (v'.inode i).type = (v.inode i).type := by
  have := congrArg SfsInode.type (h.inode i)
  exact this

theorem blocks (i : ℕ) : (v'.inode i).blocks = (v.inode i).blocks := by
  have := congrArg SfsInode.blocks (h.inode i)
  exact this

theorem direct (i : ℕ) : (v'.inode i).direct = (v.inode i).direct := by
  have := congrArg SfsInode.direct (h.inode i)
  exact this

theorem indirect (i : ℕ) : (v'.inode i).indirect = (v.inode i).indirect := by
  have := congrArg SfsInode.indirect (h.inode i)
  exact this

theorem dinOk (hd : DinOk (v.inode i)) : DinOk (v'.inode i) := by
  have hn : (v'.inode i).nlinks = (v.inode i).nlinks := by
    have := congrArg SfsInode.nlinks (h.inode i)
    exact this
  exact ⟨h.size i ▸ hd.size, hn ▸ hd.links, hn ▸ hd.nlinks, h.blocks i ▸ hd.blocks,
    fun k hk => h.direct i ▸ hd.direct k hk, h.indirect i ▸ hd.indirect⟩

/-- No inode block holds anything of a file, so every block map is as it was. -/
theorem refs (hown : Owned inos loose v) {r : Ref} (hr : r.Valid inos) :
    refBlock v' r = refBlock v r := by
  cases r with
  | inode i => rfl
  | indirect i => exact h.indirect i
  | block i k =>
    refine bmap_congr hr.2 (h.direct i) (h.indirect i) fun h0 x _ => congrFun (h.data _ fun hin => ?_) x
    have := hown.unique (.indirect i) (.inode (v.inode i).indirect) hr.1 hin h0 rfl
    cases this

theorem owned (hown : Owned inos loose v) : Owned inos loose v' :=
  hown.frame h.same fun _ hr => h.refs hown hr

theorem map (hown : Owned inos loose v) (hi : i ∈ inos) (hk : k < 1036) : bmap v' i k = bmap v i k :=
  h.refs hown (r := .block i k) ⟨hi, hk⟩

/-- The blocks of a file are as they were, an absent one being block 0. -/
theorem blockData (hown : Owned inos loose v) (hi : i ∈ inos) (hk : k < 1036) :
    v'.dev.data (bmap v i k) = v.dev.data (bmap v i k) := by
  refine h.data _ fun hin => ?_
  have := hown.unique (.block i k) (.inode (bmap v i k)) ⟨hi, hk⟩ hin (hown.inodes _ hin) rfl
  cases this

/-- **The bytes of every file are as they were.** -/
theorem content (hown : Owned inos loose v) (hi : i ∈ inos) (hy : y < 1036 * 4096) :
    content v' i y = content v i y :=
  content_congr (h.map hown hi (by omega)) fun _ => congrFun (h.blockData hown hi (by omega)) _

end Unchanged

/-- **An inode written back** changes no file. -/
theorem Unchanged.written (hi : i ∈ inos) (hmap : Owned.SameMap v w)
    (hinode : w.inode = Function.update v.inode i (v.inode i).clean)
    (hdata : ∀ b, b ≠ i → w.dev.data b = v.dev.data b) : Unchanged inos v w := by
  refine ⟨hmap, fun j => ?_, fun b hb => hdata b fun hbi => hb (hbi ▸ hi)⟩
  rw [hinode]
  rcases eq_or_ne j i with rfl | hji
  · rw [Function.update_self]
    rfl
  · rw [Function.update_of_ne hji]

/-- …and its block holds it. -/
theorem OnDisk.written (hdin : DinOk (v.inode i))
    (hinode : w.inode = Function.update v.inode i (v.inode i).clean)
    (hblock : ∀ j < 64, w.dev.data i j = encodeDin (v.inode i).clean j) : OnDisk w i := by
  have hself : w.inode i = (v.inode i).clean := by rw [hinode, Function.update_self]
  rw [OnDisk, hself]
  exact decodeDin_encodeDin ⟨hdin.size, hdin.links, hdin.nlinks, hdin.blocks, hdin.direct,
    hdin.indirect⟩ hblock

/-- **The files of two volumes are the same**: bytes, sizes, numbers of blocks, and the free blocks. -/
structure SameFiles (inos : Finset ℕ) (v v' : Volume) : Prop where
  content : ∀ i ∈ inos, ∀ y < 1036 * 4096, content v' i y = content v i y
  size : ∀ i ∈ inos, (v'.inode i).size = (v.inode i).size
  blocks : ∀ i ∈ inos, (v'.inode i).blocks = (v.inode i).blocks
  freemap : v'.freemap = v.freemap

theorem Unchanged.sameFiles (h : Unchanged inos v v') (hown : Owned inos loose v) :
    SameFiles inos v v' :=
  ⟨fun _ hi _ hy => h.content hown hi hy, fun i _ => h.size i, fun i _ => h.blocks i, h.same.freemap⟩

end UCore.Sfs
