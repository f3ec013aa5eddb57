import UCore.Tools.Mksfs

/-!
# Tools/MksfsMap — does the kernel read the free map that `mksfs` wrote?

    mksfs ──close_sfs──▸ image ──sfs_do_mount──▸ bitmap ──bitmap_alloc──▸ next_ino ≤ i < ninos

The map is written block by block and read word by word, over its length in whole blocks.  A bit is set
exactly if its block lies in the image and was not taken; so the superblock counts right, and what the
kernel allocates was never used.
-/

namespace UCore.Mksfs

open Sfs
open Sfs.Bitmap (WORD_BITS)

variable {s t : Mksfs} {stSize ino i : ℕ}

/-- **Allocation after mounting**: `bitmap_alloc`, and `bitmap_free` of a block it returned. -/
inductive Allocs (b₀ : Bitmap) : Finset ℕ → Bitmap → Prop
  | mount : Allocs b₀ ∅ b₀
  | alloc {given : Finset ℕ} {b b' : Bitmap} {i : ℕ} : Allocs b₀ given b →
      Bitmap.bitmapAlloc.run b = .ok (.ok i, b') → Allocs b₀ (insert i given) b'
  | free {given : Finset ℕ} {b b' : Bitmap} {i : ℕ} : Allocs b₀ given b → i ∈ given →
      (Bitmap.bitmapFree i).run b = .ok (.ok (), b') → Allocs b₀ given b'

/-- **The volume that is mounted** is the one that `mksfs` made. -/
structure Agrees (s : Mksfs) (v : Mounted) : Prop where
  blocks : v.blocks = s.ninos
  bits : s.ninos ≤ v.freemap.nbits
  test : ∀ i < v.freemap.nbits, (Bitmap.bitmapTest i).run v.freemap =
    .ok (.ok (decide (s.nextIno ≤ i ∧ i < s.ninos)), v.freemap)
  unused : v.unusedBlocks = countUnused v.freemap v.freemap.nbits
  apart : ∀ ino, Allocated s ino → SFS_BLKN_FREEMAP + mapBlocks v.blocks ≤ ino
  allocs : ∀ given b, Allocs v.freemap given b → ∀ i ∈ given, s.nextIno ≤ i ∧ i < v.blocks

/-- The bits of the map that `close_sfs` wrote. -/
theorem Closed.mapBit_eq {img : Image} (h : Closed s img) (hi : i < SFS_BLKBITS * mapBlocks s.ninos) :
    mapBit img i = decide (s.nextIno ≤ i ∧ i < s.ninos) := by
  have hk : SFS_BLKBITS * (i / SFS_BLKBITS) < s.ninos := by
    change i < 32768 * ((s.ninos + 32768 - 1) / 32768) at hi
    change 32768 * (i / 32768) < s.ninos
    omega
  have hw : WORD_BITS * (i % SFS_BLKBITS / WORD_BITS) + i % WORD_BITS = i % SFS_BLKBITS := by
    change 32 * (i % 32768 / 32) + i % 32 = i % 32768
    omega
  have hword : Bytes.word (img (SFS_BLKN_FREEMAP + i / SFS_BLKBITS)) 4 (4 * (i % SFS_BLKBITS / WORD_BITS)) =
      Bytes.word (freemapBuffer s.ninos s.nextIno (SFS_BLKBITS * (i / SFS_BLKBITS))) 4
        (4 * (i % SFS_BLKBITS / WORD_BITS)) := by
    refine Bytes.word_congr fun j hj => h.map _ hk _ ?_
    change 4 * (i % 32768 / 32) + j < 4096
    omega
  rw [Sfs.mapBit, hword, testBit_freemapBuffer _ _ _ _ (Nat.mod_lt i (by norm_num)) (by
    rw [hw]
    exact Nat.mod_lt i (by norm_num)), hw, Nat.div_add_mod]

/-- The blocks of the image that were not taken. -/
theorem count_free (hle : s.ninos ≤ SFS_BLKBITS * mapBlocks s.ninos) :
    Nat.count (fun i => decide (s.nextIno ≤ i ∧ i < s.ninos) = true) (SFS_BLKBITS * mapBlocks s.ninos) =
      s.ninos - s.nextIno := by
  rw [Nat.count_eq_card_filter_range, ← Nat.card_Ico]
  refine congrArg Finset.card ?_
  ext i
  rw [Finset.mem_filter, Finset.mem_range, Finset.mem_Ico, decide_eq_true_iff]
  exact ⟨And.right, fun h => ⟨h.2.trans_le hle, h⟩⟩

/-- `bitmap_free` sets the bit, if it returns. -/
theorem wpe_bitmapFree_ok (b : Bitmap) (i : ℕ) :
    Act.wpe (Bitmap.bitmapFree i) (fun _ b' => Bitmap.SetTo b i true b') (fun _ _ => True)
      (fun _ => True) b := by
  by_cases hclear : i < b.nbits ∧ b.bit i = false
  · exact Bitmap.wpe_bitmapFree (fun _ => id) hclear.1 hclear.2
  · simp only [Bitmap.bitmapFree, Act.wpe_bind, Act.wpe_get, Act.wpe_demand, Act.wpe_modify]
    refine ⟨fun hi => ⟨fun h0 => absurd ⟨hi, ?_⟩ hclear, fun _ => trivial⟩, fun _ => trivial⟩
    have hno := (Bitmap.and_mask_ne_zero (w := b.map (i / 32)) (Nat.mod_lt i (by norm_num : 0 < 32))).not.mp
      (not_not.mpr h0)
    rwa [Bool.not_eq_true] at hno

/-- What is allocated from a map whose bits are those of some blocks is one of these. -/
theorem Allocs.mem {b₀ b : Bitmap} {given : Finset ℕ} {P : ℕ → Prop} (h : Allocs b₀ given b)
    (hP : ∀ i < 32 * b₀.nwords, b₀.bit i = true → P i) :
    b.nwords = b₀.nwords ∧ (∀ i < 32 * b.nwords, b.bit i = true → P i) ∧ ∀ i ∈ given, P i := by
  induction h with
  | mount => exact ⟨rfl, hP, fun i hi => absurd hi (Finset.notMem_empty i)⟩
  | @alloc given b b' i _ hrun ih =>
    obtain ⟨hwords, hbits, hgiven⟩ := ih
    have hwp := Bitmap.wpe_bitmapAlloc b
    obtain ⟨hi, hbit, hset⟩ := Act.wp_of_ok hwp hrun
    refine ⟨hset.nwords.trans hwords, fun j hj hb => ?_, fun j hj => ?_⟩
    · rw [hset.bit] at hb
      split at hb
      · exact nomatch hb
      · exact hbits j (hset.nwords ▸ hj) hb
    · rcases Finset.mem_insert.mp hj with rfl | hj
      · exact hbits j hi hbit
      · exact hgiven j hj
  | @free given b b' i _ hmem hrun ih =>
    obtain ⟨hwords, hbits, hgiven⟩ := ih
    have hwp := wpe_bitmapFree_ok b i
    have hset := Act.wp_of_ok hwp hrun
    have hset : Bitmap.SetTo b i true b' := hset
    refine ⟨hset.nwords.trans hwords, fun j hj hb => ?_, hgiven⟩
    rw [hset.bit] at hb
    split at hb
    · next heq => exact heq ▸ hgiven i hmem
    · exact hbits j (hset.nwords ▸ hj) hb

/-- **The volume mounted from an image that `close_sfs` wrote.** -/
theorem Closed.wpe_sfsDoMount {dev : Disk} (h : Closed s dev.data) (hs : Ordered s)
    (hdev : s.ninos ≤ dev.blocks) :
    Act.wpe sfsDoMount (fun v _ => Agrees s v) (fun e _ => FaultOf dev e) (fun _ => False) dev := by
  have hfirst : SFS_BLKN_FREEMAP + mapBlocks s.ninos ≤ s.ninos := hs.first.trans hs.next
  have hpos : 0 < s.ninos := lt_of_lt_of_le (Nat.lt_add_right _ (by norm_num)) hfirst
  have hlen : s.ninos ≤ SFS_BLKBITS * mapBlocks s.ninos := by
    change s.ninos ≤ 32768 * ((s.ninos + 32768 - 1) / 32768)
    omega
  have hcount : Nat.count (fun i => mapBit dev.data i = true) (SFS_BLKBITS * mapBlocks s.ninos) =
      s.ninos - s.nextIno := by
    rw [← count_free hlen]
    exact le_antisymm (Nat.count_mono_left fun i hi hb => by rwa [← h.mapBit_eq hi])
      (Nat.count_mono_left fun i hi hb => by rwa [h.mapBit_eq hi])
  refine Act.wpe_mono (Sfs.wpe_sfsDoMount h.magic h.blocks h.unused hpos (hs.max.trans (by norm_num)) hdev
    hfirst hcount) ?_ (fun _ _ => id) fun _ => id
  rintro v - ⟨hblocks, hunused, hnbits, hnwords, hbit⟩
  have hwords : SFS_BLKBITS * mapBlocks s.ninos = 32 * v.freemap.nwords := by
    rw [hnwords]
    change 32768 * mapBlocks s.ninos = 32 * (1024 * mapBlocks s.ninos)
    omega
  have hfree : ∀ i < SFS_BLKBITS * mapBlocks s.ninos,
      v.freemap.bit i = decide (s.nextIno ≤ i ∧ i < s.ninos) := fun i hi => (hbit i hi).trans (h.mapBit_eq hi)
  refine ⟨hblocks, hnbits ▸ hlen, fun i hi => ?_, ?_, fun ino hino => ?_, fun given b hb => ?_⟩
  · have hwp := Bitmap.wpe_bitmapTest (Q := fun r b => r = v.freemap.bit i ∧ b = v.freemap) (R := fun _ _ => False)
      (E := fun _ => False) ⟨rfl, rfl⟩ hi
    obtain ⟨r, b, hrun, hr⟩ := Act.wp_false_iff.mp hwp
    cases r with
    | error e => exact hr.elim
    | ok r =>
      obtain ⟨rfl, rfl⟩ := hr
      rw [hrun, hfree i (hnbits ▸ hi)]
  · rw [hunused, hnbits, ← hcount]
    exact le_antisymm (Nat.count_mono_left fun i hi hb => by rwa [hbit i hi])
      (Nat.count_mono_left fun i hi hb => by rwa [← hbit i hi])
  · rw [hblocks]
    exact hino.1
  · rw [hblocks]
    refine (hb.mem (P := fun i => s.nextIno ≤ i ∧ i < s.ninos) fun i hi hset => ?_).2.2
    rw [hfree i (hwords ▸ hi)] at hset
    exact of_decide_eq_true hset

/-- **The free map of `mksfs` is the kernel's**: `close_sfs` writes an image that mounts wherever it is read
without a fault, with exactly the blocks free that `sfs_alloc_ino` did not return, and `bitmap_alloc`
gives out no others. -/
theorem mksfs_freemap (h : Making stSize s) :
    (∀ ino t, sfsAllocIno s = .ok (ino, t) → Allocated t ino ∧ ino = s.nextIno) ∧
    ∃ t, closeSfs s = .ok ((), t) ∧ ∀ dev : Disk, dev.data = t.img → s.ninos ≤ dev.blocks →
      Act.wpe sfsDoMount (fun v _ => Agrees s v) (fun e _ => FaultOf dev e) (fun _ => False) dev := by
  have hs := h.ordered
  refine ⟨fun ino t hrun => ?_, ?_⟩
  · obtain ⟨hino, -, -, ha, -⟩ := Act.wp_of_ok (wp_sfsAllocIno hs) hrun
    exact ⟨ha, hino⟩
  · obtain ⟨⟨⟩, t, hrun, hclosed⟩ := Act.wp_false_iff.mp hs.wp_closeSfs
    refine ⟨t, hrun, fun dev hdata hdev => ?_⟩
    rw [← hdata] at hclosed
    exact hclosed.wpe_sfsDoMount hs hdev

/-- The state of `mksfs` on an image of one megabyte. -/
def oneMegabyte : Mksfs :=
  ⟨256, 253, 256, 3, [⟨⟨0, SFS_TYPE_DIR, 0, 0, fun _ => 0, 0, 0⟩, 0, SFS_BLKN_ROOT, 0⟩], [], fun _ _ => 0⟩

/-- One block taken of an image of one megabyte. -/
theorem mksfs_freemap_oneBlock : ∃ s, sfsAllocIno oneMegabyte = .ok (3, s) ∧
    ∃ t, closeSfs s = .ok ((), t) ∧ ∀ dev : Disk, dev.data = t.img → s.ninos ≤ dev.blocks →
      Act.wpe sfsDoMount (fun v _ => Agrees s v) (fun e _ => FaultOf dev e) (fun _ => False) dev := by
  have hroot : Making (2 ^ 20) oneMegabyte := .create (fun _ _ => 0) rfl
  obtain ⟨ino, s, hrun, hino⟩ := Act.exists_of_test (m := sfsAllocIno) (s := oneMegabyte)
    (fun ino _ => decide (ino = 3)) (by decide +kernel)
  obtain rfl := of_decide_eq_true hino
  exact ⟨s, hrun, (mksfs_freemap (hroot.alloc hrun)).2⟩

end UCore.Mksfs
