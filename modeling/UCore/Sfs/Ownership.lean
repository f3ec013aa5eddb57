import UCore.Sfs.Inode
import UCore.Sfs.VolumeSpec

/-!
# Sfs/Ownership — every block has one owner

    inode i        the inode block `i` itself
    indirect i     its entry block
    block i k      block `k` of its file, direct or through the entry block

A block in use is held by exactly one of these references, or is `loose`: taken from the free map
and not linked yet.  Linking, unlinking and the two calls on the free map each move one block, and
each keeps `Owned`.
-/

namespace UCore.Sfs

/-- The entry `k` of the entry block `ent`. -/
def entry (v : Volume) (ent k : ℕ) : ℕ := decodeU32 fun j => v.dev.data ent (4 * k + j)

/-- **The block map** of the inode `i`: the block of the volume that holds block `k` of its file,
`0` if there is none. -/
def bmap (v : Volume) (i k : ℕ) : ℕ :=
  if k < 12 then (v.inode i).direct k
  else if (v.inode i).indirect = 0 then 0
  else entry v (v.inode i).indirect (k - 12)

/-- A place that refers to a block. -/
inductive Ref where
  | inode (i : ℕ)
  | indirect (i : ℕ)
  | block (i k : ℕ)
  deriving DecidableEq

/-- The references of the inodes `inos`. -/
def Ref.Valid (inos : Finset ℕ) : Ref → Prop
  | .inode i => i ∈ inos
  | .indirect i => i ∈ inos
  | .block i k => i ∈ inos ∧ k < 1036

/-- The block a reference holds, `0` if none. -/
def refBlock (v : Volume) : Ref → ℕ
  | .inode i => i
  | .indirect i => (v.inode i).indirect
  | .block i k => bmap v i k

/-- The superblock and the blocks of the free map. -/
def Reserved (v : Volume) (b : ℕ) : Prop :=
  b = 0 ∨ 2 ≤ b ∧ b < 2 + roundUpDiv v.blocks (SFS_BLKSIZE * 8)

/-- A block of the volume that is free to be used for files. -/
def FileBlock (v : Volume) (b : ℕ) : Prop := InRange v b ∧ ¬ Reserved v b

/-- **Ownership.**  Among the inodes `inos`, every reference holds a block in use of its own, every
block in use is referred to or `loose`, and `unused_blocks` counts the free ones. -/
structure Owned (inos loose : Finset ℕ) (v : Volume) : Prop where
  fits : Fits v
  mapped : Mapped v
  refs : ∀ r, r.Valid inos → refBlock v r ≠ 0 →
    FileBlock v (refBlock v r) ∧ v.freemap.bit (refBlock v r) = false
  unique : ∀ r r', r.Valid inos → r'.Valid inos → refBlock v r ≠ 0 →
    refBlock v r = refBlock v r' → r = r'
  noLeak : ∀ b, FileBlock v b → v.freemap.bit b = false →
    (∃ r, r.Valid inos ∧ refBlock v r = b) ∨ b ∈ loose
  looseUsed : ∀ b ∈ loose, FileBlock v b ∧ v.freemap.bit b = false
  looseUnheld : ∀ b ∈ loose, ∀ r, r.Valid inos → refBlock v r ≠ b
  free : ∀ b < v.freemap.nbits, v.freemap.bit b = true → FileBlock v b
  count : v.unusedBlocks = freeCount v
  inodes : ∀ i ∈ inos, i ≠ 0

/-! ## Counting the free blocks -/

section Count

variable {v v' : Volume} {b : ℕ}

theorem Taken.freeCount (h : Taken v b v') (hb : b < v.freemap.nbits) :
    freeCount v' + 1 = freeCount v := by
  have hmem : b ∈ (Finset.range v.freemap.nbits).filter (v.freemap.bit ·) :=
    Finset.mem_filter.mpr ⟨Finset.mem_range.mpr hb, h.wasFree⟩
  have herase : (Finset.range v'.freemap.nbits).filter (v'.freemap.bit ·) =
      ((Finset.range v.freemap.nbits).filter (v.freemap.bit ·)).erase b := by
    ext c
    rw [Finset.mem_erase, Finset.mem_filter, Finset.mem_filter, h.freemap.nbits, h.freemap.bit]
    by_cases hcb : c = b <;> simp [hcb]
  rw [Sfs.freeCount, herase, Finset.card_erase_add_one hmem, Sfs.freeCount]

theorem Freed.freeCount (h : Freed v b v') (hb : b < v.freemap.nbits)
    (hused : v.freemap.bit b = false) : freeCount v' = freeCount v + 1 := by
  have hmem : b ∉ (Finset.range v.freemap.nbits).filter (v.freemap.bit ·) := by
    simp [hused]
  have hinsert : (Finset.range v'.freemap.nbits).filter (v'.freemap.bit ·) =
      insert b ((Finset.range v.freemap.nbits).filter (v.freemap.bit ·)) := by
    ext c
    rw [Finset.mem_insert, Finset.mem_filter, Finset.mem_filter, h.freemap.nbits, h.freemap.bit]
    by_cases hcb : c = b
    · simp [hcb, hb]
    · simp [hcb]
  rw [Sfs.freeCount, hinsert, Finset.card_insert_of_notMem hmem, Sfs.freeCount]

end Count

/-! ## References under the steps of a call -/

section Refs

variable {v v' : Volume} {i j k b : ℕ}

theorem entry_congr {ent : ℕ} (hk : k < 1024)
    (h : ∀ j < 4096, v'.dev.data ent j = v.dev.data ent j) : entry v' ent k = entry v ent k :=
  decodeU32_congr fun j hj => h _ (by omega)

/-- The block map depends on the two fields of the inode and on its entry block. -/
theorem bmap_congr (hk : k < 1036) (hdirect : (v'.inode i).direct = (v.inode i).direct)
    (hindirect : (v'.inode i).indirect = (v.inode i).indirect)
    (hdata : (v.inode i).indirect ≠ 0 →
      ∀ j < 4096, v'.dev.data (v.inode i).indirect j = v.dev.data (v.inode i).indirect j) :
    bmap v' i k = bmap v i k := by
  unfold bmap
  rw [hdirect, hindirect]
  split
  · rfl
  · split
    · rfl
    · next h => exact entry_congr (by omega) (hdata h)

end Refs

namespace Owned

variable {inos loose : Finset ℕ} {v v' : Volume} {r : Ref} {b i k : ℕ}

theorem inRange_of_ref (h : Owned inos loose v) (hr : r.Valid inos) (h0 : refBlock v r ≠ 0) :
    InRange v (refBlock v r) := (h.refs r hr h0).1.1

theorem freeInRange (h : Owned inos loose v) :
    ∀ b < v.freemap.nbits, v.freemap.bit b = true → InRange v b :=
  fun b hb hbit => (h.free b hb hbit).1

/-- What the free map and the superblock say is unchanged. -/
structure SameMap (v v' : Volume) : Prop where
  blocks : v'.blocks = v.blocks
  unused : v'.unusedBlocks = v.unusedBlocks
  freemap : v'.freemap = v.freemap
  fault : v'.dev.fault = v.dev.fault
  devBlocks : v'.dev.blocks = v.dev.blocks

theorem SameMap.fileBlock (h : SameMap v v') : FileBlock v' b ↔ FileBlock v b := by
  unfold FileBlock InRange Reserved
  rw [h.blocks]

theorem SameMap.fits (h : SameMap v v') (hv : Fits v) : Fits v' :=
  ⟨by rw [h.blocks, h.devBlocks]; exact hv.mounted, h.devBlocks ▸ hv.small⟩

theorem SameMap.mapped (h : SameMap v v') (hv : Mapped v) : Mapped v' :=
  ⟨h.freemap ▸ hv.words, by rw [h.blocks, h.freemap]; exact hv.covers⟩

theorem SameMap.freeCount (h : SameMap v v') : freeCount v' = freeCount v := by
  rw [Sfs.freeCount, h.freemap, Sfs.freeCount]

/-- **Steps that move no block** keep every owner. -/
theorem frame (h : Owned inos loose v) (hs : SameMap v v')
    (hrefs : ∀ r, r.Valid inos → refBlock v' r = refBlock v r) : Owned inos loose v' := by
  refine ⟨hs.fits h.fits, hs.mapped h.mapped, fun r hr h0 => ?_, fun r r' hr hr' h0 heq => ?_,
    fun b hb hbit => ?_, fun b hb => ?_, fun b hb r hr => ?_, fun b hb hbit => ?_, ?_, h.inodes⟩
  · rw [hrefs r hr] at h0 ⊢
    rw [hs.fileBlock, hs.freemap]
    exact h.refs r hr h0
  · rw [hrefs r hr] at h0 heq
    rw [hrefs r' hr'] at heq
    exact h.unique r r' hr hr' h0 heq
  · rw [hs.fileBlock] at hb
    rw [hs.freemap] at hbit
    refine (h.noLeak b hb hbit).imp_left ?_
    rintro ⟨r, hr, rfl⟩
    exact ⟨r, hr, hrefs r hr⟩
  · rw [hs.fileBlock, hs.freemap]
    exact h.looseUsed b hb
  · rw [hrefs r hr]
    exact h.looseUnheld b hb r hr
  · rw [hs.fileBlock]
    rw [hs.freemap] at hb hbit
    exact h.free b hb hbit
  · rw [hs.unused, hs.freeCount, h.count]

/-- **Linking a loose block** to an empty reference. -/
theorem link (h : Owned inos loose v) (hb : b ∈ loose) (hr : r.Valid inos) (hempty : refBlock v r = 0)
    (hs : SameMap v v') (hself : refBlock v' r = b)
    (hrefs : ∀ r', r'.Valid inos → r' ≠ r → refBlock v' r' = refBlock v r') :
    Owned inos (loose.erase b) v' := by
  obtain ⟨hfile, hbit⟩ := h.looseUsed b hb
  refine ⟨hs.fits h.fits, hs.mapped h.mapped, fun r' hr' h0 => ?_,
    fun r₁ r₂ h₁ h₂ h0 heq => ?_, fun c hc hcbit => ?_, fun c hc => ?_, fun c hc r' hr' => ?_,
    fun c hc hcbit => ?_, ?_, h.inodes⟩
  · rw [hs.fileBlock, hs.freemap]
    rcases eq_or_ne r' r with rfl | hne
    · rw [hself]
      exact ⟨hfile, hbit⟩
    · rw [hrefs r' hr' hne] at h0 ⊢
      exact h.refs r' hr' h0
  · rcases eq_or_ne r₁ r with rfl | hne₁
    · rcases eq_or_ne r₂ r₁ with rfl | hne₂
      · rfl
      · rw [hself, hrefs r₂ h₂ hne₂] at heq
        exact absurd heq.symm (h.looseUnheld b hb r₂ h₂)
    · rw [hrefs r₁ h₁ hne₁] at h0 heq
      rcases eq_or_ne r₂ r with rfl | hne₂
      · rw [hself] at heq
        exact absurd heq (h.looseUnheld b hb r₁ h₁)
      · rw [hrefs r₂ h₂ hne₂] at heq
        exact h.unique r₁ r₂ h₁ h₂ h0 heq
  · rw [hs.fileBlock] at hc
    rw [hs.freemap] at hcbit
    rcases eq_or_ne c b with rfl | hcb
    · exact .inl ⟨r, hr, hself⟩
    · rcases h.noLeak c hc hcbit with ⟨r', hr', rfl⟩ | hloose
      · have hne : r' ≠ r := by
          rintro rfl
          exact hc.1.1 hempty
        exact .inl ⟨r', hr', hrefs r' hr' hne⟩
      · exact .inr (Finset.mem_erase.mpr ⟨hcb, hloose⟩)
  · rw [hs.fileBlock, hs.freemap]
    exact h.looseUsed c (Finset.mem_of_mem_erase hc)
  · obtain ⟨hcb, hcl⟩ := Finset.mem_erase.mp hc
    rcases eq_or_ne r' r with rfl | hne
    · rw [hself]
      exact hcb.symm
    · rw [hrefs r' hr' hne]
      exact h.looseUnheld c hcl r' hr'
  · rw [hs.fileBlock]
    rw [hs.freemap] at hc hcbit
    exact h.free c hc hcbit
  · rw [hs.unused, hs.freeCount, h.count]

/-- **Unlinking** leaves the block loose. -/
theorem unlink (h : Owned inos loose v) (hr : r.Valid inos) (hheld : refBlock v r ≠ 0)
    (hs : SameMap v v') (hself : refBlock v' r = 0)
    (hrefs : ∀ r', r'.Valid inos → r' ≠ r → refBlock v' r' = refBlock v r') :
    Owned inos (insert (refBlock v r) loose) v' := by
  refine ⟨hs.fits h.fits, hs.mapped h.mapped, fun r' hr' h0 => ?_,
    fun r₁ r₂ h₁ h₂ h0 heq => ?_, fun c hc hcbit => ?_, fun c hc => ?_, fun c hc r' hr' => ?_,
    fun c hc hcbit => ?_, ?_, h.inodes⟩
  · rw [hs.fileBlock, hs.freemap]
    rcases eq_or_ne r' r with rfl | hne
    · exact absurd hself h0
    · rw [hrefs r' hr' hne] at h0 ⊢
      exact h.refs r' hr' h0
  · have hne₁ : r₁ ≠ r := fun hr₁ => h0 (hr₁ ▸ hself)
    have hne₂ : r₂ ≠ r := fun hr₂ => h0 (heq.trans (hr₂ ▸ hself))
    rw [hrefs r₁ h₁ hne₁] at h0 heq
    rw [hrefs r₂ h₂ hne₂] at heq
    exact h.unique r₁ r₂ h₁ h₂ h0 heq
  · rw [hs.fileBlock] at hc
    rw [hs.freemap] at hcbit
    rcases h.noLeak c hc hcbit with ⟨r', hr', rfl⟩ | hloose
    · rcases eq_or_ne r' r with rfl | hne
      · exact .inr (Finset.mem_insert_self ..)
      · exact .inl ⟨r', hr', hrefs r' hr' hne⟩
    · exact .inr (Finset.mem_insert_of_mem hloose)
  · rw [hs.fileBlock, hs.freemap]
    rcases Finset.mem_insert.mp hc with rfl | hc
    · exact h.refs r hr hheld
    · exact h.looseUsed c hc
  · rcases eq_or_ne r' r with rfl | hne
    · rw [hself]
      rcases Finset.mem_insert.mp hc with rfl | hc
      · exact hheld.symm
      · exact (h.looseUsed c hc).1.1.1.symm
    · rw [hrefs r' hr' hne]
      rcases Finset.mem_insert.mp hc with rfl | hc
      · intro heq
        have h0 : refBlock v r' ≠ 0 := heq ▸ hheld
        exact hne (h.unique r' r hr' hr h0 heq)
      · exact h.looseUnheld c hc r' hr'
  · rw [hs.fileBlock]
    rw [hs.freemap] at hc hcbit
    exact h.free c hc hcbit
  · rw [hs.unused, hs.freeCount, h.count]

/-! ## The two calls on the free map -/

/-- A block that is not in use is no one's. -/
theorem ne_of_free (h : Owned inos loose v) (hfree : v.freemap.bit b = true) (hr : r.Valid inos)
    (h0 : refBlock v r ≠ 0) : refBlock v r ≠ b := by
  rintro rfl
  rw [(h.refs r hr h0).2] at hfree
  exact absurd hfree (by simp)

/-- Taking a block from the free map changes no reference. -/
theorem refs_alloc (h : Owned inos loose v) (ha : Taken v b v') (hr : r.Valid inos) :
    refBlock v' r = refBlock v r := by
  cases r with
  | inode i => rfl
  | indirect i => exact congrArg (fun f => (f i).indirect) ha.inode
  | block i k =>
    refine bmap_congr hr.2 (by rw [ha.inode]) (by rw [ha.inode]) fun h0 j _ => ?_
    have hne : (v.inode i).indirect ≠ b :=
      h.ne_of_free ha.wasFree (show (Ref.indirect i).Valid inos from hr.1) h0
    rw [ha.data _ hne]

/-- **`sfs_block_alloc`** makes a loose block. -/
theorem alloc (h : Owned inos loose v) (ha : Taken v b v') :
    Owned inos (insert b loose) v' := by
  have hnb : b < v.freemap.nbits := ha.range.2.trans_le h.mapped.covers
  have hfile : ∀ c, FileBlock v' c ↔ FileBlock v c := fun c => by
    unfold FileBlock InRange Reserved
    rw [ha.blocks]
  have hbit : ∀ c, c ≠ b → v'.freemap.bit c = v.freemap.bit c := fun c hc => by
    rw [ha.freemap.bit, if_neg hc]
  have hself : v'.freemap.bit b = false := by rw [ha.freemap.bit, if_pos rfl]
  have hheld : ∀ r, r.Valid inos → refBlock v r ≠ b := fun r hr hrb =>
    h.ne_of_free ha.wasFree hr (hrb ▸ ha.range.1) hrb
  refine ⟨⟨by rw [ha.blocks, ha.devBlocks]; exact h.fits.mounted, ha.devBlocks ▸ h.fits.small⟩,
    ⟨by rw [ha.freemap.nbits, ha.freemap.nwords]; exact h.mapped.words,
      by rw [ha.blocks, ha.freemap.nbits]; exact h.mapped.covers⟩,
    fun r hr h0 => ?_, fun r r' hr hr' h0 heq => ?_, fun c hc hcbit => ?_, fun c hc => ?_,
    fun c hc r hr => ?_, fun c hc hcbit => ?_, ?_, h.inodes⟩
  · rw [h.refs_alloc ha hr] at h0 ⊢
    rw [hfile, hbit _ (hheld r hr)]
    exact h.refs r hr h0
  · rw [h.refs_alloc ha hr] at h0 heq
    rw [h.refs_alloc ha hr'] at heq
    exact h.unique r r' hr hr' h0 heq
  · rcases eq_or_ne c b with rfl | hcb
    · exact .inr (Finset.mem_insert_self ..)
    · rw [hbit c hcb] at hcbit
      rcases h.noLeak c ((hfile c).mp hc) hcbit with ⟨r, hr, rfl⟩ | hloose
      · exact .inl ⟨r, hr, h.refs_alloc ha hr⟩
      · exact .inr (Finset.mem_insert_of_mem hloose)
  · rw [hfile]
    rcases eq_or_ne c b with rfl | hcb
    · exact ⟨h.free c hnb ha.wasFree, hself⟩
    · rw [hbit c hcb]
      exact h.looseUsed c ((Finset.mem_insert.mp hc).resolve_left hcb)
  · rw [h.refs_alloc ha hr]
    rcases Finset.mem_insert.mp hc with rfl | hc
    · exact hheld r hr
    · exact h.looseUnheld c hc r hr
  · rw [ha.freemap.nbits] at hc
    rcases eq_or_ne c b with rfl | hcb
    · rw [hself] at hcbit
      exact absurd hcbit (by simp)
    · rw [hbit c hcb] at hcbit
      exact (hfile c).mpr (h.free c hc hcbit)
  · have := ha.unused
    have := ha.freeCount hnb
    have := h.count
    omega

/-- **`sfs_block_free`** of a loose block makes it free. -/
theorem dealloc (h : Owned inos loose v) (hb : b ∈ loose) (hf : Freed v b v') :
    Owned inos (loose.erase b) v' := by
  obtain ⟨hbfile, hbused⟩ := h.looseUsed b hb
  have hnb : b < v.freemap.nbits := hbfile.1.2.trans_le h.mapped.covers
  have hrefs : ∀ r, refBlock v' r = refBlock v r := fun r => by
    cases r <;> simp only [refBlock, bmap, entry, hf.inode, hf.dev]
  have hfile : ∀ c, FileBlock v' c ↔ FileBlock v c := fun c => by
    unfold FileBlock InRange Reserved
    rw [hf.blocks]
  have hbit : ∀ c, c ≠ b → v'.freemap.bit c = v.freemap.bit c := fun c hc => by
    rw [hf.freemap.bit, if_neg hc]
  have hself : v'.freemap.bit b = true := by rw [hf.freemap.bit, if_pos rfl]
  refine ⟨⟨by rw [hf.blocks, hf.dev]; exact h.fits.mounted, hf.dev ▸ h.fits.small⟩,
    ⟨by rw [hf.freemap.nbits, hf.freemap.nwords]; exact h.mapped.words,
      by rw [hf.blocks, hf.freemap.nbits]; exact h.mapped.covers⟩,
    fun r hr h0 => ?_, fun r r' hr hr' h0 heq => ?_, fun c hc hcbit => ?_, fun c hc => ?_,
    fun c hc r hr => ?_, fun c hc hcbit => ?_, ?_, h.inodes⟩
  · rw [hrefs] at h0 ⊢
    rw [hfile, hbit _ (h.looseUnheld b hb r hr)]
    exact h.refs r hr h0
  · rw [hrefs] at h0 heq
    rw [hrefs] at heq
    exact h.unique r r' hr hr' h0 heq
  · have hcb : c ≠ b := by
      rintro rfl
      rw [hself] at hcbit
      exact absurd hcbit (by simp)
    rw [hbit c hcb] at hcbit
    rcases h.noLeak c ((hfile c).mp hc) hcbit with ⟨r, hr, rfl⟩ | hloose
    · exact .inl ⟨r, hr, hrefs r⟩
    · exact .inr (Finset.mem_erase.mpr ⟨hcb, hloose⟩)
  · obtain ⟨hcb, hcl⟩ := Finset.mem_erase.mp hc
    rw [hfile, hbit c hcb]
    exact h.looseUsed c hcl
  · rw [hrefs]
    exact h.looseUnheld c (Finset.mem_of_mem_erase hc) r hr
  · rw [hf.freemap.nbits] at hc
    rw [hfile]
    rcases eq_or_ne c b with rfl | hcb
    · exact hbfile
    · rw [hbit c hcb] at hcbit
      exact h.free c hc hcbit
  · have := hf.unused
    have := hf.freeCount hnb hbused
    have := h.count
    omega

/-! ## The calls themselves -/

/-- **`sfs_block_alloc`** takes a free block, or reports that there is none. -/
theorem wpe_alloc {Q : ℕ → Volume → Prop} {R : ℤ → Volume → Prop} {E : Assertion → Prop}
    (h : Owned inos loose v) (hQ : ∀ b v', Allocated v b v' → Q b v')
    (hR : v.unusedBlocks = 0 → R (-E_NO_MEM) v)
    (hF : ∀ e < 0, ∀ b v', Faulty v → Taken v b v' → R e v') : Act.wpe sfsBlockAlloc Q R E v :=
  wpe_sfsBlockAlloc h.fits h.mapped h.freeInRange h.count hQ (fun h0 => hR (h.count.trans h0)) hF

/-- **`sfs_block_free`** of a block in use. -/
theorem wpe_free {Q : Unit → Volume → Prop} {R : ℤ → Volume → Prop} {E : Assertion → Prop}
    (h : Owned inos loose v) (hb : InRange v b) (hused : v.freemap.bit b = false)
    (hQ : ∀ v', Freed v b v' → Q () v') : Act.wpe (sfsBlockFree b) Q R E v :=
  wpe_sfsBlockFree h.mapped.covers hb hused hQ

end Owned

end UCore.Sfs
