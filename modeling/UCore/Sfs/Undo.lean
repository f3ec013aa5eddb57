import UCore.Sfs.Fresh

/-!
# Sfs/Undo — what a failed `sfs_bmap_load_nolock` leaves

A new block costs up to two allocations, and each allocation is a block taken from the free map and a
`sfs_clear_block`:

    bitmap_alloc ── unused_blocks -- ── sfs_clear_block ──▸ linked
                                            ╰─ fails ──▸ taken, and linked nowhere

`sfs_block_free` undoes what comes after a successful allocation; nothing undoes the allocation whose
clearing failed.
-/

namespace UCore.Sfs

variable {inos loose : Finset ℕ} {v w w' : Volume} {b e i k t : ℕ} {T : Finset ℕ}

/-! ## Blocks that are taken -/

/-- **The volume `v` with the blocks `T` taken**, `t` transfers later. -/
structure Pending (v : Volume) (T : Finset ℕ) (t : ℕ) (w : Volume) : Prop where
  fits : Fits w
  mapped : Mapped w
  free : ∀ b < w.freemap.nbits, w.freemap.bit b = true → InRange w b
  count : w.unusedBlocks = freeCount w
  bits : ∀ b, w.freemap.bit b = (v.freemap.bit b && decide (b ∉ T))
  taken : ∀ b ∈ T, v.freemap.bit b = true ∧ InRange w b
  unused : w.unusedBlocks + T.card = v.unusedBlocks
  fault : w.dev.fault = v.dev.fault
  transfers : w.dev.transfers = v.dev.transfers + t

namespace Pending

theorem refl (h : Owned inos loose v) : Pending v ∅ 0 v :=
  ⟨h.fits, h.mapped, h.freeInRange, h.count, fun b => by simp, fun b hb => absurd hb (Finset.notMem_empty b),
    by simp, rfl, rfl⟩

/-- The same transfer fails. -/
theorem fails (h : Pending v T t w) : FailsAfter w 0 ↔ FailsAfter v t := by
  unfold FailsAfter
  rw [h.fault, h.transfers, Nat.add_zero]

/-- `n` transfers, and nothing that the free map and the superblock say. -/
theorem move {n : ℕ} (h : Pending v T t w) (hs : Owned.SameMap w w')
    (htransfers : w'.dev.transfers = w.dev.transfers + n) : Pending v T (t + n) w' := by
  have hrange : ∀ {b}, InRange w b → InRange w' b := fun hb => ⟨hb.1, hs.blocks ▸ hb.2⟩
  refine ⟨hs.fits h.fits, hs.mapped h.mapped, fun b hb hbit => ?_, ?_, fun b => ?_,
    fun b hb => ⟨(h.taken b hb).1, hrange (h.taken b hb).2⟩, ?_, hs.fault.trans h.fault,
    by rw [htransfers, h.transfers, Nat.add_assoc]⟩
  · rw [hs.freemap] at hb hbit
    exact hrange (h.free b hb hbit)
  · rw [hs.unused, hs.freeCount, h.count]
  · rw [hs.freemap, h.bits]
  · rw [hs.unused, h.unused]

theorem tick (h : Pending v T t w) : Pending v T (t + 1) w.tick := h.move ⟨rfl, rfl, rfl, rfl, rfl⟩ rfl

theorem put (h : Pending v T t w) {buf : ℕ → UInt8} : Pending v T (t + 1) (w.put b buf) :=
  h.move ⟨rfl, rfl, rfl, rfl, rfl⟩ rfl

theorem setInode (h : Pending v T t w) {f : SfsInode → SfsInode} : Pending v T t (w.setInode i f) :=
  h.move (n := 0) ⟨rfl, rfl, rfl, rfl, rfl⟩ rfl

/-- **Another block is taken.** -/
theorem take (h : Pending v T t w) (ht : Taken w b w')
    (htransfers : w'.dev.transfers = w.dev.transfers + 1) :
    b ∉ T ∧ Pending v (insert b T) (t + 1) w' := by
  have hbit := h.bits b
  rw [ht.wasFree] at hbit
  have hb : v.freemap.bit b = true ∧ b ∉ T := by simpa using hbit.symm
  have hnb : b < w.freemap.nbits := ht.range.2.trans_le h.mapped.covers
  have hrange : ∀ {c}, InRange w c → InRange w' c := fun hc => ⟨hc.1, ht.blocks ▸ hc.2⟩
  have hother : ∀ c, w'.freemap.bit c = if c = b then false else w.freemap.bit c := ht.freemap.bit
  refine ⟨hb.2, ⟨by rw [ht.blocks, ht.devBlocks]; exact h.fits.mounted, ht.devBlocks ▸ h.fits.small⟩,
    ⟨by rw [ht.freemap.nbits, ht.freemap.nwords]; exact h.mapped.words,
      by rw [ht.blocks, ht.freemap.nbits]; exact h.mapped.covers⟩,
    fun c hc hcbit => ?_, ?_, fun c => ?_, fun c hc => ?_, ?_,
    ht.fault.trans h.fault, by rw [htransfers, h.transfers, Nat.add_assoc]⟩
  · rw [ht.freemap.nbits] at hc
    rw [hother] at hcbit
    refine hrange (h.free c hc ?_)
    split at hcbit
    · exact absurd hcbit (by simp)
    · exact hcbit
  · have := ht.unused
    have := ht.freeCount hnb
    have := h.count
    omega
  · rw [hother, h.bits]
    by_cases hcb : c = b
    · simp [hcb]
    · simp [hcb]
  · rcases Finset.mem_insert.mp hc with rfl | hc
    · exact ⟨hb.1, hrange ht.range⟩
    · exact ⟨(h.taken c hc).1, hrange (h.taken c hc).2⟩
  · rw [Finset.card_insert_of_notMem hb.2]
    have := ht.unused
    have := h.unused
    omega

/-- **A block that was taken is given back.** -/
theorem give (h : Pending v T t w) (hb : b ∈ T) (hf : Freed w b w') : Pending v (T.erase b) t w' := by
  have hused : w.freemap.bit b = false := by
    rw [h.bits]
    simp [hb]
  have hnb : b < w.freemap.nbits := (h.taken b hb).2.2.trans_le h.mapped.covers
  have hrange : ∀ {c}, InRange w c → InRange w' c := fun hc => ⟨hc.1, hf.blocks ▸ hc.2⟩
  refine ⟨⟨by rw [hf.blocks, hf.dev]; exact h.fits.mounted, hf.dev ▸ h.fits.small⟩,
    ⟨by rw [hf.freemap.nbits, hf.freemap.nwords]; exact h.mapped.words,
      by rw [hf.blocks, hf.freemap.nbits]; exact h.mapped.covers⟩,
    fun c hc hcbit => ?_, ?_, fun c => ?_, fun c hc => ?_, ?_,
    by rw [hf.dev, h.fault], by rw [hf.dev, h.transfers]⟩
  · rw [hf.freemap.nbits] at hc
    rw [hf.freemap.bit] at hcbit
    split at hcbit
    · next heq => exact hrange (heq ▸ (h.taken b hb).2)
    · exact hrange (h.free c hc hcbit)
  · have := hf.unused
    have := hf.freeCount hnb hused
    have := h.count
    omega
  · rw [hf.freemap.bit, h.bits]
    by_cases hcb : c = b
    · subst hcb
      simp [(h.taken c hb).1]
    · simp [hcb]
  · have hc := Finset.mem_of_mem_erase hc
    exact ⟨(h.taken c hc).1, hrange (h.taken c hc).2⟩
  · have hcard := Finset.card_erase_add_one hb
    have := hf.unused
    have := h.unused
    omega

variable {Q : ℕ → Volume → Prop} {R : ℤ → Volume → Prop} {E : Assertion → Prop}

/-- **With `n` blocks taken there is another to take, and clearing it fails**, after `t` transfers. -/
def ClearFails (v : Volume) (n t : ℕ) : Prop := n < v.unusedBlocks ∧ FailsAfter v t

instance {n : ℕ} : Decidable (ClearFails v n t) := inferInstanceAs (Decidable (_ ∧ _))

/-- **`sfs_block_alloc`**: it takes a block, or there is none; and where clearing it fails, the block
stays taken. -/
theorem wpe_alloc (h : Pending v T t w)
    (hQ : ∀ b w', ¬ FailsAfter v t → b ∉ T → Allocated w b w' → Pending v (insert b T) (t + 1) w' → Q b w')
    (hR : v.unusedBlocks = T.card → R (-E_NO_MEM) w)
    (hF : ∀ e < 0, ∀ b w', ClearFails v T.card t → b ∉ T → Pending v (insert b T) (t + 1) w' → R e w') :
    Act.wpe sfsBlockAlloc Q R E w := by
  have hunused := h.unused
  refine wpe_blockAlloc h.fits h.mapped h.free h.count (fun hf b w' ha ht => ?_) (fun h0 => hR ?_)
    fun e he hf b w' ha ht => ?_
  · obtain ⟨hb, hp⟩ := h.take ha.toTaken ht
    exact hQ b w' (mt h.fails.mpr hf) hb ha hp
  · have := h.count
    omega
  · obtain ⟨hb, hp⟩ := h.take ha ht
    have := ha.unused
    exact hF e he b w' ⟨by omega, h.fails.mp hf⟩ hb hp

/-- **`sfs_block_free`** of a block that was taken. -/
theorem wpe_free {Q : Unit → Volume → Prop} (h : Pending v T t w) (hb : b ∈ T)
    (hQ : ∀ w', Pending v (T.erase b) t w' → Q () w') : Act.wpe (sfsBlockFree b) Q R E w := by
  have hused : w.freemap.bit b = false := by
    rw [h.bits]
    simp [hb]
  exact wpe_sfsBlockFree h.mapped.covers (h.taken b hb).2 hused fun w' hf => hQ w' (h.give hb hf)

/-- The blocks that a failed `addEntry` leaves taken: one more, if it was clearing it that failed. -/
def Left (v : Volume) (T : Finset ℕ) (t : ℕ) (T' : Finset ℕ) : Prop :=
  T' = T ∧ ¬ ClearFails v T.card t ∨ (∃ b, b ∉ T ∧ T' = insert b T) ∧ ClearFails v T.card t

/-- **The end of `sfs_bmap_get_sub_nolock`.** -/
theorem wpe_addEntry {Q : ℕ × ℕ → Volume → Prop} {entp ent : ℕ} (h : Pending v T t w)
    (hent : InRange w ent) (hk : k < 1024)
    (hQ : ∀ b t' w', ¬ ClearFails v T.card t → Pending v (insert b T) t' w' → w'.inode = w.inode →
      Q (ent, b) w')
    (hR : ∀ e < 0, ∀ T' t' w', Left v T t T' → Pending v T' t' w' →
      Act.wpe (if ent ≠ entp then sfsBlockFree ent else pure ()) (fun _ => R e) R E w') :
    Act.wpe (addEntry entp ent (k * 4)) Q R E w := by
  rw [addEntry, Act.wpe_onError, Act.wpe_bind]
  refine h.wpe_alloc (fun b w₁ hf hb ha hp => ?_)
    (fun hnone => hR _ (by decide) T t w (.inl ⟨rfl, fun hc => hc.1.ne' hnone⟩) h)
    fun e he b w₁ hc hb hp => hR e he _ _ w₁ (.inr ⟨⟨b, hb, rfl⟩, hc⟩) hp
  have hno : ¬ ClearFails v T.card t := fun hc => hf hc.2
  have hent₁ : InRange w₁ ent := ⟨hent.1, ha.blocks ▸ hent.2⟩
  -- a transfer that fails now: the block is given back
  have hundo : ∀ e < 0, ∀ t' w₂, Pending v (insert b T) t' w₂ →
      Act.wpe (sfsBlockFree b) (fun _ s => Act.wpe (if ent ≠ entp then sfsBlockFree ent else pure ())
        (fun _ => R e) R E s) (fun e s => Act.wpe (if ent ≠ entp then sfsBlockFree ent else pure ())
        (fun _ => R e) R E s) E w₂ := fun e he t' w₂ hp₂ => by
    refine hp₂.wpe_free (Finset.mem_insert_self b T) fun w₃ hp₃ => ?_
    rw [Finset.erase_insert hb] at hp₃
    exact hR e he T t' w₃ (.inl ⟨rfl, hno⟩) hp₃
  rw [Act.wpe_bind, Act.wpe_onError]
  exact wpe_sfsWbuf hp.fits hent₁ (by omega) (by omega) (hQ b _ _ hno hp.tick.put ha.inode)
    fun e he _ => ⟨hundo e he _ _ hp.tick, hundo e he _ _ hp.tick.tick⟩

end Pending

open Pending (ClearFails)

/-- **The call leaves a block taken**: a new place is wanted, and one of the `sfs_clear_block` that are
made for it fails. -/
def Leaks (v : Volume) (i k : ℕ) : Prop :=
  bmap v i k = 0 ∧
    if k < 12 then ClearFails v 0 0
    else if (v.inode i).indirect = 0 then ClearFails v 0 0 ∨ ¬ FailsAfter v 0 ∧ ClearFails v 1 1
    else ¬ FailsAfter v 0 ∧ ClearFails v 0 1

/-- The blocks that are new in the file `i`, with `b` at the place `k`. -/
def fresh (v : Volume) (i k b : ℕ) (w : Volume) : Finset ℕ :=
  if bmap v i k = 0 then
    if (v.inode i).indirect = (w.inode i).indirect then {b} else {b, (w.inode i).indirect}
  else ∅

/-- What a call that succeeds leaves: the new blocks are taken, and no others. -/
structure Linked (v : Volume) (i k b : ℕ) (w : Volume) : Prop where
  sound : ¬ Leaks v i k
  indirect : (w.inode i).indirect ≠ (v.inode i).indirect → (v.inode i).indirect = 0 ∧ 12 ≤ k
  pending : ∃ t, Pending v (fresh v i k b w) t w

/-- A store to the inode that is not to its entry block. -/
theorem Linked.setInode {f : SfsInode → SfsInode} (h : Linked v i k b w)
    (hf : (f (w.inode i)).indirect = (w.inode i).indirect) : Linked v i k b (w.setInode i f) := by
  obtain ⟨t, hp⟩ := h.pending
  refine ⟨h.sound, ?_, t, ?_⟩
  · rw [setInode_self, hf]
    exact h.indirect
  · unfold fresh at hp ⊢
    rw [setInode_self, hf]
    exact hp.setInode

/-- What a failed call leaves: blocks are taken if and only if `Leaks`. -/
def Ends (v : Volume) (i k : ℕ) (w : Volume) : Prop :=
  ∃ T t, Pending v T t w ∧ (T = ∅ ↔ ¬ Leaks v i k)

section Calls

variable {Q : ℕ → Volume → Prop} {R : ℤ → Volume → Prop}

/-- The direct half. -/
theorem wpe_getDirect_leaks (h : Owned inos loose v) (hk : k < 12) :
    Act.wpe (getDirect i k true) (Linked v i k) (fun _ => Ends v i k) (fun _ => True) v := by
  have hmap : (v.inode i).direct k = bmap v i k := (if_pos hk).symm
  have hleaks : bmap v i k = 0 → (Leaks v i k ↔ ClearFails v 0 0) := fun hempty => by
    rw [Leaks, if_pos hk]
    exact and_iff_right hempty
  have hp := Pending.refl h
  simp only [getDirect, Act.wpe_bind, Act.wpe_get, hmap]
  rw [Act.wpe_ite]
  refine ⟨fun hmake => ?_, fun hold => ?_⟩
  · have hempty := hmake.1
    rw [Act.wpe_bind]
    refine hp.wpe_alloc (fun b w hf _ ha hp' => ?_) (fun hnone => ⟨∅, 0, hp, ?_⟩)
      fun e _ b w hc _ hp' => ⟨_, _, hp', ?_⟩
    · simp only [Act.wpe_bind, Sfs.setInode, Act.wpe_modify, Act.wpe_pure]
      have hl : Linked v i k b w := by
        refine ⟨fun hl => hf ((hleaks hempty).mp hl).2, ?_, 0 + 1, ?_⟩
        · rw [ha.inode]
          exact fun hne => absurd rfl hne
        · rwa [fresh, if_pos hempty, ha.inode, if_pos rfl, ← Finset.insert_empty]
      exact hl.setInode rfl
    · exact iff_of_true rfl fun hl => ((hleaks hempty).mp hl).1.ne' hnone
    · exact iff_of_false (Finset.insert_ne_empty b ∅) (not_not.mpr ((hleaks hempty).mpr hc))
  · rw [Act.wpe_pure]
    have hne : bmap v i k ≠ 0 := fun hempty => hold ⟨hempty, trivial⟩
    refine ⟨fun hl => hne hl.1, fun hno => absurd rfl hno, 0, ?_⟩
    rwa [fresh, if_neg hne]

/-- The indirect half, where there is no entry block: one is taken, and given back on failure. -/
theorem wpe_newIndirect_leaks (h : Owned inos loose v) (hk : k < 1024) (h0 : (v.inode i).indirect = 0) :
    Act.wpe (getIndirect i k true) (Linked v i (12 + k)) (fun _ => Ends v i (12 + k))
      (fun _ => True) v := by
  have hempty : bmap v i (12 + k) = 0 := by rw [bmap, if_neg (by omega), if_pos h0]
  have hleaks : Leaks v i (12 + k) ↔ ClearFails v 0 0 ∨ ¬ FailsAfter v 0 ∧ ClearFails v 1 1 := by
    rw [Leaks, if_neg (by omega), if_pos h0]
    exact and_iff_right hempty
  have hp := Pending.refl h
  simp only [getIndirect, sfsBmapGetSubNolock, Act.wpe_bind, Act.wpe_get, Act.wpe_demand]
  refine ⟨fun _ => ?_, fun _ => trivial⟩
  rw [if_neg (not_not.mpr h0), if_neg (by simp), Act.wpe_bind]
  refine hp.wpe_alloc (fun ent v₁ hf hent ha hp₁ => ?_) (fun hnone => ⟨∅, 0, hp, iff_of_true rfl fun hl => ?_⟩)
    fun e _ b w hc _ hp' => ⟨_, _, hp', iff_of_false (Finset.insert_ne_empty b ∅) ?_⟩
  · have hent0 : ent ≠ (v.inode i).indirect := h0 ▸ ha.range.1
    have hrange : InRange v₁ ent := ⟨ha.range.1, ha.blocks ▸ ha.range.2⟩
    rw [Finset.insert_empty] at hp₁
    have hnone : ¬ ClearFails v 1 1 → ¬ Leaks v i (12 + k) := fun hno hl =>
      (hleaks.mp hl).elim (fun hc => hf hc.2) fun hc => hno hc.2
    refine hp₁.wpe_addEntry hrange hk (fun b t' w hno hp₂ hinode => ?_) fun e _ T' t' w hleft hp' => ?_
    · have hinode : w.inode = v.inode := hinode.trans ha.inode
      rw [hinode, if_pos hent0]
      simp only [Act.wpe_bind, Act.wpe_get, Act.wpe_demand, Sfs.setInode, Act.wpe_modify, Act.wpe_pure]
      refine ⟨fun _ => ⟨hnone hno, fun _ => ⟨h0, by omega⟩, t', ?_⟩, fun _ => trivial⟩
      rw [fresh, if_pos hempty, setInode_self, if_neg hent0.symm]
      exact hp₂.setInode
    · -- the new entry block is given back
      rw [if_pos hent0]
      rcases hleft with ⟨rfl, hno⟩ | ⟨⟨b, hb, rfl⟩, hc⟩
      · refine hp'.wpe_free (Finset.mem_singleton_self ent) fun w' hp'' => ⟨_, _, hp'', ?_⟩
        exact iff_of_true (Finset.erase_singleton ent) (hnone hno)
      · refine hp'.wpe_free (by simp) fun w' hp'' => ⟨_, _, hp'', ?_⟩
        refine iff_of_false (Finset.nonempty_iff_ne_empty.mp ⟨b, ?_⟩)
          (not_not.mpr (hleaks.mpr (.inr ⟨hf, hc⟩)))
        simpa using hb
  · obtain hc | ⟨-, hc⟩ := hleaks.mp hl
    · exact hc.1.ne' hnone
    · exact absurd hc.1 (by rw [hnone]; exact Nat.not_lt_zero 1)
  · exact not_not.mpr (hleaks.mpr (.inl hc))

/-- …and where there is one: the entry is read first. -/
theorem wpe_oldIndirect_leaks (h : Owned inos loose v) (hi : i ∈ inos) (hk : k < 1024)
    (h0 : (v.inode i).indirect ≠ 0) :
    Act.wpe (getIndirect i k true) (Linked v i (12 + k)) (fun _ => Ends v i (12 + k))
      (fun _ => True) v := by
  have hrange : InRange v (v.inode i).indirect := h.inRange_of_ref (r := .indirect i) hi h0
  have hleaks : Leaks v i (12 + k) ↔ bmap v i (12 + k) = 0 ∧ ¬ FailsAfter v 0 ∧ ClearFails v 0 1 := by
    rw [Leaks, if_neg (by omega), if_neg h0]
  have hread : decodeU32 (fun x => v.dev.data (v.inode i).indirect (k * 4 + x)) =
      bmap v i (12 + k) := by
    rw [bmap, if_neg (by omega), if_neg h0, Nat.add_sub_cancel_left, entry, Nat.mul_comm]
  have hp := (Pending.refl h).tick
  simp only [getIndirect, sfsBmapGetSubNolock, Act.wpe_bind, Act.wpe_get, Act.wpe_demand]
  refine ⟨fun _ => ?_, fun _ => trivial⟩
  rw [if_pos h0, Act.wpe_bind]
  refine wpe_rbuf h.fits hrange (by omega) (by omega) (fun hf => ?_)
    fun e _ hf => ⟨∅, _, hp, iff_of_true rfl fun hl => (hleaks.mp hl).2.1 hf⟩
  rw [hread, Act.wpe_ite]
  refine ⟨fun hold => ?_, fun hnew => ?_⟩
  · rw [Act.wpe_pure, tick_inode, if_neg (not_not.mpr rfl), Act.wpe_pure]
    have hne : bmap v i (12 + k) ≠ 0 := hold.resolve_right (by simp)
    refine ⟨fun hl => hne hl.1, fun hno => absurd rfl hno, 0 + 1, ?_⟩
    rwa [fresh, if_neg hne]
  · push Not at hnew
    refine hp.wpe_addEntry hrange hk (fun b t' w hno hp₂ hinode => ?_) fun e _ T' t' w hleft hp' => ?_
    · have hinode : w.inode = v.inode := hinode
      rw [hinode, if_neg (not_not.mpr rfl), Act.wpe_pure]
      refine ⟨fun hl => hno (hleaks.mp hl).2.2, fun hne => absurd (by rw [hinode]) hne, t', ?_⟩
      rwa [fresh, if_pos hnew.1, hinode, if_pos rfl, ← Finset.insert_empty]
    · rw [if_neg (not_not.mpr rfl), Act.wpe_pure]
      refine ⟨T', t', hp', ?_⟩
      rcases hleft with ⟨rfl, hno⟩ | ⟨⟨b, -, rfl⟩, hc⟩
      · exact iff_of_true rfl fun hl => hno (hleaks.mp hl).2.2
      · exact iff_of_false (Finset.insert_ne_empty b ∅) (not_not.mpr (hleaks.mpr ⟨hnew.1, hf, hc⟩))

/-- A test of a block, on its way to an assertion. -/
theorem wpe_inuse {Q : Bool → Volume → Prop} (hQ : ∀ r, Q r w) :
    Act.wpe (sfsBlockInuse b) Q R (fun _ => True) w := by
  simp only [sfsBlockInuse, Bitmap.bitmapTest, onFreemap, Act.wpe_bind, Act.wpe_get, Act.wpe_demand,
    Act.wpe_zoome, Act.wpe_pure]
  exact ⟨fun _ => ⟨fun _ => hQ _, fun _ => trivial⟩, fun _ => trivial⟩

theorem wpe_sfsBmapGetNolock_leaks (h : Owned inos loose v) (hi : i ∈ inos) :
    Act.wpe (sfsBmapGetNolock i k true) (Linked v i k) (fun _ => Ends v i k) (fun _ => True) v := by
  have hinuse : ∀ b w, Linked v i k b w → Act.wpe (if b ≠ 0 then do
      Act.demand .mapInuse (← sfsBlockInuse b); pure b else pure b) (Linked v i k)
      (fun _ => Ends v i k) (fun _ => True) w := fun b w hl => by
    rw [Act.wpe_ite]
    refine ⟨fun _ => ?_, fun _ => hl⟩
    rw [Act.wpe_bind]
    refine wpe_inuse fun r => ?_
    rw [Act.wpe_bind, Act.wpe_demand]
    exact ⟨fun _ => hl, fun _ => trivial⟩
  rw [sfsBmapGetNolock]
  dsimp only
  rw [Act.wpe_ite]
  refine ⟨fun hk => ?_, fun hk => ?_⟩
  · rw [Act.wpe_bind]
    exact Act.wpe_mono (wpe_getDirect_leaks h hk) hinuse (fun _ _ => id) fun _ => id
  · have hk' : 12 + (k - 12) = k := Nat.add_sub_cancel' (not_lt.mp hk)
    rw [Act.wpe_ite]
    refine ⟨fun hlt => ?_, fun _ => ?_⟩
    · have hget : Act.wpe (getIndirect i (k - 12) true) (Linked v i (12 + (k - 12)))
          (fun _ => Ends v i (12 + (k - 12))) (fun _ => True) v := by
        by_cases h0 : (v.inode i).indirect = 0
        · exact wpe_newIndirect_leaks h hlt h0
        · exact wpe_oldIndirect_leaks h hi hlt h0
      rw [hk'] at hget
      rw [Act.wpe_bind]
      exact Act.wpe_mono hget hinuse (fun _ _ => id) fun _ => id
    · rw [Act.wpe_bind, Act.wpe_stop]
      trivial

/-- **`sfs_bmap_load_nolock` at the end of the file**: if it returns a block, the new blocks are taken
and no others; if it fails, blocks are left taken if and only if `Leaks`. -/
theorem wpe_load_leaks (h : Owned inos loose v) (hi : i ∈ inos) (hk : k = (v.inode i).blocks) :
    Act.wpe (sfsBmapLoadNolock i k) (Linked v i k) (fun _ => Ends v i k) (fun _ => True) v := by
  rw [sfsBmapLoadNolock, Act.wpe_bind, Act.wpe_get]
  dsimp only
  rw [Act.wpe_bind, Act.wpe_demand, decide_eq_true hk]
  refine ⟨fun _ => ?_, fun _ => trivial⟩
  rw [Act.wpe_bind]
  refine Act.wpe_mono (wpe_sfsBmapGetNolock_leaks h hi) (fun b w hl => ?_) (fun _ _ => id) fun _ => id
  rw [Act.wpe_bind]
  refine wpe_inuse fun r => ?_
  rw [Act.wpe_bind, Act.wpe_demand, if_pos rfl, Act.wpe_bind, Sfs.setInode, Act.wpe_modify,
    Act.wpe_pure]
  exact ⟨fun _ => hl.setInode rfl, fun _ => trivial⟩

end Calls

/-! ## All or nothing -/

/-- **Nothing has happened**: to the free map, to `unused_blocks`, to an inode, or to an entry. -/
structure Untouched (inos : Finset ℕ) (v w : Volume) : Prop where
  bits : ∀ b, w.freemap.bit b = v.freemap.bit b
  unused : w.unusedBlocks = v.unusedBlocks
  inode : w.inode = v.inode
  map : ∀ j ∈ inos, ∀ m < 1036, bmap w j m = bmap v j m

/-- **The block `b` is there**: it is linked at `k`, and what was taken from the free map for it is the
block and, where the file had none, its entry block. -/
structure Created (inos : Finset ℕ) (v : Volume) (i k b : ℕ) (w : Volume) : Prop where
  linked : bmap w i k = b
  ne_zero : b ≠ 0
  blocks : (w.inode i).blocks = (v.inode i).blocks + 1
  indirect : (w.inode i).indirect ≠ (v.inode i).indirect → (v.inode i).indirect = 0 ∧ 12 ≤ k
  free : ∀ c ∈ fresh v i k b w, v.freemap.bit c = true
  bits : ∀ c, w.freemap.bit c = (v.freemap.bit c && decide (c ∉ fresh v i k b w))
  unused : w.unusedBlocks + (fresh v i k b w).card = v.unusedBlocks
  map : ∀ j ∈ inos, ∀ m < 1036, (j, m) ≠ (i, k) → bmap w j m = bmap v j m

/-- **All or nothing**: the block is there, or the call reports an error and nothing has happened. -/
def Atomic (inos : Finset ℕ) (v : Volume) (i : ℕ) (r : Except ℤ ℕ) (w : Volume) : Prop :=
  match r with
  | .ok b => Created inos v i (v.inode i).blocks b w
  | .error e => e ≠ 0 ∧ Untouched inos v w

theorem Linked.created (h : Linked v i k b w) (hload : Loaded inos loose v i k b w)
    (hk : k = (v.inode i).blocks) : Created inos v i k b w := by
  obtain ⟨t, hp⟩ := h.pending
  exact ⟨hload.self, hload.ne_zero, hload.blocks.trans (if_pos hk), h.indirect,
    fun c hc => (hp.taken c hc).1, hp.bits, hp.unused, hload.map⟩

/-- Nothing has happened if no block is left taken. -/
theorem Ends.untouched_iff (h : Ends v i k w) (hkept : Kept inos loose v w) :
    Untouched inos v w ↔ ¬ Leaks v i k := by
  obtain ⟨T, t, hp, hT⟩ := h
  rw [← hT]
  refine ⟨fun hu => ?_, fun hnone => ⟨fun b => ?_, ?_, hkept.inode, hkept.map⟩⟩
  · have := hp.unused
    have := hu.unused
    exact Finset.card_eq_zero.mp (by omega)
  · rw [hp.bits, hnone]
    simp
  · have := hp.unused
    rw [hnone, Finset.card_empty] at this
    omega

/-- **Creating a block is all or nothing** exactly where no `sfs_clear_block` that it makes fails. -/
theorem load_atomic_iff (h : Owned inos loose v) (hi : i ∈ inos) (hmax : (v.inode i).blocks < 1036) :
    ∃ r w, (sfsBmapLoadNolock i (v.inode i).blocks).run v = .ok (r, w) ∧
      (Atomic inos v i r w ↔ ¬ Leaks v i (v.inode i).blocks) := by
  have hload : Act.wpe (sfsBmapLoadNolock i (v.inode i).blocks)
      (Loaded inos loose v i (v.inode i).blocks) (fun e w => e < 0 ∧ Kept inos loose v w)
      (fun _ => False) v :=
    wpe_sfsBmapLoadNolock h hi (fun hlt => lt_irrefl _ hlt) (fun _ hge => absurd hmax (not_lt.mpr hge))
      (fun hlt => absurd hlt (lt_irrefl _)) (fun _ _ => id) fun e he w _ hw _ => ⟨he, hw⟩
  obtain ⟨r, w, hrun, hr⟩ := Act.wp_false_iff.mp hload
  have hleaks := Act.wp_of_ok (wpe_load_leaks h hi rfl) hrun
  refine ⟨r, w, hrun, ?_⟩
  cases r with
  | ok b => exact iff_of_true (hleaks.created hr rfl) hleaks.sound
  | error e => exact (and_iff_right hr.1.ne).trans (hleaks.untouched_iff hr.2)

/-! ## A device whose first transfer fails -/

/-- An empty volume on a device whose first transfer fails with the code 5. -/
def firstFails : Volume :=
  { freshVolume 16 with dev := { (freshVolume 16).dev with fault := fun n => if n = 0 then 5 else 0 } }

theorem firstFails_owned : Owned {1} ∅ firstFails := by
  have h := freshVolume_owned (m := 16) (by norm_num) (by norm_num)
  exact ⟨⟨h.fits.mounted, h.fits.small⟩, ⟨h.mapped.words, h.mapped.covers⟩, h.refs, h.unique, h.noLeak,
    h.looseUsed, h.looseUnheld, h.free, h.count, h.inodes⟩

/-- The load of the first block fails with -5, and 12 blocks are left. -/
def firstBlockLost : Bool :=
  match (sfsBmapLoadNolock 1 0).run firstFails with
  | .ok (.error e, w) => e == -5 && w.unusedBlocks == 12
  | _ => false

/-- **The first block of a file is lost**: it is not cleared, and not given back. -/
theorem load_leaks_firstFails : Owned {1} ∅ firstFails ∧ (firstFails.inode 1).blocks = 0 ∧
    ∃ w, (sfsBmapLoadNolock 1 0).run firstFails = .ok (.error (-5), w) ∧
      ¬ Atomic {1} firstFails 1 (.error (-5)) w := by
  have hrun : firstBlockLost = true := by decide +kernel
  refine ⟨firstFails_owned, rfl, ?_⟩
  unfold firstBlockLost at hrun
  split at hrun
  · next e w heq =>
    obtain ⟨he, hunused⟩ := Bool.and_eq_true_iff.mp hrun
    obtain rfl : e = -5 := beq_iff_eq.mp he
    refine ⟨w, heq, fun hatomic => ?_⟩
    have hsame := hatomic.2.unused
    rw [beq_iff_eq.mp hunused] at hsame
    exact absurd hsame (by decide)
  · exact absurd hrun (by decide)

/-- On a device that works, the first block is created. -/
theorem load_atomic_fresh : ∃ r w, (sfsBmapLoadNolock 1 0).run (freshVolume 16) = .ok (r, w) ∧
    (Atomic {1} (freshVolume 16) 1 r w ↔ ¬ Leaks (freshVolume 16) 1 0) :=
  load_atomic_iff (freshVolume_owned (by norm_num) (by norm_num)) (by decide) (by decide)

end UCore.Sfs
