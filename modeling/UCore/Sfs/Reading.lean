import UCore.Sfs.Dir
import UCore.Sfs.Shapes
import UCore.Sfs.Transfer

/-!
# Sfs/Reading — what reading leaves

A block below `blocks` is found and not made, whether or not it is there, so a read that stays in the
blocks of its file does nothing to the volume but count its transfers.
-/

namespace UCore.Sfs

open Act

variable {v w w' : Volume} {i j k n b slot count : ℕ}

/-- **The volume `v`**, after some transfers. -/
def Ticked (v w : Volume) : Prop := ∃ n, w = { v with dev := { v.dev with transfers := n } }

namespace Ticked

theorem refl (v : Volume) : Ticked v v := ⟨v.dev.transfers, rfl⟩

theorem tick (v : Volume) : Ticked v v.tick := ⟨v.dev.transfers + 1, rfl⟩

theorem trans (h : Ticked v w) (h' : Ticked w w') : Ticked v w' := by
  obtain ⟨n, rfl⟩ := h
  obtain ⟨m, rfl⟩ := h'
  exact ⟨m, rfl⟩

theorem fits (h : Ticked v w) (hv : Fits v) : Fits w := by
  obtain ⟨n, rfl⟩ := h
  exact ⟨hv.mounted, hv.small⟩

theorem inode (h : Ticked v w) : w.inode = v.inode := by
  obtain ⟨n, rfl⟩ := h
  rfl

theorem data (h : Ticked v w) : w.dev.data = v.dev.data := by
  obtain ⟨n, rfl⟩ := h
  rfl

theorem bmap (h : Ticked v w) (i k : ℕ) : bmap w i k = bmap v i k := by
  obtain ⟨n, rfl⟩ := h
  rfl

end Ticked

/-- A code that reports an error, on a volume that was only read. -/
def Declined (v : Volume) (e : ℤ) (w : Volume) : Prop := e < 0 ∧ Ticked v w

section Reads

theorem ticked_rwblock (h : Fits v) :
    wpe (sfsRwblockNolock b) (fun c w => c = b ∧ Ticked v w) (Declined v) (fun _ => True) v := by
  by_cases hb : InRange v b
  · exact wpe_sfsRwblockNolock h hb ⟨rfl, .tick v⟩ fun e he _ => ⟨he, .tick v⟩
  · simp only [sfsRwblockNolock, wpe_bind, wpe_get, wpe_demand]
    exact ⟨fun hin => absurd hin hb, fun _ => trivial⟩

theorem ticked_rblock (h : Fits v) :
    wpe (sfsRblock b) (fun data w => data = v.dev.data b ∧ Ticked v w) (Declined v) (fun _ => True)
      v := by
  rw [sfsRblock, wpe_bind]
  refine wpe_mono (ticked_rwblock h) ?_ (fun _ _ => id) fun _ => id
  rintro _ w ⟨rfl, hw⟩
  exact ⟨congrFun hw.data _, hw⟩

theorem ticked_rbuf {len offset : ℕ} (h : Fits v) :
    wpe (sfsRbuf len b offset) (fun data w => (data = fun j => v.dev.data b (offset + j)) ∧ Ticked v w)
      (Declined v) (fun _ => True) v := by
  rw [sfsRbuf, wpe_bind, wpe_demand]
  refine ⟨fun _ => ?_, fun _ => trivial⟩
  rw [wpe_bind]
  refine wpe_mono (ticked_rblock h) ?_ (fun _ _ => id) fun _ => id
  rintro _ w ⟨rfl, hw⟩
  exact ⟨rfl, hw⟩

theorem ticked_inuse :
    wpe (sfsBlockInuse b) (fun _ w => b ≠ 0 ∧ Ticked v w) (Declined v) (fun _ => True) v := by
  simp only [sfsBlockInuse, onFreemap, Bitmap.bitmapTest, wpe_bind, wpe_get, wpe_demand, wpe_zoome]
  exact ⟨fun hb => ⟨fun _ => ⟨hb.1, .refl v⟩, fun _ => trivial⟩, fun _ => trivial⟩

theorem ticked_getSub {entp : ℕ} (h : Fits v) :
    wpe (sfsBmapGetSubNolock entp k false)
      (fun r w => r = (entp, if entp = 0 then 0 else entry v entp k) ∧ Ticked v w) (Declined v)
      (fun _ => True) v := by
  rw [sfsBmapGetSubNolock, wpe_bind, wpe_demand]
  refine ⟨fun _ => ?_, fun _ => trivial⟩
  dsimp only
  rw [wpe_ite]
  refine ⟨fun hent => ?_, fun hent => ?_⟩
  · rw [wpe_bind]
    refine wpe_mono (ticked_rbuf h) ?_ (fun _ _ => id) fun _ => id
    rintro data w ⟨hdata, hw⟩
    rw [if_pos (.inr rfl), wpe_pure, hdata, if_neg hent, entry, Nat.mul_comm]
    exact ⟨rfl, hw⟩
  · rw [if_pos rfl, wpe_pure, if_pos (not_not.mp hent), not_not.mp hent]
    exact ⟨rfl, .refl v⟩

/-- **Finding a block** reads, and does nothing else. -/
theorem ticked_get (h : Fits v) :
    wpe (sfsBmapGetNolock i k false) (fun b w => (b = bmap v i k ∧ k < 1036) ∧ Ticked v w)
      (Declined v) (fun _ => True) v := by
  have hend : k < 1036 → ∀ w, Ticked v w → wpe (do
      if bmap v i k ≠ 0 then
        Act.demand .mapInuse (← sfsBlockInuse (bmap v i k))
      pure (bmap v i k) : Call ℕ) (fun b w => (b = bmap v i k ∧ k < 1036) ∧ Ticked v w) (Declined v)
      (fun _ => True) w := fun hlt w hw => by
    rw [wpe_ite]
    refine ⟨fun _ => ?_, fun _ => ⟨⟨rfl, hlt⟩, hw⟩⟩
    rw [wpe_bind]
    refine wpe_mono ticked_inuse (fun r w' hw' => ?_) (fun _ _ hw' => ⟨hw'.1, hw.trans hw'.2⟩)
      fun _ => id
    rw [wpe_bind, wpe_demand]
    exact ⟨fun _ => ⟨⟨rfl, hlt⟩, hw.trans hw'.2⟩, fun _ => trivial⟩
  rw [sfsBmapGetNolock]
  dsimp only
  rw [wpe_ite]
  refine ⟨fun hk => ?_, fun hk => ?_⟩
  · have hmap : (v.inode i).direct k = bmap v i k := (if_pos hk).symm
    rw [wpe_bind, getDirect, wpe_bind, wpe_get, if_neg fun hc => by simp at hc, wpe_pure, hmap]
    exact hend (hk.trans (by norm_num)) v (.refl v)
  · have hmap : bmap v i k = if (v.inode i).indirect = 0 then 0 else
        entry v (v.inode i).indirect (k - 12) := if_neg hk
    rw [wpe_ite]
    refine ⟨fun hlt => ?_, fun _ => ?_⟩
    · have hlt' : k < 1036 := by
        change k - 12 < 1024 at hlt
        omega
      rw [wpe_bind, getIndirect, wpe_bind, wpe_get, wpe_bind]
      refine wpe_mono (ticked_getSub h) ?_ (fun _ _ => id) fun _ => id
      rintro _ w ⟨rfl, hw⟩
      dsimp only
      rw [wpe_bind, wpe_get, hw.inode, if_neg (not_not.mpr rfl), wpe_pure]
      have hq := hend hlt' w hw
      rw [hmap] at hq ⊢
      exact hq
    · rw [wpe_bind, wpe_stop]
      trivial

/-- **Loading a block that the file has.** -/
theorem ticked_load (h : Fits v) (hk : k < (v.inode i).blocks) :
    wpe (sfsBmapLoadNolock i k)
      (fun b w => (b = bmap v i k ∧ k < 1036 ∧ bmap v i k ≠ 0) ∧ Ticked v w) (Declined v)
      (fun _ => True) v := by
  have hcreate : decide (k = (v.inode i).blocks) = false := decide_eq_false hk.ne
  simp only [sfsBmapLoadNolock, wpe_bind, wpe_get, wpe_demand, hcreate]
  refine ⟨fun _ => ?_, fun _ => trivial⟩
  refine wpe_mono (ticked_get h) ?_ (fun _ _ => id) fun _ => id
  rintro _ w ⟨⟨rfl, hlt⟩, hw⟩
  refine wpe_mono ticked_inuse (fun _ w' hw' => ⟨fun _ => ⟨⟨rfl, hlt, hw'.1⟩, hw.trans hw'.2⟩,
    fun _ => trivial⟩) (fun _ _ hw' => ⟨hw'.1, hw.trans hw'.2⟩) fun _ => id

end Reads

/-! ## Directories -/

/-- **The slot `slot` of the directory `d`** names the inode `ino`. -/
structure Names (v : Volume) (d : ℕ) (name : List UInt8) (slot ino : ℕ) : Prop where
  block : bmap v d slot ≠ 0
  number : decodeU32 (v.dev.data (bmap v d slot)) = ino
  ne_zero : ino ≠ 0
  name : strEq name (entryName (v.dev.data (bmap v d slot))) = true

theorem names_congr {d ino : ℕ} {name : List UInt8} (hmap : bmap w d slot = bmap v d slot)
    (hdata : w.dev.data (bmap v d slot) = v.dev.data (bmap v d slot)) :
    Names w d name slot ino ↔ Names v d name slot ino := by
  refine ⟨fun h => ⟨?_, ?_, h.ne_zero, ?_⟩, fun h => ⟨?_, ?_, h.ne_zero, ?_⟩⟩
  · exact hmap ▸ h.block
  · rw [← hdata, ← hmap]
    exact h.number
  · rw [← hdata, ← hmap]
    exact h.name
  · exact hmap ▸ h.block
  · rw [hmap, hdata]
    exact h.number
  · rw [hmap, hdata]
    exact h.name

theorem Ticked.names {d : ℕ} {name : List UInt8} {ino : ℕ} (h : Ticked v w) :
    Names w d name slot ino ↔ Names v d name slot ino :=
  names_congr (h.bmap d slot) (by rw [h.data])

/-- **The search of a directory** finds the first slot with the name. -/
theorem ticked_direntSearch {d : ℕ} {name : List UInt8} (h : Fits v)
    (hn : slot + count ≤ (v.inode d).blocks) :
    wpe (direntSearch d name count slot)
      (fun ino w => (∃ m < slot + count, m < 1036 ∧ Names v d name m ino ∧
        ∀ m' < m, slot ≤ m' → ∀ j, ¬ Names v d name m' j) ∧ Ticked v w) (Declined v)
      (fun _ => True) v := by
  induction count generalizing v slot with
  | zero =>
    rw [direntSearch, wpe_throw]
    exact ⟨by norm_num, .refl v⟩
  | succ count ih =>
    rw [direntSearch, sfsDirentReadNolock]
    simp only [wpe_bind, wpe_get, wpe_demand, wpe_pure]
    refine ⟨fun hslot => ?_, fun _ => trivial⟩
    refine wpe_mono (ticked_load h hslot.2) ?_ (fun _ _ => id) fun _ => id
    rintro _ w ⟨⟨rfl, hlt, hblock⟩, hw⟩
    refine wpe_mono ticked_inuse (fun _ w₁ hw₁ => ⟨fun _ => ?_, fun _ => trivial⟩)
      (fun _ _ hw₁ => ⟨hw₁.1, hw.trans hw₁.2⟩) fun _ => id
    have hw' := hw.trans hw₁.2
    refine wpe_mono (ticked_rbuf (hw'.fits h)) ?_ (fun _ _ hw₂ => ⟨hw₂.1, hw'.trans hw₂.2⟩) fun _ => id
    rintro _ w₂ ⟨rfl, hw₂⟩
    have hall := hw'.trans hw₂
    simp only [Nat.zero_add, hw'.data]
    rw [wpe_ite]
    refine ⟨fun hfound => ?_, fun hother => ?_⟩
    · rw [wpe_pure]
      exact ⟨⟨slot, by omega, hlt, ⟨hblock, rfl, hfound.1, hfound.2⟩,
        fun m' hm hle => absurd hle (by omega)⟩, hall⟩
    · refine wpe_mono (ih (hall.fits h) (by rw [hall.inode]; omega)) ?_
        (fun _ _ hw₃ => ⟨hw₃.1, hall.trans hw₃.2⟩) fun _ => id
      rintro ino w₃ ⟨⟨m, hm, hmax, hnames, hfirst⟩, hw₃⟩
      refine ⟨⟨m, by omega, hmax, hall.names.mp hnames, fun m' hm' hle j hj => ?_⟩, hall.trans hw₃⟩
      rcases hle.eq_or_lt with rfl | hlt
      · exact hother ⟨hj.number ▸ hj.ne_zero, hj.name⟩
      · exact hfirst m' hm' hlt j (hall.names.mpr hj)

/-! ## Reading a file -/

theorem ticked_ioBlock {whole : Bool} {off size : ℕ} {p : Progress} (h : Fits v)
    (hk : k < (v.inode i).blocks) :
    wp (ioBlock i false whole k off size p) (fun p' w => Ticked v w ∧
      ((p'.ret = p.ret ∧ p'.alen = p.alen + size) ∨ (p'.ret < 0 ∧ p'.alen = p.alen)))
      (fun _ => True) v := by
  rw [wp_ioBlock_iff]
  refine wpe_mono (ticked_load h hk) ?_ (fun e w hw => ⟨hw.2, .inr ⟨hw.1, rfl⟩⟩) fun _ => id
  rintro b w ⟨-, hw⟩
  have hmoved : ∀ {w'}, Ticked w w' → Ticked v w' := hw.trans
  rw [moveBlock, if_neg (by simp), wpe_ite]
  refine ⟨fun _ => ?_, fun _ => ?_⟩
  · rw [wpe_bind]
    exact wpe_mono (ticked_rblock (hw.fits h)) (fun _ w' hw' => ⟨hmoved hw'.2, .inl ⟨rfl, rfl⟩⟩)
      (fun e w' hw' => ⟨hmoved hw'.2, .inr ⟨hw'.1, rfl⟩⟩) fun _ => id
  · rw [wpe_bind]
    exact wpe_mono (ticked_rbuf (hw.fits h)) (fun _ w' hw' => ⟨hmoved hw'.2, .inl ⟨rfl, rfl⟩⟩)
      (fun e w' hw' => ⟨hmoved hw'.2, .inr ⟨hw'.1, rfl⟩⟩) fun _ => id

/-- **A read that stays in the blocks of the file** leaves the volume as it was. -/
theorem ticked_io {buf : ℕ → UInt8} {offset : ℤ} {len : ℕ} (h : Fits v)
    (hfit : ¬ Invalid offset len → ¬ Nothing (v.inode i).size offset len false →
      endOf (v.inode i).size offset len false ≤ (v.inode i).blocks * 4096) :
    wp (sfsIoNolock i buf offset len false) (fun _ => Ticked v) (fun _ => True) v := by
  simp only [sfsIoNolock, wp_bind, wp_get, wp_require]
  refine ⟨fun _ => ?_, fun _ => trivial⟩
  rw [wp_ite]
  refine ⟨fun _ => .refl v, fun hinv => ?_⟩
  rw [wp_ite]
  refine ⟨fun _ => .refl v, fun hne => ?_⟩
  rw [wp_ite]
  refine ⟨fun _ => .refl v, fun hread => ?_⟩
  have hsome : ¬ Nothing (v.inode i).size offset len false := fun hno =>
    hno.elim hne fun hc => hread ⟨trivial, hc.2⟩
  have hlt := Nothing.lt_endOf hinv hsome
  have hreach := hfit hinv hsome
  have hend : (if false = true then min (toS64 (offset + len)).toNat SFS_MAX_FILE_SIZE
      else min (min (toS64 (offset + len)).toNat SFS_MAX_FILE_SIZE) (v.inode i).size) =
      endOf (v.inode i).size offset len false := rfl
  have hsize : endOf (v.inode i).size offset len false ≤ (v.inode i).size := by
    rw [endOf, if_neg (by simp)]
    exact min_le_right _ _
  rw [hend, wp_bind]
  have hpasses : Passes i false (fun _ => True)
      (fun pos p w => (offset.toNat ≤ pos ∧ p.ret = 0 ∧ p.alen = pos - offset.toNat) ∧ Ticked v w)
      (fun pos p w => (offset.toNat ≤ pos ∧ p.ret ≠ 0 ∧ p.alen = pos - offset.toNat) ∧ Ticked v w)
      offset.toNat (endOf (v.inode i).size offset len false) := by
    refine ⟨fun h => h.1.2.1, fun h => h.1.2.1, ?_⟩
    rintro pos p w whole off size ⟨⟨hle, hret, halen⟩, hw⟩ - - - hpos - hin
    have hk : pos / 4096 < (w.inode i).blocks := by
      rw [hw.inode]
      omega
    refine wp_mono (ticked_ioBlock (hw.fits h) hk) ?_ fun _ => id
    rintro p' w' ⟨hw', ⟨hret', halen'⟩ | ⟨hret', halen'⟩⟩
    · exact .inl ⟨⟨by omega, hret'.trans hret, by omega⟩, hw.trans hw'⟩
    · exact .inr ⟨⟨hle, hret'.ne, halen'.trans halen⟩, hw.trans hw'⟩
  refine wp_mono (hpasses.wp_ioParts ⟨⟨le_rfl, rfl, (Nat.sub_self _).symm⟩, .refl v⟩ hlt)
    (fun p w hover => ?_) fun _ => id
  have hdone : offset.toNat + p.alen ≤ (v.inode i).size ∧ Ticked v w := by
    rcases hover with ⟨⟨hle, -, halen⟩, hw⟩ | ⟨pos, hpos, -, ⟨hle, -, halen⟩, hw⟩
    · exact ⟨by omega, hw⟩
    · exact ⟨by omega, hw⟩
  rw [wp_bind, wp_get, wp_ite, hdone.2.inode]
  exact ⟨fun hgrow => absurd hdone.1 (not_le.mpr hgrow), fun _ => hdone.2⟩

end UCore.Sfs
