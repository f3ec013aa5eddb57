import UCore.Sfs.ReadWrite

/-!
# Sfs/Stale — what a truncation leaves in the last block

    write "ab"       a b 0 0 …     size 2
    truncfile 1      a b 0 0 …     size 1     the block stays, and so does the b
    truncfile 2      a b 0 0 …     size 2     …which is read again

`sfs_truncfile` gives blocks up and clears the new ones, but it stores nothing to a block that it keeps.
So a file is the array of bytes it should be exactly as long as each call that makes it longer finds
zeros behind its end.
-/

namespace UCore.Sfs

variable {inos loose : Finset ℕ} {v w : Volume} {i : ℕ}

/-! ## Files as arrays -/

/-- **What a file is to those who use it**: an array of bytes. -/
structure Bytes where
  size : ℕ
  byte : ℕ → UInt8

namespace Bytes

/-- The array cut to `len` bytes, or extended with zeros. -/
def truncate (f : Bytes) (len : ℕ) : Bytes := ⟨len, fun y => if y < f.size then f.byte y else 0⟩

/-- The array with `len` bytes put over it at `offset`, behind zeros where it ends before. -/
def put (f : Bytes) (buf : ℕ → UInt8) (offset len : ℕ) : Bytes :=
  if len = 0 then f else ⟨max f.size (offset + len), fun y =>
    if offset ≤ y ∧ y < offset + len then buf (y - offset) else if y < f.size then f.byte y else 0⟩

end Bytes

/-- The array that the file `i` holds. -/
def fileBytes (v : Volume) (i : ℕ) : Bytes := ⟨(v.inode i).size, content v i⟩

/-- **A file reads as an array**: it has its size, and every read delivers its bytes. -/
def ReadsAs (w : Volume) (i : ℕ) (f : Bytes) : Prop :=
  (w.inode i).size = f.size ∧ ∀ (buf : ℕ → UInt8) (o l : ℕ), o < SFS_MAX_FILE_SIZE → o + l < 2 ^ 63 →
    ∃ w', sfsIoNolock i buf o l false w = .ok (⟨0, available f.size o l, fun j =>
      if j < available f.size o l then f.byte (o + j) else buf j⟩, w')

/-- **A regular file reads as its bytes**, and as nothing else. -/
theorem RegularFile.readsAs_iff {f : Bytes} (h : RegularFile inos loose w i) (hf : ¬ Faulty w) :
    ReadsAs w i f ↔ (w.inode i).size = f.size ∧ ∀ y < f.size, content w i y = f.byte y := by
  have hread : ∀ (buf : ℕ → UInt8) (o l : ℕ), o < SFS_MAX_FILE_SIZE → o + l < 2 ^ 63 →
      ∃ w', sfsIoNolock i buf o l false w = .ok (⟨0, available (w.inode i).size o l,
        delivered w i o (available (w.inode i).size o l) buf⟩, w') := fun buf o l ho hl => by
    have hwp : Act.wp (sfsIoNolock i buf o l false) _ _ w := h.wp_read hf
    obtain ⟨p, w', hrun, -, -, hp⟩ := Act.wp_false_iff.mp hwp
    have hp' := hp (not_invalid ho hl)
    rw [endOf_read h.size_le hl, Int.toNat_natCast] at hp'
    exact ⟨w', hp' ▸ hrun⟩
  refine and_congr_right fun hsize => ⟨fun hall y hy => ?_, fun hbytes buf o l ho hl => ?_⟩
  · -- a read of the one byte
    have hle := h.size_le
    have ho : y < SFS_MAX_FILE_SIZE := by
      change y < 1024 * 1024 * 128
      omega
    obtain ⟨w₁, h₁⟩ := hread (fun _ => 0) y 1 ho (by omega)
    obtain ⟨w₂, h₂⟩ := hall (fun _ => 0) y 1 ho (by omega)
    have hone : available f.size y 1 = 1 := by
      unfold available
      omega
    rw [h₁, hsize, hone] at h₂
    have hbuf := congrArg Progress.buf (Prod.mk.inj (Except.ok.inj h₂)).1
    simpa [delivered] using congrFun hbuf 0
  · obtain ⟨w', hrun⟩ := hread buf o l ho hl
    refine ⟨w', hrun.trans ?_⟩
    rw [hsize]
    refine congrArg (fun b => Except.ok (Progress.mk 0 (available f.size o l) b, w')) (funext fun j => ?_)
    unfold delivered
    split
    · next hj =>
      refine hbytes _ ?_
      unfold available at hj
      omega
    · rfl

/-! ## One call -/

/-- **A truncation keeps the bytes of the blocks it keeps**, and sets the size. -/
theorem RegularFile.wp_truncfile {len : ℕ} (h : RegularFile inos loose v i) (hf : ¬ Faulty v)
    (hcap : len ≤ 1036 * 4096) (hfree : missing v i ((len + 4095) / 4096) ≤ v.unusedBlocks) :
    Act.wp (codeOf (sfsTruncfile i len))
      (fun code w => code = 0 ∧ RegularFile inos loose w i ∧ Frame inos loose v i w ∧
        (w.inode i).size = len ∧ ∀ y < (len + 4095) / 4096 * 4096, content w i y = content v i y)
      (fun _ => False) v := by
  have hnat : (len : ℤ).toNat = len := Int.toNat_natCast len
  have hn : (len + 4095) / 4096 ≤ 1036 := by omega
  have hlast : ∀ y < (len + 4095) / 4096 * 4096, y < 1036 * 4096 := fun y hy =>
    hy.trans_le (Nat.mul_le_mul_right 4096 hn)
  -- the size is stored last, over the blocks there are by then
  have hend : ∀ w, Frame inos loose v i w → (w.inode i).type = (v.inode i).type → Dense w i →
      (w.inode i).blocks = (len + 4095) / 4096 →
      (∀ y < (len + 4095) / 4096 * 4096, content w i y = content v i y) →
      RegularFile inos loose (w.setSize i len) i ∧ Frame inos loose v i (w.setSize i len) ∧
        ((w.setSize i len).inode i).size = len ∧
        ∀ y < (len + 4095) / 4096 * 4096, content (w.setSize i len) i y = content v i y := by
    intro w hframe htype hdense hblocks hcontent
    have hown := hframe.exact hf
    have hmap : ∀ m, bmap (w.setSize i len) i m = bmap w i m := fun m =>
      refs_setInode (r := .block i m) rfl rfl
    have hset : Frame inos loose w i (w.setSize i len) := hown.frame_setInode rfl rfl
    refine ⟨⟨hset.exact (hframe.faulty.not.mpr hf), h.mem, ?_, ⟨?_, fun k hk => ?_⟩, ?_⟩,
      hframe.trans hset, by rw [setInode_self], fun y hy => ?_⟩
    · rw [setInode_self, ← h.type, ← htype]
    · rw [setInode_self]
      exact hdense.le
    · rw [setInode_self] at hk
      rw [hmap]
      exact hdense.ne_zero k hk
    · rw [setInode_self]
      exact hblocks
    · rw [content_congr (hmap _) fun _ => rfl]
      exact hcontent y hy
  rw [wp_codeOf]
  refine wpe_sfsTruncfile h.owned h.dense h.mem (fun hno => ?_) (fun _ hsame _ => ?_)
    (fun hne => absurd h.blocks hne) (fun hlt => ?_) (fun _ _ _ _ w hg => ?_)
    (fun _ e _ m w _ hlt hs => ?_) (fun _ _ hle w hc => ?_) fun _ e _ m w _ _ hj => absurd hj.1 hf
  · have hmax : ¬ (len : ℤ) > 134217728 := by omega
    exact absurd hno (not_or.mpr ⟨by omega, hmax⟩)
  · rw [hnat] at hsame
    exact ⟨rfl, h, .refl h.owned, hsame, fun _ _ => rfl⟩
  · omega
  · rw [hnat] at hg ⊢
    exact ⟨rfl, hend w hg.frame hg.type hg.dense hg.blocks fun y hy => hg.content y (hlast y hy)⟩
  · rw [hnat] at hlt
    exact absurd hfree (not_le.mpr (hs.lt_missing hf hn hlt))
  · rw [hnat] at hc ⊢
    refine ⟨rfl, hend w hc.frame hc.type hc.dense hc.blocks fun y hy => ?_⟩
    rw [hc.content y (hlast y hy), if_neg (by omega)]

/-- A call during the life of the file: on it, or on another. -/
inductive Edit where
  | write (buf : ℕ → UInt8) (offset len : ℕ)
  | truncfile (len : ℕ)
  | other (op : FileOp)

namespace Edit

/-- The call, up to the code it returns. -/
def run (i : ℕ) : Edit → Act Volume Assertion ℤ
  | .write buf offset len => do return (← sfsIoNolock i buf offset len true).ret
  | .truncfile len => codeOf (sfsTruncfile i len)
  | .other op => op.run

/-- **The calls that are looked at**: within the map, with the blocks they need on the volume; any call
on another file. -/
def InRange (inos : Finset ℕ) (i : ℕ) (v : Volume) : Edit → Prop
  | .write _ offset len => offset + len ≤ 1036 * 4096 ∧
    missing v i ((offset + len + 4095) / 4096) ≤ v.unusedBlocks
  | .truncfile len => len ≤ 1036 * 4096 ∧ missing v i ((len + 4095) / 4096) ≤ v.unusedBlocks
  | .other op => op.inode ∈ inos ∧ op.inode ≠ i

/-- What the call should make of the file. -/
def result (f : Bytes) : Edit → Bytes
  | .write buf offset len => f.put buf offset len
  | .truncfile len => f.truncate len
  | .other _ => f

/-- An assertion may end the call: a write from beyond the blocks of the file, or a call elsewhere. -/
def MayStop (v : Volume) (i : ℕ) : Edit → Prop
  | .write _ offset _ => (v.inode i).blocks < offset / 4096
  | .truncfile _ => False
  | .other _ => True

/-- **The call does what it should**: the file reads as the array it is to be. -/
def Faithful (i : ℕ) (v : Volume) (e : Edit) : Prop :=
  (∀ a, e.run i v = .error a → e.MayStop v i) ∧
    ∀ code w, e.run i v = .ok (code, w) → ReadsAs w i (e.result (fileBytes v i))

/-- **No stale byte is taken in**: the bytes behind the end of the file that the call makes part of it,
without writing them, are zero. -/
def Clean (i : ℕ) (v : Volume) : Edit → Prop
  | .write _ offset len => len ≠ 0 → offset / 4096 ≤ (v.inode i).blocks →
    ∀ y, (v.inode i).size ≤ y → y < offset → content v i y = 0
  | .truncfile len => ∀ y, (v.inode i).size ≤ y → y < len → content v i y = 0
  | .other _ => True

/-- The file goes on as a regular one. -/
def Lives (inos loose : Finset ℕ) (i : ℕ) (w : Volume) : Prop :=
  RegularFile inos loose w i ∧ ¬ Faulty w

/-- A write reads as it should exactly where the bytes in front of it are there, or zero. -/
theorem wp_write_reads {buf : ℕ → UInt8} {offset len : ℕ} (h : Lives inos loose i v)
    (hin : (Edit.write buf offset len).InRange inos i v) :
    Act.wp ((Edit.write buf offset len).run i) (fun _ w => Lives inos loose i w ∧
      (ReadsAs w i ((fileBytes v i).put buf offset len) ↔ (Edit.write buf offset len).Clean i v))
      (fun _ => (v.inode i).blocks < offset / 4096) v := by
  obtain ⟨hreg, hf⟩ := h
  obtain ⟨hcap, hfree⟩ := hin
  rw [run, Act.wp_bind]
  refine Act.wp_mono (hreg.wp_write_at hf hcap hfree) ?_ fun _ => id
  rintro p w ⟨-, hreg', hframe, hstart, hsize, hcontent⟩
  have hlives : Lives inos loose i w := ⟨hreg', hframe.faulty.not.mpr hf⟩
  have hold := hreg.size_le
  refine ⟨hlives, (hreg'.readsAs_iff hlives.2).trans ?_⟩
  rw [hsize]
  rcases eq_or_ne len 0 with rfl | hlen
  · rw [Bytes.put, if_pos rfl, if_pos rfl]
    refine iff_of_true ⟨rfl, fun y hy => ?_⟩ fun hne => absurd rfl hne
    rw [hcontent y (lt_of_lt_of_le hy hold), if_neg (by omega)]
    rfl
  · have hput : ∀ y, ((fileBytes v i).put buf offset len).byte y =
        if offset ≤ y ∧ y < offset + len then buf (y - offset)
        else if y < (v.inode i).size then content v i y else 0 := fun y => by
      rw [Bytes.put, if_neg hlen]
      rfl
    have hmax : ((fileBytes v i).put buf offset len).size = max (v.inode i).size (offset + len) := by
      rw [Bytes.put, if_neg hlen]
      rfl
    rw [if_neg hlen, hmax]
    refine (and_iff_right rfl).trans ⟨fun hbytes _ _ y hge hlt => ?_, fun hclean y hy => ?_⟩
    · have hy := hbytes y (by omega)
      rwa [hcontent y (by omega), hput, if_neg (by omega), if_neg (by omega), if_neg (by omega)] at hy
    · rw [hcontent y (by omega), hput]
      split
      · rfl
      · next hout =>
        split
        · rfl
        · next hge => exact hclean hlen (hstart hlen) y (not_lt.mp hge) (by omega)

/-- A truncation reads as it should exactly where the bytes it takes in are zero. -/
theorem wp_truncfile_reads {len : ℕ} (h : Lives inos loose i v)
    (hin : (Edit.truncfile len).InRange inos i v) :
    Act.wp ((Edit.truncfile len).run i) (fun _ w => Lives inos loose i w ∧
      (ReadsAs w i ((fileBytes v i).truncate len) ↔ (Edit.truncfile len).Clean i v))
      (fun _ => False) v := by
  obtain ⟨hreg, hf⟩ := h
  refine Act.wp_mono (hreg.wp_truncfile hf hin.1 hin.2) ?_ fun _ => id
  rintro code w ⟨-, hreg', hframe, hsize, hcontent⟩
  have hlives : Lives inos loose i w := ⟨hreg', hframe.faulty.not.mpr hf⟩
  refine ⟨hlives, (hreg'.readsAs_iff hlives.2).trans ?_⟩
  rw [hsize]
  have hkept : ∀ y < len, content w i y = content v i y := fun y hy => hcontent y (by omega)
  refine (and_iff_right rfl).trans ⟨fun hbytes y hge hlt => ?_, fun hclean y hy => ?_⟩
  · have hy : content w i y = if y < (v.inode i).size then content v i y else 0 := hbytes y hlt
    rwa [hkept y hlt, if_neg (not_lt.mpr hge)] at hy
  · rw [hkept y hy]
    change _ = if y < (v.inode i).size then content v i y else 0
    split
    · rfl
    · next hge => exact hclean y (not_lt.mp hge) hy

/-- **One call** leaves a regular file, and does what it should exactly where it takes in no stale
byte. -/
theorem wp_run_reads {e : Edit} (h : Lives inos loose i v) (hin : e.InRange inos i v) :
    Act.wp (e.run i) (fun _ w => Lives inos loose i w ∧
      (ReadsAs w i (e.result (fileBytes v i)) ↔ e.Clean i v)) (fun _ => e.MayStop v i ∧ e.Clean i v) v := by
  cases e with
  | write buf offset len =>
    exact Act.wp_mono (wp_write_reads h hin) (fun _ _ => id) fun _ hlt =>
      ⟨hlt, fun _ hle => absurd hlt (not_lt.mpr hle)⟩
  | truncfile len => exact Act.wp_mono (wp_truncfile_reads h hin) (fun _ _ => id) fun _ => False.elim
  | other op =>
    obtain ⟨hreg, hf⟩ := h
    have hrun := (⟨hreg.owned, hf⟩ : Consistent inos loose v).wp_run hin.1
    refine Act.wp_mono hrun (fun _ w halone => ?_) fun _ _ => ⟨trivial, trivial⟩
    have hsame : SameFile v i w := .ofFrame halone.frame hreg.mem hin.2.symm
    have hreg' := hsame.regularFile hreg halone.owned
    refine ⟨⟨hreg', halone.sound⟩, iff_of_true ((hreg'.readsAs_iff halone.sound).mpr
      ⟨hsame.size, fun y hy => hsame.content y ?_⟩) trivial⟩
    exact lt_of_lt_of_le hy hreg.size_le

end Edit

/-! ## Whole runs -/

/-- What holds of every call of a run, in the volume it is made in.  A call that stops ends the run. -/
def Along (i : ℕ) (P : Volume → Edit → Prop) : List Edit → Volume → Prop
  | [], _ => True
  | e :: es, v => P v e ∧ ∀ code w, e.run i v = .ok (code, w) → Along i P es w

/-- **A file is its array of bytes** through a run of truncations, writes and calls on other files if and
only if no call takes in a stale byte. -/
theorem edits_faithful_iff {es : List Edit} (h : RegularFile inos loose v i) (hf : ¬ Faulty v)
    (hin : Along i (Edit.InRange inos i) es v) :
    Along i (Edit.Faithful i) es v ↔ Along i (Edit.Clean i) es v := by
  induction es generalizing v with
  | nil => exact Iff.rfl
  | cons e es ih =>
    have hstep := Edit.wp_run_reads ⟨h, hf⟩ hin.1
    have hrest : ∀ code w, e.run i v = .ok (code, w) →
        (Along i (Edit.Faithful i) es w ↔ Along i (Edit.Clean i) es w) := fun code w hrun =>
      have hw := (Act.wp_of_ok hstep hrun).1
      ih hw.1 hw.2 (hin.2 code w hrun)
    have hone : e.Faithful i v ↔ e.Clean i v := by
      cases hrun : e.run i v with
      | ok r =>
        have hreads := (Act.wp_of_ok hstep hrun).2
        refine ⟨fun hgood => hreads.mp (hgood.2 _ _ hrun), fun hclean => ⟨fun a hstop => ?_,
          fun code w hok => ?_⟩⟩
        · exact absurd (hrun.symm.trans hstop) (by simp)
        · obtain rfl := Except.ok.inj (hrun.symm.trans hok)
          exact hreads.mpr hclean
      | error a =>
        obtain ⟨hstop, hclean⟩ := Act.wp_of_error hstep hrun
        refine iff_of_true ⟨fun _ _ => hstop, fun code w hok => ?_⟩ hclean
        exact absurd (hrun.symm.trans hok) (by simp)
    exact and_congr hone (forall_congr' fun code => forall_congr' fun w =>
      forall_congr' fun hrun => hrest code w hrun)

/-! ## The stale byte -/

/-- Two bytes are written, one is cut off, and the file is made two bytes long again. -/
def cutAndGrown : List Edit := [.write counting 0 2, .truncfile 1, .truncfile 2]

theorem missing_eq_zero {n : ℕ} (hle : n ≤ (v.inode i).blocks) (hn : n ≤ 12) : missing v i n = 0 := by
  rw [missing, if_neg (by omega), Finset.filter_false_of_mem, Finset.card_empty]
  intro k hk hc
  have := Finset.mem_range.mp hk
  omega

/-- …on a new volume: the file after the write and after the cut.  The byte that is cut off stays. -/
theorem cutAndGrown_spec : Along 1 (Edit.InRange {1} 1) cutAndGrown (freshVolume 16) ∧
    ∃ code₁ w₁ code₂ w₂, (Edit.write counting 0 2).run 1 (freshVolume 16) = .ok (code₁, w₁) ∧
      (Edit.truncfile 1).run 1 w₁ = .ok (code₂, w₂) ∧ Edit.Lives {1} ∅ 1 w₂ ∧
      (Edit.truncfile 2).InRange {1} 1 w₂ ∧ (w₂.inode 1).size = 1 ∧ content w₂ 1 1 = 1 := by
  have hreg := freshVolume_regularFile (m := 16) (by norm_num) (by norm_num)
  have hf : ¬ Faulty (freshVolume 16) := freshVolume_not_faulty
  have hin : (Edit.write counting 0 2).InRange {1} 1 (freshVolume 16) := by
    refine ⟨by norm_num, ?_⟩
    rw [freshVolume_missing]
    decide
  have hwrite : Act.wp ((Edit.write counting 0 2).run 1) (fun _ w => RegularFile {1} ∅ w 1 ∧
      Frame {1} ∅ (freshVolume 16) 1 w ∧ (w.inode 1).size = 2 ∧ content w 1 1 = 1)
      (fun _ => False) (freshVolume 16) := by
    rw [Edit.run, Act.wp_bind]
    refine Act.wp_mono (hreg.wp_write_done hf (Nat.zero_le _) hin.1 hin.2) ?_ fun _ => id
    rintro p w ⟨-, hreg₁, hframe₁, hsize₁, hcontent₁⟩
    exact ⟨hreg₁, hframe₁, hsize₁, hcontent₁ 1 (by norm_num)⟩
  obtain ⟨code₁, w₁, hrun₁, hreg₁, hframe₁, hsize₁, hbyte₁⟩ := Act.wp_false_iff.mp hwrite
  have hf₁ := hframe₁.faulty.not.mpr hf
  have hblocks₁ : (w₁.inode 1).blocks = 1 := by
    rw [hreg₁.blocks, hsize₁]
  have hin₁ : (Edit.truncfile 1).InRange {1} 1 w₁ :=
    ⟨by norm_num, (missing_eq_zero hblocks₁.ge (by norm_num)).trans_le (Nat.zero_le _)⟩
  have hcut : Act.wp ((Edit.truncfile 1).run 1) _ _ w₁ := hreg₁.wp_truncfile hf₁ hin₁.1 hin₁.2
  obtain ⟨code₂, w₂, hrun₂, -, hreg₂, hframe₂, hsize₂, hcontent₂⟩ := Act.wp_false_iff.mp hcut
  have hblocks₂ : (w₂.inode 1).blocks = 1 := by
    rw [hreg₂.blocks, hsize₂]
  have hin₂ : (Edit.truncfile 2).InRange {1} 1 w₂ :=
    ⟨by norm_num, (missing_eq_zero hblocks₂.ge (by norm_num)).trans_le (Nat.zero_le _)⟩
  refine ⟨⟨hin, fun code w h₁ => ?_⟩, code₁, w₁, code₂, w₂, hrun₁, hrun₂,
    ⟨hreg₂, hframe₂.faulty.not.mpr hf₁⟩, hin₂, hsize₂, ?_⟩
  · obtain rfl := (Prod.mk.inj (Except.ok.inj (hrun₁.symm.trans h₁))).2
    refine ⟨hin₁, fun code w h₂ => ?_⟩
    obtain rfl := (Prod.mk.inj (Except.ok.inj (hrun₂.symm.trans h₂))).2
    exact ⟨hin₂, fun _ _ _ => trivial⟩
  · rw [hcontent₂ 1 (by norm_num)]
    exact hbyte₁

/-- **The byte that was cut off is read again.** -/
theorem cutAndGrown_not_faithful : RegularFile {1} ∅ (freshVolume 16) 1 ∧ ¬ Faulty (freshVolume 16) ∧
    Along 1 (Edit.InRange {1} 1) cutAndGrown (freshVolume 16) ∧
    ¬ Along 1 (Edit.Faithful 1) cutAndGrown (freshVolume 16) := by
  obtain ⟨hin, code₁, w₁, code₂, w₂, hrun₁, hrun₂, hlives, hin₂, hsize, hbyte⟩ := cutAndGrown_spec
  refine ⟨freshVolume_regularFile (by norm_num) (by norm_num), freshVolume_not_faulty, hin, fun hgood => ?_⟩
  have hlast : (Edit.truncfile 2).Faithful 1 w₂ := ((hgood.2 code₁ w₁ hrun₁).2 code₂ w₂ hrun₂).1
  obtain ⟨code₃, w₃, hrun₃, -, hiff⟩ := Act.wp_false_iff.mp (Edit.wp_truncfile_reads hlives hin₂)
  have hzero := hiff.mp (hlast.2 code₃ w₃ hrun₃) 1 hsize.le (by norm_num)
  rw [hbyte] at hzero
  exact absurd hzero (by decide)

/-- The two sides on that run. -/
theorem edits_faithful_iff_fresh : Along 1 (Edit.Faithful 1) cutAndGrown (freshVolume 16) ↔
    Along 1 (Edit.Clean 1) cutAndGrown (freshVolume 16) :=
  edits_faithful_iff (freshVolume_regularFile (by norm_num) (by norm_num)) freshVolume_not_faulty
    cutAndGrown_spec.1

end UCore.Sfs
