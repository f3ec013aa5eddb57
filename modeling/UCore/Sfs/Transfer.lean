import UCore.Sfs.Content

/-!
# Sfs/Transfer — reading and writing the bytes of a file

    offset          pos              endpos
      │── done ──────│── to come ──────│
      │ head │ whole block │ … │ tail  │

`Going` is what holds between two blocks of a transfer.  A block is moved, which takes `pos` on, or
its load or its transfer fails (`Failed`), which ends the transfer there.
-/

namespace UCore.Sfs

variable {inos loose : Finset ℕ} {v v' w : Volume} {b i k off size : ℕ} {write whole : Bool}
  {p : Progress} {Q : Progress → Volume → Prop} {E : Assertion → Prop}

/-- **A block that is not moved**: its load fails, or on a faulty device its transfer does. -/
def Failed (inos loose : Finset ℕ) (v : Volume) (i k : ℕ) (e : ℤ) (v' : Volume) : Prop :=
  k < 1036 ∧
    ((Kept inos loose v v' ∧ (¬ Faulty v → Refused v i k (decide (k = (v.inode i).blocks)) e)) ∨
      (Faulty v ∧ ∃ b w, Loaded inos loose v i k b w ∧ Kept inos loose w v'))

/-- The bytes that a read of the file `i` delivers in front of the rest of the buffer. -/
def delivered (v : Volume) (i offset n : ℕ) (buf : ℕ → UInt8) : ℕ → UInt8 := fun j =>
  if j < n then content v i (offset + j) else buf j

/-- What one block of a transfer leaves in the caller's buffer. -/
def filled (v : Volume) (write : Bool) (b off size : ℕ) (p : Progress) : ℕ → UInt8 :=
  if write then p.buf else overlay p.buf p.alen size fun j => v.dev.data b (off + j)

/-- What one block of a transfer does to the volume. -/
def Moved (inos loose : Finset ℕ) (v : Volume) (write : Bool) (b off size : ℕ) (p : Progress)
    (v' : Volume) : Prop :=
  if write then Written v b off size (fun j => p.buf (p.alen + j)) v'
  else Kept inos loose v v' ∧ Owned inos loose v' ∧ v'.unusedBlocks = v.unusedBlocks

/-- **One block of a transfer.** -/
theorem wp_ioBlock (h : Owned inos loose v) (hi : i ∈ inos)
    (hwhole : whole = true → off = 0 ∧ size = 4096) (hoff : off < 4096) (hsize : off + size ≤ 4096)
    (hindex : (v.inode i).blocks < k → E .loadIndex)
    (hrange : k ≤ (v.inode i).blocks → 1036 ≤ k → E .mapRange)
    (hhole : k < (v.inode i).blocks → k < 1036 → bmap v i k = 0 → E .inuseRange)
    (hQ : ∀ b w w', Loaded inos loose v i k b w → Moved inos loose w write b off size p w' →
      Q { p with alen := p.alen + size, buf := filled w write b off size p } w')
    (hR : ∀ e < 0, ∀ w, Failed inos loose v i k e w → Q { p with ret := e } w) :
    Act.wp (ioBlock i write whole k off size p) Q E v := by
  rw [ioBlock, Act.wp_bind, Act.wp_run, Act.wpe_bind]
  refine wpe_sfsBmapLoadNolock h hi hindex hrange hhole (fun b w hl => ?_)
    (fun e he w hk hw hf => hR e he w ⟨hk, .inl ⟨hw, hf⟩⟩)
  have hown := hl.owned
  have hk := hl.index.1
  have hself : refBlock w (.block i k) = b := hl.self
  have hin := (hown.refs (.block i k) ⟨hi, hk⟩ (hself ▸ hl.ne_zero)).1.1
  rw [hself] at hin
  have hfaulty : Faulty w → Faulty v := by
    unfold Faulty
    rw [hl.fault]
    exact id
  have hfail : ∀ e < 0, Faulty w → ∀ w', Kept inos loose w w' → Q { p with ret := e } w' :=
    fun e he hf w' hw' => hR e he w' ⟨hk, .inr ⟨hfaulty hf, b, w, hl, hw'⟩⟩
  have htick := Kept.tick hown
  have htick₂ : Kept inos loose w w.tick.tick := htick.trans fun _ _ ho => .tick ho
  have hticked : Owned inos loose w.tick := hown.frame ⟨rfl, rfl, rfl, rfl, rfl⟩ fun r _ => by
    cases r <;> rfl
  rw [Act.wpe_ite]
  refine ⟨fun hw => ?_, fun hr => ?_⟩
  · have hq := fun w' hmoved => hQ b w w' hl (by rw [Moved, if_pos hw]; exact hmoved)
    rw [filled, if_pos hw] at hq
    dsimp only
    rw [Act.wpe_ite]
    refine ⟨fun hwh => ?_, fun _ => ?_⟩
    · obtain ⟨rfl, rfl⟩ := hwhole hwh
      rw [Act.wpe_bind]
      exact wpe_sfsWblock hown.fits hin (hq _ .wblock) fun e he hf => hfail e he hf _ htick
    · rw [Act.wpe_bind]
      exact wpe_sfsWbuf hown.fits hin hoff hsize (hq _ .wbuf) fun e he hf =>
        ⟨hfail e he hf _ htick, hfail e he hf _ htick₂⟩
  · have hq := hQ b w w.tick hl (by rw [Moved, if_neg hr]; exact ⟨htick, hticked, rfl⟩)
    rw [filled, if_neg hr] at hq
    dsimp only
    rw [Act.wpe_ite]
    refine ⟨fun hwh => ?_, fun _ => ?_⟩
    · obtain ⟨rfl, rfl⟩ := hwhole hwh
      rw [Act.wpe_bind]
      simp only [Nat.zero_add] at hq
      exact wpe_sfsRblock hown.fits hin hq fun e he hf => hfail e he hf _ htick
    · rw [Act.wpe_bind]
      exact wpe_sfsRbuf hown.fits hin hoff hsize hq fun e he hf => hfail e he hf _ htick

/-! ## The order of the blocks

What holds between two blocks, whatever it is, carries a transfer through its three parts. -/

section Passes

variable {Inv Halt : ℕ → Progress → Volume → Prop} {offset pos endpos n : ℕ}

/-- **One block takes a transfer on**, from `pos` to `pos + size`, or halts it there. -/
structure Passes (i : ℕ) (write : Bool) (E : Assertion → Prop)
    (Inv Halt : ℕ → Progress → Volume → Prop) (offset endpos : ℕ) : Prop where
  ret : ∀ {pos p w}, Inv pos p w → p.ret = 0
  halt : ∀ {pos p w}, Halt pos p w → p.ret ≠ 0
  block : ∀ {pos p w} {whole : Bool} {off size : ℕ}, Inv pos p w → (pos = offset ∨ pos % 4096 = 0) →
    pos % 4096 = off → (whole = true → off = 0 ∧ size = 4096) → 0 < size → off + size ≤ 4096 →
    pos + size ≤ endpos → Act.wp (ioBlock i write whole (pos / 4096) off size p)
      (fun p w => Inv (pos + size) p w ∨ Halt pos p w) E w

/-- All of the transfer is done, or it halted on the way. -/
def Over (Inv Halt : ℕ → Progress → Volume → Prop) (offset endpos : ℕ) (p : Progress) (w : Volume) :
    Prop :=
  Inv endpos p w ∨ ∃ pos < endpos, (pos = offset ∨ pos % 4096 = 0) ∧ Halt pos p w

/-- The whole blocks. -/
theorem Passes.wp_ioBlocks (h : Passes i write E Inv Halt offset endpos) (hp : Inv pos p w)
    (halign : pos % 4096 = 0) (hle : pos + n * 4096 ≤ endpos) :
    Act.wp (ioBlocks i write n (pos / 4096) p) (Over Inv Halt offset (pos + n * 4096)) E w := by
  induction n generalizing pos p w with
  | zero =>
    rw [ioBlocks, Act.wp_pure]
    exact .inl (by simpa using hp)
  | succ n ih =>
    have hnext : (pos + 4096) / 4096 = pos / 4096 + 1 := by omega
    have heq : pos + 4096 + n * 4096 = pos + (n + 1) * 4096 := by ring
    rw [ioBlocks, Act.wp_bind]
    refine Act.wp_mono (h.block hp (.inr halign) halign (fun _ => ⟨rfl, rfl⟩) (by norm_num) le_rfl
      (by change pos + 4096 ≤ endpos; omega)) (fun p' w' h' => ?_) fun _ => id
    rcases h' with h' | h'
    · rw [if_neg (not_not.mpr (h.ret h')), ← hnext, ← heq]
      exact ih h' (by omega) (by omega)
    · rw [if_pos (h.halt h'), Act.wp_pure]
      exact .inr ⟨pos, by omega, .inr halign, h'⟩

/-- The whole blocks and the tail, from a block boundary on. -/
theorem Passes.wp_rest (h : Passes i write E Inv Halt offset endpos) (hp : Inv pos p w)
    (halign : pos % 4096 = 0) (hle : pos ≤ endpos) :
    Act.wp (ioParts.rest i write endpos (pos / 4096) (endpos / 4096 - pos / 4096) pos p)
      (Over Inv Halt offset endpos) E w := by
  have hwhole : pos + (endpos / 4096 - pos / 4096) * 4096 = endpos / 4096 * 4096 := by omega
  rw [ioParts.rest, Act.wp_bind]
  refine Act.wp_mono (h.wp_ioBlocks hp halign (by omega)) (fun p₁ w₁ h₁ => ?_) fun _ => id
  rw [hwhole] at h₁
  have htail : pos + (endpos / 4096 - pos / 4096) * SFS_BLKSIZE = endpos / 4096 * 4096 := hwhole
  rcases h₁ with h₁ | ⟨pos', hlt, hal, hhalt⟩
  · rw [if_neg (not_not.mpr (h.ret h₁)), htail, Act.wp_ite]
    refine ⟨fun htail => ?_, fun htail => ?_⟩
    · have hblk : pos / 4096 + (endpos / 4096 - pos / 4096) = endpos / 4096 * 4096 / 4096 := by omega
      have hend : endpos / 4096 * 4096 + (endpos - endpos / 4096 * 4096) = endpos := by omega
      rw [hblk]
      refine Act.wp_mono (h.block h₁ (.inr (by omega)) (by omega) (fun hno => absurd hno (by simp))
        (by omega) (by omega) hend.le) (fun p₂ w₂ h₂ => ?_) fun _ => id
      rw [hend] at h₂
      exact h₂.imp id fun h₂ => ⟨_, htail, .inr (by omega), h₂⟩
    · have heq : endpos / 4096 * 4096 = endpos := by omega
      rw [heq] at h₁
      rw [Act.wp_pure]
      exact .inl h₁
  · rw [if_pos (h.halt hhalt), Act.wp_pure]
    exact .inr ⟨pos', by omega, hal, hhalt⟩

/-- **The three parts of a transfer**: what holds at its start and is kept by its blocks holds at its
end, or where it halts. -/
theorem Passes.wp_ioParts (h : Passes i write E Inv Halt offset endpos) (hp : Inv offset p v)
    (hlt : offset < endpos) :
    Act.wp (ioParts i write offset endpos p) (Over Inv Halt offset endpos) E v := by
  have hoff : offset % SFS_BLKSIZE = offset % 4096 := rfl
  have hend : endpos / SFS_BLKSIZE - offset / SFS_BLKSIZE = endpos / 4096 - offset / 4096 := rfl
  rw [ioParts]
  dsimp only
  rw [hoff, hend, Act.wp_ite]
  refine ⟨fun hhead => ?_, fun hhead => ?_⟩
  · rw [Act.wp_bind]
    -- a block that could not be moved ends the transfer here
    have hhalt : ∀ rest p w, Halt offset p w →
        Act.wp (if p.ret ≠ 0 then pure p else rest) (Over Inv Halt offset endpos) E w :=
      fun rest p w hp => by
        rw [if_pos (h.halt hp), Act.wp_pure]
        exact .inr ⟨offset, hlt, .inl rfl, hp⟩
    by_cases hn : endpos / 4096 - offset / 4096 = 0
    · rw [if_neg (not_not.mpr hn)]
      have hall : offset + (endpos - offset) = endpos := Nat.add_sub_cancel' hlt.le
      refine Act.wp_mono (h.block hp (.inl rfl) rfl (fun hno => absurd hno (by simp)) (by omega)
        (by omega) hall.le) (fun p₁ w₁ h₁ => ?_) fun _ => id
      rcases h₁ with h₁ | h₁
      · rw [hall] at h₁ ⊢
        rw [if_neg (not_not.mpr (h.ret h₁)), hn, ioParts.rest, ioBlocks, Act.wp_bind, Act.wp_pure,
          if_neg (not_not.mpr (h.ret h₁)), if_neg (by simp), Act.wp_pure]
        exact .inl h₁
      · exact hhalt _ _ _ h₁
    · rw [if_pos hn]
      have hsize : SFS_BLKSIZE - offset % 4096 = 4096 - offset % 4096 := rfl
      rw [hsize]
      refine Act.wp_mono (h.block hp (.inl rfl) rfl (fun hno => absurd hno (by simp)) (by omega)
        (by omega) (by omega)) (fun p₁ w₁ h₁ => ?_) fun _ => id
      rcases h₁ with h₁ | h₁
      · have hblk : offset / 4096 + 1 = (offset + (4096 - offset % 4096)) / 4096 := by omega
        have hcount : endpos / 4096 - offset / 4096 - 1 =
            endpos / 4096 - (offset + (4096 - offset % 4096)) / 4096 := by omega
        rw [if_neg (not_not.mpr (h.ret h₁))]
        change Act.wp (ioParts.rest i write endpos (offset / 4096 + 1) _ _ p₁) _ E w₁
        rw [hcount, hblk]
        exact h.wp_rest h₁ (by omega) (by omega)
      · exact hhalt _ _ _ h₁
  · exact h.wp_rest hp (not_not.mp hhead) hlt.le

end Passes

/-! ## A whole transfer -/

/-- **Between two blocks of a transfer** of the file `i` from `offset` on, that has come to `pos`. -/
structure Going (inos loose : Finset ℕ) (v : Volume) (i : ℕ) (write : Bool) (buf : ℕ → UInt8)
    (offset pos : ℕ) (p : Progress) (w : Volume) : Prop where
  owned : Owned inos loose w
  frame : Frame inos loose v i w
  size : (w.inode i).size = (v.inode i).size
  type : (w.inode i).type = (v.inode i).type
  dense : Dense w i
  content : ∀ y < 1036 * 4096, content w i y =
    if write = true ∧ offset ≤ y ∧ y < pos then buf (y - offset) else Sfs.content v i y
  missing : ∀ n ≤ 1036, (pos + 4095) / 4096 ≤ n →
    w.unusedBlocks + missing v i n = v.unusedBlocks + Sfs.missing w i n
  le : offset ≤ pos
  ret : p.ret = 0
  alen : p.alen = pos - offset
  buf : p.buf = if write then buf else delivered v i offset (pos - offset) buf
  start : pos = offset → w = v
  blocks : offset < pos → (w.inode i).blocks = max (v.inode i).blocks ((pos + 4095) / 4096)

/-- **A transfer that ended** at `pos`, at a block it could not move. -/
def Halted (inos loose : Finset ℕ) (v : Volume) (i : ℕ) (write : Bool) (buf : ℕ → UInt8)
    (offset pos : ℕ) (p : Progress) (w : Volume) : Prop :=
  ∃ p₀ w₀, Going inos loose v i write buf offset pos p₀ w₀ ∧ p.ret < 0 ∧
    p = { p₀ with ret := p.ret } ∧ Failed inos loose w₀ i (pos / 4096) p.ret w

namespace Going

variable {buf : ℕ → UInt8} {offset pos : ℕ}

theorem refl (h : Owned inos loose v) (hd : Dense v i) :
    Going inos loose v i write buf offset offset ⟨0, 0, buf⟩ v := by
  refine ⟨h, .refl h, rfl, rfl, hd, fun y _ => ?_, fun _ _ _ => rfl, le_rfl, rfl,
    (Nat.sub_self _).symm, ?_,
    fun _ => rfl, fun hlt => absurd hlt (lt_irrefl _)⟩
  · rw [if_neg (by omega)]
  · unfold delivered
    simp

/-- The transfer never goes beyond the blocks there are, but for the one it makes. -/
theorem index_le (h : Going inos loose v i write buf offset pos p w)
    (halign : pos = offset ∨ pos % 4096 = 0) (hstart : offset / 4096 ≤ (v.inode i).blocks) :
    pos / 4096 ≤ (w.inode i).blocks := by
  rcases h.le.eq_or_lt with heq | hlt
  · rw [h.start heq.symm, ← heq]
    exact hstart
  · rw [h.blocks hlt]
    omega

/-- **One block more.** -/
theorem step {b : ℕ} {w₁ w₂ : Volume} (h : Going inos loose v i write buf offset pos p w) (hi : i ∈ inos)
    (hl : Loaded inos loose w i (pos / 4096) b w₁) (hsize : 0 < size)
    (hend : pos % 4096 + size ≤ 4096)
    (hm : Moved inos loose w₁ write b (pos % 4096) size p w₂) :
    Going inos loose v i write buf offset (pos + size)
      { p with alen := p.alen + size, buf := filled w₁ write b (pos % 4096) size p } w₂ := by
  obtain ⟨hk, hle⟩ := hl.index
  have hself : bmap w₁ i (pos / 4096) = b := hl.self
  have hb0 : bmap w₁ i (pos / 4096) ≠ 0 := hself.symm ▸ hl.ne_zero
  have hbuf := h.buf
  have halen := h.alen
  have hle' := h.le
  have hpos : offset < pos + size := by omega
  have hcap : pos + size ≤ 1036 * 4096 := by omega
  have hblocks : (w₁.inode i).blocks = max (v.inode i).blocks ((pos + size + 4095) / 4096) := by
    have hw : (w.inode i).blocks = (v.inode i).blocks ∨
        (w.inode i).blocks = max (v.inode i).blocks ((pos + 4095) / 4096) := by
      rcases hle'.eq_or_lt with heq | hlt
      · exact .inl (by rw [h.start heq.symm])
      · exact .inr (h.blocks hlt)
    rw [hl.blocks]
    split <;> omega
  cases write with
  | true =>
    rw [Moved, if_pos rfl, ← hself] at hm
    rw [if_pos rfl] at hbuf
    have hinode : w₂.inode = w₁.inode := hm.inode
    refine ⟨hm.owned hl.owned hi hk hb0, (h.frame.trans hl.frame).trans (hm.frame hl.owned hi hk hb0),
      by rw [hinode, hl.size, h.size], by rw [hinode, hl.type, h.type],
      hm.dense hl.owned hi hk hb0 (hl.dense hi h.dense), fun y hy => ?_, fun n hn hle => ?_, by omega,
      h.ret, ?_, ?_,
      fun heq => absurd heq (by omega), fun _ => by rw [hinode, hblocks]⟩
    · rw [hm.content hl.owned hi hk hb0 hi hy, hl.content hi hy, h.content y hy]
      have hiff : (y / 4096 = pos / 4096 ∧ pos % 4096 ≤ y % 4096 ∧ y % 4096 < pos % 4096 + size) ↔
          pos ≤ y ∧ y < pos + size := by omega
      by_cases hin : pos ≤ y ∧ y < pos + size
      · rw [if_pos ⟨rfl, hiff.mpr hin⟩, if_pos ⟨rfl, by omega, hin.2⟩, hbuf, halen]
        congr 1
        omega
      · rw [if_neg fun hc => hin (hiff.mp hc.2)]
        refine if_congr ⟨fun hc => ⟨rfl, hc.2.1, by omega⟩, fun hc => ⟨rfl, hc.2.1, ?_⟩⟩ rfl rfl
        have := hc.2
        omega
    · have hsame := hm.missing hl.owned hi hk hb0 hn
      have hunused := hm.same.unused
      have hlmiss := hl.missing hi (by omega) hn h.dense
      have hmiss := h.missing n hn (by omega)
      omega
    · change p.alen + size = pos + size - offset
      omega
    · change filled w₁ true b (pos % 4096) size p = _
      rw [filled, if_pos rfl, if_pos rfl, hbuf]
  | false =>
    rw [Moved, if_neg (by simp)] at hm
    obtain ⟨hm, hown, hunused⟩ := hm
    rw [if_neg (by simp)] at hbuf
    have hinode : w₂.inode = w₁.inode := hm.inode
    have hsame : ∀ y < 1036 * 4096, Sfs.content w₁ i y = Sfs.content v i y := fun y hy => by
      rw [hl.content hi hy, h.content y hy, if_neg (by simp)]
    refine ⟨hown, (h.frame.trans hl.frame).trans hm.frame, by rw [hinode, hl.size, h.size],
      by rw [hinode, hl.type, h.type], hm.dense hi (hl.dense hi h.dense), fun y hy => ?_,
      fun n hn hle => ?_, by omega, h.ret, ?_, ?_, fun heq => absurd heq (by omega), fun _ => by rw [hinode, hblocks]⟩
    · rw [hm.content hi hy, hsame y hy, if_neg (by simp)]
    · have hsame := hm.missing hi hn
      have hlmiss := hl.missing hi (by omega) hn h.dense
      have hmiss := h.missing n hn (by omega)
      omega
    · change p.alen + size = pos + size - offset
      omega
    · change filled w₁ false b (pos % 4096) size p = _
      rw [filled, if_neg (by simp), if_neg (by simp), hbuf, halen]
      funext j
      unfold overlay delivered
      by_cases hin : pos - offset ≤ j ∧ j < pos - offset + size
      · have hblk : (offset + j) / 4096 = pos / 4096 := by omega
        have hrest : (offset + j) % 4096 = pos % 4096 + (j - (pos - offset)) := by omega
        rw [if_pos hin, if_pos (by omega), ← hsame _ (by omega), Sfs.content, hblk, if_neg hb0, hself,
          hrest]
      · rw [if_neg hin]
        exact if_congr (by omega) rfl rfl

end Going

/-- How a transfer of `[offset, endpos)` ends: all of it done, or at a block it could not move. -/
def Ended (inos loose : Finset ℕ) (v : Volume) (i : ℕ) (write : Bool) (buf : ℕ → UInt8)
    (offset endpos : ℕ) (p : Progress) (w : Volume) : Prop :=
  Going inos loose v i write buf offset endpos p w ∨
    ∃ pos < endpos, (pos = offset ∨ pos % 4096 = 0) ∧ Halted inos loose v i write buf offset pos p w

/-- A transfer that ended early did so for want of blocks, if no transfer of the device fails. -/
theorem Halted.lt_missing {buf : ℕ → UInt8} {offset pos : ℕ} {p : Progress}
    (h : Halted inos loose v i true buf offset pos p w) (hf : ¬ Faulty v)
    (halign : pos = offset ∨ pos % 4096 = 0) {n : ℕ} (hn : n ≤ 1036) (hlt : pos / 4096 < n) :
    v.unusedBlocks < missing v i n := by
  obtain ⟨p₀, w₀, hg, -, -, hk, hkept | hfault⟩ := h
  · have hr := hkept.2 (hg.frame.faulty.not.mpr hf)
    have hfew := hr.lt_missing (of_decide_eq_true hr.1).ge hlt
    rcases halign with heq | halign
    · rwa [hg.start heq] at hfew
    · have := hg.missing n hn (by omega)
      omega
  · exact absurd (hg.frame.faulty.mp hfault.1) hf

section Parts

variable {buf : ℕ → UInt8} {offset pos endpos n : ℕ}

/-- A block of the transfer, from `pos` to `pos + size`.  The panic beyond the map is reached only by
a file that grows to all the map holds, and had the blocks for it. -/
theorem Going.wp_ioBlock (h : Going inos loose v i write buf offset pos p w) (hi : i ∈ inos)
    (halign : pos = offset ∨ pos % 4096 = 0) (hstart : offset / 4096 ≤ (v.inode i).blocks)
    (hoff : pos % 4096 = off) (hwhole : whole = true → off = 0 ∧ size = 4096) (hsize : 0 < size)
    (hend : off + size ≤ 4096)
    (hrange : 1036 * 4096 < pos + size → Sfs.missing v i 1036 ≤ v.unusedBlocks → E .mapRange)
    (hQ : ∀ p w, Going inos loose v i write buf offset (pos + size) p w → Q p w)
    (hR : ∀ p w, Halted inos loose v i write buf offset pos p w → Q p w) :
    Act.wp (ioBlock i write whole (pos / 4096) off size p) Q E w := by
  subst hoff
  have hle := h.index_le halign hstart
  refine Sfs.wp_ioBlock h.owned hi hwhole (Nat.mod_lt _ (by norm_num)) hend
    (fun hlt => absurd hle (not_le.mpr hlt)) (fun _ hk => hrange (by omega) ?_)
    (fun hlt hk h0 => absurd h0 (h.dense.ne_zero _ hlt))
    (fun b w₁ w₂ hl hm => hQ _ _ (h.step hi hl hsize hend hm))
    (fun e he w' hf => hR _ _ ⟨p, w, h, he, rfl, hf⟩)
  have hfull : (w.inode i).blocks = 1036 := le_antisymm h.dense.le (hk.trans hle)
  have hlacks := h.dense.missing_full hfull
  rcases halign with heq | halign
  · rw [h.start heq] at hlacks
    omega
  · have hmiss := h.missing 1036 le_rfl (by omega)
    omega

/-- **The three parts of a transfer** that starts at a block the file has, or at its next one. -/
theorem wp_ioParts (h : Owned inos loose v) (hd : Dense v i) (hi : i ∈ inos) (hlt : offset < endpos)
    (hstart : offset / 4096 ≤ (v.inode i).blocks)
    (hrange : 1036 * 4096 < endpos → missing v i 1036 ≤ v.unusedBlocks → E .mapRange)
    (hQ : ∀ p w, Ended inos loose v i write buf offset endpos p w → Q p w) :
    Act.wp (ioParts i write offset endpos ⟨0, 0, buf⟩) Q E v := by
  have hpasses : Passes i write E (Going inos loose v i write buf offset)
      (Halted inos loose v i write buf offset) offset endpos := by
    refine ⟨fun h => h.ret, ?_, ?_⟩
    · rintro pos p w ⟨p₀, w₀, -, hneg, -, -⟩
      exact hneg.ne
    · intro pos p w whole off size hg halign hoff hwhole hsize hend hle
      exact hg.wp_ioBlock hi halign hstart hoff hwhole hsize hend
        (fun hlt => hrange (hlt.trans_le hle)) (fun _ _ => .inl) fun _ _ => .inr
  exact Act.wp_mono (hpasses.wp_ioParts (.refl h hd) hlt) hQ fun _ => id

/-! ## A start beyond the blocks of the file -/

theorem wp_ioBlock_beyond (hlt : (v.inode i).blocks < k) (hE : E .loadIndex) :
    Act.wp (ioBlock i write whole k off size p) Q E v := by
  rw [ioBlock, Act.wp_bind, Act.wp_run, Act.wpe_bind]
  simp only [sfsBmapLoadNolock, Act.wpe_bind, Act.wpe_get, Act.wpe_demand]
  exact ⟨fun hle => absurd hle (not_le.mpr hlt), fun _ => hE⟩

/-- **A transfer that starts beyond the next block fails the assertion of the load.** -/
theorem wp_ioParts_beyond (hlt : offset < endpos) (hbeyond : (v.inode i).blocks < offset / 4096)
    (hE : E .loadIndex) : Act.wp (ioParts i write offset endpos ⟨0, 0, buf⟩) Q E v := by
  rw [ioParts]
  dsimp only
  rw [Act.wp_ite]
  refine ⟨fun _ => ?_, fun hhead => ?_⟩
  · rw [Act.wp_bind]
    exact wp_ioBlock_beyond hbeyond hE
  · have hhead' : offset % 4096 = 0 := not_not.mp hhead
    rw [ioParts.rest, Act.wp_bind]
    cases hn : endpos / SFS_BLKSIZE - offset / SFS_BLKSIZE with
    | zero =>
      have hn' : endpos / 4096 - offset / 4096 = 0 := hn
      rw [ioBlocks, Act.wp_pure, if_neg (by simp), if_pos (by omega)]
      exact wp_ioBlock_beyond hbeyond hE
    | succ n =>
      rw [ioBlocks, Act.wp_bind]
      exact wp_ioBlock_beyond hbeyond hE

end Parts

/-! ## `sfs_io_nolock` -/

/-- The end of a transfer, as `sfs_io_nolock` cuts it. -/
def endOf (size : ℕ) (offset : ℤ) (len : ℕ) (write : Bool) : ℕ :=
  if write then min (toS64 (offset + len)).toNat SFS_MAX_FILE_SIZE
  else min (min (toS64 (offset + len)).toNat SFS_MAX_FILE_SIZE) size

/-- The arguments that `sfs_io_nolock` refuses. -/
def Invalid (offset : ℤ) (len : ℕ) : Prop :=
  offset < 0 ∨ offset ≥ SFS_MAX_FILE_SIZE ∨ offset > toS64 (offset + len)

/-- There is nothing to transfer. -/
def Nothing (size : ℕ) (offset : ℤ) (len : ℕ) (write : Bool) : Prop :=
  offset = toS64 (offset + len) ∨ (write = false ∧ offset ≥ size)

/-- A transfer that is neither refused nor empty has bytes to move. -/
theorem Nothing.lt_endOf {fsize len : ℕ} {offset : ℤ} (hinv : ¬ Invalid offset len)
    (hsome : ¬ Nothing fsize offset len write) :
    offset.toNat < endOf fsize offset len write := by
  unfold Invalid at hinv
  unfold Nothing at hsome
  push Not at hinv hsome
  obtain ⟨h0, hmax, hle⟩ := hinv
  obtain ⟨hne, hread⟩ := hsome
  have hmax' : offset < 1024 * 1024 * 128 := hmax
  have hlt : offset < toS64 (offset + len) := lt_of_le_of_ne hle hne
  unfold endOf
  cases write with
  | true =>
    rw [if_pos rfl]
    change _ < min _ (1024 * 1024 * 128)
    omega
  | false =>
    rw [if_neg (by simp)]
    have hsize : offset < fsize := hread rfl
    change _ < min (min _ (1024 * 1024 * 128)) _
    omega

/-- The volume with the size of the file `i` raised to `n`, if it is less. -/
def settle (v : Volume) (i n : ℕ) : Volume :=
  if n > (v.inode i).size then v.setInode i fun din => { din with size := n, dirty := true } else v

/-- **The rule of `sfs_io_nolock`**: it is refused, it has nothing to do, or it is its three parts and
the store of the size. -/
theorem wp_io_of_parts {buf : ℕ → UInt8} {offset : ℤ} {len : ℕ}
    (htype : (v.inode i).type = .dir → E .ioType)
    (hinvalid : Invalid offset len → Q ⟨-E_INVAL, 0, buf⟩ v)
    (hnothing : ¬ Invalid offset len → Nothing (v.inode i).size offset len write → Q ⟨0, 0, buf⟩ v)
    (hparts : ¬ Invalid offset len → ¬ Nothing (v.inode i).size offset len write →
      Act.wp (ioParts i write offset.toNat (endOf (v.inode i).size offset len write) ⟨0, 0, buf⟩)
        (fun p w => Q p (settle w i (offset.toNat + p.alen))) E v) :
    Act.wp (sfsIoNolock i buf offset len write) Q E v := by
  simp only [sfsIoNolock, Act.wp_bind, Act.wp_get, Act.wp_require]
  refine ⟨fun _ => ?_, fun hdir => htype (not_not.mp hdir)⟩
  rw [Act.wp_ite]
  refine ⟨fun hinv => hinvalid hinv, fun hinv => ?_⟩
  rw [Act.wp_ite]
  refine ⟨fun heq => hnothing hinv (.inl heq), fun hne => ?_⟩
  rw [Act.wp_ite]
  refine ⟨fun hread => hnothing hinv (.inr hread), fun hread => ?_⟩
  rw [Act.wp_bind]
  refine Act.wp_mono (hparts hinv fun hno => hno.elim hne hread) (fun p w hq => ?_) fun _ => id
  rw [Act.wp_bind, Act.wp_get, Act.wp_ite]
  unfold settle at hq
  refine ⟨fun hgrow => ?_, fun hgrow => ?_⟩
  · rw [if_pos hgrow] at hq
    rw [Act.wp_bind, Act.wp_modify, Act.wp_pure]
    exact hq
  · rw [if_neg hgrow] at hq
    rw [Act.wp_pure]
    exact hq

/-- **`sfs_io_nolock`**, on a file without holes. -/
theorem wp_sfsIoNolock {buf : ℕ → UInt8} {offset : ℤ} {len : ℕ} (h : Owned inos loose v)
    (hd : Dense v i) (hi : i ∈ inos) (htype : (v.inode i).type = .dir → E .ioType)
    (hinvalid : Invalid offset len → Q ⟨-E_INVAL, 0, buf⟩ v)
    (hnothing : ¬ Invalid offset len → Nothing (v.inode i).size offset len write → Q ⟨0, 0, buf⟩ v)
    (hindex : ¬ Invalid offset len → ¬ Nothing (v.inode i).size offset len write →
      (v.inode i).blocks < offset.toNat / 4096 → E .loadIndex)
    (hrange : ¬ Invalid offset len → ¬ Nothing (v.inode i).size offset len write →
      1036 * 4096 < endOf (v.inode i).size offset len write → missing v i 1036 ≤ v.unusedBlocks →
      E .mapRange)
    (hQ : ¬ Invalid offset len → ¬ Nothing (v.inode i).size offset len write →
      offset.toNat / 4096 ≤ (v.inode i).blocks → ∀ p w,
      Ended inos loose v i write buf offset.toNat (endOf (v.inode i).size offset len write) p w →
      Q p (settle w i (offset.toNat + p.alen))) :
    Act.wp (sfsIoNolock i buf offset len write) Q E v := by
  refine wp_io_of_parts htype hinvalid hnothing fun hinv hsome => ?_
  have hlt := Nothing.lt_endOf hinv hsome
  by_cases hstart : offset.toNat / 4096 ≤ (v.inode i).blocks
  · exact wp_ioParts h hd hi hlt hstart (hrange hinv hsome) (hQ hinv hsome hstart)
  · exact wp_ioParts_beyond hlt (not_le.mp hstart) (hindex hinv hsome (not_le.mp hstart))

end UCore.Sfs
